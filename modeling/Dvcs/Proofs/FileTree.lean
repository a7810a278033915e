import Dvcs.FileTree

/-!
This module contains what writing and deleting single files does to a tree: the directories stay the
same ones, so every path goes on leading to the place that it led to before.
-/

namespace Dvcs

namespace FileTree

/-- Two trees with the same directories, whatever their files. -/
def SameDirectories (t t' : FileTree) : Prop :=
  ∀ place, t.node? place = some .directory ↔ t'.node? place = some .directory

theorem SameDirectories.refl (t : FileTree) : SameDirectories t t := fun _ => .rfl

theorem SameDirectories.trans {t t' t'' : FileTree} (h : SameDirectories t t')
    (h' : SameDirectories t' t'') : SameDirectories t t'' :=
  fun place => (h place).trans (h' place)

theorem SameDirectories.walk {t t' : FileTree} (h : SameDirectories t t') {names : List Text}
    {place there : List Text} (hwalk : t.walk place names = .ok there) :
    t'.walk place names = .ok there := by
  induction names generalizing place with
  | nil => exact hwalk
  | cons name names ih =>
    unfold FileTree.walk at hwalk ⊢
    split at hwalk
    . contradiction
    . contradiction
    . next hnode =>
      rw [(h place).1 hnode]
      exact ih hwalk

theorem SameDirectories.locate {t t' : FileTree} (h : SameDirectories t t') {p : Path}
    {place : List Text} (hlocate : t.locate p = .ok place) : t'.locate p = .ok place :=
  h.walk hlocate

theorem SameDirectories.isDirectory {t t' : FileTree} (h : SameDirectories t t') {p : Path}
    (hp : t.isDirectory p = true) : t'.isDirectory p = true := by
  unfold FileTree.isDirectory get? at hp ⊢
  cases hplace : t.locate p with
  | error fault => simp [hplace, Except.toOption] at hp
  | ok place =>
    rw [hplace] at hp
    rw [h.locate hplace]
    exact beq_iff_eq.2 ((h place).1 (beq_iff_eq.1 hp))

theorem node?_nil (t : FileTree) : t.node? [] = some .directory := rfl

theorem ne_nil_of_node? {t : FileTree} {place : List Text}
    (h : t.node? place ≠ some .directory) : place ≠ [] := by
  rintro rfl
  exact h t.node?_nil

theorem node?_erase (t : FileTree) {place : List Text} (h : place ≠ []) :
    (t.erase place).node? place = none := by
  unfold node? erase
  rw [if_neg h]
  rw [List.lookup_eq_none_iff]
  intro entry hentry
  have hne : entry.1 ≠ place := by simpa using (List.mem_filter.1 hentry).2
  simpa using hne.symm

theorem sameDirectories_set {t : FileTree} {place : List Text}
    (h : t.node? place ≠ some .directory) (content : Bytes) :
    SameDirectories t (t.set place (.file content)) := by
  intro other
  by_cases hother : other = place
  . rw [hother, node?_set t _ (ne_nil_of_node? h)]
    simp [h]
  . rw [node?_set_of_ne t _ hother]

theorem sameDirectories_erase {t : FileTree} {place : List Text}
    (h : t.node? place ≠ some .directory) : SameDirectories t (t.erase place) := by
  intro other
  by_cases hother : other = place
  . rw [hother, node?_erase t (ne_nil_of_node? h)]
    simp [h]
  . rw [node?_erase_of_ne t hother]

theorem write_eq_ok {t : FileTree} {p : Path} {place : List Text} (hplace : t.locate p = .ok place)
    (hnode : t.node? place ≠ some .directory) (content : Bytes) :
    t.write p content = .ok (t.set place (.file content)) := by
  unfold write
  rw [hplace]
  simp only [bind, Except.bind]
  rfl

theorem sameDirectories_of_write {t t' : FileTree} {p : Path} {content : Bytes}
    (h : t.write p content = .ok t') : SameDirectories t t' := by
  unfold write at h
  cases hplace : t.locate p with
  | error fault =>
    rw [hplace] at h
    contradiction
  | ok place =>
    rw [hplace] at h
    simp only [bind, Except.bind] at h
    split at h
    . contradiction
    . next hnode =>
      cases h
      exact sameDirectories_set hnode content

theorem sameDirectories_of_unlink {t t' : FileTree} {p : Path} (h : t.unlink p = .ok t') :
    SameDirectories t t' := by
  unfold unlink at h
  cases hplace : t.locate p with
  | error fault =>
    rw [hplace] at h
    contradiction
  | ok place =>
    rw [hplace] at h
    simp only [bind, Except.bind] at h
    split at h
    . next content hnode =>
      cases h
      apply sameDirectories_erase
      rw [hnode]
      nofun
    . contradiction
    . contradiction

theorem sameDirectories_change (t : FileTree) (e : Path × FileEffect) :
    SameDirectories t (t.change e) := by
  obtain ⟨p, effect⟩ := e
  cases effect with
  | keep => exact .refl t
  | write content =>
    change SameDirectories t ((t.write p content).toOption.getD t)
    cases hwrite : t.write p content with
    | error fault => exact .refl t
    | ok t' => exact sameDirectories_of_write hwrite
  | remove =>
    change SameDirectories t ((t.unlink p).toOption.getD t)
    cases hunlink : t.unlink p with
    | error fault => exact .refl t
    | ok t' => exact sameDirectories_of_unlink hunlink

theorem sameDirectories_changes (t : FileTree) (es : List (Path × FileEffect)) :
    SameDirectories t (es.foldl change t) := by
  induction es generalizing t with
  | nil => exact .refl t
  | cons e es ih => exact (sameDirectories_change t e).trans (ih _)

theorem has_eq_false {t : FileTree} {p : Path} {place : List Text} (hplace : t.locate p = .ok place)
    (hnode : t.node? place = none) : t.has p = false := by
  simp [has, get?, hplace, Except.toOption, hnode]

theorem node?_of_not_has {t : FileTree} {p : Path} {place : List Text}
    (hplace : t.locate p = .ok place) (h : t.has p = false) : t.node? place = none := by
  simpa [has, get?, hplace, Except.toOption] using h

theorem not_has_unlink {t : FileTree} {p : Path} {place : List Text}
    (hplace : t.locate p = .ok place) (hnode : t.node? place ≠ some .directory) :
    ((t.unlink p).toOption.getD t).has p = false := by
  cases hunlink : t.unlink p with
  | error fault =>
    -- only a place without a file refuses
    refine has_eq_false hplace ?_
    unfold unlink at hunlink
    rw [hplace] at hunlink
    simp only [bind, Except.bind] at hunlink
    split at hunlink
    . contradiction
    . contradiction
    . assumption
  | ok t' =>
    have hplace' := (sameDirectories_of_unlink hunlink).locate hplace
    refine has_eq_false hplace' ?_
    unfold unlink at hunlink
    rw [hplace] at hunlink
    simp only [bind, Except.bind] at hunlink
    split at hunlink
    . cases hunlink
      exact node?_erase t (ne_nil_of_node? hnode)
    . contradiction
    . contradiction

theorem walk_append (t : FileTree) (place names more : List Text) :
    t.walk place (names ++ more) = t.walk place names >>= fun there => t.walk there more := by
  induction names generalizing place with
  | nil => rfl
  | cons name names ih =>
    rw [List.cons_append, FileTree.walk, FileTree.walk]
    cases t.node? place with
    | none => rfl
    | some node =>
      cases node with
      | file content => rfl
      | directory => exact ih _

theorem locate_child {t : FileTree} {directory : Path} (h : t.isDirectory directory = true) :
    ∃ place, ∀ name, name ≠ (".." : Text) →
      t.locate ⟨directory.root, directory.parts ++ [name]⟩ = .ok (place ++ [name]) := by
  unfold isDirectory get? at h
  cases hplace : t.locate directory with
  | error fault => simp [hplace, Except.toOption] at h
  | ok place =>
    have hnode : t.node? place = some .directory := by
      simpa [hplace, Except.toOption] using h
    refine ⟨place, fun name hname => ?_⟩
    unfold locate at hplace ⊢
    rw [walk_append, hplace]
    simp [bind, Except.bind, FileTree.walk, hnode, hname]

theorem locate_child_of_not_isDirectory {t : FileTree} {directory : Path}
    (h : t.isDirectory directory = false) (name : Text) :
    ∃ fault, t.locate ⟨directory.root, directory.parts ++ [name]⟩ = .error fault := by
  unfold isDirectory get? at h
  unfold locate at h ⊢
  rw [walk_append]
  cases hplace : t.walk [] directory.parts with
  | error fault => exact ⟨fault, rfl⟩
  | ok place =>
    simp only [hplace, Except.toOption, Option.bind_some, beq_eq_false_iff_ne] at h
    simp only [bind, Except.bind, FileTree.walk]
    split
    . exact ⟨_, rfl⟩
    . exact ⟨_, rfl⟩
    . contradiction

theorem mem_of_has {t : FileTree} {p : Path} {place : List Text} (hplace : t.locate p = .ok place)
    (hne : place ≠ []) (h : t.has p = true) : place ∈ t.entries.map (·.1) := by
  have hnode : (t.node? place).isSome = true := by
    simpa [has, get?, hplace, Except.toOption] using h
  unfold node? at hnode
  rw [if_neg hne] at hnode
  apply Decidable.byContradiction
  intro hmem
  rw [List.lookup_eq_none_iff.2] at hnode
  . contradiction
  . intro entry hentry
    have hother : place ≠ entry.1 := fun heq => hmem (List.mem_map.2 ⟨entry, hentry, heq.symm⟩)
    simpa using hother

end FileTree

end Dvcs
