import Dvcs.Proofs.FileTree

/-!
This module contains what a sequence of effects makes of the files of a tree. A file depends on the
effects on its own place alone: its content can be followed through the effects, and two trees that
differ in another file only go on doing so.
-/

namespace Dvcs

/-- What an effect makes of the content of a file, if the file is there. -/
def FileEffect.on : FileEffect → Option Bytes → Option Bytes
  | keep, content => content
  | write content, _ => some content
  | remove, _ => none

namespace FileTree

variable {t t' : FileTree} {p : Path} {place other : List Text} {content : Option Bytes}

/-- The place that a path leads to, if the directories on the way are there. -/
def place? (t : FileTree) (p : Path) : Option (List Text) := (t.locate p).toOption

theorem locate_of_place? (h : t.place? p = some place) : t.locate p = .ok place := by
  unfold place? at h
  cases hlocate : t.locate p with
  | error fault =>
    rw [hlocate] at h
    cases h
  | ok there =>
    rw [hlocate] at h
    cases h
    rfl

theorem place?_of_locate (h : t.locate p = .ok place) : t.place? p = some place := by
  rw [place?, h]
  rfl

theorem get?_eq (t : FileTree) (p : Path) : t.get? p = (t.place? p).bind t.node? := rfl

theorem SameDirectories.symm (h : SameDirectories t t') : SameDirectories t' t :=
  fun place => (h place).symm

theorem SameDirectories.place?_eq (h : SameDirectories t t') (p : Path) :
    t'.place? p = t.place? p := by
  cases hplace : t.place? p with
  | some place => exact place?_of_locate (h.locate (locate_of_place? hplace))
  | none =>
    cases hplace' : t'.place? p with
    | none => rfl
    | some place =>
      rw [place?_of_locate (h.symm.locate (locate_of_place? hplace'))] at hplace
      cases hplace

/-- What effects on files make of the content of the file at `p`, if the file is there. -/
def follow (t : FileTree) (p : Path) (content : Option Bytes) (es : List (Path × FileEffect)) :
    Option Bytes :=
  es.foldl (fun content e => if t.place? e.1 = t.place? p then e.2.on content else content) content

theorem SameDirectories.follow_eq (h : SameDirectories t t') (p : Path) (content : Option Bytes)
    (es : List (Path × FileEffect)) : t'.follow p content es = t.follow p content es := by
  simp only [follow, h.place?_eq]

theorem exists_content (h : t.node? place ≠ some .directory) :
    ∃ content : Option Bytes, t.node? place = content.map .file := by
  rcases hnode : t.node? place with _ | ⟨content⟩ | _
  . exact ⟨none, rfl⟩
  . exact ⟨some content, rfl⟩
  . exact absurd hnode h

theorem unlink_eq_ok (hplace : t.locate p = .ok place) {content : Bytes}
    (hnode : t.node? place = some (.file content)) : t.unlink p = .ok (t.erase place) := by
  unfold unlink
  rw [hplace]
  simp only [bind, Except.bind, hnode]
  rfl

theorem unlink_of_missing (hplace : t.locate p = .ok place) (hnode : t.node? place = none) :
    t.unlink p = .error .noEntry := by
  unfold unlink
  rw [hplace]
  simp only [bind, Except.bind, hnode]
  rfl

theorem node?_change {e : Path × FileEffect} (hplace : t.place? e.1 = some place)
    (hnode : t.node? place = content.map .file) :
    (t.change e).node? place = (e.2.on content).map .file := by
  obtain ⟨p, effect⟩ := e
  have hlocate := locate_of_place? hplace
  have hfile : t.node? place ≠ some .directory := by
    rw [hnode]
    cases content <;> nofun
  cases effect with
  | keep => exact hnode
  | write written =>
    rw [change, write_eq_ok hlocate hfile]
    exact node?_set t _ (ne_nil_of_node? hfile)
  | remove =>
    cases content with
    | none =>
      rw [change, unlink_of_missing hlocate hnode]
      exact hnode
    | some content =>
      rw [change, unlink_eq_ok hlocate hnode]
      exact node?_erase t (ne_nil_of_node? hfile)

theorem node?_change_of_ne {e : Path × FileEffect} (h : t.place? e.1 ≠ some other) :
    (t.change e).node? other = t.node? other := by
  obtain ⟨p, effect⟩ := e
  cases effect with
  | keep => rfl
  | write content =>
    rw [change]
    unfold write
    cases hlocate : t.locate p with
    | error fault => rfl
    | ok place =>
      have hne : other ≠ place := fun heq => h (heq ▸ place?_of_locate hlocate)
      simp only [bind, Except.bind]
      split
      . rfl
      . exact node?_set_of_ne t _ hne
  | remove =>
    rw [change]
    unfold unlink
    cases hlocate : t.locate p with
    | error fault => rfl
    | ok place =>
      have hne : other ≠ place := fun heq => h (heq ▸ place?_of_locate hlocate)
      simp only [bind, Except.bind]
      split
      . exact node?_erase_of_ne t hne
      . rfl
      . rfl

theorem node?_changes (hplace : t.place? p = some place)
    (hnode : t.node? place = content.map .file) (es : List (Path × FileEffect)) :
    (es.foldl change t).node? place = (t.follow p content es).map .file := by
  induction es generalizing t content with
  | nil => exact hnode
  | cons e es ih =>
    have hsame := sameDirectories_change t e
    have hplace' : (t.change e).place? p = some place := by rw [hsame.place?_eq, hplace]
    rw [follow, List.foldl_cons, List.foldl_cons]
    split
    . next heq =>
      rw [ih hplace' (node?_change (heq.trans hplace) hnode), hsame.follow_eq]
      rfl
    . next hne =>
      have hother : (t.change e).node? place = content.map .file := by
        rw [node?_change_of_ne (hplace ▸ hne), hnode]
      rw [ih hplace' hother, hsame.follow_eq]
      rfl

theorem get?_changes (hplace : t.place? p = some place)
    (hnode : t.node? place = content.map .file) (es : List (Path × FileEffect)) :
    (es.foldl change t).get? p = (t.follow p content es).map .file := by
  rw [get?_eq, (sameDirectories_changes t es).place?_eq, hplace]
  exact node?_changes hplace hnode es

theorem read_eq_ok_iff {content : Bytes} :
    t.read p = .ok content ↔ t.get? p = some (.file content) := by
  rw [get?_eq]
  unfold read place?
  cases t.locate p with
  | error fault => simp [bind, Except.bind, Except.toOption]
  | ok place =>
    simp only [bind, Except.bind, Except.toOption, Option.bind_some]
    split
    . next found hnode => simp [hnode, pure, Except.pure]
    . next hnode => simp [hnode, throw, throwThe, MonadExceptOf.throw]
    . next hnode => simp [hnode, throw, throwThe, MonadExceptOf.throw]

/-- Two trees with the same directories that differ in the file at one place at most. -/
structure AgreesOff (place : List Text) (t t' : FileTree) : Prop where
  same : SameDirectories t t'
  node?_eq : ∀ other, other ≠ place → t'.node? other = t.node? other

theorem AgreesOff.of_change {e : Path × FileEffect} (hplace : t.place? e.1 = some place) :
    AgreesOff place t (t.change e) where
  same := sameDirectories_change t e
  node?_eq other hother := node?_change_of_ne (by simpa [hplace] using hother.symm)

theorem AgreesOff.trans {t'' : FileTree} (h : AgreesOff place t t') (h' : AgreesOff place t' t'') :
    AgreesOff place t t'' where
  same := h.same.trans h'.same
  node?_eq other hother := (h'.node?_eq other hother).trans (h.node?_eq other hother)

theorem AgreesOff.change (h : AgreesOff place t t') (e : Path × FileEffect) :
    AgreesOff place (t.change e) (t'.change e) where
  same := (sameDirectories_change t e).symm.trans (h.same.trans (sameDirectories_change t' e))
  node?_eq other hother := by
    have hnode := h.node?_eq other hother
    by_cases hplace : t.place? e.1 = some other
    . have hplace' : t'.place? e.1 = some other := by rw [h.same.place?_eq, hplace]
      by_cases hdirectory : t.node? other = some .directory
      . rw [(sameDirectories_change t e other).1 hdirectory]
        exact (sameDirectories_change t' e other).1 (hnode.trans hdirectory)
      . obtain ⟨content, hcontent⟩ := exists_content hdirectory
        rw [node?_change hplace hcontent, node?_change hplace' (hnode.trans hcontent)]
    . have hplace' : t'.place? e.1 ≠ some other := by rwa [h.same.place?_eq]
      rw [node?_change_of_ne hplace, node?_change_of_ne hplace', hnode]

theorem AgreesOff.changes (h : AgreesOff place t t') (es : List (Path × FileEffect)) :
    AgreesOff place (es.foldl FileTree.change t) (es.foldl FileTree.change t') := by
  induction es generalizing t t' with
  | nil => exact h
  | cons e es ih => exact ih (h.change e)

/-- A file that is there for a while leaves no traces in others. -/
theorem agreesOff_while (hplace : t.place? p = some place) (content : Bytes)
    (es : List (Path × FileEffect)) :
    AgreesOff place (es.foldl FileTree.change t)
      ((es.foldl FileTree.change (t.change (p, .write content))).change (p, .remove)) := by
  have hmade : AgreesOff place t (t.change (p, .write content)) :=
    .of_change (e := (p, .write content)) hplace
  have hsame := hmade.same.trans (sameDirectories_changes _ es)
  exact (hmade.changes es).trans (.of_change (by rw [hsame.place?_eq, hplace]))

theorem AgreesOff.get?_eq (h : AgreesOff place t t') (hp : t.place? p ≠ some place) :
    t'.get? p = t.get? p := by
  rw [FileTree.get?_eq, FileTree.get?_eq, h.same.place?_eq]
  cases hplace : t.place? p with
  | none => rfl
  | some other => exact h.node?_eq other fun heq => hp (heq ▸ hplace)

end FileTree

end Dvcs
