import Dvcs.Text
import Mathlib.Data.List.TakeDrop

/-!
This module contains the laws of looking for a part of a text and of cutting the text there.
-/

namespace Dvcs

namespace Text

theorem span_append {p : Sym → Bool} {t rest : Text} (ht : ∀ s ∈ t, p s = true)
    (hrest : ∀ s ∈ rest.head?, p s = false) : (t ++ rest).span p = (t, rest) := by
  rw [List.span_eq_takeWhile_dropWhile]
  rw [List.takeWhile_append_of_pos ht, List.dropWhile_append_of_pos ht]
  cases rest with
  | nil => simp
  | cons c rest => simp [hrest c rfl]

theorem suffix_of_after? {p t rest : Text} (h : after? p t = some rest) : rest <:+ t := by
  rw [eq_append_of_after? h]
  exact List.suffix_append p rest

theorem dropStart_suffix (p t : Text) : dropStart p t <:+ t := by
  unfold dropStart
  cases h : after? p t with
  | none => exact List.suffix_rfl
  | some rest => exact suffix_of_after? h

theorem before?_eq_some_iff {s t rest : Text} : before? s t = some rest ↔ t = rest ++ s := by
  unfold before?
  rw [Option.map_eq_some_iff]
  constructor
  . rintro ⟨u, hu, rfl⟩
    have := congrArg List.reverse (eq_append_of_after? hu)
    simpa using this
  . rintro rfl
    exact ⟨rest.reverse, by simp, by simp⟩

@[simp]
theorem before?_append (t s : Text) : before? s (t ++ s) = some t :=
  before?_eq_some_iff.2 rfl

theorem prefix_of_before? {s t rest : Text} (h : before? s t = some rest) : rest <+: t := by
  rw [before?_eq_some_iff.1 h]
  exact List.prefix_append rest s

theorem before?_of_not_mem {s : Sym} {t : Text} (h : s ∉ t) : before? [s] t = none := by
  cases hbefore : before? [s] t with
  | none => rfl
  | some rest =>
    rw [before?_eq_some_iff.1 hbefore] at h
    simp at h

theorem cut?_of_not_mem {s : Sym} {t : Text} (h : s ∉ t) : cut? [s] t = none := by
  induction t with
  | nil => simp [cut?]
  | cons c t ih =>
    rw [List.mem_cons, not_or] at h
    simp [cut?, after?, h.1, ih h.2]

theorem cut?_append_cons {s : Sym} {t : Text} (h : s ∉ t) (rest : Text) :
    cut? [s] (t ++ s :: rest) = some (t, rest) := by
  induction t with
  | nil => simp [cut?, after?]
  | cons c t ih =>
    rw [List.mem_cons, not_or] at h
    simp [cut?, after?, h.1, ih h.2]

theorem cut?_append_cons_cons {a b : Sym} (hab : a ≠ b) {t : Text} (h : b ∉ t) (rest : Text) :
    cut? [a, b] (t ++ a :: b :: rest) = some (t, rest) := by
  induction t with
  | nil => simp [cut?, after?]
  | cons c t ih =>
    rw [List.mem_cons, not_or] at h
    -- the second symbol of the separator cannot stand behind `c`
    have hnone : after? [a, b] (c :: (t ++ a :: b :: rest)) = none := by
      cases t with
      | nil => simp [after?, Ne.symm hab]
      | cons d t =>
        rw [List.mem_cons, not_or] at h
        simp [after?, h.2.1]
    simp [cut?, hnone, ih h.2]

theorem eq_append_of_cut? {sep t before rest : Text} (h : cut? sep t = some (before, rest)) :
    t = before ++ sep ++ rest := by
  induction t generalizing before with
  | nil =>
    simp only [cut?] at h
    split at h
    . next hsep =>
      cases h
      simp [hsep]
    . contradiction
  | cons c t ih =>
    rw [cut?] at h
    split at h
    . next hafter =>
      cases h
      rw [List.nil_append]
      exact eq_append_of_after? hafter
    . obtain ⟨⟨front, back⟩, hcut, heq⟩ := Option.map_eq_some_iff.1 h
      cases heq
      rw [ih hcut]
      rfl

/-- A text is cut at the first place where the separator stands. -/
theorem length_le_of_cut? {sep t before rest front back : Text}
    (h : cut? sep t = some (before, rest)) (heq : t = front ++ sep ++ back) :
    before.length ≤ front.length := by
  induction t generalizing before front with
  | nil =>
    have hparts := eq_append_of_cut? h
    rw [List.append_assoc] at hparts
    rw [(List.append_eq_nil_iff.1 hparts.symm).1]
    exact Nat.zero_le _
  | cons c t ih =>
    rw [cut?] at h
    split at h
    . cases h
      exact Nat.zero_le _
    . next hnone =>
      obtain ⟨⟨before', rest'⟩, hcut, hresult⟩ := Option.map_eq_some_iff.1 h
      cases hresult
      cases front with
      | nil =>
        rw [heq, List.nil_append, after?_append] at hnone
        contradiction
      | cons d front =>
        rw [List.cons_append, List.cons_append, List.cons.injEq] at heq
        exact Nat.succ_le_succ (ih hcut heq.2)

theorem isSome_cut?_append (before sep rest : Text) :
    (cut? sep (before ++ sep ++ rest)).isSome = true := by
  induction before with
  | nil =>
    cases sep with
    | nil => cases rest <;> simp [cut?]
    | cons a sep =>
      have := after?_append (a :: sep) rest
      rw [List.cons_append] at this
      simp [cut?, this]
  | cons c before ih =>
    rw [List.cons_append, List.cons_append, cut?]
    split
    . rfl
    . simpa using ih

end Text

end Dvcs
