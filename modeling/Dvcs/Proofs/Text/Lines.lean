import Dvcs.Proofs.Text.Strict
import Dvcs.Text.Space

/-!
This module contains the lines of whole texts: no line has a break of its own, and texts without
breaks that are written as lines are read as the same lines again.
-/

namespace Dvcs

namespace Text

/-- A text that does not end a line anywhere. -/
def Unbroken (t : Text) : Prop := ∀ s ∈ t, s.isLineBreak = false

instance (t : Text) : Decidable (Unbroken t) :=
  inferInstanceAs (Decidable (∀ s ∈ t, s.isLineBreak = false))

theorem unbroken_append {s t : Text} : Unbroken (s ++ t) ↔ Unbroken s ∧ Unbroken t :=
  List.forall_mem_append

theorem Unbroken.not_mem_return {t : Text} (h : Unbroken t) : .char '\r' ∉ t := by
  intro hmem
  have := h _ hmem
  contradiction

theorem lines_cons_of_not_break {c : Sym} (h : c.isLineBreak = false) (t : Text) :
    lines (c :: t) = match lines t with
      | [] => [[c]]
      | line :: ls => (c :: line) :: ls := by
  conv => lhs; unfold lines
  split
  . next heq =>
    cases heq
  . next heq =>
    cases heq
    contradiction
  . next heq =>
    cases heq
    rw [h]
    rfl

theorem lines_append_newline {line : Text} (h : Unbroken line) (rest : Text) :
    lines (line ++ .char '\n' :: rest) = line :: lines rest := by
  induction line with
  | nil => rfl
  | cons c line ih =>
    rw [Unbroken, List.forall_mem_cons] at h
    rw [List.cons_append, lines_cons_of_not_break h.1, ih h.2]

theorem lines_unlines {ls : List Text} (h : ∀ line ∈ ls, Unbroken line) :
    lines (unlines ls) = ls := by
  induction ls with
  | nil => rfl
  | cons line ls ih =>
    rw [List.forall_mem_cons] at h
    have hcons : unlines (line :: ls) = line ++ .char '\n' :: unlines ls := by
      simp [unlines, ofString]
    rw [hcons, lines_append_newline h.1, ih h.2]

theorem mem_of_mem_lines {t line : Text} (hline : line ∈ lines t) {s : Sym} (hs : s ∈ line) :
    s ∈ t ∧ s.isLineBreak = false := by
  fun_induction lines t generalizing line with
  | case1 => contradiction
  | case2 t ih =>
    rcases List.mem_cons.1 hline with rfl | hmem
    . contradiction
    . exact ⟨by simp [(ih hmem hs).1], (ih hmem hs).2⟩
  | case3 c t hcrlf hbreak ih =>
    rcases List.mem_cons.1 hline with rfl | hmem
    . contradiction
    . exact ⟨List.mem_cons_of_mem c (ih hmem hs).1, (ih hmem hs).2⟩
  | case4 c t hcrlf hbreak hlines ih =>
    rw [List.mem_singleton.1 hline, List.mem_singleton] at hs
    rw [hs]
    exact ⟨List.mem_cons_self, Bool.eq_false_iff.2 hbreak⟩
  | case5 c t hcrlf hbreak first ls hlines ih =>
    rw [hlines] at ih
    rcases List.mem_cons.1 hline with rfl | hmem
    . rcases List.mem_cons.1 hs with rfl | hmem
      . exact ⟨List.mem_cons_self, Bool.eq_false_iff.2 hbreak⟩
      . have := ih List.mem_cons_self hmem
        exact ⟨List.mem_cons_of_mem c this.1, this.2⟩
    . have := ih (List.mem_cons_of_mem first hmem) hs
      exact ⟨List.mem_cons_of_mem c this.1, this.2⟩

theorem unifyNewlines_eq_self {t : Text} (h : .char '\r' ∉ t) : unifyNewlines t = t := by
  fun_induction unifyNewlines t with
  | case1 => rfl
  | case2 t ih => simp at h
  | case3 c t hcrlf ih =>
    rw [List.mem_cons, not_or] at h
    rw [if_neg (Ne.symm h.1), ih h.2]

theorem mem_of_mem_unifyNewlines {t : Text} {s : Sym} (h : s ∈ unifyNewlines t) :
    s ∈ t ∨ s = .char '\n' := by
  fun_induction unifyNewlines t with
  | case1 => contradiction
  | case2 t ih =>
    rcases List.mem_cons.1 h with rfl | hmem
    . exact .inr rfl
    . exact (ih hmem).imp_left fun ht => by simp [ht]
  | case3 c t hcrlf ih =>
    rcases List.mem_cons.1 h with rfl | hmem
    . by_cases hc : c = .char '\r' <;> simp [hc]
    . exact (ih hmem).imp_left (List.mem_cons_of_mem c)

theorem noStrays_unlines {ls : List Text} :
    NoStrays (unlines ls) ↔ ∀ line ∈ ls, NoStrays line := by
  constructor
  . intro h line hline b hb
    exact h b (List.mem_flatMap.2 ⟨line, hline, List.mem_append_left _ hb⟩)
  . intro h b hb
    obtain ⟨line, hline, hs⟩ := List.mem_flatMap.1 hb
    rcases List.mem_append.1 hs with hs | hs
    . exact h line hline b hs
    . contradiction

theorem join_append_newline {ls : List Text} (h : ls ≠ []) :
    join "\n" ls ++ ("\n" : Text) = unlines ls := by
  unfold join unlines
  induction ls with
  | nil => contradiction
  | cons line ls ih =>
    cases ls with
    | nil => simp
    | cons next ls =>
      rw [List.intercalate_cons_cons, List.append_assoc, List.append_assoc,
        ih (List.cons_ne_nil next ls)]
      simp

/-- The lines of a file that holds a text. -/
def fileLines (t : Text) : List Text := t.unifyNewlines.lines

theorem fileLines_unlines {ls : List Text} (h : ∀ line ∈ ls, Unbroken line) :
    fileLines (unlines ls) = ls := by
  have hreturn : .char '\r' ∉ unlines ls := by
    intro hmem
    obtain ⟨line, hline, hs⟩ := List.mem_flatMap.1 hmem
    rcases List.mem_append.1 hs with hs | hs
    . exact (h line hline).not_mem_return hs
    . contradiction
  unfold fileLines
  rw [unifyNewlines_eq_self hreturn, lines_unlines h]

theorem unbroken_of_mem_fileLines {t line : Text} (h : line ∈ fileLines t) : Unbroken line :=
  fun _ hs => (mem_of_mem_lines h hs).2

theorem noStrays_of_mem_fileLines {t line : Text} (ht : NoStrays t) (h : line ∈ fileLines t) :
    NoStrays line := by
  intro b hb
  rcases mem_of_mem_unifyNewlines (mem_of_mem_lines h hb).1 with hmem | heq
  . exact ht b hmem
  . contradiction

end Text

end Dvcs
