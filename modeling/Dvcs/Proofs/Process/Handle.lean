import Dvcs.Process.Handle
import Dvcs.Proofs.Text.Stray

/-!
This module contains the cutting of output into lines: ended lines come out as they are, whatever
follows them.
-/

namespace Dvcs

namespace Handle

/-- Lines as bytes, every line ended. -/
def ended (ls : List Bytes) : Bytes := ls.flatMap (· ++ [10])

/-- Output that does not stop inside of a line. -/
def Complete (bs : Bytes) : Prop := ∀ b ∈ bs.getLast?, b = 10

instance (bs : Bytes) : Decidable (Complete bs) :=
  inferInstanceAs (Decidable (∀ b ∈ bs.getLast?, b = 10))

theorem cutLine_append {line : Bytes} (h : 10 ∉ line) (rest : Bytes) :
    cutLine (line ++ 10 :: rest) = (line, rest) := by
  induction line with
  | nil => simp [cutLine]
  | cons b line ih =>
    rw [List.mem_cons, not_or] at h
    rw [List.cons_append, cutLine, if_neg (Ne.symm h.1), ih h.2]

theorem linesOf_append {line : Bytes} (h : 10 ∉ line) (rest : Bytes) :
    linesOf (line ++ 10 :: rest) = Text.decode line :: linesOf rest := by
  have hcut := cutLine_append h rest
  generalize hbs : line ++ 10 :: rest = bs at hcut
  cases bs with
  | nil => simp at hbs
  | cons b bs => rw [linesOf, hcut]

theorem linesOf_ended_append {ls : List Bytes} (h : ∀ line ∈ ls, 10 ∉ line) (rest : Bytes) :
    linesOf (ended ls ++ rest) = ls.map Text.decode ++ linesOf rest := by
  induction ls with
  | nil => rfl
  | cons line ls ih =>
    rw [List.forall_mem_cons] at h
    have hcons : ended (line :: ls) ++ rest = line ++ 10 :: (ended ls ++ rest) := by
      simp [ended]
    rw [hcons, linesOf_append h.1, ih h.2]
    rfl

theorem complete_ended (ls : List Bytes) : Complete (ended ls) := by
  intro b hb
  rcases List.eq_nil_or_concat ls with rfl | ⟨front, last, rfl⟩
  . contradiction
  . simp [ended] at hb
    exact hb.symm

theorem exists_ended {bs : Bytes} (h : Complete bs) :
    ∃ ls, bs = ended ls ∧ ∀ line ∈ ls, 10 ∉ line := by
  induction bs with
  | nil => exact ⟨[], rfl, nofun⟩
  | cons b bs ih =>
    have hrest : Complete bs := by
      intro c hc
      apply h c
      rw [List.getLast?_cons, Option.mem_def.1 hc]
      rfl
    obtain ⟨ls, rfl, hls⟩ := ih hrest
    by_cases hb : b = 10
    . refine ⟨[] :: ls, by simp [ended, hb], ?_⟩
      rw [List.forall_mem_cons]
      exact ⟨nofun, hls⟩
    . cases ls with
      | nil => exact absurd (h b rfl) hb
      | cons line ls =>
        rw [List.forall_mem_cons] at hls
        refine ⟨(b :: line) :: ls, by simp [ended], ?_⟩
        rw [List.forall_mem_cons, List.mem_cons, not_or]
        exact ⟨⟨Ne.symm hb, hls.1⟩, hls.2⟩

theorem linesOf_complete_append {bs : Bytes} (h : Complete bs) (rest : Bytes) :
    linesOf (bs ++ rest) = linesOf bs ++ linesOf rest := by
  obtain ⟨ls, rfl, hls⟩ := exists_ended h
  have hall := linesOf_ended_append hls []
  rw [List.append_nil] at hall
  rw [linesOf_ended_append hls, hall]
  simp [linesOf]

theorem linesOf_ended_encode {ls : List Text} (h : ∀ line ∈ ls, Text.IsLine line) :
    linesOf (ended (ls.map Text.encode)) = ls := by
  have hlines := linesOf_ended_append (List.forall_mem_map.2 fun line hline =>
    (h line hline).not_mem_encode) []
  have hdecode : ls.map (Text.decode ∘ Text.encode) = ls := by
    conv => rhs; rw [← List.map_id ls]
    exact List.map_congr_left fun line hline => (h line hline).1
  rw [List.append_nil, List.map_map, hdecode] at hlines
  simpa [linesOf] using hlines

end Handle

end Dvcs
