import Dvcs.Patch.Unified
import Dvcs.Proofs.Hunk.Block
import Mathlib.Data.List.Chain

/-!
This module contains scripts that are cut into blocks, with any number of shared lines around the
changes. The hunks that are read from the printed blocks depend on the script alone.
-/

namespace Dvcs

namespace Hunk

open Text

namespace Script

/-- No run of changes goes on from the first script into the second one. -/
def Border (s t : Script) : Prop :=
  ∀ e ∈ s.getLast?, ∀ f ∈ t.head?, e.isShared = true ∨ f.isShared = true

theorem run_append {s : Script} (h : afterRun s ≠ []) (t : Script) : run (s ++ t) = run s := by
  have hlength : (run s).length ≠ s.length := by
    intro heq
    have := congrArg List.length (run_append_afterRun s)
    rw [List.length_append, heq] at this
    exact h (List.length_eq_zero_iff.1 (by omega))
  unfold run at hlength ⊢
  rw [List.takeWhile_append, if_neg hlength]

theorem afterRun_append {s : Script} (h : afterRun s ≠ []) (t : Script) :
    afterRun (s ++ t) = afterRun s ++ t := by
  unfold afterRun at h ⊢
  rw [List.dropWhile_append, if_neg (by simpa using h)]

theorem run_eq_self {s : Script} (h : afterRun s = []) : run s = s := by
  have := run_append_afterRun s
  rwa [h, List.append_nil] at this

theorem run_append_of_border {s t : Script} (h : afterRun s = [])
    (ht : ∀ f ∈ t.head?, f.isShared = true) : run (s ++ t) = s ∧ afterRun (s ++ t) = t := by
  have hs : ∀ e ∈ s, (!e.isShared) = true := by
    rw [← run_eq_self h]
    intro e he
    simp [isShared_of_mem_run he]
  unfold run afterRun
  rw [List.takeWhile_append_of_pos hs, List.dropWhile_append_of_pos hs]
  cases t with
  | nil => simp
  | cons f t => simp [ht f rfl]

theorem Border.of_append {s s' t : Script} (h : Border (s ++ s') t) : Border s' t := by
  intro e he f hf
  apply h e _ f hf
  rw [List.getLast?_append, Option.mem_def.1 he]
  rfl

theorem hunks_cons_of_change {e : Entry} (h : e.isShared = false) (rest : Script)
    (source target : Nat) :
    hunks source target (e :: rest) =
      hunk source target (run (e :: rest)) ::
        hunks (source + sourceCount (run (e :: rest))) (target + targetCount (run (e :: rest)))
          (afterRun (e :: rest)) := by
  rw [hunks, afterRun_cons h]
  simp [h]

theorem hunks_append {s t : Script} (h : Border s t) (source target : Nat) :
    hunks source target (s ++ t) =
      hunks source target s ++ hunks (source + sourceCount s) (target + targetCount s) t := by
  fun_induction hunks source target s with
  | case1 => rfl
  | case2 source target e rest hshared ih =>
    rw [List.cons_append, hunks, if_pos hshared]
    rw [ih (Border.of_append (s := [e]) h)]
    have hkind : e.inSource = true ∧ e.inTarget = true := by
      simp_all [Entry.isShared, Entry.inSource, Entry.inTarget]
    simp [hkind, Nat.add_assoc, Nat.add_comm]
  | case3 source target e rest hshared ih =>
    rw [Bool.not_eq_true] at hshared
    have hcut := run_append_afterRun (e :: rest)
    rw [List.cons_append, hunks_cons_of_change hshared, ← List.cons_append]
    rw [← afterRun_cons hshared rest] at ih ⊢
    -- only a run that reaches the end of `s` could go on in `t`
    by_cases hall : afterRun (e :: rest) = []
    . have ht : ∀ f ∈ t.head?, f.isShared = true := by
        intro f hf
        have hlast : ∃ d, d ∈ (e :: rest).getLast? := Option.isSome_iff_exists.1 (by simp)
        obtain ⟨d, hd⟩ := hlast
        have hchange : d.isShared = false := by
          apply isShared_of_mem_run (s := e :: rest)
          rw [run_eq_self hall]
          exact List.mem_of_getLast? hd
        simpa [hchange] using h d hd f hf
      obtain ⟨hrun, hafter⟩ := run_append_of_border hall ht
      rw [hrun, hafter, hall, run_eq_self hall, hunks]
      rfl
    . rw [run_append hall, afterRun_append hall]
      rw [ih (Border.of_append (s := run (e :: rest)) (by rwa [hcut]))]
      conv => rhs; rw [← hcut, sourceCount_append, targetCount_append]
      simp [Nat.add_assoc, hcut]

theorem hunks_of_shared {s : Script} (h : ∀ e ∈ s, e.isShared = true) (source target : Nat) :
    hunks source target s = [] := by
  induction s generalizing source target with
  | nil => rw [hunks]
  | cons e s ih =>
    rw [List.forall_mem_cons] at h
    rw [hunks, if_pos h.1]
    exact ih h.2 (source + 1) (target + 1)

end Script

/-- A block of a script, behind shared lines that are not printed. -/
structure Piece where
  gap : Script
  block : Script
  form : HeaderForm := {}

namespace Piece

def script (p : Piece) : Script := p.gap ++ p.block

/-- The range of `count` lines behind `before` others. -/
def rangeAfter (before count : Nat) : Range := ⟨if count = 0 then before else before + 1, count⟩

theorem firstLine_rangeAfter (before count : Nat) :
    Block.firstLine (rangeAfter before count) = before + 1 := by
  unfold Block.firstLine rangeAfter
  dsimp only
  split <;> rfl

/-- The printed blocks; `source` and `target` lines stand before them. -/
def print (source target : Nat) : List Piece → List Text
  | [] => []
  | p :: ps =>
    p.form.line
        (rangeAfter (source + Script.sourceCount p.gap) (Script.sourceCount p.block))
        (rangeAfter (target + Script.targetCount p.gap) (Script.targetCount p.block)) ::
      (Script.lines p.block ++
        print (source + Script.sourceCount p.script) (target + Script.targetCount p.script) ps)

/-- The shared lines between the last change of one block and the first one of the next. -/
def between (p q : Piece) : Script :=
  (p.block.reverse.takeWhile (·.isShared)).reverse ++ q.gap ++ q.block.takeWhile (·.isShared)

end Piece

/-- A script that is cut into pieces, with shared lines behind the last one. -/
structure Cut (s : Script) where
  pieces : List Piece
  tail : Script
  script : pieces.flatMap Piece.script ++ tail = s
  gap : ∀ p ∈ pieces, ∀ e ∈ p.gap, e.isShared = true
  block : ∀ p ∈ pieces, p.block ≠ []
  tail_shared : ∀ e ∈ tail, e.isShared = true
  separated : pieces.IsChain fun p q => p.between q ≠ []

namespace Piece

open Script

theorem head?_isShared_of_takeWhile {s : Script} (h : s.takeWhile (·.isShared) ≠ []) :
    ∀ e ∈ s.head?, e.isShared = true := by
  cases s with
  | nil => nofun
  | cons d s =>
    rintro e ⟨⟩
    by_contra hd
    rw [List.takeWhile_cons_of_neg hd] at h
    contradiction

theorem border_of_between {p q : Piece} (hgap : ∀ e ∈ q.gap, e.isShared = true)
    (hblock : q.block ≠ []) (h : p.between q ≠ []) (rest : Script) :
    Border p.block (q.script ++ rest) := by
  intro e he f hf
  by_cases hlast : p.block.reverse.takeWhile (·.isShared) = []
  . right
    unfold script at hf
    cases hq : q.gap with
    | nil =>
      have hleading : q.block.takeWhile (·.isShared) ≠ [] := by
        simpa [between, hlast, hq] using h
      obtain ⟨d, block, hd⟩ := List.exists_cons_of_ne_nil hblock
      rw [hq, hd] at hf
      rw [hd] at hleading
      cases hf
      exact head?_isShared_of_takeWhile hleading f rfl
    | cons d gap =>
      rw [hq] at hf hgap
      cases hf
      exact hgap _ List.mem_cons_self
  . left
    apply head?_isShared_of_takeWhile hlast
    rw [List.head?_reverse]
    exact he

theorem border_of_shared {s : Script} (h : ∀ e ∈ s, e.isShared = true) (t : Script) :
    Border s t := by
  intro e he f hf
  left
  exact h e (List.mem_of_getLast? he)

theorem hunks_gap_append {gap : Script} (h : ∀ e ∈ gap, e.isShared = true) (source target : Nat)
    (s : Script) :
    hunks source target (gap ++ s) =
      hunks (source + sourceCount gap) (target + targetCount gap) s := by
  rw [hunks_append (border_of_shared h s)]
  rw [hunks_of_shared h, List.nil_append]

theorem hunks_script_append {p : Piece} (hgap : ∀ e ∈ p.gap, e.isShared = true) {rest : Script}
    (hborder : Border p.block rest) (source target : Nat) :
    hunks (source + 1) (target + 1) (p.script ++ rest) =
      hunks (source + sourceCount p.gap + 1) (target + targetCount p.gap + 1) p.block ++
        hunks (source + sourceCount p.script + 1) (target + targetCount p.script + 1) rest := by
  unfold script
  rw [List.append_assoc, hunks_gap_append hgap, hunks_append hborder]
  rw [sourceCount_append, targetCount_append]
  simp only [Nat.add_assoc, Nat.add_comm, Nat.add_left_comm]

theorem sourceCount_le_length (s : Script) : sourceCount s ≤ s.length := List.countP_le_length

theorem targetCount_le_length (s : Script) : targetCount s ≤ s.length := List.countP_le_length

theorem legible_rangeAfter {before count : Nat} (h : before + count < 2 ^ 64 - 1) :
    (rangeAfter before count).Legible := by
  constructor
  . apply length_ofNat_of_lt
    unfold rangeAfter
    dsimp only
    split <;> omega
  . apply length_ofNat_of_lt
    unfold rangeAfter
    dsimp only
    omega
  . unfold rangeAfter
    dsimp only
    omega

theorem startsWith_of_mem_head?_print {source target : Nat} {ps : List Piece} {line : Text}
    (h : line ∈ (print source target ps).head?) : line.startsWith "@@" = true := by
  cases ps with
  | nil => contradiction
  | cons p ps =>
    cases h
    exact p.form.startsWith_line _ _

theorem unmarked_print (source target : Nat) (ps : List Piece) :
    Block.Unmarked (print source target ps) := by
  intro line hline
  obtain ⟨t, ht⟩ := Option.isSome_iff_exists.1 (startsWith_of_mem_head?_print hline)
  rw [eq_append_of_after? ht]
  simp [ofString]

theorem readBlock_piece (p : Piece) {source target : Nat}
    (hsource : source + p.script.length < 2 ^ 64 - 1)
    (htarget : target + p.script.length < 2 ^ 64 - 1) {rest : List Text}
    (hrest : Block.Unmarked rest) (n : Nat) (looked : Bool) :
    ∃ looked',
      readBlock ⟨p.form.line
          (rangeAfter (source + sourceCount p.gap) (sourceCount p.block))
          (rangeAfter (target + targetCount p.gap) (targetCount p.block)) ::
            (Script.lines p.block ++ rest), n, looked⟩ =
        .ok (hunks (source + sourceCount p.gap + 1) (target + targetCount p.gap + 1) p.block)
          ⟨rest, n + 1 + (Script.lines p.block).length, looked'⟩ := by
  have hscript : p.script.length = p.gap.length + p.block.length := List.length_append
  have hgapSource := sourceCount_le_length p.gap
  have hgapTarget := targetCount_le_length p.gap
  have hblockSource := sourceCount_le_length p.block
  have hblockTarget := targetCount_le_length p.block
  have hlegibleSource :
      (rangeAfter (source + sourceCount p.gap) (sourceCount p.block)).Legible := by
    apply legible_rangeAfter
    omega
  have hlegibleTarget :
      (rangeAfter (target + targetCount p.gap) (targetCount p.block)).Legible := by
    apply legible_rangeAfter
    omega
  have hread := readBlock_lines p.form hlegibleSource hlegibleTarget (s := p.block) rfl rfl hrest n
    looked
  rw [firstLine_rangeAfter, firstLine_rangeAfter] at hread
  exact hread

theorem border_flatMap_script {p : Piece} {ps : List Piece}
    (hgap : ∀ q ∈ ps, ∀ e ∈ q.gap, e.isShared = true) (hblock : ∀ q ∈ ps, q.block ≠ [])
    (hsep : (p :: ps).IsChain fun p q => p.between q ≠ []) {tail : Script}
    (htail : ∀ e ∈ tail, e.isShared = true) : Border p.block (ps.flatMap script ++ tail) := by
  cases ps with
  | nil =>
    intro e _ f hf
    right
    exact htail f (List.mem_of_head? hf)
  | cons q ps =>
    rw [List.flatMap_cons, List.append_assoc]
    apply border_of_between
    . exact hgap q List.mem_cons_self
    . exact hblock q List.mem_cons_self
    . exact (List.isChain_cons_cons.1 hsep).1

theorem readBlocks_print {ps : List Piece} (hgap : ∀ p ∈ ps, ∀ e ∈ p.gap, e.isShared = true)
    (hblock : ∀ p ∈ ps, p.block ≠ []) (hsep : ps.IsChain fun p q => p.between q ≠ [])
    {tail : Script} (htail : ∀ e ∈ tail, e.isShared = true) {source target : Nat}
    (hsource : source + (ps.flatMap script).length < 2 ^ 64 - 1)
    (htarget : target + (ps.flatMap script).length < 2 ^ 64 - 1) (n : Nat) (looked : Bool) :
    readBlocks ⟨print source target ps, n, looked⟩ =
      .ok (Script.hunks (source + 1) (target + 1) (ps.flatMap script ++ tail))
        ⟨[], n + (print source target ps).length, true⟩ := by
  -- what is invariant is that `source` and `target` count the lines before the next piece
  induction ps generalizing source target n looked with
  | nil =>
    rw [List.flatMap_nil, List.nil_append, hunks_of_shared htail]
    simp [print, readBlocks]
  | cons p ps ih =>
    rw [List.forall_mem_cons] at hgap hblock
    rw [List.flatMap_cons, List.length_append] at hsource htarget
    have hcountSource := sourceCount_le_length p.script
    have hcountTarget := targetCount_le_length p.script
    have hrestSource :
        source + sourceCount p.script + (ps.flatMap script).length < 2 ^ 64 - 1 := by omega
    have hrestTarget :
        target + targetCount p.script + (ps.flatMap script).length < 2 ^ 64 - 1 := by omega
    obtain ⟨looked', hread⟩ := readBlock_piece p (by omega : source + p.script.length < 2 ^ 64 - 1)
      (by omega : target + p.script.length < 2 ^ 64 - 1)
      (unmarked_print (source + sourceCount p.script) (target + targetCount p.script) ps) n looked
    have hmore := ih hgap.2 hblock.2 hsep.of_cons hrestSource hrestTarget
      (n + 1 + (Script.lines p.block).length) looked'
    have hresult := readBlocks_cons (p.form.startsWith_line _ _) hread hmore
    have hborder := border_flatMap_script hgap.2 hblock.2 hsep htail
    rw [List.flatMap_cons, List.append_assoc, hunks_script_append hgap.1 hborder]
    rw [print, hresult]
    rw [List.length_cons, List.length_append]
    congr 2
    omega

end Piece

end Hunk

end Dvcs
