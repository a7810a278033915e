import Dvcs.Proofs.Hunk.Frame

/-!
This module contains the hunks that blocks are read as. Whatever lines a block holds, its hunks stay
inside of the ranges of its header, so they come back from the lines that they are written with.
-/

namespace Dvcs

namespace Hunk

open Text

namespace Block

/-- One side of a block with range `r`, of which `left` lines are to come, the next one at `line`.
-/
structure SideStands (r : Range) (line left : Nat) : Prop where
  line : line + left = firstLine r + r.count
  left : left ≤ r.count

theorem SideStands.step {r : Range} {line left : Nat} (h : SideStands r line left)
    (hleft : left ≠ 0) : SideStands r (line + 1) (left - 1) where
  line := by
    have := h.line
    omega
  left := by
    have := h.left
    omega

/-- One side of a run inside of such a block. -/
structure RunStands (r : Range) (line left start : Nat) (lines : List Text) (noNewline : Bool) :
    Prop where
  start : start ≤ line
  length : lines.length + left ≤ r.count
  lines_of_noNewline : noNewline = true → lines ≠ []

theorem RunStands.step {r : Range} {line left start : Nat} {lines : List Text} {noNewline : Bool}
    (h : RunStands r line left start lines noNewline) (hleft : left ≠ 0) (text : Text) :
    RunStands r (line + 1) (left - 1) start (text :: lines) noNewline where
  start := Nat.le_succ_of_le h.start
  length := by
    have := h.length
    rw [List.length_cons]
    omega
  lines_of_noNewline _ := List.cons_ne_nil text lines

theorem SideStands.runStands {r : Range} {line left : Nat} (h : SideStands r line left) :
    RunStands r line left line [] false where
  start := Nat.le_refl line
  length := by simpa using h.left
  lines_of_noNewline := nofun

/-- One side of a hunk out of such a block. -/
structure HunkStands (r : Range) (s : HunkSide) : Prop where
  start : s.start ≤ firstLine r + r.count
  length : s.lines.length ≤ r.count
  lines_of_noNewline : s.noNewline = true → s.lines ≠ []

theorem RunStands.hunkStands {r : Range} {line left start : Nat} {lines : List Text}
    {noNewline : Bool} (h : RunStands r line left start lines noNewline)
    (hside : SideStands r line left) : HunkStands r (Run.side start lines noNewline) where
  start := by
    have hstart := h.start
    have hline := hside.line
    unfold Run.side
    dsimp only
    split <;> omega
  length := by
    have := h.length
    simp only [Run.side, List.length_reverse]
    omega
  lines_of_noNewline := by
    intro hbare
    simpa [Run.side] using h.lines_of_noNewline hbare

/-- A run that has been opened in a block. -/
structure RunSound (s t : Range) (b : Block) (run : Run) : Prop where
  source : RunStands s b.sourceLine b.sourceLeft run.sourceStart run.source run.sourceNoNewline
  target : RunStands t b.targetLine b.targetLeft run.targetStart run.target run.targetNoNewline
  changes : run.source ≠ [] ∨ run.target ≠ []
  removed : b.last = some .removed → run.source ≠ []
  added : b.last = some .added → run.target ≠ []

/-- A hunk that a block has given. -/
structure HunkSound (s t : Range) (h : Hunk) : Prop where
  source : HunkStands s h.source
  target : HunkStands t h.target
  changes : h.source.lines ≠ [] ∨ h.target.lines ≠ []

/-- What the reading of a block with some ranges keeps to. -/
structure Sound (s t : Range) (b : Block) : Prop where
  source : SideStands s b.sourceLine b.sourceLeft
  target : SideStands t b.targetLine b.targetLeft
  hunks : ∀ h ∈ b.hunks, HunkSound s t h
  run : ∀ run ∈ b.run, RunSound s t b run

variable {s t : Range} {b b' : Block}

theorem sound_ofRanges (s t : Range) : (ofRanges s t).Sound s t where
  source := ⟨rfl, Nat.le_refl _⟩
  target := ⟨rfl, Nat.le_refl _⟩
  hunks := nofun
  run := nofun

theorem Sound.toHunk (h : b.Sound s t) {run : Run} (hrun : run ∈ b.run) :
    HunkSound s t run.toHunk where
  source := (h.run run hrun).source.hunkStands h.source
  target := (h.run run hrun).target.hunkStands h.target
  changes := by simpa [Run.toHunk, Run.side] using (h.run run hrun).changes

theorem Sound.closeRun (h : b.Sound s t) : b.closeRun.Sound s t := by
  unfold Block.closeRun
  split
  . next run hrun =>
    refine ⟨h.source, h.target, ?_, nofun⟩
    rw [List.forall_mem_cons]
    exact ⟨h.toHunk hrun, h.hunks⟩
  . exact h

theorem run_closeRun (b : Block) : b.closeRun.run = none := by
  unfold Block.closeRun
  split
  . rfl
  . assumption

theorem left_closeRun (b : Block) :
    b.closeRun.sourceLeft = b.sourceLeft ∧ b.closeRun.targetLeft = b.targetLeft := by
  unfold Block.closeRun
  split <;> exact ⟨rfl, rfl⟩

theorem left_markNoNewline (b : Block) :
    b.markNoNewline.sourceLeft = b.sourceLeft ∧ b.markNoNewline.targetLeft = b.targetLeft := by
  unfold Block.markNoNewline
  split <;> exact ⟨rfl, rfl⟩

theorem Sound.markNoNewline (h : b.Sound s t) : b.markNoNewline.Sound s t := by
  unfold Block.markNoNewline
  split
  . next run hrun hlast =>
    obtain ⟨hsource, htarget, hchanges, hremoved, hadded⟩ := h.run run hrun
    refine ⟨h.source, h.target, h.hunks, ?_⟩
    rintro _ ⟨⟩
    exact ⟨⟨hsource.start, hsource.length, fun _ => hremoved hlast⟩, htarget, hchanges, hremoved,
      hadded⟩
  . next run hrun hlast =>
    obtain ⟨hsource, htarget, hchanges, hremoved, hadded⟩ := h.run run hrun
    refine ⟨h.source, h.target, h.hunks, ?_⟩
    rintro _ ⟨⟩
    exact ⟨hsource, ⟨htarget.start, htarget.length, fun _ => hadded hlast⟩, hchanges, hremoved,
      hadded⟩
  . exact h

/-- The run that the next changed line goes into, which may have no line yet. -/
theorem Sound.currentRun (h : b.Sound s t) :
    RunStands s b.sourceLine b.sourceLeft b.currentRun.sourceStart b.currentRun.source
        b.currentRun.sourceNoNewline ∧
      RunStands t b.targetLine b.targetLeft b.currentRun.targetStart b.currentRun.target
        b.currentRun.targetNoNewline := by
  unfold Block.currentRun
  cases hrun : b.run with
  | none => exact ⟨h.source.runStands, h.target.runStands⟩
  | some run => exact ⟨(h.run run hrun).source, (h.run run hrun).target⟩

theorem Sound.step (h : b.Sound s t) {line : Text} (hstep : b.step line = .ok b') :
    b'.Sound s t := by
  unfold Block.step at hstep
  split at hstep
  . split at hstep
    . contradiction
    . next hleft =>
      cases hstep
      simp only [Bool.or_eq_true, decide_eq_true_eq, not_or] at hleft
      have hclosed := h.closeRun
      obtain ⟨hsourceLeft, htargetLeft⟩ := left_closeRun b
      refine ⟨?_, ?_, hclosed.hunks, ?_⟩
      . exact hclosed.source.step (hsourceLeft ▸ hleft.1)
      . exact hclosed.target.step (htargetLeft ▸ hleft.2)
      . dsimp only
        rw [run_closeRun]
        nofun
  . next text =>
    split at hstep
    . contradiction
    . next hleft =>
      cases hstep
      refine ⟨h.source.step hleft, h.target, h.hunks, ?_⟩
      rintro _ ⟨⟩
      refine ⟨h.currentRun.1.step hleft text, h.currentRun.2, .inl ?_, fun _ => ?_, nofun⟩
      . exact List.cons_ne_nil text _
      . exact List.cons_ne_nil text _
  . next text =>
    split at hstep
    . contradiction
    . next hleft =>
      cases hstep
      refine ⟨h.source, h.target.step hleft, h.hunks, ?_⟩
      rintro _ ⟨⟩
      refine ⟨h.currentRun.1, h.currentRun.2.step hleft text, .inr ?_, nofun, fun _ => ?_⟩
      . exact List.cons_ne_nil text _
      . exact List.cons_ne_nil text _
  . cases hstep
    exact h.markNoNewline
  . contradiction

theorem Sound.readBody (h : b.Sound s t) {n : Nat} {ls : List Text} {r : LineReader}
    (hread : b.readBody n ls = .ok b' r) : b'.Sound s t := by
  induction ls generalizing b n with
  | nil =>
    rw [Block.readBody] at hread
    split at hread
    . cases hread
      exact h
    . contradiction
  | cons line rest ih =>
    rw [Block.readBody] at hread
    split at hread
    . cases hread
      exact h
    . split at hread
      . contradiction
      . next hstep => exact ih (h.step hstep) hread

theorem Sound.finish (h : b.Sound s t) {r r' : LineReader} {hs : List Hunk}
    (hread : b.finish r = .ok hs r') : ∀ hunk ∈ hs, HunkSound s t hunk := by
  unfold Block.finish at hread
  split at hread
  . cases hread
    intro hunk hmem
    exact h.markNoNewline.closeRun.hunks hunk (List.mem_reverse.1 hmem)
  . cases hread
    intro hunk hmem
    exact h.closeRun.hunks hunk (List.mem_reverse.1 hmem)

theorem left_le_of_step {line : Text} (h : b.step line = .ok b') :
    b.sourceLeft ≤ b'.sourceLeft + 1 ∧ b.targetLeft ≤ b'.targetLeft + 1 := by
  unfold Block.step at h
  split at h
  . split at h
    . contradiction
    . cases h
      dsimp only
      rw [(left_closeRun b).1, (left_closeRun b).2]
      omega
  . split at h
    . contradiction
    . cases h
      dsimp only
      omega
  . split at h
    . contradiction
    . cases h
      dsimp only
      omega
  . cases h
    rw [(left_markNoNewline b).1, (left_markNoNewline b).2]
    omega
  . contradiction

/-- Every line that the header counts has been there. -/
theorem left_le_of_readBody {n : Nat} {ls : List Text} {r : LineReader}
    (h : b.readBody n ls = .ok b' r) : b.sourceLeft ≤ ls.length ∧ b.targetLeft ≤ ls.length := by
  have hcomplete {b : Block} (hb : b.isComplete = true) :
      b.sourceLeft = 0 ∧ b.targetLeft = 0 := by
    simpa [isComplete] using hb
  induction ls generalizing b n with
  | nil =>
    rw [Block.readBody] at h
    split at h
    . next hb =>
      have := hcomplete hb
      omega
    . contradiction
  | cons line rest ih =>
    rw [Block.readBody] at h
    split at h
    . next hb =>
      have := hcomplete hb
      omega
    . split at h
      . contradiction
      . next hstep =>
        have hleft := left_le_of_step hstep
        have hrest := ih h
        rw [List.length_cons]
        omega

theorem HunkStands.readable {r : Range} {s : HunkSide} (h : HunkStands r s) {k : Nat}
    (hk : 20 ≤ k) (hlimit : k < digitLimit) (hstart : r.start < 10 ^ k)
    (hcount : r.count < 2 ^ 64 - 1) : SideReadable s where
  legible := by
    have hlength := h.length
    have hfirst : firstLine r ≤ r.start + 1 := by
      unfold firstLine
      split <;> omega
    refine ⟨?_, ?_, ?_⟩
    . have hstop : s.start ≤ r.start + 2 ^ 64 := by
        have := h.start
        omega
      exact Nat.le_trans (length_ofNat_le_of_le_add hk hstart hstop) hlimit
    . exact length_ofNat_of_lt (show s.lines.length < 2 ^ 64 by omega)
    . show s.lines.length ≠ _
      omega
  lines_of_noNewline := h.lines_of_noNewline

end Block

/-- A line in which, were it the header of a block, each number would be short enough to stay
legible with one digit more. -/
def ShortNumbers (line : Text) : Prop :=
  ∀ source target, headerRanges? line = some (source, target) →
    ∀ digits, digits <:+: source ∨ digits <:+: target → (∀ s ∈ digits, s.isDigit = true) →
      digits.length + 1 < digitLimit

theorem shortNumbers_of_length {line : Text} (h : ∀ ranges ∈ headerRanges? line,
    ranges.1.length + 1 < digitLimit ∧ ranges.2.length + 1 < digitLimit) : ShortNumbers line := by
  intro source target hranges digits hdigits _
  obtain ⟨hsource, htarget⟩ := h (source, target) hranges
  dsimp only at hsource htarget
  rcases hdigits with hdigits | hdigits
  . have := hdigits.length_le
    omega
  . have := hdigits.length_le
    omega

theorem ofText_of_range {text : Text} {n : Nat} {r : Range} (h : range text n = .ok r) :
    Range.ofText text = .ok r := by
  unfold range at h
  split at h
  . next hread =>
    cases h
    exact hread
  . contradiction

theorem start_lt_of_range {text : Text} {n : Nat} {r : Range} (h : range text n = .ok r)
    (hshort : ∀ digits, digits <:+: text → (∀ s ∈ digits, s.isDigit = true) →
      digits.length + 1 < digitLimit) : r.start < 10 ^ (digitLimit - 2) := by
  obtain ⟨digits, hinfix, hspelled⟩ := Range.start_of_ofText (ofText_of_range h)
  obtain ⟨hdigits, _, _, hlt⟩ := spells_of_natural? hspelled
  have hlength := hshort digits hinfix hdigits
  exact Nat.lt_of_lt_of_le hlt (Nat.pow_le_pow_right (by decide) (by omega))

theorem readable_of_readBlock {r r' : LineReader} {hs : List Hunk} (h : readBlock r = .ok hs r')
    (hshort : ∀ line ∈ r.rest, ShortNumbers line) (hlength : r.rest.length < 2 ^ 64 - 1) :
    ∀ hunk ∈ hs, hunk.Readable := by
  unfold readBlock at h
  split at h
  . contradiction
  . next line rest hr =>
    rw [hr, List.length_cons] at hlength
    dsimp only at h
    split at h
    . contradiction
    . next source target hranges =>
      have hnumbers := hshort line (by simp [hr]) source target hranges
      split at h
      . contradiction
      . contradiction
      . next s t hsource htarget =>
        split at h
        . contradiction
        . next b r1 hbody =>
          have hsound := (Block.sound_ofRanges s t).readBody hbody
          have hcounts : s.count ≤ rest.length ∧ t.count ≤ rest.length :=
            Block.left_le_of_readBody hbody
          have hsourceStart := start_lt_of_range hsource fun digits hd => hnumbers digits (.inl hd)
          have htargetStart := start_lt_of_range htarget fun digits hd => hnumbers digits (.inr hd)
          intro hunk hmem
          obtain ⟨hsourceStands, htargetStands, hchanges⟩ := hsound.finish h hunk hmem
          refine ⟨?_, ?_, hchanges⟩
          . exact hsourceStands.readable (by decide) (by decide) hsourceStart (by omega)
          . exact htargetStands.readable (by decide) (by decide) htargetStart (by omega)

theorem readable_of_readBlocks {r r' : LineReader} {hs : List Hunk} (h : readBlocks r = .ok hs r')
    (hshort : ∀ line ∈ r.rest, ShortNumbers line) (hlength : r.rest.length < 2 ^ 64 - 1) :
    ∀ hunk ∈ hs, hunk.Readable := by
  fun_induction readBlocks r generalizing hs r' with
  | case1 =>
    cases h
    exact List.forall_mem_nil _
  | case2 => contradiction
  | case3 => contradiction
  | case4 r line rest hr hl hs r1 hblock more r2 hblocks ih =>
    cases h
    have hreaches := reaches_of_readBlock hblock
    have hmore := ih hblocks (fun line hline => hshort line (hreaches.mem hline))
      (Nat.lt_of_le_of_lt (Nat.le_of_lt (length_rest_of_readBlock hblock)) hlength)
    intro hunk hmem
    rcases List.mem_append.1 hmem with hmem | hmem
    . exact readable_of_readBlock hblock hshort hlength hunk hmem
    . exact hmore hunk hmem
  | case5 =>
    cases h
    exact List.forall_mem_nil _

end Hunk

end Dvcs
