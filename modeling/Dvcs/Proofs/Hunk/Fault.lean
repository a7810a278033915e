import Dvcs.Proofs.Hunk.Frame

/-!
This module contains what the errors in hunk blocks are about: every one of them is a fault in the
form of a diff, at one of the lines or behind the last one.
-/

namespace Dvcs

namespace Hunk

open LineReader

/-- The errors in hunks: a line is at fault, or the end of the input. -/
def Blames (r : LineReader) (e : ReadError) : Prop := ∃ n fault, e = .diff n fault ∧ r.Covers n

theorem Blames.of_reaches {r r' : LineReader} {e : ReadError} (h : Blames r' e)
    (hr : r.Reaches r') : Blames r e := by
  obtain ⟨n, fault, rfl, hn⟩ := h
  exact ⟨n, fault, rfl, hr.covers hn⟩

theorem blames_next (r : LineReader) (fault : DiffFault) :
    Blames r (.diff (r.lineNumber + 1) fault) :=
  ⟨_, _, rfl, r.covers_next⟩

theorem Block.blames_of_readBody {b : Block} {n : Nat} {ls : List Text} {e : ReadError}
    {r : LineReader} (h : b.readBody n ls = .error e r) (looked : Bool) :
    Blames ⟨ls, n, looked⟩ e := by
  induction ls generalizing b n looked with
  | nil =>
    rw [readBody] at h
    split at h
    . contradiction
    . cases h
      exact blames_next _ _
  | cons line rest ih =>
    rw [readBody] at h
    split at h
    . contradiction
    . split at h
      . cases h
        exact blames_next _ _
      . exact (ih h false).of_reaches (.drop ..)

theorem blames_of_range {text : Text} {r : LineReader} {e : ReadError}
    (h : range text (r.lineNumber + 1) = .error e) : Blames r e := by
  unfold range at h
  split at h
  . contradiction
  . cases h
    exact blames_next _ _

theorem blames_of_readBlock {r r' : LineReader} {e : ReadError} (h : readBlock r = .error e r') :
    Blames r e := by
  obtain ⟨ls, n, looked⟩ := r
  unfold readBlock at h
  split at h
  . cases h
    exact blames_next _ _
  . next line rest heq =>
    obtain rfl : ls = line :: rest := heq
    dsimp only at h
    split at h
    . cases h
      exact blames_next _ _
    . split at h
      . next hsource =>
        cases h
        exact blames_of_range hsource
      . next htarget _ =>
        cases h
        exact blames_of_range htarget
      . split at h
        . next hbody =>
          cases h
          exact (Block.blames_of_readBody hbody false).of_reaches (.drop ..)
        . next b r1 hbody =>
          unfold Block.finish at h
          split at h
          . contradiction
          . contradiction

theorem blames_of_readBlocks {r r' : LineReader} {e : ReadError} (h : readBlocks r = .error e r') :
    Blames r e := by
  fun_induction readBlocks r generalizing r' with
  | case1 => contradiction
  | case2 r line rest hr hl e r1 hblock =>
    cases h
    exact blames_of_readBlock hblock
  | case3 r line rest hr hl hs r1 hblock e r2 hblocks ih =>
    cases h
    exact (ih hblocks).of_reaches (reaches_of_readBlock hblock)
  | case4 => contradiction
  | case5 => contradiction

end Hunk

end Dvcs
