import Dvcs.Proofs.Hunk.Block
import Dvcs.Proofs.LineReader

/-!
This module contains what the reading of hunk blocks leaves alone: the lines behind the blocks, and
the position of the first line.
-/

namespace Dvcs

namespace Hunk

open LineReader Text

namespace Block

theorem reaches_of_readBody {b b' : Block} {n : Nat} {ls : List Text} {r : LineReader}
    (h : readBody b n ls = .ok b' r) (looked : Bool) : Reaches ⟨ls, n, looked⟩ r := by
  induction ls generalizing b n looked with
  | nil =>
    simp only [readBody] at h
    split at h
    . cases h
      exact .of_rest_eq rfl rfl
    . contradiction
  | cons line rest ih =>
    simp only [readBody] at h
    split at h
    . cases h
      exact .of_rest_eq rfl rfl
    . split at h
      . contradiction
      . exact (ih h false).cons

theorem reaches_of_finish {b : Block} {r r' : LineReader} {hs : List Hunk}
    (h : b.finish r = .ok hs r') : r.Reaches r' := by
  obtain ⟨ls, n, looked⟩ := r
  unfold finish at h
  split at h
  . next line rest heq =>
    cases h
    obtain rfl := heq
    exact .drop ..
  . cases h
    exact .of_rest_eq rfl rfl

theorem readBody_append {b b' : Block} {n : Nat} {ls : List Text} {r : LineReader}
    (h : readBody b n ls = .ok b' r) (more : List Text) :
    readBody b n (ls ++ more) = .ok b' (r.append more) := by
  induction ls generalizing b n with
  | nil =>
    simp only [readBody] at h
    split at h
    . next hcomplete =>
      cases h
      exact readBody_of_isComplete hcomplete n more
    . contradiction
  | cons line rest ih =>
    simp only [readBody] at h
    split at h
    . next hcomplete =>
      cases h
      exact readBody_of_isComplete hcomplete n _
    . next hopen =>
      rw [Bool.not_eq_true] at hopen
      split at h
      . contradiction
      . next hstep =>
        rw [List.cons_append, readBody_cons hopen hstep]
        exact ih h

theorem finish_append {b : Block} {r r' : LineReader} {hs : List Hunk} (h : b.finish r = .ok hs r')
    {more : List Text} (hmore : Unmarked more) :
    b.finish (r.append more) = .ok hs (r'.append more) := by
  obtain ⟨ls, n, looked⟩ := r
  cases ls with
  | nil =>
    cases h
    exact finish_of_unmarked b hmore n looked
  | cons line ls =>
    unfold finish at h
    split at h
    . next heq =>
      cases heq
      cases h
      rfl
    . next hmarker =>
      cases h
      have hline : Unmarked (line :: (ls ++ more)) := by
        rintro _ ⟨⟩ hhead
        cases line with
        | nil => contradiction
        | cons c line =>
          cases hhead
          exact hmarker line ls rfl
      exact finish_of_unmarked b hline n looked

theorem readBody_shift (b : Block) (n k : Nat) (ls : List Text) :
    readBody b (n + k) ls = Reading.shift k (readBody b n ls) := by
  induction ls generalizing b n with
  | nil =>
    simp only [readBody]
    split
    . rfl
    . simp [Reading.shift, ReadError.shift, LineReader.shift, Nat.add_right_comm]
  | cons line rest ih =>
    simp only [readBody]
    split
    . rfl
    . split
      . simp [Reading.shift, ReadError.shift, LineReader.shift, Nat.add_right_comm]
      . rw [Nat.add_right_comm]
        exact ih _ (n + 1)

theorem finish_shift (b : Block) (r : LineReader) (k : Nat) :
    b.finish (r.shift k) = Reading.shift k (b.finish r) := by
  obtain ⟨ls, n, looked⟩ := r
  unfold finish LineReader.shift
  dsimp only
  split
  . simp [Reading.shift, LineReader.shift, Nat.add_right_comm]
  . rfl

end Block

theorem reaches_of_readBlock {r r' : LineReader} {hs : List Hunk} (h : readBlock r = .ok hs r') :
    r.Reaches r' := by
  obtain ⟨ls, n, looked⟩ := r
  unfold readBlock at h
  split at h
  . contradiction
  . next line rest heq =>
    obtain rfl : ls = line :: rest := heq
    dsimp only at h
    split at h
    . contradiction
    . split at h
      . contradiction
      . contradiction
      . split at h
        . contradiction
        . next hbody =>
          have hread := Block.reaches_of_readBody hbody false
          exact (hread.trans (Block.reaches_of_finish h)).cons

theorem readBlock_append {r r' : LineReader} {hs : List Hunk} (h : readBlock r = .ok hs r')
    {more : List Text} (hmore : Block.Unmarked more) :
    readBlock (r.append more) = .ok hs (r'.append more) := by
  obtain ⟨ls, n, looked⟩ := r
  cases ls with
  | nil => contradiction
  | cons line rest =>
    unfold readBlock at h ⊢
    simp only [LineReader.append, List.cons_append] at h ⊢
    split at h
    . contradiction
    . split at h
      . contradiction
      . contradiction
      . split at h
        . contradiction
        . next hsource htarget hbody =>
          simp only [Block.readBody_append hbody more]
          exact Block.finish_append h hmore

theorem range_shift (text : Text) (n k : Nat) :
    range text (n + k) = (range text n).mapError (·.shift k) := by
  unfold range
  split <;> rfl

theorem readBlock_shift (r : LineReader) (k : Nat) :
    readBlock (r.shift k) = Reading.shift k (readBlock r) := by
  obtain ⟨ls, n, looked⟩ := r
  cases ls with
  | nil => simp [readBlock, LineReader.shift, Reading.shift, ReadError.shift, Nat.add_right_comm]
  | cons line rest =>
    unfold readBlock
    simp only [LineReader.shift, Nat.add_right_comm n k 1]
    cases headerRanges? line with
    | none => rfl
    | some ranges =>
      obtain ⟨source, target⟩ := ranges
      dsimp only
      rw [range_shift source (n + 1), range_shift target (n + 1)]
      cases range source (n + 1) with
      | error e => rfl
      | ok source =>
        cases range target (n + 1) with
        | error e => rfl
        | ok target =>
          dsimp only [Except.mapError]
          rw [Block.readBody_shift]
          cases (Block.ofRanges source target).readBody (n + 1) rest with
          | error e r => rfl
          | ok b r => exact Block.finish_shift b r k

theorem readBlocks_eq (r : LineReader) :
    readBlocks r =
      match r.rest with
      | [] => .ok [] { r with looked := true }
      | line :: _ =>
        if line.startsWith "@@" then
          match readBlock r with
          | .error e r => .error e r
          | .ok hs r' =>
            match readBlocks r' with
            | .error e r => .error e r
            | .ok more r => .ok (hs ++ more) r
        else .ok [] { r with looked := true } := by
  obtain ⟨ls, n, looked⟩ := r
  cases ls with
  | nil => rw [readBlocks]
  | cons line rest =>
    rw [readBlocks]
    dsimp only
    split
    . split
      . next heq => simp only [heq]
      . next hs r' heq => cases hmore : readBlocks r' <;> simp only [heq, hmore]
    . rfl

theorem reaches_of_readBlocks {r r' : LineReader} {hs : List Hunk} (h : readBlocks r = .ok hs r') :
    r.Reaches r' := by
  fun_induction readBlocks r generalizing hs r' with
  | case1 =>
    cases h
    exact .of_rest_eq rfl rfl
  | case2 => contradiction
  | case3 => contradiction
  | case4 r line rest hr hl hs r1 hblock more r2 hblocks ih =>
    cases h
    exact (reaches_of_readBlock hblock).trans (ih hblocks)
  | case5 =>
    cases h
    exact .of_rest_eq rfl rfl

theorem readBlocks_append {r r' : LineReader} {hs : List Hunk} (h : readBlocks r = .ok hs r')
    {more : List Text} (hmore : Ends more) :
    readBlocks (r.append more) = .ok hs (r'.append more) := by
  fun_induction readBlocks r generalizing hs r' with
  | case1 r hr =>
    cases h
    obtain ⟨ls, n, looked⟩ := r
    obtain rfl : ls = [] := hr
    exact readBlocks_of_ends hmore n looked
  | case2 => contradiction
  | case3 => contradiction
  | case4 r line rest hr hl hs r1 hblock hs' r2 hblocks ih =>
    cases h
    obtain ⟨ls, n, looked⟩ := r
    obtain rfl : ls = line :: rest := hr
    have hfirst := readBlock_append hblock hmore.1
    exact readBlocks_cons hl hfirst (ih hblocks)
  | case5 r line rest hr hl =>
    cases h
    obtain ⟨ls, n, looked⟩ := r
    obtain rfl : ls = line :: rest := hr
    rw [readBlocks_eq]
    simp only [LineReader.append, List.cons_append]
    rw [if_neg hl]

theorem readBlocks_shift (r : LineReader) (k : Nat) :
    readBlocks (r.shift k) = Reading.shift k (readBlocks r) := by
  fun_induction readBlocks r with
  | case1 r hr =>
    rw [readBlocks_eq]
    simp only [LineReader.shift, hr]
    rfl
  | case2 r line rest hr hl e r1 hblock =>
    rw [readBlocks_eq, readBlock_shift, hblock]
    simp only [LineReader.shift, hr, if_pos hl]
    rfl
  | case3 r line rest hr hl hs r1 hblock e r2 hblocks ih =>
    rw [readBlocks_eq, readBlock_shift, hblock]
    simp only [Reading.shift]
    rw [ih, hblocks]
    simp only [LineReader.shift, hr, if_pos hl]
    rfl
  | case4 r line rest hr hl hs r1 hblock hs' r2 hblocks ih =>
    rw [readBlocks_eq, readBlock_shift, hblock]
    simp only [Reading.shift]
    rw [ih, hblocks]
    simp only [LineReader.shift, hr, if_pos hl]
    rfl
  | case5 r line rest hr hl =>
    rw [readBlocks_eq]
    simp only [LineReader.shift, hr, if_neg hl]
    rfl

end Hunk

end Dvcs
