import Dvcs.Proofs.Hunk.Frame
import Dvcs.Proofs.LineReader.Seen

/-!
This module contains what the reading of hunk blocks rests on. The lines of a block are counted, so
the only thing that more lines can mend is a block whose counts are not met yet.
-/

namespace Dvcs

namespace Hunk

open Reading

/-- The input ends inside of a block, the last line having the number `n`. -/
def EndsInBlock (n : Nat) (e : ReadError) : Prop := e = .diff (n + 1) .noHunkLine

namespace Block

/-- The reading of a body as a parser. -/
def body (b : Block) : Reading Block := fun r => b.readBody r.lineNumber r.rest

/-- The reading of a block behind its header. -/
def content (b : Block) : Reading (List Hunk) := b.body >>= finish

theorem settled_body_of_isComplete {b : Block} (hb : b.isComplete = true) (n : Nat)
    (ls : List Text) : Settled true EndsInBlock b.body n ls := by
  refine .taken [] ls b rfl ?_
  intro more looked _
  exact ⟨false, readBody_of_isComplete hb n more⟩

theorem settled_body (b : Block) (n : Nat) (ls : List Text) :
    Settled true EndsInBlock b.body n ls := by
  induction ls generalizing b n with
  | nil =>
    by_cases hb : b.isComplete
    . exact settled_body_of_isComplete hb n []
    . refine .ended (.diff (n + 1) .noHunkLine) (fun looked => ⟨⟨[], n, false⟩, ?_⟩) rfl
      simp [body, readBody, hb]
  | cons line rest ih =>
    by_cases hb : b.isComplete
    . exact settled_body_of_isComplete hb n (line :: rest)
    . cases hstep : b.step line with
      | error fault =>
        refine .of_refused_line (e := .diff (n + 1) fault) ?_ fun more looked => ?_
        . rintro m ⟨⟩
          rfl
        . exact ⟨⟨more, n + 1, false⟩, by simp [body, readBody, hb, hstep]⟩
      | ok b' =>
        refine (ih b' (n + 1)).step fun more looked => ?_
        simp [body, readBody, hb, hstep]

theorem settled_finish (b : Block) (n : Nat) (ls : List Text) :
    Settled true EndsInBlock b.finish n ls := by
  by_cases hls : Unmarked ls
  . refine .taken [] ls b.closeRun.hunks.reverse rfl ?_
    intro more looked hmore
    have hunmarked : Unmarked more := by
      unfold Unmarked
      rw [hmore rfl]
      exact hls
    exact ⟨true, finish_of_unmarked b hunmarked n looked⟩
  . -- the marker belongs to the block, so nothing behind it has been looked at
    obtain ⟨text, rest, rfl⟩ : ∃ text rest, ls = (.char '\\' :: text) :: rest := by
      cases ls with
      | nil => exact absurd (fun _ => nofun) hls
      | cons line rest =>
        cases line with
        | nil => exact absurd (by rintro _ ⟨⟩; nofun) hls
        | cons c text =>
          refine ⟨text, rest, ?_⟩
          by_contra hne
          apply hls
          rintro _ ⟨⟩ hhead
          cases hhead
          exact hne rfl
    refine .taken [.char '\\' :: text] rest b.markNoNewline.closeRun.hunks.reverse rfl ?_
    intro more looked _
    exact ⟨false, rfl⟩

theorem settled_content (b : Block) (n : Nat) (ls : List Text) :
    Settled true EndsInBlock b.content n ls :=
  (b.settled_body n ls).bind fun b' _ _ => b'.settled_finish _ _

end Block

theorem line_of_range {text : Text} {n : Nat} {e : ReadError} (h : range text n = .error e) :
    e.line? = some n := by
  unfold range at h
  split at h
  . contradiction
  . cases h
    rfl

/-- A header line is refused as such, or tells how to read on. -/
theorem readBlock_cons (line : Text) (n : Nat) :
    (∃ e, e.line? = some (n + 1) ∧
      ∀ rest looked, ∃ r, readBlock ⟨line :: rest, n, looked⟩ = .error e r) ∨
    ∃ ranges s t, headerRanges? line = some ranges ∧
      range ranges.1 (n + 1) = .ok s ∧ range ranges.2 (n + 1) = .ok t ∧
      ∀ rest looked, readBlock ⟨line :: rest, n, looked⟩ =
        (Block.ofRanges s t).content ⟨rest, n + 1, false⟩ := by
  cases hranges : headerRanges? line with
  | none =>
    refine .inl ⟨.diff (n + 1) (.malformedHunkHeader line), rfl, fun rest looked => ?_⟩
    exact ⟨⟨rest, n + 1, false⟩, by simp only [readBlock, hranges]⟩
  | some ranges =>
    cases hsource : range ranges.1 (n + 1) with
    | error e =>
      refine .inl ⟨e, line_of_range hsource, fun rest looked => ⟨⟨rest, n + 1, false⟩, ?_⟩⟩
      simp only [readBlock, hranges, hsource]
    | ok s =>
      cases htarget : range ranges.2 (n + 1) with
      | error e =>
        refine .inl ⟨e, line_of_range htarget, fun rest looked => ⟨⟨rest, n + 1, false⟩, ?_⟩⟩
        simp only [readBlock, hranges, hsource, htarget]
      | ok t =>
        refine .inr ⟨ranges, s, t, rfl, hsource, htarget, fun rest looked => ?_⟩
        simp only [readBlock, hranges, hsource, htarget]
        unfold Block.content Block.body
        simp only [bind, EStateM.bind]
        cases (Block.ofRanges s t).readBody (n + 1) rest <;> rfl

theorem settled_readBlock (line : Text) (rest : List Text) (n : Nat) :
    Settled true EndsInBlock readBlock n (line :: rest) := by
  rcases readBlock_cons line n with ⟨e, hline, h⟩ | ⟨_, s, t, _, _, _, h⟩
  . refine .of_refused_line (e := e) ?_ h
    rw [hline]
    rintro m ⟨⟩
    rfl
  . exact ((Block.ofRanges s t).settled_content (n + 1) rest).step h

theorem readBlocks_of_header {line : Text} (hline : line.startsWith "@@" = true)
    (rest : List Text) (n : Nat) (looked : Bool) :
    readBlocks ⟨line :: rest, n, looked⟩ =
      (return (← readBlock) ++ (← readBlocks) : Reading (List Hunk)) ⟨line :: rest, n, looked⟩ := by
  rw [readBlocks_eq]
  simp only [if_pos hline, bind, EStateM.bind]
  cases readBlock ⟨line :: rest, n, looked⟩ with
  | error e r => rfl
  | ok hs r =>
    dsimp only
    cases readBlocks r <;> rfl

theorem settled_readBlocks (n : Nat) (ls : List Text) :
    Settled true EndsInBlock readBlocks n ls := by
  refine settled_of_parts (fun n ls => ?_) n ls
  cases ls with
  | nil => exact .inl (settled_of_nil fun looked => ⟨true, readBlocks_eq _⟩)
  | cons line rest =>
    by_cases hline : line.startsWith "@@"
    . refine .inr ⟨_, readBlock, (· ++ ·), settled_readBlock line rest n, ?_, ?_⟩
      . intro hs r hok
        exact length_rest_of_readBlock hok
      . intro ls' looked hhead
        obtain ⟨rest', rfl⟩ := eq_cons_of_head? hhead
        exact readBlocks_of_header hline rest' n looked
    . refine .inl (settled_of_stop (a := []) fun more looked => ⟨true, ?_⟩)
      rw [readBlocks_eq]
      simp only [if_neg hline]

end Hunk

end Dvcs
