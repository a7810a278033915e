import Dvcs.Proofs.Hunk.Seen
import Dvcs.Proofs.Patch.Fault

/-!
This module contains what the reading of patches rests on. Apart from the counts of a block, the
only thing that more lines can mend is a file header without its counterpart.
-/

namespace Dvcs

namespace Patch

open Reading

/-- The input ends between two file headers, the last line having the number `n`. -/
def EndsAtTarget (n : Nat) (e : ReadError) : Prop := e = .diff n (.otherThanTargetHeader none)

/-- The input ends inside of a block or between two file headers, the last line having the number
`n`. -/
def EndsInPatch (n : Nat) (e : ReadError) : Prop := Hunk.EndsInBlock n e ∨ EndsAtTarget n e

theorem settled_readBlocks (n : Nat) (ls : List Text) :
    Settled true EndsInPatch Hunk.readBlocks n ls :=
  (Hunk.settled_readBlocks n ls).mono fun _ _ => .inl

section Extended

variable (stop : Text → Bool)

/-- The reading of a value that binary content follows. -/
def inPayload {α : Type} (a : α) : Reading α :=
  fun r => .ok a (skipPayload stop r.lineNumber r.rest)

theorem settled_inPayload {α : Type} (a : α) (n : Nat) (ls : List Text) :
    Settled true EndsInPatch (inPayload stop a) n ls := by
  induction ls generalizing n with
  | nil => exact settled_of_nil fun looked => ⟨true, rfl⟩
  | cons line rest ih =>
    by_cases hend : endsPatch stop line
    . refine settled_of_stop (a := a) fun more looked => ⟨true, ?_⟩
      simp [inPayload, skipPayload, hend]
    . refine (ih (n + 1)).step fun more looked => ?_
      simp [inPayload, skipPayload, hend]

/-- The reading behind the first file header as a parser. -/
def inHunks : Reading (List Hunk) := fun r => readHunks r.rest r.lineNumber

theorem settled_inHunks (n : Nat) (ls : List Text) : Settled true EndsInPatch inHunks n ls := by
  cases ls with
  | nil => exact .ended (.diff n (.otherThanTargetHeader none)) (fun _ => ⟨_, rfl⟩) (.inr rfl)
  | cons line rest =>
    by_cases hline : line.startsWith "+++ "
    . refine (settled_readBlocks (n + 1) rest).step fun more looked => ?_
      simp only [inHunks, readHunks, if_pos hline]
    . refine .of_refused_line (e := .diff (n + 1) (.otherThanTargetHeader (some line))) ?_
        fun more looked => ?_
      . rintro m ⟨⟩
        rfl
      . exact ⟨⟨more, n + 1, false⟩, by simp only [inHunks, readHunks, if_neg hline]⟩

/-- The reading behind some header lines as a parser. -/
def inHeader (hd : Header) : Reading Patch := fun r => readHeader stop hd r.lineNumber r.rest

theorem inHeader_eq_inHunks {hd : Header} {n : Nat} {line : Text} (hend : ¬ endsPatch stop line)
    (hstep : hd.step (n + 1) line = .ok .fileHeader) (rest : List Text) (looked : Bool) :
    inHeader stop hd ⟨line :: rest, n, looked⟩ =
      (return hd.toPatch (← inHunks) false : Reading Patch) ⟨rest, n + 1, false⟩ := by
  simp only [inHeader, readHeader, if_neg hend, hstep, inHunks, bind, EStateM.bind]
  cases readHunks rest (n + 1) <;> rfl

theorem settled_inHeader (hd : Header) (n : Nat) (ls : List Text) :
    Settled true EndsInPatch (inHeader stop hd) n ls := by
  induction ls generalizing hd n with
  | nil =>
    exact settled_of_nil fun looked => ⟨true, rfl⟩
  | cons line rest ih =>
    by_cases hend : endsPatch stop line
    . refine settled_of_stop (a := hd.toPatch [] false) fun more looked => ⟨true, ?_⟩
      simp [inHeader, readHeader, hend]
    . cases hstep : hd.step (n + 1) line with
      | error e =>
        refine .of_refused_line (Header.line_of_step hstep) fun more looked => ?_
        exact ⟨⟨more, n + 1, false⟩, by simp [inHeader, readHeader, hend, hstep]⟩
      | ok found =>
        cases found with
        | header hd' =>
          refine (ih hd' (n + 1)).step fun more looked => ?_
          simp [inHeader, readHeader, hend, hstep]
        | binaryNotice =>
          refine (settled_pure (hd.toPatch [] true)).step fun more looked => ?_
          simp [inHeader, readHeader, hend, hstep, pure, EStateM.pure]
        | binaryPayload =>
          refine (settled_inPayload stop (hd.toPatch [] true) (n + 1) rest).step
            fun more looked => ?_
          simp [inHeader, readHeader, hend, hstep, inPayload]
        | fileHeader =>
          have hcontent : Settled true EndsInPatch
              (return hd.toPatch (← inHunks) false : Reading Patch) (n + 1) rest :=
            (settled_inHunks (n + 1) rest).bind fun hs _ _ => settled_pure (hd.toPatch hs false)
          exact hcontent.step (inHeader_eq_inHunks stop hend hstep)

theorem settled_readOne (line : Text) (rest : List Text) (n : Nat) :
    Settled true EndsInPatch (readOne stop) n (line :: rest) := by
  cases hpaths : Path.readPair (line.drop patchHeader.length) with
  | error e =>
    refine .of_refused_line (e := .quote e) nofun fun more looked => ?_
    exact ⟨⟨more, n + 1, false⟩, by simp [readOne, hpaths]⟩
  | ok paths =>
    cases paths with
    | none =>
      refine .of_refused_line
        (e := .diff (n + 1) (.malformedPatchHeader (line.drop patchHeader.length))) ?_
        fun more looked => ?_
      . rintro m ⟨⟩
        rfl
      . exact ⟨⟨more, n + 1, false⟩, by simp only [readOne, hpaths]⟩
    | some paths =>
      obtain ⟨source, target⟩ := paths
      let hd : Header := { sourcePath := source, targetPath := target }
      refine (settled_inHeader stop hd (n + 1) rest).step fun more looked => ?_
      simp only [readOne, hpaths, inHeader, hd]

theorem readExtended_of_header {line : Text} (hstop : stop line = false)
    (hline : line.startsWith patchHeader = true) (rest : List Text) (n : Nat) (looked : Bool) :
    readExtended stop ⟨line :: rest, n, looked⟩ =
      (return (← readOne stop) :: (← readExtended stop) : Reading (List Patch))
        ⟨line :: rest, n, looked⟩ := by
  rw [readExtended_eq]
  simp only [hstop, Bool.false_eq_true, ↓reduceIte, if_pos hline, bind, EStateM.bind]
  cases readOne stop ⟨line :: rest, n, looked⟩ with
  | error e r => rfl
  | ok p r =>
    dsimp only
    cases readExtended stop r <;> rfl

theorem settled_readExtended (n : Nat) (ls : List Text) :
    Settled true EndsInPatch (readExtended stop) n ls := by
  refine settled_of_parts (fun n ls => ?_) n ls
  cases ls with
  | nil => exact .inl (settled_of_nil fun looked => ⟨true, readExtended_eq stop _⟩)
  | cons line rest =>
    by_cases hstop : stop line
    . refine .inl (settled_of_stop (a := []) fun more looked => ⟨true, ?_⟩)
      rw [readExtended_eq]
      simp only [if_pos hstop]
    by_cases hline : line.startsWith patchHeader
    . refine .inr ⟨_, readOne stop, (· :: ·), settled_readOne stop line rest n, ?_, ?_⟩
      . intro p r hok
        exact length_rest_of_readOne hok
      . intro ls' looked hhead
        obtain ⟨rest', rfl⟩ := eq_cons_of_head? hhead
        exact readExtended_of_header stop (eq_false_of_ne_true hstop) hline rest' n looked
    . refine .inl (.of_refused_line (e := .diff (n + 1) (.otherThanPatchHeader line)) ?_ ?_)
      . rintro m ⟨⟩
        rfl
      . intro more looked
        refine ⟨⟨line :: more, n, true⟩, ?_⟩
        rw [readExtended_eq]
        simp only [if_neg hstop, if_neg hline]

end Extended

section Unified

theorem line_of_headerPaths {source target : Text} {e : ReadError}
    (h : headerPaths source target = .error e) : e.line? = none := by
  obtain ⟨q, rfl, _⟩ := broken_of_headerPaths h
  rfl

/-- The reading behind the first file header as a parser. -/
def inContent (source : Text) : Reading Patch := fun r => readContent source r.rest r.lineNumber

theorem inContent_eq_readBlocks {source target line : Text}
    (hline : Text.after? "+++ " line = some target) {paths : Option Text × Option Text}
    (hpaths : headerPaths source target = .ok paths) (rest : List Text) (n : Nat) (looked : Bool) :
    inContent source ⟨line :: rest, n, looked⟩ =
      (return ofPaths paths.1 paths.2 (← Hunk.readBlocks) false : Reading Patch)
        ⟨rest, n + 1, false⟩ := by
  obtain ⟨source', target'⟩ := paths
  simp only [inContent, readContent, hline, hpaths, bind, EStateM.bind]
  cases Hunk.readBlocks ⟨rest, n + 1, false⟩ <;> rfl

theorem settled_inContent (source : Text) (n : Nat) (ls : List Text) :
    Settled true EndsInPatch (inContent source) n ls := by
  cases ls with
  | nil => exact .ended (.diff n (.otherThanTargetHeader none)) (fun _ => ⟨_, rfl⟩) (.inr rfl)
  | cons line rest =>
    cases hline : Text.after? "+++ " line with
    | none =>
      refine .of_refused_line (e := .diff (n + 1) (.otherThanTargetHeader (some line))) ?_
        fun more looked => ?_
      . rintro m ⟨⟩
        rfl
      . exact ⟨⟨more, n + 1, false⟩, by simp only [inContent, readContent, hline]⟩
    | some target =>
      cases hpaths : headerPaths source target with
      | error e =>
        refine .of_refused_line (e := e) (by simp [line_of_headerPaths hpaths])
          fun more looked => ?_
        exact ⟨⟨more, n + 1, false⟩, by simp only [inContent, readContent, hline, hpaths]⟩
      | ok paths =>
        have hblocks : Settled true EndsInPatch
            (return ofPaths paths.1 paths.2 (← Hunk.readBlocks) false : Reading Patch)
            (n + 1) rest :=
          (settled_readBlocks (n + 1) rest).bind fun hs _ _ =>
            settled_pure (ofPaths paths.1 paths.2 hs false)
        exact hblocks.step fun more looked => inContent_eq_readBlocks hline hpaths more n looked

/-- The reading of a first file header with what belongs to it. -/
def contentBehind (source : Text) : Reading Patch := do
  let _ ← Reading.next
  inContent source

theorem readUnified_cons (line : Text) (rest : List Text) (n : Nat) (looked : Bool) :
    readUnified ⟨line :: rest, n, looked⟩ =
      match Text.after? "--- " line with
      | some source =>
        (return (← contentBehind source) :: (← readUnified) : Reading (List Patch))
          ⟨line :: rest, n, looked⟩
      | none =>
        match binaryNames? line with
        | some (source, target) =>
          match headerPaths source target with
          | .error e => .error e ⟨rest, n + 1, false⟩
          | .ok (source, target) =>
            (do
              let _ ← Reading.next
              return ofPaths source target [] true :: (← readUnified) : Reading (List Patch))
              ⟨line :: rest, n, looked⟩
        | none =>
          if line.startsWith "@@" || line.startsWith "+++ " then
            .error (.diff (n + 1) (.lineOutsidePatch line)) ⟨line :: rest, n, true⟩
          else
            (do
              let _ ← Reading.next
              readUnified : Reading (List Patch)) ⟨line :: rest, n, looked⟩ := by
  simp only [readUnified, contentBehind, inContent, Reading.next, LineReader.next, bind,
    EStateM.bind]
  rw [readUnifiedFrom]
  cases Text.after? "--- " line with
  | some source =>
    dsimp only
    split
    . next heq => simp only [heq]
    . next p r heq =>
      simp only [heq]
      cases readUnifiedFrom r.lineNumber r.rest <;> rfl
  | none =>
    cases binaryNames? line with
    | none => rfl
    | some names =>
      obtain ⟨source, target⟩ := names
      dsimp only
      cases headerPaths source target with
      | error e => rfl
      | ok paths =>
        dsimp only
        cases readUnifiedFrom (n + 1) rest <;> rfl

theorem settled_contentBehind (source line : Text) (rest : List Text) (n : Nat) :
    Settled true EndsInPatch (contentBehind source) n (line :: rest) :=
  (settled_inContent source (n + 1) rest).step fun _ _ => rfl

theorem length_rest_of_contentBehind {source line : Text} {rest : List Text} {n : Nat} {p : Patch}
    {r : LineReader} (h : contentBehind source ⟨line :: rest, n, false⟩ = .ok p r) :
    r.rest.length < (line :: rest).length :=
  Nat.lt_succ_of_le (length_rest_of_readContent h)

theorem settled_readUnified (n : Nat) (ls : List Text) :
    Settled true EndsInPatch readUnified n ls := by
  refine settled_of_parts (fun n ls => ?_) n ls
  cases ls with
  | nil =>
    refine .inl (settled_of_nil (a := []) fun looked => ⟨true, ?_⟩)
    simp only [readUnified, readUnifiedFrom]
  | cons line rest =>
    cases hsource : Text.after? "--- " line with
    | some source =>
      refine .inr ⟨_, contentBehind source, (· :: ·), settled_contentBehind source line rest n,
        fun _ _ hok => length_rest_of_contentBehind hok, ?_⟩
      intro ls' looked hhead
      obtain ⟨rest', rfl⟩ := eq_cons_of_head? hhead
      rw [readUnified_cons]
      simp only [hsource]
    | none =>
      cases hnames : binaryNames? line with
      | some names =>
        cases hpaths : headerPaths names.1 names.2 with
        | error e =>
          refine .inl (.of_refused_line (e := e) (by simp [line_of_headerPaths hpaths]) ?_)
          intro more looked
          refine ⟨⟨more, n + 1, false⟩, ?_⟩
          rw [readUnified_cons]
          simp only [hsource, hnames, hpaths]
        | ok paths =>
          refine .inr ⟨_, Reading.next, fun _ ps => ofPaths paths.1 paths.2 [] true :: ps,
            settled_next line rest, ?_, ?_⟩
          . rintro _ r ⟨⟩
            exact Nat.lt_succ_self _
          . intro ls' looked hhead
            obtain ⟨rest', rfl⟩ := eq_cons_of_head? hhead
            rw [readUnified_cons]
            simp only [hsource, hnames, hpaths]
      | none =>
        by_cases hstray : line.startsWith "@@" || line.startsWith "+++ "
        . refine .inl (.of_refused_line (e := .diff (n + 1) (.lineOutsidePatch line)) ?_ ?_)
          . rintro m ⟨⟩
            rfl
          . intro more looked
            refine ⟨⟨line :: more, n, true⟩, ?_⟩
            rw [readUnified_cons]
            simp only [hsource, hnames, if_pos hstray]
        . refine .inr ⟨_, Reading.next, fun _ ps => ps, settled_next line rest, ?_, ?_⟩
          . rintro _ r ⟨⟩
            exact Nat.lt_succ_self _
          . intro ls' looked hhead
            obtain ⟨rest', rfl⟩ := eq_cons_of_head? hhead
            rw [readUnified_cons]
            simp only [hsource, hnames, if_neg hstray, bind_pure]

end Unified

end Patch

end Dvcs
