import Dvcs.Proofs.Commit.Fault
import Dvcs.Proofs.Patch.Seen

/-!
This module contains what the reading of commit records and of commit streams rests on, and with it
how far the line number of an error can be trusted.
-/

namespace Dvcs

namespace Metadata

open Reading

/-- The input ends inside of a record, the last line having the number `n`. -/
def EndsInRecord (n : Nat) (e : ReadError) : Prop := ∃ f, e = .record (n + 1) (.missing f)

variable {n : Nat} {ls : List Text}

theorem settled_field (f : RecordField) : Settled false EndsInRecord (field f) n ls := by
  cases ls with
  | nil => exact .ended (.record (n + 1) (.missing f)) (fun _ => ⟨_, rfl⟩) ⟨f, rfl⟩
  | cons line rest => exact .taken [line] rest line rfl fun _ _ _ => ⟨false, rfl⟩

/-- What is refused here is the line that was consumed last. -/
theorem settled_throw (fault : RecordFault) {α : Type} :
    Settled false EndsInRecord (do throw (.record (← lineNumber) fault) : Reading α) n ls := by
  refine .refused [] ls (.record n fault) rfl nofun ⟨fun _ _ => ⟨_, rfl⟩, ?_⟩
  rintro m ⟨⟩
  rfl

theorem settled_ensure (holds : Bool) (fault : RecordFault) :
    Settled false EndsInRecord (ensure holds fault) n ls := by
  unfold ensure
  split
  . exact settled_pure _
  . exact settled_throw fault

theorem settled_hashOf (t : Text) : Settled false EndsInRecord (hashOf t) n ls := by
  unfold hashOf
  split
  . exact settled_pure _
  . exact settled_throw _

theorem settled_hashesOf (ts : List Text) : Settled false EndsInRecord (hashesOf ts) n ls := by
  induction ts generalizing n ls with
  | nil => exact settled_pure _
  | cons t ts ih =>
    exact (settled_hashOf t).bind fun _ _ _ => ih.bind fun _ _ _ => settled_pure _

theorem settled_integerOf (f : RecordField) (t : Text) :
    Settled false EndsInRecord (integerOf f t) n ls := by
  unfold integerOf
  split
  . exact settled_pure _
  . exact settled_throw _

theorem settled_countOf (t : Text) : Settled false EndsInRecord (countOf t) n ls := by
  refine (settled_integerOf .messageCount t).bind fun i _ _ => ?_
  split
  . exact settled_pure _
  . exact settled_throw _

theorem messageLines_cons (count : Nat) (line : Text) (rest : List Text) (n : Nat) (looked : Bool) :
    messageLines (count + 1) ⟨line :: rest, n, looked⟩ =
      (return line :: (← messageLines count) : Reading (List Text)) ⟨rest, n + 1, false⟩ := by
  simp only [messageLines, messageFrom, bind, EStateM.bind]
  cases messageFrom (n + 1) rest count <;> rfl

theorem settled_messageLines (count : Nat) :
    Settled false EndsInRecord (messageLines count) n ls := by
  induction count generalizing n ls with
  | zero =>
    refine .taken [] ls [] rfl fun more _ _ => ⟨false, ?_⟩
    cases more <;> rfl
  | succ count ih =>
    cases ls with
    | nil =>
      exact .ended (.record (n + 1) (.missing .messageLine)) (fun _ => ⟨_, rfl⟩) ⟨_, rfl⟩
    | cons line rest =>
      have hrest : Settled false EndsInRecord
          (return line :: (← messageLines count) : Reading (List Text)) (n + 1) rest :=
        ih.bind fun _ _ _ => settled_pure _
      exact hrest.step fun more looked => messageLines_cons count line more n looked

theorem settled_read : Settled false EndsInRecord read n ls := by
  refine (settled_field .sentinel).bind fun first _ _ => ?_
  refine (settled_ensure _ _).bind fun _ _ _ => ?_
  refine (settled_field .hash).bind fun _ _ _ => ?_
  refine (settled_hashOf _).bind fun _ _ _ => ?_
  refine (settled_field .parents).bind fun _ _ _ => ?_
  refine (settled_hashesOf _).bind fun _ _ _ => ?_
  refine (settled_ensure _ _).bind fun _ _ _ => ?_
  refine (settled_field .authorName).bind fun _ _ _ => ?_
  refine (settled_field .authorEmail).bind fun _ _ _ => ?_
  refine (settled_field .committerName).bind fun _ _ _ => ?_
  refine (settled_field .committerEmail).bind fun _ _ _ => ?_
  refine (settled_field .timestamp).bind fun _ _ _ => ?_
  refine (settled_integerOf _ _).bind fun seconds _ _ => ?_
  refine (settled_field .messageCount).bind fun _ _ _ => ?_
  refine (settled_countOf _).bind fun _ _ _ => ?_
  refine (settled_messageLines _).bind fun _ _ _ => ?_
  split
  . next error htime =>
    exact .refused [] _ (.time error) rfl nofun ⟨fun _ _ => ⟨_, rfl⟩, nofun⟩
  . exact settled_pure _

/-- A record is read without a look at the line behind it, and not refused before its first line. -/
theorem settled_read_ahead : Settled true EndsInRecord read n ls := by
  cases (settled_read : Settled false EndsInRecord read n ls) with
  | taken taken rest m hls h =>
    exact .taken taken rest m hls fun more looked _ => h more looked nofun
  | refused seen rest e hls _ h =>
    refine .refused seen rest e hls ?_ h
    rintro - rfl
    obtain ⟨r, herror⟩ := h.error [] false
    have hnil : read ⟨[], n, false⟩ =
        .error (.record (n + 1) (.missing .sentinel)) ⟨[], n, false⟩ := rfl
    rw [List.nil_append, hnil] at herror
    cases herror
    exact Nat.succ_ne_self n (h.line (n + 1) rfl)
  | ended e h hshort => exact .ended e h hshort

end Metadata

namespace Commit

open Reading

/-- The input ends in front of a diff, the last line having the number `n`. -/
def EndsAtMarker (n : Nat) (e : ReadError) : Prop :=
  ∃ parent, e = .record n (.otherThanMarker parent none)

/-- The input ends behind a record and before the end of the last diff, the last line having the
number `n`. -/
def EndsInDiffs (n : Nat) (e : ReadError) : Prop := EndsAtMarker n e ∨ Patch.EndsInPatch n e

/-- The input ends inside of a commit, the last line having the number `n`. -/
def EndsInCommit (n : Nat) (e : ReadError) : Prop := Metadata.EndsInRecord n e ∨ EndsInDiffs n e

/-- The reading of the line in front of a diff. -/
def atMarker (parent : Hash) : Reading Unit := do
  let line ← Reading.next
  Metadata.ensure (line = some (marker parent)) (.otherThanMarker parent line)

theorem readDiffs_cons (hash parent : Hash) (parents : List Hash) :
    readDiffs hash (parent :: parents) = do
      atMarker parent
      let patches ← Patch.readExtended atRecord
      return ⟨parent, some hash, patches⟩ :: (← readDiffs hash parents) := by
  simp only [readDiffs, atMarker, bind_assoc]

theorem settled_atMarker {ahead : Bool} (parent : Hash) (n : Nat) (ls : List Text) :
    Settled ahead EndsAtMarker (atMarker parent) n ls := by
  cases ls with
  | nil => exact .ended (.record n (.otherThanMarker parent none)) (fun _ => ⟨_, rfl⟩) ⟨_, rfl⟩
  | cons line rest =>
    by_cases hline : some line = some (marker parent)
    . refine (settled_pure ()).step fun more looked => ?_
      simp [atMarker, Reading.next, LineReader.next, Metadata.ensure, bind, EStateM.bind, hline]
    . refine .of_refused_line (e := .record (n + 1) (.otherThanMarker parent (some line))) ?_ ?_
      . rintro m ⟨⟩
        rfl
      . intro more looked
        refine ⟨⟨more, n + 1, false⟩, ?_⟩
        simp [atMarker, Reading.next, LineReader.next, Metadata.ensure, bind, EStateM.bind, hline]
        rfl

theorem settled_readDiffs (hash : Hash) (parents : List Hash) (n : Nat) (ls : List Text) :
    Settled true EndsInDiffs (readDiffs hash parents) n ls := by
  induction parents generalizing n ls with
  | nil => exact settled_pure _
  | cons parent parents ih =>
    rw [readDiffs_cons]
    refine ((settled_atMarker parent n ls).mono fun _ _ => .inl).bind fun _ _ _ => ?_
    refine ((Patch.settled_readExtended atRecord _ _).mono fun _ _ => .inr).bind fun _ _ _ => ?_
    exact (ih _ _).bind fun _ _ _ => settled_pure _

theorem settled_read (n : Nat) (ls : List Text) : Settled true EndsInCommit read n ls := by
  refine (Metadata.settled_read_ahead.mono fun _ _ => .inl).bind fun metadata _ _ => ?_
  refine ((settled_readDiffs _ _ _ _).mono fun _ _ => .inr).bind fun _ _ _ => settled_pure _

end Commit

namespace LineReader

open Reading

/-- The line numbers of the four parsers are accurate but for two errors about the end of the input,
which are reported at the last line: nothing stands behind a first file header, and nothing stands
in the place of the line in front of a diff. -/
theorem accurate_ofLines (ls : List Text) :
    Accurate Metadata.read ls (fun _ => False) ∧
    Accurate Commit.read ls
      (fun e => Patch.EndsAtTarget ls.length e ∨ Commit.EndsAtMarker ls.length e) ∧
    Accurate (Patch.readExtended Patch.toEnd) ls (Patch.EndsAtTarget ls.length) ∧
    Accurate Patch.readUnified ls (Patch.EndsAtTarget ls.length) := by
  have hpatch (e : ReadError) (h : Patch.EndsInPatch ls.length e) :
      Patch.EndsAtTarget ls.length e ∧ e.line? = some ls.length ∨
        e.line? = some (ls.length + 1) := by
    rcases h with rfl | rfl
    . exact .inr rfl
    . exact .inl ⟨rfl, rfl⟩
  have hrecord (e : ReadError) (h : Metadata.EndsInRecord ls.length e) :
      e.line? = some (ls.length + 1) := by
    obtain ⟨f, rfl⟩ := h
    rfl
  refine ⟨?_, ?_, ?_, ?_⟩
  . exact accurate_of_settled Metadata.settled_read fun e h => .inr (hrecord e h)
  . refine accurate_of_settled (Commit.settled_read 0 ls) fun e h => ?_
    rcases h with h | ⟨parent, rfl⟩ | h
    . exact .inr (hrecord e h)
    . exact .inl ⟨.inr ⟨parent, rfl⟩, rfl⟩
    . exact (hpatch e h).imp_left fun h => ⟨.inl h.1, h.2⟩
  . exact accurate_of_settled (Patch.settled_readExtended Patch.toEnd 0 ls) hpatch
  . exact accurate_of_settled (Patch.settled_readUnified 0 ls) hpatch

end LineReader

/-- The input ends behind its only line, and it is this line that is blamed, although a second file
header behind it makes a diff of it. -/
theorem Patch.readUnified_sourceOnly :
    readUnified (.ofLines ["--- a/x"]) =
      .error (.diff 1 (.otherThanTargetHeader none)) ⟨[], 1, false⟩ ∧
    readUnified (.ofLines ["--- a/x", "+++ b/x"]) =
      .ok [ofPaths (some "x") (some "x") [] false] ⟨[], 2, true⟩ ∧
    ¬ Reading.Accurate readUnified ["--- a/x"] (fun _ => False) := by
  have hsource : readUnified (.ofLines ["--- a/x"]) =
      .error (.diff 1 (.otherThanTargetHeader none)) ⟨[], 1, false⟩ := by
    cbv
  have hcontent : contentBehind "a/x" ⟨["--- a/x", "+++ b/x"], 0, false⟩ =
      .ok (ofPaths (some "x") (some "x") [] false) ⟨[], 2, true⟩ := by
    have hpaths : headerPaths "a/x" "b/x" = .ok (some "x", some "x") := rfl
    have hblocks := Hunk.readBlocks_eq ⟨[], 2, false⟩
    have hafter : Text.after? "+++ " "+++ b/x" = some ("b/x" : Text) := rfl
    exact (inContent_eq_readBlocks hafter hpaths [] 1 false).trans (Reading.bind_of_ok hblocks)
  have hboth : readUnified (.ofLines ["--- a/x", "+++ b/x"]) =
      .ok [ofPaths (some "x") (some "x") [] false] ⟨[], 2, true⟩ := by
    have hafter : Text.after? "--- " "--- a/x" = some ("a/x" : Text) := rfl
    simp only [LineReader.ofLines, readUnified_cons, hafter]
    rw [Reading.bind_of_ok hcontent]
    have hmore : readUnified ⟨[], 2, true⟩ = .ok [] ⟨[], 2, true⟩ := by cbv
    rw [Reading.bind_of_ok hmore]
    rfl
  refine ⟨hsource, hboth, fun haccurate => ?_⟩
  rcases (haccurate _ _ 1 hsource rfl).2 (Nat.le_refl 1) with hfalse | hothers
  . exact hfalse
  . obtain ⟨r, herror⟩ := hothers ["--- a/x", "+++ b/x"] rfl
    rw [hboth] at herror
    contradiction

end Dvcs
