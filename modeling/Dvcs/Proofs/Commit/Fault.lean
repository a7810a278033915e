import Dvcs.Commit.Dump
import Dvcs.Proofs.Patch.Fault

/-!
This module contains what the errors of the parsers are about, those of commit records and of commit
streams as well. All of them keep to the lines of their input: an error with a line number blames
one of these, or the line that is missing behind the last one. The errors without a line number are
the values that a line spells and that cannot be had.
-/

namespace Dvcs

namespace Metadata

open Reading

/-- The errors in commit records: a line is at fault, or the end of the input; or a line holds a
time outside of the calendar. -/
inductive Blames (r : LineReader) : ReadError → Prop
  | place {n : Nat} (fault : RecordFault) (h : r.Covers n) : Blames r (.record n fault)
  | time {line : Text} {s : Int} {error : TimeError} (hline : line ∈ r.rest)
    (hs : Text.readInteger 10 line = .ok s) (h : Instant.ofSeconds s = .error error) :
    Blames r (.time error)

variable {r : LineReader}

theorem begins_field (f : RecordField) : Begins r (Blames r) (field f) (· ∈ r.rest) := by
  rintro ⟨ls, n, looked⟩ hr
  cases ls with
  | nil => exact .place _ (hr.covers (LineReader.covers_next _))
  | cons line rest =>
    have hline : line ∈ r.rest := hr.mem (List.mem_cons_self ..)
    refine ⟨⟨hr.trans (.drop line rest n looked false), ?_⟩, hline⟩
    obtain ⟨taken, _, hnumber⟩ := hr
    dsimp only at hnumber ⊢
    omega

theorem continues_ensure (holds : Bool) (fault : RecordFault) :
    Continues r (Blames r) (ensure holds fault) fun _ => True := by
  unfold ensure
  split
  . exact continues_pure trivial
  . exact continues_throw_lineNumber fun n hn => .place fault hn

theorem continues_hashOf (t : Text) : Continues r (Blames r) (hashOf t) fun _ => True := by
  unfold hashOf
  split
  . exact continues_pure trivial
  . exact continues_throw_lineNumber fun n hn => .place _ hn

theorem continues_hashesOf (ts : List Text) :
    Continues r (Blames r) (hashesOf ts) fun _ => True := by
  induction ts with
  | nil => exact continues_pure trivial
  | cons t ts ih =>
    exact (continues_hashOf t).bind fun _ _ => ih.bind fun _ _ => continues_pure trivial

theorem continues_integerOf (f : RecordField) (t : Text) :
    Continues r (Blames r) (integerOf f t) (Text.readInteger 10 t = .ok ·) := by
  unfold integerOf
  split
  . next h => exact continues_pure h
  . exact continues_throw_lineNumber fun n hn => .place _ hn

theorem continues_countOf (t : Text) : Continues r (Blames r) (countOf t) fun _ => True := by
  refine (continues_integerOf .messageCount t).bind fun n _ => ?_
  split
  . exact continues_pure trivial
  . exact continues_throw_lineNumber fun n hn => .place _ hn

theorem outcome_messageFrom (count : Nat) {n : Nat} {ls : List Text} {looked : Bool}
    (h : r.Passes ⟨ls, n, looked⟩) :
    Reading.Outcome r (Blames r) (fun _ => True) (messageFrom n ls count) := by
  induction ls generalizing n looked count with
  | nil =>
    cases count with
    | zero => exact ⟨h.trans_reaches (.of_rest_eq rfl rfl), trivial⟩
    | succ count => exact .place _ (h.1.covers (LineReader.covers_next _))
  | cons line rest ih =>
    cases count with
    | zero => exact ⟨h.trans_reaches (.of_rest_eq rfl rfl), trivial⟩
    | succ count =>
      have hrest := ih count (h.trans_reaches (.drop line rest n looked false))
      rw [messageFrom]
      cases hmore : messageFrom (n + 1) rest count with
      | ok message r' =>
        rw [hmore] at hrest
        exact hrest
      | error e r' =>
        rw [hmore] at hrest
        exact hrest

theorem continues_messageLines (count : Nat) :
    Continues r (Blames r) (messageLines count) fun _ => True :=
  fun _ hr => outcome_messageFrom count hr

theorem begins_read : Begins r (Blames r) read fun _ => True := by
  refine (begins_field .sentinel).bind fun first _ => ?_
  refine (continues_ensure _ _).bind fun _ _ => ?_
  refine (begins_field .hash).continues.bind fun hash _ => ?_
  refine (continues_hashOf _).bind fun _ _ => ?_
  refine (begins_field .parents).continues.bind fun parents _ => ?_
  refine (continues_hashesOf _).bind fun _ _ => ?_
  refine (continues_ensure _ _).bind fun _ _ => ?_
  refine (begins_field .authorName).continues.bind fun _ _ => ?_
  refine (begins_field .authorEmail).continues.bind fun _ _ => ?_
  refine (begins_field .committerName).continues.bind fun _ _ => ?_
  refine (begins_field .committerEmail).continues.bind fun _ _ => ?_
  refine (begins_field .timestamp).continues.bind fun line hline => ?_
  refine (continues_integerOf _ _).bind fun seconds hseconds => ?_
  refine (begins_field .messageCount).continues.bind fun _ _ => ?_
  refine (continues_countOf _).bind fun count _ => ?_
  refine (continues_messageLines _).bind fun message _ => ?_
  split
  . next error htime => exact continues_throw (.time hline hseconds htime)
  . exact continues_pure trivial

end Metadata

namespace Commit

open Reading

/-- The errors in commit streams: those in the records, and those in the diffs. -/
def Blames (r : LineReader) (e : ReadError) : Prop :=
  Metadata.Blames r e ∨ Patch.HeaderBlames r e

variable {r : LineReader}

theorem continues_next : Continues r (Blames r) next fun _ => True := by
  rintro ⟨ls, n, looked⟩ hr
  cases ls with
  | nil => exact ⟨hr.trans_reaches (.of_rest_eq rfl rfl), trivial⟩
  | cons line rest => exact ⟨hr.trans_reaches (.drop line rest n looked false), trivial⟩

theorem continues_readExtended (stop : Text → Bool) :
    Continues r (Blames r) (Patch.readExtended stop) fun _ => True := by
  intro r' hr
  cases h : Patch.readExtended stop r' with
  | ok ps r'' => exact ⟨hr.trans_reaches (Patch.reaches_of_readExtended h), trivial⟩
  | error e r'' => exact .inr ((Patch.blames_of_readExtended h).of_reaches hr.1)

theorem continues_readDiffs (hash : Hash) (parents : List Hash) :
    Continues r (Blames r) (readDiffs hash parents) fun _ => True := by
  induction parents with
  | nil => exact continues_pure trivial
  | cons parent parents ih =>
    refine continues_next.bind fun line _ => ?_
    refine ((Metadata.continues_ensure _ _).mono fun _ => .inl).bind fun _ _ => ?_
    refine (continues_readExtended _).bind fun patches _ => ?_
    exact ih.bind fun _ _ => continues_pure trivial

theorem begins_read : Begins r (Blames r) read fun _ => True := by
  refine (Metadata.begins_read.mono fun _ => .inl).bind fun metadata _ => ?_
  exact (continues_readDiffs _ _).bind fun _ _ => continues_pure trivial

end Commit

theorem Reading.Begins.blames_of_error {α : Type} {r : LineReader} {blames : ReadError → Prop}
    {p : Reading α} {good : α → Prop} (h : Begins r blames p good) (e : ReadError)
    (r' : LineReader) (hp : p r = .error e r') : blames e := by
  have houtcome := h r (.of_rest_eq rfl rfl)
  rw [hp] at houtcome
  exact houtcome

/-- The errors of the four parsers on any lines. With a line number `n` go `1 ≤ n` and `n ≤
ls.length + 1`. Only a broken quoted path, a similarity of too many digits and a time outside of the
calendar go without one, and each parser meets only those that are its own. -/
theorem LineReader.blames_ofLines (ls : List Text) :
    (∀ e r, Patch.readExtended Patch.toEnd (.ofLines ls) = .error e r →
      Patch.HeaderBlames (.ofLines ls) e) ∧
    (∀ e r, Patch.readUnified (.ofLines ls) = .error e r → Patch.Blames (.ofLines ls) e) ∧
    (∀ e r, Metadata.read (.ofLines ls) = .error e r → Metadata.Blames (.ofLines ls) e) ∧
    (∀ e r, Commit.read (.ofLines ls) = .error e r → Commit.Blames (.ofLines ls) e) := by
  refine ⟨fun e r h => Patch.blames_of_readExtended h, fun e r h => ?_, ?_, ?_⟩
  . exact Patch.blames_of_readUnifiedFrom h false
  . exact Metadata.begins_read.blames_of_error
  . exact Commit.begins_read.blames_of_error

/-- A record that is in order but for its time, the first second of the year 10000: the error has no
line number, although it is the eighth line that is wrong. -/
theorem Metadata.read_yearTooLate :
    Metadata.read (.ofLines [sentinel, List.replicate 40 (.char 'a'), List.replicate 40 (.char '0'),
        "n", [], "n", [], "253402300800", "0"]) =
      .error (.time (.yearOutOfRange 10000)) ⟨[], 9, false⟩ ∧
    (ReadError.time (.yearOutOfRange 10000)).line? = none :=
  ⟨rfl, rfl⟩

end Dvcs
