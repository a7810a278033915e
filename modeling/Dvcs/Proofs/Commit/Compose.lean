import Dvcs.Proofs.Commit.Seen
import Dvcs.Proofs.Commit.Stream
import Dvcs.Proofs.LineReader.Compose

/-!
This module contains the reading of commit streams one behind the other. A record or marker ends
whatever a diff can end in, just as the end of the input does.
-/

namespace Dvcs

open Reading

namespace Metadata

theorem field_nil (f : RecordField) (n : Nat) (looked : Bool) :
    field f ⟨[], n, looked⟩ = .error (.record (n + 1) (.missing f)) ⟨[], n, false⟩ := rfl

theorem shifts_field (f : RecordField) : Shifts (field f) := by
  rintro ⟨ls, n, looked⟩ k
  cases ls with
  | nil => simp only [LineReader.shift, field_nil, shift, ReadError.shift, Nat.add_right_comm]
  | cons line rest => simp only [LineReader.shift, field_cons, shift, Nat.add_right_comm]

theorem shifts_throw {α : Type} (fault : RecordFault) :
    Shifts (do throw (.record (← lineNumber) fault) : Reading α) :=
  fun _ _ => rfl

theorem shifts_ensure (holds : Bool) (fault : RecordFault) : Shifts (ensure holds fault) := by
  unfold ensure
  split
  . exact shifts_pure _
  . exact shifts_throw fault

theorem shifts_hashOf (t : Text) : Shifts (hashOf t) := by
  unfold hashOf
  split
  . exact shifts_pure _
  . exact shifts_throw _

theorem shifts_hashesOf (ts : List Text) : Shifts (hashesOf ts) := by
  induction ts with
  | nil => exact shifts_pure _
  | cons t ts ih => exact (shifts_hashOf t).bind fun _ => ih.bind fun _ => shifts_pure _

theorem shifts_integerOf (f : RecordField) (t : Text) : Shifts (integerOf f t) := by
  unfold integerOf
  split
  . exact shifts_pure _
  . exact shifts_throw _

theorem shifts_countOf (t : Text) : Shifts (countOf t) := by
  refine (shifts_integerOf .messageCount t).bind fun i => ?_
  split
  . exact shifts_pure _
  . exact shifts_throw _

theorem messageFrom_shift (n k count : Nat) (ls : List Text) :
    messageFrom (n + k) ls count = shift k (messageFrom n ls count) := by
  induction ls generalizing n count with
  | nil =>
    cases count with
    | zero => rfl
    | succ count =>
      simp only [messageFrom, shift, ReadError.shift]
      rw [Nat.add_right_comm]
      rfl
  | cons line rest ih =>
    cases count with
    | zero => rfl
    | succ count =>
      simp only [messageFrom]
      rw [Nat.add_right_comm, ih]
      cases messageFrom (n + 1) rest count <;> rfl

theorem shifts_messageLines (count : Nat) : Shifts (messageLines count) :=
  fun r k => messageFrom_shift r.lineNumber k count r.rest

theorem shifts_read : Shifts read := by
  refine (shifts_field .sentinel).bind fun _ => ?_
  refine (shifts_ensure _ _).bind fun _ => ?_
  refine (shifts_field .hash).bind fun _ => ?_
  refine (shifts_hashOf _).bind fun _ => ?_
  refine (shifts_field .parents).bind fun _ => ?_
  refine (shifts_hashesOf _).bind fun _ => ?_
  refine (shifts_ensure _ _).bind fun _ => ?_
  refine (shifts_field .authorName).bind fun _ => ?_
  refine (shifts_field .authorEmail).bind fun _ => ?_
  refine (shifts_field .committerName).bind fun _ => ?_
  refine (shifts_field .committerEmail).bind fun _ => ?_
  refine (shifts_field .timestamp).bind fun _ => ?_
  refine (shifts_integerOf _ _).bind fun _ => ?_
  refine (shifts_field .messageCount).bind fun _ => ?_
  refine (shifts_countOf _).bind fun _ => ?_
  refine (shifts_messageLines _).bind fun _ => ?_
  split
  . exact fun _ _ => rfl
  . exact shifts_pure _

end Metadata

namespace Commit

theorem shifts_readExtended (stop : Text → Bool) : Shifts (Patch.readExtended stop) :=
  fun r k => Patch.readExtended_shift stop r k

theorem shifts_readDiffs (hash : Hash) (parents : List Hash) : Shifts (readDiffs hash parents) := by
  induction parents with
  | nil => exact shifts_pure _
  | cons parent parents ih =>
    refine shifts_next.bind fun line => ?_
    refine (Metadata.shifts_ensure _ _).bind fun _ => ?_
    exact (shifts_readExtended _).bind fun _ => ih.bind fun _ => shifts_pure _

theorem shifts_read : Shifts read :=
  Metadata.shifts_read.bind fun _ => (shifts_readDiffs _ _).bind fun _ => shifts_pure _

variable {more : List Text}

theorem spares_readExtended (hmore : AtFrame more) :
    Spares more (Patch.readExtended atRecord) := by
  intro ls n looked ps r h looked'
  have happend := Patch.readExtended_append h hmore.ends hmore
  rw [LineReader.append, LineReader.append] at happend
  exact ⟨r.looked, (Patch.readExtended_looked ..).trans happend⟩

theorem spares_readDiffs (hmore : AtFrame more) (hash : Hash) (parents : List Hash) :
    Spares more (readDiffs hash parents) := by
  induction parents with
  | nil => exact spares_pure _
  | cons parent parents ih =>
    rw [readDiffs_cons]
    refine (spares_of_settled (settled_atMarker parent)).bind fun _ => ?_
    exact (spares_readExtended hmore).bind fun _ => ih.bind fun _ => spares_pure _

theorem spares_read (hmore : AtFrame more) : Spares more read := by
  refine (spares_of_settled fun _ _ => Metadata.settled_read).bind fun metadata => ?_
  exact (spares_readDiffs hmore _ _).bind fun _ => spares_pure _

theorem read_looked (ls : List Text) (n : Nat) (looked looked' : Bool) :
    read ⟨ls, n, looked⟩ = read ⟨ls, n, looked'⟩ := by
  cases ls <;> rfl

theorem lineNumber_of_read {r r' : LineReader} {c : Commit} (h : read r = .ok c r') :
    r'.lineNumber + r'.rest.length = r.lineNumber + r.rest.length := by
  obtain ⟨taken, hrest, hnumber, _⟩ := (settled_read r.lineNumber r.rest).of_ok h
  rw [hrest, hnumber, List.length_append, Nat.add_assoc]

/-- A stream that can be read to its end may be followed by another one: the commits of the second
come behind those of the first, and so does its error, if any. -/
theorem readAll_append {xs ys : List Text} (hxs : (readAll (.ofLines xs)).error = none)
    (hys : AtFrame ys) :
    readAll (.ofLines (xs ++ ys)) =
      { items := (readAll (.ofLines xs)).items ++ (readAll (.ofLines ys)).items
        error := (readAll (.ofLines ys)).error.map (·.shift xs.length)
        reader := (readAll (.ofLines ys)).reader.shift xs.length } := by
  have happend := many_append read_consumes shifts_read (spares_read hys)
    (fun _ _ _ => lineNumber_of_read) read_looked hxs false
  rw [LineReader.ofLines, Nat.zero_add] at happend
  exact happend

/-- A record that is cut behind its first line is found out behind a whole commit as it is alone. -/
theorem readAll_append_truncated :
    readAll (.ofLines (awkward.encode ++ [Metadata.sentinel])) =
      { items := [awkward]
        error := some (.record 21 (.missing .hash))
        reader := ⟨[], 20, false⟩ } := by
  have hfirst : readAll (.ofLines awkward.encode) =
      { items := [awkward], reader := ⟨[], 19, true⟩ } := by
    have hread := readAll_encodeWith (List.forall_mem_singleton.2 framed_awkward)
      (List.forall_mem_singleton.2 fun d hd => shows_lines (read_diffs_awkward d hd))
    rw [List.flatMap_singleton] at hread
    exact hread
  have hsecond : readAll (.ofLines [Metadata.sentinel]) =
      { items := [], error := some (.record 2 (.missing .hash)), reader := ⟨[], 1, false⟩ } :=
    many_of_error read_consumes (List.cons_ne_nil _ _) rfl
  have hcomplete : (readAll (.ofLines awkward.encode)).error = none := congrArg Items.error hfirst
  have hframe : AtFrame [Metadata.sentinel] := by
    rintro line ⟨⟩
    rfl
  have happend := readAll_append hcomplete hframe
  rw [hfirst, hsecond] at happend
  exact happend

end Commit

end Dvcs
