import Dvcs.Commit
import Dvcs.LineReader

/-!
This module contains the line framing of commit records. A record is a sentinel line and one line
each for the hash, the parents, the author's and the committer's name and address, the time, and the
number of message lines, which follow.
-/

namespace Dvcs

namespace Metadata

/-- The line that every record starts with. -/
def sentinel : Text := "#@!_-=&"

/-- The lines of a record. -/
def encode (m : Metadata) : List Text :=
  [ sentinel,
    m.hash.hex,
    Text.join " " (m.parents.map Hash.hex),
    m.author.name,
    m.author.email.getD [],
    m.committer.name,
    m.committer.email.getD [],
    Text.ofInt m.timestamp.seconds,
    Text.ofNat m.message.length ] ++ m.message

/-- The next line, which has to be there. -/
def field (f : RecordField) : Reading Text := do
  match ← Reading.next with
  | some line => return line
  | none => throw (.record ((← Reading.lineNumber) + 1) (.missing f))

/-- Refuses the line that was consumed last unless a condition holds. -/
def ensure (holds : Bool) (fault : RecordFault) : Reading Unit := do
  if holds then return ()
  else throw (.record (← Reading.lineNumber) fault)

def hashOf (t : Text) : Reading Hash := do
  match Hash.ofText? t with
  | some hash => return hash
  | none => throw (.record (← Reading.lineNumber) (.invalidHash t))

def hashesOf : List Text → Reading (List Hash)
  | [] => return []
  | t :: ts => return (← hashOf t) :: (← hashesOf ts)

/-- The number on a line; dates before 1970 are negative. -/
def integerOf (f : RecordField) (t : Text) : Reading Int := do
  match Text.readInteger 10 t with
  | .ok n => return n
  | .error _ => throw (.record (← Reading.lineNumber) (.invalidNumber f t))

/-- The number of message lines. -/
def countOf (t : Text) : Reading Nat := do
  match ← integerOf .messageCount t with
  | .ofNat n => return n
  | n => throw (.record (← Reading.lineNumber) (.negativeNumber .messageCount n))

/-- The message lines in `ls`, `n` being the number of lines consumed so far. More lines than there
are cannot be had, however many are announced. -/
def messageFrom (n : Nat) (ls : List Text) (count : Nat) :
    EStateM.Result ReadError LineReader (List Text) :=
  match count, ls with
  | 0, ls => .ok [] ⟨ls, n, false⟩
  | _ + 1, [] => .error (.record (n + 1) (.missing .messageLine)) ⟨[], n, false⟩
  | count + 1, line :: rest =>
    match messageFrom (n + 1) rest count with
    | .ok message r => .ok (line :: message) r
    | .error e r => .error e r
termination_by structural ls

def messageLines (count : Nat) : Reading (List Text) := fun r =>
  messageFrom r.lineNumber r.rest count

/-- Reads one record. -/
def read : Reading Metadata := do
  let first ← field .sentinel
  ensure (first = sentinel) (.otherThanSentinel first)
  let hash ← hashOf (← field .hash)
  let parents ← hashesOf (← field .parents).words
  ensure (!parents.isEmpty) .noParents
  let authorName ← field .authorName
  let authorEmail ← field .authorEmail
  let committerName ← field .committerName
  let committerEmail ← field .committerEmail
  let seconds ← integerOf .timestamp (← field .timestamp)
  let count ← countOf (← field .messageCount)
  let message ← messageLines count
  match Instant.ofSeconds seconds with
  | .error e => throw (.time e)
  | .ok timestamp =>
    return {
      hash := hash
      parents := parents
      author := ⟨authorName, Author.email? authorEmail⟩
      committer := ⟨committerName, Author.email? committerEmail⟩
      timestamp := timestamp
      message := message }

section Consumption

open Reading

theorem field_consumes (f : RecordField) : Consumes (field f) := by
  intro r a r' h
  cases hr : r.rest with
  | nil =>
    simp only [field, Reading.next, LineReader.next, bind, EStateM.bind, hr] at h
    cases h
  | cons line rest =>
    simp only [field, Reading.next, LineReader.next, bind, EStateM.bind, hr] at h
    cases h
    simp

theorem ensure_advances (holds : Bool) (fault : RecordFault) : Advances (ensure holds fault) := by
  unfold ensure
  split
  · exact advances_pure _
  · exact advances_lineNumber.bind fun _ => advances_throw _

theorem hashOf_advances (t : Text) : Advances (hashOf t) := by
  unfold hashOf
  split
  · exact advances_pure _
  · exact advances_lineNumber.bind fun _ => advances_throw _

theorem hashesOf_advances (ts : List Text) : Advances (hashesOf ts) := by
  induction ts with
  | nil => exact advances_pure _
  | cons t ts ih => exact (hashOf_advances t).bind fun _ => ih.bind fun _ => advances_pure _

theorem integerOf_advances (f : RecordField) (t : Text) : Advances (integerOf f t) := by
  unfold integerOf
  split
  · exact advances_pure _
  · exact advances_lineNumber.bind fun _ => advances_throw _

theorem countOf_advances (t : Text) : Advances (countOf t) := by
  refine (integerOf_advances .messageCount t).bind fun n => ?_
  split
  · exact advances_pure _
  · exact advances_lineNumber.bind fun _ => advances_throw _

theorem length_rest_of_messageFrom {n count : Nat} {ls message : List Text} {r : LineReader}
    (h : messageFrom n ls count = .ok message r) : r.rest.length ≤ ls.length := by
  induction ls generalizing n count message with
  | nil => cases count <;> simp [messageFrom] at h; simp [← h.2]
  | cons line rest ih =>
    cases count with
    | zero => simp [messageFrom] at h; simp [← h.2]
    | succ count =>
      simp only [messageFrom] at h
      split at h
      · rename_i hm
        cases h
        have := ih hm
        simp
        omega
      · simp at h

theorem messageLines_advances (count : Nat) : Advances (messageLines count) :=
  fun _ _ _ h => length_rest_of_messageFrom h

theorem read_consumes : Consumes read := by
  refine (field_consumes _).bind fun first => ?_
  repeat' first
    | exact ensure_advances _ _
    | exact (field_consumes _).advances
    | exact hashOf_advances _
    | exact hashesOf_advances _
    | exact integerOf_advances _ _
    | exact countOf_advances _
    | exact messageLines_advances _
    | exact advances_throw _
    | exact advances_pure _
    | refine Advances.bind ?_ fun _ => ?_
    | split

end Consumption

end Metadata

end Dvcs
