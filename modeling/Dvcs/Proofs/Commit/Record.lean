import Dvcs.Commit.Record
import Dvcs.Proofs.Hash
import Dvcs.Proofs.Instant
import Dvcs.Proofs.LineReader
import Dvcs.Proofs.Text.Digits

/-!
This module contains the reading of written commit records, field by field.
-/

namespace Dvcs

namespace Metadata

open Text

/-- Metadata that comes back from its record. -/
structure WellFormed (m : Metadata) : Prop where
  parents : m.parents ≠ []
  author : m.author.email ≠ some []
  committer : m.committer.email ≠ some []
  timestamp : m.timestamp.IsWhole
  message : m.message.length < 2 ^ 64

theorem field_cons (f : RecordField) (line : Text) (rest : List Text) (n : Nat) (looked : Bool) :
    field f ⟨line :: rest, n, looked⟩ = .ok line ⟨rest, n + 1, false⟩ := rfl

theorem ensure_of_holds {holds : Bool} (h : holds = true) (fault : RecordFault) (r : LineReader) :
    ensure holds fault r = .ok () r := by
  rw [h]
  rfl

theorem hashOf_hex (h : Hash) (r : LineReader) : hashOf h.hex r = .ok h r := by
  unfold hashOf
  rw [Hash.ofText?_hex]
  rfl

theorem hashesOf_hex (hs : List Hash) (r : LineReader) :
    hashesOf (hs.map Hash.hex) r = .ok hs r := by
  induction hs with
  | nil => rfl
  | cons h hs ih =>
    rw [List.map_cons, hashesOf]
    rw [Reading.bind_of_ok (hashOf_hex h r)]
    rw [Reading.bind_of_ok ih]
    rfl

theorem words_join_hex (hs : List Hash) : (join " " (hs.map Hash.hex)).words = hs.map Hash.hex := by
  apply words_join
  intro t ht
  obtain ⟨h, _, rfl⟩ := List.mem_map.1 ht
  exact ⟨h.hex_ne_nil, fun s hs => Hash.isSpace_of_isHexDigit (Hash.isHexDigit_of_mem hs)⟩

theorem integerOf_ofInt (f : RecordField) {i : Int} (h : (ofNat i.natAbs).length ≤ digitLimit)
    (r : LineReader) : integerOf f (ofInt i) r = .ok i r := by
  unfold integerOf
  rw [readInteger_ofInt h]
  rfl

theorem countOf_ofNat {n : Nat} (h : (ofNat n).length ≤ digitLimit) (r : LineReader) :
    countOf (ofNat n) r = .ok n r := by
  have hread := integerOf_ofInt .messageCount (i := n) h r
  unfold countOf
  exact Reading.bind_of_ok hread

theorem messageFrom_append (message rest : List Text) (n : Nat) :
    messageFrom n (message ++ rest) message.length =
      .ok message ⟨rest, n + message.length, false⟩ := by
  induction message generalizing n with
  | nil => cases rest <;> rfl
  | cons line message ih =>
    rw [List.cons_append, List.length_cons, messageFrom]
    rw [ih]
    simp only [Nat.add_assoc, Nat.add_comm 1]

theorem email?_getD {email : Option Text} (h : email ≠ some []) :
    Author.email? (email.getD []) = email := by
  cases email with
  | none => rfl
  | some address =>
    cases address with
    | nil => contradiction
    | cons c address => rfl

theorem read_encode {m : Metadata} (hm : m.WellFormed) (rest : List Text) (n : Nat)
    (looked : Bool) :
    read ⟨m.encode ++ rest, n, looked⟩ = .ok m ⟨rest, n + m.encode.length, false⟩ := by
  have hbounds := Instant.seconds_bounds hm.timestamp
  have hseconds : (ofNat m.timestamp.seconds.natAbs).length ≤ digitLimit := by
    apply length_ofNat_of_lt
    unfold Instant.firstSecond Instant.lastSecond at hbounds
    omega
  have hparents : (!m.parents.isEmpty) = true := by simpa using hm.parents
  unfold read encode
  simp only [List.cons_append, List.nil_append]
  rw [Reading.bind_of_ok (field_cons ..)]
  rw [Reading.bind_of_ok (ensure_of_holds (by simp) _ _)]
  rw [Reading.bind_of_ok (field_cons ..)]
  rw [Reading.bind_of_ok (hashOf_hex ..)]
  rw [Reading.bind_of_ok (field_cons ..)]
  rw [words_join_hex, Reading.bind_of_ok (hashesOf_hex ..)]
  rw [Reading.bind_of_ok (ensure_of_holds hparents _ _)]
  rw [Reading.bind_of_ok (field_cons ..)]
  rw [Reading.bind_of_ok (field_cons ..)]
  rw [Reading.bind_of_ok (field_cons ..)]
  rw [Reading.bind_of_ok (field_cons ..)]
  rw [Reading.bind_of_ok (field_cons ..)]
  rw [Reading.bind_of_ok (integerOf_ofInt .timestamp hseconds _)]
  rw [Reading.bind_of_ok (field_cons ..)]
  rw [Reading.bind_of_ok (countOf_ofNat (length_ofNat_of_lt hm.message) _)]
  rw [Reading.bind_of_ok (messageFrom_append ..)]
  rw [Instant.ofSeconds_seconds hm.timestamp]
  rw [email?_getD hm.author, email?_getD hm.committer]
  simp only [pure, EStateM.pure, List.length_cons]
  congr 2
  omega

end Metadata

end Dvcs
