import Dvcs.Proofs.Author
import Dvcs.Proofs.Mercurial.Facts

/-!
This module contains the way of authors through Mercurial: the user that a commit is made with, what
the extension takes it apart into, and the author of the record that is read.
-/

namespace Dvcs

namespace Mercurial

open Text

namespace Extension

/-- What the record of a commit keeps to, apart from its user. -/
structure Changeset.Recordable (c : Changeset) : Prop where
  hex : IsNode c.hex
  parents : c.parents ≠ []
  nodes : ∀ parent ∈ c.parents, IsNode parent
  message : c.message.length < 2 ^ 64
  seconds : Instant.firstSecond ≤ c.seconds ∧ c.seconds ≤ Instant.lastSecond

/-- A repository whose diffs are empty. -/
def idleHost : Host where
  changesets := []
  revisions _ := []
  diff _ _ := []

theorem diffLines_idleHost (source target : Bytes) : diffLines idleHost source target = [] := by
  have hnone : diffLines idleHost source target = Handle.linesOf [] := rfl
  rw [hnone]
  simp [Handle.linesOf]

/-- The records do not depend on the diffs, so these may as well be empty. -/
theorem Changeset.Recordable.wellFormed {c : Changeset} (h : c.Recordable) (huser : 10 ∉ c.user) :
    c.WellFormed idleHost where
  hex := h.hex
  parents := h.parents
  nodes := h.nodes
  user := huser
  message := h.message
  seconds := h.seconds
  complete _ _ := Handle.complete_ended []
  quiet := by
    intro parent _
    rw [diffLines_idleHost]
    nofun
  accepted := by
    intro parent _
    rw [diffLines_idleHost]
    exact ⟨[], _, Patch.readExtended_render (List.forall_mem_nil _) 0 false⟩

theorem read_record {c : Changeset} (h : c.Recordable) (huser : 10 ∉ c.user) (rest : Bytes)
    (n : Nat) (looked : Bool) :
    ∃ m,
      Metadata.read ⟨Handle.linesOf ((Output.lines c.record).written ++ rest), n, looked⟩ =
        .ok m ⟨Handle.linesOf rest, n + c.record.length, false⟩ ∧
      m.author = ⟨decode (splitUser c.user).1, Author.email? (decode (splitUser c.user).2)⟩ ∧
      m.committer = m.author := by
  have hc := h.wellFormed huser
  obtain ⟨commit, hpresents⟩ := exists_presents hc
  have hread := Metadata.read_encode (framed_of_presents hc hpresents).metadata
    (Handle.linesOf rest) n looked
  have hlength := congrArg List.length (map_decode_record hpresents)
  rw [List.length_map] at hlength
  refine ⟨commit.metadata, ?_, ?_, hpresents.committer⟩
  . rw [linesOf_record_append hc hpresents, hread, hlength]
  . rw [← hpresents.name, ← hpresents.email]

end Extension

theorem unambiguous_of_parts {a : Author} (hname : Commit.Facts.PartWellFormed a.name)
    (hunmarked : Sym.char '<' ∉ a.name)
    (hemail : ∀ email ∈ a.email,
      email ≠ [] ∧ Commit.Facts.PartWellFormed email ∧ Sym.char '>' ∉ email) :
    a.Unambiguous where
  name := hname.trimmed
  unmarked := hunmarked
  line := hname.line.2
  email := by
    intro email hmem
    obtain ⟨hne, hpart, hclosed⟩ := hemail email hmem
    exact ⟨hne, hpart.trimmed, hclosed⟩

theorem author_read {a : Author} {name email : Text} (hname : name = a.name)
    (hemail : email = a.email.getD []) (hne : ∀ email ∈ a.email, email ≠ []) :
    (⟨name, Author.email? email⟩ : Author) = a := by
  obtain ⟨aname, aemail⟩ := a
  subst hname hemail
  cases aemail with
  | none => rfl
  | some email =>
    obtain ⟨c, rest, rfl⟩ := List.exists_cons_of_ne_nil (hne email rfl)
    rfl

open Extension

/-- An author comes back from a commit: the extension takes the user apart into the bytes of name
and address, the record of the commit is read as this author's, and the text form is read back. -/
theorem user_read_back {a : Author} (hname : Commit.Facts.PartWellFormed a.name)
    (hunmarked : Sym.char '<' ∉ a.name)
    (hemail : ∀ email ∈ a.email,
      email ≠ [] ∧ Commit.Facts.PartWellFormed email ∧ Sym.char '>' ∉ email) :
    splitUser (encode (user a)) = (encode a.name, encode (a.email.getD [])) ∧
    (∀ c : Changeset, c.Recordable → c.user = encode (user a) → ∀ rest n looked, ∃ m,
      Metadata.read ⟨Handle.linesOf ((Output.lines c.record).written ++ rest), n, looked⟩ =
        .ok m ⟨Handle.linesOf rest, n + c.record.length, false⟩ ∧
      m.author = a ∧ m.committer = a) ∧
    Author.ofText a.toText = a := by
  have hparts : ∀ email ∈ a.email, email ≠ [] ∧ Commit.Facts.PartWellFormed email :=
    fun email hmem => ⟨(hemail email hmem).1, (hemail email hmem).2.1⟩
  have hsplit := splitUser_user hname hunmarked hparts
  refine ⟨hsplit, ?_, Author.ofText_toText (unambiguous_of_parts hname hunmarked hemail)⟩
  intro c hc huser rest n looked
  have hline : 10 ∉ c.user := by
    rw [huser]
    exact not_mem_user hname hparts
  obtain ⟨m, hread, hauthor, hcommitter⟩ := read_record hc hline rest n looked
  have hmail : decode (encode (a.email.getD [])) = a.email.getD [] := by
    cases heq : a.email with
    | none => exact decode_nil
    | some email => exact (hparts email heq).2.line.1
  rw [huser, hsplit] at hauthor
  rw [author_read hname.line.1 hmail fun email hmem => (hparts email hmem).1] at hauthor
  exact ⟨m, hread, hauthor, hcommitter.trans hauthor⟩

/-- A name with a closing mark and a stray byte, and an address with an opening mark. -/
def sampleAuthor : Author where
  name := decode [74, 195, 182, 32, 62, 255]
  email := some "a<b"

def sampleChange : Changeset where
  hex := List.replicate 40 97
  parents := [List.replicate 40 48]
  user := encode (user sampleAuthor)
  description := encode "one\n\ntwo"
  digits := -15
  places := 1

theorem user_read_back_sampleAuthor :
    splitUser (encode (user sampleAuthor)) = ([74, 195, 182, 32, 62, 255], [97, 60, 98]) ∧
    (∃ m,
      Metadata.read ⟨Handle.linesOf ((Output.lines sampleChange.record).written ++ []), 0, false⟩ =
        .ok m ⟨[], 12, false⟩ ∧
      m.author = sampleAuthor ∧ m.committer = sampleAuthor) ∧
    Author.ofText sampleAuthor.toText = sampleAuthor := by
  have hname : Commit.Facts.PartWellFormed sampleAuthor.name := {
    trimmed := by decide +kernel
    line := ⟨fromBytes_decode _, by decide +kernel⟩
  }
  have hemail : ∀ email ∈ sampleAuthor.email,
      email ≠ [] ∧ Commit.Facts.PartWellFormed email ∧ Sym.char '>' ∉ email := by
    rintro email ⟨⟩
    exact ⟨by decide, ⟨by decide, Plain.isLine (by decide)⟩, by decide⟩
  have hchange : sampleChange.Recordable := {
    hex := by decide +kernel
    parents := by decide
    nodes := by decide +kernel
    message := by decide
    seconds := by decide
  }
  obtain ⟨hsplit, hrecords, htext⟩ := user_read_back hname (by decide +kernel) hemail
  refine ⟨?_, ?_, htext⟩
  . rw [hsplit]
    unfold sampleAuthor
    rw [encode_decode]
    rfl
  . have hread := hrecords sampleChange hchange rfl [] 0 false
    have hnone : Handle.linesOf [] = [] := by simp [Handle.linesOf]
    have hlength : sampleChange.record.length = 12 := rfl
    rwa [hnone, hlength] at hread

end Mercurial

end Dvcs
