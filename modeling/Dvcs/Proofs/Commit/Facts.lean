import Dvcs.Proofs.Commit.Stream
import Dvcs.Proofs.Text.Join

/-!
This module contains what the tools have in common in a commit, and the commit that it makes up.
Both tools join the lines of a message with line feeds, and so the lines of a diff.
-/

namespace Dvcs

namespace Commit

open Text

/-- What is known of a commit whatever the tool. There is no committer, a first commit has no
parents, and the patches are those since each parent, or since the empty tree. -/
structure Facts where
  hash : Hash
  parents : List Hash := []
  author : Author
  timestamp : Instant
  message : List Text := []
  changes : List (List Patch)

namespace Facts

/-- The parents with the null hash for a first commit. -/
def bases (f : Facts) : List Hash := if f.parents = [] then [.null] else f.parents

def metadata (f : Facts) : Metadata where
  hash := f.hash
  parents := f.bases
  author := f.author
  committer := f.author
  timestamp := f.timestamp
  message := f.message

def diff (f : Facts) (base : Hash) (patches : List Patch) : Diff := ⟨base, some f.hash, patches⟩

def commit (f : Facts) : Commit := ⟨f.metadata, List.zipWith f.diff f.bases f.changes⟩

/-- Names and addresses as tools keep them. -/
structure PartWellFormed (t : Text) : Prop where
  trimmed : t.trim = t
  line : IsLine t

structure WellFormed (f : Facts) : Prop where
  digits : ∀ hash ∈ f.hash :: f.parents, hash.hex.length = 40
  changes : f.bases.length = f.changes.length
  name : PartWellFormed f.author.name
  unmarked : Sym.char '<' ∉ f.author.name
  email : ∀ email ∈ f.author.email, email ≠ [] ∧ PartWellFormed email
  timestamp : f.timestamp.IsWhole
  message : f.message.length < 2 ^ 64
  lines : ∀ line ∈ f.message, IsLine line
  last : ∀ line ∈ f.message.getLast?, line ≠ []
  hunks : ∀ patches ∈ f.changes, ∀ p ∈ patches, ∀ h ∈ p.hunks, h.HasLines
  read : ∀ patches ∈ f.changes,
    ∃ r, Patch.readExtended Patch.toEnd (.ofLines (patches.flatMap Patch.render)) = .ok patches r

variable {f : Facts}

theorem bases_ne_nil (f : Facts) : f.bases ≠ [] := by
  unfold bases
  split
  . exact List.cons_ne_nil _ _
  . assumption

theorem isLine_of_mem_render (hf : f.WellFormed) {patches : List Patch}
    (hpatches : patches ∈ f.changes) : ∀ line ∈ patches.flatMap Patch.render, IsLine line := by
  intro line hline
  obtain ⟨p, hp, hmem⟩ := List.mem_flatMap.1 hline
  exact Patch.isLine_of_mem_render (hf.hunks patches hpatches p hp) hmem

end Facts

end Commit

end Dvcs
