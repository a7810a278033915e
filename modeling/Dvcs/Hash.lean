import Dvcs.Text.LowerCase
import Dvcs.Text.Space

/-!
This module contains the digests that name commits and file contents.
-/

namespace Dvcs

namespace Hash

def isHexDigit : Sym → Bool
  | .char c => ('0' ≤ c && c ≤ '9') || ('a' ≤ c && c ≤ 'f')
  | .byte _ => false

/-- A digest is 40 or 64 lower-case hexadecimal digits long. -/
def isDigest (t : Text) : Bool := (t.length == 40 || t.length == 64) && t.all isHexDigit

end Hash

structure Hash where
  hex : Text
  valid : Hash.isDigest hex = true
deriving DecidableEq

namespace Hash

/-- Blanks around a digest and the case of its letters do not matter. -/
def ofText? (t : Text) : Option Hash :=
  let hex := Text.toLower t.trim
  if h : isDigest hex then some ⟨hex, h⟩ else none

/-- The name of no commit: the parent of those without one. -/
def null : Hash := ⟨List.replicate 40 (.char '0'), by decide⟩

/-- The short form for people. -/
def abbreviate (h : Hash) : Text := h.hex.take 8

@[ext]
theorem ext {a b : Hash} (h : a.hex = b.hex) : a = b := by
  cases a
  cases b
  simp_all

end Hash

end Dvcs
