import Dvcs.Hash
import Dvcs.Proofs.Text.Space
import Dvcs.Proofs.Text.Utf8

/-!
This module contains the reading of written digests.
-/

namespace Dvcs

namespace Hash

open Text

theorem toNat_of_isHexDigit {s : Sym} (h : isHexDigit s = true) :
    ∃ c : Char, s = .char c ∧
      (48 ≤ c.toNat ∧ c.toNat ≤ 57 ∨ 97 ≤ c.toNat ∧ c.toNat ≤ 102) := by
  cases s with
  | char c =>
    refine ⟨c, rfl, ?_⟩
    simpa [isHexDigit, Char.le_def, UInt32.le_iff_toNat_le] using h
  | byte b => simp [isHexDigit] at h

theorem isSpace_of_isHexDigit {s : Sym} (h : isHexDigit s = true) : s.isSpace = false := by
  obtain ⟨c, rfl, hc⟩ := toNat_of_isHexDigit h
  simp only [Sym.isSpace, Bool.or_eq_false_iff, Bool.and_eq_false_iff, decide_eq_false_iff_not,
    beq_eq_false_iff_ne]
  omega

theorem isAscii_of_isHexDigit {s : Sym} (h : isHexDigit s = true) : s.isAscii = true := by
  obtain ⟨c, rfl, hc⟩ := toNat_of_isHexDigit h
  simp only [Sym.isAscii, decide_eq_true_eq]
  omega

theorem toLower_of_isHexDigit {s : Sym} (h : isHexDigit s = true) : s.toLower = s := by
  obtain ⟨c, rfl, hc⟩ := toNat_of_isHexDigit h
  have hascii : c.toNat < 128 := by omega
  have hlower : c.toLower = c := by
    unfold Char.toLower
    rw [dif_neg]
    rintro ⟨hlow, hhigh⟩
    simp only [ge_iff_le, UInt32.le_iff_toNat_le] at hlow hhigh
    have : c.toNat = c.val.toNat := rfl
    simp at hlow hhigh
    omega
  simp [Sym.toLower, hascii, hlower]

theorem isHexDigit_of_mem {h : Hash} {s : Sym} (hs : s ∈ h.hex) : isHexDigit s = true := by
  have hvalid := h.valid
  unfold isDigest at hvalid
  rw [Bool.and_eq_true, List.all_eq_true] at hvalid
  exact hvalid.2 s hs

theorem hex_ne_nil (h : Hash) : h.hex ≠ [] := by
  intro heq
  have hvalid := h.valid
  rw [heq] at hvalid
  contradiction

theorem plain_hex (h : Hash) : Plain h.hex := by
  intro s hs
  have hdigit := isHexDigit_of_mem hs
  refine ⟨isAscii_of_isHexDigit hdigit, ?_⟩
  rintro rfl
  contradiction

theorem ofText?_hex (h : Hash) : ofText? h.hex = some h := by
  have htrim : h.hex.trim = h.hex := trim_eq_self fun s hs =>
    isSpace_of_isHexDigit (isHexDigit_of_mem hs)
  have hlower : toLower h.hex = h.hex := by
    conv => rhs; rw [← List.map_id h.hex]
    exact List.map_congr_left fun s hs => toLower_of_isHexDigit (isHexDigit_of_mem hs)
  unfold ofText?
  simp only [htrim, hlower, h.valid, ↓reduceDIte]

end Hash

end Dvcs
