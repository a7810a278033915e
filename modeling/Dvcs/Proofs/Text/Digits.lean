import Dvcs.Proofs.Text.Space
import Dvcs.Proofs.Text.Utf8
import Dvcs.Text.Digits
import Mathlib.Algebra.Group.Nat.Defs

/-!
This module contains the reading of written numbers: the digits of a number spell this number again
as long as there are not too many of them.
-/

namespace Dvcs

namespace Sym

theorem digit?_of_isDigit {c : Char} (h : c.isDigit = true) :
    (Sym.char c).digit? = some (c.toNat - 48) := by
  rw [Char.isDigit_iff_toNat] at h
  have hlow : 48 ≤ c.toNat := h.1
  have hhigh : c.toNat < 58 := Nat.lt_succ_of_le h.2
  simp [Sym.digit?, Sym.zeros, hlow, hhigh]

theorem isSpace_of_isDigit {c : Char} (h : c.isDigit = true) : (Sym.char c).isSpace = false := by
  rw [Char.isDigit_iff_toNat] at h
  have hlow : 48 ≤ c.toNat := h.1
  have hhigh : c.toNat ≤ 57 := h.2
  simp only [Sym.isSpace, Bool.or_eq_false_iff, Bool.and_eq_false_iff, decide_eq_false_iff_not,
    beq_eq_false_iff_ne]
  omega

theorem isAscii_of_isDigit {c : Char} (h : c.isDigit = true) : (Sym.char c).isAscii = true := by
  rw [Char.isDigit_iff_toNat] at h
  have hhigh : c.toNat ≤ 57 := h.2
  simp only [Sym.isAscii, decide_eq_true_eq]
  omega

theorem lt_of_digit? {s : Sym} {d : Nat} (h : s.digit? = some d) : d < 10 := by
  cases s with
  | byte b => contradiction
  | char c =>
    obtain ⟨z, hz, rfl⟩ := Option.map_eq_some_iff.1 h
    have hrange := List.find?_some hz
    simp only [Bool.and_eq_true, decide_eq_true_eq] at hrange
    omega

end Sym

namespace Text

theorem isDigit_of_mem_ofNat {n : Nat} {s : Sym} (h : s ∈ ofNat n) :
    ∃ c : Char, s = .char c ∧ c.isDigit = true := by
  obtain ⟨c, hc, rfl⟩ := List.mem_map.1 h
  exact ⟨c, rfl, Nat.isDigit_of_mem_toDigits (by omega) (by omega) hc⟩

@[simp]
theorem ofNat_ne_nil (n : Nat) : ofNat n ≠ [] := by
  simp [ofNat]

theorem length_ofNat_le {n k : Nat} (hk : 0 < k) (h : n < 10 ^ k) : (ofNat n).length ≤ k := by
  rw [ofNat, List.length_map]
  exact (Nat.length_toDigits_le_iff (by omega) hk).2 h

theorem length_ofNat_of_lt {n : Nat} (h : n < 2 ^ 64) : (ofNat n).length ≤ digitLimit :=
  Nat.le_trans (length_ofNat_le (k := 20) (by decide) (by omega)) (by decide)

theorem plain_ofNat (n : Nat) : Plain (ofNat n) := by
  intro s hs
  obtain ⟨c, rfl, hc⟩ := isDigit_of_mem_ofNat hs
  constructor
  . exact Sym.isAscii_of_isDigit hc
  . intro heq
    cases heq
    contradiction

theorem isDigit_of_mem_ofNat' {n : Nat} {s : Sym} (h : s ∈ ofNat n) : s.isDigit = true := by
  obtain ⟨c, rfl, hc⟩ := isDigit_of_mem_ofNat h
  simp [Sym.isDigit, Sym.digit?_of_isDigit hc]

theorem ofDigitValues_toDigits (n : Nat) :
    ofDigitValues 10 ((Nat.toDigits 10 n).map (·.toNat - 48)) = n := by
  conv => rhs; rw [← Nat.ofDigitChars_ten_toDigits (n := n)]
  simp [ofDigitValues, Nat.ofDigitChars, List.foldl_map, Nat.mul_comm]

theorem filterMap_digit?_of_isDigit {ds : List Char} (h : ∀ c ∈ ds, c.isDigit = true) :
    (ds.map Sym.char).filterMap Sym.digit? = ds.map (·.toNat - 48) := by
  induction ds with
  | nil => rfl
  | cons c ds ih =>
    rw [List.forall_mem_cons] at h
    rw [List.map_cons, List.filterMap_cons]
    rw [Sym.digit?_of_isDigit h.1]
    simp [ih h.2]

theorem natural?_ofNat {n : Nat} (h : (ofNat n).length ≤ digitLimit) :
    natural? (ofNat n) = some (.ok n) := by
  have hall : (ofNat n).all Sym.isDigit = true := by
    rw [List.all_eq_true]
    intro s hs
    exact isDigit_of_mem_ofNat' hs
  have hvalues : (ofNat n).filterMap Sym.digit? = (Nat.toDigits 10 n).map (·.toNat - 48) :=
    filterMap_digit?_of_isDigit fun _ => Nat.isDigit_of_mem_toDigits (by omega) (by omega)
  unfold natural?
  rw [hall, hvalues]
  rw [ofDigitValues_toDigits]
  simp [Nat.not_lt.2 h]

theorem foldl_digits_lt {base : Nat} {ds : List Nat} (h : ∀ d ∈ ds, d < base) (n : Nat) :
    ds.foldl (fun n d => n * base + d) n < (n + 1) * base ^ ds.length := by
  induction ds generalizing n with
  | nil => simp
  | cons d ds ih =>
    rw [List.forall_mem_cons] at h
    have hfirst : n * base + d + 1 ≤ (n + 1) * base := by
      rw [Nat.add_mul, Nat.one_mul, Nat.add_assoc]
      exact Nat.add_le_add_left h.1 _
    calc ds.foldl (fun n d => n * base + d) (n * base + d)
      _ < (n * base + d + 1) * base ^ ds.length := ih h.2 _
      _ ≤ (n + 1) * base * base ^ ds.length := Nat.mul_le_mul_right _ hfirst
      _ = (n + 1) * base ^ (ds.length + 1) := by
        rw [Nat.pow_succ, Nat.mul_assoc, Nat.mul_comm base]

theorem spells_of_natural? {t : Text} {n : Nat} (h : natural? t = some (.ok n)) :
    (∀ s ∈ t, s.isDigit = true) ∧ t ≠ [] ∧ t.length ≤ digitLimit ∧ n < 10 ^ t.length := by
  unfold natural? at h
  split at h
  . contradiction
  . next hdigits =>
    simp only [Bool.or_eq_true, not_or, Bool.not_eq_true, Bool.not_eq_false'] at hdigits
    split at h
    . cases h
    . next hlimit =>
      cases h
      have hvalues : ∀ d ∈ t.filterMap Sym.digit?, d < 10 := by
        intro d hd
        obtain ⟨s, _, hs⟩ := List.mem_filterMap.1 hd
        exact Sym.lt_of_digit? hs
      refine ⟨List.all_eq_true.1 hdigits.2, ?_, Nat.le_of_not_lt hlimit, ?_⟩
      . simpa using hdigits.1
      . have hlt := foldl_digits_lt hvalues 0
        rw [Nat.zero_add, Nat.one_mul] at hlt
        exact Nat.lt_of_lt_of_le hlt
          (Nat.pow_le_pow_right (by decide) (List.length_filterMap_le ..))

theorem length_ofNat_le_of_le_add {m n k : Nat} (hk : 20 ≤ k) (hm : m < 10 ^ k)
    (hn : n ≤ m + 2 ^ 64) : (ofNat n).length ≤ k + 1 := by
  apply length_ofNat_le (Nat.succ_pos k)
  have hpow : 10 ^ 20 ≤ 10 ^ k := Nat.pow_le_pow_right (by decide) hk
  rw [Nat.pow_succ]
  omega

theorem digitValues?_cons_cons {base : Nat} {c d : Sym} (h : d ≠ '_') (t : Text) :
    digitValues? base (c :: d :: t) =
      (c.digit?.filter (· < base)).bind fun n => (digitValues? base (d :: t)).map (n :: ·) := by
  conv => lhs; unfold digitValues?
  split
  . next heq => simp at heq
  . next heq => simp at heq
  . next heq =>
    cases heq
    contradiction
  . next heq =>
    cases heq
    cases c.digit?.filter (· < base) with
    | none => rfl
    | some n => cases digitValues? base (d :: t) <;> rfl

theorem digitValues?_of_isDigit {ds : List Char} (hne : ds ≠ [])
    (h : ∀ c ∈ ds, c.isDigit = true) :
    digitValues? 10 (ds.map .char) = some (ds.map (·.toNat - 48)) := by
  induction ds with
  | nil => contradiction
  | cons c ds ih =>
    rw [List.forall_mem_cons] at h
    have hlt : c.toNat - 48 < 10 := by
      have : c.toNat ≤ 57 := (Char.isDigit_iff_toNat.1 h.1).2
      omega
    have hdigit : (Sym.char c).digit?.filter (· < 10) = some (c.toNat - 48) := by
      rw [Sym.digit?_of_isDigit h.1]
      simp [Option.filter, hlt]
    cases ds with
    | nil => simp [digitValues?, hdigit]
    | cons d ds =>
      have hunderscore : Sym.char d ≠ '_' := by
        intro heq
        cases heq
        have := h.2 '_' List.mem_cons_self
        contradiction
      rw [List.map_cons, List.map_cons]
      rw [digitValues?_cons_cons hunderscore]
      rw [hdigit]
      rw [← List.map_cons (f := Sym.char)]
      rw [ih (by simp) h.2]
      rfl

theorem digitValues?_ofNat (n : Nat) :
    digitValues? 10 (ofNat n) = some ((Nat.toDigits 10 n).map (·.toNat - 48)) := by
  apply digitValues?_of_isDigit
  . exact Nat.toDigits_ne_nil
  . intro c hc
    exact Nat.isDigit_of_mem_toDigits (by omega) (by omega) hc

theorem isNumeralBlank_of_mem_ofInt {i : Int} {s : Sym} (h : s ∈ ofInt i) :
    isNumeralBlank s = false := by
  have hdigits (n : Nat) (hs : s ∈ ofNat n) : isNumeralBlank s = false := by
    obtain ⟨c, rfl, hc⟩ := isDigit_of_mem_ofNat hs
    simp [isNumeralBlank, Sym.isSpace_of_isDigit hc]
  cases i with
  | ofNat n => exact hdigits n h
  | negSucc n =>
    rcases List.mem_cons.1 h with rfl | hs
    . decide
    . exact hdigits (n + 1) hs

theorem readInteger_ofInt {i : Int} (h : (ofNat i.natAbs).length ≤ digitLimit) :
    readInteger 10 (ofInt i) = .ok i := by
  unfold readInteger
  have hblank : ∀ s ∈ ofInt i, isNumeralBlank s = false := fun _ => isNumeralBlank_of_mem_ofInt
  rw [dropWhile_eq_self hblank]
  rw [dropEndWhile_eq_self hblank]
  cases i with
  | ofNat n =>
    obtain ⟨c, rest, hn⟩ : ∃ c rest, ofNat n = c :: rest :=
      List.exists_cons_of_ne_nil (ofNat_ne_nil n)
    -- a digit in front is no sign
    have hsign : c ≠ '+' ∧ c ≠ '-' := by
      obtain ⟨d, rfl, hd⟩ := isDigit_of_mem_ofNat (n := n) (s := c) (by simp [hn])
      constructor <;>
      . intro heq
        cases heq
        contradiction
    have hvalues := digitValues?_ofNat n
    have hlength : ¬ digitLimit < (Nat.toDigits 10 n).length := by
      simpa [ofNat] using h
    rw [hn] at hvalues
    simp [ofInt, hn, hsign, hvalues, ofDigitValues_toDigits, hlength]
  | negSucc n =>
    have hlength : ¬ digitLimit < (Nat.toDigits 10 (n + 1)).length := by
      simpa [ofNat, Int.natAbs_negSucc] using h
    simp [ofInt, digitValues?_ofNat, ofDigitValues_toDigits, hlength, Int.negSucc_eq]

end Text

end Dvcs
