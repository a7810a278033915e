import Dvcs.Proofs.Path.Normal

/-!
This module contains git's own quoting of paths, in the style of C, and how far the quoting of this
library agrees with it: the two differ on the paths with control characters other than the tab and
the line feed.
-/

namespace Dvcs

namespace Sym

/-- The characters of ASCII that are seen, and the space. -/
def isPrintable : Sym → Bool
  | .char c => 0x20 ≤ c.toNat && c.toNat ≤ 0x7e
  | .byte _ => false

/-- The control characters of ASCII. -/
def isControl : Sym → Bool
  | .char c => c.toNat < 0x20 || c.toNat = 0x7f
  | .byte _ => false

theorem isPrintable_or_isControl {c : Sym} (h : c.isAscii = true) :
    c.isPrintable = true ∨ c.isControl = true := by
  cases c with
  | byte b => contradiction
  | char c =>
    simp only [isAscii, decide_eq_true_eq] at h
    simp only [isPrintable, isControl, Bool.and_eq_true, Bool.or_eq_true, decide_eq_true_eq]
    omega

theorem isAscii_of_isControl {c : Sym} (h : c.isControl = true) : c.isAscii = true := by
  cases c with
  | byte b => contradiction
  | char c =>
    simp only [isControl, Bool.or_eq_true, decide_eq_true_eq] at h
    simp only [isAscii, decide_eq_true_eq]
    omega

theorem isPrintable_of_isControl {c : Sym} (h : c.isControl = true) : c.isPrintable = false := by
  cases c with
  | byte b => contradiction
  | char c =>
    simp only [isControl, Bool.or_eq_true, decide_eq_true_eq] at h
    simp only [isPrintable, Bool.and_eq_false_iff, decide_eq_false_iff_not]
    omega

end Sym

namespace Path

open Text

/-- The letter that stands for a byte behind a backslash. -/
def letter? (b : UInt8) : Option Char :=
  match b.toNat with
  | 7 => some 'a'
  | 8 => some 'b'
  | 9 => some 't'
  | 10 => some 'n'
  | 11 => some 'v'
  | 12 => some 'f'
  | 13 => some 'r'
  | _ => none

/-- A byte in octal, with zeros in front of it if it has fewer than three digits. -/
def threeDigits (b : UInt8) : Text :=
  let digits := Nat.toDigits 8 b.toNat
  (List.replicate (3 - digits.length) '0' ++ digits).map .char

def byteIsPrintable (b : UInt8) : Bool := 0x20 ≤ b && b ≤ 0x7e

/-- A byte between quotes, in the style of C. -/
def cStyleByte (b : UInt8) : Text :=
  if b = 34 || b = 92 then ['\\', .char (Char.ofNat b.toNat)]
  else
    match letter? b with
    | some letter => ['\\', .char letter]
    | none =>
      if byteIsPrintable b then [.char (Char.ofNat b.toNat)] else .char '\\' :: threeDigits b

/-- Whether a byte may stand in a path without quotes. -/
def standsAlone (b : UInt8) : Bool := byteIsPrintable b && b ≠ 34 && b ≠ 92

/-- The bytes of a path as git shows them. -/
def cStyle (bs : Bytes) : Text :=
  if bs.all standsAlone then bs.map fun b => .char (Char.ofNat b.toNat)
  else "\"" ++ bs.flatMap cStyleByte ++ "\""

/-- The control characters that `quote` takes for printable ones. -/
def isSpared (c : Sym) : Bool := c.isControl && c ≠ '\t' && c ≠ '\n'

theorem isControl_of_isSpared {c : Sym} (h : isSpared c = true) : c.isControl = true := by
  simp only [isSpared, Bool.and_eq_true] at h
  exact h.1.1

theorem isPrintable_of_isSpared {c : Sym} (h : isSpared c = true) : c.isPrintable = false :=
  Sym.isPrintable_of_isControl (isControl_of_isSpared h)

theorem isSpared_iff_of_isPrintable {c : Sym} (h : c.isPrintable = false) :
    isSpared c = true ↔ c.isAscii = true ∧ c ≠ '\t' ∧ c ≠ '\n' := by
  simp only [isSpared, Bool.and_eq_true, decide_eq_true_eq, and_assoc]
  constructor
  . rintro ⟨hcontrol, hrest⟩
    exact ⟨Sym.isAscii_of_isControl hcontrol, hrest⟩
  . rintro ⟨hascii, hrest⟩
    refine ⟨(Sym.isPrintable_or_isControl hascii).resolve_left ?_, hrest⟩
    simp [h]

theorem quoteSym_of_isSpared {c : Sym} (h : isSpared c = true) : quoteSym c = [c] := by
  have hprintable := isPrintable_of_isSpared h
  simp only [isSpared, Bool.and_eq_true, decide_eq_true_eq] at h
  obtain ⟨⟨hcontrol, htab⟩, hnewline⟩ := h
  have hne {d : Char} (hd : (Sym.char d).isPrintable = true) : c ≠ .char d := by
    rintro rfl
    rw [hprintable] at hd
    contradiction
  unfold quoteSym
  simp [hne (d := '"') rfl, hne (d := '\\') rfl, htab, hnewline, Sym.isAscii_of_isControl hcontrol]

/-- The escape of a symbol is printable unless the symbol is spared. -/
theorem filter_quoteSym (c : Sym) :
    (quoteSym c).filter (fun d => !d.isPrintable) = if isSpared c then [c] else [] := by
  split
  . next hspared =>
    rw [quoteSym_of_isSpared hspared]
    simp [isPrintable_of_isSpared hspared]
  . next hspared =>
    rw [List.filter_eq_nil_iff]
    intro d hd hprintable
    simp only [Bool.not_eq_true'] at hprintable
    have hescape : ∀ s ∈ escapeSyms, s.isPrintable = true := by decide
    obtain rfl := eq_of_mem_quoteSym hd fun hmem => by simp [hescape d hmem] at hprintable
    obtain ⟨hascii, hnewline⟩ := plain_quoteSym d d hd
    refine hspared ((isSpared_iff_of_isPrintable hprintable).2 ⟨hascii, ?_, hnewline⟩)
    rintro rfl
    exact absurd hd (by decide)

/-- What a quoted path holds besides printable characters are the spared ones of the path. -/
theorem filter_quote (t : Text) :
    (quote t).filter (fun c => !c.isPrintable) = t.filter isSpared := by
  have hescape (t : Text) :
      (escape t).filter (fun c => !c.isPrintable) = t.filter isSpared := by
    induction t with
    | nil => rfl
    | cons c t ih =>
      rw [escape_cons, List.filter_append, filter_quoteSym, ih, List.filter_cons]
      split <;> rfl
  rw [quote_eq]
  split
  . rw [List.filter_cons_of_neg (by decide), List.filter_append, hescape]
    exact List.append_nil _
  . next hplain =>
    rw [Bool.not_eq_true] at hplain
    apply List.filter_congr
    intro c hc
    have hsym := List.any_eq_false.1 hplain c hc
    simp only [Bool.or_eq_true, decide_eq_true_eq, Bool.not_eq_true', not_or,
      Bool.not_eq_false] at hsym
    obtain ⟨⟨⟨_, htab⟩, hnewline⟩, hascii⟩ := hsym
    cases hprintable : c.isPrintable with
    | false => exact ((isSpared_iff_of_isPrintable hprintable).2 ⟨hascii, htab, hnewline⟩).symm
    | true =>
      cases hspared : isSpared c with
      | false => rfl
      | true =>
        rw [isPrintable_of_isSpared hspared] at hprintable
        contradiction

theorem mem_quote_iff {c : Sym} (h : c.isPrintable = false) (t : Text) :
    c ∈ quote t ↔ isSpared c = true ∧ c ∈ t := by
  have hfilter : c ∈ (quote t).filter (fun d => !d.isPrintable) ↔ c ∈ t.filter isSpared := by
    rw [filter_quote]
  simpa [h, and_comm] using hfilter

/-- A property of all bytes can be checked for their numbers. -/
theorem forall_byte {p : UInt8 → Prop} (h : ∀ n < 256, p (UInt8.ofNat n)) : ∀ b, p b := by
  intro b
  have hb := h b.toNat b.toNat_lt
  rwa [UInt8.ofNat_toNat] at hb

theorem isPrintable_of_mem_cStyleByte : ∀ b, ∀ c ∈ cStyleByte b, c.isPrintable = true :=
  forall_byte (by decide +kernel)

theorem isPrintable_of_mem_cStyle {bs : Bytes} {c : Sym} (h : c ∈ cStyle bs) :
    c.isPrintable = true := by
  have hbyte : ∀ b : UInt8, standsAlone b = true →
      (Sym.char (Char.ofNat b.toNat)).isPrintable = true :=
    forall_byte (by decide +kernel)
  have hmark : ∀ d ∈ ofString "\"", d.isPrintable = true := by decide
  unfold cStyle at h
  split at h
  . next hall =>
    obtain ⟨b, hb, rfl⟩ := List.mem_map.1 h
    exact hbyte b (List.all_eq_true.1 hall b hb)
  . simp only [List.mem_append, List.mem_flatMap] at h
    rcases h with (h | ⟨b, _, h⟩) | h
    . exact hmark c h
    . exact isPrintable_of_mem_cStyleByte b c h
    . exact hmark c h

/-- The bytes of the spared characters. -/
def byteIsSpared (b : UInt8) : Bool := (b < 0x20 && b ≠ 9 && b ≠ 10) || b = 0x7f

theorem byteIsSpared_eq_false {t : Text} (ht : HighStrays t) (h : ∀ c ∈ t, isSpared c = false)
    {b : UInt8} (hb : b ∈ encode t) : byteIsSpared b = false := by
  have hbyte : ∀ b, byteIsSpared b = true →
      b.toNat < 128 ∧ isSpared (.char (Char.ofNat b.toNat)) = true :=
    forall_byte (by decide +kernel)
  have hcode : ∀ n < 128, (Char.ofNat n).toNat = n := by decide +kernel
  rw [← Bool.not_eq_true]
  intro hspared
  obtain ⟨hlt, hchar⟩ := hbyte b hspared
  have hmem : .char (Char.ofNat b.toNat) ∈ t := by
    rw [← mem_encode ht (by rw [hcode _ hlt]; exact hlt), hcode _ hlt, UInt8.ofNat_toNat]
    exact hb
  simp [h _ hmem] at hchar

theorem quoteByte_eq : ∀ b, byteIsSpared b = false →
    quoteByte b = cStyleByte b ∧ byteNeedsQuotes b = !standsAlone b :=
  forall_byte (by decide +kernel)

theorem quote_eq_cStyle {t : Text} (ht : HighStrays t) (h : ∀ c ∈ t, isSpared c = false) :
    quote t = cStyle (encode t) := by
  have hbyte {b : UInt8} (hb : b ∈ encode t) := quoteByte_eq b (byteIsSpared_eq_false ht h hb)
  have hquotes : needsQuotes t = !(encode t).all standsAlone := by
    rw [needsQuotes_eq ht, List.not_all_eq_any_not, Bool.eq_iff_iff, List.any_eq_true,
      List.any_eq_true]
    exact exists_congr fun b => and_congr_right fun hb => by rw [(hbyte hb).2]
  have hbody : escape t = (encode t).flatMap cStyleByte := by
    rw [escape_eq ht, List.flatMap_def, List.flatMap_def]
    rw [List.map_congr_left fun b hb => (hbyte hb).1]
  rw [quote_eq, hquotes, hbody]
  unfold cStyle
  cases hall : (encode t).all standsAlone with
  | false => simp [ofString]
  | true =>
    have hplain : needsQuotes t = false := by rw [hquotes, hall]; rfl
    have hascii : ∀ b ∈ encode t, b.toNat < 128 := by
      intro b hb
      have halone := List.all_eq_true.1 hall b hb
      simp only [standsAlone, byteIsPrintable, Bool.and_eq_true, decide_eq_true_eq] at halone
      have hle := UInt8.le_iff_toNat_le.1 halone.1.1.2
      exact Nat.lt_of_le_of_lt hle (by decide)
    have hdecoded := decode_ascii hascii
    rw [(plain_of_not_needsQuotes hplain).fromBytes] at hdecoded
    simpa using hdecoded

theorem eq_cStyle_iff {t : Text} (ht : HighStrays t) :
    quote t = cStyle (encode t) ↔ ∀ c ∈ t, isSpared c = false := by
  refine ⟨fun heq c hc => ?_, quote_eq_cStyle ht⟩
  rw [← Bool.not_eq_true]
  intro hspared
  have hmem := (mem_quote_iff (isPrintable_of_isSpared hspared) _).2 ⟨hspared, hc⟩
  rw [heq] at hmem
  have hprintable := isPrintable_of_mem_cStyle hmem
  rw [isPrintable_of_isSpared hspared] at hprintable
  contradiction

end Path

end Dvcs
