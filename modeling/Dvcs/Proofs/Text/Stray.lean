import Dvcs.Proofs.Text.Utf8

/-!
This module contains the texts that keep their ASCII characters on the way through bytes: those
whose stray bytes are not ASCII bytes. All texts that are read from bytes are such texts, but so are
texts whose stray bytes would make up a character.
-/

namespace Dvcs

theorem Sym.encode_ne_nil (c : Sym) : c.encode ≠ [] := by
  cases c with
  | byte b => exact List.cons_ne_nil b []
  | char c =>
    intro h
    have hlength := congrArg List.length h
    have hpos := c.utf8Size_pos
    rw [Sym.encode, String.length_utf8EncodeChar, List.length_nil] at hlength
    omega

namespace Text

theorem encode_eq_nil {t : Text} (h : encode t = []) : t = [] := by
  cases t with
  | nil => rfl
  | cons c t => exact absurd (List.append_eq_nil_iff.1 h).1 c.encode_ne_nil

theorem exists_head?_of_encode {t : Text} {b : UInt8} (h : b ∈ (encode t).head?) :
    ∃ c ∈ t.head?, b ∈ c.encode := by
  cases t with
  | nil => contradiction
  | cons c t =>
    obtain ⟨b', bs, hbytes⟩ := List.exists_cons_of_ne_nil c.encode_ne_nil
    refine ⟨c, rfl, ?_⟩
    rw [encode_cons, hbytes, List.cons_append] at h
    cases h
    rw [hbytes]
    exact List.mem_cons_self

theorem exists_getLast?_of_encode {t : Text} {b : UInt8} (h : b ∈ (encode t).getLast?) :
    ∃ c ∈ t.getLast?, b ∈ c.encode := by
  rcases List.eq_nil_or_concat t with rfl | ⟨front, c, rfl⟩
  . contradiction
  . obtain ⟨bs, b', hbytes⟩ := (List.eq_nil_or_concat c.encode).resolve_left c.encode_ne_nil
    rw [List.concat_eq_append] at h hbytes ⊢
    refine ⟨c, by simp, ?_⟩
    rw [encode_append, encode_cons, encode_nil, hbytes, List.append_nil] at h
    rw [← List.append_assoc, List.getLast?_concat] at h
    cases h
    rw [hbytes]
    exact List.mem_append_right bs (List.mem_singleton_self b)

/-- The bytes outside of characters are not ASCII. -/
def HighStrays (t : Text) : Prop := ∀ b, Sym.byte b ∈ t → 128 ≤ b.toNat

theorem HighStrays.mono {s t : Text} (h : HighStrays t) (hsub : ∀ c ∈ s, c ∈ t) : HighStrays s :=
  fun b hb => h b (hsub _ hb)

theorem HighStrays.of_infix {s t : Text} (h : HighStrays t) (hs : s <:+: t) : HighStrays s :=
  h.mono fun _ hc => hs.subset hc

theorem highStrays_append {s t : Text} : HighStrays (s ++ t) ↔ HighStrays s ∧ HighStrays t := by
  simp only [HighStrays, List.mem_append]
  constructor
  . exact fun h => ⟨fun b hb => h b (.inl hb), fun b hb => h b (.inr hb)⟩
  . rintro ⟨hs, ht⟩ b (hb | hb)
    . exact hs b hb
    . exact ht b hb

theorem highStrays_ofString (s : String) : HighStrays (ofString s) := by
  intro b hb
  obtain ⟨c, _, heq⟩ := List.mem_map.1 hb
  contradiction

theorem utf8EncodeChar_ascii {c : Char} (h : c.toNat < 128) :
    String.utf8EncodeChar c = [UInt8.ofNat c.toNat] := by
  have hone : ∀ n < 128, String.utf8EncodeChar (Char.ofNat n) = [UInt8.ofNat n] := by decide
  have hc := hone c.toNat h
  rwa [Char.ofNat_toNat] at hc

theorem utf8EncodeChar_ofNat {b : UInt8} (h : b.toNat < 128) :
    String.utf8EncodeChar (Char.ofNat b.toNat) = [b] := by
  have hone : ∀ n < 128, String.utf8EncodeChar (Char.ofNat n) = [UInt8.ofNat n] := by decide
  have hb := hone b.toNat h
  rwa [UInt8.ofNat_toNat] at hb

theorem decode_ascii {bs : Bytes} (h : ∀ b ∈ bs, b.toNat < 128) :
    decode bs = bs.map fun b => .char (Char.ofNat b.toNat) := by
  induction bs with
  | nil => simp
  | cons b bs ih =>
    rw [List.forall_mem_cons] at h
    have hcons := decode_utf8EncodeChar_append (Char.ofNat b.toNat) bs
    rw [utf8EncodeChar_ofNat h.1, List.singleton_append] at hcons
    rw [hcons, ih h.2]
    rfl

theorem high_of_mem_utf8EncodeChar {c : Char} (hc : ¬ c.toNat < 128) {b : UInt8}
    (hb : b ∈ String.utf8EncodeChar c) : 128 ≤ b.toNat := by
  apply Nat.le_of_not_lt
  intro hlow
  have hlength := congrArg List.length (utf8EncodeChar_of_ascii_mem hb hlow)
  rw [String.length_utf8EncodeChar, List.length_singleton, Char.utf8Size_eq_one_iff] at hlength
  rw [UInt32.le_iff_toNat_le] at hlength
  exact hc (Nat.lt_succ_of_le hlength)

theorem highStrays_decode (bs : Bytes) : HighStrays (decode bs) := by
  fun_induction decode bs with
  | case1 =>
    intro b hb
    contradiction
  | case2 b bs c rest hfirst ih =>
    intro b' hb'
    rcases List.mem_cons.1 hb' with heq | hmem
    . contradiction
    . exact ih b' hmem
  | case3 b bs hfirst ih =>
    intro b' hb'
    rcases List.mem_cons.1 hb' with heq | hmem
    . cases heq
      -- an ASCII byte would have been a character
      apply Nat.le_of_not_lt
      intro hascii
      have hsome := firstChar?_utf8EncodeChar_append (Char.ofNat b.toNat) bs
      rw [utf8EncodeChar_ofNat hascii, List.singleton_append, hfirst] at hsome
      contradiction
    . exact ih b' hmem

theorem mem_encode {t : Text} (ht : HighStrays t) {c : Char} (hc : c.toNat < 128) :
    UInt8.ofNat c.toNat ∈ encode t ↔ .char c ∈ t := by
  have hbyte : (UInt8.ofNat c.toNat).toNat < 128 := by
    rw [UInt8.toNat_ofNat']
    omega
  constructor
  . intro hmem
    obtain ⟨s, hs, hencode⟩ := List.mem_flatMap.1 hmem
    cases s with
    | byte b =>
      have hhigh := ht b hs
      rw [Sym.encode, List.mem_singleton] at hencode
      rw [← hencode] at hhigh
      omega
    | char d =>
      have hd := utf8EncodeChar_of_ascii_mem hencode hbyte
      rw [← utf8EncodeChar_ascii hc] at hd
      have hchars := congrArg decode (congrArg (· ++ ([] : Bytes)) hd)
      simp only [decode_utf8EncodeChar_append] at hchars
      rwa [(List.cons.inj hchars).1] at hs
  . intro hmem
    refine List.mem_flatMap.2 ⟨.char c, hmem, ?_⟩
    rw [Sym.encode, utf8EncodeChar_ascii hc]
    exact List.mem_singleton_self _

theorem FromBytes.highStrays {t : Text} (h : FromBytes t) : HighStrays t := by
  have hdecoded := highStrays_decode (encode t)
  rwa [h] at hdecoded

theorem IsLine.not_mem_encode {t : Text} (h : IsLine t) : 10 ∉ encode t :=
  fun hmem => h.2 ((mem_encode h.1.highStrays (c := '\n') (by decide)).1 hmem)

theorem mem_decode_encode {t : Text} (ht : HighStrays t) {c : Char} (hc : c.toNat < 128) :
    .char c ∈ decode (encode t) ↔ .char c ∈ t := by
  rw [← mem_encode (highStrays_decode _) hc, encode_decode, mem_encode ht hc]

end Text

end Dvcs
