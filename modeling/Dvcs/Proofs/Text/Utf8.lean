import Dvcs.Text.Utf8

/-!
This module contains the laws of reading and writing bytes. An ASCII byte is never part of a longer
character, so it cuts bytes into parts that can be read on their own, and the lines of a text come
back from its bytes if each of them does.
-/

namespace Dvcs

namespace Text

theorem firstChar?_utf8EncodeChar_append (c : Char) (bs : Bytes) :
    firstChar? (String.utf8EncodeChar c ++ bs) = some (c, bs) := by
  have hlength := String.length_utf8EncodeChar c
  have hsize := c.utf8Size_le_four
  unfold firstChar?
  rw [List.take_append]
  rw [List.take_of_length_le (by omega)]
  rw [List.toByteArray_append]
  rw [ByteArray.utf8DecodeChar?_utf8EncodeChar_append]
  rw [Option.map_some]
  rw [← hlength]
  rw [List.drop_left]

theorem eq_append_of_firstChar? {bs rest : Bytes} {c : Char} (h : firstChar? bs = some (c, rest)) :
    bs = String.utf8EncodeChar c ++ rest := by
  obtain ⟨d, hd, heq⟩ := Option.map_eq_some_iff.1 h
  obtain ⟨rfl, rfl⟩ := Prod.mk.injEq .. ▸ heq
  have hlength := String.length_utf8EncodeChar d
  obtain ⟨l, hl⟩ := ByteArray.exists_of_utf8DecodeChar?_eq_some hd
  have htake : bs.take 4 = String.utf8EncodeChar d ++ l.data.toList := by
    have := congrArg (·.data.toList) hl
    simpa only [List.data_toByteArray, ByteArray.data_append, Array.toList_append] using this
  have hle : d.utf8Size ≤ 4 := d.utf8Size_le_four
  rw [← List.take_append_drop d.utf8Size bs]
  have : bs.take d.utf8Size = (bs.take 4).take d.utf8Size := by
    rw [List.take_take, Nat.min_eq_left hle]
  rw [this, htake, ← hlength, List.take_left]
  simp

theorem utf8EncodeChar_of_ascii_mem {c : Char} {b : UInt8} (hmem : b ∈ String.utf8EncodeChar c)
    (hb : b.toNat < 128) : String.utf8EncodeChar c = [b] := by
  -- every byte of a longer character has its highest bit set
  have hhigh (n : Nat) (hn : 128 ≤ n % 256) : b ≠ UInt8.ofNat n := by
    intro h
    rw [h, UInt8.toNat_ofNat'] at hb
    omega
  revert hmem
  unfold String.utf8EncodeChar
  dsimp only
  simp only [apply_ite (b ∈ ·), List.mem_cons, List.not_mem_nil, or_false]
  split
  . intro h
    rw [h]
  . split
    . rintro (h | h) <;> exact absurd h (hhigh _ (by omega))
    . split
      . rintro (h | h | h) <;> exact absurd h (hhigh _ (by omega))
      . rintro (h | h | h | h) <;> exact absurd h (hhigh _ (by omega))

@[simp]
theorem decode_nil : decode [] = [] := by
  rw [decode]

theorem decode_utf8EncodeChar_append (c : Char) (bs : Bytes) :
    decode (String.utf8EncodeChar c ++ bs) = .char c :: decode bs := by
  have hfirst := firstChar?_utf8EncodeChar_append c bs
  generalize hall : String.utf8EncodeChar c ++ bs = all at hfirst
  cases all with
  | nil => simp at hall
  | cons b all =>
    rw [decode]
    split <;> simp_all

theorem decode_cons_of_firstChar?_eq_none {b : UInt8} {bs : Bytes}
    (h : firstChar? (b :: bs) = none) : decode (b :: bs) = .byte b :: decode bs := by
  rw [decode]
  split <;> simp_all

theorem decode_append_ascii {b : UInt8} (hb : b.toNat < 128) (bs rest : Bytes) :
    decode (bs ++ b :: rest) = decode bs ++ decode (b :: rest) := by
  cases bs with
  | nil => simp
  | cons a bs =>
    cases hfirst : firstChar? (a :: bs ++ b :: rest) with
    | none =>
      have hnone : firstChar? (a :: bs) = none := by
        cases h : firstChar? (a :: bs) with
        | none => rfl
        | some found =>
          rw [eq_append_of_firstChar? h, List.append_assoc] at hfirst
          simp [firstChar?_utf8EncodeChar_append] at hfirst
      rw [List.cons_append] at hfirst ⊢
      rw [decode_cons_of_firstChar?_eq_none hfirst, decode_cons_of_firstChar?_eq_none hnone]
      rw [decode_append_ascii hb bs rest, List.cons_append]
    | some found =>
      obtain ⟨c, behind⟩ := found
      have hall := eq_append_of_firstChar? hfirst
      -- the first character ends in front of the ASCII byte
      obtain ⟨left, hleft, rfl⟩ :
          ∃ left, a :: bs = String.utf8EncodeChar c ++ left ∧ behind = left ++ b :: rest := by
        rcases List.append_eq_append_iff.1 hall with ⟨x, hx, hrest⟩ | ⟨left, hleft, hrest⟩
        . cases x with
          | nil => exact ⟨[], by simpa using hx.symm, by simpa using hrest.symm⟩
          | cons d x =>
            have hd : d = b := by simp_all
            have hmem : b ∈ String.utf8EncodeChar c := by simp [hx, hd]
            rw [utf8EncodeChar_of_ascii_mem hmem hb] at hx
            simp at hx
        . exact ⟨left, hleft, hrest⟩
      have hshort : left.length < (a :: bs).length := by
        have := String.length_utf8EncodeChar c
        have := c.utf8Size_pos
        rw [hleft, List.length_append]
        omega
      rw [hall, hleft, decode_utf8EncodeChar_append, decode_utf8EncodeChar_append]
      rw [decode_append_ascii hb left rest, List.cons_append]
termination_by bs.length
decreasing_by
  . simp_all
  . simp_all

@[simp]
theorem decode_newline_cons (bs : Bytes) : decode (10 :: bs) = .char '\n' :: decode bs :=
  decode_utf8EncodeChar_append '\n' bs

theorem decode_append_newline (bs rest : Bytes) :
    decode (bs ++ 10 :: rest) = decode bs ++ .char '\n' :: decode rest := by
  rw [decode_append_ascii (by decide), decode_newline_cons]

@[simp]
theorem encode_nil : encode [] = [] := rfl

@[simp]
theorem encode_cons (c : Sym) (t : Text) : encode (c :: t) = c.encode ++ encode t := rfl

@[simp]
theorem encode_append (s t : Text) : encode (s ++ t) = encode s ++ encode t := by
  simp [encode]

@[simp]
theorem encode_decode (bs : Bytes) : encode (decode bs) = bs := by
  fun_induction decode bs with
  | case1 => rfl
  | case2 b bs c rest h ih =>
    rw [encode_cons, ih]
    exact (eq_append_of_firstChar? h).symm
  | case3 b bs h ih =>
    rw [encode_cons, ih]
    rfl

theorem fromBytes_decode (bs : Bytes) : FromBytes (decode bs) := by
  unfold FromBytes
  rw [encode_decode]

theorem fromBytes_iff {t : Text} : FromBytes t ↔ ∃ bs, decode bs = t := by
  constructor
  . intro h
    exact ⟨encode t, h⟩
  . rintro ⟨bs, rfl⟩
    exact fromBytes_decode bs

theorem fromBytes_char_cons {c : Char} {t : Text} : FromBytes (.char c :: t) ↔ FromBytes t := by
  unfold FromBytes
  rw [encode_cons]
  simp only [Sym.encode]
  rw [decode_utf8EncodeChar_append]
  simp

theorem fromBytes_ofString_append {s : String} {t : Text} :
    FromBytes (ofString s ++ t) ↔ FromBytes t := by
  unfold ofString
  induction s.toList with
  | nil => simp
  | cons c cs ih => simpa [fromBytes_char_cons] using ih

theorem decode_encode_ofString_append (s : String) (bs : Bytes) :
    decode (encode (ofString s) ++ bs) = ofString s ++ decode bs := by
  unfold ofString
  induction s.toList with
  | nil => rfl
  | cons c cs ih =>
    rw [List.map_cons, encode_cons, List.append_assoc, List.cons_append, ← ih]
    exact decode_utf8EncodeChar_append c _

theorem decode_encode_append_newline {t : Text} (h : FromBytes t) (rest : Bytes) :
    decode (encode t ++ 10 :: rest) = t ++ .char '\n' :: decode rest := by
  rw [decode_append_newline, h]

/-- Texts of ASCII characters other than the line feed. -/
def Plain (t : Text) : Prop := ∀ c ∈ t, c.isAscii = true ∧ c ≠ '\n'

instance (t : Text) : Decidable (Plain t) :=
  inferInstanceAs (Decidable (∀ c ∈ t, c.isAscii = true ∧ c ≠ '\n'))

theorem plain_append {s t : Text} : Plain (s ++ t) ↔ Plain s ∧ Plain t :=
  List.forall_mem_append

theorem Plain.fromBytes {t : Text} (h : Plain t) : FromBytes t := by
  induction t with
  | nil => simp [FromBytes]
  | cons c t ih =>
    cases c with
    | char c =>
      rw [fromBytes_char_cons]
      apply ih
      intro d hd
      exact h d (List.mem_cons_of_mem _ hd)
    | byte b =>
      have := (h _ List.mem_cons_self).1
      simp [Sym.isAscii] at this

theorem Plain.not_mem_newline {t : Text} (h : Plain t) : Sym.char '\n' ∉ t :=
  fun hmem => (h _ hmem).2 rfl

/-- Texts that come back from their bytes as one line. -/
def IsLine (t : Text) : Prop := FromBytes t ∧ Sym.char '\n' ∉ t

theorem Plain.isLine {t : Text} (h : Plain t) : IsLine t := ⟨h.fromBytes, h.not_mem_newline⟩

theorem splitOn_append_cons {s : Sym} {t : Text} (h : s ∉ t) (rest : Text) :
    splitOn s (t ++ s :: rest) = t :: splitOn s rest := by
  induction t with
  | nil => simp [splitOn]
  | cons c t ih =>
    rw [List.mem_cons, not_or] at h
    rw [List.cons_append]
    rw [splitOn]
    rw [if_neg (Ne.symm h.1)]
    rw [ih h.2]

/-- Lines as one text, every line ended. -/
def unlines (ls : List Text) : Text := ls.flatMap (· ++ "\n")

theorem splitOn_unlines {ls : List Text} (h : ∀ l ∈ ls, Sym.char '\n' ∉ l) :
    splitOn (.char '\n') (unlines ls) = ls ++ [[]] := by
  induction ls with
  | nil => rfl
  | cons l ls ih =>
    rw [List.forall_mem_cons] at h
    have hcons : unlines (l :: ls) = l ++ .char '\n' :: unlines ls := by
      simp [unlines, ofString]
    rw [hcons]
    rw [splitOn_append_cons h.1]
    rw [ih h.2]
    rfl

theorem fromBytes_unlines {ls : List Text} (h : ∀ l ∈ ls, FromBytes l) :
    FromBytes (unlines ls) := by
  induction ls with
  | nil => simp [unlines, FromBytes]
  | cons l ls ih =>
    rw [List.forall_mem_cons] at h
    have hbytes : encode (unlines (l :: ls)) = encode l ++ 10 :: encode (unlines ls) := by
      simp [unlines, ofString, Sym.encode, String.utf8EncodeChar]
    unfold FromBytes
    rw [hbytes]
    rw [decode_encode_append_newline h.1]
    rw [ih h.2]
    simp [unlines, ofString]

theorem outputLines_encode_unlines {ls : List Text} (hbytes : ∀ l ∈ ls, FromBytes l)
    (hbreak : ∀ l ∈ ls, Sym.char '\n' ∉ l) : outputLines (encode (unlines ls)) = ls := by
  unfold outputLines
  rw [fromBytes_unlines hbytes]
  rw [splitOn_unlines hbreak]
  simp

end Text

end Dvcs
