import Dvcs.Path
import Dvcs.Proofs.Path.Part
import Dvcs.Proofs.Path.Quoted
import Dvcs.Proofs.Text.Join

/-!
This module contains the paths that come from texts. They are normal, they stay so on the way
through bytes, and the quoted form of a path depends on its bytes alone.
-/

namespace Dvcs

namespace Path

open Text

/-- What stands between the slashes of a normal path. -/
structure IsPart (part : Text) : Prop where
  ne_nil : part ≠ []
  ne_dot : part ≠ "."
  no_slash : .char '/' ∉ part

/-- Paths without redundant parts. -/
structure Standard (q : Path) : Prop where
  root : q.root = [] ∨ q.root = "/" ∨ q.root = "//"
  parts : ∀ part ∈ q.parts, IsPart part

theorem rootOf_cases (t : Text) : rootOf t = [] ∨ rootOf t = "/" ∨ rootOf t = "//" := by
  unfold rootOf
  split
  . exact .inl rfl
  . exact .inr (.inr rfl)
  . exact .inr (.inl rfl)

theorem mem_of_mem_partsOf {t part : Text} (hpart : part ∈ partsOf t) {c : Sym} (hc : c ∈ part) :
    c ∈ t :=
  (mem_of_mem_splitOn (List.mem_filter.1 hpart).1 hc).1

theorem standard_ofText (t : Text) : (ofText t).Standard where
  root := rootOf_cases t
  parts := by
    intro part hpart
    obtain ⟨hsplit, hkept⟩ := List.mem_filter.1 hpart
    simp only [Bool.and_eq_true, decide_eq_true_eq] at hkept
    exact ⟨hkept.1, hkept.2, fun hslash => (mem_of_mem_splitOn hsplit hslash).2 rfl⟩

theorem filter_parts {parts : List Text} (h : ∀ part ∈ parts, IsPart part) :
    parts.filter (fun part => part ≠ [] && part ≠ ".") = parts := by
  rw [List.filter_eq_self]
  intro part hpart
  simp [(h part hpart).ne_nil, (h part hpart).ne_dot]

theorem partsOf_join {parts : List Text} (h : ∀ part ∈ parts, IsPart part) :
    partsOf (Text.join "/" parts) = parts := by
  cases parts with
  | nil => rfl
  | cons part parts =>
    have hsplit := splitOn_join (s := .char '/') (List.cons_ne_nil part parts)
      fun t ht => (h t ht).no_slash
    unfold partsOf
    rw [show ofString "/" = [.char '/'] from rfl, hsplit]
    exact filter_parts h

theorem partsOf_slash_cons (t : Text) : partsOf (.char '/' :: t) = partsOf t := by
  simp [partsOf, splitOn]

theorem rootOf_append {root t : Text} (hroot : root = [] ∨ root = "/" ∨ root = "//")
    (ht : ∀ c ∈ t.head?, c ≠ .char '/') : rootOf (root ++ t) = root := by
  have htake : t.takeWhile (· = .char '/') = [] := by
    cases t with
    | nil => rfl
    | cons c t => simp [ht c rfl]
  unfold rootOf
  rcases hroot with rfl | rfl | rfl <;> simp [ofString, htake]

theorem head?_join_ne_slash {parts : List Text} (h : ∀ part ∈ parts, IsPart part) :
    ∀ c ∈ (Text.join "/" parts).head?, c ≠ .char '/' := by
  cases parts with
  | nil => nofun
  | cons part parts =>
    have hpart := h part List.mem_cons_self
    obtain ⟨d, part, rfl⟩ := List.exists_cons_of_ne_nil hpart.ne_nil
    have hhead : (Text.join "/" ((d :: part) :: parts)).head? = some d := by
      cases parts <;> rfl
    rw [hhead]
    rintro c ⟨⟩ rfl
    exact hpart.no_slash List.mem_cons_self

theorem toText_eq (q : Path) :
    q.toText =
      if q.root ++ Text.join "/" q.parts = [] then ofString "."
      else q.root ++ Text.join "/" q.parts := by
  unfold toText
  split
  . next h => rw [if_pos h]
  . next t hne => rw [if_neg hne]

theorem Standard.isNormal {q : Path} (h : q.Standard) : q.IsNormal := by
  obtain ⟨root, parts⟩ := q
  have hparts : partsOf (root ++ Text.join "/" parts) = parts := by
    have hparts := partsOf_join h.parts
    rcases h.root with hroot | hroot | hroot
    . obtain rfl : root = [] := hroot
      exact hparts
    . obtain rfl : root = "/" := hroot
      exact (partsOf_slash_cons _).trans hparts
    . obtain rfl : root = "//" := hroot
      exact ((partsOf_slash_cons _).trans (partsOf_slash_cons _)).trans hparts
  have hroot : rootOf (root ++ Text.join "/" parts) = root :=
    rootOf_append h.root (head?_join_ne_slash h.parts)
  unfold IsNormal ofText
  rw [toText_eq]
  split
  . next hempty =>
    dsimp only at hempty
    rw [hempty] at hparts hroot
    rw [← hparts, ← hroot]
    rfl
  . rw [hparts, hroot]

/-- The path that comes back from the bytes of a path. -/
def decoded (q : Path) : Path := ⟨q.root, q.parts.map fun part => decode (encode part)⟩

theorem IsPart.decoded {part : Text} (h : IsPart part) (hstrays : HighStrays part) :
    IsPart (decode (encode part)) where
  ne_nil := by
    intro hnil
    have hbytes := congrArg encode hnil
    rw [encode_decode] at hbytes
    exact h.ne_nil (encode_eq_nil hbytes)
  ne_dot := by
    intro hdot
    -- a dot that comes out of the bytes stood in the text, and there is no other byte
    have hmem : .char '.' ∈ part := by
      rw [← mem_decode_encode hstrays (by decide), hdot]
      decide
    have hbytes : encode part = [46] := by
      rw [← encode_decode (encode part), hdot]
      rfl
    obtain ⟨c, rest, rfl⟩ := List.exists_cons_of_ne_nil h.ne_nil
    obtain ⟨b, bs, hc⟩ := List.exists_cons_of_ne_nil c.encode_ne_nil
    rw [encode_cons, hc] at hbytes
    obtain rfl : rest = [] := encode_eq_nil (List.append_eq_nil_iff.1 (List.cons.inj hbytes).2).2
    rw [List.mem_singleton] at hmem
    exact h.ne_dot (by rw [← hmem]; rfl)
  no_slash := by
    rw [mem_decode_encode hstrays (by decide)]
    exact h.no_slash

theorem Standard.decoded {q : Path} (h : q.Standard)
    (hstrays : ∀ part ∈ q.parts, HighStrays part) : q.decoded.Standard where
  root := h.root
  parts := by
    intro part' hpart'
    obtain ⟨part, hpart, rfl⟩ := List.mem_map.1 hpart'
    exact (h.parts part hpart).decoded (hstrays part hpart)

theorem decode_encode_root_append {root : Text} (h : root = [] ∨ root = "/" ∨ root = "//")
    (t : Text) : decode (encode (root ++ t)) = root ++ decode (encode t) := by
  rw [encode_append]
  rcases h with rfl | rfl | rfl
  . rfl
  . exact decode_encode_ofString_append "/" _
  . exact decode_encode_ofString_append "//" _

theorem toText_decoded {q : Path} (h : q.Standard) :
    q.decoded.toText = decode (encode q.toText) := by
  have hall : q.decoded.root ++ Text.join "/" q.decoded.parts =
      decode (encode (q.root ++ Text.join "/" q.parts)) := by
    rw [decode_encode_root_append h.root]
    rw [show ofString "/" = [.char '/'] from rfl, decode_encode_join (by decide)]
    rfl
  rw [toText_eq, toText_eq, hall]
  by_cases hnil : q.root ++ Text.join "/" q.parts = []
  . rw [if_pos hnil, hnil, encode_nil, decode_nil, if_pos rfl]
    exact (Plain.fromBytes (by decide)).symm
  . rw [if_neg hnil, if_neg]
    intro hdecoded
    have hbytes := congrArg encode hdecoded
    rw [encode_decode] at hbytes
    exact hnil (encode_eq_nil hbytes)

theorem highStrays_toText {q : Path} (h : q.Standard)
    (hstrays : ∀ part ∈ q.parts, HighStrays part) : HighStrays q.toText := by
  have hjoin : HighStrays (Text.join "/" q.parts) :=
    highStrays_join (highStrays_ofString "/") hstrays
  rw [toText_eq]
  split
  . exact highStrays_ofString "."
  . refine highStrays_append.2 ⟨?_, hjoin⟩
    rcases h.root with hroot | hroot | hroot
    . rw [hroot]
      nofun
    . rw [hroot]
      exact highStrays_ofString "/"
    . rw [hroot]
      exact highStrays_ofString "//"

/-- A byte between quotes. -/
def quoteByte (b : UInt8) : Text :=
  if b.toNat < 128 then quoteSym (.char (Char.ofNat b.toNat)) else octal b

theorem quoteSym_of_not_isAscii {c : Sym} (h : c.isAscii = false) :
    quoteSym c = c.encode.flatMap octal := by
  have hne (d : Char) (hd : (Sym.char d).isAscii = true) : c ≠ .char d := by
    rintro rfl
    rw [h] at hd
    contradiction
  unfold quoteSym
  simp [hne '"' rfl, hne '\\' rfl, hne '\t' rfl, hne '\n' rfl, h]

theorem flatMap_quoteByte {bs : Bytes} (h : ∀ b ∈ bs, 128 ≤ b.toNat) :
    bs.flatMap quoteByte = bs.flatMap octal := by
  have hbyte : ∀ b ∈ bs, quoteByte b = octal b := by
    intro b hb
    unfold quoteByte
    rw [if_neg (Nat.not_lt.2 (h b hb))]
  rw [List.flatMap_def, List.map_congr_left hbyte, ← List.flatMap_def]

theorem flatMap_quoteByte_encode {c : Sym} (h : ∀ b, c = .byte b → 128 ≤ b.toNat) :
    c.encode.flatMap quoteByte = quoteSym c := by
  cases c with
  | byte b =>
    rw [quoteSym_of_not_isAscii rfl]
    apply flatMap_quoteByte
    intro b' hb'
    rw [List.mem_singleton.1 hb']
    exact h b rfl
  | char c =>
    by_cases hc : c.toNat < 128
    . have hb : (UInt8.ofNat c.toNat).toNat = c.toNat := by
        rw [UInt8.toNat_ofNat']
        omega
      rw [Sym.encode, utf8EncodeChar_ascii hc]
      simp [quoteByte, hb, hc]
    . rw [quoteSym_of_not_isAscii (by simpa [Sym.isAscii] using hc)]
      exact flatMap_quoteByte fun b hb => high_of_mem_utf8EncodeChar hc hb

theorem escape_eq {t : Text} (h : HighStrays t) : escape t = (encode t).flatMap quoteByte := by
  unfold escape encode
  rw [List.flatMap_assoc]
  have hsym : ∀ c ∈ t, c.encode.flatMap quoteByte = quoteSym c :=
    fun c hc => flatMap_quoteByte_encode fun b heq => h b (heq ▸ hc)
  rw [List.flatMap_def, List.flatMap_def, List.map_congr_left hsym]

/-- Which bytes need quotes around the path. -/
def byteNeedsQuotes (b : UInt8) : Bool := b = 34 || b = 92 || b = 9 || b = 10 || 128 ≤ b.toNat

theorem any_byteNeedsQuotes_encode {c : Sym} (h : ∀ b, c = .byte b → 128 ≤ b.toNat) :
    c.encode.any byteNeedsQuotes =
      (c = '"' || c = '\\' || c = '\t' || c = '\n' || !c.isAscii : Bool) := by
  have hone : ∀ n < 128, byteNeedsQuotes (UInt8.ofNat n) =
      (Sym.char (Char.ofNat n) = '"' || Sym.char (Char.ofNat n) = '\\' ||
        Sym.char (Char.ofNat n) = '\t' || Sym.char (Char.ofNat n) = '\n' : Bool) := by
    decide
  cases c with
  | byte b => simp [Sym.encode, Sym.isAscii, byteNeedsQuotes, h b rfl]
  | char c =>
    by_cases hc : c.toNat < 128
    . have hn := hone c.toNat hc
      rw [Char.ofNat_toNat] at hn
      rw [Sym.encode, utf8EncodeChar_ascii hc, List.any_cons, List.any_nil, hn]
      simp [Sym.isAscii, hc]
    . obtain ⟨b, bs, hbytes⟩ := List.exists_cons_of_ne_nil (Sym.char c).encode_ne_nil
      have hhigh : 128 ≤ b.toNat := by
        apply high_of_mem_utf8EncodeChar hc
        rw [Sym.encode] at hbytes
        rw [hbytes]
        exact List.mem_cons_self
      rw [hbytes]
      simp [Sym.isAscii, hc, byteNeedsQuotes, hhigh]

theorem needsQuotes_eq {t : Text} (h : HighStrays t) :
    needsQuotes t = (encode t).any byteNeedsQuotes := by
  unfold needsQuotes encode
  rw [List.any_flatMap]
  induction t with
  | nil => rfl
  | cons c t ih =>
    rw [List.any_cons, List.any_cons]
    rw [any_byteNeedsQuotes_encode fun b heq => h b (heq ▸ List.mem_cons_self)]
    rw [ih (h.mono fun _ => List.mem_cons_of_mem c)]

theorem quote_decode_encode {t : Text} (h : HighStrays t) :
    quote (decode (encode t)) = quote t := by
  have hdecoded := highStrays_decode (encode t)
  rw [quote_eq, quote_eq, needsQuotes_eq h, needsQuotes_eq hdecoded, escape_eq h]
  rw [escape_eq hdecoded, encode_decode]
  split
  . rfl
  . next hplain =>
    rw [← needsQuotes_eq h] at hplain
    exact (plain_of_not_needsQuotes (by simpa using hplain)).fromBytes

theorem highStrays_of_mem_parts {t part : Text} (h : HighStrays t)
    (hpart : part ∈ (ofText t).parts) : HighStrays part :=
  h.mono fun _ hc => mem_of_mem_partsOf hpart hc

theorem highStrays_of_unquote {t path : Text} (h : unquote t = .ok path) (ht : HighStrays t) :
    HighStrays path := by
  unfold unquote at h
  split at h
  . next body hbody =>
    cases hbytes : unquoteBytes body with
    | error e =>
      rw [hbytes] at h
      contradiction
    | ok bs =>
      rw [hbytes] at h
      cases h
      exact highStrays_decode bs
  . cases h
    exact ht

theorem highStrays_of_readPair {t s' t' : Text} (h : readPair t = .ok (some (s', t')))
    (ht : HighStrays t) : HighStrays s' ∧ HighStrays t' := by
  unfold readPair at h
  split at h
  . cases h
  . next a b hsplit =>
    obtain ⟨ha, hb⟩ := infix_of_splitPair? hsplit
    cases hsource : unquote a with
    | error e =>
      rw [hsource] at h
      contradiction
    | ok source =>
      cases htarget : unquote b with
      | error e =>
        rw [hsource, htarget] at h
        contradiction
      | ok target =>
        rw [hsource, htarget] at h
        cases h
        have hsource' := highStrays_of_unquote hsource (ht.of_infix ha)
        have htarget' := highStrays_of_unquote htarget (ht.of_infix hb)
        exact ⟨hsource'.of_infix (dropStart_suffix _ source).isInfix,
          htarget'.of_infix (dropStart_suffix _ target).isInfix⟩

end Path

end Dvcs
