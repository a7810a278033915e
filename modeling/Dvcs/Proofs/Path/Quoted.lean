import Dvcs.Path.Quoted
import Dvcs.Proofs.Text.Cut
import Dvcs.Proofs.Text.Utf8

/-!
This module contains the reading of quoted paths: a quoted path gives the path back, also where it
stands in front of other text, and the two paths of a patch header can be told apart.
-/

namespace Dvcs

namespace Path

open Text

/-- What stands between the quotes. -/
def escape (t : Text) : Text := t.flatMap quoteSym

theorem quote_eq (t : Text) :
    quote t = if needsQuotes t then .char '"' :: (escape t ++ [.char '"']) else t := by
  unfold quote escape
  split <;> simp [ofString]

theorem plain_octal (b : UInt8) : Plain (octal b) := by
  have hdigit : ∀ n < 8, (Sym.char (Nat.digitChar n)).isAscii = true ∧
      Sym.char (Nat.digitChar n) ≠ '\n' := by decide
  intro s hs
  simp only [octal, List.mem_cons, List.not_mem_nil, or_false] at hs
  rcases hs with rfl | rfl | rfl | rfl
  . decide
  all_goals exact hdigit _ (Nat.mod_lt _ (by decide))

theorem plain_quoteSym (c : Sym) : Plain (quoteSym c) := by
  unfold quoteSym
  split
  . next h =>
    rw [Bool.or_eq_true, decide_eq_true_eq, decide_eq_true_eq] at h
    rcases h with rfl | rfl <;> decide
  . split
    . decide
    . split
      . decide
      . next hnewline =>
        split
        . next hascii =>
          intro s hs
          rw [List.mem_singleton] at hs
          rw [hs]
          exact ⟨hascii, hnewline⟩
        . intro s hs
          obtain ⟨b, _, hb⟩ := List.mem_flatMap.1 hs
          exact plain_octal b s hb

theorem plain_escape (t : Text) : Plain (escape t) := by
  intro s hs
  obtain ⟨c, _, hc⟩ := List.mem_flatMap.1 hs
  exact plain_quoteSym c s hc

theorem plain_of_not_needsQuotes {t : Text} (h : needsQuotes t = false) : Plain t := by
  intro s hs
  have := List.any_eq_false.1 h s hs
  simp_all

theorem plain_quote (t : Text) : Plain (quote t) := by
  rw [quote_eq]
  split
  . intro s hs
    simp only [List.mem_cons, List.mem_append, List.not_mem_nil, or_false] at hs
    rcases hs with rfl | hs | rfl
    . decide
    . exact plain_escape t s hs
    . decide
  . next h => exact plain_of_not_needsQuotes (by simpa using h)

/-- The symbols that escapes are made of. -/
def escapeSyms : Text := "\\tn01234567"

theorem mem_escapeSyms_of_mem_octal {b : UInt8} {d : Sym} (h : d ∈ octal b) : d ∈ escapeSyms := by
  have hdigit : ∀ n < 8, Sym.char (Nat.digitChar n) ∈ escapeSyms := by decide
  simp only [octal, List.mem_cons, List.not_mem_nil, or_false] at h
  rcases h with rfl | rfl | rfl | rfl
  . decide
  all_goals exact hdigit _ (Nat.mod_lt _ (by decide))

/-- A symbol that is not part of an escape stands for itself. -/
theorem eq_of_mem_quoteSym {c d : Sym} (h : d ∈ quoteSym c) (hd : d ∉ escapeSyms) : d = c := by
  have hescape {t : Text} (ht : ∀ s ∈ t, s ∈ escapeSyms) (h : d ∈ t) : d = c :=
    absurd (ht d h) hd
  unfold quoteSym at h
  split at h
  . simp only [List.mem_cons, List.not_mem_nil, or_false] at h
    exact h.resolve_left fun heq => hd (heq ▸ by decide)
  . split at h
    . exact hescape (by decide) h
    . split at h
      . exact hescape (by decide) h
      . split at h
        . exact List.mem_singleton.1 h
        . obtain ⟨b, _, hb⟩ := List.mem_flatMap.1 h
          exact hescape (fun s hs => mem_escapeSyms_of_mem_octal hs) hb

theorem tab_not_mem_quote (t : Text) : .char '\t' ∉ quote t := by
  have hsym (c : Sym) : .char '\t' ∉ quoteSym c := by
    intro h
    obtain rfl := eq_of_mem_quoteSym h (by decide)
    exact absurd h (by decide)
  rw [quote_eq]
  split
  . simp only [escape, List.mem_cons, List.mem_append, List.mem_flatMap, List.not_mem_nil, or_false,
      not_or, not_exists, not_and]
    exact ⟨by decide, fun c _ => hsym c, by decide⟩
  . next hplain =>
    intro hmem
    simp only [needsQuotes, Bool.not_eq_true, List.any_eq_false] at hplain
    exact absurd (hplain _ hmem) (by decide)

theorem unquoteBytes_cons {c : Sym} (h : c ≠ '\\') (t : Text) :
    unquoteBytes (c :: t) = (c.encode ++ ·) <$> unquoteBytes t := by
  match t with
  | [] => simp [unquoteBytes, Functor.map, Except.map]
  | [_] => simp [unquoteBytes, h]
  | [_, _] => simp [unquoteBytes, h]
  | _ :: _ :: _ :: _ => simp [unquoteBytes, h]

theorem unquoteBytes_escaped {d : Char} (h : isOctalDigit (.char d) = false) (t : Text) :
    unquoteBytes (.char '\\' :: .char d :: t) =
      ((Sym.char (unescape d)).encode ++ ·) <$> unquoteBytes t := by
  match t with
  | [] => simp [unquoteBytes]
  | [_] => simp [unquoteBytes]
  | _ :: _ :: _ => simp [unquoteBytes, h]

theorem octalByte_digits (b : UInt8) :
    octalByte [.char (Nat.digitChar (b.toNat / 64 % 8)), .char (Nat.digitChar (b.toNat / 8 % 8)),
      .char (Nat.digitChar (b.toNat % 8))] = .ok b := by
  have hall : ∀ i < 256, (octalByte
      [.char (Nat.digitChar (i / 64 % 8)), .char (Nat.digitChar (i / 8 % 8)),
        .char (Nat.digitChar (i % 8))]).toOption = some (UInt8.ofNat i) := by
    decide +kernel
  have hb := hall b.toNat b.toNat_lt
  rw [UInt8.ofNat_toNat] at hb
  generalize octalByte _ = read at hb ⊢
  cases read with
  | error e => simp [Except.toOption] at hb
  | ok b' => simpa [Except.toOption] using hb

theorem unquoteBytes_octal (b : UInt8) (t : Text) :
    unquoteBytes (octal b ++ t) = (b :: ·) <$> unquoteBytes t := by
  have hdigit : ∀ n < 8, isOctalDigit (.char (Nat.digitChar n)) = true := by decide
  simp [octal, unquoteBytes, hdigit _ (Nat.mod_lt _ (by decide)), octalByte_digits, bind,
    Except.bind, pure, Except.pure, Functor.map, Except.map]

theorem unquoteBytes_flatMap_octal (bs : Bytes) (t : Text) :
    unquoteBytes (bs.flatMap octal ++ t) = (bs ++ ·) <$> unquoteBytes t := by
  induction bs with
  | nil => simp
  | cons b bs ih =>
    rw [List.flatMap_cons, List.append_assoc]
    rw [unquoteBytes_octal, ih]
    cases unquoteBytes t <;> rfl

theorem unquoteBytes_quoteSym (c : Sym) (t : Text) :
    unquoteBytes (quoteSym c ++ t) = (c.encode ++ ·) <$> unquoteBytes t := by
  unfold quoteSym
  split
  . next h =>
    rw [Bool.or_eq_true, decide_eq_true_eq, decide_eq_true_eq] at h
    rcases h with rfl | rfl
    . exact unquoteBytes_escaped (by decide) t
    . exact unquoteBytes_escaped (by decide) t
  . next h =>
    rw [Bool.or_eq_true, decide_eq_true_eq, decide_eq_true_eq, not_or] at h
    split
    . next htab =>
      rw [htab]
      exact unquoteBytes_escaped (by decide) t
    . split
      . next hnewline =>
        rw [hnewline]
        exact unquoteBytes_escaped (by decide) t
      . split
        . exact unquoteBytes_cons h.2 t
        . exact unquoteBytes_flatMap_octal c.encode t

theorem escape_cons (c : Sym) (t : Text) : escape (c :: t) = quoteSym c ++ escape t := rfl

theorem unquoteBytes_escape_append (t rest : Text) :
    unquoteBytes (escape t ++ rest) = (encode t ++ ·) <$> unquoteBytes rest := by
  induction t with
  | nil =>
    rw [show escape [] = [] from rfl, List.nil_append, encode_nil]
    exact (id_map (unquoteBytes rest)).symm
  | cons c t ih =>
    rw [escape_cons, List.append_assoc, unquoteBytes_quoteSym, ih, encode_cons]
    simp only [Functor.map_map, List.append_assoc]

theorem unquoteBytes_escape (t : Text) : unquoteBytes (escape t) = .ok (encode t) := by
  have hescape := unquoteBytes_escape_append t []
  rw [List.append_nil] at hescape
  rw [hescape, show unquoteBytes [] = .ok [] from rfl]
  exact congrArg Except.ok (List.append_nil _)

theorem unwrap?_quoted (body : Text) :
    unwrap? (.char '"' :: (body ++ [.char '"'])) = some body := by
  simp [unwrap?]

theorem unwrap?_of_not_mem {t : Text} (h : Sym.char '"' ∉ t) : unwrap? t = none := by
  unfold unwrap?
  split
  . simp at h
  . rfl

theorem not_mem_quote_of_not_needsQuotes {t : Text} (h : needsQuotes t = false) :
    Sym.char '"' ∉ t := by
  intro hmem
  have := List.any_eq_false.1 h _ hmem
  simp at this

theorem unquote_quote_eq (t : Text) :
    unquote (quote t) = .ok (if needsQuotes t then decode (encode t) else t) := by
  rw [quote_eq]
  split
  . unfold unquote
    rw [unwrap?_quoted]
    dsimp only
    rw [unquoteBytes_escape]
    rfl
  . next hplain =>
    rw [Bool.not_eq_true] at hplain
    unfold unquote
    rw [unwrap?_of_not_mem (not_mem_quote_of_not_needsQuotes hplain)]

theorem unquote_quote {t : Text} (h : FromBytes t) : unquote (quote t) = .ok t := by
  have hbytes : decode (encode t) = t := h
  rw [unquote_quote_eq, hbytes, ite_self]

theorem cutQuoted_cons {c : Sym} (hslash : c ≠ '\\') (hquote : c ≠ '"') (t : Text) :
    cutQuoted (c :: t) = (c :: (cutQuoted t).1, (cutQuoted t).2) := by
  cases t with
  | nil => simp [cutQuoted]
  | cons d t =>
    rw [cutQuoted]
    . simp [hquote]
    . simp
    . rintro d u rfl
      contradiction

theorem cutQuoted_escaped (c : Sym) (t : Text) :
    cutQuoted (.char '\\' :: c :: t) =
      (.char '\\' :: c :: (cutQuoted t).1, (cutQuoted t).2) := by
  simp [cutQuoted]

theorem cutQuoted_flatMap_octal (bs : Bytes) (t : Text) :
    cutQuoted (bs.flatMap octal ++ t) = (bs.flatMap octal ++ (cutQuoted t).1, (cutQuoted t).2) := by
  have hdigit : ∀ n < 8, Sym.char (Nat.digitChar n) ≠ '\\' ∧ Sym.char (Nat.digitChar n) ≠ '"' := by
    decide
  induction bs with
  | nil => rfl
  | cons b bs ih =>
    have hsecond := hdigit (b.toNat / 8 % 8) (Nat.mod_lt _ (by decide))
    have hthird := hdigit (b.toNat % 8) (Nat.mod_lt _ (by decide))
    rw [List.flatMap_cons, List.append_assoc]
    simp only [octal, List.cons_append, List.nil_append]
    rw [cutQuoted_escaped]
    rw [cutQuoted_cons hsecond.1 hsecond.2]
    rw [cutQuoted_cons hthird.1 hthird.2]
    rw [ih]

theorem cutQuoted_quoteSym (c : Sym) (t : Text) :
    cutQuoted (quoteSym c ++ t) = (quoteSym c ++ (cutQuoted t).1, (cutQuoted t).2) := by
  unfold quoteSym
  split
  . exact cutQuoted_escaped c t
  . next h =>
    rw [Bool.or_eq_true, decide_eq_true_eq, decide_eq_true_eq, not_or] at h
    split
    . exact cutQuoted_escaped 't' t
    . split
      . exact cutQuoted_escaped 'n' t
      . split
        . exact cutQuoted_cons h.2 h.1 t
        . exact cutQuoted_flatMap_octal c.encode t

theorem cutQuoted_escape (t rest : Text) :
    cutQuoted (escape t ++ .char '"' :: rest) = (escape t ++ [.char '"'], rest) := by
  induction t with
  | nil => cases rest <;> simp [escape, cutQuoted]
  | cons c t ih =>
    rw [escape_cons, List.append_assoc, cutQuoted_quoteSym, ih]
    simp

theorem needsQuotes_append (s t : Text) :
    needsQuotes (s ++ t) = (needsQuotes s || needsQuotes t) :=
  List.any_append

/-- The paths of a patch header. -/
def pair (s t : Text) : Text := quote ("a/" ++ s) ++ " " ++ quote ("b/" ++ t)

theorem needsQuotes_source (s : Text) : needsQuotes ("a/" ++ s) = needsQuotes s :=
  needsQuotes_append "a/" s

theorem needsQuotes_target (t : Text) : needsQuotes ("b/" ++ t) = needsQuotes t :=
  needsQuotes_append "b/" t

theorem splitPair?_quote_cons (t : Text) :
    splitPair? (.char '"' :: t) =
      some (.char '"' :: (cutQuoted t).1, (cutQuoted t).2.dropWhile (· = .char ' ')) := rfl

theorem splitPair?_of_quoted_source {s : Text} (hs : needsQuotes s = true) (t : Text) :
    splitPair? (pair s t) = some (quote ("a/" ++ s), quote ("b/" ++ t)) := by
  have htarget : (quote ("b/" ++ t)).dropWhile (· = .char ' ') = quote ("b/" ++ t) := by
    rw [quote_eq]
    split <;> simp [ofString]
  unfold pair
  rw [quote_eq ("a/" ++ s)]
  rw [needsQuotes_source, hs]
  simp only [↓reduceIte, List.cons_append, List.append_assoc]
  rw [List.nil_append, splitPair?_quote_cons, cutQuoted_escape]
  rw [show ofString " " = [.char ' '] from rfl, List.cons_append, List.nil_append]
  rw [List.dropWhile_cons_of_pos (by simp), htarget]

theorem splitPair?_of_quoted_target {s t : Text} (hs : needsQuotes s = false)
    (ht : needsQuotes t = true) :
    splitPair? (pair s t) = some (quote ("a/" ++ s), quote ("b/" ++ t)) := by
  have hmem : Sym.char '"' ∉ ("a/" : Text) ++ s :=
    not_mem_quote_of_not_needsQuotes (by rw [needsQuotes_source, hs])
  have hcut := cut?_append_cons_cons (a := .char ' ') (by decide) hmem
    (escape ("b/" ++ t) ++ [.char '"'])
  have hends : endsWith (pair s t) "\"" = true := by
    have hpair : pair s t =
        quote ("a/" ++ s) ++ " " ++ (.char '"' :: escape ("b/" ++ t)) ++ ("\"" : Text) := by
      unfold pair
      rw [quote_eq ("b/" ++ t), needsQuotes_target, ht]
      simp [ofString]
    rw [hpair, endsWith, before?_append]
    rfl
  have hpair : pair s t =
      .char 'a' :: .char '/' :: (s ++ .char ' ' :: quote ("b/" ++ t)) := by
    unfold pair
    rw [quote_eq ("a/" ++ s), needsQuotes_source, hs]
    simp [ofString]
  rw [hpair] at hends ⊢
  unfold splitPair?
  simp only [hends, ↓reduceIte]
  rw [quote_eq ("b/" ++ t), needsQuotes_target, ht]
  rw [quote_eq ("a/" ++ s), needsQuotes_source, hs]
  simp only [↓reduceIte]
  have hcut' : cut? " \"" (.char 'a' :: .char '/' ::
      (s ++ .char ' ' :: .char '"' :: (escape ("b/" ++ t) ++ [.char '"']))) =
        some ("a/" ++ s, escape ("b/" ++ t) ++ [.char '"']) := hcut
  rw [hcut']
  rfl

theorem pair_of_plain {s t : Text} (hs : needsQuotes s = false) (ht : needsQuotes t = false) :
    pair s t = "a/" ++ s ++ (" " ++ ("b/" ++ t)) := by
  unfold pair
  rw [quote_eq ("a/" ++ s), needsQuotes_source, hs]
  rw [quote_eq ("b/" ++ t), needsQuotes_target, ht]
  simp

theorem not_mem_pair_of_plain {s t : Text} (hs : needsQuotes s = false)
    (ht : needsQuotes t = false) : Sym.char '"' ∉ pair s t := by
  apply not_mem_quote_of_not_needsQuotes
  rw [pair_of_plain hs ht]
  simp only [needsQuotes_append, hs, ht]
  decide

theorem splitPair?_of_plain {s t : Text} (hs : needsQuotes s = false)
    (ht : needsQuotes t = false) :
    splitPair? (pair s t) =
      (halves? (pair s t) <|> (cut? " b/" (pair s t)).map fun (a, b) => (a, "b/" ++ b)) := by
  have hmem := not_mem_pair_of_plain hs ht
  have hends : endsWith (pair s t) "\"" = false := by
    unfold endsWith
    rw [show ofString "\"" = [.char '"'] from rfl, before?_of_not_mem hmem]
    rfl
  unfold splitPair?
  split
  . next heq => simp [heq] at hmem
  . simp only [hends, Bool.false_eq_true, ↓reduceIte]
    cases halves? (pair s t) <;> rfl

theorem halves?_of_agreeing {s u : Text} (h : s.drop 2 = u.drop 2) (hlength : s.length = u.length) :
    halves? (s ++ .char ' ' :: u) = some (s, u) := by
  have htotal : (s ++ .char ' ' :: u).length = 2 * s.length + 1 := by
    rw [List.length_append, List.length_cons]
    omega
  have hhalf : (2 * s.length + 1 - 1) / 2 = s.length := by omega
  unfold halves?
  rw [htotal, hhalf]
  simp [h]

theorem mem_of_halves? {t a b : Text} (h : halves? t = some (a, b)) {c : Sym}
    (hc : c ∈ a ∨ c ∈ b) : c ∈ t := by
  unfold halves? at h
  dsimp only at h
  split at h
  . cases h
    rcases hc with hc | hc
    . exact List.mem_of_mem_take hc
    . exact List.mem_of_mem_drop hc
  . contradiction

theorem unquote_of_not_mem {t : Text} (h : Sym.char '"' ∉ t) : unquote t = .ok t := by
  unfold unquote
  rw [unwrap?_of_not_mem h]

theorem readPair_of_splitPair? {line a b s t : Text} (hsplit : splitPair? line = some (a, b))
    (ha : unquote a = .ok s) (hb : unquote b = .ok t) :
    readPair line = .ok (some (dropStart "a/" s, dropStart "b/" t)) := by
  unfold readPair
  rw [hsplit]
  simp [ha, hb, bind, Except.bind, pure, Except.pure]

theorem readPair_of_split {s t : Text} (hs : FromBytes s) (ht : FromBytes t)
    (hsplit : splitPair? (pair s t) = some (quote ("a/" ++ s), quote ("b/" ++ t))) :
    readPair (pair s t) = .ok (some (s, t)) := by
  have hsource := unquote_quote (fromBytes_ofString_append.2 hs : FromBytes ("a/" ++ s))
  have htarget := unquote_quote (fromBytes_ofString_append.2 ht : FromBytes ("b/" ++ t))
  rw [readPair_of_splitPair? hsplit hsource htarget]
  simp [dropStart]

theorem readPair_of_needsQuotes {s t : Text} (hs : FromBytes s) (ht : FromBytes t)
    (h : needsQuotes s = true ∨ needsQuotes t = true) :
    readPair (pair s t) = .ok (some (s, t)) := by
  apply readPair_of_split hs ht
  cases hsource : needsQuotes s with
  | true => exact splitPair?_of_quoted_source hsource t
  | false => exact splitPair?_of_quoted_target hsource (h.resolve_left (by simp [hsource]))

theorem readPair_same {s : Text} (hs : FromBytes s) : readPair (pair s s) = .ok (some (s, s)) := by
  cases hquote : needsQuotes s with
  | true => exact readPair_of_needsQuotes hs hs (.inl hquote)
  | false =>
    apply readPair_of_split hs hs
    -- both halves agree behind their first two symbols, so the line is cut in its middle
    rw [splitPair?_of_plain hquote hquote, pair_of_plain hquote hquote]
    have hhalves : halves? ("a/" ++ s ++ (" " ++ ("b/" ++ s))) = some ("a/" ++ s, "b/" ++ s) :=
      halves?_of_agreeing (by simp [ofString]) (by simp [ofString])
    rw [hhalves]
    rw [quote_eq ("a/" ++ s), needsQuotes_source, hquote]
    rw [quote_eq ("b/" ++ s), needsQuotes_target, hquote]
    rfl

theorem readPair_pair (s t : Text) : ∃ paths, readPair (pair s t) = .ok (some paths) := by
  -- two unquoted paths may be told apart in the wrong place, but some two paths are read; a move
  -- names its paths once more further down
  have hquoted (hsplit : splitPair? (pair s t) = some (quote ("a/" ++ s), quote ("b/" ++ t))) :
      ∃ paths, readPair (pair s t) = .ok (some paths) :=
    ⟨_, readPair_of_splitPair? hsplit (unquote_quote_eq _) (unquote_quote_eq _)⟩
  cases hsource : needsQuotes s with
  | true => exact hquoted (splitPair?_of_quoted_source hsource t)
  | false =>
    cases htarget : needsQuotes t with
    | true => exact hquoted (splitPair?_of_quoted_target hsource htarget)
    | false =>
      have hmem := not_mem_pair_of_plain hsource htarget
      have hsplit := splitPair?_of_plain hsource htarget
      cases hhalves : halves? (pair s t) with
      | some halves =>
        obtain ⟨a, b⟩ := halves
        rw [hhalves] at hsplit
        have ha : Sym.char '"' ∉ a := fun h => hmem (mem_of_halves? hhalves (.inl h))
        have hb : Sym.char '"' ∉ b := fun h => hmem (mem_of_halves? hhalves (.inr h))
        exact ⟨_, readPair_of_splitPair? hsplit (unquote_of_not_mem ha) (unquote_of_not_mem hb)⟩
      | none =>
        have hsome := isSome_cut?_append ("a/" ++ s) " b/" t
        rw [show "a/" ++ s ++ " b/" ++ t = pair s t by
          rw [pair_of_plain hsource htarget]
          simp [ofString]] at hsome
        obtain ⟨⟨a, b⟩, hcut⟩ := Option.isSome_iff_exists.1 hsome
        rw [hhalves, hcut] at hsplit
        rw [eq_append_of_cut? hcut] at hmem
        simp only [List.mem_append, not_or] at hmem
        have hb : Sym.char '"' ∉ ("b/" : Text) ++ b := by
          rw [List.mem_append, not_or]
          exact ⟨by decide, hmem.2⟩
        exact ⟨_, readPair_of_splitPair? hsplit (unquote_of_not_mem hmem.1.1)
          (unquote_of_not_mem hb)⟩

/-- A quoted path gives the path back. So does the header of a patch, unless it shows two different
paths without quotes; every such header has the form of two paths. -/
theorem unquote_readPair_quote :
    (∀ t, FromBytes t → unquote (quote t) = .ok t) ∧
      (∀ s t, FromBytes s → FromBytes t →
        s = t ∨ needsQuotes ("a/" ++ s) = true ∨ needsQuotes ("b/" ++ t) = true →
          readPair (quote ("a/" ++ s) ++ " " ++ quote ("b/" ++ t)) = .ok (some (s, t))) ∧
      ∀ s t, ∃ paths,
        readPair (quote ("a/" ++ s) ++ " " ++ quote ("b/" ++ t)) = .ok (some paths) := by
  refine ⟨fun t ht => unquote_quote ht, ?_, readPair_pair⟩
  rintro s t hs ht (rfl | hquotes)
  . exact readPair_same hs
  . rw [needsQuotes_source, needsQuotes_target] at hquotes
    exact readPair_of_needsQuotes hs ht hquotes

/-- A path with everything that is quoted in it. -/
def sampleName : Text := "\\1 \"é\n" ++ [Sym.byte 0xff]

theorem unquote_readPair_quote_samples :
    unquote (quote sampleName) = .ok sampleName ∧
      readPair (pair sampleName " b/y") = .ok (some (sampleName, " b/y")) ∧
      readPair (pair "x b/y" "x b/y") = .ok (some ("x b/y", "x b/y")) := by
  have hsample : FromBytes sampleName := by
    unfold sampleName
    rw [fromBytes_ofString_append, fromBytes_iff]
    exact ⟨[0xff], by decide +kernel⟩
  have hspaces : FromBytes " b/y" := Plain.fromBytes (by decide)
  have hplain : FromBytes "x b/y" := Plain.fromBytes (by decide)
  refine ⟨unquote_readPair_quote.1 _ hsample, ?_, ?_⟩
  . exact unquote_readPair_quote.2.1 _ _ hsample hspaces (.inr (.inl (by decide)))
  . exact unquote_readPair_quote.2.1 _ _ hplain hplain (.inl rfl)

end Path

end Dvcs
