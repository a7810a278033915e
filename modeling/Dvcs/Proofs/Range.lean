import Dvcs.Proofs.Text.Cut
import Dvcs.Proofs.Text.Digits
import Dvcs.Range

/-!
This module contains the reading of ranges: which texts are ranges, and that the written ones are
among them.
-/

namespace Dvcs

namespace Text

theorem not_mem_of_isDigit {digits : Text} (h : ∀ c ∈ digits, c.isDigit = true) {c : Sym}
    (hc : c.isDigit = false) : c ∉ digits := by
  intro hmem
  rw [h c hmem] at hc
  contradiction

theorem ofNat_inj {m n : Nat} : ofNat m = ofNat n ↔ m = n := by
  constructor
  . intro h
    have hdigits : Nat.toDigits 10 m = Nat.toDigits 10 n :=
      (List.map_inj_right fun _ _ => Sym.char.inj).1 h
    rw [← ofDigitValues_toDigits m, ← ofDigitValues_toDigits n, hdigits]
  . rintro rfl
    rfl

/-- A run of digits, not too long, and the number that it is read as. -/
structure Spells (digits : Text) (n : Nat) : Prop where
  ne_nil : digits ≠ []
  isDigit : ∀ c ∈ digits, c.isDigit = true
  length : digits.length ≤ digitLimit
  value : n = ofDigitValues 10 (digits.filterMap Sym.digit?)

theorem natural?_eq_ok_iff {t : Text} {n : Nat} : natural? t = some (.ok n) ↔ Spells t n := by
  constructor
  . intro h
    obtain ⟨hdigits, hne, hlength, _⟩ := spells_of_natural? h
    refine ⟨hne, hdigits, hlength, ?_⟩
    unfold natural? at h
    split at h
    . contradiction
    . split at h
      . cases h
      . cases h
        rfl
  . rintro ⟨hne, hdigits, hlength, rfl⟩
    unfold natural?
    rw [List.all_eq_true.2 hdigits]
    simp [hne, Nat.not_lt.2 hlength]

theorem spells_ofNat {n : Nat} (h : (ofNat n).length ≤ digitLimit) : Spells (ofNat n) n :=
  natural?_eq_ok_iff.1 (natural?_ofNat h)

theorem eq_of_spells_ofNat {m n : Nat} (h : Spells (ofNat n) m) : m = n :=
  h.value.trans (spells_ofNat h.length).value.symm

end Text

namespace Range

open Text

theorem dropNewline_of_not_mem {t : Text} (h : Sym.char '\n' ∉ t) : dropNewline t = t := by
  unfold dropNewline
  rw [show ofString "\n" = [.char '\n'] from rfl, before?_of_not_mem h]
  rfl

theorem natural?_of_number {whole part : Text} {n : Nat} (h : number whole part = .ok n) :
    natural? (dropNewline part) = some (.ok n) := by
  unfold number at h
  split at h
  . contradiction
  . contradiction
  . next heq =>
    cases h
    exact heq

/-- The texts that are ranges. -/
inductive Spelled : Text → Range → Prop where
  | single {start : Text} {n : Nat} (hstart : Spells start n) : Spelled start ⟨n, 1⟩
  | counted {start count : Text} {n m : Nat} (hstart : Spells start n) (hcount : Spells count m)
    (hother : count ≠ minusOne) : Spelled (start ++ .char ',' :: count) ⟨n, m⟩
  | minusOne {start : Text} {n : Nat} (hstart : Spells start n) :
    Spelled (start ++ .char ',' :: minusOne) ⟨n, 0⟩

/-- The texts that look like ranges. -/
inductive Shape : Text → Prop where
  | single {start : Text} (hne : start ≠ []) (hstart : ∀ c ∈ start, c.isDigit = true) : Shape start
  | counted {start count : Text} (hne : start ≠ []) (hstart : ∀ c ∈ start, c.isDigit = true)
    (hne' : count ≠ []) (hcount : ∀ c ∈ count, c.isDigit = true) :
    Shape (start ++ .char ',' :: count)

theorem Spelled.shape {t : Text} {r : Range} (h : Spelled t r) : Shape t := by
  cases h with
  | single hstart => exact .single hstart.ne_nil hstart.isDigit
  | counted hstart hcount =>
    exact .counted hstart.ne_nil hstart.isDigit hcount.ne_nil hcount.isDigit
  | minusOne hstart => exact .counted hstart.ne_nil hstart.isDigit (by decide) (by decide)

/-- A part of a range with certain digits. It may have a line feed at its end. -/
def Holds (part digits : Text) : Prop := part = digits ∨ part = digits ++ "\n"

theorem Holds.not_mem {part digits : Text} (h : Holds part digits)
    (hdigits : ∀ c ∈ digits, c.isDigit = true) : Sym.char ',' ∉ part := by
  have hcomma : Sym.char ',' ∉ digits := not_mem_of_isDigit hdigits (by decide)
  rcases h with rfl | rfl
  . exact hcomma
  . simpa [ofString] using hcomma

theorem holds_dropNewline (part : Text) : Holds part (dropNewline part) := by
  unfold dropNewline
  cases h : before? "\n" part with
  | none => exact .inl rfl
  | some front => exact .inr (before?_eq_some_iff.1 h)

theorem Holds.dropNewline_eq {part digits : Text} (h : Holds part digits)
    (hdigits : ∀ c ∈ digits, c.isDigit = true) : dropNewline part = digits := by
  rcases h with rfl | rfl
  . exact dropNewline_of_not_mem (not_mem_of_isDigit hdigits (by decide))
  . unfold dropNewline
    rw [before?_append]
    rfl

theorem number_eq_ok_iff {whole part : Text} {n : Nat} :
    number whole part = .ok n ↔ ∃ digits, Holds part digits ∧ Spells digits n := by
  constructor
  . intro h
    exact ⟨_, holds_dropNewline part, natural?_eq_ok_iff.1 (natural?_of_number h)⟩
  . rintro ⟨digits, hholds, hspells⟩
    unfold number
    rw [hholds.dropNewline_eq hspells.isDigit, natural?_eq_ok_iff.2 hspells]

theorem ofText_of_not_mem {start : Text} (h : Sym.char ',' ∉ start) :
    ofText start = (number start start).map (⟨·, 1⟩) := by
  have hcut : cut? "," start = none := cut?_of_not_mem h
  unfold ofText
  rw [hcut]
  cases number start start <;> rfl

theorem ofText_counted {start : Text} (h : Sym.char ',' ∉ start) (count : Text) :
    ofText (start ++ .char ',' :: count) =
      (number (start ++ .char ',' :: count) start).bind fun n =>
        if count = minusOne then .ok ⟨n, 0⟩
        else (number (start ++ .char ',' :: count) count).map (⟨n, ·⟩) := by
  have hcut : cut? "," (start ++ .char ',' :: count) = some (start, count) :=
    cut?_append_cons h count
  unfold ofText
  rw [hcut]
  dsimp only
  cases number (start ++ .char ',' :: count) start with
  | error e => rfl
  | ok n =>
    simp only [bind, Except.bind]
    split
    . rfl
    . cases number (start ++ .char ',' :: count) count <;> rfl

/-- The texts that are read as ranges: those that are ranges, where either part may have a line feed
at its end. -/
inductive Accepted : Text → Range → Prop where
  | single {part start : Text} {n : Nat} (hpart : Holds part start) (hstart : Spells start n) :
    Accepted part ⟨n, 1⟩
  | counted {part start part' count : Text} {n m : Nat} (hpart : Holds part start)
    (hstart : Spells start n) (hpart' : Holds part' count) (hcount : Spells count m)
    (hother : part' ≠ minusOne) : Accepted (part ++ .char ',' :: part') ⟨n, m⟩
  | minusOne {part start : Text} {n : Nat} (hpart : Holds part start) (hstart : Spells start n) :
    Accepted (part ++ .char ',' :: minusOne) ⟨n, 0⟩

theorem Spelled.accepted {t : Text} {r : Range} (h : Spelled t r) : Accepted t r := by
  cases h with
  | single hstart => exact .single (.inl rfl) hstart
  | counted hstart hcount hother => exact .counted (.inl rfl) hstart (.inl rfl) hcount hother
  | minusOne hstart => exact .minusOne (.inl rfl) hstart

theorem Holds.eq_of_not_mem {part digits : Text} (h : Holds part digits)
    (hpart : Sym.char '\n' ∉ part) : part = digits := by
  rcases h with rfl | rfl
  . rfl
  . simp [ofString] at hpart

theorem Accepted.spelled {t : Text} {r : Range} (h : Accepted t r) (ht : Sym.char '\n' ∉ t) :
    Spelled t r := by
  cases h with
  | single hpart hstart =>
    obtain rfl := hpart.eq_of_not_mem ht
    exact .single hstart
  | counted hpart hstart hpart' hcount hother =>
    simp only [List.mem_append, List.mem_cons, not_or] at ht
    obtain rfl := hpart.eq_of_not_mem ht.1
    obtain rfl := hpart'.eq_of_not_mem ht.2.2
    exact .counted hstart hcount hother
  | minusOne hpart hstart =>
    simp only [List.mem_append, not_or] at ht
    obtain rfl := hpart.eq_of_not_mem ht.1
    exact .minusOne hstart

theorem accepted_of_ofText {t : Text} {r : Range} (h : ofText t = .ok r) : Accepted t r := by
  cases hcut : cut? "," t with
  | none =>
    unfold ofText at h
    rw [hcut] at h
    cases hn : number t t with
    | error e =>
      rw [hn] at h
      contradiction
    | ok n =>
      rw [hn] at h
      cases h
      obtain ⟨start, hpart, hstart⟩ := number_eq_ok_iff.1 hn
      exact .single hpart hstart
  | some parts =>
    obtain ⟨part, part'⟩ := parts
    have ht : t = part ++ .char ',' :: part' := by
      rw [eq_append_of_cut? hcut]
      simp [ofString]
    unfold ofText at h
    rw [hcut] at h
    dsimp only at h
    cases hn : number t part with
    | error e =>
      rw [hn] at h
      contradiction
    | ok n =>
      obtain ⟨start, hpart, hstart⟩ := number_eq_ok_iff.1 hn
      rw [hn] at h
      simp only [bind, Except.bind] at h
      split at h
      . next hminus =>
        cases h
        rw [ht, hminus]
        exact .minusOne hpart hstart
      . next hother =>
        cases hm : number t part' with
        | error e =>
          rw [hm] at h
          contradiction
        | ok m =>
          rw [hm] at h
          cases h
          obtain ⟨count, hpart', hcount⟩ := number_eq_ok_iff.1 hm
          rw [ht]
          exact .counted hpart hstart hpart' hcount hother

theorem Holds.isPrefix {part digits : Text} (h : Holds part digits) : digits <+: part := by
  rcases h with rfl | rfl
  . exact List.prefix_rfl
  . exact List.prefix_append digits _

theorem prefix_dropNewline (t : Text) : dropNewline t <+: t := (holds_dropNewline t).isPrefix

theorem Holds.isInfix_append {part digits : Text} (h : Holds part digits) (rest : Text) :
    digits <:+: part ++ rest :=
  (h.isPrefix.trans (List.prefix_append part rest)).isInfix

/-- Some part of a range spells where it starts. -/
theorem start_of_ofText {t : Text} {r : Range} (h : ofText t = .ok r) :
    ∃ digits, digits <:+: t ∧ natural? digits = some (.ok r.start) := by
  cases accepted_of_ofText h with
  | single hpart hstart => exact ⟨_, hpart.isPrefix.isInfix, natural?_eq_ok_iff.2 hstart⟩
  | counted hpart hstart => exact ⟨_, hpart.isInfix_append _, natural?_eq_ok_iff.2 hstart⟩
  | minusOne hpart hstart => exact ⟨_, hpart.isInfix_append _, natural?_eq_ok_iff.2 hstart⟩

theorem Accepted.ofText_eq {t : Text} {r : Range} (h : Accepted t r) : ofText t = .ok r := by
  cases h with
  | single hpart hstart =>
    rw [ofText_of_not_mem (hpart.not_mem hstart.isDigit),
      number_eq_ok_iff.2 ⟨_, hpart, hstart⟩]
    rfl
  | counted hpart hstart hpart' hcount hother =>
    rw [ofText_counted (hpart.not_mem hstart.isDigit), number_eq_ok_iff.2 ⟨_, hpart, hstart⟩]
    simp only [Except.bind]
    rw [if_neg hother, number_eq_ok_iff.2 ⟨_, hpart', hcount⟩]
    rfl
  | minusOne hpart hstart =>
    rw [ofText_counted (hpart.not_mem hstart.isDigit), number_eq_ok_iff.2 ⟨_, hpart, hstart⟩]
    rfl

theorem ofText_eq_ok_iff_accepted {t : Text} {r : Range} : ofText t = .ok r ↔ Accepted t r :=
  ⟨accepted_of_ofText, Accepted.ofText_eq⟩

theorem ofText_eq_ok_iff_of_not_mem {t : Text} (h : Sym.char '\n' ∉ t) {r : Range} :
    ofText t = .ok r ↔ Spelled t r :=
  ⟨fun hread => (accepted_of_ofText hread).spelled h, fun hspelled => hspelled.accepted.ofText_eq⟩

theorem Shape.not_mem {t : Text} (h : Shape t) : Sym.char '\n' ∉ t := by
  cases h with
  | single hne hstart => exact not_mem_of_isDigit hstart (by decide)
  | counted hne hstart hne' hcount =>
    have hfirst := not_mem_of_isDigit hstart (c := '\n') (by decide)
    have hsecond := not_mem_of_isDigit hcount (c := '\n') (by decide)
    simp [hfirst, hsecond]

theorem ofText_eq_ok_iff {t : Text} (h : Shape t) {r : Range} : ofText t = .ok r ↔ Spelled t r :=
  ofText_eq_ok_iff_of_not_mem h.not_mem

/-- Ranges that come back from their text: numbers that are not too long, and a count that is not
taken for the count minus one. -/
structure Legible (r : Range) : Prop where
  start : (ofNat r.start).length ≤ digitLimit
  count : (ofNat r.count).length ≤ digitLimit
  not_minusOne : r.count ≠ 18446744073709551615

/-- A range as a tool writes it. A count of one may be left out. -/
def written (short : Bool) (r : Range) : Text := if short then r.brief else r.toText

theorem brief_eq_written (r : Range) : r.brief = r.written true := rfl

theorem written_cases (short : Bool) (r : Range) :
    r.written short = r.toText ∨ r.count = 1 ∧ r.written short = ofNat r.start := by
  unfold written brief
  split
  . split
    . next h => exact .inr ⟨h, rfl⟩
    . exact .inl rfl
  . exact .inl rfl

theorem isDigit_ofNat (n : Nat) : ∀ c ∈ ofNat n, c.isDigit = true := fun _ => isDigit_of_mem_ofNat'

theorem comma_not_mem_ofNat (n : Nat) : Sym.char ',' ∉ ofNat n :=
  not_mem_of_isDigit (isDigit_ofNat n) (by decide)

theorem toText_eq (r : Range) : r.toText = ofNat r.start ++ .char ',' :: ofNat r.count := by
  simp [toText, ofString]

theorem shape_written (short : Bool) (r : Range) : Shape (r.written short) := by
  rcases written_cases short r with heq | ⟨_, heq⟩
  . rw [heq, toText_eq]
    exact .counted (ofNat_ne_nil _) (isDigit_ofNat _) (ofNat_ne_nil _) (isDigit_ofNat _)
  . rw [heq]
    exact .single (ofNat_ne_nil _) (isDigit_ofNat _)

theorem spelled_written {r : Range} (h : r.Legible) (short : Bool) :
    Spelled (r.written short) r := by
  have hminusOne : ofNat r.count ≠ minusOne := by
    rw [show minusOne = ofNat 18446744073709551615 from rfl]
    exact fun heq => h.not_minusOne (ofNat_inj.1 heq)
  rcases written_cases short r with heq | ⟨hcount, heq⟩
  . rw [heq, toText_eq]
    exact .counted (spells_ofNat h.start) (spells_ofNat h.count) hminusOne
  . have hsingle : r = ⟨r.start, 1⟩ := by rw [← hcount]
    rw [heq, hsingle]
    exact .single (spells_ofNat h.start)

theorem ofText_written {r : Range} (h : r.Legible) (short : Bool) :
    ofText (r.written short) = .ok r :=
  (ofText_eq_ok_iff (shape_written short r)).2 (spelled_written h short)

/-- The counts of a written range are at most those that it was written for: too many digits are
refused, and the count minus one is taken for none. -/
theorem count_le_of_ofText_brief {r r' : Range} (h : ofText r.brief = .ok r') :
    r'.count ≤ r.count := by
  rw [brief_eq_written] at h
  rcases written_cases true r with heq | ⟨hcount, heq⟩
  . rw [heq, toText_eq, ofText_counted (comma_not_mem_ofNat r.start)] at h
    generalize ofNat r.start ++ Sym.char ',' :: ofNat r.count = whole at h
    cases hstart : number whole (ofNat r.start) with
    | error e =>
      rw [hstart] at h
      contradiction
    | ok start =>
      rw [hstart] at h
      simp only [Except.bind] at h
      split at h
      . cases h
        exact Nat.zero_le _
      . cases hread : number whole (ofNat r.count) with
        | error e =>
          rw [hread] at h
          contradiction
        | ok count =>
          rw [hread] at h
          cases h
          obtain ⟨digits, hholds, hspells⟩ := number_eq_ok_iff.1 hread
          obtain rfl :=
            hholds.eq_of_not_mem (not_mem_of_isDigit (isDigit_ofNat r.count) (by decide))
          exact Nat.le_of_eq (eq_of_spells_ofNat hspells)
  . rw [heq, ofText_of_not_mem (comma_not_mem_ofNat r.start)] at h
    cases hstart : number (ofNat r.start) (ofNat r.start) with
    | error e =>
      rw [hstart] at h
      contradiction
    | ok start =>
      rw [hstart] at h
      cases h
      exact Nat.le_of_eq hcount.symm

/-- Why a number is refused: its text is none, or it has too many digits. -/
def IsRefusal (whole : Text) (e : RangeError) : Prop :=
  e = .malformed whole ∨ ∃ n, digitLimit < n ∧ e = .numeral (.tooManyDigits n)

theorem isRefusal_of_number {whole part : Text} {e : RangeError}
    (h : number whole part = .error e) : IsRefusal whole e := by
  unfold number natural? at h
  split at h
  . cases h
    exact .inl rfl
  . next heq =>
    cases h
    split at heq
    . contradiction
    . split at heq
      . next hlong =>
        cases heq
        exact .inr ⟨_, hlong, rfl⟩
      . cases heq
  . contradiction

theorem isRefusal_of_ofText {t : Text} {e : RangeError} (h : ofText t = .error e) :
    IsRefusal t e := by
  unfold ofText at h
  split at h
  . cases hn : number t t with
    | error e' =>
      rw [hn] at h
      cases h
      exact isRefusal_of_number hn
    | ok n =>
      rw [hn] at h
      cases h
  . next first second hcut =>
    cases hn : number t first with
    | error e' =>
      rw [hn] at h
      cases h
      exact isRefusal_of_number hn
    | ok n =>
      rw [hn] at h
      simp only [bind, Except.bind] at h
      split at h
      . cases h
      . cases hm : number t second with
        | error e' =>
          rw [hm] at h
          cases h
          exact isRefusal_of_number hm
        | ok m =>
          rw [hm] at h
          cases h

/-- A text is read as a range exactly if it is one, but for a line feed that may stand at the end of
either part; so the grammar alone decides, unless a text with a line feed is accepted. Everything
else is refused, as malformed or for the number of its digits, and a range comes back from its text,
with a count of one or without. -/
theorem ofText_grammar (t : Text) (r : Range) :
    (ofText t = .ok r ↔ Accepted t r) ∧
    ((ofText t = .ok r ↔ Spelled t r) ↔ (Sym.char '\n' ∈ t → ofText t ≠ .ok r)) ∧
    (∀ e, ofText t = .error e → IsRefusal t e) ∧
    (r.Legible → ofText r.toText = .ok r ∧ ofText r.brief = .ok r) := by
  refine ⟨ofText_eq_ok_iff_accepted, ⟨?_, ?_⟩, fun e => isRefusal_of_ofText, ?_⟩
  . intro hgrammar hbreak hread
    exact (hgrammar.1 hread).shape.not_mem hbreak
  . intro hrefused
    by_cases hbreak : Sym.char '\n' ∈ t
    . have hnot : ¬ Spelled t r := fun h => h.shape.not_mem hbreak
      exact iff_of_false (hrefused hbreak) hnot
    . exact ofText_eq_ok_iff_of_not_mem hbreak
  . intro hr
    exact ⟨ofText_written hr false, ofText_written hr true⟩

/-- The digits of any script, the count minus one, a sign, and a range with a count of one. -/
theorem ofText_grammar_samples :
    ofText "٣,18446744073709551615" = .ok ⟨3, 0⟩ ∧ IsRefusal "1,-1" (.malformed "1,-1") ∧
    ofText (Range.mk 7 1).toText = .ok ⟨7, 1⟩ ∧ ofText (Range.mk 7 1).brief = .ok ⟨7, 1⟩ := by
  have hspells : Spells "٣" 3 := ⟨by decide, by decide, by decide, rfl⟩
  obtain ⟨_, hgrammar, _, _⟩ := ofText_grammar "٣,18446744073709551615" ⟨3, 0⟩
  obtain ⟨_, _, hrefusal, hlegible⟩ := ofText_grammar "1,-1" ⟨7, 1⟩
  have hread := hgrammar.2 fun hbreak => absurd hbreak (by decide)
  exact ⟨hread.2 (.minusOne hspells), hrefusal _ rfl, hlegible ⟨by decide, by decide, by decide⟩⟩

/-- A line feed at the end does no harm, although such a text is no range. -/
theorem ofText_lineFeed : ofText "5\n" = .ok ⟨5, 1⟩ ∧ ∀ r, ¬ Spelled "5\n" r :=
  ⟨rfl, fun _ h => h.shape.not_mem (by decide)⟩

theorem plain_written (short : Bool) (r : Range) : Plain (r.written short) := by
  rcases written_cases short r with heq | ⟨_, heq⟩
  . rw [heq]
    unfold toText
    rw [plain_append, plain_append]
    exact ⟨⟨plain_ofNat _, by decide⟩, plain_ofNat _⟩
  . rw [heq]
    exact plain_ofNat _

end Range

end Dvcs
