import Dvcs.Console
import Dvcs.Proofs.Text.Utf8
import Dvcs.Text.Cited
import Mathlib.Data.List.Chain
import Mathlib.Tactic.Tauto

/-!
This module contains what is expected of a console that reads markup, whichever console it is. The
tags of the markup open and close styles, and all else is text. The expectations go no further than
tags with plain names in texts without escapes and codes for pictures.
-/

namespace Dvcs

/-- The characters that can be seen, and the blank. -/
def Sym.isVisible : Sym → Bool
  | .char c =>
    if c.toNat < 0x80 then 0x20 ≤ c.toNat && c.toNat ≠ 0x7f
    else !(unprintable.any fun (lo, hi) => lo ≤ c.toNat && c.toNat ≤ hi)
  | .byte _ => false

/-- A text without breaks, controls and stray bytes. -/
def Text.Visible (t : Text) : Prop := ∀ s ∈ t, s.isVisible = true

instance (t : Text) : Decidable t.Visible :=
  inferInstanceAs (Decidable (∀ s ∈ t, s.isVisible = true))

theorem Text.visible_append {s t : Text} : (s ++ t).Visible ↔ s.Visible ∧ t.Visible :=
  List.forall_mem_append

namespace Console

open Text

/-- Whether a tag can start with a symbol, behind the bracket. -/
def beginsTag : Sym → Bool
  | .char c => c.isLower || c = '#' || c = '/' || c = '@'
  | .byte _ => false

/-- A text that shows itself: no bracket in it begins a tag, nothing in it is escaped, and there are
no two colons to make a picture of what is between them. -/
structure IsPlain (t : Text) : Prop where
  visible : t.Visible
  unescaped : .char '\\' ∉ t
  uncoded : t.count (.char ':') ≤ 1
  untagged : t.IsChain fun s next => s = .char '[' → beginsTag next = false

instance (t : Text) : Decidable (IsPlain t) :=
  decidable_of_iff (t.Visible ∧ .char '\\' ∉ t ∧ t.count (.char ':') ≤ 1 ∧
      t.IsChain fun s next => s = .char '[' → beginsTag next = false)
    ⟨fun ⟨hv, he, hc, ht⟩ => ⟨hv, he, hc, ht⟩, fun ⟨hv, he, hc, ht⟩ => ⟨hv, he, hc, ht⟩⟩

/-- Whether a symbol can stand in the plain name of a style. -/
def isStyleSym : Sym → Bool
  | .char c => c.isLower || c.isDigit || c = '_'
  | .byte _ => false

/-- A name that a tag can have: a letter, and letters, digits and underscores behind it. -/
def IsStyleName (name : Text) : Prop :=
  (∃ c rest, name = .char c :: rest ∧ c.isLower = true) ∧ ∀ s ∈ name, isStyleSym s = true

/-- A tag. -/
inductive Mark where
  | opening (style : Text)
  | closing (style : Text)
deriving DecidableEq, Repr

namespace Mark

def style : Mark → Text
  | opening style => style
  | closing style => style

def source : Mark → Text
  | opening style => "[" ++ style ++ "]"
  | closing style => "[/" ++ style ++ "]"

/-- The open styles behind a tag, the innermost first; none if it closes one that is not open. Names
of the same style are told by what is `canonical` for them. -/
def openBehind? (canonical : Text → Text) (stack : List Text) : Mark → Option (List Text)
  | opening style => some (canonical style :: stack)
  | closing style =>
    if canonical style ∈ stack then some (stack.erase (canonical style)) else none

end Mark

/-- A text with markup, read: what is in front of all tags, and each tag with what is behind it. -/
structure Marked where
  front : Text
  spans : List (Mark × Text)

namespace Marked

/-- The text as it is written. -/
def source (t : Marked) : Text := t.front ++ t.spans.flatMap fun span => span.1.source ++ span.2

/-- The text without its tags. -/
def shown (t : Marked) : Text := t.front ++ t.spans.flatMap Prod.snd

/-- The text is plain but for its tags, and these have plain names. -/
structure WellFormed (t : Marked) : Prop where
  front : IsPlain t.front
  spans : ∀ span ∈ t.spans, IsStyleName span.1.style ∧ IsPlain span.2

/-- Every tag that closes a style comes where this style is open. -/
def Balanced (canonical : Text → Text) (t : Marked) : Prop :=
  ((t.spans.map Prod.fst).foldlM (Mark.openBehind? canonical) []).isSome

instance (canonical : Text → Text) (t : Marked) : Decidable (t.Balanced canonical) :=
  inferInstanceAs (Decidable (Option.isSome _ = true))

/-- A text without tags. -/
def ofPlain (t : Text) : Marked := ⟨t, []⟩

end Marked

/-- A console without colours that reads markup: it shows a text without its tags where the text
`fits` on a line, and refuses a text in which a tag closes what is not open. -/
structure ReadsMarkup (console : Console) (canonical : Text → Text) (fits : Text → Prop) :
    Prop where
  shows : ∀ t : Marked, t.WellFormed → t.Balanced canonical → fits t.shown →
    console.text t.source = .ok (encode (t.shown ++ "\n"))
  refuses : ∀ t : Marked, t.WellFormed → ¬ t.Balanced canonical →
    ∃ fault, console.text t.source = .error fault

section Plain

/-- A text without anything that markup is made of. -/
def IsBare (t : Text) : Prop := t.Visible ∧ .char '[' ∉ t ∧ .char '\\' ∉ t ∧ .char ':' ∉ t

instance (t : Text) : Decidable (IsBare t) :=
  inferInstanceAs (Decidable (t.Visible ∧ .char '[' ∉ t ∧ .char '\\' ∉ t ∧ .char ':' ∉ t))

variable {s t : Text}

theorem isBare_append : IsBare (s ++ t) ↔ IsBare s ∧ IsBare t := by
  simp only [IsBare, visible_append, List.mem_append, not_or]
  tauto

/-- Behind a bare text, a plain one stays plain. -/
theorem IsPlain.bare_append (hs : IsBare s) (ht : IsPlain t) : IsPlain (s ++ t) := by
  obtain ⟨hvisible, hbracket, hescape, hcolon⟩ := hs
  refine ⟨visible_append.2 ⟨hvisible, ht.visible⟩, ?_, ?_, ?_⟩
  . exact fun hmem => (List.mem_append.1 hmem).elim hescape ht.unescaped
  . rw [List.count_append, List.count_eq_zero.2 hcolon, Nat.zero_add]
    exact ht.uncoded
  . refine List.isChain_append.2 ⟨?_, ht.untagged, ?_⟩
    . refine List.Pairwise.isChain (List.pairwise_of_forall_mem_list fun a ha _ _ => ?_)
      rintro rfl
      exact absurd ha hbracket
    . rintro a ha _ _ rfl
      exact absurd (List.mem_of_getLast? ha) hbracket

theorem isPlain_nil : IsPlain [] := by decide

theorem IsBare.isPlain (h : IsBare t) : IsPlain t := by
  rw [← List.append_nil t]
  exact isPlain_nil.bare_append h

theorem isPlain_colon_cons (h : IsBare t) : IsPlain (.char ':' :: t) := by
  have hplain := h.isPlain
  obtain ⟨_, _, _, hcolon⟩ := h
  refine ⟨List.forall_mem_cons.2 ⟨by decide, hplain.visible⟩, ?_, ?_, ?_⟩
  . exact List.not_mem_cons_of_ne_of_not_mem (by decide) hplain.unescaped
  . rw [List.count_cons_self, List.count_eq_zero.2 hcolon]
  . cases t with
    | nil => exact .singleton _
    | cons a t => exact .cons_cons (by simp) hplain.untagged

end Plain

section Length

theorem length_encode_pos (m : Mark) : 0 < (encode m.source).length := by
  cases m with
  | opening style => exact Nat.zero_lt_succ _
  | closing style => exact Nat.zero_lt_succ _

theorem length_spans (spans : List (Mark × Text)) :
    spans = [] ∨ (encode (spans.flatMap Prod.snd)).length <
      (encode (spans.flatMap fun span => span.1.source ++ span.2)).length := by
  induction spans with
  | nil => exact .inl rfl
  | cons span spans ih =>
    have hpos := length_encode_pos span.1
    have hle : (encode (spans.flatMap Prod.snd)).length ≤
        (encode (spans.flatMap fun span => span.1.source ++ span.2)).length := by
      rcases ih with rfl | hlt
      . exact Nat.le_refl _
      . exact Nat.le_of_lt hlt
    refine .inr ?_
    simp only [List.flatMap_cons, encode_append, List.length_append]
    omega

namespace Marked

variable (t : Marked)

/-- Tags take room where they are written. -/
theorem length_shown :
    t.spans = [] ∨ (encode t.shown).length < (encode t.source).length := by
  refine (length_spans t.spans).imp_right fun hlt => ?_
  rw [shown, source, encode_append, encode_append, List.length_append, List.length_append]
  exact Nat.add_lt_add_left hlt _

theorem length_shown_le : (encode t.shown).length ≤ (encode t.source).length := by
  rcases t.length_shown with hnil | hlt
  . rw [shown, source, hnil]
    exact Nat.le_refl _
  . exact Nat.le_of_lt hlt

end Marked

end Length

end Console

end Dvcs
