import Dvcs.Console.Plain
import Dvcs.Proofs.Console.Markup
import Dvcs.Proofs.Text.Join
import Dvcs.Proofs.Text.Strict

/-!
This module contains that the console of this library reads markup: it takes the tags of a text for
what they are and everything else for itself.
-/

namespace Dvcs

namespace Console

open Text

namespace Plain

theorem startsTag_eq (s : Sym) : startsTag s = beginsTag s := by cases s <;> rfl

/-- A bracket opens no tag in front of a text that does not start like one. -/
theorem readTag_eq_none {t : Text} (h : ∀ s ∈ t.head?, beginsTag s = false) : readTag t = none := by
  cases t with
  | nil => rfl
  | cons s t =>
    have hs : startsTag s = false := (startsTag_eq s).trans (h s rfl)
    rw [readTag, if_neg (by simp [hs])]

theorem show?_nil (stack : List Text) : show? stack [] = some [] := by rw [show?]

theorem show?_cons_of_no_tag {stack : List Text} {s : Sym} {rest : Text} (hescape : s ≠ .char '\\')
    (htag : s = .char '[' → readTag rest = none) :
    show? stack (s :: rest) = (s :: ·) <$> show? stack rest := by
  have hnone : (if s = .char '[' then readTag rest else none) = none := by
    split
    . next hs => exact htag hs
    . rfl
  rw [show?]
  . split
    . next heq => rw [hnone] at heq; contradiction
    . rfl
  . rintro rest' rfl
    contradiction

theorem show?_tag {stack : List Text} {inner behind rest : Text}
    (h : readTag rest = some (inner, behind)) :
    show? stack (.char '[' :: rest) =
      (applyTag? stack inner).bind fun stack => show? stack behind := by
  rw [show?]
  . split
    . next heq =>
      rw [if_pos rfl, h] at heq
      cases heq
      rfl
    . next heq =>
      rw [if_pos rfl, h] at heq
      contradiction
  . rintro rest' ⟨⟩

/-- A plain text shows itself in front of a tag and at the end. -/
theorem show?_append {t rest : Text} (hescape : .char '\\' ∉ t)
    (huntagged : t.IsChain fun s next => s = .char '[' → beginsTag next = false)
    (hrest : ∀ s ∈ rest.head?, beginsTag s = false) (stack : List Text) :
    show? stack (t ++ rest) = (t ++ ·) <$> show? stack rest := by
  induction t with
  | nil =>
    rw [List.nil_append]
    exact (id_map (show? stack rest)).symm
  | cons s t ih =>
    rw [List.mem_cons, not_or] at hescape
    have htag (hs : s = .char '[') : readTag (t ++ rest) = none := by
      refine readTag_eq_none fun next hnext => ?_
      cases t with
      | nil => exact hrest next hnext
      | cons a t =>
        cases hnext
        exact (List.isChain_cons_cons.1 huntagged).1 hs
    rw [List.cons_append, show?_cons_of_no_tag (Ne.symm hescape.1) htag,
      ih hescape.2 huntagged.tail, Functor.map_map]
    rfl

theorem isNotBracket_of_isStyleSym {s : Sym} (h : isStyleSym s = true) : isNotBracket s = true := by
  cases s with
  | byte b => contradiction
  | char c =>
    simp only [isNotBracket, Bool.and_eq_true, decide_eq_true_eq]
    constructor <;>
    . rintro ⟨⟩
      contradiction

/-- Tags are read to their end. -/
theorem readTag_append {name : Text} (first : Sym) (hfirst : startsTag first = true)
    (hname : ∀ s ∈ name, isStyleSym s = true) (behind : Text) :
    readTag (first :: name ++ .char ']' :: behind) = some (first :: name, behind) := by
  have hpass : ∀ s ∈ name, isNotBracket s = true := fun s hs =>
    isNotBracket_of_isStyleSym (hname s hs)
  have hdrop : (name ++ .char ']' :: behind).dropWhile isNotBracket = .char ']' :: behind := by
    rw [List.dropWhile_append_of_pos hpass]
    rfl
  have htake : (name ++ .char ']' :: behind).takeWhile isNotBracket = name := by
    rw [List.takeWhile_append_of_pos hpass]
    exact List.append_nil name
  rw [List.cons_append, readTag, if_pos hfirst, hdrop, htake]
  rfl

theorem applyTag?_opening {name : Text} (h : IsStyleName name) (stack : List Text) :
    applyTag? stack name = some (name :: stack) := by
  obtain ⟨⟨c, rest, rfl, hc⟩, _⟩ := h
  have hslash : c ≠ '/' := by
    rintro rfl
    contradiction
  unfold applyTag?
  split
  . next heq => cases heq; contradiction
  . next heq => cases heq; contradiction
  . rfl

theorem applyTag?_closing {name : Text} (h : IsStyleName name) (stack : List Text) :
    applyTag? stack (.char '/' :: name) =
      if name ∈ stack then some (stack.erase name) else none := by
  obtain ⟨⟨c, rest, rfl, hc⟩, _⟩ := h
  simp only [applyTag?, List.contains_iff_mem]

theorem show?_source {m : Mark} (h : IsStyleName m.style) (stack : List Text) (rest : Text) :
    show? stack (m.source ++ rest) =
      (m.openBehind? id stack).bind fun stack => show? stack rest := by
  cases m with
  | opening name =>
    change IsStyleName name at h
    have happly := applyTag?_opening h stack
    obtain ⟨⟨c, name, rfl, hc⟩, hname⟩ := h
    have htag := readTag_append (.char c) (by simp [startsTag, hc])
      (fun s hs => hname s (List.mem_cons_of_mem _ hs)) rest
    have hsource : (Mark.opening (.char c :: name)).source ++ rest =
        .char '[' :: (.char c :: name ++ .char ']' :: rest) := by
      simp [Mark.source, ofString]
    rw [hsource, show?_tag htag, happly]
    rfl
  | closing name =>
    change IsStyleName name at h
    have htag := readTag_append (.char '/') rfl h.2 rest
    have hsource : (Mark.closing name).source ++ rest =
        .char '[' :: (.char '/' :: name ++ .char ']' :: rest) := by
      simp [Mark.source, ofString]
    rw [hsource, show?_tag htag, applyTag?_closing h]
    rfl

theorem head?_source (m : Mark) (rest : Text) : (m.source ++ rest).head? = some (.char '[') := by
  cases m <;> rfl

theorem head?_spans (spans : List (Mark × Text)) :
    ∀ s ∈ (spans.flatMap fun span => span.1.source ++ span.2).head?, beginsTag s = false := by
  cases spans with
  | nil => exact fun _ h => nomatch h
  | cons span spans =>
    rw [List.flatMap_cons, List.append_assoc, head?_source]
    rintro s ⟨⟩
    rfl

theorem show?_spans {spans : List (Mark × Text)}
    (h : ∀ span ∈ spans, IsStyleName span.1.style ∧ IsPlain span.2) (stack : List Text) :
    show? stack (spans.flatMap fun span => span.1.source ++ span.2) =
      ((spans.map Prod.fst).foldlM (Mark.openBehind? id) stack).map
        fun _ => spans.flatMap Prod.snd := by
  induction spans generalizing stack with
  | nil => exact show?_nil stack
  | cons span spans ih =>
    obtain ⟨m, behind⟩ := span
    rw [List.forall_mem_cons] at h
    obtain ⟨⟨hname, hplain⟩, hspans⟩ := h
    rw [List.flatMap_cons, List.append_assoc, show?_source hname, List.map_cons,
      List.foldlM_cons]
    cases m.openBehind? id stack with
    | none => rfl
    | some stack =>
      rw [Option.bind_some, show?_append hplain.unescaped hplain.untagged (head?_spans spans),
        ih hspans]
      cases hfold : (spans.map Prod.fst).foldlM (Mark.openBehind? id) stack <;> simp [hfold]

/-- What a text shows are its parts, if its tags fit together. -/
theorem show?_marked {t : Marked} (h : t.WellFormed) :
    show? [] t.source =
      ((t.spans.map Prod.fst).foldlM (Mark.openBehind? id) []).map fun _ => t.shown := by
  rw [Marked.source, show?_append h.front.unescaped h.front.untagged (head?_spans t.spans),
    show?_spans h.spans]
  exact Option.map_map ..

end Plain

theorem noStrays_of_visible {t : Text} (h : t.Visible) : NoStrays t := fun _ hb =>
  absurd (h _ hb) Bool.false_ne_true

theorem Marked.WellFormed.visible {t : Marked} (h : t.WellFormed) : t.shown.Visible := by
  refine visible_append.2 ⟨h.front.visible, fun s hs => ?_⟩
  obtain ⟨span, hspan, hs⟩ := List.mem_flatMap.1 hs
  exact (h.spans span hspan).2.visible s hs

theorem text_plain (width : Nat) (t : Text) :
    (plain width).text t = (do
      let shown ← Plain.shown t
      Plain.ofLines ((splitOn (.char '\n') shown).flatMap (Plain.wrapLine width))) := rfl

/-- The console of this library shows a text on one line where it is no longer than the line. -/
theorem readsMarkup_plain (width : Nat) :
    ReadsMarkup (plain width) id fun t => t.length ≤ width where
  shows t hwell hbalanced hfits := by
    obtain ⟨stack, hstack⟩ := Option.isSome_iff_exists.1 hbalanced
    have hshown : Plain.shown t.source = .ok t.shown := by
      rw [Plain.shown, Plain.show?_marked hwell, hstack]
      rfl
    have hline : Sym.char '\n' ∉ t.shown := fun hmem =>
      absurd (hwell.visible _ hmem) (by decide)
    have hlines : (splitOn (.char '\n') t.shown).flatMap (Plain.wrapLine width) = [t.shown] := by
      rw [splitOn_of_not_mem hline, List.flatMap_singleton, Plain.wrapLine, if_pos hfits]
    have hstrays : NoStrays (t.shown ++ "\n") :=
      noStrays_append.2 ⟨noStrays_of_visible hwell.visible, noStrays_ofString _⟩
    rw [text_plain, hshown]
    change Plain.ofLines ((splitOn (.char '\n') t.shown).flatMap (Plain.wrapLine width)) = _
    rw [hlines, Plain.ofLines, List.flatMap_singleton, encodeStrict,
      encodeStrictFrom_of_noStrays hstrays]
    rfl
  refuses t hwell hbalanced := by
    have hnone := Option.not_isSome_iff_eq_none.1 hbalanced
    refine ⟨⟨"a tag closes what is not open"⟩, ?_⟩
    rw [text_plain, Plain.shown, Plain.show?_marked hwell, hnone]
    rfl

end Console

end Dvcs
