import Dvcs.Patch.Extended
import Dvcs.Proofs.Range

/-!
This module contains where the paths in the lines of a diff come from: each of them is read from a
part of its line, and a path that cannot be read is such a part with a broken escape.
-/

namespace Dvcs

namespace Path

open Text

/-- Some part of a text is a quoted path that cannot be read. -/
def Broken (t : Text) (e : QuoteError) : Prop := ∃ part, part <:+: t ∧ unquote part = .error e

theorem Broken.mono {s t : Text} {e : QuoteError} (h : Broken s e) (hpart : s <:+: t) :
    Broken t e := by
  obtain ⟨part, hs, he⟩ := h
  exact ⟨part, hs.trans hpart, he⟩

theorem Broken.of_unquote {t : Text} {e : QuoteError} (h : unquote t = .error e) : Broken t e :=
  ⟨t, List.infix_rfl, h⟩

theorem cutQuoted_append (t : Text) : (cutQuoted t).1 ++ (cutQuoted t).2 = t := by
  fun_induction cutQuoted t with
  | case1 => rfl
  | case2 => rfl
  | case3 c t quoted rest heq ih =>
    rw [heq] at ih
    simpa using ih
  | case4 => rfl
  | case5 c t _ _ _ quoted rest heq ih =>
    rw [heq] at ih
    simpa using ih

theorem infix_of_halves? {t a b : Text} (h : halves? t = some (a, b)) : a <:+: t ∧ b <:+: t := by
  unfold halves? at h
  dsimp only at h
  split at h
  . cases h
    exact ⟨(List.take_prefix _ t).isInfix, (List.drop_suffix _ t).isInfix⟩
  . contradiction

/-- The first symbol of the separator stands between the two parts. -/
theorem infix_of_cut? {c : Sym} {sep t a b : Text} (h : cut? (c :: sep) t = some (a, b)) :
    a <:+: t ∧ sep ++ b <:+: t := by
  obtain rfl := eq_append_of_cut? h
  constructor
  . rw [List.append_assoc]
    exact (List.prefix_append a _).isInfix
  . rw [List.append_cons, List.append_assoc]
    exact (List.suffix_append _ _).isInfix

theorem infix_of_splitPair? {t a b : Text} (h : splitPair? t = some (a, b)) :
    a <:+: t ∧ b <:+: t := by
  unfold splitPair? at h
  split at h
  . next rest =>
    have happend := cutQuoted_append rest
    generalize cutQuoted rest = cut at h happend
    obtain ⟨quoted, behind⟩ := cut
    cases h
    obtain rfl : quoted ++ behind = rest := happend
    constructor
    . exact (List.prefix_append _ behind).isInfix
    . have hsuffix : behind <:+ .char '"' :: (quoted ++ behind) :=
        ⟨.char '"' :: quoted, rfl⟩
      exact ((List.dropWhile_suffix _).trans hsuffix).isInfix
  . split at h
    . next first second hcut =>
      cases h
      split at hcut
      . exact infix_of_cut? hcut
      . contradiction
    . split at h
      . next hhalves =>
        cases h
        exact infix_of_halves? hhalves
      . obtain ⟨⟨first, second⟩, hcut, heq⟩ := Option.map_eq_some_iff.1 h
        cases heq
        exact infix_of_cut? hcut

theorem broken_of_readPair {t : Text} {e : QuoteError} (h : readPair t = .error e) :
    Broken t e := by
  unfold readPair at h
  split at h
  . contradiction
  . next a b hsplit =>
    obtain ⟨ha, hb⟩ := infix_of_splitPair? hsplit
    cases hsource : unquote a with
    | error e' =>
      rw [hsource] at h
      cases h
      exact ⟨a, ha, hsource⟩
    | ok source =>
      cases htarget : unquote b with
      | error e' =>
        rw [hsource, htarget] at h
        cases h
        exact ⟨b, hb, htarget⟩
      | ok target =>
        rw [hsource, htarget] at h
        cases h

end Path

namespace Patch

open Dvcs.Path Text

theorem prefix_dropNewline (t : Text) : dropNewline t <+: t := Range.prefix_dropNewline t

theorem eq_append_of_cutLast? {sep t a b : Text} (h : cutLast? sep t = some (a, b)) :
    t = a ++ sep ++ b := by
  induction t generalizing a with
  | nil => contradiction
  | cons c t ih =>
    rw [cutLast?] at h
    split at h
    . next hlater =>
      cases h
      rw [ih hlater]
      rfl
    . split at h
      . next hafter =>
        cases h
        rw [eq_append_of_after? hafter]
        rfl
      . contradiction

theorem infix_of_binaryNames? {line a b : Text} (h : binaryNames? line = some (a, b)) :
    a <:+: line ∧ b <:+: line := by
  unfold binaryNames? at h
  obtain ⟨t, hafter, h⟩ := Option.bind_eq_some_iff.1 h
  obtain ⟨names, hbefore, h⟩ := Option.bind_eq_some_iff.1 h
  have hnames : names <:+: line :=
    ((prefix_of_before? hbefore).trans (prefix_dropNewline t)).isInfix.trans
      (suffix_of_after? hafter).isInfix
  split at h
  . contradiction
  . have happend := eq_append_of_cutLast? h
    rw [happend] at hnames
    constructor
    . refine List.IsInfix.trans ?_ hnames
      rw [List.append_assoc]
      exact (List.prefix_append a _).isInfix
    . exact ((List.suffix_append _ b).isInfix).trans hnames

theorem broken_of_headerPath {dir t : Text} {e : QuoteError} (h : headerPath dir t = .error e) :
    Broken t e := by
  unfold headerPath at h
  dsimp only at h
  split at h
  . contradiction
  . refine Broken.mono (.of_unquote ?_) (List.takeWhile_prefix (· ≠ .char '\t')).isInfix
    generalize unquote (t.takeWhile (· ≠ .char '\t')) = path at h ⊢
    cases path with
    | error e' =>
      cases h
      rfl
    | ok path => contradiction

theorem broken_of_headerPaths {source target : Text} {e : ReadError}
    (h : headerPaths source target = .error e) :
    ∃ q, e = .quote q ∧ (Broken source q ∨ Broken target q) := by
  unfold headerPaths at h
  split at h
  . next q hsource =>
    cases h
    exact ⟨q, rfl, .inl (broken_of_headerPath hsource)⟩
  . next q htarget _ =>
    cases h
    exact ⟨q, rfl, .inr (broken_of_headerPath htarget)⟩
  . contradiction

theorem broken_of_unquoted {t : Text} {e : ReadError} (h : unquoted t = .error e) :
    ∃ q, e = .quote q ∧ Broken t q := by
  unfold unquoted at h
  split at h
  . contradiction
  . next q hquote =>
    cases h
    exact ⟨q, rfl, .of_unquote hquote⟩

end Patch

end Dvcs
