import Dvcs.Text.Space
import Mathlib.Data.List.TakeWhile

/-!
This module contains the laws of trimming and of splitting into words, for texts without white space
of their own.
-/

namespace Dvcs

namespace Text

theorem dropWhile_eq_self {p : Sym → Bool} {t : Text} (h : ∀ s ∈ t, p s = false) :
    t.dropWhile p = t := by
  cases t with
  | nil => rfl
  | cons c t =>
    rw [List.dropWhile_cons_of_neg]
    simp [h c List.mem_cons_self]

theorem dropEndWhile_eq_self {p : Sym → Bool} {t : Text} (h : ∀ s ∈ t, p s = false) :
    dropEndWhile p t = t := by
  unfold dropEndWhile
  rw [dropWhile_eq_self]
  . rw [List.reverse_reverse]
  . intro s hs
    exact h s (List.mem_reverse.1 hs)

theorem trim_eq_self {t : Text} (h : ∀ s ∈ t, s.isSpace = false) : trim t = t := by
  unfold trim trimLeft trimRight
  rw [dropWhile_eq_self h]
  rw [dropEndWhile_eq_self h]

theorem head?_of_dropWhile_eq_self {p : Sym → Bool} {t : Text} (h : t.dropWhile p = t) :
    ∀ c ∈ t.head?, p c = false := by
  cases t with
  | nil => nofun
  | cons c t =>
    rintro _ ⟨⟩
    cases hc : p c with
    | false => rfl
    | true =>
      have hlength := (List.dropWhile_sublist (l := t) p).length_le
      rw [List.dropWhile_cons_of_pos hc] at h
      rw [h, List.length_cons] at hlength
      omega

theorem dropEndWhile_append_replicate (c : Sym) (t : Text) (k : Nat) :
    (t ++ List.replicate k c).dropEndWhile (· = c) = t.dropEndWhile (· = c) := by
  unfold dropEndWhile
  rw [List.reverse_append, List.reverse_replicate]
  rw [List.dropWhile_append_of_pos]
  intro s hs
  simpa using List.eq_of_mem_replicate hs

theorem dropEndWhile_append_of_ne_nil {p : Sym → Bool} {s t : Text} (hne : t ≠ [])
    (h : ∀ c ∈ t, p c = false) : dropEndWhile p (s ++ t) = s ++ t := by
  unfold dropEndWhile
  rw [List.reverse_append]
  obtain ⟨c, rest, hrest⟩ := List.exists_cons_of_ne_nil (List.reverse_ne_nil_iff.2 hne)
  have hc : p c = false := by
    apply h
    rw [← List.mem_reverse, hrest]
    exact List.mem_cons_self
  rw [hrest, List.cons_append, List.dropWhile_cons_of_neg (by simp [hc])]
  rw [← List.cons_append, ← hrest, ← List.reverse_append, List.reverse_reverse]

theorem length_dropEndWhile_le (p : Sym → Bool) (t : Text) :
    (dropEndWhile p t).length ≤ t.length := by
  have h := (List.dropWhile_sublist (l := t.reverse) p).length_le
  rw [List.length_reverse] at h
  unfold dropEndWhile
  rwa [List.length_reverse]

theorem ends_of_trim_eq_self {t : Text} (h : t.trim = t) :
    (∀ c ∈ t.head?, c.isSpace = false) ∧ ∀ c ∈ t.getLast?, c.isSpace = false := by
  unfold trim trimLeft trimRight at h
  have hfirst : t.dropWhile Sym.isSpace = t := by
    apply (List.dropWhile_sublist _).eq_of_length_le
    have hlength := length_dropEndWhile_le Sym.isSpace (t.dropWhile Sym.isSpace)
    rwa [h] at hlength
  rw [hfirst] at h
  have hlast : t.reverse.dropWhile Sym.isSpace = t.reverse := List.reverse_eq_iff.1 h
  refine ⟨head?_of_dropWhile_eq_self hfirst, ?_⟩
  have hends := head?_of_dropWhile_eq_self hlast
  rwa [List.head?_reverse] at hends

theorem trim_eq_self_of_ends {t : Text} (hfirst : ∀ c ∈ t.head?, c.isSpace = false)
    (hlast : ∀ c ∈ t.getLast?, c.isSpace = false) : t.trim = t := by
  have hself (u : Text) (h : ∀ c ∈ u.head?, c.isSpace = false) :
      u.dropWhile Sym.isSpace = u := by
    cases u with
    | nil => rfl
    | cons c u => rw [List.dropWhile_cons_of_neg (by simp [h c rfl])]
  unfold trim trimLeft trimRight dropEndWhile
  rw [hself t hfirst, hself t.reverse (by simpa using hlast), List.reverse_reverse]

theorem trim_cons_of_isSpace {c : Sym} (h : c.isSpace = true) (t : Text) :
    trim (c :: t) = t.trim := by
  unfold trim trimLeft
  rw [List.dropWhile_cons_of_pos h]

theorem trim_concat_of_isSpace {c : Sym} (h : c.isSpace = true) (t : Text) :
    trim (t ++ [c]) = t.trim := by
  have hright (u : Text) : trimRight (u ++ [c]) = trimRight u := by
    unfold trimRight dropEndWhile
    rw [List.reverse_append, List.reverse_singleton, List.singleton_append,
      List.dropWhile_cons_of_pos h]
  unfold trim trimLeft
  rw [List.dropWhile_append]
  split
  . next hempty =>
    rw [List.isEmpty_iff.1 hempty, List.dropWhile_cons_of_pos h]
    rfl
  . exact hright _

theorem words_append {w : Text} (rest : Text) (hne : w ≠ []) (hw : ∀ s ∈ w, s.isSpace = false)
    (hrest : ∀ s ∈ rest.head?, s.isSpace = true) : words (w ++ rest) = w :: words rest := by
  induction w with
  | nil => contradiction
  | cons c w ih =>
    rw [List.forall_mem_cons] at hw
    conv => lhs; unfold words
    rw [List.cons_append]
    simp only [hw.1, Bool.false_eq_true, ↓reduceIte]
    cases w with
    | nil =>
      cases rest with
      | nil => rfl
      | cons d rest =>
        have hd := hrest d rfl
        simp only [List.nil_append]
        generalize words (d :: rest) = ws
        cases ws <;> simp [hd]
    | cons d w =>
      have hd : d.isSpace = false := hw.2 d List.mem_cons_self
      rw [ih (by simp) hw.2]
      simp [hd]

theorem words_join {ts : List Text} (h : ∀ t ∈ ts, t ≠ [] ∧ ∀ s ∈ t, s.isSpace = false) :
    words (join " " ts) = ts := by
  unfold join
  induction ts with
  | nil => rfl
  | cons t ts ih =>
    rw [List.forall_mem_cons] at h
    cases ts with
    | nil =>
      have := words_append [] h.1.1 h.1.2 (by simp)
      simpa [words] using this
    | cons u ts =>
      rw [List.intercalate_cons_cons]
      rw [List.append_assoc]
      rw [words_append _ h.1.1 h.1.2 (by simp [ofString, Sym.isSpace])]
      have : words ((" " : Text) ++ List.intercalate " " (u :: ts)) =
          words (List.intercalate " " (u :: ts)) := rfl
      rw [this]
      rw [ih h.2]

end Text

end Dvcs
