import Dvcs.Author
import Dvcs.Proofs.Text.Space

/-!
This module contains the way of authors through the form `Name <address>` and back.
-/

namespace Dvcs

namespace Author

open Text

/-- Authors whose form can be read in one way only. -/
structure Unambiguous (a : Author) : Prop where
  name : a.name.trim = a.name
  unmarked : Sym.char '<' ∉ a.name
  line : Sym.char '\n' ∉ a.name
  email : ∀ email ∈ a.email, email ≠ [] ∧ email.trim = email ∧ Sym.char '>' ∉ email

theorem address?_of_not_mem {t : Text} (h : Sym.char '<' ∉ t) : address? t = none := by
  have hsuffix : Sym.char '<' ∉ t.dropWhile Sym.isSpace :=
    fun hmem => h ((List.dropWhile_suffix _).subset hmem)
  unfold address?
  split
  . next heq =>
    rw [heq] at hsuffix
    exact absurd List.mem_cons_self hsuffix
  . rfl

theorem address?_closed {email : Text} (h : Sym.char '>' ∉ email) :
    address? (" <" ++ email ++ ">") = some email := by
  have hdrop : (" <" ++ email ++ ">" : Text).dropWhile Sym.isSpace =
      .char '<' :: (email ++ ofString ">") :=
    rfl
  have htake : (email ++ ">" : Text).takeWhile (· ≠ .char '>') = email := by
    rw [List.takeWhile_append_of_pos]
    . simp [ofString]
    . intro c hc
      simp only [decide_eq_true_eq]
      rintro rfl
      exact h hc
  unfold address?
  rw [hdrop]
  simp only [htake, List.drop_left]
  rfl

/-- An address does not begin inside of a word. -/
theorem address?_append_of_ne_nil {t : Text} (hmark : Sym.char '<' ∉ t)
    (hlast : ∀ c ∈ t.getLast?, c.isSpace = false) (hne : t ≠ []) (rest : Text) :
    address? (t ++ rest) = none := by
  have hkept : t.dropWhile Sym.isSpace ≠ [] := by
    intro hall
    have hspace := List.dropWhile_eq_nil_iff.1 hall _ (List.getLast_mem hne)
    rw [hlast _ (List.getLast?_eq_some_getLast hne)] at hspace
    contradiction
  obtain ⟨c, kept, heq⟩ := List.exists_cons_of_ne_nil hkept
  have hdrop : (t ++ rest).dropWhile Sym.isSpace = c :: (kept ++ rest) := by
    rw [List.dropWhile_append, heq]
    rfl
  have hc : c ≠ '<' := by
    rintro rfl
    exact hmark ((List.dropWhile_suffix Sym.isSpace).subset (by rw [heq]; exact List.mem_cons_self))
  unfold address?
  rw [hdrop]
  split
  . next heq =>
    cases heq
    contradiction
  . rfl

theorem split?_of_not_mem {t : Text} (h : Sym.char '<' ∉ t) : split? t = none := by
  induction t with
  | nil => rfl
  | cons c t ih =>
    rw [split?, address?_of_not_mem h, ih fun hmem => h (List.mem_cons_of_mem c hmem)]
    simp

theorem split?_append {name : Text} (hmark : Sym.char '<' ∉ name) (hline : Sym.char '\n' ∉ name)
    (hlast : ∀ c ∈ name.getLast?, c.isSpace = false) {email : Text}
    (hemail : Sym.char '>' ∉ email) :
    split? (name ++ (" <" ++ email ++ ">")) = some (name, email) := by
  induction name with
  | nil =>
    have haddress := address?_closed hemail
    rw [List.nil_append]
    unfold split?
    split
    . next heq => simp [ofString] at heq
    . next heq => rw [← heq, haddress]
  | cons c name ih =>
    have hnone := address?_append_of_ne_nil hmark hlast (List.cons_ne_nil c name)
      (" <" ++ email ++ ">")
    rw [List.mem_cons, not_or] at hmark hline
    have hrest : split? (name ++ (" <" ++ email ++ ">")) = some (name, email) := by
      apply ih hmark.2 hline.2
      cases name with
      | nil => simp
      | cons d name => simpa using hlast
    rw [List.cons_append] at hnone ⊢
    rw [split?, hnone]
    simp only
    rw [if_neg (Ne.symm hline.1), hrest]
    rfl

theorem toText_of_email {name email : Text} (h : email ≠ []) :
    (⟨name, some email⟩ : Author).toText = name ++ " <" ++ email ++ ">" := by
  cases email with
  | nil => contradiction
  | cons c email => rfl

theorem ofText_toText {a : Author} (h : a.Unambiguous) : ofText a.toText = a := by
  obtain ⟨name, email⟩ := a
  cases email with
  | none =>
    have htext : (⟨name, none⟩ : Author).toText = name := rfl
    unfold ofText
    rw [htext, split?_of_not_mem h.unmarked, h.name]
  | some email =>
    obtain ⟨hne, htrim, hclosed⟩ := h.email email rfl
    have hlast := (ends_of_trim_eq_self h.name).2
    have hsplit := split?_append h.unmarked h.line hlast hclosed
    have htext : (⟨name, some email⟩ : Author).toText = name ++ (" <" ++ email ++ ">") := by
      rw [toText_of_email hne]
      simp only [List.append_assoc]
    unfold ofText
    rw [htext, hsplit]
    simp only [h.name, htrim]
    cases email with
    | nil => contradiction
    | cons c email => rfl

end Author

end Dvcs
