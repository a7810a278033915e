import Dvcs.Hunk.Block
import Dvcs.Proofs.Range

/-!
This module contains the grammar of block headers: which lines are headers, and which ranges they
tell.
-/

namespace Dvcs

namespace Hunk

open Text

theorem takeDigits_append {digits : Text} (h : ∀ c ∈ digits, c.isDigit = true) {c : Sym}
    (hc : c.isDigit = false) (rest : Text) :
    takeDigits (digits ++ c :: rest) = (digits, c :: rest) :=
  span_append h (by simp [hc])

theorem takeRange?_append {t : Text} (h : Range.Shape t) (rest : Text) :
    takeRange? (t ++ .char ' ' :: rest) = some (t, .char ' ' :: rest) := by
  cases h with
  | single hne hstart =>
    have hfirst := takeDigits_append hstart (c := ' ') (by decide) rest
    obtain ⟨c, start, rfl⟩ := List.exists_cons_of_ne_nil hne
    unfold takeRange?
    rw [hfirst]
    rfl
  | @counted start count hne hstart hne' hcount =>
    have hfirst := takeDigits_append hstart (c := ',') (by decide) (count ++ .char ' ' :: rest)
    have hsecond := takeDigits_append hcount (c := ' ') (by decide) rest
    obtain ⟨c, start, rfl⟩ := List.exists_cons_of_ne_nil hne
    obtain ⟨d, count, rfl⟩ := List.exists_cons_of_ne_nil hne'
    have htext : c :: start ++ .char ',' :: (d :: count) ++ .char ' ' :: rest =
        c :: start ++ .char ',' :: (d :: count ++ .char ' ' :: rest) := by
      simp
    unfold takeRange?
    rw [htext, hfirst]
    simp only [hsecond]
    rw [List.append_assoc]
    rfl

theorem shape_of_takeRange? {t text rest : Text} (h : takeRange? t = some (text, rest)) :
    t = text ++ rest ∧ Range.Shape text := by
  have hdigits (u : Text) : ∀ c ∈ u.takeWhile Sym.isDigit, c.isDigit = true :=
    fun c hc => List.mem_takeWhile_imp hc
  unfold takeRange? takeDigits at h
  rw [List.span_eq_takeWhile_dropWhile] at h
  split at h
  . contradiction
  . next start rest' hne heq =>
    obtain ⟨rfl, rfl⟩ := Prod.mk.inj heq
    have hstart : t.takeWhile Sym.isDigit ≠ [] := hne
    have happend := List.takeWhile_append_dropWhile (p := Sym.isDigit) (l := t)
    split at h
    . next behind hbehind =>
      rw [List.span_eq_takeWhile_dropWhile] at h
      split at h
      . cases h
        exact ⟨happend.symm, .single hstart (hdigits t)⟩
      . next count rest'' hne' heq' =>
        obtain ⟨rfl, rfl⟩ := Prod.mk.inj heq'
        have hcount : behind.takeWhile Sym.isDigit ≠ [] := hne'
        cases h
        have happend' := List.takeWhile_append_dropWhile (p := Sym.isDigit) (l := behind)
        constructor
        . conv => lhs; rw [← happend, hbehind, ← happend']
          simp [ofString]
        . have hshape := Range.Shape.counted hstart (hdigits t) hcount (hdigits behind)
          simpa [ofString] using hshape
    . cases h
      exact ⟨happend.symm, .single hstart (hdigits t)⟩

/-- The lines that are headers of blocks with certain ranges. Any text may stand behind the end
mark. -/
def Heads (line : Text) (s t : Range) : Prop :=
  ∃ source target heading, line = "@@ -" ++ source ++ " +" ++ target ++ " @@" ++ heading ∧
    Range.Spelled source s ∧ Range.Spelled target t

theorem headerRanges?_append {source target : Text} (hsource : Range.Shape source)
    (htarget : Range.Shape target) (heading : Text) :
    headerRanges? ("@@ -" ++ source ++ " +" ++ target ++ " @@" ++ heading) =
      some (source, target) := by
  have hfirst := takeRange?_append hsource (.char '+' :: (target ++ (" @@" ++ heading)))
  have hsecond := takeRange?_append htarget ("@@" ++ heading)
  unfold headerRanges?
  simp only [List.append_assoc, after?_append, Option.bind_eq_bind, Option.bind_some]
  simp only [ofString] at hfirst hsecond ⊢
  simp at hfirst hsecond ⊢
  simp [hfirst, hsecond, after?]

theorem shape_of_headerRanges? {line source target : Text}
    (h : headerRanges? line = some (source, target)) :
    ∃ heading, line = "@@ -" ++ source ++ " +" ++ target ++ " @@" ++ heading ∧
      Range.Shape source ∧ Range.Shape target := by
  unfold headerRanges? at h
  simp only [Option.bind_eq_bind, Option.bind_eq_some_iff, Prod.exists] at h
  obtain ⟨t, ht, _, t', hsource, t'', ht'', _, u, htarget, heading, hheading, heq⟩ := h
  cases heq
  obtain ⟨htext, hsource'⟩ := shape_of_takeRange? hsource
  obtain ⟨htext', htarget'⟩ := shape_of_takeRange? htarget
  refine ⟨heading, ?_, hsource', htarget'⟩
  rw [eq_append_of_after? ht, htext, eq_append_of_after? ht'', htext',
    eq_append_of_after? hheading]
  simp only [List.append_assoc]

/-- The headers that are read are those of the grammar. -/
theorem heads_iff {line : Text} {s t : Range} :
    Heads line s t ↔ ∃ source target, headerRanges? line = some (source, target) ∧
      Range.ofText source = .ok s ∧ Range.ofText target = .ok t := by
  constructor
  . rintro ⟨source, target, heading, rfl, hsource, htarget⟩
    exact ⟨source, target, headerRanges?_append hsource.shape htarget.shape heading,
      (Range.ofText_eq_ok_iff hsource.shape).2 hsource,
      (Range.ofText_eq_ok_iff htarget.shape).2 htarget⟩
  . rintro ⟨source, target, hranges, hs, ht⟩
    obtain ⟨heading, hline, hsource, htarget⟩ := shape_of_headerRanges? hranges
    exact ⟨source, target, heading, hline, (Range.ofText_eq_ok_iff hsource).1 hs,
      (Range.ofText_eq_ok_iff htarget).1 ht⟩

end Hunk

end Dvcs
