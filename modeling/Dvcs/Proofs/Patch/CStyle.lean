import Dvcs.Proofs.Patch.Lines
import Dvcs.Proofs.Path.CStyle

/-!
This module contains the characters that are seen in the headers of patches: all of them are
printable ones of ASCII, but for the control characters that the quoting of paths spares.
-/

namespace Dvcs

namespace Text

/-- A text of printable characters of ASCII. -/
def Printable (t : Text) : Prop := ∀ c ∈ t, c.isPrintable = true

instance (t : Text) : Decidable (Printable t) :=
  inferInstanceAs (Decidable (∀ c ∈ t, c.isPrintable = true))

theorem printable_append {s t : Text} : Printable (s ++ t) ↔ Printable s ∧ Printable t :=
  List.forall_mem_append

theorem printable_ofNat (n : Nat) : Printable (ofNat n) := by
  intro s hs
  obtain ⟨c, rfl, hc⟩ := isDigit_of_mem_ofNat hs
  rw [Char.isDigit_iff_toNat] at hc
  simp only [Sym.isPrintable, Bool.and_eq_true, decide_eq_true_eq]
  change 48 ≤ c.toNat ∧ c.toNat ≤ 57 at hc
  omega

theorem printable_ofInt (i : Int) : Printable (ofInt i) := by
  cases i with
  | ofNat n => exact printable_ofNat n
  | negSucc n =>
    exact printable_append.2 ⟨(by decide : Printable [.char '-']), printable_ofNat (n + 1)⟩

end Text

open Text

theorem Hash.printable_hex (h : Hash) : Printable h.hex := by
  intro s hs
  have hdigit := Hash.isHexDigit_of_mem hs
  cases s with
  | byte b => contradiction
  | char c =>
    simp only [Hash.isHexDigit, Bool.or_eq_true, Bool.and_eq_true, decide_eq_true_eq] at hdigit
    simp only [Sym.isPrintable, Bool.and_eq_true, decide_eq_true_eq]
    simp only [Char.le_def, UInt32.le_iff_toNat_le] at hdigit
    change 48 ≤ c.toNat ∧ c.toNat ≤ 57 ∨ 97 ≤ c.toNat ∧ c.toNat ≤ 102 at hdigit
    omega

namespace Path

/-- A path whose quoted form is git's. -/
def SparesNone (t : Text) : Prop := ∀ c ∈ t, isSpared c = false

theorem printable_quote_iff {t : Text} : Printable (quote t) ↔ SparesNone t := by
  have hfilter := congrArg (· = []) (filter_quote t)
  simpa [List.filter_eq_nil_iff, Printable, SparesNone] using hfilter

theorem sparesNone_append {s t : Text} : SparesNone (s ++ t) ↔ SparesNone s ∧ SparesNone t :=
  List.forall_mem_append

end Path

namespace Patch

open Dvcs.Path (SparesNone printable_quote_iff sparesNone_append)

/-- The text of the source path in headers. -/
def sourceName (p : Patch) : Text := pathText (p.source.path <|> p.target.path)

/-- The text of the target path in headers. -/
def targetName (p : Patch) : Text := pathText (p.target.path <|> p.source.path)

/-- The lines that name the two sides of the content. -/
def nameLines (p : Patch) : List Text :=
  let old := contentLabel p.source.path p.sourceLabel
  let new := contentLabel p.target.path p.targetLabel
  if p.binary then ["Binary files " ++ old ++ " and " ++ new ++ " differ"]
  else if p.hunks = [] then []
  else ["--- " ++ old, "+++ " ++ new]

/-- The lines of a patch outside of its hunks. -/
def outerLines (p : Patch) : List Text :=
  (patchHeader ++ p.sourceLabel ++ " " ++ p.targetLabel) :: (p.headLines ++ p.nameLines)

theorem render_eq_outerLines (p : Patch) :
    p.render = p.outerLines ++ if p.binary then [] else p.hunks.flatMap Hunk.render := by
  have hcontent : p.contentLines =
      p.nameLines ++ if p.binary then [] else p.hunks.flatMap Hunk.render := by
    rw [contentLines_eq, nameLines]
    split
    . rfl
    . split
      . next hnone => simp [hnone]
      . rfl
  unfold render outerLines headLines
  rw [hcontent]
  simp only [List.cons_append, List.append_assoc]

theorem printable_sourceLabel_iff {p : Patch} :
    Printable p.sourceLabel ↔ SparesNone p.sourceName := by
  have hside : SparesNone "a/" := by unfold SparesNone; decide
  unfold sourceLabel
  rw [printable_quote_iff, sparesNone_append]
  exact and_iff_right hside

theorem printable_targetLabel_iff {p : Patch} :
    Printable p.targetLabel ↔ SparesNone p.targetName := by
  have hside : SparesNone "b/" := by unfold SparesNone; decide
  unfold targetLabel
  rw [printable_quote_iff, sparesNone_append]
  exact and_iff_right hside

theorem printable_mode {label : String} (h : label ∈ modeLabels) (type : FileType) :
    Printable (label ++ type.mode) := by
  have hlabel : ∀ label ∈ modeLabels, Printable (ofString label) := by decide
  have hmode : Printable type.mode := by cases type <;> decide
  exact printable_append.2 ⟨hlabel _ h, hmode⟩

theorem printable_modeLines {p : Patch} : ∀ line ∈ p.modeLines, Printable line := by
  intro line h
  unfold modeLines at h
  split at h
  . obtain ⟨type, _, rfl⟩ := List.mem_map.1 h
    exact printable_mode (by decide) type
  . obtain ⟨type, _, rfl⟩ := List.mem_map.1 h
    exact printable_mode (by decide) type
  . split at h
    . next s t _ _ =>
      split at h
      . contradiction
      . simp only [List.mem_cons, List.not_mem_nil, or_false] at h
        rcases h with rfl | rfl
        . exact printable_mode (by decide) s
        . exact printable_mode (by decide) t
    . contradiction

theorem printable_indexLine (s t : Hash) (type : Option FileType) :
    Printable (indexLine s t type) := by
  have hsuffix : Printable (modeSuffix type) := by
    rcases type with _ | (_ | _) <;> decide
  unfold indexLine
  simp only [printable_append]
  exact ⟨⟨⟨⟨by decide, s.printable_hex⟩, by decide⟩, t.printable_hex⟩, hsuffix⟩

theorem printable_indexLines {p : Patch} : ∀ line ∈ p.indexLines, Printable line := by
  intro line h
  cases hs : p.source.hash with
  | none => simp [indexLines, hs] at h
  | some s =>
    cases ht : p.target.hash with
    | none => simp [indexLines, hs, ht] at h
    | some t =>
      rw [indexLines_of_hashes hs ht] at h
      rw [List.mem_singleton.1 h]
      exact printable_indexLine s t _

theorem sparesNone_pathText {p q : Option Path} (h : SparesNone (pathText (p <|> q))) :
    SparesNone (pathText p) := by
  cases p with
  | none => unfold SparesNone; decide
  | some p => exact h

theorem printable_moveLines {p : Patch} (hsource : SparesNone p.sourceName)
    (htarget : SparesNone p.targetName) {verb : Text} (hverb : Printable verb) :
    ∀ line ∈ p.moveLines verb, Printable line := by
  intro line h
  unfold moveLines at h
  rcases List.mem_append.1 h with h | h
  . obtain ⟨score, _, rfl⟩ := List.mem_map.1 h
    simp only [printable_append]
    exact ⟨⟨by decide, printable_ofInt score⟩, by decide⟩
  . simp only [List.mem_cons, List.not_mem_nil, or_false] at h
    rcases h with rfl | rfl
    . simp only [printable_append, printable_quote_iff]
      exact ⟨⟨hverb, by decide⟩, sparesNone_pathText hsource⟩
    . simp only [printable_append, printable_quote_iff]
      exact ⟨⟨hverb, by decide⟩, sparesNone_pathText htarget⟩

theorem printable_similarityLines {p : Patch} (hsource : SparesNone p.sourceName)
    (htarget : SparesNone p.targetName) : ∀ line ∈ p.similarityLines, Printable line := by
  unfold similarityLines
  split
  . exact printable_moveLines hsource htarget (by decide)
  . exact printable_moveLines hsource htarget (by decide)
  . nofun

theorem printable_contentLabel {path : Option Path} {label : Text} (h : Printable label) :
    Printable (contentLabel path label) := by
  unfold contentLabel
  split
  . exact h
  . decide

theorem printable_nameLines {p : Patch} (hsource : Printable p.sourceLabel)
    (htarget : Printable p.targetLabel) : ∀ line ∈ p.nameLines, Printable line := by
  have hold : Printable (contentLabel p.source.path p.sourceLabel) :=
    printable_contentLabel hsource
  have hnew : Printable (contentLabel p.target.path p.targetLabel) :=
    printable_contentLabel htarget
  unfold nameLines
  split
  . simp only [List.forall_mem_singleton, printable_append]
    exact ⟨⟨⟨⟨by decide, hold⟩, by decide⟩, hnew⟩, by decide⟩
  . split
    . nofun
    . simp only [List.forall_mem_cons, printable_append]
      exact ⟨⟨by decide, hold⟩, ⟨by decide, hnew⟩, nofun⟩

theorem printable_outerLines_iff {p : Patch} :
    (∀ line ∈ p.outerLines, Printable line) ↔
      SparesNone p.sourceName ∧ SparesNone p.targetName := by
  constructor
  . intro h
    have hheader := h _ List.mem_cons_self
    simp only [printable_append] at hheader
    exact ⟨printable_sourceLabel_iff.1 hheader.1.1.2, printable_targetLabel_iff.1 hheader.2⟩
  . rintro ⟨hsource, htarget⟩
    have hold := printable_sourceLabel_iff.2 hsource
    have hnew := printable_targetLabel_iff.2 htarget
    simp only [outerLines, headLines, List.forall_mem_cons, List.forall_mem_append]
    refine ⟨?_, ⟨⟨printable_modeLines, ?_⟩, printable_indexLines⟩, ?_⟩
    . simp only [printable_append]
      exact ⟨⟨⟨by decide, hold⟩, by decide⟩, hnew⟩
    . exact printable_similarityLines hsource htarget
    . exact printable_nameLines hold hnew

/-- The quoting of a path is git's if and only if it holds no spared control character. The spared
ones are the only characters of its quoted form, and of the header lines of a patch that names it,
that are not printable. -/
theorem quote_cStyle {t : Text} (ht : HighStrays t) (p : Patch) :
    (Path.quote t = Path.cStyle (encode t) ↔ ∀ c ∈ t, Path.isSpared c = false) ∧
    (Path.quote t).filter (fun c => !c.isPrintable) = t.filter Path.isSpared ∧
    p.render = p.outerLines ++ (if p.binary then [] else p.hunks.flatMap Hunk.render) ∧
    ((∀ line ∈ p.outerLines, ∀ c ∈ line, c.isPrintable = true) ↔
      ∀ c ∈ p.sourceName ++ p.targetName, Path.isSpared c = false) :=
  ⟨Path.eq_cStyle_iff ht, Path.filter_quote t, render_eq_outerLines p,
    printable_outerLines_iff.trans sparesNone_append.symm⟩

/-- A renamed file whose new name holds a tab and a letter beyond ASCII. -/
def renamedPatch : Patch where
  source := { path := some (.ofText "a\"b") }
  target := { path := some (.ofText "caf\u00e9\t") }
  status := .renamed
  score := some 100

theorem quote_cStyle_renamedPatch :
    HighStrays "caf\u00e9\t" ∧ Path.quote "caf\u00e9\t" = Path.cStyle (encode "caf\u00e9\t") ∧
      ∀ line ∈ renamedPatch.outerLines, ∀ c ∈ line, c.isPrintable = true := by
  have ht : HighStrays "caf\u00e9\t" := highStrays_ofString _
  obtain ⟨hquote, _, _, hlines⟩ := quote_cStyle ht renamedPatch
  exact ⟨ht, hquote.2 (by decide), hlines.2 (by decide +kernel)⟩

/-- Git writes a carriage return as an escape, between quotes. -/
theorem quote_carriageReturn :
    Path.quote "a\rb" = "a\rb" ∧ Path.cStyle (encode "a\rb") = "\"a\\rb\"" := by
  decide +kernel

end Patch

end Dvcs
