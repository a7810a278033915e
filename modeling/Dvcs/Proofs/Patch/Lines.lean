import Dvcs.Proofs.Hunk.Block
import Dvcs.Proofs.Patch.Header

/-!
This module contains the lines that patches are written with. They have few forms, and all of them
but the lines of hunks are plain text.
-/

namespace Dvcs

namespace Patch

open Text

/-- The mode that the index line of a patch shows. -/
def sharedType (p : Patch) : Option FileType :=
  if p.source.type = p.target.type ∧ p.status ≠ .added ∧ p.status ≠ .deleted then p.source.type
  else none

theorem indexLines_of_hashes {p : Patch} {s t : Hash} (hs : p.source.hash = some s)
    (ht : p.target.hash = some t) : p.indexLines = [indexLine s t p.sharedType] := by
  unfold indexLines indexLine sharedType
  simp only [hs, ht]
  cases p.source.type with
  | none => simp [modeSuffix]
  | some type =>
    simp only [Bool.and_eq_true, decide_eq_true_eq, eq_comm (a := p.target.type), and_assoc]
    split <;> rfl

/-- The file that the content lines name on one side. -/
def contentLabel (path : Option Path) (label : Text) : Text :=
  if path.isSome then label else devNull

theorem contentLines_eq (p : Patch) :
    p.contentLines =
      if p.binary then
        ["Binary files " ++ contentLabel p.source.path p.sourceLabel ++ " and " ++
          contentLabel p.target.path p.targetLabel ++ " differ"]
      else if p.hunks = [] then []
      else
        ("--- " ++ contentLabel p.source.path p.sourceLabel) ::
          ("+++ " ++ contentLabel p.target.path p.targetLabel) :: p.hunks.flatMap Hunk.render :=
  rfl

theorem plain_contentLabel (path : Option Path) {label : Text} (h : Plain label) :
    Plain (contentLabel path label) := by
  unfold contentLabel
  split
  . exact h
  . decide

def modeLabels : List String := ["old mode ", "new mode ", "new file mode ", "deleted file mode "]

def pathLabels : List String := ["rename from ", "rename to ", "copy from ", "copy to "]

/-- The lines between the header of a patch and its content. -/
inductive HeadLine : Text → Prop where
  | mode {label : String} (h : label ∈ modeLabels) (type : FileType) :
    HeadLine (label ++ type.mode)
  | score (score : Int) : HeadLine ("similarity index " ++ Text.ofInt score ++ "%")
  | path (label : String) (h : label ∈ pathLabels) (t : Text) : HeadLine (label ++ Path.quote t)
  | index (s t : Hash) (type : Option FileType) : HeadLine (indexLine s t type)

/-- The lines of a patch outside of its hunks. -/
inductive OuterLine : Text → Prop where
  | paths (s t : Text) : OuterLine (patchHeader ++ Path.quote s ++ " " ++ Path.quote t)
  | head {line : Text} (h : HeadLine line) : OuterLine line
  | binary (p : Patch) :
    OuterLine ("Binary files " ++ contentLabel p.source.path p.sourceLabel ++ " and " ++
      contentLabel p.target.path p.targetLabel ++ " differ")
  | source (p : Patch) : OuterLine ("--- " ++ contentLabel p.source.path p.sourceLabel)
  | target (p : Patch) : OuterLine ("+++ " ++ contentLabel p.target.path p.targetLabel)

/-- The lines of a patch between its header and its content. -/
def headLines (p : Patch) : List Text := p.modeLines ++ p.similarityLines ++ p.indexLines

theorem headLine_of_mem_modeLines {p : Patch} {line : Text} (h : line ∈ p.modeLines) :
    HeadLine line := by
  unfold modeLines at h
  split at h
  . obtain ⟨type, _, rfl⟩ := List.mem_map.1 h
    exact .mode (by decide) type
  . obtain ⟨type, _, rfl⟩ := List.mem_map.1 h
    exact .mode (by decide) type
  . split at h
    . next s t _ _ =>
      split at h
      . contradiction
      . simp only [List.mem_cons, List.not_mem_nil, or_false] at h
        rcases h with rfl | rfl
        . exact .mode (by decide) s
        . exact .mode (by decide) t
    . contradiction

theorem headLine_of_mem_similarityLines {p : Patch} {line : Text} (h : line ∈ p.similarityLines) :
    HeadLine line := by
  have hscore (hmem : line ∈ p.score.toList.map fun score =>
      "similarity index " ++ Text.ofInt score ++ "%") : HeadLine line := by
    obtain ⟨score, _, rfl⟩ := List.mem_map.1 hmem
    exact .score score
  unfold similarityLines moveLines at h
  split at h
  . rcases List.mem_append.1 h with h | h
    . exact hscore h
    . simp only [List.mem_cons, List.not_mem_nil, or_false] at h
      rcases h with rfl | rfl
      . exact .path "rename from " (by decide) _
      . exact .path "rename to " (by decide) _
  . rcases List.mem_append.1 h with h | h
    . exact hscore h
    . simp only [List.mem_cons, List.not_mem_nil, or_false] at h
      rcases h with rfl | rfl
      . exact .path "copy from " (by decide) _
      . exact .path "copy to " (by decide) _
  . contradiction

theorem headLine_of_mem_indexLines {p : Patch} {line : Text} (h : line ∈ p.indexLines) :
    HeadLine line := by
  cases hs : p.source.hash with
  | none => simp [indexLines, hs] at h
  | some s =>
    cases ht : p.target.hash with
    | none => simp [indexLines, hs, ht] at h
    | some t =>
      rw [indexLines_of_hashes hs ht] at h
      rw [List.mem_singleton.1 h]
      exact .index s t _

theorem headLine_of_mem_headLines {p : Patch} {line : Text} (h : line ∈ p.headLines) :
    HeadLine line := by
  unfold headLines at h
  simp only [List.mem_append, or_assoc] at h
  rcases h with h | h | h
  . exact headLine_of_mem_modeLines h
  . exact headLine_of_mem_similarityLines h
  . exact headLine_of_mem_indexLines h

theorem mem_contentLines {p : Patch} {line : Text} (h : line ∈ p.contentLines) :
    OuterLine line ∨ ∃ hunk ∈ p.hunks, line ∈ hunk.render := by
  rw [contentLines_eq] at h
  split at h
  . rw [List.mem_singleton.1 h]
    exact .inl (.binary p)
  . split at h
    . contradiction
    . rcases List.mem_cons.1 h with rfl | h
      . exact .inl (.source p)
      . rcases List.mem_cons.1 h with rfl | h
        . exact .inl (.target p)
        . exact .inr (List.mem_flatMap.1 h)

theorem mem_render {p : Patch} {line : Text} (h : line ∈ p.render) :
    OuterLine line ∨ ∃ hunk ∈ p.hunks, line ∈ hunk.render := by
  rcases List.mem_cons.1 h with rfl | h
  . exact .inl (.paths _ _)
  . rcases List.mem_append.1 h with h | h
    . exact .inl (.head (headLine_of_mem_headLines h))
    . exact mem_contentLines h

theorem plain_ofInt (i : Int) : Plain (Text.ofInt i) := by
  cases i with
  | ofNat n => exact plain_ofNat n
  | negSucc n => exact plain_append.2 ⟨(by decide : Plain [.char '-']), plain_ofNat (n + 1)⟩

theorem HeadLine.plain {line : Text} (h : HeadLine line) : Plain line := by
  cases h with
  | mode hlabel type =>
    have hplain : ∀ label ∈ modeLabels, Plain (ofString label) := by decide
    exact plain_append.2 ⟨hplain _ hlabel, plain_mode type⟩
  | score score =>
    simp only [plain_append]
    exact ⟨⟨by decide, plain_ofInt score⟩, by decide⟩
  | path label hlabel t =>
    have hplain : ∀ label ∈ pathLabels, Plain (ofString label) := by decide
    exact plain_append.2 ⟨hplain _ hlabel, Path.plain_quote t⟩
  | index s t type => exact plain_indexLine s t type

theorem OuterLine.plain {line : Text} (h : OuterLine line) : Plain line := by
  have hsource (p : Patch) : Plain (contentLabel p.source.path p.sourceLabel) :=
    plain_contentLabel _ (Path.plain_quote _)
  have htarget (p : Patch) : Plain (contentLabel p.target.path p.targetLabel) :=
    plain_contentLabel _ (Path.plain_quote _)
  cases h with
  | paths s t =>
    simp only [plain_append]
    exact ⟨⟨⟨by decide, Path.plain_quote s⟩, by decide⟩, Path.plain_quote t⟩
  | head h => exact h.plain
  | binary p =>
    simp only [plain_append]
    exact ⟨⟨⟨⟨by decide, hsource p⟩, by decide⟩, htarget p⟩, by decide⟩
  | source p => exact plain_append.2 ⟨by decide, hsource p⟩
  | target p => exact plain_append.2 ⟨by decide, htarget p⟩

theorem isLine_of_mem_render {p : Patch} (hp : ∀ h ∈ p.hunks, h.HasLines) {line : Text}
    (h : line ∈ p.render) : IsLine line := by
  rcases mem_render h with houter | ⟨hunk, hhunk, hline⟩
  . exact houter.plain.isLine
  . exact Hunk.isLine_of_mem_render (hp hunk hhunk) hline

end Patch

end Dvcs
