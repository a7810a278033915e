import Dvcs.Proofs.Hunk.Cut

/-!
This module contains the reading of unified diffs: whatever blocks an edit script is printed in, the
patch has the hunks of the script.
-/

namespace Dvcs

namespace Patch

open Hunk

theorem readUnifiedFrom_fileHeader {old : Text} {rest : List Text} {n : Nat} {p : Patch}
    {ps : List Patch} {r r' : LineReader} (hcontent : readContent old rest (n + 1) = .ok p r)
    (hmore : readUnifiedFrom r.lineNumber r.rest = .ok ps r') :
    readUnifiedFrom n (("--- " ++ old) :: rest) = .ok (p :: ps) r' := by
  rw [readUnifiedFrom]
  simp only [Text.after?_append]
  split
  . next heq => simp [heq] at hcontent
  . next heq =>
    rw [heq] at hcontent
    cases hcontent
    rw [hmore]

theorem readUnified_print {s : Script} (cut : Cut s) (hlength : s.length < 2 ^ 64 - 1)
    {old new : Text} {source target : Option Text}
    (hpaths : headerPaths old new = .ok (source, target)) :
    readUnified (.ofLines (("--- " ++ old) :: ("+++ " ++ new) :: Piece.print 0 0 cut.pieces)) =
      .ok [ofPaths source target (s.hunks 1 1) false]
        ⟨[], 2 + (Piece.print 0 0 cut.pieces).length, true⟩ := by
  have hscript := congrArg List.length cut.script
  rw [List.length_append] at hscript
  have hlines : 0 + (cut.pieces.flatMap Piece.script).length < 2 ^ 64 - 1 := by omega
  have hblocks := Piece.readBlocks_print cut.gap cut.block cut.separated cut.tail_shared
    hlines hlines 2 false
  rw [Nat.zero_add, cut.script] at hblocks
  have hcontent : readContent old (("+++ " ++ new) :: Piece.print 0 0 cut.pieces) 1 =
      .ok (ofPaths source target (s.hunks 1 1) false)
        ⟨[], 2 + (Piece.print 0 0 cut.pieces).length, true⟩ := by
    unfold readContent
    simp only [Text.after?_append, hpaths, hblocks]
  apply readUnifiedFrom_fileHeader hcontent
  rw [readUnifiedFrom]

/-- Two changes of a file that loses the line feed at its end, printed with different context. -/
def sampleCut : Cut
    [⟨.context, "a", false⟩, ⟨.removed, "b", false⟩, ⟨.added, "-- c", false⟩,
      ⟨.context, "d", false⟩, ⟨.context, "e", false⟩, ⟨.added, "f", true⟩] where
  pieces := [
    { gap := []
      block := [⟨.context, "a", false⟩, ⟨.removed, "b", false⟩, ⟨.added, "-- c", false⟩] },
    { gap := [⟨.context, "d", false⟩]
      block := [⟨.context, "e", false⟩, ⟨.added, "f", true⟩]
      form := { shortSource := false, heading := " e" } }]
  tail := []
  script := by decide
  gap := by decide
  block := by decide
  tail_shared := by decide
  separated := by decide

theorem readUnified_print_sampleCut :
    readUnified (.ofLines ["--- a/x", "+++ b/x", "@@ -1,2 +1,2 @@", " a", "-b", "+-- c",
        "@@ -4,1 +4,2 @@ e", " e", "+f", "\\ No newline at end of file"]) =
      .ok [ofPaths (some "x") (some "x")
          [⟨⟨2, ["b"], false⟩, ⟨2, ["-- c"], false⟩⟩, ⟨⟨4, [], false⟩, ⟨5, ["f"], true⟩⟩] false]
        ⟨[], 10, true⟩ := by
  have hpaths : headerPaths "a/x" "b/x" = .ok (some "x", some "x") := rfl
  have hread := readUnified_print sampleCut (by decide) hpaths
  simp [Script.hunks, Script.run, Script.afterRun, Entry.isShared, Script.hunk, Script.side,
    Script.sourceCount, Script.targetCount, Entry.inSource, Entry.inTarget] at hread
  exact hread

end Patch

end Dvcs
