import Dvcs.Proofs.Patch.RoundTrip
import Dvcs.Proofs.Patch.Unified

/-!
This module contains the agreement of the two readers of diffs. The reader of conventional diffs
skips every line that patches are written with but the two file headers and the hunks, and takes the
paths from the file headers; the other reader takes them from the lines in front.
-/

namespace Dvcs

namespace Patch

open Text

/-- The status that the two paths tell. -/
def impliedStatus : (source target : Option Path) → Status
  | none, _ => .added
  | _, none => .deleted
  | some source, some target => if source = target then .modified else .renamed

/-- What a conventional diff shows of a patch. -/
def conventional (p : Patch) : Patch where
  source := { path := p.source.path }
  target := { path := p.target.path }
  status := impliedStatus p.source.path p.target.path
  hunks := p.hunks

/-- The lines that stand for nothing in a conventional diff. -/
structure Skipped (line : Text) : Prop where
  fileHeader : after? "--- " line = none
  notice : binaryNames? line = none
  block : line.startsWith "@@" = false
  targetHeader : line.startsWith "+++ " = false

theorem readUnifiedFrom_skipped {line : Text} (h : Skipped line) (n : Nat) (rest : List Text) :
    readUnifiedFrom n (line :: rest) = readUnifiedFrom (n + 1) rest := by
  rw [readUnifiedFrom]
  simp [h.fileHeader, h.notice, h.block, h.targetHeader]

theorem readUnifiedFrom_append {ls : List Text} (h : ∀ line ∈ ls, Skipped line) (n : Nat)
    (rest : List Text) :
    readUnifiedFrom n (ls ++ rest) = readUnifiedFrom (n + ls.length) rest := by
  induction ls generalizing n with
  | nil => rfl
  | cons line ls ih =>
    rw [List.forall_mem_cons] at h
    rw [List.cons_append, readUnifiedFrom_skipped h.1, ih h.2, List.length_cons]
    congr 1
    omega

theorem HeadLine.skipped {line : Text} (h : HeadLine line) : Skipped line := by
  cases h with
  | mode hlabel type =>
    simp only [modeLabels, List.mem_cons, List.not_mem_nil, or_false] at hlabel
    rcases hlabel with rfl | rfl | rfl | rfl <;> exact ⟨rfl, rfl, rfl, rfl⟩
  | score score => exact ⟨rfl, rfl, rfl, rfl⟩
  | path label hlabel t =>
    simp only [pathLabels, List.mem_cons, List.not_mem_nil, or_false] at hlabel
    rcases hlabel with rfl | rfl | rfl | rfl <;> exact ⟨rfl, rfl, rfl, rfl⟩
  | index s t type => exact ⟨rfl, rfl, rfl, rfl⟩

theorem skipped_patchHeader (t : Text) : Skipped (patchHeader ++ t) := ⟨rfl, rfl, rfl, rfl⟩

theorem headerPath_of_unquote {dir : String} {t path : Text} (htab : .char '\t' ∉ t)
    (hpath : Path.unquote t = .ok path) :
    headerPath dir t = .ok (if t = devNull then none else some (dropStart dir path)) := by
  have hname : t.takeWhile (· ≠ .char '\t') = t := by
    rw [List.takeWhile_eq_self_iff]
    intro c hc
    have : c ≠ .char '\t' := fun heq => htab (heq ▸ hc)
    simpa using this
  unfold headerPath
  dsimp only
  rw [hname, hpath]
  split <;> rfl

theorem headerPath_quote {dir : String} (hdir : dir = "a/" ∨ dir = "b/") {path : Text}
    (hpath : FromBytes path) : headerPath dir (Path.quote (dir ++ path)) = .ok (some path) := by
  have hnull : Path.quote (dir ++ path) ≠ devNull := by
    rw [Path.quote_eq]
    rcases hdir with rfl | rfl <;> split <;> simp [devNull, ofString]
  have hread : Path.unquote (Path.quote (dir ++ path)) = .ok (dir ++ path) :=
    Path.unquote_quote (fromBytes_ofString_append.2 hpath)
  rw [headerPath_of_unquote (Path.tab_not_mem_quote _) hread, if_neg hnull]
  simp [dropStart]

theorem headerPath_contentLabel {dir : String} (hdir : dir = "a/" ∨ dir = "b/")
    {path : Option Path} (hpath : PathWellFormed path) (other : Option Path) :
    headerPath dir (contentLabel path (Path.quote (dir ++ pathText (path <|> other)))) =
      .ok (path.map Path.toText) := by
  cases path with
  | none => rfl
  | some q => exact headerPath_quote hdir (hpath q rfl).2

theorem map_ofText_toText {path : Option Path} (h : PathWellFormed path) :
    (path.map Path.toText).map Path.ofText = path := by
  cases path with
  | none => rfl
  | some q => exact congrArg some (h q rfl).1

theorem statusOf_toText {source target : Option Path} (hsource : PathWellFormed source)
    (htarget : PathWellFormed target) :
    statusOf (source.map Path.toText) (target.map Path.toText) = impliedStatus source target := by
  cases source with
  | none => rfl
  | some source =>
    cases target with
    | none => rfl
    | some target =>
      have htexts : source.toText = target.toText ↔ source = target := by
        refine ⟨fun h => ?_, congrArg Path.toText⟩
        rw [← (hsource source rfl).1, ← (htarget target rfl).1, h]
      simp only [Option.map_some, statusOf, impliedStatus, htexts]

variable {p : Patch}

theorem ofPaths_eq_conventional (hp : p.Readable) :
    ofPaths (p.source.path.map Path.toText) (p.target.path.map Path.toText) p.hunks false =
      p.conventional := by
  unfold ofPaths conventional
  rw [map_ofText_toText hp.sourcePath, map_ofText_toText hp.targetPath,
    statusOf_toText hp.sourcePath hp.targetPath]

theorem readContent_render (hp : p.Readable) {rest : List Text} (hrest : Boundary rest) (n : Nat) :
    readContent (contentLabel p.source.path p.sourceLabel)
        (("+++ " ++ contentLabel p.target.path p.targetLabel) ::
          (p.hunks.flatMap Hunk.render ++ rest)) n =
      .ok p.conventional ⟨rest, n + 1 + (p.hunks.flatMap Hunk.render).length, true⟩ := by
  have hpaths : headerPaths (contentLabel p.source.path p.sourceLabel)
      (contentLabel p.target.path p.targetLabel) =
        .ok (p.source.path.map Path.toText, p.target.path.map Path.toText) := by
    have hsource := headerPath_contentLabel (.inl rfl) hp.sourcePath p.target.path
    have htarget := headerPath_contentLabel (.inr rfl) hp.targetPath p.source.path
    unfold headerPaths sourceLabel targetLabel
    rw [hsource, htarget]
  have hhunks := Hunk.readBlocks_render hp.hunks hrest.ends (n + 1) false
  unfold readContent
  simp only [after?_append, hpaths, hhunks, ofPaths_eq_conventional hp]

/-- A patch is skipped up to its content. -/
theorem readUnifiedFrom_render_append (p : Patch) (n : Nat) (rest : List Text) :
    readUnifiedFrom n (p.render ++ rest) =
      readUnifiedFrom (n + (p.headLines.length + 1)) (p.contentLines ++ rest) := by
  have hskipped : ∀ line ∈ (patchHeader ++ p.sourceLabel ++ " " ++ p.targetLabel) :: p.headLines,
      Skipped line := by
    rw [List.forall_mem_cons, List.append_assoc, List.append_assoc]
    exact ⟨skipped_patchHeader _, fun line hline => (headLine_of_mem_headLines hline).skipped⟩
  have hrender : p.render = ((patchHeader ++ p.sourceLabel ++ " " ++ p.targetLabel) ::
      p.headLines) ++ p.contentLines := by
    simp [render, headLines]
  rw [hrender, List.append_assoc, readUnifiedFrom_append hskipped, List.length_cons]

theorem length_render (p : Patch) :
    p.render.length = p.headLines.length + 1 + p.contentLines.length := by
  simp only [render, headLines, List.length_cons, List.length_append]
  omega

theorem readUnifiedFrom_render (hp : p.Readable) (hbinary : p.binary = false) {rest : List Text}
    (hrest : Boundary rest) {n : Nat} {ps : List Patch} {r : LineReader}
    (hmore : readUnifiedFrom (n + p.render.length) rest = .ok ps r) :
    readUnifiedFrom n (p.render ++ rest) =
      .ok (if p.hunks = [] then ps else p.conventional :: ps) r := by
  rw [length_render, ← Nat.add_assoc] at hmore
  rw [readUnifiedFrom_render_append]
  rw [contentLines_eq, hbinary, if_neg Bool.false_ne_true] at hmore ⊢
  split
  . next hhunks =>
    rw [if_pos hhunks] at hmore
    exact hmore
  . next hhunks =>
    rw [if_neg hhunks] at hmore
    refine readUnifiedFrom_fileHeader (readContent_render hp hrest _) ?_
    rw [← hmore]
    simp only [List.length_cons]
    congr 1
    omega

theorem readUnifiedFrom_flatMap_render {ps : List Patch}
    (hps : ∀ p ∈ ps, p.Readable ∧ p.binary = false) (n : Nat) :
    readUnifiedFrom n (ps.flatMap render) =
      .ok ((ps.filter (·.hunks ≠ [])).map conventional)
        ⟨[], n + (ps.flatMap render).length, true⟩ := by
  induction ps generalizing n with
  | nil => rw [List.flatMap_nil, readUnifiedFrom]; rfl
  | cons p ps ih =>
    rw [List.forall_mem_cons] at hps
    have hmore := ih hps.2 (n + p.render.length)
    rw [List.flatMap_cons]
    rw [readUnifiedFrom_render hps.1.1 hps.1.2 (boundary_flatMap_render ps) hmore]
    rw [List.length_append, Nat.add_assoc]
    by_cases hhunks : p.hunks = [] <;> simp [hhunks]

/-- Both readers accept written patches with text content, and they agree about everything that a
conventional diff shows: the hunks of each patch that has some, and the paths that these are for. -/
theorem readers_agree {ps : List Patch} (hps : ∀ p ∈ ps, p.WellFormed ∧ p.binary = false) :
    readExtended toEnd (.ofLines (ps.flatMap render)) =
        .ok ps ⟨[], (ps.flatMap render).length, true⟩ ∧
      readUnified (.ofLines (ps.flatMap render)) =
        .ok ((ps.filter (·.hunks ≠ [])).map conventional)
          ⟨[], (ps.flatMap render).length, true⟩ := by
  have hextended := readExtended_render (fun p hp => (hps p hp).1) 0 false
  have hunified := readUnifiedFrom_flatMap_render
    (fun p hp => ⟨(hps p hp).1.readable, (hps p hp).2⟩) 0
  rw [Nat.zero_add] at hextended hunified
  exact ⟨hextended, hunified⟩

/-- A file with another mode and the same content. -/
def sampleMode : Patch where
  source := { path := some ⟨[], ["run"]⟩, type := some .regular }
  target := { path := some ⟨[], ["run"]⟩, type := some .executable }
  status := .modified

/-- A moved file in which lines change that look like file headers and blocks. -/
def sampleMove : Patch where
  source := { path := some ⟨[], ["old\tname"]⟩ }
  target := { path := some ⟨[], ["dev", "null"]⟩ }
  status := .copied
  hunks := [⟨⟨3, ["-- a/x"], false⟩, ⟨3, ["++ b/x", "@@"], true⟩⟩]

/-- A new file. -/
def sampleNew : Patch where
  source := {}
  target := { path := some ⟨"/", ["new \"b\""]⟩, type := some .regular }
  status := .added
  hunks := [⟨⟨0, [], false⟩, ⟨1, ["x"], false⟩⟩]

theorem pathWellFormed_of_plain {q : Path} (hnormal : q.IsNormal) (hplain : Plain q.toText) :
    PathWellFormed (some q) := by
  rintro _ ⟨⟩
  exact ⟨hnormal, hplain.fromBytes⟩

theorem wellFormed_sampleMode : sampleMode.WellFormed where
  paths := ⟨rfl, rfl⟩
  types := .inr ⟨rfl, rfl, .inl (by decide)⟩
  hashes := rfl
  score := nofun
  binary := nofun
  hunks := nofun
  sourcePath := pathWellFormed_of_plain rfl (by decide)
  targetPath := pathWellFormed_of_plain rfl (by decide)

theorem wellFormed_sampleMove : sampleMove.WellFormed where
  paths := ⟨rfl, rfl⟩
  types := .inl ⟨rfl, rfl⟩
  hashes := rfl
  score := nofun
  binary := nofun
  hunks := by
    intro h hh
    rw [List.mem_singleton.1 hh]
    exact {
      source := Hunk.sideWellFormed_of_plain ⟨by decide, by decide, by decide⟩ (by decide) nofun
      target := Hunk.sideWellFormed_of_plain ⟨by decide, by decide, by decide⟩ (by decide)
        (by decide)
      changes := .inl (by decide) }
  sourcePath := pathWellFormed_of_plain rfl (by decide)
  targetPath := pathWellFormed_of_plain rfl (by decide)

theorem wellFormed_sampleNew : sampleNew.WellFormed where
  paths := ⟨rfl, rfl⟩
  types := ⟨rfl, rfl⟩
  hashes := rfl
  score := nofun
  binary := nofun
  hunks := by
    intro h hh
    rw [List.mem_singleton.1 hh]
    exact {
      source := Hunk.sideWellFormed_of_plain ⟨by decide, by decide, by decide⟩ (by decide) nofun
      target := Hunk.sideWellFormed_of_plain ⟨by decide, by decide, by decide⟩ (by decide) nofun
      changes := .inr (by decide) }
  sourcePath := nofun
  targetPath := pathWellFormed_of_plain rfl (by decide)

theorem readers_agree_samples :
    ∃ r, readExtended toEnd (.ofLines ([sampleMode, sampleMove, sampleNew].flatMap render)) =
        .ok [sampleMode, sampleMove, sampleNew] r ∧
      readUnified (.ofLines ([sampleMode, sampleMove, sampleNew].flatMap render)) =
        .ok [{ sampleMove with status := .renamed },
          { sampleNew with target := { path := sampleNew.target.path } }] r := by
  have hsamples : ∀ p ∈ [sampleMode, sampleMove, sampleNew], p.WellFormed ∧ p.binary = false := by
    rintro p hp
    simp only [List.mem_cons, List.not_mem_nil, or_false] at hp
    rcases hp with rfl | rfl | rfl
    . exact ⟨wellFormed_sampleMode, rfl⟩
    . exact ⟨wellFormed_sampleMove, rfl⟩
    . exact ⟨wellFormed_sampleNew, rfl⟩
  exact ⟨_, readers_agree hsamples⟩

end Patch

end Dvcs
