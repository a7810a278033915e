import Dvcs.Proofs.Hunk.Truncation
import Dvcs.Proofs.Patch.Seen

/-!
This module contains the reading of written patches that are cut inside of their content. Nothing is
asked of the patches but that their lines can be read: then the lines in front of the content lead
to it, whatever they tell, and no line of a hunk is left over.
-/

namespace Dvcs

namespace Patch

open Hunk (Stuck)
open Reading Text

variable {p q : Patch} {hd : Header} {n : Nat} {looked : Bool} {line : Text} {more : List Text}
  {r : LineReader}

/-- How the lines between the header of a patch and its content begin. -/
def headLabels : List String := modeLabels ++ pathLabels ++ ["similarity index ", "index "]

theorem HeadLine.exists_label (h : HeadLine line) :
    ∃ label ∈ headLabels, ∃ t, line = ofString label ++ t := by
  cases h with
  | mode hlabel type => exact ⟨_, by simp [headLabels, hlabel], _, rfl⟩
  | score score => exact ⟨"similarity index ", by decide, _, List.append_assoc ..⟩
  | path label hlabel t => exact ⟨label, by simp [headLabels, hlabel], _, rfl⟩
  | index s t type =>
    refine ⟨"index ", by decide, s.hex ++ ".." ++ t.hex ++ modeSuffix type, ?_⟩
    simp only [indexLine, List.append_assoc]

/-- Such a line is not taken for content or for the header of the next patch. -/
theorem HeadLine.not_content (h : HeadLine line) :
    endsPatch toEnd line = false ∧ binaryNames? line = none ∧ line ≠ "GIT binary patch" ∧
      line.startsWith "--- " = false := by
  obtain ⟨label, hlabel, t, rfl⟩ := h.exists_label
  simp only [headLabels, modeLabels, pathLabels, List.cons_append, List.nil_append, List.mem_cons,
    List.not_mem_nil, or_false] at hlabel
  rcases hlabel with rfl | rfl | rfl | rfl | rfl | rfl | rfl | rfl | rfl | rfl <;>
    exact ⟨rfl, rfl, by simp [ofString], rfl⟩

theorem HeadLine.header_of_step {found : HeaderLine} (h : HeadLine line)
    (hstep : hd.step n line = .ok found) : ∃ hd', found = .header hd' := by
  obtain ⟨_, hnames, hpayload, hsource⟩ := h.not_content
  unfold Header.step at hstep
  split at hstep
  . next hd' _ =>
    cases hstep
    exact ⟨hd', rfl⟩
  . contradiction
  . simp [hnames, hpayload, hsource] at hstep

/-- Where a patch can be read, the lines in front of its content lead to it. -/
theorem readHeader_headLines {ls rest : List Text} (hls : ∀ line ∈ ls, HeadLine line)
    (hread : readHeader toEnd hd n (ls ++ rest) = .ok q r) :
    ∃ hd', ∀ rest',
      readHeader toEnd hd n (ls ++ rest') = readHeader toEnd hd' (n + ls.length) rest' := by
  induction ls generalizing hd n with
  | nil => exact ⟨hd, fun _ => rfl⟩
  | cons line ls ih =>
    rw [List.forall_mem_cons] at hls
    have hend := hls.1.not_content.1
    cases hstep : hd.step (n + 1) line with
    | error e => simp [readHeader, hend, hstep] at hread
    | ok found =>
      obtain ⟨hd₁, rfl⟩ := hls.1.header_of_step hstep
      have hline (rest' : List Text) : readHeader toEnd hd n (line :: ls ++ rest') =
          readHeader toEnd hd₁ (n + 1) (ls ++ rest') := by
        simp [readHeader, hend, hstep]
      rw [hline] at hread
      obtain ⟨hd', hleads⟩ := ih hls.2 hread
      refine ⟨hd', fun rest' => ?_⟩
      rw [hline, hleads, List.length_cons, Nat.add_assoc, Nat.add_comm 1]

/-- The lines of a patch in front of its content. -/
def front (p : Patch) : List Text :=
  (patchHeader ++ p.sourceLabel ++ " " ++ p.targetLabel) :: p.headLines

theorem render_eq_append (p : Patch) : p.render = p.front ++ p.contentLines := rfl

theorem readOne_front {rest : List Text}
    (hread : readOne toEnd ⟨p.front ++ rest, n, looked⟩ = .ok q r) :
    ∃ hd, ∀ rest' looked', readOne toEnd ⟨p.front ++ rest', n, looked'⟩ =
      readHeader toEnd hd (n + p.front.length) rest' := by
  unfold front at hread ⊢
  simp only [readOne, List.cons_append] at hread ⊢
  split at hread
  . contradiction
  . contradiction
  . obtain ⟨hd, hleads⟩ := readHeader_headLines (fun _ => headLine_of_mem_headLines) hread
    refine ⟨hd, fun rest' _ => ?_⟩
    rw [hleads, List.length_cons, Nat.add_assoc, Nat.add_comm 1]

/-- The first of the two file headers. -/
def sourceLine (p : Patch) : Text := "--- " ++ contentLabel p.source.path p.sourceLabel

/-- The second of the two file headers. -/
def targetLine (p : Patch) : Text := "+++ " ++ contentLabel p.target.path p.targetLabel

theorem contentLines_of_hunks (hbinary : p.binary = false) (hhunks : p.hunks ≠ []) :
    p.contentLines = p.sourceLine :: p.targetLine :: p.hunks.flatMap Hunk.render := by
  rw [contentLines_eq, hbinary, if_neg Bool.false_ne_true, if_neg hhunks]
  rfl

theorem readHeader_sourceLine (hd : Header) (p : Patch) (n : Nat) (rest : List Text) :
    readHeader toEnd hd n (p.sourceLine :: rest) =
      (return hd.toPatch (← inHunks) false : Reading Patch) ⟨rest, n + 1, false⟩ := by
  have hend : ¬ endsPatch toEnd p.sourceLine := Bool.false_ne_true
  have hstep : hd.step (n + 1) p.sourceLine = .ok .fileHeader :=
    hd.step_fileHeader (n + 1) (plain_contentLabel p.source.path (Path.plain_quote _))
  exact inHeader_eq_inHunks toEnd hend hstep rest false

theorem inHunks_targetLine (p : Patch) (n : Nat) (rest : List Text) (looked : Bool) :
    inHunks ⟨p.targetLine :: rest, n, looked⟩ = Hunk.readBlocks ⟨rest, n + 1, false⟩ := by
  have hline : p.targetLine.startsWith "+++ " = true := by simp [targetLine, startsWith]
  simp only [inHunks, readHunks, if_pos hline]

theorem rest_of_readHeader_contentLines (hmore : Boundary more)
    (hread : readHeader toEnd hd n (p.contentLines ++ more) = .ok q r) :
    Stuck r.rest ∨ r.rest = more := by
  by_cases hbinary : p.binary = true
  . rw [contentLines_eq, if_pos hbinary, List.singleton_append, readHeader, step_notice] at hread
    cases hread
    exact .inr rfl
  rw [Bool.not_eq_true] at hbinary
  by_cases hhunks : p.hunks = []
  . rw [contentLines_eq, hbinary, if_neg Bool.false_ne_true, if_pos hhunks] at hread
    rw [List.nil_append, readHeader_of_boundary hd hmore] at hread
    cases hread
    exact .inr rfl
  . rw [contentLines_of_hunks hbinary hhunks] at hread
    simp only [List.cons_append, readHeader_sourceLine] at hread
    obtain ⟨hs, r', hblocks, hread⟩ := bind_eq_ok hread
    cases hread
    rw [inHunks_targetLine] at hblocks
    exact Hunk.rest_of_readBlocks_render hmore.ends hblocks

theorem rest_of_readOne_render (hmore : Boundary more)
    (hread : readOne toEnd ⟨p.render ++ more, n, looked⟩ = .ok q r) :
    Stuck r.rest ∨ r.rest = more := by
  rw [render_eq_append, List.append_assoc] at hread
  obtain ⟨hd, hfront⟩ := readOne_front hread
  rw [hfront] at hread
  exact rest_of_readHeader_contentLines hmore hread

/-- Places inside of a patch where its lines must not end, the lines in front of them, and the
errors for it. -/
inductive BreaksOff (p : Patch) : List Text → (Nat → ReadError → Prop) → Prop where
  | fileHeader (hbinary : p.binary = false) (hhunks : p.hunks ≠ []) :
    BreaksOff p (p.front ++ [p.sourceLine]) fun n e => e = .diff n (.otherThanTargetHeader none)
  | hunk {before after : List Hunk} {h : Hunk} {ls : List Text} (hbinary : p.binary = false)
    (hhunks : p.hunks = before ++ h :: after) (hls : h.BreaksOff ls) :
    BreaksOff p
      (p.front ++ p.sourceLine :: p.targetLine :: (before.flatMap Hunk.render ++ h.header :: ls))
      Hunk.EndsInBlock

variable {ls : List Text} {blames : Nat → ReadError → Prop}

theorem BreaksOff.exists_lost (h : p.BreaksOff ls blames) :
    ∃ lost, lost ≠ [] ∧ p.render = ls ++ lost := by
  cases h with
  | fileHeader hbinary hhunks =>
    refine ⟨p.targetLine :: p.hunks.flatMap Hunk.render, List.cons_ne_nil _ _, ?_⟩
    rw [render_eq_append, contentLines_of_hunks hbinary hhunks, List.append_assoc]
    rfl
  | @hunk before after hunk taken hbinary hhunks hls =>
    obtain ⟨lost, hne, hbody⟩ := hls.exists_lost
    refine ⟨lost ++ after.flatMap Hunk.render, by simp [hne], ?_⟩
    rw [render_eq_append, contentLines_of_hunks hbinary (by simp [hhunks]), hhunks]
    rw [List.flatMap_append, List.flatMap_cons, Hunk.render_eq_cons_body, hbody]
    simp only [List.append_assoc, List.cons_append]

theorem readOne_breaksOff (hmore : Boundary more)
    (hread : readOne toEnd ⟨p.render ++ more, n, looked⟩ = .ok q r) (hrest : ¬ Stuck r.rest)
    (h : p.BreaksOff ls blames) (looked' : Bool) :
    ∃ e r', readOne toEnd ⟨ls, n, looked'⟩ = .error e r' ∧ blames (n + ls.length) e := by
  rw [render_eq_append, List.append_assoc] at hread
  obtain ⟨hd, hfront⟩ := readOne_front hread
  rw [hfront] at hread
  cases h with
  | fileHeader hbinary hhunks =>
    have hmissing (m : Nat) :
        inHunks ⟨[], m, false⟩ =
          .error (.diff m (.otherThanTargetHeader none)) ⟨[], m, false⟩ := rfl
    refine ⟨_, ⟨[], n + p.front.length + 1, false⟩, ?_, rfl⟩
    rw [hfront, readHeader_sourceLine, bind_of_error (hmissing _)]
    rw [List.length_append, List.length_singleton, Nat.add_assoc]
  | @hunk before after hunk taken hbinary hhunks hls =>
    rw [contentLines_of_hunks hbinary (by simp [hhunks]), hhunks] at hread
    simp only [List.cons_append, readHeader_sourceLine] at hread
    obtain ⟨hs, r₁, hblocks, hread⟩ := bind_eq_ok hread
    cases hread
    rw [inHunks_targetLine] at hblocks
    obtain ⟨e, r', herror, hshort⟩ := Hunk.readBlocks_breaksOff hmore.ends.1 hblocks hrest hls false
    rw [← inHunks_targetLine p _ _ false] at herror
    refine ⟨e, r', ?_, ?_⟩
    . rw [hfront, readHeader_sourceLine, bind_of_error herror]
    . let content := before.flatMap Hunk.render ++ hunk.header :: taken
      have hlength : n + (p.front ++ p.sourceLine :: p.targetLine :: content).length =
          n + p.front.length + 1 + 1 + content.length := by
        simp only [List.length_append, List.length_cons]
        omega
      rwa [hlength]

theorem readExtended_of_stuck {rest : List Text} (hrest : Stuck rest) (n : Nat) (looked : Bool) :
    ∃ e r, readExtended toEnd ⟨rest, n, looked⟩ = .error e r := by
  obtain ⟨line, hline, hbody⟩ := hrest
  obtain ⟨rest, rfl⟩ := List.head?_eq_some_iff.1 hline
  rw [readExtended_eq]
  cases hbody <;> exact ⟨_, _, rfl⟩

theorem readExtended_front (p : Patch) (rest : List Text) (n : Nat) (looked : Bool) :
    readExtended toEnd ⟨p.front ++ rest, n, looked⟩ =
      (return (← readOne toEnd) :: (← readExtended toEnd) : Reading (List Patch))
        ⟨p.front ++ rest, n, looked⟩ := by
  refine readExtended_of_header toEnd rfl ?_ _ n looked
  rw [List.append_assoc, List.append_assoc]
  exact startsWith_patchHeader _

/-- Where all patches can be read, each of them is read from its own lines. -/
theorem readExtended_render_cons {ps : List Patch} (hmore : Boundary more)
    (hread : readExtended toEnd ⟨p.render ++ more, n, looked⟩ = .ok ps r) :
    ∃ q ps' looked', Takes (readOne toEnd) n p.render q (·.head? = more.head?) ∧
      readOne toEnd ⟨p.render ++ more, n, looked⟩ = .ok q ⟨more, n + p.render.length, looked'⟩ ∧
      readExtended toEnd ⟨more, n + p.render.length, looked'⟩ = .ok ps' r := by
  have hsettled : Settled true EndsInPatch (readOne toEnd) n (p.render ++ more) :=
    settled_readOne toEnd _ _ n
  have hparts := readExtended_front p (p.contentLines ++ more) n looked
  rw [← List.append_assoc, ← render_eq_append] at hparts
  rw [hparts] at hread
  refine takes_of_parts hsettled hread fun q r' ps' hone hmore' => ?_
  refine (rest_of_readOne_render hmore hone).resolve_left fun hstuck => ?_
  obtain ⟨e, r'', herror⟩ := readExtended_of_stuck hstuck r'.lineNumber r'.looked
  rw [hmore'] at herror
  contradiction

theorem Boundary.not_stuck (h : Boundary more) : ¬ Stuck more := by
  rintro ⟨line, hline, hbody⟩
  have hheader := h line hline
  cases hbody <;> contradiction

theorem BreaksOff.exists_rest (h : p.BreaksOff ls blames) : ∃ rest, ls = p.front ++ rest := by
  cases h <;> exact ⟨_, rfl⟩

/-- A patch that breaks off is missed, wherever it stands. -/
theorem readExtended_breaksOff {before after ps : List Patch}
    (hread : readExtended toEnd ⟨(before ++ p :: after).flatMap render, n, looked⟩ = .ok ps r)
    (h : p.BreaksOff ls blames) (looked' : Bool) :
    ∃ e r', readExtended toEnd ⟨before.flatMap render ++ ls, n, looked'⟩ = .error e r' ∧
      blames (n + (before.flatMap render ++ ls).length) e := by
  obtain ⟨rest, rfl⟩ := h.exists_rest
  induction before generalizing n looked looked' ps with
  | nil =>
    rw [List.nil_append, List.flatMap_cons] at hread
    have hmore := boundary_flatMap_render after
    obtain ⟨_, _, _, _, hone, _⟩ := readExtended_render_cons hmore hread
    obtain ⟨e, r', herror, hblames⟩ := readOne_breaksOff hmore hone hmore.not_stuck h looked'
    refine ⟨e, r', ?_, hblames⟩
    rw [List.flatMap_nil, List.nil_append, readExtended_front]
    exact bind_of_error herror
  | cons p₀ before ih =>
    rw [List.cons_append, List.flatMap_cons] at hread
    obtain ⟨q, _, _, htakes, _, hmore⟩ :=
      readExtended_render_cons (boundary_flatMap_render _) hread
    -- the patch behind `p₀` starts with the same line, whether it breaks off or not
    have hhead : (before.flatMap render ++ (p.front ++ rest)).head? =
        ((before ++ p :: after).flatMap render).head? := by
      cases before <;> rfl
    have hlater := error_of_parts (f := List.cons) htakes hhead (ih hmore) looked'
    rw [render_eq_append, List.append_assoc, ← readExtended_front, ← List.append_assoc,
      ← render_eq_append, ← List.append_assoc, ← List.flatMap_cons] at hlater
    obtain ⟨e, r', herror, hblames⟩ := hlater
    refine ⟨e, r', herror, ?_⟩
    simpa only [List.flatMap_cons, List.length_append, Nat.add_assoc] using hblames

end Patch

end Dvcs
