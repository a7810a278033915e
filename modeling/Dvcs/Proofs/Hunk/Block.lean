import Dvcs.Proofs.Hunk.Script
import Mathlib.Data.List.TakeWhile

/-!
This module contains the reading of printed blocks: the header gives the ranges back, and the body
gives the hunks of the script that it prints. A hunk on its own is such a block, so reading it gives
the hunk back.
-/

namespace Dvcs

namespace Hunk

open Text

/-- How a tool writes the header of a block: whether it leaves out a count of one, and what it shows
behind the end mark. -/
structure HeaderForm where
  shortSource : Bool := true
  shortTarget : Bool := true
  heading : Text := []

def HeaderForm.line (form : HeaderForm) (source target : Range) : Text :=
  "@@ -" ++ source.written form.shortSource ++ " +" ++ target.written form.shortTarget ++ " @@" ++
    form.heading

theorem header_eq_line (h : Hunk) :
    h.header = HeaderForm.line {} h.source.range h.target.range := by
  simp [header, HeaderForm.line, Range.brief_eq_written]

theorem headerRanges?_line (form : HeaderForm) (source target : Range) :
    headerRanges? (form.line source target) =
      some (source.written form.shortSource, target.written form.shortTarget) :=
  headerRanges?_append (Range.shape_written _ _) (Range.shape_written _ _) form.heading

theorem range_written {r : Range} (h : r.Legible) (short : Bool) (n : Nat) :
    range (r.written short) n = .ok r := by
  simp [range, Range.ofText_written h short]

theorem readBlock_lines (form : HeaderForm) {source target : Range} (hsource : source.Legible)
    (htarget : target.Legible) {s : Script} (hs : source.count = Script.sourceCount s)
    (ht : target.count = Script.targetCount s) {rest : List Text} (hrest : Block.Unmarked rest)
    (n : Nat) (looked : Bool) :
    ∃ looked',
      readBlock ⟨form.line source target :: (Script.lines s ++ rest), n, looked⟩ =
        .ok (Script.hunks (Block.firstLine source) (Block.firstLine target) s)
          ⟨rest, n + 1 + (Script.lines s).length, looked'⟩ := by
  obtain ⟨b, r, looked', hread, hfinish⟩ := Block.readBody_lines
    (b := Block.ofRanges source target) (s := s) ⟨hs, ht⟩ hrest (n + 1)
  have hhunks := Block.hunks_foldl_take (b := Block.ofRanges source target) rfl s
  refine ⟨looked', ?_⟩
  unfold readBlock
  simp only [headerRanges?_line, range_written hsource, range_written htarget, hread, hfinish,
    hhunks]
  simp [Block.ofRanges]

namespace Script

/-- The changes that one side of a hunk stands for. -/
def ofSide (kind : Kind) (s : HunkSide) : Script :=
  s.lines.dropLast.map (⟨kind, ·, false⟩) ++ s.lines.getLast?.toList.map (⟨kind, ·, s.noNewline⟩)

/-- The changes that a hunk stands for. -/
def ofHunk (h : Hunk) : Script := ofSide .removed h.source ++ ofSide .added h.target

theorem ofSide_concat (kind : Kind) (start : Nat) (front : List Text) (last : Text) (bare : Bool) :
    ofSide kind ⟨start, front ++ [last], bare⟩ =
      front.map (⟨kind, ·, false⟩) ++ [⟨kind, last, bare⟩] := by
  simp [ofSide]

theorem lines_ofSide (kind : Kind) {s : HunkSide} (h : s.noNewline = true → s.lines ≠ []) :
    lines (ofSide kind s) = renderSide (Entry.mark kind) s := by
  obtain ⟨start, ls, bare⟩ := s
  rcases List.eq_nil_or_concat ls with rfl | ⟨front, last, rfl⟩
  . cases bare <;> simp_all [ofSide, lines, renderSide]
  . rw [List.concat_eq_append, ofSide_concat]
    simp [lines, renderSide, Entry.lines, Entry.line, List.flatMap_map, ← List.map_eq_flatMap]

theorem kind_of_mem_ofSide {kind : Kind} {s : HunkSide} {e : Entry} (h : e ∈ ofSide kind s) :
    e.kind = kind := by
  simp only [ofSide, List.mem_append, List.mem_map] at h
  rcases h with ⟨_, _, rfl⟩ | ⟨_, _, rfl⟩ <;> rfl

theorem filter_ofSide_self (kind : Kind) (s : HunkSide) :
    (ofSide kind s).filter (·.kind == kind) = ofSide kind s := by
  rw [List.filter_eq_self]
  intro e he
  simp [kind_of_mem_ofSide he]

theorem filter_ofSide_of_ne {kind other : Kind} (h : kind ≠ other) (s : HunkSide) :
    (ofSide kind s).filter (·.kind == other) = [] := by
  rw [List.filter_eq_nil_iff]
  intro e he
  simpa [kind_of_mem_ofSide he] using h

theorem length_ofSide (kind : Kind) (s : HunkSide) : (ofSide kind s).length = s.lines.length := by
  obtain ⟨start, ls, bare⟩ := s
  rcases List.eq_nil_or_concat ls with rfl | ⟨front, last, rfl⟩
  . rfl
  . simp [ofSide_concat]

theorem side_ofSide {kind : Kind} {s : HunkSide} (h : s.noNewline = true → s.lines ≠ []) :
    side kind (Block.firstLine s.range) (ofSide kind s) = s := by
  unfold side
  rw [filter_ofSide_self]
  obtain ⟨start, ls, bare⟩ := s
  rcases List.eq_nil_or_concat ls with rfl | ⟨front, last, rfl⟩
  . cases bare <;> simp_all [ofSide, HunkSide.range, Block.firstLine]
  . rw [List.concat_eq_append, ofSide_concat]
    simp [HunkSide.range, Block.firstLine, Function.comp_def]

theorem side_removed_ofHunk (start : Nat) (h : Hunk) :
    side .removed start (ofHunk h) = side .removed start (ofSide .removed h.source) := by
  unfold side ofHunk
  rw [List.filter_append, filter_ofSide_of_ne (by decide : Kind.added ≠ .removed), List.append_nil]

theorem side_added_ofHunk (start : Nat) (h : Hunk) :
    side .added start (ofHunk h) = side .added start (ofSide .added h.target) := by
  unfold side ofHunk
  rw [List.filter_append, filter_ofSide_of_ne (by decide : Kind.removed ≠ .added), List.nil_append]

theorem hunks_of_changes {s : Script} (hne : s ≠ []) (h : ∀ e ∈ s, e.isShared = false)
    (source target : Nat) : hunks source target s = [hunk source target s] := by
  cases s with
  | nil => contradiction
  | cons e rest =>
    have hrun : run (e :: rest) = e :: rest := by
      unfold run
      rw [List.takeWhile_eq_self_iff]
      simpa using h
    have hrest : afterRun rest = [] := by
      unfold afterRun
      rw [List.dropWhile_eq_nil_iff]
      intro d hd
      simp [h d (List.mem_cons_of_mem e hd)]
    rw [hunks]
    simp only [h e List.mem_cons_self, Bool.false_eq_true, ↓reduceIte]
    rw [hrun, hrest, hunks]

theorem isShared_of_mem_ofHunk {h : Hunk} {e : Entry} (he : e ∈ ofHunk h) : e.isShared = false := by
  rcases List.mem_append.1 he with he | he
  . simp [Entry.isShared, kind_of_mem_ofSide he]
  . simp [Entry.isShared, kind_of_mem_ofSide he]

theorem sourceCount_ofHunk (h : Hunk) : sourceCount (ofHunk h) = h.source.lines.length := by
  have hremoved : sourceCount (ofSide .removed h.source) = h.source.lines.length := by
    rw [← length_ofSide .removed h.source]
    apply List.countP_eq_length.2
    intro e he
    simp [Entry.inSource, kind_of_mem_ofSide he]
  have hadded : sourceCount (ofSide .added h.target) = 0 := by
    apply List.countP_eq_zero.2
    intro e he
    simp [Entry.inSource, kind_of_mem_ofSide he]
  rw [ofHunk, sourceCount_append, hremoved, hadded, Nat.add_zero]

theorem targetCount_ofHunk (h : Hunk) : targetCount (ofHunk h) = h.target.lines.length := by
  have hremoved : targetCount (ofSide .removed h.source) = 0 := by
    apply List.countP_eq_zero.2
    intro e he
    simp [Entry.inTarget, kind_of_mem_ofSide he]
  have hadded : targetCount (ofSide .added h.target) = h.target.lines.length := by
    rw [← length_ofSide .added h.target]
    apply List.countP_eq_length.2
    intro e he
    simp [Entry.inTarget, kind_of_mem_ofSide he]
  rw [ofHunk, targetCount_append, hremoved, hadded, Nat.zero_add]

end Script

/-- Sides that come back from their lines and their range. -/
structure SideWellFormed (s : HunkSide) : Prop where
  legible : s.range.Legible
  bytes : ∀ line ∈ s.lines, FromBytes line
  unbroken : ∀ line ∈ s.lines, Sym.char '\n' ∉ line
  lines_of_noNewline : s.noNewline = true → s.lines ≠ []

theorem sideWellFormed_of_plain {s : HunkSide} (hlegible : s.range.Legible)
    (hplain : ∀ line ∈ s.lines, Plain line) (hlines : s.noNewline = true → s.lines ≠ []) :
    SideWellFormed s where
  legible := hlegible
  bytes line hline := (hplain line hline).fromBytes
  unbroken line hline := (hplain line hline).not_mem_newline
  lines_of_noNewline := hlines

structure WellFormed (h : Hunk) : Prop where
  source : SideWellFormed h.source
  target : SideWellFormed h.target
  changes : h.source.lines ≠ [] ∨ h.target.lines ≠ []

/-- Sides that come back from their lines, whatever these hold. -/
structure SideReadable (s : HunkSide) : Prop where
  legible : s.range.Legible
  lines_of_noNewline : s.noNewline = true → s.lines ≠ []

structure Readable (h : Hunk) : Prop where
  source : SideReadable h.source
  target : SideReadable h.target
  changes : h.source.lines ≠ [] ∨ h.target.lines ≠ []

theorem WellFormed.readable {h : Hunk} (hh : h.WellFormed) : h.Readable where
  source := ⟨hh.source.legible, hh.source.lines_of_noNewline⟩
  target := ⟨hh.target.legible, hh.target.lines_of_noNewline⟩
  changes := hh.changes

theorem hunks_ofHunk {h : Hunk} (hh : h.Readable) :
    Script.hunks (Block.firstLine h.source.range) (Block.firstLine h.target.range)
      (Script.ofHunk h) = [h] := by
  have hne : Script.ofHunk h ≠ [] := by
    intro heq
    have hsource := Script.sourceCount_ofHunk h
    have htarget := Script.targetCount_ofHunk h
    rw [heq] at hsource htarget
    rcases hh.changes with hchange | hchange
    . exact hchange (List.length_eq_zero_iff.1 hsource.symm)
    . exact hchange (List.length_eq_zero_iff.1 htarget.symm)
  rw [Script.hunks_of_changes hne fun _ => Script.isShared_of_mem_ofHunk]
  unfold Script.hunk
  rw [Script.side_removed_ofHunk, Script.side_added_ofHunk]
  rw [Script.side_ofSide hh.source.lines_of_noNewline]
  rw [Script.side_ofSide hh.target.lines_of_noNewline]

theorem render_eq_lines {h : Hunk} (hh : h.Readable) :
    h.render =
      HeaderForm.line {} h.source.range h.target.range :: Script.lines (Script.ofHunk h) := by
  have hlines : Script.lines (Script.ofHunk h) =
      renderSide '-' h.source ++ renderSide '+' h.target := by
    unfold Script.lines Script.ofHunk
    rw [List.flatMap_append]
    have hsource := Script.lines_ofSide .removed hh.source.lines_of_noNewline
    have htarget := Script.lines_ofSide .added hh.target.lines_of_noNewline
    exact congrArg₂ (· ++ ·) hsource htarget
  rw [render, header_eq_line, hlines]

theorem readBlock_render {h : Hunk} (hh : h.Readable) {rest : List Text}
    (hrest : Block.Unmarked rest) (n : Nat) (looked : Bool) :
    ∃ looked', readBlock ⟨h.render ++ rest, n, looked⟩ =
      .ok [h] ⟨rest, n + h.render.length, looked'⟩ := by
  have hread := readBlock_lines {} hh.source.legible hh.target.legible
    (s := Script.ofHunk h) (Script.sourceCount_ofHunk h).symm (Script.targetCount_ofHunk h).symm
    hrest n looked
  rw [hunks_ofHunk hh] at hread
  rw [render_eq_lines hh]
  simpa [Nat.add_assoc, Nat.add_comm 1] using hread

/-- Neither a block nor a marker comes next. -/
def Ends (rest : List Text) : Prop :=
  Block.Unmarked rest ∧ ∀ line ∈ rest.head?, line.startsWith "@@" = false

theorem readBlocks_of_ends {rest : List Text} (h : Ends rest) (n : Nat) (looked : Bool) :
    readBlocks ⟨rest, n, looked⟩ = .ok [] ⟨rest, n, true⟩ := by
  cases rest with
  | nil => simp [readBlocks]
  | cons line rest => simp [readBlocks, h.2 line rfl]

theorem readBlocks_cons {line : Text} {ls rest : List Text} {n m : Nat} {looked looked' : Bool}
    {hs more : List Hunk} {r : LineReader} (hline : line.startsWith "@@" = true)
    (hblock : readBlock ⟨line :: ls, n, looked⟩ = .ok hs ⟨rest, m, looked'⟩)
    (hmore : readBlocks ⟨rest, m, looked'⟩ = .ok more r) :
    readBlocks ⟨line :: ls, n, looked⟩ = .ok (hs ++ more) r := by
  rw [readBlocks]
  simp only [hline, ↓reduceIte]
  split
  . next heq => simp [heq] at hblock
  . next heq =>
    rw [heq] at hblock
    cases hblock
    rw [hmore]

theorem HeaderForm.startsWith_line (form : HeaderForm) (source target : Range) :
    (form.line source target).startsWith "@@" = true := by
  simp [HeaderForm.line, ofString, startsWith, after?]

/-- What follows a hunk is the header of the next one, which is no marker. -/
theorem unmarked_flatMap_render (hs : List Hunk) {rest : List Text} (hrest : Block.Unmarked rest) :
    Block.Unmarked (hs.flatMap render ++ rest) := by
  cases hs with
  | nil => exact hrest
  | cons h hs =>
    rintro line ⟨⟩
    simp [header, ofString]

theorem readBlocks_render {hs : List Hunk} (hwf : ∀ h ∈ hs, h.Readable) {rest : List Text}
    (hrest : Ends rest) (n : Nat) (looked : Bool) :
    readBlocks ⟨hs.flatMap render ++ rest, n, looked⟩ =
      .ok hs ⟨rest, n + (hs.flatMap render).length, true⟩ := by
  induction hs generalizing n looked with
  | nil => exact readBlocks_of_ends hrest n looked
  | cons h hs ih =>
    rw [List.forall_mem_cons] at hwf
    obtain ⟨looked', hblock⟩ :=
      readBlock_render hwf.1 (unmarked_flatMap_render hs hrest.1) n looked
    have hmore := ih hwf.2 (n + h.render.length) looked'
    rw [List.flatMap_cons, List.append_assoc]
    rw [render_eq_lines hwf.1] at hblock ⊢
    have hread := readBlocks_cons (HeaderForm.startsWith_line _ _ _) hblock (by
      rw [render_eq_lines hwf.1] at hmore
      exact hmore)
    rw [List.length_append, ← Nat.add_assoc]
    exact hread

/-- The lines of a hunk behind its header. -/
def body (h : Hunk) : List Text := renderSide '-' h.source ++ renderSide '+' h.target

theorem render_eq_cons_body (h : Hunk) : h.render = h.header :: h.body := rfl

/-- The lines in the body of a written hunk. -/
inductive BodyLine : Text → Prop
  | removed (text : Text) : BodyLine (.char '-' :: text)
  | added (text : Text) : BodyLine (.char '+' :: text)
  | marker (text : Text) : BodyLine (.char '\\' :: text)

theorem bodyLine_of_mem_body {h : Hunk} {line : Text} (hline : line ∈ h.body) : BodyLine line := by
  have hside {mark : Char} (hmark : ∀ text, BodyLine (.char mark :: text)) {s : HunkSide}
      (hmem : line ∈ renderSide mark s) : BodyLine line := by
    rcases List.mem_append.1 hmem with hmem | hmem
    . obtain ⟨text, _, rfl⟩ := List.mem_map.1 hmem
      exact hmark text
    . split at hmem
      . rw [List.mem_singleton.1 hmem]
        exact .marker _
      . contradiction
  rcases List.mem_append.1 hline with hline | hline
  . exact hside .removed hline
  . exact hside .added hline

theorem plain_header (h : Hunk) : Plain h.header := by
  unfold header
  simp only [plain_append, Range.brief_eq_written]
  exact ⟨⟨⟨⟨by decide, Range.plain_written _ _⟩, by decide⟩, Range.plain_written _ _⟩, by decide⟩

/-- Hunks of which every line comes back from its bytes. -/
def HasLines (h : Hunk) : Prop := ∀ line ∈ h.source.lines ++ h.target.lines, IsLine line

theorem WellFormed.hasLines {h : Hunk} (hh : h.WellFormed) : h.HasLines := by
  intro line hline
  rcases List.mem_append.1 hline with hline | hline
  . exact ⟨hh.source.bytes line hline, hh.source.unbroken line hline⟩
  . exact ⟨hh.target.bytes line hline, hh.target.unbroken line hline⟩

theorem isLine_of_mem_renderSide {mark : Char} (hmark : mark ≠ '\n') {s : HunkSide}
    (hs : ∀ line ∈ s.lines, IsLine line) {line : Text} (hline : line ∈ renderSide mark s) :
    IsLine line := by
  rcases List.mem_append.1 hline with hline | hline
  . obtain ⟨text, htext, rfl⟩ := List.mem_map.1 hline
    obtain ⟨hbytes, hunbroken⟩ := hs text htext
    refine ⟨fromBytes_char_cons.2 hbytes, ?_⟩
    rw [List.mem_cons, not_or]
    exact ⟨fun h => hmark (Sym.char.inj h).symm, hunbroken⟩
  . split at hline
    . rw [List.mem_singleton.1 hline]
      exact Plain.isLine (by decide)
    . contradiction

theorem isLine_of_mem_render {h : Hunk} (hh : h.HasLines) {line : Text} (hline : line ∈ h.render) :
    IsLine line := by
  obtain ⟨hsource, htarget⟩ := List.forall_mem_append.1 hh
  rcases List.mem_cons.1 hline with rfl | hline
  . exact (plain_header h).isLine
  . rcases List.mem_append.1 hline with hline | hline
    . exact isLine_of_mem_renderSide (by decide) hsource hline
    . exact isLine_of_mem_renderSide (by decide) htarget hline

end Hunk

end Dvcs
