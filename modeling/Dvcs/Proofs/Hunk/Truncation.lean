import Dvcs.Proofs.Hunk.Normal
import Dvcs.Proofs.Hunk.Seen

/-!
This module contains the reading of written hunks that are cut inside of their lines. Where the
whole can be read, every block takes in just the lines of its hunk, so a block that is cut before
its counts are met is still open at the end of the input.
-/

namespace Dvcs

namespace Hunk

open Reading Text

/-- How many lines of a body take from the source. -/
def removals (ls : List Text) : Nat := ls.countP (·.head? = some (.char '-'))

/-- How many lines of a body put into the target. -/
def additions (ls : List Text) : Nat := ls.countP (·.head? = some (.char '+'))

theorem removals_cons (line : Text) (ls : List Text) :
    removals (line :: ls) = removals [line] + removals ls :=
  @List.countP_append _ _ [line] ls

theorem additions_cons (line : Text) (ls : List Text) :
    additions (line :: ls) = additions [line] + additions ls :=
  @List.countP_append _ _ [line] ls

theorem countP_renderSide (mark other : Char) (hmark : mark ≠ '\\') (s : HunkSide) :
    (renderSide other s).countP (·.head? = some (.char mark)) =
      if other = mark then s.lines.length else 0 := by
  have hmarker : ([newlineMarker].countP fun line => line.head? = some (.char mark)) = 0 := by
    rw [List.countP_eq_zero]
    intro line hline
    rw [List.mem_singleton.1 hline]
    simpa [newlineMarker, ofString] using hmark.symm
  have hmarkers : ((if s.noNewline then [newlineMarker] else []).countP fun line =>
      line.head? = some (.char mark)) = 0 := by
    split
    . exact hmarker
    . rfl
  unfold renderSide
  rw [List.countP_append, hmarkers, Nat.add_zero, List.countP_map]
  split
  . next heq => simp [Function.comp_def, heq]
  . next hne => simp [Function.comp_def, hne]

theorem removals_body (h : Hunk) : removals h.body = h.source.lines.length := by
  unfold removals body
  rw [List.countP_append, countP_renderSide _ _ (by decide), countP_renderSide _ _ (by decide)]
  rfl

theorem additions_body (h : Hunk) : additions h.body = h.target.lines.length := by
  unfold additions body
  rw [List.countP_append, countP_renderSide _ _ (by decide), countP_renderSide _ _ (by decide)]
  exact Nat.zero_add _

namespace Block

variable {b b' : Block} {n : Nat} {line : Text} {ls more : List Text}

theorem left_of_step (hline : BodyLine line) (h : b.step line = .ok b') :
    b.sourceLeft = b'.sourceLeft + removals [line] ∧
      b.targetLeft = b'.targetLeft + additions [line] := by
  cases hline with
  | removed text =>
    simp only [step] at h
    split at h
    . contradiction
    . cases h
      simp [removals, additions]
      omega
  | added text =>
    simp only [step] at h
    split at h
    . contradiction
    . cases h
      simp [removals, additions]
      omega
  | marker text =>
    simp only [step] at h
    cases h
    rw [(left_markNoNewline b).1, (left_markNoNewline b).2]
    exact ⟨rfl, rfl⟩

theorem step_of_left (hline : BodyLine line) (hs : removals [line] ≤ b.sourceLeft)
    (ht : additions [line] ≤ b.targetLeft) : ∃ b', b.step line = .ok b' := by
  cases hline with
  | removed text =>
    have hne : b.sourceLeft ≠ 0 := by
      simp [removals] at hs
      omega
    exact ⟨_, by simp only [step, if_neg hne]; rfl⟩
  | added text =>
    have hne : b.targetLeft ≠ 0 := by
      simp [additions] at ht
      omega
    exact ⟨_, by simp only [step, if_neg hne]; rfl⟩
  | marker text => exact ⟨_, rfl⟩

/-- A block whose counts are not met by the lines up to the end of the input. -/
theorem readBody_open (hls : ∀ line ∈ ls, BodyLine line) (hs : removals ls ≤ b.sourceLeft)
    (ht : additions ls ≤ b.targetLeft)
    (hopen : removals ls < b.sourceLeft ∨ additions ls < b.targetLeft) :
    b.readBody n ls =
      .error (.diff (n + ls.length + 1) .noHunkLine) ⟨[], n + ls.length, false⟩ := by
  have hincomplete : b.isComplete = false := by
    rw [← Bool.not_eq_true, isComplete_iff]
    omega
  induction ls generalizing b n with
  | nil => simp [readBody, hincomplete]
  | cons line ls ih =>
    rw [List.forall_mem_cons] at hls
    rw [removals_cons] at hs hopen
    rw [additions_cons] at ht hopen
    obtain ⟨b', hstep⟩ := step_of_left hls.1 (Nat.le_trans (Nat.le_add_right ..) hs)
      (Nat.le_trans (Nat.le_add_right ..) ht)
    obtain ⟨hsource, htarget⟩ := left_of_step hls.1 hstep
    have hincomplete' : b'.isComplete = false := by
      rw [← Bool.not_eq_true, isComplete_iff]
      omega
    rw [readBody_cons hincomplete hstep]
    rw [ih hls.2 (by omega) (by omega) (by omega) hincomplete', List.length_cons]
    rw [Nat.add_assoc n 1, Nat.add_comm 1]

/-- A block that counts no more than the lines of a body ends inside of them. -/
theorem rest_of_readBody {r : LineReader} (hls : ∀ line ∈ ls, BodyLine line)
    (hs : b.sourceLeft ≤ removals ls) (ht : b.targetLeft ≤ additions ls)
    (h : b.readBody n (ls ++ more) = .ok b' r) :
    ∃ left, (∀ line ∈ left, BodyLine line) ∧ r.rest = left ++ more ∧
      removals ls = b.sourceLeft + removals left ∧
      additions ls = b.targetLeft + additions left := by
  induction ls generalizing b n with
  | nil =>
    have hcomplete : b.isComplete = true := by
      rw [isComplete_iff]
      exact ⟨Nat.le_zero.1 hs, Nat.le_zero.1 ht⟩
    obtain ⟨hsource, htarget⟩ := (isComplete_iff b).1 hcomplete
    rw [List.nil_append, readBody_of_isComplete hcomplete] at h
    cases h
    exact ⟨[], List.forall_mem_nil _, rfl, by simp [hsource], by simp [htarget]⟩
  | cons line ls ih =>
    cases hcomplete : b.isComplete with
    | true =>
      obtain ⟨hsource, htarget⟩ := (isComplete_iff b).1 hcomplete
      rw [readBody_of_isComplete hcomplete] at h
      cases h
      exact ⟨line :: ls, hls, rfl, by simp [hsource], by simp [htarget]⟩
    | false =>
      rw [List.forall_mem_cons] at hls
      rw [removals_cons] at hs ⊢
      rw [additions_cons] at ht ⊢
      cases hstep : b.step line with
      | error fault => simp [readBody, hcomplete, hstep] at h
      | ok b₁ =>
        obtain ⟨hsource, htarget⟩ := left_of_step hls.1 hstep
        rw [List.cons_append, readBody_cons hcomplete hstep] at h
        obtain ⟨left, hleft, hrest, hremovals, hadditions⟩ :=
          ih hls.2 (by omega) (by omega) h
        exact ⟨left, hleft, hrest, by omega, by omega⟩

end Block

/-- Lines of which the first one belongs to the body of a hunk. A reader of blocks stops there, and
a reader of patches goes no further. -/
def Stuck (rest : List Text) : Prop := ∃ line ∈ rest.head?, BodyLine line

theorem Block.rest_of_finish {b : Block} {n : Nat} {left more : List Text} {looked : Bool}
    {hs : List Hunk} {r : LineReader} (hleft : ∀ line ∈ left, BodyLine line)
    (hmore : Unmarked more) (h : b.finish ⟨left ++ more, n, looked⟩ = .ok hs r) :
    Stuck r.rest ∨ r.rest = more ∧ removals left = 0 ∧ additions left = 0 := by
  cases left with
  | nil =>
    rw [List.nil_append, finish_of_unmarked b hmore] at h
    cases h
    exact .inr ⟨rfl, rfl, rfl⟩
  | cons line left =>
    rw [List.forall_mem_cons] at hleft
    cases hleft.1 with
    | removed text =>
      cases h
      exact .inl ⟨_, rfl, .removed text⟩
    | added text =>
      cases h
      exact .inl ⟨_, rfl, .added text⟩
    | marker text =>
      -- the marker still belongs to the block, and what is left then may be stuck
      cases h
      cases left with
      | nil => exact .inr ⟨rfl, rfl, rfl⟩
      | cons line' left => exact .inl ⟨line', rfl, hleft.2 line' List.mem_cons_self⟩

/-- The header of a hunk, read at the line number `n`, counts the lines of the hunk. -/
def Counted (h : Hunk) (n : Nat) : Prop :=
  ∃ b : Block, b.sourceLeft = h.source.lines.length ∧ b.targetLeft = h.target.lines.length ∧
    ∀ rest looked, readBlock ⟨h.header :: rest, n, looked⟩ = b.content ⟨rest, n + 1, false⟩

/-- Lines from the body of a hunk that do not meet the counts of its header. -/
structure BreaksOff (h : Hunk) (front : List Text) : Prop where
  body : front <+: h.body
  short : removals front < h.source.lines.length ∨ additions front < h.target.lines.length

theorem BreaksOff.exists_lost {h : Hunk} {front : List Text} (hfront : h.BreaksOff front) :
    ∃ lost, lost ≠ [] ∧ h.body = front ++ lost := by
  obtain ⟨lost, hbody⟩ := hfront.body
  refine ⟨lost, ?_, hbody.symm⟩
  rintro rfl
  have hshort := hfront.short
  rw [List.append_nil] at hbody
  rw [hbody, removals_body, additions_body] at hshort
  omega

theorem Counted.readBlock_breaksOff {h : Hunk} {n : Nat} (hcounted : h.Counted n)
    {front : List Text} (hfront : h.BreaksOff front) (looked : Bool) :
    ∃ e r, readBlock ⟨h.header :: front, n, looked⟩ = .error e r ∧
      EndsInBlock (n + (h.header :: front).length) e := by
  obtain ⟨b, hsource, htarget, hread⟩ := hcounted
  have hopen := Block.readBody_open (b := b) (n := n + 1)
    (fun line (hline : line ∈ front) => bodyLine_of_mem_body (hfront.body.subset hline))
    (by rw [hsource, ← removals_body]; exact hfront.body.sublist.countP_le)
    (by rw [htarget, ← additions_body]; exact hfront.body.sublist.countP_le)
    (by rw [hsource, htarget]; exact hfront.short)
  refine ⟨.diff (n + 1 + front.length + 1) .noHunkLine, ⟨[], n + 1 + front.length, false⟩, ?_, ?_⟩
  . rw [hread]
    exact bind_of_error (p := b.body) hopen
  . rw [EndsInBlock, List.length_cons, Nat.add_comm front.length, Nat.add_assoc n 1]

theorem readBlock_header (h : Hunk) (n : Nat) :
    (∃ e, ∀ rest looked, ∃ r, readBlock ⟨h.header :: rest, n, looked⟩ = .error e r) ∨
    ∃ b : Block, b.sourceLeft ≤ h.source.lines.length ∧ b.targetLeft ≤ h.target.lines.length ∧
      ∀ rest looked, readBlock ⟨h.header :: rest, n, looked⟩ = b.content ⟨rest, n + 1, false⟩ := by
  rcases readBlock_cons h.header n with ⟨e, _, herror⟩ | ⟨_, s, t, hranges, hs, ht, hread⟩
  . exact .inl ⟨e, herror⟩
  . rw [header_eq_line, headerRanges?_line] at hranges
    cases hranges
    exact .inr ⟨Block.ofRanges s t, Range.count_le_of_ofText_brief (ofText_of_range hs),
      Range.count_le_of_ofText_brief (ofText_of_range ht), hread⟩

variable {h : Hunk} {n : Nat} {looked : Bool} {hs : List Hunk} {more : List Text} {r : LineReader}

theorem rest_of_readBlock_render (hmore : Block.Unmarked more)
    (hread : readBlock ⟨h.render ++ more, n, looked⟩ = .ok hs r) :
    Stuck r.rest ∨ r.rest = more ∧ h.Counted n := by
  rw [render_eq_cons_body, List.cons_append] at hread
  rcases readBlock_header h n with ⟨e, herror⟩ | ⟨b, hsource, htarget, hcontent⟩
  . obtain ⟨r', hr'⟩ := herror (h.body ++ more) looked
    rw [hread] at hr'
    contradiction
  . rw [hcontent] at hread
    obtain ⟨b', r₁, hbody, hfinish⟩ := Reading.bind_eq_ok hread
    obtain ⟨left, hleft, hrest, hremovals, hadditions⟩ :=
      Block.rest_of_readBody (fun _ => bodyLine_of_mem_body)
        (by rw [removals_body]; exact hsource) (by rw [additions_body]; exact htarget) hbody
    rw [removals_body] at hremovals
    rw [additions_body] at hadditions
    obtain ⟨ls, m, looked₁⟩ := r₁
    obtain rfl : ls = left ++ more := hrest
    rcases Block.rest_of_finish hleft hmore hfinish with hstuck | ⟨hrest, hnone, hnone'⟩
    . exact .inl hstuck
    . exact .inr ⟨hrest, b, by omega, by omega, hcontent⟩

theorem startsWith_header (h : Hunk) : h.header.startsWith "@@" = true := by
  rw [header_eq_line]
  exact HeaderForm.startsWith_line _ _ _

theorem readBlocks_render_append (h : Hunk) (more : List Text) (n : Nat) (looked : Bool) :
    readBlocks ⟨h.render ++ more, n, looked⟩ =
      (return (← readBlock) ++ (← readBlocks) : Reading (List Hunk))
        ⟨h.render ++ more, n, looked⟩ :=
  readBlocks_of_header (startsWith_header h) (h.body ++ more) n looked

theorem readBlocks_of_stuck {rest : List Text} (hrest : Stuck rest) (n : Nat) (looked : Bool) :
    readBlocks ⟨rest, n, looked⟩ = .ok [] ⟨rest, n, true⟩ := by
  obtain ⟨line, hline, hbody⟩ := hrest
  obtain ⟨rest, rfl⟩ := List.head?_eq_some_iff.1 hline
  rw [readBlocks_eq]
  cases hbody <;> rfl

/-- Where all blocks can be read and no line is left over, each hunk has its own block. -/
theorem readBlocks_render_cons (hmore : Block.Unmarked more)
    (hread : readBlocks ⟨h.render ++ more, n, looked⟩ = .ok hs r) (hrest : ¬ Stuck r.rest) :
    h.Counted n ∧ (∃ block, Takes readBlock n h.render block (·.head? = more.head?)) ∧
      ∃ hs' looked', readBlocks ⟨more, n + h.render.length, looked'⟩ = .ok hs' r := by
  have hsettled : Settled true EndsInBlock readBlock n (h.render ++ more) :=
    settled_readBlock h.header (h.body ++ more) n
  have hown {block : List Hunk} {r' : LineReader} {hs' : List Hunk}
      (hblock : readBlock ⟨h.render ++ more, n, looked⟩ = .ok block r')
      (hblocks : readBlocks r' = .ok hs' r) : r'.rest = more ∧ h.Counted n := by
    refine (rest_of_readBlock_render hmore hblock).resolve_left fun hstuck => ?_
    rw [readBlocks_of_stuck hstuck] at hblocks
    cases hblocks
    exact hrest hstuck
  rw [readBlocks_render_append] at hread
  obtain ⟨block, hs', looked', htakes, hblock, hblocks⟩ :=
    takes_of_parts hsettled hread fun _ _ _ hblock hblocks => (hown hblock hblocks).1
  exact ⟨(hown hblock hblocks).2, ⟨block, htakes⟩, hs', looked', hblocks⟩

theorem rest_of_readBlocks_render {hs' : List Hunk} (hmore : Ends more)
    (hread : readBlocks ⟨hs.flatMap render ++ more, n, looked⟩ = .ok hs' r) :
    Stuck r.rest ∨ r.rest = more := by
  rw [or_iff_not_imp_left]
  intro hrest
  induction hs generalizing n looked hs' with
  | nil =>
    rw [List.flatMap_nil, List.nil_append, readBlocks_of_ends hmore] at hread
    cases hread
    rfl
  | cons h hs ih =>
    rw [List.flatMap_cons, List.append_assoc] at hread
    obtain ⟨_, _, _, _, hnext⟩ :=
      readBlocks_render_cons (unmarked_flatMap_render hs hmore.1) hread hrest
    exact ih hnext

/-- A hunk that breaks off is missed, wherever it stands. -/
theorem readBlocks_breaksOff {before after hs' : List Hunk} {front : List Text}
    (hmore : Block.Unmarked more)
    (hread : readBlocks ⟨(before ++ h :: after).flatMap render ++ more, n, looked⟩ = .ok hs' r)
    (hrest : ¬ Stuck r.rest) (hfront : h.BreaksOff front) (looked' : Bool) :
    ∃ e r', readBlocks ⟨before.flatMap render ++ h.header :: front, n, looked'⟩ = .error e r' ∧
      EndsInBlock (n + (before.flatMap render ++ h.header :: front).length) e := by
  induction before generalizing n looked looked' hs' with
  | nil =>
    rw [List.nil_append, List.flatMap_cons, List.append_assoc] at hread
    obtain ⟨hcounted, _⟩ :=
      readBlocks_render_cons (unmarked_flatMap_render after hmore) hread hrest
    obtain ⟨e, r', herror, hshort⟩ := hcounted.readBlock_breaksOff hfront looked'
    refine ⟨e, r', ?_, hshort⟩
    rw [List.flatMap_nil, List.nil_append, readBlocks_of_header (startsWith_header h)]
    exact bind_of_error herror
  | cons h₀ before ih =>
    rw [List.cons_append, List.flatMap_cons, List.append_assoc] at hread
    obtain ⟨_, ⟨block, htakes⟩, _, _, hnext⟩ :=
      readBlocks_render_cons (unmarked_flatMap_render _ hmore) hread hrest
    -- the hunk behind `h₀` starts with the same line, whether it breaks off or not
    have hhead : (before.flatMap render ++ h.header :: front).head? =
        ((before ++ h :: after).flatMap render ++ more).head? := by
      cases before <;> rfl
    rw [List.flatMap_cons, List.append_assoc, readBlocks_render_append]
    rw [List.length_append, ← Nat.add_assoc]
    exact error_of_parts htakes hhead (ih hnext) looked'

end Hunk

end Dvcs
