import Dvcs.Commit.Dump
import Dvcs.Proofs.Commit.Record
import Dvcs.Proofs.Patch.Frame

/-!
This module contains the reading of commit streams. Inside of a diff no line starts like a record,
and a record is read by counting; so what the lines of a commit say cannot be taken for a frame.
-/

namespace Dvcs

namespace Commit

open Text

/-- The lines of a commit whose diffs are shown in some way. -/
def encodeWith (lines : Diff → List Text) (c : Commit) : List Text :=
  c.metadata.encode ++ c.parentDiffs.flatMap fun d => marker d.source :: lines d

/-- Diffs that come back from the lines they are shown with, and are not cut by these. -/
structure Shows (lines : Diff → List Text) (d : Diff) : Prop where
  read : ∃ r, Patch.readExtended Patch.toEnd (.ofLines (lines d)) = .ok d.patches r
  quiet : ∀ line ∈ lines d, atRecord line = false

/-- Commits with one diff for each parent. -/
structure Framed (c : Commit) : Prop where
  metadata : c.metadata.WellFormed
  sources : c.parentDiffs.map (·.source) = c.metadata.parents
  targets : ∀ d ∈ c.parentDiffs, d.target = some c.metadata.hash

/-- The input ends, or a record or marker comes next. -/
def AtFrame (more : List Text) : Prop := ∀ line ∈ more.head?, atRecord line = true

theorem AtFrame.ends {more : List Text} (h : AtFrame more) : Hunk.Ends more := by
  have hhead {line : Text} (hline : line ∈ more.head?) : ∃ t, line = Metadata.sentinel ++ t := by
    obtain ⟨t, ht⟩ := Option.isSome_iff_exists.1 (h line hline)
    exact ⟨t, eq_append_of_after? ht⟩
  constructor
  . intro line hline
    obtain ⟨t, rfl⟩ := hhead hline
    simp [Metadata.sentinel, ofString]
  . intro line hline
    obtain ⟨t, rfl⟩ := hhead hline
    rfl

theorem atFrame_diffs_append (lines : Diff → List Text) (ds : List Diff) {more : List Text}
    (h : AtFrame more) : AtFrame ((ds.flatMap fun d => marker d.source :: lines d) ++ more) := by
  cases ds with
  | nil => exact h
  | cons d ds =>
    rintro line ⟨⟩
    rfl

theorem atFrame_flatMap_encodeWith (lines : Diff → List Text) (cs : List Commit) :
    AtFrame (cs.flatMap (encodeWith lines)) := by
  cases cs with
  | nil => nofun
  | cons c cs =>
    rintro line ⟨⟩
    rfl

theorem next_cons (line : Text) (rest : List Text) (n : Nat) (looked : Bool) :
    Reading.next ⟨line :: rest, n, looked⟩ = .ok (some line) ⟨rest, n + 1, false⟩ := rfl

theorem readDiffs_encode {lines : Diff → List Text} {hash : Hash} {ds : List Diff}
    (hshows : ∀ d ∈ ds, Shows lines d) (htargets : ∀ d ∈ ds, d.target = some hash)
    {more : List Text} (hmore : AtFrame more) (n : Nat) (looked : Bool) :
    ∃ looked',
      readDiffs hash (ds.map (·.source))
          ⟨(ds.flatMap fun d => marker d.source :: lines d) ++ more, n, looked⟩ =
        .ok ds ⟨more, n + (ds.flatMap fun d => marker d.source :: lines d).length, looked'⟩ := by
  induction ds generalizing n looked with
  | nil => exact ⟨looked, rfl⟩
  | cons d ds ih =>
    rw [List.forall_mem_cons] at hshows htargets
    obtain ⟨r, hread⟩ := hshows.1.read
    -- the patches end at the marker of the next parent, or at the frame behind the commit
    have hnext := atFrame_diffs_append lines ds hmore
    have hpatches := Patch.readExtended_frame hread hshows.1.quiet hnext hnext.ends (n + 1) false
    obtain ⟨looked', hrest⟩ := ih hshows.2 htargets.2 (n + 1 + (lines d).length) true
    refine ⟨looked', ?_⟩
    rw [List.map_cons, readDiffs, List.flatMap_cons]
    simp only [List.cons_append, List.append_assoc]
    rw [Reading.bind_of_ok (next_cons ..)]
    rw [Reading.bind_of_ok (Metadata.ensure_of_holds (by simp) _ _)]
    rw [Reading.bind_of_ok hpatches]
    rw [Reading.bind_of_ok hrest]
    simp only [pure, EStateM.pure, ← htargets.1, List.length_cons, List.length_append]
    congr 2
    omega

theorem read_encodeWith {lines : Diff → List Text} {c : Commit} (hc : c.Framed)
    (hshows : ∀ d ∈ c.parentDiffs, Shows lines d) {more : List Text} (hmore : AtFrame more)
    (n : Nat) (looked : Bool) :
    ∃ looked', read ⟨c.encodeWith lines ++ more, n, looked⟩ =
      .ok c ⟨more, n + (c.encodeWith lines).length, looked'⟩ := by
  obtain ⟨looked', hdiffs⟩ := readDiffs_encode hshows hc.targets hmore
    (n + c.metadata.encode.length) false
  rw [hc.sources] at hdiffs
  refine ⟨looked', ?_⟩
  unfold read encodeWith
  rw [List.append_assoc]
  rw [Reading.bind_of_ok (Metadata.read_encode hc.metadata ..)]
  rw [Reading.bind_of_ok hdiffs]
  rw [List.length_append, ← Nat.add_assoc]
  rfl

theorem readAll_encodeWith {lines : Diff → List Text} {cs : List Commit}
    (hcs : ∀ c ∈ cs, c.Framed) (hshows : ∀ c ∈ cs, ∀ d ∈ c.parentDiffs, Shows lines d) :
    readAll (.ofLines (cs.flatMap (encodeWith lines))) =
      { items := cs, reader := ⟨[], (cs.flatMap (encodeWith lines)).length, true⟩ } := by
  have hread := Reading.many_flatMap read_consumes AtFrame (atFrame_flatMap_encodeWith lines)
    (fun c hc more hmore n looked => read_encodeWith (hcs c hc) (hshows c hc) hmore n looked)
    0 false
  rw [Nat.zero_add] at hread
  exact hread

theorem readAll_metadata {ms : List Metadata} (hms : ∀ m ∈ ms, m.WellFormed) :
    Metadata.readAll (.ofLines (ms.flatMap Metadata.encode)) =
      { items := ms, reader := ⟨[], (ms.flatMap Metadata.encode).length, true⟩ } := by
  have hread := Reading.many_flatMap Metadata.read_consumes (fun _ => True) (fun _ => trivial)
    (fun m hm more _ n looked => ⟨false, Metadata.read_encode (hms m hm) more n looked⟩) 0 false
  rw [Nat.zero_add] at hread
  exact hread

theorem atRecord_of_mem_renderHunk {h : Hunk} {line : Text} (hline : line ∈ h.render) :
    atRecord line = false := by
  rcases List.mem_cons.1 hline with rfl | hline
  . rfl
  . cases Hunk.bodyLine_of_mem_body hline <;> rfl

theorem atRecord_of_headLine {line : Text} (h : Patch.HeadLine line) : atRecord line = false := by
  cases h with
  | mode hlabel type =>
    simp only [Patch.modeLabels, List.mem_cons, List.not_mem_nil, or_false] at hlabel
    rcases hlabel with rfl | rfl | rfl | rfl <;> rfl
  | path label hlabel t =>
    simp only [Patch.pathLabels, List.mem_cons, List.not_mem_nil, or_false] at hlabel
    rcases hlabel with rfl | rfl | rfl | rfl <;> rfl
  | _ => rfl

theorem atRecord_of_outerLine {line : Text} (h : Patch.OuterLine line) : atRecord line = false := by
  cases h with
  | head h => exact atRecord_of_headLine h
  | _ => rfl

theorem atRecord_of_mem_render {p : Patch} {line : Text} (h : line ∈ p.render) :
    atRecord line = false := by
  -- each line starts with a word or with a mark that is no `#`
  rcases Patch.mem_render h with houter | ⟨hunk, _, hline⟩
  . exact atRecord_of_outerLine houter
  . exact atRecord_of_mem_renderHunk hline

theorem atRecord_of_mem_flatMap_render {ps : List Patch} {line : Text}
    (h : line ∈ ps.flatMap Patch.render) : atRecord line = false := by
  obtain ⟨p, _, hmem⟩ := List.mem_flatMap.1 h
  exact atRecord_of_mem_render hmem

theorem shows_lines {d : Diff}
    (h : ∃ r, Patch.readExtended Patch.toEnd (.ofLines d.lines) = .ok d.patches r) :
    Shows Diff.lines d :=
  ⟨h, fun _ => atRecord_of_mem_flatMap_render⟩

theorem readAll_encode {cs : List Commit} (hcs : ∀ c ∈ cs, c.Framed)
    (hdiffs : ∀ c ∈ cs, ∀ d ∈ c.parentDiffs,
      ∃ r, Patch.readExtended Patch.toEnd (.ofLines d.lines) = .ok d.patches r) :
    readAll (.ofLines (cs.flatMap encode)) =
        { items := cs, reader := ⟨[], (cs.flatMap encode).length, true⟩ } ∧
      Metadata.readAll (.ofLines (cs.flatMap (·.metadata.encode))) =
        { items := cs.map (·.metadata)
          reader := ⟨[], (cs.flatMap (·.metadata.encode)).length, true⟩ } := by
  have hmetadata : ∀ m ∈ cs.map (·.metadata), m.WellFormed := by
    intro m hm
    obtain ⟨c, hc, rfl⟩ := List.mem_map.1 hm
    exact (hcs c hc).metadata
  constructor
  . exact readAll_encodeWith hcs fun c hc d hd => shows_lines (hdiffs c hc d hd)
  . have hread := readAll_metadata hmetadata
    rw [List.flatMap_map] at hread
    exact hread

/-- A file with one line, which looks like the start of a record. -/
def lookalike : Patch where
  source := {}
  target := { path := some ⟨[], ["diff --git"]⟩, type := some .regular }
  status := .added
  hunks := [⟨⟨0, [], false⟩, ⟨1, ["#@!_-=&"], false⟩⟩]

theorem wellFormed_lookalike : lookalike.WellFormed where
  paths := ⟨rfl, rfl⟩
  types := ⟨rfl, rfl⟩
  hashes := rfl
  score := nofun
  binary := by decide
  hunks := by
    intro h hh
    rw [List.mem_singleton.1 hh]
    have hsource : Hunk.SideWellFormed ⟨0, [], false⟩ :=
      ⟨⟨by decide, by decide, by decide⟩, nofun, nofun, by decide⟩
    have htarget : Hunk.SideWellFormed ⟨1, ["#@!_-=&"], false⟩ := by
      refine ⟨⟨by decide, by decide, by decide⟩, ?_, by decide, by decide⟩
      intro line hline
      rw [List.mem_singleton.1 hline]
      exact Plain.fromBytes (by decide)
    exact ⟨hsource, htarget, .inr (by decide)⟩
  sourcePath := nofun
  targetPath := by
    rintro q ⟨⟩
    exact ⟨rfl, Plain.fromBytes (by decide)⟩

/-- A commit whose names and message look like the frames of a stream. -/
def awkward : Commit where
  metadata := {
    hash := ⟨List.replicate 40 (.char 'a'), by decide⟩
    parents := [.null]
    author := ⟨"#@!_-=&", none⟩
    committer := ⟨[], some "diff --git a/x b/x"⟩
    timestamp := ⟨-1000000, by decide⟩
    message := ["#@!_-=&", [], "#@!_-=&diff 0000000000000000000000000000000000000000"] }
  parentDiffs := [⟨.null, some ⟨List.replicate 40 (.char 'a'), by decide⟩, [lookalike]⟩]

theorem framed_awkward : awkward.Framed where
  metadata := ⟨by decide, by decide, by decide, rfl, by decide⟩
  sources := rfl
  targets := by
    intro d hd
    rw [List.mem_singleton.1 hd]
    rfl

theorem read_diffs_awkward : ∀ d ∈ awkward.parentDiffs,
    ∃ r, Patch.readExtended Patch.toEnd (.ofLines d.lines) = .ok d.patches r := by
  intro d hd
  rw [List.mem_singleton.1 hd]
  exact ⟨_, Patch.readExtended_render (by simpa using wellFormed_lookalike) 0 false⟩

theorem readAll_encode_awkward :
    readAll (.ofLines ([awkward, awkward].flatMap encode)) =
        { items := [awkward, awkward], reader := ⟨[], 38, true⟩ } ∧
      Metadata.readAll (.ofLines ([awkward, awkward].flatMap (·.metadata.encode))) =
        { items := [awkward.metadata, awkward.metadata], reader := ⟨[], 24, true⟩ } := by
  apply readAll_encode
  . simpa using framed_awkward
  . simpa using read_diffs_awkward

end Commit

end Dvcs
