import Dvcs.Proofs.Commit.Compose
import Dvcs.Proofs.Patch.Truncation

/-!
This module contains the reading of commit streams that are cut. A record counts its lines, and a
commit has a marker for each parent; so a stream that is cut inside of a commit, other than behind a
whole patch of the last diff, is found out, and the commits in front of the cut are not lost.
-/

namespace Dvcs

namespace Commit

open Reading

/-- The markers and lines of some diffs. -/
def frames (ds : List Diff) : List Text := ds.flatMap fun d => marker d.source :: d.lines

theorem encode_eq_append (c : Commit) : c.encode = c.metadata.encode ++ frames c.parentDiffs := rfl

theorem frames_append (ds ds' : List Diff) : frames (ds ++ ds') = frames ds ++ frames ds' :=
  List.flatMap_append

theorem frames_cons (d : Diff) (ds : List Diff) :
    frames (d :: ds) = marker d.source :: (d.lines ++ frames ds) := rfl

/-- Places inside of a commit where a stream must not end, the lines of the commit in front of them,
and the errors for it. -/
inductive BreaksOff (c : Commit) : List Text → (Nat → ReadError → Prop) → Prop where
  | record {ls lost : List Text} (hencode : c.metadata.encode = ls ++ lost) (hls : ls ≠ [])
    (hlost : lost ≠ []) : BreaksOff c ls Metadata.EndsInRecord
  | marker {before : List Diff} {last : Diff} {ls lost : List Text}
    (hdiffs : c.parentDiffs = before ++ [last]) (hls : frames before = ls ++ lost) :
    BreaksOff c (c.metadata.encode ++ ls) EndsInDiffs
  | patch {before after : List Diff} {d : Diff} {front back : List Patch} {p : Patch}
    {ls : List Text} {blames : Nat → ReadError → Prop}
    (hdiffs : c.parentDiffs = before ++ d :: after) (hpatches : d.patches = front ++ p :: back)
    (hls : p.BreaksOff ls blames) :
    BreaksOff c
      (c.metadata.encode ++
        (frames before ++ marker d.source :: (front.flatMap Patch.render ++ ls)))
      blames

variable {c : Commit} {ls : List Text} {blames : Nat → ReadError → Prop}

theorem BreaksOff.exists_lost (h : c.BreaksOff ls blames) :
    ∃ lost, lost ≠ [] ∧ c.encode = ls ++ lost := by
  cases h with
  | @record _ lost hencode hls hlost =>
    refine ⟨lost ++ frames c.parentDiffs, by simp [hlost], ?_⟩
    rw [encode_eq_append, hencode, List.append_assoc]
  | @marker before last ls lost hdiffs hls =>
    refine ⟨lost ++ frames [last], by simp [frames], ?_⟩
    rw [encode_eq_append, hdiffs, frames_append, hls]
    simp only [List.append_assoc]
  | @patch before after d front back p ls blames hdiffs hpatches hls =>
    obtain ⟨lost, hne, hrender⟩ := hls.exists_lost
    refine ⟨lost ++ (back.flatMap Patch.render ++ frames after), by simp [hne], ?_⟩
    rw [encode_eq_append, hdiffs, frames_append, frames_cons, Diff.lines, hpatches]
    rw [List.flatMap_append, List.flatMap_cons, hrender]
    simp only [List.append_assoc, List.cons_append]

theorem BreaksOff.atFrame (h : c.BreaksOff ls blames) : AtFrame ls := by
  cases h with
  | record hencode hls hlost =>
    obtain ⟨line, rest, rfl⟩ := List.exists_cons_of_ne_nil hls
    obtain rfl : Metadata.sentinel = line := (List.cons.inj hencode).1
    rintro _ ⟨⟩
    rfl
  | marker | patch =>
    rintro _ ⟨⟩
    rfl

theorem BreaksOff.ne_nil (h : c.BreaksOff ls blames) : ls ≠ [] := by
  cases h with
  | record hencode hls hlost => exact hls
  | marker | patch => exact List.cons_ne_nil _ _

theorem readDiffs_cons_eq_ok {hash parent : Hash} {parents : List Hash} {r r' : LineReader}
    {ds : List Diff} (h : readDiffs hash (parent :: parents) r = .ok ds r') :
    ∃ r₁ ps r₂ ds', atMarker parent r = .ok () r₁ ∧
      Patch.readExtended atRecord r₁ = .ok ps r₂ ∧ readDiffs hash parents r₂ = .ok ds' r' := by
  rw [readDiffs_cons] at h
  obtain ⟨_, r₁, hmarker, h⟩ := bind_eq_ok h
  obtain ⟨ps, r₂, hpatches, h⟩ := bind_eq_ok h
  obtain ⟨ds', r₃, hdiffs, h⟩ := bind_eq_ok h
  cases h
  exact ⟨r₁, ps, r₂, ds', hmarker, hpatches, hdiffs⟩

section Markers

theorem countP_lines (d : Diff) : d.lines.countP atRecord = 0 := by
  rw [List.countP_eq_zero]
  intro line hline
  rw [atRecord_of_mem_flatMap_render hline]
  exact Bool.false_ne_true

theorem countP_frames (ds : List Diff) : (frames ds).countP atRecord = ds.length := by
  induction ds with
  | nil => rfl
  | cons d ds ih =>
    have hmarker : atRecord (marker d.source) = true := rfl
    rw [frames_cons, List.countP_cons_of_pos hmarker, List.countP_append, countP_lines, ih]
    rw [Nat.zero_add, List.length_cons]

theorem rest_of_atMarker {parent : Hash} {r r' : LineReader} (h : atMarker parent r = .ok () r') :
    r.rest = marker parent :: r'.rest := by
  obtain ⟨ls, n, looked⟩ := r
  cases ls with
  | nil => contradiction
  | cons line rest =>
    unfold atMarker at h
    rw [bind_of_ok (next_cons ..)] at h
    by_cases hline : line = marker parent
    . rw [Metadata.ensure_of_holds (by simp [hline])] at h
      cases h
      rw [hline]
    . have hother : decide (some line = some (marker parent)) = false := by simpa using hline
      rw [hother] at h
      contradiction

/-- Every diff that is read has its marker. -/
theorem length_parents_of_readDiffs {hash : Hash} {parents : List Hash} {r r' : LineReader}
    {ds : List Diff} (h : readDiffs hash parents r = .ok ds r') :
    parents.length + r'.rest.countP atRecord ≤ r.rest.countP atRecord := by
  induction parents generalizing r ds with
  | nil =>
    cases h
    simp
  | cons parent parents ih =>
    obtain ⟨r₁, ps, r₂, ds', hmarker, hpatches, hdiffs⟩ := readDiffs_cons_eq_ok h
    have hrest := rest_of_atMarker hmarker
    obtain ⟨taken, hreaches, _⟩ := Patch.reaches_of_readExtended hpatches
    have hmore := ih hdiffs
    have hhead : atRecord (marker parent) = true := rfl
    rw [hrest, List.countP_cons_of_pos hhead, hreaches, List.countP_append, List.length_cons]
    omega

end Markers

theorem readDiffs_append_of_error {hash : Hash} {parents parents' : List Hash}
    {r r' r'' : LineReader} {ds : List Diff} {e : ReadError}
    (h : readDiffs hash parents r = .ok ds r')
    (herror : readDiffs hash parents' r' = .error e r'') :
    readDiffs hash (parents ++ parents') r = .error e r'' := by
  induction parents generalizing r ds with
  | nil =>
    cases h
    exact herror
  | cons parent parents ih =>
    obtain ⟨r₁, ps, r₂, ds', hmarker, hpatches, hdiffs⟩ := readDiffs_cons_eq_ok h
    rw [List.cons_append, readDiffs_cons, bind_of_ok hmarker, bind_of_ok hpatches]
    exact bind_of_error (ih hdiffs)

theorem atMarker_cons (parent : Hash) (rest : List Text) (n : Nat) (looked : Bool) :
    atMarker parent ⟨marker parent :: rest, n, looked⟩ = .ok () ⟨rest, n + 1, false⟩ := by
  unfold atMarker
  rw [bind_of_ok (next_cons ..)]
  exact Metadata.ensure_of_holds (by simp) _ _

/-- A diff of which the patches break off is missed. -/
theorem readDiffs_breaksOff {d : Diff} {front back : List Patch} {p : Patch}
    (hpatches : d.patches = front ++ p :: back)
    (hread : ∃ r, Patch.readExtended Patch.toEnd (.ofLines d.lines) = .ok d.patches r)
    (hls : p.BreaksOff ls blames) (hash : Hash) (parents : List Hash) (n : Nat) (looked : Bool) :
    ∃ e r, readDiffs hash (d.source :: parents)
        ⟨marker d.source :: (front.flatMap Patch.render ++ ls), n, looked⟩ = .error e r ∧
      blames (n + 1 + (front.flatMap Patch.render ++ ls).length) e := by
  obtain ⟨r, hread⟩ := hread
  have hshift := Patch.readExtended_shift Patch.toEnd (.ofLines d.lines) (n + 1)
  rw [hread, Diff.lines, hpatches, LineReader.shift, LineReader.ofLines, Nat.zero_add] at hshift
  obtain ⟨e, r', herror, hblames⟩ := Patch.readExtended_breaksOff hshift hls false
  -- no line of a patch is a frame, so the diff would end where the input ends
  have hquiet : ∀ line ∈ front.flatMap Patch.render ++ ls, Patch.toEnd line = atRecord line := by
    intro line hline
    obtain ⟨lost, _, hrender⟩ := hls.exists_lost
    rcases List.mem_append.1 hline with hline | hline
    . exact (atRecord_of_mem_flatMap_render hline).symm
    . exact (atRecord_of_mem_render (hrender ▸ List.mem_append_left lost hline)).symm
  rw [Patch.readExtended_congr hquiet] at herror
  refine ⟨e, r', ?_, hblames⟩
  rw [readDiffs_cons, bind_of_ok (atMarker_cons ..)]
  exact bind_of_error herror

theorem readDiffs_frames {hash : Hash} {ds : List Diff}
    (hdiffs : ∀ d ∈ ds,
      ∃ r, Patch.readExtended Patch.toEnd (.ofLines d.lines) = .ok d.patches r)
    (htargets : ∀ d ∈ ds, d.target = some hash) {more : List Text} (hmore : AtFrame more) (n : Nat)
    (looked : Bool) :
    ∃ looked', readDiffs hash (ds.map (·.source)) ⟨frames ds ++ more, n, looked⟩ =
      .ok ds ⟨more, n + (frames ds).length, looked'⟩ :=
  readDiffs_encode (fun d hd => shows_lines (hdiffs d hd)) htargets hmore n looked

/-- A marker is missing if the lines end in front of the last one. -/
theorem readDiffs_of_marker {hash : Hash} {before : List Diff} {last : Diff} {lost : List Text}
    (hdiffs : ∀ d ∈ before ++ [last],
      ∃ r, Patch.readExtended Patch.toEnd (.ofLines d.lines) = .ok d.patches r)
    (htargets : ∀ d ∈ before ++ [last], d.target = some hash) (hls : frames before = ls ++ lost)
    (n : Nat) (looked : Bool) :
    ∃ e r, readDiffs hash ((before ++ [last]).map (·.source)) ⟨ls, n, looked⟩ = .error e r ∧
      EndsInDiffs (n + ls.length) e := by
  have hend : AtFrame [] := nofun
  obtain ⟨looked', hfull⟩ := readDiffs_frames hdiffs htargets hend n looked
  rw [frames_append, hls, List.append_nil, List.append_assoc] at hfull
  rcases (settled_readDiffs _ _ n ls).of_append hfull with ⟨ds, r, hcut⟩ | herror
  . have hmarkers : _ ≤ ls.countP atRecord := length_parents_of_readDiffs hcut
    have hcount := countP_frames before
    rw [hls, List.countP_append] at hcount
    rw [List.length_map, List.length_append, List.length_singleton] at hmarkers
    omega
  . exact herror

theorem read_breaksOff (hc : c.Framed)
    (hdiffs : ∀ d ∈ c.parentDiffs,
      ∃ r, Patch.readExtended Patch.toEnd (.ofLines d.lines) = .ok d.patches r)
    (h : c.BreaksOff ls blames) (n : Nat) (looked : Bool) :
    ∃ e r, read ⟨ls, n, looked⟩ = .error e r ∧ blames (n + ls.length) e := by
  have hmetadata (ls : List Text) := Metadata.read_encode hc.metadata ls n looked
  have hread {more : List Text} {e : ReadError} {r : LineReader}
      (herror : readDiffs c.metadata.hash c.metadata.parents
        ⟨more, n + c.metadata.encode.length, false⟩ = .error e r) :
      read ⟨c.metadata.encode ++ more, n, looked⟩ = .error e r := by
    unfold read
    rw [bind_of_ok (hmetadata more)]
    exact bind_of_error herror
  have htargets := hc.targets
  rw [← hc.sources] at hread
  cases h with
  | @record _ lost hencode hls hlost =>
    have hfull := hmetadata []
    rw [List.append_nil, hencode] at hfull
    obtain ⟨e, r, herror, hshort⟩ :=
      error_of_settled (fun _ _ => Metadata.settled_read) hlost hfull
    exact ⟨e, r, bind_of_error herror, hshort⟩
  | @marker before last ls lost hparents hls =>
    rw [hparents] at hdiffs htargets hread
    obtain ⟨e, r, herror, hshort⟩ :=
      readDiffs_of_marker hdiffs htargets hls (n + c.metadata.encode.length) false
    refine ⟨e, r, hread herror, ?_⟩
    rwa [List.length_append, ← Nat.add_assoc]
  | @patch before after d front back p ls blames hparents hpatches hls =>
    rw [hparents] at hdiffs htargets hread
    rw [List.forall_mem_append, List.forall_mem_cons] at hdiffs htargets
    let cut := marker d.source :: (front.flatMap Patch.render ++ ls)
    have hcut : AtFrame cut := by
      rintro line ⟨⟩
      rfl
    obtain ⟨looked', hbefore⟩ :=
      readDiffs_frames hdiffs.1 htargets.1 hcut (n + c.metadata.encode.length) false
    obtain ⟨e, r, herror, hblames⟩ := readDiffs_breaksOff hpatches hdiffs.2.1 hls c.metadata.hash
      (after.map (·.source)) (n + c.metadata.encode.length + (frames before).length) looked'
    refine ⟨e, r, hread ?_, ?_⟩
    . rw [List.map_append]
      exact readDiffs_append_of_error hbefore herror
    . simpa only [List.length_append, List.length_cons, Nat.add_assoc, Nat.add_comm 1] using hblames

/-- A stream that breaks off inside of a commit gives the commits in front of it, and an error about
the line behind the last one, or about the last one where a marker or a file header is missing. -/
theorem readAll_breaksOff {before after : List Commit}
    (hcs : ∀ c' ∈ before ++ c :: after, c'.Framed)
    (hdiffs : ∀ c' ∈ before ++ c :: after, ∀ d ∈ c'.parentDiffs,
      ∃ r, Patch.readExtended Patch.toEnd (.ofLines d.lines) = .ok d.patches r)
    (h : c.BreaksOff ls blames) :
    (∃ lost, lost ≠ [] ∧
      (before ++ c :: after).flatMap encode = before.flatMap encode ++ ls ++ lost) ∧
    ∃ e r, readAll (.ofLines (before.flatMap encode ++ ls)) =
        { items := before, error := some e, reader := r } ∧
      blames (before.flatMap encode ++ ls).length e := by
  rw [List.forall_mem_append, List.forall_mem_cons] at hcs hdiffs
  constructor
  . obtain ⟨lost, hne, hencode⟩ := h.exists_lost
    refine ⟨lost ++ after.flatMap encode, by simp [hne], ?_⟩
    rw [List.flatMap_append, List.flatMap_cons, hencode]
    simp only [List.append_assoc]
  let k := (before.flatMap encode).length
  obtain ⟨e, r, hread, hblames⟩ := read_breaksOff hcs.2.1 hdiffs.2.1 h k false
  have hbefore : readAll (.ofLines (before.flatMap encode)) =
      { items := before, reader := ⟨[], k, true⟩ } :=
    readAll_encodeWith hcs.1 fun c' hc d hd => shows_lines (hdiffs.1 c' hc d hd)
  have hsecond : (readAll (.ofLines ls)).behind [] k =
      { items := [], error := some e, reader := r } := by
    have hshift := many_shift read_consumes shifts_read (.ofLines ls) k
    rw [LineReader.shift, LineReader.ofLines, Nat.zero_add] at hshift
    exact hshift.symm.trans (many_of_error read_consumes h.ne_nil hread)
  have happend := many_append read_consumes shifts_read (spares_read h.atFrame)
    (fun _ _ _ => lineNumber_of_read) read_looked (congrArg Items.error hbefore) false
  refine ⟨e, r, ?_, by rwa [List.length_append]⟩
  calc readAll (.ofLines (before.flatMap encode ++ ls))
    _ = (readAll (.ofLines ls)).behind (readAll (.ofLines (before.flatMap encode))).items k := by
      rw [LineReader.ofLines, Nat.zero_add] at happend
      exact happend
    _ = { (readAll (.ofLines ls)).behind [] k with
          items := before ++ ((readAll (.ofLines ls)).behind [] k).items } := by
      rw [hbefore]
      rfl
    _ = { items := before, error := some e, reader := r } := by
      rw [hsecond, List.append_nil]

/-- The second of two commits ends behind the header of its only hunk. -/
theorem readAll_breaksOff_awkward :
    (∃ lost, lost ≠ [] ∧
      [awkward, awkward].flatMap encode =
        [awkward].flatMap encode ++ awkward.encode.take 18 ++ lost) ∧
    ∃ e r, readAll (.ofLines ([awkward].flatMap encode ++ awkward.encode.take 18)) =
        { items := [awkward], error := some e, reader := r } ∧
      e = .diff 38 .noHunkLine := by
  let hunk : Hunk := ⟨⟨0, [], false⟩, ⟨1, ["#@!_-=&"], false⟩⟩
  have hhunk : hunk.BreaksOff [] := ⟨List.nil_prefix, .inr (by decide)⟩
  have hhunks : lookalike.hunks = [] ++ hunk :: [] := rfl
  have hpatches : [lookalike] = [] ++ lookalike :: [] := rfl
  have hdiffs : awkward.parentDiffs = [] ++ awkward.parentDiffs.head (by decide) :: [] := rfl
  have h : awkward.BreaksOff (awkward.encode.take 18) Hunk.EndsInBlock :=
    .patch hdiffs hpatches (.hunk rfl hhunks hhunk)
  have hcs : ∀ c ∈ [awkward] ++ awkward :: [], c.Framed := by
    simpa using framed_awkward
  exact readAll_breaksOff hcs (by simpa using read_diffs_awkward) h

end Commit

end Dvcs
