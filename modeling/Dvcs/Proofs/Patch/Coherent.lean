import Dvcs.Proofs.Patch.Normal

/-!
This module contains what holds of every patch that is read. The lines of a header may come in any
order and may repeat, and each of them changes the header: what the patch rests on is kept by all of
them.
-/

namespace Dvcs

open LineReader Text

namespace Hunk

/-- Hunks that fit what they count, and change something. -/
structure Coherent (h : Hunk) : Prop where
  changes : h.source.lines ≠ [] ∨ h.target.lines ≠ []
  sourceCount : h.source.range.count = h.source.lines.length
  targetCount : h.target.range.count = h.target.lines.length
  sourceNoNewline : h.source.noNewline = true → h.source.lines ≠ []
  targetNoNewline : h.target.noNewline = true → h.target.lines ≠ []

theorem Block.HunkSound.coherent {s t : Range} {h : Hunk} (hh : Block.HunkSound s t h) :
    h.Coherent where
  changes := hh.changes
  sourceCount := rfl
  targetCount := rfl
  sourceNoNewline := hh.source.lines_of_noNewline
  targetNoNewline := hh.target.lines_of_noNewline

/-- The lines that hunks take out and put in are those of some body with a mark. -/
structure Gathers (hs : List Hunk) (body : List Text) : Prop where
  source : hs.flatMap (·.source.lines) = texts '-' body
  target : hs.flatMap (·.target.lines) = texts '+' body

theorem texts_append (mark : Char) (body body' : List Text) :
    texts mark (body ++ body') = texts mark body ++ texts mark body' :=
  List.filterMap_append

theorem gathers_nil : Gathers [] [] := ⟨rfl, rfl⟩

theorem Gathers.append {hs hs' : List Hunk} {body body' : List Text} (h : Gathers hs body)
    (h' : Gathers hs' body') : Gathers (hs ++ hs') (body ++ body') where
  source := by rw [List.flatMap_append, h.source, h'.source, texts_append]
  target := by rw [List.flatMap_append, h.target, h'.target, texts_append]

variable {r r' : LineReader} {hs : List Hunk}

theorem coherent_of_readBlock (h : readBlock r = .ok hs r') : ∀ hunk ∈ hs, hunk.Coherent := by
  unfold readBlock at h
  split at h
  . contradiction
  . dsimp only at h
    split at h
    . contradiction
    . split at h
      . contradiction
      . contradiction
      . next s t _ _ =>
        split at h
        . contradiction
        . next hbody =>
          have hsound := (Block.sound_ofRanges s t).readBody hbody
          exact fun hunk hmem => (hsound.finish h hunk hmem).coherent

theorem bodies_map_body (ls : List Text) : bodies (ls.map fun line => (Place.body, line)) = ls := by
  have hall : ∀ v ∈ ls.map fun line => (Place.body, line), decide (v.1 = .body) = true := by
    intro v hv
    obtain ⟨line, _, rfl⟩ := List.mem_map.1 hv
    rfl
  rw [bodies, List.filter_eq_self.2 hall, List.map_map]
  exact List.map_id' ls

theorem gathers_of_readBlock (h : readBlock r = .ok hs r') :
    Gathers hs (bodies (visitsBlock r)) := by
  obtain ⟨header, s, t, body, rest, _, _, hfills, _, _, rfl, hvisits⟩ := visitsBlock_of_readBlock h
  have hmarked : ∀ line ∈ body ++ foot rest, ∃ mark ∈ marks, line.head? = some mark :=
    List.forall_mem_append.2 ⟨hfills.marked, marked_foot rest⟩
  have hbodies : bodies (visitsBlock r) = body ++ foot rest := by
    rw [hvisits]
    exact bodies_map_body (body ++ foot rest)
  have haccounts : Accounts (body ++ foot rest)
      (Script.hunks (Block.firstLine s) (Block.firstLine t) (script (body ++ foot rest))) := by
    refine accounts_of_runs ?_
    rw [Script.map_lines_hunks, map_changes_script hmarked]
  rw [hbodies]
  exact ⟨haccounts.source, haccounts.target⟩

theorem coherent_of_readBlocks (h : readBlocks r = .ok hs r') :
    (∀ hunk ∈ hs, hunk.Coherent) ∧ Gathers hs (bodies (visitsBlocks r)) := by
  fun_induction readBlocks r generalizing hs r' with
  | case1 r hr =>
    cases h
    rw [visitsBlocks_of_rest_nil hr]
    exact ⟨List.forall_mem_nil _, gathers_nil⟩
  | case2 => contradiction
  | case3 => contradiction
  | case4 r line rest hr hline hs r₁ hblock more r₂ hblocks ih =>
    cases h
    obtain ⟨hmore, hgathers⟩ := ih hblocks
    rw [visitsBlocks_cons hr hline hblock, bodies_append]
    exact ⟨List.forall_mem_append.2 ⟨coherent_of_readBlock hblock, hmore⟩,
      (gathers_of_readBlock hblock).append hgathers⟩
  | case5 r line rest hr hline =>
    cases h
    rw [visitsBlocks_of_startsWith hr hline]
    exact ⟨List.forall_mem_nil _, gathers_nil⟩

theorem length_texts (mark : Char) (body : List Text) :
    (texts mark body).length = body.countP (·.head? = some (.char mark)) := by
  induction body with
  | nil => rfl
  | cons line body ih =>
    rw [texts_cons, List.length_append, ih, List.countP_cons, Nat.add_comm]
    congr 1
    cases line with
    | nil => rfl
    | cons c text =>
      by_cases hc : c = .char mark
      . simp [after?, hc]
      . have hnone : after? [.char mark] (c :: text) = none := by
          rw [Option.eq_none_iff_forall_ne_some]
          rintro rest hrest
          exact hc (List.cons.inj (eq_append_of_after? hrest)).1
        simp [hnone, hc]

/-- A hunk adds or modifies the lines that it puts in, and removes or modifies those that it takes
out. -/
theorem counts_hunk (h : Hunk) :
    h.counts.added + h.counts.modified = h.target.lines.length ∧
      h.counts.removed + h.counts.modified = h.source.lines.length := by
  unfold counts
  dsimp only
  omega

end Hunk

namespace LineCounts

theorem sum_cons (c : LineCounts) (cs : List LineCounts) :
    sum (c :: cs) = ⟨c.added + (sum cs).added, c.removed + (sum cs).removed,
      c.modified + (sum cs).modified⟩ := rfl

theorem sum_append (cs cs' : List LineCounts) :
    sum (cs ++ cs') = ⟨(sum cs).added + (sum cs').added, (sum cs).removed + (sum cs').removed,
      (sum cs).modified + (sum cs').modified⟩ := by
  induction cs with
  | nil => simp [sum]
  | cons c cs ih =>
    rw [List.cons_append, sum_cons, ih, sum_cons]
    simp only [Nat.add_assoc]

theorem sum_flatMap {α : Type} (f : α → List LineCounts) (as : List α) :
    sum (as.map fun a => sum (f a)) = sum (as.flatMap f) := by
  induction as with
  | nil => rfl
  | cons a as ih => rw [List.map_cons, sum_cons, ih, List.flatMap_cons, sum_append]

theorem sum_counts (hs : List Hunk) :
    (sum (hs.map Hunk.counts)).added + (sum (hs.map Hunk.counts)).modified =
        (hs.flatMap (·.target.lines)).length ∧
      (sum (hs.map Hunk.counts)).removed + (sum (hs.map Hunk.counts)).modified =
        (hs.flatMap (·.source.lines)).length := by
  induction hs with
  | nil => exact ⟨rfl, rfl⟩
  | cons h hs ih =>
    have hfirst := h.counts_hunk
    rw [List.map_cons, sum_cons, List.flatMap_cons, List.flatMap_cons, List.length_append,
      List.length_append]
    dsimp only
    omega

end LineCounts

namespace Patch

/-- Patches of which the parts fit each other. -/
structure Coherent (p : Patch) : Prop where
  sourcePath : p.source.path = none ↔ p.status = .added
  targetPath : p.target.path = none ↔ p.status = .deleted
  added : p.status = .added → p.target.type.isSome
  deleted : p.status = .deleted → p.source.type.isSome
  types : p.status ≠ .added → p.status ≠ .deleted → p.source.type.isSome → p.target.type.isSome
  binary : p.binary = true → p.hunks = []
  hunks : ∀ h ∈ p.hunks, h.Coherent

namespace Header

/-- The type of a file that is there on one side only has been told. -/
structure Typed (h : Header) : Prop where
  added : h.status = .added → h.targetType.isSome
  deleted : h.status = .deleted → h.sourceType.isSome

variable {hd hd' : Header} {n : Nat} {line : Text}

theorem typed_ofPaths (s t : Text) : Typed { sourcePath := s, targetPath := t } where
  added := nofun
  deleted := nofun

theorem Typed.modeLine? (h : hd.Typed) (hline : hd.modeLine? n line = some (.ok hd')) :
    hd'.Typed := by
  unfold Header.modeLine? at hline
  split at hline
  . obtain ⟨type, _, rfl⟩ := exists_of_map_eq_ok (Option.some.inj hline)
    exact ⟨h.added, fun _ => rfl⟩
  split at hline
  . obtain ⟨type, _, rfl⟩ := exists_of_map_eq_ok (Option.some.inj hline)
    exact ⟨fun _ => rfl, h.deleted⟩
  split at hline
  . obtain ⟨type, _, rfl⟩ := exists_of_map_eq_ok (Option.some.inj hline)
    exact ⟨fun _ => rfl, by rintro ⟨⟩⟩
  split at hline
  . obtain ⟨type, _, rfl⟩ := exists_of_map_eq_ok (Option.some.inj hline)
    exact ⟨by rintro ⟨⟩, fun _ => rfl⟩
  . contradiction

theorem Typed.scoreLine? (h : hd.Typed) (hline : hd.scoreLine? line = some (.ok hd')) :
    hd'.Typed := by
  unfold Header.scoreLine? at hline
  split at hline
  . split at hline
    . cases hline
    . cases hline
      exact ⟨h.added, h.deleted⟩
    . contradiction
  . contradiction

theorem Typed.moveLine? (h : hd.Typed) (hline : hd.moveLine? line = some (.ok hd')) :
    hd'.Typed := by
  unfold Header.moveLine? at hline
  split at hline
  . obtain ⟨path, _, rfl⟩ := exists_of_map_eq_ok (Option.some.inj hline)
    exact ⟨by rintro ⟨⟩, by rintro ⟨⟩⟩
  split at hline
  . obtain ⟨path, _, rfl⟩ := exists_of_map_eq_ok (Option.some.inj hline)
    exact ⟨h.added, h.deleted⟩
  split at hline
  . obtain ⟨path, _, rfl⟩ := exists_of_map_eq_ok (Option.some.inj hline)
    exact ⟨by rintro ⟨⟩, by rintro ⟨⟩⟩
  split at hline
  . obtain ⟨path, _, rfl⟩ := exists_of_map_eq_ok (Option.some.inj hline)
    exact ⟨h.added, h.deleted⟩
  . contradiction

theorem Typed.indexLine? (h : hd.Typed) (hline : hd.indexLine? n line = some (.ok hd')) :
    hd'.Typed := by
  unfold Header.indexLine? at hline
  split at hline
  . dsimp only at hline
    split at hline
    . obtain ⟨type, _, rfl⟩ := exists_of_map_eq_ok (Option.some.inj hline)
      exact ⟨h.added, h.deleted⟩
    . cases hline
      exact ⟨h.added, h.deleted⟩
  . contradiction

theorem Typed.step (h : hd.Typed) (hstep : hd.step n line = .ok (.header hd')) : hd'.Typed := by
  rcases cases_of_step hstep with hmode | hscore | hmove | hindex
  . exact h.modeLine? hmode
  . exact h.scoreLine? hscore
  . exact h.moveLine? hmove
  . exact h.indexLine? hindex

theorem Typed.toPatch (h : hd.Typed) {hunks : List Hunk} {binary : Bool}
    (hbinary : binary = true → hunks = []) (hhunks : ∀ hunk ∈ hunks, hunk.Coherent) :
    (hd.toPatch hunks binary).Coherent where
  sourcePath := by simp [Header.toPatch]
  targetPath := by simp [Header.toPatch]
  added heq := by
    simp only [Header.toPatch] at heq ⊢
    simp [heq, h.added heq]
  deleted heq := by
    simp only [Header.toPatch] at heq ⊢
    simp [heq, h.deleted heq]
  types ha hd' hsource := by
    -- a target that has no type of its own keeps the one of the source
    have hkeeps : hd.status ≠ .added ∧ hd.status ≠ .deleted := ⟨ha, hd'⟩
    simp only [Header.toPatch, if_pos hkeeps] at hsource ⊢
    cases hd.targetType with
    | some type => rfl
    | none =>
      cases hindex : hd.indexType with
      | some type => rfl
      | none => rwa [hindex] at hsource
  binary := hbinary
  hunks := hhunks

end Header

variable {stop : Text → Bool} {r r' : LineReader} {p : Patch} {ps : List Patch}

theorem coherent_of_readHunks {rest : List Text} {n : Nat} {hs : List Hunk}
    (h : readHunks rest n = .ok hs r) :
    (∀ hunk ∈ hs, hunk.Coherent) ∧ Hunk.Gathers hs (bodies (visitsHunks rest n)) := by
  cases rest with
  | nil => contradiction
  | cons line rest =>
    rw [readHunks] at h
    rw [visitsHunks]
    split at h
    . next hline =>
      rw [if_pos hline]
      exact Hunk.coherent_of_readBlocks h
    . contradiction

theorem bodies_map_frame (ls : List Text) :
    bodies (ls.map fun line => (Place.frame, line)) = [] := by
  induction ls with
  | nil => rfl
  | cons line ls ih => exact ih

theorem coherent_of_readHeader {hd : Header} (h : hd.Typed) {n : Nat} {ls : List Text}
    (hread : readHeader stop hd n ls = .ok p r) :
    p.Coherent ∧ Hunk.Gathers p.hunks (bodies (visitsHeader stop hd n ls)) := by
  fun_induction readHeader stop hd n ls with
  | case1 =>
    cases hread
    exact ⟨h.toPatch (by rintro ⟨⟩) (List.forall_mem_nil _), Hunk.gathers_nil⟩
  | case2 hd n line rest hend =>
    cases hread
    rw [visitsHeader, if_pos hend]
    exact ⟨h.toPatch (by rintro ⟨⟩) (List.forall_mem_nil _), Hunk.gathers_nil⟩
  | case3 => contradiction
  | case4 hd n line rest hend hd' hstep ih =>
    rw [visitsHeader, if_neg hend, hstep]
    exact ih (h.step hstep) hread
  | case5 hd n line rest hend hstep =>
    cases hread
    rw [visitsHeader, if_neg hend, hstep]
    exact ⟨h.toPatch (fun _ => rfl) (List.forall_mem_nil _), Hunk.gathers_nil⟩
  | case6 hd n line rest hend hstep =>
    cases hread
    rw [visitsHeader, if_neg hend, hstep]
    refine ⟨h.toPatch (fun _ => rfl) (List.forall_mem_nil _), ?_⟩
    have hnone := bodies_map_frame (line :: rest.takeWhile (!endsPatch stop ·))
    rw [List.map_cons] at hnone
    rw [hnone]
    exact Hunk.gathers_nil
  | case7 => contradiction
  | case8 hd n line rest hend hstep hunks r' hhunks =>
    cases hread
    rw [visitsHeader, if_neg hend, hstep]
    obtain ⟨hcoherent, hgathers⟩ := coherent_of_readHunks hhunks
    exact ⟨h.toPatch (by rintro ⟨⟩) hcoherent, hgathers⟩

theorem coherent_of_readOne (h : readOne stop r = .ok p r') :
    p.Coherent ∧ Hunk.Gathers p.hunks (bodies (visitsOne stop r)) := by
  obtain ⟨line, rest, s, t, hr, hpair, hheader⟩ := readHeader_of_readOne h
  rw [visitsOne_of_readPair hr hpair]
  exact coherent_of_readHeader (Header.typed_ofPaths s t) hheader

theorem gathers_of_readExtended (h : readExtended stop r = .ok ps r') :
    (∀ p ∈ ps, p.Coherent) ∧ Hunk.Gathers (ps.flatMap hunks) (bodies (visits stop r)) := by
  fun_induction readExtended stop r generalizing ps r' with
  | case1 r hr =>
    cases h
    rw [visits_of_rest_nil hr]
    exact ⟨List.forall_mem_nil _, Hunk.gathers_nil⟩
  | case2 r line rest hr hstop =>
    cases h
    rw [visits_of_stop hr hstop]
    exact ⟨List.forall_mem_nil _, Hunk.gathers_nil⟩
  | case3 => contradiction
  | case4 => contradiction
  | case5 r line rest hr hstop hline p r₁ hone ps r₂ hps ih =>
    cases h
    obtain ⟨hfirst, hhunks⟩ := coherent_of_readOne hone
    obtain ⟨hmore, hgathers⟩ := ih hps
    rw [visits_of_ok hr hstop hline hone, bodies_append, List.flatMap_cons]
    exact ⟨List.forall_mem_cons.2 ⟨hfirst, hmore⟩, hhunks.append hgathers⟩
  | case6 => contradiction

/-- Every patch that is read is coherent, and the changes that the patches count are the marked
lines in the bodies of the blocks that have been read. -/
theorem coherent_of_readExtended (h : readExtended stop r = .ok ps r') :
    (∀ p ∈ ps, p.Coherent) ∧
      let counts := LineCounts.sum (ps.map Patch.counts)
      let body := bodies (visits stop r)
      counts.added + counts.modified = body.countP (·.head? = some (.char '+')) ∧
        counts.removed + counts.modified = body.countP (·.head? = some (.char '-')) := by
  obtain ⟨hcoherent, hgathers⟩ := gathers_of_readExtended h
  have hcounts : LineCounts.sum (ps.map Patch.counts) =
      LineCounts.sum ((ps.flatMap hunks).map Hunk.counts) := by
    rw [List.map_flatMap]
    exact LineCounts.sum_flatMap (fun p : Patch => p.hunks.map Hunk.counts) ps
  have hsum := LineCounts.sum_counts (ps.flatMap hunks)
  rw [← hcounts, hgathers.source, hgathers.target, Hunk.length_texts, Hunk.length_texts] at hsum
  exact ⟨hcoherent, hsum⟩

/-- A patch of which the header changes its mind, and a block with shared lines. -/
def unsteady : List Text := [
  "diff --git a/x b/x", "deleted file mode 100644", "new file mode 100755", "--- a/x", "+++ b/x",
  "@@ -1,4 +1,3 @@", " - shared", "-old", "-older", "+new", " + shared", "\\"]

/-- The patch that `unsteady` is read as. -/
def unsteadyPatch : Patch where
  source := { type := some .regular }
  target := { path := some ⟨[], ["x"]⟩, type := some .executable }
  status := .added
  hunks := [⟨⟨2, ["old", "older"], false⟩, ⟨2, ["new"], false⟩⟩]

theorem coherent_unsteadyPatch :
    readExtended toEnd (.ofLines unsteady) = .ok [unsteadyPatch] ⟨[], 12, true⟩ ∧
      unsteadyPatch.Coherent ∧
      bodies (visits toEnd (.ofLines unsteady)) =
        ([" - shared", "-old", "-older", "+new", " + shared", "\\"] : List Text) := by
  have hread : readExtended toEnd (.ofLines unsteady) = .ok [unsteadyPatch] ⟨[], 12, true⟩ := by
    decide +kernel
  have hbodies : bodies (visits toEnd (.ofLines unsteady)) =
      ([" - shared", "-old", "-older", "+new", " + shared", "\\"] : List Text) := by
    decide +kernel
  obtain ⟨hcoherent, _⟩ := coherent_of_readExtended hread
  exact ⟨hread, hcoherent unsteadyPatch (List.mem_singleton_self _), hbodies⟩

end Patch

end Dvcs
