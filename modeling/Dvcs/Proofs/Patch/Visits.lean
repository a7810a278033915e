import Dvcs.Patch.Extended
import Dvcs.Proofs.Hunk.Counts

/-!
This module contains the lines that the reading of a diff comes to. The lines in the bodies of hunk
blocks are set apart from those around them: only the latter can end a patch or the diff.
-/

namespace Dvcs

open LineReader Text

/-- Whether a line stands in the body of a hunk block or around the bodies. -/
inductive Place where
  | frame
  | body
deriving DecidableEq

/-- A line that a parser comes to. -/
abbrev Visit := Place × Text

/-- The lines in the bodies of blocks. -/
def bodies (vs : List Visit) : List Text := (vs.filter (·.1 = .body)).map Prod.snd

/-- The lines that a parser consumes, whatever comes of it. -/
def Reading.consumed {α : Type} (p : Reading α) (r : LineReader) : List Text :=
  match p r with
  | .ok _ r' => r.rest.take (r'.lineNumber - r.lineNumber)
  | .error _ r' => r.rest.take (r'.lineNumber - r.lineNumber)

theorem Reading.consumed_append {α : Type} {p : Reading α} {r r' : LineReader} {a : α}
    (h : p r = .ok a r') (hreaches : r.Reaches r') : p.consumed r ++ r'.rest = r.rest := by
  obtain ⟨taken, hrest, hnumber⟩ := hreaches
  unfold Reading.consumed
  rw [h]
  dsimp only
  rw [hrest, hnumber, Nat.add_sub_cancel_left, List.take_left]

theorem Reading.consumed_prefix {α : Type} (p : Reading α) (r : LineReader) :
    p.consumed r <+: r.rest := by
  unfold Reading.consumed
  split <;> exact List.take_prefix ..

theorem bodies_append (vs ws : List Visit) : bodies (vs ++ ws) = bodies vs ++ bodies ws := by
  unfold bodies
  rw [List.filter_append, List.map_append]

namespace Hunk

/-- The first line of a block is its header. -/
def visitsBlock (r : LineReader) : List Visit :=
  match Reading.consumed readBlock r with
  | [] => []
  | header :: body => (.frame, header) :: body.map (.body, ·)

def visitsBlocks (r : LineReader) : List Visit :=
  match r.rest with
  | [] => []
  | line :: _ =>
    if line.startsWith "@@" then
      match _h : readBlock r with
      | .error .. => visitsBlock r
      | .ok _ r' => visitsBlock r ++ visitsBlocks r'
    else []
termination_by r.rest.length
decreasing_by exact length_rest_of_readBlock _h

variable {r r' : LineReader} {hs : List Hunk}

theorem foot_append (rest : List Text) : foot rest ++ rest.drop (foot rest).length = rest := by
  cases rest with
  | nil => rfl
  | cons line rest =>
    unfold foot
    rw [List.head?_cons, Option.filter_some]
    split <;> rfl

/-- A block comes to its header, to as many lines as this counts, and to the marker behind them. -/
theorem visitsBlock_of_readBlock (h : readBlock r = .ok hs r') :
    ∃ header s t body rest, r.rest = header :: (body ++ rest) ∧ Heads header s t ∧
      Fills s.count t.count body ∧ r'.rest = rest.drop (foot rest).length ∧
      r'.lineNumber = r.lineNumber + 1 + (body ++ foot rest).length ∧
      hs = Script.hunks (Block.firstLine s) (Block.firstLine t) (script (body ++ foot rest)) ∧
      visitsBlock r = (.frame, header) :: (body ++ foot rest).map (.body, ·) := by
  obtain ⟨s, t, body, rest, hblock⟩ := startsBlock_of_readBlock h
  obtain ⟨looked, hread⟩ := readBlock_of_startsBlock hblock
  obtain ⟨header, hlines, hheads, hfills⟩ := hblock
  have hconsumed := Reading.consumed_append h (reaches_of_readBlock h)
  rw [h] at hread
  cases hread
  have htaken : Reading.consumed readBlock r = header :: (body ++ foot rest) := by
    apply List.append_cancel_right
    rw [hconsumed, hlines, List.cons_append, List.append_assoc, foot_append]
  refine ⟨header, s, t, body, rest, hlines, hheads, hfills, rfl, rfl, rfl, ?_⟩
  unfold visitsBlock
  rw [htaken]

theorem map_snd_visitsBlock (h : readBlock r = .ok hs r') :
    (visitsBlock r).map Prod.snd ++ r'.rest = r.rest := by
  obtain ⟨header, s, t, body, rest, hlines, _, _, hrest, _, _, hvisits⟩ :=
    visitsBlock_of_readBlock h
  rw [hvisits, List.map_cons, List.map_map, hrest, hlines, List.cons_append]
  have hbody : (body ++ foot rest).map (Prod.snd ∘ fun line => (Place.body, line)) =
      body ++ foot rest := List.map_id' _
  rw [hbody, List.append_assoc, foot_append]

theorem visitsBlocks_cons {line : Text} {rest : List Text} (hr : r.rest = line :: rest)
    (hline : line.startsWith "@@" = true) (h : readBlock r = .ok hs r') :
    visitsBlocks r = visitsBlock r ++ visitsBlocks r' := by
  rw [visitsBlocks, hr]
  dsimp only
  rw [if_pos hline]
  split
  . next heq =>
    rw [heq] at h
    contradiction
  . next heq =>
    rw [heq] at h
    cases h
    rfl

theorem visitsBlocks_of_startsWith {line : Text} {rest : List Text} (hr : r.rest = line :: rest)
    (hline : ¬ line.startsWith "@@" = true) : visitsBlocks r = [] := by
  rw [visitsBlocks, hr]
  dsimp only
  rw [if_neg hline]

theorem visitsBlocks_of_rest_nil (hr : r.rest = []) : visitsBlocks r = [] := by
  rw [visitsBlocks, hr]

theorem mem_rest_of_mem_visitsBlock {v : Visit} (h : v ∈ visitsBlock r) : v.2 ∈ r.rest := by
  have hprefix := Reading.consumed_prefix readBlock r
  unfold visitsBlock at h
  split at h
  . contradiction
  . next header body hconsumed =>
    rw [hconsumed] at hprefix
    refine hprefix.subset ?_
    rcases List.mem_cons.1 h with rfl | h
    . exact List.mem_cons_self
    . obtain ⟨line, hline, rfl⟩ := List.mem_map.1 h
      exact List.mem_cons_of_mem _ hline

theorem mem_rest_of_mem_visitsBlocks {v : Visit} (h : v ∈ visitsBlocks r) : v.2 ∈ r.rest := by
  fun_induction visitsBlocks r with
  | case1 => contradiction
  | case2 => exact mem_rest_of_mem_visitsBlock h
  | case3 r line rest hr hline hs r' hblock ih =>
    rcases List.mem_append.1 h with h | h
    . exact mem_rest_of_mem_visitsBlock h
    . exact (reaches_of_readBlock hblock).mem (ih h)
  | case4 => contradiction

theorem map_snd_visitsBlocks (h : readBlocks r = .ok hs r') :
    (visitsBlocks r).map Prod.snd ++ r'.rest = r.rest := by
  fun_induction readBlocks r generalizing hs r' with
  | case1 r hr =>
    cases h
    rw [visitsBlocks_of_rest_nil hr]
    rfl
  | case2 => contradiction
  | case3 => contradiction
  | case4 r line rest hr hline hs r₁ hblock more r₂ hblocks ih =>
    cases h
    rw [visitsBlocks_cons hr hline hblock, List.map_append, List.append_assoc, ih hblocks]
    exact map_snd_visitsBlock hblock
  | case5 r line rest hr hline =>
    cases h
    rw [visitsBlocks_of_startsWith hr hline]
    rfl

end Hunk

namespace Patch

/-- The second file header is read before its form is looked at. -/
def visitsHunks (rest : List Text) (n : Nat) : List Visit :=
  match rest with
  | [] => []
  | line :: rest =>
    (.frame, line) ::
      if line.startsWith "+++ " then Hunk.visitsBlocks ⟨rest, n + 1, false⟩ else []

/-- The line that ends the header is not among these: it is looked at again behind the patch. -/
def visitsHeader (stop : Text → Bool) (h : Header) (n : Nat) : List Text → List Visit
  | [] => []
  | line :: rest =>
    if endsPatch stop line then []
    else
      (.frame, line) ::
        match h.step (n + 1) line with
        | .error _ => []
        | .ok (.header h) => visitsHeader stop h (n + 1) rest
        | .ok .binaryNotice => []
        | .ok .binaryPayload => (rest.takeWhile (!endsPatch stop ·)).map (.frame, ·)
        | .ok .fileHeader => visitsHunks rest (n + 1)

def visitsOne (stop : Text → Bool) (r : LineReader) : List Visit :=
  match r.rest with
  | [] => []
  | line :: rest =>
    (.frame, line) ::
      match Path.readPair (line.drop patchHeader.length) with
      | .ok (some (source, target)) =>
        visitsHeader stop { sourcePath := source, targetPath := target } (r.lineNumber + 1) rest
      | _ => []

/-- The lines that the reading of a diff comes to, in their order. The last of them may be one that
it does not consume, which stops the diff or is out of place behind it. -/
def visits (stop : Text → Bool) (r : LineReader) : List Visit :=
  match r.rest with
  | [] => []
  | line :: _ =>
    if stop line then [(.frame, line)]
    else if line.startsWith patchHeader then
      match _h : readOne stop r with
      | .error .. => visitsOne stop r
      | .ok _ r' => visitsOne stop r ++ visits stop r'
    else [(.frame, line)]
termination_by r.rest.length
decreasing_by exact length_rest_of_readOne _h

variable {stop : Text → Bool} {r r' : LineReader} {p : Patch} {ps : List Patch}

theorem visits_of_rest_nil (hr : r.rest = []) : visits stop r = [] := by
  rw [visits, hr]

theorem visits_of_stop {line : Text} {rest : List Text} (hr : r.rest = line :: rest)
    (hstop : stop line = true) : visits stop r = [(.frame, line)] := by
  rw [visits, hr]
  dsimp only
  rw [if_pos hstop]

theorem visits_of_ok {line : Text} {rest : List Text} (hr : r.rest = line :: rest)
    (hstop : ¬ stop line = true) (hline : line.startsWith patchHeader = true)
    (h : readOne stop r = .ok p r') : visits stop r = visitsOne stop r ++ visits stop r' := by
  rw [visits, hr]
  dsimp only
  rw [if_neg hstop, if_pos hline]
  split
  . next heq =>
    rw [heq] at h
    contradiction
  . next heq =>
    rw [heq] at h
    cases h
    rfl

theorem visits_of_error {line : Text} {rest : List Text} {e : ReadError}
    (hr : r.rest = line :: rest) (hstop : ¬ stop line = true)
    (hline : line.startsWith patchHeader = true) (h : readOne stop r = .error e r') :
    visits stop r = visitsOne stop r := by
  rw [visits, hr]
  dsimp only
  rw [if_neg hstop, if_pos hline]
  split
  . rfl
  . next heq =>
    rw [heq] at h
    contradiction

/-- The next line is looked at as one that may stop the diff. -/
theorem frame_mem_visits {line : Text} {rest : List Text} (hr : r.rest = line :: rest) :
    (.frame, line) ∈ visits stop r := by
  have hone : (.frame, line) ∈ visitsOne stop r := by
    unfold visitsOne
    rw [hr]
    exact List.mem_cons_self
  rw [visits, hr]
  dsimp only
  split
  . exact List.mem_singleton_self _
  . split
    . split
      . exact hone
      . exact List.mem_append_left _ hone
    . exact List.mem_singleton_self _

theorem map_frame (ls : List Text) :
    (ls.map fun line => (Place.frame, line)).map Prod.snd = ls := by
  rw [List.map_map]
  exact List.map_id' ls

theorem skipPayload_eq (stop : Text → Bool) (n : Nat) (ls : List Text) :
    skipPayload stop n ls =
      ⟨ls.dropWhile (!endsPatch stop ·), n + (ls.takeWhile (!endsPatch stop ·)).length, true⟩ := by
  induction ls generalizing n with
  | nil => rfl
  | cons line rest ih =>
    rw [skipPayload]
    split
    . next hend => simp [hend]
    . next hend =>
      simp [hend, ih]
      omega

theorem map_snd_visitsHunks {rest : List Text} {n : Nat} {hs : List Hunk}
    (h : readHunks rest n = .ok hs r) : (visitsHunks rest n).map Prod.snd ++ r.rest = rest := by
  cases rest with
  | nil => contradiction
  | cons line rest =>
    rw [readHunks] at h
    rw [visitsHunks]
    split at h
    . next hline =>
      rw [if_pos hline, List.map_cons, List.cons_append, Hunk.map_snd_visitsBlocks h]
    . contradiction

theorem map_snd_visitsHeader {hd : Header} {n : Nat} {ls : List Text}
    (h : readHeader stop hd n ls = .ok p r) :
    (visitsHeader stop hd n ls).map Prod.snd ++ r.rest = ls := by
  fun_induction readHeader stop hd n ls with
  | case1 =>
    cases h
    rfl
  | case2 hd n line rest hend =>
    cases h
    rw [visitsHeader, if_pos hend]
    rfl
  | case3 => contradiction
  | case4 hd n line rest hend hd' hstep ih =>
    rw [visitsHeader, if_neg hend, hstep, List.map_cons, List.cons_append, ih h]
  | case5 hd n line rest hend hstep =>
    cases h
    rw [visitsHeader, if_neg hend, hstep]
    rfl
  | case6 hd n line rest hend hstep =>
    cases h
    rw [visitsHeader, if_neg hend, hstep, skipPayload_eq]
    dsimp only
    rw [List.map_cons, map_frame, List.cons_append, List.takeWhile_append_dropWhile]
  | case7 => contradiction
  | case8 hd n line rest hend hstep hunks r' hhunks =>
    cases h
    rw [visitsHeader, if_neg hend, hstep]
    dsimp only
    rw [List.map_cons, List.cons_append, map_snd_visitsHunks hhunks]

/-- A patch is a line that names two paths, and what its header leads to. -/
theorem readHeader_of_readOne (h : readOne stop r = .ok p r') :
    ∃ line rest s t, r.rest = line :: rest ∧
      Path.readPair (line.drop patchHeader.length) = .ok (some (s, t)) ∧
      readHeader stop { sourcePath := s, targetPath := t } (r.lineNumber + 1) rest = .ok p r' := by
  unfold readOne at h
  split at h
  . contradiction
  . next line rest hr =>
    dsimp only at h
    split at h
    . contradiction
    . contradiction
    . next s t hpair => exact ⟨line, rest, s, t, hr, hpair, h⟩

theorem visitsOne_of_readPair {line s t : Text} {rest : List Text} (hr : r.rest = line :: rest)
    (hpair : Path.readPair (line.drop patchHeader.length) = .ok (some (s, t))) :
    visitsOne stop r = (.frame, line) ::
      visitsHeader stop { sourcePath := s, targetPath := t } (r.lineNumber + 1) rest := by
  rw [visitsOne, hr]
  dsimp only
  rw [hpair]

theorem map_snd_visitsOne (h : readOne stop r = .ok p r') :
    (visitsOne stop r).map Prod.snd ++ r'.rest = r.rest := by
  obtain ⟨line, rest, s, t, hr, hpair, hheader⟩ := readHeader_of_readOne h
  rw [visitsOne_of_readPair hr hpair, List.map_cons, List.cons_append]
  rw [map_snd_visitsHeader hheader, hr]

/-- A diff comes to all lines that it consumes, and to the one behind them. -/
theorem map_snd_visits (h : readExtended stop r = .ok ps r') :
    (visits stop r).map Prod.snd ++ r'.rest.tail = r.rest := by
  fun_induction readExtended stop r generalizing ps r' with
  | case1 r hr =>
    cases h
    rw [visits_of_rest_nil hr]
    simp [hr]
  | case2 r line rest hr hstop =>
    cases h
    rw [visits_of_stop hr hstop, hr]
    rfl
  | case3 => contradiction
  | case4 => contradiction
  | case5 r line rest hr hstop hline p r₁ hone ps r₂ hps ih =>
    cases h
    rw [visits_of_ok hr hstop hline hone, List.map_append, List.append_assoc, ih hps]
    exact map_snd_visitsOne hone
  | case6 => contradiction

theorem mem_of_mem_visitsHunks {rest : List Text} {n : Nat} {v : Visit}
    (h : v ∈ visitsHunks rest n) : v.2 ∈ rest := by
  cases rest with
  | nil => contradiction
  | cons line rest =>
    rw [visitsHunks] at h
    rcases List.mem_cons.1 h with rfl | h
    . exact List.mem_cons_self
    . split at h
      . exact List.mem_cons_of_mem _ (Hunk.mem_rest_of_mem_visitsBlocks h)
      . contradiction

theorem mem_of_mem_visitsHeader {hd : Header} {n : Nat} {ls : List Text} {v : Visit}
    (h : v ∈ visitsHeader stop hd n ls) : v.2 ∈ ls := by
  induction ls generalizing hd n with
  | nil => contradiction
  | cons line rest ih =>
    rw [visitsHeader] at h
    split at h
    . contradiction
    . rcases List.mem_cons.1 h with rfl | h
      . exact List.mem_cons_self
      . refine List.mem_cons_of_mem _ ?_
        split at h
        . contradiction
        . exact ih h
        . contradiction
        . obtain ⟨line', hline, rfl⟩ := List.mem_map.1 h
          exact (List.takeWhile_prefix _).subset hline
        . exact mem_of_mem_visitsHunks h

theorem mem_rest_of_mem_visitsOne {v : Visit} (h : v ∈ visitsOne stop r) : v.2 ∈ r.rest := by
  unfold visitsOne at h
  split at h
  . contradiction
  . next line rest hr =>
    rw [hr]
    rcases List.mem_cons.1 h with rfl | h
    . exact List.mem_cons_self
    . refine List.mem_cons_of_mem _ ?_
      split at h
      . exact mem_of_mem_visitsHeader h
      . contradiction

theorem mem_rest_of_mem_visits {v : Visit} (h : v ∈ visits stop r) : v.2 ∈ r.rest := by
  fun_induction visits stop r with
  | case1 => contradiction
  | case2 r line rest hr =>
    rw [List.mem_singleton.1 h, hr]
    exact List.mem_cons_self
  | case3 => exact mem_rest_of_mem_visitsOne h
  | case4 r line rest hr hstop hline p r' hone ih =>
    rcases List.mem_append.1 h with h | h
    . exact mem_rest_of_mem_visitsOne h
    . rw [← map_snd_visitsOne hone]
      exact List.mem_append_right _ (ih h)
  | case5 r line rest hr =>
    rw [List.mem_singleton.1 h, hr]
    exact List.mem_cons_self

end Patch

end Dvcs
