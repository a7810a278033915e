import Dvcs.Proofs.Patch.Frame
import Mathlib.Data.List.Forall2

/-!
This module contains that only the marks of the lines in hunk bodies matter to where a body, a patch
and the diff end. Whatever stands behind the marks, the lines are read as those of a body.
-/

namespace Dvcs

open LineReader Text

/-- What may stand in the place of a line: in a body any line with the same mark, else no other one.
-/
def Visit.Admits (v : Visit) (line : Text) : Prop :=
  match v.1 with
  | .frame => line = v.2
  | .body => line.head? = v.2.head?

theorem exists_of_admits_append {vs ws : List Visit} {ls : List Text}
    (h : List.Forall₂ Visit.Admits (vs ++ ws) ls) :
    ∃ l₁ l₂, ls = l₁ ++ l₂ ∧ List.Forall₂ Visit.Admits vs l₁ ∧
      List.Forall₂ Visit.Admits ws l₂ := by
  have hfront := List.forall₂_take vs.length h
  have hback := List.forall₂_drop vs.length h
  rw [List.take_left] at hfront
  rw [List.drop_left] at hback
  exact ⟨_, _, (List.take_append_drop vs.length ls).symm, hfront, hback⟩

theorem eq_of_admits_frame {ls ls' : List Text}
    (h : List.Forall₂ Visit.Admits (ls.map fun line => (Place.frame, line)) ls') : ls' = ls := by
  induction ls generalizing ls' with
  | nil =>
    cases h
    rfl
  | cons line ls ih =>
    rw [List.map_cons] at h
    obtain ⟨line', rest, hline, hrest, rfl⟩ := List.forall₂_cons_left_iff.1 h
    obtain rfl : line' = line := hline
    rw [ih hrest]

/-- The next line stays the next line if it does not stand in a body. -/
theorem head?_of_admits {vs : List Visit} {ls rest rest' more : List Text}
    (hframe : ∀ v ∈ vs.head?, v.1 = .frame) (hvs : vs.map Prod.snd ++ rest' = rest)
    (h : List.Forall₂ Visit.Admits vs ls) (hmore : more.head? = rest'.head?) :
    (ls ++ more).head? = rest.head? := by
  cases h with
  | nil => rwa [← hvs]
  | @cons v line vs ls hline hrest =>
    obtain ⟨place, text⟩ := v
    obtain rfl : place = .frame := hframe _ rfl
    obtain rfl : line = text := hline
    rw [← hvs]
    rfl

namespace Hunk

/-- Where a body ends does not depend on what stands behind the marks. -/
theorem Fills.of_heads {n m : Nat} {body body' : List Text} (h : Fills n m body)
    (hheads : List.Forall₂ (fun line line' => line'.head? = line.head?) body body') :
    Fills n m body' := by
  induction hheads generalizing n m with
  | nil => exact h
  | @cons line line' body body' hline hrest ih =>
    obtain ⟨hopen, hmark, hsource, htarget, hmore⟩ := fills_cons.1 h
    have hsame : inSource line' = inSource line ∧ inTarget line' = inTarget line := by
      unfold inSource inTarget
      rw [hline]
      exact ⟨rfl, rfl⟩
    rw [fills_cons, hsame.1, hsame.2, hline]
    exact ⟨hopen, hmark, hsource, htarget, ih hmore⟩

/-- The marker behind a body may have another text, too. -/
theorem foot_of_heads {rest foot' more : List Text}
    (hheads : List.Forall₂ (fun line line' => line'.head? = line.head?) (foot rest) foot')
    (hmore : more.head? = (rest.drop (foot rest).length).head?) :
    foot (foot' ++ more) = foot' := by
  cases rest with
  | nil =>
    cases hheads
    unfold foot
    rw [List.nil_append, hmore]
    rfl
  | cons line rest =>
    by_cases hmarker : isMarker line = true
    . have hfoot : foot (line :: rest) = [line] := by simp [foot, Option.filter, hmarker]
      rw [hfoot] at hheads
      obtain ⟨line', _, hline, hnil, rfl⟩ := List.forall₂_cons_left_iff.1 hheads
      cases hnil
      have hmarker' : isMarker line' = true := by
        unfold isMarker at hmarker ⊢
        rwa [hline]
      simp [foot, Option.filter, hmarker']
    . have hfoot : foot (line :: rest) = [] := by simp [foot, Option.filter, hmarker]
      rw [hfoot] at hheads hmore
      cases hheads
      unfold foot at hfoot ⊢
      rw [List.nil_append, hmore]
      exact hfoot

variable {r r' : LineReader} {hs : List Hunk} {ls more : List Text}

theorem heads_of_admits {body body' : List Text}
    (h : List.Forall₂ Visit.Admits (body.map fun line => (Place.body, line)) body') :
    List.Forall₂ (fun line line' => line'.head? = line.head?) body body' :=
  List.forall₂_map_left_iff.1 h

theorem readBlock_of_admits (h : readBlock r = .ok hs r')
    (hls : List.Forall₂ Visit.Admits (visitsBlock r) ls) (hmore : more.head? = r'.rest.head?)
    (looked : Bool) :
    ∃ hs' looked', readBlock ⟨ls ++ more, r.lineNumber, looked⟩ =
      .ok hs' ⟨more, r'.lineNumber, looked'⟩ := by
  obtain ⟨header, s, t, body, rest, _, hheads, hfills, hrest, hnumber, _, hvisits⟩ :=
    visitsBlock_of_readBlock h
  rw [hvisits] at hls
  obtain ⟨line, ls, hline, hbody, rfl⟩ := List.forall₂_cons_left_iff.1 hls
  have hline : line = header := hline
  rw [List.map_append] at hbody
  obtain ⟨body', foot', rfl, hbody', hfoot'⟩ := exists_of_admits_append hbody
  rw [hrest] at hmore
  have hfoot : foot (foot' ++ more) = foot' := foot_of_heads (heads_of_admits hfoot') hmore
  have hlines : line :: (body' ++ foot') ++ more = header :: (body' ++ (foot' ++ more)) := by
    rw [hline, List.cons_append, List.append_assoc]
  have hstarts : StartsBlock (line :: (body' ++ foot') ++ more) s t body' (foot' ++ more) :=
    ⟨header, hlines, hheads, hfills.of_heads (heads_of_admits hbody')⟩
  obtain ⟨looked', hread⟩ := readBlock_of_startsBlock
    (r := ⟨line :: (body' ++ foot') ++ more, r.lineNumber, looked⟩) hstarts
  have hlength := hbody.length_eq
  rw [← List.map_append, List.length_map] at hlength
  rw [hfoot, List.drop_left, ← hlength, ← hnumber] at hread
  exact ⟨_, looked', hread⟩

theorem frame_of_mem_head?_visitsBlock (r : LineReader) :
    ∀ v ∈ (visitsBlock r).head?, v.1 = .frame := by
  unfold visitsBlock
  split
  . rintro v ⟨⟩
  . rintro v ⟨⟩
    rfl

theorem frame_of_mem_head?_visitsBlocks (r : LineReader) :
    ∀ v ∈ (visitsBlocks r).head?, v.1 = .frame := by
  fun_induction visitsBlocks r with
  | case1 => rintro v ⟨⟩
  | case2 r => exact frame_of_mem_head?_visitsBlock r
  | case3 r line rest hr hline hs r' hblock ih =>
    intro v hv
    rw [List.head?_append, Option.mem_def, Option.or_eq_some_iff] at hv
    rcases hv with hv | ⟨_, hv⟩
    . exact frame_of_mem_head?_visitsBlock r v hv
    . exact ih v hv
  | case4 => rintro v ⟨⟩

theorem readBlocks_of_admits (h : readBlocks r = .ok hs r')
    (hls : List.Forall₂ Visit.Admits (visitsBlocks r) ls) (hmore : more.head? = r'.rest.head?)
    (looked : Bool) :
    ∃ hs', readBlocks ⟨ls ++ more, r.lineNumber, looked⟩ = .ok hs' ⟨more, r'.lineNumber, true⟩ := by
  fun_induction readBlocks r generalizing hs r' ls looked with
  | case1 r hr =>
    cases h
    rw [visitsBlocks_of_rest_nil hr] at hls
    cases hls
    dsimp only at hmore
    rw [hr] at hmore
    obtain rfl : more = [] := by simpa using hmore
    exact ⟨[], by rw [List.nil_append, readBlocks]⟩
  | case2 => contradiction
  | case3 => contradiction
  | case4 r line rest hr hline hs r₁ hblock hs₂ r₂ hblocks ih =>
    cases h
    rw [visitsBlocks_cons hr hline hblock] at hls
    obtain ⟨l₁, l₂, rfl, hfirst, hsecond⟩ := exists_of_admits_append hls
    have hnext : (l₂ ++ more).head? = r₁.rest.head? :=
      head?_of_admits (frame_of_mem_head?_visitsBlocks r₁) (map_snd_visitsBlocks hblocks) hsecond
        hmore
    have hhead : (l₁ ++ (l₂ ++ more)).head? = r.rest.head? :=
      head?_of_admits (frame_of_mem_head?_visitsBlock r) (map_snd_visitsBlock hblock) hfirst hnext
    obtain ⟨hs', looked', hread⟩ := readBlock_of_admits hblock hfirst hnext looked
    obtain ⟨hs₂', hreadMore⟩ := ih hblocks hsecond hmore looked'
    rw [hr] at hhead
    obtain ⟨tail, htail⟩ := List.head?_eq_some_iff.1 hhead
    rw [List.append_assoc]
    rw [htail] at hread ⊢
    exact ⟨_, readBlocks_cons hline hread hreadMore⟩
  | case5 r line rest hr hline =>
    cases h
    rw [visitsBlocks_of_startsWith hr hline] at hls
    cases hls
    dsimp only at hmore
    rw [hr] at hmore
    obtain ⟨tail, rfl⟩ := List.head?_eq_some_iff.1 hmore
    refine ⟨[], ?_⟩
    rw [List.nil_append, readBlocks_eq]
    dsimp only
    rw [if_neg hline]

end Hunk

namespace Patch

variable {stop : Text → Bool} {r r' : LineReader} {p : Patch} {ps : List Patch}
  {ls more : List Text}

theorem readHunks_of_admits {rest : List Text} {n : Nat} {hs : List Hunk}
    (h : readHunks rest n = .ok hs r) (hls : List.Forall₂ Visit.Admits (visitsHunks rest n) ls)
    (hmore : more.head? = r.rest.head?) :
    ∃ hs', readHunks (ls ++ more) n = .ok hs' ⟨more, r.lineNumber, true⟩ := by
  cases rest with
  | nil => contradiction
  | cons line rest =>
    rw [readHunks] at h
    rw [visitsHunks] at hls
    split at h
    . next hline =>
      rw [if_pos hline] at hls
      obtain ⟨line', ls, hsame, hrest, rfl⟩ := List.forall₂_cons_left_iff.1 hls
      obtain rfl : line' = line := hsame
      rw [List.cons_append, readHunks, if_pos hline]
      exact Hunk.readBlocks_of_admits h hrest hmore false
    . contradiction

theorem skipPayload_takeWhile (n : Nat) {rest : List Text}
    (hmore : more.head? = (rest.dropWhile (!endsPatch stop ·)).head?) :
    skipPayload stop n (rest.takeWhile (!endsPatch stop ·) ++ more) =
      ⟨more, n + (rest.takeWhile (!endsPatch stop ·)).length, true⟩ := by
  induction rest generalizing n with
  | nil =>
    obtain rfl : more = [] := by simpa using hmore
    rfl
  | cons line rest ih =>
    by_cases hend : endsPatch stop line = true
    . rw [List.dropWhile_cons_of_neg (by simp [hend])] at hmore
      obtain ⟨tail, rfl⟩ := List.head?_eq_some_iff.1 hmore
      rw [List.takeWhile_cons_of_neg (by simp [hend]), List.nil_append, skipPayload, if_pos hend]
      rfl
    . rw [List.dropWhile_cons_of_pos (by simp [hend])] at hmore
      rw [List.takeWhile_cons_of_pos (by simp [hend]), List.cons_append, skipPayload, if_neg hend,
        ih (n + 1) hmore, List.length_cons, Nat.add_assoc, Nat.add_comm 1]

theorem readHeader_of_admits {hd : Header} {n : Nat} {ls' : List Text}
    (h : readHeader stop hd n ls = .ok p r)
    (hls : List.Forall₂ Visit.Admits (visitsHeader stop hd n ls) ls')
    (hmore : more.head? = r.rest.head?) :
    ∃ p' looked, readHeader stop hd n (ls' ++ more) = .ok p' ⟨more, r.lineNumber, looked⟩ := by
  fun_induction readHeader stop hd n ls generalizing ls' with
  | case1 =>
    cases h
    cases hls
    obtain rfl : more = [] := by simpa using hmore
    exact ⟨_, _, rfl⟩
  | case2 hd n line rest hend =>
    cases h
    rw [visitsHeader, if_pos hend] at hls
    cases hls
    obtain ⟨tail, rfl⟩ := List.head?_eq_some_iff.1 hmore
    rw [List.nil_append, readHeader, if_pos hend]
    exact ⟨_, _, rfl⟩
  | case3 => contradiction
  | case4 hd n line rest hend hd' hstep ih =>
    rw [visitsHeader, if_neg hend, hstep] at hls
    obtain ⟨line', ls, hsame, hrest, rfl⟩ := List.forall₂_cons_left_iff.1 hls
    obtain rfl : line' = line := hsame
    rw [List.cons_append, readHeader, if_neg hend, hstep]
    exact ih h hrest
  | case5 hd n line rest hend hstep =>
    cases h
    rw [visitsHeader, if_neg hend, hstep] at hls
    obtain ⟨line', ls, hsame, hnil, rfl⟩ := List.forall₂_cons_left_iff.1 hls
    obtain rfl : line' = line := hsame
    cases hnil
    rw [List.singleton_append, readHeader, if_neg hend, hstep]
    exact ⟨_, _, rfl⟩
  | case6 hd n line rest hend hstep =>
    cases h
    rw [visitsHeader, if_neg hend, hstep] at hls
    obtain ⟨line', ls, hsame, hpayload, rfl⟩ := List.forall₂_cons_left_iff.1 hls
    obtain rfl : line' = line := hsame
    rw [skipPayload_eq] at hmore ⊢
    rw [eq_of_admits_frame hpayload, List.cons_append, readHeader, if_neg hend, hstep]
    dsimp only
    rw [skipPayload_takeWhile (n + 1) hmore]
    exact ⟨_, _, rfl⟩
  | case7 => contradiction
  | case8 hd n line rest hend hstep hunks r' hhunks =>
    cases h
    rw [visitsHeader, if_neg hend, hstep] at hls
    obtain ⟨line', ls, hsame, hrest, rfl⟩ := List.forall₂_cons_left_iff.1 hls
    obtain rfl : line' = line := hsame
    obtain ⟨hs', hread⟩ := readHunks_of_admits hhunks hrest hmore
    rw [List.cons_append, readHeader, if_neg hend, hstep]
    dsimp only
    rw [hread]
    exact ⟨_, _, rfl⟩

theorem readOne_of_admits (h : readOne stop r = .ok p r')
    (hls : List.Forall₂ Visit.Admits (visitsOne stop r) ls) (hmore : more.head? = r'.rest.head?)
    (looked : Bool) :
    ∃ p' looked', readOne stop ⟨ls ++ more, r.lineNumber, looked⟩ =
      .ok p' ⟨more, r'.lineNumber, looked'⟩ := by
  obtain ⟨line, rest, s, t, hr, hpair, hheader⟩ := readHeader_of_readOne h
  rw [visitsOne_of_readPair hr hpair] at hls
  obtain ⟨line', ls, hsame, hrest, rfl⟩ := List.forall₂_cons_left_iff.1 hls
  obtain rfl : line' = line := hsame
  unfold readOne
  dsimp only [List.cons_append]
  rw [hpair]
  exact readHeader_of_admits hheader hrest hmore

theorem frame_of_mem_head?_visitsOne (stop : Text → Bool) (r : LineReader) :
    ∀ v ∈ (visitsOne stop r).head?, v.1 = .frame := by
  unfold visitsOne
  split
  . rintro v ⟨⟩
  . rintro v ⟨⟩
    rfl

theorem frame_of_mem_head?_visits (stop : Text → Bool) (r : LineReader) :
    ∀ v ∈ (visits stop r).head?, v.1 = .frame := by
  fun_induction visits stop r with
  | case1 => rintro v ⟨⟩
  | case2 =>
    rintro v ⟨⟩
    rfl
  | case3 r => exact frame_of_mem_head?_visitsOne stop r
  | case4 r line rest hr hstop hline p r' hone ih =>
    intro v hv
    rw [List.head?_append, Option.mem_def, Option.or_eq_some_iff] at hv
    rcases hv with hv | ⟨_, hv⟩
    . exact frame_of_mem_head?_visitsOne stop r v hv
    . exact ih v hv
  | case5 =>
    rintro v ⟨⟩
    rfl

/-- A diff is read from other lines with the same marks as well, and just as far. -/
theorem readExtended_of_admits (h : readExtended stop r = .ok ps r')
    (hls : List.Forall₂ Visit.Admits (visits stop r) ls) (looked : Bool) :
    ∃ ps', readExtended stop ⟨ls ++ r'.rest.tail, r.lineNumber, looked⟩ = .ok ps' r' ∧
      ps'.length = ps.length := by
  fun_induction readExtended stop r generalizing ps r' ls looked with
  | case1 r hr =>
    cases h
    rw [visits_of_rest_nil hr] at hls
    cases hls
    refine ⟨[], ?_, rfl⟩
    rw [readExtended_eq]
    simp [hr]
  | case2 r line rest hr hstop =>
    cases h
    rw [visits_of_stop hr hstop] at hls
    obtain ⟨line', ls, hsame, hnil, rfl⟩ := List.forall₂_cons_left_iff.1 hls
    obtain rfl : line' = line := hsame
    cases hnil
    refine ⟨[], ?_, rfl⟩
    rw [readExtended_eq]
    simp [hr, hstop]
  | case3 => contradiction
  | case4 => contradiction
  | case5 r line rest hr hstop hline p r₁ hone ps₂ r₂ hps ih =>
    cases h
    rw [visits_of_ok hr hstop hline hone] at hls
    obtain ⟨l₁, l₂, rfl, hfirst, hsecond⟩ := exists_of_admits_append hls
    have hnext : (l₂ ++ r₂.rest.tail).head? = r₁.rest.head? :=
      head?_of_admits (frame_of_mem_head?_visits stop r₁) (map_snd_visits hps) hsecond rfl
    have hhead : (l₁ ++ (l₂ ++ r₂.rest.tail)).head? = r.rest.head? :=
      head?_of_admits (frame_of_mem_head?_visitsOne stop r) (map_snd_visitsOne hone) hfirst hnext
    obtain ⟨p', looked', hread⟩ := readOne_of_admits hone hfirst hnext looked
    obtain ⟨ps', hreadMore, hlength⟩ := ih hps hsecond looked'
    rw [hr] at hhead
    obtain ⟨tail, htail⟩ := List.head?_eq_some_iff.1 hhead
    rw [List.append_assoc]
    rw [htail] at hread ⊢
    rw [Bool.not_eq_true] at hstop
    exact ⟨_, readExtended_cons hstop hline hread hreadMore, congrArg (· + 1) hlength⟩
  | case6 => contradiction

end Patch

end Dvcs
