import Dvcs.Proofs.Patch.RoundTrip
import Dvcs.Proofs.Patch.Visits

/-!
This module contains what the reading of patches leaves alone: the lines behind the diff, and the
position of its first line. So a diff that can be read on its own can be read inside of a stream.
-/

namespace Dvcs

namespace Patch

open LineReader Text

theorem reaches_skipPayload (stop : Text → Bool) (n : Nat) (ls : List Text) (looked : Bool) :
    Reaches ⟨ls, n, looked⟩ (skipPayload stop n ls) := by
  fun_induction skipPayload stop n ls generalizing looked with
  | case1 => exact .of_rest_eq rfl rfl
  | case2 => exact .of_rest_eq rfl rfl
  | case3 n line rest hend ih => exact (ih false).cons

theorem reaches_of_readHunks {rest : List Text} {n : Nat} {hs : List Hunk} {r : LineReader}
    (h : readHunks rest n = .ok hs r) (looked : Bool) : Reaches ⟨rest, n, looked⟩ r := by
  unfold readHunks at h
  split at h
  . contradiction
  . split at h
    . exact (Hunk.reaches_of_readBlocks h).cons
    . contradiction

theorem reaches_of_readHeader {stop : Text → Bool} {hd : Header} {n : Nat} {ls : List Text}
    {p : Patch} {r : LineReader} (h : readHeader stop hd n ls = .ok p r) (looked : Bool) :
    Reaches ⟨ls, n, looked⟩ r := by
  fun_induction readHeader stop hd n ls generalizing looked with
  | case1 =>
    cases h
    exact .of_rest_eq rfl rfl
  | case2 =>
    cases h
    exact .of_rest_eq rfl rfl
  | case3 => contradiction
  | case4 hd n line rest hend hd' hstep ih => exact (ih h false).cons
  | case5 =>
    cases h
    exact .drop ..
  | case6 hd n line rest =>
    cases h
    exact (reaches_skipPayload stop (n + 1) rest false).cons
  | case7 => contradiction
  | case8 hd n line rest hend hstep hunks r' hhunks =>
    cases h
    exact (reaches_of_readHunks hhunks false).cons

theorem reaches_of_readOne {stop : Text → Bool} {r r' : LineReader} {p : Patch}
    (h : readOne stop r = .ok p r') : r.Reaches r' := by
  obtain ⟨line, rest, s, t, hr, _, hheader⟩ := readHeader_of_readOne h
  obtain ⟨ls, n, looked⟩ := r
  obtain rfl : ls = line :: rest := hr
  exact (reaches_of_readHeader hheader false).cons

theorem reaches_of_readExtended {stop : Text → Bool} {r r' : LineReader} {ps : List Patch}
    (h : readExtended stop r = .ok ps r') : r.Reaches r' := by
  fun_induction readExtended stop r generalizing ps r' with
  | case1 =>
    cases h
    exact .of_rest_eq rfl rfl
  | case2 =>
    cases h
    exact .of_rest_eq rfl rfl
  | case3 => contradiction
  | case4 => contradiction
  | case5 r line rest hr hstop hline p r1 hone ps r2 hps ih =>
    cases h
    exact (reaches_of_readOne hone).trans (ih hps)
  | case6 => contradiction

/-- Lines that a diff cannot take in: the first one ends a patch and a block of hunks. -/
def Halts (stop : Text → Bool) (more : List Text) : Prop :=
  Hunk.Ends more ∧ ∀ line ∈ more.head?, endsPatch stop line = true

theorem skipPayload_append {stop : Text → Bool} {more : List Text} (hmore : Halts stop more)
    (n : Nat) (ls : List Text) :
    skipPayload stop n (ls ++ more) = (skipPayload stop n ls).append more := by
  fun_induction skipPayload stop n ls with
  | case1 n =>
    cases more with
    | nil => rfl
    | cons line more => simp [skipPayload, hmore.2 line rfl, LineReader.append]
  | case2 n line rest hend => simp [skipPayload, hend, LineReader.append]
  | case3 n line rest hend ih => simpa [skipPayload, hend] using ih

theorem readHunks_append {rest : List Text} {n : Nat} {hs : List Hunk} {r : LineReader}
    (h : readHunks rest n = .ok hs r) {more : List Text} (hmore : Hunk.Ends more) :
    readHunks (rest ++ more) n = .ok hs (r.append more) := by
  cases rest with
  | nil => contradiction
  | cons line rest =>
    simp only [readHunks, List.cons_append] at h ⊢
    split at h
    . next htarget =>
      rw [if_pos htarget]
      exact Hunk.readBlocks_append h hmore
    . contradiction

theorem readHeader_append {stop : Text → Bool} {hd : Header} {n : Nat} {ls : List Text}
    {p : Patch} {r : LineReader} (h : readHeader stop hd n ls = .ok p r) {more : List Text}
    (hmore : Halts stop more) : readHeader stop hd n (ls ++ more) = .ok p (r.append more) := by
  fun_induction readHeader stop hd n ls with
  | case1 hd n =>
    cases h
    cases more with
    | nil => rfl
    | cons line more => simp [readHeader, hmore.2 line rfl, LineReader.append]
  | case2 hd n line rest hend =>
    cases h
    simp [readHeader, hend, LineReader.append]
  | case3 => contradiction
  | case4 hd n line rest hend hd' hstep ih => simpa [readHeader, hend, hstep] using ih h
  | case5 hd n line rest hend hstep =>
    cases h
    simp [readHeader, hend, hstep, LineReader.append]
  | case6 hd n line rest hend hstep =>
    cases h
    simp [readHeader, hend, hstep, skipPayload_append hmore]
  | case7 => contradiction
  | case8 hd n line rest hend hstep hunks r' hhunks =>
    cases h
    simp [readHeader, hend, hstep, readHunks_append hhunks hmore.1]

theorem readOne_append {stop : Text → Bool} {r r' : LineReader} {p : Patch}
    (h : readOne stop r = .ok p r') {more : List Text} (hmore : Halts stop more) :
    readOne stop (r.append more) = .ok p (r'.append more) := by
  obtain ⟨ls, n, looked⟩ := r
  cases ls with
  | nil => contradiction
  | cons line rest =>
    simp only [readOne, LineReader.append, List.cons_append] at h ⊢
    split at h
    . contradiction
    . contradiction
    . exact readHeader_append h hmore

theorem readExtended_eq (stop : Text → Bool) (r : LineReader) :
    readExtended stop r =
      match r.rest with
      | [] => .ok [] { r with looked := true }
      | line :: _ =>
        if stop line then .ok [] { r with looked := true }
        else if line.startsWith patchHeader then
          match readOne stop r with
          | .error e r => .error e r
          | .ok p r' =>
            match readExtended stop r' with
            | .error e r => .error e r
            | .ok ps r => .ok (p :: ps) r
        else
          .error (.diff (r.lineNumber + 1) (.otherThanPatchHeader line))
            { r with looked := true } := by
  obtain ⟨ls, n, looked⟩ := r
  cases ls with
  | nil => rw [readExtended]
  | cons line rest =>
    rw [readExtended]
    dsimp only
    split
    . rfl
    . split
      . split
        . next heq => simp only [heq]
        . next p r' heq => cases hmore : readExtended stop r' <;> simp only [heq, hmore]
      . rfl

theorem readExtended_append {stop : Text → Bool} {r r' : LineReader} {ps : List Patch}
    (h : readExtended stop r = .ok ps r') {more : List Text} (hends : Hunk.Ends more)
    (hstop : ∀ line ∈ more.head?, stop line = true) :
    readExtended stop (r.append more) = .ok ps (r'.append more) := by
  -- a diff that ends with the input could go on into the new lines, but these start with a stop
  have hmore : Halts stop more := ⟨hends, fun line hline => by simp [endsPatch, hstop line hline]⟩
  fun_induction readExtended stop r generalizing ps r' with
  | case1 r hr =>
    cases h
    rw [readExtended_eq]
    cases more with
    | nil => simp [LineReader.append, hr]
    | cons line more => simp [LineReader.append, hr, hstop line rfl]
  | case2 r line rest hr hline =>
    cases h
    rw [readExtended_eq]
    simp [LineReader.append, hr, hline]
  | case3 => contradiction
  | case4 => contradiction
  | case5 r line rest hr hline hheader p r1 hone ps r2 hps ih =>
    cases h
    rw [readExtended_eq, readOne_append hone hmore]
    simp only [ih hps]
    simp [LineReader.append, hr, hline, hheader]
  | case6 => contradiction

section Congruence

variable {stop stop' : Text → Bool} {ls : List Text} {r r' : LineReader} {p : Patch}

theorem endsPatch_congr {line : Text} (h : stop line = stop' line) :
    endsPatch stop line = endsPatch stop' line := by
  rw [endsPatch, endsPatch, h]

theorem skipPayload_congr_of_takeWhile {ls : List Text} (n : Nat)
    (h : ∀ line ∈ ls.takeWhile (!endsPatch stop ·), stop line = stop' line)
    (hnext : ∀ line ∈ (ls.dropWhile (!endsPatch stop ·)).head?, stop line = stop' line) :
    skipPayload stop n ls = skipPayload stop' n ls := by
  induction ls generalizing n with
  | nil => rfl
  | cons line ls ih =>
    by_cases hend : endsPatch stop line = true
    . rw [List.dropWhile_cons_of_neg (by simp [hend])] at hnext
      have hend' := endsPatch_congr (hnext line rfl)
      rw [skipPayload, skipPayload, ← hend', if_pos hend, if_pos hend]
    . rw [List.dropWhile_cons_of_pos (by simp [hend])] at hnext
      rw [List.takeWhile_cons_of_pos (by simp [hend]), List.forall_mem_cons] at h
      rw [skipPayload, skipPayload, ← endsPatch_congr h.1, ih (n + 1) h.2 hnext]

/-- A patch depends on the stop only at the lines around bodies, and at the line behind the patch.
-/
theorem readHeader_congr_of_frame {hd : Header} {n : Nat}
    (h : ∀ line, (.frame, line) ∈ visitsHeader stop hd n ls → stop line = stop' line)
    (hnext : ∀ p r, readHeader stop hd n ls = .ok p r →
      ∀ line ∈ r.rest.head?, stop line = stop' line) :
    readHeader stop hd n ls = readHeader stop' hd n ls := by
  induction ls generalizing hd n with
  | nil => rfl
  | cons line rest ih =>
    by_cases hend : endsPatch stop line = true
    . have hread : readHeader stop hd n (line :: rest) =
          .ok (hd.toPatch [] false) ⟨line :: rest, n, true⟩ := by
        rw [readHeader, if_pos hend]
      have hend' := endsPatch_congr (hnext _ _ hread line rfl)
      rw [readHeader, readHeader, ← hend', if_pos hend, if_pos hend]
    . rw [visitsHeader, if_neg hend] at h
      rw [readHeader, if_neg hend] at hnext
      have hend' := endsPatch_congr (h line List.mem_cons_self)
      rw [readHeader, readHeader, ← hend', if_neg hend, if_neg hend]
      cases hstep : hd.step (n + 1) line with
      | error e => rfl
      | ok found =>
        rw [hstep] at h hnext
        cases found with
        | header hd' => exact ih (fun line hline => h line (List.mem_cons_of_mem _ hline)) hnext
        | binaryNotice => rfl
        | fileHeader => rfl
        | binaryPayload =>
          have hpayload : skipPayload stop (n + 1) rest = skipPayload stop' (n + 1) rest := by
            refine skipPayload_congr_of_takeWhile (n + 1) (fun line hline => ?_) ?_
            . exact h line (List.mem_cons_of_mem _ (List.mem_map_of_mem hline))
            . have hhead := hnext _ _ rfl
              rw [skipPayload_eq] at hhead
              exact hhead
          dsimp only
          rw [hpayload]

theorem readOne_congr_of_frame
    (h : ∀ line, (.frame, line) ∈ visitsOne stop r → stop line = stop' line)
    (hnext : ∀ p r', readOne stop r = .ok p r' → ∀ line ∈ r'.rest.head?, stop line = stop' line) :
    readOne stop r = readOne stop' r := by
  unfold readOne visitsOne at *
  cases hr : r.rest with
  | nil => rfl
  | cons line rest =>
    rw [hr] at h hnext
    dsimp only at h hnext ⊢
    cases hpair : Path.readPair (line.drop patchHeader.length) with
    | error e => rfl
    | ok paths =>
      cases paths with
      | none => rfl
      | some paths =>
        rw [hpair] at h hnext
        exact readHeader_congr_of_frame (fun line hline => h line (List.mem_cons_of_mem _ hline))
          hnext

theorem congr_of_ok {line : Text} {rest : List Text} (hr : r.rest = line :: rest)
    (hstop : ¬ stop line = true) (hheader : line.startsWith patchHeader = true)
    (hone : readOne stop r = .ok p r')
    (h : ∀ line, (.frame, line) ∈ visits stop r → stop line = stop' line) :
    readOne stop r = readOne stop' r ∧
      ∀ line, (.frame, line) ∈ visits stop r' → stop line = stop' line := by
  rw [visits_of_ok hr hstop hheader hone] at h
  have hmore : ∀ line, (.frame, line) ∈ visits stop r' → stop line = stop' line :=
    fun line hline => h line (List.mem_append_right _ hline)
  have hfirst : ∀ line, (.frame, line) ∈ visitsOne stop r → stop line = stop' line :=
    fun line hline => h line (List.mem_append_left _ hline)
  refine ⟨readOne_congr_of_frame hfirst ?_, hmore⟩
  -- the line behind the patch is the next one that the diff comes to
  intro p' r'' hok line hline
  rw [hone] at hok
  cases hok
  obtain ⟨rest', hrest⟩ := List.head?_eq_some_iff.1 hline
  exact hmore line (frame_mem_visits hrest)

/-- A diff depends on the stop only at the lines around bodies. -/
theorem readExtended_congr_of_frame
    (h : ∀ line, (.frame, line) ∈ visits stop r → stop line = stop' line) :
    readExtended stop r = readExtended stop' r := by
  fun_induction readExtended stop r with
  | case1 r hr =>
    rw [readExtended_eq, hr]
  | case2 r line rest hr hstop =>
    have hline := h line (frame_mem_visits hr)
    rw [readExtended_eq, hr]
    dsimp only
    rw [← hline, if_pos hstop]
  | case3 r line rest hr hstop hheader e r₁ hone =>
    have hline := h line (frame_mem_visits hr)
    rw [visits_of_error hr hstop hheader hone] at h
    have hsame : readOne stop r = readOne stop' r :=
      readOne_congr_of_frame h fun p r' hok => by simp [hone] at hok
    rw [readExtended_eq, ← hsame, hone, hr]
    simp [← hline, hstop, hheader]
  | case4 r line rest hr hstop hheader p r₁ hone e r₂ hps ih =>
    have hline := h line (frame_mem_visits hr)
    obtain ⟨hsame, hmore⟩ := congr_of_ok hr hstop hheader hone h
    rw [readExtended_eq, ← hsame, hone, hr]
    simp [← hline, hstop, hheader, ← ih hmore, hps]
  | case5 r line rest hr hstop hheader p r₁ hone ps r₂ hps ih =>
    have hline := h line (frame_mem_visits hr)
    obtain ⟨hsame, hmore⟩ := congr_of_ok hr hstop hheader hone h
    rw [readExtended_eq, ← hsame, hone, hr]
    simp [← hline, hstop, hheader, ← ih hmore, hps]
  | case6 r line rest hr hstop hheader =>
    have hline := h line (frame_mem_visits hr)
    rw [readExtended_eq, hr]
    simp [← hline, hstop, hheader]

theorem readExtended_congr (h : ∀ line ∈ r.rest, stop line = stop' line) :
    readExtended stop r = readExtended stop' r :=
  readExtended_congr_of_frame fun line hline => h line (mem_rest_of_mem_visits hline)

end Congruence

section Position

theorem fileType_shift (mode : Text) (n k : Nat) :
    fileType mode (n + k) = (fileType mode n).mapError (·.shift k) := by
  unfold fileType
  split <;> rfl

theorem map_mapError {α β : Type} (f : α → β) (x : Except ReadError α) (k : Nat) :
    f <$> x.mapError (·.shift k) = (f <$> x).mapError (·.shift k) := by
  cases x <;> rfl

namespace Header

theorem modeLine?_shift (h : Header) (n k : Nat) (line : Text) :
    h.modeLine? (n + k) line = (h.modeLine? n line).map (·.mapError (·.shift k)) := by
  unfold modeLine?
  simp only [fileType_shift, map_mapError]
  repeat' split
  all_goals rfl

theorem indexLine?_shift (h : Header) (n k : Nat) (line : Text) :
    h.indexLine? (n + k) line = (h.indexLine? n line).map (·.mapError (·.shift k)) := by
  unfold indexLine?
  simp only [fileType_shift, map_mapError]
  split
  . split <;> rfl
  . rfl

theorem scoreLine?_shift (h : Header) (k : Nat) (line : Text) :
    (h.scoreLine? line).map (·.mapError (·.shift k)) = h.scoreLine? line := by
  -- an error about a number does not name its line
  unfold scoreLine?
  split
  . split <;> rfl
  . rfl

theorem unquoted_shift (text : Text) (k : Nat) :
    (unquoted text).mapError (·.shift k) = unquoted text := by
  unfold unquoted
  split <;> rfl

theorem moveLine?_shift (h : Header) (k : Nat) (line : Text) :
    (h.moveLine? line).map (·.mapError (·.shift k)) = h.moveLine? line := by
  unfold moveLine?
  repeat' split
  all_goals simp only [Option.map_some, Option.map_none, ← map_mapError, unquoted_shift]

theorem step_shift (h : Header) (n k : Nat) (line : Text) :
    h.step (n + k) line = (h.step n line).mapError (·.shift k) := by
  have hshift : (h.modeLine? (n + k) line <|> h.scoreLine? line <|> h.moveLine? line <|>
      h.indexLine? (n + k) line) =
        (h.modeLine? n line <|> h.scoreLine? line <|> h.moveLine? line <|>
          h.indexLine? n line).map (·.mapError (·.shift k)) := by
    have hscore := scoreLine?_shift h k line
    have hmove := moveLine?_shift h k line
    rw [modeLine?_shift, indexLine?_shift]
    generalize h.modeLine? n line = mode
    generalize h.scoreLine? line = score at hscore ⊢
    generalize h.moveLine? line = move at hmove ⊢
    cases mode with
    | some x => rfl
    | none =>
      cases score with
      | some x => exact hscore.symm
      | none =>
        cases move with
        | some x => exact hmove.symm
        | none => rfl
  unfold step
  rw [hshift]
  cases h.modeLine? n line <|> h.scoreLine? line <|> h.moveLine? line <|> h.indexLine? n line with
  | some x => cases x <;> rfl
  | none =>
    simp only [Option.map_none]
    repeat' split
    all_goals rfl

end Header

theorem skipPayload_shift (stop : Text → Bool) (n k : Nat) (ls : List Text) :
    skipPayload stop (n + k) ls = (skipPayload stop n ls).shift k := by
  induction ls generalizing n with
  | nil => rfl
  | cons line rest ih =>
    rw [skipPayload, skipPayload]
    split
    . rfl
    . rw [Nat.add_right_comm]
      exact ih (n + 1)

theorem readHunks_shift (rest : List Text) (n k : Nat) :
    readHunks rest (n + k) = Reading.shift k (readHunks rest n) := by
  cases rest with
  | nil => rfl
  | cons line rest =>
    simp only [readHunks]
    rw [Nat.add_right_comm]
    split
    . exact Hunk.readBlocks_shift ⟨rest, n + 1, false⟩ k
    . rfl

theorem readHeader_shift (stop : Text → Bool) (hd : Header) (n k : Nat) (ls : List Text) :
    readHeader stop hd (n + k) ls = Reading.shift k (readHeader stop hd n ls) := by
  induction ls generalizing hd n with
  | nil => rfl
  | cons line rest ih =>
    rw [readHeader, readHeader]
    rw [Nat.add_right_comm, Header.step_shift]
    split
    . rfl
    . cases hd.step (n + 1) line with
      | error e => rfl
      | ok found =>
        cases found with
        | header hd' => exact ih hd' (n + 1)
        | binaryNotice => rfl
        | binaryPayload =>
          simp only [Except.mapError, skipPayload_shift]
          rfl
        | fileHeader =>
          simp only [Except.mapError, readHunks_shift rest (n + 1) k]
          cases readHunks rest (n + 1) <;> rfl

theorem readOne_shift (stop : Text → Bool) (r : LineReader) (k : Nat) :
    readOne stop (r.shift k) = Reading.shift k (readOne stop r) := by
  obtain ⟨ls, n, looked⟩ := r
  cases ls with
  | nil => simp [readOne, LineReader.shift, Reading.shift, ReadError.shift, Nat.add_right_comm]
  | cons line rest =>
    simp only [readOne, LineReader.shift]
    rw [Nat.add_right_comm]
    cases Path.readPair (line.drop patchHeader.length) with
    | error e => rfl
    | ok paths =>
      cases paths with
      | none => rfl
      | some paths => exact readHeader_shift stop _ (n + 1) k rest

theorem readExtended_shift (stop : Text → Bool) (r : LineReader) (k : Nat) :
    readExtended stop (r.shift k) = Reading.shift k (readExtended stop r) := by
  fun_induction readExtended stop r with
  | case1 r hr =>
    rw [readExtended_eq]
    simp only [LineReader.shift, hr]
    rfl
  | case2 r line rest hr hstop =>
    rw [readExtended_eq]
    simp only [LineReader.shift, hr, if_pos hstop]
    rfl
  | case3 r line rest hr hstop hline e r1 hone =>
    rw [readExtended_eq, readOne_shift, hone]
    simp only [LineReader.shift, hr, if_neg hstop, if_pos hline]
    rfl
  | case4 r line rest hr hstop hline p r1 hone e r2 hps ih =>
    rw [readExtended_eq, readOne_shift, hone]
    simp only [Reading.shift]
    rw [ih, hps]
    simp only [LineReader.shift, hr, if_neg hstop, if_pos hline]
    rfl
  | case5 r line rest hr hstop hline p r1 hone ps r2 hps ih =>
    rw [readExtended_eq, readOne_shift, hone]
    simp only [Reading.shift]
    rw [ih, hps]
    simp only [LineReader.shift, hr, if_neg hstop, if_pos hline]
    rfl
  | case6 r line rest hr hstop hline =>
    rw [readExtended_eq]
    simp only [LineReader.shift, hr, if_neg hstop, if_neg hline]
    simp [Reading.shift, ReadError.shift, LineReader.shift, Nat.add_right_comm]

end Position

theorem rest_eq_nil_of_toEnd {r r' : LineReader} {ps : List Patch}
    (h : readExtended toEnd r = .ok ps r') : r'.rest = [] ∧ r'.looked = true := by
  fun_induction readExtended toEnd r generalizing ps r' with
  | case1 r hr =>
    cases h
    exact ⟨hr, rfl⟩
  | case2 => contradiction
  | case3 => contradiction
  | case4 => contradiction
  | case5 r line rest hr hstop hline p r1 hone ps r2 hps ih =>
    cases h
    exact ih hps
  | case6 => contradiction

theorem readExtended_looked (stop : Text → Bool) (ls : List Text) (n : Nat)
    (looked looked' : Bool) :
    readExtended stop ⟨ls, n, looked⟩ = readExtended stop ⟨ls, n, looked'⟩ := by
  cases ls with
  | nil => rw [readExtended_eq, readExtended_eq stop ⟨[], n, looked'⟩]
  | cons line rest =>
    rw [readExtended_eq, readExtended_eq stop ⟨line :: rest, n, looked'⟩]
    rfl

theorem readExtended_frame {ls more : List Text} {ps : List Patch} {r : LineReader}
    (h : readExtended toEnd (.ofLines ls) = .ok ps r) {stop : Text → Bool}
    (hls : ∀ line ∈ ls, stop line = false) (hmore : ∀ line ∈ more.head?, stop line = true)
    (hends : Hunk.Ends more) (n : Nat) (looked : Bool) :
    readExtended stop ⟨ls ++ more, n, looked⟩ = .ok ps ⟨more, n + ls.length, true⟩ := by
  -- the diff gets more lines behind it first, and then its place in the stream
  have hcongr : readExtended stop (.ofLines ls) = .ok ps r := by
    rw [← h]
    exact readExtended_congr hls
  have hshift := readExtended_shift stop (.ofLines ls) n
  rw [hcongr] at hshift
  have happend := readExtended_append hshift hends hmore
  have hnumber := (reaches_of_readExtended h).lineNumber_of_rest_nil (rest_eq_nil_of_toEnd h).1
  obtain ⟨rest, number, looked'⟩ := r
  obtain ⟨rfl, rfl⟩ : rest = [] ∧ looked' = true := rest_eq_nil_of_toEnd h
  rw [readExtended_looked stop (ls ++ more) n looked false]
  have hnumber' : number = ls.length := by simpa [LineReader.ofLines] using hnumber
  rw [hnumber'] at happend
  simpa [LineReader.append, LineReader.shift, LineReader.ofLines, Nat.add_comm] using happend

end Patch

end Dvcs
