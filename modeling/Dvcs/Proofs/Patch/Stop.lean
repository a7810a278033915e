import Dvcs.Proofs.Patch.Body

/-!
This module contains where a diff ends. The lines behind a diff that has been read on its own either
go on with the next patch, or stop the reading if the first of them is a stop line. Such a line ends
everything that can be open in front of it, or is an error there like the end of the input.
-/

namespace Dvcs

open LineReader Text

/-- What comes of reading some items, and then others with the outcome `x`. -/
def Reading.prepend {α : Type} (as : List α) (x : EStateM.Result ReadError LineReader (List α)) :
    EStateM.Result ReadError LineReader (List α) :=
  match x with
  | .ok as' r => .ok (as ++ as') r
  | .error e r => .error e r

theorem Reading.prepend_nil {α : Type} (x : EStateM.Result ReadError LineReader (List α)) :
    prepend [] x = x := by
  cases x <;> rfl

theorem Reading.prepend_cons {α : Type} (a : α) (as : List α)
    (x : EStateM.Result ReadError LineReader (List α)) :
    prepend (a :: as) x = prepend [a] (prepend as x) := by
  cases x <;> rfl

namespace Hunk

/-- A line that stands in no block. -/
def Foreign (line : Text) : Prop := ∀ c ∈ line.head?, c ∉ .char '@' :: marks

theorem Foreign.startsWith {line : Text} (h : Foreign line) {c : Sym}
    (hc : c ∈ .char '@' :: marks) (t : Text) : line.startsWith (c :: t) = false := by
  rw [← Bool.not_eq_true]
  intro hstarts
  obtain ⟨rest, hrest⟩ := Option.isSome_iff_exists.1 hstarts
  rw [eq_append_of_after? hrest] at h
  exact h c rfl hc

theorem Foreign.ends {line : Text} (h : Foreign line) (more : List Text) :
    Ends (line :: more) := by
  constructor
  . rintro _ ⟨⟩ hhead
    exact h _ hhead (by decide)
  . rintro _ ⟨⟩
    exact h.startsWith (c := .char '@') (by decide) [.char '@']

variable {line : Text} {more ls : List Text} {e : ReadError} {r r' : LineReader}

theorem readBody_append_of_error {b : Block} {n : Nat} (h : b.readBody n ls = .error e r)
    (hline : Foreign line) (more : List Text) :
    ∃ e' r', b.readBody n (ls ++ line :: more) = .error e' r' := by
  induction ls generalizing b n with
  | nil =>
    rw [Block.readBody] at h
    split at h
    . contradiction
    . next hopen =>
      rw [List.nil_append, Block.readBody, if_neg hopen]
      cases hstep : b.step line with
      | error fault => exact ⟨_, _, rfl⟩
      | ok b' =>
        obtain ⟨mark, hmark, hhead⟩ := (Block.marked_of_step hstep).1
        exact absurd (List.mem_cons_of_mem _ hmark) (hline mark hhead)
  | cons line' ls ih =>
    rw [Block.readBody] at h
    split at h
    . contradiction
    . next hopen =>
      rw [List.cons_append, Block.readBody, if_neg hopen]
      cases hstep : b.step line' with
      | error fault => exact ⟨_, _, rfl⟩
      | ok b' =>
        rw [hstep] at h
        exact ih h

theorem readBlock_append_of_error (h : readBlock r = .error e r') (hr : r.rest ≠ [])
    (hline : Foreign line) (more : List Text) :
    ∃ e' r'', readBlock (r.append (line :: more)) = .error e' r'' := by
  obtain ⟨ls, n, looked⟩ := r
  obtain ⟨header, ls, rfl⟩ := List.exists_cons_of_ne_nil hr
  unfold readBlock at h ⊢
  dsimp only [LineReader.append, List.cons_append] at h ⊢
  cases hranges : headerRanges? header with
  | none => exact ⟨_, _, rfl⟩
  | some ranges =>
    rw [hranges] at h
    obtain ⟨source, target⟩ := ranges
    dsimp only at h ⊢
    cases hsource : range source (n + 1) with
    | error e' => exact ⟨_, _, rfl⟩
    | ok s =>
      cases htarget : range target (n + 1) with
      | error e' => exact ⟨_, _, rfl⟩
      | ok t =>
        rw [hsource, htarget] at h
        dsimp only at h ⊢
        cases hbody : (Block.ofRanges s t).readBody (n + 1) ls with
        | error e' r' =>
          obtain ⟨e₁, r₁, herror⟩ := readBody_append_of_error hbody hline more
          rw [herror]
          exact ⟨_, _, rfl⟩
        | ok b r' =>
          rw [hbody] at h
          obtain ⟨looked', hfinish⟩ := Block.finish_eq b r'.rest r'.lineNumber r'.looked
          dsimp only at h
          rw [hfinish] at h
          contradiction

theorem readBlocks_append_of_error (h : readBlocks r = .error e r') (hline : Foreign line)
    (more : List Text) : ∃ e' r'', readBlocks (r.append (line :: more)) = .error e' r'' := by
  fun_induction readBlocks r generalizing e r' with
  | case1 => contradiction
  | case2 r first rest hr hfirst e₁ r₁ hblock =>
    obtain ⟨e₂, r₂, herror⟩ := readBlock_append_of_error hblock (by simp [hr]) hline more
    refine ⟨e₂, r₂, ?_⟩
    rw [readBlocks_eq, herror]
    simp [LineReader.append, hr, hfirst]
  | case3 r first rest hr hfirst hs r₁ hblock e₁ r₂ hblocks ih =>
    obtain ⟨e₂, r₃, herror⟩ := ih hblocks
    refine ⟨e₂, r₃, ?_⟩
    rw [readBlocks_eq, readBlock_append hblock (hline.ends more).1]
    simp only [herror]
    simp [LineReader.append, hr, hfirst]
  | case4 => contradiction
  | case5 => contradiction

end Hunk

namespace Patch

open Hunk (Foreign)

variable {stop : Text → Bool} {line : Text} {more ls : List Text} {e : ReadError}
  {r r' : LineReader} {p : Patch} {ps : List Patch}

section Failure

theorem readHunks_append_of_error {rest : List Text} {n : Nat} (h : readHunks rest n = .error e r)
    (hline : Foreign line) (more : List Text) :
    ∃ e' r', readHunks (rest ++ line :: more) n = .error e' r' := by
  cases rest with
  | nil =>
    have htarget : line.startsWith "+++ " = false :=
      hline.startsWith (c := .char '+') (by decide) _
    rw [List.nil_append, readHunks, if_neg (by simp [htarget])]
    exact ⟨_, _, rfl⟩
  | cons first rest =>
    rw [readHunks] at h
    rw [List.cons_append, readHunks]
    split at h
    . next htarget =>
      rw [if_pos htarget]
      exact Hunk.readBlocks_append_of_error h hline more
    . next htarget =>
      rw [if_neg htarget]
      exact ⟨_, _, rfl⟩

theorem readHeader_append_of_error {hd : Header} {n : Nat}
    (h : readHeader stop hd n ls = .error e r) (hline : Foreign line) (more : List Text) :
    ∃ e' r', readHeader stop hd n (ls ++ line :: more) = .error e' r' := by
  fun_induction readHeader stop hd n ls with
  | case1 => contradiction
  | case2 => contradiction
  | case3 hd n first rest hend e₁ hstep =>
    rw [List.cons_append, readHeader, if_neg hend, hstep]
    exact ⟨_, _, rfl⟩
  | case4 hd n first rest hend hd' hstep ih =>
    rw [List.cons_append, readHeader, if_neg hend, hstep]
    exact ih h
  | case5 => contradiction
  | case6 => contradiction
  | case7 hd n first rest hend hstep e₁ r₁ hhunks =>
    obtain ⟨e₂, r₂, herror⟩ := readHunks_append_of_error hhunks hline more
    rw [List.cons_append, readHeader, if_neg hend, hstep]
    dsimp only
    rw [herror]
    exact ⟨_, _, rfl⟩
  | case8 => contradiction

theorem readOne_append_of_error (h : readOne stop r = .error e r') (hr : r.rest ≠ [])
    (hline : Foreign line) (more : List Text) :
    ∃ e' r'', readOne stop (r.append (line :: more)) = .error e' r'' := by
  obtain ⟨ls, n, looked⟩ := r
  obtain ⟨first, ls, rfl⟩ := List.exists_cons_of_ne_nil hr
  unfold readOne at h ⊢
  dsimp only [LineReader.append, List.cons_append] at h ⊢
  cases hpair : Path.readPair (first.drop patchHeader.length) with
  | error e' => exact ⟨_, _, rfl⟩
  | ok paths =>
    cases paths with
    | none => exact ⟨_, _, rfl⟩
    | some paths =>
      rw [hpair] at h
      exact readHeader_append_of_error h hline more

theorem halts_of_foreign (hstop : stop line = true) (hline : Foreign line) (more : List Text) :
    Halts stop (line :: more) := by
  refine ⟨hline.ends more, ?_⟩
  rintro _ ⟨⟩
  simp [endsPatch, hstop]

/-- A stop line does not help where a diff fails. -/
theorem readExtended_append_of_error (h : readExtended stop r = .error e r')
    (hstop : stop line = true) (hline : Foreign line) (more : List Text) :
    ∃ e' r'', readExtended stop (r.append (line :: more)) = .error e' r'' := by
  fun_induction readExtended stop r generalizing e r' with
  | case1 => contradiction
  | case2 => contradiction
  | case3 r first rest hr hfirst hheader e₁ r₁ hone =>
    obtain ⟨e₂, r₂, herror⟩ := readOne_append_of_error hone (by simp [hr]) hline more
    refine ⟨e₂, r₂, ?_⟩
    rw [readExtended_eq, herror]
    simp [LineReader.append, hr, hfirst, hheader]
  | case4 r first rest hr hfirst hheader p r₁ hone e₁ r₂ hps ih =>
    obtain ⟨e₂, r₃, herror⟩ := ih hps
    refine ⟨e₂, r₃, ?_⟩
    rw [readExtended_eq, readOne_append hone (halts_of_foreign hstop hline more)]
    simp only [herror]
    simp [LineReader.append, hr, hfirst, hheader]
  | case5 => contradiction
  | case6 r first rest hr hfirst hheader =>
    rw [readExtended_eq]
    simp [LineReader.append, hr, hfirst, hheader]

end Failure

/-- Behind a diff that goes up to the end of the input, the reading goes on in new lines. -/
theorem readExtended_append_of_halts (h : readExtended stop r = .ok ps r') (hrest : r'.rest = [])
    (hmore : Halts stop more) :
    readExtended stop (r.append more) =
      Reading.prepend ps (readExtended stop ⟨more, r'.lineNumber, false⟩) := by
  fun_induction readExtended stop r generalizing ps r' with
  | case1 r hr =>
    cases h
    rw [Reading.prepend_nil, ← readExtended_looked stop more r.lineNumber r.looked false]
    rw [LineReader.append, hr, List.nil_append]
  | case2 r line rest hr =>
    cases h
    rw [hr] at hrest
    contradiction
  | case3 => contradiction
  | case4 => contradiction
  | case5 r line rest hr hstop hheader p r₁ hone ps r₂ hps ih =>
    cases h
    rw [Reading.prepend_cons, ← ih hps hrest, readExtended_eq, readOne_append hone hmore]
    simp only [LineReader.append, hr, List.cons_append, hstop, hheader, ↓reduceIte,
      Bool.false_eq_true]
    generalize readExtended stop ⟨r₁.rest ++ more, r₁.lineNumber, r₁.looked⟩ = x
    cases x <;> rfl
  | case6 => contradiction

/-- A stop at the lines that start with a word. -/
def stopAt (word : Text) (line : Text) : Bool := line.startsWith word

theorem foreign_of_stopAt {word : Text} (hword : ∃ c ∈ word.head?, c ∉ .char '@' :: Hunk.marks)
    (h : stopAt word line = true) : Foreign line := by
  obtain ⟨c, hc, hforeign⟩ := hword
  obtain ⟨word, rfl⟩ := List.head?_eq_some_iff.1 hc
  obtain ⟨rest, hrest⟩ := Option.isSome_iff_exists.1 h
  rw [eq_append_of_after? hrest]
  rintro _ ⟨⟩
  exact hforeign

/-- Where no line around the bodies stops a diff, it is read up to the end of the input. -/
theorem rest_eq_nil_of_clear {xs : List Text}
    (hclear : ∀ line, (.frame, line) ∈ visits stop (.ofLines xs) → stop line = false)
    (h : readExtended stop (.ofLines xs) = .ok ps r) : r.rest = [] ∧ r.lineNumber = xs.length := by
  have hsame : readExtended stop (.ofLines xs) = readExtended toEnd (.ofLines xs) :=
    readExtended_congr_of_frame hclear
  have hrest := (rest_eq_nil_of_toEnd (hsame ▸ h)).1
  have hnumber := (reaches_of_readExtended h).lineNumber_of_rest_nil hrest
  exact ⟨hrest, by simpa [LineReader.ofLines] using hnumber⟩

theorem readExtended_ofLines_append {xs ys : List Text}
    (hclear : ∀ line, (.frame, line) ∈ visits stop (.ofLines xs) → stop line = false)
    (h : readExtended stop (.ofLines xs) = .ok ps r) (hys : Halts stop ys) :
    readExtended stop (.ofLines (xs ++ ys)) =
      Reading.prepend ps (Reading.shift xs.length (readExtended stop (.ofLines ys))) := by
  obtain ⟨hrest, hnumber⟩ := rest_eq_nil_of_clear hclear h
  have happend := readExtended_append_of_halts h hrest hys
  have hshift := readExtended_shift stop (.ofLines ys) xs.length
  rw [← hshift]
  simpa [LineReader.append, LineReader.ofLines, LineReader.shift, hnumber] using happend

/-- A diff in which no line around the bodies stops the reading ends where the lines behind it start
with a patch or a stop. It is read as on its own then, and the lines behind it as on their own. What
stands behind the marks in the bodies ends nothing. -/
theorem readExtended_stopAt {word : Text}
    (hword : ∃ c ∈ word.head?, c ∉ .char '@' :: Hunk.marks) :
    (∀ xs, (∀ line, (.frame, line) ∈ visits (stopAt word) (.ofLines xs) →
        stopAt word line = false) →
      (∀ ps r ys, readExtended (stopAt word) (.ofLines xs) = .ok ps r → Boundary ys →
        readExtended (stopAt word) (.ofLines (xs ++ ys)) =
          Reading.prepend ps
            (Reading.shift xs.length (readExtended (stopAt word) (.ofLines ys)))) ∧
      ∀ line ys, stopAt word line = true →
        ((∃ ps r, readExtended (stopAt word) (.ofLines (xs ++ line :: ys)) = .ok ps r) ↔
          ∃ ps r, readExtended toEnd (.ofLines xs) = .ok ps r) ∧
        ∀ ps r, readExtended toEnd (.ofLines xs) = .ok ps r →
          readExtended (stopAt word) (.ofLines (xs ++ line :: ys)) =
            .ok ps ⟨line :: ys, xs.length, true⟩) ∧
    ∀ xs ps r ls, readExtended (stopAt word) (.ofLines xs) = .ok ps r →
      List.Forall₂ Visit.Admits (visits (stopAt word) (.ofLines xs)) ls →
        ∃ ps', readExtended (stopAt word) (.ofLines (ls ++ r.rest.tail)) = .ok ps' r ∧
          ps'.length = ps.length := by
  refine ⟨fun xs hclear => ⟨?_, ?_⟩, ?_⟩
  . intro ps r ys hread hys
    refine readExtended_ofLines_append hclear hread ⟨hys.ends, fun line hline => ?_⟩
    simp [endsPatch, hys line hline]
  . intro line ys hstop
    have hforeign := foreign_of_stopAt hword hstop
    have hsame : readExtended (stopAt word) (.ofLines xs) = readExtended toEnd (.ofLines xs) :=
      readExtended_congr_of_frame hclear
    have hstops (ps : List Patch) (r : LineReader)
        (hread : readExtended toEnd (.ofLines xs) = .ok ps r) :
        readExtended (stopAt word) (.ofLines (xs ++ line :: ys)) =
          .ok ps ⟨line :: ys, xs.length, true⟩ := by
      rw [readExtended_ofLines_append hclear (hsame.trans hread)
        (halts_of_foreign hstop hforeign ys)]
      rw [readExtended_eq]
      simp [LineReader.ofLines, hstop, Reading.shift, LineReader.shift, Reading.prepend]
    refine ⟨⟨?_, ?_⟩, hstops⟩
    . rintro ⟨ps, r, hread⟩
      cases halone : readExtended toEnd (.ofLines xs) with
      | ok ps' r' => exact ⟨ps', r', rfl⟩
      | error e r' =>
        obtain ⟨e', r'', herror⟩ :=
          readExtended_append_of_error (hsame.trans halone) hstop hforeign ys
        have hlines : (LineReader.ofLines xs).append (line :: ys) =
            .ofLines (xs ++ line :: ys) := rfl
        rw [hlines, hread] at herror
        contradiction
    . rintro ⟨ps, r, hread⟩
      exact ⟨_, _, hstops ps r hread⟩
  . intro xs ps r ls hread hls
    exact readExtended_of_admits hread hls false

/-- A diff of which the lines say nothing of note. -/
def sampleLines (first second : Text) : List Text :=
  ["diff --git a/x b/x", "--- a/x", "+++ b/x", "@@ -1 +1 @@ #@!", .char '-' :: first,
    .char '+' :: second]

/-- The patch that such lines are read as. -/
def samplePatch (first second : Text) : Patch where
  source := { path := some ⟨[], ["x"]⟩ }
  target := { path := some ⟨[], ["x"]⟩ }
  status := .modified
  hunks := [⟨⟨1, [first], false⟩, ⟨1, [second], false⟩⟩]

theorem readExtended_stopAt_sampleLines :
    readExtended (stopAt "#@!") (.ofLines (sampleLines "a" "b" ++ sampleLines "c" "d")) =
        .ok [samplePatch "a" "b", samplePatch "c" "d"] ⟨[], 12, true⟩ ∧
      readExtended (stopAt "#@!") (.ofLines (sampleLines "a" "b" ++ ofString "#@!_" :: ["e"])) =
        .ok [samplePatch "a" "b"] ⟨["#@!_", "e"], 6, true⟩ ∧
      ∃ ps, readExtended (stopAt "#@!") (.ofLines (sampleLines "#@!_" "diff --git a/y b/y")) =
        .ok ps ⟨[], 6, true⟩ ∧ ps.length = 1 := by
  have hword : ∃ c ∈ (ofString "#@!").head?, c ∉ .char '@' :: Hunk.marks :=
    ⟨.char '#', rfl, by decide⟩
  have hfirst : readExtended (stopAt "#@!") (.ofLines (sampleLines "a" "b")) =
      .ok [samplePatch "a" "b"] ⟨[], 6, true⟩ := by decide +kernel
  have halone : readExtended toEnd (.ofLines (sampleLines "a" "b")) =
      .ok [samplePatch "a" "b"] ⟨[], 6, true⟩ := by decide +kernel
  have hsecond : readExtended (stopAt "#@!") (.ofLines (sampleLines "c" "d")) =
      .ok [samplePatch "c" "d"] ⟨[], 6, true⟩ := by decide +kernel
  have hvisits : visits (stopAt "#@!") (.ofLines (sampleLines "a" "b")) =
      ([(.frame, "diff --git a/x b/x"), (.frame, "--- a/x"), (.frame, "+++ b/x"),
        (.frame, "@@ -1 +1 @@ #@!"), (.body, "-a"), (.body, "+b")] : List Visit) := by
    decide +kernel
  have hclear : ∀ line, (.frame, line) ∈ visits (stopAt "#@!") (.ofLines (sampleLines "a" "b")) →
      stopAt "#@!" line = false := by
    have hall : ∀ v ∈ visits (stopAt "#@!") (.ofLines (sampleLines "a" "b")),
        stopAt "#@!" v.2 = false := by
      rw [hvisits]
      decide
    exact fun line hline => hall _ hline
  have hadmits : List.Forall₂ Visit.Admits (visits (stopAt "#@!") (.ofLines (sampleLines "a" "b")))
      (sampleLines "#@!_" "diff --git a/y b/y") := by
    rw [hvisits]
    exact .cons rfl (.cons rfl (.cons rfl (.cons rfl (.cons rfl (.cons rfl .nil)))))
  obtain ⟨happend, hbodies⟩ := readExtended_stopAt hword
  obtain ⟨hpatches, hstops⟩ := happend _ hclear
  refine ⟨?_, ?_, ?_⟩
  . rw [hpatches _ _ _ hfirst (by rintro _ ⟨⟩; rfl), hsecond]
    rfl
  . exact (hstops "#@!_" ["e"] rfl).2 _ _ halone
  . exact hbodies _ _ _ _ hfirst hadmits

end Patch

end Dvcs
