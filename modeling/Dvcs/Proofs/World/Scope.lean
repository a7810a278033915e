import Dvcs.Proofs.World.Lifetime

/-!
This module contains the rules for operations that change nothing but by their commands and by a
temporary file that some of the commands use.
-/

namespace Dvcs

namespace Op

open World FileTree

variable {α β : Type} {p : Op α} {f : α → Op β} {P Q : Step → Prop}

theorem holdsNull_child {directory : Path} (h : holdsNull directory = true) (name : Text) :
    holdsNull ⟨directory.root, directory.parts ++ [name]⟩ = true := by
  rw [holdsNull_iff] at h ⊢
  refine h.imp_right ?_
  rintro ⟨part, hpart, hnull⟩
  exact ⟨part, List.mem_append_left _ hpart, hnull⟩

theorem writeFile_of_error {w : World} {path : Path} (content : Bytes)
    (h : holdsNull path = true ∨ ∃ fault, w.files.locate path = .error fault) :
    ∃ e, writeFile path content w = .error e w := by
  cases hnull : holdsNull path with
  | true =>
    unfold writeFile changeFiles
    rw [hnull]
    exact ⟨_, rfl⟩
  | false =>
    obtain ⟨fault, hlocate⟩ := h.resolve_left (by simp [hnull])
    have hwrite : w.files.write path content = .error fault := by
      unfold FileTree.write
      rw [hlocate]
      rfl
    rw [writeFile_of_legal hnull, hwrite]
    exact ⟨_, rfl⟩

/-- Where no files can be made, an operation with a temporary file does nothing. -/
theorem withTempFile_of_not_takesFiles {w : World} {directory : Option Path}
    (h : ¬ w.TakesFiles directory) (suffix : Text) (content : Bytes) (use : Path → Op α) :
    ∃ e, withTempFile directory suffix content use w = .error e w := by
  obtain ⟨n, hn⟩ := exists_freshPath_eq w (w.scratchDirectory directory) suffix
  have hrefused : holdsNull (tempPath (w.scratchDirectory directory) suffix n) = true ∨
      ∃ fault, w.files.locate (tempPath (w.scratchDirectory directory) suffix n) =
        .error fault := by
    cases hlegal : holdsNull (w.scratchDirectory directory) with
    | true => exact .inl (holdsNull_child hlegal _)
    | false =>
      refine .inr (locate_child_of_not_isDirectory ?_ _)
      exact Bool.eq_false_iff.2 fun hdirectory => h ⟨hdirectory, hlegal⟩
  obtain ⟨e, he⟩ := writeFile_of_error content hrefused
  exact ⟨e, withTempFile_of_writeFile_error hn he use⟩

/-- An operation with a temporary file fails without doing anything, or its use is all that happens
and decides the result. -/
theorem perform_withTempFile (directory : Option Path) {suffix : Text}
    (hsuffix : .char '\x00' ∉ suffix) (content : Bytes) (use : Path → Op α)
    (w : World) (hsame : ∀ n w', SameDirectories w'.files
      ((use (tempPath (w.scratchDirectory directory) suffix n)).perform w').2.files) :
    (∃ e, (withTempFile directory suffix content use).perform w = (.error e, w)) ∨
      ∃ n path place, path = tempPath (w.scratchDirectory directory) suffix n ∧
        w.files.locate path = .ok place ∧ w.files.has path = false ∧
        (withTempFile directory suffix content use).perform w =
          (((use path).perform (w.withTemp path content)).1,
            ((use path).perform (w.withTemp path content)).2.withoutTemp path) := by
  by_cases htakes : w.TakesFiles directory
  . obtain ⟨n, path, place, hpath, hplace, hfree, hrun⟩ :=
      withTempFile_of_takesFiles htakes hsuffix content use
    refine .inr ⟨n, path, place, hpath, hplace, hfree, ?_⟩
    have hcloses := (holds_of_fresh hplace hfree content).closes _ (hpath ▸ hsame n _)
    unfold perform at hcloses ⊢
    rw [hrun]
    cases hresult : use path (w.withTemp path content) with
    | ok a w' =>
      rw [hresult] at hcloses
      dsimp only
      rw [bind_of_ok hcloses]
      rfl
    | error e w' =>
      rw [hresult] at hcloses
      dsimp only
      rw [bind_of_ok hcloses]
      rfl
  . obtain ⟨e, he⟩ := withTempFile_of_not_takesFiles htakes suffix content use
    exact .inl ⟨e, by rw [perform, he]⟩

/-- A sequence of operations ends in the first of them, or the second goes on from there. -/
theorem perform_bind (p : Op α) (f : α → Op β) (w : World) :
    (∃ e, (p.perform w).1 = .error e ∧ (p >>= f).perform w = (.error e, (p.perform w).2)) ∨
      ∃ a, (p.perform w).1 = .ok a ∧ (p >>= f).perform w = (f a).perform (p.perform w).2 := by
  rcases hperform : p.perform w with ⟨result, w'⟩
  cases result with
  | error e => exact .inl ⟨e, rfl, Traces.perform_bind_of_error hperform⟩
  | ok a => exact .inr ⟨a, rfl, Traces.perform_bind_of_ok hperform⟩

/-- The world is left as by an operation whose result is dropped, and the errors are the same. -/
theorem perform_discard (p : Op α) (w : World) :
    (Functor.discard p).perform w = ((p.perform w).1.map fun _ => (), (p.perform w).2) := by
  rw [Traces.discard_eq]
  rcases perform_bind p (fun _ => Pure.pure ()) w with
    ⟨e, hresult, hperform⟩ | ⟨a, hresult, hperform⟩
  . rw [hperform, hresult]
    rfl
  . rw [hperform, hresult]
    rfl

theorem ran_runCommand (mode : Mode) (directory : Path) (environment : Environment)
    (arguments : List Text) (use : Handle → α × Handle) (w : World) :
    w.Ran [stepOf mode directory environment arguments use w]
      ((runCommand mode directory environment arguments use).perform w).2 where
  passes := passes_runCommand mode directory environment arguments use w
  files := by simp [changed, effects, Step.effects, stepOf, perform, runCommand]
  living := rfl
  present before s after heq := by
    rcases List.singleton_eq_append_iff.1 heq with ⟨rfl, hsteps⟩ | ⟨-, hsteps⟩
    . cases hsteps
      rfl
    . contradiction

/-- An operation that changes nothing but by its commands, all of which have a property. -/
def OnlyRuns (P : Step → Prop) (p : Op α) : Prop :=
  ∀ w : World, ∃ steps, w.Ran steps (p.perform w).2 ∧ ∀ s ∈ steps, P s

/-- An operation that changes nothing but by its commands, the first of which has a property; or the
system cannot be given the words of the first one. -/
def RunsFirst (P : Step → Prop) (p : Op α) : Prop :=
  ∀ w : World, (∃ s steps, w.Ran (s :: steps) (p.perform w).2 ∧ P s) ∨
    p.perform w = (.error .nullCharacter, w)

namespace OnlyRuns

theorem mono (hp : OnlyRuns P p) (h : ∀ s, P s → Q s) : OnlyRuns Q p := fun w =>
  let ⟨steps, hran, hsteps⟩ := hp w
  ⟨steps, hran, fun s hs => h s (hsteps s hs)⟩

theorem sameDirectories (hp : OnlyRuns P p) (w : World) :
    SameDirectories w.files (p.perform w).2.files :=
  let ⟨_, hran, _⟩ := hp w
  hran.sameDirectories

theorem of_unchanged (h : ∀ w, (p.perform w).2 = w) : OnlyRuns P p :=
  fun w => ⟨[], (h w).symm ▸ .refl w, List.forall_mem_nil _⟩

theorem pure (a : α) : OnlyRuns P (Pure.pure a : Op α) := of_unchanged fun _ => rfl

theorem throw (e : Error) : OnlyRuns P (MonadExcept.throw e : Op α) := of_unchanged fun _ => rfl

theorem ofExcept (x : Except Error α) : OnlyRuns P (Op.ofExcept x) := by
  cases x with
  | ok a => exact pure a
  | error e => exact throw e

theorem bind (hp : OnlyRuns P p) (hf : ∀ a, OnlyRuns P (f a)) : OnlyRuns P (p >>= f) := by
  intro w
  obtain ⟨steps, hran, hsteps⟩ := hp w
  rcases perform_bind p f w with ⟨e, -, hperform⟩ | ⟨a, -, hperform⟩
  . rw [hperform]
    exact ⟨steps, hran, hsteps⟩
  . obtain ⟨more, hmore, hmoreSteps⟩ := hf a (p.perform w).2
    rw [hperform]
    exact ⟨steps ++ more, hran.trans hmore, List.forall_mem_append.2 ⟨hsteps, hmoreSteps⟩⟩

theorem ite_throw {c : Prop} [Decidable c] {e : Error} {g : Unit → Op α} (h : OnlyRuns P (g ())) :
    OnlyRuns P (if c then (MonadExcept.throw e : Op Unit) >>= g else g ()) := by
  split
  . exact (throw e).bind fun _ => h
  . exact h

theorem readFile (path : Path) : OnlyRuns P (Op.readFile path) := by
  have hfiles : OnlyRuns P Op.files := of_unchanged fun _ => rfl
  unfold Op.readFile
  refine ite_throw (hfiles.bind fun t => ?_)
  cases t.read path with
  | ok content => exact pure content
  | error fault => exact throw _

theorem discard (hp : OnlyRuns P p) : OnlyRuns P (Functor.discard p) := fun w => by
  rw [perform_discard]
  exact hp w

theorem forM {g : α → Op Unit} (hg : ∀ a, OnlyRuns P (g a)) (as : List α) :
    OnlyRuns P (as.forM g) := by
  induction as with
  | nil => exact pure ()
  | cons a as ih => exact (hg a).bind fun _ => ih

theorem command {mode : Mode} {directory : Path} {environment : Environment}
    {arguments : List Text} {use : Handle → α × Handle}
    (h : ∀ s : Step, s.invocation.command = arguments → P s) :
    OnlyRuns P (Op.command mode directory environment arguments use) := by
  intro w
  cases hpassable : isPassable directory arguments with
  | false =>
    rw [perform, command_of_not_isPassable hpassable]
    exact ⟨[], .refl w, List.forall_mem_nil _⟩
  | true =>
    rw [command_of_isPassable hpassable]
    exact ⟨_, ran_runCommand mode directory environment arguments use w,
      List.forall_mem_singleton.2 (h _ rfl)⟩

end OnlyRuns

namespace RunsFirst

theorem onlyRuns (hp : RunsFirst P p) : OnlyRuns (fun _ => True) p := by
  intro w
  rcases hp w with ⟨s, steps, hran, -⟩ | hrefused
  . exact ⟨s :: steps, hran, fun _ _ => trivial⟩
  . rw [hrefused]
    exact ⟨[], .refl w, fun _ _ => trivial⟩

theorem command {mode : Mode} {directory : Path} {environment : Environment}
    {arguments : List Text} {use : Handle → α × Handle}
    (h : ∀ s : Step, s.invocation.command = arguments → P s) :
    RunsFirst P (Op.command mode directory environment arguments use) := by
  intro w
  cases hpassable : isPassable directory arguments with
  | false =>
    right
    rw [perform, command_of_not_isPassable hpassable]
  | true =>
    rw [command_of_isPassable hpassable]
    exact .inl ⟨_, [], ran_runCommand mode directory environment arguments use w, h _ rfl⟩

theorem bind (hp : RunsFirst P p) (hf : ∀ a, OnlyRuns (fun _ => True) (f a)) :
    RunsFirst P (p >>= f) := by
  intro w
  rcases hp w with ⟨s, steps, hran, hs⟩ | hrefused
  . left
    rcases perform_bind p f w with ⟨e, -, hperform⟩ | ⟨a, -, hperform⟩
    . rw [hperform]
      exact ⟨s, steps, hran, hs⟩
    . obtain ⟨more, hmore, -⟩ := hf a (p.perform w).2
      rw [hperform]
      exact ⟨s, steps ++ more, hran.trans hmore, hs⟩
  . exact .inr (Traces.perform_bind_of_error hrefused)

theorem discard (hp : RunsFirst P p) : RunsFirst P (Functor.discard p) := by
  rw [Traces.discard_eq]
  exact hp.bind fun _ => .pure ()

end RunsFirst

/-- The commands of an operation with a temporary file are run while the file is there, and their
use decides the result. -/
theorem Traces.withTempFile {places : Places} {directory : Option Path} {suffix : Text}
    {content : Bytes} {use : Path → Op α} {Q : List Step → Except Error α → Prop}
    (hsuffix : .char '\x00' ∉ suffix) (herror : ∀ e, Q [] (.error e))
    (hruns : ∀ n, OnlyRuns (fun _ => True)
      (use (tempPath (places.directory.join (directory.getD places.temporary)) suffix n)))
    (huse : ∀ n, Traces places
      (use (tempPath (places.directory.join (directory.getD places.temporary)) suffix n)) Q) :
    Traces places (Op.withTempFile directory suffix content use) Q := by
  intro w hw
  obtain rfl := hw
  have hsame (n : ℕ) := (hruns n).sameDirectories
  rcases perform_withTempFile directory hsuffix content use w hsame with
    ⟨e, hperform⟩ | ⟨n, path, place, hpath, hplace, hfree, hperform⟩
  . rw [hperform]
    exact ⟨[], .refl w, herror e⟩
  . have hpath' : path =
        tempPath (w.places.directory.join (directory.getD w.places.temporary)) suffix n := hpath
    obtain ⟨steps, hpasses, hQ⟩ := huse n _ (passes_withTemp w path content).places
    rw [← hpath'] at hpasses hQ
    have hmade := ((passes_withTemp w path content).trans hpasses).trans
      (passes_withoutTemp _ path)
    rw [List.nil_append, List.append_nil] at hmade
    rw [hperform]
    exact ⟨steps, hmade, hQ⟩

/-- An operation that may use a temporary file, but changes nothing else than its commands do. -/
def Scopes (directory : Option Path) (scratch : Option Scratch) (p : Op α) : Prop :=
  ∀ w : World, w.Scoped (w.scratchDirectory directory) scratch
    ((p.perform w).1 = .error .nullCharacter) (p.perform w).2

namespace Scopes

variable {directory : Option Path} {scratch : Option Scratch}

theorem of_onlyRuns (hp : OnlyRuns (Step.Avoids scratch) p) : Scopes directory scratch p := fun w =>
  let ⟨_, hran, havoids⟩ := hp w
  .without hran havoids

theorem after (hp : OnlyRuns (Step.Avoids scratch) p) (hf : ∀ a, Scopes directory scratch (f a)) :
    Scopes directory scratch (p >>= f) := by
  intro w
  obtain ⟨steps, hran, havoids⟩ := hp w
  rcases perform_bind p f w with ⟨e, -, hperform⟩ | ⟨a, -, hperform⟩
  . rw [hperform]
    exact .without hran havoids
  . rw [hperform]
    exact .after hran havoids (hran.scratchDirectory_eq directory ▸ hf a _)

theorem before (hp : Scopes directory scratch p)
    (hf : ∀ a, OnlyRuns (Step.Avoids scratch) (f a)) : Scopes directory scratch (p >>= f) := by
  intro w
  rcases perform_bind p f w with ⟨e, hresult, hperform⟩ | ⟨a, hresult, hperform⟩
  . rw [hperform]
    refine (hp w).mono fun hrefused => ?_
    cases hresult.symm.trans hrefused
    rfl
  . obtain ⟨more, hmore, havoids⟩ := hf a (p.perform w).2
    rw [hperform]
    refine (Scoped.mono (hp w) fun hrefused => ?_).before hmore havoids
    cases hresult.symm.trans hrefused

/-- A check in front of an operation runs no commands. -/
theorem ite_throw {c : Prop} [Decidable c] {e : Error} {g : Unit → Op α}
    (h : Scopes directory scratch (g ())) :
    Scopes directory scratch (if c then (MonadExcept.throw e : Op Unit) >>= g else g ()) := by
  split
  . exact .after (.throw _) fun _ => h
  . exact h

theorem discard (hp : Scopes directory scratch p) :
    Scopes directory scratch (Functor.discard p) := by
  rw [Traces.discard_eq]
  exact hp.before fun _ => .pure ()

theorem withTempFile {suffix : Text} {content : Bytes} {use : Path → Op α}
    (hsuffix : .char '\x00' ∉ suffix)
    (huse : ∀ path : Path, suffix <:+ path.toText → RunsFirst (Step.Names · path) (use path)) :
    Scopes directory (some ⟨suffix, content⟩)
      (Op.withTempFile directory suffix content use) := by
  intro w
  have hnamed (n : Nat) := huse _ (suffix_toText (w.scratchDirectory directory) suffix n)
  rcases perform_withTempFile directory hsuffix content use w fun n =>
    (hnamed n).onlyRuns.sameDirectories with
    ⟨e, hperform⟩ | ⟨n, path, place, hpath, hplace, hfree, hperform⟩
  . rw [hperform]
    exact .without (.refl w) (List.forall_mem_nil _)
  . have hplace? := place?_of_locate hplace
    have hnode := node?_of_not_has hplace hfree
    rw [hperform]
    subst hpath
    rcases hnamed n (w.withTemp _ content) with ⟨first, rest, hran, hfirst⟩ | hrefused
    . refine .within rfl rfl (.refl w) (List.forall_mem_nil _) hplace? hnode hran ?_ nofun
        (.refl _) (List.forall_mem_nil _)
      simpa using hfirst
    . rw [hrefused]
      exact .within rfl rfl (.refl w) (List.forall_mem_nil _) hplace? hnode (.refl _) nofun
        (fun _ => rfl) (.refl _) (List.forall_mem_nil _)

end Scopes

end Op

end Dvcs
