import Dvcs.Mercurial
import Dvcs.Proofs.Hash
import Dvcs.Proofs.Mercurial.Replay

/-!
This module contains the forms of hg commands. A form says of every word in front of `--` whether it
is a word of the program, an option with some value, or the name of a commit or a file. Which texts
a caller supplies does not show in a form, so they cannot change what hg takes for an option.
-/

namespace Dvcs

namespace Mercurial

/-- Where a word of a command comes from. -/
inductive Slot where
  | fixed (word : Text)
  /-- An option with a value behind the equals sign. -/
  | valued (start : Text)
  /-- The digest of a commit. -/
  | commit
  /-- The full path of a temporary file. -/
  | scratch
  /-- The path of a backup that an earlier command has reported. -/
  | backup
  /-- A text of the caller as it is. -/
  | given (text : Text)
deriving DecidableEq, Repr

instance : Coe String Slot := ⟨fun word => .fixed word⟩

/-- The words that a slot takes, in an operation that has run these commands. -/
def Slot.Takes (steps : List Step) : Slot → Text → Prop
  | fixed word, t => t = word
  | valued start, t => start.getLast? = some (.char '=') ∧ ∃ value, t = start ++ value
  | commit, t => ∃ hash : Hash, t = hash.hex
  | scratch, t => ∃ path : Path, path.root.head? = some (.char '/') ∧ t = path.toText
  | backup, t => ∃ s ∈ steps, ∃ path, BackedUp s (some path) ∧ t = path.toText
  | given text, t => t = text

abbrev Form := List Slot

/-- The words of a command go into the slots of a form, one by one, up to a `--` or to the end. -/
inductive Form.Covers (steps : List Step) : Form → List Text → Prop
  | nil : Covers steps [] []
  | dashes {rest : List Text} : Covers steps [] ("--" :: rest)
  | cons {slot : Slot} {form : Form} {word : Text} {words : List Text}
    (hword : slot.Takes steps word) (hwords : Covers steps form words) :
    Covers steps (slot :: form) (word :: words)

variable {α β : Type} {steps more : List Step} {form : Form} {forms : List Form}
  {words : List Text}

theorem Slot.Takes.mono {slot : Slot} {word : Text} (h : slot.Takes steps word)
    (hsteps : steps ⊆ more) : slot.Takes more word := by
  cases slot with
  | backup =>
    obtain ⟨s, hs, path, hpath, hword⟩ := h
    exact ⟨s, hsteps hs, path, hpath, hword⟩
  | fixed | valued | commit | scratch | given => exact h

theorem Form.Covers.mono (h : form.Covers steps words) (hsteps : steps ⊆ more) :
    form.Covers more words := by
  induction h with
  | nil => exact .nil
  | dashes => exact .dashes
  | cons hword hwords ih => exact .cons (hword.mono hsteps) ih

/-- Every word in front of `--` stands in a slot. -/
theorem Form.Covers.exists_slot (h : form.Covers steps words) {word : Text}
    (hword : word ∈ words.takeWhile (· ≠ ("--" : Text))) :
    ∃ slot ∈ form, slot.Takes steps word := by
  induction h with
  | nil => contradiction
  | dashes => simp at hword
  | @cons slot form first words hfirst hwords ih =>
    rw [List.takeWhile_cons] at hword
    split at hword
    . rcases List.mem_cons.1 hword with rfl | hword
      . exact ⟨slot, List.mem_cons_self, hfirst⟩
      . obtain ⟨other, hother, htakes⟩ := ih hword
        exact ⟨other, List.mem_cons_of_mem _ hother, htakes⟩
    . contradiction

theorem head?_hex (hash : Hash) : hash.hex.head? ≠ some (.char '-') := by
  intro hhead
  have hdigit := Hash.isHexDigit_of_mem (List.mem_of_mem_head? hhead)
  contradiction

theorem head?_toText {path : Path} (h : path.root.head? = some (.char '/')) :
    path.toText.head? = some (.char '/') := by
  unfold Path.toText
  cases hroot : path.root with
  | nil =>
    rw [hroot] at h
    contradiction
  | cons c rest =>
    rw [hroot] at h
    exact h

/-- An operation that runs commands of certain forms only. -/
def Issues (places : Places) (forms : List Form) (p : Op α) : Prop :=
  Op.Traces places p fun steps _ => ∀ s ∈ steps, ∃ form ∈ forms, form.Covers steps s.arguments

namespace Issues

variable {places : Places} {p : Op α} {f : α → Op β} {r : WorkingCopy} {args : List Text}

theorem mono {others : List Form} (hp : Issues places forms p) (h : forms ⊆ others) :
    Issues places others p :=
  Op.Traces.mono hp fun _ _ hsteps s hs =>
    let ⟨form, hform, hcovers⟩ := hsteps s hs
    ⟨form, h hform, hcovers⟩

theorem of_silent (hp : Op.Silent p) : Issues places forms p :=
  (hp places).mono fun _ _ hsteps => hsteps ▸ List.forall_mem_nil _

theorem bind (hp : Issues places forms p) (hf : ∀ a, Issues places forms (f a)) :
    Issues places forms (p >>= f) := by
  refine Op.Traces.bind hp (fun _ _ h => h) fun steps a hsteps => ?_
  refine Op.Traces.mono (hf a) fun more _ hmore s hs => ?_
  rcases List.mem_append.1 hs with hs | hs
  . obtain ⟨form, hform, hcovers⟩ := hsteps s hs
    exact ⟨form, hform, hcovers.mono (List.subset_append_left _ _)⟩
  . obtain ⟨form, hform, hcovers⟩ := hmore s hs
    exact ⟨form, hform, hcovers.mono (List.subset_append_right _ _)⟩

theorem pure (a : α) : Issues places forms (Pure.pure a : Op α) := of_silent (.pure a)

theorem throw (e : Error) : Issues places forms (MonadExcept.throw e : Op α) :=
  of_silent (.throw e)

/-- A check in front of an operation runs no commands. -/
theorem ite_throw {c : Prop} [Decidable c] {e : Error} {g : Unit → Op α}
    (h : Issues places forms (g ())) :
    Issues places forms (if c then (MonadExcept.throw e : Op Unit) >>= g else g ()) := by
  split
  . exact Op.Traces.throw_bind (List.forall_mem_nil _)
  . exact h

theorem ofExcept (x : Except Error α) : Issues places forms (Op.ofExcept x) :=
  of_silent (.ofExcept x)

theorem discard (hp : Issues places forms p) : Issues places forms (Functor.discard p) :=
  Op.Traces.discard (bind hp fun _ => pure ())

theorem command {mode : Mode} {directory : Path} {environment : Environment} {tool : Text}
    {use : Handle → α × Handle} (hform : form ∈ forms) (h : form.Covers [] args) :
    Issues places forms (Op.command mode directory environment (tool :: args) use) := by
  refine Op.Traces.command (fun _ => List.forall_mem_nil _) fun _ s hcommand _ _ _ s' hs' => ?_
  obtain rfl := List.mem_singleton.1 hs'
  refine ⟨form, hform, ?_⟩
  rw [Step.arguments, hcommand]
  exact h.mono (List.nil_subset _)

theorem run (hform : form ∈ forms) (h : form.Covers [] args) :
    Issues places forms (Mercurial.run r args) :=
  command hform h

theorem check (hform : form ∈ forms) (h : form.Covers [] args) :
    Issues places forms (Mercurial.check r args) := by
  refine bind (command hform h) fun result => ?_
  cases result with
  | ok outcome => exact pure _
  | error outcome => exact throw _

theorem withTempFile {directory : Option Path} {suffix : Text} {content : Bytes}
    {use : Path → Op α} (hsuffix : .char '\x00' ∉ suffix)
    (hrooted :
      (places.directory.join (directory.getD places.temporary)).root.head? = some (.char '/'))
    (hruns : ∀ path, Op.OnlyRuns (fun _ => True) (use path))
    (huse : ∀ path : Path, path.root.head? = some (.char '/') → Issues places forms (use path)) :
    Issues places forms (Op.withTempFile directory suffix content use) :=
  Op.Traces.withTempFile hsuffix (fun _ => List.forall_mem_nil _) (fun _ => hruns _)
    fun _ => huse _ hrooted

/-- A failure that is caught does not change what has been run. -/
theorem attempt {step : Op Unit} (hstep : Issues places forms step) :
    Issues places forms (Mercurial.attempt step) := by
  intro w hw
  obtain ⟨steps, hpasses, hsteps⟩ := hstep w hw
  refine ⟨steps, ?_, hsteps⟩
  unfold Op.perform at hpasses ⊢
  unfold Mercurial.attempt
  cases hrun : step w with
  | ok a w' =>
    rw [hrun] at hpasses
    exact hpasses
  | error e w' =>
    rw [hrun] at hpasses
    cases e <;> exact hpasses

end Issues

end Mercurial

end Dvcs
