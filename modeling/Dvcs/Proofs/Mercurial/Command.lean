import Dvcs.Mercurial.Inspect
import Dvcs.Proofs.World.Scope

/-!
This module contains what the running of single hg commands leaves in the trace of an operation.
-/

namespace Dvcs

theorem Handle.wait_start (command : List Text) (response : Response) :
    (start .capture command response).wait.1 = response.outcome command := by
  cases hstart : response.startError <;> simp [wait, start, reap, Response.outcome, hstart]

theorem Handle.check_start (command : List Text) (response : Response) :
    (start .capture command response).check.1 =
      if (response.outcome command).status = 0 then .ok (response.outcome command)
      else .error (response.outcome command) := by
  unfold check
  rw [← wait_start]

namespace Mercurial

/-- Whether the system can be given hg with some arguments. -/
def isPassable (r : WorkingCopy) (arguments : List Text) : Bool :=
  Op.isPassable r.root (r.command :: arguments)

/-- The error of a command that the system cannot be given. -/
def refusal? (r : WorkingCopy) (arguments : List Text) : Option Error :=
  if isPassable r arguments then none else some .nullCharacter

/-- Whether no word holds the null character, which ends the words that the system is given. -/
def speakable (words : List Text) : Bool := words.all (!·.contains (.char '\x00'))

theorem isPassable_eq (r : WorkingCopy) (arguments : List Text) :
    isPassable r arguments = (isPassable r [] && speakable arguments) := by
  unfold isPassable Op.isPassable speakable
  rw [List.all_cons, List.all_cons, List.all_nil, Bool.and_true, Bool.and_assoc]

/-- Words of the program's own do not decide whether hg can be run. -/
theorem isPassable_cons (r : WorkingCopy) {word : Text}
    (h : (!word.contains (.char '\x00')) = true) (arguments : List Text) :
    isPassable r (word :: arguments) = isPassable r arguments := by
  rw [isPassable_eq, isPassable_eq r arguments, speakable, List.all_cons, h, Bool.true_and]
  rfl

/-- The options that load the extension from a file do not decide whether hg can be run. -/
theorem isPassable_loading (r : WorkingCopy) {path : Path} (h : Op.holdsNull path = false)
    (arguments : List Text) :
    Op.isPassable r.root
        (r.command :: "--config" :: ("extensions.repokit_dump=" ++ path.toText) :: arguments) =
      isPassable r arguments := by
  have hconfig : (!("--config" : Text).contains (.char '\x00')) = true := by decide
  have hoption :
      (!("extensions.repokit_dump=" ++ path.toText : Text).contains (.char '\x00')) = true := by
    have hnone : Sym.char '\x00' ∉ ("extensions.repokit_dump=" : Text) := by decide
    have hpath : Sym.char '\x00' ∉ path.toText := by
      simpa [Op.holdsNull] using h
    simpa using ⟨hnone, hpath⟩
  exact (isPassable_cons r hconfig _).trans (isPassable_cons r hoption _)

/-- A step that has run hg with some arguments, its output being collected. -/
structure Runs (r : WorkingCopy) (arguments : List Text) (s : Step) : Prop where
  passable : isPassable r arguments = true
  command : s.invocation.command = r.command :: arguments
  mode : s.invocation.mode = .capture
  directory : s.invocation.directory = r.root
  environment : s.invocation.environment = toolEnvironment

variable {α : Type} {places : Places} {r : WorkingCopy} {args : List Text} {f : Outcome → Op α}
  {Q : List Step → Except Error α → Prop}

/-- How an operation goes that runs one command: the command decides what is given, or the system
cannot be given its words. -/
inductive RunsOnce {α : Type} (r : WorkingCopy) (arguments : List Text)
    (P : Step → Except Error α → Prop) : List Step → Except Error α → Prop
  | ran {s : Step} {result : Except Error α} (hruns : Runs r arguments s) (h : P s result) :
    RunsOnce r arguments P [s] result
  | refused (h : isPassable r arguments = false) :
    RunsOnce r arguments P [] (.error .nullCharacter)

theorem RunsOnce.mono {P P' : Step → Except Error α → Prop} {steps : List Step}
    {result : Except Error α} (h : RunsOnce r args P steps result)
    (hP : ∀ s result, Runs r args s → P s result → P' s result) :
    RunsOnce r args P' steps result := by
  cases h with
  | ran hruns h => exact .ran hruns (hP _ _ hruns h)
  | refused h => exact .refused h

theorem RunsOnce.exists_step {P : Step → Except Error α → Prop} {steps : List Step}
    {result : Except Error α} (h : RunsOnce r args P steps result)
    (hpassable : isPassable r args = true) : ∃ s, steps = [s] ∧ Runs r args s ∧ P s result := by
  cases h with
  | ran hruns h => exact ⟨_, rfl, hruns, h⟩
  | refused h =>
    rw [hpassable] at h
    cases h

theorem onlyRuns_run {P : Step → Prop} (h : ∀ s : Step, s.arguments = args → P s) :
    Op.OnlyRuns P (run r args) :=
  .command fun s hcommand => h s (by rw [Step.arguments, hcommand, List.tail_cons])

theorem onlyRuns_check {P : Step → Prop} (h : ∀ s : Step, s.arguments = args → P s) :
    Op.OnlyRuns P (check r args) := by
  refine .bind (.command fun s hcommand => h s ?_) fun result => ?_
  . rw [Step.arguments, hcommand, List.tail_cons]
  . cases result with
    | ok outcome => exact .pure _
    | error outcome => exact .throw _

theorem Runs.ran {s : Step} (h : Runs r args s) : s.Ran args := by
  rw [Step.Ran, Step.arguments, h.command, List.tail_cons]

theorem traces_run_bind (hrefused : isPassable r args = false → Q [] (.error .nullCharacter))
    (h : ∀ s, Runs r args s → Op.Traces places (f s.outcome) fun more => Q (s :: more)) :
    Op.Traces places (run r args >>= f) Q := by
  refine .command_bind hrefused fun hpassable s hcommand hmode hdirectory henvironment => ?_
  rw [Handle.wait_start, ← hcommand]
  exact h s ⟨hpassable, hcommand, hmode, hdirectory, henvironment⟩

theorem traces_check_bind (hrefused : isPassable r args = false → Q [] (.error .nullCharacter))
    (herror : ∀ s, Runs r args s → s.succeeded = false → Q [s] (.error (.process s.outcome)))
    (hok : ∀ s, Runs r args s → s.succeeded = true →
      Op.Traces places (f s.outcome) fun more => Q (s :: more)) :
    Op.Traces places (check r args >>= f) Q := by
  unfold check
  rw [bind_assoc]
  refine .command_bind hrefused fun hpassable s hcommand hmode hdirectory henvironment => ?_
  have hruns : Runs r args s := ⟨hpassable, hcommand, hmode, hdirectory, henvironment⟩
  have houtcome : s.response.outcome (r.command :: args) = s.outcome := by
    rw [Step.outcome, hcommand]
  rw [Handle.check_start, houtcome]
  by_cases hstatus : s.outcome.status = 0
  . rw [if_pos hstatus]
    exact hok s hruns (by simpa [Step.succeeded, Outcome.succeeded] using hstatus)
  . rw [if_neg hstatus]
    exact .throw_bind (herror s hruns (by simpa [Step.succeeded, Outcome.succeeded] using hstatus))

end Mercurial

end Dvcs
