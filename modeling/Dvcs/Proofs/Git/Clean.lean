import Dvcs.Git.Change
import Dvcs.Proofs.Git.Command
import Dvcs.Proofs.World.Acts

/-!
This module contains what the cleaning of a git working copy does. None of its steps depends on what
the commands before it have answered; only a command that cannot be started ends it.
-/

namespace Dvcs

namespace Git

/-- A command that has been asked for, and how it has been answered. -/
structure Exchange where
  arguments : List Text
  answer : Answer

namespace Exchange

def starts (e : Exchange) : Bool := e.answer.starts

/-- What is reported of a command that had to succeed. -/
def failures (e : Exchange) : List StepFailure :=
  match e.answer with
  | .failure _ report =>
    [.process (Failure.outcome { report with command := "git" :: e.arguments })]
  | _ => []

end Exchange

/-- A command with the next of the answers. -/
def exchange (arguments : List Text) (w : World) : Exchange := ⟨arguments, upcoming w⟩

/-- The way from a world to a later one, one command behind the other. -/
inductive Exchanges : World → List Exchange → World → Prop where
  | nil {w : World} : Exchanges w [] w
  | cons {w w' : World} {arguments : List Text} {es : List Exchange}
    (h : Exchanges (asked arguments none .text w) es w') :
    Exchanges w (exchange arguments w :: es) w'

variable {α : Type} {r : WorkingCopy} {w w' w'' : World} {es : List Exchange}

/-- The commands are recorded in the log. -/
theorem Exchanges.log (h : Exchanges w es w') :
    w'.log.filterMap arguments? =
      (es.map (·.arguments)).reverse ++ w.log.filterMap arguments? := by
  induction h with
  | nil => rfl
  | @cons w w' arguments es _ ih =>
    have hasked : (asked arguments none .text w).log.filterMap arguments? =
        arguments :: w.log.filterMap arguments? := rfl
    rw [ih, hasked]
    simp [exchange]

theorem Exchanges.append_one (h : Exchanges w es w') (arguments : List Text) :
    Exchanges w (es ++ [exchange arguments w']) (asked arguments none .text w') := by
  induction h with
  | nil => exact .cons .nil
  | cons _ ih => exact .cons ih

/-- A step that asks for a command and goes on with what `give` makes of it, if it is run. -/
structure Takes (r : WorkingCopy) (args : List Text) (p : Op α) (give : Exchange → α) : Prop where
  starts : ∀ w : World, w.git.openRoots.contains r.root = true →
    (exchange args w).starts = true → p w = .ok (give (exchange args w)) (asked args none .text w)
  stops : ∀ w : World, w.git.openRoots.contains r.root = true →
    ∀ message, (exchange args w).answer = .unstarted message →
      p w = .error (.unstarted message) (asked args none .text w)

theorem takes_execute_bind {args : List Text} {f : Except Failure Bytes → Op α}
    {give : Exchange → α} (h : ∀ answer reply w, answer.reply args = .ok reply →
      f reply w = .ok (give ⟨args, answer⟩) w) : Takes r args (execute r args >>= f) give where
  starts w hopen hstarts := by
    have hexecute := execute_eq (ensureOpen_of_isOpen hopen) args none .text
    cases hreply : (upcoming w).reply args with
    | ok reply =>
      rw [hreply] at hexecute
      exact (Op.bind_of_ok hexecute).trans (h _ _ _ hreply)
    | error e =>
      unfold Exchange.starts exchange at hstarts
      cases hanswer : upcoming w <;> simp [hanswer, Answer.reply, Answer.starts] at hreply hstarts
  stops w hopen message hanswer := by
    have hexecute := execute_eq (ensureOpen_of_isOpen hopen) args none .text
    have hupcoming : upcoming w = .unstarted message := hanswer
    rw [hupcoming] at hexecute
    exact Op.bind_of_error hexecute

theorem takes_discard (r : WorkingCopy) (args : List Text) :
    Takes r args (discard (execute r args) : Op Unit) fun _ => () := by
  rw [Op.Traces.discard_eq]
  exact takes_execute_bind fun _ _ _ _ => rfl

theorem takes_attempt (r : WorkingCopy) (args : List Text) :
    Takes r args (attempt r args) Exchange.failures := by
  refine takes_execute_bind fun answer reply w hreply => ?_
  cases answer with
  | unstarted message => cases hreply
  | _ =>
    cases hreply
    rfl

theorem head_eq (hopen : w.git.openRoots.contains r.root = true) :
    head r w = .ok (w.git.head.bind Hash.ofText?) w := by
  have hstate : state w = .ok w.git w := rfl
  unfold head
  rw [Op.bind_of_ok (ensureOpen_of_isOpen hopen), Op.bind_of_ok hstate]
  rfl

/-- A working copy without a commit cannot be reset. -/
def resetting (hasHead : Bool) : List (List Text) := if hasHead then [["reset", "--hard"]] else []

/-- The commands of a cleaning. -/
def cleaning (hasHead : Bool) : List (List Text) :=
  ["merge", "--abort"] :: ["rebase", "--abort"] :: ["clean", "-fdx"] :: resetting hasHead

/-- How a cleaning goes whose commands are planned: all of them run, and its result tells of the
failures of all but the first two, or it ends in front of the first one that cannot be started. -/
inductive Cleans (plan : List (List Text)) (es : List Exchange) (w : World)
    (result : EStateM.Result Error World Unit) : Prop
  | all (hplan : es.map (·.arguments) = plan) (hstarts : ∀ e ∈ es, e.starts = true)
    (hresult : Concludes ((es.drop 2).flatMap Exchange.failures) w result)
  | stopped {front : List Exchange} {last : Exchange} {message : Text} (heq : es = front ++ [last])
    (hplan : es.map (·.arguments) <+: plan) (hstarts : ∀ e ∈ front, e.starts = true)
    (hlast : last.answer = .unstarted message)
    (hresult : result = .error (.unstarted message) w)

/-- A step in a cleaning: if its command cannot be started, that ends the cleaning, and else the
rest decides. -/
theorem Takes.cleans_bind {args : List Text} {p : Op α} {give : Exchange → α}
    (h : Takes r args p give) {plan : List (List Text)} (hfront : Exchanges w es w')
    (hstarts : ∀ e ∈ es, e.starts = true) (hplan : es.map (·.arguments) ++ [args] <+: plan)
    (hopen : w'.git.openRoots.contains r.root = true) {f : α → Op Unit}
    (hrest : Exchanges w (es ++ [exchange args w']) (asked args none .text w') →
      (∀ e ∈ es ++ [exchange args w'], e.starts = true) → ∃ es' w'', Exchanges w es' w'' ∧
      Cleans plan es' w'' (f (give (exchange args w')) (asked args none .text w'))) :
    ∃ es' w'', Exchanges w es' w'' ∧ Cleans plan es' w'' ((p >>= f) w') := by
  cases hanswer : (exchange args w').answer with
  | unstarted message =>
    refine ⟨_, _, hfront.append_one args, .stopped rfl ?_ hstarts hanswer ?_⟩
    . simpa [exchange] using hplan
    . exact Op.bind_of_error (h.stops w' hopen message hanswer)
  | _ =>
    have hgoes : (exchange args w').starts = true := by
      rw [Exchange.starts, hanswer]
      rfl
    rw [Op.bind_of_ok (h.starts w' hopen hgoes)]
    exact hrest (hfront.append_one args)
      (List.forall_mem_append.2 ⟨hstarts, List.forall_mem_cons.2 ⟨hgoes, List.forall_mem_nil _⟩⟩)

/-- Only the first command has to open the repository. -/
theorem clean_eq_of_ensureOpen (hopen : ensureOpen r w = .ok () w')
    (hroot : w'.git.openRoots.contains r.root = true) : clean r w = clean r w' := by
  have hexecute : execute r ["merge", "--abort"] none .text w =
      execute r ["merge", "--abort"] none .text w' := by
    rw [execute_eq hopen, execute_eq (ensureOpen_of_isOpen hroot)]
  unfold clean
  refine Op.bind_of_eq ?_
  rw [Op.Traces.discard_eq]
  exact Op.bind_of_eq hexecute

/-- Every step is taken whatever the commands answer, as long as they can be started. -/
theorem exists_cleans (h : w.git.openRoots.contains r.root = true ∨ w.git.opens = true) :
    ∃ w₁ es w', ensureOpen r w = .ok () w₁ ∧ Exchanges w₁ es w' ∧
      Cleans (cleaning (w.git.head.bind Hash.ofText?).isSome) es w' (clean r w) := by
  obtain ⟨w₁, hopen, hroot, hgit⟩ := ensureOpen_eq (r := r) h
  -- a command leaves alone what is open and what is checked out
  let w₂ := asked ["merge", "--abort"] none .text w₁
  let w₃ := asked ["rebase", "--abort"] none .text w₂
  have hhead : head r w₃ = .ok (w.git.head.bind Hash.ofText?) w₃ := by
    have hsame : w.git.head = w₃.git.head := by
      have hasked : w₃.git.head = w₁.git.head := rfl
      rw [hasked, hgit]
    rw [hsame]
    exact head_eq hroot
  refine ⟨w₁, ?_⟩
  rw [clean_eq_of_ensureOpen hopen hroot]
  simp only [hopen, true_and]
  generalize w.git.head.bind Hash.ofText? = found at hhead
  unfold clean cleaning
  refine (takes_discard r _).cleans_bind .nil (List.forall_mem_nil _) ⟨_, rfl⟩ hroot
    fun hfront hstarts => ?_
  refine (takes_discard r _).cleans_bind hfront hstarts ⟨_, rfl⟩ hroot fun hfront hstarts => ?_
  rw [Op.bind_of_ok hhead]
  refine (takes_attempt r _).cleans_bind hfront hstarts ⟨_, rfl⟩ hroot fun hfront hstarts => ?_
  cases found with
  | none => exact ⟨_, _, hfront, .all rfl hstarts (concludes_match _ _)⟩
  | some hash =>
    refine (takes_attempt r _).cleans_bind hfront hstarts ⟨_, rfl⟩ hroot fun hfront hstarts => ?_
    refine ⟨_, _, hfront, .all rfl hstarts ?_⟩
    change Concludes ([_, _].flatMap Exchange.failures) _ _
    rw [List.flatMap_cons, List.flatMap_singleton]
    exact concludes_match _ _

end Git

end Dvcs
