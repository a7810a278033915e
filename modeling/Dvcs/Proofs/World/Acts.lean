import Dvcs.Proofs.World.Steps

/-!
This module contains what operations do to the world besides their result, in its order: the
commands that are run, together with their answers, and the files that are asked to be deleted,
together with what comes of it. Nothing is assumed of either. Where steps are taken whatever comes
of the others, their failures make up the result.
-/

namespace Dvcs

/-- Something that is done to the world. -/
inductive Act where
  | command (s : Step)
  | deletion (d : Deletion)

namespace Act

def command? : Act → Option Step
  | command s => some s
  | deletion _ => none

def deletion? : Act → Option Deletion
  | command _ => none
  | deletion d => some d

end Act

namespace World

/-- The world after a command has been run. -/
def afterCommand (w : World) (s : Step) : World :=
  { w with
    responses := w.responses.tail
    files := (s.response.effects s.invocation.command).foldl FileTree.change w.files
    log := .command s.invocation :: w.log }

/-- The way from a world to a later one, one act behind the other. A command takes the next of the
answers, and what comes of a deletion depends on the world at that time. -/
inductive Acts : World → List Act → World → Prop where
  | nil {w : World} : Acts w [] w
  | command {w w' : World} {s : Step} {acts : List Act}
    (hresponse : s.response = w.responses.headD {}) (h : Acts (w.afterCommand s) acts w') :
    Acts w (.command s :: acts) w'
  | deletion {w w' : World} {p : Path} {acts : List Act} (h : Acts (w.afterDeletion p) acts w') :
    Acts w (.deletion (w.deletion p) :: acts) w'

variable {w w' w'' : World} {acts more : List Act}

theorem Acts.append (h : w.Acts acts w') (h' : w'.Acts more w'') : w.Acts (acts ++ more) w'' := by
  induction h with
  | nil => exact h'
  | command hresponse _ ih => exact .command hresponse (ih h')
  | deletion _ ih => exact .deletion (ih h')

theorem passes_afterCommand {s : Step} (h : s.response = w.responses.headD {}) :
    w.Passes [s] (w.afterCommand s) := by
  refine ⟨rfl, ?_, List.drop_one.symm, rfl⟩
  intro i hi
  obtain rfl : i = 0 := by simpa using hi
  rw [List.getElem_cons_zero, h]
  cases w.responses <;> rfl

/-- The commands are recorded in the log, and they are answered in turn. -/
theorem Acts.passes (h : w.Acts acts w') : w.Passes (acts.filterMap Act.command?) w' := by
  induction h with
  | nil => exact .refl _
  | command hresponse _ ih => exact (passes_afterCommand hresponse).trans ih
  | @deletion w w' p acts _ ih =>
    have hdeletion : w.Passes [] (w.afterDeletion p) := .of_eq rfl rfl rfl
    exact hdeletion.trans ih

@[simp]
theorem filterMap_command?_deletions (ds : List Deletion) :
    (ds.map Act.deletion).filterMap Act.command? = [] := by
  rw [List.filterMap_map]
  exact List.filterMap_eq_nil_iff.2 fun _ _ => rfl

/-- The deletions are recorded beside the log. -/
theorem Acts.deletions (h : w.Acts acts w') :
    w'.deletions = (acts.filterMap Act.deletion?).reverse ++ w.deletions := by
  induction h with
  | nil => rfl
  | command _ _ ih => exact ih
  | @deletion w w' p acts _ ih =>
    have hrecorded : (w.afterDeletion p).deletions = w.deletion p :: w.deletions := rfl
    rw [ih, hrecorded]
    simp [Act.deletion?]

/-- Files are deleted one after the other, up to the first one that cannot be. The system is not
even asked about a path that holds the null character. -/
inductive Tried : List Path → List Deletion → Option Error → Prop where
  | done : Tried [] [] none
  | next {d : Deletion} {ps : List Path} {ds : List Deletion} {e : Option Error}
    (hd : d.error? = none) (h : Tried ps ds e) : Tried (d.path :: ps) (d :: ds) e
  | failed {d : Deletion} {ps : List Path} {e : SystemError} (hd : d.error? = some e) :
    Tried (d.path :: ps) [d] (some (.system e))
  | illegal {p : Path} {ps : List Path} (hp : Op.holdsNull p = true) :
    Tried (p :: ps) [] (some .nullCharacter)

/-- It is the system that refuses a deletion, or the null character. -/
theorem Tried.ending {ps : List Path} {ds : List Deletion} {e : Option Error} (h : Tried ps ds e) :
    (∃ failure : Option SystemError, e = failure.map .system) ∨ e = some .nullCharacter := by
  induction h with
  | done => exact .inl ⟨none, rfl⟩
  | next _ _ ih => exact ih
  | failed _ => exact .inl ⟨some _, rfl⟩
  | illegal _ => exact .inr rfl

theorem path_deletion (w : World) (p : Path) : (w.deletion p).path = p := by
  unfold deletion
  split <;> rfl

end World

namespace Op

open World

theorem unlinkIfThere_eq {p : Path} (h : holdsNull p = false) (w : World) :
    unlinkIfThere p w =
      match (w.deletion p).error? with
      | some e => .error (.system e) (w.afterDeletion p)
      | none => .ok () (w.afterDeletion p) := by
  have hget : (get : Op World) w = .ok w w := rfl
  have hmodify : (modify (·.afterDeletion p) : Op Unit) w = .ok () (w.afterDeletion p) := rfl
  unfold unlinkIfThere
  simp only [h, Bool.false_eq_true, ↓reduceIte]
  rw [bind_of_ok hget, bind_of_ok hmodify]
  cases (w.deletion p).error? <;> rfl

theorem unlinkIfThere_of_holdsNull {p : Path} (h : holdsNull p = true) (w : World) :
    unlinkIfThere p w = .error .nullCharacter w := by
  unfold unlinkIfThere
  rw [if_pos h]
  rfl

/-- What a loop over deletions does and gives. -/
theorem exists_tried (ps : List Path) (w : World) :
    ∃ ds e w', Tried ps ds e ∧ w.Acts (ds.map .deletion) w' ∧
      ps.forM unlinkIfThere w =
        match e with
        | some e => .error e w'
        | none => .ok () w' := by
  induction ps generalizing w with
  | nil => exact ⟨[], none, w, .done, .nil, rfl⟩
  | cons p ps ih =>
    have hloop : (p :: ps).forM unlinkIfThere =
        (unlinkIfThere p >>= fun _ => ps.forM unlinkIfThere) := rfl
    rw [hloop]
    cases hp : holdsNull p with
    | true =>
      exact ⟨[], _, w, .illegal hp, .nil, bind_of_error (unlinkIfThere_of_holdsNull hp w)⟩
    | false =>
      have hone := unlinkIfThere_eq hp w
      have hpath := path_deletion w p
      cases herror : (w.deletion p).error? with
      | some e =>
        rw [herror] at hone
        have htried : Tried ((w.deletion p).path :: ps) [w.deletion p] (some (.system e)) :=
          .failed herror
        rw [hpath] at htried
        exact ⟨_, _, _, htried, .deletion .nil, bind_of_error hone⟩
      | none =>
        rw [herror] at hone
        obtain ⟨ds, e, w', hrest, hacts, hresult⟩ := ih (w.afterDeletion p)
        have htried : Tried ((w.deletion p).path :: ps) (w.deletion p :: ds) e :=
          .next herror hrest
        rw [hpath] at htried
        exact ⟨_, e, w', htried, .deletion hacts, (bind_of_ok hone).trans hresult⟩

end Op

/-- The result of steps that have all been taken. It is a failure if one of them failed; its message
names all of those, in their order, and the first of them is its cause. -/
structure Concludes (failures : List StepFailure) (w : World)
    (result : EStateM.Result Error World Unit) : Prop where
  done : failures = [] → result = .ok () w
  failed : ∀ first ∈ failures.head?, result = .error (.refusal (.cleanFailed failures first)) w
  message : ∀ cause, (Refusal.cleanFailed failures cause).message =
    "Failed to clean working directory:\n" ++ Text.join "\n" (failures.map StepFailure.message)

theorem concludes_match (failures : List StepFailure) (w : World) :
    Concludes failures w
      ((match failures with
        | [] => return ()
        | first :: others => throw (.refusal (.cleanFailed (first :: others) first)) :
          Op Unit) w) := by
  cases failures with
  | nil => exact ⟨fun _ => rfl, nofun, fun _ => rfl⟩
  | cons first others =>
    refine ⟨nofun, ?_, fun _ => rfl⟩
    rintro _ ⟨⟩
    rfl

end Dvcs
