import Dvcs.Proofs.World

/-!
This module contains the commands that an operation runs, together with their answers, and the rules
for what can be said of them: the commands of an operation that is made of others are those of its
parts, one part behind the other. Nothing is assumed of the answers.
-/

namespace Dvcs

/-- A command that has been run, and how it has answered. -/
structure Step where
  invocation : Invocation
  response : Response

namespace Step

def outcome (s : Step) : Outcome := s.response.outcome s.invocation.command

def succeeded (s : Step) : Bool := s.outcome.succeeded

/-- The words behind the name of the tool. -/
def arguments (s : Step) : List Text := s.invocation.command.tail

def Ran (s : Step) (arguments : List Text) : Prop := s.arguments = arguments

instance (s : Step) (arguments : List Text) : Decidable (s.Ran arguments) :=
  inferInstanceAs (Decidable (s.arguments = arguments))

end Step

/-- Whether something is asked of the server that tells Mercurial's configuration. -/
def Event.isRequest : Event → Bool
  | .server _ => true
  | _ => false

/-- The words of a command in the log. -/
def Event.words? : Event → Option (List Text)
  | .command invocation => some invocation.command
  | _ => none

/-- Where commands and temporary files are unless told otherwise. -/
structure Places where
  directory : Path
  temporary : Path

namespace World

def places (w : World) : Places := ⟨w.directory, w.temporary⟩

/-- What has been done, the last event first; questions about the configuration are left out. -/
def events (w : World) : List Event := w.log.filter (!·.isRequest)

/-- The way from a world to a later one, with the commands that have been run on it. -/
structure Passes (w : World) (steps : List Step) (w' : World) : Prop where
  log : w'.events = (steps.map fun s => Event.command s.invocation).reverse ++ w.events
  answers : ∀ i (h : i < steps.length), steps[i].response = w.responses.getD i {}
  responses : w'.responses = w.responses.drop steps.length
  places : w'.places = w.places

variable {w w' w'' : World} {steps more : List Step}

theorem Passes.refl (w : World) : w.Passes [] w := ⟨rfl, nofun, rfl, rfl⟩

/-- A change that is neither a command nor a move. -/
theorem Passes.of_eq (hlog : w'.events = w.events) (hresponses : w'.responses = w.responses)
    (hplaces : w'.places = w.places) : w.Passes [] w' :=
  ⟨hlog, nofun, hresponses, hplaces⟩

theorem Passes.trans (h : w.Passes steps w') (h' : w'.Passes more w'') :
    w.Passes (steps ++ more) w'' := by
  refine ⟨?_, ?_, ?_, h'.places.trans h.places⟩
  . rw [h'.log, h.log, List.map_append, List.reverse_append, List.append_assoc]
  . intro i hi
    by_cases hfront : i < steps.length
    . rw [List.getElem_append_left hfront]
      exact h.answers i hfront
    . rw [List.getElem_append_right (by omega), h'.answers, h.responses]
      rw [List.getD_eq_getElem?_getD, List.getElem?_drop, List.getD_eq_getElem?_getD]
      congr 3
      omega
  . rw [h'.responses, h.responses, List.drop_drop, List.length_append]

/-- The name of a temporary file depends on the files that are there, its directory does not. -/
theorem exists_freshPath_eq (w : World) (directory : Path) (suffix : Text) :
    ∃ n, w.freshPath directory suffix = tempPath directory suffix n := by
  let candidates := (List.range (w.files.entries.length + 1)).map (tempPath directory suffix)
  have hfresh : w.freshPath directory suffix =
      (candidates.find? fun p => !w.files.has p).getD (tempPath directory suffix 0) := rfl
  cases hfind : candidates.find? fun p => !w.files.has p with
  | none => exact ⟨0, by rw [hfresh, hfind, Option.getD_none]⟩
  | some p =>
    obtain ⟨n, _, rfl⟩ := List.mem_map.1 (List.mem_of_find?_eq_some hfind)
    exact ⟨n, by rw [hfresh, hfind, Option.getD_some]⟩

end World

namespace Op

open World

/-- In certain places an operation runs commands and gives a result, both in such a way that `Q`
holds, whatever else is in the world and however the commands answer. -/
def Traces {α : Type} (places : Places) (p : Op α) (Q : List Step → Except Error α → Prop) : Prop :=
  ∀ w : World, w.places = places →
    ∃ steps, w.Passes steps (p.perform w).2 ∧ Q steps (p.perform w).1

/-- The step that a command is. -/
def stepOf {α : Type} (mode : Mode) (directory : Path) (environment : Environment)
    (arguments : List Text) (use : Handle → α × Handle) (w : World) : Step :=
  let response := w.responses.headD {}
  let handle := (use (Handle.start mode arguments response)).2
  ⟨⟨arguments, mode, directory, environment, w.attached arguments, w.present, handle.terminated,
    handle.reaped⟩, response⟩

theorem passes_runCommand {α : Type} (mode : Mode) (directory : Path) (environment : Environment)
    (arguments : List Text) (use : Handle → α × Handle) (w : World) :
    w.Passes [stepOf mode directory environment arguments use w]
      ((runCommand mode directory environment arguments use).perform w).2 := by
  refine ⟨rfl, ?_, List.drop_one.symm, rfl⟩
  intro i hi
  obtain rfl : i = 0 := by simpa using hi
  cases hresponses : w.responses <;> simp [stepOf, hresponses]

variable {α β : Type} {places : Places} {p : Op α} {f : α → Op β}
  {Q R : List Step → Except Error α → Prop} {S : List Step → Except Error β → Prop}

namespace Traces

theorem mono (hp : Traces places p R) (h : ∀ steps result, R steps result → Q steps result) :
    Traces places p Q := by
  intro w hw
  obtain ⟨steps, hpasses, hR⟩ := hp w hw
  exact ⟨steps, hpasses, h _ _ hR⟩

theorem pure {a : α} (h : Q [] (.ok a)) : Traces places (Pure.pure a) Q :=
  fun w _ => ⟨[], .refl w, h⟩

theorem throw {e : Error} (h : Q [] (.error e)) : Traces places (MonadExcept.throw e : Op α) Q :=
  fun w _ => ⟨[], .refl w, h⟩

theorem ofExcept {x : Except Error α} (h : Q [] x) : Traces places (Op.ofExcept x) Q := by
  cases x with
  | ok a => exact pure h
  | error e => exact throw h

theorem perform_bind_of_ok {w w' : World} {a : α} (h : p.perform w = (.ok a, w')) :
    (p >>= f).perform w = (f a).perform w' := by
  unfold perform at h ⊢
  cases hp : p w with
  | ok b w'' =>
    rw [hp] at h
    cases h
    rw [bind_of_ok hp]
  | error e w'' =>
    rw [hp] at h
    cases h

theorem perform_bind_of_error {w w' : World} {e : Error} (h : p.perform w = (.error e, w')) :
    (p >>= f).perform w = (.error e, w') := by
  unfold perform at h ⊢
  cases hp : p w with
  | ok b w'' =>
    rw [hp] at h
    cases h
  | error e w'' =>
    rw [hp] at h
    cases h
    simp [bind, EStateM.bind, hp]

theorem bind (hp : Traces places p R) (herror : ∀ steps e, R steps (.error e) → S steps (.error e))
    (hok : ∀ steps a, R steps (.ok a) → Traces places (f a) fun more => S (steps ++ more)) :
    Traces places (p >>= f) S := by
  intro w hw
  obtain ⟨steps, hpasses, hR⟩ := hp w hw
  rcases hperform : p.perform w with ⟨result, w'⟩
  rw [hperform] at hpasses hR
  cases result with
  | error e =>
    rw [perform_bind_of_error hperform]
    exact ⟨steps, hpasses, herror _ _ hR⟩
  | ok a =>
    rw [perform_bind_of_ok hperform]
    obtain ⟨more, hmore, hS⟩ := hok _ _ hR w' (hpasses.places.trans hw)
    exact ⟨steps ++ more, hpasses.trans hmore, hS⟩

theorem throw_bind {e : Error} (h : S [] (.error e)) :
    Traces places ((MonadExcept.throw e : Op α) >>= f) S :=
  fun w _ => ⟨[], .refl w, h⟩

theorem discard_eq (p : Op α) : Functor.discard p = p >>= fun _ => Pure.pure () := by
  rw [Functor.discard, map_const, Function.comp_apply, bind_pure_comp]

theorem discard {S : List Step → Except Error Unit → Prop}
    (h : Traces places (p >>= fun _ => Pure.pure ()) S) : Traces places (Functor.discard p) S := by
  rw [discard_eq]
  exact h

theorem discard_bind {f : Unit → Op β} (h : Traces places (p >>= fun _ => f ()) S) :
    Traces places (Functor.discard p >>= f) S := by
  rw [discard_eq, bind_assoc]
  simpa only [pure_bind] using h

/-- A command is one step, with any answer, unless the system cannot be given its words. -/
theorem command {mode : Mode} {directory : Path} {environment : Environment}
    {arguments : List Text} {use : Handle → α × Handle}
    (hrefused : isPassable directory arguments = false → Q [] (.error .nullCharacter))
    (h : isPassable directory arguments = true → ∀ s : Step, s.invocation.command = arguments →
      s.invocation.mode = mode → s.invocation.directory = directory →
      s.invocation.environment = environment →
      Q [s] (.ok (use (Handle.start mode arguments s.response)).1)) :
    Traces places (Op.command mode directory environment arguments use) Q := by
  intro w _
  cases hpassable : isPassable directory arguments with
  | false =>
    refine ⟨[], ?_⟩
    unfold perform
    rw [command_of_not_isPassable hpassable]
    exact ⟨.refl w, hrefused hpassable⟩
  | true =>
    rw [command_of_isPassable hpassable]
    exact ⟨_, passes_runCommand mode directory environment arguments use w,
      h hpassable _ rfl rfl rfl rfl⟩

theorem command_bind {mode : Mode} {directory : Path} {environment : Environment}
    {arguments : List Text} {use : Handle → α × Handle}
    (hrefused : isPassable directory arguments = false → S [] (.error .nullCharacter))
    (h : isPassable directory arguments = true → ∀ s : Step, s.invocation.command = arguments →
      s.invocation.mode = mode → s.invocation.directory = directory →
      s.invocation.environment = environment →
      Traces places (f (use (Handle.start mode arguments s.response)).1)
        fun more => S (s :: more)) :
    Traces places (Op.command mode directory environment arguments use >>= f) S := by
  refine (command (Q := fun steps result =>
    (isPassable directory arguments = false ∧ steps = [] ∧ result = .error .nullCharacter) ∨
      ∃ a, result = .ok a ∧ ∃ s, steps = [s] ∧ Traces places (f a) fun more => S (s :: more))
    ?_ ?_).bind ?_ ?_
  . exact fun hpassable => .inl ⟨hpassable, rfl, rfl⟩
  . exact fun hpassable s hcommand hmode hdirectory henvironment =>
      .inr ⟨_, rfl, s, rfl, h hpassable s hcommand hmode hdirectory henvironment⟩
  . rintro steps e (⟨hpassable, rfl, hresult⟩ | ⟨a, hresult, _⟩)
    . cases hresult
      exact hrefused hpassable
    . cases hresult
  . rintro steps a (⟨_, _, hresult⟩ | ⟨a', hresult, s, rfl, hf⟩)
    . cases hresult
    . cases hresult
      exact hf

end Traces

/-- An operation that runs no commands. -/
def Silent {α : Type} (p : Op α) : Prop :=
  ∀ places, Traces places p fun steps _ => steps = []

namespace Silent

theorem pure (a : α) : Silent (Pure.pure a : Op α) := fun _ => .pure rfl

theorem throw (e : Error) : Silent (MonadExcept.throw e : Op α) := fun _ => .throw rfl

theorem ofExcept (x : Except Error α) : Silent (Op.ofExcept x) := fun _ => .ofExcept rfl

theorem get : Silent (MonadState.get : Op World) := fun _ w _ => ⟨[], .refl w, rfl⟩

theorem bind (hp : Silent p) (hf : ∀ a, Silent (f a)) : Silent (p >>= f) := by
  intro places
  refine (hp places).bind (fun _ _ h => h) ?_
  rintro _ a rfl
  exact hf a places

theorem update {g : World → World} (hlog : ∀ w, (g w).events = w.events)
    (hresponses : ∀ w, (g w).responses = w.responses) (hplaces : ∀ w, (g w).places = w.places) :
    Silent (modify g : Op Unit) :=
  fun _ w _ => ⟨[], .of_eq (hlog w) (hresponses w) (hplaces w), rfl⟩

theorem recordServer (request : ServerRequest) : Silent (Op.record (.server request)) :=
  update (fun _ => rfl) (fun _ => rfl) fun _ => rfl

theorem files : Silent Op.files := get.bind fun _ => pure _

theorem ofFault (path : Path) (x : Except FileTree.Fault α) : Silent (Op.ofFault path x) := by
  cases x with
  | ok a => exact pure a
  | error fault => exact throw _

theorem ite_throw {c : Prop} [Decidable c] {e : Error} {g : Unit → Op α} (h : Silent (g ())) :
    Silent (if c then (MonadExcept.throw e : Op Unit) >>= g else g ()) := by
  split
  . exact (throw e).bind fun _ => h
  . exact h

theorem changeFiles (path : Path) (change : FileTree → Except FileTree.Fault FileTree) :
    Silent (Op.changeFiles path change) := by
  unfold Op.changeFiles
  refine ite_throw ?_
  exact files.bind fun _ => (ofFault path _).bind fun _ =>
    update (fun _ => rfl) (fun _ => rfl) fun _ => rfl

theorem exists? (path : Path) : Silent (Op.exists? path) := files.bind fun _ => pure _

theorem isDirectory (path : Path) : Silent (Op.isDirectory path) := files.bind fun _ => pure _

theorem readFile (path : Path) : Silent (Op.readFile path) := by
  unfold Op.readFile
  refine ite_throw ?_
  exact files.bind fun _ => ofFault path _

theorem writeFile (path : Path) (content : Bytes) : Silent (Op.writeFile path content) :=
  changeFiles path _

theorem unlinkIfThere (path : Path) : Silent (Op.unlinkIfThere path) := by
  unfold Op.unlinkIfThere
  refine ite_throw ?_
  have hdeletion : Silent (modify (·.afterDeletion path) : Op Unit) :=
    update (fun _ => rfl) (fun _ => rfl) fun _ => rfl
  refine get.bind fun w => hdeletion.bind fun _ => ?_
  split
  . exact throw _
  . exact pure ()

theorem forM {f : α → Op Unit} (hf : ∀ a, Silent (f a)) (as : List α) : Silent (as.forM f) := by
  induction as with
  | nil => exact pure ()
  | cons a as ih => exact (hf a).bind fun _ => ih

theorem mapM {f : α → Op β} (hf : ∀ a, Silent (f a)) (as : List α) : Silent (as.mapM f) := by
  induction as with
  | nil => exact pure []
  | cons a as ih =>
    rw [List.mapM_cons]
    exact (hf a).bind fun _ => ih.bind fun _ => pure _

end Silent

end Op

end Dvcs
