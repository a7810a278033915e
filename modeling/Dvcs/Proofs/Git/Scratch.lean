import Dvcs.Git
import Dvcs.Proofs.Git.Command
import Dvcs.Proofs.World.Scope

/-!
This module contains the temporary file with a patch that git applies. It is there when the command
is run, whatever the command does, and also if the repository turns out not to be one.
-/

namespace Dvcs

namespace World

open FileTree

variable {w : World} {path : Path}

theorem mem_attached {arguments : List Text} {name : Text} {content : Bytes} :
    (name, content) ∈ w.attached arguments ↔
      name ∈ arguments ∧
        (w.present.find? (·.1.toText = name)).map Prod.snd = some content := by
  simp only [attached, List.mem_filterMap, Option.map_eq_some_iff, Prod.mk.injEq]
  constructor
  . rintro ⟨argument, hargument, file, hfile, rfl, rfl⟩
    exact ⟨hargument, file, hfile, rfl⟩
  . rintro ⟨hname, file, hfile, rfl⟩
    exact ⟨name, hname, file, hfile, rfl, rfl⟩

/-- A new temporary file is the first with its name. -/
theorem find?_present_withTemp {place : List Text} (hplace : w.files.locate path = .ok place)
    (hfree : w.files.has path = false) (content : Bytes) :
    (w.withTemp path content).present.find? (·.1.toText = path.toText) = some (path, content) := by
  have hread := (holds_of_fresh hplace hfree content).read
  have hpresent : (w.withTemp path content).present =
      (path, content) :: w.living.filterMap fun p =>
        ((w.withTemp path content).files.read p).toOption.map (p, ·) := by
    unfold present
    rw [withTemp, List.filterMap_cons, ← withTemp, hread]
    rfl
  rw [hpresent, List.find?_cons_of_pos (by simp)]

end World

namespace Git

open World FileTree

variable {r : WorkingCopy} {w w' : World} {arguments : List Text} {events : List Dvcs.Event}

def isCommand : Dvcs.Event → Bool
  | .git (.command _ _ _ _ _) => true
  | _ => false

/-- What the command with a certain number does to files, nothing if it cannot be started. -/
def effectsOf (w : World) (i : ℕ) : List (Path × FileEffect) :=
  if (w.git.answers.getD i (.output [])).starts then w.git.touched.getD i [] else []

/-- What the commands among some events do to files. -/
def effects (w : World) (events : List Dvcs.Event) : List (Path × FileEffect) :=
  (List.range (events.countP isCommand)).flatMap (effectsOf w)

/-- The way from a world to a later one on which a command is run, or none. -/
structure Asks (w : World) (arguments : List Text) (events : List Dvcs.Event) (w' : World) :
    Prop where
  log : w'.log = events ++ w.log
  files : w'.files = (effects w events).foldl change w.files
  living : w'.living = w.living
  command : ∀ words environment taken attached waited,
    .git (.command words environment taken attached waited) ∈ events →
      words = arguments ∧ attached = w.attached arguments

theorem perform_check (r : WorkingCopy) (arguments : List Text) (environment : Option Environment)
    (w : World) :
    ((check r arguments environment).perform w).2 =
      ((execute r arguments environment).perform w).2 := by
  unfold check
  rcases Op.perform_bind (execute r arguments environment) _ w with
    ⟨e, -, hperform⟩ | ⟨answer, -, hperform⟩
  . rw [hperform]
  . rw [hperform]
    cases answer <;> rfl

theorem effects_of_none (w : World) (h : ∀ e ∈ events, isCommand e = false) :
    effects w events = [] := by
  have hcount : events.countP isCommand = 0 := List.countP_eq_zero.2 (by simpa using h)
  rw [effects, hcount]
  rfl

theorem effects_of_one {e : Dvcs.Event} (w : World) (h : isCommand e = true)
    (hothers : ∀ other ∈ events, isCommand other = false) :
    effects w (e :: events) = effectsOf w 0 := by
  have hcount : events.countP isCommand = 0 := List.countP_eq_zero.2 (by simpa using hothers)
  rw [effects, List.countP_cons_of_pos h, hcount]
  exact List.flatMap_singleton _ _

theorem effectsOf_zero (w : World) :
    effectsOf w 0 = if (upcoming w).starts then w.git.touched.headD [] else [] := by
  rw [effectsOf, upcoming, List.getD_eq_getElem?_getD, List.getD_eq_getElem?_getD,
    List.headD_eq_head?_getD, List.headD_eq_head?_getD, List.head?_eq_getElem?,
    List.head?_eq_getElem?]

theorem perform_ofExcept {α : Type} (x : Except Error α) (w : World) :
    (Op.ofExcept x).perform w = (x, w) := by
  cases x <;> rfl

/-- A command that has been run once the repository is open. -/
theorem asks_asked {opening : List Dvcs.Event} {environment : Option Environment}
    (hopen : ensureOpen r w = .ok () w') (hfiles : w'.files = w.files)
    (hliving : w'.living = w.living) (hanswers : w'.git.answers = w.git.answers)
    (htouched : w'.git.touched = w.git.touched) (hlog : w'.log = opening ++ w.log)
    (hopening : ∀ e ∈ opening, isCommand e = false)
    (arguments : List Text) :
    Asks w arguments
      (.git (.command arguments environment .text (w.attached arguments) false) :: opening)
      ((execute r arguments environment).perform w).2 := by
  have hattached : w'.attached arguments = w.attached arguments := by
    rw [attached, attached, present_congr hfiles hliving]
  have hupcoming : upcoming w' = upcoming w := by rw [upcoming, upcoming, hanswers]
  have hworld : ((execute r arguments environment).perform w).2 =
      asked arguments environment .text w' := by
    rw [Op.perform, execute_eq hopen, ← Op.perform, perform_ofExcept]
  rw [hworld]
  refine ⟨?_, ?_, hliving, ?_⟩
  . rw [asked, hlog, hattached]
    rfl
  . rw [asked, effects_of_one w rfl hopening, effectsOf_zero, hfiles, htouched, hupcoming]
    dsimp only
    split <;> rfl
  . intro words environment taken attached waited hmem
    rcases List.mem_cons.1 hmem with heq | hmem
    . cases heq
      exact ⟨rfl, rfl⟩
    . exact absurd (hopening _ hmem) (by simp [isCommand])

theorem exists_asks (r : WorkingCopy) (arguments : List Text) (environment : Option Environment)
    (w : World) :
    ∃ events, Asks w arguments events ((check r arguments environment).perform w).2 := by
  rw [perform_check]
  cases hopen : w.git.openRoots.contains r.root with
  | true =>
    exact ⟨_, asks_asked (ensureOpen_of_isOpen hopen) rfl rfl rfl rfl (List.nil_append _).symm
      (List.forall_mem_nil _) arguments⟩
  | false =>
    cases hopens : w.git.opens with
    | true =>
      let opening : List Dvcs.Event :=
        [.git (.environmentSet toolEnvironment), .git (.opened r.root false)]
      have hopening : ∀ e ∈ opening, isCommand e = false := by simp [opening, isCommand]
      exact ⟨_, asks_asked (ensureOpen_of_opens hopen hopens) rfl rfl rfl rfl rfl hopening
        arguments⟩
    | false =>
      let opening : List Dvcs.Event := [.git (.opened r.root false)]
      have hopening : ∀ e ∈ opening, isCommand e = false := by simp [opening, isCommand]
      have hrefused := ensureOpen_of_refused hopen hopens
      refine ⟨opening, ?_⟩
      unfold execute
      rw [Op.Traces.perform_bind_of_error (by rw [Op.perform, hrefused])]
      refine ⟨rfl, ?_, rfl, fun words environment taken attached waited hmem => ?_⟩
      . rw [effects_of_none w hopening]
        rfl
      . exact absurd (hopening _ hmem) (by simp [isCommand])

/-- The life of a temporary file between two worlds. -/
structure Lifetime (w : World) (directory : Path) (file : Scratch) (path : Path)
    (events : List Dvcs.Event) (w' : World) : Prop where
  log : w'.log = events ++ w.log
  place : ∃ n, path = tempPath directory file.suffix n
  fresh : w.files.get? path = none
  /-- Every command names it, and finds it as it has been made. -/
  there : ∀ words environment taken attached waited,
    .git (.command words environment taken attached waited) ∈ events →
      path.toText ∈ words ∧
        ∀ content, (path.toText, content) ∈ attached ↔ content = file.content
  gone : w'.files.get? path = none
  /-- All other files are those that the commands leave. -/
  others : ∀ p, w.files.place? p ≠ w.files.place? path →
    w'.files.get? p = ((effects w events).foldl change w.files).get? p
  living : w'.living = w.living

/-- An operation that may use a temporary file has run no command without it. -/
inductive UsesTemp (w : World) (directory : Path) (scratch : Option Scratch) (w' : World) : Prop
  | never {events : List Dvcs.Event} (log : w'.log = events ++ w.log)
      (silent : ∀ file ∈ scratch, events = [])
      (files : w'.files = (effects w events).foldl change w.files) (living : w'.living = w.living)
  | once {file : Scratch} {path : Path} {events : List Dvcs.Event} (isUsed : file ∈ scratch)
      (lifetime : Lifetime w directory file path events w')

theorem Asks.lifetime {directory : Path} {file : Scratch} {n : Nat} {path : Path}
    {place : List Text} (h : Asks (w.withTemp path file.content) arguments events w')
    (hpath : path = tempPath directory file.suffix n) (hname : path.toText ∈ arguments)
    (hplace : w.files.locate path = .ok place) (hfree : w.files.has path = false) :
    Lifetime w directory file path events (w'.withoutTemp path) where
  log := h.log
  place := ⟨n, hpath⟩
  fresh := by simpa [has] using hfree
  there words environment taken attached waited hmem := by
    obtain ⟨rfl, rfl⟩ := h.command words environment taken attached waited hmem
    refine ⟨hname, fun content => ?_⟩
    rw [mem_attached, find?_present_withTemp hplace hfree]
    simp [hname, eq_comm]
  gone := by
    have hsame : SameDirectories (w.withTemp path file.content).files w'.files := by
      rw [h.files]
      exact sameDirectories_changes _ _
    simpa [has] using (holds_of_fresh hplace hfree file.content).free w' hsame
  others p hp := by
    have hplace' := place?_of_locate hplace
    have hagrees := agreesOff_while hplace' file.content (effects w events)
    have hfiles : (w'.withoutTemp path).files = FileTree.change
        ((effects w events).foldl change (w.files.change (path, .write file.content)))
        (path, .remove) := by
      rw [withoutTemp_files, h.files]
      rfl
    rw [hfiles]
    refine hagrees.get?_eq ?_
    rwa [(sameDirectories_changes _ _).place?_eq, ← hplace']
  living := by
    rw [withoutTemp, h.living, withTemp]
    exact List.erase_cons_head path w.living

theorem usesTemp_apply (r : WorkingCopy) (change : Change) (force : Bool) (w : World) :
    UsesTemp w (w.scratchDirectory r.temporary) change.scratch?
      ((apply r change force).perform w).2 := by
  let options : List Text := "apply" :: "--unidiff-zero" :: if force then [] else ["--index"]
  have happly (path : Path) (w : World) : ∃ events, Asks w (options ++ [path.toText]) events
      ((Functor.discard (check r (options ++ [path.toText]))).perform w).2 := by
    rw [Op.perform_discard]
    exact exists_asks r _ none w
  cases change with
  | file path =>
    obtain ⟨events, h⟩ := happly path w
    exact .never h.log nofun h.files h.living
  | diff d =>
    have hsuffix : .char '\x00' ∉ (".patch" : Text) := by decide
    unfold Git.apply Change.scratch?
    have hsame (n : Nat) (w' : World) : SameDirectories w'.files ((Functor.discard (check r
        (options ++ [(tempPath (w.scratchDirectory r.temporary) ".patch" n).toText]))).perform
          w').2.files := by
      obtain ⟨events, h⟩ := happly (tempPath (w.scratchDirectory r.temporary) ".patch" n) w'
      rw [h.files]
      exact sameDirectories_changes _ _
    rcases Op.perform_withTempFile r.temporary hsuffix d.toBytes
        (fun path => Functor.discard (check r (options ++ [path.toText]))) w hsame with
      ⟨e, hperform⟩ | ⟨n, path, place, hpath, hplace, hfree, hperform⟩
    . have hlog : w.log = [] ++ w.log := rfl
      rw [hperform]
      exact .never hlog (fun _ _ => rfl) rfl rfl
    . let file : Scratch := ⟨".patch", d.toBytes⟩
      obtain ⟨events, h⟩ := happly path (w.withTemp path file.content)
      have hname : path.toText ∈ options ++ [path.toText] := by simp
      have hlifetime : Lifetime w (w.scratchDirectory r.temporary) file path events _ :=
        h.lifetime hpath hname hplace hfree
      rw [hperform]
      exact .once rfl hlifetime

end Git

end Dvcs
