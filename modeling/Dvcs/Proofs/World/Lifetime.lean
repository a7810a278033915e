import Dvcs.Proofs.FileTree.Effects
import Dvcs.Proofs.Text.Join
import Dvcs.Proofs.World.Steps
import Dvcs.Repository

/-!
This module contains the life of a temporary file among commands: it is made in front of the first
command that names it, holds what the commands make of it, and is gone behind the last one. Nothing
is assumed of the answers, and whatever else the commands do to files is left as it is.
-/

namespace Dvcs

/-- A temporary file that an operation uses: the end of its name, and what it holds at first. -/
structure Scratch where
  suffix : Text
  content : Bytes

/-- The temporary file for a change that is applied; a file of the caller is applied as it is. -/
def Change.scratch? : Change → Option Scratch
  | .diff d => some ⟨".patch", d.toBytes⟩
  | .file _ => none

namespace Step

/-- What the command does to files. -/
def effects (s : Step) : List (Path × FileEffect) := s.response.effects s.invocation.command

/-- The words that a command reads as its own; the texts of a caller stand behind `--`. -/
def ownWords (s : Step) : List Text := s.arguments.takeWhile (· ≠ "--")

/-- A file is named by a word of its own, or behind the equals sign of an option. -/
def Names (s : Step) (path : Path) : Prop := ∃ word ∈ s.ownWords, path.toText <:+ word

/-- A command that names no file of a kind. -/
def Avoids (scratch : Option Scratch) (s : Step) : Prop :=
  ∀ file ∈ scratch, ∀ word ∈ s.ownWords, ¬ file.suffix <:+ word

end Step

namespace World

open FileTree

variable {w w' w'' w₁ w₂ : World} {steps more front inside back : List Step} {path : Path}

/-- What commands do to files, in their order. -/
def effects (steps : List Step) : List (Path × FileEffect) := steps.flatMap Step.effects

theorem effects_append (steps more : List Step) :
    effects (steps ++ more) = effects steps ++ effects more :=
  List.flatMap_append

/-- The world as far as commands have changed its files. -/
def changed (w : World) (steps : List Step) : World :=
  { w with files := (effects steps).foldl change w.files }

/-- The way from a world to a later one on which nothing is done but by commands. -/
structure Ran (w : World) (steps : List Step) (w' : World) : Prop where
  passes : w.Passes steps w'
  files : w'.files = (w.changed steps).files
  living : w'.living = w.living
  present : ∀ before s after, steps = before ++ s :: after →
    s.invocation.present = (w.changed before).present

theorem present_congr (hfiles : w.files = w'.files) (hliving : w.living = w'.living) :
    w.present = w'.present := by
  unfold World.present
  rw [hfiles, hliving]

theorem mem_present {content : Bytes} :
    (path, content) ∈ w.present ↔ path ∈ w.living ∧ w.files.get? path = some (.file content) := by
  rw [← read_eq_ok_iff]
  unfold World.present
  rw [List.mem_filterMap]
  constructor
  . rintro ⟨p, hp, heq⟩
    cases hread : w.files.read p with
    | error fault => simp [hread, Except.toOption] at heq
    | ok found =>
      simp only [hread, Except.toOption, Option.map_some, Option.some.injEq, Prod.mk.injEq] at heq
      obtain ⟨rfl, rfl⟩ := heq
      exact ⟨hp, hread⟩
  . rintro ⟨hp, hread⟩
    exact ⟨path, hp, by simp [hread, Except.toOption]⟩

theorem Ran.refl (w : World) : w.Ran [] w where
  passes := .refl w
  files := rfl
  living := rfl
  present before s after h := by simp at h

theorem Ran.changed_eq (h : w.Ran steps w') (more : List Step) :
    (w'.changed more).files = (w.changed (steps ++ more)).files := by
  unfold changed
  dsimp only
  rw [h.files, effects_append, List.foldl_append]
  rfl

theorem Ran.trans (h : w.Ran steps w') (h' : w'.Ran more w'') : w.Ran (steps ++ more) w'' where
  passes := h.passes.trans h'.passes
  files := h'.files.trans (h.changed_eq more)
  living := h'.living.trans h.living
  present before s after heq := by
    have hmore (rest : List Step) (hrest : more = rest ++ s :: after) :
        s.invocation.present = (w.changed (steps ++ rest)).present := by
      rw [h'.present rest s after hrest]
      exact present_congr (h.changed_eq rest) h.living
    rcases List.append_eq_append_iff.1 heq with ⟨rest, rfl, hrest⟩ | ⟨rest, rfl, hrest⟩
    . exact hmore rest hrest
    . cases rest with
      | nil => simpa using hmore [] hrest.symm
      | cons s' rest =>
        obtain ⟨rfl, -⟩ := List.cons.inj hrest
        exact h.present before s rest rfl

/-- Where an operation makes its temporary files. -/
def scratchDirectory (w : World) (directory : Option Path) : Path :=
  w.directory.join (directory.getD w.temporary)

theorem Ran.scratchDirectory_eq (h : w.Ran steps w') (directory : Option Path) :
    w'.scratchDirectory directory = w.scratchDirectory directory := by
  have hplaces := h.passes.places
  obtain ⟨hdirectory, htemporary⟩ := Places.mk.inj hplaces
  rw [scratchDirectory, scratchDirectory, hdirectory, htemporary]

/-- How an operation has gone that may use a temporary file: without one, or by three stretches of
commands, of which those in the middle are run while the file is there. There are none of them only
if the operation has been `refused` the first one. -/
inductive Scoped (w : World) (directory : Path) (scratch : Option Scratch) (refused : Prop)
    (w' : World) : Prop
  | without {steps : List Step} (hran : w.Ran steps w') (havoids : ∀ s ∈ steps, s.Avoids scratch)
  | within {file : Scratch} {n : Nat} {path : Path} {place : List Text}
      {front inside back : List Step} {w₁ w₂ : World} (hfile : scratch = some file)
      (hpath : path = tempPath directory file.suffix n)
      (hfront : w.Ran front w₁) (hfrontAvoids : ∀ s ∈ front, s.Avoids scratch)
      (hplace : w₁.files.place? path = some place) (hfree : w₁.files.node? place = none)
      (hinside : (w₁.withTemp path file.content).Ran inside w₂)
      (hfirst : ∀ s ∈ inside.head?, s.Names path) (hreached : inside = [] → refused)
      (hback : (w₂.withoutTemp path).Ran back w') (hbackAvoids : ∀ s ∈ back, s.Avoids scratch)

section

variable {directory : Path} {scratch : Option Scratch} {refused refused' : Prop}

theorem Scoped.mono (h : w.Scoped directory scratch refused w') (hrefused : refused → refused') :
    w.Scoped directory scratch refused' w' := by
  cases h with
  | without hran havoids => exact .without hran havoids
  | within hfile hpath hfront hfrontAvoids hplace hfree hinside hfirst hreached hback hbackAvoids =>
    exact .within hfile hpath hfront hfrontAvoids hplace hfree hinside hfirst
      (fun hnone => hrefused (hreached hnone)) hback hbackAvoids

theorem Scoped.after (hran : w.Ran steps w') (havoids : ∀ s ∈ steps, s.Avoids scratch)
    (h : w'.Scoped directory scratch refused w'') : w.Scoped directory scratch refused w'' := by
  have hboth {others : List Step} (hothers : ∀ s ∈ others, s.Avoids scratch) :
      ∀ s ∈ steps ++ others, s.Avoids scratch :=
    List.forall_mem_append.2 ⟨havoids, hothers⟩
  cases h with
  | without hmore hmoreAvoids => exact .without (hran.trans hmore) (hboth hmoreAvoids)
  | within hfile hpath hfront hfrontAvoids hplace hfree hinside hfirst hreached hback hbackAvoids =>
    exact .within hfile hpath (hran.trans hfront) (hboth hfrontAvoids) hplace hfree hinside hfirst
      hreached hback hbackAvoids

theorem Scoped.before (h : w.Scoped directory scratch refused w') (hran : w'.Ran steps w'')
    (havoids : ∀ s ∈ steps, s.Avoids scratch) : w.Scoped directory scratch refused w'' := by
  cases h with
  | without hmore hmoreAvoids =>
    exact .without (hmore.trans hran) (List.forall_mem_append.2 ⟨hmoreAvoids, havoids⟩)
  | within hfile hpath hfront hfrontAvoids hplace hfree hinside hfirst hreached hback hbackAvoids =>
    exact .within hfile hpath hfront hfrontAvoids hplace hfree hinside hfirst hreached
      (hback.trans hran) (List.forall_mem_append.2 ⟨hbackAvoids, havoids⟩)

end

/-- The life of a temporary file between two worlds: `front`, `inside` and `back` are the commands
that have been run before, during and after it. -/
structure Lifetime (w : World) (directory : Path) (file : Scratch) (path : Path)
    (front inside back : List Step) (w' : World) : Prop where
  passes : w.Passes (front ++ inside ++ back) w'
  place : ∃ n, path = tempPath directory file.suffix n
  /-- There is nothing at its path before. -/
  fresh : (w.changed front).files.get? path = none
  /-- It is not made before it is needed. -/
  first : ∀ s ∈ inside.head?, s.Names path
  /-- No command is told about it, or about another file of its kind, while it is not there. -/
  unnamed : ∀ s ∈ front ++ back, ∀ n, ¬ s.Names (tempPath directory file.suffix n)
  /-- It is there for a command with what the earlier ones have made of it, unless they have deleted
  it. -/
  there : ∀ before s after, inside = before ++ s :: after → ∀ content,
    (path, content) ∈ s.invocation.present ↔
      w.files.follow path (some file.content) (effects before) = some content
  /-- It is gone afterwards, unless a later command makes a file of its name. -/
  gone : w'.files.get? path = (w.files.follow path none (effects back)).map .file
  /-- All other files are those that the commands leave. -/
  others : ∀ p, w.files.place? p ≠ w.files.place? path →
    w'.files.get? p = (w.changed (front ++ inside ++ back)).files.get? p
  living : w'.living = w.living

/-- An operation that may use a temporary file has never made it, or has made it once, for the time
that it was needed; no command has been run with it only if the operation has been `refused` the
first one. -/
inductive UsesTemp (w : World) (directory : Path) (scratch : Option Scratch) (refused : Prop)
    (w' : World) : Prop
  | never {steps : List Step} (passes : w.Passes steps w')
      (unnamed : ∀ file ∈ scratch, ∀ s ∈ steps, ∀ n, ¬ s.Names (tempPath directory file.suffix n))
      (files : w'.files = (w.changed steps).files) (living : w'.living = w.living)
  | once {file : Scratch} {path : Path} {front inside back : List Step} (isUsed : file ∈ scratch)
      (lifetime : w.Lifetime directory file path front inside back w')
      (reached : inside = [] → refused)

theorem suffix_toText (directory : Path) (suffix : Text) (n : Nat) :
    suffix <:+ (tempPath directory suffix n).toText := by
  have hname : suffix <:+ tempName suffix n := List.suffix_append _ _
  have hjoin := (hname.trans (Text.suffix_join "/" directory.parts _)).trans
    (List.suffix_append directory.root _)
  unfold Path.toText
  split
  . next hnil =>
    rw [tempPath] at hnil
    rw [hnil] at hjoin
    exact List.suffix_nil.1 hjoin ▸ List.nil_suffix
  . exact hjoin

theorem not_names_of_avoids {s : Step} {directory : Path} {file : Scratch}
    {scratch : Option Scratch} (hfile : file ∈ scratch) (h : s.Avoids scratch) (n : Nat) :
    ¬ s.Names (tempPath directory file.suffix n) := by
  rintro ⟨word, hword, hends⟩
  exact h file hfile word hword ((suffix_toText directory file.suffix n).trans hends)

theorem changed_files (w : World) (steps : List Step) :
    (w.changed steps).files = (effects steps).foldl change w.files := rfl

theorem withTemp_files (w : World) (path : Path) (content : Bytes) :
    (w.withTemp path content).files = w.files.change (path, .write content) := rfl

theorem withoutTemp_files (w : World) (path : Path) :
    (w.withoutTemp path).files = w.files.change (path, .remove) := rfl

theorem Ran.sameDirectories (h : w.Ran steps w') : SameDirectories w.files w'.files := by
  rw [h.files]
  exact sameDirectories_changes _ _

theorem passes_withTemp (w : World) (path : Path) (content : Bytes) :
    w.Passes [] (w.withTemp path content) := .of_eq rfl rfl rfl

theorem passes_withoutTemp (w : World) (path : Path) : w.Passes [] (w.withoutTemp path) :=
  .of_eq rfl rfl rfl

/-- A temporary file holds for every command what the earlier ones have made of it. -/
theorem Ran.mem_present_iff {place : List Text} {content : Bytes}
    (h : (w.withTemp path content).Ran steps w') (hplace : w.files.place? path = some place)
    (hfree : w.files.node? place = none) {before after : List Step} {s : Step}
    (heq : steps = before ++ s :: after) (found : Bytes) :
    (path, found) ∈ s.invocation.present ↔
      w.files.follow path (some content) (effects before) = some found := by
  have hsame := sameDirectories_change w.files (path, .write content)
  have hplace' : (w.withTemp path content).files.place? path = some place := by
    rw [withTemp_files, hsame.place?_eq, hplace]
  have hnone : w.files.node? place = Option.map .file none := hfree
  have hnode : (w.withTemp path content).files.node? place = (some content).map .file :=
    node?_change (e := (path, .write content)) hplace hnone
  have hliving : path ∈ (w.withTemp path content).living := List.mem_cons_self
  rw [h.present before s after heq, mem_present, changed_files, get?_changes hplace' hnode,
    withTemp_files, hsame.follow_eq]
  simp [changed, hliving]

theorem Ran.get?_withoutTemp {place : List Text} (h : (w.withoutTemp path).Ran steps w')
    (hplace : w.files.place? path = some place) (hnode : w.files.node? place ≠ some .directory) :
    w'.files.get? path = (w.files.follow path none (effects steps)).map .file := by
  obtain ⟨content, hcontent⟩ := exists_content hnode
  have hsame := sameDirectories_change w.files (path, .remove)
  have hplace' : (w.withoutTemp path).files.place? path = some place := by
    rw [withoutTemp_files, hsame.place?_eq, hplace]
  have hgone : (w.withoutTemp path).files.node? place = Option.map .file none :=
    node?_change (e := (path, .remove)) hplace hcontent
  rw [h.files, changed_files, get?_changes hplace' hgone, withoutTemp_files, hsame.follow_eq]

/-- A temporary file leaves no traces in other files. -/
theorem agreesOff_of_ran {place : List Text} {content : Bytes} (hfront : w.Ran front w₁)
    (hinside : (w₁.withTemp path content).Ran inside w₂) (hback : (w₂.withoutTemp path).Ran back w')
    (hplace : w₁.files.place? path = some place) :
    AgreesOff place (w.changed (front ++ inside ++ back)).files w'.files := by
  have hwhile := agreesOff_while hplace content (effects inside)
  have hremoved : AgreesOff place ((effects inside).foldl change w₁.files)
      (w₂.withoutTemp path).files := by
    rw [withoutTemp_files, hinside.files]
    exact hwhile
  rw [hback.files, changed_files, effects_append, effects_append, List.foldl_append,
    List.foldl_append, ← changed_files, ← hfront.files]
  exact hremoved.changes _

theorem Scoped.usesTemp {directory : Path} {scratch : Option Scratch} {refused : Prop}
    (h : w.Scoped directory scratch refused w') : w.UsesTemp directory scratch refused w' := by
  cases h with
  | without hran havoids =>
    refine .never hran.passes (fun file hfile s hs => ?_) hran.files hran.living
    exact not_names_of_avoids hfile (havoids s hs)
  | @within file n path place front inside back w₁ w₂ hfile hpath hfront hfrontAvoids hplace hfree
      hinside hfirst hreached hback hbackAvoids =>
    have hmade := sameDirectories_change w₁.files (path, .write file.content)
    have hsame : SameDirectories w₁.files w₂.files := hmade.trans hinside.sameDirectories
    have hplace₂ : w₂.files.place? path = some place := by rw [hsame.place?_eq, hplace]
    have hnode₂ : w₂.files.node? place ≠ some .directory := by
      rw [Ne, ← hsame place, hfree]
      nofun
    have hlifetime : w.Lifetime directory file path front inside back w' := by
      refine
        { passes := ?_, place := ⟨n, hpath⟩, fresh := ?_, first := hfirst,
          unnamed := ?_, there := ?_, gone := ?_, others := ?_, living := ?_ }
      . have hpasses := hfront.passes.trans ((passes_withTemp w₁ path file.content).trans
          (hinside.passes.trans ((passes_withoutTemp w₂ path).trans hback.passes)))
        simpa using hpasses
      . rw [← hfront.files, get?_eq, hplace]
        exact hfree
      . intro s hs
        rcases List.mem_append.1 hs with hs | hs
        . exact not_names_of_avoids hfile (hfrontAvoids s hs)
        . exact not_names_of_avoids hfile (hbackAvoids s hs)
      . intro before s after heq found
        rw [hinside.mem_present_iff hplace hfree heq, hfront.sameDirectories.follow_eq]
      . rw [hback.get?_withoutTemp hplace₂ hnode₂, hsame.follow_eq,
          hfront.sameDirectories.follow_eq]
      . intro p hp
        have hplace₀ : w.files.place? path = some place := by
          rw [← hfront.sameDirectories.place?_eq, hplace]
        have hagrees := agreesOff_of_ran hfront hinside hback hplace
        refine hagrees.get?_eq ?_
        rwa [changed_files, (sameDirectories_changes _ _).place?_eq, ← hplace₀]
      . rw [hback.living, withoutTemp, hinside.living, withTemp, hfront.living]
        exact List.erase_cons_head path w.living
    exact .once hfile hlifetime hreached

end World

end Dvcs
