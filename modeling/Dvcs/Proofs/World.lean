import Dvcs.Proofs.FileTree.Effects
import Dvcs.Proofs.Text.Digits
import Dvcs.World
import Mathlib.Data.List.Nodup
import Mathlib.Data.List.Perm.Subperm

/-!
This module contains the life of temporary files: a new one has a name that nothing had before, and
it is gone when the operation that uses it has ended, whatever that operation did to the files.
-/

namespace Dvcs

namespace World

open FileTree Text

/-- The name of a temporary file. -/
def tempName (suffix : Text) (n : Nat) : Text := "repokit-" ++ ofNat n ++ suffix

theorem tempName_injective (suffix : Text) : Function.Injective (tempName suffix) := by
  intro m n h
  unfold tempName at h
  rw [List.append_assoc, List.append_assoc] at h
  have hdigits := List.append_cancel_right (List.append_cancel_left h)
  have hvalues := digitValues?_ofNat m
  rw [hdigits, digitValues?_ofNat n] at hvalues
  rw [← ofDigitValues_toDigits m, ← ofDigitValues_toDigits n, Option.some.inj hvalues]

theorem tempName_ne_parent (suffix : Text) (n : Nat) : tempName suffix n ≠ ".." := by
  intro h
  have hhead : some (Sym.char 'r') = some (Sym.char '.') := congrArg List.head? h
  contradiction

/-- The path of a temporary file. -/
def tempPath (directory : Path) (suffix : Text) (n : Nat) : Path :=
  ⟨directory.root, directory.parts ++ [tempName suffix n]⟩

/-- There are more candidates than entries, so one of the names is free. -/
theorem exists_freshPath {w : World} {directory : Path}
    (h : w.files.isDirectory directory = true) (suffix : Text) :
    ∃ n, w.freshPath directory suffix = tempPath directory suffix n ∧
      w.files.has (tempPath directory suffix n) = false := by
  let candidates := (List.range (w.files.entries.length + 1)).map (tempPath directory suffix)
  have hfresh : w.freshPath directory suffix =
      (candidates.find? fun p => !w.files.has p).getD (tempPath directory suffix 0) := rfl
  cases hfind : candidates.find? fun p => !w.files.has p with
  | some p =>
    obtain ⟨n, _, rfl⟩ := List.mem_map.1 (List.mem_of_find?_eq_some hfind)
    refine ⟨n, ?_, ?_⟩
    . rw [hfresh, hfind]
      rfl
    . simpa using List.find?_some hfind
  | none =>
    obtain ⟨place, hplace⟩ := locate_child h
    let places := (List.range (w.files.entries.length + 1)).map fun n =>
      place ++ [tempName suffix n]
    have hnodup : places.Nodup := by
      refine List.Nodup.map ?_ List.nodup_range
      intro m n heq
      have hname := List.append_cancel_left heq
      exact tempName_injective suffix (List.cons.inj hname).1
    have htaken : places ⊆ w.files.entries.map (·.1) := by
      intro there hthere
      obtain ⟨n, hn, rfl⟩ := List.mem_map.1 hthere
      have hcandidate : tempPath directory suffix n ∈ candidates := List.mem_map.2 ⟨n, hn, rfl⟩
      have hhas : w.files.has (tempPath directory suffix n) = true := by
        simpa using List.find?_eq_none.1 hfind _ hcandidate
      exact mem_of_has (hplace _ (tempName_ne_parent suffix n)) (by simp) hhas
    have hlength := (hnodup.subperm htaken).length_le
    simp only [places, List.length_map, List.length_range] at hlength
    omega

/-- Whether temporary files can be made in a directory. -/
structure TakesFiles (w : World) (directory : Option Path) : Prop where
  isDirectory : w.files.isDirectory (w.directory.join (directory.getD w.temporary)) = true
  legal : Op.holdsNull (w.directory.join (directory.getD w.temporary)) = false

theorem mem_join_null {ts : List Text} :
    .char '\x00' ∈ join "/" ts ↔ ∃ t ∈ ts, .char '\x00' ∈ t := by
  have hslash : Sym.char '\x00' ∉ ("/" : Text) := by decide
  induction ts with
  | nil => simp [join]
  | cons t ts ih =>
    cases ts with
    | nil => simp [join]
    | cons u us =>
      have hjoin : join "/" (t :: u :: us) = t ++ "/" ++ join "/" (u :: us) := by
        simp [join, List.intercalate, List.intersperse]
      rw [hjoin, List.mem_append, List.mem_append, List.exists_mem_cons_iff]
      simp only [hslash, or_false]
      exact or_congr_right ih

/-- The null characters of a path are those of its parts. -/
theorem holdsNull_iff {p : Path} : Op.holdsNull p = true ↔
    .char '\x00' ∈ p.root ∨ ∃ part ∈ p.parts, .char '\x00' ∈ part := by
  have htext : .char '\x00' ∈ p.toText ↔ .char '\x00' ∈ p.root ++ join "/" p.parts := by
    unfold Path.toText
    split
    . next hnil =>
      rw [hnil]
      decide
    . exact Iff.rfl
  unfold Op.holdsNull
  rw [List.contains_iff_mem, htext, List.mem_append, mem_join_null]

theorem holdsNull_tempPath {directory : Path} {suffix : Text}
    (h : Op.holdsNull directory = false) (hsuffix : .char '\x00' ∉ suffix) (n : Nat) :
    Op.holdsNull (tempPath directory suffix n) = false := by
  have hname : .char '\x00' ∉ tempName suffix n := by
    simp only [tempName, List.mem_append, not_or]
    refine ⟨⟨by decide, fun hmem => ?_⟩, hsuffix⟩
    obtain ⟨c, heq, hc⟩ := isDigit_of_mem_ofNat hmem
    cases heq
    contradiction
  rw [Bool.eq_false_iff, Ne, holdsNull_iff] at h ⊢
  rintro (hroot | ⟨part, hpart, hnull⟩)
  . exact h (.inl hroot)
  . rcases List.mem_append.1 hpart with hpart | hpart
    . exact h (.inr ⟨part, hpart, hnull⟩)
    . exact hname (List.mem_singleton.1 hpart ▸ hnull)

/-- The world with a new temporary file. -/
def withTemp (w : World) (path : Path) (content : Bytes) : World :=
  { w with
    files := w.files.change (path, .write content)
    living := path :: w.living }

theorem withTemp_eq {w : World} {path : Path} {place : List Text}
    (hplace : w.files.locate path = .ok place) (hnode : w.files.node? place ≠ some .directory)
    (content : Bytes) :
    w.withTemp path content =
      { w with files := w.files.set place (.file content), living := path :: w.living } := by
  rw [withTemp, change, write_eq_ok hplace hnode]
  rfl

/-- The world while the temporary file at `path` is in use. -/
structure Holds (w : World) (path : Path) (content : Bytes) (w' : World) : Prop where
  eq : w' = { w with files := w'.files, living := path :: w.living }
  same : SameDirectories w.files w'.files
  fresh : w.files.has path = false
  read : w'.files.read path = .ok content
  /-- Whatever is done to single files, the file can be deleted in the end. -/
  closes : ∀ w'' : World, SameDirectories w'.files w''.files →
    Op.discardTemp path w'' = .ok () (w''.withoutTemp path)
  /-- The path is free after that. -/
  free : ∀ w'' : World, SameDirectories w'.files w''.files →
    (w''.withoutTemp path).files.has path = false

theorem Holds.log_eq {w w' : World} {path : Path} {content : Bytes}
    (h : w.Holds path content w') : w'.log = w.log := by
  rw [h.eq]

theorem Holds.responses_eq {w w' : World} {path : Path} {content : Bytes}
    (h : w.Holds path content w') : w'.responses = w.responses := by
  rw [h.eq]

/-- If all other temporary files are left alone, those from before are left at the end. -/
theorem Holds.living_withoutTemp {w w' w'' : World} {path : Path} {content : Bytes}
    (h : w.Holds path content w') (hliving : w''.living = w'.living) :
    (w''.withoutTemp path).living = w.living := by
  rw [World.withoutTemp, hliving, h.eq]
  exact List.erase_cons_head path w.living

/-- A temporary file can be deleted as long as there is no directory in its place. -/
theorem discardTemp_eq {w : World} {path : Path} {place : List Text}
    (hplace : w.files.locate path = .ok place) (hnode : w.files.node? place ≠ some .directory) :
    Op.discardTemp path w = .ok () (w.withoutTemp path) := by
  obtain ⟨content, hcontent⟩ := exists_content hnode
  unfold Op.discardTemp
  cases content with
  | none => rw [unlink_of_missing hplace hcontent]
  | some content => rw [unlink_eq_ok hplace hcontent]

theorem holds_of_fresh {w : World} {path : Path} {place : List Text}
    (hplace : w.files.locate path = .ok place) (hfree : w.files.has path = false)
    (content : Bytes) : w.Holds path content (w.withTemp path content) := by
  have hnode : w.files.node? place ≠ some .directory := by
    rw [node?_of_not_has hplace hfree]
    nofun
  have hfile := node?_set w.files (.file content) (ne_nil_of_node? hnode)
  have hsame := sameDirectories_set hnode content
  have hlater {w'' : World}
      (hsame' : SameDirectories (w.files.set place (.file content)) w''.files) :
      w''.files.locate path = .ok place ∧ w''.files.node? place ≠ some .directory := by
    refine ⟨hsame'.locate (hsame.locate hplace), fun hdirectory => ?_⟩
    rw [← hsame' place] at hdirectory
    rw [hfile] at hdirectory
    cases hdirectory
  rw [withTemp_eq hplace hnode]
  refine ⟨rfl, hsame, hfree, ?_, ?_, ?_⟩
  . unfold FileTree.read
    dsimp only
    rw [hsame.locate hplace]
    simp only [bind, Except.bind, hfile]
    rfl
  . exact fun w'' hsame' => discardTemp_eq (hlater hsame').1 (hlater hsame').2
  . exact fun w'' hsame' => not_has_unlink (hlater hsame').1 (hlater hsame').2

end World

namespace Op

open FileTree World

theorem bind_of_ok {α β : Type} {p : Op α} {f : α → Op β} {w w' : World} {a : α}
    (h : p w = .ok a w') : (p >>= f) w = f a w' := by
  simp [bind, EStateM.bind, h]

theorem bind_of_error {α β : Type} {p : Op α} {f : α → Op β} {w w' : World} {e : Error}
    (h : p w = .error e w') : (p >>= f) w = .error e w' := by
  simp [bind, EStateM.bind, h]

theorem bind_of_eq {α β : Type} {p : Op α} {f : α → Op β} {w w' : World} (h : p w = p w') :
    (p >>= f) w = (p >>= f) w' := by
  dsimp only [bind, EStateM.bind]
  rw [h]

theorem writeFile_of_legal {p : Path} (hlegal : holdsNull p = false) (content : Bytes) (w : World) :
    writeFile p content w =
      (ofFault p (w.files.write p content) >>= fun files =>
        modify fun w => { w with files := files }) w := by
  unfold writeFile changeFiles
  simp only [hlegal]
  rfl

theorem writeFile_eq {w : World} {p : Path} {place : List Text} (hlegal : holdsNull p = false)
    (hplace : w.files.locate p = .ok place) (hnode : w.files.node? place ≠ some .directory)
    (content : Bytes) :
    writeFile p content w = .ok () { w with files := w.files.set place (.file content) } := by
  rw [writeFile_of_legal hlegal, write_eq_ok hplace hnode]
  rfl

theorem withTempFile_of_writeFile {α : Type} {w w' : World} {directory : Option Path}
    {suffix : Text} {content : Bytes} {path : Path}
    (hpath : w.freshPath (w.directory.join (directory.getD w.temporary)) suffix = path)
    (hwrite : writeFile path content w = .ok () w') (use : Path → Op α) :
    withTempFile directory suffix content use w =
      match use path { w' with living := path :: w'.living } with
      | .ok a w'' => (do discardTemp path; return a : Op α) w''
      | .error e w'' => (do discardTemp path; throw e : Op α) w'' := by
  subst hpath
  have hget : (get : Op World) w = .ok w w := rfl
  unfold withTempFile
  rw [bind_of_ok hget, bind_of_ok hwrite]
  rfl

theorem withTempFile_of_writeFile_error {α : Type} {w w' : World} {directory : Option Path}
    {suffix : Text} {content : Bytes} {path : Path} {e : Error}
    (hpath : w.freshPath (w.directory.join (directory.getD w.temporary)) suffix = path)
    (hwrite : writeFile path content w = .error e w') (use : Path → Op α) :
    withTempFile directory suffix content use w = .error e w' := by
  subst hpath
  have hget : (get : Op World) w = .ok w w := rfl
  unfold withTempFile
  rw [bind_of_ok hget]
  dsimp only [bind, EStateM.bind]
  rw [hwrite]

theorem withTempFile_of_takesFiles {α : Type} {w : World} {directory : Option Path}
    (h : w.TakesFiles directory) {suffix : Text} (hsuffix : .char '\x00' ∉ suffix)
    (content : Bytes) (use : Path → Op α) :
    ∃ n path place,
      path = tempPath (w.directory.join (directory.getD w.temporary)) suffix n ∧
      w.files.locate path = .ok place ∧ w.files.has path = false ∧
      withTempFile directory suffix content use w =
        match use path (w.withTemp path content) with
        | .ok a w' => (do discardTemp path; return a : Op α) w'
        | .error e w' => (do discardTemp path; throw e : Op α) w' := by
  obtain ⟨n, hpath, hfree⟩ := exists_freshPath h.isDirectory suffix
  obtain ⟨parent, hparent⟩ := locate_child h.isDirectory
  have hlegal := holdsNull_tempPath h.legal hsuffix n
  have hplace : w.files.locate
      (tempPath (w.directory.join (directory.getD w.temporary)) suffix n) =
        .ok (parent ++ [tempName suffix n]) := hparent _ (tempName_ne_parent suffix n)
  have hnode : w.files.node? (parent ++ [tempName suffix n]) ≠ some .directory := by
    rw [node?_of_not_has hplace hfree]
    nofun
  refine ⟨n, _, _, rfl, hplace, hfree, ?_⟩
  rw [withTemp_eq hplace hnode]
  exact withTempFile_of_writeFile hpath (writeFile_eq hlegal hplace hnode content) use

/-- What an operation gives, and the world that it leaves behind. -/
def perform {α : Type} (p : Op α) (w : World) : Except Error α × World :=
  match p w with
  | .ok a w' => (.ok a, w')
  | .error e w' => (.error e, w')

/-- The temporary file of an operation that changes no directories can be deleted after it. -/
theorem withTempFile_eq {α : Type} {w : World} {directory : Option Path}
    (h : w.TakesFiles directory) {suffix : Text} (hsuffix : .char '\x00' ∉ suffix)
    (content : Bytes) (use : Path → Op α)
    (hsame : ∀ path w, SameDirectories w.files ((use path).perform w).2.files) :
    ∃ path w', holdsNull path = false ∧ w.Holds path content w' ∧
      withTempFile directory suffix content use w =
        match use path w' with
        | .ok a w'' => .ok a (w''.withoutTemp path)
        | .error e w'' => .error e (w''.withoutTemp path) := by
  obtain ⟨n, path, _, hpath, hplace, hfree, hrun⟩ :=
    withTempFile_of_takesFiles h hsuffix content use
  have hholds := holds_of_fresh hplace hfree content
  have hlegal : holdsNull path = false := hpath ▸ holdsNull_tempPath h.legal hsuffix n
  refine ⟨_, _, hlegal, hholds, ?_⟩
  have hcloses := hholds.closes _ (hsame path _)
  rw [hrun]
  unfold perform at hcloses
  cases hresult : use path (w.withTemp path content) with
  | ok a w'' =>
    rw [hresult] at hcloses
    exact bind_of_ok hcloses
  | error e w'' =>
    rw [hresult] at hcloses
    exact bind_of_ok hcloses

/-- What a command with some arguments does to the world, `handle` being how its use left it. -/
structure Runs (arguments : List Text) (handle : Handle) (w w' : World) (invocation : Invocation) :
    Prop where
  log : w'.log = .command invocation :: w.log
  responses : w'.responses = w.responses.tail
  living : w'.living = w.living
  same : SameDirectories w.files w'.files
  command : invocation.command = arguments
  terminated : invocation.terminated = handle.terminated
  reaped : invocation.reaped = handle.reaped

section Command

variable {α : Type} {directory : Path} {arguments : List Text}

/-- A command with words that the system cannot be given is not run. -/
theorem command_of_not_isPassable (h : isPassable directory arguments = false) (mode : Mode)
    (environment : Environment) (use : Handle → α × Handle) (w : World) :
    command mode directory environment arguments use w = .error .nullCharacter w := by
  unfold command
  rw [h]
  rfl

theorem command_of_isPassable (h : isPassable directory arguments = true) (mode : Mode)
    (environment : Environment) (use : Handle → α × Handle) :
    command mode directory environment arguments use =
      runCommand mode directory environment arguments use := by
  unfold command
  rw [if_pos h]

theorem command_eq (h : isPassable directory arguments = true) (mode : Mode)
    (environment : Environment) (use : Handle → α × Handle) (w : World) :
    ∃ w' invocation,
      command mode directory environment arguments use w =
        .ok (use (Handle.start mode arguments (w.responses.headD {}))).1 w' ∧
      Runs arguments (use (Handle.start mode arguments (w.responses.headD {}))).2 w w'
        invocation := by
  rw [command_of_isPassable h]
  exact ⟨_, _, rfl, rfl, rfl, rfl, sameDirectories_changes _ _, rfl, rfl, rfl⟩

/-- A command changes no directories, whether it is run or not. -/
theorem sameDirectories_command (mode : Mode) (directory : Path) (environment : Environment)
    (arguments : List Text) (use : Handle → α × Handle) (w : World) :
    SameDirectories w.files
      ((command mode directory environment arguments use).perform w).2.files := by
  unfold perform
  cases hpassable : isPassable directory arguments with
  | false =>
    rw [command_of_not_isPassable hpassable]
    exact .refl _
  | true =>
    obtain ⟨w', _, heq, hruns⟩ := command_eq hpassable mode environment use w
    rw [heq]
    exact hruns.same

end Command

end Op

end Dvcs
