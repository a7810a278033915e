import Dvcs.Path
import Dvcs.Process

/-!
This module contains a tree of files and directories. A place in it is the list of the names that
lead there; the empty list is the root, which is always there.
-/

namespace Dvcs

/-- What stands at a place. -/
inductive Node where
  | file (content : Bytes)
  | directory
deriving DecidableEq, Repr

structure FileTree where
  /-- The places below the root and what stands there, sorted in no way. -/
  entries : List (List Text × Node) := []
deriving DecidableEq, Repr

namespace FileTree

/-- The codes of the faults that an operation on files can end with. -/
inductive Fault where
  | noEntry
  | present
  | notDirectory
  | isDirectory
deriving DecidableEq, Repr

namespace Fault

def code : Fault → Nat
  | noEntry => 2
  | present => 17
  | notDirectory => 20
  | isDirectory => 21

end Fault

def node? (t : FileTree) (place : List Text) : Option Node :=
  if place = [] then some .directory else t.entries.lookup place

def set (t : FileTree) (place : List Text) (node : Node) : FileTree :=
  ⟨(place, node) :: t.entries.filter fun entry => entry.1 ≠ place⟩

def erase (t : FileTree) (place : List Text) : FileTree :=
  ⟨t.entries.filter fun entry => entry.1 ≠ place⟩

/-- Follows names from a directory. A name other than the last has to be that of a directory. -/
def walk (t : FileTree) : (place names : List Text) → Except Fault (List Text)
  | place, [] => .ok place
  | place, name :: names =>
    match t.node? place with
    | none => .error .noEntry
    | some (.file _) => .error .notDirectory
    | some .directory => walk t (if name = ".." then place.dropLast else place ++ [name]) names

/-- The place that a path leads to; there need not be anything. -/
def locate (t : FileTree) (p : Path) : Except Fault (List Text) := t.walk [] p.parts

/-- What a path leads to. -/
def get? (t : FileTree) (p : Path) : Option Node := (t.locate p).toOption.bind t.node?

def has (t : FileTree) (p : Path) : Bool := (t.get? p).isSome

def isDirectory (t : FileTree) (p : Path) : Bool := t.get? p == some .directory

def read (t : FileTree) (p : Path) : Except Fault Bytes := do
  match t.node? (← t.locate p) with
  | some (.file content) => return content
  | some .directory => throw .isDirectory
  | none => throw .noEntry

def write (t : FileTree) (p : Path) (content : Bytes) : Except Fault FileTree := do
  let place ← t.locate p
  match t.node? place with
  | some .directory => throw .isDirectory
  | _ => return t.set place (.file content)

/-- Deletes a file. -/
def unlink (t : FileTree) (p : Path) : Except Fault FileTree := do
  let place ← t.locate p
  match t.node? place with
  | some (.file _) => return t.erase place
  | some .directory => throw .isDirectory
  | none => throw .noEntry

/-- The files after an effect on one of them, as far as the system lets it happen. -/
def change (t : FileTree) : Path × FileEffect → FileTree
  | (_, .keep) => t
  | (p, .write content) => (t.write p content).toOption.getD t
  | (p, .remove) => (t.unlink p).toOption.getD t

/-- Makes the directories from `place` on, one inside the other. -/
def makeFrom (t : FileTree) : (place names : List Text) → Except Fault FileTree
  | place, [] =>
    match t.node? place with
    | some .directory => .ok t
    | some (.file _) => .error .present
    | none => .ok (t.set place .directory)
  | place, name :: names =>
    match t.node? place with
    | some (.file _) => .error .notDirectory
    | some .directory => makeFrom t (if name = ".." then place.dropLast else place ++ [name]) names
    | none =>
      makeFrom (t.set place .directory)
        (if name = ".." then place.dropLast else place ++ [name]) names

/-- Makes a directory and those it is in, as far as they are missing. -/
def makeDirectory (t : FileTree) (p : Path) : Except Fault FileTree := t.makeFrom [] p.parts

/-- Deletes a directory with everything in it. -/
def remove (t : FileTree) (p : Path) : Except Fault FileTree := do
  let place ← t.locate p
  match t.node? place with
  | some .directory => return ⟨t.entries.filter fun entry => !place.isPrefixOf entry.1⟩
  | some (.file _) => throw .notDirectory
  | none => throw .noEntry

theorem node?_set (t : FileTree) {place : List Text} (node : Node) (h : place ≠ []) :
    (t.set place node).node? place = some node := by
  simp [set, node?, h]

theorem lookup_filter_ne {α β : Type} [DecidableEq α] [BEq α] [LawfulBEq α] {key other : α}
    (h : other ≠ key) (entries : List (α × β)) :
    (entries.filter fun entry => entry.1 ≠ key).lookup other = entries.lookup other := by
  induction entries with
  | nil => rfl
  | cons entry entries ih =>
    obtain ⟨name, value⟩ := entry
    by_cases hk : name = key
    · subst hk
      have : (other == name) = false := by simpa using h
      simpa [List.lookup_cons, this] using ih
    · by_cases ho : other == name
      · simp [hk, List.lookup_cons, ho]
      · simp only [Bool.not_eq_true] at ho
        simpa [hk, List.lookup_cons, ho] using ih

theorem node?_set_of_ne (t : FileTree) {place other : List Text} (node : Node) (h : other ≠ place) :
    (t.set place node).node? other = t.node? other := by
  have hb : (other == place) = false := by simpa using h
  have := lookup_filter_ne h t.entries
  simp only [set, node?, List.lookup_cons, hb]
  rw [this]

theorem node?_erase_of_ne (t : FileTree) {place other : List Text} (h : other ≠ place) :
    (t.erase place).node? other = t.node? other := by
  have := lookup_filter_ne h t.entries
  simp_all [erase, node?]

end FileTree

end Dvcs
