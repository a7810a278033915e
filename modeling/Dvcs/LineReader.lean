import Dvcs.ReadError

/-!
This module contains the reader that all parsers of tool output share: the lines still to come, with
one line of look-ahead and a position counter. `Reading` is the type of the parsers. A parser leaves
the reader behind where it stopped, after an error as well.
-/

namespace Dvcs

structure LineReader where
  /-- The lines that are not consumed yet. -/
  rest : List Text
  /-- How many lines have been consumed. -/
  lineNumber : Nat := 0
  /-- Whether the next line has been drawn from the source to look at it. -/
  looked : Bool := false
deriving DecidableEq, Repr

/-- A parser of lines. -/
abbrev Reading := EStateM ReadError LineReader

namespace LineReader

def ofLines (ls : List Text) : LineReader := { rest := ls }

/-- The next line without consuming it. -/
def peek (r : LineReader) : Option Text × LineReader := (r.rest.head?, { r with looked := true })

/-- Consumes the next line; nothing happens at the end. -/
def next (r : LineReader) : Option Text × LineReader :=
  match r.rest with
  | [] => (none, { r with looked := false })
  | line :: rest => (some line, ⟨rest, r.lineNumber + 1, false⟩)

def atEnd (r : LineReader) : Bool × LineReader := (r.rest.isEmpty, { r with looked := true })

/-- Consumes all lines. -/
def drain (r : LineReader) : List Text × LineReader :=
  (r.rest, ⟨[], r.lineNumber + r.rest.length, false⟩)

/-- How many lines have been drawn from the source. -/
def drawn (r : LineReader) : Nat :=
  if r.looked && !r.rest.isEmpty then r.lineNumber + 1 else r.lineNumber

end LineReader

namespace Reading

/-- The next line, consumed. -/
def next : Reading (Option Text) := fun r =>
  match r.next with
  | (line, r) => .ok line r

def lineNumber : Reading Nat := fun r => .ok r.lineNumber r

def atEnd : Reading Bool := fun r =>
  match r.atEnd with
  | (b, r) => .ok b r

/-- A parser that never gives lines back. -/
def Advances (p : Reading α) : Prop :=
  ∀ r a r', p r = .ok a r' → r'.rest.length ≤ r.rest.length

/-- A parser that consumes a line whenever it succeeds. -/
def Consumes (p : Reading α) : Prop :=
  ∀ r a r', p r = .ok a r' → r'.rest.length < r.rest.length

theorem Consumes.advances {p : Reading α} (h : Consumes p) : Advances p :=
  fun r a r' hp => Nat.le_of_lt (h r a r' hp)

theorem advances_pure (a : α) : Advances (pure a) := by
  intro r a r' h
  cases h
  exact Nat.le_refl _

theorem advances_throw (e : ReadError) : Advances (throw e : Reading α) := by
  intro r a r' h
  cases h

theorem bind_eq_ok {p : Reading α} {f : α → Reading β} {r r'' : LineReader} {b : β}
    (h : (p >>= f) r = .ok b r'') : ∃ a r', p r = .ok a r' ∧ f a r' = .ok b r'' := by
  simp only [bind, EStateM.bind] at h
  split at h
  · exact ⟨_, _, by assumption, h⟩
  · simp at h

theorem Advances.bind {p : Reading α} {f : α → Reading β} (hp : Advances p)
    (hf : ∀ a, Advances (f a)) : Advances (p >>= f) := by
  intro r b r'' h
  obtain ⟨a, r', h₁, h₂⟩ := bind_eq_ok h
  exact Nat.le_trans (hf _ _ _ _ h₂) (hp _ _ _ h₁)

theorem Consumes.bind {p : Reading α} {f : α → Reading β} (hp : Consumes p)
    (hf : ∀ a, Advances (f a)) : Consumes (p >>= f) := by
  intro r b r'' h
  obtain ⟨a, r', h₁, h₂⟩ := bind_eq_ok h
  exact Nat.lt_of_le_of_lt (hf _ _ _ _ h₂) (hp _ _ _ h₁)

theorem advances_lineNumber : Advances lineNumber := by
  intro r a r' h
  cases h
  exact Nat.le_refl _

theorem advances_next : Advances next := by
  intro r a r' h
  cases hr : r.rest with
  | nil =>
    simp only [next, LineReader.next, hr] at h
    cases h
    simp
  | cons line rest =>
    simp only [next, LineReader.next, hr] at h
    cases h
    simp

end Reading

/-- What came of reading items one after the other: the items before the end or the first one that
could not be read, and the error in that case. -/
structure Items (α : Type) where
  items : List α
  error : Option ReadError := none
  reader : LineReader

/-- Reads items to the end of the input. -/
def Reading.many (p : Reading α) (h : p.Consumes) (r : LineReader) : Items α :=
  match r.rest with
  | [] => { items := [], reader := { r with looked := true } }
  | _ :: _ =>
    match _h : p r with
    | .error e r => { items := [], error := some e, reader := r }
    | .ok a r' =>
      let more := many p h r'
      { more with items := a :: more.items }
termination_by r.rest.length
decreasing_by exact h _ _ _ _h

end Dvcs
