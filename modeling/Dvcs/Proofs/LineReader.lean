import Dvcs.LineReader

/-!
This module contains what parsers of lines have in common: they take lines off the front, count
them, and depend on the position and on the lines behind what they read in a simple way.
-/

namespace Dvcs

instance decEqResult {ε σ α : Type} [DecidableEq ε] [DecidableEq σ] [DecidableEq α] :
    DecidableEq (EStateM.Result ε σ α)
  | .ok a s, .ok b t => decidable_of_iff (a = b ∧ s = t) (by simp)
  | .error e s, .error f t => decidable_of_iff (e = f ∧ s = t) (by simp)
  | .ok .., .error .. => isFalse (by simp)
  | .error .., .ok .. => isFalse (by simp)

namespace LineReader

/-- A reader that comes out of another one by taking lines off the front. -/
def Reaches (r r' : LineReader) : Prop :=
  ∃ taken, r.rest = taken ++ r'.rest ∧ r'.lineNumber = r.lineNumber + taken.length

theorem Reaches.of_rest_eq {r r' : LineReader} (hrest : r'.rest = r.rest)
    (hnumber : r'.lineNumber = r.lineNumber) : r.Reaches r' :=
  ⟨[], by simp [hrest], by simp [hnumber]⟩

theorem Reaches.trans {r r' r'' : LineReader} (h : r.Reaches r') (h' : r'.Reaches r'') :
    r.Reaches r'' := by
  obtain ⟨taken, hrest, hnumber⟩ := h
  obtain ⟨taken', hrest', hnumber'⟩ := h'
  refine ⟨taken ++ taken', ?_, ?_⟩
  . rw [hrest, hrest', List.append_assoc]
  . rw [hnumber', hnumber, List.length_append, Nat.add_assoc]

theorem Reaches.cons {line : Text} {rest : List Text} {n : Nat} {looked looked' : Bool}
    {r : LineReader} (h : Reaches ⟨rest, n + 1, looked⟩ r) :
    Reaches ⟨line :: rest, n, looked'⟩ r := by
  obtain ⟨taken, hrest, hnumber⟩ := h
  refine ⟨line :: taken, congrArg (line :: ·) hrest, ?_⟩
  rw [hnumber, List.length_cons, Nat.add_assoc, Nat.add_comm 1]

theorem Reaches.drop (line : Text) (rest : List Text) (n : Nat) (looked looked' : Bool) :
    Reaches ⟨line :: rest, n, looked⟩ ⟨rest, n + 1, looked'⟩ :=
  ⟨[line], rfl, rfl⟩

theorem Reaches.mem {r r' : LineReader} (h : r.Reaches r') {line : Text} (hline : line ∈ r'.rest) :
    line ∈ r.rest := by
  obtain ⟨taken, hrest, _⟩ := h
  rw [hrest]
  exact List.mem_append_right taken hline

theorem Reaches.lineNumber_of_rest_nil {r r' : LineReader} (h : r.Reaches r')
    (hrest : r'.rest = []) : r'.lineNumber = r.lineNumber + r.rest.length := by
  obtain ⟨taken, heq, hnumber⟩ := h
  rw [hnumber, heq, hrest, List.append_nil]

/-- The number of one of the lines to come, or of the line that is missing behind the last one. -/
def Covers (r : LineReader) (n : Nat) : Prop :=
  r.lineNumber < n ∧ n ≤ r.lineNumber + r.rest.length + 1

theorem covers_next (r : LineReader) : r.Covers (r.lineNumber + 1) := by
  unfold Covers
  omega

theorem Reaches.covers {r r' : LineReader} (h : r.Reaches r') {n : Nat} (hn : r'.Covers n) :
    r.Covers n := by
  obtain ⟨taken, hrest, hnumber⟩ := h
  unfold Covers at hn ⊢
  rw [hrest, List.length_append]
  omega

/-- A reader that comes out of another one by taking at least one line off the front. -/
def Passes (r r' : LineReader) : Prop := r.Reaches r' ∧ r.lineNumber < r'.lineNumber

theorem Passes.trans_reaches {r r' r'' : LineReader} (h : r.Passes r') (h' : r'.Reaches r'') :
    r.Passes r'' := by
  refine ⟨h.1.trans h', ?_⟩
  obtain ⟨taken, _, hnumber⟩ := h'
  have := h.2
  omega

theorem Passes.covers {r r' : LineReader} (h : r.Passes r') : r.Covers r'.lineNumber := by
  obtain ⟨⟨taken, hrest, hnumber⟩, hlt⟩ := h
  unfold Covers
  rw [hrest, List.length_append]
  omega

/-- A reader with more lines behind. -/
def append (r : LineReader) (ls : List Text) : LineReader := { r with rest := r.rest ++ ls }

/-- A reader of which `k` more lines have been consumed already. -/
def shift (k : Nat) (r : LineReader) : LineReader := { r with lineNumber := r.lineNumber + k }

end LineReader

/-- An error that is reported `k` lines further down. -/
def ReadError.shift (k : Nat) : ReadError → ReadError
  | .diff line fault => .diff (line + k) fault
  | .record line fault => .record (line + k) fault
  | e => e

/-- An outcome `k` lines further down. -/
def Reading.shift (k : Nat) :
    EStateM.Result ReadError LineReader α → EStateM.Result ReadError LineReader α
  | .ok a r => .ok a (r.shift k)
  | .error e r => .error (e.shift k) (r.shift k)

namespace Reading

theorem bind_of_ok {α β : Type} {p : Reading α} {f : α → Reading β} {r r' : LineReader} {a : α}
    (h : p r = .ok a r') : (p >>= f) r = f a r' := by
  simp [bind, EStateM.bind, h]

theorem many_of_rest_nil {α : Type} (p : Reading α) (h : p.Consumes) (n : Nat) (looked : Bool) :
    many p h ⟨[], n, looked⟩ = { items := [], reader := ⟨[], n, true⟩ } := by
  rw [many]

theorem many_of_ok {α : Type} {p : Reading α} (h : p.Consumes) {r r' : LineReader} {a : α}
    (hp : p r = .ok a r') :
    many p h r = { many p h r' with items := a :: (many p h r').items } := by
  have hlength := h r a r' hp
  rw [many]
  split
  . next hr => simp [hr] at hlength
  . split
    . next heq => simp [heq] at hp
    . next heq =>
      rw [heq] at hp
      cases hp
      rfl

theorem many_flatMap {α : Type} {p : Reading α} (h : p.Consumes) {encode : α → List Text}
    (fit : List Text → Prop) (hfit : ∀ as : List α, fit (as.flatMap encode)) {as : List α}
    (hread : ∀ a ∈ as, ∀ more, fit more → ∀ n looked, ∃ looked',
      p ⟨encode a ++ more, n, looked⟩ = .ok a ⟨more, n + (encode a).length, looked'⟩)
    (n : Nat) (looked : Bool) :
    many p h ⟨as.flatMap encode, n, looked⟩ =
      { items := as, reader := ⟨[], n + (as.flatMap encode).length, true⟩ } := by
  -- `fit` is what the reading of an item needs of the lines behind it: all later items have it
  induction as generalizing n looked with
  | nil => exact many_of_rest_nil p h n looked
  | cons a as ih =>
    rw [List.forall_mem_cons] at hread
    obtain ⟨looked', hp⟩ := hread.1 (as.flatMap encode) (hfit as) n looked
    rw [List.flatMap_cons, many_of_ok h hp, ih hread.2]
    rw [List.length_append, Nat.add_assoc]

/-- What comes out of reading items one after the other: those in front of the end of the input, or
of the first one that cannot be read, and then the reason for that. -/
inductive Yields {α : Type} (p : Reading α) : LineReader → List α → Option ReadError → Prop
  | done {r : LineReader} (hr : r.rest = []) : Yields p r [] none
  | failed {r r' : LineReader} {e : ReadError} (hr : r.rest ≠ []) (h : p r = .error e r') :
    Yields p r [] (some e)
  | item {r r' : LineReader} {a : α} {as : List α} {ending : Option ReadError} (hr : r.rest ≠ [])
    (h : p r = .ok a r') (hmore : Yields p r' as ending) : Yields p r (a :: as) ending

theorem many_of_error {α : Type} {p : Reading α} (h : p.Consumes) {r r' : LineReader}
    {e : ReadError} (hr : r.rest ≠ []) (hp : p r = .error e r') :
    many p h r = { items := [], error := some e, reader := r' } := by
  rw [many]
  split
  . next heq => exact absurd heq hr
  . split
    . next heq =>
      rw [heq] at hp
      cases hp
      rfl
    . next heq => simp [heq] at hp

theorem Yields.many_eq {α : Type} {p : Reading α} (h : p.Consumes) {r : LineReader} {as : List α}
    {ending : Option ReadError} (hyields : Yields p r as ending) :
    (many p h r).items = as ∧ (many p h r).error = ending := by
  induction hyields with
  | @done r hr =>
    obtain ⟨ls, n, looked⟩ := r
    obtain rfl : ls = [] := hr
    rw [many_of_rest_nil]
    exact ⟨rfl, rfl⟩
  | failed hr hp =>
    rw [many_of_error h hr hp]
    exact ⟨rfl, rfl⟩
  | item hr hp hmore ih =>
    rw [many_of_ok h hp]
    exact ⟨congrArg _ ih.1, ih.2⟩

theorem yields_many {α : Type} {p : Reading α} (h : p.Consumes) (r : LineReader) :
    Yields p r (many p h r).items (many p h r).error := by
  fun_induction many p h r with
  | case1 r hr => exact .done hr
  | case2 r line rest hr e r' hp => exact .failed (by simp [hr]) hp
  | case3 r line rest hr a r' hp more ih => exact .item (by simp [hr]) hp ih

section Blame

variable {α β : Type} {r : LineReader} {blames blames' : ReadError → Prop}

/-- What comes of parsing the lines of `r`: at least one of them is consumed and the value is
`good`, or the error is one of those that `blames` allows. -/
def Outcome (r : LineReader) (blames : ReadError → Prop) (good : α → Prop) :
    EStateM.Result ReadError LineReader α → Prop
  | .ok a r' => r.Passes r' ∧ good a
  | .error e _ => blames e

/-- A parser that keeps to the lines of `r` wherever it starts in them. -/
def Begins (r : LineReader) (blames : ReadError → Prop) (p : Reading α) (good : α → Prop) : Prop :=
  ∀ r', r.Reaches r' → Outcome r blames good (p r')

/-- A parser that keeps to the lines of `r` wherever it starts behind the first of them. -/
def Continues (r : LineReader) (blames : ReadError → Prop) (p : Reading α) (good : α → Prop) :
    Prop :=
  ∀ r', r.Passes r' → Outcome r blames good (p r')

theorem Begins.continues {p : Reading α} {good : α → Prop} (h : Begins r blames p good) :
    Continues r blames p good :=
  fun r' hr' => h r' hr'.1

theorem Outcome.mono {good : α → Prop} {x : EStateM.Result ReadError LineReader α}
    (h : Outcome r blames good x) (hb : ∀ e, blames e → blames' e) : Outcome r blames' good x := by
  cases x with
  | ok a r' => exact h
  | error e r' => exact hb e h

theorem Outcome.bind {p : Reading α} {f : α → Reading β} {good : α → Prop} {good' : β → Prop}
    {r' : LineReader} (hp : Outcome r blames good (p r'))
    (hf : ∀ a, good a → Continues r blames (f a) good') :
    Outcome r blames good' ((p >>= f) r') := by
  simp only [Bind.bind, EStateM.bind]
  cases hpr : p r' with
  | ok a r'' =>
    rw [hpr] at hp
    exact hf a hp.2 r'' hp.1
  | error e r'' =>
    rw [hpr] at hp
    exact hp

theorem Begins.mono {p : Reading α} {good : α → Prop} (h : Begins r blames p good)
    (hb : ∀ e, blames e → blames' e) : Begins r blames' p good :=
  fun r' hr' => (h r' hr').mono hb

theorem Continues.mono {p : Reading α} {good : α → Prop} (h : Continues r blames p good)
    (hb : ∀ e, blames e → blames' e) : Continues r blames' p good :=
  fun r' hr' => (h r' hr').mono hb

theorem Begins.bind {p : Reading α} {f : α → Reading β} {good : α → Prop} {good' : β → Prop}
    (hp : Begins r blames p good) (hf : ∀ a, good a → Continues r blames (f a) good') :
    Begins r blames (p >>= f) good' :=
  fun r' hr' => (hp r' hr').bind hf

theorem Continues.bind {p : Reading α} {f : α → Reading β} {good : α → Prop} {good' : β → Prop}
    (hp : Continues r blames p good) (hf : ∀ a, good a → Continues r blames (f a) good') :
    Continues r blames (p >>= f) good' :=
  fun r' hr' => (hp r' hr').bind hf

theorem continues_pure {good : α → Prop} {a : α} (h : good a) :
    Continues r blames (pure a) good :=
  fun _ hr' => ⟨hr', h⟩

theorem continues_throw {good : α → Prop} {e : ReadError} (h : blames e) :
    Continues r blames (throw e : Reading α) good :=
  fun _ _ => h

theorem continues_throw_lineNumber {good : α → Prop} {f : Nat → ReadError}
    (h : ∀ n, r.Covers n → blames (f n)) :
    Continues r blames (do throw (f (← lineNumber)) : Reading α) good :=
  fun r' hr' => h r'.lineNumber hr'.covers

end Blame

end Reading

end Dvcs
