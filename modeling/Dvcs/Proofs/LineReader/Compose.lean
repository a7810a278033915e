import Dvcs.Proofs.LineReader.Seen

/-!
This module contains how the reading of items one after the other composes: the items in front of
some lines come out as if the lines were not there, and those in the lines as if nothing stood in
front of these.
-/

namespace Dvcs

namespace Items

/-- What comes out of a second input behind a first one with the given items and number of lines. -/
def behind {α : Type} (second : Items α) (items : List α) (k : Nat) : Items α where
  items := items ++ second.items
  error := second.error.map (·.shift k)
  reader := second.reader.shift k

end Items

namespace Reading

variable {α β : Type} {p : Reading α} {f : α → Reading β} {more : List Text}

/-- A parser that depends on the position of its first line in nothing but the positions that it
gives. -/
def Shifts (p : Reading α) : Prop := ∀ r k, p (r.shift k) = shift k (p r)

theorem shifts_pure (a : α) : Shifts (pure a) := fun _ _ => rfl

theorem shifts_next : Shifts next := by
  rintro ⟨ls, n, looked⟩ k
  cases ls with
  | nil => rfl
  | cons line rest => simp [next, LineReader.next, LineReader.shift, shift, Nat.add_right_comm]

theorem Shifts.bind (hp : Shifts p) (hf : ∀ a, Shifts (f a)) : Shifts (p >>= f) := by
  intro r k
  simp only [Bind.bind, EStateM.bind, hp r k]
  cases p r with
  | ok a r' => exact hf a r' k
  | error e r' => rfl

/-- A parser that takes what comes before the lines `more` as if these were not there. -/
def Spares (more : List Text) (p : Reading α) : Prop :=
  ∀ ls n looked a r, p ⟨ls, n, looked⟩ = .ok a r →
    ∀ looked', ∃ looked'',
      p ⟨ls ++ more, n, looked'⟩ = .ok a ⟨r.rest ++ more, r.lineNumber, looked''⟩

theorem spares_pure (a : α) : Spares more (pure a) := by
  rintro ls n looked _ _ ⟨⟩ looked'
  exact ⟨looked', rfl⟩

theorem Spares.bind (hp : Spares more p) (hf : ∀ a, Spares more (f a)) : Spares more (p >>= f) := by
  intro ls n looked b r h looked'
  obtain ⟨a, r', ha, hb⟩ := bind_eq_ok h
  obtain ⟨looked₁, hfirst⟩ := hp ls n looked a r' ha looked'
  obtain ⟨looked₂, hsecond⟩ := hf a r'.rest r'.lineNumber r'.looked b r hb looked₁
  exact ⟨looked₂, by rw [bind_of_ok hfirst, hsecond]⟩

/-- A parser that never looks ahead spares any lines. -/
theorem spares_of_settled {short : Nat → ReadError → Prop}
    (h : ∀ n ls, Settled false short p n ls) : Spares more p := by
  intro ls n looked a r hok looked'
  obtain ⟨taken, hls, hnumber, htakes⟩ := (h n ls).of_ok hok
  obtain ⟨looked'', hmore⟩ := htakes (r.rest ++ more) looked' nofun
  rw [hls, List.append_assoc, hnumber]
  exact ⟨looked'', hmore⟩

/-- A parser that never looks ahead needs all the lines that it takes. -/
theorem error_of_settled {short : Nat → ReadError → Prop}
    (h : ∀ n ls, Settled false short p n ls) {ls lost : List Text} (hlost : lost ≠ []) {n m : Nat}
    {looked looked' : Bool} {a : α} (hp : p ⟨ls ++ lost, n, looked⟩ = .ok a ⟨[], m, looked'⟩) :
    ∃ e r, p ⟨ls, n, looked⟩ = .error e r ∧ short (n + ls.length) e := by
  rcases (h n ls).of_append hp with ⟨b, r, hcut⟩ | herror
  . have hspares : Spares lost p := spares_of_settled h
    obtain ⟨_, hmore⟩ := hspares ls n looked b r hcut looked
    rw [hp] at hmore
    injection hmore with _ hreader
    have hrest := congrArg LineReader.rest hreader
    exact absurd (List.append_eq_nil_iff.1 hrest.symm).2 hlost
  . exact herror

section Many

variable (h : p.Consumes)

theorem many_shift (hp : Shifts p) (r : LineReader) (k : Nat) :
    many p h (r.shift k) = (many p h r).behind [] k := by
  fun_induction many p h r with
  | case1 r hr =>
    obtain ⟨ls, n, looked⟩ := r
    obtain rfl : ls = [] := hr
    exact many_of_rest_nil p h (n + k) looked
  | case2 r line rest hr e r' hread =>
    have hne : (r.shift k).rest ≠ [] := by simp [LineReader.shift, hr]
    have hshift := hp r k
    rw [hread] at hshift
    rw [many_of_error h hne hshift]
    rfl
  | case3 r line rest hr a r' hread more ih =>
    have hshift := hp r k
    rw [hread] at hshift
    rw [many_of_ok h hshift, ih]
    rfl

theorem many_looked (hp : ∀ ls n looked looked', p ⟨ls, n, looked⟩ = p ⟨ls, n, looked'⟩)
    (ls : List Text) (n : Nat) (looked looked' : Bool) :
    many p h ⟨ls, n, looked⟩ = many p h ⟨ls, n, looked'⟩ := by
  cases ls with
  | nil => rw [many_of_rest_nil, many_of_rest_nil]
  | cons line rest =>
    have hread := hp (line :: rest) n looked looked'
    cases hp' : p ⟨line :: rest, n, looked'⟩ with
    | ok a r => rw [many_of_ok h hp', many_of_ok h (hread.trans hp')]
    | error e r =>
      have hne : line :: rest ≠ [] := List.cons_ne_nil line rest
      rw [many_of_error h hne hp', many_of_error h hne (hread.trans hp')]

/-- Items that are read without an error are followed by those in the lines behind them. -/
theorem many_append (hshifts : Shifts p) (hspares : Spares more p)
    (hnumber : ∀ r a r', p r = .ok a r' →
      r'.lineNumber + r'.rest.length = r.lineNumber + r.rest.length)
    (hp : ∀ ls n looked looked', p ⟨ls, n, looked⟩ = p ⟨ls, n, looked'⟩) {r : LineReader}
    (herror : (many p h r).error = none) (looked : Bool) :
    many p h ⟨r.rest ++ more, r.lineNumber, looked⟩ =
      (many p h (.ofLines more)).behind (many p h r).items (r.lineNumber + r.rest.length) := by
  fun_induction many p h r generalizing looked with
  | case1 r hr =>
    have hshift := many_shift h hshifts (.ofLines more) r.lineNumber
    rw [LineReader.shift, LineReader.ofLines, Nat.zero_add] at hshift
    rw [hr, List.nil_append, many_looked h hp more r.lineNumber looked false]
    exact hshift
  | case2 => contradiction
  | case3 r line rest hr a r' hread later ih =>
    obtain ⟨looked', hmore⟩ := hspares r.rest r.lineNumber r.looked a r' hread looked
    rw [many_of_ok h hmore, ih herror looked', hnumber r a r' hread]
    rfl

end Many

end Reading

end Dvcs
