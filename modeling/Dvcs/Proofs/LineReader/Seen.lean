import Dvcs.Proofs.LineReader

/-!
This module contains what the outcome of a parser rests on. A parser sees the lines that it consumes
and at most the one behind them, and what it makes of these it makes of them in every input. Nothing
but the end of the input can be overruled by more lines.
-/

namespace Dvcs

namespace Reading

variable {α β : Type}

/-- The parser consumes the lines `taken` and gives `a`, if what is behind them `fits`. -/
def Takes (p : Reading α) (n : Nat) (taken : List Text) (a : α) (fits : List Text → Prop) : Prop :=
  ∀ more looked, fits more →
    ∃ looked', p ⟨taken ++ more, n, looked⟩ = .ok a ⟨more, n + taken.length, looked'⟩

/-- The parser fails on the lines `seen`, whatever is behind them, and blames the last of them. -/
structure Refuses (p : Reading α) (n : Nat) (seen : List Text) (e : ReadError) : Prop where
  error : ∀ more looked, ∃ r, p ⟨seen ++ more, n, looked⟩ = .error e r
  line : ∀ m ∈ e.line?, m = n + seen.length

/-- What the outcome of a parser on the lines `ls` rests on: on the lines that it consumes, on those
that it refuses, or on the end of the input, with one of the errors `short` for the last line. A
parser that looks `ahead` also depends on the line behind those that it consumes, and refuses
nothing before it has seen a line. -/
inductive Settled (ahead : Bool) (short : Nat → ReadError → Prop) (p : Reading α) (n : Nat)
    (ls : List Text) : Prop
  | taken (taken rest : List Text) (a : α) (hls : ls = taken ++ rest)
    (h : Takes p n taken a fun more => ahead = true → more.head? = rest.head?) :
    Settled ahead short p n ls
  | refused (seen rest : List Text) (e : ReadError) (hls : ls = seen ++ rest)
    (hseen : ahead = true → seen ≠ []) (h : Refuses p n seen e) : Settled ahead short p n ls
  | ended (e : ReadError) (h : ∀ looked, ∃ r, p ⟨ls, n, looked⟩ = .error e r)
    (hshort : short (n + ls.length) e) : Settled ahead short p n ls

variable {ahead : Bool} {short short' : Nat → ReadError → Prop} {p q : Reading α} {n : Nat}
  {ls rest : List Text} {line : Text} {e : ReadError}

theorem bind_of_error {f : α → Reading β} {r r' : LineReader} (h : p r = .error e r') :
    (p >>= f) r = .error e r' := by
  simp [bind, EStateM.bind, h]

theorem Settled.mono (h : Settled ahead short p n ls) (hshort : ∀ m e, short m e → short' m e) :
    Settled ahead short' p n ls := by
  cases h with
  | taken taken rest a hls h => exact .taken taken rest a hls h
  | refused seen rest e hls hseen h => exact .refused seen rest e hls hseen h
  | ended e h hended => exact .ended e h (hshort _ _ hended)

theorem settled_pure (a : α) : Settled ahead short (pure a) n ls := by
  refine .taken [] ls a rfl ?_
  intro more looked _
  exact ⟨looked, rfl⟩

theorem Settled.of_refused_line (hline : ∀ m ∈ e.line?, m = n + 1)
    (h : ∀ more looked, ∃ r, p ⟨line :: more, n, looked⟩ = .error e r) :
    Settled ahead short p n (line :: rest) :=
  .refused [line] rest e rfl (fun _ => List.cons_ne_nil _ _) ⟨h, hline⟩

/-- A parser that consumes a line and goes on with another parser. -/
theorem Settled.step (h : Settled ahead short q (n + 1) rest)
    (hp : ∀ more looked, p ⟨line :: more, n, looked⟩ = q ⟨more, n + 1, false⟩) :
    Settled ahead short p n (line :: rest) := by
  cases h with
  | taken taken rest a hls h =>
    refine .taken (line :: taken) rest a (congrArg _ hls) ?_
    intro more looked hfits
    obtain ⟨looked', hq⟩ := h more false hfits
    refine ⟨looked', ?_⟩
    rw [List.cons_append, hp, hq, List.length_cons, Nat.add_assoc, Nat.add_comm 1]
  | refused seen rest e hls hseen h =>
    refine .refused (line :: seen) rest e (congrArg _ hls) (fun _ => List.cons_ne_nil _ _) ⟨?_, ?_⟩
    . intro more looked
      rw [List.cons_append, hp]
      exact h.error more false
    . intro m hm
      rw [h.line m hm, List.length_cons, Nat.add_assoc, Nat.add_comm 1]
  | ended e h hshort =>
    refine .ended e (fun looked => ?_) ?_
    . rw [hp]
      exact h false
    . rwa [List.length_cons, Nat.add_comm rest.length, ← Nat.add_assoc]

theorem head?_append_congr {taken more rest : List Text} (h : more.head? = rest.head?) :
    (taken ++ more).head? = (taken ++ rest).head? := by
  rw [List.head?_append, List.head?_append, h]

/-- A parser that chooses another one by a look at the next line. -/
theorem Settled.of_head (h : Settled true short q n ls)
    (hp : ∀ ls' looked, ls'.head? = ls.head? → p ⟨ls', n, looked⟩ = q ⟨ls', n, looked⟩) :
    Settled true short p n ls := by
  cases h with
  | taken taken rest a hls h =>
    refine .taken taken rest a hls ?_
    intro more looked hfits
    rw [hp (taken ++ more) looked (hls ▸ head?_append_congr (hfits rfl))]
    exact h more looked hfits
  | refused seen rest e hls hseen h =>
    refine .refused seen rest e hls hseen ⟨?_, h.line⟩
    intro more looked
    rw [hp (seen ++ more) looked]
    . exact h.error more looked
    . obtain ⟨line, seen', rfl⟩ := List.exists_cons_of_ne_nil (hseen rfl)
      rw [hls]
      rfl
  | ended e h hshort =>
    refine .ended e (fun looked => ?_) hshort
    rw [hp ls looked rfl]
    exact h looked

theorem Settled.bind_of_eq {f : α → Reading β} (h : Settled ahead short p n ls)
    (hf : ∀ a taken rest looked, ls = taken ++ rest →
      p ⟨ls, n, false⟩ = .ok a ⟨rest, n + taken.length, looked⟩ →
        Settled ahead short (f a) (n + taken.length) rest) :
    Settled ahead short (p >>= f) n ls := by
  cases h with
  | taken taken rest a hls h =>
    subst hls
    obtain ⟨looked, hok⟩ := h rest false fun _ => rfl
    -- what is behind `taken` may be any lines on which `f a` comes out as it does on `rest`
    cases hf a taken rest looked rfl hok with
    | taken taken' rest' b hrest hb =>
      subst hrest
      refine .taken (taken ++ taken') rest' b (List.append_assoc ..).symm ?_
      intro more looked hfits
      obtain ⟨looked₁, h₁⟩ := h (taken' ++ more) looked fun ha => head?_append_congr (hfits ha)
      obtain ⟨looked₂, h₂⟩ := hb more looked₁ hfits
      refine ⟨looked₂, ?_⟩
      rw [List.append_assoc, bind_of_ok h₁, h₂, List.length_append, Nat.add_assoc]
    | refused seen rest' e hrest hseen hb =>
      subst hrest
      refine .refused (taken ++ seen) rest' e (List.append_assoc ..).symm ?_ ⟨?_, ?_⟩
      . intro ha heq
        exact hseen ha (List.append_eq_nil_iff.1 heq).2
      . intro more looked
        have hhead (ha : ahead = true) : (seen ++ more).head? = (seen ++ rest').head? := by
          obtain ⟨line, seen', rfl⟩ := List.exists_cons_of_ne_nil (hseen ha)
          rfl
        obtain ⟨looked₁, h₁⟩ := h (seen ++ more) looked hhead
        obtain ⟨r, h₂⟩ := hb.error more looked₁
        refine ⟨r, ?_⟩
        rw [List.append_assoc, bind_of_ok h₁, h₂]
      . intro m hm
        rw [hb.line m hm, List.length_append, Nat.add_assoc]
    | ended e hb hshort =>
      refine .ended e (fun looked => ?_) ?_
      . obtain ⟨looked₁, h₁⟩ := h rest looked fun _ => rfl
        rw [bind_of_ok h₁]
        exact hb looked₁
      . rwa [List.length_append, ← Nat.add_assoc]
  | refused seen rest e hls hseen h =>
    refine .refused seen rest e hls hseen ⟨?_, h.line⟩
    intro more looked
    obtain ⟨r, hr⟩ := h.error more looked
    exact ⟨r, bind_of_error hr⟩
  | ended e h hshort =>
    refine .ended e (fun looked => ?_) hshort
    obtain ⟨r, hr⟩ := h looked
    exact ⟨r, bind_of_error hr⟩

theorem Settled.bind {f : α → Reading β} (h : Settled ahead short p n ls)
    (hf : ∀ a m rest, Settled ahead short (f a) m rest) : Settled ahead short (p >>= f) n ls :=
  h.bind_of_eq fun a _ rest _ _ _ => hf a _ rest

/-- A parser that reads parts one after the other, and at each place either settles the matter or
reads one more part, whichever it is. -/
theorem settled_of_parts {p : Reading β}
    (h : ∀ n ls, Settled true short p n ls ∨
      ∃ (α : Type) (part : Reading α) (f : α → β → β),
        Settled true short part n ls ∧
        (∀ a r, part ⟨ls, n, false⟩ = .ok a r → r.rest.length < ls.length) ∧
        ∀ ls' looked, ls'.head? = ls.head? →
          p ⟨ls', n, looked⟩ = (return f (← part) (← p) : Reading β) ⟨ls', n, looked⟩)
    (n : Nat) (ls : List Text) : Settled true short p n ls := by
  induction hlength : ls.length using Nat.strongRecOn generalizing n ls with
  | ind length ih =>
    rcases h n ls with hsettled | ⟨α, part, f, hpart, hless, hp⟩
    . exact hsettled
    . refine Settled.of_head (q := return f (← part) (← p)) ?_ hp
      refine hpart.bind_of_eq fun a taken rest looked _ hok => ?_
      have hrest : rest.length < length := hlength ▸ hless a _ hok
      exact (ih _ hrest _ _ rfl).bind fun b _ _ => settled_pure (f a b)

theorem eq_nil_of_head? {ls : List Text} (h : ls.head? = ([] : List Text).head?) : ls = [] := by
  simpa using h

theorem eq_cons_of_head? {ls rest : List Text} (h : ls.head? = (line :: rest).head?) :
    ∃ rest', ls = line :: rest' := by
  cases ls with
  | nil => contradiction
  | cons line' rest' =>
    cases h
    exact ⟨rest', rfl⟩

/-- A parser that stops at the end of the input. -/
theorem settled_of_nil {a : α}
    (h : ∀ looked, ∃ looked', p ⟨[], n, looked⟩ = .ok a ⟨[], n, looked'⟩) :
    Settled true short p n [] := by
  refine .taken [] [] a rfl ?_
  intro more looked hmore
  rw [eq_nil_of_head? (hmore rfl)]
  exact h looked

/-- A parser that stops in front of a line. -/
theorem settled_of_stop {a : α}
    (h : ∀ more looked, ∃ looked', p ⟨line :: more, n, looked⟩ = .ok a ⟨line :: more, n, looked'⟩) :
    Settled true short p n (line :: rest) := by
  refine .taken [] (line :: rest) a rfl ?_
  intro more looked hmore
  obtain ⟨rest', rfl⟩ := eq_cons_of_head? (hmore rfl)
  exact h rest' looked

theorem settled_next (line : Text) (rest : List Text) :
    Settled ahead short next n (line :: rest) := by
  refine .taken [line] rest (some line) rfl ?_
  intro more looked _
  exact ⟨false, rfl⟩

theorem Settled.of_ok {a : α} {r : LineReader} {looked : Bool} (h : Settled ahead short p n ls)
    (hp : p ⟨ls, n, looked⟩ = .ok a r) :
    ∃ taken, ls = taken ++ r.rest ∧ r.lineNumber = n + taken.length ∧
      Takes p n taken a fun more => ahead = true → more.head? = r.rest.head? := by
  cases h with
  | taken taken rest b hls h =>
    obtain ⟨looked', hok⟩ := h rest looked fun _ => rfl
    rw [← hls, hp] at hok
    cases hok
    exact ⟨taken, hls, rfl, h⟩
  | refused seen rest e hls hseen h =>
    obtain ⟨r', herror⟩ := h.error rest looked
    rw [← hls, hp] at herror
    contradiction
  | ended e h hshort =>
    obtain ⟨r', herror⟩ := h looked
    rw [hp] at herror
    contradiction

/-- A parser that stops in front of some lines does so wherever the first of these comes next. -/
theorem Settled.takes {front more : List Text} {a : α} {r : LineReader} {looked : Bool}
    (h : Settled ahead short p n (front ++ more)) (hp : p ⟨front ++ more, n, looked⟩ = .ok a r)
    (hrest : r.rest = more) :
    Takes p n front a fun more' => ahead = true → more'.head? = more.head? := by
  obtain ⟨taken, hls, _, htakes⟩ := h.of_ok hp
  rw [hrest] at hls htakes
  rwa [List.append_cancel_right hls]

/-- Where all parts can be read and the first one leaves the lines `more`, it is read from what is
in front of these, and the other parts are read from them. -/
theorem takes_of_parts {p : Reading β} {part : Reading α} {f : α → β → β} {front more : List Text}
    {looked : Bool} {b : β} {r : LineReader} (hpart : Settled true short part n (front ++ more))
    (hp : (return f (← part) (← p) : Reading β) ⟨front ++ more, n, looked⟩ = .ok b r)
    (hrest : ∀ a r' b', part ⟨front ++ more, n, looked⟩ = .ok a r' → p r' = .ok b' r →
      r'.rest = more) :
    ∃ a b' looked', Takes part n front a (·.head? = more.head?) ∧
      part ⟨front ++ more, n, looked⟩ = .ok a ⟨more, n + front.length, looked'⟩ ∧
      p ⟨more, n + front.length, looked'⟩ = .ok b' r := by
  obtain ⟨a, r₁, hfirst, hp⟩ := bind_eq_ok hp
  obtain ⟨b', r₂, hmore, hp⟩ := bind_eq_ok hp
  cases hp
  have htakes := hpart.takes hfirst (hrest a r₁ b' hfirst hmore)
  obtain ⟨looked', hagain⟩ := htakes more looked fun _ => rfl
  rw [hfirst] at hagain
  cases hagain
  exact ⟨a, b', looked', fun more' looked hhead => htakes more' looked fun _ => hhead, hfirst,
    hmore⟩

/-- An error in one of the later parts is one of the whole. -/
theorem error_of_parts {p : Reading β} {part : Reading α} {f : α → β → β} {front ls : List Text}
    {a : α} {fits : List Text → Prop} {blames : ReadError → Prop}
    (htakes : Takes part n front a fits) (hls : fits ls)
    (h : ∀ looked, ∃ e r, p ⟨ls, n + front.length, looked⟩ = .error e r ∧ blames e)
    (looked : Bool) :
    ∃ e r, (return f (← part) (← p) : Reading β) ⟨front ++ ls, n, looked⟩ = .error e r ∧
      blames e := by
  obtain ⟨looked', hfirst⟩ := htakes ls looked hls
  obtain ⟨e, r, hmore, hblames⟩ := h looked'
  refine ⟨e, r, ?_, hblames⟩
  rw [bind_of_ok hfirst]
  exact bind_of_error hmore

theorem Settled.of_error {r : LineReader} {looked : Bool} (h : Settled ahead short p n ls)
    (hp : p ⟨ls, n, looked⟩ = .error e r) :
    short (n + ls.length) e ∨ ∃ seen rest, ls = seen ++ rest ∧ Refuses p n seen e := by
  cases h with
  | taken taken rest b hls h =>
    obtain ⟨looked', hok⟩ := h rest looked fun _ => rfl
    rw [← hls, hp] at hok
    contradiction
  | refused seen rest e' hls hseen h =>
    obtain ⟨r', herror⟩ := h.error rest looked
    rw [← hls, hp] at herror
    cases herror
    exact .inr ⟨seen, rest, hls, h⟩
  | ended e' h hshort =>
    obtain ⟨r', herror⟩ := h looked
    rw [hp] at herror
    cases herror
    exact .inl hshort

/-- Lines that can be read on when more of them come are no reason to fail before the end. -/
theorem Settled.of_append {more : List Text} {a : α} {r : LineReader} {looked : Bool}
    (h : Settled ahead short p n ls) (hp : p ⟨ls ++ more, n, looked⟩ = .ok a r) :
    (∃ b r', p ⟨ls, n, looked⟩ = .ok b r') ∨
      ∃ e r', p ⟨ls, n, looked⟩ = .error e r' ∧ short (n + ls.length) e := by
  cases hcut : p ⟨ls, n, looked⟩ with
  | ok b r' => exact .inl ⟨b, r', rfl⟩
  | error e r' =>
    rcases h.of_error hcut with hshort | ⟨seen, rest, hls, hrefuses⟩
    . exact .inr ⟨e, r', rfl, hshort⟩
    . obtain ⟨r'', herror⟩ := hrefuses.error (rest ++ more) looked
      rw [← List.append_assoc, ← hls, hp] at herror
      contradiction

/-- An error with a line number blames a line that makes the input `ls` invalid together with those
before it, or the end of the input. Only an error that is `misplaced` blames the last line though it
is about the end as well. -/
def Accurate (p : Reading α) (ls : List Text) (misplaced : ReadError → Prop) : Prop :=
  ∀ e r m, p (.ofLines ls) = .error e r → e.line? = some m →
    m ≤ ls.length + 1 ∧
      (m ≤ ls.length → misplaced e ∨
        ∀ ls', ls'.take m = ls.take m → ∃ r', p (.ofLines ls') = .error e r')

theorem accurate_of_settled {misplaced : ReadError → Prop} (h : Settled ahead short p 0 ls)
    (hshort : ∀ e, short ls.length e →
      misplaced e ∧ e.line? = some ls.length ∨ e.line? = some (ls.length + 1)) :
    Accurate p ls misplaced := by
  intro e r m hp hm
  rcases h.of_error hp with hended | ⟨seen, rest, hls, hrefuses⟩
  . rw [Nat.zero_add] at hended
    rcases hshort e hended with ⟨hmisplaced, hline⟩ | hline
    . rw [hm] at hline
      cases hline
      exact ⟨Nat.le_succ _, fun _ => .inl hmisplaced⟩
    . rw [hm] at hline
      cases hline
      exact ⟨Nat.le_refl _, fun hle => absurd hle (Nat.not_succ_le_self _)⟩
  . have hlength : m = seen.length := by simpa using hrefuses.line m hm
    have hle : m ≤ ls.length := by
      rw [hlength, hls, List.length_append]
      exact Nat.le_add_right _ _
    refine ⟨Nat.le_succ_of_le hle, fun _ => .inr ?_⟩
    intro ls' htake
    have hseen : ls'.take m = seen := by rw [htake, hls, hlength, List.take_left]
    obtain ⟨r', herror⟩ := hrefuses.error (ls'.drop m) false
    rw [← hseen, List.take_append_drop] at herror
    exact ⟨r', herror⟩

end Reading

end Dvcs
