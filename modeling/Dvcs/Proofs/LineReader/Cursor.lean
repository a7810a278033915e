import Dvcs.LineReader.Lookahead
import Dvcs.Proofs.LineReader

/-!
This module contains the meaning of a reader: whatever it is asked, and in whatever order, it
answers like a list of lines with a cursor, and at most one line has been taken from the source
beyond those that are consumed.
-/

namespace Dvcs

/-- What a list of lines answers if the first `i` of them are consumed, and where the cursor stands
behind that. -/
def Cursor.call (ls : List Text) : ReaderCall → (i : Nat) → ReaderAnswer × Nat
  | .peek, i => (.line ls[i]?, i)
  | .next, i => (.line ls[i]?, if i < ls.length then i + 1 else i)
  | .atEnd, i => (.ended (i = ls.length), i)
  | .drain, i => (.lines (ls.drop i), ls.length)

/-- The answers to some calls, each with what the call leaves behind. -/
def trace {σ : Type} (call : ReaderCall → σ → ReaderAnswer × σ) (s : σ) :
    List ReaderCall → List (ReaderAnswer × σ)
  | [] => []
  | c :: cs => call c s :: trace call (call c s).2 cs

section Trace

variable {σ τ : Type} {call : ReaderCall → σ → ReaderAnswer × σ} {s : σ}

theorem mem_trace {fit : σ → Prop} (hcall : ∀ c s, fit s → fit (call c s).2) (hs : fit s)
    {cs : List ReaderCall} {step : ReaderAnswer × σ} (h : step ∈ trace call s cs) : fit step.2 := by
  induction cs generalizing s with
  | nil => cases h
  | cons c cs ih =>
    have hnext := hcall c s hs
    rcases List.mem_cons.1 h with rfl | hmore
    . exact hnext
    . exact ih hnext hmore

/-- Two ways to answer give the same trace if a step of one is a step of the other; `fit` is what a
step needs for that, and leaves behind. -/
theorem trace_map {call' : ReaderCall → τ → ReaderAnswer × τ} (f : σ → τ) {fit : σ → Prop}
    (hcall : ∀ c s, fit s → fit (call c s).2)
    (hmap : ∀ c s, fit s → call' c (f s) = (call c s).map id f) (hs : fit s)
    (cs : List ReaderCall) :
    trace call' (f s) cs = (trace call s cs).map (Prod.map id f) := by
  induction cs generalizing s with
  | nil => rfl
  | cons c cs ih =>
    have hmore := ih (hcall c s hs)
    rw [trace, hmap c s hs]
    exact congrArg _ hmore

end Trace

namespace Lookahead

variable {r : Lookahead}

theorem drain_of_none (h : r.next.1 = none) : r.drain = ([], r.next.2) := by
  rw [drain]
  split <;> simp_all

theorem drain_of_some (line : Text) (h : r.next.1 = some line) :
    r.drain = (line :: r.next.2.drain.1, r.next.2.drain.2) := by
  rw [drain]
  split <;> simp_all

theorem drainStages_of_none (h : r.next.1 = none) : r.drainStages = [r.fill, r.next.2] := by
  rw [drainStages]
  split <;> simp_all

theorem drainStages_of_some (line : Text) (h : r.next.1 = some line) :
    r.drainStages = r.fill :: r.next.2 :: r.next.2.drainStages := by
  rw [drainStages]
  split <;> simp_all

theorem getLast?_drainStages (r : Lookahead) : r.drainStages.getLast? = some r.drain.2 := by
  fun_induction drainStages r with
  | case1 r h => rw [drain_of_none h, List.getLast?_cons_cons, List.getLast?_singleton]
  | case2 r line h ih =>
    rw [drain_of_some line h, List.getLast?_cons_cons, List.getLast?_cons, ih]
    rfl

/-- The last reader that a call goes through is the one that it leaves behind. -/
theorem getLast?_stages (c : ReaderCall) (r : Lookahead) :
    (r.stages c).getLast? = some (r.call c).2 := by
  cases c with
  | drain => exact getLast?_drainStages r
  | _ => rfl

/-- The readers that some calls go through, one after the other. -/
def history (r : Lookahead) : List ReaderCall → List Lookahead
  | [] => []
  | c :: cs => r.stages c ++ (r.call c).2.history cs

/-- How many of the lines have been taken from the source. -/
def taken (ls : List Text) (r : Lookahead) : Nat := ls.length - r.source.length

end Lookahead

namespace LineReader

variable {ls : List Text} {r : LineReader}

theorem lookahead_fill (r : LineReader) : r.lookahead.fill = r.peek.2.lookahead := by
  obtain ⟨rest, n, looked⟩ := r
  cases looked <;> rfl

theorem lookahead_peek (r : LineReader) : r.lookahead.peek = r.peek.map id lookahead := by
  unfold Lookahead.peek
  rw [lookahead_fill]
  rfl

theorem lookahead_next (r : LineReader) : r.lookahead.next = r.next.map id lookahead := by
  unfold Lookahead.next
  rw [lookahead_peek]
  obtain ⟨rest, n, looked⟩ := r
  cases rest <;> rfl

theorem lookahead_atEnd (r : LineReader) : r.lookahead.atEnd = r.atEnd.map id lookahead := by
  unfold Lookahead.atEnd
  rw [lookahead_peek]
  obtain ⟨rest, n, looked⟩ := r
  cases rest <;> rfl

theorem lookahead_drain (r : LineReader) : r.lookahead.drain = r.drain.map id lookahead := by
  obtain ⟨rest, n, looked⟩ := r
  induction rest generalizing n looked with
  | nil =>
    have hnext := lookahead_next ⟨[], n, looked⟩
    rw [Lookahead.drain_of_none (by rw [hnext]; rfl), hnext]
    rfl
  | cons line rest ih =>
    have hnext := lookahead_next ⟨line :: rest, n, looked⟩
    rw [Lookahead.drain_of_some line (by rw [hnext]; rfl), hnext]
    have hmore := ih (n + 1) false
    simp only [next, Prod.map] at hmore ⊢
    rw [hmore]
    simp [drain, Nat.add_assoc, Nat.add_comm 1]

theorem lookahead_call (c : ReaderCall) (r : LineReader) :
    r.lookahead.call c = (r.call c).map id lookahead := by
  cases c with
  | peek =>
    simp only [Lookahead.call, lookahead_peek]
    rfl
  | next =>
    simp only [Lookahead.call, lookahead_next]
    rfl
  | atEnd =>
    simp only [Lookahead.call, lookahead_atEnd]
    rfl
  | drain =>
    simp only [Lookahead.call, lookahead_drain]
    rfl

theorem reaches_peek (r : LineReader) : r.Reaches r.peek.2 := .of_rest_eq rfl rfl

theorem reaches_next (r : LineReader) : r.Reaches r.next.2 := by
  obtain ⟨rest, n, looked⟩ := r
  cases rest with
  | nil => exact .of_rest_eq rfl rfl
  | cons line rest => exact .drop line rest n looked false

theorem reaches_call (c : ReaderCall) (r : LineReader) : r.Reaches (r.call c).2 := by
  cases c with
  | peek => exact reaches_peek r
  | next => exact reaches_next r
  | atEnd => exact .of_rest_eq rfl rfl
  | drain => exact ⟨r.rest, (List.append_nil r.rest).symm, rfl⟩

/-- All that iterating to the end goes through is reached by taking lines off the front. -/
theorem exists_of_mem_drainStages {s : Lookahead} (h : s ∈ r.lookahead.drainStages) :
    ∃ r', s = r'.lookahead ∧ r.Reaches r' := by
  obtain ⟨rest, n, looked⟩ := r
  have hfill := lookahead_fill ⟨rest, n, looked⟩
  have hnext := lookahead_next ⟨rest, n, looked⟩
  have hreaches := reaches_next ⟨rest, n, looked⟩
  induction rest generalizing n looked with
  | nil =>
    rw [Lookahead.drainStages_of_none (by rw [hnext]; rfl), hfill, hnext] at h
    rcases List.mem_cons.1 h with rfl | h
    . exact ⟨_, rfl, reaches_peek _⟩
    . obtain rfl := List.mem_singleton.1 h
      exact ⟨_, rfl, hreaches⟩
  | cons line rest ih =>
    rw [Lookahead.drainStages_of_some line (by rw [hnext]; rfl), hfill, hnext] at h
    rcases List.mem_cons.1 h with rfl | h
    . exact ⟨_, rfl, reaches_peek _⟩
    rcases List.mem_cons.1 h with rfl | h
    . exact ⟨_, rfl, hreaches⟩
    obtain ⟨r', hs, hr'⟩ :=
      ih (n + 1) false h (lookahead_fill _) (lookahead_next _) (reaches_next _)
    exact ⟨r', hs, hreaches.trans hr'⟩

theorem exists_of_mem_stages {c : ReaderCall} {s : Lookahead} (h : s ∈ r.lookahead.stages c) :
    ∃ r', s = r'.lookahead ∧ r.Reaches r' := by
  cases c with
  | peek =>
    obtain rfl := List.mem_singleton.1 h
    exact ⟨_, lookahead_fill r, reaches_peek r⟩
  | next =>
    rw [Lookahead.stages, lookahead_next] at h
    rcases List.mem_cons.1 h with rfl | h
    . exact ⟨_, lookahead_fill r, reaches_peek r⟩
    . obtain rfl := List.mem_singleton.1 h
      exact ⟨_, rfl, reaches_next r⟩
  | atEnd =>
    obtain rfl := List.mem_singleton.1 h
    exact ⟨_, lookahead_fill r, reaches_peek r⟩
  | drain => exact exists_of_mem_drainStages h

theorem exists_of_mem_history {cs : List ReaderCall} {s : Lookahead}
    (h : s ∈ r.lookahead.history cs) : ∃ r', s = r'.lookahead ∧ r.Reaches r' := by
  induction cs generalizing r with
  | nil => cases h
  | cons c cs ih =>
    rcases List.mem_append.1 h with h | h
    . exact exists_of_mem_stages h
    . rw [lookahead_call] at h
      obtain ⟨r', hs, hr'⟩ := ih h
      exact ⟨r', hs, (reaches_call c r).trans hr'⟩

theorem rest_eq_drop (h : (ofLines ls).Reaches r) :
    r.rest = ls.drop r.lineNumber ∧ r.lineNumber ≤ ls.length := by
  obtain ⟨taken, hrest, hnumber⟩ := h
  have hls : ls = taken ++ r.rest := hrest
  have hn : r.lineNumber = taken.length := hnumber.trans (Nat.zero_add _)
  rw [hn, hls]
  simp

theorem call_eq_cursor (c : ReaderCall) (h : (ofLines ls).Reaches r) :
    Cursor.call ls c r.lineNumber = (r.call c).map id lineNumber := by
  obtain ⟨hrest, hle⟩ := rest_eq_drop h
  obtain ⟨rest, n, looked⟩ := r
  obtain rfl : rest = ls.drop n := hrest
  have hn : n ≤ ls.length := hle
  cases c with
  | peek => simp [Cursor.call, call, peek]
  | next =>
    by_cases hlt : n < ls.length
    . have hnext : call .next ⟨ls.drop n, n, looked⟩ =
          (.line (some ls[n]), ⟨ls.drop (n + 1), n + 1, false⟩) := by
        rw [List.drop_eq_getElem_cons hlt]
        rfl
      rw [hnext]
      simp [Cursor.call, hlt]
    . have hnil : ls.drop n = [] := List.drop_eq_nil_of_le (Nat.le_of_not_lt hlt)
      rw [hnil]
      simp [Cursor.call, call, next, hlt]
  | atEnd =>
    have hend : decide (n = ls.length) = (ls.drop n).isEmpty := by
      rw [Bool.eq_iff_iff, decide_eq_true_iff, List.isEmpty_iff, List.drop_eq_nil_iff]
      omega
    simp [Cursor.call, call, atEnd, hend]
  | drain => simp [Cursor.call, call, drain, hn]

theorem taken_lookahead (h : (ofLines ls).Reaches r) : r.lookahead.taken ls = r.drawn := by
  obtain ⟨hrest, hle⟩ := rest_eq_drop h
  obtain ⟨rest, n, looked⟩ := r
  obtain rfl : rest = ls.drop n := hrest
  have hn : n ≤ ls.length := hle
  cases looked with
  | false =>
    simp [Lookahead.taken, lookahead, drawn]
    omega
  | true =>
    simp [Lookahead.taken, lookahead, drawn]
    split <;> omega

theorem lineNumber_lookahead (r : LineReader) : r.lookahead.lineNumber = r.lineNumber := by
  obtain ⟨rest, n, looked⟩ := r
  cases looked <;> rfl

theorem drawn_le (r : LineReader) : r.drawn ≤ r.lineNumber + 1 := by
  unfold drawn
  split <;> omega

theorem reaches_call_of_reaches (c : ReaderCall) (r : LineReader) (h : (ofLines ls).Reaches r) :
    (ofLines ls).Reaches (r.call c).2 :=
  h.trans (reaches_call c r)

theorem reaches_self (r : LineReader) : r.Reaches r := .of_rest_eq rfl rfl

/-- What is seen of the reader with a slot after every call is seen of the one without. -/
theorem map_trace_lookahead {α : Type} {f : Lookahead → α} {g : LineReader → α}
    (h : ∀ r, (ofLines ls).Reaches r → f r.lookahead = g r) (cs : List ReaderCall) :
    (trace Lookahead.call (.ofLines ls) cs).map (Prod.map id f) =
      (trace call (ofLines ls) cs).map (Prod.map id g) := by
  have htrace : trace Lookahead.call (.ofLines ls) cs =
      (trace call (ofLines ls) cs).map (Prod.map id lookahead) :=
    trace_map lookahead reaches_call_of_reaches (fun c r _ => lookahead_call c r)
      (reaches_self (ofLines ls)) cs
  rw [htrace, List.map_map]
  refine List.map_congr_left fun step hstep => ?_
  have hreaches := mem_trace reaches_call_of_reaches (reaches_self (ofLines ls)) hstep
  exact congrArg (step.1, ·) (h step.2 hreaches)

/-- Whatever a reader of some lines is asked, in whatever order, it gives the answers of the lines
with a cursor and counts as the cursor stands, with a slot as well as without. The lines that count
as drawn are those that have been taken from the source, and there is never more than one of them
beyond the cursor, not even in the middle of a call. -/
theorem calls_cursor (ls : List Text) (cs : List ReaderCall) :
    (trace call (ofLines ls) cs).map (Prod.map id lineNumber) = trace (Cursor.call ls) 0 cs ∧
    (trace Lookahead.call (.ofLines ls) cs).map (Prod.map id Lookahead.lineNumber) =
      trace (Cursor.call ls) 0 cs ∧
    (trace Lookahead.call (.ofLines ls) cs).map (Prod.map id (Lookahead.taken ls)) =
      (trace call (ofLines ls) cs).map (Prod.map id drawn) ∧
    ∀ r ∈ (Lookahead.ofLines ls).history cs, r.taken ls ≤ r.lineNumber + 1 := by
  have hcursor : trace (Cursor.call ls) 0 cs =
      (trace call (ofLines ls) cs).map (Prod.map id lineNumber) :=
    trace_map lineNumber reaches_call_of_reaches (fun c _ => call_eq_cursor c)
      (reaches_self (ofLines ls)) cs
  refine ⟨hcursor.symm, ?_, ?_, ?_⟩
  . rw [hcursor]
    exact map_trace_lookahead (fun r _ => lineNumber_lookahead r) cs
  . exact map_trace_lookahead (fun _ => taken_lookahead) cs
  . intro s hs
    have hfrom : ∃ r', s = r'.lookahead ∧ (ofLines ls).Reaches r' := exists_of_mem_history hs
    obtain ⟨r, rfl, hr⟩ := hfrom
    rw [taken_lookahead hr, lineNumber_lookahead]
    exact drawn_le r

end LineReader

end Dvcs
