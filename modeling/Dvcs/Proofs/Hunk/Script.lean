import Dvcs.Proofs.Hunk.Header

/-!
This module contains edit scripts and the hunk blocks that print them. Reading a printed block gives
one hunk for each maximal run of changes in the script.
-/

namespace Dvcs

namespace Hunk

/-- A line that both versions of a file share, or that only one of them has. -/
structure Entry where
  kind : Kind
  text : Text
  /-- Whether the line lacks its line feed. -/
  bare : Bool := false
deriving DecidableEq

abbrev Script := List Entry

namespace Entry

def isShared (e : Entry) : Bool := e.kind == .context

def inSource (e : Entry) : Bool := e.kind != .added

def inTarget (e : Entry) : Bool := e.kind != .removed

def mark : Kind → Char
  | .context => ' '
  | .removed => '-'
  | .added => '+'

def line (e : Entry) : Text := .char (mark e.kind) :: e.text

def lines (e : Entry) : List Text := e.line :: if e.bare then [newlineMarker] else []

end Entry

namespace Script

def sourceCount (s : Script) : Nat := s.countP (·.inSource)

def targetCount (s : Script) : Nat := s.countP (·.inTarget)

def lines (s : Script) : List Text := s.flatMap Entry.lines

/-- The part of a run of changes that belongs to one version, `start` being its first line. Without
context an empty part stands at the line before. -/
def side (kind : Kind) (start : Nat) (run : Script) : HunkSide :=
  let entries := run.filter (·.kind == kind)
  { start := if entries = [] then start - 1 else start
    lines := entries.map (·.text)
    noNewline := entries.any (·.bare) }

def hunk (source target : Nat) (run : Script) : Hunk :=
  ⟨side .removed source run, side .added target run⟩

/-- The changes in front of a script. -/
def run (s : Script) : Script := s.takeWhile (!·.isShared)

def afterRun (s : Script) : Script := s.dropWhile (!·.isShared)

/-- One hunk for each maximal run of changes. The script starts at the lines with the numbers
`source` and `target`. -/
def hunks (source target : Nat) (s : Script) : List Hunk :=
  match s with
  | [] => []
  | e :: rest =>
    if e.isShared then hunks (source + 1) (target + 1) rest
    else
      hunk source target (run (e :: rest)) ::
        hunks (source + sourceCount (run (e :: rest))) (target + targetCount (run (e :: rest)))
          (afterRun rest)
termination_by s.length
decreasing_by
  . simp
  . have := (List.dropWhile_suffix (l := rest) (!·.isShared)).length_le
    simp [afterRun]
    omega

@[simp]
theorem sourceCount_cons (e : Entry) (s : Script) :
    sourceCount (e :: s) = sourceCount s + if e.inSource then 1 else 0 :=
  List.countP_cons ..

@[simp]
theorem targetCount_cons (e : Entry) (s : Script) :
    targetCount (e :: s) = targetCount s + if e.inTarget then 1 else 0 :=
  List.countP_cons ..

@[simp]
theorem sourceCount_append (s t : Script) : sourceCount (s ++ t) = sourceCount s + sourceCount t :=
  List.countP_append

@[simp]
theorem targetCount_append (s t : Script) : targetCount (s ++ t) = targetCount s + targetCount t :=
  List.countP_append

@[simp]
theorem lines_cons (e : Entry) (s : Script) : lines (e :: s) = e.lines ++ lines s := rfl

theorem run_append_afterRun (s : Script) : run s ++ afterRun s = s :=
  List.takeWhile_append_dropWhile

theorem afterRun_cons {e : Entry} (h : e.isShared = false) (rest : Script) :
    afterRun (e :: rest) = afterRun rest := by
  simp [afterRun, h]

theorem run_ne_nil {e : Entry} (h : e.isShared = false) (rest : Script) :
    run (e :: rest) ≠ [] := by
  simp [run, h]

theorem isShared_of_mem_run {e : Entry} {s : Script} (h : e ∈ run s) : e.isShared = false := by
  have hall := List.all_takeWhile (p := fun d : Entry => !d.isShared) (l := s)
  rw [List.all_eq_true] at hall
  simpa using hall e h

theorem isShared_of_mem_head?_afterRun {e : Entry} {s : Script} (h : e ∈ (afterRun s).head?) :
    e.isShared = true := by
  have := List.head?_dropWhile_not (fun d : Entry => !d.isShared) s
  simp_all [afterRun]

end Script

namespace Run

/-- A run with one more change. -/
def add (r : Run) (e : Entry) : Run :=
  match e.kind with
  | .context => r
  | .removed =>
    { r with source := e.text :: r.source, sourceNoNewline := r.sourceNoNewline || e.bare }
  | .added =>
    { r with target := e.text :: r.target, targetNoNewline := r.targetNoNewline || e.bare }

theorem foldl_add (r : Run) (s : Script) :
    s.foldl add r =
      { r with
        source := ((s.filter (·.kind == .removed)).map (·.text)).reverse ++ r.source
        target := ((s.filter (·.kind == .added)).map (·.text)).reverse ++ r.target
        sourceNoNewline := r.sourceNoNewline || (s.filter (·.kind == .removed)).any (·.bare)
        targetNoNewline := r.targetNoNewline || (s.filter (·.kind == .added)).any (·.bare) } := by
  induction s generalizing r with
  | nil => simp
  | cons e s ih =>
    rw [List.foldl_cons]
    rw [ih]
    obtain ⟨kind, text, bare⟩ := e
    cases kind <;> simp [add, Bool.or_assoc]

theorem toHunk_foldl_add (source target : Nat) (s : Script) :
    (s.foldl add ⟨source, target, [], [], false, false⟩).toHunk = Script.hunk source target s := by
  rw [foldl_add]
  simp [toHunk, side, Script.hunk, Script.side]

end Run

namespace Block

/-- A block after one more entry. -/
def take (b : Block) (e : Entry) : Block :=
  match e.kind with
  | .context =>
    { b.closeRun with
      sourceLine := b.sourceLine + 1
      targetLine := b.targetLine + 1
      sourceLeft := b.sourceLeft - 1
      targetLeft := b.targetLeft - 1
      last := some .context }
  | .removed =>
    { b with
      run := some (b.currentRun.add e)
      sourceLine := b.sourceLine + 1
      sourceLeft := b.sourceLeft - 1
      last := some .removed }
  | .added =>
    { b with
      run := some (b.currentRun.add e)
      targetLine := b.targetLine + 1
      targetLeft := b.targetLeft - 1
      last := some .added }

theorem step_line {b : Block} {e : Entry} (hs : e.inSource = true → b.sourceLeft ≠ 0)
    (ht : e.inTarget = true → b.targetLeft ≠ 0) :
    b.step e.line = .ok (b.take { e with bare := false }) := by
  obtain ⟨kind, text, bare⟩ := e
  cases kind with
  | context =>
    unfold step Entry.line Entry.mark take
    cases h : b.run <;> simp_all [Entry.inSource, Entry.inTarget, closeRun]
  | removed => simp_all [step, Entry.line, Entry.mark, take, Run.add, Entry.inSource]
  | added => simp_all [step, Entry.line, Entry.mark, take, Run.add, Entry.inTarget]

theorem markNoNewline_take (b : Block) (e : Entry) :
    (b.take { e with bare := false }).markNoNewline = b.take { e with bare := true } := by
  obtain ⟨kind, text, bare⟩ := e
  cases kind with
  | context => cases h : b.run <;> simp [take, markNoNewline, closeRun, h]
  | removed => simp [take, markNoNewline, Run.add]
  | added => simp [take, markNoNewline, Run.add]

theorem sourceLeft_take (b : Block) (e : Entry) :
    (b.take e).sourceLeft = b.sourceLeft - if e.inSource then 1 else 0 := by
  obtain ⟨kind, text, bare⟩ := e
  cases kind <;> simp [take, Entry.inSource]

theorem targetLeft_take (b : Block) (e : Entry) :
    (b.take e).targetLeft = b.targetLeft - if e.inTarget then 1 else 0 := by
  obtain ⟨kind, text, bare⟩ := e
  cases kind <;> simp [take, Entry.inTarget]

theorem isComplete_iff (b : Block) : b.isComplete = true ↔ b.sourceLeft = 0 ∧ b.targetLeft = 0 := by
  simp [isComplete]

/-- The counts of a block announce a script. -/
def Announces (b : Block) (s : Script) : Prop :=
  b.sourceLeft = Script.sourceCount s ∧ b.targetLeft = Script.targetCount s

theorem Announces.isComplete {b : Block} (h : b.Announces []) : b.isComplete = true :=
  (isComplete_iff b).2 h

theorem Announces.isComplete_cons {b : Block} {e : Entry} {s : Script}
    (h : b.Announces (e :: s)) : b.isComplete = false := by
  rw [← Bool.not_eq_true, isComplete_iff, h.1, h.2]
  obtain ⟨kind, text, bare⟩ := e
  cases kind <;> simp [Entry.inSource, Entry.inTarget]

theorem Announces.step_line {b : Block} {e : Entry} {s : Script} (h : b.Announces (e :: s)) :
    b.step e.line = .ok (b.take { e with bare := false }) := by
  obtain ⟨hs, ht⟩ := h
  rw [Script.sourceCount_cons] at hs
  rw [Script.targetCount_cons] at ht
  apply Block.step_line
  . intro hin
    rw [hs, hin]
    exact Nat.succ_ne_zero _
  . intro hin
    rw [ht, hin]
    exact Nat.succ_ne_zero _

theorem Announces.take {b : Block} {e : Entry} {s : Script} (h : b.Announces (e :: s))
    (bare : Bool) : (b.take { e with bare := bare }).Announces s := by
  obtain ⟨hs, ht⟩ := h
  constructor
  . rw [sourceLeft_take, hs, Script.sourceCount_cons]
    exact Nat.add_sub_cancel ..
  . rw [targetLeft_take, ht, Script.targetCount_cons]
    exact Nat.add_sub_cancel ..

theorem readBody_of_isComplete {b : Block} (h : b.isComplete = true) (n : Nat) (ls : List Text) :
    readBody b n ls = .ok b ⟨ls, n, false⟩ := by
  cases ls <;> simp [readBody, h]

theorem readBody_cons {b b' : Block} {line : Text} (h : b.isComplete = false)
    (hstep : b.step line = .ok b') (n : Nat) (ls : List Text) :
    readBody b n (line :: ls) = readBody b' (n + 1) ls := by
  simp [readBody, h, hstep]

/-- No marker comes next. -/
def Unmarked (rest : List Text) : Prop := ∀ line ∈ rest.head?, line.head? ≠ some (.char '\\')

theorem finish_of_unmarked (b : Block) {rest : List Text} (h : Unmarked rest) (n : Nat)
    (looked : Bool) :
    b.finish ⟨rest, n, looked⟩ = .ok b.closeRun.hunks.reverse ⟨rest, n, true⟩ := by
  unfold finish
  split
  . next line rest' heq =>
    cases heq
    have := h _ rfl
    contradiction
  . rfl

theorem finish_marker (b : Block) (rest : List Text) (n : Nat) (looked : Bool) :
    b.finish ⟨newlineMarker :: rest, n, looked⟩ =
      .ok b.markNoNewline.closeRun.hunks.reverse ⟨rest, n + 1, false⟩ := rfl

theorem readBody_entry {b : Block} {e : Entry} {s : Script} (h : b.Announces (e :: s))
    (hmore : e.bare = true → s ≠ []) (n : Nat) (ls : List Text) :
    readBody b n (e.lines ++ ls) = readBody (b.take e) (n + e.lines.length) ls := by
  -- an entry that lacks its line feed, where more entries follow, is told with its marker
  have hopen := h.isComplete_cons
  have hstep := h.step_line
  obtain ⟨kind, text, bare⟩ := e
  cases bare with
  | false =>
    unfold Entry.lines
    rw [List.cons_append, readBody_cons hopen hstep]
    rfl
  | true =>
    obtain ⟨d, s, rfl⟩ := List.exists_cons_of_ne_nil (hmore rfl)
    have hmarker : (b.take ⟨kind, text, false⟩).step newlineMarker =
        .ok (b.take ⟨kind, text, true⟩) := by
      rw [← markNoNewline_take b ⟨kind, text, true⟩]
      rfl
    unfold Entry.lines
    rw [List.cons_append, readBody_cons hopen hstep]
    exact readBody_cons (h.take false).isComplete_cons hmarker (n + 1) ls

theorem readBody_last {b : Block} {e : Entry} (h : b.Announces [e]) (hbare : e.bare = true)
    (n : Nat) (ls : List Text) :
    readBody b n (e.lines ++ ls) =
      .ok (b.take { e with bare := false }) ⟨newlineMarker :: ls, n + 1, false⟩ := by
  -- the marker behind the last entry stays, since the counts are met before it
  unfold Entry.lines
  rw [hbare, List.cons_append, readBody_cons h.isComplete_cons h.step_line]
  exact readBody_of_isComplete (h.take false).isComplete (n + 1) _

theorem readBody_lines {b : Block} {s : Script} (h : b.Announces s) {rest : List Text}
    (hrest : Unmarked rest) (n : Nat) :
    ∃ b' r looked, readBody b n (Script.lines s ++ rest) = .ok b' r ∧
      b'.finish r =
        .ok (s.foldl take b).closeRun.hunks.reverse
          ⟨rest, n + (Script.lines s).length, looked⟩ := by
  induction s generalizing b n with
  | nil =>
    exact ⟨b, _, true, readBody_of_isComplete h.isComplete n _, finish_of_unmarked b hrest n false⟩
  | cons e s ih =>
    rw [Script.lines_cons, List.append_assoc]
    by_cases hmore : e.bare = true → s ≠ []
    . obtain ⟨b', r, looked, hread, hfinish⟩ := ih (h.take e.bare) (n + e.lines.length)
      refine ⟨b', r, looked, ?_, ?_⟩
      . rw [readBody_entry h hmore]
        exact hread
      . rw [List.length_append, ← Nat.add_assoc]
        exact hfinish
    . obtain ⟨hbare, hnil⟩ := Classical.not_imp.1 hmore
      rw [not_not] at hnil
      subst hnil
      refine ⟨_, _, false, readBody_last h hbare n rest, ?_⟩
      rw [finish_marker, markNoNewline_take]
      obtain ⟨kind, text, bare⟩ := e
      cases hbare
      rfl

theorem closeRun_take_of_isShared (b : Block) {e : Entry} (h : e.isShared = true) :
    b.closeRun.take e = b.take e := by
  obtain ⟨kind, text, bare⟩ := e
  cases kind <;> simp [Entry.isShared] at h
  cases hrun : b.run <;> simp [take, closeRun, hrun]

theorem take_of_isShared {b : Block} (hrun : b.run = none) {e : Entry} (h : e.isShared = true) :
    (b.take e).run = none ∧ (b.take e).sourceLine = b.sourceLine + 1 ∧
      (b.take e).targetLine = b.targetLine + 1 ∧ (b.take e).hunks = b.hunks := by
  obtain ⟨kind, text, bare⟩ := e
  cases kind <;> simp [Entry.isShared] at h
  simp [take, closeRun, hrun]

theorem take_of_change (b : Block) {e : Entry} (h : e.isShared = false) :
    (b.take e).run = some (b.currentRun.add e) ∧
      (b.take e).sourceLine = b.sourceLine + Script.sourceCount [e] ∧
      (b.take e).targetLine = b.targetLine + Script.targetCount [e] ∧
      (b.take e).hunks = b.hunks := by
  obtain ⟨kind, text, bare⟩ := e
  cases kind
  . simp [Entry.isShared] at h
  . exact ⟨rfl, rfl, rfl, rfl⟩
  . exact ⟨rfl, rfl, rfl, rfl⟩

theorem foldl_take_of_changes {b : Block} {r : Run} (hrun : b.run = some r) {s : Script}
    (h : ∀ e ∈ s, e.isShared = false) :
    (s.foldl take b).run = some (s.foldl Run.add r) ∧
      (s.foldl take b).sourceLine = b.sourceLine + Script.sourceCount s ∧
      (s.foldl take b).targetLine = b.targetLine + Script.targetCount s ∧
      (s.foldl take b).hunks = b.hunks := by
  induction s generalizing b r with
  | nil => exact ⟨hrun, rfl, rfl, rfl⟩
  | cons e s ih =>
    rw [List.forall_mem_cons] at h
    obtain ⟨htake, hsource, htarget, hhunks⟩ := take_of_change b h.1
    have hcurrent : b.currentRun = r := by simp [currentRun, hrun]
    rw [hcurrent] at htake
    obtain ⟨ihrun, ihsource, ihtarget, ihhunks⟩ := ih htake h.2
    rw [List.foldl_cons, List.foldl_cons, ihrun, ihsource, ihtarget, ihhunks, hsource, htarget]
    refine ⟨rfl, ?_, ?_, hhunks⟩
    . rw [Nat.add_assoc, ← Script.sourceCount_append]
      rfl
    . rw [Nat.add_assoc, ← Script.targetCount_append]
      rfl

theorem closeRun_of_run {b : Block} {r : Run} (h : b.run = some r) :
    b.closeRun = { b with hunks := r.toHunk :: b.hunks, run := none } := by
  simp [closeRun, h]

theorem closeRun_foldl_take_of_run {b : Block} (hrun : b.run = none) {run : Script}
    (hne : run ≠ []) (h : ∀ e ∈ run, e.isShared = false) :
    (run.foldl take b).closeRun.run = none ∧
      (run.foldl take b).closeRun.sourceLine = b.sourceLine + Script.sourceCount run ∧
      (run.foldl take b).closeRun.targetLine = b.targetLine + Script.targetCount run ∧
      (run.foldl take b).closeRun.hunks =
        Script.hunk b.sourceLine b.targetLine run :: b.hunks := by
  cases run with
  | nil => contradiction
  | cons e s =>
    rw [List.forall_mem_cons] at h
    obtain ⟨htake, hsource, htarget, hhunks⟩ := take_of_change b h.1
    obtain ⟨hrun', hsource', htarget', hhunks'⟩ := foldl_take_of_changes htake h.2
    have hcurrent : b.currentRun = ⟨b.sourceLine, b.targetLine, [], [], false, false⟩ := by
      simp [currentRun, hrun]
    have hhunk : (s.foldl Run.add (b.currentRun.add e)).toHunk =
        Script.hunk b.sourceLine b.targetLine (e :: s) := by
      rw [hcurrent]
      exact Run.toHunk_foldl_add _ _ (e :: s)
    rw [List.foldl_cons, closeRun_of_run hrun', hhunk]
    refine ⟨rfl, ?_, ?_, ?_⟩
    . dsimp only
      rw [hsource', hsource, Nat.add_assoc, ← Script.sourceCount_append]
      rfl
    . dsimp only
      rw [htarget', htarget, Nat.add_assoc, ← Script.targetCount_append]
      rfl
    . dsimp only
      rw [hhunks', hhunks]

theorem closeRun_foldl_take_closeRun (b : Block) {s : Script}
    (h : ∀ e ∈ s.head?, e.isShared = true) :
    (s.foldl take b.closeRun).closeRun = (s.foldl take b).closeRun := by
  cases s with
  | nil => cases hrun : b.run <;> simp [closeRun, hrun]
  | cons e s =>
    -- a shared line closes the run by itself
    rw [List.foldl_cons, closeRun_take_of_isShared b (h e rfl)]
    rfl

theorem hunks_foldl_take {b : Block} (hrun : b.run = none) (s : Script) :
    (s.foldl take b).closeRun.hunks =
      (Script.hunks b.sourceLine b.targetLine s).reverse ++ b.hunks := by
  -- the induction goes from run to run; between two of them no run is open
  generalize hsource : b.sourceLine = source
  generalize htarget : b.targetLine = target
  fun_induction Script.hunks source target s generalizing b with
  | case1 => simp [closeRun, hrun]
  | case2 source target e rest hshared ih =>
    obtain ⟨htake, hs, ht, hhunks⟩ := take_of_isShared hrun hshared
    rw [List.foldl_cons]
    rw [ih htake (by omega) (by omega), hhunks]
  | case3 source target e rest hshared ih =>
    rw [Bool.not_eq_true] at hshared
    obtain ⟨hclosed, hs, ht, hhunks⟩ := closeRun_foldl_take_of_run hrun
      (Script.run_ne_nil hshared rest) fun _ => Script.isShared_of_mem_run
    rw [hsource] at hs hhunks
    rw [htarget] at ht hhunks
    conv => lhs; rw [← Script.run_append_afterRun (e :: rest)]
    rw [List.foldl_append, Script.afterRun_cons hshared]
    rw [← closeRun_foldl_take_closeRun _ fun _ => Script.isShared_of_mem_head?_afterRun]
    rw [ih hclosed hs ht, hhunks]
    simp

end Block

end Hunk

end Dvcs
