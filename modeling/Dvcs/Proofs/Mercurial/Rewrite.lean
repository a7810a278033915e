import Dvcs.Proofs.Mercurial.Replay

/-!
This module contains the promises of squashing and rebasing: nothing is stripped that has not been
exported, what has been stripped is imported again or restored, and the bookmark moves last.
-/

namespace Dvcs

namespace Mercurial

/-- A step that runs one of several hg commands. -/
def CallsOneOf (names : List Text) (s : Step) : Prop := ∃ name ∈ names, Calls name s

theorem CallsOneOf.not_calls {names : List Text} {name : Text} {s : Step} (h : CallsOneOf names s)
    (hname : name ∉ names) : ¬ Calls name s := by
  obtain ⟨other, hmem, hother⟩ := h
  intro hcalls
  obtain rfl := Option.some.inj (hother.symm.trans hcalls)
  exact hname hmem

theorem CallsOneOf.mono {names more : List Text} {s : Step} (h : CallsOneOf names s)
    (hsubset : names ⊆ more) : CallsOneOf more s := by
  obtain ⟨name, hmem, hname⟩ := h
  exact ⟨name, hsubset hmem, hname⟩

theorem Asks.callsOneOf {s : Step} (h : Asks s) : CallsOneOf ["log", "status"] s := by
  rcases h with h | h
  . exact ⟨"log", by simp, h⟩
  . exact ⟨"status", by simp, h⟩

theorem Exports.callsOneOf {exported : Text} {patch : Path} {front : List Step}
    (h : Exports exported patch front) : ∀ s ∈ front, CallsOneOf ["export", "update"] s := by
  obtain ⟨first, updates, rfl, hfirst, _, hupdates⟩ := h
  intro s hs
  rcases List.mem_cons.1 hs with rfl | hs
  . exact ⟨"export", by simp, calls_of_ran hfirst (by decide)⟩
  . exact ⟨"update", by simp, (hupdates s hs).1⟩

theorem Moves.callsOneOf {bookmark : Text} {moves : List Step} {result : Except Error Unit}
    (h : Moves bookmark moves result) : ∀ s ∈ moves, CallsOneOf ["bookmark"] s := by
  intro s hs
  cases h with
  | none => contradiction
  | moved hran =>
    obtain rfl := List.mem_singleton.1 hs
    exact ⟨"bookmark", by simp, calls_of_ran hran (by decide)⟩
  | failed hran =>
    obtain rfl := List.mem_singleton.1 hs
    exact ⟨"bookmark", by simp, calls_of_ran hran (by decide)⟩
  | refused => contradiction

theorem Restores.callsOneOf {backup : Option Path} {old : Hash} {bookmark : Text} {failed : Step}
    {after : List Step} {result : Except Error Unit}
    (h : Restores (recovery old backup bookmark) failed after result) :
    ∀ s ∈ after, CallsOneOf ["unbundle", "update", "bookmark"] s := by
  intro s hs
  obtain ⟨path, _, hran | hran | hran | hran⟩ := h.ran_of_mem hs
  . exact ⟨"unbundle", by simp, calls_of_ran hran (by decide)⟩
  . exact ⟨"update", by simp, calls_of_ran hran (by decide)⟩
  . exact ⟨"bookmark", by simp, calls_of_ran hran (by decide)⟩
  . exact ⟨"update", by simp, calls_of_ran hran (by decide)⟩

/-- What stands around the import of a rewrite: a successful strip before it, and if the import
fails, behind it the commands that bring back the backup that the strip has reported, if any. -/
structure Restored (before : List Step) (last : Step) (after : List Step)
    (result : Except Error Unit) : Prop where
  strip : ∃ front strip old, before = front ++ [strip] ∧ Calls "strip" strip ∧
    strip.succeeded = true ∧ oldHead before = some old ∧
    (last.succeeded = false → ∃ backup, BackedUp strip backup ∧
      Restores (recovery old backup (oldBookmark before)) last after result)

/-- What stands around the move of the bookmark in a rewrite that has succeeded: it comes last,
behind the import, or behind the update if nothing has been changed before that. -/
structure Concludes (target : Hash) (before : List Step) (move : Step) (after : List Step) :
    Prop where
  last : after = []
  ran : move.Ran ["bookmark", "--force", "--", oldBookmark before]
  settled : ∃ front step, before = front ++ [step] ∧ step.succeeded = true ∧
    (Calls "import" step ∨
      step.Ran ["update", "--", target.hex] ∧ ∀ s ∈ front, Asks s)

variable {exported : Text} {stripped : Hash → Text} {target : Hash} {steps : List Step}
  {result : Except Error Unit}

theorem Strips.calls {revset : Text} {s : Step} (h : Strips revset s) : Calls "strip" s := by
  unfold Calls
  rw [h]
  rfl

theorem Imports.calls {patch : Path} {s : Step} (h : Imports patch s) : Calls "import" s := by
  obtain ⟨options, hran⟩ := h
  exact calls_of_ran hran (by decide)

theorem Imports.getLast? {patch : Path} {s : Step} (h : Imports patch s) :
    s.arguments.getLast? = some patch.toText := by
  obtain ⟨options, hran⟩ := h
  rw [show s.arguments = _ from hran, ← List.cons_append, List.getLast?_concat]

/-- The commands in front of a strip, and the strip itself. -/
structure Prepares (exported : Text) (stripped : Hash → Text) (questions : List Step) (old : Hash)
    (patch : Path) (front : List Step) (strip : Step) : Prop where
  asks : ∀ s ∈ questions, Asks s
  told : oldHead questions = some old
  exports : Exports exported patch front
  strips : Strips (stripped old) strip

section

variable {questions front : List Step} {strip : Step} {old : Hash} {patch : Path}

theorem Prepares.callsOneOf
    (h : Prepares exported stripped questions old patch front strip) :
    ∀ s ∈ questions ++ front, CallsOneOf ["log", "status", "export", "update"] s := by
  refine List.forall_mem_append.2 ⟨fun s hs => ?_, fun s hs => ?_⟩
  . exact (h.asks s hs).callsOneOf.mono (by decide)
  . exact (h.exports.callsOneOf s hs).mono (by decide)

end

theorem oldHead_append {questions more : List Step} {old : Hash}
    (hold : oldHead questions = some old) : oldHead (questions ++ more) = some old := by
  unfold oldHead at hold ⊢
  rw [List.findSome?_append, hold, Option.some_or]

/-- Only a log command can tell of the bookmark. -/
theorem oldBookmark_append {questions more : List Step} (hmore : ∀ s ∈ more, ¬ Calls "log" s) :
    oldBookmark (questions ++ more) = oldBookmark questions := by
  have hnone : more.findSome? bookmarkIn? = none := by
    refine List.findSome?_eq_none_iff.2 fun s hs => if_neg fun hran => ?_
    exact hmore s hs (calls_of_ran hran.1 (by decide))
  unfold oldBookmark
  rw [List.findSome?_append, hnone, Option.or_none]

theorem Prepares.restored {questions front after : List Step} {strip last : Step} {old : Hash}
    {patch : Path} (h : Prepares exported stripped questions old patch front strip)
    (hstripped : strip.succeeded = true)
    (hafter : last.succeeded = false → ∃ backup, BackedUp strip backup ∧
      Restores (recovery old backup (oldBookmark questions)) last after result) :
    Restored (questions ++ front ++ [strip]) last after result := by
  have hbookmark : oldBookmark (questions ++ front ++ [strip]) = oldBookmark questions := by
    rw [List.append_assoc]
    refine oldBookmark_append (List.forall_mem_append.2 ⟨fun s hs => ?_, ?_⟩)
    . exact (h.exports.callsOneOf s hs).not_calls (by decide)
    . have hnames : CallsOneOf ["strip"] strip := ⟨"strip", by simp, h.strips.calls⟩
      simpa using hnames.not_calls (by decide)
  have hhead : oldHead (questions ++ front ++ [strip]) = some old := by
    rw [List.append_assoc]
    exact oldHead_append h.told
  refine ⟨questions ++ front, strip, old, rfl, h.strips.calls, hstripped, hhead, ?_⟩
  rw [hbookmark]
  exact hafter

section

variable {patch : Path} {strip : Step} {old : Hash} {bookmark revset : Text} {behind : List Step}

theorem Behind.callsOneOf (h : Behind patch strip old bookmark behind result) :
    ∀ s ∈ behind, CallsOneOf ["import", "unbundle", "update", "bookmark"] s := by
  cases h with
  | unstripped => exact List.forall_mem_nil _
  | imported hstripped hlast hok => simpa using ⟨"import", by simp, hlast.calls⟩
  | restored hstripped hfailed hfails hbackup hafter =>
    refine List.forall_mem_cons.2 ⟨⟨"import", by simp, hfailed.calls⟩, fun s hs => ?_⟩
    exact (hafter.callsOneOf s hs).mono (by decide)

theorem Rewriting.callsOneOf (h : Rewriting exported revset old bookmark steps result) :
    ∀ s ∈ steps,
      CallsOneOf ["export", "update", "strip", "import", "unbundle", "bookmark"] s := by
  cases h with
  | stopped h =>
    intro s hs
    rcases h s hs with h | h
    . exact ⟨"export", by simp, h⟩
    . exact ⟨"update", by simp, h⟩
  | stripped hfront hstrip hbehind =>
    refine List.forall_mem_append.2 ⟨fun s hs => (hfront.callsOneOf s hs).mono (by decide), ?_⟩
    refine List.forall_mem_cons.2 ⟨⟨"strip", by simp, hstrip.calls⟩, fun s hs => ?_⟩
    exact (hbehind.callsOneOf s hs).mono (by decide)

end

theorem Rewrites.moved (h : Rewrites exported stripped target steps (.ok ()))
    (hbookmark : oldBookmark steps ≠ []) :
    ∃ before move, steps = before ++ [move] ∧ Calls "bookmark" move := by
  have hmoves {questions front moves : List Step} (hfront : ∀ s ∈ front, ¬ Calls "log" s)
      (hmoves : Moves (oldBookmark questions) moves (.ok ()))
      (hne : oldBookmark (questions ++ front ++ moves) ≠ []) :
      ∃ move, moves = [move] ∧ Calls "bookmark" move := by
    cases hmoves with
    | none hempty =>
      rw [List.append_nil, oldBookmark_append hfront] at hne
      contradiction
    | moved hran => exact ⟨_, rfl, calls_of_ran hran (by decide)⟩
  cases h with
  | @updated questions moves last _ hquestions hlast hok hmoves' =>
    have hupdate : CallsOneOf ["update"] last := ⟨"update", by simp, calls_of_ran hlast (by decide)⟩
    rw [List.append_cons] at hbookmark ⊢
    obtain ⟨move, rfl, hmove⟩ := hmoves
      (by simpa using hupdate.not_calls (by decide)) hmoves' hbookmark
    exact ⟨_, move, rfl, hmove⟩
  | @rewritten questions steps moves old _ hquestions hsome hold hsteps hmoves' =>
    rw [← List.append_assoc] at hbookmark ⊢
    obtain ⟨move, rfl, hmove⟩ := hmoves
      (fun s hs => (hsteps.callsOneOf s hs).not_calls (by decide)) hmoves' hbookmark
    exact ⟨_, move, rfl, hmove⟩

end Mercurial

end Dvcs
