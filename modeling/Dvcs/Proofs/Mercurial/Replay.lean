import Dvcs.Mercurial.Replay
import Dvcs.Proofs.Mercurial.Command
import Dvcs.Proofs.Text.Cut

/-!
This module contains what squashing and rebasing do to history, however the commands answer: nothing
is stripped that has not been exported, and what has been stripped is imported again or restored.
-/

namespace Dvcs

namespace Mercurial

/-- The hg command that arguments call, behind the options that configure hg. -/
def called : List Text → Option Text
  | [] => none
  | [word] => some word
  | word :: _ :: rest => if word = "--config" then called rest else some word

/-- A step that runs a certain hg command. -/
def Calls (name : Text) (s : Step) : Prop := called s.arguments = some name

theorem calls_of_ran {s : Step} {name : Text} {rest : List Text} (h : s.Ran (name :: rest))
    (hname : name ≠ "--config") : Calls name s := by
  unfold Calls
  rw [h]
  cases rest with
  | nil => rfl
  | cons value rest => rw [called, if_neg hname]

/-- The base of the working directory, if a step has told it. -/
def headIn? (s : Step) : Option Hash :=
  if s.Ran ["log", "--rev=(.) and not wdir()", hashTemplate] then
    match s.succeeded, s.outcome.stdout with
    | true, [line] => (Hash.ofText? line).filter (· ≠ .null)
    | _, _ => none
  else none

/-- The active bookmark, if a step has told it. -/
def bookmarkIn? (s : Step) : Option Text :=
  if s.Ran ["log", "--rev=.", "--template=\x7bactivebookmark\x7d"] ∧ s.succeeded = true then
    some (Text.trim s.outcome.stdout.flatten)
  else none

/-- The base of the working directory as some steps have told it. -/
def oldHead (steps : List Step) : Option Hash := steps.findSome? headIn?

/-- The active bookmark as some steps have told it, empty if none is active. -/
def oldBookmark (steps : List Step) : Text := (steps.findSome? bookmarkIn?).getD []

/-- A line that tells of a backup: the name of the file stands behind the first announcement. -/
structure Announces (line name : Text) : Prop where
  ne_nil : name ≠ []
  first : ∃ front, line = front ++ "saved backup bundle to " ++ name ∧
    ∀ front' name', line = front' ++ "saved backup bundle to " ++ name' →
      front.length ≤ front'.length

/-- The backup that some lines report, that of the first line that tells of one. -/
inductive Reports : List Text → Option Path → Prop
  | none {lines : List Text} (h : ∀ line ∈ lines, ∀ name, ¬ Announces line name) :
    Reports lines none
  | some {before after : List Text} {line name : Text}
    (hbefore : ∀ other ∈ before, ∀ name, ¬ Announces other name) (hline : Announces line name) :
    Reports (before ++ line :: after) (some (Path.ofText name.trim))

theorem announces_of_backupOfLine? {line : Text} {path : Path}
    (h : backupOfLine? line = some path) :
    ∃ name, Announces line name ∧ path = Path.ofText name.trim := by
  unfold backupOfLine? at h
  split at h
  . next before c rest hcut =>
    cases h
    refine ⟨c :: rest, ⟨List.cons_ne_nil c rest, before, Text.eq_append_of_cut? hcut, ?_⟩, rfl⟩
    exact fun front' name' => Text.length_le_of_cut? hcut
  . contradiction

theorem not_announces_of_backupOfLine? {line : Text} (h : backupOfLine? line = none) (name : Text) :
    ¬ Announces line name := by
  rintro ⟨hname, front, hline, hfirst⟩
  have hsome := Text.isSome_cut?_append front "saved backup bundle to " name
  rw [← hline] at hsome
  obtain ⟨⟨before, rest⟩, hcut⟩ := Option.isSome_iff_exists.1 hsome
  -- the cut is at the announcement that is meant, so the name is what is left
  have hparts := Text.eq_append_of_cut? hcut
  have hlength : before.length = front.length :=
    Nat.le_antisymm (Text.length_le_of_cut? hcut hline) (hfirst before rest hparts)
  have hrest : rest = name := by
    have hboth := hline.symm.trans hparts
    rw [List.append_assoc, List.append_assoc] at hboth
    exact (List.append_cancel_left (List.append_inj_right hboth hlength.symm)).symm
  unfold backupOfLine? at h
  rw [hcut, hrest] at h
  cases name with
  | nil => exact hname rfl
  | cons c name => cases h

/-- A strip is searched for the backup that it reports. -/
theorem reports_findSome? (lines : List Text) : Reports lines (lines.findSome? backupOfLine?) := by
  cases hfound : lines.findSome? backupOfLine? with
  | none =>
    have hnone := List.findSome?_eq_none_iff.1 hfound
    exact .none fun line hline => not_announces_of_backupOfLine? (hnone line hline)
  | some path =>
    obtain ⟨before, line, after, rfl, hline, hbefore⟩ := List.findSome?_eq_some_iff.1 hfound
    obtain ⟨name, hname, rfl⟩ := announces_of_backupOfLine? hline
    exact .some (fun other hother => not_announces_of_backupOfLine? (hbefore other hother)) hname

/-- The backup that a strip has reported. -/
def BackedUp (strip : Step) (backup : Option Path) : Prop :=
  Reports (strip.outcome.stdout ++ strip.outcome.stderr) backup

/-- A step that only asks. -/
def Asks (s : Step) : Prop := Calls "log" s ∨ Calls "status" s

/-- A successful export to a file, and the updates behind it. -/
def Exports (exported : Text) (patch : Path) (front : List Step) : Prop :=
  ∃ first updates, front = first :: updates ∧
    first.Ran ["export", "--git", "--output=" ++ patch.toText, "--rev=" ++ exported] ∧
    first.succeeded = true ∧ ∀ s ∈ updates, Calls "update" s ∧ s.succeeded = true

theorem Exports.calls {exported : Text} {patch : Path} {front : List Step}
    (h : Exports exported patch front) : ∀ s ∈ front, Calls "export" s ∨ Calls "update" s := by
  obtain ⟨first, updates, rfl, hfirst, _, hupdates⟩ := h
  refine List.forall_mem_cons.2 ⟨.inl (calls_of_ran hfirst (by decide)), fun s hs => ?_⟩
  exact .inr (hupdates s hs).1

/-- A step that strips commits. -/
def Strips (stripped : Text) (s : Step) : Prop :=
  s.Ran ["--config", "extensions.strip=", "strip", "--rev=" ++ stripped]

/-- The commands that bring a backup back: it is unbundled, the working directory goes back to the
old base, and an active bookmark goes back with it and is made active again. -/
def recovery (old : Hash) : Option Path → Text → List (List Text)
  | none, _ => []
  | some backup, [] => [["unbundle", backup.toText], ["update", "--clean", old.hex]]
  | some backup, bookmark =>
    [["unbundle", backup.toText], ["update", "--clean", old.hex],
      ["bookmark", "--force", "--rev=" ++ old.hex, "--", bookmark],
      ["update", "--clean", "--", bookmark]]

/-- What is done when an import has failed, and the error. -/
structure Restores (plan : List (List Text)) (failed : Step) (after : List Step)
    (result : Except Error Unit) : Prop where
  /-- The planned commands are run whatever becomes of them, and the error is that of the import. -/
  whole : plan.all speakable = true →
    after.map Step.arguments = plan ∧ result = .error (.process failed.outcome)
  /-- No file and no bookmark has the null character in its name. Should the output give one that
  has, then the plan ends in front of the command with it, which cannot be started. -/
  broken : plan.all speakable = false →
    after.map Step.arguments = plan.takeWhile speakable ∧ result = .error .nullCharacter

theorem takeWhile_speakable {plan : List (List Text)} (h : plan.all speakable = true) :
    plan.takeWhile speakable = plan :=
  List.takeWhile_eq_self_iff.2 (List.all_eq_true.1 h)

theorem Restores.ran {plan : List (List Text)} {failed : Step} {after : List Step}
    {result : Except Error Unit} (h : Restores plan failed after result) :
    after.map Step.arguments = plan.takeWhile speakable := by
  cases hplan : plan.all speakable with
  | true => rw [(h.whole hplan).1, takeWhile_speakable hplan]
  | false => exact (h.broken hplan).1

theorem Restores.ran_of_mem {old : Hash} {backup : Option Path} {bookmark : Text} {failed s : Step}
    {after : List Step} {result : Except Error Unit}
    (h : Restores (recovery old backup bookmark) failed after result) (hs : s ∈ after) :
    ∃ path, backup = some path ∧
      (s.Ran ["unbundle", path.toText] ∨ s.Ran ["update", "--clean", old.hex] ∨
        s.Ran ["bookmark", "--force", "--rev=" ++ old.hex, "--", bookmark] ∨
        s.Ran ["update", "--clean", "--", bookmark]) := by
  have hmem : s.arguments ∈ recovery old backup bookmark := by
    have htaken : s.arguments ∈ (recovery old backup bookmark).takeWhile speakable := by
      rw [← h.ran]
      exact List.mem_map_of_mem hs
    exact (List.takeWhile_prefix _).subset htaken
  cases backup with
  | none => contradiction
  | some path =>
    refine ⟨path, rfl, ?_⟩
    cases bookmark with
    | nil =>
      simp only [recovery, List.mem_cons, List.not_mem_nil, or_false] at hmem
      exact hmem.imp_right .inl
    | cons c bookmark =>
      simp only [recovery, List.mem_cons, List.not_mem_nil, or_false] at hmem
      exact hmem

/-- A step that imports a file, with some options. -/
def Imports (patch : Path) (s : Step) : Prop :=
  ∃ options : List Text, s.Ran ("import" :: (options ++ [patch.toText]))

/-- The commands behind a strip, and the result. -/
inductive Behind (patch : Path) (strip : Step) (old : Hash) (bookmark : Text) :
    List Step → Except Error Unit → Prop
  | unstripped {e : Error} (hfails : strip.succeeded = false) :
    Behind patch strip old bookmark [] (.error e)
  | imported {last : Step} (hstripped : strip.succeeded = true) (hlast : Imports patch last)
    (hok : last.succeeded = true) : Behind patch strip old bookmark [last] (.ok ())
  | restored {failed : Step} {after : List Step} {backup : Option Path}
    {result : Except Error Unit} (hstripped : strip.succeeded = true)
    (hfailed : Imports patch failed) (hfails : failed.succeeded = false)
    (hbackup : BackedUp strip backup)
    (hafter : Restores (recovery old backup bookmark) failed after result) :
    Behind patch strip old bookmark (failed :: after) result

/-- The commands of a rewrite from the export on, and the result. -/
inductive Rewriting (exported stripped : Text) (old : Hash) (bookmark : Text) :
    List Step → Except Error Unit → Prop
  /-- The commits are still there. -/
  | stopped {steps : List Step} {e : Error} (h : ∀ s ∈ steps, Calls "export" s ∨ Calls "update" s) :
    Rewriting exported stripped old bookmark steps (.error e)
  | stripped {patch : Path} {front behind : List Step} {strip : Step}
    {result : Except Error Unit} (hfront : Exports exported patch front)
    (hstrip : Strips stripped strip) (hbehind : Behind patch strip old bookmark behind result) :
    Rewriting exported stripped old bookmark (front ++ strip :: behind) result

/-- The move of the active bookmark at the end, if there is one. -/
inductive Moves (bookmark : Text) : List Step → Except Error Unit → Prop
  | none (h : bookmark = []) : Moves bookmark [] (.ok ())
  | moved {s : Step} (hs : s.Ran ["bookmark", "--force", "--", bookmark]) :
    Moves bookmark [s] (.ok ())
  | failed {s : Step} {e : Error} (hs : s.Ran ["bookmark", "--force", "--", bookmark]) :
    Moves bookmark [s] (.error e)
  | refused {e : Error} : Moves bookmark [] (.error e)

/-- The commands of a whole rewrite, and the result. `exported` names commits from the working
directory, `stripped` names the same commits from the base that it had. -/
inductive Rewrites (exported : Text) (stripped : Hash → Text) (target : Hash) :
    List Step → Except Error Unit → Prop
  /-- It does not come to a change. -/
  | asked {questions : List Step} {e : Error} (hquestions : ∀ s ∈ questions, Asks s) :
    Rewrites exported stripped target questions (.error e)
  | notUpdated {questions : List Step} {last : Step} {e : Error}
    (hquestions : ∀ s ∈ questions, Asks s) (hlast : last.Ran ["update", "--", target.hex]) :
    Rewrites exported stripped target (questions ++ [last]) (.error e)
  /-- There is nothing to rewrite. -/
  | updated {questions moves : List Step} {last : Step} {result : Except Error Unit}
    (hquestions : ∀ s ∈ questions, Asks s) (hlast : last.Ran ["update", "--", target.hex])
    (hok : last.succeeded = true) (hmoves : Moves (oldBookmark questions) moves result) :
    Rewrites exported stripped target (questions ++ last :: moves) result
  | failed {questions steps : List Step} {old : Hash} {e : Error}
    (hquestions : ∀ s ∈ questions, Asks s)
    (hsome : ∀ s ∈ questions, s.Ran ["log", "--rev=" ++ exported, hashTemplate] →
      s.outcome.stdout ≠ [])
    (hold : oldHead questions = some old)
    (hsteps : Rewriting exported (stripped old) old (oldBookmark questions) steps (.error e)) :
    Rewrites exported stripped target (questions ++ steps) (.error e)
  | rewritten {questions steps moves : List Step} {old : Hash} {result : Except Error Unit}
    (hquestions : ∀ s ∈ questions, Asks s)
    (hsome : ∀ s ∈ questions, s.Ran ["log", "--rev=" ++ exported, hashTemplate] →
      s.outcome.stdout ≠ [])
    (hold : oldHead questions = some old)
    (hsteps : Rewriting exported (stripped old) old (oldBookmark questions) steps (.ok ()))
    (hmoves : Moves (oldBookmark questions) moves result) :
    Rewrites exported stripped target (questions ++ (steps ++ moves)) result

section

variable {places : Places} {r : WorkingCopy} {α : Type} {Q : List Step → Except Error α → Prop}

theorem traces_restoration (hr : isPassable r [] = true) (commands : List (List Text)) :
    Op.Traces places (commands.forM fun arguments => discard <| run r arguments)
      fun steps result => steps.map Step.arguments = commands.takeWhile speakable ∧
        result = if commands.all speakable then .ok () else .error .nullCharacter := by
  induction commands with
  | nil => exact .pure ⟨rfl, rfl⟩
  | cons arguments commands ih =>
    have hspeakable : isPassable r arguments = speakable arguments := by
      rw [isPassable_eq, hr, Bool.true_and]
    rw [List.forM_eq_forM, List.forM_cons]
    refine .discard_bind (traces_run_bind (fun hrefused => ?_) fun s hs => ih.mono ?_)
    . rw [hspeakable] at hrefused
      simp [hrefused]
    . rintro steps result ⟨hsteps, rfl⟩
      have hfirst : speakable arguments = true := hspeakable.symm.trans hs.passable
      have harguments : s.arguments = arguments := hs.ran
      simp [hfirst, harguments, hsteps]

theorem restoration_eq (backup : Path) (old : Hash) (bookmark : Text) :
    restoration backup old bookmark = recovery old (some backup) bookmark := by
  cases bookmark <;> rfl

theorem traces_restore (hr : isPassable r [] = true) (backup : Option Path) (old : Hash)
    (bookmark : Text) :
    Op.Traces places (restore r backup old bookmark) fun steps result =>
      steps.map Step.arguments = (recovery old backup bookmark).takeWhile speakable ∧
        result = if (recovery old backup bookmark).all speakable then .ok ()
          else .error .nullCharacter := by
  cases backup with
  | none => exact .pure ⟨rfl, rfl⟩
  | some backup =>
    rw [← restoration_eq]
    exact traces_restoration hr _

theorem traces_importOrRestore (arguments : List Text) (backup : Option Path) (old : Hash)
    (bookmark : Text) {Q : List Step → Except Error Unit → Prop}
    (hrefused : isPassable r ("import" :: arguments) = false → Q [] (.error .nullCharacter))
    (hok : ∀ last : Step, last.Ran ("import" :: arguments) → last.succeeded = true →
      Q [last] (.ok ()))
    (herror : ∀ (failed : Step) (after : List Step) (result : Except Error Unit),
      failed.Ran ("import" :: arguments) → failed.succeeded = false →
      Restores (recovery old backup bookmark) failed after result → Q (failed :: after) result) :
    Op.Traces places (importOrRestore r arguments backup old bookmark) Q := by
  unfold importOrRestore
  refine traces_run_bind hrefused fun s hs => ?_
  have hr : isPassable r [] = true := by
    have hpassable := hs.passable
    rw [isPassable_eq, Bool.and_eq_true] at hpassable
    exact hpassable.1
  cases hsucceeded : s.succeeded with
  | true =>
    have houtcome : s.outcome.succeeded = true := hsucceeded
    rw [houtcome]
    exact .pure (hok s hs.ran hsucceeded)
  | false =>
    have houtcome : s.outcome.succeeded = false := hsucceeded
    rw [houtcome]
    refine (traces_restore hr backup old bookmark).bind ?_ ?_
    . rintro steps e ⟨hsteps, hresult⟩
      split at hresult
      . cases hresult
      . next hall =>
        cases hresult
        exact herror s steps _ hs.ran hsucceeded
          ⟨fun hplan => absurd hplan hall, fun _ => ⟨hsteps, rfl⟩⟩
    . rintro steps _ ⟨hsteps, hresult⟩
      split at hresult
      . next hall =>
        have hrestores : Restores (recovery old backup bookmark) s steps
            (.error (.process s.outcome)) :=
          ⟨fun hplan => ⟨hsteps.trans (takeWhile_speakable hplan), rfl⟩,
            fun hplan => absurd hall (by simp [hplan])⟩
        exact .throw (by simpa using herror s steps _ hs.ran hsucceeded hrestores)
      . cases hresult

theorem traces_strip_bind {revset : Text} {f : Option Path → Op α}
    (hrefused : Q [] (.error .nullCharacter))
    (herror : ∀ s : Step, Strips revset s → s.succeeded = false →
      Q [s] (.error (.process s.outcome)))
    (hok : ∀ (s : Step) (backup : Option Path), Strips revset s → s.succeeded = true →
      BackedUp s backup → Op.Traces places (f backup) fun more => Q (s :: more)) :
    Op.Traces places (strip r revset >>= f) Q := by
  unfold strip
  rw [bind_assoc]
  refine traces_check_bind (fun _ => hrefused) (fun s hs => herror s hs.ran)
    fun s hs hsucceeded => ?_
  rw [pure_bind]
  exact hok s _ hs.ran hsucceeded (reports_findSome? _)

theorem onlyRuns_restore (backup : Option Path) (hash : Hash) (bookmark : Text) :
    Op.OnlyRuns (fun _ => True) (restore r backup hash bookmark) := by
  cases backup with
  | none => exact .pure _
  | some backup => exact .forM (fun _ => .discard (onlyRuns_run fun _ _ => trivial)) _

theorem onlyRuns_importOrRestore (arguments : List Text) (backup : Option Path) (hash : Hash)
    (bookmark : Text) :
    Op.OnlyRuns (fun _ => True) (importOrRestore r arguments backup hash bookmark) := by
  refine .bind (onlyRuns_run fun _ _ => trivial) fun outcome => ?_
  split
  . exact .bind (onlyRuns_restore _ _ _) fun _ => .throw _
  . exact .pure _

theorem onlyRuns_strip (revset : Text) : Op.OnlyRuns (fun _ => True) (strip r revset) :=
  .bind (onlyRuns_check fun _ _ => trivial) fun _ => .pure _

theorem onlyRuns_exportTo (revset : Text) (target : Path) :
    Op.OnlyRuns (fun _ => True) (exportTo r revset target) :=
  .discard (onlyRuns_check fun _ _ => trivial)

/-- Folding the commits behind the base that they are exported from. -/
theorem onlyRuns_fold (revset : Text) (base : Hash) (patch : Path) :
    Op.OnlyRuns (fun _ => True) (do
      exportTo r revset patch
      let backup ← strip r revset
      importOrRestore r ["--no-commit", patch.toText] backup base []) :=
  .bind (onlyRuns_exportTo _ _) fun _ =>
    .bind (onlyRuns_strip _) fun _ => onlyRuns_importOrRestore _ _ _ _

/-- Replaying commits on top of another one. -/
theorem onlyRuns_replay (target old : Hash) (bookmark : Text) (patch : Path) :
    Op.OnlyRuns (fun _ => True) (do
      exportTo r (onlyFrom "." target) patch
      discard <| check r ["update", "--", target.hex]
      let backup ← strip r (onlyFrom old.hex target)
      importOrRestore r [patch.toText] backup old bookmark) :=
  .bind (onlyRuns_exportTo _ _) fun _ => .bind (.discard (onlyRuns_check fun _ _ => trivial))
    fun _ => .bind (onlyRuns_strip _) fun _ => onlyRuns_importOrRestore _ _ _ _

section

variable {status b q : Step} {rest : List Text} (hstatus : status.Ran ("status" :: rest))
  (hb : b.Ran ["log", "--rev=.", "--template=\x7bactivebookmark\x7d"])
include hstatus

include hb

end

end

end Mercurial

end Dvcs
