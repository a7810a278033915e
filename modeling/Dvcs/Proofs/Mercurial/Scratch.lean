import Dvcs.Proofs.Mercurial.Operation
import Dvcs.Proofs.World.Scope

/-!
This module contains the temporary files of operations on Mercurial repositories: the extension, a
patch to apply, exported commits, and the content of a file at a commit. Each of them is made for
one operation.
-/

namespace Dvcs

/-- A file is named by a word in front of `--`, and no name with its ending is the word `--`. -/
theorem Step.names_of_arguments {s : Step} {path : Path} {suffix word : Text}
    {front rest : List Text} (hdashes : ¬ suffix <:+ ("--" : Text))
    (hsuffix : suffix <:+ path.toText) (hword : path.toText <:+ word)
    (hfront : ∀ other ∈ front, other ≠ ("--" : Text))
    (h : s.arguments = front ++ word :: rest) : s.Names path := by
  have hne : word ≠ ("--" : Text) := fun heq => hdashes (heq ▸ hsuffix.trans hword)
  refine ⟨word, ?_, hword⟩
  rw [Step.ownWords, h, List.takeWhile_append_of_pos (by simpa using hfront)]
  simp [hne]

namespace Mercurial

open Op

variable {α : Type} {r : WorkingCopy} {args : List Text} {P : Step → Prop}

theorem runsFirst_run (h : ∀ s : Step, s.arguments = args → P s) : RunsFirst P (run r args) :=
  .command fun s hcommand => h s (by rw [Step.arguments, hcommand, List.tail_cons])

theorem runsFirst_check (h : ∀ s : Step, s.arguments = args → P s) :
    RunsFirst P (check r args) := by
  refine .bind (.command fun s hcommand => h s ?_) fun result => ?_
  . rw [Step.arguments, hcommand, List.tail_cons]
  . cases result with
    | ok outcome => exact .pure _
    | error outcome => exact .throw _

/-- The file for exported commits. -/
def exported : Scratch := ⟨".patch", []⟩

/-- A command that is told about no patch file. -/
theorem avoids_exported (own : List Text) (hown : args.takeWhile (· ≠ ("--" : Text)) = own)
    (hlast : ∀ word ∈ own, word.getLast? ≠ some (.char 'h')) {s : Step} (hs : s.arguments = args) :
    s.Avoids (some exported) := by
  intro file hfile word hword hends
  obtain rfl : exported = file := Option.some.inj hfile
  have hsuffix : (".patch" : Text).getLast? = some (.char 'h') := rfl
  rw [Step.ownWords, hs, hown] at hword
  obtain ⟨front, rfl⟩ := hends
  exact hlast _ hword (by rw [List.getLast?_append, exported, hsuffix, Option.some_or])

theorem onlyRuns_head : OnlyRuns (Step.Avoids (some exported)) (head r) := by
  have hresolve : OnlyRuns (Step.Avoids (some exported)) (resolve r (.expression ".")) := by
    refine .bind (onlyRuns_run fun _ => avoids_exported _ rfl (by decide)) fun outcome => ?_
    split
    . exact .bind (.ofExcept _) fun _ => .pure _
    . exact .pure _
  exact .bind hresolve fun _ => .pure _

theorem onlyRuns_trackedModifications :
    OnlyRuns (Step.Avoids (some exported)) (trackedModifications r) :=
  .bind (onlyRuns_check fun _ => avoids_exported _ rfl (by decide)) fun _ => .pure _

theorem onlyRuns_activeBookmark : OnlyRuns (Step.Avoids (some exported)) (activeBookmark r) :=
  .bind (onlyRuns_check fun _ => avoids_exported _ rfl (by decide)) fun _ => .pure _

theorem onlyRuns_moveBookmark (bookmark : Text) :
    OnlyRuns (Step.Avoids (some exported)) (moveBookmark r bookmark) := by
  unfold moveBookmark
  split
  . exact .discard (onlyRuns_check fun _ => avoids_exported ["bookmark", "--force"] rfl (by decide))
  . exact .pure _

theorem onlyRuns_replayed (target : Hash) :
    OnlyRuns (Step.Avoids (some exported)) (replayed r target) := by
  let revset : Text := "--rev=" ++ onlyFrom "." target
  have hrevset : revset.getLast? ≠ some (.char 'h') := by
    have hlast : (")" : Text).getLast? = some (.char ')') := rfl
    rw [List.getLast?_append, onlyFrom, List.getLast?_append, hlast, Option.some_or,
      Option.some_or]
    decide
  have hselects : OnlyRuns (Step.Avoids (some exported)) (selectsAny r (onlyFrom "." target)) := by
    refine .bind (onlyRuns_check fun _ => avoids_exported ["log", revset, hashTemplate] rfl ?_)
      fun _ => .pure _
    exact List.forall_mem_cons.2 ⟨by decide, List.forall_mem_cons.2 ⟨hrevset, by decide⟩⟩
  refine .bind onlyRuns_head fun old => ?_
  split
  . exact .pure _
  . refine .bind hselects fun any => ?_
    split <;> exact .pure _

theorem runsFirst_exportTo {revset : Text} {target : Path}
    (hsuffix : exported.suffix <:+ target.toText) :
    RunsFirst (Step.Names · target) (exportTo r revset target) := by
  have hfront : ∀ other ∈ (["export", "--git"] : List Text), other ≠ ("--" : Text) := by decide
  refine .discard (runsFirst_check fun s h => ?_)
  exact s.names_of_arguments (by decide) hsuffix (List.suffix_append _ _) hfront h

theorem scopes_squash (last : Hash) : Scopes r.temporary (some exported) (squash r last) := by
  refine .after onlyRuns_head fun base => ?_
  split
  . exact .of_onlyRuns (.throw _)
  . refine .withTempFile (by decide) fun patch hsuffix => ?_
    refine .bind (runsFirst_exportTo hsuffix) fun _ => ?_
    exact .bind (onlyRuns_strip _) fun _ => onlyRuns_importOrRestore _ _ _ _

theorem scopes_rebase (target : Hash) : Scopes r.temporary (some exported) (rebase r target) := by
  have hupdate : OnlyRuns (Step.Avoids (some exported))
      (Functor.discard (check r ["update", "--", target.hex])) :=
    .discard (onlyRuns_check fun _ => avoids_exported ["update"] rfl (by decide))
  have hmoved (bookmark : Text) := onlyRuns_moveBookmark (r := r) bookmark
  refine .after onlyRuns_trackedModifications fun modified => .ite_throw ?_
  refine .after onlyRuns_activeBookmark fun bookmark => ?_
  refine .after (onlyRuns_replayed target) fun old => ?_
  split
  . exact .of_onlyRuns (hupdate.bind fun _ => hmoved bookmark)
  . refine .before (.withTempFile (by decide) fun patch hsuffix => ?_) fun _ => hmoved bookmark
    refine .bind (runsFirst_exportTo hsuffix) fun _ => ?_
    refine .bind (hupdate.mono fun _ _ => trivial) fun _ => ?_
    exact .bind (onlyRuns_strip _) fun _ => onlyRuns_importOrRestore _ _ _ _

theorem scopes_stream {arguments : List Text} (use : Handle → α × Handle) :
    Scopes r.temporary (some ⟨".py", extensionSource⟩) (stream r arguments use) := by
  let front : List Text := ["--config"]
  have hfront : ∀ other ∈ front, other ≠ ("--" : Text) := by decide
  unfold stream withExtension
  refine .withTempFile (by decide) fun path hsuffix => .command fun s hcommand => ?_
  have harguments : s.arguments =
      front ++ ("extensions.repokit_dump=" ++ path.toText) :: arguments := by
    rw [Step.arguments, hcommand]
    rfl
  exact s.names_of_arguments (by decide) hsuffix (List.suffix_append _ _) hfront harguments

theorem scopes_commits (q : Query) (take : Option Nat) :
    Scopes r.temporary (some ⟨".py", extensionSource⟩) (commits r q take) := by
  unfold commits
  split
  . exact .of_onlyRuns (.pure _)
  . split
    . exact .of_onlyRuns (.pure _)
    . exact scopes_stream _

theorem scopes_metadata (q : Query) :
    Scopes r.temporary (some ⟨".py", extensionSource⟩) (metadata r q) := by
  unfold metadata
  split
  . exact .of_onlyRuns (.pure _)
  . exact .before (scopes_stream _) fun _ => .ofExcept _

theorem scopes_diff (source : Hash) (target : Option Hash) :
    Scopes r.temporary (some ⟨".py", extensionSource⟩) (diff r source target) :=
  .before (scopes_stream _) fun _ => .bind (.ofExcept _) fun _ => .pure _

theorem scopes_content (path : Path) (hash : Hash) :
    Scopes r.temporary (some ⟨".bin", []⟩) (content r path hash) := by
  have hfront : ∀ other ∈ (["cat"] : List Text), other ≠ ("--" : Text) := by decide
  refine .withTempFile (by decide) fun output hsuffix => ?_
  refine .bind (runsFirst_run fun s h => ?_) fun outcome => ?_
  . exact s.names_of_arguments (by decide) hsuffix (List.suffix_append _ _) hfront h
  . split
    . exact .bind (.readFile _) fun _ => .pure _
    . exact .pure _

theorem scopes_apply (change : Change) (force : Bool) :
    Scopes r.temporary change.scratch? (apply r change force) := by
  cases change with
  | file path =>
    refine .of_onlyRuns (.discard (onlyRuns_check fun s _ => ?_))
    nofun
  | diff diff =>
    let front : List Text := "import" :: "--no-commit" :: if force then ["--force"] else []
    have hfront : ∀ other ∈ front, other ≠ ("--" : Text) := by cases force <;> decide
    unfold Mercurial.apply Change.scratch?
    refine .withTempFile (by decide) fun path hsuffix => .discard (runsFirst_check fun s h => ?_)
    exact s.names_of_arguments (by decide) hsuffix List.suffix_rfl hfront h

/-- The operations that use a temporary file, and which one that is. -/
inductive Operation.Uses : Operation → Option Scratch → Prop
  | metadata (q : Query) : Uses (.metadata q) (some ⟨".py", extensionSource⟩)
  | commits (q : Query) (take : Option Nat) : Uses (.commits q take) (some ⟨".py", extensionSource⟩)
  | diff (source : Hash) (target : Option Hash) :
    Uses (.diff source target) (some ⟨".py", extensionSource⟩)
  | apply (change : Change) (force : Bool) : Uses (.apply change force) change.scratch?
  | squash (last : Hash) : Uses (.squash last) (some exported)
  | rebase (target : Hash) (author : Author) : Uses (.rebase target author) (some exported)
  | content (path : Path) (hash : Hash) : Uses (.content path hash) (some ⟨".bin", []⟩)

theorem scopes_run {operation : Operation} {scratch : Option Scratch}
    (h : operation.Uses scratch) : Scopes r.temporary scratch (operation.run r) := by
  cases h with
  | metadata q => exact .discard (scopes_metadata q)
  | commits q take => exact .discard (scopes_commits q take)
  | diff source target => exact .discard (scopes_diff source target)
  | apply change force => exact scopes_apply change force
  | squash last => exact scopes_squash last
  | rebase target author => exact scopes_rebase target
  | content path hash => exact .discard (scopes_content path hash)

end Mercurial

end Dvcs
