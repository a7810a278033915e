import Dvcs.Mercurial
import Dvcs.Proofs.Mercurial.Form

/-!
This module contains all operations on Mercurial repositories, and the forms of the commands that
they run. There is one operation that hands a text of its caller to hg where an option can stand.
-/

namespace Dvcs

namespace Mercurial

/-- An operation with everything that its caller supplies. -/
inductive Operation where
  | root
  | head
  | currentBranch
  | branches
  | tags
  | resolve (revision : Revision)
  | lookup (reference : Reference)
  | metadata (q : Query)
  | commits (q : Query) (take : Option Nat)
  | diff (source : Hash) (target : Option Hash)
  | mergeBase (first second : Hash)
  | isAncestor (ancestor descendant : Hash)
  | isValidRange (expression : Text)
  | isClean
  | isHealthy
  | isEmpty
  | isThere
  | username
  | config (key : Text)
  | pullPath (remote : Text)
  | pushPath (remote : Text)
  | setPaths (remote source : Text) (target : Option Text)
  | addRemote (name path : Text)
  | trackedBranch (branch : Branch)
  | clean
  | close
  | init
  | initAgain
  | clone (uri : Text) (target : Path) (command : Text) (temporary : Option Path)
  | containing (path : Path) (command : Text) (temporary : Option Path)
  | copyTo (target : Path)
  | checkout (target : Target) (force : Bool)
  | commit (c : CommitRequest)
  | amend (c : CommitRequest)
  | tag (hash : Hash) (name message : Text) (author : Author)
  | branch (hash : Hash) (name : Text)
  | rebase (target : Hash) (author : Author)
  | squash (last : Hash)
  | merge (hash : Hash) (strategy name email : Option Text)
  | apply (change : Change) (force : Bool)
  | fetch (uri refspec : Text)
  | push (hash : Hash) (uri ref : Text) (force : Bool)
  | pushAll (uri : Text)
  | pull (remote refspec : Option Text)
  | add (paths : List Path)
  | remove (paths : List Path)
  | move (source target : Path)
  | copy (source target : Path)
  | content (path : Path) (hash : Hash)

namespace Operation

/-- Runs an operation on a repository, whatever it answers. -/
def run (r : WorkingCopy) : Operation → Op Unit
  | root => discard (repository r).root
  | head => discard (repository r).head
  | currentBranch => discard (repository r).currentBranch
  | branches => discard (repository r).branches
  | tags => discard (repository r).tags
  | resolve revision => discard ((repository r).resolve revision)
  | lookup reference => discard ((repository r).lookup reference)
  | metadata q => discard ((repository r).metadata q)
  | commits q take => discard ((repository r).commits q take)
  | diff source target => discard ((repository r).diff source target)
  | mergeBase first second => discard ((repository r).mergeBase first second)
  | isAncestor ancestor descendant => discard ((repository r).isAncestor ancestor descendant)
  | isValidRange expression => discard ((repository r).isValidRange expression)
  | isClean => discard (repository r).isClean
  | isHealthy => discard (repository r).isHealthy
  | isEmpty => discard (repository r).isEmpty
  | isThere => discard (repository r).exists?
  | username => discard (repository r).username
  | config key => discard ((repository r).config key)
  | pullPath remote => discard ((repository r).pullPath remote)
  | pushPath remote => discard ((repository r).pushPath remote)
  | setPaths remote source target => (repository r).setPaths remote source target
  | addRemote name path => (repository r).addRemote name path
  | trackedBranch tracked => discard ((repository r).trackedBranch tracked)
  | clean => (repository r).clean
  | close => (repository r).close
  | init => discard (repository r).init
  | initAgain => discard <| Repository.reinitialize (repository r)
  | clone uri target command temporary => discard (Mercurial.clone uri target command temporary)
  | containing path command temporary => discard (Mercurial.containing path command temporary)
  | copyTo target => discard ((repository r).copyTo target)
  | checkout target force => (repository r).checkout target force
  | commit c => discard ((repository r).commit c)
  | amend c => discard ((repository r).amend c)
  | tag hash name message author => discard ((repository r).tag hash name message author)
  | branch hash name => discard ((repository r).branch hash name)
  | rebase target author => (repository r).rebase target author
  | squash last => (repository r).squash last
  | merge hash strategy name email => (repository r).merge hash strategy name email
  | apply change force => (repository r).apply change force
  | fetch uri refspec => discard ((repository r).fetch uri refspec)
  | push hash uri ref force => (repository r).push hash uri ref force
  | pushAll uri => (repository r).pushAll uri
  | pull remote refspec => (repository r).pull remote refspec
  | add paths => (repository r).add paths
  | remove paths => (repository r).remove paths
  | move source target => (repository r).move source target
  | copy source target => (repository r).copy source target
  | content path hash => discard ((repository r).content path hash)

/-- The form of the question for the commits that an expression names. -/
def askHashes : Form := ["log", .valued "--rev=", .fixed hashTemplate]

def askModifications : Form :=
  ["status", "--modified", "--added", "--removed", "--deleted", "--no-status"]

def askBookmark : Form := ["log", "--rev=.", "--template=\x7bactivebookmark\x7d"]

def askNames : List Form :=
  [["branches", "--template=\x7bbranch\x7d\\n"], ["bookmarks", "--template=\x7bbookmark\x7d\\n"]]

/-- A slot that is there under a condition. -/
def optional (isThere : Bool) (slot : Slot) : Form := if isThere then [slot] else []

/-- The form of a command of the extension. -/
def extended (form : Form) : Form := "--config" :: .valued "extensions.repokit_dump=" :: form

def selection (q : Query) : Form :=
  optional q.limit.isSome (.valued "--limit=") ++ optional q.reverse "--reverse"

def exportCommits : Form := ["export", "--git", .valued "--output=", .valued "--rev="]

def stripCommits : Form := ["--config", "extensions.strip=", "strip", .valued "--rev="]

def restorations : List Form :=
  [["unbundle", .backup], ["update", "--clean", .commit],
    ["bookmark", "--force", .valued "--rev="], ["update", "--clean"]]

/-- The forms of the commands of an operation. They show which options there are, and none of the
texts of the caller but the patch file to apply. -/
def forms : Operation → List Form
  | root | isHealthy | isThere | username | config _ | pullPath _ | pushPath _ | setPaths _ _ _
  | addRemote _ _ | trackedBranch _ | close | amend _ => []
  | head | resolve _ | mergeBase _ _ | isAncestor _ _ => [askHashes]
  | currentBranch => [askBookmark, ["branch"]]
  | branches => askNames
  | tags => [["tags"]]
  | lookup _ => [askHashes, extended ["repokit-log", .valued "--limit="]]
  | metadata q => [extended ("repokit-log" :: "--no-diffs" :: selection q)]
  | commits q _ => [extended ("repokit-log" :: selection q)]
  | diff _ _ => [extended ["repokit-diff"]]
  | isValidRange _ => [["log", "--template= ", .valued "--rev="]]
  | isClean => [["status"]]
  | isEmpty => ["tags"] :: askHashes :: askNames
  | clean =>
    [["merge", "--abort"], ["recover"], ["status", "--ignored", "--no-status"],
      ["status", "--unknown", "--no-status"], ["revert", "--no-backup", "--all"]]
  | init | initAgain => [["init"]]
  | clone _ _ _ _ | copyTo _ => [["clone"]]
  | containing _ _ _ => [["root"]]
  | checkout _ force =>
    [askModifications, ["update", .fixed (if force then "--clean" else "--check")]]
  | commit c =>
    ["commit" :: .valued "--message=" :: .valued "--user=" ::
      optional c.authorDate.isSome (.valued "--date="), askHashes]
  | tag _ _ _ _ => [["tag", .valued "--message=", .valued "--user=", .valued "--rev="]]
  | branch _ _ => [["bookmark", .valued "--rev="]]
  | rebase _ _ =>
    askModifications :: askBookmark :: askHashes :: exportCommits :: stripCommits :: ["update"] ::
      ["import", .scratch] :: ["bookmark", "--force"] :: restorations
  | squash _ =>
    askHashes :: exportCommits :: stripCommits :: ["import", "--no-commit", .scratch] ::
      restorations
  | merge _ strategy _ _ =>
    ["merge" :: .valued "--rev=" :: optional strategy.isSome (.valued "--tool=")]
  | apply (.diff _) force => ["import" :: "--no-commit" :: (optional force "--force" ++ [.scratch])]
  | apply (.file path) force =>
    ["import" :: "--no-commit" :: (optional force "--force" ++ [.given path.toText])]
  | fetch _ _ => [["heads", .fixed hashTemplate], ["pull", .valued "--rev="], askHashes]
  | push _ _ _ force => ["push" :: .valued "--rev=" :: optional force "--force"]
  | pushAll _ => [["push", "--new-branch"]]
  | pull _ refspec =>
    ["pull" :: "--update" :: optional refspec.isSome (.valued "--branch=")]
  | add _ => [["add"]]
  | remove _ => [["remove"]]
  | move _ _ => [["move"]]
  | copy _ _ => [["copy"]]
  | content _ _ => [["cat", .valued "--output=", .valued "--rev="]]

theorem mem_optional {isThere : Bool} {slot other : Slot} :
    other ∈ optional isThere slot ↔ isThere = true ∧ other = slot := by
  cases isThere <;> simp [optional]

/-- Only the application of a patch file puts a text of its caller where an option can stand. -/
theorem eq_apply_of_given {operation : Operation} {form : Form} {text : Text}
    (hform : form ∈ operation.forms) (h : .given text ∈ form) :
    ∃ path force, operation = .apply (.file path) force ∧ text = path.toText := by
  have hnot (forms : List Form) (hforms : ∀ form ∈ forms, .given text ∉ form)
      (hmem : form ∈ forms) : False := hforms form hmem h
  cases operation with
  | apply change force =>
    cases change with
    | file path =>
      obtain rfl := List.mem_singleton.1 hform
      simp [mem_optional] at h
      exact ⟨path, force, rfl, h⟩
    | diff diff =>
      refine (hnot _ ?_ hform).elim
      simp [forms, mem_optional]
  | _ =>
    refine (hnot _ ?_ hform).elim
    simp [forms, askHashes, askModifications, askBookmark, askNames, extended, selection,
      exportCommits, stripCommits, restorations, mem_optional]

end Operation

namespace Issues

open Operation

variable {places : Places} {r : WorkingCopy}

section

variable {forms : List Form}

theorem resolve (h : askHashes ∈ forms) (revision : Revision) :
    Issues places forms (Mercurial.resolve r revision) := by
  refine bind (run h (.cons rfl (.cons ⟨rfl, _, rfl⟩ (.cons rfl .nil)))) fun outcome => ?_
  split
  . exact bind (ofExcept _) fun _ => pure _
  . exact pure _

theorem head (h : askHashes ∈ forms) : Issues places forms (Mercurial.head r) :=
  bind (resolve h _) fun _ => pure _

theorem activeBookmark (h : askBookmark ∈ forms) :
    Issues places forms (Mercurial.activeBookmark r) :=
  bind (check h (.cons rfl (.cons rfl (.cons rfl .nil)))) fun _ => pure _

theorem trackedModifications (h : askModifications ∈ forms) :
    Issues places forms (Mercurial.trackedModifications r) :=
  bind (check h (.cons rfl (.cons rfl (.cons rfl (.cons rfl (.cons rfl (.cons rfl .nil)))))))
    fun _ => pure _

end

theorem currentBranch :
    Issues places Operation.currentBranch.forms (Mercurial.currentBranch r) := by
  refine bind (activeBookmark (.head _)) fun bookmark => ?_
  split
  . exact pure _
  . refine bind (check (.tail _ (.head _)) (.cons rfl .nil)) fun outcome => ?_
    split <;> exact pure _

theorem branches : Issues places Operation.branches.forms (Mercurial.branches r) :=
  bind (check (.head _) (.cons rfl (.cons rfl .nil))) fun _ =>
    bind (check (.tail _ (.head _)) (.cons rfl (.cons rfl .nil))) fun _ => pure _

theorem tags : Issues places Operation.tags.forms (Mercurial.tags r) :=
  bind (check (.head _) (.cons rfl .nil)) fun _ => pure _

theorem mergeBase (first second : Hash) :
    Issues places (Operation.mergeBase first second).forms
      (Mercurial.mergeBase r first second) := by
  refine bind (check (.head _) (.cons rfl (.cons ⟨rfl, _, rfl⟩ (.cons rfl .nil))))
    fun outcome => ?_
  split
  . split
    . exact ofExcept _
    . exact throw _
  . exact throw _

theorem isAncestor (ancestor descendant : Hash) :
    Issues places (Operation.isAncestor ancestor descendant).forms
      (Mercurial.isAncestor r ancestor descendant) :=
  bind (check (.head _) (.cons rfl (.cons ⟨rfl, _, rfl⟩ (.cons rfl .nil)))) fun _ => pure _

theorem isValidRange (expression : Text) :
    Issues places (Operation.isValidRange expression).forms
      (Mercurial.isValidRange r expression) :=
  bind (run (.head _) (.cons rfl (.cons rfl (.cons ⟨rfl, _, rfl⟩ .nil)))) fun _ => pure _

theorem isEmpty : Issues places Operation.isEmpty.forms (Mercurial.isEmpty r) := by
  have hbranches : Issues places Operation.isEmpty.forms (Mercurial.branches r) :=
    branches.mono fun _ h => .tail _ (.tail _ h)
  have htags : Issues places Operation.isEmpty.forms (Mercurial.tags r) :=
    tags.mono (List.cons_subset.2 ⟨.head _, List.nil_subset _⟩)
  have htip : Issues places Operation.isEmpty.forms (do
      return ((← Mercurial.resolve r (.expression "tip")).filter (· ≠ .null)).isNone) :=
    bind (resolve (.tail _ (.head _)) _) fun _ => pure _
  unfold Mercurial.isEmpty
  refine bind hbranches fun branches => ?_
  split
  . exact pure _
  . refine bind htags fun tags => ?_
    split
    . exact pure _
    . exact htip

theorem checkout (target : Target) (force : Bool) :
    Issues places (Operation.checkout target force).forms (Mercurial.checkout r target force) := by
  have hupdate : Issues places (Operation.checkout target force).forms
      (Functor.discard (Mercurial.check r
        ["update", if force then "--clean" else "--check", "--", target.text])) :=
    discard (check (.tail _ (.head _)) (.cons rfl (.cons rfl .dashes)))
  unfold Mercurial.checkout
  dsimp only
  split
  . exact bind (trackedModifications (.head _)) fun modified => ite_throw hupdate
  . exact hupdate

theorem commit (c : CommitRequest) :
    Issues places (Operation.commit c).forms (Mercurial.commit r c) := by
  have hform : askHashes ∈ (Operation.commit c).forms := .tail _ (.head _)
  unfold Mercurial.commit
  refine ite_throw (ite_throw (bind (discard (check (.head _) ?_)) fun _ => ?_))
  . have hrest : (optional c.authorDate.isSome (.valued "--date=")).Covers []
        (c.authorDate.toList.map fun date => "--date=" ++ Text.ofInt date.seconds ++ " 0") := by
      cases c.authorDate with
      | none => exact .nil
      | some date => exact .cons ⟨rfl, _, List.append_assoc _ _ _⟩ .nil
    simpa using .cons rfl (.cons ⟨rfl, _, rfl⟩ (.cons ⟨rfl, _, rfl⟩ hrest))
  . refine bind (head hform) fun found => ?_
    split
    . exact pure _
    . exact throw _

theorem tag (hash : Hash) (name message : Text) (author : Author) :
    Issues places (Operation.tag hash name message author).forms
      (Mercurial.tag r hash name message author) :=
  bind (discard (check (.head _)
    (.cons rfl (.cons ⟨rfl, _, rfl⟩ (.cons ⟨rfl, _, rfl⟩ (.cons ⟨rfl, _, rfl⟩ .dashes))))))
    fun _ => pure _

theorem branch (hash : Hash) (name : Text) :
    Issues places (Operation.branch hash name).forms (Mercurial.branch r hash name) :=
  bind (discard (check (.head _) (.cons rfl (.cons ⟨rfl, _, rfl⟩ .dashes)))) fun _ => pure _

theorem merge (hash : Hash) (strategy name email : Option Text) :
    Issues places (Operation.merge hash strategy name email).forms
      (Mercurial.merge r hash strategy) := by
  refine discard (check (.head _) (.cons rfl (.cons ⟨rfl, _, rfl⟩ ?_)))
  cases strategy with
  | none => exact .nil
  | some strategy => exact .cons ⟨rfl, _, rfl⟩ .nil

theorem apply (change : Change) (force : Bool)
    (hrooted :
      (places.directory.join (r.temporary.getD places.temporary)).root.head? = some (.char '/')) :
    Issues places (Operation.apply change force).forms (Mercurial.apply r change force) := by
  cases change with
  | file path =>
    refine discard (check (.head _) ?_)
    cases force with
    | false => exact .cons rfl (.cons rfl (.cons rfl .nil))
    | true => exact .cons rfl (.cons rfl (.cons rfl (.cons rfl .nil)))
  | diff diff =>
    unfold Mercurial.apply
    refine withTempFile (by decide) hrooted (fun _ => .discard (onlyRuns_check fun _ _ => trivial))
      fun path hpath => discard (check (.head _) ?_)
    cases force with
    | false => exact .cons rfl (.cons rfl (.cons ⟨path, hpath, rfl⟩ .nil))
    | true => exact .cons rfl (.cons rfl (.cons rfl (.cons ⟨path, hpath, rfl⟩ .nil)))

theorem add (paths : List Path) :
    Issues places (Operation.add paths).forms (Mercurial.add r paths) :=
  discard (check (.head _) (.cons rfl .dashes))

theorem remove (paths : List Path) :
    Issues places (Operation.remove paths).forms (Mercurial.remove r paths) :=
  discard (check (.head _) (.cons rfl .dashes))

theorem move (source target : Path) :
    Issues places (Operation.move source target).forms (Mercurial.move r source target) :=
  discard (check (.head _) (.cons rfl .dashes))

theorem copy (source target : Path) :
    Issues places (Operation.copy source target).forms (Mercurial.copy r source target) :=
  discard (check (.head _) (.cons rfl .dashes))

theorem content (path : Path) (hash : Hash)
    (hrooted :
      (places.directory.join (r.temporary.getD places.temporary)).root.head? = some (.char '/')) :
    Issues places (Operation.content path hash).forms (Mercurial.content r path hash) := by
  have hruns (output : Path) : Op.OnlyRuns (fun _ => True) (do
      let outcome ← Mercurial.run r
        ["cat", "--output=" ++ output.toText, "--rev=" ++ hash.hex, "--", path.toText]
      if outcome.succeeded then return some (← Op.readFile output) else return none) := by
    refine .bind (onlyRuns_run fun _ _ => trivial) fun outcome => ?_
    split
    . exact .bind (.readFile _) fun _ => .pure _
    . exact .pure _
  unfold Mercurial.content
  refine withTempFile (by decide) hrooted hruns fun output _ => ?_
  refine bind (run (.head _) (.cons rfl (.cons ⟨rfl, _, rfl⟩ (.cons ⟨rfl, _, rfl⟩ .dashes))))
    fun outcome => ?_
  split
  . exact bind (of_silent (.readFile _)) fun _ => pure _
  . exact pure _

theorem deleteListed {forms : List Form} {kind : Text}
    (h : (["status", .fixed kind, "--no-status"] : Form) ∈ forms) :
    Issues places forms (Mercurial.deleteListed r kind) :=
  bind (check h (.cons rfl (.cons rfl (.cons rfl .nil)))) fun _ =>
    of_silent (.forM (fun _ => .unlinkIfThere _) _)

theorem clean : Issues places Operation.clean.forms (Mercurial.clean r) := by
  have hform : (["revert", "--no-backup", "--all"] : Form) ∈ Operation.clean.forms := by
    simp [Operation.forms]
  have hrevert : Issues places Operation.clean.forms
      (Functor.discard (Mercurial.check r ["revert", "--no-backup", "--all"])) :=
    discard (check hform (.cons rfl (.cons rfl (.cons rfl .nil))))
  refine bind (discard (run (.head _) (.cons rfl (.cons rfl .nil)))) fun _ => ?_
  refine bind (discard (run (.tail _ (.head _)) (.cons rfl .nil))) fun _ => ?_
  refine bind (attempt (deleteListed (by simp [Operation.forms]))) fun _ => ?_
  refine bind (attempt (deleteListed (by simp [Operation.forms]))) fun _ => ?_
  refine bind (attempt hrevert) fun _ => ?_
  split
  . exact pure _
  . exact throw _

theorem heads {forms : List Form} (h : (["heads", .fixed hashTemplate] : Form) ∈ forms) :
    Issues places forms (Mercurial.heads r) := by
  refine bind (run h (.cons rfl (.cons rfl .nil))) fun outcome => ?_
  split
  . exact bind (of_silent (.mapM (fun _ => .ofExcept _) _)) fun _ => pure _
  . exact pure _

theorem fetch (uri refspec : Text) :
    Issues places (Operation.fetch uri refspec).forms (Mercurial.fetch r uri refspec) := by
  have hform : askHashes ∈ (Operation.fetch uri refspec).forms := .tail _ (.tail _ (.head _))
  refine bind (heads (.head _)) fun old => ?_
  refine bind (discard (check (.tail _ (.head _)) (.cons rfl (.cons ⟨rfl, _, rfl⟩ .dashes))))
    fun _ => ?_
  refine bind (heads (.head _)) fun new => ?_
  dsimp only
  split
  . exact pure _
  . refine bind (head hform) fun found => ?_
    split
    . exact pure _
    . exact throw _
  . exact throw _

theorem runPush {forms : List Form} {form : Form} {arguments : List Text}
    (h : (.fixed "push" :: form) ∈ forms) (hcovers : form.Covers [] arguments) :
    Issues places forms (Mercurial.runPush r arguments) := by
  refine bind (run h (.cons rfl hcovers)) fun outcome => ?_
  split
  . exact throw _
  . exact pure _

theorem push (hash : Hash) (uri ref : Text) (force : Bool) :
    Issues places (Operation.push hash uri ref force).forms
      (Mercurial.push r hash uri ref force) := by
  refine runPush (.head _) (.cons ⟨rfl, _, rfl⟩ ?_)
  cases force with
  | false => exact .dashes
  | true => exact .cons rfl .dashes

theorem pushAll (uri : Text) :
    Issues places (Operation.pushAll uri).forms (Mercurial.pushAll r uri) :=
  runPush (.head _) (.cons rfl .dashes)

theorem pull (remote refspec : Option Text) :
    Issues places (Operation.pull remote refspec).forms (Mercurial.pull r remote refspec) := by
  refine discard (check (.head _) (.cons rfl (.cons rfl ?_)))
  cases refspec with
  | none => exact .dashes
  | some refspec => exact .cons ⟨rfl, _, rfl⟩ .dashes

theorem init : Issues places Operation.init.forms (Mercurial.init r) :=
  bind (of_silent (.changeFiles _ _)) fun _ =>
    bind (discard (check (.head _) (.cons rfl .nil))) fun _ => pure _

theorem initAgain : Issues places Operation.initAgain.forms <| Mercurial.reinitialize r := by
  have hempty : Issues places Operation.initAgain.forms (Op.makeDirectory r.root) :=
    of_silent (.changeFiles _ _)
  refine bind ?_ fun _ => init
  refine bind (of_silent (.exists? _)) fun there => ?_
  split
  . exact bind (of_silent (.changeFiles _ _)) fun _ => hempty
  . exact hempty

theorem locate {forms : List Form} (backend : Backend) (path : Path) (command : Text)
    (temporary : Option Path) :
    Issues places forms (WorkingCopy.locate backend path command temporary) :=
  bind (bind (of_silent .get) fun _ => pure _) fun _ => pure _

theorem clone (uri : Text) (target : Path) (command : Text) (temporary : Option Path) :
    Issues places (Operation.clone uri target command temporary).forms
      (Mercurial.clone uri target command temporary) :=
  bind (locate _ _ _ _) fun _ => bind (of_silent .get) fun _ =>
    bind (discard (check (.head _) (.cons rfl .dashes))) fun _ => pure _

theorem copyTo (target : Path) :
    Issues places (Operation.copyTo target).forms (Mercurial.copyTo r target) :=
  bind (locate _ _ _ _) fun _ =>
    bind (discard (check (.head _) (.cons rfl .dashes))) fun _ => pure _

theorem containing (path : Path) (command : Text) (temporary : Option Path) :
    Issues places (Operation.containing path command temporary).forms
      (Mercurial.containing path command temporary) := by
  refine bind (locate _ _ _ _) fun here => bind (of_silent (.isDirectory _)) fun there => ?_
  split
  . exact pure _
  . refine bind (run (.head _) (.cons rfl .nil)) fun outcome => ?_
    split
    . exact bind (locate _ _ _ _) fun _ => pure _
    . exact pure _

theorem configSection {forms : List Form} (name : Text) :
    Issues places forms (Mercurial.configSection r name) := by
  have hnoted (request : ServerRequest) : Op.Silent (recordServer request) := .recordServer request
  refine of_silent (.bind (hnoted _) fun _ => .bind .get fun w => ?_)
  split
  . exact .throw _
  . split
    . exact .bind (hnoted _) fun _ => .throw _
    . exact .bind (hnoted _) fun _ => .bind (hnoted _) fun _ => .pure _

theorem config {forms : List Form} (key : Text) : Issues places forms (Mercurial.config r key) :=
  bind (configSection _) fun _ => bind (ofExcept _) fun _ => pure _

theorem configOnce {forms : List Form} (key : Text) :
    Issues places forms (Mercurial.configOnce r key) := by
  refine bind (config key) fun values => ?_
  split <;> exact pure _

theorem pushPath {forms : List Form} (remote : Text) :
    Issues places forms (Mercurial.pushPath r remote) := by
  refine bind (configOnce _) fun own => ?_
  split
  . exact pure _
  . refine bind (configOnce _) fun url => ?_
    split
    . exact pure _
    . exact configOnce _

theorem setPaths {forms : List Form} (remote source : Text) (target : Option Text) :
    Issues places forms (Mercurial.setPaths r remote source target) := by
  have hlines : Op.Silent (settingsLines r) := by
    refine .bind (.exists? _) fun there => ?_
    split
    . exact .pure _
    . exact .bind (.readFile _) fun _ => .bind (.ofExcept _) fun _ => .pure _
  have hwrite (t : Text) : Op.Silent (writeText (settingsFile r) t) :=
    .bind (.writeFile _ _) fun _ => .bind (.ofExcept _) fun _ => .writeFile _ _
  exact bind (of_silent hlines) fun _ => of_silent (hwrite _)

theorem isHealthy {forms : List Form} : Issues places forms (Mercurial.isHealthy r) :=
  bind (of_silent (.exists? _)) fun _ => bind (of_silent (.exists? _)) fun _ => pure _

theorem exportTo {forms : List Form} (h : exportCommits ∈ forms) (revset : Text) (target : Path) :
    Issues places forms (Mercurial.exportTo r revset target) :=
  discard (check h (.cons rfl (.cons rfl (.cons ⟨rfl, _, rfl⟩ (.cons ⟨rfl, _, rfl⟩ .nil)))))

theorem exists_restoration {backup : Path} {strip s : Step} {steps : List Step} {old : Hash}
    {bookmark : Text} (hstrip : strip ∈ steps) (hbackup : BackedUp strip (some backup))
    (h : s.Ran ["unbundle", backup.toText] ∨ s.Ran ["update", "--clean", old.hex] ∨
      s.Ran ["bookmark", "--force", "--rev=" ++ old.hex, "--", bookmark] ∨
      s.Ran ["update", "--clean", "--", bookmark]) :
    ∃ form ∈ restorations, form.Covers steps s.arguments := by
  rcases h with h | h | h | h
  . refine ⟨_, .head _, ?_⟩
    rw [h]
    exact .cons rfl (.cons ⟨strip, hstrip, backup, hbackup, rfl⟩ .nil)
  . refine ⟨_, .tail _ (.head _), ?_⟩
    rw [h]
    exact .cons rfl (.cons rfl (.cons ⟨old, rfl⟩ .nil))
  . refine ⟨_, .tail _ (.tail _ (.head _)), ?_⟩
    rw [h]
    exact .cons rfl (.cons rfl (.cons ⟨rfl, _, rfl⟩ .dashes))
  . refine ⟨_, .tail _ (.tail _ (.tail _ (.head _))), ?_⟩
    rw [h]
    exact .cons rfl (.cons rfl .dashes)

/-- The backup that is restored is the one that the strip has reported. -/
theorem importOrRestore {forms : List Form} {form : Form} {revset : Text} {arguments : List Text}
    {old : Hash} {bookmark : Text} (hstrip : stripCommits ∈ forms) (hform : form ∈ forms)
    (hcovers : form.Covers [] ("import" :: arguments)) (hrestorations : restorations ⊆ forms) :
    Issues places forms (do
      let backup ← Mercurial.strip r revset
      Mercurial.importOrRestore r arguments backup old bookmark) := by
  have hstripped {strip : Step} (h : Strips revset strip) (steps : List Step) :
      ∃ form ∈ forms, form.Covers steps strip.arguments := by
    refine ⟨stripCommits, hstrip, ?_⟩
    rw [h]
    exact .cons rfl (.cons rfl (.cons rfl (.cons ⟨rfl, _, rfl⟩ .nil)))
  have himported {last : Step} (h : last.Ran ("import" :: arguments)) (steps : List Step) :
      ∃ form ∈ forms, form.Covers steps last.arguments := by
    refine ⟨form, hform, ?_⟩
    rw [h]
    exact hcovers.mono (List.nil_subset _)
  refine traces_strip_bind (List.forall_mem_nil _) (fun strip h _ => ?_)
    fun strip backup h _ hbackup => ?_
  . exact List.forall_mem_singleton.2 (hstripped h _)
  refine traces_importOrRestore _ _ _ _ (fun _ => ?_) (fun last hlast _ => ?_)
    fun last after result hlast _ hafter => ?_
  . exact List.forall_mem_singleton.2 (hstripped h _)
  . exact List.forall_mem_cons.2 ⟨hstripped h _, List.forall_mem_singleton.2 (himported hlast _)⟩
  . refine List.forall_mem_cons.2 ⟨hstripped h _, List.forall_mem_cons.2 ⟨himported hlast _, ?_⟩⟩
    intro s hs
    obtain ⟨backup, rfl, hran⟩ := hafter.ran_of_mem hs
    obtain ⟨form, hform, hform'⟩ := exists_restoration (.head _) hbackup hran
    exact ⟨form, hrestorations hform, hform'⟩

section

variable (hrooted :
  (places.directory.join (r.temporary.getD places.temporary)).root.head? = some (.char '/'))
include hrooted

theorem stream {α : Type} {forms : List Form} {form : Form} {arguments : List Text}
    {use : Handle → α × Handle} (hform : extended form ∈ forms)
    (h : form.Covers [] arguments) : Issues places forms (Mercurial.stream r arguments use) :=
  withTempFile (by decide) hrooted (fun _ => .command fun _ _ => trivial)
    fun _ _ => command hform (.cons rfl (.cons ⟨rfl, _, rfl⟩ h))

omit hrooted in
theorem covers_selection (q : Query) :
    (Operation.selection q).Covers [] (Mercurial.selection q) := by
  obtain ⟨revisions, limit, reverse⟩ := q
  cases revisions <;> cases limit <;> cases reverse
  . exact .nil
  . exact .cons rfl .nil
  . exact .cons ⟨rfl, _, rfl⟩ .nil
  . exact .cons ⟨rfl, _, rfl⟩ (.cons rfl .nil)
  . exact .dashes
  . exact .cons rfl .dashes
  . exact .cons ⟨rfl, _, rfl⟩ .dashes
  . exact .cons ⟨rfl, _, rfl⟩ (.cons rfl .dashes)

theorem commits (q : Query) (take : Option Nat) :
    Issues places (Operation.commits q take).forms (Mercurial.commits r q take) := by
  unfold Mercurial.commits
  split
  . exact pure _
  . split
    . exact pure _
    . exact stream hrooted (.head _) (.cons rfl (covers_selection q))

theorem metadata (q : Query) :
    Issues places (Operation.metadata q).forms (Mercurial.metadata r q) := by
  unfold Mercurial.metadata
  split
  . exact pure _
  . refine bind (stream hrooted (.head _) (.cons rfl (.cons rfl (covers_selection q))))
      fun _ => ofExcept _

theorem diff (source : Hash) (target : Option Hash) :
    Issues places (Operation.diff source target).forms (Mercurial.diff r source target) :=
  bind (stream hrooted (.head _) (.cons rfl .dashes)) fun _ => bind (ofExcept _) fun _ => pure _

theorem lookup (reference : Reference) :
    Issues places (Operation.lookup reference).forms ((repository r).lookup reference) := by
  have hcommits (hash : Hash) : Issues places (Operation.lookup reference).forms
      (Mercurial.commits r { revisions := some hash.hex, limit := some 1 } (some 1)) :=
    (commits hrooted _ _).mono (List.cons_subset.2 ⟨.tail _ (.head _), List.nil_subset _⟩)
  refine bind (resolve (.head _) _) fun found => ?_
  split
  . exact pure _
  . exact throw _
  . refine bind (hcommits _) fun walk => ?_
    split
    . exact pure _
    . exact throw _
    . exact pure _

theorem squash (last : Hash) :
    Issues places (Operation.squash last).forms (Mercurial.squash r last) := by
  refine bind (head (.head _)) fun base => ?_
  split
  . exact throw _
  . refine withTempFile (by decide) hrooted (fun _ => onlyRuns_fold _ _ _) fun patch hpatch => ?_
    refine bind (exportTo (.tail _ (.head _)) _ _) fun _ => ?_
    refine importOrRestore (.tail _ (.tail _ (.head _)))
      (.tail _ (.tail _ (.tail _ (.head _)))) ?_ ?_
    . exact .cons rfl (.cons rfl (.cons ⟨patch, hpatch, rfl⟩ .nil))
    . exact fun _ h => .tail _ (.tail _ (.tail _ (.tail _ h)))

theorem rebase (target : Hash) (author : Author) :
    Issues places (Operation.rebase target author).forms (Mercurial.rebase r target) := by
  have hhashes : askHashes ∈ (Operation.rebase target author).forms := by simp [Operation.forms]
  have hupdateForm : (["update"] : Form) ∈ (Operation.rebase target author).forms := by
    simp [Operation.forms]
  have hmoveForm : (["bookmark", "--force"] : Form) ∈ (Operation.rebase target author).forms := by
    simp [Operation.forms]
  have himportForm : (["import", .scratch] : Form) ∈ (Operation.rebase target author).forms := by
    simp [Operation.forms]
  have hupdate : Issues places (Operation.rebase target author).forms
      (Functor.discard (Mercurial.check r ["update", "--", target.hex])) :=
    discard (check hupdateForm (.cons rfl .dashes))
  have hmove (bookmark : Text) : Issues places (Operation.rebase target author).forms
      (Mercurial.moveBookmark r bookmark) := by
    unfold Mercurial.moveBookmark
    split
    . exact discard (check hmoveForm (.cons rfl (.cons rfl .dashes)))
    . exact pure _
  have hreplayed : Issues places (Operation.rebase target author).forms
      (Mercurial.replayed r target) := by
    refine bind (head hhashes) fun old => ?_
    split
    . exact pure _
    . refine bind (bind (check hhashes (.cons rfl (.cons ⟨rfl, _, rfl⟩ (.cons rfl .nil))))
        fun _ => pure _) fun any => ?_
      split <;> exact pure _
  refine bind (trackedModifications (by simp [Operation.forms])) fun modified => ite_throw ?_
  refine bind (activeBookmark (by simp [Operation.forms])) fun bookmark => ?_
  refine bind hreplayed fun replayed => ?_
  split
  . exact bind hupdate fun _ => hmove _
  . refine bind (withTempFile (by decide) hrooted (fun _ => onlyRuns_replay _ _ _ _)
      fun patch hpatch => ?_) fun _ => hmove _
    refine bind (exportTo (by simp [Operation.forms]) _ _) fun _ => bind hupdate fun _ => ?_
    refine importOrRestore (by simp [Operation.forms]) himportForm ?_ fun form hform => ?_
    . exact .cons rfl (.cons ⟨patch, hpatch, rfl⟩ .nil)
    . simp [Operation.forms, hform]

/-- Every operation runs commands of its forms only. -/
theorem run_operation (operation : Operation) :
    Issues places operation.forms (operation.run r) := by
  cases operation with
  | root => exact discard (pure _)
  | head => exact discard (head (.head _))
  | currentBranch => exact discard currentBranch
  | branches => exact discard branches
  | tags => exact discard tags
  | resolve revision => exact discard (resolve (.head _) revision)
  | lookup reference => exact discard (lookup hrooted reference)
  | metadata q => exact discard (metadata hrooted q)
  | commits q take => exact discard (commits hrooted q take)
  | diff source target => exact discard (diff hrooted source target)
  | mergeBase first second => exact discard (mergeBase first second)
  | isAncestor ancestor descendant => exact discard (isAncestor ancestor descendant)
  | isValidRange expression => exact discard (isValidRange expression)
  | isClean => exact discard (bind (check (.head _) (.cons rfl .nil)) fun _ => pure _)
  | isHealthy => exact discard isHealthy
  | isEmpty => exact discard isEmpty
  | isThere => exact discard (of_silent (.isDirectory _))
  | username => exact discard (configOnce _)
  | config key => exact discard (config key)
  | pullPath remote => exact discard (configOnce _)
  | pushPath remote => exact discard (pushPath remote)
  | setPaths remote source target => exact setPaths remote source target
  | addRemote name path => exact setPaths name path (some path)
  | trackedBranch branch => exact discard (pure _)
  | clean => exact clean
  | close => exact pure _
  | init => exact discard init
  | initAgain => exact discard initAgain
  | clone uri target command temporary => exact discard (clone uri target command temporary)
  | containing path command temporary => exact discard (containing path command temporary)
  | copyTo target => exact discard (copyTo target)
  | checkout target force => exact checkout target force
  | commit c => exact discard (commit c)
  | amend c => exact discard (throw _)
  | tag hash name message author => exact discard (tag hash name message author)
  | branch hash name => exact discard (branch hash name)
  | rebase target author => exact rebase hrooted target author
  | squash last => exact squash hrooted last
  | merge hash strategy name email => exact merge hash strategy name email
  | apply change force => exact apply change force hrooted
  | fetch uri refspec => exact discard (fetch uri refspec)
  | push hash uri ref force => exact push hash uri ref force
  | pushAll uri => exact pushAll uri
  | pull remote refspec => exact pull remote refspec
  | add paths => exact add paths
  | remove paths => exact remove paths
  | move source target => exact move source target
  | copy source target => exact copy source target
  | content path hash => exact discard (content path hash hrooted)

end

end Issues

namespace Operation

/-- The commands that the operations can run, and what hg is told before the command. -/
def commandWords : List Text :=
  ["--config", "extensions.strip=", "add", "bookmark", "bookmarks", "branch", "branches", "cat",
    "clone", "commit", "copy", "export", "heads", "import", "init", "log", "merge", "move", "pull",
    "push", "recover", "remove", "repokit-diff", "repokit-log", "revert", "root", "status", "strip",
    "tag", "tags", "unbundle", "update"]

/-- The options that the operations can use as they are. -/
def plainOptions : List Text :=
  ["--abort", "--added", "--all", "--check", "--clean", "--deleted", "--force", "--git",
    "--ignored", "--modified", "--new-branch", "--no-backup", "--no-commit", "--no-diffs",
    "--no-status", "--removed", "--rev=.", "--reverse", "--unknown", "--update", "--template= ",
    "--template=\x7bactivebookmark\x7d", "--template=\x7bbookmark\x7d\\n",
    "--template=\x7bbranch\x7d\\n", hashTemplate]

/-- The beginnings of the words that the operations complete by a value. -/
def valuedOptions : List Text :=
  ["extensions.repokit_dump=", "--branch=", "--date=", "--limit=", "--message=", "--output=",
    "--rev=", "--tool=", "--user="]

/-- A slot without words of its own. -/
def Known : Slot → Prop
  | .fixed word => word ∈ commandWords ∨ word ∈ plainOptions
  | .valued start => start ∈ valuedOptions
  | .commit | .scratch | .backup | .given _ => True

theorem known_of_mem_forms (operation : Operation) :
    ∀ form ∈ operation.forms, ∀ slot ∈ form, Known slot := by
  cases operation with
  | checkout target force =>
    cases force <;> simp [forms, askModifications, Known, commandWords, plainOptions]
  | apply change force =>
    cases change <;>
      simp [forms, Known, commandWords, plainOptions, or_imp, forall_and, mem_optional]
  | metadata | commits | commit | merge | push | pull =>
    simp [forms, askHashes, extended, selection, Known, commandWords, plainOptions, valuedOptions,
      or_imp, forall_and, mem_optional]
  | _ =>
    simp only [forms, askHashes, askModifications, askBookmark, askNames, extended, exportCommits,
      stripCommits, restorations, Known, commandWords, plainOptions, valuedOptions, List.mem_cons,
      List.not_mem_nil, forall_eq_or_imp, IsEmpty.forall_iff, implies_true, or_true,
      true_or, and_self]

/-- How a word in front of `--` can look like an option. Besides options of the program it is a path
that a strip has reported, or the patch file that the caller wants to apply. -/
inductive Admits (operation : Operation) (steps : List Step) (word : Text) : Prop
  | fixed (h : word ∈ commandWords ∨ word ∈ plainOptions)
  | valued {start : Text} (h : start ∈ valuedOptions) (hword : start <+: word)
  | backup {s : Step} {path : Path} (hs : s ∈ steps) (hpath : BackedUp s (some path))
    (hword : word = path.toText)
  | patch {path : Path} {force : Bool} (h : operation = .apply (.file path) force)
    (hword : word = path.toText)

theorem admits {operation : Operation} {form : Form} {steps : List Step} {words : List Text}
    (hform : form ∈ operation.forms) (h : form.Covers steps words) {word : Text}
    (hword : word ∈ words.takeWhile (· ≠ ("--" : Text))) (hdash : word.head? = some (.char '-')) :
    operation.Admits steps word := by
  obtain ⟨slot, hslot, htakes⟩ := h.exists_slot hword
  have hknown := known_of_mem_forms operation form hform slot hslot
  cases slot with
  | fixed other =>
    obtain rfl : word = other := htakes
    exact .fixed hknown
  | valued start =>
    obtain ⟨_, value, rfl⟩ := htakes
    exact .valued hknown (List.prefix_append start value)
  | commit =>
    obtain ⟨hash, rfl⟩ := htakes
    exact absurd hdash (head?_hex hash)
  | scratch =>
    obtain ⟨path, hpath, rfl⟩ := htakes
    rw [head?_toText hpath] at hdash
    contradiction
  | backup =>
    obtain ⟨s, hs, path, hpath, hword⟩ := htakes
    exact .backup hs hpath hword
  | given text =>
    obtain rfl : word = text := htakes
    obtain ⟨path, force, hoperation, hpath⟩ := eq_apply_of_given hform hslot
    exact .patch hoperation hpath

end Operation

/-- No text of a caller is taken for an option, except for the name of a patch file. Temporary files
have names that start at the root. -/
theorem run_traces (r : WorkingCopy) (operation : Operation) {places : Places}
    (hrooted :
      (places.directory.join (r.temporary.getD places.temporary)).root.head? = some (.char '/')) :
    Op.Traces places (operation.run r) fun steps _ => ∀ s ∈ steps,
      (∃ form ∈ operation.forms, form.Covers steps s.arguments) ∧
        ∀ word ∈ s.arguments.takeWhile (· ≠ ("--" : Text)), word.head? = some (.char '-') →
          operation.Admits steps word := by
  refine Op.Traces.mono (Issues.run_operation hrooted operation) fun steps _ hsteps s hs => ?_
  obtain ⟨form, hform, hcovers⟩ := hsteps s hs
  exact ⟨⟨form, hform, hcovers⟩, fun word => Operation.admits hform hcovers⟩

/-- A branch that is named like an option is not taken for one. -/
theorem run_traces_checkout :
    Op.Traces ⟨⟨"/", []⟩, ⟨"/", ["tmp"]⟩⟩
      ((Operation.checkout (.branch ⟨"--config=ui.editor=ed"⟩) true).run
        ⟨.mercurial, ⟨"/", ["work"]⟩, "hg", none⟩)
      fun steps _ => ∀ s ∈ steps,
        ∀ word ∈ s.arguments.takeWhile (· ≠ ("--" : Text)), word.head? = some (.char '-') →
          (Operation.checkout (.branch ⟨"--config=ui.editor=ed"⟩) true).Admits steps word := by
  have hrooted : (Path.join ⟨"/", []⟩ ⟨"/", ["tmp"]⟩).root.head? = some (.char '/') := rfl
  refine Op.Traces.mono (run_traces _ _ hrooted) fun steps _ hsteps s hs => ?_
  exact (hsteps s hs).2

/-- A patch file that is named like an option reaches hg as one. -/
theorem not_traces_apply :
    ¬ Op.Traces ⟨⟨"/", []⟩, ⟨"/", ["tmp"]⟩⟩
      ((Operation.apply (.file (Path.ofText "-x.patch")) false).run
        ⟨.mercurial, ⟨"/", ["work"]⟩, "hg", none⟩)
      fun steps _ => ∀ s ∈ steps,
        ∀ word ∈ s.arguments.takeWhile (· ≠ ("--" : Text)), word.head? = some (.char '-') →
          (word ∈ Operation.commandWords ∨ word ∈ Operation.plainOptions) ∨
            ∃ start ∈ Operation.valuedOptions, start <+: word := by
  intro h
  obtain ⟨steps, hpasses, hsteps⟩ := h {} rfl
  obtain ⟨invocation, hlog, hcommand⟩ : ∃ invocation : Invocation,
      ((Operation.apply (.file (Path.ofText "-x.patch")) false).run
        ⟨.mercurial, ⟨"/", ["work"]⟩, "hg", none⟩ |>.perform {}).2.events = [.command invocation] ∧
      invocation.command = ["hg", "import", "--no-commit", "-x.patch"] := ⟨_, rfl, rfl⟩
  have hnone : ({} : World).events = [] := rfl
  have hmem : Event.command invocation ∈ (steps.map fun s => Event.command s.invocation) := by
    rw [hpasses.log, hnone, List.append_nil, List.reverse_eq_cons_iff] at hlog
    simp [hlog]
  obtain ⟨s, hs, heq⟩ := List.mem_map.1 hmem
  cases heq
  have hword := hsteps s hs "-x.patch" (by rw [Step.arguments, hcommand]; decide) rfl
  revert hword
  decide

end Mercurial

end Dvcs
