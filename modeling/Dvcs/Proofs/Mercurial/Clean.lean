import Dvcs.Mercurial.Clean
import Dvcs.Proofs.Mercurial.Command
import Dvcs.Proofs.World.Acts

/-!
This module contains what the cleaning of a Mercurial working directory does. None of its steps
depends on what came of those before it; only a name that the system cannot be given ends it.
-/

namespace Dvcs

/-- What is reported of a command that had to succeed. -/
def Step.failures (s : Step) : List StepFailure := if s.succeeded then [] else [.process s.outcome]

namespace Mercurial

open World

/-- The files that the lines of a status command name. -/
def listed (r : WorkingCopy) (names : List Text) : List Path :=
  names.map fun name => r.root.join (Path.ofText name)

/-- What is done after a status command, and what fails of it and the command. A name with the null
character is an error that is not caught. -/
inductive Sweeps (r : WorkingCopy) (s : Step) :
    List Deletion → Except Error (List StepFailure) → Prop where
  | refused (h : s.succeeded = false) : Sweeps r s [] (.ok [.process s.outcome])
  | swept {ds : List Deletion} {e : Option SystemError} (h : s.succeeded = true)
    (htried : Tried (listed r s.outcome.stdout) ds (e.map .system)) :
    Sweeps r s ds (.ok (e.toList.map .system))
  | stopped {ds : List Deletion} (h : s.succeeded = true)
    (htried : Tried (listed r s.outcome.stdout) ds (some .nullCharacter)) :
    Sweeps r s ds (.error .nullCharacter)

/-- What the cleaning of a working directory does, and which failures it reports, or the error that
ends it before its end. -/
inductive Cleans (r : WorkingCopy) : List Act → Except Error (List StepFailure) → Prop where
  | unpassable (h : isPassable r [] = false) : Cleans r [] (.error .nullCharacter)
  | ignoredStops {merge recover ignored : Step} {ds : List Deletion} {e : Error}
    (hmerge : Runs r ["merge", "--abort"] merge)
    (hrecover : Runs r ["recover"] recover)
    (hignored : Runs r ["status", "--ignored", "--no-status"] ignored)
    (hsweeps : Sweeps r ignored ds (.error e)) :
    Cleans r ([.command merge, .command recover, .command ignored] ++ ds.map .deletion) (.error e)
  | unknownStops {merge recover ignored unknown : Step} {ds ds' : List Deletion}
    {failures : List StepFailure} {e : Error}
    (hmerge : Runs r ["merge", "--abort"] merge)
    (hrecover : Runs r ["recover"] recover)
    (hignored : Runs r ["status", "--ignored", "--no-status"] ignored)
    (hsweeps : Sweeps r ignored ds (.ok failures))
    (hunknown : Runs r ["status", "--unknown", "--no-status"] unknown)
    (hsweeps' : Sweeps r unknown ds' (.error e)) :
    Cleans r
      ([.command merge, .command recover, .command ignored] ++ ds.map .deletion ++
        [.command unknown] ++ ds'.map .deletion)
      (.error e)
  | all {merge recover ignored unknown revert : Step} {ds ds' : List Deletion}
    {failures failures' : List StepFailure}
    (hmerge : Runs r ["merge", "--abort"] merge)
    (hrecover : Runs r ["recover"] recover)
    (hignored : Runs r ["status", "--ignored", "--no-status"] ignored)
    (hsweeps : Sweeps r ignored ds (.ok failures))
    (hunknown : Runs r ["status", "--unknown", "--no-status"] unknown)
    (hsweeps' : Sweeps r unknown ds' (.ok failures'))
    (hrevert : Runs r ["revert", "--no-backup", "--all"] revert) :
    Cleans r
      ([.command merge, .command recover, .command ignored] ++ ds.map .deletion ++
        [.command unknown] ++ ds'.map .deletion ++ [.command revert])
      (.ok (failures ++ failures' ++ revert.failures))

/-- The arguments of the commands of a cleaning. -/
def cleaning : List (List Text) :=
  [["merge", "--abort"], ["recover"], ["status", "--ignored", "--no-status"],
    ["status", "--unknown", "--no-status"], ["revert", "--no-backup", "--all"]]

/-- The commands are run in their order, and all of them unless an error ends the cleaning. -/
theorem Cleans.arguments {acts : List Act} {outcome : Except Error (List StepFailure)}
    (h : Cleans r acts outcome) :
    (acts.filterMap Act.command?).map Step.arguments <+: cleaning ∧
      (outcome.isOk = true → (acts.filterMap Act.command?).map Step.arguments = cleaning) := by
  cases h with
  | unpassable _ => exact ⟨List.nil_prefix, nofun⟩
  | ignoredStops hmerge hrecover hignored _ =>
    simp only [List.filterMap_append, List.map_append, filterMap_command?_deletions]
    simp only [Act.command?, List.filterMap_cons, List.filterMap_nil, List.map_cons, List.map_nil,
      List.append_nil]
    rw [hmerge.ran, hrecover.ran, hignored.ran]
    exact ⟨⟨_, rfl⟩, nofun⟩
  | unknownStops hmerge hrecover hignored _ hunknown _ =>
    simp only [List.filterMap_append, List.map_append, filterMap_command?_deletions]
    simp only [Act.command?, List.filterMap_cons, List.filterMap_nil, List.map_cons, List.map_nil,
      List.append_nil]
    rw [hmerge.ran, hrecover.ran, hignored.ran, hunknown.ran]
    exact ⟨⟨_, rfl⟩, nofun⟩
  | all hmerge hrecover hignored _ hunknown _ hrevert =>
    simp only [List.filterMap_append, List.map_append, filterMap_command?_deletions]
    simp only [Act.command?, List.filterMap_cons, List.filterMap_nil, List.map_cons, List.map_nil,
      List.cons_append, List.nil_append, cleaning]
    rw [hmerge.ran, hrecover.ran, hignored.ran, hunknown.ran, hrevert.ran]
    exact ⟨List.prefix_rfl, fun _ => rfl⟩

section Passable

variable {w : World}

theorem exists_run {args : List Text} (h : isPassable r args = true) (w : World) :
    ∃ s, Runs r args s ∧ s.response = w.responses.headD {} ∧
      run r args w = .ok s.outcome (w.afterCommand s) := by
  let s := Op.stepOf .capture r.root toolEnvironment (r.command :: args) Handle.wait w
  have hrun : run r args w =
      .ok (Handle.start .capture (r.command :: args) s.response).wait.1 (w.afterCommand s) := by
    unfold run
    rw [Op.command_of_isPassable h]
    rfl
  refine ⟨s, ⟨h, rfl, rfl, rfl, rfl⟩, rfl, ?_⟩
  rw [hrun, Handle.wait_start]
  rfl

theorem exists_check {args : List Text} (h : isPassable r args = true) (w : World) :
    ∃ s, Runs r args s ∧ s.response = w.responses.headD {} ∧
      check r args w =
        if s.succeeded then .ok s.outcome (w.afterCommand s)
        else .error (.process s.outcome) (w.afterCommand s) := by
  let command := r.command :: args
  let s := Op.stepOf .capture r.root toolEnvironment command Handle.check w
  have hcommand : Op.command .capture r.root toolEnvironment command Handle.check w =
      .ok (Handle.start .capture command s.response).check.1 (w.afterCommand s) := by
    rw [Op.command_of_isPassable h]
    rfl
  refine ⟨s, ⟨h, rfl, rfl, rfl, rfl⟩, rfl, ?_⟩
  unfold check
  rw [Op.bind_of_ok hcommand, Handle.check_start]
  have hstatus : s.succeeded = decide ((s.response.outcome command).status = 0) := rfl
  rw [hstatus]
  by_cases hzero : (s.response.outcome command).status = 0
  . simp only [hzero, decide_true, if_true]
    rfl
  . simp only [hzero, decide_false, if_false]
    rfl

theorem exists_sweeps {kind : Text} (h : isPassable r ["status", kind, "--no-status"] = true)
    (w : World) :
    ∃ s ds outcome w', Runs r ["status", kind, "--no-status"] s ∧ Sweeps r s ds outcome ∧
      w.Acts (.command s :: ds.map .deletion) w' ∧
      attempt (deleteListed r kind) w = Op.ofExcept outcome w' := by
  obtain ⟨s, hruns, hresponse, hcheck⟩ := exists_check h w
  cases hsucceeded : s.succeeded with
  | false =>
    rw [hsucceeded, if_neg Bool.false_ne_true] at hcheck
    have hdelete := Op.bind_of_error (f := fun outcome =>
      outcome.stdout.forM fun name => Op.unlinkIfThere (r.root.join (Path.ofText name))) hcheck
    refine ⟨s, [], _, _, hruns, .refused hsucceeded, .command hresponse .nil, ?_⟩
    unfold attempt deleteListed
    rw [hdelete]
    rfl
  | true =>
    rw [hsucceeded, if_pos rfl] at hcheck
    obtain ⟨ds, e, w', htried, hacts, hloop⟩ :=
      Op.exists_tried (listed r s.outcome.stdout) (w.afterCommand s)
    have hmap : (listed r s.outcome.stdout).forM Op.unlinkIfThere =
        s.outcome.stdout.forM fun name => Op.unlinkIfThere (r.root.join (Path.ofText name)) :=
      List.forM_map
    have hdelete : deleteListed r kind w =
        (listed r s.outcome.stdout).forM Op.unlinkIfThere (w.afterCommand s) := by
      unfold deleteListed
      rw [Op.bind_of_ok hcheck, hmap]
    rcases htried.ending with ⟨failure, rfl⟩ | rfl
    . refine ⟨s, ds, _, w', hruns, .swept hsucceeded htried, .command hresponse hacts, ?_⟩
      unfold attempt
      rw [hdelete, hloop]
      cases failure <;> rfl
    . refine ⟨s, ds, _, w', hruns, .stopped hsucceeded htried, .command hresponse hacts, ?_⟩
      unfold attempt
      rw [hdelete, hloop]
      rfl

theorem exists_attempt {args : List Text} (h : isPassable r args = true) (w : World) :
    ∃ s, Runs r args s ∧ s.response = w.responses.headD {} ∧
      attempt (discard (check r args)) w = .ok s.failures (w.afterCommand s) := by
  obtain ⟨s, hruns, hresponse, hcheck⟩ := exists_check h w
  refine ⟨s, hruns, hresponse, ?_⟩
  unfold attempt Step.failures
  rw [Op.Traces.discard_eq]
  cases hsucceeded : s.succeeded with
  | false =>
    rw [hsucceeded, if_neg Bool.false_ne_true] at hcheck
    rw [Op.bind_of_error hcheck]
    rfl
  | true =>
    rw [hsucceeded, if_pos rfl] at hcheck
    rw [Op.bind_of_ok hcheck]
    rfl

theorem exists_discard_run {args : List Text} (h : isPassable r args = true) (w : World) :
    ∃ s, Runs r args s ∧ s.response = w.responses.headD {} ∧
      (discard (run r args) : Op Unit) w = .ok () (w.afterCommand s) := by
  obtain ⟨s, hruns, hresponse, hrun⟩ := exists_run h w
  refine ⟨s, hruns, hresponse, ?_⟩
  rw [Op.Traces.discard_eq, Op.bind_of_ok hrun]
  rfl

end Passable

/-- The result of a cleaning. -/
def Finishes (outcome : Except Error (List StepFailure)) (w : World)
    (result : EStateM.Result Error World Unit) : Prop :=
  match outcome with
  | .ok failures => Concludes failures w result
  | .error e => result = .error e w

theorem clean_of_not_isPassable (h : isPassable r [] = false) (w : World) :
    clean r w = .error .nullCharacter w := by
  have hmerge : isPassable r ["merge", "--abort"] = false := by
    rw [isPassable_eq, h, Bool.false_and]
  have hrun : (discard (run r ["merge", "--abort"]) : Op Unit) w = .error .nullCharacter w := by
    rw [Op.Traces.discard_eq]
    exact Op.bind_of_error (Op.command_of_not_isPassable hmerge _ _ _ w)
  exact Op.bind_of_error hrun

/-- Every step is taken whatever the commands answer and whatever comes of the deletions, unless a
file is listed by a name that the system cannot be given. -/
theorem exists_cleans (r : WorkingCopy) (w : World) :
    ∃ acts outcome w', Cleans r acts outcome ∧ w.Acts acts w' ∧
      Finishes outcome w' (clean r w) := by
  cases hr : isPassable r [] with
  | false =>
    exact ⟨[], _, w, .unpassable hr, .nil, clean_of_not_isPassable hr w⟩
  | true =>
    have hpassable {args : List Text} (h : speakable args = true) : isPassable r args = true := by
      rw [isPassable_eq, hr, h, Bool.true_and]
    have hmerges : isPassable r ["merge", "--abort"] = true := hpassable (by decide)
    have hrecovers : isPassable r ["recover"] = true := hpassable (by decide)
    have hignores : isPassable r ["status", "--ignored", "--no-status"] = true :=
      hpassable (by decide)
    have hunknowns : isPassable r ["status", "--unknown", "--no-status"] = true :=
      hpassable (by decide)
    have hreverts : isPassable r ["revert", "--no-backup", "--all"] = true := hpassable (by decide)
    obtain ⟨merge, hmerge, hfirst, hmerged⟩ := exists_discard_run hmerges w
    obtain ⟨recover, hrecover, hsecond, hrecovered⟩ :=
      exists_discard_run hrecovers (w.afterCommand merge)
    have hfront : w.Acts [.command merge, .command recover]
        ((w.afterCommand merge).afterCommand recover) :=
      .command hfirst (.command hsecond .nil)
    obtain ⟨ignored, ds, outcome, w₃, hignored, hsweeps, hacts, hswept⟩ :=
      exists_sweeps hignores ((w.afterCommand merge).afterCommand recover)
    have hmiddle := hfront.append hacts
    unfold clean
    rw [Op.bind_of_ok hmerged, Op.bind_of_ok hrecovered]
    cases outcome with
    | error e =>
      refine ⟨_, _, w₃, .ignoredStops hmerge hrecover hignored hsweeps, by simpa using hmiddle, ?_⟩
      exact Op.bind_of_error hswept
    | ok failures =>
      obtain ⟨unknown, ds', outcome', w₄, hunknown, hsweeps', hacts', hswept'⟩ :=
        exists_sweeps hunknowns w₃
      have hmore := hmiddle.append hacts'
      rw [Op.bind_of_ok hswept]
      cases outcome' with
      | error e =>
        refine ⟨_, _, w₄, .unknownStops hmerge hrecover hignored hsweeps hunknown hsweeps',
          by simpa using hmore, ?_⟩
        exact Op.bind_of_error hswept'
      | ok failures' =>
        obtain ⟨revert, hrevert, hlast, hreverted⟩ := exists_attempt hreverts w₄
        have hend : w₄.Acts [.command revert] (w₄.afterCommand revert) := .command hlast .nil
        refine ⟨_, _, w₄.afterCommand revert,
          .all hmerge hrecover hignored hsweeps hunknown hsweeps' hrevert,
          by simpa using hmore.append hend, ?_⟩
        rw [Op.bind_of_ok hswept', Op.bind_of_ok hreverted]
        exact concludes_match _ _

end Mercurial

end Dvcs
