import Dvcs.Git.Command
import Dvcs.Proofs.World

/-!
This module contains what the opening of a git repository does: only the record of what is open and
of what has been asked changes.
-/

namespace Dvcs

namespace Git

variable {r : WorkingCopy} {w : World}

theorem ensureOpen_of_isOpen (h : w.git.openRoots.contains r.root = true) :
    ensureOpen r w = .ok () w := by
  have hstate : state w = .ok w.git w := rfl
  unfold ensureOpen
  rw [Op.bind_of_ok hstate, if_pos h]
  rfl

/-- The world after the repository of a working copy has been opened. -/
def opened (r : WorkingCopy) (w : World) : World :=
  { w with
    git := { w.git with openRoots := r.root :: w.git.openRoots }
    log := .git (.environmentSet toolEnvironment) :: .git (.opened r.root false) :: w.log }

theorem ensureOpen_of_opens (hopen : w.git.openRoots.contains r.root = false)
    (h : w.git.opens = true) : ensureOpen r w = .ok () (opened r w) := by
  let asked : World := { w with log := .git (.opened r.root false) :: w.log }
  have hstate : state w = .ok w.git w := rfl
  have hrecord : record (.opened r.root false) w = .ok () asked := rfl
  have hasked : state asked = .ok w.git asked := rfl
  unfold ensureOpen
  rw [Op.bind_of_ok hstate, hopen, if_neg Bool.false_ne_true]
  rw [Op.bind_of_ok hrecord, Op.bind_of_ok hasked, if_neg (by simp [h])]
  rfl

theorem ensureOpen_eq (h : w.git.openRoots.contains r.root = true ∨ w.git.opens = true) :
    ∃ w', ensureOpen r w = .ok () w' ∧ w'.git.openRoots.contains r.root = true ∧
      w'.git = { w.git with openRoots := w'.git.openRoots } := by
  cases hopen : w.git.openRoots.contains r.root with
  | true => exact ⟨w, ensureOpen_of_isOpen hopen, hopen, rfl⟩
  | false =>
    have hopens : w.git.opens = true := h.resolve_left (hopen ▸ Bool.false_ne_true)
    refine ⟨opened r w, ensureOpen_of_opens hopen hopens, ?_, rfl⟩
    simp [opened]

theorem ensureOpen_of_refused (hopen : w.git.openRoots.contains r.root = false)
    (h : w.git.opens = false) :
    ensureOpen r w = .error (.refusal (.notGit r.root.toText))
      { w with log := .git (.opened r.root false) :: w.log } := by
  let asked : World := { w with log := .git (.opened r.root false) :: w.log }
  have hstate : state w = .ok w.git w := rfl
  have hrecord : record (.opened r.root false) w = .ok () asked := rfl
  have hasked : state asked = .ok w.git asked := rfl
  unfold ensureOpen
  rw [Op.bind_of_ok hstate, hopen, if_neg Bool.false_ne_true]
  rw [Op.bind_of_ok hrecord, Op.bind_of_ok hasked, if_pos (by simp [h])]
  rfl

/-- The answer to the next command. -/
def upcoming (w : World) : Answer := w.git.answers.headD (.output [])

/-- The world after a command has been asked for on an open repository. -/
def asked (arguments : List Text) (environment : Option Environment) (taken : Taken) (w : World) :
    World :=
  { w with
    files :=
      if (upcoming w).starts then (w.git.touched.headD []).foldl FileTree.change w.files
      else w.files
    git := { w.git with answers := w.git.answers.tail, touched := w.git.touched.tail }
    log := .git (.command arguments environment taken (w.attached arguments) false) :: w.log }

/-- What a command with some arguments gives for an answer. -/
def Answer.reply (arguments : List Text) : Answer → Except Error (Except Failure Bytes)
  | .output stdout => .ok (.ok stdout)
  | .failure _ report => .ok (.error { report with command := "git" :: arguments })
  | .unstarted message => .error (.unstarted message)

theorem execute_eq {w' : World} (hopen : ensureOpen r w = .ok () w') (arguments : List Text)
    (environment : Option Environment) (taken : Taken) :
    execute r arguments environment taken w =
      Op.ofExcept ((upcoming w').reply arguments) (asked arguments environment taken w') := by
  let noted : World := { w' with
    log := .git (.command arguments environment taken (w'.attached arguments) false) :: w'.log }
  let answered : World := { noted with
    git := { w'.git with answers := w'.git.answers.tail } }
  have hget : (get : Op World) w' = .ok w' w' := rfl
  have hrecord : record (.command arguments environment taken (w'.attached arguments) false) w' =
      .ok () noted := rfl
  have hanswer : nextAnswer noted = .ok (upcoming w') answered := rfl
  have htouched : touchFiles (upcoming w') answered =
      .ok () (asked arguments environment taken w') := rfl
  unfold execute
  rw [Op.bind_of_ok hopen, Op.bind_of_ok hget, Op.bind_of_ok hrecord, Op.bind_of_ok hanswer,
    Op.bind_of_ok htouched]
  cases upcoming w' <;> rfl

/-- The arguments of a git command. -/
def arguments? : Dvcs.Event → Option (List Text)
  | .git (.command arguments ..) => some arguments
  | _ => none

/-- Between two worlds git has been asked for some commands, and for no others. -/
def Requests (w : World) (commands : List (List Text)) (w' : World) : Prop :=
  w'.log.filterMap arguments? = commands.reverse ++ w.log.filterMap arguments?

theorem Requests.trans {w₁ w₂ w₃ : World} {commands more : List (List Text)}
    (h : Requests w₁ commands w₂) (h' : Requests w₂ more w₃) :
    Requests w₁ (commands ++ more) w₃ := by
  unfold Requests at h h' ⊢
  rw [h', h, List.reverse_append, List.append_assoc]

theorem requests_ensureOpen {w' : World} (h : ensureOpen r w = .ok () w') : Requests w [] w' := by
  cases hopen : w.git.openRoots.contains r.root with
  | true =>
    rw [ensureOpen_of_isOpen hopen] at h
    cases h
    rfl
  | false =>
    cases hopens : w.git.opens with
    | true =>
      rw [ensureOpen_of_opens hopen hopens] at h
      cases h
      rfl
    | false =>
      rw [ensureOpen_of_refused hopen hopens] at h
      cases h

theorem requests_asked (arguments : List Text) (environment : Option Environment) (taken : Taken)
    (w : World) : Requests w [arguments] (asked arguments environment taken w) := rfl

end Git

end Dvcs
