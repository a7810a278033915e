import Dvcs.Proofs.Hunk.Fault
import Dvcs.Proofs.Hunk.Header
import Dvcs.Proofs.Hunk.Normal

/-!
This module contains which lines are blocks, and what becomes of their lines. The body of a block
ends as soon as both counts of the header are met, and a block is read exactly if the lines come to
this point. Every changed line of it is then in one of the hunks.
-/

namespace Dvcs

namespace Hunk

open Text

/-- The marks that lines of a body can start with. -/
def marks : List Sym := [.char ' ', .char '-', .char '+', .char '\\']

def isMarker (line : Text) : Bool := line.head? = some (.char '\\')

def isContext (line : Text) : Bool := line.head? = some (.char ' ')

def inSource (line : Text) : Bool := line.head? = some (.char ' ') || line.head? = some (.char '-')

def inTarget (line : Text) : Bool := line.head? = some (.char ' ') || line.head? = some (.char '+')

/-- Lines of a body that meet both counts, and do so with the last of them. -/
structure Fills (n m : Nat) (body : List Text) : Prop where
  marked : ∀ line ∈ body, ∃ mark ∈ marks, line.head? = some mark
  source : body.countP inSource = n
  target : body.countP inTarget = m
  first : ∀ front, front <+: body → front ≠ body →
    ¬ (front.countP inSource = n ∧ front.countP inTarget = m)

/-- The lines `ls` start with a block that has a header for `s` and `t` and the lines `body`. -/
def StartsBlock (ls : List Text) (s t : Range) (body rest : List Text) : Prop :=
  ∃ header, ls = header :: (body ++ rest) ∧ Heads header s t ∧ Fills s.count t.count body

/-- The marker right behind a body, which is a part of the block. -/
def foot (rest : List Text) : List Text := (rest.head?.filter isMarker).toList

/-- What the lines of a body with a mark say. -/
def texts (mark : Char) (body : List Text) : List Text := body.filterMap (after? [.char mark])

/-- The removed and the added lines. -/
def changes (body : List Text) : List Text × List Text := (texts '-' body, texts '+' body)

/-- The entry that a line of a body shows; a marker shows none by itself. -/
def shown? : Text → Option Entry
  | .char ' ' :: text => some ⟨.context, text, false⟩
  | .char '-' :: text => some ⟨.removed, text, false⟩
  | .char '+' :: text => some ⟨.added, text, false⟩
  | _ => none

/-- The script that the lines of a body show. -/
def script : List Text → Script
  | [] => []
  | line :: rest =>
    (shown? line).toList.map (fun e => { e with bare := rest.head?.any isMarker }) ++ script rest

theorem fills_nil {n m : Nat} : Fills n m [] ↔ n = 0 ∧ m = 0 := by
  constructor
  . intro h
    exact ⟨h.source.symm, h.target.symm⟩
  . rintro ⟨rfl, rfl⟩
    refine ⟨nofun, rfl, rfl, fun front hfront hne => ?_⟩
    exact absurd (List.prefix_nil.1 hfront) hne

theorem fills_cons {n m : Nat} {line : Text} {ls : List Text} :
    Fills n m (line :: ls) ↔ ¬ (n = 0 ∧ m = 0) ∧ (∃ mark ∈ marks, line.head? = some mark) ∧
      (inSource line = true → n ≠ 0) ∧ (inTarget line = true → m ≠ 0) ∧
      Fills (n - if inSource line then 1 else 0) (m - if inTarget line then 1 else 0) ls := by
  constructor
  . rintro ⟨hmarked, rfl, rfl, hfirst⟩
    rw [List.forall_mem_cons] at hmarked
    rw [List.countP_cons, List.countP_cons] at *
    refine ⟨?_, hmarked.1, ?_, ?_, hmarked.2, ?_, ?_, ?_⟩
    . have := hfirst [] List.nil_prefix (List.cons_ne_nil line ls).symm
      exact fun hmet => this ⟨hmet.1.symm, hmet.2.symm⟩
    . intro hsource
      simp [hsource]
    . intro htarget
      simp [htarget]
    . exact (Nat.add_sub_cancel ..).symm
    . exact (Nat.add_sub_cancel ..).symm
    . intro front hfront hne hmet
      refine hfirst (line :: front) (List.cons_prefix_cons.2 ⟨rfl, hfront⟩) (by simpa using hne) ?_
      rw [List.countP_cons, List.countP_cons, hmet.1, hmet.2]
      omega
  . rintro ⟨hopen, hmark, hsource, htarget, hmarked, hs, ht, hfirst⟩
    refine ⟨?_, ?_, ?_, ?_⟩
    . rw [List.forall_mem_cons]
      exact ⟨hmark, hmarked⟩
    . rw [List.countP_cons, hs]
      split
      . next hin => exact Nat.sub_add_cancel (Nat.pos_of_ne_zero (hsource hin))
      . rfl
    . rw [List.countP_cons, ht]
      split
      . next hin => exact Nat.sub_add_cancel (Nat.pos_of_ne_zero (htarget hin))
      . rfl
    . intro front hfront hne hmet
      cases front with
      | nil => exact hopen ⟨hmet.1.symm, hmet.2.symm⟩
      | cons line' front =>
        obtain ⟨rfl, hmore⟩ := List.cons_prefix_cons.1 hfront
        rw [List.countP_cons, List.countP_cons] at hmet
        refine hfirst front hmore (by simpa using hne) ?_
        constructor <;> omega

theorem shown?_line (e : Entry) : shown? e.line = some { e with bare := false } := by
  obtain ⟨kind, text, bare⟩ := e
  cases kind <;> rfl

/-- A line with a mark shows an entry or is a marker. -/
theorem cases_of_marked {line : Text} (h : ∃ mark ∈ marks, line.head? = some mark) :
    (∃ e : Entry, line = e.line) ∨ ∃ text, line = .char '\\' :: text := by
  obtain ⟨mark, hmark, hline⟩ := h
  obtain ⟨text, rfl⟩ := List.head?_eq_some_iff.1 hline
  simp only [marks, List.mem_cons, List.not_mem_nil, or_false] at hmark
  rcases hmark with rfl | rfl | rfl | rfl
  . exact .inl ⟨⟨.context, text, false⟩, rfl⟩
  . exact .inl ⟨⟨.removed, text, false⟩, rfl⟩
  . exact .inl ⟨⟨.added, text, false⟩, rfl⟩
  . exact .inr ⟨text, rfl⟩

theorem inSource_line (e : Entry) : inSource e.line = e.inSource := by
  obtain ⟨kind, text, bare⟩ := e
  cases kind <;> rfl

theorem inTarget_line (e : Entry) : inTarget e.line = e.inTarget := by
  obtain ⟨kind, text, bare⟩ := e
  cases kind <;> rfl

theorem isMarker_line (e : Entry) : isMarker e.line = false := by
  obtain ⟨kind, text, bare⟩ := e
  cases kind <;> rfl

namespace Block

variable {b b' : Block} {line : Text}

/-- A block after one more line. -/
def takeLine (b : Block) (line : Text) : Block :=
  match shown? line with
  | some e => b.take e
  | none => b.markNoNewline

theorem takeLine_line (b : Block) (e : Entry) :
    b.takeLine e.line = b.take { e with bare := false } := by
  unfold takeLine
  rw [shown?_line]

theorem takeLine_marker (b : Block) (text : Text) :
    b.takeLine (.char '\\' :: text) = b.markNoNewline := rfl

theorem left_takeLine (b : Block) (h : ∃ mark ∈ marks, line.head? = some mark) :
    (b.takeLine line).sourceLeft = b.sourceLeft - (if inSource line then 1 else 0) ∧
      (b.takeLine line).targetLeft = b.targetLeft - if inTarget line then 1 else 0 := by
  rcases cases_of_marked h with ⟨e, rfl⟩ | ⟨text, rfl⟩
  . rw [takeLine_line, sourceLeft_take, targetLeft_take, inSource_line, inTarget_line]
    exact ⟨rfl, rfl⟩
  . exact left_markNoNewline b

theorem step_of_marked (h : ∃ mark ∈ marks, line.head? = some mark)
    (hsource : inSource line = true → b.sourceLeft ≠ 0)
    (htarget : inTarget line = true → b.targetLeft ≠ 0) :
    b.step line = .ok (b.takeLine line) := by
  rcases cases_of_marked h with ⟨e, rfl⟩ | ⟨text, rfl⟩
  . rw [inSource_line] at hsource
    rw [inTarget_line] at htarget
    rw [takeLine_line, step_line hsource htarget]
  . rfl

theorem marked_of_step (h : b.step line = .ok b') :
    (∃ mark ∈ marks, line.head? = some mark) ∧ (inSource line = true → b.sourceLeft ≠ 0) ∧
      (inTarget line = true → b.targetLeft ≠ 0) := by
  unfold step at h
  split at h
  . split at h
    . contradiction
    . next text hleft =>
      simp only [Bool.or_eq_true, decide_eq_true_eq, not_or] at hleft
      exact ⟨⟨_, by decide, rfl⟩, fun _ => hleft.1, fun _ => hleft.2⟩
  . split at h
    . contradiction
    . next text hleft => exact ⟨⟨_, by decide, rfl⟩, fun _ => hleft, nofun⟩
  . split at h
    . contradiction
    . next text hleft => exact ⟨⟨_, by decide, rfl⟩, nofun, fun _ => hleft⟩
  . exact ⟨⟨_, by decide, rfl⟩, nofun, nofun⟩
  . contradiction

theorem readBody_of_fills {body : List Text} (h : Fills b.sourceLeft b.targetLeft body) (n : Nat)
    (rest : List Text) :
    b.readBody n (body ++ rest) =
      .ok (body.foldl takeLine b) ⟨rest, n + body.length, false⟩ := by
  induction body generalizing b n with
  | nil => exact readBody_of_isComplete ((isComplete_iff b).2 (fills_nil.1 h)) n rest
  | cons line body ih =>
    obtain ⟨hopen, hmark, hsource, htarget, hmore⟩ := fills_cons.1 h
    have hincomplete : b.isComplete = false := by
      rw [← Bool.not_eq_true, isComplete_iff]
      exact hopen
    rw [← (left_takeLine b hmark).1, ← (left_takeLine b hmark).2] at hmore
    rw [List.cons_append, readBody_cons hincomplete (step_of_marked hmark hsource htarget),
      ih hmore, List.foldl_cons, List.length_cons]
    congr 2
    omega

theorem fills_of_readBody {n : Nat} {ls : List Text} {r : LineReader}
    (h : b.readBody n ls = .ok b' r) :
    ∃ body rest, ls = body ++ rest ∧ Fills b.sourceLeft b.targetLeft body := by
  induction ls generalizing b n with
  | nil =>
    rw [readBody] at h
    split at h
    . next hcomplete => exact ⟨[], [], rfl, fills_nil.2 ((isComplete_iff b).1 hcomplete)⟩
    . contradiction
  | cons line ls ih =>
    rw [readBody] at h
    split at h
    . next hcomplete => exact ⟨[], line :: ls, rfl, fills_nil.2 ((isComplete_iff b).1 hcomplete)⟩
    . next hopen =>
      split at h
      . contradiction
      . next b₁ hstep =>
        obtain ⟨hmark, hsource, htarget⟩ := marked_of_step hstep
        obtain rfl : b.takeLine line = b₁ := by
          rw [step_of_marked hmark hsource htarget] at hstep
          exact Except.ok.inj hstep
        obtain ⟨body, rest, rfl, hmore⟩ := ih h
        rw [(left_takeLine b hmark).1, (left_takeLine b hmark).2] at hmore
        rw [isComplete_iff] at hopen
        exact ⟨line :: body, rest, rfl, fills_cons.2 ⟨hopen, hmark, hsource, htarget, hmore⟩⟩

theorem finish_eq (b : Block) (rest : List Text) (n : Nat) (looked : Bool) :
    ∃ looked', b.finish ⟨rest, n, looked⟩ =
      .ok ((foot rest).foldl takeLine b).closeRun.hunks.reverse
        ⟨rest.drop (foot rest).length, n + (foot rest).length, looked'⟩ := by
  cases rest with
  | nil => exact ⟨true, rfl⟩
  | cons line rest =>
    by_cases hmarker : isMarker line = true
    . obtain ⟨text, rfl⟩ := List.head?_eq_some_iff.1 (of_decide_eq_true hmarker)
      exact ⟨false, rfl⟩
    . have hfoot : foot (line :: rest) = [] := by simp [foot, Option.filter, hmarker]
      have hunmarked : Unmarked (line :: rest) := by
        rintro line' ⟨⟩ heq
        exact hmarker (decide_eq_true heq)
      rw [hfoot]
      exact ⟨true, finish_of_unmarked b hunmarked n looked⟩

theorem markNoNewline_markNoNewline (b : Block) :
    b.markNoNewline.markNoNewline = b.markNoNewline := by
  cases hrun : b.run with
  | none => simp [markNoNewline, hrun]
  | some run =>
    cases hlast : b.last with
    | none => simp [markNoNewline, hrun, hlast]
    | some kind => cases kind <;> simp [markNoNewline, hrun, hlast]

/-- The lines of a body do what the entries do that they show. -/
theorem foldl_takeLine (b : Block) {ls : List Text}
    (h : ∀ line ∈ ls, ∃ mark ∈ marks, line.head? = some mark) :
    ls.foldl takeLine b =
      (script ls).foldl take (if ls.head?.any isMarker then b.markNoNewline else b) := by
  induction ls generalizing b with
  | nil => rfl
  | cons line ls ih =>
    rw [List.forall_mem_cons] at h
    rw [List.foldl_cons, ih _ h.2]
    rcases cases_of_marked h.1 with ⟨e, rfl⟩ | ⟨text, rfl⟩
    . have hhead : (e.line :: ls).head?.any isMarker = false := isMarker_line e
      rw [hhead, takeLine_line, script, shown?_line, markNoNewline_take]
      cases ls.head?.any isMarker <;> rfl
    . rw [takeLine_marker, markNoNewline_markNoNewline, ite_self]
      rfl

end Block

/-- The lines that a hunk takes out and puts in. -/
def lines (h : Hunk) : List Text × List Text := (h.source.lines, h.target.lines)

namespace Script

/-- What the removed and the added entries say. -/
def changes (run : Script) : List Text × List Text :=
  ((run.filter (·.kind == .removed)).map (·.text), (run.filter (·.kind == .added)).map (·.text))

theorem lines_hunk (source target : Nat) (run : Script) :
    (hunk source target run).lines = changes run := rfl

theorem changes_ne_nil {run : Script} (hne : run ≠ []) (h : ∀ e ∈ run, e.isShared = false) :
    changes run ≠ ([], []) := by
  obtain ⟨⟨kind, text, bare⟩, rest, rfl⟩ := List.exists_cons_of_ne_nil hne
  rw [List.forall_mem_cons] at h
  cases kind
  . simp [Entry.isShared] at h
  . simp [changes]
  . simp [changes]

/-- The run in front is the first of the pieces between shared lines. -/
theorem exists_pieces (s : Script) :
    ∃ pieces, s.splitOnP Entry.isShared = run s :: pieces ∧
      (afterRun s).splitOnP Entry.isShared = [] :: pieces := by
  have hrun : ∀ e ∈ run s, e.isShared = false := fun _ => isShared_of_mem_run
  have hsplit := run_append_afterRun s
  cases hafter : afterRun s with
  | nil =>
    rw [hafter, List.append_nil] at hsplit
    rw [hsplit] at hrun
    exact ⟨[], by rw [List.splitOnP_eq_singleton hrun, hsplit], rfl⟩
  | cons e more =>
    have he : e.isShared = true := isShared_of_mem_head?_afterRun (s := s) (by rw [hafter]; rfl)
    rw [hafter] at hsplit
    refine ⟨more.splitOnP Entry.isShared, ?_, ?_⟩
    . conv => lhs; rw [← hsplit]
      rw [List.splitOnP_append_cons _ _ he, List.splitOnP_eq_singleton hrun]
      rfl
    . rw [List.splitOnP_cons_eq_if_modifyHead, if_pos he]

/-- There is one hunk for each piece between shared lines in which something changes. -/
theorem map_lines_hunks (source target : Nat) (s : Script) :
    (hunks source target s).map Hunk.lines =
      ((s.splitOnP Entry.isShared).map changes).filter (· ≠ ([], [])) := by
  have hnone (pieces : List Script) :
      (([] :: pieces).map changes).filter (· ≠ ([], [])) =
        (pieces.map changes).filter (· ≠ ([], [])) := rfl
  fun_induction hunks source target s with
  | case1 => rfl
  | case2 source target e rest hshared ih =>
    rw [List.splitOnP_cons_eq_if_modifyHead, if_pos hshared, hnone, ih]
  | case3 source target e rest hshared ih =>
    rw [Bool.not_eq_true] at hshared
    obtain ⟨pieces, hpieces, hafter⟩ := exists_pieces (e :: rest)
    have hchanges : changes (run (e :: rest)) ≠ ([], []) :=
      changes_ne_nil (run_ne_nil hshared rest) fun _ => isShared_of_mem_run
    rw [afterRun_cons hshared] at hafter
    rw [hafter, hnone] at ih
    rw [List.map_cons, ih, lines_hunk, hpieces, List.map_cons, List.filter_cons_of_pos]
    exact decide_eq_true hchanges

end Script

theorem changes_removed (text : Text) (run : List Text) :
    changes ((.char '-' :: text) :: run) = (text :: (changes run).1, (changes run).2) := rfl

theorem changes_added (text : Text) (run : List Text) :
    changes ((.char '+' :: text) :: run) = ((changes run).1, text :: (changes run).2) := rfl

/-- The pieces of a script are those of the lines that show it. -/
theorem map_changes_script {ls : List Text}
    (h : ∀ line ∈ ls, ∃ mark ∈ marks, line.head? = some mark) :
    ((script ls).splitOnP Entry.isShared).map Script.changes =
      (ls.splitOnP isContext).map changes := by
  induction ls with
  | nil => rfl
  | cons line ls ih =>
    rw [List.forall_mem_cons] at h
    have hmore := ih h.2
    obtain ⟨piece, pieces, hpieces⟩ :=
      List.exists_cons_of_ne_nil (List.splitOnP_ne_nil isContext ls)
    obtain ⟨run, runs, hruns⟩ :=
      List.exists_cons_of_ne_nil (List.splitOnP_ne_nil Entry.isShared (script ls))
    rcases cases_of_marked h.1 with ⟨⟨kind, text, bare⟩, rfl⟩ | ⟨text, rfl⟩
    . rw [script, shown?_line]
      rw [Option.toList_some, List.map_singleton, List.singleton_append]
      rw [List.splitOnP_cons_eq_if_modifyHead, List.splitOnP_cons_eq_if_modifyHead]
      cases kind with
      | context => exact congrArg (([], []) :: ·) hmore
      | removed =>
        rw [hruns, hpieces, List.map_cons, List.map_cons, List.cons.injEq] at hmore
        rw [if_neg (by simp [Entry.isShared]), if_neg (by simp [isContext, Entry.line, Entry.mark]),
          hruns, hpieces, List.modifyHead_cons, List.modifyHead_cons, List.map_cons, List.map_cons,
          hmore.2, Entry.line, Entry.mark, changes_removed, ← hmore.1]
        rfl
      | added =>
        rw [hruns, hpieces, List.map_cons, List.map_cons, List.cons.injEq] at hmore
        rw [if_neg (by simp [Entry.isShared]), if_neg (by simp [isContext, Entry.line, Entry.mark]),
          hruns, hpieces, List.modifyHead_cons, List.modifyHead_cons, List.map_cons, List.map_cons,
          hmore.2, Entry.line, Entry.mark, changes_added, ← hmore.1]
        rfl
    . have hscript : script ((.char '\\' :: text) :: ls) = script ls := rfl
      rw [hscript, hmore, List.splitOnP_cons_eq_if_modifyHead, if_neg (by simp [isContext]),
        hpieces]
      rfl

theorem texts_cons (mark : Char) (line : Text) (ls : List Text) :
    texts mark (line :: ls) = (after? [.char mark] line).toList ++ texts mark ls := by
  unfold texts
  rw [List.filterMap_cons]
  cases after? [.char mark] line <;> rfl

theorem flatMap_texts {mark : Char} (hmark : mark ≠ ' ') (ls : List Text) :
    (ls.splitOnP isContext).flatMap (texts mark) = texts mark ls := by
  induction ls with
  | nil => rfl
  | cons line ls ih =>
    rw [List.splitOnP_cons_eq_if_modifyHead, texts_cons]
    split
    . next hcontext =>
      obtain ⟨text, rfl⟩ := List.head?_eq_some_iff.1 (of_decide_eq_true hcontext)
      have hnone : after? [.char mark] (.char ' ' :: text) = none := by simp [after?, hmark]
      rw [hnone, List.flatMap_cons, ih]
      rfl
    . obtain ⟨piece, pieces, hpieces⟩ :=
        List.exists_cons_of_ne_nil (List.splitOnP_ne_nil isContext ls)
      rw [hpieces, List.flatMap_cons] at ih
      rw [hpieces, List.modifyHead_cons, List.flatMap_cons, texts_cons, List.append_assoc, ih]

/-- What becomes of the lines of a body. -/
structure Accounts (body : List Text) (hs : List Hunk) : Prop where
  source : hs.flatMap (·.source.lines) = texts '-' body
  target : hs.flatMap (·.target.lines) = texts '+' body
  /-- There is one hunk for each piece between context lines in which something changes. -/
  runs : hs.map Hunk.lines = ((body.splitOnP isContext).map changes).filter (· ≠ ([], []))
  changes : ∀ h ∈ hs, h.source.lines ≠ [] ∨ h.target.lines ≠ []
  counts : ∀ h ∈ hs, h.source.range.count = h.source.lines.length ∧
    h.target.range.count = h.target.lines.length

theorem flatMap_filter_ne {f : List Text × List Text → List Text} (h : f ([], []) = [])
    (pieces : List (List Text × List Text)) :
    (pieces.filter (· ≠ ([], []))).flatMap f = pieces.flatMap f := by
  induction pieces with
  | nil => rfl
  | cons piece pieces ih =>
    by_cases hpiece : piece = ([], [])
    . rw [List.filter_cons_of_neg (by simp [hpiece]), ih, List.flatMap_cons, hpiece, h]
      rfl
    . rw [List.filter_cons_of_pos (by simp [hpiece]), List.flatMap_cons, List.flatMap_cons, ih]

theorem accounts_of_runs {body : List Text} {hs : List Hunk}
    (h : hs.map Hunk.lines = ((body.splitOnP isContext).map changes).filter (· ≠ ([], []))) :
    Accounts body hs where
  source := by
    have hsource : (hs.map Hunk.lines).flatMap Prod.fst = texts '-' body := by
      rw [h, flatMap_filter_ne rfl, List.flatMap_map]
      exact flatMap_texts (by decide) body
    rwa [List.flatMap_map] at hsource
  target := by
    have htarget : (hs.map Hunk.lines).flatMap Prod.snd = texts '+' body := by
      rw [h, flatMap_filter_ne rfl, List.flatMap_map]
      exact flatMap_texts (by decide) body
    rwa [List.flatMap_map] at htarget
  runs := h
  changes := by
    intro hunk hhunk
    have hmem := List.mem_map_of_mem (f := Hunk.lines) hhunk
    rw [h] at hmem
    have hne := of_decide_eq_true (List.mem_filter.1 hmem).2
    rw [← not_and_or]
    exact fun hnil => hne (Prod.ext hnil.1 hnil.2)
  counts _ _ := ⟨rfl, rfl⟩

theorem marked_foot (rest : List Text) :
    ∀ line ∈ foot rest, ∃ mark ∈ marks, line.head? = some mark := by
  intro line hline
  have hmarker := (Option.mem_filter_iff.1 (Option.mem_toList.1 hline)).2
  exact ⟨.char '\\', by decide, of_decide_eq_true hmarker⟩

variable {r r' : LineReader} {s t : Range} {body rest : List Text} {hs : List Hunk}

theorem range_of_ofText {text : Text} (h : Range.ofText text = .ok s) (n : Nat) :
    range text n = .ok s := by
  rw [range, h]

theorem readBlock_of_startsBlock (h : StartsBlock r.rest s t body rest) :
    ∃ looked, readBlock r =
      .ok (Script.hunks (Block.firstLine s) (Block.firstLine t) (script (body ++ foot rest)))
        ⟨rest.drop (foot rest).length, r.lineNumber + 1 + (body ++ foot rest).length, looked⟩ := by
  obtain ⟨header, hlines, hheads, hfills⟩ := h
  obtain ⟨source, target, hranges, hs, ht⟩ := heads_iff.1 hheads
  have hmarked : ∀ line ∈ body ++ foot rest, ∃ mark ∈ marks, line.head? = some mark :=
    List.forall_mem_append.2 ⟨hfills.marked, marked_foot rest⟩
  let b := Block.ofRanges s t
  have hread : b.readBody (r.lineNumber + 1) (body ++ rest) =
      .ok (body.foldl Block.takeLine b) ⟨rest, r.lineNumber + 1 + body.length, false⟩ :=
    Block.readBody_of_fills hfills _ rest
  obtain ⟨looked, hfinish⟩ := Block.finish_eq (body.foldl Block.takeLine b) rest
    (r.lineNumber + 1 + body.length) false
  have hopen : (if (body ++ foot rest).head?.any isMarker then b.markNoNewline else b) = b :=
    ite_self b
  rw [← List.foldl_append, Block.foldl_takeLine b hmarked, hopen,
    Block.hunks_foldl_take rfl, List.reverse_append, List.reverse_reverse] at hfinish
  refine ⟨looked, ?_⟩
  unfold readBlock
  rw [hlines]
  dsimp only
  rw [hranges]
  dsimp only
  rw [range_of_ofText hs, range_of_ofText ht]
  dsimp only
  rw [hread]
  dsimp only
  rw [hfinish, List.length_append, ← Nat.add_assoc]
  rfl

theorem startsBlock_of_readBlock (h : readBlock r = .ok hs r') :
    ∃ s t body rest, StartsBlock r.rest s t body rest := by
  unfold readBlock at h
  split at h
  . contradiction
  . next header rest hr =>
    dsimp only at h
    split at h
    . contradiction
    . next source target hranges =>
      split at h
      . contradiction
      . contradiction
      . next s t hsource htarget =>
        split at h
        . contradiction
        . next b r₁ hbody =>
          obtain ⟨body, rest, rfl, hfills⟩ := Block.fills_of_readBody hbody
          exact ⟨s, t, body, rest, header, hr, heads_iff.2 ⟨source, target, hranges,
            ofText_of_range hsource, ofText_of_range htarget⟩, hfills⟩

/-- A block is read exactly if the input starts with one; it is consumed up to the marker behind its
body, and its hunks hold every changed line. All else is an error about a line. -/
theorem readBlock_outcome (r : LineReader) :
    ((∃ hs r', readBlock r = .ok hs r') ↔ ∃ s t body rest, StartsBlock r.rest s t body rest) ∧
      (∀ s t body rest, StartsBlock r.rest s t body rest →
        ∃ hs looked, readBlock r = .ok hs ⟨rest.drop (foot rest).length,
            r.lineNumber + 1 + (body ++ foot rest).length, looked⟩ ∧
          hs = Script.hunks (Block.firstLine s) (Block.firstLine t) (script (body ++ foot rest)) ∧
          Accounts (body ++ foot rest) hs) ∧
      ∀ e r', readBlock r = .error e r' → ∃ n fault, e = .diff n fault := by
  refine ⟨⟨?_, ?_⟩, ?_, ?_⟩
  . rintro ⟨hs, r', hread⟩
    exact startsBlock_of_readBlock hread
  . rintro ⟨s, t, body, rest, hblock⟩
    obtain ⟨looked, hread⟩ := readBlock_of_startsBlock hblock
    exact ⟨_, _, hread⟩
  . intro s t body rest hblock
    obtain ⟨looked, hread⟩ := readBlock_of_startsBlock hblock
    obtain ⟨header, _, _, hfills⟩ := hblock
    have hmarked : ∀ line ∈ body ++ foot rest, ∃ mark ∈ marks, line.head? = some mark :=
      List.forall_mem_append.2 ⟨hfills.marked, marked_foot rest⟩
    refine ⟨_, looked, hread, rfl, accounts_of_runs ?_⟩
    rw [Script.map_lines_hunks, map_changes_script hmarked]
  . intro e r' herror
    obtain ⟨n, fault, heq, _⟩ := blames_of_readBlock herror
    exact ⟨n, fault, heq⟩

/-- The body of a block with two runs and with a marker in between. -/
def sampleBody : List Text := ["-a", "\\", " m", "-b", "+c"]

/-- A marker, and the next block. -/
def sampleRest : List Text := ["\\", "@@"]

theorem readBlock_outcome_sample :
    ∃ looked, readBlock ⟨"@@ -٣,3 +1,2 @@ f" :: (sampleBody ++ sampleRest), 7, false⟩ =
      .ok [⟨⟨3, ["a"], true⟩, ⟨0, [], false⟩⟩, ⟨⟨5, ["b"], false⟩, ⟨2, ["c"], true⟩⟩]
        ⟨["@@"], 14, looked⟩ := by
  have harabic : Spells "٣" 3 := ⟨by decide, by decide, by decide, by decide⟩
  have hthree : Spells "3" 3 := ⟨by decide, by decide, by decide, by decide⟩
  have hone : Spells "1" 1 := ⟨by decide, by decide, by decide, by decide⟩
  have htwo : Spells "2" 2 := ⟨by decide, by decide, by decide, by decide⟩
  have hheads : Heads "@@ -٣,3 +1,2 @@ f" ⟨3, 3⟩ ⟨1, 2⟩ :=
    ⟨"٣,3", "1,2", " f", by decide, .counted harabic hthree (by decide),
      .counted hone htwo (by decide)⟩
  have hfills : Fills 3 2 sampleBody := by
    simp only [sampleBody, fills_cons, fills_nil]
    decide
  obtain ⟨hs, looked, hread, hhunks, _⟩ :=
    (readBlock_outcome ⟨"@@ -٣,3 +1,2 @@ f" :: (sampleBody ++ sampleRest), 7, false⟩).2.1
      ⟨3, 3⟩ ⟨1, 2⟩ sampleBody sampleRest ⟨_, rfl, hheads, hfills⟩
  have hscript : script (sampleBody ++ foot sampleRest) =
      [⟨.removed, "a", true⟩, ⟨.context, "m", false⟩, ⟨.removed, "b", false⟩,
        ⟨.added, "c", true⟩] := by decide
  refine ⟨looked, ?_⟩
  rw [hread, hhunks, hscript]
  simp [Script.hunks, Script.run, Script.afterRun, Entry.isShared, Script.hunk, Script.side,
    Script.sourceCount, Script.targetCount, Entry.inSource, Entry.inTarget, Block.firstLine,
    sampleBody, sampleRest]
  decide

end Hunk

end Dvcs
