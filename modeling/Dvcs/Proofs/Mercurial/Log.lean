import Dvcs.Proofs.Mercurial.Extension

/-!
This module contains walks through history from end to end: the arguments of the command, the
revisions they select inside of hg, and the commits that are read from its output.
-/

namespace Dvcs

namespace Mercurial

open Extension Text

/-- How Mercurial reads the arguments of the command, with the options so far. -/
structure ReadsArguments (read : Options → List Text → Option Options) : Prop where
  done : ∀ o, read o [] = some o
  limit : ∀ o n rest, read o (("--limit=" ++ ofInt n) :: rest) = read { o with limit := n } rest
  reverse : ∀ o rest, read o ("--reverse" :: rest) = read { o with reverse := true } rest
  noDiffs : ∀ o rest, read o ("--no-diffs" :: rest) = read { o with noDiffs := true } rest
  revisions : ∀ o e, read o ["--", e] = some { o with expression := encode e }

/-- The number that an argument spells. -/
def integer? : Text → Option Int
  | .char '-' :: t => (digitValues? 10 t).map fun ds => -(ofDigitValues 10 ds : Int)
  | t => (digitValues? 10 t).map fun ds => (ofDigitValues 10 ds : Int)

theorem integer?_ofInt (n : Int) : integer? (ofInt n) = some n := by
  cases n with
  | ofNat n =>
    unfold integer?
    split
    . next heq =>
      -- no digit is a sign
      obtain ⟨c, hsign, hc⟩ := isDigit_of_mem_ofNat (heq ▸ List.mem_cons_self : _ ∈ ofNat n)
      cases hsign
      contradiction
    . rw [ofInt, digitValues?_ofNat, Option.map_some, ofDigitValues_toDigits]
      rfl
  | negSucc n =>
    rw [ofInt, integer?, digitValues?_ofNat, Option.map_some, ofDigitValues_toDigits]
    rfl

/-- The arguments that are no options: an expression, or none. -/
def readOperands (o : Options) : List Text → Option Options
  | [] => some o
  | [e] => some { o with expression := encode e }
  | _ => none

/-- The arguments of the command where every option is spelt in full. -/
def readArguments (o : Options) : List Text → Option Options
  | [] => some o
  | argument :: rest =>
    if argument = "--" then readOperands o rest
    else if argument = "--reverse" then readArguments { o with reverse := true } rest
    else if argument = "--no-diffs" then readArguments { o with noDiffs := true } rest
    else
      match (after? "--limit=" argument).bind integer? with
      | some n => readArguments { o with limit := n } rest
      | none => none

theorem readsArguments_readArguments : ReadsArguments readArguments where
  done _ := rfl
  limit o n rest := by
    have hnot (t : Text) (h : after? "--limit=" t = none) : "--limit=" ++ ofInt n ≠ t := by
      rintro rfl
      rw [after?_append] at h
      contradiction
    rw [readArguments, if_neg (hnot _ rfl), if_neg (hnot _ rfl), if_neg (hnot _ rfl)]
    rw [after?_append, Option.bind_some, integer?_ofInt]
  reverse _ _ := by
    rw [readArguments, if_neg (by decide), if_pos rfl]
  noDiffs _ _ := by
    rw [readArguments, if_neg (by decide), if_neg (by decide), if_pos rfl]
  revisions _ _ := rfl

/-- The options that a selection of commits stands for. -/
def optionsOf (q : Query) (noDiffs : Bool) : Options where
  expression := encode (q.revisions.getD "all()")
  limit := q.limit.getD 0
  reverse := q.reverse
  noDiffs := noDiffs

/-- The part of a history, given with the newest first, that is asked for. -/
def picked (q : Query) (newest : List α) : List α :=
  let limited := q.limit.elim newest fun n => newest.take n.toNat
  if q.reverse then limited.reverse else limited

theorem read_selection {read : Options → List Text → Option Options} (hread : ReadsArguments read)
    (q : Query) (noDiffs : Bool) :
    read { noDiffs := noDiffs } (selection q) = some (optionsOf q noDiffs) := by
  obtain ⟨revisions, limit, reverse⟩ := q
  cases revisions <;> cases limit <;> cases reverse <;>
    simp [selection, optionsOf, hread.done, hread.limit, hread.reverse, hread.revisions]

theorem order_of_perm {newest revisions : List Nat} (hperm : newest.Perm revisions)
    (hdescending : newest.Pairwise (· > ·)) (o : Options) :
    o.order revisions =
      if o.reverse then (limited o.limit newest).reverse else limited o.limit newest := by
  have hsorted : revisions.mergeSort (fun a b => decide (b ≤ a)) = newest := by
    have hpairwise : (revisions.mergeSort (fun a b => decide (b ≤ a))).Pairwise
        (fun a b => decide (b ≤ a) = true) := by
      apply List.pairwise_mergeSort
      . simp only [decide_eq_true_eq]
        omega
      . simp only [Bool.or_eq_true, decide_eq_true_eq]
        omega
    have hweak : newest.Pairwise (fun a b => decide (b ≤ a) = true) :=
      hdescending.imp fun h => decide_eq_true (Nat.le_of_lt h)
    apply List.Perm.eq_of_pairwise ?_ hpairwise hweak
      ((List.mergeSort_perm revisions _).trans hperm.symm)
    intro a b _ _ hab hba
    exact Nat.le_antisymm (of_decide_eq_true hba) (of_decide_eq_true hab)
  unfold Options.order
  rw [hsorted]

theorem limited_of_not_isEmpty {q : Query} (h : q.isEmpty = false) (newest : List Nat) :
    limited (q.limit.getD 0) newest = q.limit.elim newest fun n => newest.take n.toNat := by
  obtain ⟨revisions, limit, reverse⟩ := q
  cases limit with
  | none => rfl
  | some n =>
    have hpos : 0 < n := by simpa [Query.isEmpty] using h
    obtain ⟨k, rfl⟩ := Int.eq_ofNat_of_zero_le (Int.le_of_lt hpos)
    cases k with
    | zero => contradiction
    | succ k => rfl

theorem order_optionsOf {q : Query} (h : q.isEmpty = false) {newest revisions : List Nat}
    (hperm : newest.Perm revisions) (hdescending : newest.Pairwise (· > ·)) (noDiffs : Bool) :
    (optionsOf q noDiffs).order revisions = picked q newest := by
  rw [order_of_perm hperm hdescending]
  unfold optionsOf picked
  dsimp only
  rw [limited_of_not_isEmpty h]

theorem mem_of_mem_picked {q : Query} {newest : List α} {a : α} (h : a ∈ picked q newest) :
    a ∈ newest := by
  have hlimited (hmem : a ∈ q.limit.elim newest fun n => newest.take n.toNat) : a ∈ newest := by
    cases hlimit : q.limit with
    | none => simpa [hlimit] using hmem
    | some n =>
      rw [hlimit] at hmem
      exact List.mem_of_mem_take hmem
  unfold picked at h
  dsimp only at h
  split at h
  . exact hlimited (List.mem_reverse.1 h)
  . exact hlimited h

theorem map_picked (q : Query) (f : α → β) (newest : List α) :
    (picked q newest).map f = picked q (newest.map f) := by
  unfold picked
  cases q.limit <;> cases q.reverse <;> simp [List.map_take]

theorem selected_optionsOf {host : Host} {q : Query} (h : q.isEmpty = false) {newest : List Nat}
    (hperm : newest.Perm (host.revisions (encode (q.revisions.getD "all()"))))
    (hdescending : newest.Pairwise (· > ·)) {context : Nat → Changeset}
    (hcontext : ∀ rev ∈ newest, host.changesets[rev]? = some (context rev)) (noDiffs : Bool) :
    selected host (optionsOf q noDiffs) = picked q (newest.map context) := by
  have horder : selected host (optionsOf q noDiffs) =
      ((optionsOf q noDiffs).order
        (host.revisions (encode (q.revisions.getD "all()")))).filterMap
          (host.changesets[·]?) := rfl
  rw [horder, order_optionsOf h hperm hdescending, ← map_picked, ← List.filterMap_eq_map]
  apply List.filterMap_congr
  intro rev hrev
  exact hcontext rev (mem_of_mem_picked hrev)

theorem written_log {host : Host} {q : Query} (h : q.isEmpty = false) {newest : List Nat}
    (hperm : newest.Perm (host.revisions (encode (q.revisions.getD "all()"))))
    (hdescending : newest.Pairwise (· > ·)) {context : Nat → Changeset}
    (hcontext : ∀ rev ∈ newest, host.changesets[rev]? = some (context rev)) (noDiffs : Bool) :
    (log host (optionsOf q noDiffs)).written =
      (picked q (newest.map context)).flatMap fun c => (writeCommit host noDiffs c).written := by
  rw [written_log_eq_flatMap, selected_optionsOf h hperm hdescending hcontext]
  rfl

theorem commits_of_isEmpty {q : Query} (h : q.isEmpty = true) (r : WorkingCopy) (take : Option Nat)
    (w : World) : commits r q take w = .ok { commits := [], closed := take = some 0 } w := by
  unfold commits
  by_cases htake : take = some 0
  . simp [htake]
    rfl
  . simp [htake, h]
    rfl

theorem metadata_of_isEmpty {q : Query} (h : q.isEmpty = true) (r : WorkingCopy) (w : World) :
    metadata r q w = .ok [] w := by
  unfold metadata
  simp [h]
  rfl

theorem readAll_log {read : Options → List Text → Option Options} (hread : ReadsArguments read)
    {host : Host} {q : Query} {newest : List Nat}
    (hperm : newest.Perm (host.revisions (encode (q.revisions.getD "all()"))))
    (hdescending : newest.Pairwise (· > ·)) {context : Nat → Changeset}
    (hcontext : ∀ rev ∈ newest, host.changesets[rev]? = some (context rev))
    (hvalid : ∀ rev ∈ newest, (context rev).WellFormed host) :
    if q.isEmpty then
      ∀ r w, (∀ take, commits r q take w = .ok { commits := [], closed := take = some 0 } w) ∧
        metadata r q w = .ok [] w
    else
      ∃ o o' found n n',
        read {} (selection q) = some o ∧ read {} ("--no-diffs" :: selection q) = some o' ∧
        (picked q (newest.map context)).Forall₂ (Presents host) found ∧
        Commit.readAll (.ofLines (Handle.linesOf (log host o).written)) =
          { items := found, reader := ⟨[], n, true⟩ } ∧
        Metadata.readAll (.ofLines (Handle.linesOf (log host o').written)) =
          { items := found.map (·.metadata), reader := ⟨[], n', true⟩ } := by
  split
  . next h =>
    intro r w
    constructor
    . intro take
      exact commits_of_isEmpty h r take w
    . exact metadata_of_isEmpty h r w
  . next h =>
    rw [Bool.not_eq_true] at h
    have hcontexts : ∀ c ∈ picked q (newest.map context), c.WellFormed host := by
      intro c hc
      obtain ⟨rev, hrev, rfl⟩ := List.mem_map.1 (mem_of_mem_picked hc)
      exact hvalid rev hrev
    obtain ⟨found, hfound, hframed, hshows⟩ := exists_found hcontexts
    obtain ⟨hlines, hlines'⟩ := linesOf_writeCommits hcontexts hfound
    have hrecords : ∀ m ∈ found.map (·.metadata), m.WellFormed :=
      List.forall_mem_map.2 fun commit hcommit => (hframed commit hcommit).metadata
    refine ⟨optionsOf q false, optionsOf q true, found,
      (found.flatMap (Commit.encodeWith (shown host))).length,
      ((found.map (·.metadata)).flatMap Metadata.encode).length, ?_, ?_, hfound, ?_, ?_⟩
    . exact read_selection hread q false
    . rw [hread.noDiffs]
      exact read_selection hread q true
    . rw [written_log h hperm hdescending hcontext, hlines]
      exact Commit.readAll_encodeWith hframed hshows
    . rw [written_log h hperm hdescending hcontext, hlines']
      rw [← Commit.readAll_metadata hrecords, List.flatMap_map]

/-- A first commit without any files. -/
def rootChange : Changeset where
  hex := List.replicate 40 97
  parents := [List.replicate 40 48]
  user := encode "root"
  description := []
  digits := 0
  places := 0

/-- A commit with two parents, whose description looks like the frames of a stream. -/
def mergeChange : Changeset where
  hex := List.replicate 40 98
  parents := [List.replicate 40 97, List.replicate 40 48]
  user := encode "Ann <ann@x>"
  description := encode "#@!_-=&\n\n#@!_-=&diff "
  digits := -15
  places := 1

/-- What has changed since a commit. -/
def sampleChanges (source : Bytes) : List Patch :=
  if source = rootChange.hex then [Commit.lookalike] else []

def sampleHost : Host where
  changesets := [rootChange, mergeChange]
  revisions _ := [0, 1]
  diff source _ := [Handle.ended (((sampleChanges source).flatMap Patch.render).map encode)]

theorem diffLines_sampleHost (source target : Bytes) :
    diffLines sampleHost source target = (sampleChanges source).flatMap Patch.render := by
  have hplain : ∀ line ∈ (sampleChanges source).flatMap Patch.render, Plain line := by
    unfold sampleChanges
    split
    . decide
    . nofun
  have hflatten : diffLines sampleHost source target =
      Handle.linesOf ([Handle.ended (((sampleChanges source).flatMap Patch.render).map
        encode)].flatten) := rfl
  rw [hflatten, List.flatten_singleton]
  exact Handle.linesOf_ended_encode fun line hline => (hplain line hline).isLine

theorem wellFormed_sampleChanges (source : Bytes) : ∀ p ∈ sampleChanges source, p.WellFormed := by
  unfold sampleChanges
  split
  . intro p hp
    rw [List.mem_singleton.1 hp]
    exact Commit.wellFormed_lookalike
  . exact List.forall_mem_nil _

theorem quiet_sampleHost (source target : Bytes) :
    ∀ line ∈ diffLines sampleHost source target, Commit.atRecord line = false := by
  rw [diffLines_sampleHost]
  intro line hline
  obtain ⟨p, _, hmem⟩ := List.mem_flatMap.1 hline
  exact Commit.atRecord_of_mem_render hmem

theorem accepted_sampleHost (source target : Bytes) :
    ∃ ps r, Patch.readExtended Patch.toEnd (.ofLines (diffLines sampleHost source target)) =
      .ok ps r := by
  rw [diffLines_sampleHost]
  exact ⟨_, _, Patch.readExtended_render (wellFormed_sampleChanges source) 0 false⟩

theorem wellFormed_rootChange : rootChange.WellFormed sampleHost where
  hex := by decide +kernel
  parents := by decide
  nodes := by decide +kernel
  user := by decide
  message := by decide
  seconds := by decide
  complete := by decide +kernel
  quiet parent _ := quiet_sampleHost parent _
  accepted parent _ := accepted_sampleHost parent _

theorem wellFormed_mergeChange : mergeChange.WellFormed sampleHost where
  hex := by decide +kernel
  parents := by decide
  nodes := by decide +kernel
  user := by decide
  message := by decide
  seconds := by decide
  complete := by decide +kernel
  quiet parent _ := quiet_sampleHost parent _
  accepted parent _ := accepted_sampleHost parent _

theorem readAll_log_merge :
    ∃ o o' found n n',
      readArguments {} ["--limit=1", "--reverse"] = some o ∧
      readArguments {} ["--no-diffs", "--limit=1", "--reverse"] = some o' ∧
      [mergeChange].Forall₂ (Presents sampleHost) found ∧
      Commit.readAll (.ofLines (Handle.linesOf (log sampleHost o).written)) =
        { items := found, reader := ⟨[], n, true⟩ } ∧
      Metadata.readAll (.ofLines (Handle.linesOf (log sampleHost o').written)) =
        { items := found.map (·.metadata), reader := ⟨[], n', true⟩ } := by
  let context (rev : Nat) : Changeset := if rev = 0 then rootChange else mergeChange
  have hcontext : ∀ rev ∈ [1, 0], sampleHost.changesets[rev]? = some (context rev) := by decide
  have hvalid : ∀ rev ∈ [1, 0], (context rev).WellFormed sampleHost := by
    simp only [List.forall_mem_cons]
    exact ⟨wellFormed_mergeChange, wellFormed_rootChange, nofun⟩
  have hlog := @readAll_log readArguments readsArguments_readArguments sampleHost
    { limit := some 1, reverse := true } [1, 0] (.swap 0 1 []) (by decide) context hcontext hvalid
  rwa [if_neg (by decide)] at hlog

end Mercurial

end Dvcs
