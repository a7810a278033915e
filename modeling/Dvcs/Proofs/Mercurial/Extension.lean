import Dvcs.Mercurial.Extension
import Dvcs.Mercurial.History
import Dvcs.Proofs.Commit.Stream
import Dvcs.Proofs.Process.Handle
import Dvcs.Proofs.Text.Join
import Mathlib.Data.List.Forall2

/-!
This module contains the agreement of the extension, which writes commits inside of hg, and the
reader of commit streams on this side: the commits that are read are the ones that were selected.
-/

namespace Dvcs

namespace Mercurial

namespace Extension

open Text

section Bytes

theorem mem_of_mem_trim {bs : Bytes} {b : UInt8} (h : b ∈ trim bs) : b ∈ bs := by
  unfold trim at h
  rw [List.mem_reverse] at h
  have := (List.dropWhile_sublist _).subset h
  rw [List.mem_reverse] at this
  exact (List.dropWhile_sublist _).subset this

theorem eq_of_cutFirst? {b : UInt8} {bs before behind : Bytes}
    (h : cutFirst? b bs = some (before, behind)) : bs = before ++ b :: behind := by
  induction bs generalizing before with
  | nil => contradiction
  | cons c bs ih =>
    rw [cutFirst?] at h
    split at h
    . next hc =>
      cases h
      rw [hc]
      rfl
    . obtain ⟨⟨front, back⟩, hcut, heq⟩ := Option.map_eq_some_iff.1 h
      cases heq
      rw [ih hcut]
      rfl

theorem eq_of_cutLast? {b : UInt8} {bs before behind : Bytes}
    (h : cutLast? b bs = some (before, behind)) : bs = before ++ b :: behind := by
  obtain ⟨⟨back, front⟩, hcut, heq⟩ := Option.map_eq_some_iff.1 h
  cases heq
  have := congrArg List.reverse (eq_of_cutFirst? hcut)
  simpa using this

theorem mem_of_mem_splitUser {user : Bytes} {b : UInt8}
    (h : b ∈ (splitUser user).1 ∨ b ∈ (splitUser user).2) : b ∈ user := by
  have hwhole (h : b ∈ trim user ∨ b ∈ ([] : Bytes)) : b ∈ user := by
    rcases h with h | h
    . exact mem_of_mem_trim h
    . contradiction
  unfold splitUser at h
  split at h
  . exact hwhole h
  . next name rest hfirst =>
    split at h
    . exact hwhole h
    . next email behind hlast =>
      rw [eq_of_cutFirst? hfirst, eq_of_cutLast? hlast]
      simp only [List.mem_append, List.mem_cons]
      rcases h with h | h
      . exact .inl (mem_of_mem_trim h)
      . exact .inr (.inr (.inl (mem_of_mem_trim h)))

/-- The bytes that Mercurial names a commit with. -/
def IsNode (bs : Bytes) : Prop :=
  bs.length = 40 ∧ ∀ b ∈ bs, 48 ≤ b.toNat ∧ b.toNat ≤ 57 ∨ 97 ≤ b.toNat ∧ b.toNat ≤ 102

instance (bs : Bytes) : Decidable (IsNode bs) := inferInstanceAs (Decidable (_ ∧ _))

theorem ascii_of_isNode {bs : Bytes} (h : IsNode bs) : ∀ b ∈ bs, b.toNat < 128 := by
  intro b hb
  have := h.2 b hb
  omega

theorem exists_hash_of_isNode {bs : Bytes} (h : IsNode bs) :
    ∃ hash : Hash, hash.hex = decode bs := by
  have hdigit : ∀ n < 128, 48 ≤ n ∧ n ≤ 57 ∨ 97 ≤ n ∧ n ≤ 102 →
      Hash.isHexDigit (.char (Char.ofNat n)) = true := by decide
  have hvalid : Hash.isDigest (decode bs) = true := by
    rw [decode_ascii (ascii_of_isNode h)]
    simp only [Hash.isDigest, List.length_map, h.1, Bool.and_eq_true, List.all_eq_true]
    refine ⟨rfl, ?_⟩
    intro s hs
    obtain ⟨b, hb, rfl⟩ := List.mem_map.1 hs
    exact hdigit b.toNat (ascii_of_isNode h b hb) (h.2 b hb)
  exact ⟨⟨decode bs, hvalid⟩, rfl⟩

theorem not_mem_of_isNode {bs : Bytes} (h : IsNode bs) : 10 ∉ bs := by
  intro hmem
  have := h.2 10 hmem
  simp at this

theorem not_mem_of_mem_splitOn {bs line : Bytes} (h : line ∈ bs.splitOn 10) : 10 ∉ line := by
  induction bs generalizing line with
  | nil =>
    rw [List.splitOn_nil, List.mem_singleton] at h
    rw [h]
    exact List.not_mem_nil
  | cons b bs ih =>
    rw [List.splitOn_cons_eq_if_modifyHead] at h
    split at h
    . rcases List.mem_cons.1 h with rfl | h
      . exact List.not_mem_nil
      . exact ih h
    . next hb =>
      cases hsplit : bs.splitOn 10 with
      | nil => exact absurd hsplit (List.splitOn_ne_nil 10 bs)
      | cons first rest =>
        rw [hsplit] at h
        rcases List.mem_cons.1 h with rfl | h
        . have hfirst : 10 ∉ first := ih (by simp [hsplit])
          rw [List.mem_cons, not_or]
          exact ⟨fun heq => hb (by simp [← heq]), hfirst⟩
        . exact ih (by simp [hsplit, h])

end Bytes

/-- The lines of a diff that Mercurial answers with. -/
def diffLines (host : Host) (source target : Bytes) : List Text :=
  Handle.linesOf (host.diff source (some target)).flatten

/-- What Mercurial's answers about a commit keep to. -/
structure Changeset.WellFormed (host : Host) (c : Changeset) : Prop where
  hex : IsNode c.hex
  parents : c.parents ≠ []
  nodes : ∀ parent ∈ c.parents, IsNode parent
  user : 10 ∉ c.user
  message : c.message.length < 2 ^ 64
  seconds : Instant.firstSecond ≤ c.seconds ∧ c.seconds ≤ Instant.lastSecond
  complete : ∀ parent ∈ c.parents, Handle.Complete (host.diff parent (some c.hex)).flatten
  quiet : ∀ parent ∈ c.parents, ∀ line ∈ diffLines host parent c.hex, Commit.atRecord line = false
  accepted : ∀ parent ∈ c.parents, ∃ ps r,
    Patch.readExtended Patch.toEnd (.ofLines (diffLines host parent c.hex)) = .ok ps r

/-- The diff that stands for the changes of a commit since one of its parents. -/
structure PresentsDiff (host : Host) (c : Changeset) (parent : Bytes) (d : Diff) : Prop where
  source : d.source.hex = decode parent
  target : d.target.map Hash.hex = some (decode c.hex)
  patches : ∃ r,
    Patch.readExtended Patch.toEnd (.ofLines (diffLines host parent c.hex)) = .ok d.patches r

/-- The commit that stands for a commit of Mercurial's. -/
structure Presents (host : Host) (c : Changeset) (commit : Commit) : Prop where
  hash : commit.metadata.hash.hex = decode c.hex
  parents : commit.metadata.parents.map Hash.hex = c.parents.map decode
  name : commit.metadata.author.name = decode (splitUser c.user).1
  email : commit.metadata.author.email = Author.email? (decode (splitUser c.user).2)
  committer : commit.metadata.committer = commit.metadata.author
  timestamp : commit.metadata.timestamp.micros = c.seconds * 1000000
  message : commit.metadata.message =
    if c.description = [] then [] else (c.description.splitOn 10).map decode
  diffs : c.parents.Forall₂ (PresentsDiff host c) commit.parentDiffs

theorem map_decode_message (c : Changeset) :
    c.message.map decode =
      if c.description = [] then [] else (c.description.splitOn 10).map decode := by
  unfold Changeset.message
  simp only [List.isEmpty_iff]
  split <;> rfl

theorem exists_presentsDiff {host : Host} {c : Changeset} (hc : c.WellFormed host) {parent : Bytes}
    (hparent : parent ∈ c.parents) : ∃ d, PresentsDiff host c parent d := by
  obtain ⟨source, hsource⟩ := exists_hash_of_isNode (hc.nodes parent hparent)
  obtain ⟨target, htarget⟩ := exists_hash_of_isNode hc.hex
  obtain ⟨ps, r, hread⟩ := hc.accepted parent hparent
  exact ⟨⟨source, some target, ps⟩, hsource, congrArg some htarget, r, hread⟩

theorem exists_forall₂ {α β : Type} {R : α → β → Prop} {as : List α} (h : ∀ a ∈ as, ∃ b, R a b) :
    ∃ bs, as.Forall₂ R bs := by
  induction as with
  | nil => exact ⟨[], .nil⟩
  | cons a as ih =>
    rw [List.forall_mem_cons] at h
    obtain ⟨b, hb⟩ := h.1
    obtain ⟨bs, hbs⟩ := ih h.2
    exact ⟨b :: bs, .cons hb hbs⟩

theorem sources_of_presentsDiff {host : Host} {c : Changeset} {parents : List Bytes}
    {ds : List Diff} (h : parents.Forall₂ (PresentsDiff host c) ds) :
    (ds.map (·.source)).map Hash.hex = parents.map decode := by
  induction h with
  | nil => rfl
  | cons hd _ ih => rw [List.map_cons, List.map_cons, List.map_cons, hd.source, ih]

theorem exists_of_mem_right {α β : Type} {R : α → β → Prop} {as : List α} {bs : List β}
    (h : as.Forall₂ R bs) {b : β} (hb : b ∈ bs) : ∃ a ∈ as, R a b := by
  induction h with
  | nil => contradiction
  | cons hr _ ih =>
    rcases List.mem_cons.1 hb with rfl | hb
    . exact ⟨_, List.mem_cons_self, hr⟩
    . obtain ⟨a, ha, hrel⟩ := ih hb
      exact ⟨a, List.mem_cons_of_mem _ ha, hrel⟩

theorem exists_presents {host : Host} {c : Changeset} (hc : c.WellFormed host) :
    ∃ commit, Presents host c commit := by
  obtain ⟨hash, hhash⟩ := exists_hash_of_isNode hc.hex
  obtain ⟨ds, hds⟩ := exists_forall₂ fun parent hparent => exists_presentsDiff hc hparent
  obtain ⟨timestamp, _, htimestamp⟩ := Instant.ofSeconds_of_bounds hc.seconds
  have hsources := sources_of_presentsDiff hds
  let author : Author :=
    ⟨decode (splitUser c.user).1, Author.email? (decode (splitUser c.user).2)⟩
  exact ⟨⟨⟨hash, ds.map (·.source), author, author, timestamp, c.message.map decode⟩, ds⟩,
    hhash, hsources, rfl, rfl, rfl, htimestamp, map_decode_message c, hds⟩

theorem seconds_of_presents {host : Host} {c : Changeset} {commit : Commit}
    (h : Presents host c commit) : commit.metadata.timestamp.seconds = c.seconds := by
  rw [Instant.seconds, h.timestamp, Instant.wholeSeconds_mul]

theorem framed_of_presents {host : Host} {c : Changeset} {commit : Commit}
    (hc : c.WellFormed host) (h : Presents host c commit) : commit.Framed := by
  have hemail : commit.metadata.author.email ≠ some [] := by
    rw [h.email]
    unfold Author.email?
    split
    . nofun
    . next hne =>
      intro heq
      rw [Option.some.inj heq] at hne
      contradiction
  have hparents : commit.metadata.parents ≠ [] := by
    intro heq
    have hmap := h.parents
    rw [heq, List.map_nil, eq_comm, List.map_eq_nil_iff] at hmap
    exact hc.parents hmap
  have hmessage : commit.metadata.message.length < 2 ^ 64 := by
    rw [h.message, ← map_decode_message, List.length_map]
    exact hc.message
  have htimestamp : commit.metadata.timestamp.IsWhole := by
    unfold Instant.IsWhole Instant.microsPerSecond
    rw [h.timestamp, Int.mul_emod_left]
  have hhex : Function.Injective Hash.hex := fun _ _ => Hash.ext
  constructor
  . exact ⟨hparents, hemail, by rwa [h.committer], htimestamp, hmessage⟩
  . apply List.map_injective_iff.2 hhex
    rw [sources_of_presentsDiff h.diffs, h.parents]
  . intro d hd
    obtain ⟨parent, _, hdiff⟩ := exists_of_mem_right h.diffs hd
    apply Option.map_injective hhex
    rw [hdiff.target, Option.map_some, h.hash]

/-- The lines that a diff is shown with by the extension. -/
def shown (host : Host) (d : Diff) : List Text :=
  diffLines host (encode d.source.hex) (d.target.elim [] fun target => encode target.hex)

theorem shown_of_presentsDiff {host : Host} {c : Changeset} {parent : Bytes} {d : Diff}
    (h : PresentsDiff host c parent d) : shown host d = diffLines host parent c.hex := by
  obtain ⟨target, htarget, hhex⟩ := Option.map_eq_some_iff.1 h.target
  unfold shown
  rw [h.source, htarget, Option.elim_some, hhex]
  rw [encode_decode, encode_decode]

theorem shows_of_presents {host : Host} {c : Changeset} {commit : Commit}
    (hc : c.WellFormed host) (h : Presents host c commit) :
    ∀ d ∈ commit.parentDiffs, Commit.Shows (shown host) d := by
  intro d hd
  obtain ⟨parent, hparent, hdiff⟩ := exists_of_mem_right h.diffs hd
  have hlines := shown_of_presentsDiff hdiff
  constructor
  . rw [hlines]
    exact hdiff.patches
  . rw [hlines]
    exact hc.quiet parent hparent

theorem getD_email? (t : Text) : (Author.email? t).getD [] = t := by
  cases t <;> rfl

theorem decode_encode_of_plain {t : Text} (h : Plain t) : decode (encode t) = t := h.fromBytes

theorem map_decode_record {host : Host} {c : Changeset} {commit : Commit}
    (h : Presents host c commit) : c.record.map decode = commit.metadata.encode := by
  have hmessage : commit.metadata.message = c.message.map decode := by
    rw [h.message, map_decode_message]
  have hname := h.name
  have hemail := congrArg (·.getD []) h.email
  rw [getD_email?] at hemail
  unfold Changeset.record Metadata.encode
  generalize splitUser c.user = user at hname hemail ⊢
  rw [h.committer, seconds_of_presents h, hmessage, h.parents, hname, hemail, h.hash]
  simp only [List.map_append, List.map_cons, List.map_nil, List.length_map]
  have hparents : decode ([32].intercalate c.parents) = join " " (c.parents.map decode) :=
    decode_intercalate (c := ' ') (by decide) c.parents
  rw [hparents]
  rw [decode_encode_of_plain (t := Metadata.sentinel) (by decide)]
  rw [decode_encode_of_plain (Patch.plain_ofInt _), decode_encode_of_plain (plain_ofNat _)]

theorem not_mem_intercalate {bss : List Bytes} (h : ∀ bs ∈ bss, 10 ∉ bs) :
    10 ∉ ([32] : Bytes).intercalate bss := by
  induction bss with
  | nil => nofun
  | cons bs bss ih =>
    rw [List.forall_mem_cons] at h
    cases bss with
    | nil => simpa using h.1
    | cons bs' bss =>
      rw [List.intercalate_cons_cons, List.mem_append, List.mem_append, not_or, not_or]
      exact ⟨⟨h.1, by decide⟩, ih h.2⟩

theorem not_mem_of_mem_record {host : Host} {c : Changeset} (hc : c.WellFormed host) :
    ∀ line ∈ c.record, 10 ∉ line := by
  have hjoin : 10 ∉ ([32] : Bytes).intercalate c.parents :=
    not_mem_intercalate fun parent hparent => not_mem_of_isNode (hc.nodes parent hparent)
  have hname : 10 ∉ (splitUser c.user).1 := fun h => hc.user (mem_of_mem_splitUser (.inl h))
  have hemail : 10 ∉ (splitUser c.user).2 := fun h => hc.user (mem_of_mem_splitUser (.inr h))
  have hmessage : ∀ line ∈ c.message, 10 ∉ line := by
    intro line hline
    unfold Changeset.message at hline
    split at hline
    . contradiction
    . exact not_mem_of_mem_splitOn hline
  unfold Changeset.record
  generalize splitUser c.user = user at hname hemail ⊢
  simp only [List.forall_mem_append, List.forall_mem_cons]
  exact ⟨⟨(Plain.isLine (by decide)).not_mem_encode, not_mem_of_isNode hc.hex, hjoin, hname, hemail,
    hname, hemail, (Patch.plain_ofInt _).isLine.not_mem_encode,
    (plain_ofNat _).isLine.not_mem_encode, nofun⟩, hmessage⟩

theorem written_concat (os : List Output) :
    (Output.concat os).written = os.flatMap (·.written) := by
  induction os with
  | nil => rfl
  | cons o os ih => exact congrArg (o.written ++ ·) ih

/-- The commits that are going to be written. -/
def selected (host : Host) (o : Options) : List Changeset :=
  (o.order (host.revisions o.expression)).filterMap (host.changesets[·]?)

theorem written_log_eq_flatMap (host : Host) (o : Options) :
    (log host o).written =
      (selected host o).flatMap fun c => (writeCommit host o.noDiffs c).written := by
  have hlog : (log host o).written =
      (Output.concat ((selected host o).map (writeCommit host o.noDiffs))).written := rfl
  rw [hlog, written_concat, List.flatMap_map]

theorem linesOf_record_append {host : Host} {c : Changeset} {commit : Commit}
    (hc : c.WellFormed host) (h : Presents host c commit) (rest : Bytes) :
    Handle.linesOf ((Output.lines c.record).written ++ rest) =
      commit.metadata.encode ++ Handle.linesOf rest := by
  have hlines := Handle.linesOf_ended_append (not_mem_of_mem_record hc) rest
  rw [map_decode_record h] at hlines
  exact hlines

theorem decode_marker {d : Diff} {parent : Bytes} (h : d.source.hex = decode parent) :
    decode (encode (Metadata.sentinel ++ "diff ") ++ parent) = Commit.marker d.source := by
  unfold Commit.marker Metadata.sentinel
  rw [encode_append, List.append_assoc]
  rw [decode_encode_ofString_append, decode_encode_ofString_append]
  rw [h, List.append_assoc]

theorem linesOf_parentDiffs_append {host : Host} {c : Changeset} {parents : List Bytes}
    {ds : List Diff} (hnodes : ∀ parent ∈ parents, IsNode parent)
    (hcomplete : ∀ parent ∈ parents, Handle.Complete (host.diff parent (some c.hex)).flatten)
    (h : parents.Forall₂ (PresentsDiff host c) ds) (rest : Bytes) :
    Handle.linesOf
        ((parents.flatMap fun parent => (writeParentDiff host c parent).written) ++ rest) =
      (ds.flatMap fun d => Commit.marker d.source :: shown host d) ++ Handle.linesOf rest := by
  induction h with
  | nil => rfl
  | @cons parent d parents ds hd hds ih =>
    rw [List.forall_mem_cons] at hnodes hcomplete
    have hmarker : 10 ∉ encode (Metadata.sentinel ++ "diff ") ++ parent := by
      rw [List.mem_append, not_or]
      exact ⟨(Plain.isLine (by decide)).not_mem_encode, not_mem_of_isNode hnodes.1⟩
    have hwritten : (writeParentDiff host c parent).written =
        encode (Metadata.sentinel ++ "diff ") ++ parent ++
          10 :: (host.diff parent (some c.hex)).flatten := by
      have : (writeParentDiff host c parent).written =
          [encode (Metadata.sentinel ++ "diff ") ++ parent].flatMap (· ++ [10]) ++
            (host.diff parent (some c.hex)).flatten := rfl
      simpa using this
    rw [List.flatMap_cons, List.flatMap_cons, hwritten]
    simp only [List.append_assoc, List.cons_append]
    rw [← List.append_assoc, Handle.linesOf_append hmarker]
    rw [Handle.linesOf_complete_append hcomplete.1, ih hnodes.2 hcomplete.2]
    rw [decode_marker hd.source, shown_of_presentsDiff hd]
    rfl

theorem linesOf_commit_append {host : Host} {c : Changeset} {commit : Commit}
    (hc : c.WellFormed host) (h : Presents host c commit) (rest : Bytes) :
    Handle.linesOf ((writeCommit host false c).written ++ rest) =
      commit.encodeWith (shown host) ++ Handle.linesOf rest := by
  have hwritten : (writeCommit host false c).written =
      (Output.lines c.record).written ++
        c.parents.flatMap fun parent => (writeParentDiff host c parent).written := by
    rw [← List.flatMap_map, ← written_concat]
    rfl
  rw [hwritten, List.append_assoc, linesOf_record_append hc h]
  rw [linesOf_parentDiffs_append hc.nodes hc.complete h.diffs]
  unfold Commit.encodeWith
  rw [List.append_assoc]

theorem linesOf_metadata_append {host : Host} {c : Changeset} {commit : Commit}
    (hc : c.WellFormed host) (h : Presents host c commit) (rest : Bytes) :
    Handle.linesOf ((writeCommit host true c).written ++ rest) =
      commit.metadata.encode ++ Handle.linesOf rest := by
  have hwritten : (writeCommit host true c).written = (Output.lines c.record).written :=
    List.append_nil _
  rw [hwritten, linesOf_record_append hc h]

theorem linesOf_flatMap {host : Host} {noDiffs : Bool} {lines : Commit → List Text}
    {contexts : List Changeset} {commits : List Commit}
    (hone : ∀ c commit rest, c ∈ contexts → Presents host c commit →
      Handle.linesOf ((writeCommit host noDiffs c).written ++ rest) =
        lines commit ++ Handle.linesOf rest)
    (h : contexts.Forall₂ (Presents host) commits) :
    Handle.linesOf (contexts.flatMap fun c => (writeCommit host noDiffs c).written) =
      commits.flatMap lines := by
  induction h with
  | nil => simp [Handle.linesOf]
  | cons hc _ ih =>
    rw [List.flatMap_cons, List.flatMap_cons, hone _ _ _ List.mem_cons_self hc]
    rw [ih fun c commit rest hmem => hone c commit rest (List.mem_cons_of_mem _ hmem)]

theorem framed_shows_of_presents {host : Host} {contexts : List Changeset} {found : List Commit}
    (hcontexts : ∀ c ∈ contexts, c.WellFormed host) (h : contexts.Forall₂ (Presents host) found) :
    (∀ commit ∈ found, commit.Framed) ∧
      ∀ commit ∈ found, ∀ d ∈ commit.parentDiffs, Commit.Shows (shown host) d := by
  constructor
  . intro commit hcommit
    obtain ⟨c, hc, hpresents⟩ := exists_of_mem_right h hcommit
    exact framed_of_presents (hcontexts c hc) hpresents
  . intro commit hcommit
    obtain ⟨c, hc, hpresents⟩ := exists_of_mem_right h hcommit
    exact shows_of_presents (hcontexts c hc) hpresents

theorem exists_found {host : Host} {contexts : List Changeset}
    (hcontexts : ∀ c ∈ contexts, c.WellFormed host) :
    ∃ found, contexts.Forall₂ (Presents host) found ∧ (∀ commit ∈ found, commit.Framed) ∧
      ∀ commit ∈ found, ∀ d ∈ commit.parentDiffs, Commit.Shows (shown host) d := by
  obtain ⟨found, hfound⟩ := exists_forall₂ fun c hc => exists_presents (hcontexts c hc)
  exact ⟨found, hfound, framed_shows_of_presents hcontexts hfound⟩

theorem linesOf_writeCommits {host : Host} {contexts : List Changeset}
    (hcontexts : ∀ c ∈ contexts, c.WellFormed host) {found : List Commit}
    (h : contexts.Forall₂ (Presents host) found) :
    Handle.linesOf (contexts.flatMap fun c => (writeCommit host false c).written) =
        found.flatMap (Commit.encodeWith (shown host)) ∧
      Handle.linesOf (contexts.flatMap fun c => (writeCommit host true c).written) =
        found.flatMap (·.metadata.encode) := by
  constructor
  . apply linesOf_flatMap ?_ h
    intro c commit rest hc hpresents
    exact linesOf_commit_append (hcontexts c hc) hpresents rest
  . apply linesOf_flatMap ?_ h
    intro c commit rest hc hpresents
    exact linesOf_metadata_append (hcontexts c hc) hpresents rest

end Extension

end Mercurial

end Dvcs
