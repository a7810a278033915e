import Dvcs.Git.History
import Dvcs.Proofs.Commit.Facts
import Dvcs.Proofs.Git.Command
import Mathlib.Data.List.Forall2

/-!
This module contains walks through the history of git: a repository that presents some commits is
walked through without an error, and these are the commits that are seen.
-/

namespace Dvcs

namespace Git

open Commit Text

/-- How git presents a person. What is missing may as well be empty. -/
structure PresentsPerson (p : Person) (a : Author) : Prop where
  name : p.name.getD [] = a.name
  email : p.email.getD [] = a.email.getD []

/-- How git presents a commit. Any number of line feeds may stand at the end of its message. -/
structure Presents (c : RawCommit) (f : Facts) : Prop where
  hash : c.hash = f.hash.hex
  parents : c.parents = f.parents.map Hash.hex
  author : PresentsPerson c.author f.author
  committer : PresentsPerson c.committer f.author
  date : c.date = f.timestamp.seconds
  message : ∃ k, c.message.toText = joinLines f.message ++ List.replicate k (.char '\n')

theorem toAuthor_of_presents {p : Person} {a : Author} (h : PresentsPerson p a)
    (hemail : a.email ≠ some []) : p.toAuthor = a := by
  have hread : p.email.bind Author.email? = a.email := by
    rw [← Metadata.email?_getD hemail, ← h.email]
    cases p.email <;> rfl
  unfold Person.toAuthor
  rw [h.name, hread]

theorem messageLines_joinLines {ls : List Text} (h : ∀ line ∈ ls, IsLine line)
    (hlast : ∀ line ∈ ls.getLast?, line ≠ []) {m : Message} {k : Nat}
    (hm : m.toText = joinLines ls ++ List.replicate k (.char '\n')) : messageLines m = ls := by
  unfold messageLines
  rw [hm, dropEndWhile_append_replicate]
  rcases List.eq_nil_or_concat ls with rfl | ⟨front, last, rfl⟩
  . rfl
  . rw [List.concat_eq_append] at h hlast ⊢
    have hne : last ≠ [] := hlast last (by simp)
    have hline : IsLine last := h last (by simp)
    obtain ⟨start, hjoin⟩ : ∃ start, joinLines (front ++ [last]) = start ++ last :=
      (suffix_join [.char '\n'] front last).imp fun _ => Eq.symm
    have htext : dropEndWhile (· = .char '\n') (joinLines (front ++ [last])) =
        joinLines (front ++ [last]) := by
      rw [hjoin]
      apply dropEndWhile_append_of_ne_nil hne
      intro c hc
      have : c ≠ .char '\n' := fun heq => hline.2 (heq ▸ hc)
      simpa using this
    rw [htext]
    split
    . next hnil =>
      rw [hjoin] at hnil
      exact absurd (List.append_eq_nil_iff.1 hnil).2 hne
    . exact splitOn_joinLines (by simp) h

theorem ofText_hex (h : Hash) : Hash.ofText h.hex = .ok h := by
  unfold Hash.ofText
  rw [Hash.ofText?_hex]

theorem mapM_ofText_hex (hs : List Hash) : (hs.map Hash.hex).mapM Hash.ofText = .ok hs := by
  induction hs with
  | nil => rfl
  | cons h hs ih =>
    rw [List.map_cons, List.mapM_cons, ofText_hex, ih]
    rfl

theorem metadata_of_presents {c : RawCommit} {f : Facts} (hf : f.WellFormed)
    (h : Presents c f) : c.metadata = .ok f.metadata := by
  obtain ⟨k, hmessage⟩ := h.message
  have hemail : f.author.email ≠ some [] := fun heq => (hf.email [] heq).1 rfl
  unfold RawCommit.metadata
  rw [h.hash, h.parents, ofText_hex, mapM_ofText_hex, h.date]
  rw [Instant.ofSeconds_seconds hf.timestamp]
  rw [toAuthor_of_presents h.author hemail, toAuthor_of_presents h.committer hemail]
  rw [messageLines_joinLines hf.lines hf.last hmessage]
  rfl

/-- How git shows patches. -/
def shown (patches : List Patch) : Answer :=
  .output (encode (joinLines (patches.flatMap Patch.render)))

theorem diffLines_joinLines {ls : List Text} (h : ∀ line ∈ ls, IsLine line)
    (hfirst : ∀ line ∈ ls.head?, line ≠ []) : diffLines (encode (joinLines ls)) = ls := by
  unfold diffLines
  cases ls with
  | nil => rfl
  | cons line ls =>
    have hbytes : encode (joinLines (line :: ls)) ≠ [] :=
      fun heq => joinLines_ne_nil (hfirst line rfl) ls (encode_eq_nil heq)
    rw [if_neg hbytes, fromBytes_joinLines h]
    exact splitOn_joinLines (List.cons_ne_nil line ls) h

theorem patchesOf_shown {f : Facts} (hf : f.WellFormed) {patches : List Patch}
    (hpatches : patches ∈ f.changes) :
    patchesOf (diffLines (encode (joinLines (patches.flatMap Patch.render)))) = .ok patches := by
  obtain ⟨reader, hread⟩ := hf.read patches hpatches
  have hfirst : ∀ line ∈ (patches.flatMap Patch.render).head?, line ≠ [] := by
    rintro line hline rfl
    have := Patch.boundary_flatMap_render patches [] hline
    contradiction
  unfold patchesOf
  rw [diffLines_joinLines (Facts.isLine_of_mem_render hf hpatches) hfirst, hread]

section Walk

/-- An open repository and the answers of git to come. -/
structure Ready (r : WorkingCopy) (answers : List Answer) (w : World) : Prop where
  isOpen : w.git.openRoots.contains r.root = true
  answers : w.git.answers = answers

variable {r : WorkingCopy} {c : RawCommit} {f : Facts} {w : World} {more : List Answer}

/-- The two trees that a commit is compared by, for each of its parents. -/
def comparisons (f : Facts) : List (Text × Text) :=
  f.bases.map fun base => (if f.metadata.isInitial then emptyTree else base.hex, f.hash.hex)

/-- The command that compares two trees. -/
def comparing (trees : Text × Text) : List Text := diffArguments ++ [trees.1, trees.2]

theorem check_eq {stdout : Bytes} (h : Ready r (.output stdout :: more) w)
    (arguments : List Text) :
    ∃ w', check r arguments none w = .ok stdout w' ∧ Ready r more w' ∧
      Requests w [arguments] w' := by
  have hexecute := execute_eq (ensureOpen_of_isOpen h.isOpen) arguments none .text
  have hanswer : upcoming w = .output stdout := by rw [upcoming, h.answers, List.headD_cons]
  rw [hanswer] at hexecute
  refine ⟨asked arguments none .text w, ?_, ⟨h.isOpen, congrArg List.tail h.answers⟩,
    requests_asked _ _ _ _⟩
  unfold check
  rw [Op.bind_of_ok hexecute]
  rfl

theorem parentDiff_eq (hf : f.WellFormed) (hc : c.hash = f.hash.hex) {patches : List Patch}
    (hpatches : patches ∈ f.changes) (h : Ready r (shown patches :: more) w) (base : Hash) :
    ∃ w', parentDiff r c f.metadata base w = .ok (f.diff base patches) w' ∧ Ready r more w' ∧
      Requests w
        [comparing (if f.metadata.isInitial then emptyTree else base.hex, f.hash.hex)] w' := by
  obtain ⟨w', hcheck, hready, hrequests⟩ := check_eq h
    (diffArguments ++ [if f.metadata.isInitial then emptyTree else base.hex, f.hash.hex])
  refine ⟨w', ?_, hready, hrequests⟩
  unfold parentDiff
  rw [hc]
  rw [Op.bind_of_ok hcheck, patchesOf_shown hf hpatches]
  rfl

theorem mapM_parentDiff (hf : f.WellFormed) (hc : c.hash = f.hash.hex) {bases : List Hash}
    {changes : List (List Patch)} (hlength : bases.length = changes.length)
    (hchanges : ∀ patches ∈ changes, patches ∈ f.changes)
    (h : Ready r (changes.map shown ++ more) w) :
    ∃ w', bases.mapM (parentDiff r c f.metadata) w = .ok (List.zipWith f.diff bases changes) w' ∧
      Ready r more w' ∧
      Requests w (bases.map fun base =>
        comparing (if f.metadata.isInitial then emptyTree else base.hex, f.hash.hex)) w' := by
  induction bases generalizing changes w with
  | nil =>
    obtain rfl : changes = [] := List.length_eq_zero_iff.1 hlength.symm
    exact ⟨w, rfl, h, rfl⟩
  | cons base bases ih =>
    cases changes with
    | nil => contradiction
    | cons patches changes =>
      rw [List.forall_mem_cons] at hchanges
      obtain ⟨w₁, hfirst, hready₁, hrequests₁⟩ := parentDiff_eq hf hc hchanges.1 h base
      obtain ⟨w₂, hrest, hready₂, hrequests₂⟩ := ih (Nat.succ.inj hlength) hchanges.2 hready₁
      refine ⟨w₂, ?_, hready₂, hrequests₁.trans hrequests₂⟩
      rw [List.mapM_cons, Op.bind_of_ok hfirst, Op.bind_of_ok hrest]
      rfl

theorem commitOf_eq (hf : f.WellFormed) (hc : Presents c f)
    (h : Ready r (f.changes.map shown ++ more) w) :
    ∃ w', commitOf r c w = .ok f.commit w' ∧ Ready r more w' ∧
      Requests w ((comparisons f).map comparing) w' := by
  obtain ⟨w', hdiffs, hready, hrequests⟩ :=
    mapM_parentDiff hf hc.hash hf.changes (fun _ h => h) h
  have hmetadata : Op.ofExcept c.metadata w = .ok f.metadata w := by
    rw [metadata_of_presents hf hc]
    rfl
  refine ⟨w', ?_, hready, ?_⟩
  . unfold commitOf
    rw [Op.bind_of_ok hmetadata]
    have hparents : f.metadata.parents = f.bases := rfl
    rw [hparents, Op.bind_of_ok hdiffs]
    rfl
  . rw [comparisons, List.map_map]
    exact hrequests

/-- A walk from its next commit on, if no consumer closes it. -/
def walkOn (first : EStateM.Result Error World Commit)
    (more : World → EStateM.Result Error World Traversal) : EStateM.Result Error World Traversal :=
  match first with
  | .error e w => .ok { commits := [], error := some e } w
  | .ok commit w =>
    match more w with
    | .error e w => .error e w
    | .ok more w => .ok { more with commits := commit :: more.commits } w

theorem walk_cons (r : WorkingCopy) (q : Query) (c : RawCommit)
    (rest : List (RawCommit ⊕ HistoryStop)) (w : World) :
    walk r q (.inl c :: rest) none w = walkOn (commitOf r c w) (walk r q rest none) := rfl

theorem walk_of_ok {q : Query} {rest : List (RawCommit ⊕ HistoryStop)} {w₁ w₂ : World}
    {commit : Commit} {t : Traversal} (hfirst : commitOf r c w = .ok commit w₁)
    (hrest : walk r q rest none w₁ = .ok t w₂) :
    walk r q (.inl c :: rest) none w = .ok { t with commits := commit :: t.commits } w₂ := by
  rw [walk_cons, hfirst]
  unfold walkOn
  dsimp only
  rw [hrest]

theorem walk_eq {raws : List RawCommit} {fs : List Facts} (hfs : ∀ f ∈ fs, f.WellFormed)
    (hraws : raws.Forall₂ Presents fs)
    (h : Ready r ((fs.flatMap fun f => f.changes.map shown) ++ more) w) (q : Query) :
    ∃ w', walk r q (raws.map .inl) none w = .ok { commits := fs.map Facts.commit } w' ∧
      Requests w ((fs.flatMap comparisons).map comparing) w' := by
  induction hraws generalizing w with
  | nil => exact ⟨w, rfl, rfl⟩
  | cons hc _ ih =>
    rw [List.forall_mem_cons] at hfs
    rw [List.flatMap_cons, List.append_assoc] at h
    obtain ⟨w₁, hfirst, hready, hrequests₁⟩ := commitOf_eq hfs.1 hc h
    obtain ⟨w₂, hrest, hrequests₂⟩ := ih hfs.2 hready
    refine ⟨w₂, ?_, ?_⟩
    . rw [List.map_cons, walk_of_ok hfirst hrest]
      rfl
    . rw [List.flatMap_cons, List.map_append]
      exact hrequests₁.trans hrequests₂

/-- A repository that presents some commits to a query. What it answers to a comparison depends on
the two trees that are compared. -/
structure Tells (r : WorkingCopy) (q : Query) (s : State) (fs : List Facts) : Prop where
  opens : s.openRoots.contains r.root = true ∨ s.opens = true
  nonEmpty : q.isEmpty = false
  references : q.revisions.isSome = true ∨ s.hasReferences = true
  history : ∃ raws : List RawCommit, s.history = raws.map .inl ∧ raws.Forall₂ Presents fs
  answers : ∃ (compare : Text × Text → Answer) (more : List Answer),
    (∀ f ∈ fs, (comparisons f).map compare = f.changes.map shown) ∧
      s.answers = (fs.flatMap comparisons).map compare ++ more

/-- The answers to the comparisons, in the order in which they are made. -/
theorem Tells.answers_eq {q : Query} {s : State} {fs : List Facts} (h : Tells r q s fs) :
    ∃ more, s.answers = (fs.flatMap fun f => f.changes.map shown) ++ more := by
  obtain ⟨compare, more, hcompare, hanswers⟩ := h.answers
  refine ⟨more, ?_⟩
  rw [hanswers, List.map_flatMap]
  congr 1
  exact List.flatMap_congr hcompare

theorem history_eq {q : Query} (hopen : w.git.openRoots.contains r.root = true)
    (hq : q.isEmpty = false)
    (hreferences : q.revisions.isSome = true ∨ w.git.hasReferences = true) :
    ∃ w', history r q w = .ok w.git.history w' ∧ w'.git = w.git ∧ Requests w [] w' := by
  have hasked : (q.isEmpty || (q.revisions.isNone && !w.git.hasReferences)) = false := by
    rcases hreferences with hrevisions | hreferences
    . simp [hq, Option.isNone_eq_false_iff.2 hrevisions]
    . simp [hq, hreferences]
  have hstate : state w = .ok w.git w := rfl
  let asked : World :=
    { w with log := .git (.historyAsked (revisions q) q.limit q.reverse) :: w.log }
  have hrecord : record (.historyAsked (revisions q) q.limit q.reverse) w = .ok () asked := rfl
  refine ⟨asked, ?_, rfl, rfl⟩
  unfold history
  rw [Op.bind_of_ok (ensureOpen_of_isOpen hopen), Op.bind_of_ok hstate]
  rw [hasked, if_neg (by decide), Op.bind_of_ok hrecord]
  rfl

theorem commits_of_tells {q : Query} {fs : List Facts} (hfs : ∀ f ∈ fs, f.WellFormed)
    (h : Tells r q w.git fs) :
    ∃ w', commits r q none w = .ok { commits := fs.map Facts.commit } w' ∧
      Requests w ((fs.flatMap comparisons).map comparing) w' := by
  obtain ⟨w₁, hopen, hisOpen, hgit₁⟩ := ensureOpen_eq h.opens
  have hopened : Requests w [] w₁ := requests_ensureOpen hopen
  obtain ⟨w₂, hasked, hgit, hnone⟩ :=
    history_eq hisOpen h.nonEmpty (by rw [hgit₁]; exact h.references)
  obtain ⟨raws, hhistory, hraws⟩ := h.history
  obtain ⟨more, hanswers⟩ := h.answers_eq
  rw [hgit₁, hhistory] at hasked
  have hready : Ready r ((fs.flatMap fun f => f.changes.map shown) ++ more) w₂ := by
    constructor
    . rw [hgit]
      exact hisOpen
    . rw [hgit, hgit₁, hanswers]
  obtain ⟨w₃, hwalk, hrequests⟩ := walk_eq hfs hraws hready q
  refine ⟨w₃, ?_, (hopened.trans hnone).trans hrequests⟩
  unfold commits
  rw [Op.bind_of_ok hopen, if_neg (by simp), Op.bind_of_ok hasked]
  exact hwalk

end Walk

end Git

end Dvcs
