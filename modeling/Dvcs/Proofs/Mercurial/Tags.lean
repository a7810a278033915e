import Dvcs.Mercurial.Change
import Dvcs.Proofs.Hash
import Dvcs.Proofs.Mercurial.Revset
import Dvcs.Proofs.Patch.Lines
import Dvcs.Proofs.Text.Space

/-!
This module contains what becomes of the names of tags: hg sets a tag under its whole name and lists
it with the revision behind the name, and of such a line the text before the first white space is
read. So a name with white space is cut short, and every other name comes back.
-/

namespace Dvcs

namespace Text

theorem fromBytes_append_blank {s t : Text} (hs : FromBytes s) (ht : FromBytes t) :
    FromBytes (s ++ .char ' ' :: t) := by
  have hblank : encode (s ++ .char ' ' :: t) = encode s ++ 32 :: encode t := by
    rw [encode_append, encode_cons]
    rfl
  have hbehind : encode (.char ' ' :: t) = 32 :: encode t := encode_cons _ _
  unfold FromBytes
  rw [hblank, decode_append_ascii (by decide), hs, ← hbehind, fromBytes_char_cons.2 ht]

end Text

theorem Outcome.stdout_eq {response : Response} {command : List Text}
    (h : (response.outcome command).succeeded = true) :
    (response.outcome command).stdout = Text.outputLines response.stdout := by
  unfold Response.outcome at h ⊢
  cases hstart : response.startError with
  | none => rfl
  | some code =>
    rw [hstart] at h
    cases h

namespace Mercurial

open Text

/-- The names that tags can have. -/
structure IsTagName (name : Text) : Prop where
  ne : name ≠ []
  trimmed : name.trim = name
  allowed : ∀ c ∈ [':', '\x00', '\n', '\r'], Sym.char c ∉ name
  bytes : FromBytes name

/-- A line of the listing: a tag with the revision that it stands for. There is a blank behind the
name, and padding behind that. -/
structure TagLine where
  name : Text
  padding : Nat
  revision : Int
  node : Text
  isLocal : Bool

namespace TagLine

structure WellFormed (l : TagLine) : Prop where
  name : IsTagName l.name
  node : ∀ s ∈ l.node, Hash.isHexDigit s = true

def place (l : TagLine) : Text := ofInt l.revision ++ ":" ++ l.node

def mark (l : TagLine) : Text := if l.isLocal then " local" else ""

/-- What stands behind the name and the first blank. -/
def behind (l : TagLine) : Text := List.replicate l.padding (.char ' ') ++ l.place ++ l.mark

def toText (l : TagLine) : Text := l.name ++ .char ' ' :: l.behind

/-- The tag that is read from the line. -/
def shown (l : TagLine) : Tag := ⟨l.name.takeWhile (!·.isSpace)⟩

variable {l : TagLine}

theorem WellFormed.plain_place (h : l.WellFormed) : Plain l.place := by
  refine plain_append.2 ⟨plain_append.2 ⟨Patch.plain_ofInt l.revision, by decide⟩, ?_⟩
  intro s hs
  refine ⟨Hash.isAscii_of_isHexDigit (h.node s hs), ?_⟩
  rintro rfl
  exact absurd (h.node _ hs) (by decide)

theorem WellFormed.plain_behind (h : l.WellFormed) : Plain l.behind := by
  have hmark : Plain l.mark := by
    unfold mark
    cases l.isLocal <;> decide
  refine plain_append.2 ⟨plain_append.2 ⟨?_, h.plain_place⟩, hmark⟩
  intro s hs
  rw [List.eq_of_mem_replicate hs]
  decide

theorem WellFormed.isLine (h : l.WellFormed) : IsLine l.toText := by
  refine ⟨fromBytes_append_blank h.name.bytes h.plain_behind.fromBytes, ?_⟩
  unfold toText
  rw [List.mem_append, List.mem_cons, not_or, not_or]
  exact ⟨h.name.allowed '\n' (by decide), by decide, h.plain_behind.not_mem_newline⟩

theorem WellFormed.head?_isSpace (h : l.WellFormed) : ∀ s ∈ l.name.head?, s.isSpace = false :=
  (ends_of_trim_eq_self h.name.trimmed).1

theorem WellFormed.shown_ne_nil (h : l.WellFormed) : l.shown.name ≠ [] := by
  obtain ⟨c, rest, hname⟩ := List.exists_cons_of_ne_nil h.name.ne
  have hc := h.head?_isSpace c (by rw [hname]; rfl)
  unfold shown
  rw [hname, List.takeWhile_cons_of_pos (by simp [hc])]
  exact List.cons_ne_nil _ _

theorem isSpace_of_mem_shown {s : Sym} (hs : s ∈ l.shown.name) : s.isSpace = false := by
  simpa using List.mem_takeWhile_imp hs

/-- The white space that ends the word is the first one of the name, or the blank behind it. -/
theorem tagOfLine?_toText (h : l.WellFormed) : tagOfLine? l.toText = some l.shown := by
  have hcut : l.toText =
      l.shown.name ++ (l.name.dropWhile (!·.isSpace) ++ .char ' ' :: l.behind) := by
    unfold toText shown
    rw [← List.append_assoc, List.takeWhile_append_dropWhile]
  have hends : ∀ s ∈ (l.name.dropWhile (!·.isSpace) ++ .char ' ' :: l.behind).head?,
      s.isSpace = true := by
    intro s hs
    cases hrest : l.name.dropWhile (!·.isSpace) with
    | nil =>
      rw [hrest] at hs
      obtain rfl : Sym.char ' ' = s := by simpa using hs
      rfl
    | cons c rest =>
      rw [hrest] at hs
      obtain rfl : c = s := by simpa using hs
      have hc := List.head?_dropWhile_not (!·.isSpace) l.name
      rw [hrest] at hc
      simpa using hc
  unfold tagOfLine?
  rw [hcut, words_append _ h.shown_ne_nil (fun s => isSpace_of_mem_shown) hends]
  rfl

theorem shown_eq_iff : l.shown = ⟨l.name⟩ ↔ ∀ s ∈ l.name, s.isSpace = false := by
  constructor
  . intro heq s hs
    have hname : l.shown.name = l.name := congrArg Tag.name heq
    exact isSpace_of_mem_shown (hname ▸ hs)
  . intro hname
    unfold shown
    rw [List.takeWhile_eq_self_iff.2 fun s hs => by simp [hname s hs]]

theorem mem_map_shown_iff {ls : List TagLine} (hl : l ∈ ls) :
    ⟨l.name⟩ ∈ ls.map shown ↔ ∀ s ∈ l.name, s.isSpace = false := by
  constructor
  . intro hmem s hs
    obtain ⟨other, _, heq⟩ := List.mem_map.1 hmem
    have hname : other.shown.name = l.name := congrArg Tag.name heq
    exact isSpace_of_mem_shown (hname ▸ hs)
  . intro hname
    rw [← shown_eq_iff.2 hname]
    exact List.mem_map_of_mem hl

theorem map_shown_iff {ls : List TagLine} :
    ls.map shown = ls.map (⟨·.name⟩) ↔ ∀ l ∈ ls, ∀ s ∈ l.name, s.isSpace = false := by
  rw [List.map_inj_left]
  exact forall₂_congr fun l _ => shown_eq_iff

end TagLine

/-- A command that has succeeded and printed a listing. -/
structure Lists (s : Step) (ls : List TagLine) : Prop where
  succeeded : s.succeeded = true
  output : s.response.stdout = encode (unlines (ls.map TagLine.toText))

/-- The tags that are read from what a command has printed. -/
def tagsOf (s : Step) : List Tag := s.outcome.stdout.filterMap tagOfLine?

theorem tagsOf_of_lists {s : Step} {ls : List TagLine} (h : Lists s ls)
    (hls : ∀ l ∈ ls, l.WellFormed) : tagsOf s = ls.map TagLine.shown := by
  have hlines : ∀ line ∈ ls.map TagLine.toText, IsLine line :=
    List.forall_mem_map.2 fun l hl => (hls l hl).isLine
  have hstdout : s.outcome.stdout = ls.map TagLine.toText := by
    unfold Step.outcome
    rw [Outcome.stdout_eq h.succeeded, h.output]
    exact outputLines_encode_unlines (fun line hline => (hlines line hline).1)
      fun line hline => (hlines line hline).2
  unfold tagsOf
  rw [hstdout, List.filterMap_map, ← List.filterMap_eq_map]
  exact List.filterMap_congr fun l hl => TagLine.tagOfLine?_toText (hls l hl)

variable {places : Places} {r : WorkingCopy}

/-- One command, of which something is taken if it succeeds. -/
theorem traces_check_pure {α : Type} {args : List Text} (take : Outcome → α) :
    Op.Traces places (check r args >>= fun outcome => pure (take outcome))
      (RunsOnce r args fun s result =>
        result = if s.succeeded then .ok (take s.outcome) else .error (.process s.outcome)) := by
  refine traces_check_bind .refused ?_ ?_
  . intro s hruns hsucceeded
    exact .ran hruns (by rw [hsucceeded]; rfl)
  . intro s hruns hsucceeded
    exact .pure (.ran hruns (by rw [hsucceeded]; rfl))

theorem traces_tags :
    Op.Traces places (tags r) (RunsOnce r ["tags"] fun s result =>
      result = if s.succeeded then .ok (tagsOf s) else .error (.process s.outcome)) :=
  traces_check_pure fun outcome => outcome.stdout.filterMap tagOfLine?

theorem traces_tag {hash : Hash} {name message : Text} {author : Author} :
    Op.Traces places (tag r hash name message author)
      (RunsOnce r ["tag", "--message=" ++ message, "--user=" ++ user author, "--rev=" ++ hash.hex,
        "--", name] fun s result =>
        result = if s.succeeded then .ok ⟨name⟩ else .error (.process s.outcome)) :=
  Op.Traces.discard_bind (traces_check_pure fun _ => (⟨name⟩ : Tag))

theorem not_ran_tags {s : Step} {word : Text} {rest : List Text} (h : Runs r (word :: rest) s)
    (hne : word ≠ "tags") : ¬ s.Ran ["tags"] := by
  intro hran
  have hwords : word :: rest = ["tags"] := h.ran.symm.trans hran
  injection hwords with hword _
  exact hne hword

theorem traces_branches :
    Op.Traces places (branches r) fun steps _ => ∀ s ∈ steps, ¬ s.Ran ["tags"] := by
  have hone {word : Text} {rest : List Text} (hne : word ≠ "tags") :
      Op.Traces places (check r (word :: rest)) fun steps _ => ∀ s ∈ steps, ¬ s.Ran ["tags"] := by
    rw [← bind_pure (check r (word :: rest))]
    refine (traces_check_pure id).mono ?_
    rintro _ _ (⟨hruns, _⟩ | _)
    . exact List.forall_mem_singleton.2 (not_ran_tags hruns hne)
    . exact List.forall_mem_nil _
  refine (hone (by decide)).bind (fun _ _ h => h) fun steps _ hnamed => ?_
  refine (hone (by decide)).bind ?_ fun more _ hbookmarks => ?_
  . intro more _ hbookmarks
    exact List.forall_mem_append.2 ⟨hnamed, hbookmarks⟩
  . refine .pure ?_
    rw [List.append_nil]
    exact List.forall_mem_append.2 ⟨hnamed, hbookmarks⟩

/-- The tags are asked for before a repository is found empty, and any but the one that is always
there speaks against it. -/
structure CountsTags (r : WorkingCopy) (steps : List Step) (result : Except Error Bool) : Prop where
  asked : result = .ok true → ∃ s ∈ steps, Runs r ["tags"] s ∧ s.succeeded = true ∧
    (tagsOf s).length ≤ 1
  counted : ∀ s ∈ steps, s.Ran ["tags"] → s.succeeded = true → 1 < (tagsOf s).length →
    result = .ok false

theorem countsTags_of_not_ran {steps : List Step} {result : Except Error Bool}
    (h : ∀ s ∈ steps, ¬ s.Ran ["tags"]) (hresult : result ≠ .ok true) :
    CountsTags r steps result :=
  ⟨fun htrue => absurd htrue hresult, fun s hs hran => absurd hran (h s hs)⟩

theorem countsTags_of_runs {front behind : List Step} {s : Step} {result : Except Error Bool}
    (hruns : Runs r ["tags"] s) (hfront : ∀ t ∈ front, ¬ t.Ran ["tags"])
    (hbehind : ∀ t ∈ behind, ¬ t.Ran ["tags"]) (hfailed : s.succeeded = false → result ≠ .ok true)
    (hmany : s.succeeded = true → 1 < (tagsOf s).length → result = .ok false) :
    CountsTags r (front ++ s :: behind) result := by
  constructor
  . intro htrue
    have hsucceeded : s.succeeded = true := by
      cases h : s.succeeded with
      | true => rfl
      | false => exact absurd htrue (hfailed h)
    refine ⟨s, by simp, hruns, hsucceeded, Nat.le_of_not_lt fun hlt => ?_⟩
    rw [hmany hsucceeded hlt] at htrue
    cases htrue
  . intro t ht hran hsucceeded hlt
    rcases List.mem_append.1 ht with ht | ht
    . exact absurd hran (hfront t ht)
    . rcases List.mem_cons.1 ht with rfl | ht
      . exact hmany hsucceeded hlt
      . exact absurd hran (hbehind t ht)

theorem traces_isEmpty : Op.Traces places (isEmpty r) (CountsTags r) := by
  refine traces_branches.bind (fun _ _ h => countsTags_of_not_ran h nofun)
    fun front _ hfront => ?_
  split
  . refine .pure ?_
    rw [List.append_nil]
    exact countsTags_of_not_ran hfront nofun
  refine traces_tags.bind ?_ ?_
  . intro _ e h
    cases h with
    | @ran s _ hruns hresult =>
      refine countsTags_of_runs hruns hfront nofun (fun _ => nofun) fun hsucceeded _ => ?_
      rw [hsucceeded] at hresult
      cases hresult
    | refused =>
      rw [List.append_nil]
      exact countsTags_of_not_ran hfront nofun
  . rintro _ found (⟨hruns, hresult⟩ | _)
    rename_i s
    have hfound : s.succeeded = true ∧ found = tagsOf s := by
      cases h : s.succeeded <;> rw [h] at hresult <;> cases hresult
      exact ⟨rfl, rfl⟩
    obtain ⟨hsucceeded, rfl⟩ := hfound
    split
    . exact .pure (countsTags_of_runs hruns hfront nofun (fun _ => nofun) fun _ _ => rfl)
    . next hfew =>
      have hlog {t : Step} (ht : Runs r ["log", "--rev=" ++ committed (.expression "tip"),
          hashTemplate] t) (result : Except Error Bool) :
          CountsTags r (front ++ ([s] ++ [t])) result :=
        countsTags_of_runs hruns hfront
          (List.forall_mem_singleton.2 (not_ran_tags ht (by decide)))
          (fun hfailed => by simp [hsucceeded] at hfailed) fun _ hmany => absurd hmany hfew
      refine (traces_resolve places r (.expression "tip")).bind ?_ ?_
      . rintro _ e (⟨ht, _⟩ | _)
        . exact hlog ht _
        . exact countsTags_of_runs hruns hfront nofun (fun _ => nofun)
            fun _ hmany => absurd hmany hfew
      . rintro _ a (⟨ht, _⟩ | _)
        exact .pure (hlog ht _)

/-- A tag is set under its whole name. Of a listing, every line gives a tag in order, and the tags
are those that have been set exactly if no name holds white space; each of them counts. -/
theorem tags_listing {ls : List TagLine} (hls : ∀ l ∈ ls, l.WellFormed) (r : WorkingCopy)
    (places : Places) (hash : Hash) (name message : Text) (author : Author) :
    Op.Traces places (tags r) (RunsOnce r ["tags"] fun s result =>
      Lists s ls → result = .ok (ls.map TagLine.shown)) ∧
    (ls.map TagLine.shown = ls.map (⟨·.name⟩) ↔ ∀ l ∈ ls, ∀ c ∈ l.name, c.isSpace = false) ∧
    Op.Traces places (tag r hash name message author)
      (RunsOnce r ["tag", "--message=" ++ message, "--user=" ++ user author, "--rev=" ++ hash.hex,
        "--", name] fun s result => s.succeeded = true → result = .ok ⟨name⟩) ∧
    (∀ l ∈ ls, l.name = name →
      (⟨name⟩ ∈ ls.map TagLine.shown ↔ ∀ c ∈ name, c.isSpace = false)) ∧
    Op.Traces places (isEmpty r) (fun steps result =>
      (result = .ok true →
        ∃ s ∈ steps, Runs r ["tags"] s ∧ s.succeeded = true ∧ (Lists s ls → ls.length ≤ 1)) ∧
      ∀ s ∈ steps, s.Ran ["tags"] → Lists s ls → 1 < ls.length → result = .ok false) := by
  have hlength {s : Step} (h : Lists s ls) : (tagsOf s).length = ls.length := by
    rw [tagsOf_of_lists h hls, List.length_map]
  refine ⟨traces_tags.mono ?_, TagLine.map_shown_iff, traces_tag.mono ?_, ?_,
    traces_isEmpty.mono ?_⟩
  . refine fun steps result h => h.mono fun s result _ hresult hlists => ?_
    rw [hresult, hlists.succeeded, tagsOf_of_lists hlists hls]
    rfl
  . refine fun steps result h => h.mono fun s result _ hresult hsucceeded => ?_
    rw [hresult, hsucceeded]
    rfl
  . rintro l hl rfl
    exact TagLine.mem_map_shown_iff hl
  . rintro steps result hcounts
    constructor
    . intro htrue
      obtain ⟨s, hs, hruns, hsucceeded, hfew⟩ := hcounts.asked htrue
      exact ⟨s, hs, hruns, hsucceeded, fun hlists => (hlength hlists).symm.trans_le hfew⟩
    . intro s hs hran hlists hmany
      exact hcounts.counted s hs hran hlists.succeeded (hmany.trans_eq (hlength hlists).symm)

/-- A world whose next command prints a listing. -/
def listingWorld (ls : List TagLine) : World where
  responses := [{ stdout := encode (unlines (ls.map TagLine.toText)) }]

theorem lists_of_passes {ls : List TagLine} {s : Step} {w' : World}
    (h : (listingWorld ls).Passes [s] w') : Lists s ls := by
  have hresponse : s.response = { stdout := encode (unlines (ls.map TagLine.toText)) } :=
    h.answers 0 Nat.one_pos
  refine ⟨?_, by rw [hresponse]⟩
  unfold Step.succeeded Step.outcome
  rw [hresponse]
  rfl

def sampleTags : List TagLine :=
  [⟨"tip", 27, 2, "0123456789ab", false⟩, ⟨"first release", 17, 1, "ba9876543210", false⟩,
    ⟨"1.0", 27, 0, "aaaaaaaaaaaa", true⟩]

theorem isTagName_of_plain {name : Text} (hplain : Plain name) (hne : name ≠ [])
    (htrimmed : name.trim = name)
    (hallowed : [':', '\x00', '\n', '\r'].all (Sym.char · ∉ name) = true) : IsTagName name := by
  refine ⟨hne, htrimmed, fun c hc => ?_, hplain.fromBytes⟩
  exact of_decide_eq_true (List.all_eq_true.1 hallowed c hc)

theorem tags_listing_sampleTags :
    (∀ l ∈ sampleTags, l.WellFormed) ∧
    ((tags ⟨.mercurial, ⟨"/", ["work"]⟩, "hg", none⟩).perform (listingWorld sampleTags)).1 =
      .ok [⟨"tip"⟩, ⟨"first"⟩, ⟨"1.0"⟩] ∧
    ⟨"1.0"⟩ ∈ sampleTags.map TagLine.shown := by
  have hls : ∀ l ∈ sampleTags, l.WellFormed := by
    unfold sampleTags
    simp only [List.forall_mem_cons]
    refine ⟨⟨?_, by decide⟩, ⟨?_, by decide⟩, ⟨?_, by decide⟩, nofun⟩
    all_goals exact isTagName_of_plain (by decide) (by decide) (by decide) (by decide)
  obtain ⟨htags, _, _, hmem, _⟩ := tags_listing hls ⟨.mercurial, ⟨"/", ["work"]⟩, "hg", none⟩
    (listingWorld sampleTags).places .null "1.0" [] ⟨"Ada", none⟩
  refine ⟨hls, ?_, (hmem _ (List.mem_of_getElem? (i := 2) rfl) rfl).2 (by decide)⟩
  obtain ⟨steps, hpasses, honce⟩ := htags _ rfl
  obtain ⟨s, rfl, _, hresult⟩ := honce.exists_step (by decide)
  rw [hresult (lists_of_passes hpasses)]
  rfl

/-- A tag with a blank in its name is listed as its first word. -/
theorem tags_firstRelease :
    IsTagName "first release" ∧
    ((tags ⟨.mercurial, ⟨"/", ["work"]⟩, "hg", none⟩).perform
      (listingWorld [⟨"first release", 17, 0, "aaaaaaaaaaaa", false⟩])).1 = .ok [⟨"first"⟩] := by
  have hname : IsTagName "first release" :=
    isTagName_of_plain (by decide) (by decide) (by decide) (by decide)
  refine ⟨hname, ?_⟩
  let r : WorkingCopy := ⟨.mercurial, ⟨"/", ["work"]⟩, "hg", none⟩
  obtain ⟨steps, hpasses, honce⟩ := traces_tags (r := r) (listingWorld _) rfl
  obtain ⟨s, rfl, _, hresult⟩ := honce.exists_step (by decide)
  have hlists := lists_of_passes hpasses
  rw [hresult, hlists.succeeded, tagsOf_of_lists hlists]
  . rfl
  . exact List.forall_mem_singleton.2 ⟨hname, by decide⟩

end Mercurial

end Dvcs
