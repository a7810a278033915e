import Dvcs.CommandLine
import Dvcs.Proofs.Console.Plain
import Dvcs.Proofs.Patch.CStyle

/-!
This module contains what the command for history prints: one line for each commit, up to the first
one whose line the console refuses. Author and title stand among the tags of the line as they are,
so on a console that reads markup all commits are shown as they are exactly if none of them has a
tag.
-/

namespace Dvcs

namespace CommandLine

open Console Text

section Programs

variable {α β : Type} {p : Program Error Op α} {f : α → Program Error Op β} {w w' : World}

theorem ask_of_ok {op : Op α} {a : α} (h : op w = .ok a w') :
    (ask op : Program Error Op α).run w = .ok (.ok a) w' := by
  have hmap : (Except.ok <$> op : Op (Except (Stop Error) α)) w = .ok (.ok a) w' := by
    simp [Functor.map, EStateM.map, h]
  change EStateM.tryCatch _ _ w = _
  unfold EStateM.tryCatch
  rw [hmap]

theorem run_lift_of_ok {op : Op α} {a : α} (h : op w = .ok a w') :
    (ExceptT.lift op : Program Error Op α).run w = .ok (.ok a) w' := by
  change EStateM.map _ op w = _
  unfold EStateM.map
  rw [h]

theorem run_bind_of_ok {a : α} (h : p.run w = .ok (.ok a) w') :
    (p >>= f).run w = (f a).run w' := by
  change EStateM.bind p.run _ w = _
  unfold EStateM.bind
  rw [h]
  rfl

theorem run_bind_of_error {stop : Stop Error} (h : p.run w = .ok (.error stop) w') :
    (p >>= f).run w = .ok (.error stop) w' := by
  change EStateM.bind p.run _ w = _
  unfold EStateM.bind
  rw [h]
  rfl

end Programs

/-- The world after some bytes have been printed. -/
def printed (w : World) (bytes : Bytes) : World := { w with output := w.output ++ bytes }

@[simp]
theorem printed_nil (w : World) : printed w [] = w := by
  unfold printed
  rw [List.append_nil]

@[simp]
theorem printed_printed (w : World) (bytes more : Bytes) :
    printed (printed w bytes) more = printed w (bytes ++ more) := by
  unfold printed
  rw [List.append_assoc]

section Listing

variable (console : Console)

/-- What comes of texts that are printed one after the other: those in front of the first one that
cannot be printed. -/
def listing : List Text → Bytes
  | [] => []
  | t :: ts =>
    match console.text t with
    | .ok bytes => bytes ++ listing ts
    | .error _ => []

/-- How the printing of texts ends. -/
def listingResult : List Text → Except (Stop Error) Unit
  | [] => .ok ()
  | t :: ts =>
    match console.text t with
    | .ok _ => listingResult ts
    | .error fault => .error (.unprintable fault)

/-- The text can be printed. -/
def IsPrintable (t : Text) : Prop := ∃ bytes, console.text t = .ok bytes

theorem listingResult_cases (ts : List Text) :
    (listingResult console ts = .ok () ∧ ∀ t ∈ ts, IsPrintable console t) ∨
      (∃ fault, listingResult console ts = .error (.unprintable fault)) ∧
        ¬ ∀ t ∈ ts, IsPrintable console t := by
  induction ts with
  | nil => exact .inl ⟨rfl, List.forall_mem_nil _⟩
  | cons t ts ih =>
    rw [List.forall_mem_cons, listingResult]
    cases hprint : console.text t with
    | ok bytes =>
      have ht : IsPrintable console t := ⟨bytes, hprint⟩
      simpa only [ht, true_and] using ih
    | error fault =>
      refine .inr ⟨⟨fault, rfl⟩, ?_⟩
      rintro ⟨⟨bytes, ht⟩, _⟩
      cases hprint.symm.trans ht

variable {console}

theorem listing_map_of_ok {α : Type} {source shown : α → Text} {as : List α}
    (h : ∀ a ∈ as, console.text (source a) = .ok (encode (shown a ++ "\n"))) :
    listing console (as.map source) = encode (unlines (as.map shown)) := by
  induction as with
  | nil => rfl
  | cons a as ih =>
    rw [List.forall_mem_cons] at h
    rw [List.map_cons, listing, h.1, ih h.2]
    exact (encode_append ..).symm

end Listing

variable {host : Host Error Op}

theorem run_forM_say (hwrite : host.write = worldHost.write) (ms : List Metadata) (w : World) :
    (ms.forM fun m => say host (logLine m)).run w =
      .ok (listingResult host.console (ms.map logLine))
        (printed w (listing host.console (ms.map logLine))) := by
  induction ms generalizing w with
  | nil =>
    rw [List.map_nil, listing, printed_nil]
    rfl
  | cons m ms ih =>
    change (say host (logLine m) >>= fun _ => ms.forM fun m => say host (logLine m)).run w = _
    rw [List.map_cons, listingResult, listing]
    cases hprint : host.console.text (logLine m) with
    | ok bytes =>
      have hsay : (say host (logLine m)).run w = .ok (.ok ()) (printed w bytes) := by
        unfold say write
        rw [hprint]
        refine ask_of_ok ?_
        rw [hwrite]
        rfl
      rw [run_bind_of_ok hsay, ih, printed_printed]
    | error fault =>
      have hsay : (say host (logLine m)).run w = .ok (.error (.unprintable fault)) w := by
        unfold say write
        rw [hprint]
        rfl
      rw [run_bind_of_error hsay, printed_nil]

section Status

variable {arguments : List Text} {request : Request} {w w' : World}

theorem run_of_ok (hread : Request.read arguments = .ok request)
    (h : (request.run host).run w = .ok (.ok ()) w') : run host arguments w = .ok 0 w' := by
  unfold run
  rw [hread]
  change EStateM.bind _ _ w = _
  unfold EStateM.bind
  rw [h]
  rfl

theorem run_of_unprintable {fault : Fault} (hread : Request.read arguments = .ok request)
    (h : (request.run host).run w = .ok (.error (.unprintable fault)) w') :
    run host arguments w = .ok 1 w' := by
  unfold run
  rw [hread]
  change EStateM.bind _ _ w = _
  unfold EStateM.bind
  rw [h]
  rfl

end Status

/-- A command line that asks for history, on a host that comes as far as a list of commits. -/
structure LogRun (host : Host Error Op) (arguments : List Text) (w : World) where
  revisions : Option Text
  limit : Option Int
  reverse : Bool
  path : Option Text
  envFile : Option Text
  settings : Settings
  configured : World
  repository : Inspection Op
  opened : World
  commits : List Metadata
  listed : World
  reads : Request.read arguments = .ok (.command (.log revisions limit reverse) path envFile)
  configures : host.settings envFile w = .ok settings configured
  opens : host.repository path settings configured = .ok repository opened
  lists : repository.metadata ⟨revisions, limit, reverse⟩ opened = .ok commits listed
  closes : ∀ w, ∃ w', repository.close w = .ok () w' ∧ w'.output = w.output
  writes : host.write = worldHost.write

/-- Whatever the console, the command ends with the status that says whether all lines could be
printed. -/
theorem LogRun.run_eq {arguments : List Text} {w : World} (l : LogRun host arguments w) :
    ∃ status w', run host arguments w = .ok status w' ∧ status ≤ 1 ∧
      (status = 0 ↔ ∀ t ∈ l.commits.map logLine, IsPrintable host.console t) ∧
      w'.output = l.listed.output ++ listing host.console (l.commits.map logLine) := by
  obtain ⟨w', hclose, houtput⟩ := l.closes
    (printed l.listed (listing host.console (l.commits.map logLine)))
  have hlog : (Command.run host l.repository (.log l.revisions l.limit l.reverse)).run l.opened =
      .ok (listingResult host.console (l.commits.map logLine))
        (printed l.listed (listing host.console (l.commits.map logLine))) := by
    unfold Command.run log
    rw [run_bind_of_ok (ask_of_ok l.lists), run_forM_say l.writes]
  have hrequest : ((Request.command (.log l.revisions l.limit l.reverse) l.path l.envFile).run
      host).run w = .ok (listingResult host.console (l.commits.map logLine)) w' := by
    unfold Request.run runCommand
    rw [run_bind_of_ok (ask_of_ok l.configures), run_bind_of_ok (ask_of_ok l.opens),
      run_bind_of_ok (run_lift_of_ok hlog), run_bind_of_ok (ask_of_ok hclose)]
    rfl
  rcases listingResult_cases host.console (l.commits.map logLine) with
    ⟨hresult, hprint⟩ | ⟨⟨fault, hresult⟩, hprint⟩
  . rw [hresult] at hrequest
    exact ⟨0, w', run_of_ok l.reads hrequest, Nat.zero_le 1, by simpa only [true_iff] using hprint,
      houtput⟩
  . rw [hresult] at hrequest
    exact ⟨1, w', run_of_unprintable l.reads hrequest, Nat.le_refl 1,
      iff_of_false Nat.one_ne_zero hprint, houtput⟩

/-- The entry of a commit in the listing. -/
def entry (m : Metadata) : Text :=
  m.hash.abbreviate ++ "  " ++ m.timestamp.display ++ "  " ++ m.author.toText ++ "  " ++ m.title

section Plain

theorem visible_of_printable {t : Text} (h : t.Printable) : t.Visible := by
  intro s hs
  have hprintable := h s hs
  cases s with
  | byte b => cases hprintable
  | char c =>
    simp only [Sym.isPrintable, Bool.and_eq_true, decide_eq_true_eq] at hprintable
    simp only [Sym.isVisible, if_pos (show c.toNat < 0x80 by omega), Bool.and_eq_true,
      decide_eq_true_eq]
    omega

theorem isBare_ofNat (n : Nat) : IsBare (ofNat n) := by
  refine ⟨visible_of_printable (printable_ofNat n), ?_, ?_, ?_⟩ <;>
  . intro hmem
    obtain ⟨c, hc, hdigit⟩ := isDigit_of_mem_ofNat hmem
    cases hc
    contradiction

theorem isBare_ofInt (i : Int) : IsBare (ofInt i) := by
  cases i with
  | ofNat n => exact isBare_ofNat n
  | negSucc n =>
    have hminus : IsBare [.char '-'] := by decide +kernel
    exact isBare_append.2 ⟨hminus, isBare_ofNat (n + 1)⟩

theorem isBare_ofNatPadded (width n : Nat) : IsBare (ofNatPadded width n) := by
  refine isBare_append.2 ⟨?_, isBare_ofNat n⟩
  refine ⟨fun s hs => ?_, ?_, ?_, ?_⟩
  . rw [List.eq_of_mem_replicate hs]
    decide +kernel
  all_goals
    intro hmem
    cases List.eq_of_mem_replicate hmem

theorem isPlain_abbreviate (h : Hash) : IsPlain h.abbreviate := by
  have hvisible : h.abbreviate.Visible :=
    visible_of_printable fun s hs => h.printable_hex s (List.mem_of_mem_take hs)
  refine IsBare.isPlain ⟨hvisible, ?_, ?_, ?_⟩ <;>
  . intro hmem
    have hdigit := Hash.isHexDigit_of_mem (List.mem_of_mem_take hmem)
    contradiction

/-- What stands between the hash and the author. -/
def middle (i : Instant) : Text := "  " ++ i.display ++ "  "

/-- The middle up to the colon of the time. -/
def middleFront (i : Instant) : Text :=
  "  " ++ ofInt i.day.year ++ "-" ++ ofNatPadded 2 i.day.month ++ "-" ++
    ofNatPadded 2 i.day.day ++ " " ++ ofNatPadded 2 i.hour

theorem isBare_middleFront (i : Instant) : IsBare (middleFront i) := by
  unfold middleFront
  simp only [isBare_append]
  refine ⟨⟨⟨⟨⟨⟨⟨?_, ?_⟩, ?_⟩, ?_⟩, ?_⟩, ?_⟩, ?_⟩, ?_⟩
  all_goals first
    | decide +kernel
    | exact isBare_ofInt _
    | exact isBare_ofNatPadded _ _

theorem isBare_blanks : IsBare "  " := by decide +kernel

/-- Times have one colon. -/
theorem isPlain_middle (i : Instant) : IsPlain (middle i) := by
  have hmiddle : middle i =
      middleFront i ++ .char ':' :: (ofNatPadded 2 i.minute ++ ofString "  ") := by
    simp [middle, middleFront, Instant.display, ofString]
  rw [hmiddle]
  exact (isPlain_colon_cons (isBare_append.2 ⟨isBare_ofNatPadded _ _, isBare_blanks⟩)).bare_append
    (isBare_middleFront i)

end Plain

/-- A commit whose author and title are texts with markup. -/
structure MarkedCommit where
  commit : Metadata
  author : Marked
  title : Marked
  source_author : author.source = commit.author.toText
  source_title : title.source = commit.title
  wellFormed_author : author.WellFormed
  wellFormed_title : title.WellFormed

namespace MarkedCommit

/-- The line that shows the commit, with the tags of its own around the hash and the author. -/
def line (c : MarkedCommit) : Marked where
  front := []
  spans :=
    (.opening "yellow", c.commit.hash.abbreviate) ::
      (.closing "yellow", middle c.commit.timestamp) ::
        (.opening "cyan", c.author.front) :: (c.author.spans ++
          (.closing "cyan", "  " ++ c.title.front) :: c.title.spans)

variable (c : MarkedCommit)

theorem source_line : c.line.source = logLine c.commit := by
  rw [logLine, ← c.source_author, ← c.source_title]
  simp [line, Marked.source, Mark.source, middle, ofString]

theorem shown_line :
    c.line.shown = c.commit.hash.abbreviate ++ middle c.commit.timestamp ++
      (c.author.shown ++ ("  " ++ c.title.shown)) := by
  simp [line, Marked.shown, ofString]

theorem entry_eq :
    entry c.commit = c.commit.hash.abbreviate ++ middle c.commit.timestamp ++
      (c.author.source ++ ("  " ++ c.title.source)) := by
  rw [c.source_author, c.source_title]
  simp [entry, middle, ofString]

theorem wellFormed_line : c.line.WellFormed := by
  have hyellow : IsStyleName "yellow" := ⟨⟨_, _, rfl, rfl⟩, by decide⟩
  have hcyan : IsStyleName "cyan" := ⟨⟨_, _, rfl, rfl⟩, by decide⟩
  refine ⟨isPlain_nil, ?_⟩
  simp only [line, List.forall_mem_cons, List.forall_mem_append]
  exact ⟨⟨hyellow, isPlain_abbreviate _⟩, ⟨hyellow, isPlain_middle _⟩,
    ⟨hcyan, c.wellFormed_author.front⟩, c.wellFormed_author.spans,
    ⟨hcyan, c.wellFormed_title.front.bare_append isBare_blanks⟩, c.wellFormed_title.spans⟩

/-- Neither the author nor the title has a tag. -/
def Untagged : Prop := c.author.spans = [] ∧ c.title.spans = []

variable {c}

/-- The tags of the line itself fit together. -/
theorem Untagged.balanced (h : c.Untagged) (canonical : Text → Text) :
    c.line.Balanced canonical := by
  simp [Marked.Balanced, line, h.1, h.2, Mark.openBehind?]

theorem Untagged.shown_line (h : c.Untagged) : c.line.shown = entry c.commit := by
  rw [c.shown_line, c.entry_eq]
  simp [Marked.shown, Marked.source, h.1, h.2]

variable (c)

theorem length_shown_line_le :
    (encode c.line.shown).length ≤ (encode (entry c.commit)).length := by
  have hauthor := c.author.length_shown_le
  have htitle := c.title.length_shown_le
  rw [c.shown_line, c.entry_eq]
  simp only [encode_append, List.length_append]
  omega

variable {c}

theorem untagged_of_length
    (h : (encode (entry c.commit)).length ≤ (encode c.line.shown).length) : c.Untagged := by
  have hauthor := c.author.length_shown_le
  have htitle := c.title.length_shown_le
  rw [c.shown_line, c.entry_eq] at h
  simp only [encode_append, List.length_append] at h
  exact ⟨c.author.length_shown.resolve_right (by omega),
    c.title.length_shown.resolve_right (by omega)⟩

variable {console : Console} {canonical : Text → Text} {fits : Text → Prop}

theorem text_logLine (h : ReadsMarkup console canonical fits)
    (hbalanced : c.line.Balanced canonical) (hfits : fits c.line.shown) :
    console.text (logLine c.commit) = .ok (encode (c.line.shown ++ "\n")) := by
  rw [← c.source_line]
  exact h.shows c.line c.wellFormed_line hbalanced hfits

theorem isPrintable_iff (h : ReadsMarkup console canonical fits) (hfits : fits c.line.shown) :
    IsPrintable console (logLine c.commit) ↔ c.line.Balanced canonical := by
  refine ⟨fun ⟨bytes, hprint⟩ => ?_, fun hbalanced => ⟨_, text_logLine h hbalanced hfits⟩⟩
  by_contra hloose
  obtain ⟨fault, hrefused⟩ := h.refuses c.line c.wellFormed_line hloose
  rw [c.source_line] at hrefused
  cases hprint.symm.trans hrefused

end MarkedCommit

theorem length_encode_unlines_cons (t : Text) (ts : List Text) :
    (encode (unlines (t :: ts))).length =
      (encode t).length + 1 + (encode (unlines ts)).length := by
  have hcons : unlines (t :: ts) = t ++ "\n" ++ unlines ts := rfl
  rw [hcons, encode_append, encode_append, List.length_append, List.length_append]
  rfl

theorem length_shown_lines_le (cs : List MarkedCommit) :
    (encode (unlines (cs.map fun c => c.line.shown))).length ≤
      (encode (unlines (cs.map fun c => entry c.commit))).length := by
  induction cs with
  | nil => exact Nat.le_refl _
  | cons c cs ih =>
    have hc := c.length_shown_line_le
    simp only [List.map_cons, length_encode_unlines_cons]
    omega

/-- A listing without tags is as long as the commits are only if these have none. -/
theorem untagged_of_length_lines {cs : List MarkedCommit}
    (h : (encode (unlines (cs.map fun c => entry c.commit))).length ≤
      (encode (unlines (cs.map fun c => c.line.shown))).length) : ∀ c ∈ cs, c.Untagged := by
  induction cs with
  | nil => exact List.forall_mem_nil _
  | cons c cs ih =>
    have hc := c.length_shown_line_le
    have hcs := length_shown_lines_le cs
    simp only [List.map_cons, length_encode_unlines_cons] at h
    exact List.forall_mem_cons.2 ⟨MarkedCommit.untagged_of_length (by omega), ih (by omega)⟩

/-- The command for history ends in one of two ways, and prints a line for each commit up to the
first one whose line cannot be printed. On a console that reads markup and is wide enough for the
lines, it succeeds exactly if the tags of every line fit together, shows the commits without their
tags then, and shows all of them as they are exactly if none has a tag. -/
theorem run_log {arguments : List Text} {w : World} (l : LogRun host arguments w) :
    ∃ status w', run host arguments w = .ok status w' ∧ status ≤ 1 ∧
      (status = 0 ↔ ∀ t ∈ l.commits.map logLine, IsPrintable host.console t) ∧
      w'.output = l.listed.output ++ listing host.console (l.commits.map logLine) ∧
      ∀ canonical fits, ReadsMarkup host.console canonical fits →
        ∀ cs : List MarkedCommit, l.commits = cs.map MarkedCommit.commit →
          (∀ c ∈ cs, fits c.line.shown) →
            (status = 0 ↔ ∀ c ∈ cs, c.line.Balanced canonical) ∧
            (status = 0 → w'.output =
              l.listed.output ++ encode (unlines (cs.map fun c => c.line.shown))) ∧
            (status = 0 ∧ w'.output =
                l.listed.output ++ encode (unlines (l.commits.map entry)) ↔
              ∀ c ∈ cs, c.Untagged) := by
  obtain ⟨status, w', hrun, hle, hstatus, houtput⟩ := l.run_eq
  refine ⟨status, w', hrun, hle, hstatus, houtput, ?_⟩
  intro canonical fits hreads cs hcommits hfits
  have hlines : l.commits.map logLine = cs.map fun c => logLine c.commit := by
    rw [hcommits, List.map_map]
    rfl
  have hentries : l.commits.map entry = cs.map fun c => entry c.commit := by
    rw [hcommits, List.map_map]
    rfl
  have hbalanced : status = 0 ↔ ∀ c ∈ cs, c.line.Balanced canonical := by
    rw [hstatus, hlines, List.forall_mem_map]
    exact forall₂_congr fun c hc => MarkedCommit.isPrintable_iff hreads (hfits c hc)
  have hshown (hzero : status = 0) : w'.output =
      l.listed.output ++ encode (unlines (cs.map fun c => c.line.shown)) := by
    have hprinted := listing_map_of_ok fun c hc =>
      MarkedCommit.text_logLine hreads (hbalanced.1 hzero c hc) (hfits c hc)
    rw [houtput, hlines, hprinted]
  refine ⟨hbalanced, hshown, ?_, fun huntagged => ?_⟩
  . rintro ⟨hzero, hverbatim⟩
    rw [hshown hzero, List.append_cancel_left_eq, hentries] at hverbatim
    exact untagged_of_length_lines (le_of_eq (congrArg List.length hverbatim.symm))
  . have hzero : status = 0 := hbalanced.2 fun c hc => (huntagged c hc).balanced canonical
    refine ⟨hzero, ?_⟩
    rw [hshown hzero, hentries, List.map_congr_left fun c hc => (huntagged c hc).shown_line]

/-- Closing a repository prints nothing. -/
theorem exists_close (r : WorkingCopy) (w : World) :
    ∃ w', r.repository.close w = .ok () w' ∧ w'.output = w.output := by
  unfold WorkingCopy.repository
  cases r.backend with
  | mercurial => exact ⟨w, rfl, rfl⟩
  | git =>
    change ∃ w', Git.close r w = .ok () w' ∧ w'.output = w.output
    let closed : Op Unit := do
      Git.record .closed
      Git.modifyState fun s => { s with openRoots := s.openRoots.filter (· ≠ r.root) }
    have hstep : Git.close r w =
        (if w.git.openRoots.contains r.root then closed else pure ()) w := rfl
    rw [hstep]
    split
    . exact ⟨_, rfl, rfl⟩
    . exact ⟨w, rfl, rfl⟩

def sampleCopy : WorkingCopy := ⟨.mercurial, ⟨"/", ["work"]⟩, "hg", none⟩

/-- A host with the console of this library whose repository has certain commits. -/
def offering (width : Nat) (commits : List Metadata) : Host Error Op :=
  { worldHost with
    settings := fun _ => return {}
    repository := fun _ _ =>
      return { sampleCopy.repository.toInspection with metadata := fun _ => return commits }
    console := Console.plain width }

def offeringRun (width : Nat) (commits : List Metadata) :
    LogRun (offering width commits) ["log"] {} where
  revisions := none
  limit := none
  reverse := false
  path := none
  envFile := none
  settings := {}
  configured := {}
  repository := { sampleCopy.repository.toInspection with metadata := fun _ => return commits }
  opened := {}
  commits := commits
  listed := {}
  reads := by decide
  configures := rfl
  opens := rfl
  lists := rfl
  closes := exists_close sampleCopy
  writes := rfl

theorem isDigest_sample : Hash.isDigest (List.replicate 40 (.char 'a')) = true := by decide

theorem inCalendar_epoch : Instant.inCalendar 0 = true := by decide

/-- A commit at the beginning of 1970. -/
def commitBy (author : Author) (title : Text) : Metadata where
  hash := ⟨List.replicate 40 (.char 'a'), isDigest_sample⟩
  parents := [.null]
  author := author
  committer := author
  timestamp := ⟨0, inCalendar_epoch⟩
  message := [title]

/-- A commit without tags. -/
def plainCommit (m : Metadata) (hauthor : IsPlain m.author.toText) (htitle : IsPlain m.title) :
    MarkedCommit where
  commit := m
  author := .ofPlain m.author.toText
  title := .ofPlain m.title
  source_author := List.append_nil _
  source_title := List.append_nil _
  wellFormed_author := ⟨hauthor, List.forall_mem_nil _⟩
  wellFormed_title := ⟨htitle, List.forall_mem_nil _⟩

def sampleCommits : List Metadata :=
  [commitBy ⟨"B. [Jr.]", some "b@example.com"⟩ "Fix x[0] [WIP]",
    commitBy ⟨"Ada", none⟩ "Split C:temp]"]

def sampleEntries : List Text :=
  ["aaaaaaaa  1970-01-01 00:00  B. [Jr.] <b@example.com>  Fix x[0] [WIP]",
    "aaaaaaaa  1970-01-01 00:00  Ada  Split C:temp]"]

/-- Brackets do no harm as long as they make no tag. -/
theorem run_log_sampleCommits :
    ∃ w', run (offering 80 sampleCommits) ["log"] {} = .ok 0 w' ∧
      w'.output = encode (unlines sampleEntries) := by
  have hplain : ∀ m ∈ sampleCommits, IsPlain m.author.toText ∧ IsPlain m.title := by
    decide +kernel
  let cs : List MarkedCommit := sampleCommits.attach.map fun m =>
    plainCommit m.1 (hplain m.1 m.2).1 (hplain m.1 m.2).2
  have hcommits : sampleCommits = cs.map MarkedCommit.commit := by
    rw [List.map_map]
    exact (List.attach_map_subtype_val sampleCommits).symm
  have huntagged : ∀ c ∈ cs, c.Untagged :=
    List.forall_mem_map.2 fun _ _ => ⟨rfl, rfl⟩
  have hlength : ∀ m ∈ sampleCommits, (entry m).length ≤ 80 := by decide +kernel
  have hfits : ∀ c ∈ cs, c.line.shown.length ≤ 80 := by
    intro c hc
    rw [(huntagged c hc).shown_line]
    refine hlength c.commit ?_
    rw [hcommits]
    exact List.mem_map_of_mem hc
  obtain ⟨status, w', hrun, _, _, _, hmarkup⟩ := run_log (offeringRun 80 sampleCommits)
  obtain ⟨_, _, hverbatim⟩ := hmarkup id _ (readsMarkup_plain 80) cs hcommits hfits
  obtain ⟨rfl, houtput⟩ := hverbatim.2 huntagged
  have hentries : sampleCommits.map entry = sampleEntries := by decide +kernel
  refine ⟨w', hrun, ?_⟩
  rw [← hentries]
  exact houtput

theorem isPlain_ada : IsPlain "Ada" := by decide +kernel

theorem isPlain_behindTag : IsPlain " x" := by decide +kernel

theorem isStyleName_fix : IsStyleName "fix" := ⟨⟨_, _, rfl, rfl⟩, by decide⟩

/-- A commit whose title starts with a tag. -/
def taggedCommit (m : Mark) (hstyle : IsStyleName m.style) : MarkedCommit where
  commit := commitBy ⟨"Ada", none⟩ (m.source ++ " x")
  author := .ofPlain "Ada"
  title := ⟨[], [(m, " x")]⟩
  source_author := rfl
  source_title := by simp [Marked.source, Metadata.title, commitBy]
  wellFormed_author := ⟨isPlain_ada, List.forall_mem_nil _⟩
  wellFormed_title := ⟨isPlain_nil, List.forall_mem_singleton.2 ⟨hstyle, isPlain_behindTag⟩⟩

/-- The line without the tag. -/
def strippedLine : Text := "aaaaaaaa  1970-01-01 00:00  Ada   x"

/-- A title is shown without the opening tag that it starts with, and a closing one ends the
listing. -/
theorem run_log_tagged :
    (∃ w', run (offering 80 [commitBy ⟨"Ada", none⟩ "[fix] x"]) ["log"] {} = .ok 0 w' ∧
      w'.output = encode (unlines [strippedLine])) ∧
    strippedLine ≠ entry (commitBy ⟨"Ada", none⟩ "[fix] x") ∧
    ∃ w', run (offering 80 [commitBy ⟨"Ada", none⟩ "[/fix] x"]) ["log"] {} = .ok 1 w' ∧
      w'.output = [] := by
  refine ⟨?_, by decide +kernel, ?_⟩
  . let c := taggedCommit (.opening "fix") isStyleName_fix
    have hshown : c.line.shown = strippedLine := by decide +kernel
    have hfits : c.line.shown.length ≤ 80 := by rw [hshown]; decide
    have htext : (Console.plain 80).text (logLine c.commit) =
        .ok (encode (c.line.shown ++ "\n")) :=
      MarkedCommit.text_logLine (readsMarkup_plain 80) (by decide +kernel) hfits
    obtain ⟨status, w', hrun, _, hstatus, houtput⟩ := (offeringRun 80 [c.commit]).run_eq
    obtain rfl : status = 0 := hstatus.2 (List.forall_mem_singleton.2 ⟨_, htext⟩)
    refine ⟨w', hrun, ?_⟩
    change w'.output = [] ++ listing (Console.plain 80) [logLine c.commit] at houtput
    rw [houtput, listing, htext, hshown]
    rfl
  . let c := taggedCommit (.closing "fix") isStyleName_fix
    have hrefused : ¬ IsPrintable (Console.plain 80) (logLine c.commit) := by
      rw [MarkedCommit.isPrintable_iff (readsMarkup_plain 80) (by decide +kernel)]
      decide +kernel
    obtain ⟨status, w', hrun, hle, hstatus, houtput⟩ := (offeringRun 80 [c.commit]).run_eq
    obtain rfl : status = 1 := by
      have hzero : status ≠ 0 := fun h =>
        hrefused (hstatus.1 h _ (List.mem_singleton_self (logLine c.commit)))
      omega
    refine ⟨w', hrun, ?_⟩
    change w'.output = [] ++ listing (Console.plain 80) [logLine c.commit] at houtput
    rw [houtput, listing]
    cases hprint : (Console.plain 80).text (logLine c.commit) with
    | ok bytes => exact absurd ⟨bytes, hprint⟩ hrefused
    | error fault => rfl

end CommandLine

end Dvcs
