import Dvcs.Proofs.Patch.Agreement
import Dvcs.Proofs.Path.Part
import Dvcs.Proofs.Path.Piece

/-!
This module contains what a reader of conventional diffs makes of the notice that stands for binary
content. The notice is cut at the last place where its separator stands between two names. This is
the place between the right names, unless the separator stands inside of the second name as well.
-/

namespace Dvcs

namespace Patch

open Text

theorem ne_nil_of_cutLast? {sep t a b : Text} (h : cutLast? sep t = some (a, b)) :
    a ≠ [] ∧ b ≠ [] := by
  induction t generalizing a with
  | nil => contradiction
  | cons c t ih =>
    rw [cutLast?] at h
    split at h
    . next hlater =>
      cases h
      exact ⟨List.cons_ne_nil _ _, (ih hlater).2⟩
    . split at h
      . cases h
        exact ⟨List.cons_ne_nil _ _, List.cons_ne_nil _ _⟩
      . contradiction

theorem cutLast?_append_of_eq_some {sep t a b : Text} (h : cutLast? sep t = some (a, b))
    (s : Text) : cutLast? sep (s ++ t) = some (s ++ a, b) := by
  induction s with
  | nil => exact h
  | cons c s ih => rw [List.cons_append, cutLast?, ih, List.cons_append]

theorem cutLast?_append_of_eq_none {sep rest : Text} (h : cutLast? sep (sep ++ rest) = none)
    (hrest : rest ≠ []) {s : Text} (hs : s ≠ []) :
    cutLast? sep (s ++ (sep ++ rest)) = some (s, rest) := by
  induction s with
  | nil => contradiction
  | cons c s ih =>
    rw [List.cons_append, cutLast?]
    cases s with
    | nil =>
      obtain ⟨d, rest, rfl⟩ := List.exists_cons_of_ne_nil hrest
      rw [List.nil_append, h, after?_append]
    | cons d s => rw [ih (List.cons_ne_nil _ _)]

/-- The separator of the notice stands inside of a name, not at its end. -/
def Ambiguous (name : Text) : Prop :=
  ∃ before after : Text, after ≠ [] ∧ name = before ++ " and " ++ after

/-- The separator in front of a name does not overlap with one in it. -/
theorem exists_of_separator_append {name a b : Text} (hname : name.head? ≠ some (.char 'a'))
    (ha : a ≠ []) (h : " and " ++ name = a ++ " and " ++ b) :
    ∃ before : Text, a = " and " ++ before ∧ name = before ++ " and " ++ b := by
  rw [List.append_assoc] at h
  rcases List.append_eq_append_iff.1 h with ⟨before, hbefore, hrest⟩ | ⟨overlap, hsep, hrest⟩
  . exact ⟨before, hbefore, by rw [hrest, List.append_assoc]⟩
  . cases overlap with
    | nil =>
      rw [List.append_nil] at hsep
      exact ⟨[], by rw [hsep, List.append_nil], by simpa using hrest.symm⟩
    | cons c overlap =>
      -- only the last symbol of the separator is its first one again
      have hwords : ofString " and " = .char ' ' :: ofString "and " := by decide
      rw [hwords, List.cons_append, List.cons_append, List.cons.injEq] at hrest
      obtain ⟨rfl, hname'⟩ := hrest
      obtain ⟨d, a, rfl⟩ := List.exists_cons_of_ne_nil ha
      rw [hwords, List.cons_append, List.cons.injEq] at hsep
      obtain rfl : overlap = [] := by
        have hword := hsep.2
        rcases a with _ | ⟨_, _ | ⟨_, _ | ⟨_, _ | ⟨_, _⟩⟩⟩⟩ <;> simp [ofString] at hword
        exact hword.2.2.2
      rw [List.nil_append] at hname'
      rw [← hname'] at hname
      contradiction

/-- The notice is cut between the two names if and only if the second one is not ambiguous. -/
theorem cutLast?_names {old new : Text} (hold : old ≠ []) (hnew : new ≠ [])
    (hhead : new.head? ≠ some (.char 'a')) :
    (¬ Ambiguous new ∧ cutLast? " and " (old ++ " and " ++ new) = some (old, new)) ∨
      ∃ before after : Text, after ≠ [] ∧ new = before ++ " and " ++ after ∧
        cutLast? " and " (old ++ " and " ++ new) = some (old ++ " and " ++ before, after) := by
  rw [List.append_assoc]
  cases hcut : cutLast? " and " (" and " ++ new) with
  | none =>
    refine .inl ⟨?_, cutLast?_append_of_eq_none hcut hnew hold⟩
    rintro ⟨before, after, hafter, rfl⟩
    have hfront : ofString " and " ++ before ≠ [] := by simp [ofString]
    have hsome := isSome_cutLast?_append hfront hafter " and "
    rw [List.append_assoc, List.append_assoc, ← List.append_assoc before, hcut] at hsome
    contradiction
  | some names =>
    obtain ⟨a, after⟩ := names
    obtain ⟨ha, hafter⟩ := ne_nil_of_cutLast? hcut
    obtain ⟨before, rfl, hname⟩ := exists_of_separator_append hhead ha (eq_append_of_cutLast? hcut)
    refine .inr ⟨before, after, hafter, hname, ?_⟩
    rw [cutLast?_append_of_eq_some hcut, List.append_assoc]

theorem head?_contentLabel_ne {path other : Option Path} :
    (contentLabel path (Path.quote ("b/" ++ pathText (path <|> other)))).head? ≠
      some (.char 'a') := by
  unfold contentLabel
  rw [Path.quote_eq]
  split <;> try split
  all_goals simp [devNull, ofString]

theorem tab_not_mem_contentLabel {path : Option Path} {t : Text} :
    .char '\t' ∉ contentLabel path (Path.quote t) := by
  unfold contentLabel
  split
  . exact Path.tab_not_mem_quote t
  . decide

/-- The part of a shown path behind a separator is not the path. -/
theorem ofText_dropStart_ne {q : Path} (hq : q.IsNormal) {before after : Text}
    (h : Path.quote ("b/" ++ q.toText) = before ++ " and " ++ after) :
    Path.ofText (dropStart "b/" after) ≠ q := by
  intro heq
  have hshown := congrArg (·.count (Sym.char ' ')) h
  have hparts : (dropStart "b/" after).count (.char ' ') = q.toText.count (.char ' ') := by
    rw [← Path.sum_count_partsOf, ← Path.sum_count_partsOf]
    have hsame : Path.ofText (dropStart "b/" after) = Path.ofText q.toText := by rw [heq, hq]
    rw [show Path.partsOf (dropStart "b/" after) = Path.partsOf q.toText from
      congrArg Path.parts hsame]
  have hdropped := (dropStart_suffix "b/" after).sublist.count_le (Sym.char ' ')
  have hwords : (ofString " and ").count (.char ' ') = 2 := by decide
  have hdir : (ofString "b/").count (.char ' ') = 0 := by decide
  rw [Path.count_space_quote] at hshown
  simp only [List.count_append, hwords, hdir] at hshown
  omega

variable {p : Patch}

theorem quote_of_contentLabel_eq {path other : Option Path} {dir : String} {before after : Text}
    (h : contentLabel path (Path.quote (dir ++ pathText (path <|> other))) =
      before ++ " and " ++ after) :
    ∃ q ∈ path, Path.quote (dir ++ q.toText) = before ++ " and " ++ after := by
  cases path with
  | none =>
    have hspace : Sym.char ' ' ∈ devNull := by
      have hdev : devNull = before ++ " and " ++ after := h
      rw [hdev]
      simp [ofString]
    exact absurd hspace (by decide)
  | some q => exact ⟨q, rfl, h⟩

/-- What stands in front of the last separator can be read, though it need not be a path. -/
theorem exists_headerPath_front {before after : Text} (hafter : after ≠ [])
    (h : contentLabel p.target.path p.targetLabel = before ++ " and " ++ after) :
    ∃ path, headerPath "a/" (contentLabel p.source.path p.sourceLabel ++ " and " ++ before) =
      .ok path := by
  obtain ⟨q, _, hquote⟩ := quote_of_contentLabel_eq h
  have htab : .char '\t' ∉ contentLabel p.source.path p.sourceLabel ++ " and " ++ before := by
    have hbefore := Path.tab_not_mem_quote ("b/" ++ q.toText)
    rw [hquote, List.mem_append, List.mem_append, not_or, not_or] at hbefore
    rw [List.mem_append, List.mem_append, not_or, not_or]
    exact ⟨⟨tab_not_mem_contentLabel, by decide⟩, hbefore.1.1⟩
  have hpath : ∃ path,
      Path.unquote (contentLabel p.source.path p.sourceLabel ++ " and " ++ before) = .ok path := by
    unfold contentLabel
    split
    . exact Path.exists_unquote_front hafter hquote
    . exact ⟨_, Path.unquote_of_head?_ne (by simp [devNull, ofString])⟩
  obtain ⟨path, hpath⟩ := hpath
  exact ⟨_, headerPath_of_unquote htab hpath⟩

theorem headerPath_behind (hp : p.Readable) {before after : Text} (hafter : after ≠ [])
    (h : contentLabel p.target.path p.targetLabel = before ++ " and " ++ after) :
    ∃ path, headerPath "b/" after = .ok path ∧ path.map Path.ofText ≠ p.target.path := by
  obtain ⟨q, hq, hquote⟩ := quote_of_contentLabel_eq h
  have htab : .char '\t' ∉ after := by
    have hnone := Path.tab_not_mem_quote ("b/" ++ q.toText)
    rw [hquote, List.mem_append, not_or] at hnone
    exact hnone.2
  refine ⟨_, headerPath_of_unquote htab (Path.unquote_behind hafter hquote), ?_⟩
  rw [Option.mem_def.1 hq]
  split
  . nofun
  . intro hsame
    exact ofText_dropStart_ne (hp.targetPath q hq).1 hquote (Option.some.inj hsame)

/-- The line that a patch shows of binary content. -/
def notice (p : Patch) : Text :=
  "Binary files " ++ contentLabel p.source.path p.sourceLabel ++ " and " ++
    contentLabel p.target.path p.targetLabel ++ " differ"

theorem binaryNames?_notice_eq (p : Patch) :
    binaryNames? p.notice =
      cutLast? " and " (contentLabel p.source.path p.sourceLabel ++ " and " ++
        contentLabel p.target.path p.targetLabel) :=
  binaryNames?_notice (plain_contentLabel _ (Path.plain_quote _))
    (plain_contentLabel _ (Path.plain_quote _))

theorem headerPath_names (hp : p.Readable) :
    ∃ source target path path', binaryNames? p.notice = some (source, target) ∧
      headerPath "a/" source = .ok path ∧ headerPath "b/" target = .ok path' ∧
      ((path.map Path.ofText = p.source.path ∧ path'.map Path.ofText = p.target.path) ↔
        ¬ Ambiguous (contentLabel p.target.path p.targetLabel)) := by
  have hold : contentLabel p.source.path p.sourceLabel ≠ [] :=
    contentLabel_ne_nil _ (quote_ne_nil (by simp [ofString]))
  have hnew : contentLabel p.target.path p.targetLabel ≠ [] :=
    contentLabel_ne_nil _ (quote_ne_nil (by simp [ofString]))
  rw [binaryNames?_notice_eq]
  rcases cutLast?_names hold hnew head?_contentLabel_ne with
    ⟨hclear, hcut⟩ | ⟨before, after, hafter, hname, hcut⟩
  . have hsource := headerPath_contentLabel (.inl rfl) hp.sourcePath p.target.path
    have htarget := headerPath_contentLabel (.inr rfl) hp.targetPath p.source.path
    refine ⟨_, _, _, _, hcut, hsource, htarget, ?_⟩
    rw [map_ofText_toText hp.sourcePath, map_ofText_toText hp.targetPath]
    simpa using hclear
  . obtain ⟨path, hsource⟩ := exists_headerPath_front hafter hname
    obtain ⟨path', htarget, hwrong⟩ := headerPath_behind hp hafter hname
    refine ⟨_, _, _, _, hcut, hsource, htarget, ?_⟩
    have hambiguous : Ambiguous (contentLabel p.target.path p.targetLabel) :=
      ⟨before, after, hafter, hname⟩
    simp [hwrong, hambiguous]

/-- A binary patch is read as one binary patch, and it is for the right files if and only if the
name of the target file is not ambiguous. -/
theorem readUnified_notice (hp : p.WellFormed) (hbinary : p.binary = true) :
    ∃ q, readUnified (.ofLines p.render) = .ok [q] ⟨[], p.render.length, true⟩ ∧
      q.binary = true ∧
      ((q.source.path = p.source.path ∧ q.target.path = p.target.path) ↔
        ¬ Ambiguous (contentLabel p.target.path p.targetLabel)) := by
  obtain ⟨source, target, path, path', hnames, hsource, htarget, hright⟩ :=
    headerPath_names hp.readable
  refine ⟨ofPaths path path' [] true, ?_, rfl, hright⟩
  have hcontent : p.contentLines = [p.notice] := by
    rw [contentLines_eq, if_pos hbinary]
    rfl
  have hpaths : headerPaths source target = .ok (path, path') := by
    unfold headerPaths
    rw [hsource, htarget]
  have hline : after? "--- " p.notice = none := rfl
  have hread := readUnifiedFrom_render_append p 0 []
  rw [List.append_nil, List.append_nil, hcontent, readUnifiedFrom, hline] at hread
  simp only [hnames, hpaths, readUnifiedFrom] at hread
  rw [length_render, hcontent, List.length_singleton]
  rw [Nat.zero_add] at hread
  exact hread

/-- A moved picture. Only its old name has the separator in it. -/
def samplePicture : Patch where
  source := { path := some ⟨[], ["x and y"]⟩ }
  target := { path := some ⟨[], ["é", "\"y\" differ"]⟩ }
  status := .renamed
  binary := true

theorem readUnified_notice_samplePicture :
    samplePicture.WellFormed ∧ samplePicture.binary = true ∧
      ∃ q, readUnified (.ofLines samplePicture.render) = .ok [q] ⟨[], 4, true⟩ ∧
        q.binary = true ∧ q.source.path = some ⟨[], ["x and y"]⟩ ∧
        q.target.path = some ⟨[], ["é", "\"y\" differ"]⟩ := by
  have hbytes : FromBytes ("é/" ++ ofString "\"y\" differ") :=
    fromBytes_ofString_append.2 (Plain.fromBytes (by decide))
  have hsample : samplePicture.WellFormed := {
    paths := ⟨rfl, rfl⟩
    types := .inl ⟨rfl, rfl⟩
    hashes := rfl
    score := nofun
    binary := fun _ => rfl
    hunks := nofun
    sourcePath := pathWellFormed_of_plain rfl (by decide)
    targetPath := by
      rintro q ⟨⟩
      exact ⟨rfl, hbytes⟩ }
  have hclear :
      ¬ Ambiguous (contentLabel samplePicture.target.path samplePicture.targetLabel) := by
    rintro ⟨before, after, _, hname⟩
    have hmem :
        Sym.char 'n' ∈ contentLabel samplePicture.target.path samplePicture.targetLabel := by
      rw [hname]
      simp [ofString]
    exact absurd hmem (by decide)
  obtain ⟨q, hread, hbinary, hpaths⟩ := readUnified_notice hsample rfl
  obtain ⟨hsource, htarget⟩ := hpaths.2 hclear
  exact ⟨hsample, rfl, q, hread, hbinary, hsource, htarget⟩

/-- A changed picture with the separator in its name. -/
def samplePair : Patch where
  source := { path := some ⟨[], ["x and y"]⟩ }
  target := { path := some ⟨[], ["x and y"]⟩ }
  status := .modified
  binary := true

theorem readUnified_samplePair :
    samplePair.WellFormed ∧ samplePair.binary = true ∧
      ∃ q, readUnified (.ofLines samplePair.render) = .ok [q] ⟨[], 2, true⟩ ∧
        q.source.path = some ⟨[], ["x and y and b", "x"]⟩ ∧
        q.target.path = some ⟨[], ["y"]⟩ := by
  have hsample : samplePair.WellFormed := {
    paths := ⟨rfl, rfl⟩
    types := .inl ⟨rfl, rfl⟩
    hashes := rfl
    score := nofun
    binary := fun _ => rfl
    hunks := nofun
    sourcePath := pathWellFormed_of_plain rfl (by decide)
    targetPath := pathWellFormed_of_plain rfl (by decide) }
  have hread : readUnifiedFrom 0
      ["diff --git a/x and y b/x and y", "Binary files a/x and y and b/x and y differ"] =
        .ok [ofPaths (some "x and y and b/x") (some "y") [] true] ⟨[], 2, true⟩ := by
    have hskipped : Skipped "diff --git a/x and y b/x and y" := ⟨rfl, rfl, rfl, rfl⟩
    rw [readUnifiedFrom_skipped hskipped]
    rw [readUnifiedFrom, readUnifiedFrom]
    rfl
  exact ⟨hsample, rfl, _, hread, rfl, rfl⟩

end Patch

end Dvcs
