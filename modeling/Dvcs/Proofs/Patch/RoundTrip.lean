import Dvcs.Proofs.Patch.Lines

/-!
This module contains the reading of written patches. Each group of header lines leads from one
header to the next one; together they lead to a header that describes the patch.
-/

namespace Dvcs

namespace Patch

open Text

/-- Paths that come back from their text. -/
def PathWellFormed (path : Option Path) : Prop :=
  ∀ q ∈ path, q.IsNormal ∧ FromBytes q.toText

/-- Which of the two paths there are. -/
def PathsFit (p : Patch) : Prop :=
  match p.status with
  | .added => p.source.path = none ∧ p.target.path.isSome
  | .deleted => p.source.path.isSome ∧ p.target.path = none
  | .modified => p.source.path.isSome ∧ p.target.path = p.source.path
  | _ => p.source.path.isSome ∧ p.target.path.isSome

/-- Which of the two types there are. A type that both sides share is told by the index line. -/
def TypesFit (p : Patch) : Prop :=
  match p.status with
  | .added => p.source.type = none ∧ p.target.type.isSome
  | .deleted => p.source.type.isSome ∧ p.target.type = none
  | _ =>
    p.source.type = none ∧ p.target.type = none ∨
      p.source.type.isSome ∧ p.target.type.isSome ∧
        (p.source.type ≠ p.target.type ∨ p.source.hash.isSome)

/-- Only a rename or copy has a score. -/
def ScoreFits (p : Patch) : Prop :=
  ∀ score ∈ p.score, (p.status = .renamed ∨ p.status = .copied) ∧ 0 ≤ score ∧
    (ofNat score.natAbs).length ≤ digitLimit

/-- Patches that come back from their lines. -/
structure WellFormed (p : Patch) : Prop where
  paths : p.PathsFit
  types : p.TypesFit
  hashes : p.source.hash.isSome = p.target.hash.isSome
  score : p.ScoreFits
  binary : p.binary = true → p.hunks = []
  hunks : ∀ h ∈ p.hunks, h.WellFormed
  sourcePath : PathWellFormed p.source.path
  targetPath : PathWellFormed p.target.path

/-- Patches that come back from their lines, whatever the lines of their hunks hold. -/
structure Readable (p : Patch) : Prop where
  paths : p.PathsFit
  types : p.TypesFit
  hashes : p.source.hash.isSome = p.target.hash.isSome
  score : p.ScoreFits
  binary : p.binary = true → p.hunks = []
  hunks : ∀ h ∈ p.hunks, h.Readable
  sourcePath : PathWellFormed p.source.path
  targetPath : PathWellFormed p.target.path

theorem WellFormed.readable {p : Patch} (hp : p.WellFormed) : p.Readable where
  paths := hp.paths
  types := hp.types
  hashes := hp.hashes
  score := hp.score
  binary := hp.binary
  hunks h hh := (hp.hunks h hh).readable
  sourcePath := hp.sourcePath
  targetPath := hp.targetPath

/-- The lines `ls` take the reading of a patch from one header to another. -/
def Header.Leads (h : Header) (ls : List Text) (h' : Header) : Prop :=
  ∀ n rest, readHeader toEnd h n (ls ++ rest) = readHeader toEnd h' (n + ls.length) rest

namespace Header

theorem Leads.nil (h : Header) : h.Leads [] h := by
  intro n rest
  rfl

theorem Leads.append {h h' h'' : Header} {ls ls' : List Text} (hfirst : h.Leads ls h')
    (hsecond : h'.Leads ls' h'') : h.Leads (ls ++ ls') h'' := by
  intro n rest
  rw [List.append_assoc, hfirst, hsecond]
  rw [List.length_append, Nat.add_assoc]

theorem Leads.line {h h' : Header} {line : Text} (hline : line.startsWith patchHeader = false)
    (hstep : ∀ n, h.step n line = .ok (.header h')) : h.Leads [line] h' := by
  intro n rest
  simp [readHeader, endsPatch, toEnd, hline, hstep]

/-- The header after the lines about modes. -/
def withModes (h : Header) (p : Patch) : Header :=
  match p.status with
  | .added => { h with status := .added, targetType := p.target.type }
  | .deleted => { h with status := .deleted, sourceType := p.source.type }
  | _ =>
    if p.source.type = p.target.type then h
    else { h with sourceType := p.source.type, targetType := p.target.type }

theorem leads_modeLines (h : Header) {p : Patch} (hp : p.TypesFit) :
    h.Leads p.modeLines (h.withModes p) := by
  obtain ⟨⟨_, stype, shash⟩, ⟨_, ttype, _⟩, status, _, _, _⟩ := p
  cases status with
  | added =>
    obtain ⟨type, rfl⟩ := Option.isSome_iff_exists.1 hp.2
    exact .line rfl fun n => step_newFileMode h n type
  | deleted =>
    obtain ⟨type, rfl⟩ := Option.isSome_iff_exists.1 hp.1
    exact .line rfl fun n => step_deletedFileMode h n type
  | modified | renamed | copied =>
    rcases hp with ⟨rfl, rfl⟩ | ⟨hs, ht, _⟩
    . exact .nil h
    . obtain ⟨s, rfl⟩ := Option.isSome_iff_exists.1 hs
      obtain ⟨t, rfl⟩ := Option.isSome_iff_exists.1 ht
      by_cases heq : s = t
      . simp only [modeLines, withModes, heq, ↓reduceIte]
        exact .nil h
      . simp only [modeLines, withModes, heq, Option.some.injEq, ↓reduceIte]
        exact (Leads.line rfl fun n => step_oldMode h n s).append
          (.line rfl fun n => step_newMode _ n t)

/-- The header after the lines about a move. -/
def withMove (h : Header) (p : Patch) : Header :=
  match p.status with
  | .renamed | .copied =>
    { h with
      status := p.status
      sourcePath := pathText p.source.path
      targetPath := pathText p.target.path
      score := p.score.map Int.natAbs }
  | _ => h

theorem leads_score (h : Header) {p : Patch} (hp : p.ScoreFits) (hnone : h.score = none) :
    h.Leads (p.score.toList.map fun score => "similarity index " ++ Text.ofInt score ++ "%")
      { h with score := p.score.map Int.natAbs } := by
  cases hscore : p.score with
  | none =>
    rw [Option.map_none, ← hnone]
    exact .nil h
  | some score =>
    obtain ⟨_, hnonneg, hlength⟩ := hp score hscore
    obtain ⟨k, rfl⟩ := Int.eq_ofNat_of_zero_le hnonneg
    exact .line rfl fun n => step_score h n hlength

theorem leads_similarityLines (h : Header) {p : Patch} (hp : p.ScoreFits) (hnone : h.score = none)
    (hsource : FromBytes (pathText p.source.path)) (htarget : FromBytes (pathText p.target.path)) :
    h.Leads p.similarityLines (h.withMove p) := by
  have hscore := leads_score h hp hnone
  unfold similarityLines withMove
  cases p.status with
  | added | deleted | modified => exact .nil h
  | renamed =>
    exact hscore.append ((Leads.line rfl fun n => step_renameFrom _ n hsource).append
      (.line rfl fun n => step_renameTo _ n htarget))
  | copied =>
    exact hscore.append ((Leads.line rfl fun n => step_copyFrom _ n hsource).append
      (.line rfl fun n => step_copyTo _ n htarget))

/-- The header after the index line. -/
def withIndex (h : Header) (p : Patch) : Header :=
  match p.source.hash, p.target.hash with
  | some s, some t =>
    { h with sourceHash := some s, targetHash := some t, indexType := p.sharedType <|> h.indexType }
  | _, _ => h

theorem leads_indexLines (h : Header) (p : Patch) : h.Leads p.indexLines (h.withIndex p) := by
  unfold withIndex
  split
  . next s t hs ht =>
    rw [indexLines_of_hashes hs ht]
    exact .line rfl fun n => step_indexLine h n s t p.sharedType
  . next hnone =>
    unfold indexLines
    split
    . next s t hs ht => exact absurd ht (hnone s t hs)
    . exact .nil h

theorem ofText_pathText {path : Option Path} (hsome : path.isSome) (h : PathWellFormed path) :
    some (Path.ofText (pathText path)) = path := by
  obtain ⟨q, rfl⟩ := Option.isSome_iff_exists.1 hsome
  exact congrArg some (h q rfl).1

theorem map_natAbs_score {p : Patch} (hp : p.ScoreFits) :
    (p.score.map Int.natAbs).map Int.ofNat = p.score := by
  cases hscore : p.score with
  | none => rfl
  | some score => simpa using Int.natAbs_of_nonneg (hp score hscore).2.1

theorem score_of_kept {p : Patch} (hp : p.ScoreFits) (hr : p.status ≠ .renamed)
    (hc : p.status ≠ .copied) : p.score = none := by
  cases hscore : p.score with
  | none => rfl
  | some score =>
    have := (hp score hscore).1
    simp_all

/-- The header after all lines of a patch; the patch header shows the paths `s` and `t`. -/
def ofPatch (p : Patch) (s t : Text) : Header :=
  (withModes { sourcePath := s, targetPath := t } p).withMove p |>.withIndex p

theorem score_withModes (h : Header) (p : Patch) : (h.withModes p).score = h.score := by
  unfold withModes
  split
  . rfl
  . rfl
  . split <;> rfl

theorem hashes_withModes (h : Header) (p : Patch) :
    (h.withModes p).sourceHash = h.sourceHash ∧ (h.withModes p).targetHash = h.targetHash := by
  unfold withModes
  split
  . exact ⟨rfl, rfl⟩
  . exact ⟨rfl, rfl⟩
  . split <;> exact ⟨rfl, rfl⟩

theorem hashes_withMove (h : Header) (p : Patch) :
    (h.withMove p).sourceHash = h.sourceHash ∧ (h.withMove p).targetHash = h.targetHash := by
  unfold withMove
  split <;> exact ⟨rfl, rfl⟩

theorem score_withIndex (h : Header) (p : Patch) : (h.withIndex p).score = h.score := by
  unfold withIndex
  split <;> rfl

theorem status_ofPatch (p : Patch) (s t : Text) : (ofPatch p s t).status = p.status := by
  obtain ⟨⟨_, stype, shash⟩, ⟨_, ttype, thash⟩, status, _, _, _⟩ := p
  cases status with
  | added | deleted | renamed | copied => cases shash <;> cases thash <;> rfl
  | modified => by_cases h : stype = ttype <;> cases shash <;> cases thash <;>
      simp [ofPatch, withIndex, withMove, withModes, h]

theorem score_ofPatch {p : Patch} (hp : p.ScoreFits) (s t : Text) :
    (ofPatch p s t).score.map Int.ofNat = p.score := by
  unfold ofPatch
  rw [score_withIndex]
  unfold withMove
  split
  . exact map_natAbs_score hp
  . exact map_natAbs_score hp
  . next hr hc =>
    rw [score_withModes, score_of_kept hp hr hc]
    rfl

theorem hashes_ofPatch {p : Patch} (hp : p.source.hash.isSome = p.target.hash.isSome) (s t : Text) :
    (ofPatch p s t).sourceHash = p.source.hash ∧ (ofPatch p s t).targetHash = p.target.hash := by
  unfold ofPatch withIndex
  split
  . next hs ht => exact ⟨hs.symm, ht.symm⟩
  . next hnone =>
    have hmodes := hashes_withModes { sourcePath := s, targetPath := t } p
    have hmove := hashes_withMove (withModes { sourcePath := s, targetPath := t } p) p
    rw [hmove.1, hmove.2, hmodes.1, hmodes.2]
    cases hs : p.source.hash with
    | none =>
      rw [hs, Option.isSome_none, eq_comm, Option.isSome_eq_false_iff] at hp
      rw [Option.isNone_iff_eq_none] at hp
      exact ⟨rfl, hp.symm⟩
    | some shash =>
      rw [hs, Option.isSome_some, eq_comm, Option.isSome_iff_exists] at hp
      obtain ⟨thash, ht⟩ := hp
      exact absurd ht (hnone shash thash hs)

theorem types_ofPatch {p : Patch} (hp : p.TypesFit)
    (hhashes : p.source.hash.isSome = p.target.hash.isSome) (s t : Text) (hunks : List Hunk)
    (binary : Bool) :
    ((ofPatch p s t).toPatch hunks binary).source.type = p.source.type ∧
      ((ofPatch p s t).toPatch hunks binary).target.type = p.target.type := by
  obtain ⟨⟨_, stype, shash⟩, ⟨_, ttype, thash⟩, status, _, _, _⟩ := p
  cases status with
  | added =>
    obtain ⟨rfl, _⟩ := hp
    cases shash <;> cases thash <;> exact ⟨rfl, rfl⟩
  | deleted =>
    obtain ⟨_, rfl⟩ := hp
    cases shash <;> cases thash <;> exact ⟨rfl, rfl⟩
  | modified | renamed | copied =>
    rcases hp with ⟨rfl, rfl⟩ | ⟨hs, ht, htold⟩
    . cases shash <;> cases thash <;> exact ⟨rfl, rfl⟩
    . obtain ⟨stype, rfl⟩ := Option.isSome_iff_exists.1 hs
      obtain ⟨ttype, rfl⟩ := Option.isSome_iff_exists.1 ht
      by_cases heq : stype = ttype
      . -- nothing but the index line tells a type that both sides share
        subst heq
        have hshash : shash.isSome = true := by simpa using htold
        obtain ⟨shash, rfl⟩ := Option.isSome_iff_exists.1 hshash
        obtain ⟨thash, rfl⟩ := Option.isSome_iff_exists.1 hhashes.symm
        simp [ofPatch, withIndex, withMove, withModes, toPatch, sharedType]
      . cases shash <;> cases thash <;>
          simp [ofPatch, withIndex, withMove, withModes, toPatch, heq]

theorem pathTexts_ofPatch (p : Patch) (s t : Text) :
    (p.status = .renamed ∨ p.status = .copied →
      (ofPatch p s t).sourcePath = pathText p.source.path ∧
        (ofPatch p s t).targetPath = pathText p.target.path) ∧
    (p.status ≠ .renamed → p.status ≠ .copied →
      (ofPatch p s t).sourcePath = s ∧ (ofPatch p s t).targetPath = t) := by
  -- only the lines about a move replace the texts of the patch header
  obtain ⟨⟨_, stype, shash⟩, ⟨_, ttype, thash⟩, status, _, _, _⟩ := p
  cases status with
  | added | deleted =>
    refine ⟨by simp, fun _ _ => ?_⟩
    cases shash <;> cases thash <;> exact ⟨rfl, rfl⟩
  | modified =>
    refine ⟨by simp, fun _ _ => ?_⟩
    by_cases h : stype = ttype <;> cases shash <;> cases thash <;>
      simp [ofPatch, withIndex, withMove, withModes, h]
  | renamed | copied =>
    refine ⟨fun _ => ?_, by simp⟩
    cases shash <;> cases thash <;> exact ⟨rfl, rfl⟩

theorem paths_ofPatch {p : Patch} (hp : p.Readable) {s t : Text}
    (hs : p.status ≠ .renamed → p.status ≠ .copied → s = pathText p.path ∧ t = pathText p.path)
    (hunks : List Hunk) (binary : Bool) :
    ((ofPatch p s t).toPatch hunks binary).source.path = p.source.path ∧
      ((ofPatch p s t).toPatch hunks binary).target.path = p.target.path := by
  obtain ⟨hmoved, hkept⟩ := pathTexts_ofPatch p s t
  have hpaths := hp.paths
  unfold PathsFit at hpaths
  unfold toPatch
  dsimp only
  rw [status_ofPatch]
  cases hstatus : p.status <;> rw [hstatus] at hpaths hs hmoved hkept
  case added =>
    have hpath : p.path = p.target.path := by
      rw [path, hpaths.1]
      cases p.target.path <;> rfl
    rw [(hkept nofun nofun).2, (hs nofun nofun).2, hpath]
    exact ⟨hpaths.1.symm, ofText_pathText hpaths.2 hp.targetPath⟩
  case deleted =>
    have hpath : p.path = p.source.path := by
      rw [path, hpaths.2]
      rfl
    rw [(hkept nofun nofun).1, (hs nofun nofun).1, hpath]
    exact ⟨ofText_pathText hpaths.1 hp.sourcePath, hpaths.2.symm⟩
  case modified =>
    have hpath : p.path = p.source.path := by
      rw [path, hpaths.2]
      cases p.source.path <;> rfl
    rw [(hkept nofun nofun).1, (hkept nofun nofun).2, (hs nofun nofun).1, (hs nofun nofun).2]
    rw [hpath, hpaths.2]
    have htext := ofText_pathText hpaths.1 hp.sourcePath
    exact ⟨htext, htext⟩
  case renamed | copied =>
    rw [(hmoved (by simp)).1, (hmoved (by simp)).2]
    exact ⟨ofText_pathText hpaths.1 hp.sourcePath, ofText_pathText hpaths.2 hp.targetPath⟩

theorem toPatch_ofPatch {p : Patch} (hp : p.Readable) {s t : Text}
    (hs : p.status ≠ .renamed → p.status ≠ .copied → s = pathText p.path ∧ t = pathText p.path) :
    (ofPatch p s t).toPatch p.hunks p.binary = p := by
  have hpaths := paths_ofPatch hp hs p.hunks p.binary
  have htypes := types_ofPatch hp.types hp.hashes s t p.hunks p.binary
  have hhashes := hashes_ofPatch hp.hashes s t
  generalize hq : (ofPatch p s t).toPatch p.hunks p.binary = q at *
  calc q
    _ = ⟨⟨q.source.path, q.source.type, (ofPatch p s t).sourceHash⟩,
          ⟨q.target.path, q.target.type, (ofPatch p s t).targetHash⟩, (ofPatch p s t).status,
          (ofPatch p s t).score.map Int.ofNat, p.hunks, p.binary⟩ := by
      rw [← hq]
      rfl
    _ = p := by
      rw [hpaths.1, hpaths.2, htypes.1, htypes.2, hhashes.1, hhashes.2]
      rw [status_ofPatch, score_ofPatch hp.score]

theorem fromBytes_pathText {path : Option Path} (h : PathWellFormed path) :
    FromBytes (pathText path) := by
  cases path with
  | none => exact Plain.fromBytes (by decide)
  | some q => exact (h q rfl).2

theorem leads_ofPatch {p : Patch} (hp : p.Readable) (s t : Text) :
    Leads { sourcePath := s, targetPath := t } (p.modeLines ++ p.similarityLines ++ p.indexLines)
      (ofPatch p s t) := by
  have hmodes := leads_modeLines { sourcePath := s, targetPath := t } hp.types
  have hmove := leads_similarityLines (withModes { sourcePath := s, targetPath := t } p) hp.score
    (score_withModes _ p) (fromBytes_pathText hp.sourcePath) (fromBytes_pathText hp.targetPath)
  exact (hmodes.append hmove).append (leads_indexLines _ p)

end Header

/-- The input ends, or the next patch begins. -/
def Boundary (rest : List Text) : Prop := ∀ line ∈ rest.head?, line.startsWith patchHeader = true

theorem Boundary.ends {rest : List Text} (h : Boundary rest) : Hunk.Ends rest := by
  have hhead {line : Text} (hline : line ∈ rest.head?) : ∃ t, line = patchHeader ++ t := by
    obtain ⟨t, ht⟩ := Option.isSome_iff_exists.1 (h line hline)
    exact ⟨t, eq_append_of_after? ht⟩
  constructor
  . intro line hline
    obtain ⟨t, rfl⟩ := hhead hline
    simp [patchHeader, ofString]
  . intro line hline
    obtain ⟨t, rfl⟩ := hhead hline
    rfl

theorem readHeader_of_boundary (h : Header) {rest : List Text} (hrest : Boundary rest) (n : Nat) :
    readHeader toEnd h n rest = .ok (h.toPatch [] false) ⟨rest, n, true⟩ := by
  cases rest with
  | nil => rfl
  | cons line rest => simp [readHeader, endsPatch, hrest line rfl]

theorem quote_ne_nil {t : Text} (h : t ≠ []) : Path.quote t ≠ [] := by
  rw [Path.quote_eq]
  split
  . simp
  . exact h

theorem contentLabel_ne_nil (path : Option Path) {label : Text} (h : label ≠ []) :
    contentLabel path label ≠ [] := by
  unfold contentLabel
  split
  . exact h
  . decide

theorem step_notice (h : Header) (n : Nat) (p : Patch) :
    h.step n ("Binary files " ++ contentLabel p.source.path p.sourceLabel ++ " and " ++
      contentLabel p.target.path p.targetLabel ++ " differ") = .ok .binaryNotice :=
  h.step_binaryNotice n (plain_contentLabel _ (Path.plain_quote _))
    (plain_contentLabel _ (Path.plain_quote _))
    (contentLabel_ne_nil _ (quote_ne_nil (by simp [ofString])))
    (contentLabel_ne_nil _ (quote_ne_nil (by simp [ofString])))

theorem readHeader_contentLines (h : Header) {p : Patch} (hp : p.Readable) {rest : List Text}
    (hrest : Boundary rest) (n : Nat) :
    ∃ looked, readHeader toEnd h n (p.contentLines ++ rest) =
      .ok (h.toPatch p.hunks p.binary) ⟨rest, n + p.contentLines.length, looked⟩ := by
  rw [contentLines_eq]
  split
  . next hbinary =>
    have hstep := step_notice h (n + 1) p
    have hline : endsPatch toEnd ("Binary files " ++ contentLabel p.source.path p.sourceLabel ++
      " and " ++ contentLabel p.target.path p.targetLabel ++ " differ") = false := rfl
    refine ⟨false, ?_⟩
    rw [hp.binary hbinary, hbinary, List.singleton_append, readHeader, hline, hstep]
    rfl
  . next hbinary =>
    rw [Bool.not_eq_true] at hbinary
    split
    . next hhunks =>
      refine ⟨true, ?_⟩
      rw [hhunks, hbinary]
      exact readHeader_of_boundary h hrest n
    . have hold : Plain (contentLabel p.source.path p.sourceLabel) :=
        plain_contentLabel _ (Path.plain_quote _)
      have hstep := h.step_fileHeader (n + 1) hold
      have hline : endsPatch toEnd ("--- " ++ contentLabel p.source.path p.sourceLabel) = false :=
        rfl
      have hread := Hunk.readBlocks_render hp.hunks hrest.ends (n + 2) false
      have htarget :
          startsWith ("+++ " ++ contentLabel p.target.path p.targetLabel) "+++ " = true := by
        simp [startsWith]
      refine ⟨true, ?_⟩
      rw [List.cons_append, List.cons_append, readHeader, hline, hstep]
      simp only [readHunks, htarget, hread, hbinary, Bool.false_eq_true, ↓reduceIte]
      rw [List.length_cons, List.length_cons]
      rw [show n + 2 + (p.hunks.flatMap Hunk.render).length =
        n + ((p.hunks.flatMap Hunk.render).length + 1 + 1) by omega]

theorem pathText_of_kept {p : Patch} (hp : p.PathsFit) (hr : p.status ≠ .renamed)
    (hc : p.status ≠ .copied) :
    (p.source.path <|> p.target.path) = p.path ∧ (p.target.path <|> p.source.path) = p.path := by
  obtain ⟨⟨spath, _, _⟩, ⟨tpath, _, _⟩, status, _, _, _⟩ := p
  cases status with
  | added =>
    obtain ⟨rfl, _⟩ := hp
    cases tpath <;> exact ⟨rfl, rfl⟩
  | deleted =>
    obtain ⟨_, rfl⟩ := hp
    cases spath <;> exact ⟨rfl, rfl⟩
  | modified =>
    obtain rfl : tpath = spath := hp.2
    exact ⟨rfl, rfl⟩
  | renamed => contradiction
  | copied => contradiction

theorem readPair_labels {p : Patch} (hp : p.Readable) :
    ∃ s t, Path.readPair (p.sourceLabel ++ " " ++ p.targetLabel) = .ok (some (s, t)) ∧
      (p.status ≠ .renamed → p.status ≠ .copied → s = pathText p.path ∧ t = pathText p.path) := by
  have hor {a b : Option Path} (ha : PathWellFormed a) (hb : PathWellFormed b) :
      PathWellFormed (a <|> b) := by
    cases a with
    | none => exact hb
    | some q => exact ha
  have hlabels : p.sourceLabel ++ " " ++ p.targetLabel =
      Path.pair (pathText (p.source.path <|> p.target.path))
        (pathText (p.target.path <|> p.source.path)) := rfl
  rw [hlabels]
  by_cases hmoved : p.status = .renamed ∨ p.status = .copied
  . obtain ⟨⟨s, t⟩, hread⟩ := Path.readPair_pair _ _
    refine ⟨s, t, hread, ?_⟩
    intro hr hc
    rcases hmoved with h | h
    . exact absurd h hr
    . exact absurd h hc
  . rw [not_or] at hmoved
    obtain ⟨hs, ht⟩ := pathText_of_kept hp.paths hmoved.1 hmoved.2
    have hsource := Header.fromBytes_pathText (hor hp.sourcePath hp.targetPath)
    rw [hs] at hsource ⊢
    rw [ht]
    exact ⟨_, _, Path.readPair_same hsource, fun _ _ => ⟨rfl, rfl⟩⟩

theorem readOne_render {p : Patch} (hp : p.Readable) {rest : List Text} (hrest : Boundary rest)
    (n : Nat) (looked : Bool) :
    ∃ looked', readOne toEnd ⟨p.render ++ rest, n, looked⟩ =
      .ok p ⟨rest, n + p.render.length, looked'⟩ := by
  obtain ⟨s, t, hpair, hkept⟩ := readPair_labels hp
  have hdrop : (patchHeader ++ p.sourceLabel ++ " " ++ p.targetLabel).drop patchHeader.length =
      p.sourceLabel ++ " " ++ p.targetLabel := by
    rw [List.append_assoc, List.append_assoc, List.drop_left, List.append_assoc]
  have hheader := Header.leads_ofPatch hp s t (n + 1) (p.contentLines ++ rest)
  obtain ⟨looked', hcontent⟩ := readHeader_contentLines (Header.ofPatch p s t) hp hrest
    (n + 1 + (p.modeLines ++ p.similarityLines ++ p.indexLines).length)
  rw [Header.toPatch_ofPatch hp hkept] at hcontent
  refine ⟨looked', ?_⟩
  unfold readOne render
  simp only [List.cons_append, hdrop, hpair]
  rw [List.append_assoc, hheader, hcontent]
  simp only [List.length_cons, List.length_append]
  congr 2
  omega

theorem startsWith_patchHeader (t : Text) :
    startsWith (patchHeader ++ t) patchHeader = true := by
  simp [startsWith]

theorem boundary_flatMap_render (ps : List Patch) : Boundary (ps.flatMap render) := by
  cases ps with
  | nil => nofun
  | cons p ps =>
    rintro line ⟨⟩
    rw [List.append_assoc, List.append_assoc]
    exact startsWith_patchHeader _

theorem readExtended_cons {stop : Text → Bool} {line : Text} {ls : List Text} {n : Nat}
    {looked : Bool} {p : Patch} {ps : List Patch} {r r' : LineReader}
    (hstop : stop line = false) (hline : line.startsWith patchHeader = true)
    (hone : readOne stop ⟨line :: ls, n, looked⟩ = .ok p r)
    (hmore : readExtended stop r = .ok ps r') :
    readExtended stop ⟨line :: ls, n, looked⟩ = .ok (p :: ps) r' := by
  rw [readExtended]
  simp only [hstop, hline, Bool.false_eq_true, ↓reduceIte]
  split
  . next heq => simp [heq] at hone
  . next heq =>
    rw [heq] at hone
    cases hone
    rw [hmore]

theorem readExtended_flatMap_render {ps : List Patch} (hps : ∀ p ∈ ps, p.Readable) (n : Nat)
    (looked : Bool) :
    readExtended toEnd ⟨ps.flatMap render, n, looked⟩ =
      .ok ps ⟨[], n + (ps.flatMap render).length, true⟩ := by
  induction ps generalizing n looked with
  | nil => simp [readExtended]
  | cons p ps ih =>
    rw [List.forall_mem_cons] at hps
    obtain ⟨looked', hone⟩ := readOne_render hps.1 (boundary_flatMap_render ps) n looked
    have hmore := ih hps.2 (n + p.render.length) looked'
    have hline : (patchHeader ++ p.sourceLabel ++ " " ++ p.targetLabel).startsWith patchHeader =
        true := by
      rw [List.append_assoc, List.append_assoc]
      exact startsWith_patchHeader _
    rw [List.flatMap_cons, List.length_append, ← Nat.add_assoc]
    exact readExtended_cons rfl hline hone hmore

theorem readExtended_render {ps : List Patch} (hps : ∀ p ∈ ps, p.WellFormed) (n : Nat)
    (looked : Bool) :
    readExtended toEnd ⟨ps.flatMap render, n, looked⟩ =
      .ok ps ⟨[], n + (ps.flatMap render).length, true⟩ :=
  readExtended_flatMap_render (fun p hp => (hps p hp).readable) n looked

end Patch

namespace Diff

open Text

theorem outputLines_toBytes {d : Diff} (h : ∀ p ∈ d.patches, p.WellFormed) :
    outputLines d.toBytes = d.lines := by
  have hlines : ∀ line ∈ d.lines, IsLine line := by
    intro line hline
    obtain ⟨p, hp, hmem⟩ := List.mem_flatMap.1 hline
    exact Patch.isLine_of_mem_render (fun hunk hhunk => ((h p hp).hunks hunk hhunk).hasLines) hmem
  exact outputLines_encode_unlines (fun line hline => (hlines line hline).1)
    fun line hline => (hlines line hline).2

theorem readExtended_toBytes {d : Diff} (h : ∀ p ∈ d.patches, p.WellFormed) :
    Patch.readExtended Patch.toEnd (.ofLines (outputLines d.toBytes)) =
      .ok d.patches ⟨[], d.lines.length, true⟩ := by
  rw [outputLines_toBytes h]
  have hread := Patch.readExtended_render h 0 false
  rw [Nat.zero_add] at hread
  exact hread

/-- A move of a file to a name with a stray byte, with its last line ended. -/
def moved : Patch where
  source := { path := some ⟨[], ["old\tname"]⟩, type := some .regular, hash := some .null }
  target := {
    path := some ⟨"/", ["new", [.byte 0xff]]⟩, type := some .regular, hash := some .null }
  status := .renamed
  score := some 98
  hunks := [⟨⟨3, ["-a"], true⟩, ⟨3, ["-a"], false⟩⟩]

theorem readExtended_toBytes_moved :
    Patch.readExtended Patch.toEnd (.ofLines (outputLines (Diff.toBytes ⟨.null, none, [moved]⟩))) =
      .ok [moved] ⟨[], 11, true⟩ := by
  have hbyte : FromBytes (("/new/" : Text) ++ [Sym.byte 0xff]) := by
    rw [fromBytes_ofString_append, fromBytes_iff]
    have hnone : firstChar? [0xff] = none := by decide
    refine ⟨[0xff], ?_⟩
    rw [decode_cons_of_firstChar?_eq_none hnone, decode_nil]
  have hlegible : Range.Legible ⟨3, 1⟩ := ⟨by decide, by decide, by decide⟩
  have hside (bare : Bool) : Hunk.SideWellFormed ⟨3, ["-a"], bare⟩ := {
    legible := hlegible
    bytes := by
      intro line hline
      rw [List.mem_singleton.1 hline]
      exact Plain.fromBytes (by decide)
    unbroken := by
      intro line hline
      rw [List.mem_singleton.1 hline]
      decide
    lines_of_noNewline := fun _ => List.cons_ne_nil _ _ }
  have hmoved : moved.WellFormed := {
    paths := ⟨rfl, rfl⟩
    types := .inr ⟨rfl, rfl, .inr rfl⟩
    hashes := rfl
    score := by
      rintro score ⟨⟩
      decide
    binary := by decide
    hunks := by
      intro h hh
      rw [List.mem_singleton.1 hh]
      exact ⟨hside true, hside false, .inl (by decide)⟩
    sourcePath := by
      rintro q ⟨⟩
      exact ⟨rfl, Plain.fromBytes (by decide)⟩
    targetPath := by
      rintro q ⟨⟩
      exact ⟨rfl, hbyte⟩ }
  exact readExtended_toBytes (by simpa using hmoved)

end Diff

end Dvcs
