import Dvcs.Proofs.Hunk.Normal
import Dvcs.Proofs.Patch.Frame
import Dvcs.Proofs.Path.Normal
import Mathlib.Data.Option.Basic

/-!
This module contains the patches that diffs are read as. Their lines do not keep all that has been
read, but they are the lines of a patch that comes back from them. So a diff that has been read and
written once stays as it is.
-/

namespace Dvcs

namespace Patch

open LineReader Text

theorem exists_of_map_eq_ok {α β : Type} {f : α → β} {x : Except ReadError α} {b : β}
    (h : f <$> x = .ok b) : ∃ a, x = .ok a ∧ b = f a := by
  cases x with
  | error e => contradiction
  | ok a =>
    cases h
    exact ⟨a, rfl, rfl⟩

namespace Header

/-- What all lines of a header keep to, in any order. -/
structure Sound (h : Header) : Prop where
  sourcePath : HighStrays h.sourcePath
  targetPath : HighStrays h.targetPath
  added : h.status = .added → h.targetType.isSome
  deleted : h.status = .deleted → h.sourceType.isSome
  score : ∀ score ∈ h.score, (ofNat score).length ≤ digitLimit

variable {hd hd' : Header} {n : Nat} {line : Text}

theorem sound_ofPaths {s t : Text} (hs : HighStrays s) (ht : HighStrays t) :
    Sound { sourcePath := s, targetPath := t } where
  sourcePath := hs
  targetPath := ht
  added := nofun
  deleted := nofun
  score := nofun

theorem Sound.modeLine? (h : hd.Sound) (hline : hd.modeLine? n line = some (.ok hd')) :
    hd'.Sound := by
  unfold Header.modeLine? at hline
  split at hline
  . obtain ⟨type, _, rfl⟩ := exists_of_map_eq_ok (Option.some.inj hline)
    exact ⟨h.sourcePath, h.targetPath, h.added, fun _ => rfl, h.score⟩
  split at hline
  . obtain ⟨type, _, rfl⟩ := exists_of_map_eq_ok (Option.some.inj hline)
    exact ⟨h.sourcePath, h.targetPath, fun _ => rfl, h.deleted, h.score⟩
  split at hline
  . obtain ⟨type, _, rfl⟩ := exists_of_map_eq_ok (Option.some.inj hline)
    exact ⟨h.sourcePath, h.targetPath, fun _ => rfl, by simp, h.score⟩
  split at hline
  . obtain ⟨type, _, rfl⟩ := exists_of_map_eq_ok (Option.some.inj hline)
    exact ⟨h.sourcePath, h.targetPath, by simp, fun _ => rfl, h.score⟩
  . contradiction

theorem Sound.scoreLine? (h : hd.Sound) (hline : hd.scoreLine? line = some (.ok hd')) :
    hd'.Sound := by
  unfold Header.scoreLine? at hline
  split at hline
  . next digits hdigits =>
    split at hline
    . cases hline
    . next score hscore =>
      cases hline
      obtain ⟨_, hne, hlimit, hlt⟩ := spells_of_natural? hscore
      refine ⟨h.sourcePath, h.targetPath, h.added, h.deleted, ?_⟩
      rintro _ ⟨⟩
      exact Nat.le_trans (length_ofNat_le (List.length_pos_iff.2 hne) hlt) hlimit
    . contradiction
  . contradiction

theorem highStrays_of_unquoted {text path : Text} (h : unquoted text = .ok path)
    (hsuffix : text <:+ line) (hline : HighStrays line) : HighStrays path := by
  unfold unquoted at h
  split at h
  . next hread =>
    cases h
    exact Path.highStrays_of_unquote hread (hline.of_infix hsuffix.isInfix)
  . contradiction

theorem Sound.moveLine? (h : hd.Sound) (hstrays : HighStrays line)
    (hline : hd.moveLine? line = some (.ok hd')) : hd'.Sound := by
  have hpath {text path : Text} {p : Text} (hread : unquoted text = .ok path)
      (hafter : after? p line = some text) : HighStrays path :=
    highStrays_of_unquoted hread (suffix_of_after? hafter) hstrays
  unfold Header.moveLine? at hline
  split at hline
  . next hafter =>
    obtain ⟨path, hread, rfl⟩ := exists_of_map_eq_ok (Option.some.inj hline)
    exact ⟨hpath hread hafter, h.targetPath, by simp, by simp, h.score⟩
  split at hline
  . next hafter =>
    obtain ⟨path, hread, rfl⟩ := exists_of_map_eq_ok (Option.some.inj hline)
    exact ⟨h.sourcePath, hpath hread hafter, h.added, h.deleted, h.score⟩
  split at hline
  . next hafter =>
    obtain ⟨path, hread, rfl⟩ := exists_of_map_eq_ok (Option.some.inj hline)
    exact ⟨hpath hread hafter, h.targetPath, by simp, by simp, h.score⟩
  split at hline
  . next hafter =>
    obtain ⟨path, hread, rfl⟩ := exists_of_map_eq_ok (Option.some.inj hline)
    exact ⟨h.sourcePath, hpath hread hafter, h.added, h.deleted, h.score⟩
  . contradiction

theorem Sound.indexLine? (h : hd.Sound) (hline : hd.indexLine? n line = some (.ok hd')) :
    hd'.Sound := by
  unfold Header.indexLine? at hline
  split at hline
  . dsimp only at hline
    split at hline
    . obtain ⟨type, _, rfl⟩ := exists_of_map_eq_ok (Option.some.inj hline)
      exact ⟨h.sourcePath, h.targetPath, h.added, h.deleted, h.score⟩
    . cases hline
      exact ⟨h.sourcePath, h.targetPath, h.added, h.deleted, h.score⟩
  . contradiction

theorem cases_of_step (h : hd.step n line = .ok (.header hd')) :
    hd.modeLine? n line = some (.ok hd') ∨ hd.scoreLine? line = some (.ok hd') ∨
      hd.moveLine? line = some (.ok hd') ∨ hd.indexLine? n line = some (.ok hd') := by
  unfold Header.step at h
  split at h
  . next hd'' hline =>
    cases h
    rcases (Option.orElse_eq_some ..).1 hline with hmode | ⟨_, hline⟩
    . exact .inl hmode
    rcases (Option.orElse_eq_some ..).1 hline with hscore | ⟨_, hline⟩
    . exact .inr (.inl hscore)
    rcases (Option.orElse_eq_some ..).1 hline with hmove | ⟨_, hindex⟩
    . exact .inr (.inr (.inl hmove))
    . exact .inr (.inr (.inr hindex))
  . contradiction
  . split at h
    . cases h
    . split at h
      . cases h
      . split at h
        . cases h
        . cases h

theorem Sound.step (h : hd.Sound) (hstrays : HighStrays line)
    (hstep : hd.step n line = .ok (.header hd')) : hd'.Sound := by
  rcases cases_of_step hstep with hmode | hscore | hmove | hindex
  . exact h.modeLine? hmode
  . exact h.scoreLine? hscore
  . exact h.moveLine? hstrays hmove
  . exact h.indexLine? hindex

end Header

/-- Paths that come from texts. -/
def PathSound (path : Option Path) : Prop :=
  ∀ q ∈ path, q.Standard ∧ ∀ part ∈ q.parts, HighStrays part

/-- Patches that come from lines. -/
structure Sound (p : Patch) : Prop where
  sourcePath : PathSound p.source.path
  targetPath : PathSound p.target.path
  source_isSome : p.status ≠ .added → p.source.path.isSome
  target_isSome : p.status ≠ .deleted → p.target.path.isSome
  added : p.status = .added → p.source.path = none ∧ p.target.type.isSome
  deleted : p.status = .deleted → p.target.path = none ∧ p.source.type.isSome
  score : ∀ score ∈ p.score, 0 ≤ score ∧ (ofNat score.natAbs).length ≤ digitLimit
  binary : p.binary = true → p.hunks = []
  hunks : ∀ h ∈ p.hunks, h.Readable

theorem pathSound_ofText {t : Text} (h : HighStrays t) : PathSound (some (Path.ofText t)) := by
  rintro _ ⟨⟩
  exact ⟨Path.standard_ofText t, fun _ => Path.highStrays_of_mem_parts h⟩

theorem Header.Sound.toPatch {h : Header} (hh : h.Sound) {hunks : List Hunk} {binary : Bool}
    (hbinary : binary = true → hunks = []) (hhunks : ∀ hunk ∈ hunks, hunk.Readable) :
    (h.toPatch hunks binary).Sound where
  sourcePath := by
    unfold Header.toPatch
    dsimp only
    split
    . nofun
    . exact pathSound_ofText hh.sourcePath
  targetPath := by
    unfold Header.toPatch
    dsimp only
    split
    . nofun
    . exact pathSound_ofText hh.targetPath
  source_isSome hne := by
    simp only [Header.toPatch] at hne ⊢
    simp [hne]
  target_isSome hne := by
    simp only [Header.toPatch] at hne ⊢
    simp [hne]
  added heq := by
    simp only [Header.toPatch] at heq ⊢
    simp [heq, hh.added heq]
  deleted heq := by
    simp only [Header.toPatch] at heq ⊢
    simp [heq, hh.deleted heq]
  score := by
    intro score hscore
    obtain ⟨k, hk, rfl⟩ := Option.map_eq_some_iff.1 hscore
    exact ⟨Int.natCast_nonneg k, hh.score k hk⟩
  binary := hbinary
  hunks := hhunks

/-- Lines that can come from bytes, of which the numbers and the blocks stay below the limits. -/
structure WithinLimits (ls : List Text) : Prop where
  strays : ∀ line ∈ ls, HighStrays line
  numbers : ∀ line ∈ ls, Hunk.ShortNumbers line
  length : ls.length < 2 ^ 64 - 1

theorem WithinLimits.of_reaches {r r' : LineReader} (h : WithinLimits r.rest)
    (hr : r.Reaches r') : WithinLimits r'.rest where
  strays line hline := h.strays line (hr.mem hline)
  numbers line hline := h.numbers line (hr.mem hline)
  length := by
    obtain ⟨taken, hrest, _⟩ := hr
    have hlength := h.length
    rw [hrest, List.length_append] at hlength
    omega

theorem WithinLimits.tail {line : Text} {ls : List Text} (h : WithinLimits (line :: ls)) :
    WithinLimits ls :=
  h.of_reaches (.drop line ls 0 false false)

theorem readable_of_readHunks {rest : List Text} {n : Nat} {hs : List Hunk} {r : LineReader}
    (h : readHunks rest n = .ok hs r) (hlimits : WithinLimits rest) :
    ∀ hunk ∈ hs, hunk.Readable := by
  unfold readHunks at h
  split at h
  . contradiction
  . split at h
    . exact Hunk.readable_of_readBlocks h hlimits.tail.numbers hlimits.tail.length
    . contradiction

theorem Header.Sound.readHeader {stop : Text → Bool} {hd : Header} (h : hd.Sound) {n : Nat}
    {ls : List Text} {p : Patch} {r : LineReader} (hread : readHeader stop hd n ls = .ok p r)
    (hlimits : WithinLimits ls) : p.Sound := by
  fun_induction Patch.readHeader stop hd n ls with
  | case1 =>
    cases hread
    exact h.toPatch (by simp) (List.forall_mem_nil _)
  | case2 =>
    cases hread
    exact h.toPatch (by simp) (List.forall_mem_nil _)
  | case3 => contradiction
  | case4 hd n line rest hend hd' hstep ih =>
    exact ih (h.step (hlimits.strays line List.mem_cons_self) hstep) hread hlimits.tail
  | case5 =>
    cases hread
    exact h.toPatch (fun _ => rfl) (List.forall_mem_nil _)
  | case6 =>
    cases hread
    exact h.toPatch (fun _ => rfl) (List.forall_mem_nil _)
  | case7 => contradiction
  | case8 hd n line rest hend hstep hunks r' hhunks =>
    cases hread
    exact h.toPatch (by simp) (readable_of_readHunks hhunks hlimits.tail)

theorem sound_of_readOne {stop : Text → Bool} {r r' : LineReader} {p : Patch}
    (h : readOne stop r = .ok p r') (hlimits : WithinLimits r.rest) : p.Sound := by
  obtain ⟨line, rest, s, t, hr, hpair, hheader⟩ := readHeader_of_readOne h
  rw [hr] at hlimits
  have hline := hlimits.strays line List.mem_cons_self
  obtain ⟨hsource, htarget⟩ := Path.highStrays_of_readPair hpair
    (hline.of_infix (List.drop_suffix _ line).isInfix)
  exact (Header.sound_ofPaths hsource htarget).readHeader hheader hlimits.tail

theorem sound_of_readExtended {stop : Text → Bool} {r r' : LineReader} {ps : List Patch}
    (h : readExtended stop r = .ok ps r') (hlimits : WithinLimits r.rest) :
    ∀ p ∈ ps, p.Sound := by
  fun_induction readExtended stop r generalizing ps r' with
  | case1 =>
    cases h
    exact List.forall_mem_nil _
  | case2 =>
    cases h
    exact List.forall_mem_nil _
  | case3 => contradiction
  | case4 => contradiction
  | case5 r line rest hr hstop hheader p r1 hone ps r2 hps ih =>
    cases h
    rw [List.forall_mem_cons]
    exact ⟨sound_of_readOne hone hlimits, ih hps (hlimits.of_reaches (reaches_of_readOne hone))⟩
  | case6 => contradiction

/-- The types that the lines of a patch tell. -/
def shownTypes (p : Patch) : Option FileType × Option FileType :=
  match p.status with
  | .added => (none, p.target.type)
  | .deleted => (p.source.type, none)
  | _ =>
    if p.source.type.isSome ∧ p.target.type.isSome ∧
        (p.source.type ≠ p.target.type ∨ p.source.hash.isSome ∧ p.target.hash.isSome) then
      (p.source.type, p.target.type)
    else (none, none)

/-- The hashes that the lines of a patch tell: both of them or none. -/
def shownHashes (p : Patch) : Option Hash × Option Hash :=
  match p.source.hash, p.target.hash with
  | some s, some t => (some s, some t)
  | _, _ => (none, none)

/-- The score that the lines of a patch tell. -/
def shownScore (p : Patch) : Option Int :=
  match p.status with
  | .renamed | .copied => p.score
  | _ => none

/-- What the lines of a patch tell of it. -/
def shown (p : Patch) : Patch where
  source := ⟨p.source.path.map Path.decoded, p.shownTypes.1, p.shownHashes.1⟩
  target := ⟨p.target.path.map Path.decoded, p.shownTypes.2, p.shownHashes.2⟩
  status := p.status
  score := p.shownScore
  hunks := p.hunks
  binary := p.binary

theorem PathSound.orElse {path path' : Option Path} (h : PathSound path) (h' : PathSound path') :
    PathSound (path <|> path') := by
  cases path with
  | none => exact h'
  | some q => exact h

theorem orElse_map_decoded (path path' : Option Path) :
    (path.map Path.decoded <|> path'.map Path.decoded) = (path <|> path').map Path.decoded := by
  cases path <;> rfl

theorem pathText_map_decoded {path : Option Path} (h : PathSound path) :
    pathText (path.map Path.decoded) = decode (encode (pathText path)) := by
  cases path with
  | none => exact (Plain.fromBytes (by decide)).symm
  | some q => exact Path.toText_decoded (h q rfl).1

theorem highStrays_pathText {path : Option Path} (h : PathSound path) :
    HighStrays (pathText path) := by
  cases path with
  | none => exact highStrays_ofString "None"
  | some q => exact Path.highStrays_toText (h q rfl).1 (h q rfl).2

theorem quote_append_pathText_map_decoded (dir : String) {path : Option Path}
    (h : PathSound path) :
    Path.quote (dir ++ pathText (path.map Path.decoded)) = Path.quote (dir ++ pathText path) := by
  rw [pathText_map_decoded h, ← decode_encode_ofString_append, ← encode_append]
  exact Path.quote_decode_encode
    (highStrays_append.2 ⟨highStrays_ofString dir, highStrays_pathText h⟩)

theorem Sound.sourceLabel_shown {p : Patch} (h : p.Sound) :
    p.shown.sourceLabel = p.sourceLabel := by
  unfold sourceLabel shown
  rw [orElse_map_decoded]
  exact quote_append_pathText_map_decoded "a/" (h.sourcePath.orElse h.targetPath)

theorem Sound.targetLabel_shown {p : Patch} (h : p.Sound) :
    p.shown.targetLabel = p.targetLabel := by
  unfold targetLabel shown
  rw [orElse_map_decoded]
  exact quote_append_pathText_map_decoded "b/" (h.targetPath.orElse h.sourcePath)

theorem modeLines_shown (p : Patch) : p.shown.modeLines = p.modeLines := by
  obtain ⟨⟨_, stype, shash⟩, ⟨_, ttype, thash⟩, status, _, _, _⟩ := p
  cases status with
  | added | deleted => rfl
  | modified | renamed | copied =>
    cases stype with
    | none => rfl
    | some s =>
      cases ttype with
      | none => rfl
      | some t =>
        by_cases heq : s = t
        . -- a type that both sides share is no matter of these lines
          subst heq
          by_cases hhashes : shash.isSome ∧ thash.isSome
          . simp [modeLines, shown, shownTypes, hhashes]
          . simp [modeLines, shown, shownTypes, hhashes]
        . simp [modeLines, shown, shownTypes, heq]

theorem Sound.similarityLines_shown {p : Patch} (h : p.Sound) :
    p.shown.similarityLines = p.similarityLines := by
  have hpath {path : Option Path} (hpath : PathSound path) :
      Path.quote (pathText (path.map Path.decoded)) = Path.quote (pathText path) :=
    quote_append_pathText_map_decoded "" hpath
  have hmove (verb : Text) (hscore : p.shownScore = p.score) :
      moveLines p.shown verb = moveLines p verb := by
    unfold moveLines shown
    rw [hscore, hpath h.sourcePath, hpath h.targetPath]
  unfold similarityLines
  have hstatus : p.shown.status = p.status := rfl
  rw [hstatus]
  cases hcase : p.status with
  | added | deleted | modified => rfl
  | renamed | copied => exact hmove _ (by simp [shownScore, hcase])

theorem shownHashes_cases (p : Patch) :
    (∃ s t, p.source.hash = some s ∧ p.target.hash = some t ∧ p.shownHashes = (some s, some t)) ∨
      (p.source.hash = none ∨ p.target.hash = none) ∧ p.shownHashes = (none, none) := by
  unfold shownHashes
  cases p.source.hash with
  | none => exact .inr ⟨.inl rfl, rfl⟩
  | some s =>
    cases p.target.hash with
    | none => exact .inr ⟨.inr rfl, rfl⟩
    | some t => exact .inl ⟨s, t, rfl, rfl, rfl⟩

theorem sharedType_shown {p : Patch} (hs : p.source.hash.isSome) (ht : p.target.hash.isSome) :
    p.shown.sharedType = p.sharedType := by
  obtain ⟨⟨_, stype, shash⟩, ⟨_, ttype, thash⟩, status, _, _, _⟩ := p
  dsimp only at hs ht
  cases status with
  | added | deleted => simp [sharedType, shown]
  | modified | renamed | copied =>
    cases stype <;> cases ttype <;> simp [sharedType, shown, shownTypes, hs, ht]

theorem indexLines_of_none {p : Patch} (h : p.source.hash = none ∨ p.target.hash = none) :
    p.indexLines = [] := by
  unfold indexLines
  rcases h with h | h
  . rw [h]
  . rw [h]
    cases p.source.hash <;> rfl

theorem indexLines_shown (p : Patch) : p.shown.indexLines = p.indexLines := by
  rcases p.shownHashes_cases with ⟨s, t, hs, ht, hshown⟩ | ⟨hnone, hshown⟩
  . have hs' : p.shown.source.hash = some s := congrArg Prod.fst hshown
    have ht' : p.shown.target.hash = some t := congrArg Prod.snd hshown
    rw [indexLines_of_hashes hs ht, indexLines_of_hashes hs' ht']
    rw [sharedType_shown (by simp [hs]) (by simp [ht])]
  . rw [indexLines_of_none hnone, indexLines_of_none (.inl (congrArg Prod.fst hshown))]

theorem Sound.contentLines_shown {p : Patch} (h : p.Sound) :
    p.shown.contentLines = p.contentLines := by
  have hlabel (path : Option Path) (label : Text) :
      contentLabel (path.map Path.decoded) label = contentLabel path label := by
    unfold contentLabel
    rw [Option.isSome_map]
  rw [contentLines_eq, contentLines_eq, h.sourceLabel_shown, h.targetLabel_shown]
  unfold shown
  rw [hlabel, hlabel]

theorem Sound.render_shown {p : Patch} (h : p.Sound) : p.shown.render = p.render := by
  unfold render
  rw [h.sourceLabel_shown, h.targetLabel_shown, modeLines_shown, h.similarityLines_shown]
  rw [indexLines_shown, h.contentLines_shown]

theorem pathWellFormed_map_decoded {path : Option Path} (h : PathSound path) :
    PathWellFormed (path.map Path.decoded) := by
  intro q' hq'
  obtain ⟨q, hq, rfl⟩ := Option.map_eq_some_iff.1 hq'
  obtain ⟨hstandard, hstrays⟩ := h q hq
  constructor
  . exact (hstandard.decoded hstrays).isNormal
  . rw [Path.toText_decoded hstandard]
    exact fromBytes_decode _

theorem isSome_fst_shownHashes {p : Patch} (hs : p.source.hash.isSome)
    (ht : p.target.hash.isSome) : p.shownHashes.1.isSome := by
  rcases p.shownHashes_cases with ⟨s, t, _, _, hshown⟩ | ⟨hnone | hnone, _⟩
  . simp [hshown]
  . simp [hnone] at hs
  . simp [hnone] at ht

theorem isSome_shownHashes (p : Patch) : p.shownHashes.1.isSome = p.shownHashes.2.isSome := by
  rcases p.shownHashes_cases with ⟨s, t, _, _, hshown⟩ | ⟨_, hshown⟩ <;> simp [hshown]

theorem shownTypes_of_kept {p : Patch} (ha : p.status ≠ .added) (hd : p.status ≠ .deleted) :
    p.shownTypes = (none, none) ∨
      p.shownTypes = (p.source.type, p.target.type) ∧ p.source.type.isSome ∧
        p.target.type.isSome ∧ (p.source.type ≠ p.target.type ∨ p.shownHashes.1.isSome) := by
  unfold shownTypes
  split
  . contradiction
  . contradiction
  . split
    . next hshown =>
      obtain ⟨hs, ht, htold⟩ := hshown
      exact .inr ⟨rfl, hs, ht, htold.imp_right fun hhashes =>
        isSome_fst_shownHashes hhashes.1 hhashes.2⟩
    . exact .inl rfl

theorem Sound.typesFit_shown {p : Patch} (h : p.Sound) : p.shown.TypesFit := by
  have hkept (ha : p.status ≠ .added) (hd : p.status ≠ .deleted) :
      p.shownTypes.1 = none ∧ p.shownTypes.2 = none ∨
        p.shownTypes.1.isSome ∧ p.shownTypes.2.isSome ∧
          (p.shownTypes.1 ≠ p.shownTypes.2 ∨ p.shownHashes.1.isSome) := by
    rcases shownTypes_of_kept ha hd with hnone | ⟨hshown, hfit⟩
    . rw [hnone]
      exact .inl ⟨rfl, rfl⟩
    . rw [hshown]
      exact .inr hfit
  unfold TypesFit shown
  dsimp only
  cases hcase : p.status with
  | added => simpa [shownTypes, hcase] using (h.added hcase).2
  | deleted => simpa [shownTypes, hcase] using (h.deleted hcase).2
  | modified | renamed | copied => exact hkept (by simp [hcase]) (by simp [hcase])

theorem Sound.pathsFit_shown {p : Patch} (h : p.Sound)
    (hmodified : p.status = .modified → p.source.path = p.target.path) : p.shown.PathsFit := by
  unfold PathsFit shown
  dsimp only
  cases hcase : p.status with
  | added => simpa [(h.added hcase).1] using h.target_isSome (by simp [hcase])
  | deleted => simpa [(h.deleted hcase).1] using h.source_isSome (by simp [hcase])
  | modified =>
    rw [hmodified hcase, Option.isSome_map]
    exact ⟨h.target_isSome (by simp [hcase]), rfl⟩
  | renamed | copied =>
    rw [Option.isSome_map, Option.isSome_map]
    exact ⟨h.source_isSome (by simp [hcase]), h.target_isSome (by simp [hcase])⟩

theorem Sound.scoreFits_shown {p : Patch} (h : p.Sound) : p.shown.ScoreFits := by
  intro score hscore
  have hshown : p.shownScore = some score := hscore
  unfold shownScore at hshown
  split at hshown
  . next hcase => exact ⟨.inl hcase, h.score score hshown⟩
  . next hcase => exact ⟨.inr hcase, h.score score hshown⟩
  . contradiction

/-- What the lines of a patch tell comes back from them. -/
theorem Sound.readable_shown {p : Patch} (h : p.Sound)
    (hmodified : p.status = .modified → p.source.path = p.target.path) : p.shown.Readable where
  paths := h.pathsFit_shown hmodified
  types := h.typesFit_shown
  hashes := p.isSome_shownHashes
  score := h.scoreFits_shown
  binary := h.binary
  hunks := h.hunks
  sourcePath := pathWellFormed_map_decoded h.sourcePath
  targetPath := pathWellFormed_map_decoded h.targetPath

/-- A diff that has been read and written can be read again, and is then written as before. -/
theorem readExtended_render_of_readExtended {ls : List Text} {ps : List Patch} {r : LineReader}
    (hread : readExtended toEnd (.ofLines ls) = .ok ps r) (hlimits : WithinLimits ls)
    (hmodified : ∀ p ∈ ps, p.status = .modified → p.source.path = p.target.path) :
    ∃ ps' r', readExtended toEnd (.ofLines (ps.flatMap render)) = .ok ps' r' ∧
      ps'.flatMap render = ps.flatMap render := by
  have hsound := sound_of_readExtended hread hlimits
  have hrender : (ps.map shown).flatMap render = ps.flatMap render := by
    rw [List.flatMap_map, List.flatMap_def, List.flatMap_def]
    rw [List.map_congr_left fun p hp => (hsound p hp).render_shown]
  have hreadable : ∀ p ∈ ps.map shown, p.Readable := by
    intro p' hp'
    obtain ⟨p, hp, rfl⟩ := List.mem_map.1 hp'
    exact (hsound p hp).readable_shown (hmodified p hp)
  have hagain := readExtended_flatMap_render hreadable 0 false
  rw [hrender] at hagain
  exact ⟨_, _, hagain, hrender⟩

/-- A diff with a path, an index line, a similarity and a mode that are not kept as they are, and
with digits and lines that are not written back. -/
def untidy : List Text := [
  "diff --git a/dir//file b/dir//file", "similarity index 90%", "index ABCDEF1..1234567",
  "new mode 100755", "--- a/dir//file", "+++ b/dir//file", "@@ -٣,2 +3,2 @@", " shared", "-old",
  "+new"]

/-- The patch that `untidy` is read as. -/
def untidyPatch : Patch where
  source := { path := some ⟨[], ["dir", "file"]⟩ }
  target := { path := some ⟨[], ["dir", "file"]⟩, type := some .executable }
  status := .modified
  score := some 90
  hunks := [⟨⟨4, ["old"], false⟩, ⟨4, ["new"], false⟩⟩]

theorem readExtended_render_untidy :
    readExtended toEnd (.ofLines untidy) = .ok [untidyPatch] ⟨[], 10, true⟩ ∧
      ∃ ps r, readExtended toEnd (.ofLines ([untidyPatch].flatMap render)) = .ok ps r ∧
        ps.flatMap render = [untidyPatch].flatMap render := by
  have hread : readExtended toEnd (.ofLines untidy) = .ok [untidyPatch] ⟨[], 10, true⟩ := by
    decide +kernel
  have hlimits : WithinLimits untidy := {
    strays := by
      simp only [untidy, List.forall_mem_cons]
      simp [highStrays_ofString]
    numbers := by
      have hlengths : ∀ line ∈ untidy, ∀ ranges ∈ Hunk.headerRanges? line,
          ranges.1.length + 1 < digitLimit ∧ ranges.2.length + 1 < digitLimit := by
        decide +kernel
      exact fun line hline => Hunk.shortNumbers_of_length (hlengths line hline)
    length := by decide }
  refine ⟨hread, readExtended_render_of_readExtended hread hlimits ?_⟩
  intro p hp _
  rw [List.mem_singleton.1 hp]
  rfl

end Patch

end Dvcs
