import Dvcs.Proofs.Hunk.Fault
import Dvcs.Proofs.Patch.Frame
import Dvcs.Proofs.Path.Part
import Mathlib.Data.Option.Basic

/-!
This module contains what the errors of diff parsers are about. A fault in the form of a diff is
reported at one of its lines or behind the last one; the errors without a line number come from a
quoted path and from the digits of a similarity, and from nothing else.
-/

namespace Dvcs

namespace Patch

open LineReader

/-- The errors in unified diffs: a line is at fault, or the end of the input; or a line holds a
quoted path that cannot be read. -/
inductive Blames (r : LineReader) : ReadError → Prop
  | place {n : Nat} (fault : DiffFault) (h : r.Covers n) : Blames r (.diff n fault)
  | path {line : Text} {q : QuoteError} (hline : line ∈ r.rest) (h : Path.Broken line q) :
    Blames r (.quote q)

theorem Blames.of_reaches {r r' : LineReader} {e : ReadError} (h : Blames r' e)
    (hr : r.Reaches r') : Blames r e := by
  cases h with
  | place fault h => exact .place fault (hr.covers h)
  | path hline h => exact .path (hr.mem hline) h

theorem Blames.of_hunk {r : LineReader} {e : ReadError} (h : Hunk.Blames r e) : Blames r e := by
  obtain ⟨n, fault, rfl, hn⟩ := h
  exact .place fault hn

theorem blames_next (r : LineReader) (fault : DiffFault) :
    Blames r (.diff (r.lineNumber + 1) fault) :=
  .place fault r.covers_next

theorem blames_of_headerPaths {r : LineReader} {line line' source target : Text} {e : ReadError}
    (h : headerPaths source target = .error e) (hsource : source <:+: line) (hline : line ∈ r.rest)
    (htarget : target <:+: line') (hline' : line' ∈ r.rest) : Blames r e := by
  obtain ⟨q, rfl, hbroken | hbroken⟩ := broken_of_headerPaths h
  . exact .path hline (hbroken.mono hsource)
  . exact .path hline' (hbroken.mono htarget)

section Unified

/-- The first file header is `line`; it is at fault if the input ends behind it. -/
theorem blames_of_readContent {line source : Text} {rest : List Text} {n : Nat} {e : ReadError}
    {r : LineReader} (h : readContent source rest (n + 1) = .error e r) (hsource : source <:+: line)
    (looked : Bool) : Blames ⟨line :: rest, n, looked⟩ e := by
  unfold readContent at h
  split at h
  . cases h
    exact blames_next ⟨[line], n, looked⟩ _
  . next line' rest =>
    have hdrop : Reaches ⟨line :: line' :: rest, n, looked⟩ ⟨line' :: rest, n + 1, false⟩ :=
      .drop ..
    split at h
    . cases h
      exact (blames_next ⟨line' :: rest, n + 1, false⟩ _).of_reaches hdrop
    . next target htarget =>
      split at h
      . next hpaths =>
        cases h
        have htarget := (Text.suffix_of_after? htarget).isInfix
        exact blames_of_headerPaths hpaths hsource (by simp) htarget (by simp)
      . split at h
        . next hblocks =>
          cases h
          exact (Blames.of_hunk (Hunk.blames_of_readBlocks hblocks)).of_reaches
            (hdrop.trans (.drop ..))
        . contradiction

theorem reaches_of_readContent {source : Text} {rest : List Text} {n : Nat} {p : Patch}
    {r : LineReader} (h : readContent source rest n = .ok p r) (looked : Bool) :
    Reaches ⟨rest, n, looked⟩ r := by
  unfold readContent at h
  split at h
  . contradiction
  . split at h
    . contradiction
    . split at h
      . contradiction
      . split at h
        . contradiction
        . next hblocks =>
          cases h
          exact (Hunk.reaches_of_readBlocks hblocks).cons

theorem blames_of_readUnifiedFrom {n : Nat} {ls : List Text} {e : ReadError} {r : LineReader}
    (h : readUnifiedFrom n ls = .error e r) (looked : Bool) : Blames ⟨ls, n, looked⟩ e := by
  fun_induction readUnifiedFrom n ls generalizing r looked with
  | case1 => contradiction
  | case2 n line rest source hafter e r1 hcontent =>
    cases h
    exact blames_of_readContent hcontent (Text.suffix_of_after? hafter).isInfix looked
  | case3 n line rest source hafter p r1 hcontent e r2 hmore ih =>
    cases h
    exact (ih hmore r1.looked).of_reaches (reaches_of_readContent hcontent false).cons
  | case4 => contradiction
  | case5 n line rest hafter source target hnames e hpaths =>
    cases h
    obtain ⟨hsource, htarget⟩ := infix_of_binaryNames? hnames
    exact blames_of_headerPaths hpaths hsource (by simp) htarget (by simp)
  | case6 n line rest hafter source target hnames source' target' hpaths e r1 hmore ih =>
    cases h
    exact (ih hmore false).of_reaches (.drop ..)
  | case7 => contradiction
  | case8 n line rest hafter hnames hstray =>
    cases h
    exact blames_next _ _
  | case9 n line rest hafter hnames hstray ih => exact (ih h false).of_reaches (.drop ..)

end Unified

section Extended

/-- The errors in diffs with extended headers, where a similarity may also have too many digits. -/
inductive HeaderBlames (r : LineReader) : ReadError → Prop
  | plain {e : ReadError} (h : Blames r e) : HeaderBlames r e
  | score {line digits : Text} (hline : line ∈ r.rest) (hdigits : scoreDigits? line = some digits)
    (h : Text.digitLimit < digits.length) :
    HeaderBlames r (.numeral (.tooManyDigits digits.length))

theorem HeaderBlames.of_reaches {r r' : LineReader} {e : ReadError} (h : HeaderBlames r' e)
    (hr : r.Reaches r') : HeaderBlames r e := by
  cases h with
  | plain h => exact .plain (h.of_reaches hr)
  | score hline hdigits h => exact .score (hr.mem hline) hdigits h

theorem eq_diff_of_fileType {α : Type} {f : FileType → α} {mode : Text} {n : Nat} {e : ReadError}
    (h : f <$> fileType mode n = .error e) : ∃ fault, e = .diff n fault := by
  unfold fileType at h
  split at h
  . contradiction
  . cases h
    exact ⟨_, rfl⟩

theorem broken_of_map_unquoted {α : Type} {f : Text → α} {line path : Text} {e : ReadError}
    (h : f <$> unquoted path = .error e) (hpath : path <:+ line) :
    ∃ q, e = .quote q ∧ Path.Broken line q := by
  have hunquoted : unquoted path = .error e := by
    cases hread : unquoted path with
    | error e' =>
      rw [hread] at h
      cases h
      rfl
    | ok path' =>
      rw [hread] at h
      contradiction
  obtain ⟨q, rfl, hbroken⟩ := broken_of_unquoted hunquoted
  exact ⟨q, rfl, hbroken.mono hpath.isInfix⟩

namespace Header

theorem eq_diff_of_modeLine? {hd : Header} {n : Nat} {line : Text} {e : ReadError}
    (h : hd.modeLine? n line = some (.error e)) : ∃ fault, e = .diff n fault := by
  unfold modeLine? at h
  repeat' split at h
  all_goals first
    | contradiction
    | exact eq_diff_of_fileType (Option.some.inj h)

theorem broken_of_moveLine? {hd : Header} {line : Text} {e : ReadError}
    (h : hd.moveLine? line = some (.error e)) : ∃ q, e = .quote q ∧ Path.Broken line q := by
  unfold moveLine? at h
  repeat' split at h
  all_goals first
    | contradiction
    | exact broken_of_map_unquoted (Option.some.inj h) (Text.suffix_of_after? (by assumption))

theorem tooManyDigits_of_scoreLine? {hd : Header} {line : Text} {e : ReadError}
    (h : hd.scoreLine? line = some (.error e)) :
    ∃ digits, scoreDigits? line = some digits ∧ Text.digitLimit < digits.length ∧
      e = .numeral (.tooManyDigits digits.length) := by
  unfold scoreLine? at h
  split at h
  . next digits hdigits =>
    split at h
    . next error hnatural =>
      cases h
      unfold Text.natural? at hnatural
      split at hnatural
      . contradiction
      . split at hnatural
        . next hlimit =>
          cases hnatural
          exact ⟨digits, hdigits, hlimit, rfl⟩
        . cases hnatural
    . cases h
    . contradiction
  . contradiction

theorem eq_diff_of_indexLine? {hd : Header} {n : Nat} {line : Text} {e : ReadError}
    (h : hd.indexLine? n line = some (.error e)) : ∃ fault, e = .diff n fault := by
  unfold indexLine? at h
  split at h
  . split at h
    . exact eq_diff_of_fileType (Option.some.inj h)
    . cases h
  . contradiction

/-- A line that is refused is at fault itself, or holds digits or a path that cannot be read. -/
theorem error_of_step {hd : Header} {n : Nat} {line : Text} {e : ReadError}
    (h : hd.step n line = .error e) :
    (∃ fault, e = .diff n fault) ∨
      (∃ digits, scoreDigits? line = some digits ∧ Text.digitLimit < digits.length ∧
        e = .numeral (.tooManyDigits digits.length)) ∨
      ∃ q, e = .quote q ∧ Path.Broken line q := by
  unfold step at h
  split at h
  . contradiction
  . next e' hline =>
    cases h
    -- the error comes from the first of the four readers that knows the line
    rcases (Option.orElse_eq_some ..).1 hline with hmode | ⟨_, hline⟩
    . exact .inl (eq_diff_of_modeLine? hmode)
    rcases (Option.orElse_eq_some ..).1 hline with hscore | ⟨_, hline⟩
    . exact .inr (.inl (tooManyDigits_of_scoreLine? hscore))
    rcases (Option.orElse_eq_some ..).1 hline with hmove | ⟨_, hindex⟩
    . exact .inr (.inr (broken_of_moveLine? hmove))
    . exact .inl (eq_diff_of_indexLine? hindex)
  . split at h
    . contradiction
    . split at h
      . contradiction
      . split at h
        . contradiction
        . cases h
          exact .inl ⟨_, rfl⟩

theorem blames_of_step {hd : Header} {n : Nat} {line : Text} {e : ReadError}
    (h : hd.step (n + 1) line = .error e) (rest : List Text) (looked : Bool) :
    HeaderBlames ⟨line :: rest, n, looked⟩ e := by
  rcases error_of_step h with ⟨fault, rfl⟩ | ⟨digits, hdigits, hlimit, rfl⟩ | ⟨q, rfl, hbroken⟩
  . exact .plain (blames_next _ fault)
  . exact .score (by simp) hdigits hlimit
  . exact .plain (.path (by simp) hbroken)

theorem line_of_step {hd : Header} {n : Nat} {line : Text} {e : ReadError}
    (h : hd.step n line = .error e) : ∀ m ∈ e.line?, m = n := by
  rcases error_of_step h with ⟨fault, rfl⟩ | ⟨digits, _, _, rfl⟩ | ⟨q, rfl, _⟩
  . rintro m ⟨⟩
    rfl
  . nofun
  . nofun

end Header

/-- The first file header is `line`; it is at fault if the input ends behind it. -/
theorem blames_of_readHunks {rest : List Text} {n : Nat} {e : ReadError} {r : LineReader}
    (h : readHunks rest (n + 1) = .error e r) (line : Text) (looked : Bool) :
    Blames ⟨line :: rest, n, looked⟩ e := by
  unfold readHunks at h
  split at h
  . cases h
    exact blames_next ⟨[line], n, looked⟩ _
  . next line' rest =>
    have hdrop : Reaches ⟨line :: line' :: rest, n, looked⟩ ⟨line' :: rest, n + 1, false⟩ :=
      .drop ..
    split at h
    . exact (Blames.of_hunk (Hunk.blames_of_readBlocks h)).of_reaches (hdrop.trans (.drop ..))
    . cases h
      exact (blames_next ⟨line' :: rest, n + 1, false⟩ _).of_reaches hdrop

theorem blames_of_readHeader {stop : Text → Bool} {hd : Header} {n : Nat} {ls : List Text}
    {e : ReadError} {r : LineReader} (h : readHeader stop hd n ls = .error e r) (looked : Bool) :
    HeaderBlames ⟨ls, n, looked⟩ e := by
  fun_induction readHeader stop hd n ls generalizing looked with
  | case1 => contradiction
  | case2 => contradiction
  | case3 hd n line rest hend e' hstep =>
    cases h
    exact Header.blames_of_step hstep rest looked
  | case4 hd n line rest hend hd' hstep ih => exact (ih h false).of_reaches (.drop ..)
  | case5 => contradiction
  | case6 => contradiction
  | case7 hd n line rest hend hstep e' r' hhunks =>
    cases h
    exact .plain (blames_of_readHunks hhunks line looked)
  | case8 => contradiction

theorem blames_of_readOne {stop : Text → Bool} {r r' : LineReader} {e : ReadError}
    (h : readOne stop r = .error e r') : HeaderBlames r e := by
  obtain ⟨ls, n, looked⟩ := r
  unfold readOne at h
  split at h
  . cases h
    exact .plain (blames_next _ _)
  . next line rest heq =>
    obtain rfl : ls = line :: rest := heq
    dsimp only at h
    split at h
    . next q hpair =>
      cases h
      have hbroken := (Path.broken_of_readPair hpair).mono (List.drop_suffix _ line).isInfix
      exact .plain (.path (by simp) hbroken)
    . cases h
      exact .plain (blames_next _ _)
    . exact (blames_of_readHeader h false).of_reaches (.drop ..)

theorem blames_of_readExtended {stop : Text → Bool} {r r' : LineReader} {e : ReadError}
    (h : readExtended stop r = .error e r') : HeaderBlames r e := by
  fun_induction readExtended stop r generalizing r' with
  | case1 => contradiction
  | case2 => contradiction
  | case3 r line rest hr hstop hheader e' r1 hone =>
    cases h
    exact blames_of_readOne hone
  | case4 r line rest hr hstop hheader p r1 hone e' r2 hps ih =>
    cases h
    exact (ih hps).of_reaches (reaches_of_readOne hone)
  | case5 => contradiction
  | case6 =>
    cases h
    exact .plain (blames_next _ _)

end Extended

end Patch

end Dvcs
