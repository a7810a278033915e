import Dvcs.Patch.Extended
import Dvcs.Proofs.Hash
import Dvcs.Proofs.Path.Quoted
import Dvcs.Proofs.Range

/-!
This module contains the reading of single header lines: what each line that a patch is written with
does to the header that has been read so far.
-/

namespace Dvcs

namespace Patch

open Text

theorem dropNewline_of_plain {t : Text} (h : Plain t) : dropNewline t = t :=
  Range.dropNewline_of_not_mem h.not_mem_newline

theorem fileType_mode (type : FileType) (n : Nat) : fileType type.mode n = .ok type := by
  cases type <;> rfl

theorem plain_mode (type : FileType) : Plain type.mode := by
  cases type <;> decide

theorem unquoted_quote {t : Text} (h : FromBytes t) : unquoted (Path.quote t) = .ok t := by
  unfold unquoted
  rw [Path.unquote_quote h]

theorem isHexDigit_of_isHexDigit {s : Sym} (h : Hash.isHexDigit s = true) :
    isHexDigit s = true := by
  cases s with
  | char c =>
    simp only [Hash.isHexDigit, Bool.or_eq_true] at h
    simp only [isHexDigit, Bool.or_eq_true]
    exact .inl h
  | byte b => simp [Hash.isHexDigit] at h

theorem span_isHexDigit_hex (h : Hash) (rest : Text)
    (hrest : ∀ s ∈ rest.head?, isHexDigit s = false) :
    (h.hex ++ rest).span isHexDigit = (h.hex, rest) :=
  span_append (fun _ hs => isHexDigit_of_isHexDigit (Hash.isHexDigit_of_mem hs)) hrest

theorem isSome_cutLast?_append {s t : Text} (hs : s ≠ []) (ht : t ≠ []) (sep : Text) :
    (cutLast? sep (s ++ sep ++ t)).isSome = true := by
  induction s with
  | nil => contradiction
  | cons c s ih =>
    rw [List.cons_append, List.cons_append, cutLast?]
    split
    . rfl
    . next hnone =>
      cases s with
      | nil =>
        obtain ⟨d, t, rfl⟩ := List.exists_cons_of_ne_nil ht
        simp
      | cons d s =>
        have := ih (by simp)
        rw [hnone] at this
        contradiction

theorem binaryNames?_notice {old new : Text} (hold : Plain old) (hnew : Plain new) :
    binaryNames? ("Binary files " ++ old ++ " and " ++ new ++ " differ") =
      cutLast? " and " (old ++ " and " ++ new) := by
  have hafter : after? "Binary files " ("Binary files " ++ old ++ " and " ++ new ++ " differ") =
      some (old ++ " and " ++ new ++ " differ") := by
    simp only [List.append_assoc, after?_append]
  have hbehind : Plain (old ++ " and " ++ new) := by
    simp only [plain_append]
    exact ⟨⟨hold, by decide⟩, hnew⟩
  have hbreak : (old ++ " and " ++ new).contains (.char '\n') = false := by
    simpa using hbehind.not_mem_newline
  unfold binaryNames?
  rw [hafter]
  simp only [Option.bind_eq_bind, Option.bind_some]
  rw [dropNewline_of_plain (plain_append.2 ⟨hbehind, by decide⟩)]
  rw [before?_append]
  simp only [Option.bind_some, hbreak, Bool.false_eq_true, ↓reduceIte]

/-- The mode on an index line. -/
def modeSuffix : Option FileType → Text
  | some type => " " ++ type.mode
  | none => []

def indexLine (s t : Hash) (type : Option FileType) : Text :=
  "index " ++ s.hex ++ ".." ++ t.hex ++ modeSuffix type

theorem plain_indexLine (s t : Hash) (type : Option FileType) : Plain (indexLine s t type) := by
  unfold indexLine
  simp only [plain_append]
  have hsuffix : Plain (modeSuffix type) := by
    cases type with
    | none => decide
    | some type => exact plain_append.2 ⟨by decide, plain_mode type⟩
  exact ⟨⟨⟨⟨by decide, Hash.plain_hex s⟩, by decide⟩, Hash.plain_hex t⟩, hsuffix⟩

theorem indexFields?_indexLine (s t : Hash) (type : Option FileType) :
    indexFields? (indexLine s t type) = some (s.hex, t.hex, type.map FileType.mode) := by
  have hsource := span_isHexDigit_hex s (".." ++ (t.hex ++ modeSuffix type))
    (by simp [ofString, isHexDigit])
  have htarget := span_isHexDigit_hex t (modeSuffix type)
    (by cases type <;> simp [modeSuffix, ofString, isHexDigit])
  unfold indexFields?
  rw [dropNewline_of_plain (plain_indexLine s t type)]
  unfold indexLine
  simp only [List.append_assoc, after?_append, Option.bind_eq_bind, Option.bind_some, hsource,
    htarget]
  have hs : s.hex.isEmpty = false := by simpa using s.hex_ne_nil
  have ht : t.hex.isEmpty = false := by simpa using t.hex_ne_nil
  simp only [hs, ht, Bool.or_self, Bool.false_eq_true, ↓reduceIte]
  cases type with
  | none => rfl
  | some type => cases type <;> rfl

namespace Header

theorem step_oldMode (h : Header) (n : Nat) (type : FileType) :
    h.step n ("old mode " ++ type.mode) = .ok (.header { h with sourceType := some type }) := by
  cases type <;> rfl

theorem step_newMode (h : Header) (n : Nat) (type : FileType) :
    h.step n ("new mode " ++ type.mode) = .ok (.header { h with targetType := some type }) := by
  cases type <;> rfl

theorem step_newFileMode (h : Header) (n : Nat) (type : FileType) :
    h.step n ("new file mode " ++ type.mode) =
      .ok (.header { h with status := .added, targetType := some type }) := by
  cases type <;> rfl

theorem step_deletedFileMode (h : Header) (n : Nat) (type : FileType) :
    h.step n ("deleted file mode " ++ type.mode) =
      .ok (.header { h with status := .deleted, sourceType := some type }) := by
  cases type <;> rfl

theorem scoreLine?_of_after? (h : Header) {line : Text} (hplain : Plain line)
    (hnone : after? "similarity index " (dropStart "dis" line) = none) :
    h.scoreLine? line = none := by
  unfold scoreLine? scoreDigits?
  rw [dropNewline_of_plain hplain, hnone]
  rfl

theorem indexLine?_of_after? (h : Header) (n : Nat) {line : Text} (hplain : Plain line)
    (hnone : after? "index " line = none) : h.indexLine? n line = none := by
  unfold indexLine? indexFields?
  rw [dropNewline_of_plain hplain, hnone]
  rfl

theorem step_path {h : Header} {n : Nat} (verb : String) {update : Text → Header} {path : Text}
    (hpath : FromBytes path) (hverb : Plain verb)
    (hmode : ∀ t, h.modeLine? n (verb ++ t) = none)
    (hscore : ∀ t, after? "similarity index " (dropStart "dis" (verb ++ t)) = none)
    (hmove : ∀ t, h.moveLine? (verb ++ t) = some (update <$> unquoted t)) :
    h.step n (verb ++ Path.quote path) = .ok (.header (update path)) := by
  have hplain : Plain (verb ++ Path.quote path) := plain_append.2 ⟨hverb, Path.plain_quote path⟩
  unfold step
  rw [hmode, scoreLine?_of_after? h hplain (hscore _), hmove, unquoted_quote hpath]
  rfl

theorem step_renameFrom (h : Header) (n : Nat) {path : Text} (hpath : FromBytes path) :
    h.step n ("rename from " ++ Path.quote path) =
      .ok (.header { h with status := .renamed, sourcePath := path }) :=
  step_path "rename from " hpath (by decide) (fun _ => rfl) (fun _ => rfl) fun _ => rfl

theorem step_renameTo (h : Header) (n : Nat) {path : Text} (hpath : FromBytes path) :
    h.step n ("rename to " ++ Path.quote path) = .ok (.header { h with targetPath := path }) :=
  step_path "rename to " hpath (by decide) (fun _ => rfl) (fun _ => rfl) fun _ => rfl

theorem step_copyFrom (h : Header) (n : Nat) {path : Text} (hpath : FromBytes path) :
    h.step n ("copy from " ++ Path.quote path) =
      .ok (.header { h with status := .copied, sourcePath := path }) :=
  step_path "copy from " hpath (by decide) (fun _ => rfl) (fun _ => rfl) fun _ => rfl

theorem step_copyTo (h : Header) (n : Nat) {path : Text} (hpath : FromBytes path) :
    h.step n ("copy to " ++ Path.quote path) = .ok (.header { h with targetPath := path }) :=
  step_path "copy to " hpath (by decide) (fun _ => rfl) (fun _ => rfl) fun _ => rfl

theorem step_score (h : Header) (n : Nat) {score : Nat}
    (hscore : (ofNat score).length ≤ digitLimit) :
    h.step n ("similarity index " ++ ofNat score ++ "%") =
      .ok (.header { h with score := some score }) := by
  have hplain : Plain ("similarity index " ++ ofNat score ++ "%") := by
    simp only [plain_append]
    exact ⟨⟨by decide, plain_ofNat score⟩, by decide⟩
  have hdigits : scoreDigits? ("similarity index " ++ ofNat score ++ "%") = some (ofNat score) := by
    have hall : (ofNat score).all Sym.isDigit = true :=
      List.all_eq_true.2 fun _ => isDigit_of_mem_ofNat'
    have hstart : dropStart "dis" ("similarity index " ++ ofNat score ++ "%") =
        "similarity index " ++ (ofNat score ++ "%") := rfl
    unfold scoreDigits?
    rw [dropNewline_of_plain hplain, hstart]
    simpa using hall
  have hline : h.scoreLine? ("similarity index " ++ ofNat score ++ "%") =
      some (.ok { h with score := some score }) := by
    unfold scoreLine?
    rw [hdigits]
    simp only [natural?_ofNat hscore]
  have hmode : h.modeLine? n ("similarity index " ++ ofNat score ++ "%") = none := rfl
  unfold step
  rw [hmode, hline]
  rfl

theorem step_indexLine (h : Header) (n : Nat) (s t : Hash) (type : Option FileType) :
    h.step n (indexLine s t type) =
      .ok (.header { h with
        sourceHash := some s
        targetHash := some t
        indexType := type <|> h.indexType }) := by
  have hmode : h.modeLine? n (indexLine s t type) = none := rfl
  have hscore : h.scoreLine? (indexLine s t type) = none :=
    scoreLine?_of_after? h (plain_indexLine s t type) rfl
  have hmove : h.moveLine? (indexLine s t type) = none := rfl
  unfold step
  rw [hmode, hscore, hmove]
  unfold indexLine?
  rw [indexFields?_indexLine]
  cases type with
  | none => simp [Hash.ofText?_hex]
  | some type =>
    simp [Hash.ofText?_hex, fileType_mode, Functor.map, Except.map]

theorem step_of_content (h : Header) (n : Nat) {line : Text} (hplain : Plain line)
    (hmode : h.modeLine? n line = none)
    (hscore : after? "similarity index " (dropStart "dis" line) = none)
    (hmove : h.moveLine? line = none) (hindex : after? "index " line = none) :
    h.step n line =
      if (binaryNames? line).isSome then .ok .binaryNotice
      else if line = "GIT binary patch" then .ok .binaryPayload
      else if line.startsWith "--- " then .ok .fileHeader
      else .error (.diff n (.unexpectedHeaderLine line)) := by
  unfold step
  rw [hmode, hmove]
  rw [scoreLine?_of_after? h hplain hscore]
  rw [indexLine?_of_after? h n hplain hindex]
  rfl

theorem step_fileHeader (h : Header) (n : Nat) {label : Text} (hlabel : Plain label) :
    h.step n ("--- " ++ label) = .ok .fileHeader := by
  have hplain : Plain ("--- " ++ label) := plain_append.2 ⟨by decide, hlabel⟩
  rw [step_of_content h n hplain rfl rfl rfl rfl]
  rfl

theorem step_binaryNotice (h : Header) (n : Nat) {old new : Text} (hold : Plain old)
    (hnew : Plain new) (hold' : old ≠ []) (hnew' : new ≠ []) :
    h.step n ("Binary files " ++ old ++ " and " ++ new ++ " differ") = .ok .binaryNotice := by
  have hplain : Plain ("Binary files " ++ old ++ " and " ++ new ++ " differ") := by
    simp only [plain_append]
    exact ⟨⟨⟨⟨by decide, hold⟩, by decide⟩, hnew⟩,
      by decide⟩
  rw [step_of_content h n hplain rfl rfl rfl rfl]
  rw [binaryNames?_notice hold hnew, isSome_cutLast?_append hold' hnew' " and "]
  rfl

end Header

end Patch

end Dvcs
