import Dvcs.Process.Environment
import Dvcs.Text.Space

/-!
This module contains the reading of environment files. A file binds names to values, one after the
other: `NAME=value`, possibly with `export` in front, quotes around the value and comments. What
cannot be read is passed over up to the end of its line.
-/

namespace Dvcs

namespace EnvFile

/-- A name in an environment file; the value is missing if there is no equals sign. -/
structure Binding where
  name : Text
  value : Option Text
deriving DecidableEq, Repr

def isLineFeed (s : Sym) : Bool := s = .char '\n'

/-- White space that does not end the line. -/
def isInlineBlank (s : Sym) : Bool := s.isSpace && !isLineFeed s

def isNameSym (s : Sym) : Bool := s ≠ .char '=' && s ≠ .char '#' && !s.isSpace

def isNot (c : Char) (s : Sym) : Bool := s ≠ .char c

def dropLine (t : Text) : Text := t.dropWhile (!isLineFeed ·)

def dropBlanks (t : Text) : Text := t.dropWhile isInlineBlank

/-- A text without the word `export` and the blanks behind it. -/
def dropExport (t : Text) : Text :=
  match Text.after? "export" t with
  | some (c :: rest) => if isInlineBlank c then dropBlanks rest else t
  | _ => t

/-- The name at the front, and the text behind it. -/
def readName (t : Text) : Option (Text × Text) :=
  match t with
  | .char '\'' :: rest =>
    match rest.takeWhile (isNot '\''), rest.dropWhile (isNot '\'') with
    | c :: name, _ :: behind => some (c :: name, behind)
    | _, _ => none
  | _ =>
    match t.takeWhile isNameSym with
    | [] => none
    | name => some (name, t.dropWhile isNameSym)

/-- What stands before the closing quote, and what behind it. A backslash takes the symbol behind it
along, which therefore closes nothing. -/
def untilQuote (q : Char) : Text → Option (Text × Text)
  | [] => none
  | .char '\\' :: s :: t =>
    (untilQuote q t).map fun (value, behind) => (.char '\\' :: s :: value, behind)
  | s :: t =>
    if s = .char q then some ([], t)
    else (untilQuote q t).map fun (value, behind) => (s :: value, behind)

/-- Escapes between single quotes. -/
def singleEscapes : List (Char × Char) := [('\\', '\\'), ('\'', '\'')]

/-- Escapes between double quotes. -/
def doubleEscapes : List (Char × Char) :=
  singleEscapes ++
    [('"', '"'), ('a', '\x07'), ('b', '\x08'), ('f', '\x0c'), ('n', '\n'), ('r', '\r'), ('t', '\t'),
      ('v', '\x0b')]

/-- Replaces every backslash that stands before a character of the list. -/
def unescape (escapes : List (Char × Char)) : Text → Text
  | [] => []
  | .char '\\' :: .char c :: t =>
    match escapes.lookup c with
    | some d => .char d :: unescape escapes t
    | none => .char '\\' :: unescape escapes (.char c :: t)
  | s :: t => s :: unescape escapes t

/-- A line up to a number sign that has white space in front. -/
def withoutComment : Text → Text
  | [] => []
  | s :: t => if s.isSpace && t.head? = some (.char '#') then [] else s :: withoutComment t

/-- The value behind an equals sign, and the text behind the value. The blanks in front belong to
the line: a number sign behind them begins a comment, one right behind the equals sign does not. -/
def readValue (t : Text) : Option (Text × Text) :=
  match dropBlanks t with
  | .char '\'' :: rest =>
    (untilQuote '\'' rest).map fun (v, behind) => (unescape singleEscapes v, behind)
  | .char '"' :: rest =>
    (untilQuote '"' rest).map fun (v, behind) => (unescape doubleEscapes v, behind)
  | _ => some ((withoutComment (t.takeWhile (!isLineFeed ·))).trim, dropLine t)

/-- Whether nothing but a comment stands before the end of the line. -/
def endsLine (t : Text) : Bool :=
  match dropBlanks t with
  | [] => true
  | s :: _ => isLineFeed s || s = .char '#'

def bindingIf (holds : Bool) (b : Binding) : Option Binding := if holds then some b else none

/-- Reads the binding at the front of a text, if there is one. The text behind it starts where the
reading stopped. -/
def readBinding (t : Text) : Option Binding × Text :=
  match readName (dropExport t) with
  | none => (none, dropExport t)
  | some (name, rest) =>
    match dropBlanks rest with
    | .char '=' :: rest =>
      match readValue rest with
      | none => (none, rest)
      | some (value, behind) => (bindingIf (endsLine behind) ⟨name, some value⟩, behind)
    | rest => (bindingIf (endsLine rest) ⟨name, none⟩, rest)

theorem dropExport_suffix (t : Text) : dropExport t <:+ t := by
  unfold dropExport
  split
  · next c rest h =>
    have := Text.eq_append_of_after? h
    split
    · exact (List.dropWhile_suffix _).trans ⟨Text.ofString "export" ++ [c], by simp [this]⟩
    · exact List.suffix_refl t
  · exact List.suffix_refl t

theorem readName_suffix {t name behind : Text} (h : readName t = some (name, behind)) :
    behind <:+ t := by
  unfold readName at h
  split at h
  · next rest =>
    split at h
    · next c name' q behind' h1 h2 =>
      cases h
      have : q :: behind <:+ rest := h2 ▸ List.dropWhile_suffix _
      exact ((List.suffix_cons q behind).trans this).trans (List.suffix_cons _ rest)
    · cases h
  · split at h
    · cases h
    · cases h
      exact List.dropWhile_suffix _

theorem untilQuote_suffix {q : Char} {t value behind : Text}
    (h : untilQuote q t = some (value, behind)) : behind <:+ t := by
  fun_induction untilQuote q t generalizing value behind with
  | case1 => simp at h
  | case2 s t ih =>
    obtain ⟨⟨v, b⟩, hv, heq⟩ := Option.map_eq_some_iff.1 h
    cases heq
    exact (ih hv).trans ((List.suffix_cons s t).trans (List.suffix_cons _ _))
  | case3 =>
    cases h
    exact List.suffix_cons _ _
  | case4 s t hs hq ih =>
    obtain ⟨⟨v, b⟩, hv, heq⟩ := Option.map_eq_some_iff.1 h
    cases heq
    exact (ih hv).trans (List.suffix_cons _ _)

theorem dropBlanks_suffix (t : Text) : dropBlanks t <:+ t := List.dropWhile_suffix _

theorem readValue_suffix {t value behind : Text} (h : readValue t = some (value, behind)) :
    behind <:+ t := by
  unfold readValue at h
  split at h
  · next rest hb =>
    obtain ⟨⟨v, b⟩, hv, heq⟩ := Option.map_eq_some_iff.1 h
    cases heq
    exact (untilQuote_suffix hv).trans
      ((List.suffix_cons _ rest).trans (hb ▸ dropBlanks_suffix t))
  · next rest hb =>
    obtain ⟨⟨v, b⟩, hv, heq⟩ := Option.map_eq_some_iff.1 h
    cases heq
    exact (untilQuote_suffix hv).trans
      ((List.suffix_cons _ rest).trans (hb ▸ dropBlanks_suffix t))
  · cases h
    exact List.dropWhile_suffix _

theorem readBinding_suffix (t : Text) : (readBinding t).2 <:+ t := by
  unfold readBinding
  split
  · exact dropExport_suffix t
  · next name rest hn =>
    have hrest : dropBlanks rest <:+ t :=
      (dropBlanks_suffix rest).trans ((readName_suffix hn).trans (dropExport_suffix t))
    split
    · next rest' hb =>
      have hrest' : rest' <:+ t := (List.suffix_cons _ rest').trans (hb ▸ hrest)
      split
      · exact hrest'
      · next hv => exact (readValue_suffix hv).trans hrest'
    · exact hrest

theorem length_dropLine_of_suffix {c : Sym} {t rest : Text} (hc : c.isSpace = false)
    (h : t <:+ c :: rest) : (dropLine t).length ≤ rest.length := by
  rcases List.suffix_cons_iff.1 h with rfl | h
  · have hc : c ≠ .char '\n' := by
      rintro rfl
      revert hc
      decide
    have : (!isLineFeed c) = true := by simp [isLineFeed, hc]
    simp only [dropLine, List.dropWhile_cons, this, if_true]
    exact (List.dropWhile_suffix _).length_le
  · exact Nat.le_trans (List.dropWhile_suffix _).length_le h.length_le

theorem isSpace_of_dropWhile_eq_cons {t rest : Text} {c : Sym}
    (h : t.dropWhile Sym.isSpace = c :: rest) : c.isSpace = false := by
  induction t with
  | nil => simp at h
  | cons s t ih =>
    simp only [List.dropWhile_cons] at h
    split at h
    · exact ih h
    · cases h
      simp_all

theorem length_lt_of_dropWhile_eq_cons {p : Sym → Bool} {t rest : Text} {c : Sym}
    (h : t.dropWhile p = c :: rest) : rest.length < t.length := by
  have := (List.dropWhile_suffix (l := t) p).length_le
  rw [h] at this
  simp at this
  omega

/-- All bindings of a file in their order. -/
def bindings (t : Text) : List Binding :=
  match _h : t.dropWhile Sym.isSpace with
  | [] => []
  | c :: rest =>
    (readBinding (c :: rest)).1.toList ++ bindings (dropLine (readBinding (c :: rest)).2)
termination_by t.length
decreasing_by
  have h1 :=
    length_dropLine_of_suffix (isSpace_of_dropWhile_eq_cons _h) (readBinding_suffix (c :: rest))
  have h2 := length_lt_of_dropWhile_eq_cons _h
  omega

/-- Reads the inner part of a reference to a variable: its name, what stands for it if it is not
set, and the text behind the closing brace. -/
def readReference (t : Text) : Option (Text × Text × Text) :=
  let inName (s : Sym) : Bool := isNot '\x7d' s && isNot ':' s
  match t.dropWhile inName with
  | .char '\x7d' :: behind => some (t.takeWhile inName, [], behind)
  | .char ':' :: .char '-' :: rest =>
    match rest.dropWhile (isNot '\x7d') with
    | _ :: behind => some (t.takeWhile inName, rest.takeWhile (isNot '\x7d'), behind)
    | [] => none
  | _ => none

theorem length_of_readReference {t name other behind : Text}
    (h : readReference t = some (name, other, behind)) : behind.length < t.length := by
  unfold readReference at h
  simp only at h
  split at h
  · next hb =>
    cases h
    exact length_lt_of_dropWhile_eq_cons hb
  · next rest hb =>
    have h1 := length_lt_of_dropWhile_eq_cons hb
    split at h
    · next hr =>
      cases h
      have h2 := length_lt_of_dropWhile_eq_cons hr
      simp at h1
      omega
    · cases h
  · cases h

/-- Puts the values of variables in the place of references to them. -/
def expand (env : Environment) (t : Text) : Text :=
  match t with
  | .char '$' :: .char '\x7b' :: rest =>
    match _h : readReference rest with
    | some (name, other, behind) => (env.get? name).getD other ++ expand env behind
    | none => .char '$' :: expand env (.char '\x7b' :: rest)
  | s :: rest => s :: expand env rest
  | [] => []
termination_by t.length
decreasing_by
  · have := length_of_readReference _h
    simp
    omega
  · simp
  · simp

/-- Names with their values, in the order of their first binding. -/
abbrev Values := List (Text × Option Text)

namespace Values

/-- Gives a name its value, which replaces an earlier one. -/
def put (vs : Values) (name : Text) (value : Option Text) : Values :=
  if vs.any (·.1 = name) then vs.map fun entry => if entry.1 = name then (name, value) else entry
  else vs ++ [(name, value)]

/-- The values as variables; a missing value is empty. -/
def toEnvironment (vs : Values) : Environment := vs.map fun (name, value) => (name, value.getD [])

end Values

/-- Evaluates bindings one after the other. A value can refer to those before it and to
`inherited`. -/
def evaluate (inherited : Environment) (bs : List Binding) : Values :=
  bs.foldl (fun vs b =>
    vs.put b.name (b.value.map (expand (vs.toEnvironment.override inherited)))) []

/-- The mark of byte order, which a file may start with. -/
def byteOrderMark : Text := "\ufeff"

/-- The values that the text of a file binds. -/
def read (inherited : Environment) (t : Text) : Values :=
  evaluate inherited (bindings (Text.dropStart byteOrderMark t).unifyNewlines)

end EnvFile

end Dvcs
