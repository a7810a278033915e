import Dvcs.Proofs.Mercurial.Command

/-!
This module contains the strings of Mercurial's query language and how they are read: a name that is
written as one comes back whole, and nothing of it is read as part of the expression around it.
-/

namespace Dvcs

namespace Mercurial

/-- The symbols that a backslash takes as they are. -/
def isTaken (c : Sym) : Bool := c = '\\' || c = '\''

/-- The value of a string up to its closing quote, and what stands behind it; the opening one has
been read already. What a backslash makes of other symbols is left open. -/
def closing? (other : Sym → Text) : Text → Option (Text × Text)
  | [] => none
  | .char '\'' :: t => some ([], t)
  | .char '\\' :: c :: t =>
    (closing? other t).map fun (value, rest) =>
      ((if isTaken c then [c] else other c) ++ value, rest)
  | c :: t => (closing? other t).map fun (value, rest) => (c :: value, rest)

/-- The value of the string that a text begins with, and what stands behind it. -/
def literal? (other : Sym → Text) : Text → Option (Text × Text)
  | .char '\'' :: t => closing? other t
  | _ => none

/-- A symbol inside of a string. -/
def escaped (c : Sym) : Text := if isTaken c then ['\\', c] else [c]

/-- The second replacement leaves what the first one puts in. -/
theorem symbol_eq (name : Text) : symbol name = "'" ++ name.flatMap escaped ++ "'" := by
  have hone (c : Sym) :
      (if c = '\\' then (Text.ofString "\\\\") else [c]).flatMap
        (fun d : Sym => if d = '\'' then (Text.ofString "\\'") else [d]) = escaped c := by
    unfold escaped isTaken
    by_cases hslash : c = '\\'
    . subst hslash
      rfl
    . by_cases hquote : c = '\''
      . subst hquote
        rfl
      . simp [hslash, hquote]
  unfold symbol replaced
  rw [List.flatMap_assoc, List.flatMap_def, List.flatMap_def, List.map_congr_left fun c _ => hone c]

variable {other : Sym → Text}

theorem closing?_cons {c : Sym} (hquote : c ≠ '\'') (hslash : c ≠ '\\') (t : Text) :
    closing? other (c :: t) = (closing? other t).map fun (value, rest) => (c :: value, rest) := by
  rw [closing?]
  . exact fun heq => hquote heq
  . exact fun _ _ heq _ => hslash heq

theorem closing?_escaped (c : Sym) (t : Text) :
    closing? other (escaped c ++ t) =
      (closing? other t).map fun (value, rest) => (c :: value, rest) := by
  unfold escaped
  cases htaken : isTaken c with
  | true =>
    have hmarked : closing? other ('\\' :: c :: t) = (closing? other t).map fun (value, rest) =>
        ((if isTaken c then [c] else other c) ++ value, rest) := rfl
    rw [htaken] at hmarked
    exact hmarked
  | false =>
    simp only [isTaken, Bool.or_eq_false_iff, decide_eq_false_iff_not] at htaken
    exact closing?_cons htaken.2 htaken.1 t

theorem closing?_flatMap_escaped (name rest : Text) :
    closing? other (name.flatMap escaped ++ (.char '\'' :: rest)) = some (name, rest) := by
  induction name with
  | nil => rfl
  | cons c name ih =>
    rw [List.flatMap_cons, List.append_assoc, closing?_escaped, ih, Option.map_some]

theorem literal?_symbol_append (name rest : Text) :
    literal? other (symbol name ++ rest) = some (name, rest) := by
  have htext : symbol name ++ rest =
      .char '\'' :: (name.flatMap escaped ++ (.char '\'' :: rest)) := by
    rw [symbol_eq]
    simp [Text.ofString]
  rw [htext]
  exact closing?_flatMap_escaped name rest

theorem traces_resolve (places : Places) (r : WorkingCopy) (revision : Revision) :
    Op.Traces places (resolve r revision)
      (RunsOnce r ["log", "--rev=" ++ committed revision, hashTemplate] fun _ _ => True) := by
  refine traces_run_bind .refused fun s hruns => ?_
  split
  . refine (Op.Traces.ofExcept (Q := fun steps _ => steps = []) rfl).bind ?_ ?_
    . rintro steps e rfl
      exact .ran hruns trivial
    . rintro steps a rfl
      exact .pure (.ran hruns trivial)
  . exact .pure (.ran hruns trivial)

/-- The command that an operation runs, if any, has a revset that is a string for a name, in
parentheses, and the exclusion of the working directory behind them. -/
def AsksByLiteral (r : WorkingCopy) (name : Text) (steps : List Step)
    (result : Except Error (Option Hash)) : Prop :=
  ∃ inner, RunsOnce r ["log", "--rev=(" ++ inner, hashTemplate] (fun _ _ => True) steps result ∧
    ∀ other, literal? other inner = some (name, Text.ofString ") and not wdir()")

theorem traces_resolve_symbol {revision : Revision} {name : Text}
    (hrevision : expression revision = symbol name) (r : WorkingCopy) (places : Places) :
    Op.Traces places (resolve r revision) (AsksByLiteral r name) := by
  refine (traces_resolve places r revision).mono fun steps result h => ?_
  refine ⟨symbol name ++ ") and not wdir()", ?_, fun _ => literal?_symbol_append _ _⟩
  have htext :
      "--rev=(" ++ (symbol name ++ ") and not wdir()") = "--rev=" ++ committed revision := by
    unfold committed
    rw [hrevision]
    simp [Text.ofString]
  rwa [htext]

/-- A name that is written as a string is read back up to the last symbol of it, whatever stands
behind; so a branch or a tag is asked for by its name, whatever the name holds. Only with a null
character in it there is no question at all. -/
theorem resolve_literal (other : Sym → Text) (name rest : Text) (r : WorkingCopy)
    (places : Places) :
    literal? other (symbol name ++ rest) = some (name, rest) ∧
    Op.Traces places (resolve r (.branch ⟨name⟩)) (AsksByLiteral r name) ∧
    Op.Traces places (resolve r (.tag ⟨name⟩)) (AsksByLiteral r name) :=
  ⟨literal?_symbol_append name rest, traces_resolve_symbol rfl r places,
    traces_resolve_symbol rfl r places⟩

end Mercurial

end Dvcs
