import Dvcs.Text.Space

/-!
This module contains the people that history records.
-/

namespace Dvcs

structure Author where
  name : Text
  email : Option Text := none
deriving DecidableEq, Repr

namespace Author

/-- The address in a text that is `<address>` but for the blanks around it. -/
def address? (t : Text) : Option Text :=
  match t.dropWhile Sym.isSpace with
  | .char '<' :: t =>
    let address := t.takeWhile (· ≠ .char '>')
    match t.drop address.length with
    | .char '>' :: rest => if rest.all Sym.isSpace then some address else none
    | _ => none
  | _ => none

/-- Cuts at the first place from where the text is an address. The part before stays on one line. -/
def split? : Text → Option (Text × Text)
  | [] => none
  | c :: t =>
    match address? (c :: t) with
    | some address => some ([], address)
    | none =>
      if c = .char '\n' then none
      else (split? t).map fun (name, address) => (c :: name, address)

/-- An empty address counts as none. -/
def email? (address : Text) : Option Text := if address.isEmpty then none else some address

/-- Reads the usual form `Name <address>`; without an address the whole text is the name. -/
def ofText (t : Text) : Author :=
  match split? t with
  | some (name, address) => ⟨name.trim, email? address.trim⟩
  | none => ⟨t.trim, none⟩

def toText (a : Author) : Text :=
  match a.email.bind email? with
  | some address => a.name ++ " <" ++ address ++ ">"
  | none => a.name

end Author

end Dvcs
