import Dvcs.Text

/-!
This module contains the kinds of files and their octal modes.
-/

namespace Dvcs

inductive FileType where
  | regular
  | executable
  | symlink
  | directory
  | gitlink
deriving DecidableEq, Repr

namespace FileType

def all : List FileType := [regular, executable, symlink, directory, gitlink]

def mode : FileType → Text
  | regular => "100644"
  | executable => "100755"
  | symlink => "120000"
  | directory => "040000"
  | gitlink => "160000"

/-- Whether the execute bit is set in one of the last three octal digits. -/
def anyExecutes (digits : Text) : Bool :=
  digits.any fun c => c = '1' || c = '3' || c = '5' || c = '7'

/-- The kind of a mode. Other modes of regular files count by their execute bits. -/
def ofMode? (t : Text) : Option FileType :=
  match all.find? (·.mode = t) with
  | some type => some type
  | none =>
    match Text.after? "100" t with
    | none => none
    | some digits =>
      if digits.length = 3 && digits.all fun c => (Text.ofString "01234567").contains c then
        some (if anyExecutes digits then executable else regular)
      else none

/-- The permission bits of regular files. -/
def permissions? : FileType → Option Nat
  | regular => some 0o644
  | executable => some 0o755
  | _ => none

end FileType

end Dvcs
