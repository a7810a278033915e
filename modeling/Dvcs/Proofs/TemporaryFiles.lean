import Dvcs.Proofs.Git.Scratch
import Dvcs.Proofs.Mercurial.Scratch

/-!
This module contains the life of the temporary files of both backends, for every operation that uses
one and all ways in which its commands can go.
-/

namespace Dvcs

open Mercurial

/-- The lines of the extension that register the commands of history and diffs. -/
def registrations : List String :=
  ["    b\"repokit-log\",", "@command(b\"repokit-diff\", [], b\"FROM [TO]\")"]

theorem infix_extensionSource {line : String} (h : line ∈ extensionLines) :
    Text.encode (Text.ofString line ++ "\n") <:+: extensionSource :=
  List.infix_of_mem_flatten (List.mem_map_of_mem h)

/-- A temporary file is there as long as the commands need it that are told about it, and no longer.
Only an operation that is refused its command for a null character has made one for nothing. The
file of the extension holds the commands that history and diffs are read by. -/
theorem temporaryFiles_live (hg git : WorkingCopy) (w : World) :
    (∀ operation scratch, Operation.Uses operation scratch →
      w.UsesTemp (w.scratchDirectory hg.temporary) scratch
        (((operation.run hg).perform w).1 = .error .nullCharacter)
        ((operation.run hg).perform w).2) ∧
    (∀ change force, Git.UsesTemp w (w.scratchDirectory git.temporary) change.scratch?
      (((Git.repository git).apply change force).perform w).2) ∧
    ∀ line ∈ registrations, Text.encode (Text.ofString line ++ "\n") <:+: extensionSource := by
  refine ⟨fun _ _ h => (scopes_run h w).usesTemp, fun _ _ => Git.usesTemp_apply git _ _ w, ?_⟩
  have hregistered : ∀ line ∈ registrations, line ∈ extensionLines := by decide +kernel
  exact fun line hline => infix_extensionSource (hregistered line hline)

/-- A world in which an export writes a patch that cannot be imported again. -/
def exportingWorld : World where
  files := ⟨[(["tmp"], .directory)]⟩
  responses :=
    [{ stdout := Text.encode "0123456789abcdef0123456789abcdef01234567\n" },
      { output := .write [35] }, {}, { status := 1 }]

/-- The temporary files that the commands have found, the last command first. -/
def foundFiles (w : World) : List (List (Path × Bytes)) :=
  w.log.filterMap fun
    | .command invocation => some invocation.present
    | _ => none

def exportingCopy : WorkingCopy := ⟨.mercurial, ⟨"/", ["work"]⟩, "hg", none⟩

/-- The export finds an empty file, the strip and the import find what it has written. -/
theorem temporaryFiles_live_squash :
    let path : Path := ⟨"/", ["tmp", "repokit-0.patch"]⟩
    let run := ((Operation.squash .null).run exportingCopy).perform exportingWorld
    (Operation.squash .null).Uses (some exported) ∧
      exportingWorld.UsesTemp ⟨"/", ["tmp"]⟩ (some exported) (run.1 = .error .nullCharacter) run.2 ∧
      foundFiles run.2 = [[(path, [35])], [(path, [35])], [(path, [])], []] ∧
      run.2.living = [] ∧ run.2.files.has path = false :=
  ⟨.squash _,
    (temporaryFiles_live exportingCopy exportingCopy exportingWorld).1 _ _ (.squash .null),
    by decide +kernel, by decide +kernel, by decide +kernel⟩

end Dvcs
