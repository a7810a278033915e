import Dvcs.Text

/-!
This module contains the variables that a command sees.
-/

namespace Dvcs

/-- Variables and their values. The first entry of a name counts. -/
abbrev Environment := List (Text × Text)

namespace Environment

def get? (env : Environment) (name : Text) : Option Text := env.lookup name

/-- The variables of `own` before those of `inherited`. -/
def override (own inherited : Environment) : Environment := own ++ inherited

theorem get?_override (own inherited : Environment) (name : Text) :
    (override own inherited).get? name = (own.get? name <|> inherited.get? name) := by
  induction own with
  | nil => rfl
  | cons entry own ih =>
    obtain ⟨key, value⟩ := entry
    simp only [get?, override, List.cons_append, List.lookup_cons] at ih ⊢
    split
    · rfl
    · exact ih

end Environment

end Dvcs
