import Dvcs.Text

/-!
This module contains what the command line expects of a console: it prints texts with markup and
tables whose cells have markup.
-/

namespace Dvcs

namespace Console

structure Table where
  heading : List Text
  rows : List (List Text)
deriving DecidableEq, Repr

/-- Why something cannot be printed, in the words of the console. -/
structure Fault where
  message : Text
deriving DecidableEq, Repr

end Console

/-- A console, as the bytes that come of what is printed on it. -/
structure Console where
  text : Text → Except Console.Fault Bytes
  table : Console.Table → Except Console.Fault Bytes

end Dvcs
