import StylePrune.Command.Scan

/-!
How the command is called, and how failures are told.
-/

set_option autoImplicit false

namespace StylePrune.Command

def usage : List Text := [
  "usage: css-pruner scan [-h] [--root ROOT] [--url URL] [--report ENDPOINT]",
  "                       [--action save|generate] [--timeout SECONDS] [--watch] page"]

def Failure.message : Failure → Text
  | .file e => e.message
  | .badName b => b.message
  | .notUtf8 => "The page is not UTF-8"
  | .markup .strangeSection => "The page cannot be read as HTML"
  | .markup (.tooLong t) => t.message
  | .scan e => e.message
  | .noObject => "The endpoint's answer is not an object"
  | .tooDeep t => t.message

end StylePrune.Command
