import StylePrune.Text.Basic

/-!
One kind of line end.
-/

set_option autoImplicit false

namespace StylePrune.Text

/-- Carriage returns, alone or before a line feed, become line feeds. -/
def unifyNewlines : Text → Text
  | [] => []
  | '\r' :: '\n' :: s => '\n' :: unifyNewlines s
  | c :: s => (if c = '\r' then '\n' else c) :: unifyNewlines s

end StylePrune.Text
