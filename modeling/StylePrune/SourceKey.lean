import StylePrune.Url
import StylePrune.Path

/-!
The key of a stylesheet: its path below the document root, or a fixed word for styles inside the page.
-/

set_option autoImplicit false

namespace StylePrune.SourceKey

/-- Stands for styles that are written in the page itself. -/
def inline : Text := "inline"

/-- The key that a reference or locator has: its path without leading slashes. A reference without
path is its own key. -/
def ofReference (s : Text) : Except Url.Error Text :=
  if s = inline then .ok s
  else (Url.parse s).map fun u => (if u.path = [] then s else u.path).dropWhile (· = .char '/')

/-- The locator of a page file below the root of its site, both absolute. -/
def pageUrl (page root : Text) : Text := '/' :: Path.relative root page

end StylePrune.SourceKey
