import StylePrune.Text.Basic

/-!
Blank characters in the sense of Unicode: what a selector text may hold as spacing.
-/

set_option autoImplicit false

namespace StylePrune.Text

/-- White space of Unicode and the four information separators. -/
def isBlank (c : CodePoint) : Bool :=
  let n := c.toNat
  (9 ≤ n && n ≤ 13) || (0x1C ≤ n && n ≤ 0x20) || n == 0x85 || n == 0xA0 || n == 0x1680 ||
  (0x2000 ≤ n && n ≤ 0x200A) || n == 0x2028 || n == 0x2029 || n == 0x202F || n == 0x205F || n == 0x3000

def strip (s : Text) : Text := trim isBlank s

/-- Every run of blanks becomes one space. -/
def collapseBlanks : Text → Text
  | [] => []
  | c :: s =>
    if isBlank c then
      match s with
      | d :: _ => if isBlank d then collapseBlanks s else ' ' :: collapseBlanks s
      | [] => [' ']
    else c :: collapseBlanks s

/-- The pieces between runs of blanks, none of them empty. -/
def words (s : Text) : List Text := (splitWhen isBlank s).filter (· ≠ [])

end StylePrune.Text
