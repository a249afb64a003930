import StyleCheck.Fault
import StyleCheck.Text.Basic

/-!
# Columns with tabs expanded

The width of the first bytes of a line. A byte takes one column; a tab at width `l` adds the next
multiple of the tab width above `l` to it. Widths below one make sense only where no tab is met.
-/

namespace StyleCheck.Text

/-- What a tab adds to a line that is `width` columns wide. -/
def tabStep (tabSize width : Int) : Int := (width.fdiv tabSize + 1) * tabSize

/-- The width of `n` more bytes behind `width` columns. -/
def widthFrom (tabSize : Int) : (width : Int) → Text → (n : Nat) → Except Fault Int
  | width, _, 0 => .ok width
  | _, [], _ + 1 => .error .columnOutOfRange
  | width, b :: t, n + 1 =>
    if b = tab then
      if tabSize = 0 then .error .zeroTabWidth
      else widthFrom tabSize (width + tabStep tabSize width) t n
    else widthFrom tabSize (width + 1) t n

/-- The width of the first `n` bytes of a line; none if `n` is not positive. -/
def expandedWidth (line : Text) (n tabSize : Int) : Except Fault Int :=
  widthFrom tabSize 0 line n.toNat

end StyleCheck.Text
