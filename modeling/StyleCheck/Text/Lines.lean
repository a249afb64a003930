import StyleCheck.Fault
import StyleCheck.Text.Basic

/-!
# Lines

A line ends at a line feed, a carriage return, or the two together; the text behind the last end
is a line unless it is empty. Nothing is lost: bodies and endings, in order, are the text
(`joinLines_splitLines`). Rows end at line feeds alone.
-/

namespace StyleCheck.Text

/-- A line of a text: what it says and how it ends. -/
structure Line where
  body : Text
  ending : Text
  deriving DecidableEq, Repr

/-- A line with its ending. -/
def Line.full (l : Line) : Text := l.body ++ l.ending

/-- Puts a byte in front of the first line, or begins one. -/
def pushByte (b : UInt8) : List Line → List Line
  | [] => [⟨[b], []⟩]
  | l :: ls => ⟨b :: l.body, l.ending⟩ :: ls

/-- The lines of a text. -/
def splitLines : Text → List Line
  | [] => []
  | 0x0D :: 0x0A :: t => ⟨[], [0x0D, 0x0A]⟩ :: splitLines t
  | b :: t =>
    if b = newline ∨ b = carriageReturn then ⟨[], [b]⟩ :: splitLines t
    else pushByte b (splitLines t)

/-- What the lines of a text say. -/
def lines (t : Text) : List Text := (splitLines t).map Line.body

theorem flatMap_full_pushByte (b : UInt8) (ls : List Line) :
    (pushByte b ls).flatMap Line.full = b :: ls.flatMap Line.full := by
  cases ls <;> simp [pushByte, Line.full]

theorem joinLines_splitLines (t : Text) : (splitLines t).flatMap Line.full = t := by
  fun_induction splitLines t with
  | case1 => rfl
  | case2 t ih => simp [ih, Line.full]
  | case3 b t _ _ ih => simp [ih, Line.full]
  | case4 b t _ _ ih => rw [flatMap_full_pushByte, ih]

/-- Puts a byte in front of the first row, or begins one. -/
def pushToRow (b : UInt8) : List Text → List Text
  | [] => [[b]]
  | r :: rs => (b :: r) :: rs

/-- The rows of a text, without the line feeds that end them. -/
def rows : Text → List Text
  | [] => []
  | b :: t => if b = newline then [] :: rows t else pushToRow b (rows t)

/-- The entry at offset `i`, which counts from the end if it is negative. -/
def atOffset? {α : Type} (l : List α) (i : Int) : Option α :=
  if 0 ≤ i then l[i.toNat]?
  else if 0 ≤ i + l.length then l[(i + l.length).toNat]?
  else none

/-- Line `n`, counted from one. Zero is the last line, and negative numbers go on from there. -/
def lineAt (ls : List Text) (n : Int) : Except Fault Text :=
  match atOffset? ls (n - 1) with
  | some line => .ok line
  | none => .error .entryOutOfRange

end StyleCheck.Text
