import StyleCheck.OrdSet
import StyleCheck.Text.Basic

/-!
# Patterns

Patterns for lines. A pattern takes the offsets it may start from to those it may end at; a line
matches if some end is reached from its start. A pattern need not reach the end of the line.
-/

namespace StyleCheck

/-- The bytes from `low` to `high`. -/
structure ByteRange where
  low : UInt8
  high : UInt8
  deriving DecidableEq, Repr

def ByteRange.contains (r : ByteRange) (b : UInt8) : Bool := r.low ≤ b && b ≤ r.high

inductive Pattern where
  /-- The empty text. -/
  | empty
  /-- Any byte but a line feed. -/
  | any
  /-- A byte in one of the ranges, or in none of them. -/
  | oneOf (negated : Bool) (ranges : List ByteRange)
  /-- The start of the line. -/
  | atStart
  /-- The end of the line. -/
  | atEnd
  | seq (p q : Pattern)
  | alt (p q : Pattern)
  /-- From `least` to `most` times, or any number above `least`. -/
  | times (p : Pattern) (least : Nat) (most : Option Nat)
  deriving DecidableEq, Repr

namespace Pattern

/-- A step done `n` times. -/
def iterate (step : OrdSet Nat → OrdSet Nat) : Nat → OrdSet Nat → OrdSet Nat
  | 0, s => s
  | n + 1, s => iterate step n (step s)

/-- All that is reached in at most `n` steps. -/
def closure (step : OrdSet Nat → OrdSet Nat) : Nat → OrdSet Nat → OrdSet Nat
  | 0, s => s
  | n + 1, s => s.union (closure step n (step s))

/-- The offsets behind one byte that passes a test. -/
def advance (line : Text) (test : UInt8 → Bool) (starts : OrdSet Nat) : OrdSet Nat :=
  let fits := starts.filter fun i => (line.drop i).head?.any test
  ⟨fits.toList.map (· + 1), fits.ascending.map _ fun i j h => by
    rw [Nat.compare_eq_lt] at h ⊢
    omega⟩

/-- The offsets that a pattern may end at. More rounds than the line has bytes reach nothing new. -/
def ends (line : Text) : Pattern → OrdSet Nat → OrdSet Nat
  | empty, s => s
  | any, s => advance line (· ≠ Text.newline) s
  | oneOf negated ranges, s => advance line (fun b => ranges.any (·.contains b) != negated) s
  | atStart, s => s.filter (· == 0)
  | atEnd, s => s.filter (· == line.length)
  | seq p q, s => ends line q (ends line p s)
  | alt p q, s => (ends line p s).union (ends line q s)
  | times p least most, s =>
    let extra := match most with
      | some n => n - least
      | none => line.length
    closure (ends line p) extra (iterate (ends line p) least s)

/-- Whether a line matches from its start. -/
def matchesLine (p : Pattern) (line : Text) : Bool := !(ends line p (.single 0)).toList.isEmpty

end Pattern

end StyleCheck
