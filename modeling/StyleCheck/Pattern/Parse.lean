import StyleCheck.Fault
import StyleCheck.Pattern.Basic

/-!
# Reading patterns

Patterns are written as regular expressions: literals, `.`, `^`, `$`, `*`, `+`, `?`, counts in
braces, classes in brackets, groups, alternatives, and escapes. A text is cut into lexemes first;
groups are then folded up on a stack. Braces that hold no counts are literal. Left out are counts
that give nothing back, such as `a++`, groups that begin with `(?`, but for `(?:`, and escapes of
letters and digits that stand for no byte and no class of bytes, such as `\b` and `\1`; patterns
with them are refused like those that are not well formed.
-/

namespace StyleCheck.Pattern

/-- A piece of a written pattern. -/
inductive Lexeme where
  | atom (p : Pattern)
  /-- A start or an end of line, which cannot be repeated. -/
  | anchor (p : Pattern)
  | times (least : Nat) (most : Option Nat)
  | bar
  | opening
  | closing
  deriving DecidableEq, Repr

def digits : List ByteRange := [⟨0x30, 0x39⟩]

def blanks : List ByteRange := [⟨0x20, 0x20⟩, ⟨0x09, 0x0D⟩]

def wordBytes : List ByteRange := [⟨0x30, 0x39⟩, ⟨0x41, 0x5A⟩, ⟨0x5F, 0x5F⟩, ⟨0x61, 0x7A⟩]

def single (b : UInt8) : ByteRange := ⟨b, b⟩

/-- What an escaped byte stands for: ranges, and whether they are negated. A letter or digit without
a meaning of its own cannot be escaped. -/
def escaped (b : UInt8) : Option (Bool × List ByteRange) :=
  if b = 0x64 then some (false, digits)
  else if b = 0x44 then some (true, digits)
  else if b = 0x73 then some (false, blanks)
  else if b = 0x53 then some (true, blanks)
  else if b = 0x77 then some (false, wordBytes)
  else if b = 0x57 then some (true, wordBytes)
  else if b = 0x74 then some (false, [single 0x09])
  else if b = 0x6E then some (false, [single 0x0A])
  else if b = 0x76 then some (false, [single 0x0B])
  else if b = 0x66 then some (false, [single 0x0C])
  else if b = 0x72 then some (false, [single 0x0D])
  else if wordBytes.any (·.contains b) && b != 0x5F then none
  else some (false, [single b])

/-- The ranges that are left of all bytes without these. -/
def complement (ranges : List ByteRange) : List ByteRange :=
  ((List.range 256).map UInt8.ofNat).filterMap fun b =>
    if ranges.any (·.contains b) then none else some (single b)

/-- The text of a class in pieces: a backslash with the byte behind it, or a byte. -/
def classPieces : Text → List Text
  | [] => []
  | [a] => [[a]]
  | a :: b :: t => if a = 0x5C then [a, b] :: classPieces t else [a] :: classPieces (b :: t)

/-- What a piece of a class stands for. -/
def pieceRanges : Text → Option (List ByteRange)
  | [a] => if a = 0x5C then none else some [single a]
  | [_, b] => (escaped b).map fun e => if e.1 then complement e.2 else e.2
  | _ => none

/-- The byte that a piece of a class stands for, if it is one byte. -/
def pieceByte (piece : Text) : Option UInt8 :=
  match pieceRanges piece with
  | some [r] => if r.low = r.high then some r.low else none
  | _ => none

/-- More ranges in front of what was read of a class, and more bytes. -/
def addRanges (ranges : List ByteRange) (length : Nat) (rest : Option (List ByteRange × Nat)) :
    Option (List ByteRange × Nat) :=
  rest.map fun r => (ranges ++ r.1, length + r.2)

/-- The ranges of a class and the length of its text, closing bracket included. A bracket that
comes first is literal, and so is a dash that comes last; a dash between two bytes makes a range. -/
def classFrom : (first : Bool) → List Text → Option (List ByteRange × Nat)
  | _, [] => none
  | first, p :: ps =>
    if p = [0x5D] ∧ !first then some ([], 1)
    else
      match ps with
      | [0x2D] :: qs =>
        match qs with
        | [] => none
        | q :: rest =>
          if q = [0x5D] then (pieceRanges p).map fun r => (r ++ [single 0x2D], p.length + 2)
          else
            match pieceByte p, pieceByte q with
            | some low, some high =>
              if low ≤ high then
                addRanges [⟨low, high⟩] (p.length + 1 + q.length) (classFrom false rest)
              else none
            | _, _ => none
      | ps => (pieceRanges p).bind fun r => addRanges r p.length (classFrom false ps)

/-- A class in brackets and the length of its text behind the opening bracket. -/
def classOf (t : Text) : Option (Pattern × Nat) :=
  match t with
  | 0x5E :: u => (classFrom true (classPieces u)).map fun r => (oneOf true r.1, r.2 + 1)
  | _ => (classFrom true (classPieces t)).map fun r => (oneOf false r.1, r.2)

def isDigit (b : UInt8) : Bool := 0x30 ≤ b && b ≤ 0x39

/-- The number that digits write; none writes none. -/
def number? : Text → Option Nat
  | [] => none
  | t => some (t.foldl (fun n b => n * 10 + (b.toNat - 0x30)) 0)

/-- Counts in braces, and the length of their text behind the opening brace. -/
def countsOf (t : Text) : Option ((Nat × Option Nat) × Nat) :=
  let low := t.takeWhile isDigit
  match t.dropWhile isDigit with
  | 0x7D :: _ => (number? low).map fun n => ((n, some n), low.length + 1)
  | 0x2C :: u =>
    let high := u.takeWhile isDigit
    match u.dropWhile isDigit with
    | 0x7D :: _ => some (((number? low).getD 0, number? high), low.length + high.length + 2)
    | _ => none
  | _ => none

/-- A count takes a question mark behind it along. It asks for as few as will do, which makes no
difference to whether a line matches. -/
def timesLexeme (least : Nat) (most : Option Nat) (length : Nat) (rest : Text) : Lexeme × Nat :=
  match rest with
  | 0x3F :: _ => (.times least most, length + 1)
  | _ => (.times least most, length)

/-- The lexeme that a text begins with, and its length. -/
def lexeme (a : UInt8) (t : Text) : Option (Lexeme × Nat) :=
  if a = 0x5C then
    match t with
    | [] => none
    | b :: _ => (escaped b).map fun e => (.atom (oneOf e.1 e.2), 2)
  else if a = 0x2E then some (.atom any, 1)
  else if a = 0x5E then some (.anchor atStart, 1)
  else if a = 0x24 then some (.anchor atEnd, 1)
  else if a = 0x28 then
    match t with
    | 0x3F :: 0x3A :: _ => some (.opening, 3)
    | 0x3F :: _ => none
    | _ => some (.opening, 1)
  else if a = 0x29 then some (.closing, 1)
  else if a = 0x7C then some (.bar, 1)
  else if a = 0x2A then some (timesLexeme 0 none 1 t)
  else if a = 0x2B then some (timesLexeme 1 none 1 t)
  else if a = 0x3F then some (timesLexeme 0 (some 1) 1 t)
  else if a = 0x5B then (classOf t).map fun r => (.atom r.1, r.2 + 1)
  else if a = 0x7B then
    match countsOf t with
    | some ((least, most), n) =>
      if most.any (· < least) then none else some (timesLexeme least most (n + 1) (t.drop n))
    | none => some (.atom (oneOf false [single a]), 1)
  else some (.atom (oneOf false [single a]), 1)

/-- The lexemes of a text behind the next `skip` bytes. -/
def lexemesFrom : (skip : Nat) → Text → Option (List Lexeme)
  | _, [] => some []
  | skip + 1, _ :: t => lexemesFrom skip t
  | 0, a :: t =>
    match lexeme a t with
    | none => none
    | some (l, n) => (lexemesFrom (n - 1) t).map (l :: ·)

/-- A group that is being read: the alternatives behind it, if any, and the pieces of the one at
hand, the last first, each with whether it may be repeated. -/
structure Group where
  before : Option Pattern
  pieces : List (Pattern × Bool)
  deriving DecidableEq, Repr

namespace Group

def new : Group := ⟨none, []⟩

def push (g : Group) (p : Pattern) (repeatable : Bool) : Group :=
  { g with pieces := (p, repeatable) :: g.pieces }

/-- The alternative at hand. -/
def current (g : Group) : Pattern := g.pieces.foldl (fun p q => seq q.1 p) empty

/-- The whole group. -/
def pattern (g : Group) : Pattern :=
  match g.before with
  | some p => alt p g.current
  | none => g.current

end Group

/-- Reads one more lexeme inside the groups that are open, the innermost first. -/
def read : List Group → Lexeme → Option (List Group)
  | [], _ => none
  | g :: gs, .atom p => some (g.push p true :: gs)
  | g :: gs, .anchor p => some (g.push p false :: gs)
  | g :: gs, .bar => some (⟨some g.pattern, []⟩ :: gs)
  | gs, .opening => some (Group.new :: gs)
  | [_], .closing => none
  | g :: h :: gs, .closing => some (h.push g.pattern true :: gs)
  | g :: gs, .times least most =>
    match g.pieces with
    | (p, true) :: ps => some ({ g with pieces := (times p least most, false) :: ps } :: gs)
    | _ => none

/-- Reads a written pattern. -/
def parse (t : Text) : Except Fault Pattern :=
  match (lexemesFrom 0 t).bind (·.foldlM read [Group.new]) with
  | some [g] => .ok g.pattern
  | _ => .error .badPattern

end StyleCheck.Pattern
