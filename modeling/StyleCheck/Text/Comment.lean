import StyleCheck.Text.Lines

/-!
# Comments and quoted literals

A text is read from left to right for four forms: `//` to the end of its line, `/*` to the next
`*/`, and literals in single or double quotes, in which a backslash takes the next byte along.
Forms do not overlap. Where a form has no end, its first byte is passed over.
-/

namespace StyleCheck.Text

def slash : UInt8 := 0x2F

def star : UInt8 := 0x2A

def backslash : UInt8 := 0x5C

def singleQuote : UInt8 := 0x27

def doubleQuote : UInt8 := 0x22

/-- How many bytes lead up to the end of the first `*/`. -/
def blockEnd? : Text → Option Nat
  | [] => none
  | [_] => none
  | a :: b :: t => if a = star ∧ b = slash then some 2 else (blockEnd? (b :: t)).map (· + 1)

/-- How many bytes lead up to the end of the first quote that no backslash takes along. -/
def quoteEnd? (quote : UInt8) : Text → Option Nat
  | [] => none
  | [a] => if a = quote then some 1 else none
  | a :: b :: t =>
    if a = backslash then (quoteEnd? quote t).map (· + 2)
    else if a = quote then some 1
    else (quoteEnd? quote (b :: t)).map (· + 1)

/-- The length of the form that a text begins with. -/
def formLength? : Text → Option Nat
  | [] => none
  | a :: t =>
    if a = singleQuote ∨ a = doubleQuote then (quoteEnd? a t).map (· + 1)
    else if a = slash then
      match t with
      | [] => none
      | b :: t =>
        if b = slash then some ((t.takeWhile (· ≠ newline)).length + 2)
        else if b = star then (blockEnd? t).map (· + 2)
        else none
    else none

/-- A stretch of a text, by offset and length. -/
structure Span where
  offset : Nat
  length : Nat
  deriving DecidableEq, Repr

/-- The forms of a text that starts at `offset`, behind the next `skip` bytes. -/
def formsFrom : (skip offset : Nat) → Text → List Span
  | _, _, [] => []
  | skip + 1, offset, _ :: t => formsFrom skip (offset + 1) t
  | 0, offset, a :: t =>
    match formLength? (a :: t) with
    | some n => ⟨offset, n⟩ :: formsFrom (n - 1) (offset + 1) t
    | none => formsFrom 0 (offset + 1) t

/-- The comments and literals of a text. -/
def forms (t : Text) : List Span := formsFrom 0 0 t

/-- A place in a text: line and column, counted from one, and offset. -/
structure Place where
  line : Nat
  column : Nat
  offset : Nat
  deriving DecidableEq, Repr

/-- How reports write a place. -/
def Place.render (p : Place) (file : String) : String :=
  file ++ ":" ++ toString p.line ++ "/" ++ toString p.column ++ " (@" ++ toString p.offset ++ ")"

/-- The line, counted from `line`, and the column, counted from one, of an offset. -/
def locateFrom : (line : Nat) → List Line → (offset : Nat) → Nat × Nat
  | line, [], offset => (line, offset + 1)
  | line, l :: ls, offset =>
    if offset < l.full.length then (line, offset + 1)
    else locateFrom (line + 1) ls (offset - l.full.length)

def locate (t : Text) (offset : Nat) : Nat × Nat := locateFrom 1 (splitLines t) offset

/-- A comment or literal with its place. -/
structure Comment where
  start : Place
  /-- The place behind its last byte, on the line of that byte. -/
  stop : Place
  text : Text
  deriving DecidableEq, Repr

def Comment.ofSpan (t : Text) (s : Span) : Comment :=
  let start := locate t s.offset
  let last := locate t (s.offset + s.length - 1)
  { start := ⟨start.1, start.2, s.offset⟩
    stop := ⟨last.1, last.2 + 1, s.offset + s.length⟩
    text := (t.drop s.offset).take s.length }

/-- The comments and literals of a text, in order. -/
def comments (t : Text) : List Comment := (forms t).map (Comment.ofSpan t)

end StyleCheck.Text
