import StyleCheck.Text.Comment

/-!
# The form of TODO comments

A TODO comment is written `// TODO(name): text`. The parts in front of the text may be there or
not; what is wrong with them is told by the first rule that is broken.
-/

namespace StyleCheck.Text

/-- What stands behind the name and the colon of a TODO comment. -/
inductive TodoGap where
  /-- The end of the comment. -/
  | nothing
  | blank (b : UInt8)
  /-- Anything else. -/
  | ink
  deriving DecidableEq, Repr

/-- The parts of a TODO comment. -/
structure Todo where
  /-- The blanks in front of the word. -/
  lead : Text
  /-- The name in parentheses, parentheses included. -/
  name : Option Text
  gap : TodoGap
  deriving DecidableEq, Repr

namespace Todo

def word : Text := [0x54, 0x4F, 0x44, 0x4F]

def openParen : UInt8 := 0x28

def closeParen : UInt8 := 0x29

def colon : UInt8 := 0x3A

/-- The name in parentheses at the front of a text, and what follows it. The name has at least one
byte, so that a parenthesis that closes at once belongs to it. -/
def splitName : Text → Option Text × Text
  | a :: b :: t =>
    if a = openParen ∧ closeParen ∈ t then
      let inner := t.takeWhile (· ≠ closeParen)
      (some (a :: b :: inner ++ [closeParen]), t.drop (inner.length + 1))
    else (none, a :: b :: t)
  | t => (none, t)

/-- A text without a colon at its front. -/
def dropColon : Text → Text
  | a :: t => if a = colon then t else a :: t
  | [] => []

def gapOf : Text → TodoGap
  | [] => .nothing
  | a :: _ => if isBlank a then .blank a else .ink

/-- The parts of a TODO comment, if a text is one. -/
def ofComment? (t : Text) : Option Todo :=
  match t with
  | a :: b :: u =>
    if a = slash ∧ b = slash then
      let lead := u.takeWhile isBlank
      let body := u.dropWhile isBlank
      if word.isPrefixOf body then
        let (name, rest) := splitName (body.drop word.length)
        some ⟨lead, name, gapOf (dropColon rest)⟩
      else none
    else none
  | _ => none

/-- The first rule that is broken. -/
def breach? (c : Todo) : Option String :=
  if 1 < c.lead.length then some "There should be exactly one space before TODO."
  else if c.name = none then
    some "TODO comments should look like this: \"// TODO(username): Text\"."
  else if c.gap ≠ .nothing ∧ c.gap ≠ .blank 0x20 then
    some "\"TODO (username):\" should be followed by a space."
  else none

end Todo

end StyleCheck.Text
