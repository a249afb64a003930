import StyleCheck.Indent.Finding

/-!
# Do loops

A do loop begins with its keyword and has a keyword `while` of its own, the token that belongs to
its node. Tokens belong to nodes with their data, so a loop that was handed out without them is
looked up before its keyword is searched. With a body in braces the placement of the braces decides
where the keywords stand; without, `while` stands in the column of `do`.
-/

namespace StyleCheck

/-- The tokens that a do loop is judged by. -/
structure DoLoop where
  doKeyword : Token
  whileKeyword : Token
  /-- The braces of the body, if it has any. -/
  braces : Option (Token × Token)
  deriving DecidableEq, Repr

namespace Scene

/-- The tree of a do loop. A node handed out without its data is looked up by its location. -/
def doLoopTree (s : Scene) (t : Tree) : Except Fault Tree :=
  if t.node.detached then
    present "translation_unit" (s.unit.atLocation? t.node.file t.node.location)
  else .ok t

/-- The braces around a body: its first and its last token. -/
def bodyBraces (s : Scene) (body : Tree) : Except Fault (Token × Token) := do
  let ts ← s.tokensOf body.extent (fun column => max 0 (column - 1))
  match ts.head?, ts.getLast? with
  | some opening, some closing =>
    if opening.spelling ≠ "\x7b" ∨ closing.spelling ≠ "\x7d" then throw .doLoopBraces
    return (opening, closing)
  | _, _ => throw .tokenOutOfRange

/-- The tokens of a do loop. -/
def doLoop (s : Scene) (t : Tree) : Except Fault DoLoop := do
  let t ← s.doLoopTree t
  let ts ← s.tokensOf t.extent id
  let doKeyword ← match ts with
    | first :: _ => pure first
    | [] => throw .tokenOutOfRange
  if doKeyword.spelling ≠ "do" then throw .noDoKeyword
  let whileKeyword ←
    match ts.find? (fun u => u.spelling == "while" && s.unit.owns t.node u) with
    | some u => pure u
    | none => throw .noWhileKeyword
  match t.children with
  | [body, _] =>
    let kind ← body.node.kind
    if kind = .compoundStmt then
      return ⟨doKeyword, whileKeyword, some (← s.bodyBraces body)⟩
    else return ⟨doKeyword, whileKeyword, none⟩
  | _ => throw .doLoopParts

/-- The keyword `do` stands in one of the levels. -/
def checkDoKeyword (s : Scene) (f : Frame) (l : DoLoop) : Finding Unit := do
  let column ← s.column l.doKeyword.extent
  if !f.levels.accepts column then
    Finding.flagIndent l.doKeyword.extent "Keyword \"do\" must be properly indented."

/-- The keywords stand in one column. -/
def checkKeywordColumns (s : Scene) (l : DoLoop) : Finding Unit := do
  let whileColumn ← s.column l.whileKeyword.extent
  let doColumn ← s.column l.doKeyword.extent
  if whileColumn ≠ doColumn then
    Finding.flagIndent l.whileKeyword.extent
      "Keyword \"while\" must have same indentation as \"do\"."

/-- The opening brace of a do loop stands in one of the levels. -/
def checkDoOpening (s : Scene) (levels : Levels) (opening : Token) : Finding Unit := do
  let column ← s.column opening.extent
  if !levels.accepts column then
    Finding.flagBrace opening.extent
      ("Opening curly brace is on wrong level. Expected one of " ++ levels.render ++ ".")

/-- Braces on the line of their keyword. -/
def checkDoSameLine (s : Scene) (l : DoLoop) (opening closing : Token) : Finding Unit := do
  if l.doKeyword.start.line ≠ opening.start.line then
    Finding.flagIndent l.doKeyword.extent
      "Keyword \"do\" must be on the same line as the opening curly brace."
  if l.whileKeyword.start.line ≠ closing.start.line then
    Finding.flagIndent l.whileKeyword.extent
      "Keyword \"while\" must be on the same line as the closing curly brace."
  let closingColumn ← s.column closing.extent
  let doColumn ← s.column l.doKeyword.extent
  if closingColumn ≠ doColumn then
    Finding.flagBrace closing.extent
      "Closing curly brace must have the same indentation as the \"do\" keyword."

/-- Braces on lines of their own. -/
def checkDoNextLine (s : Scene) (f : Frame) (l : DoLoop) (opening closing : Token) :
    Finding Unit := do
  s.checkKeywordColumns l
  if l.doKeyword.start.line + 1 ≠ opening.start.line then
    Finding.flagIndent l.doKeyword.extent
      "Keyword \"do\" must be on the line before opening curly brace."
  if l.whileKeyword.start.line ≠ closing.start.line + 1 then
    Finding.flagIndent l.whileKeyword.extent
      "Keyword \"while\" must be on the line after the closing curly brace."
  let closingColumn ← s.column closing.extent
  let openingColumn ← s.column opening.extent
  if closingColumn ≠ openingColumn then
    Finding.flagBrace closing.extent
      "Closing curly brace must have the same indentation as the opening curl brace."
  match s.style.blockBraces with
  | .nextLine => s.checkDoOpening f.levels opening
  | .nextLineIndent => s.checkDoOpening (f.levels.shift s.style.levelSize) opening
  | .sameLine | .other _ => Report.giveUp .unknownPlacement

/-- The keywords and braces of a do loop stand as the style says. -/
def checkDoLoop (s : Scene) (f : Frame) (t : Tree) : Finding Unit := do
  let l ← s.doLoop t
  s.checkDoKeyword f l
  match l.braces with
  | none => s.checkKeywordColumns l
  | some (opening, closing) =>
    if s.style.blockBraces = .sameLine then s.checkDoSameLine l opening closing
    else s.checkDoNextLine f l opening closing

end Scene

end StyleCheck
