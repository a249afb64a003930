import StyleCheck.Indent.Finding

/-!
# Braces

The braces of a construct are its first opening and its last closing one. Three placements of the
opening brace are known; each has its own rules for where the two stand.
-/

namespace StyleCheck

namespace Token

def openingBrace? (ts : List Token) : Option Token := ts.find? (·.isMark "\x7b")

def closingBrace? (ts : List Token) : Option Token := ts.reverse.find? (·.isMark "\x7d")

/-- The token in front of the first opening brace. -/
def beforeBrace? : Option Token → List Token → Option Token
  | _, [] => none
  | previous, t :: ts => if t.isMark "\x7b" then previous else beforeBrace? (some t) ts

def first (ts : List Token) : Except Fault Token :=
  match ts with
  | t :: _ => .ok t
  | [] => .error .noFirstToken

end Token

namespace Scene

/-- The closing brace stands in the column of the first token. -/
def checkClosing (ts : List Token) : Finding Unit := do
  let first ← Token.first ts
  let closing := Token.closingBrace? ts
  if Extent.startOnSameColumn (some first.extent) (closing.map Token.extent) ≠ some true then
    let closing ← present "extent" closing
    Finding.flagBrace closing.extent "Closing brace should be on the same column as block start."

/-- The opening brace stands on the line of the token in front of it. -/
def checkSameLine (ts : List Token) (opening : Token) : Finding Unit :=
  let previous := Token.beforeBrace? none ts
  if Extent.startOnSameLine (previous.map Token.extent) (some opening.extent) ≠ some true then
    Finding.flagBrace opening.extent
      "Opening brace should be on the same line as the token left of it."
  else checkClosing ts

/-- The opening brace stands on the line below, in the column of the first token. -/
def checkNextLine (ts : List Token) (opening : Token) : Finding Unit := do
  let previous ← present "extent" (Token.beforeBrace? none ts)
  if previous.start.line + 1 ≠ opening.start.line then
    Finding.flagBrace opening.extent
      "Opening brace should be on the line directly after block start."
  else
    let first ← Token.first ts
    if first.start.column ≠ opening.start.column then
      Finding.flagBrace opening.extent
        "Opening brace should be on the same column as block start."
  checkClosing ts

/-- The opening brace stands one level further in than the construct, and the closing brace below
it. A token that comes a line below the brace it stands in front of is out of order. -/
def checkNextLineIndent (s : Scene) (f : Frame) (ts : List Token) (opening : Token) :
    Finding Unit := do
  let previous ← present "extent" (Token.beforeBrace? none ts)
  if previous.start.line = opening.start.line + 1 then
    Finding.flagBrace opening.extent
      "Opening brace should be on the line directly after block start."
  let column ← s.column opening.extent
  if !(f.levels.shift s.style.levelSize).accepts column then
    Finding.flagBrace opening.extent
      "Opening brace should be indented one level further than block start."
  else
    let closing ← present "extent" (Token.closingBrace? ts)
    let closingColumn ← s.column closing.extent
    if column ≠ closingColumn then
      Finding.flagBrace closing.extent
        "Closing brace should be on the same column as opening brace."

/-- The braces of a construct stand as a placement says. A construct without braces is fine. -/
def checkBraces (s : Scene) (f : Frame) (e : Extent) (placement : BracePlacement) :
    Finding Unit := do
  let ts ← s.tokensOf e id
  match Token.openingBrace? ts with
  | none =>
    if (Token.closingBrace? ts).isSome then
      Report.giveUp .strayClosingBrace
  | some opening =>
    match placement with
    | .sameLine => checkSameLine ts opening
    | .nextLine => checkNextLine ts opening
    | .nextLineIndent => s.checkNextLineIndent f ts opening
    | .other _ => Report.giveUp .unknownPlacement

/-- The braces of a compound statement that nothing else answers for: the opening one in one of the
levels, the closing one in its column. -/
def checkCompound (s : Scene) (f : Frame) (e : Extent) : Finding Unit :=
  if f.bracesAbove then pure ()
  else do
    let ts ← s.tokensOf e id
    let opening ← present "extent" (Token.openingBrace? ts)
    let column ← s.column opening.extent
    if !f.levels.accepts column then
      Finding.flagBrace opening.extent
        ("Opening brace not properly indented. Expecting one of " ++ f.levels.render ++ ".")
    else
      let closing ← present "extent" (Token.closingBrace? ts)
      let closingColumn ← s.column closing.extent
      if column ≠ closingColumn then
        Finding.flagBrace closing.extent
          "Closing brace must be on the same column as opening brace."

end Scene

end StyleCheck
