import StyleCheck.Tree.Token

/-!
# Spacing of namespaces

A namespace is written `namespace <name> {` with single spaces, and ends in `}` with two spaces and
the comment `// namespace <name>` behind it. The first rule that is broken is the one reported. Any
punctuation counts as the brace that opens or closes.
-/

namespace StyleCheck.Spacing

/-- Where and how a rule of spacing is broken. -/
structure Breach where
  token : Token
  text : String
  deriving DecidableEq, Repr

/-- The tokens that the spacing of a namespace is judged by. -/
structure NamespaceTokens where
  keyword : Token
  name : Token
  opening : Token
  closing : Token
  comment : Token
  deriving DecidableEq, Repr

/-- A token by its place. -/
def tokenAt (ts : List Token) (i : Nat) : Except Fault Token :=
  match ts[i]? with
  | some t => .ok t
  | none => .error .tokenOutOfRange

/-- A token by its place from the end, the last being zero. -/
def tokenFromEnd (ts : List Token) (i : Nat) : Except Fault Token := tokenAt ts.reverse i

def opens (t : Token) : Bool := t.kind == .punctuation || t.spelling == "\x7b"

def closes (t : Token) : Bool := t.kind == .punctuation || t.spelling == "\x7d"

/-- Finds the tokens of a namespace, or the first of them that is not in its place. -/
def namespaceTokens (ts : List Token) : Except Fault (Breach ⊕ NamespaceTokens) :=
  let breach (t : Except Fault Token) (text : String) : Except Fault (Breach ⊕ NamespaceTokens) :=
    do return .inl ⟨← t, text⟩
  match ts.findIdx? opens, ts.reverse.findIdx? closes with
  | none, _ => breach (tokenAt ts 0) "Could not find opening brace for namespace."
  | some _, none => breach (tokenFromEnd ts 0) "Could not find closing brace for namespace."
  | some openingAt, some closingAt => do
    let keyword ← tokenAt ts 0
    if keyword.kind ≠ .keyword ∨ keyword.spelling ≠ "namespace" then
      breach (tokenFromEnd ts 0)
        "First token for namespace construct must be keyword \"namespace\"."
    else
      let name ← tokenAt ts 1
      if name.kind ≠ .identifier then
        breach (.ok keyword) "Second token for namespace construct must be identifier."
      else
        let opening ← tokenAt ts 2
        if openingAt ≠ 2 then
          breach (.ok keyword) "Third token for namespace must be opening brace."
        else
          let closing ← tokenFromEnd ts 1
          if closingAt ≠ 1 then
            breach (.ok keyword) "Second last token for namespace must be right brace."
          else
            let comment ← tokenFromEnd ts 0
            if comment.kind ≠ .comment then
              breach (.ok comment)
                "Last token for namespace must be \"// namespace <namespace id>\" comment."
            else return .inr ⟨keyword, name, opening, closing, comment⟩

/-- The first rule about blanks and the closing comment that is broken. -/
def NamespaceTokens.breach? (n : NamespaceTokens) : Option Breach :=
  if n.keyword.stop.line ≠ n.name.stop.line then
    some ⟨n.keyword, "Keyword \"namespace\" must be on same line as identifier."⟩
  else if n.keyword.stop.column + 1 ≠ n.name.start.column then
    some ⟨n.keyword,
      "There must be exactly on space between keyword \"namespace\" and identifier."⟩
  else if n.name.stop.column + 1 ≠ n.opening.start.column then
    some ⟨n.keyword,
      "There must be exactly on space between namespace identifier and opening brace."⟩
  else if n.closing.stop.line ≠ n.comment.stop.line then
    some ⟨n.keyword, "Right parenthesis and comment must be on same line."⟩
  else if n.closing.stop.column + 2 ≠ n.comment.start.column then
    some ⟨n.keyword, "There must be exactly two spaces between right parenthesis and comment."⟩
  else if n.comment.spelling ≠ "// namespace " ++ n.name.spelling then
    some ⟨n.keyword, "The closing comment must be \"// namespace <identifier>\"."⟩
  else none

/-- The first rule that the tokens of a namespace break. -/
def namespaceBreach (ts : List Token) : Except Fault (Option Breach) :=
  match namespaceTokens ts with
  | .error e => .error e
  | .ok (.inl b) => .ok (some b)
  | .ok (.inr n) => .ok n.breach?

end StyleCheck.Spacing
