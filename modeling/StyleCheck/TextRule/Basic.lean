import StyleCheck.Files
import StyleCheck.Pattern.Parse
import StyleCheck.Report
import StyleCheck.TextRule.Todo
import StyleCheck.Violation

/-!
# Rules about texts

Rules that look at the text of a file alone: its header, its line endings, its last line, blanks at
the end of lines, and the form of TODO comments.
-/

namespace StyleCheck

/-- A line that a header must have. -/
inductive HeaderLine where
  | exact (line : Text)
  | pattern (p : Pattern)
  deriving DecidableEq, Repr

def HeaderLine.fits : HeaderLine → Text → Bool
  | exact expected, line => expected == line
  | pattern p, line => p.matchesLine line

inductive TextRule where
  /-- The file begins with these lines. -/
  | header (expected : List HeaderLine)
  /-- No line ends in a carriage return and a line feed. -/
  | unixEndings
  /-- The file ends in one of these texts. -/
  | finalNewline (allowed : List Text)
  /-- No line ends in blanks. -/
  | noTrailingBlanks
  /-- TODO comments have their form. -/
  | todoForm
  /-- Nothing to apply. -/
  | bare
  deriving DecidableEq, Repr

namespace TextRule

/-- The lines of a header, given or in a file, but not both. -/
def headerLines (files : FileSystem) (path : Option String) (lines : Option (List Text)) :
    Except Fault (List Text) :=
  match path.filter (· ≠ ""), lines.filter (· ≠ []) with
  | some _, some _ => .error .headerGivenTwice
  | none, none => .error .headerNotGiven
  | none, some ls => .ok ls
  | some name, none =>
    match files.openFile name with
    | .ok text => .ok (Text.lines text)
    | .error e => .error e

/-- A rule that a file begins with exactly these lines. -/
def exactHeader (lines : List Text) : TextRule := header (lines.map .exact)

/-- A rule that a file begins with lines that match these patterns. -/
def patternHeader (lines : List Text) : Except Fault TextRule := do
  let patterns ← lines.mapM Pattern.parse
  return header (patterns.map .pattern)

/-- A rule that a file ends in one of these texts, a line feed if none is given. -/
def endsIn (allowed : List Text) : TextRule :=
  finalNewline (if allowed.isEmpty then [[Text.newline]] else allowed)

/-- The number, counted from `n`, of the first header line that a line does not fit. -/
def firstMisfit : (n : Nat) → List HeaderLine → List Text → Option Nat
  | n, h :: hs, l :: ls => if h.fits l then firstMisfit (n + 1) hs ls else some n
  | _, _, _ => none

/-- The lines that end in a carriage return and a line feed, counted from `n`. They are reported in
the column of the line feed. -/
def badEndings (path : String) : (n : Nat) → List Text.Line → List Violation
  | _, [] => []
  | n, l :: ls =>
    if l.ending = [Text.carriageReturn, Text.newline] then
      ⟨"whitespace.lineending", some path, n, l.full.length,
        "Line  with CRLF (Windows line ending)"⟩ :: badEndings path (n + 1) ls
    else badEndings path (n + 1) ls

/-- The lines that end in blanks, counted from `n`. They are reported where the blanks begin. -/
def trailingBlanks (path : String) : (n : Nat) → List Text → List Violation
  | _, [] => []
  | n, l :: ls =>
    if Text.trimEnd l ≠ l then
      ⟨"whitespace.trailing", some path, n, (Text.trimEnd l).length + 1,
        "Trailing whitespace is not allowed."⟩ :: trailingBlanks path (n + 1) ls
    else trailingBlanks path (n + 1) ls

/-- The violation of a comment that is a TODO of another form. -/
def todoViolation? (path : String) (c : Text.Comment) : Option Violation := do
  let todo ← Text.Todo.ofComment? c.text
  let text ← todo.breach?
  return ⟨"whitespace.todo", some path, c.start.line, c.start.column, text⟩

/-- Whether a file has fewer lines than its header. -/
def tooShort (r : TextRule) (file : SourceFile) : Bool :=
  match r with
  | header expected => decide (file.lines.length < expected.length)
  | _ => false

/-- What is told about a file that is too short for its header, in place of a violation. -/
def notice? (r : TextRule) (file : SourceFile) : Option String :=
  if r.tooShort file then some (file.path ++ ": missing header.") else none

/-- Holds a file to a rule. -/
def check (r : TextRule) (file : SourceFile) : Report Violation Unit :=
  match r with
  | header expected =>
    if r.tooShort file then pure ()
    else
      match firstMisfit 1 expected file.lines with
      | some n => .note ⟨"style.header", some file.path, n, 1, "Invalid header!"⟩
      | none => pure ()
  | unixEndings => ⟨badEndings file.path 0 (Text.splitLines file.text), .ok ()⟩
  | finalNewline allowed =>
    if allowed.any (·.isSuffixOf file.text) then pure ()
    else
      match file.lines.getLast? with
      | some last =>
        .note ⟨"whitespace.lineending", some file.path, file.lines.length, last.length,
          "File did not end with valid newline char."⟩
      | none => Report.giveUp .entryOutOfRange
  | noTrailingBlanks => ⟨trailingBlanks file.path 1 file.lines, .ok ()⟩
  | todoForm => ⟨(Text.comments file.text).filterMap (todoViolation? file.path), .ok ()⟩
  | bare => Report.giveUp .noTextRule

end TextRule

/-- A rule with what it has reported. -/
structure TextAudit where
  rule : TextRule
  violations : ViolationSet
  deriving DecidableEq, Repr

namespace TextAudit

def ofRule (r : TextRule) : TextAudit := ⟨r, .empty⟩

/-- Holds one more file to the rule. -/
def check (a : TextAudit) (file : SourceFile) : TextAudit × Option Fault :=
  let r := a.rule.check file
  ({ a with violations := a.violations.insertAll r.notes }, r.fault?)

end TextAudit

end StyleCheck
