import StyleCheck.Files
import StyleCheck.Text.Utf8

/-!
# Suppressed lines

A row that ends in `// nolint`, blanks aside, suppresses what is reported on it. Rows end at line
feeds alone. `Suppressions` keeps the rows of every file it was asked about.
-/

namespace StyleCheck

/-- The mark that suppresses reports. -/
def suppressionMark : Text := Text.ofString "// nolint"

/-- Whether a row carries the mark. -/
def Text.isSuppressed (row : Text) : Bool := suppressionMark.isSuffixOf (Text.trim row)

/-- The numbers, counted from `n`, of the rows that carry the mark. -/
def suppressedFrom : (n : Nat) → List Text → List Nat
  | _, [] => []
  | n, row :: rows =>
    if row.isSuppressed then n :: suppressedFrom (n + 1) rows else suppressedFrom (n + 1) rows

/-- The numbers of the suppressed rows of a text. -/
def suppressedRows (t : Text) : List Nat := suppressedFrom 1 (Text.rows t)

/-- Whether a line is among some rows. -/
def onRow (line : Int) (rows : List Nat) : Bool := rows.any fun n => (n : Int) == line

/-- The suppressed rows of the file of exactly this name. -/
def FileSystem.suppressed (fs : FileSystem) (path : String) : Except Fault (List Nat) :=
  (fs.openFile path).map suppressedRows

/-- Whether reports on a line of a file are suppressed. -/
def FileSystem.suppresses (fs : FileSystem) (file : Option String) (line : Int) :
    Except Fault Bool :=
  match file with
  | none => .ok false
  | some name => (fs.suppressed (absoluteName name)).map (onRow line)

/-- The suppressed rows of the files asked about so far. -/
abbrev Suppressions := FileTable (List Nat)

/-- Whether reports on a line of a file are suppressed. A file is read once. -/
def Suppressions.has (s : Suppressions) (fs : FileSystem) (file : Option String) (line : Int) :
    Except Fault Bool × Suppressions :=
  match file with
  | none => (.ok false, s)
  | some name =>
    let r := s.fetch (absoluteName name) (fs.suppressed (absoluteName name))
    (r.1.map (onRow line), r.2)

end StyleCheck
