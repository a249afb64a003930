import StyleCheck.Files
import StyleCheck.Indent.Settings
import StyleCheck.Text.Column
import StyleCheck.Tree.Token

/-!
# Scenes

What the indentation of a unit is judged by: its files, its tokens and the style. Columns count
from zero with tabs expanded; what stands in no file stands in column zero.
-/

namespace StyleCheck

structure Scene where
  files : FileSystem
  unit : TranslationUnit
  style : IndentStyle

namespace Scene

/-- A line of a file. -/
def line (s : Scene) (file : String) (n : Int) : Except Fault Text := do
  let source ← s.files.read file
  Text.lineAt source.lines n

/-- The column in which an extent starts. -/
def column (s : Scene) (e : Extent) : Except Fault Int :=
  match e.file with
  | none => .ok 0
  | some file => do
    let line ← s.line file e.start.line
    Text.expandedWidth line (e.start.column - 1) s.style.tabSize

/-- The column in which the ink of the first line of an extent starts. -/
def lineStart (s : Scene) (e : Extent) : Except Fault Int :=
  match e.file with
  | none => .ok 0
  | some file => do
    let line ← s.line file e.start.line
    Text.expandedWidth line (Text.inkStart line) s.style.tabSize

/-- Whether nothing but blanks stands in front of an extent on its line. -/
def startsLine (s : Scene) (e : Extent) : Except Fault Bool := do
  let start ← s.lineStart e
  let column ← s.column e
  return start == column

/-- What must be there before `part` of it can be asked for. -/
def present {α : Type} (part : String) : Option α → Except Fault α
  | some a => .ok a
  | none => .error (.absent part)

theorem present_eq_ok {α : Type} {part : String} {x : Option α} {a : α} :
    present part x = .ok a ↔ x = some a := by
  cases x <;> simp [present]

/-- The tokens of an extent. The end column is cut to the ink of the last line and then changed by
`adjust`, since an extent may reach into the blanks at the end of a line. -/
def tokensOf (s : Scene) (e : Extent) (adjust : Int → Int) : Except Fault (List Token) := do
  let file ← present "name" e.file
  let line ← s.line file e.stop.line
  let column := min e.stop.column (Text.trimEnd line).length
  return Token.within s.unit.tokens file e.start ⟨e.stop.line, adjust column⟩

end Scene

namespace Extent

/-- Whether two extents start on one line. Nothing is known if one of them is missing. -/
def startOnSameLine : Option Extent → Option Extent → Option Bool
  | some a, some b => some (a.start.line == b.start.line)
  | _, _ => none

/-- Whether two extents start in one column, tabs not expanded. -/
def startOnSameColumn : Option Extent → Option Extent → Option Bool
  | some a, some b => some (a.start.column == b.start.column)
  | _, _ => none

end Extent

/-- Whether the second node starts where the first ends, in one file. -/
def Node.adjacent (a b : Node) : Except Fault Bool := do
  let fileA ← Scene.present "name" a.file
  let fileB ← Scene.present "name" b.file
  return fileA == fileB && a.extent.stop == b.extent.start

end StyleCheck
