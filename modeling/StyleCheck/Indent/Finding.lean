import StyleCheck.Indent.Frame
import StyleCheck.Indent.Scene
import StyleCheck.Report
import StyleCheck.Violation

/-!
# Findings

What the rules of indentation report, and the rule about the column a construct starts in.
-/

namespace StyleCheck

/-- A judgement that reports violations. -/
abbrev Finding := Report Violation

namespace Finding

/-- Reports a violation where an extent starts. -/
def flag (rule : String) (e : Extent) (text : String) : Finding Unit :=
  .note ⟨rule, e.file, e.start.line, e.start.column, text⟩

/-- Reports a misplaced construct. -/
def flagIndent (e : Extent) (text : String) : Finding Unit := flag "indent.generic" e text

/-- Reports a misplaced brace. -/
def flagBrace (e : Extent) (text : String) : Finding Unit := flag "indent.brace" e text

end Finding

namespace Scene

/-- A construct that starts its line starts in one of its levels, moved by `offset`. -/
def checkStart (s : Scene) (f : Frame) (e : Extent) (offset : Int) : Finding Unit := do
  let starts ← s.startsLine e
  if starts then
    let levels := f.levels.shift offset
    let column ← s.column e
    if !levels.accepts column then
      Finding.flagIndent e
        ("Invalid indent. Expecting one of \x7b" ++ levels.listing ++ "\x7d")

end Scene

end StyleCheck
