import StyleCheck.OrdSet
import StyleCheck.Path

/-!
# Violations

A place in a file that breaks a rule of the style. Violations are ordered by file, line, column
and rule; two that agree in these are one violation, whatever they say. No file comes before every
file.
-/

namespace StyleCheck

structure Violation where
  rule : String
  file : Option String
  line : Int
  column : Int
  text : String
  deriving DecidableEq, Repr

namespace Violation

/-- By file, then line, then column, then rule. -/
def order (v w : Violation) : Ordering :=
  (compare v.file w.file).then <|
    (compare v.line w.line).then <| (compare v.column w.column).then (compare v.rule w.rule)

instance : Ord Violation := ⟨order⟩

instance : Std.TransOrd Violation :=
  inferInstanceAs <| Std.TransCmp <| compareLex (compareOn file) <| compareLex (compareOn line) <|
    compareLex (compareOn column) (compareOn rule)

/-- The line a violation is reported with. -/
def report (v : Violation) : String :=
  let file := match v.file with
    | some name => shortName name
    | none => "<none>"
  "[" ++ file ++ ":" ++ toString v.line ++ "/" ++ toString v.column ++ "] " ++ v.rule ++ " : " ++
    v.text

end Violation

/-- Violations found so far, in order. -/
abbrev ViolationSet := OrdSet Violation

end StyleCheck
