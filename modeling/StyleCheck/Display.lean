import StyleCheck.Report
import StyleCheck.Suppression
import StyleCheck.Text.Utf8
import StyleCheck.Violation

/-!
# Display

How violations are shown: one line each, with the line of source below it on request, and a summary
at the end. A line of source is shown byte by byte, whether or not it is UTF-8. Violations of
ignored rules are skipped; suppressed ones are not shown, but count as displayed.
-/

namespace StyleCheck

structure DisplayOptions where
  /-- Show violations on suppressed lines too. -/
  ignoreSuppressions : Bool
  showSource : Bool
  ignoredRules : List String
  deriving DecidableEq, Repr

namespace DisplayOptions

/-- Whether violations of a rule are skipped. -/
def skips (o : DisplayOptions) (v : Violation) : Bool := o.ignoredRules.contains v.rule

end DisplayOptions

/-- The mark below a column. -/
def caret (column : Int) : String :=
  String.ofList (List.replicate (column - 1).toNat ' ' ++ ['^'])

/-- A violation and, if it is in a file, the source it is about. The source is looked up whether it
is shown or not. -/
def Violation.display (files : FileSystem) (showSource : Bool) (v : Violation) :
    Report Text Unit := do
  Report.note (Text.ofString v.report)
  match v.file with
  | none => pure ()
  | some name =>
    let source ← files.read name
    let line ← Text.lineAt source.lines v.line
    if showSource then
      Report.note (Text.trimEnd line)
      Report.note (Text.ofString (caret v.column))
      Report.note []

/-- A violation, unless it is suppressed. -/
def Violation.displayUnlessSuppressed (files : FileSystem) (o : DisplayOptions) (v : Violation) :
    Report Text Unit := do
  let suppressed ←
    if o.ignoreSuppressions then pure false else files.suppresses v.file v.line
  if suppressed then pure () else v.display files o.showSource

/-- One violation after the other. -/
def displayEach (files : FileSystem) (o : DisplayOptions) : List Violation → Report Text Unit
  | [] => pure ()
  | v :: vs => do
    v.displayUnlessSuppressed files o
    displayEach files o vs

/-- The last line. -/
def summary (o : DisplayOptions) (vs : List Violation) : String :=
  "Displayed " ++ toString (vs.filter (fun v => !o.skips v)).length ++ " violations, skipped " ++
    toString (vs.filter o.skips).length ++ "."

/-- The violations of a set in order, and a summary. -/
def ViolationSet.display (files : FileSystem) (o : DisplayOptions) (s : ViolationSet) :
    Report Text Unit := do
  displayEach files o (s.toList.filter fun v => !o.skips v)
  Report.note (Text.ofString (summary o s.toList))

end StyleCheck
