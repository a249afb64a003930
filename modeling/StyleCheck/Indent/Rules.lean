import StyleCheck.Indent.Braces
import StyleCheck.Indent.DoLoop

/-!
# Rules of indentation

Which rules a construct is held to, by its form.
-/

namespace StyleCheck

namespace Scene

/-- A construct starts in one of its levels, and its braces stand as a placement says. -/
def checkBlock (s : Scene) (f : Frame) (t : Tree) (placement : BracePlacement) :
    Finding Unit := do
  s.checkStart f t.extent 0
  s.checkBraces f t.extent placement

/-- An access label stands where the record's own level is, even if what follows a label is
indented below it. -/
def checkAccessLabel (s : Scene) (parent f : Frame) (t : Tree) : Finding Unit :=
  if s.style.belowVisibility.isOn then
    if parent.keepsMark then
      s.checkStart f t.extent (if parent.marked then -s.style.levelSize else 0)
    else Report.giveUp (.noVisibilityMark parent.construct.label)
  else s.checkStart f t.extent 0

/-- A label to jump to starts its line, and stands in column zero if labels are flush left. -/
def checkJumpLabel (s : Scene) (f : Frame) (t : Tree) : Finding Unit :=
  if s.style.labelsFlushLeft then do
    let starts ← s.startsLine t.extent
    if !starts then
      Finding.flagIndent t.extent "Label must be first non-whitespace on line."
    else
      let column ← s.column t.extent
      if column ≠ 0 then
        Finding.flagIndent t.extent "Labels should have no indentation."
  else s.checkStart f t.extent 0

/-- Holds a construct to the rules of its form. -/
def check (s : Scene) (parent f : Frame) (t : Tree) : Finding Unit :=
  match f.construct.form with
  | .root | .silent | .unexposed => pure ()
  | .plain | .caseLabel | .enumeration | .function | .block | .conditional =>
    s.checkStart f t.extent 0
  | .record | .recordTemplate => s.checkBlock f t s.style.recordBraces
  | .method => s.checkBlock f t s.style.functionBraces
  | .rangeLoop | .whileLoop => s.checkBlock f t s.style.blockBraces
  | .switch => s.checkBlock f t s.style.switchBraces
  | .namespaceBody => s.checkBlock f t s.style.namespaceBraces
  | .compound => s.checkCompound f t.extent
  | .doLoop => s.checkDoLoop f t
  | .accessLabel => s.checkAccessLabel parent f t
  | .jumpLabel => s.checkJumpLabel f t

end Scene

end StyleCheck
