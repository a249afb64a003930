import StyleCheck.Indent.Construct
import StyleCheck.Indent.Levels
import StyleCheck.Indent.Settings
import StyleCheck.Tree.Node

/-!
# Frames

A frame is a construct that is open while its parts are visited. Its levels are those of the frame
around it, moved by the levels that one adds to its body.
-/

namespace StyleCheck

structure Frame where
  construct : Construct
  /-- The kind that made it, as reports write it. -/
  title : String
  levels : Levels
  /-- Whether the frame around it answers for the braces of compound statements. -/
  bracesAbove : Bool
  /-- Whether an access label was met in it. -/
  marked : Bool
  /-- The tree that it was opened for. -/
  tree : Option Tree

namespace Frame

/-- The frame around a whole unit. -/
def root : Frame where
  construct := .root
  title := ""
  levels := .single 0
  bracesAbove := false
  marked := false
  tree := none

/-- Whether it answers for the braces of a compound statement directly in it. -/
def ownsBraces (f : Frame) : Bool :=
  match f.construct.form with
  | .record | .recordTemplate | .method | .function | .block | .rangeLoop | .whileLoop
  | .conditional | .doLoop | .switch | .namespaceBody => true
  | .unexposed => f.bracesAbove
  | .root | .plain | .silent | .caseLabel | .enumeration | .compound | .accessLabel
  | .jumpLabel => false

/-- Indented braces take their body one level along. -/
def bracesAdd (p : BracePlacement) : Int := if p = .nextLineIndent then 1 else 0

/-- The levels that its body stands further in than it does. -/
def extraLevels (style : IndentStyle) (f : Frame) : Int :=
  match f.construct.form with
  | .record =>
    bracesAdd style.recordBraces + style.insideRecord.count +
      (style.belowVisibility.isOn && f.marked).toInt
  | .recordTemplate | .enumeration => bracesAdd style.recordBraces + style.insideRecord.count
  | .method | .function => bracesAdd style.functionBraces + style.insideFunction.count
  | .rangeLoop | .whileLoop | .conditional | .doLoop =>
    bracesAdd style.blockBraces + style.insideBlock.count
  | .switch => bracesAdd style.blockBraces + style.insideSwitch.count
  | .namespaceBody => bracesAdd style.namespaceBraces + style.insideNamespace.count
  | .caseLabel => style.insideCase.count
  | .compound => if f.bracesAbove then 0 else style.insideBlock.count
  | .root | .plain | .silent | .unexposed | .block | .accessLabel | .jumpLabel => 0

/-- Why the levels of its body cannot be told, if they cannot: a setting that counts them holds no
number. -/
def bodyFault? (style : IndentStyle) (f : Frame) : Option Fault :=
  match f.construct.form with
  | .record =>
    style.insideRecord.countFault?.or
      (if style.belowVisibility.isOn then none else style.belowVisibility.countFault?)
  | .recordTemplate | .enumeration => style.insideRecord.countFault?
  | .method | .function => style.insideFunction.countFault?
  | .rangeLoop | .whileLoop | .conditional | .doLoop => style.insideBlock.countFault?
  | .switch => style.insideSwitch.countFault?
  | .namespaceBody => style.insideNamespace.countFault?
  | .caseLabel => style.insideCase.countFault?
  | .compound => if f.bracesAbove then none else style.insideBlock.countFault?
  | .root | .plain | .silent | .unexposed | .block | .accessLabel | .jumpLabel => none

/-- The levels of what stands directly in it. -/
def childLevels (style : IndentStyle) (f : Frame) : Levels :=
  f.levels.shift (style.levelSize * f.extraLevels style)

/-- Opens a construct inside a frame. -/
def enter (style : IndentStyle) (parent : Frame) (c : Construct) (title : String)
    (tree : Option Tree) : Frame where
  construct := c
  title := title
  levels := parent.childLevels style
  bracesAbove := parent.ownsBraces
  marked := false
  tree := tree

/-- Opens the construct of a kind inside a frame. -/
def enterKind (style : IndentStyle) (parent : Frame) (k : Kind) (tree : Option Tree) :
    Except Fault Frame :=
  match Construct.ofKind k, parent.bodyFault? style with
  | .error e, _ => .error e
  | .ok _, some e => .error e
  | .ok c, none => .ok (parent.enter style c (k.name ++ "'") tree)

/-- A construct that stands directly in a unit. -/
def alone (style : IndentStyle) (c : Construct) (tree : Tree) : Frame :=
  if c.form = .root then root else root.enter style c "" (some tree)

/-- Records that an access label was met. -/
def mark (f : Frame) : Frame := { f with marked := true }

/-- Whether it is a class, struct or union, the frames that access labels mark. -/
def keepsMark (f : Frame) : Bool := f.construct.form == .record

/-- Whether a part of it is looked at. A loop over a range lets its last part through alone. -/
def allows (f : Frame) (n : Node) : Except Fault Bool :=
  match f.construct.form with
  | .rangeLoop =>
    match f.tree.bind Tree.lastChild? with
    | some last => .ok (n.same last.node)
    | none => .error .entryOutOfRange
  | _ => .ok true

end Frame

end StyleCheck
