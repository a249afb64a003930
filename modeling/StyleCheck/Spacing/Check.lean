import StyleCheck.Report
import StyleCheck.Spacing.Namespace
import StyleCheck.Violation
import StyleCheck.Walk.Event

/-!
# The check of spacing

Follows a walk with a stack of the nodes entered. Namespaces are held to their rules of spacing;
all other nodes pass.
-/

namespace StyleCheck

/-- What a node is held to. -/
inductive SpacingForm where
  /-- The place that a whole unit stands in. -/
  | root
  /-- Nothing. -/
  | free
  | namespaceBody
  /-- Rules that nobody has given. -/
  | undecided
  deriving DecidableEq, Repr

def SpacingForm.label : SpacingForm → String
  | root => "RootHandler"
  | free => "NullHandler"
  | namespaceBody => "NamespaceHandler"
  | undecided => "WhitespaceNodeHandler"

/-- The form of a label. -/
def SpacingForm.ofLabel (label : String) : Except Fault SpacingForm :=
  match [root, free, namespaceBody, undecided].find? (fun f => f.label == label) with
  | some f => .ok f
  | none => .error (.noConstruct label)

/-- Holds a tree to the rules of a form. -/
def SpacingForm.check (f : SpacingForm) (unit : TranslationUnit) (t : Tree) :
    Report Violation Unit :=
  match f with
  | root | free => pure ()
  | undecided => Report.giveUp .noSpacingRule
  | namespaceBody => do
    let e := t.extent
    let breach ← Spacing.namespaceBreach (Token.within unit.tokens e.file e.start e.stop)
    match breach with
    | some b =>
      .note ⟨"spacing.namespace", some b.token.file, b.token.start.line, b.token.start.column,
        b.text⟩
    | none => pure ()

/-- A node that was entered: what it is held to, and how reports name it. -/
structure SpacingFrame where
  form : SpacingForm
  title : String
  deriving DecidableEq, Repr

namespace SpacingFrame

def root : SpacingFrame := ⟨.root, ""⟩

def ofKind : Kind → SpacingFrame
  | .namespaceDecl => ⟨.namespaceBody, "namespace"⟩
  | .structDecl => ⟨.free, "struct"⟩
  | .classDecl => ⟨.free, "class"⟩
  | .functionDecl => ⟨.free, "function"⟩
  | .compoundStmt => ⟨.free, "compound stmt"⟩
  | _ => ⟨.free, "<null>"⟩

end SpacingFrame

structure SpacingCheck where
  /-- The nodes entered and not yet left, the innermost first. -/
  frames : List SpacingFrame
  depth : Int
  deriving DecidableEq, Repr

namespace SpacingCheck

def new : SpacingCheck := ⟨[], 0⟩

/-- Follows one event of a walk. -/
def step (unit : TranslationUnit) (c : SpacingCheck) : Event → Report Violation SpacingCheck
  | .start _ =>
    if c.frames.isEmpty then pure { c with frames := [.root] }
    else Report.giveUp .unbalancedWalk
  | .enter t => do
    let kind ← t.node.kind
    let frame := SpacingFrame.ofKind kind
    frame.form.check unit t
    return ⟨frame :: c.frames, c.depth + 1⟩
  | .leave _ => pure ⟨c.frames.tail, c.depth - 1⟩
  | .finish _ =>
    if c.frames.length = 1 then pure { c with frames := [] }
    else Report.giveUp .unbalancedWalk

end SpacingCheck

end StyleCheck
