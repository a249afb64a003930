import StyleCheck.Indent.Rules
import StyleCheck.Walk.Event

/-!
# The check of indentation

Follows a walk with a stack of frames, one for each node that was entered and not yet left. Where a
frame does not let a part through, the check stops until the walk leaves that part again.
-/

namespace StyleCheck

structure IndentCheck where
  style : IndentStyle
  /-- The open frames, the innermost first. -/
  frames : List Frame
  /-- The node the check stopped at. -/
  stopped : Option Node
  depth : Int

/-- A frame about to be opened, for a tree, inside the frames that are open already. -/
structure Opening where
  tree : Tree
  parent : Frame
  outer : List Frame
  frame : Frame

/-- The frame around an opening once it is made: an access label marks it. -/
def Opening.parentAfter (o : Opening) : Frame :=
  if o.frame.construct.form = .accessLabel then o.parent.mark else o.parent

namespace IndentCheck

def ofStyle (style : IndentStyle) : IndentCheck := ⟨style, [], none, 0⟩

/-- The frame that a tree is looked at in. There is none while the check is stopped, nor where the
frame around the tree does not let it through. -/
def opening? (c : IndentCheck) (t : Tree) : Except Fault (Option Opening) := do
  let kind ← t.node.kind
  if c.stopped.isSome then return none
  match c.frames with
  | [] => throw .entryOutOfRange
  | parent :: outer =>
    let allowed ← parent.allows t.node
    if allowed then
      let frame ← parent.enterKind c.style kind (some t)
      return some ⟨t, parent, outer, frame⟩
    else return none

/-- Opens a frame, and marks the frame around it if it is that of an access label. -/
def push (c : IndentCheck) (o : Opening) : IndentCheck :=
  { c with frames := o.frame :: o.parentAfter :: o.outer, depth := c.depth + 1 }

/-- Follows one event of a walk. -/
def step (files : FileSystem) (unit : TranslationUnit) (c : IndentCheck) :
    Event → Finding IndentCheck
  | .start _ =>
    if c.frames.isEmpty then pure { c with frames := [.root] }
    else Report.giveUp .unbalancedWalk
  | .enter t => do
    match ← c.opening? t with
    | some o =>
      Scene.check ⟨files, unit, c.style⟩ o.parent o.frame t
      return c.push o
    | none => return { c with stopped := c.stopped.or (some t.node) }
  | .leave t =>
    match c.stopped with
    | some n => pure (if n.same t.node then { c with stopped := none } else c)
    | none => pure { c with frames := c.frames.tail, depth := c.depth - 1 }
  | .finish _ =>
    if c.frames.length = 1 then pure { c with frames := [] }
    else Report.giveUp .unbalancedWalk

end IndentCheck

end StyleCheck
