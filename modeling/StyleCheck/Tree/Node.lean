import StyleCheck.Fault
import StyleCheck.Tree.Kind

/-!
# Syntax trees

A node says what it is and where it stands; a tree is a node with its subtrees in source order.
`Tree.number` gives the nodes of a tree their numbers in preorder, by which tokens refer to them.
-/

namespace StyleCheck

/-- A line and a column, both counted from one. -/
structure Pos where
  line : Int
  column : Int
  deriving DecidableEq, Repr

namespace Pos

/-- Whether `p` stands before `q`. -/
def before (p q : Pos) : Bool :=
  decide (p.line < q.line) || (decide (p.line = q.line) && decide (p.column < q.column))

end Pos

/-- A stretch of a file, if of any. The end is the position behind its last byte. -/
structure Extent where
  file : Option String
  start : Pos
  stop : Pos
  deriving DecidableEq, Repr

structure Node where
  /-- The number of the node in its unit. -/
  id : Nat
  /-- The kind, or the fault that comes of asking for it. -/
  kind : Except Fault Kind
  /-- The file that the location is in. -/
  file : Option String
  location : Pos
  extent : Extent
  /-- Whether the node was handed out without its data. -/
  detached : Bool

/-- Two nodes of one unit are the same if they have one number and were handed out alike. -/
def Node.same (a b : Node) : Bool := a.id == b.id && a.detached == b.detached

/-- The file of a node's location, unless it has no name. -/
def Node.file? (n : Node) : Option String := n.file.filter (· ≠ "")

inductive Tree where
  | mk (node : Node) (children : List Tree)

namespace Tree

def node : Tree → Node
  | mk n _ => n

def children : Tree → List Tree
  | mk _ cs => cs

def extent (t : Tree) : Extent := t.node.extent

def lastChild? (t : Tree) : Option Tree := t.children.getLast?

/-- The same tree with the data of its top node at hand. -/
def attached : Tree → Tree
  | mk n cs => mk { n with detached := false } cs

mutual

/-- The tree and all its subtrees, a tree in front of those below it. -/
def preorder : Tree → List Tree
  | mk n cs => mk n cs :: preorderAll cs

def preorderAll : List Tree → List Tree
  | [] => []
  | t :: ts => t.preorder ++ preorderAll ts

end

mutual

/-- Numbers the nodes in preorder from `next` on; the second part is the next free number. -/
def numberFrom (next : Nat) : Tree → Tree × Nat
  | mk n cs =>
    let r := numberAllFrom (next + 1) cs
    (mk { n with id := next } r.1, r.2)

def numberAllFrom (next : Nat) : List Tree → List Tree × Nat
  | [] => ([], next)
  | t :: ts =>
    let r := numberFrom next t
    let rs := numberAllFrom r.2 ts
    (r.1 :: rs.1, rs.2)

end

/-- Numbers the nodes in preorder; the top node is zero. -/
def number (t : Tree) : Tree := (numberFrom 0 t).1

end Tree

end StyleCheck
