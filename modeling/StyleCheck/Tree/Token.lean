import StyleCheck.Text.Utf8
import StyleCheck.Tree.Node

/-!
# Tokens

The tokens of a file in source order. The tokens of a range run from the first that does not start
before it up to and including the first that ends behind it.
-/

namespace StyleCheck

inductive TokenKind where
  | punctuation | keyword | identifier | literal | comment
  deriving DecidableEq, Repr

structure Token where
  kind : TokenKind
  spelling : String
  file : String
  start : Pos
  /-- The number of the node that the token belongs to. -/
  owner : Option Nat
  deriving DecidableEq, Repr

namespace Token

/-- The position behind a text that starts at `p`. -/
def behind (p : Pos) : Text → Pos
  | [] => p
  | b :: t => behind (if b = Text.newline then ⟨p.line + 1, 1⟩ else ⟨p.line, p.column + 1⟩) t

/-- The position behind the token. -/
def stop (t : Token) : Pos := behind t.start (Text.ofString t.spelling)

def extent (t : Token) : Extent := ⟨some t.file, t.start, t.stop⟩

/-- Whether a token is the given piece of punctuation. -/
def isMark (t : Token) (spelling : String) : Bool :=
  t.kind == .punctuation && t.spelling == spelling

/-- Tokens up to and including the first that ends behind `stop`. -/
def takeThrough (stop : Pos) : List Token → List Token
  | [] => []
  | t :: ts => t :: if stop.before t.stop then [] else takeThrough stop ts

/-- The tokens of a range, of the file that it starts in. -/
def within (ts : List Token) (file : Option String) (start stop : Pos) : List Token :=
  takeThrough stop (ts.filter fun t => some t.file == file && !t.start.before start)

end Token

/-- A compilation unit: its syntax tree and the tokens of its files. -/
structure TranslationUnit where
  root : Tree
  tokens : List Token

namespace TranslationUnit

/-- The first tree below the top whose node is located there. -/
def atLocation? (u : TranslationUnit) (file : Option String) (p : Pos) : Option Tree :=
  ((u.root.preorder.drop 1).find? fun t => t.node.file == file && t.node.location == p).map
    Tree.attached

/-- The node that a token belongs to. It is handed out with its data, whether or not a walk hands it
out so. -/
def owner? (u : TranslationUnit) (t : Token) : Option Node :=
  t.owner.bind fun number =>
    (u.root.preorder.find? fun s => s.node.id == number).map (·.attached.node)

/-- Whether a token belongs to a node, as the node was handed out. -/
def owns (u : TranslationUnit) (n : Node) (t : Token) : Bool := (u.owner? t).any (·.same n)

/-- A token belongs to the node of its number, if the node is in the unit and has its data. -/
theorem owns_iff {u : TranslationUnit} {n : Node} {t : Token} : u.owns n t = true ↔
    t.owner = some n.id ∧ n.detached = false ∧ ∃ s ∈ u.root.preorder, s.node.id = n.id := by
  have hattached : ∀ s : Tree, s.attached.node = { s.node with detached := false } := by
    rintro ⟨m, cs⟩
    rfl
  unfold owns owner?
  cases howner : t.owner with
  | none => simp
  | some number =>
    rw [Option.bind_some]
    cases hfound : u.root.preorder.find? fun s => s.node.id == number with
    | none =>
      refine iff_of_false Bool.false_ne_true ?_
      rintro ⟨hnumber, -, s, hs, hid⟩
      have hnone := List.find?_eq_none.mp hfound s hs
      exact hnone (by rw [hid, Option.some.inj hnumber, beq_self_eq_true])
    | some s =>
      have hfits := List.find?_some hfound
      have hnumber : s.node.id = number := eq_of_beq hfits
      rw [Option.map_some, Option.any_some, hattached, Node.same, Bool.and_eq_true, beq_iff_eq,
        beq_iff_eq, hnumber, Option.some_inj]
      refine and_congr_right fun hid => ⟨fun hd => ⟨hd.symm, s, ?_, ?_⟩, fun hd => hd.1.symm⟩
      · exact List.mem_of_find?_eq_some hfound
      · rw [hnumber, hid]

end TranslationUnit

end StyleCheck
