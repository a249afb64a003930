import StyleCheck.Tree.Token
import StyleCheck.Walk.Filter

/-!
# Events

A walk goes through a tree in preorder and leaves out every subtree whose top the filter refuses.
It enters a node, walks through what is below it, and leaves it again. The file of a node counts as
seen before the filter is asked.
-/

namespace StyleCheck

/-- What a check of trees is told. -/
inductive Event where
  /-- A unit begins. -/
  | start (t : Tree)
  | enter (t : Tree)
  | leave (t : Tree)
  /-- A unit ends. -/
  | finish (t : Tree)

namespace Event

def tree : Event → Tree
  | start t | enter t | leave t | finish t => t

end Event

/-- What happens on a walk. -/
inductive Visit where
  | seen (file : String)
  | event (e : Event)
  /-- The walk cannot go on. -/
  | fault (e : Fault)

namespace Tree

/-- The file of a node, if it has a named one, is seen. -/
def sighting (n : Node) : List Visit :=
  match n.file? with
  | some file => [.seen file]
  | none => []

mutual

/-- What happens on the walk through a tree. -/
def visits (f : VisitFilter) : Tree → List Visit × VisitFilter
  | mk n cs =>
    match f.allowsNode n with
    | (.error e, f) => (sighting n ++ [.fault e], f)
    | (.ok false, f) => (sighting n, f)
    | (.ok true, f) =>
      let below := visitsAll f cs
      (sighting n ++ .event (.enter (mk n cs)) :: below.1 ++ [.event (.leave (mk n cs))], below.2)

def visitsAll (f : VisitFilter) : List Tree → List Visit × VisitFilter
  | [] => ([], f)
  | t :: ts =>
    let first := t.visits f
    let rest := visitsAll first.2 ts
    (first.1 ++ rest.1, rest.2)

end

end Tree

/-- What happens on the walk through a unit. -/
def TranslationUnit.visits (u : TranslationUnit) (f : VisitFilter) : List Visit × VisitFilter :=
  let below := u.root.visits f
  (.event (.start u.root) :: below.1 ++ [.event (.finish u.root)], below.2)

end StyleCheck
