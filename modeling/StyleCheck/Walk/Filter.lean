import StyleCheck.Fault
import StyleCheck.OrdSet
import StyleCheck.Path
import StyleCheck.Tree.Node

/-!
# Filters

A filter lets files through whose absolute name starts with the name of an included directory. It
keeps its answers under absolute names and looks them up under the name it is asked about. Files
that were blocked meanwhile are refused, unless there is an answer kept under their name.
-/

namespace StyleCheck

structure VisitFilter where
  /-- The absolute names of the included directories. -/
  dirs : List String
  /-- The answers kept, by name. -/
  cache : List (String × Bool)
  blocked : OrdSet String
  deriving DecidableEq, Repr

namespace VisitFilter

def ofDirs (dirs : List String) : VisitFilter := ⟨dirs.map absoluteName, [], .empty⟩

/-- Whether an absolute name starts with the name of an included directory. -/
def covers (dirs : List String) (path : String) : Bool :=
  dirs.any (fun d => d.toList.isPrefixOf path.toList)

/-- Keeps an answer under a name, in place of any other. -/
def remember (f : VisitFilter) (name : String) (answer : Bool) : VisitFilter :=
  { f with cache := (name, answer) :: f.cache.filter (fun e => e.1 != name) }

/-- Whether a file is let through. -/
def allowsFile (f : VisitFilter) (name : String) : Except Fault Bool × VisitFilter :=
  match f.cache.lookup name with
  | some answer => (.ok answer, f)
  | none =>
    if f.blocked.contains name then (.error (.blockedFile name), f)
    else
      let path := absoluteName name
      let answer := covers f.dirs path
      (.ok answer, f.remember path answer)

/-- Whether a node is let through: the top of a unit always, what is in no file never, and all
else with its file. -/
def allowsNode (f : VisitFilter) (n : Node) : Except Fault Bool × VisitFilter :=
  match n.kind with
  | .error e => (.error e, f)
  | .ok .translationUnit => (.ok true, f)
  | .ok _ =>
    match n.file? with
    | none => (.ok false, f)
    | some name => f.allowsFile name

/-- Blocks files from now on. -/
def block (f : VisitFilter) (names : OrdSet String) : VisitFilter :=
  { f with blocked := f.blocked.union names }

/-- What a filter is asked to do. -/
inductive Request where
  | file (name : String)
  | node (n : Node)
  | block (names : List String)

/-- Does what is asked; blocking has no answer. -/
def step (f : VisitFilter) : Request → Except Fault (Option Bool) × VisitFilter
  | .file name => let r := f.allowsFile name; (some <$> r.1, r.2)
  | .node n => let r := f.allowsNode n; (some <$> r.1, r.2)
  | .block names => (.ok none, f.block (.ofList names))

end VisitFilter

/-- Something that may stand in a named file, and whether it was found to. The first answer
stays. -/
structure Placement where
  file : Option String
  known : Option Bool
  deriving DecidableEq, Repr

namespace Placement

/-- Whether it stands in a file that has a name. -/
def hasFile (p : Placement) : Bool × Placement :=
  match p.known with
  | some answer => (answer, p)
  | none =>
    let answer := (p.file.filter (· ≠ "")).isSome
    (answer, { p with known := some answer })

/-- Moves it elsewhere, or nowhere. -/
def move (p : Placement) (file : Option String) : Placement := { p with file := file }

end Placement

end StyleCheck
