/-!
# Paths

File names become absolute below the root directory: empty parts and `.` are dropped, `..` drops
the part in front of it, and exactly two leading slashes stay two.
-/

namespace StyleCheck

/-- An absolute path: whether it starts with two slashes, and its parts from the root on. -/
structure AbsPath where
  doubled : Bool
  parts : List (List Char)
  deriving DecidableEq, Repr

namespace AbsPath

/-- The parts of a name between its slashes; a name without slashes is one part. -/
def split : List Char → List (List Char)
  | [] => [[]]
  | c :: cs =>
    match split cs with
    | [] => [[c]]
    | p :: ps => if c = '/' then [] :: p :: ps else (c :: p) :: ps

/-- The parts with slashes between them. -/
def join : List (List Char) → List Char
  | [] => []
  | [p] => p
  | p :: q :: ps => p ++ '/' :: join (q :: ps)

/-- One more part behind a resolved path. -/
def descend (parts : List (List Char)) (p : List Char) : List (List Char) :=
  if p = [] ∨ p = ['.'] then parts
  else if p = ['.', '.'] then parts.dropLast
  else parts ++ [p]

/-- Two leading slashes count, three or more are one. -/
def startsDoubled : List Char → Bool
  | '/' :: '/' :: '/' :: _ => false
  | '/' :: '/' :: _ => true
  | _ => false

/-- The path a name stands for. -/
def ofName (name : String) : AbsPath :=
  ⟨startsDoubled name.toList, (split name.toList).foldl descend []⟩

def toName (p : AbsPath) : String :=
  String.ofList (if p.doubled then '/' :: '/' :: join p.parts else '/' :: join p.parts)

end AbsPath

/-- The absolute name of a file. -/
def absoluteName (name : String) : String := (AbsPath.ofName name).toName

/-- The last two parts of a file name, as it is spelled. -/
def shortName (name : String) : String :=
  let parts := AbsPath.split name.toList
  String.ofList (AbsPath.join (parts.drop (parts.length - 2)))

end StyleCheck
