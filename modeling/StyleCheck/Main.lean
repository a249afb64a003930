import StyleCheck.CommandLine
import StyleCheck.Profile

/-!
# The program

Audits the files named on the command line with the house style. Every file is a unit of its own
that holds one declaration nobody has looked into, so that the rules about texts apply to it.
-/

namespace StyleCheck

/-- A node that says no more than the file it is in. -/
def fileNode (kind : Kind) (file : Option String) : Node where
  id := 0
  kind := .ok kind
  file := file
  location := ⟨1, 1⟩
  extent := ⟨file, ⟨1, 1⟩, ⟨1, 1⟩⟩
  detached := false

/-- The unit of a file. -/
def fileUnit (file : String) : TranslationUnit where
  root := (Tree.mk (fileNode .translationUnit none)
    [.mk (fileNode .unexposedDecl (some file)) []]).number
  tokens := []

/-- The texts of the files that can be read, by absolute name, and their units. -/
def loadFiles : List String → IO (List (String × Text) × Units)
  | [] => return ([], [])
  | name :: names => do
    let (texts, units) ← loadFiles names
    try
      let bytes ← IO.FS.readBinFile name
      return ((absoluteName name, bytes.data.toList) :: texts, (name, fileUnit name) :: units)
    catch _ => return (texts, units)

/-- Writes a line as it is. -/
def printLine (line : Text) : IO Unit := do
  (← IO.getStdout).write ⟨(line ++ [Text.newline]).toArray⟩

/-- Writes what an audit displayed, and ends with its status. -/
def concludeAudit (a : Audit) : IO UInt32 := do
  for line in a.printed do printLine line
  for line in a.notices do IO.eprintln line
  match a.fault with
  | some e => IO.eprintln e.message; return 1
  | none => return a.status.toUInt32

end StyleCheck

open StyleCheck in
def main (words : List String) : IO UInt32 := do
  let named := match CommandLine.parse words with
    | .ok o => o.files
    | .error _ => []
  let (texts, units) ← loadFiles named
  match Profile.library with
  | .error e => IO.eprintln e.message; return 1
  | .ok profile =>
    match CommandLine.run ⟨texts⟩ units profile.audit words with
    | .usage lines => for line in lines do IO.eprintln line
                      return 2
    | .help lines => for line in lines do IO.println line
                     return 0
    | .audited a => concludeAudit a
