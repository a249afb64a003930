import StyleCheck.Display
import StyleCheck.TextRule.Basic
import StyleCheck.Walk.Check

/-!
# Audits

An audit walks through units with its tree checks, holds every file seen on the way to its text
rules, and displays what was found. Files outside the included directories are seen but not held
to the rules.
-/

namespace StyleCheck

/-- What an audit has come to. -/
inductive AuditPhase where
  | error | exception | started | finished | fileStarted | fileFinished
  deriving DecidableEq, Repr

/-- What an audit tells its listeners: what it has come to, and with which file. -/
structure AuditEvent where
  phase : AuditPhase
  file : Option String
  deriving DecidableEq, Repr

namespace AuditEvent

/-- Every event is passed on. -/
def passes (_ : AuditEvent) : Bool := true

/-- What a listener does that does not care. -/
def ignore (_ : AuditEvent) : Unit := ()

end AuditEvent

/-- Compilation units by name. -/
abbrev Units := List (String × TranslationUnit)

structure AuditOptions where
  includeDirs : List String
  display : DisplayOptions
  deriving DecidableEq, Repr

/-- How far an audit has come. -/
structure Audit where
  trees : List TreeAudit
  texts : List TextAudit
  seen : OrdSet String
  events : List AuditEvent
  /-- The lines displayed. -/
  printed : List Text
  /-- The lines told about files that could not be judged. -/
  notices : List String
  fault : Option Fault

namespace Audit

def new (trees : List TreeCheck) (texts : List TextRule) : Audit where
  trees := trees.map .ofCheck
  texts := texts.map .ofRule
  seen := .empty
  events := []
  printed := []
  notices := []
  fault := none

/-- Tells the listeners. -/
def tell (a : Audit) (phase : AuditPhase) (file : Option String) : Audit :=
  { a with events := a.events ++ [⟨phase, file⟩] }

/-- Walks through the unit of a name. -/
def walkUnit (files : FileSystem) (units : Units) (dirs : List String) (a : Audit)
    (name : String) : Audit :=
  if a.fault.isSome then a
  else
    match units.lookup name with
    | none => { a with fault := some (.absent "spelling") }
    | some unit =>
      let w := (Walk.run files unit dirs a.trees).1
      match w.fault with
      | some e => { a with trees := w.checks, fault := some e }
      | none => { a with trees := w.checks, seen := a.seen.union w.seen }

/-- Holds a file to one rule after the other, up to the first fault. -/
def checkTexts (file : SourceFile) : List TextAudit → List TextAudit × List String × Option Fault
  | [] => ([], [], none)
  | t :: ts =>
    let notices := (t.rule.notice? file).toList
    match t.check file with
    | (t, some fault) => (t :: ts, notices, some fault)
    | (t, none) =>
      let rest := checkTexts file ts
      (t :: rest.1, notices ++ rest.2.1, rest.2.2)

/-- Holds a file to the text rules. -/
def checkFile (files : FileSystem) (a : Audit) (name : String) : Audit :=
  let a := a.tell .fileStarted (some name)
  match files.read name with
  | .error e => { a with fault := some e }
  | .ok file =>
    let r := checkTexts file a.texts
    let a := { a with texts := r.1, notices := a.notices ++ r.2.1, fault := r.2.2 }
    if a.fault.isSome then a else a.tell .fileFinished (some name)

/-- Holds the files that a filter lets through to the text rules. -/
def checkFiles (files : FileSystem) : VisitFilter → Audit → List String → Audit
  | _, a, [] => a
  | f, a, name :: names =>
    if a.fault.isSome then a
    else
      match f.allowsFile name with
      | (.error e, _) => { a with fault := some e }
      | (.ok false, f) => checkFiles files f a names
      | (.ok true, f) => checkFiles files f (a.checkFile files name) names

/-- All violations; of two equal ones, that of the check which comes first. -/
def violations (a : Audit) : ViolationSet :=
  (a.trees.map TreeAudit.violations ++ a.texts.map TextAudit.violations).foldl OrdSet.union .empty

/-- Displays the violations. -/
def showFound (files : FileSystem) (o : DisplayOptions) (a : Audit) : Audit :=
  let r := ViolationSet.display files o a.violations
  { a with printed := a.printed ++ r.notes, fault := r.fault? }

/-- Audits the units of some names. -/
def run (files : FileSystem) (units : Units) (o : AuditOptions) (names : List String)
    (a : Audit) : Audit :=
  let a := names.foldl (walkUnit files units o.includeDirs) (a.tell .started none)
  let a := checkFiles files (.ofDirs o.includeDirs) a a.seen.toList
  if a.fault.isSome then a else (a.tell .finished none).showFound files o.display

/-- One if anything was found. -/
def status (a : Audit) : Nat := if a.violations.size = 0 then 0 else 1

end Audit

/-- What is known of a text under test. -/
structure ScratchResult where
  violations : ViolationSet
  /-- The lines displayed. -/
  printed : List Text
  /-- The files that are left. -/
  files : FileSystem
  deriving DecidableEq, Repr

namespace ScratchResult

/-- The file and the directory that a text under test is kept in. -/
def file : String := "/tmp/tu.cpp"

def directory : String := "/tmp"

/-- Audits a text under test. A fault cuts the audit short, and is not told. -/
def ofText (units : Units) (text : Text) (a : Audit) : ScratchResult :=
  let files := FileSystem.write ⟨[]⟩ file text
  let a := a.run files units ⟨[directory], ⟨false, false, []⟩⟩ [file]
  ⟨a.violations, a.printed, files.erase file⟩

end ScratchResult

end StyleCheck
