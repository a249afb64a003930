import StyleCheck.Indent.Check
import StyleCheck.Spacing.Check

/-!
# Walks

A walk tells every check what happens, in turn, and is given up at the first fault. The violations
that a check reported before a fault stay with it.
-/

namespace StyleCheck

/-- A check that follows walks through trees. -/
inductive TreeCheck where
  | indent (c : IndentCheck)
  | spacing (c : SpacingCheck)
  /-- A check without rules, which cannot follow anything. -/
  | bare

/-- Follows one event of a walk. -/
def TreeCheck.step (files : FileSystem) (unit : TranslationUnit) (c : TreeCheck) (e : Event) :
    Report Violation TreeCheck :=
  match c with
  | indent c => indent <$> c.step files unit e
  | spacing c => spacing <$> c.step unit e
  | bare => Report.giveUp .noLog

/-- A check with what it has reported. -/
structure TreeAudit where
  check : TreeCheck
  violations : ViolationSet

namespace TreeAudit

def ofCheck (c : TreeCheck) : TreeAudit := ⟨c, .empty⟩

/-- Follows one event, and keeps what is reported even if a fault cuts it short. -/
def step (files : FileSystem) (unit : TranslationUnit) (a : TreeAudit) (e : Event) :
    TreeAudit × Option Fault :=
  let r := a.check.step files unit e
  let violations := a.violations.insertAll r.notes
  match r.outcome with
  | .ok c => (⟨c, violations⟩, none)
  | .error fault => (⟨a.check, violations⟩, some fault)

/-- Tells several checks of one event, up to the first fault. -/
def stepAll (files : FileSystem) (unit : TranslationUnit) (e : Event) :
    List TreeAudit → List TreeAudit × Option Fault
  | [] => ([], none)
  | a :: as =>
    match a.step files unit e with
    | (a, some fault) => (a :: as, some fault)
    | (a, none) =>
      let rest := stepAll files unit e as
      (a :: rest.1, rest.2)

end TreeAudit

/-- How far a walk has come: its checks, the files seen, and the fault that ended it. -/
structure Walk where
  checks : List TreeAudit
  seen : OrdSet String
  fault : Option Fault

namespace Walk

def ofChecks (checks : List TreeAudit) : Walk := ⟨checks, .empty, none⟩

/-- One thing happens. Nothing happens behind a fault. -/
def visit (files : FileSystem) (unit : TranslationUnit) (w : Walk) (v : Visit) : Walk :=
  match w.fault, v with
  | some _, _ => w
  | none, .seen file => { w with seen := w.seen.insert file }
  | none, .fault e => { w with fault := some e }
  | none, .event e =>
    let r := TreeAudit.stepAll files unit e w.checks
    { w with checks := r.1, fault := r.2 }

/-- The walk through a unit. A walk that comes to its end leaves its filter, with all blocked that
it has seen. -/
def run (files : FileSystem) (unit : TranslationUnit) (dirs : List String)
    (checks : List TreeAudit) : Walk × Option VisitFilter :=
  let r := unit.visits (.ofDirs dirs)
  let w := r.1.foldl (visit files unit) (ofChecks checks)
  (w, if w.fault.isSome then none else some (r.2.block w.seen))

end Walk

end StyleCheck
