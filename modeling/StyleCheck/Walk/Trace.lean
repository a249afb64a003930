import StyleCheck.Walk.Check

/-!
# Traces

What the checks of a walk look like after each event, over several units one after the other.
-/

namespace StyleCheck

/-- The checks after an event. -/
structure Snapshot where
  event : Event
  kind : Kind
  checks : List TreeAudit

/-- Walks through several units, with what was noted of the checks. -/
structure Trace where
  snapshots : List Snapshot
  /-- The walk at hand, or the last one. -/
  walk : Walk
  /-- The files blocked behind it. -/
  blocked : OrdSet String

namespace Trace

def ofCheck (c : TreeCheck) : Trace := ⟨[], .ofChecks [.ofCheck c], .empty⟩

/-- One thing happens, and the checks are noted after an event. -/
def visit (files : FileSystem) (unit : TranslationUnit) (t : Trace) (v : Visit) : Trace :=
  let w := t.walk.visit files unit v
  match t.walk.fault, v, w.fault with
  | none, .event e, none =>
    match e.tree.node.kind with
    | .ok kind => { t with snapshots := t.snapshots ++ [⟨e, kind, w.checks⟩], walk := w }
    | .error fault => { t with walk := { w with fault := some fault } }
  | _, _, _ => { t with walk := w }

/-- Walks through one more unit, if there is one. -/
def walkUnit (files : FileSystem) (dirs : List String) (t : Trace)
    (unit : Option TranslationUnit) : Trace :=
  if t.walk.fault.isSome then t
  else
    let t := { t with walk := .ofChecks t.walk.checks, blocked := .empty }
    match unit with
    | none => { t with walk := { t.walk with fault := some (.absent "cursor") } }
    | some unit =>
      let r := unit.visits (.ofDirs dirs)
      let t := r.1.foldl (visit files unit) t
      if t.walk.fault.isSome then t else { t with blocked := (r.2.block t.walk.seen).blocked }

/-- Walks through several units. -/
def run (files : FileSystem) (dirs : List String) (c : TreeCheck)
    (units : List (Option TranslationUnit)) : Trace :=
  units.foldl (walkUnit files dirs) (ofCheck c)

end Trace

end StyleCheck
