import StyleCheck.Fault
import StyleCheck.OrdSet

/-!
# Levels

The columns in which a construct may start: a finite set of integers, never empty. `LevelStore`
holds objects that are known by name, each of which refers to its levels, and follows commands that
make, widen and ask them.
-/

namespace StyleCheck

/-- The accepted columns, in increasing order. -/
structure Levels where
  columns : OrdSet Int
  nonempty : columns.toList ≠ []
  deriving DecidableEq, Repr

namespace Levels

def single (column : Int) : Levels := ⟨.single column, List.cons_ne_nil _ _⟩

/-- All columns moved by `d`. -/
def shift (l : Levels) (d : Int) : Levels where
  columns := ⟨l.columns.toList.map (· + d), l.columns.ascending.map _ fun a b h => by
    rw [Int.compare_eq_lt] at h ⊢
    omega⟩
  nonempty := fun h => l.nonempty (List.map_eq_nil_iff.mp h)

def accepts (l : Levels) (column : Int) : Bool := l.columns.toList.contains column

/-- Whether the largest column is larger than this one. -/
def exceeds (l : Levels) (column : Int) : Except Fault Bool :=
  match l.columns.toList.getLast? with
  | some c => .ok (decide (column < c))
  | none => .error .entryOutOfRange

def insert (l : Levels) (column : Int) : Levels :=
  ⟨l.columns.insert column, OrdSet.insertInto_ne_nil⟩

def union (l m : Levels) : Levels :=
  ⟨l.columns.union m.columns, l.columns.insertAll_ne_nil l.nonempty _⟩

def isMultiple (l : Levels) : Bool := decide (1 < l.columns.size)

/-- The columns, with commas between them. A set of several columns may be listed in any order; here
it is in increasing order. -/
def listing (l : Levels) : String := ", ".intercalate (l.columns.toList.map toString)

def render (l : Levels) : String := "IndentLevel(\x7b" ++ l.listing ++ "\x7d)"

/-- Levels from a column, or else from a base and an offset. -/
def make (column : Option Int) (base : Option Levels) (offset : Option Int) :
    Except Fault Levels :=
  match column, base, offset with
  | some c, _, _ => .ok (single c)
  | none, some b, some d => .ok (b.shift d)
  | none, _, _ => .error .levelsNotGiven

theorem ext_columns {l m : Levels} (h : l.columns.toList = m.columns.toList) : l = m := by
  obtain ⟨⟨columns, _⟩, _⟩ := l
  obtain ⟨⟨_, _⟩, _⟩ := m
  cases h
  rfl

theorem single_inj {a b : Int} : single a = single b ↔ a = b := by simp [single, OrdSet.single]

theorem single_shift (c d : Int) : (single c).shift d = single (c + d) := rfl

theorem shift_zero (l : Levels) : l.shift 0 = l := ext_columns (by simp [shift])

theorem accepts_iff {l : Levels} {c : Int} : l.accepts c = true ↔ c ∈ l.columns.toList := by
  simp [accepts]

theorem accepts_single {a b : Int} : (single a).accepts b = true ↔ b = a := by
  simp [single, OrdSet.single, accepts]

theorem accepts_shift {l : Levels} {d c : Int} :
    (l.shift d).accepts c = true ↔ ∃ a ∈ l.columns.toList, c = a + d := by
  simp [shift, accepts, eq_comm]

end Levels

/-- Objects by name, and the levels that they refer to. -/
structure LevelStore where
  /-- All levels that were made, each under its number. -/
  cells : List Levels
  /-- The number of the levels that the object of a name refers to. -/
  refs : List (String × Nat)
  deriving DecidableEq, Repr

namespace LevelStore

/-- A command on named levels. -/
inductive Command where
  | make (column : Option Int) (base : Option String) (offset : Option Int)
  | accepts (column : Int)
  | exceeds (column : Int)
  | insert (column : Int)
  | union (other : String)
  | isMultiple
  | render
  deriving DecidableEq, Repr

inductive Answer where
  | done
  | truth (b : Bool)
  | text (s : String)
  deriving DecidableEq, Repr

def empty : LevelStore := ⟨[], []⟩

/-- The number of the levels that a name stands for. -/
def ref? (s : LevelStore) (name : String) : Option Nat := s.refs.lookup name

def get (s : LevelStore) (name : String) : Except Fault Levels :=
  match (s.ref? name).bind (s.cells[·]?) with
  | some l => .ok l
  | none => .error (.absent name)

/-- New levels, for a new object of this name. -/
def put (s : LevelStore) (name : String) (l : Levels) : LevelStore :=
  ⟨s.cells ++ [l], (name, s.cells.length) :: s.refs.filter (fun e => e.1 != name)⟩

/-- Changes the levels that a name stands for. Every object that refers to them has them changed. -/
def update (s : LevelStore) (name : String) (l : Levels) : LevelStore :=
  match s.ref? name with
  | some number => { s with cells := s.cells.set number l }
  | none => s

/-- What a command on `name` answers, and the levels that `name` has behind it. -/
def answer (s : LevelStore) (name : String) : Command → Except Fault (Answer × Levels)
  | .make column base offset => do
    let base ← match base with
      | some b => some <$> s.get b
      | none => pure none
    return (.done, ← Levels.make column base offset)
  | .accepts column => do let l ← s.get name; return (.truth (l.accepts column), l)
  | .exceeds column => do let l ← s.get name; return (.truth (← l.exceeds column), l)
  | .insert column => do let l ← s.get name; return (.done, l.insert column)
  | .union other => do let l ← s.get name; return (.done, l.union (← s.get other))
  | .isMultiple => do let l ← s.get name; return (.truth l.isMultiple, l)
  | .render => do let l ← s.get name; return (.text l.render, l)

/-- Whether a command makes an object. -/
def Command.isMake : Command → Bool
  | .make .. => true
  | _ => false

/-- Follows a command; one that faults changes nothing. -/
def step (s : LevelStore) (name : String) (c : Command) :
    Except Fault (Answer × Levels) × LevelStore :=
  match s.answer name c with
  | .ok (a, l) => (.ok (a, l), if c.isMake then s.put name l else s.update name l)
  | .error e => (.error e, s)

end LevelStore

end StyleCheck
