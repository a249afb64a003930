/-!
# Ordered sets

A finite set as an increasing list, so without repetition. Elements that compare equal are one
element: the one that came first stays.
-/

namespace StyleCheck

/-- A finite set, listed in increasing order. -/
@[ext]
structure OrdSet (α : Type) [Ord α] where
  toList : List α
  ascending : toList.Pairwise fun x y => compare x y = .lt
  deriving DecidableEq, Repr

namespace OrdSet

/-- Inserts into an increasing list; an equal element that is there already stays. -/
def insertInto {α : Type} [Ord α] (a : α) : List α → List α
  | [] => [a]
  | b :: l =>
    match compare a b with
    | .lt => a :: b :: l
    | .eq => b :: l
    | .gt => b :: insertInto a l

variable {α : Type} [Ord α] {a x : α} {l : List α}

theorem mem_insertInto_of_mem (h : x ∈ l) : x ∈ insertInto a l := by
  induction l with
  | nil => cases h
  | cons b l ih =>
    rw [insertInto]
    split
    · exact List.mem_cons_of_mem a h
    · exact h
    · rcases List.mem_cons.mp h with rfl | h
      · exact List.mem_cons_self ..
      · exact List.mem_cons_of_mem b (ih h)

theorem eq_or_mem_of_mem_insertInto (h : x ∈ insertInto a l) : x = a ∨ x ∈ l := by
  induction l with
  | nil => exact .inl (List.mem_singleton.mp h)
  | cons b l ih =>
    rw [insertInto] at h
    split at h
    · exact List.mem_cons.mp h
    · exact .inr h
    · rcases List.mem_cons.mp h with rfl | h
      · exact .inr (List.mem_cons_self ..)
      · exact (ih h).imp_right (List.mem_cons_of_mem b)

theorem insertInto_ne_nil : insertInto a l ≠ [] := by
  cases l with
  | nil => exact List.cons_ne_nil _ _
  | cons b l =>
    rw [insertInto]
    split <;> exact List.cons_ne_nil _ _

theorem insertInto_ascending [Std.TransOrd α] (h : l.Pairwise fun x y => compare x y = .lt) :
    (insertInto a l).Pairwise fun x y => compare x y = .lt := by
  induction l with
  | nil => exact List.pairwise_singleton _ _
  | cons b l ih =>
    obtain ⟨hb, hl⟩ := List.pairwise_cons.mp h
    rw [insertInto]
    split
    · next hab =>
      refine List.pairwise_cons.mpr ⟨fun x hx => ?_, h⟩
      rcases List.mem_cons.mp hx with rfl | hx
      · exact hab
      · exact Std.TransCmp.lt_trans hab (hb x hx)
    · exact h
    · next hab =>
      refine List.pairwise_cons.mpr ⟨fun x hx => ?_, ih hl⟩
      rcases eq_or_mem_of_mem_insertInto hx with rfl | hx
      · exact Std.OrientedCmp.lt_of_gt hab
      · exact hb x hx

def empty : OrdSet α := ⟨[], .nil⟩

def single (a : α) : OrdSet α := ⟨[a], List.pairwise_singleton _ _⟩

/-- The elements that pass a test. -/
def filter (s : OrdSet α) (test : α → Bool) : OrdSet α :=
  ⟨s.toList.filter test, s.ascending.filter test⟩

def contains (s : OrdSet α) (a : α) : Bool := s.toList.any (fun b => compare a b == .eq)

def size (s : OrdSet α) : Nat := s.toList.length

variable [Std.TransOrd α]

def insert (s : OrdSet α) (a : α) : OrdSet α :=
  ⟨insertInto a s.toList, insertInto_ascending s.ascending⟩

/-- Inserts the elements of a list one after the other. -/
def insertAll (s : OrdSet α) (l : List α) : OrdSet α := l.foldl insert s

def ofList (l : List α) : OrdSet α := insertAll empty l

/-- All elements of both sets; of two equal ones, the first set's. -/
def union (s t : OrdSet α) : OrdSet α := s.insertAll t.toList

theorem insertAll_append (s : OrdSet α) (l m : List α) :
    s.insertAll (l ++ m) = (s.insertAll l).insertAll m := List.foldl_append

/-- An element larger than all others comes last. -/
theorem insertInto_of_last (h : ∀ x ∈ l, compare x a = .lt) : insertInto a l = l ++ [a] := by
  induction l with
  | nil => rfl
  | cons b l ih =>
    have hb : compare a b = .gt := Std.OrientedCmp.gt_of_lt (h b (List.mem_cons_self ..))
    rw [insertInto, hb, List.cons_append, ← ih fun x hx => h x (List.mem_cons_of_mem b hx)]

theorem toList_insertAll (s : OrdSet α)
    (h : (s.toList ++ l).Pairwise fun x y => compare x y = .lt) :
    (s.insertAll l).toList = s.toList ++ l := by
  induction l generalizing s with
  | nil => exact (List.append_nil _).symm
  | cons a l ih =>
    have hlast : (s.insert a).toList = s.toList ++ [a] :=
      insertInto_of_last fun x hx => (List.pairwise_append.mp h).2.2 x hx a (List.mem_cons_self ..)
    have happend : s.toList ++ a :: l = (s.insert a).toList ++ l := by
      rw [hlast, List.append_assoc, List.singleton_append]
    rw [happend] at h ⊢
    exact ih (s.insert a) h

/-- The list of an increasing list is that list. -/
theorem toList_ofList (h : l.Pairwise fun x y => compare x y = .lt) : (ofList l).toList = l :=
  toList_insertAll empty h

theorem insertAll_ne_nil (s : OrdSet α) (h : s.toList ≠ []) (l : List α) :
    (s.insertAll l).toList ≠ [] := by
  induction l generalizing s with
  | nil => exact h
  | cons a l ih => exact ih (s.insert a) insertInto_ne_nil

end OrdSet

end StyleCheck
