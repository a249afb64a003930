import Mathlib.Data.Set.Lattice
import StyleCheck.Display

/-!
# Keys of violations

Two violations with one key are one violation. So what a set of violations holds, up to what they
say, is its set of keys: it grows by the keys of what is inserted, in whatever order
(`ViolationSet.keys_insertAll`), and it decides whether the set can be displayed
(`ViolationSet.display_ok`).
-/

namespace StyleCheck

/-- What two violations agree in that are one. -/
structure Violation.Key where
  file : Option String
  line : Int
  column : Int
  rule : String
  deriving DecidableEq, Repr

namespace OrdSet

variable {α β : Type} [Ord α] (key : α → β) {k : β}
  (hkey : ∀ {a b : α}, compare a b = .eq → key a = key b)

include hkey

theorem exists_mem_insertInto {a : α} {l : List α} :
    (∃ x ∈ insertInto a l, key x = k) ↔ key a = k ∨ ∃ x ∈ l, key x = k := by
  constructor
  · rintro ⟨x, hx, rfl⟩
    rcases eq_or_mem_of_mem_insertInto hx with rfl | hx
    · exact .inl rfl
    · exact .inr ⟨x, hx, rfl⟩
  · rintro (rfl | ⟨x, hx, rfl⟩)
    · -- the element is inserted, unless one of its key is there
      induction l with
      | nil => exact ⟨a, List.mem_cons_self, rfl⟩
      | cons b l ih =>
        rw [insertInto]
        split
        · exact ⟨a, List.mem_cons_self, rfl⟩
        · next h => exact ⟨b, List.mem_cons_self, (hkey h).symm⟩
        · obtain ⟨x, hx, hxa⟩ := ih
          exact ⟨x, List.mem_cons_of_mem b hx, hxa⟩
    · exact ⟨x, mem_insertInto_of_mem hx, rfl⟩

theorem exists_mem_insertAll [Std.TransOrd α] {s : OrdSet α} {l : List α} :
    (∃ x ∈ (s.insertAll l).toList, key x = k) ↔
      (∃ x ∈ s.toList, key x = k) ∨ ∃ x ∈ l, key x = k := by
  induction l generalizing s with
  | nil => simp [insertAll]
  | cons a l ih =>
    have hcons : s.insertAll (a :: l) = (s.insert a).insertAll l := rfl
    rw [hcons, ih, insert, exists_mem_insertInto key hkey, or_comm (a := key a = k), or_assoc]
    simp only [List.mem_cons, exists_eq_or_imp]

end OrdSet

/-- Elements of a set are those that were inserted, where only equal ones compare equal. -/
theorem OrdSet.mem_insertAll {α : Type} [Ord α] [Std.TransOrd α] [Std.LawfulEqOrd α]
    {s : OrdSet α} {l : List α} {x : α} : x ∈ (s.insertAll l).toList ↔ x ∈ s.toList ∨ x ∈ l := by
  have h := exists_mem_insertAll id (k := x) (s := s) (l := l)
    fun h => Std.LawfulEqOrd.eq_of_compare h
  simpa using h

namespace Violation

def key (v : Violation) : Key := ⟨v.file, v.line, v.column, v.rule⟩

/-- The keys of some violations. -/
def keys (vs : List Violation) : Set Key := { k | ∃ v ∈ vs, v.key = k }

theorem mem_keys {vs : List Violation} {k : Key} : k ∈ keys vs ↔ ∃ v ∈ vs, v.key = k := Iff.rfl

theorem key_eq_of_compare {v w : Violation} (h : compare v w = .eq) : v.key = w.key := by
  have h : order v w = .eq := h
  rw [order, Ordering.then_eq_eq, Ordering.then_eq_eq, Ordering.then_eq_eq] at h
  obtain ⟨h1, h2, h3, h4⟩ := h
  rw [key, key, Std.LawfulEqOrd.eq_of_compare h1, Std.LawfulEqOrd.eq_of_compare h2,
    Std.LawfulEqOrd.eq_of_compare h3, Std.LawfulEqOrd.eq_of_compare h4]

theorem keys_nil : keys [] = ∅ := by simp [keys]

theorem keys_append (vs ws : List Violation) : keys (vs ++ ws) = keys vs ∪ keys ws := by
  ext k
  simp only [mem_keys, Set.mem_union, List.mem_append, or_and_right, exists_or]

theorem keys_flatMap {α : Type} (f : α → List Violation) (l : List α) :
    keys (l.flatMap f) = ⋃ a ∈ l, keys (f a) := by
  ext k
  simp only [mem_keys, Set.mem_iUnion, List.mem_flatMap]
  constructor
  · rintro ⟨v, ⟨a, ha, hv⟩, rfl⟩
    exact ⟨a, ha, v, hv, rfl⟩
  · rintro ⟨a, ha, v, hv, rfl⟩
    exact ⟨v, ⟨a, ha, hv⟩, rfl⟩

theorem keys_flatMap_eq_empty {α : Type} {f : α → List Violation} {l : List α}
    (h : ∀ a ∈ l, f a = []) : keys (l.flatMap f) = ∅ := by
  rw [List.flatMap_eq_nil_iff.mpr h, keys_nil]

end Violation

namespace ViolationSet

open Violation (keys)

theorem keys_insertAll (s : ViolationSet) (vs : List Violation) :
    keys (s.insertAll vs).toList = keys s.toList ∪ keys vs := by
  ext k
  exact OrdSet.exists_mem_insertAll Violation.key Violation.key_eq_of_compare

/-- The keys of a union of sets. -/
theorem keys_foldl_union (ss : List ViolationSet) : ∀ s : ViolationSet,
    keys (ss.foldl OrdSet.union s).toList = keys s.toList ∪ keys (ss.flatMap (·.toList)) := by
  induction ss with
  | nil => intro s; simp [Violation.keys_nil]
  | cons t ss ih =>
    intro s
    rw [List.foldl_cons, ih, OrdSet.union, keys_insertAll, List.flatMap_cons,
      Violation.keys_append, Set.union_assoc]

theorem size_eq_zero (s : ViolationSet) : s.size = 0 ↔ keys s.toList = ∅ := by
  rw [OrdSet.size, List.length_eq_zero_iff]
  constructor
  · intro h
    rw [h, Violation.keys_nil]
  · intro h
    cases hl : s.toList with
    | nil => rfl
    | cons v vs =>
      have hv : v.key ∈ keys s.toList := ⟨v, by rw [hl]; exact List.mem_cons_self, rfl⟩
      rw [h] at hv
      exact hv.elim

end ViolationSet

/-! ## Display -/

theorem Report.bind_outcome_congr {ω α β : Type} {r r' : Report ω α} {f g : α → Report ω β}
    (h : r.outcome = r'.outcome) (hfg : ∀ a, (f a).outcome = (g a).outcome) :
    (r >>= f).outcome = (r' >>= g).outcome := by
  cases hr : r.outcome with
  | error e => rw [bind_of_error hr, bind_of_error (h ▸ hr)]
  | ok a =>
    rw [bind_of_ok hr, bind_of_ok (h ▸ hr)]
    exact hfg a

theorem Report.fault?_eq_none {ω : Type} {r : Report ω Unit} :
    r.fault? = none ↔ r.outcome = .ok () := by
  unfold fault?
  split <;> simp_all

variable {files : FileSystem} {o : DisplayOptions}

theorem Violation.display_outcome {v w : Violation} {showSource : Bool} (hf : v.file = w.file)
    (hl : v.line = w.line) :
    (v.display files showSource).outcome = (w.display files showSource).outcome := by
  unfold display
  rw [hf, hl]
  refine Report.bind_outcome_congr (by simp) fun _ => ?_
  cases w.file with
  | none => rfl
  | some name =>
    refine Report.bind_outcome_congr rfl fun source => ?_
    refine Report.bind_outcome_congr rfl fun line => ?_
    split
    · refine Report.bind_outcome_congr rfl fun _ => ?_
      exact Report.bind_outcome_congr (by simp) fun _ => rfl
    · rfl

/-- Whether a violation can be displayed is a matter of its file and line. -/
theorem Violation.displayUnlessSuppressed_outcome {v w : Violation} (hf : v.file = w.file)
    (hl : v.line = w.line) :
    (v.displayUnlessSuppressed files o).outcome = (w.displayUnlessSuppressed files o).outcome := by
  have hd : ∀ suppressed : Bool,
      (if suppressed then pure () else v.display files o.showSource).outcome =
        (if suppressed then pure () else w.display files o.showSource).outcome := by
    intro suppressed
    cases suppressed with
    | true => simp
    | false => exact display_outcome hf hl
  unfold displayUnlessSuppressed
  rw [hf, hl]
  dsimp only
  split
  · exact Report.bind_outcome_congr rfl hd
  · exact Report.bind_outcome_congr rfl hd

/-- Whether violations of a key are skipped or can be displayed. -/
def Violation.Key.Shown (files : FileSystem) (o : DisplayOptions) (k : Key) : Prop :=
  o.ignoredRules.contains k.rule = true ∨
    (displayUnlessSuppressed files o ⟨k.rule, k.file, k.line, k.column, ""⟩).outcome = .ok ()

theorem Violation.shown_key {v : Violation} : v.key.Shown files o ↔
    o.skips v = true ∨ (v.displayUnlessSuppressed files o).outcome = .ok () := by
  have h : (displayUnlessSuppressed files o ⟨v.rule, v.file, v.line, v.column, ""⟩).outcome =
      (v.displayUnlessSuppressed files o).outcome := displayUnlessSuppressed_outcome rfl rfl
  rw [← h]
  exact Iff.rfl

theorem displayEach_ok {vs : List Violation} : (displayEach files o vs).outcome = .ok () ↔
    ∀ v ∈ vs, (v.displayUnlessSuppressed files o).outcome = .ok () := by
  induction vs with
  | nil => exact ⟨fun _ => nofun, fun _ => rfl⟩
  | cons v vs ih =>
    rw [displayEach, Report.bind_outcome_eq_ok, List.forall_mem_cons, ← ih]
    exact ⟨fun ⟨⟨⟩, h1, h2⟩ => ⟨h1, h2⟩, fun ⟨h1, h2⟩ => ⟨(), h1, h2⟩⟩

/-- A set of violations can be displayed if violations of its keys can. -/
theorem ViolationSet.display_ok (s : ViolationSet) :
    (display files o s).fault? = none ↔ ∀ k ∈ Violation.keys s.toList, k.Shown files o := by
  rw [Report.fault?_eq_none, display, Report.bind_outcome_eq_ok]
  constructor
  · rintro ⟨⟨⟩, h, -⟩ k ⟨v, hv, rfl⟩
    rw [displayEach_ok] at h
    rw [Violation.shown_key, Classical.or_iff_not_imp_left]
    exact fun hs => h v (List.mem_filter.mpr ⟨hv, by simpa using hs⟩)
  · intro h
    refine ⟨(), displayEach_ok.mpr fun v hv => ?_, rfl⟩
    obtain ⟨hv, hs⟩ := List.mem_filter.mp hv
    rcases Violation.shown_key.mp (h v.key ⟨v, hv, rfl⟩) with hskip | hok
    · rw [hskip] at hs
      cases hs
    · exact hok

end StyleCheck
