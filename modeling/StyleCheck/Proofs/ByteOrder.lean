import Mathlib.Data.Finset.Card
import Mathlib.Tactic.SplitIfs
import StyleCheck.Proofs.ViolationKeys

/-!
# Violations in the order of bytes

Strings are compared by their characters, which is to compare them byte by byte
(`Text.ofString_lt_iff`). So violations are ordered by the bytes of their file, their line, their
column and the bytes of their rule (`Violation.Before`). A set of violations is listed in this order
(`ViolationSet.ofList_before`) and holds the first of every key that came into it
(`ViolationSet.mem_ofList`).
-/

namespace StyleCheck

/-! ## Strings as bytes -/

namespace Text

/-- Texts are in order by their first bytes, or by the rest if these are equal. -/
theorem ofNat_cons_lt {a b : Nat} {u v : Text} (hb : b < 256) (hle : a ≤ b)
    (h : a = b → u < v) : UInt8.ofNat a :: u < UInt8.ofNat b :: v := by
  rw [List.cons_lt_cons_iff, UInt8.lt_iff_toNat_lt, UInt8.toNat_ofNat', UInt8.toNat_ofNat',
    Nat.mod_eq_of_lt hb, Nat.mod_eq_of_lt (Nat.lt_of_le_of_lt hle hb)]
  rcases Nat.lt_or_eq_of_le hle with hlt | rfl
  · exact .inl hlt
  · exact .inr ⟨rfl, h rfl⟩

/-- A smaller character has smaller bytes, whatever follows. The first byte tells how many there
are, and more are for greater characters; of two characters with equally many, the bytes are the
digits to the base 64. -/
theorem utf8EncodeChar_append_lt {c d : Char} (h : c < d) (u v : Text) :
    String.utf8EncodeChar c ++ u < String.utf8EncodeChar d ++ v := by
  have hlt : c.val.toNat < d.val.toNat := h
  have hmax : d.val.toNat < 0x110000 := by
    have hvalid := d.valid
    unfold UInt32.isValidChar Nat.isValidChar at hvalid
    omega
  have hdigits : ∀ k : Nat, k / 4096 = k / 64 / 64 ∧ k / 262144 = k / 64 / 64 / 64 := by omega
  have hc := hdigits c.val.toNat
  have hd := hdigits d.val.toNat
  unfold String.utf8EncodeChar
  dsimp only
  rw [hc.1, hc.2, hd.1, hd.2]
  clear hc hd hdigits
  generalize c.val.toNat = m at hlt
  generalize d.val.toNat = n at hlt hmax
  simp only [apply_ite (· ++ u), apply_ite (· ++ v), List.cons_append, List.nil_append]
  split_ifs <;> try omega
  -- first bytes are equal only if there are equally many; then the digits are compared one by one
  all_goals refine ofNat_cons_lt (by omega) (by omega) fun h0 => ?_
  all_goals try omega
  all_goals refine ofNat_cons_lt (by omega) (by omega) fun h1 => ?_
  all_goals try omega
  all_goals refine ofNat_cons_lt (by omega) (by omega) fun h2 => ?_
  all_goals try omega
  refine ofNat_cons_lt (by omega) (by omega) fun h3 => ?_
  omega

theorem utf8EncodeChar_ne_nil (c : Char) : String.utf8EncodeChar c ≠ [] := by
  unfold String.utf8EncodeChar
  dsimp only
  split_ifs <;> exact List.cons_ne_nil _ _

theorem flatMap_utf8EncodeChar_lt : ∀ {cs ds : List Char}, cs < ds →
    cs.flatMap String.utf8EncodeChar < ds.flatMap String.utf8EncodeChar := by
  intro cs
  induction cs with
  | nil =>
    intro ds h
    cases ds with
    | nil => exact absurd h (List.lt_irrefl _)
    | cons d ds =>
      obtain ⟨b, bs, hb⟩ := List.exists_cons_of_ne_nil (utf8EncodeChar_ne_nil d)
      rw [List.flatMap_cons, hb]
      exact List.nil_lt_cons _ _
  | cons c cs ih =>
    intro ds h
    cases ds with
    | nil => exact absurd h (List.not_lt_nil _)
    | cons d ds =>
      rw [List.flatMap_cons, List.flatMap_cons]
      rcases List.cons_lt_cons_iff.mp h with hcd | ⟨rfl, hds⟩
      · exact utf8EncodeChar_append_lt hcd _ _
      · exact List.append_left_lt (ih hds)

theorem ofString_lt_iff {s t : String} : ofString s < ofString t ↔ s < t := by
  have hmono : ∀ {s t : String}, s < t → ofString s < ofString t :=
    fun h => flatMap_utf8EncodeChar_lt (String.lt_iff.mp h)
  refine ⟨fun h => ?_, hmono⟩
  rcases Std.lt_trichotomy s t with hlt | rfl | hgt
  · exact hlt
  · exact absurd h (List.lt_irrefl _)
  · exact absurd (hmono hgt) (List.lt_asymm h)

end Text

/-! ## Violations -/

/-- No name comes before every name, and names come in the order of their bytes. -/
def NameBefore : Option String → Option String → Prop
  | none, none => False
  | none, some _ => True
  | some _, none => False
  | some a, some b => Text.ofString a < Text.ofString b

namespace Violation

/-- By file, then line, then column, then rule. -/
def Before (v w : Violation) : Prop :=
  NameBefore v.file w.file ∨ v.file = w.file ∧
    (v.line < w.line ∨ v.line = w.line ∧
      (v.column < w.column ∨ v.column = w.column ∧ Text.ofString v.rule < Text.ofString w.rule))

theorem compare_string_eq_lt {s t : String} :
    compare s t = .lt ↔ Text.ofString s < Text.ofString t := by
  rw [Text.ofString_lt_iff]
  exact compareOfLessAndEq_eq_lt

theorem compare_file_eq_lt {a b : Option String} : compare a b = .lt ↔ NameBefore a b := by
  cases a with
  | none =>
    cases b with
    | none => exact iff_of_false (by decide) id
    | some b => exact iff_of_true rfl trivial
  | some a =>
    cases b with
    | none => exact iff_of_false (fun h => by cases h) id
    | some b => exact compare_string_eq_lt

theorem compare_eq_lt {v w : Violation} : compare v w = .lt ↔ v.Before w := by
  show order v w = .lt ↔ _
  simp only [order, Ordering.then_eq_lt, compare_file_eq_lt, compare_string_eq_lt,
    Int.compare_eq_lt, Std.LawfulEqOrd.compare_eq_iff_eq, Before]

theorem compare_eq_eq {v w : Violation} : compare v w = .eq ↔ v.key = w.key := by
  refine ⟨key_eq_of_compare, fun h => ?_⟩
  obtain ⟨hfile, hline, hcolumn, hrule⟩ := Key.mk.inj h
  show order v w = .eq
  rw [order, hfile, hline, hcolumn, hrule]
  simp only [Std.ReflCmp.compare_self]
  rfl

/-- A violation that came in before all others of its key. -/
def FirstIn (v : Violation) (vs : List Violation) : Prop :=
  ∃ front back, vs = front ++ v :: back ∧ ∀ w ∈ front, w.key ≠ v.key

theorem not_firstIn_nil (v : Violation) : ¬ v.FirstIn [] := by
  rintro ⟨front, back, h, -⟩
  simp at h

theorem firstIn_concat {v a : Violation} {vs : List Violation} :
    v.FirstIn (vs ++ [a]) ↔ v.FirstIn vs ∨ v = a ∧ ∀ w ∈ vs, w.key ≠ a.key := by
  constructor
  · rintro ⟨front, back, h, hfront⟩
    rcases List.eq_nil_or_concat' back with rfl | ⟨back, b, rfl⟩
    · obtain ⟨rfl, ha⟩ := List.append_inj' h rfl
      cases ha
      exact .inr ⟨rfl, hfront⟩
    · rw [← List.cons_append, ← List.append_assoc] at h
      exact .inl ⟨front, back, (List.append_inj' h rfl).1, hfront⟩
  · rintro (⟨front, back, rfl, hfront⟩ | ⟨rfl, hvs⟩)
    · exact ⟨front, back ++ [a], by simp, hfront⟩
    · exact ⟨vs, [], rfl, hvs⟩

end Violation

/-! ## Sets in order -/

namespace OrdSet

variable {α : Type} [Ord α] [Std.TransOrd α] {a x : α}

theorem ofList_concat (l : List α) (a : α) : ofList (l ++ [a]) = (ofList l).insert a :=
  insertAll_append empty l [a]

/-- An element is new to a set if it compares equal to none. -/
theorem mem_insert {s : OrdSet α} :
    x ∈ (s.insert a).toList ↔ x ∈ s.toList ∨ x = a ∧ ∀ y ∈ s.toList, compare a y ≠ .eq := by
  obtain ⟨l, h⟩ := s
  show x ∈ insertInto a l ↔ x ∈ l ∨ x = a ∧ ∀ y ∈ l, compare a y ≠ .eq
  induction l with
  | nil => simp [insertInto]
  | cons b l ih =>
    obtain ⟨hb, hl⟩ := List.pairwise_cons.mp h
    rw [insertInto]
    cases hab : compare a b with
    | lt =>
      have hnone : ∀ y ∈ b :: l, compare a y ≠ .eq := by
        intro y hy
        rcases List.mem_cons.mp hy with rfl | hy
        · rw [hab]; decide
        · rw [Std.TransCmp.lt_trans hab (hb y hy)]; decide
      rw [and_iff_left hnone, List.mem_cons, or_comm]
    | eq =>
      refine (or_iff_left ?_).symm
      exact fun hx => hx.2 b List.mem_cons_self hab
    | gt =>
      have hne : compare a b ≠ .eq := by rw [hab]; decide
      rw [List.mem_cons, ih hl, List.mem_cons, List.forall_mem_cons, and_iff_right hne, or_assoc]

end OrdSet

namespace ViolationSet

variable {vs : List Violation} {v : Violation}

theorem keys_ofList (vs : List Violation) :
    Violation.keys (OrdSet.ofList vs).toList = Violation.keys vs := by
  rw [OrdSet.ofList, keys_insertAll, OrdSet.empty, Violation.keys_nil, Set.empty_union]

/-- A set holds the violations that came in before all others of their key. -/
theorem mem_ofList : v ∈ (OrdSet.ofList vs).toList ↔ v.FirstIn vs := by
  induction vs using List.reverseRecOn with
  | nil => exact iff_of_false List.not_mem_nil v.not_firstIn_nil
  | append_singleton vs a ih =>
    have hkeys : (∀ y ∈ (OrdSet.ofList vs).toList, compare a y ≠ .eq) ↔
        ∀ w ∈ vs, w.key ≠ a.key := by
      have hmem := Set.ext_iff.mp (keys_ofList vs) a.key
      rw [Violation.mem_keys, Violation.mem_keys] at hmem
      simp only [ne_eq, Violation.compare_eq_eq, eq_comm (a := a.key)]
      simpa using not_congr hmem
    rw [OrdSet.ofList_concat, Violation.firstIn_concat, ← ih, ← hkeys]
    exact OrdSet.mem_insert

/-- A set is listed in the order of its violations. -/
theorem ofList_before (vs : List Violation) :
    (OrdSet.ofList vs).toList.Pairwise Violation.Before :=
  (OrdSet.ofList vs).ascending.imp Violation.compare_eq_lt.mp

/-- No key comes twice in a set. -/
theorem nodup_keys_ofList (vs : List Violation) :
    ((OrdSet.ofList vs).toList.map Violation.key).Nodup := by
  refine List.pairwise_map.mpr ((OrdSet.ofList vs).ascending.imp fun h hkey => ?_)
  rw [Violation.compare_eq_eq.mpr hkey] at h
  cases h

/-- A set has as many violations as there are keys. -/
theorem size_ofList (vs : List Violation) :
    (OrdSet.ofList vs).size = (vs.map Violation.key).toFinset.card := by
  have hkeys : ((OrdSet.ofList vs).toList.map Violation.key).toFinset =
      (vs.map Violation.key).toFinset := by
    ext k
    rw [List.mem_toFinset, List.mem_toFinset, List.mem_map, List.mem_map]
    exact Set.ext_iff.mp (keys_ofList vs) k
  rw [← hkeys, List.toFinset_card_of_nodup (nodup_keys_ofList vs), List.length_map]
  rfl

end ViolationSet

end StyleCheck
