import Mathlib.Data.List.Induction
import Mathlib.Logic.Relation
import StyleCheck.Proofs.Paths

/-!
# Spellings of a path

A name goes on as well without some of its parts: empty ones and `.`, a part that `..` takes back,
and `..` at the root (`Shortens`). Two names are spellings of one path if such parts are all that
they differ in and both or neither start with two slashes. Just such names have one absolute name
(`absoluteName_eq_iff`).
-/

namespace StyleCheck

namespace AbsPath

/-- The parts of a name, and the same with some left out that lead nowhere. -/
inductive Shortens : List (List Char) → List (List Char) → Prop
  | stay (ps qs : List (List Char)) {p : List Char} : p = [] ∨ p = ['.'] →
      Shortens (ps ++ p :: qs) (ps ++ qs)
  | back (ps qs : List (List Char)) {p : List Char} : ProperPart p →
      Shortens (ps ++ p :: ['.', '.'] :: qs) (ps ++ qs)
  /-- There is nothing above the root. -/
  | top (qs : List (List Char)) : Shortens (['.', '.'] :: qs) qs

/-- Two names that are spelled from the parts of one path. -/
def Respelled (a b : String) : Prop :=
  startsDoubled a.toList = startsDoubled b.toList ∧
    Relation.EqvGen Shortens (split a.toList) (split b.toList)

variable {ps qs rs : List (List Char)} {p : List Char}

theorem descend_stay (h : p = [] ∨ p = ['.']) (ps : List (List Char)) : descend ps p = ps :=
  if_pos h

theorem descend_up (ps : List (List Char)) : descend ps ['.', '.'] = ps.dropLast := rfl

theorem Shortens.foldl_descend (h : Shortens ps qs) :
    ps.foldl descend [] = qs.foldl descend [] := by
  cases h with
  | stay ps qs hp => rw [List.foldl_append, List.foldl_cons, descend_stay hp, List.foldl_append]
  | back ps qs hp =>
    rw [List.foldl_append, List.foldl_cons, List.foldl_cons, descend_of_proper hp, descend_up,
      List.dropLast_concat, List.foldl_append]
  | top qs => rfl

theorem foldl_descend_of_eqvGen (h : Relation.EqvGen Shortens ps qs) :
    ps.foldl descend [] = qs.foldl descend [] := by
  induction h with
  | rel _ _ h => exact h.foldl_descend
  | refl _ => rfl
  | symm _ _ _ ih => exact ih.symm
  | trans _ _ _ _ _ ih₁ ih₂ => exact ih₁.trans ih₂

theorem Shortens.append (h : Shortens ps qs) (rs : List (List Char)) :
    Shortens (ps ++ rs) (qs ++ rs) := by
  cases h with
  | stay ps qs hp =>
    rw [List.append_assoc, List.cons_append, List.append_assoc]
    exact .stay ps (qs ++ rs) hp
  | back ps qs hp =>
    rw [List.append_assoc, List.cons_append, List.cons_append, List.append_assoc]
    exact .back ps (qs ++ rs) hp
  | top qs => exact .top (qs ++ rs)

theorem eqvGen_append (h : Relation.EqvGen Shortens ps qs) (rs : List (List Char)) :
    Relation.EqvGen Shortens (ps ++ rs) (qs ++ rs) := by
  induction h with
  | rel _ _ h => exact .rel _ _ (h.append rs)
  | refl _ => exact .refl _
  | symm _ _ _ ih => exact ih.symm
  | trans _ _ _ _ _ ih₁ ih₂ => exact ih₁.trans _ _ _ ih₂

/-- One more part behind a resolved path is taken in, or leads back. -/
theorem eqvGen_descend (hps : ∀ q ∈ ps, ProperPart q) (hp : '/' ∉ p) :
    Relation.EqvGen Shortens (ps ++ [p]) (descend ps p) := by
  by_cases hstay : p = [] ∨ p = ['.']
  · rw [descend_stay hstay]
    simpa using Relation.EqvGen.rel _ _ (Shortens.stay ps [] hstay)
  by_cases hup : p = ['.', '.']
  · subst hup
    rw [descend_up]
    rcases List.eq_nil_or_concat ps with rfl | ⟨qs, q, rfl⟩
    · exact .rel _ _ (.top [])
    · have hq : ProperPart q := hps q (by simp)
      simpa using Relation.EqvGen.rel _ _ (Shortens.back qs [] hq)
  · have hproper : ProperPart p := ⟨fun h => hstay (.inl h), fun h => hstay (.inr h), hup, hp⟩
    rw [descend_of_proper hproper]
    exact .refl _

/-- The parts of a name come down to those of its path. -/
theorem eqvGen_foldl_descend (ps : List (List Char)) (hps : ∀ p ∈ ps, '/' ∉ p) :
    Relation.EqvGen Shortens ps (ps.foldl descend []) := by
  induction ps using List.reverseRecOn with
  | nil => exact .refl _
  | append_singleton ps p ih =>
    rw [List.forall_mem_append, List.forall_mem_singleton] at hps
    rw [List.foldl_append, List.foldl_cons, List.foldl_nil]
    exact (eqvGen_append (ih hps.1) [p]).trans _ _ _
      (eqvGen_descend (foldl_descend_proper hps.1 (List.forall_mem_nil _)) hps.2)

theorem ofName_eq_iff {a b : String} : ofName a = ofName b ↔ Respelled a b := by
  rw [ofName, ofName, AbsPath.mk.injEq, Respelled]
  refine and_congr_right fun _ => ⟨fun h => ?_, foldl_descend_of_eqvGen⟩
  have ha := eqvGen_foldl_descend (split a.toList) fun _ => not_slash_of_mem_split
  have hb := eqvGen_foldl_descend (split b.toList) fun _ => not_slash_of_mem_split
  rw [← h] at hb
  exact ha.trans _ _ _ hb.symm

end AbsPath

/-- The names with one absolute name are the spellings of one path. -/
theorem absoluteName_eq_iff {a b : String} :
    absoluteName a = absoluteName b ↔ AbsPath.Respelled a b := by
  rw [← AbsPath.ofName_eq_iff]
  constructor
  · intro h
    rw [← AbsPath.ofName_toName (AbsPath.ofName_proper a), ← AbsPath.ofName_toName
      (AbsPath.ofName_proper b)]
    exact congrArg AbsPath.ofName h
  · exact congrArg AbsPath.toName

end StyleCheck
