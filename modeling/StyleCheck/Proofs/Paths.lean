import StyleCheck.Path

/-!
# Absolute names

The parts of a resolved path are proper: they are not empty, name a directory entry, and hold no
slash. A path of such parts is read back from its name, so absolute names stand for themselves.
-/

namespace StyleCheck

namespace AbsPath

/-- A part that stands for itself: not empty, no dots that mean a place, no slash. -/
def ProperPart (p : List Char) : Prop := p ≠ [] ∧ p ≠ ['.'] ∧ p ≠ ['.', '.'] ∧ '/' ∉ p

theorem split_ne_nil (cs : List Char) : split cs ≠ [] := by
  cases cs with
  | nil => simp [split]
  | cons c cs =>
    rw [split]
    split
    · simp
    · split <;> simp

theorem split_slash (cs : List Char) : split ('/' :: cs) = [] :: split cs := by
  rw [split]
  split
  · next h => exact absurd h (split_ne_nil cs)
  · next p ps h => rw [if_pos rfl, h]

theorem not_slash_of_mem_split {cs p : List Char} (h : p ∈ split cs) : '/' ∉ p := by
  induction cs generalizing p with
  | nil =>
    rw [split, List.mem_singleton] at h
    rw [h]
    exact List.not_mem_nil
  | cons c cs ih =>
    rw [split] at h
    split at h
    · next hs => exact absurd hs (split_ne_nil cs)
    · next q qs hs =>
      rw [hs] at ih
      split at h
      · rcases List.mem_cons.mp h with rfl | h
        · exact List.not_mem_nil
        · exact ih h
      · next hc =>
        rcases List.mem_cons.mp h with rfl | h
        · rw [List.mem_cons, not_or]
          exact ⟨Ne.symm hc, ih List.mem_cons_self⟩
        · exact ih (List.mem_cons_of_mem q h)

/-- A part without a slash, in front of a text that ends or goes on with one. -/
theorem split_append {p : List Char} (hp : '/' ∉ p) (cs : List Char) :
    split p = [p] ∧ split (p ++ '/' :: cs) = p :: split cs := by
  induction p with
  | nil => exact ⟨rfl, split_slash cs⟩
  | cons c p ih =>
    rw [List.mem_cons, not_or] at hp
    obtain ⟨h1, h2⟩ := ih hp.2
    constructor
    · rw [split, h1]
      exact if_neg (Ne.symm hp.1)
    · rw [List.cons_append, split, h2]
      exact if_neg (Ne.symm hp.1)

theorem split_join {ps : List (List Char)} (hne : ps ≠ []) (h : ∀ p ∈ ps, '/' ∉ p) :
    split (join ps) = ps := by
  induction ps with
  | nil => exact absurd rfl hne
  | cons p ps ih =>
    cases ps with
    | nil => exact (split_append (h p List.mem_cons_self) []).1
    | cons q ps =>
      rw [join, (split_append (h p List.mem_cons_self) _).2,
        ih (List.cons_ne_nil q ps) fun x hx => h x (List.mem_cons_of_mem p hx)]

theorem descend_proper {parts : List (List Char)} {p : List Char}
    (hparts : ∀ q ∈ parts, ProperPart q) (hp : '/' ∉ p) : ∀ q ∈ descend parts p, ProperPart q := by
  intro q hq
  unfold descend at hq
  split at hq
  · exact hparts q hq
  · next h1 =>
    rw [not_or] at h1
    split at hq
    · exact hparts q (List.dropLast_subset parts hq)
    · next h2 =>
      rcases List.mem_append.mp hq with hq | hq
      · exact hparts q hq
      · rw [List.mem_singleton.mp hq]
        exact ⟨h1.1, h1.2, h2, hp⟩

theorem foldl_descend_proper {ps : List (List Char)} (hps : ∀ p ∈ ps, '/' ∉ p) :
    ∀ {parts : List (List Char)}, (∀ q ∈ parts, ProperPart q) →
      ∀ q ∈ ps.foldl descend parts, ProperPart q := by
  induction ps with
  | nil => intro parts h; exact h
  | cons p ps ih =>
    intro parts h
    exact ih (fun x hx => hps x (List.mem_cons_of_mem p hx))
      (descend_proper h (hps p List.mem_cons_self))

theorem ofName_proper (name : String) : ∀ q ∈ (ofName name).parts, ProperPart q :=
  foldl_descend_proper (fun _ hp => not_slash_of_mem_split hp) (fun _ hq => by cases hq)

theorem descend_of_proper {p : List Char} (h : ProperPart p) (parts : List (List Char)) :
    descend parts p = parts ++ [p] := by
  unfold descend
  rw [if_neg (not_or.mpr ⟨h.1, h.2.1⟩), if_neg h.2.2.1]

/-- Proper parts are taken as they are. -/
theorem foldl_descend_eq {ps : List (List Char)} (hps : ∀ p ∈ ps, ProperPart p) :
    ∀ parts, ps.foldl descend parts = parts ++ ps := by
  induction ps with
  | nil => intro parts; rw [List.foldl_nil, List.append_nil]
  | cons p ps ih =>
    intro parts
    rw [List.foldl_cons, descend_of_proper (hps p List.mem_cons_self),
      ih fun x hx => hps x (List.mem_cons_of_mem p hx), List.append_assoc]
    rfl

theorem foldl_descend_split_join {ps : List (List Char)} (hps : ∀ p ∈ ps, ProperPart p) :
    (split (join ps)).foldl descend [] = ps := by
  by_cases hne : ps = []
  · subst hne; rfl
  · rw [split_join hne fun p hp => (hps p hp).2.2.2, foldl_descend_eq hps, List.nil_append]

/-- A joined path does not begin with a slash. -/
theorem join_ne_slash {ps : List (List Char)} (hps : ∀ p ∈ ps, ProperPart p) (cs : List Char) :
    join ps ≠ '/' :: cs := by
  cases ps with
  | nil => simp [join]
  | cons p ps =>
    obtain ⟨h1, -, -, h4⟩ := hps p List.mem_cons_self
    obtain ⟨c, p', rfl⟩ := List.exists_cons_of_ne_nil h1
    have hc : c ≠ '/' := fun h => h4 (h ▸ List.mem_cons_self)
    cases ps <;> simp [join, hc]

theorem startsDoubled_toName {p : AbsPath} (hp : ∀ q ∈ p.parts, ProperPart q) :
    startsDoubled p.toName.toList = p.doubled := by
  have hj := join_ne_slash hp
  cases hd : p.doubled <;> simp only [toName, hd, String.toList_ofList, Bool.false_eq_true, if_true,
    if_false]
  · cases h : join p.parts with
    | nil => rfl
    | cons c cs =>
      unfold startsDoubled
      split
      · next e => cases e; exact absurd h (hj _)
      · next e => cases e; exact absurd h (hj _)
      · rfl
  · unfold startsDoubled
    split
    · next e => injection e with _ e; injection e with _ e; exact absurd e (hj _)
    · rfl
    · next h => exact absurd rfl (h _)

/-- A path of proper parts is read back from its name. -/
theorem ofName_toName {p : AbsPath} (hp : ∀ q ∈ p.parts, ProperPart q) : ofName p.toName = p := by
  have hparts : (split p.toName.toList).foldl descend [] = p.parts := by
    cases hd : p.doubled <;> simp only [toName, hd, String.toList_ofList, Bool.false_eq_true,
      if_true, if_false, split_slash, List.foldl_cons]
    · exact foldl_descend_split_join hp
    · exact foldl_descend_split_join hp
  unfold ofName
  rw [startsDoubled_toName hp, hparts]

end AbsPath

@[simp] theorem absoluteName_idem (name : String) :
    absoluteName (absoluteName name) = absoluteName name := by
  unfold absoluteName
  rw [AbsPath.ofName_toName (AbsPath.ofName_proper name)]

end StyleCheck
