import StyleCheck.Proofs.AuditUnion

/-!
# Texts under test

A text under test is audited as the only file there is, and what its checks and rules have reported
comes back even if a fault ended the audit. So a set of violations says nothing about whether the
audit came to its end: it holds what the checks and rules find if nothing on the audit meets a
fault, and may hold less otherwise (`ScratchResult.ofText_hides_faults`).
-/

namespace StyleCheck

open Violation (keys Key)

namespace Audit

variable {files : FileSystem} {units : Units} {dirs : List String} {a : Audit} {name : String}

/-! ## Audits that a fault cuts short -/

/-- A walk adds no more than what the checks find in the unit of its name. -/
theorem walkUnit_at_most (ha : a.fault = none) :
    (a.walkUnit files units dirs name).texts = a.texts ∧
      ∀ k ∈ (a.walkUnit files units dirs name).treeKeys, k ∈ a.treeKeys ∨ ∃ u,
        units.lookup name = some u ∧
          ∃ c ∈ a.trees.map (·.check), k ∈ keys (c.findings files u dirs) := by
  cases hu : units.lookup name with
  | none =>
    have hwalk : a.walkUnit files units dirs name =
        { a with fault := some (.absent "spelling") } := by
      simp [walkUnit, ha, hu]
    rw [hwalk]
    exact ⟨rfl, fun k hk => .inl hk⟩
  | some u =>
    obtain ⟨htrees, htexts, -⟩ := @walkUnit_of_lookup files _ dirs _ _ _ ha hu
    refine ⟨htexts, fun k hk => ?_⟩
    rw [treeKeys, htrees] at hk
    rcases (Walk.keys_run files u dirs a.trees).1 hk with hk | hk
    · exact .inl hk
    · rw [Violation.keys_flatMap] at hk
      obtain ⟨t, ht, hk⟩ := Set.mem_iUnion₂.mp hk
      exact .inr ⟨u, rfl, t.check, List.mem_map_of_mem ht, hk⟩

/-- Rules for texts add no more than what they report about a file, in front of a fault or not. -/
theorem checkTexts_at_most (file : SourceFile) (ts : List TextAudit) :
    (checkTexts file ts).1.map (·.rule) = ts.map (·.rule) ∧
      keys ((checkTexts file ts).1.flatMap (·.violations.toList)) ⊆
        keys (ts.flatMap (·.violations.toList)) ∪
          keys (ts.flatMap fun t => (t.rule.check file).notes) := by
  induction ts with
  | nil => exact ⟨rfl, Set.subset_union_left⟩
  | cons t ts ih =>
    have hrule : (t.check file).1.rule = t.rule := rfl
    have hkeys : keys (t.check file).1.violations.toList =
        keys t.violations.toList ∪ keys (t.rule.check file).notes :=
      ViolationSet.keys_insertAll _ _
    rw [checkTexts, List.map_cons, List.flatMap_cons, List.flatMap_cons, Violation.keys_append,
      Violation.keys_append, Set.union_union_union_comm, ← hkeys, ← hrule]
    split
    · next heq =>
      rw [heq, List.map_cons, List.flatMap_cons, Violation.keys_append]
      exact ⟨rfl, Set.union_subset_union_right _ Set.subset_union_left⟩
    · next heq =>
      rw [heq, List.map_cons, List.flatMap_cons, Violation.keys_append, ih.1]
      exact ⟨rfl, Set.union_subset_union_right _ ih.2⟩

/-- What an audit has come to behind some files, of which a fault may have left out some. -/
structure HeldAtMost (files : FileSystem) (dirs : List String) (xs : List String) (a a' : Audit) :
    Prop where
  rules : a'.texts.map (·.rule) = a.texts.map (·.rule)
  trees : a'.trees = a.trees
  found : ∀ k ∈ a'.textKeys, k ∈ a.textKeys ∨ ∃ x ∈ xs, VisitFilter.letsFile dirs x = true ∧
    ∃ r ∈ a.texts.map (·.rule), k ∈ keys (r.findings files x)

theorem HeldAtMost.refl (xs : List String) (a : Audit) : HeldAtMost files dirs xs a a :=
  ⟨rfl, rfl, fun _ hk => .inl hk⟩

theorem HeldAtMost.one (hx : VisitFilter.letsFile dirs name = true) :
    HeldAtMost files dirs [name] a (a.checkFile files name) := by
  cases hr : files.read name with
  | error e =>
    have hcheck : a.checkFile files name =
        { a.tell .fileStarted (some name) with fault := some e } := by
      simp [checkFile, hr]
    rw [hcheck]
    exact ⟨rfl, rfl, fun k hk => .inl hk⟩
  | ok file =>
    obtain ⟨htrees, htexts, -⟩ := checkFile_of_read (a := a) hr
    obtain ⟨hrules, hkeys⟩ := checkTexts_at_most file a.texts
    refine ⟨by rw [htexts, hrules], htrees, fun k hk => ?_⟩
    rw [textKeys, htexts] at hk
    rcases hkeys hk with hk | hk
    · exact .inl hk
    · rw [Violation.keys_flatMap] at hk
      obtain ⟨t, ht, hk⟩ := Set.mem_iUnion₂.mp hk
      refine .inr ⟨name, List.mem_singleton_self name, hx, t.rule, List.mem_map_of_mem ht, ?_⟩
      rwa [TextRule.findings, hr]

theorem HeldAtMost.cons {a₁ a₂ : Audit} {xs : List String}
    (h₁ : HeldAtMost files dirs [name] a a₁) (h₂ : HeldAtMost files dirs xs a₁ a₂) :
    HeldAtMost files dirs (name :: xs) a a₂ := by
  refine ⟨h₂.rules.trans h₁.rules, h₂.trees.trans h₁.trees, fun k hk => ?_⟩
  rcases h₂.found k hk with hk | ⟨x, hx, h⟩
  · rcases h₁.found k hk with hk | ⟨x, hx, h⟩
    · exact .inl hk
    · exact .inr ⟨x, List.mem_cons.mpr (.inl (List.mem_singleton.mp hx)), h⟩
  · rw [h₁.rules] at h
    exact .inr ⟨x, List.mem_cons_of_mem name hx, h⟩

theorem checkFiles_at_most (xs : List String) : ∀ {f : VisitFilter} {a : Audit}, f.Coherent dirs →
    HeldAtMost files dirs xs a (checkFiles files f a xs) := by
  induction xs with
  | nil => intro f a _; exact .refl [] a
  | cons x xs ih =>
    intro f a hf
    cases ha : a.fault with
    | some e =>
      rw [checkFiles_of_fault ha]
      exact .refl _ a
    | none =>
      obtain ⟨f', hcoh, hrun⟩ := @checkFiles_cons files _ _ _ hf ha x xs
      rw [hrun]
      cases hx : VisitFilter.letsFile dirs x with
      | true => exact (HeldAtMost.one hx).cons (ih hcoh)
      | false => exact (HeldAtMost.refl [x] a).cons (ih hcoh)

variable {o : AuditOptions} {trees : List TreeCheck} {texts : List TextRule}

/-- Under one name, a new audit reports nothing that its checks and rules do not find. -/
theorem keys_run_singleton_subset :
    keys ((new trees texts).run files units o [name]).violations.toList ⊆
      found files units o.includeDirs trees texts [name] := by
  let a₀ := (new trees texts).tell .started none
  let a₁ := a₀.walkUnit files units o.includeDirs name
  let a₂ := checkFiles files (.ofDirs o.includeDirs) a₁ a₁.seen.toList
  have hrun : ((new trees texts).run files units o [name]).violations = a₂.violations := by
    show (if a₂.fault.isSome then a₂ else _).violations = _
    split <;> rfl
  obtain ⟨htexts, htree⟩ := @walkUnit_at_most files units o.includeDirs a₀ name rfl
  have hheld : HeldAtMost files o.includeDirs a₁.seen.toList a₁ a₂ :=
    checkFiles_at_most _ (VisitFilter.ofDirs_coherent _)
  have hnone : a₁.textKeys = ∅ := by
    rw [textKeys, show a₁.texts = a₀.texts from htexts]
    exact new_textKeys trees texts
  intro k hk
  rw [hrun, keys_violations] at hk
  rcases hk with hk | hk
  · rw [treeKeys, hheld.trees] at hk
    rcases htree k hk with hk | ⟨u, hu, c, hc, hk⟩
    · rw [show a₀.treeKeys = ∅ from new_treeKeys trees texts] at hk
      exact hk.elim
    · rw [show a₀.trees.map (·.check) = trees from new_checks trees texts] at hc
      exact ⟨name, List.mem_singleton_self name, .inl ⟨u, hu, c, hc, hk⟩⟩
  · cases hf : a₁.fault with
    | some e =>
      -- no file is held to the rules behind a fault
      rw [show a₂ = a₁ from checkFiles_of_fault hf _, hnone] at hk
      exact hk.elim
    | none =>
      have hwalked : Walked files units o.includeDirs [name] a₀ a₁ := (walkUnit_spec rfl).2 hf
      rcases hheld.found k hk with hk | ⟨x, hx, hlet, r, hr, hk⟩
      · rw [hnone] at hk
        exact hk.elim
      · rw [hwalked.rules_of_new] at hr
        obtain ⟨n, hn, hx⟩ := (hwalked.seen_of_new x).mp hx
        exact ⟨n, hn, .inr ⟨x, hx, hlet, r, hr, hk⟩⟩

end Audit

namespace ScratchResult

/-- The files there are while a text is under test. -/
def filesWith (text : Text) : FileSystem := .write ⟨[]⟩ file text

def options : AuditOptions := ⟨[directory], ⟨false, false, []⟩⟩

/-- The audit of a text under test. -/
def audit (units : Units) (text : Text) (a : Audit) : Audit :=
  a.run (filesWith text) units options [file]

/-- The violations of a text under test, unless its audit meets a fault. -/
def told (units : Units) (text : Text) (a : Audit) : Except Fault ViolationSet :=
  match (audit units text a).fault with
  | none => .ok (audit units text a).violations
  | some e => .error e

theorem told_eq_ok {units : Units} {text : Text} {a : Audit} {vs : ViolationSet} :
    told units text a = .ok vs ↔
      (audit units text a).fault = none ∧ vs = (ofText units text a).violations := by
  have hof : (ofText units text a).violations = (audit units text a).violations := rfl
  rw [told, hof]
  cases (audit units text a).fault with
  | none => simp [eq_comm]
  | some e => simp

/-- Whatever happens, what all checks and rules have reported comes back. It is what the audit tells
exactly if nothing on the audit meets a fault, and then all that the checks find in the unit and the
rules in the files seen. A fault can only take violations away. -/
theorem ofText_hides_faults (units : Units) (text : Text) (trees : List TreeCheck)
    (texts : List TextRule) :
    let start := Audit.new trees texts
    let final := audit units text start
    let vs := (ofText units text start).violations
    keys vs.toList =
        (⋃ t ∈ final.trees, keys t.violations.toList) ∪
          ⋃ t ∈ final.texts, keys t.violations.toList ∧
    (∀ ws, told units text start = .ok ws ↔
      Audit.Returns (filesWith text) units options trees texts [file] ∧ ws = vs) ∧
    (Audit.Returns (filesWith text) units options trees texts [file] →
      keys vs.toList = Audit.found (filesWith text) units [directory] trees texts [file]) ∧
    keys vs.toList ⊆ Audit.found (filesWith text) units [directory] trees texts [file] := by
  intro start final vs
  obtain ⟨hfault, hfound⟩ :=
    @Audit.run_singleton_spec (filesWith text) units options trees texts file
  refine ⟨?_, fun ws => ?_, fun hr => hfound (hfault.mpr hr), Audit.keys_run_singleton_subset⟩
  · rw [← Violation.keys_flatMap, ← Violation.keys_flatMap]
    exact final.keys_violations
  · rw [told_eq_ok]
    exact and_congr_left fun _ => hfault

/-- A class with its opening brace on the line of its name. -/
def bracedClass : Text := Text.ofString "class C \x7b\n\x7d;\n"

def bracedUnits : Units := [(file, {
  root := .number <| .mk ⟨0, .ok .translationUnit, none, ⟨0, 0⟩, ⟨none, ⟨0, 0⟩, ⟨0, 0⟩⟩, false⟩ [
    .mk ⟨0, .ok .classDecl, some file, ⟨1, 1⟩, ⟨some file, ⟨1, 1⟩, ⟨2, 2⟩⟩, false⟩ []]
  tokens := [⟨.keyword, "class", file, ⟨1, 1⟩, none⟩, ⟨.identifier, "C", file, ⟨1, 7⟩, none⟩,
    ⟨.punctuation, "\x7b", file, ⟨1, 9⟩, none⟩, ⟨.punctuation, "\x7d", file, ⟨2, 1⟩, none⟩,
    ⟨.punctuation, ";", file, ⟨2, 2⟩, none⟩] })]

/-- A check of indentation for a placement of the braces of records. -/
def checkOf (braces : BracePlacement) : TreeCheck :=
  .indent (.ofStyle { IndentStyle.standard with recordBraces := braces })

/-- An audit that comes to its end, with a violation. -/
theorem ofText_hides_faults_nothing_to_hide :
    let vs := (ofText bracedUnits bracedClass (.new [checkOf .nextLineIndent] [])).violations
    vs.size = 1 ∧
      Audit.Returns (filesWith bracedClass) bracedUnits options [checkOf .nextLineIndent] []
        [file] ∧
      keys vs.toList = Audit.found (filesWith bracedClass) bracedUnits [directory]
        [checkOf .nextLineIndent] [] [file] := by
  intro vs
  obtain ⟨-, htold, hall, -⟩ :=
    ofText_hides_faults bracedUnits bracedClass [checkOf .nextLineIndent] []
  have hr := ((htold vs).mp (by decide +kernel)).1
  exact ⟨by decide +kernel, hr, hall hr⟩

/-- The same violation is lost if the placement is misspelt: the audit meets a fault, and an empty
set comes back. -/
theorem ofText_empty_despite_fault :
    let start := Audit.new [checkOf (.other "next-line-indented")] []
    told bracedUnits bracedClass start = .error .unknownPlacement ∧
      (ofText bracedUnits bracedClass start).violations = .empty := by
  decide +kernel

end ScratchResult

end StyleCheck
