import StyleCheck.Audit
import StyleCheck.Proofs.FrameStack
import StyleCheck.Proofs.ViolationKeys

/-!
# Audits as unions

What an audit finds is the union of what each of its checks and rules finds under each name alone
(`Audit.found`). A walk leaves a fresh check fresh, and a rule for texts keeps no state, so neither
can tell what came before it. Hence the order of names, checks and files does not matter, nor does
it matter whether a name is given twice.
-/

namespace StyleCheck

open Violation (keys Key)

variable {files : FileSystem} {unit : TranslationUnit} {root : Tree}

/-! ## Fresh checks -/

namespace SpacingCheck

variable {c c' : SpacingCheck} {o : List Tree}

/-- Inside a walk there is a frame for the unit and one for each open tree. -/
def Balanced (o : List Tree) (c : SpacingCheck) : Prop :=
  c.frames.length = o.length + 1 ∧ c.depth = o.length

theorem Balanced.step {e : Event} (he : e.Fits root o) (h : c.Balanced o)
    (hs : (c.step unit e).outcome = .ok c') : c'.Balanced (e.after o) := by
  obtain ⟨hf, hd⟩ := h
  cases e with
  | start => exact he.elim
  | finish => exact he.elim
  | enter t =>
    rw [SpacingCheck.step, Report.bind_outcome_eq_ok] at hs
    obtain ⟨k, -, hs⟩ := hs
    rw [Report.bind_outcome_eq_ok] at hs
    obtain ⟨_, -, hs⟩ := hs
    cases hs
    simp only [Balanced, Event.after_enter, List.length_cons]
    omega
  | leave t =>
    obtain ⟨-, above, rfl⟩ := he
    cases hs
    simp only [Balanced, Event.after_leave, List.length_tail, List.length_cons] at hf hd ⊢
    omega

/-- A walk that meets no fault leaves the check as it was at first. -/
theorem follow_walk {p : Node → Bool}
    (h : (SpacingCheck.new.follow unit (.start root :: (root.tour p ++ [.finish root]))).outcome =
      .ok c) : c = .new := by
  obtain ⟨ho, hopen⟩ := Event.tour_orderly (p := p) root .top
  have hstart : SpacingCheck.new.step unit (.start root) = pure ⟨[.root], 0⟩ := rfl
  rw [follow, List.foldlM_cons, hstart, pure_bind, List.foldlM_append,
    Report.bind_outcome_eq_ok] at h
  obtain ⟨d, h1, h2⟩ := h
  have hd := ho.invariant (fun he hb hs => Balanced.step he hb hs)
    (show Balanced [] ⟨[.root], 0⟩ from ⟨rfl, rfl⟩) h1
  rw [hopen] at hd
  obtain ⟨hf, hdepth⟩ : d.frames.length = 1 ∧ d.depth = 0 := hd
  rw [List.foldlM_cons, step, if_pos hf, hdepth, pure_bind] at h2
  cases h2
  rfl

end SpacingCheck

namespace TreeCheck

/-- A check of indentation or spacing as it is before any walk. -/
def Fresh : TreeCheck → Prop
  | indent c => ∃ style, c = .ofStyle style
  | spacing c => c = .new
  | bare => False

variable {c c' : TreeCheck}

/-- A walk that meets no fault leaves a fresh check fresh. -/
theorem Fresh.follow_walk {p : Node → Bool} (hc : c.Fresh) (hr : root.Distinct)
    (h : (c.follow files unit (.start root :: (root.tour p ++ [.finish root]))).outcome = .ok c') :
    c' = c := by
  cases c with
  | bare => exact hc.elim
  | indent d =>
    obtain ⟨style, rfl⟩ := hc
    rw [follow_indent, Report.map_outcome_eq_ok] at h
    obtain ⟨d, hd, rfl⟩ := h
    rw [IndentCheck.follow_walk hr hd]
  | spacing d =>
    obtain rfl := hc
    rw [follow_spacing, Report.map_outcome_eq_ok] at h
    obtain ⟨d, hd, rfl⟩ := h
    rw [SpacingCheck.follow_walk hd]

/-- What the check reports on a walk through a unit. -/
def findings (files : FileSystem) (u : TranslationUnit) (dirs : List String) (c : TreeCheck) :
    List Violation := (c.follow files u (Visit.events (u.visits (.ofDirs dirs)).1)).notes

/-- The check follows a walk through a unit to its end. -/
def Passes (files : FileSystem) (u : TranslationUnit) (dirs : List String) (c : TreeCheck) : Prop :=
  ∃ c', (c.follow files u (Visit.events (u.visits (.ofDirs dirs)).1)).outcome = .ok c'

theorem Fresh.outcome_of_passes {u : TranslationUnit} {dirs : List String} (hc : c.Fresh)
    (hu : u.root.Distinct) (h : c.Passes files u dirs) :
    (c.follow files u (Visit.events (u.visits (.ofDirs dirs)).1)).outcome = .ok c := by
  obtain ⟨c', hc'⟩ := h
  have hev := u.events_visits dirs
  rw [hev] at hc' ⊢
  rw [hc', hc.follow_walk hu hc']

end TreeCheck

/-- The files seen on a walk through a unit. -/
def TranslationUnit.filesSeen (u : TranslationUnit) (dirs : List String) : List String :=
  Visit.files (u.visits (.ofDirs dirs)).1

/-- The kind of every node that the walk through a unit comes to can be told. -/
def TranslationUnit.Walkable (u : TranslationUnit) (dirs : List String) : Prop :=
  ∀ e, Visit.fault e ∉ (u.visits (.ofDirs dirs)).1

/-! ## Reports on a walk -/

namespace TreeAudit

variable {a : TreeAudit} {e : Event}

/-- What an audit has reported, and what its check reports on events to come. -/
def reports (files : FileSystem) (unit : TranslationUnit) (es : List Event) (a : TreeAudit) :
    List Violation := a.violations.toList ++ (a.check.follow files unit es).notes

/-- A step moves its reports from those to come to those that have been made. -/
theorem keys_reports_step (h : (a.step files unit e).2 = none) (es : List Event) :
    keys ((a.step files unit e).1.reports files unit es) =
      keys (a.reports files unit (e :: es)) := by
  cases hs : (a.check.step files unit e).outcome with
  | error fault =>
    rw [step_of_error hs] at h
    cases h
  | ok c =>
    rw [step_of_ok hs, reports, reports, TreeCheck.follow, TreeCheck.follow, List.foldlM_cons,
      Report.bind_notes_of_ok hs, Violation.keys_append, ViolationSet.keys_insertAll,
      Violation.keys_append, Violation.keys_append, Set.union_assoc]

/-- A step adds no more than what its check reports, even if a fault cuts it short. -/
theorem keys_step_subset (a : TreeAudit) (e : Event) (es : List Event) :
    keys (a.step files unit e).1.violations.toList ⊆ keys (a.reports files unit (e :: es)) := by
  cases hs : (a.check.step files unit e).outcome with
  | ok c =>
    rw [← keys_reports_step (by rw [step_of_ok hs]), reports, Violation.keys_append]
    exact Set.subset_union_left
  | error fault =>
    have hv : (a.step files unit e).1.violations =
        a.violations.insertAll (a.check.step files unit e).notes := by
      simp only [step, hs]
    rw [hv, ViolationSet.keys_insertAll, reports, Violation.keys_append, TreeCheck.follow,
      List.foldlM_cons, Report.bind_of_error hs]

theorem keys_subset_reports (as : List TreeAudit) (es : List Event) :
    keys (as.flatMap (·.violations.toList)) ⊆ keys (as.flatMap (·.reports files unit es)) := by
  rw [Violation.keys_flatMap, Violation.keys_flatMap]
  refine Set.iUnion₂_mono fun a _ => ?_
  rw [reports, Violation.keys_append]
  exact Set.subset_union_left

theorem keys_reports_stepAll {as : List TreeAudit} (h : (stepAll files unit e as).2 = none)
    (es : List Event) :
    keys ((stepAll files unit e as).1.flatMap (·.reports files unit es)) =
      keys (as.flatMap (·.reports files unit (e :: es))) := by
  rw [stepAll_checks h, List.flatMap_map, Violation.keys_flatMap, Violation.keys_flatMap]
  exact Set.iUnion₂_congr fun a ha => keys_reports_step (stepAll_fault.mp h a ha) es

theorem keys_stepAll_subset (e : Event) (as : List TreeAudit) (es : List Event) :
    keys ((stepAll files unit e as).1.flatMap (·.violations.toList)) ⊆
      keys (as.flatMap (·.reports files unit (e :: es))) := by
  induction as with
  | nil => exact subset_rfl
  | cons a as ih =>
    have ha := @keys_step_subset files unit a e es
    rw [stepAll, List.flatMap_cons, Violation.keys_append]
    split
    · next heq =>
      rw [heq] at ha
      rw [List.flatMap_cons, Violation.keys_append]
      exact Set.union_subset_union ha (keys_subset_reports as _)
    · next heq =>
      rw [heq] at ha
      rw [List.flatMap_cons, Violation.keys_append]
      exact Set.union_subset_union ha ih

end TreeAudit

namespace Walk

/-- A walk adds what its checks report on all events, or less if it meets a fault. -/
theorem keys_foldl_visit (vs : List Visit) : ∀ w : Walk,
    keys ((vs.foldl (visit files unit) w).checks.flatMap (·.violations.toList)) ⊆
        keys (w.checks.flatMap (·.reports files unit (Visit.events vs))) ∧
      ((vs.foldl (visit files unit) w).fault = none →
        keys ((vs.foldl (visit files unit) w).checks.flatMap (·.violations.toList)) =
          keys (w.checks.flatMap (·.reports files unit (Visit.events vs)))) := by
  induction vs with
  | nil =>
    intro w
    have hnone : w.checks.flatMap (·.reports files unit (Visit.events [])) =
        w.checks.flatMap (·.violations.toList) := by
      simp only [TreeAudit.reports, TreeCheck.follow, Visit.events, List.filterMap_nil,
        List.foldlM_nil, Report.pure_notes, List.append_nil]
    rw [hnone]
    exact ⟨subset_rfl, fun _ => rfl⟩
  | cons v vs ih =>
    intro w
    cases hw : w.fault with
    | some e =>
      rw [foldl_visit_of_fault hw, hw]
      exact ⟨TreeAudit.keys_subset_reports _ _, fun h => by cases h⟩
    | none =>
      rw [List.foldl_cons]
      cases v with
      | seen file =>
        rw [visit_seen hw]
        exact ih { w with seen := w.seen.insert file }
      | fault e =>
        rw [visit_fault hw, foldl_visit_of_fault (e := e) rfl]
        exact ⟨TreeAudit.keys_subset_reports _ _, fun h => by cases h⟩
      | event e =>
        rw [visit_event hw, show Visit.events (.event e :: vs) = e :: Visit.events vs from rfl]
        cases hf : (TreeAudit.stepAll files unit e w.checks).2 with
        | some fault =>
          rw [foldl_visit_of_fault (e := fault) rfl]
          exact ⟨TreeAudit.keys_stepAll_subset e w.checks _, fun h => by cases h⟩
        | none =>
          rw [← TreeAudit.keys_reports_stepAll hf]
          exact ih { w with checks := (TreeAudit.stepAll files unit e w.checks).1, fault := none }

/-- What a walk through a unit adds to what its checks have reported. -/
theorem keys_run (files : FileSystem) (u : TranslationUnit) (dirs : List String)
    (as : List TreeAudit) :
    keys ((run files u dirs as).1.checks.flatMap (·.violations.toList)) ⊆
        keys (as.flatMap (·.violations.toList)) ∪
          keys (as.flatMap (·.check.findings files u dirs)) ∧
      ((run files u dirs as).1.fault = none →
        keys ((run files u dirs as).1.checks.flatMap (·.violations.toList)) =
          keys (as.flatMap (·.violations.toList)) ∪
            keys (as.flatMap (·.check.findings files u dirs))) := by
  have hreports : keys (as.flatMap (·.reports files u (Visit.events (u.visits (.ofDirs dirs)).1))) =
      keys (as.flatMap (·.violations.toList)) ∪
        keys (as.flatMap (·.check.findings files u dirs)) := by
    simp only [TreeAudit.reports, Violation.keys_flatMap, Violation.keys_append,
      Set.iUnion_union_distrib]
    rfl
  rw [← hreports]
  exact keys_foldl_visit _ (.ofChecks as)

/-- A walk meets no fault if none of its checks does alone. -/
theorem run_spec (files : FileSystem) (u : TranslationUnit) (dirs : List String)
    (as : List TreeAudit) :
    ((run files u dirs as).1.fault = none ↔
      u.Walkable dirs ∧ ∀ a ∈ as, a.check.Passes files u dirs) ∧
    ((run files u dirs as).1.fault = none →
      (run files u dirs as).1.seen = .ofList (u.filesSeen dirs)) := by
  obtain ⟨h1, h2⟩ := @foldl_visit_spec files u (u.visits (.ofDirs dirs)).1 (.ofChecks as) rfl
  exact ⟨h1.trans (and_congr_right fun _ => forall₂_congr fun a _ => TreeAudit.follow_fault),
    fun hf => (h2 hf).2⟩

/-- A walk that meets no fault leaves fresh checks as they were. -/
theorem run_fresh {u : TranslationUnit} {dirs : List String} {as : List TreeAudit}
    (hu : u.root.Distinct) (hfresh : ∀ a ∈ as, a.check.Fresh)
    (hf : (run files u dirs as).1.fault = none) :
    (run files u dirs as).1.checks.map (·.check) = as.map (·.check) := by
  have hpass := ((run_spec files u dirs as).1.mp hf).2
  have h := ((@foldl_visit_spec files u (u.visits (.ofDirs dirs)).1 (.ofChecks as) rfl).2 hf).1
  rw [show (run files u dirs as).1.checks = _ from h, List.map_map]
  refine List.map_congr_left fun a ha => ?_
  show (TreeAudit.follow files u _ a).1.check = a.check
  rw [TreeAudit.follow_of_ok ((hfresh a ha).outcome_of_passes hu (hpass a ha))]

end Walk

/-- What a rule reports about the file of a name. -/
def TextRule.findings (files : FileSystem) (name : String) (r : TextRule) : List Violation :=
  match files.read name with
  | .ok file => (r.check file).notes
  | .error _ => []

/-! ## Audits -/

namespace Audit

variable {units : Units} {dirs : List String} {a : Audit} {name : String}

/-- The keys of what tree checks have reported. -/
def treeKeys (a : Audit) : Set Key := keys (a.trees.flatMap (·.violations.toList))

/-- The keys of what rules for texts have reported. -/
def textKeys (a : Audit) : Set Key := keys (a.texts.flatMap (·.violations.toList))

theorem keys_violations (a : Audit) : keys a.violations.toList = a.treeKeys ∪ a.textKeys := by
  rw [violations, ViolationSet.keys_foldl_union, treeKeys, textKeys, List.flatMap_append,
    Violation.keys_append, List.flatMap_map, List.flatMap_map]
  show keys [] ∪ _ = _
  rw [Violation.keys_nil, Set.empty_union]

/-- A name stands for a unit that the checks follow a walk through to its end. -/
def Walks (files : FileSystem) (units : Units) (dirs : List String) (trees : List TreeCheck)
    (name : String) (u : TranslationUnit) : Prop :=
  units.lookup name = some u ∧ u.Walkable dirs ∧ ∀ c ∈ trees, c.Passes files u dirs

theorem distinct_of_lookup {u : TranslationUnit} (hunits : ∀ e ∈ units, e.2.root.Distinct)
    (h : units.lookup name = some u) : u.root.Distinct := by
  obtain ⟨before, after, hmem, -⟩ := List.lookup_eq_some_iff.mp h
  exact hunits (name, u) (by rw [hmem]; simp)

theorem foldl_walkUnit_of_fault {e : Fault} (ha : a.fault = some e) (names : List String) :
    names.foldl (walkUnit files units dirs) a = a := by
  induction names with
  | nil => rfl
  | cons name names ih =>
    have h : a.walkUnit files units dirs name = a := by
      unfold walkUnit
      rw [ha]
      rfl
    rw [List.foldl_cons, h, ih]

/-- What an audit has come to behind its walks. -/
structure Walked (files : FileSystem) (units : Units) (dirs : List String) (names : List String)
    (a a' : Audit) : Prop where
  texts : a'.texts = a.texts
  found : ∀ k, k ∈ a'.treeKeys ↔ k ∈ a.treeKeys ∨ ∃ n ∈ names, ∃ u, units.lookup n = some u ∧
    ∃ c ∈ a.trees.map (·.check), k ∈ keys (c.findings files u dirs)
  seen : ∀ x, x ∈ a'.seen.toList ↔ x ∈ a.seen.toList ∨ ∃ n ∈ names, ∃ u,
    units.lookup n = some u ∧ x ∈ u.filesSeen dirs

theorem Walked.cons {a₁ a₂ : Audit} {names : List String}
    (hchecks : a₁.trees.map (·.check) = a.trees.map (·.check))
    (h₁ : Walked files units dirs [name] a a₁) (h₂ : Walked files units dirs names a₁ a₂) :
    Walked files units dirs (name :: names) a a₂ := by
  refine ⟨h₂.texts.trans h₁.texts, ?_, ?_⟩
  · intro k
    rw [h₂.found, h₁.found, hchecks]
    simp only [List.mem_cons, List.not_mem_nil, or_false, exists_eq_left, exists_eq_or_imp,
      or_assoc]
  · intro x
    rw [h₂.seen, h₁.seen]
    simp only [List.mem_cons, List.not_mem_nil, or_false, exists_eq_left, exists_eq_or_imp,
      or_assoc]

theorem walkUnit_of_lookup {u : TranslationUnit} (ha : a.fault = none)
    (hu : units.lookup name = some u) :
    (a.walkUnit files units dirs name).trees = (Walk.run files u dirs a.trees).1.checks ∧
      (a.walkUnit files units dirs name).texts = a.texts ∧
      (a.walkUnit files units dirs name).fault = (Walk.run files u dirs a.trees).1.fault ∧
      ((Walk.run files u dirs a.trees).1.fault = none →
        (a.walkUnit files units dirs name).seen =
          a.seen.union (Walk.run files u dirs a.trees).1.seen) := by
  unfold walkUnit
  simp only [ha, Option.isSome_none, Bool.false_eq_true, if_false, hu]
  split
  · next e he => exact ⟨rfl, rfl, he.symm, fun h => by rw [he] at h; cases h⟩
  · next he => exact ⟨rfl, rfl, he.symm, fun _ => rfl⟩

/-- A walk meets no fault if its name stands for a unit that the checks follow it through, and adds
what they find. -/
theorem walkUnit_spec (ha : a.fault = none) :
    ((a.walkUnit files units dirs name).fault = none ↔
      ∃ u, Walks files units dirs (a.trees.map (·.check)) name u) ∧
    ((a.walkUnit files units dirs name).fault = none →
      Walked files units dirs [name] a (a.walkUnit files units dirs name)) := by
  cases hu : units.lookup name with
  | none => simp [walkUnit, ha, hu, Walks]
  | some u =>
    obtain ⟨htrees, htexts, hfault, hseen⟩ := @walkUnit_of_lookup files _ dirs _ _ _ ha hu
    obtain ⟨h1, h2⟩ := Walk.run_spec files u dirs a.trees
    rw [hfault]
    refine ⟨?_, fun hf => ⟨htexts, ?_, ?_⟩⟩
    · rw [h1]
      simp [Walks, hu]
    · intro k
      rw [treeKeys, htrees, (Walk.keys_run files u dirs a.trees).2 hf, Set.mem_union]
      simp [treeKeys, hu, Violation.keys_flatMap]
    · intro x
      rw [hseen hf, h2 hf]
      show x ∈ (OrdSet.insertAll _ _).toList ↔ _
      rw [OrdSet.mem_insertAll, OrdSet.ofList, OrdSet.mem_insertAll]
      simp [OrdSet.empty, hu]

/-- Walks meet no fault if none of them does alone, and add up what they find. -/
theorem walkUnits_spec (hunits : ∀ e ∈ units, e.2.root.Distinct) (names : List String) :
    ∀ {a : Audit}, (∀ t ∈ a.trees, t.check.Fresh) → a.fault = none →
    ((names.foldl (walkUnit files units dirs) a).fault = none ↔
      ∀ n ∈ names, ∃ u, Walks files units dirs (a.trees.map (·.check)) n u) ∧
    ((names.foldl (walkUnit files units dirs) a).fault = none →
      Walked files units dirs names a (names.foldl (walkUnit files units dirs) a)) := by
  induction names with
  | nil =>
    intro a _ ha
    exact ⟨by simp [ha], fun _ => ⟨rfl, by simp, by simp⟩⟩
  | cons name names ih =>
    intro a hfresh ha
    obtain ⟨hfault, hone⟩ := @walkUnit_spec files units dirs a name ha
    rw [List.foldl_cons, List.forall_mem_cons]
    cases h : (a.walkUnit files units dirs name).fault with
    | some e =>
      rw [foldl_walkUnit_of_fault h, h]
      refine ⟨⟨nofun, fun hn => ?_⟩, nofun⟩
      rw [hfault.mpr hn.1] at h
      cases h
    | none =>
      obtain ⟨u, hu⟩ := hfault.mp h
      obtain ⟨htrees, -, hrun, -⟩ := @walkUnit_of_lookup files _ dirs _ _ _ ha hu.1
      -- the checks are fresh again, so the next walk cannot tell that it is not the first
      have hchecks : (a.walkUnit files units dirs name).trees.map (·.check) =
          a.trees.map (·.check) := by
        rw [htrees]
        exact Walk.run_fresh (distinct_of_lookup hunits hu.1) hfresh (hrun.symm.trans h)
      have hfresh₁ : ∀ t ∈ (a.walkUnit files units dirs name).trees, t.check.Fresh := by
        rw [← List.forall_mem_map (f := TreeAudit.check) (P := TreeCheck.Fresh), hchecks]
        exact List.forall_mem_map.mpr hfresh
      obtain ⟨h1, h2⟩ := ih hfresh₁ h
      rw [hchecks] at h1
      exact ⟨h1.trans ⟨fun hn => ⟨⟨u, hu⟩, hn⟩, fun hn => hn.2⟩,
        fun hf => (hone h).cons hchecks (h2 hf)⟩

theorem checkTexts_spec (file : SourceFile) (ts : List TextAudit) :
    ((checkTexts file ts).2.2 = none ↔ ∀ t ∈ ts, (t.rule.check file).outcome = .ok ()) ∧
    ((checkTexts file ts).2.2 = none →
      (checkTexts file ts).1 = ts.map fun t => (t.check file).1) := by
  induction ts with
  | nil => exact ⟨⟨fun _ => nofun, fun _ => rfl⟩, fun _ => rfl⟩
  | cons t ts ih =>
    rw [checkTexts, List.forall_mem_cons, ← Report.fault?_eq_none]
    cases h : (t.rule.check file).fault? with
    | some e =>
      have ht : t.check file = ((t.check file).1, some e) := by rw [← h]; rfl
      rw [ht]
      exact ⟨⟨nofun, fun h => nomatch h.1⟩, nofun⟩
    | none =>
      have ht : t.check file = ((t.check file).1, none) := by rw [← h]; rfl
      rw [ht, List.map_cons]
      refine ⟨ih.1.trans ⟨fun h => ⟨rfl, h⟩, fun h => h.2⟩, fun hf => ?_⟩
      show (t.check file).1 :: (checkTexts file ts).1 = _
      rw [ih.2 hf]

/-- A file that can be read, and held to the rules. -/
def Reads (files : FileSystem) (rules : List TextRule) (name : String) : Prop :=
  ∃ file, files.read name = .ok file ∧ ∀ r ∈ rules, (r.check file).outcome = .ok ()

theorem checkFile_of_read {file : SourceFile} (hr : files.read name = .ok file) :
    (a.checkFile files name).trees = a.trees ∧
      (a.checkFile files name).texts = (checkTexts file a.texts).1 ∧
      (a.checkFile files name).fault = (checkTexts file a.texts).2.2 := by
  unfold checkFile
  rw [hr]
  by_cases h : (checkTexts file a.texts).2.2.isSome = true
  · simp only [tell, h, if_true, and_self]
  · simp only [tell, h, if_false, and_self, Bool.false_eq_true]

theorem checkFile_fault : (a.checkFile files name).fault = none ↔
    Reads files (a.texts.map (·.rule)) name := by
  unfold Reads
  cases hr : files.read name with
  | error e => simp [checkFile, hr]
  | ok file =>
    rw [(checkFile_of_read hr).2.2, (checkTexts_spec file a.texts).1]
    simp

/-- What an audit has come to behind some files. -/
structure Held (files : FileSystem) (dirs : List String) (xs : List String) (a a' : Audit) :
    Prop where
  rules : a'.texts.map (·.rule) = a.texts.map (·.rule)
  trees : a'.trees = a.trees
  found : ∀ k, k ∈ a'.textKeys ↔ k ∈ a.textKeys ∨ ∃ x ∈ xs,
    VisitFilter.letsFile dirs x = true ∧ ∃ r ∈ a.texts.map (·.rule), k ∈ keys (r.findings files x)

theorem Held.one (hx : VisitFilter.letsFile dirs name = true)
    (h : (a.checkFile files name).fault = none) :
    Held files dirs [name] a (a.checkFile files name) := by
  obtain ⟨file, hr, hok⟩ := checkFile_fault.mp h
  obtain ⟨htrees, htexts, hfault⟩ := checkFile_of_read (a := a) hr
  rw [(checkTexts_spec file a.texts).2 (hfault.symm.trans h)] at htexts
  refine ⟨?_, htrees, ?_⟩
  · rw [htexts, List.map_map]
    rfl
  · intro k
    have hfind : ∀ r : TextRule, r.findings files name = (r.check file).notes := by
      intro r
      rw [TextRule.findings, hr]
    have hkeys : ∀ t : TextAudit, keys (t.check file).1.violations.toList =
        keys t.violations.toList ∪ keys (t.rule.check file).notes :=
      fun t => ViolationSet.keys_insertAll _ _
    rw [textKeys, htexts, List.flatMap_map, Violation.keys_flatMap]
    simp only [hkeys, Set.iUnion_union_distrib, Set.mem_union, textKeys, Violation.keys_flatMap]
    simp [hx, hfind]

theorem Held.cons {a₁ a₂ : Audit} {xs : List String} (h₁ : Held files dirs [name] a a₁)
    (h₂ : Held files dirs xs a₁ a₂) : Held files dirs (name :: xs) a a₂ := by
  refine ⟨h₂.rules.trans h₁.rules, h₂.trees.trans h₁.trees, fun k => ?_⟩
  rw [h₂.found, h₁.found, h₁.rules]
  simp only [List.mem_cons, List.not_mem_nil, or_false, exists_eq_left, exists_eq_or_imp, or_assoc]

theorem checkFiles_of_fault {f : VisitFilter} {e : Fault} (ha : a.fault = some e)
    (xs : List String) : checkFiles files f a xs = a := by
  cases xs with
  | nil => rfl
  | cons x xs => rw [checkFiles, ha, if_pos Option.isSome_some]

/-- Whatever answers a filter has kept, it lets the next file through by the rule. -/
theorem checkFiles_cons {f : VisitFilter} (hf : f.Coherent dirs) (ha : a.fault = none) (x : String)
    (xs : List String) : ∃ f' : VisitFilter, f'.Coherent dirs ∧
      checkFiles files f a (x :: xs) =
        if VisitFilter.letsFile dirs x then checkFiles files f' (a.checkFile files x) xs
        else checkFiles files f' a xs := by
  obtain ⟨f', hf', hcoh⟩ := hf.allowsFile x
  refine ⟨f', hcoh, ?_⟩
  rw [checkFiles, ha, if_neg (by simp), hf']
  cases VisitFilter.letsFile dirs x <;> rfl

/-- Files can be held to the rules if each of them can alone, and what is found adds up. -/
theorem checkFiles_spec (xs : List String) : ∀ {f : VisitFilter} {a : Audit}, f.Coherent dirs →
    a.fault = none →
    ((checkFiles files f a xs).fault = none ↔
      ∀ x ∈ xs, VisitFilter.letsFile dirs x = true → Reads files (a.texts.map (·.rule)) x) ∧
    ((checkFiles files f a xs).fault = none → Held files dirs xs a (checkFiles files f a xs)) := by
  induction xs with
  | nil =>
    intro f a _ ha
    exact ⟨by simp [checkFiles, ha], fun _ => ⟨rfl, rfl, by simp [checkFiles]⟩⟩
  | cons x xs ih =>
    intro f a hf ha
    obtain ⟨f', hcoh, hrun⟩ := @checkFiles_cons files _ _ _ hf ha x xs
    rw [hrun, List.forall_mem_cons]
    cases hx : VisitFilter.letsFile dirs x with
    | false =>
      obtain ⟨h1, h2⟩ := ih hcoh ha
      rw [if_neg Bool.false_ne_true]
      refine ⟨h1.trans ⟨fun h => ⟨nofun, h⟩, fun h => h.2⟩, fun h => ?_⟩
      obtain ⟨hrules, htrees, hfound⟩ := h2 h
      exact ⟨hrules, htrees, fun k => by rw [hfound]; simp [hx]⟩
    | true =>
      rw [if_pos rfl]
      cases h : (a.checkFile files x).fault with
      | some e =>
        rw [checkFiles_of_fault h, h]
        refine ⟨⟨nofun, fun ⟨hr, _⟩ => ?_⟩, nofun⟩
        rw [checkFile_fault.mpr (hr rfl)] at h
        cases h
      | none =>
        have hone := Held.one hx h
        obtain ⟨h1, h2⟩ := ih hcoh h
        rw [hone.rules] at h1
        exact ⟨h1.trans ⟨fun hr => ⟨fun _ => checkFile_fault.mp h, hr⟩, fun hr => hr.2⟩,
          fun hr => hone.cons (h2 hr)⟩

/-! ## Whole audits -/

variable {o : AuditOptions} {trees : List TreeCheck} {texts : List TextRule} {names : List String}

/-- Audits the units of some names, and comes to the files seen in another order. -/
def runBy (order : List String → List String) (files : FileSystem) (units : Units)
    (o : AuditOptions) (names : List String) (a : Audit) : Audit :=
  let a := names.foldl (walkUnit files units o.includeDirs) (a.tell .started none)
  let a := checkFiles files (.ofDirs o.includeDirs) a (order a.seen.toList)
  if a.fault.isSome then a else (a.tell .finished none).showFound files o.display

theorem run_eq_runBy (a : Audit) : a.run files units o names = a.runBy id files units o names := rfl

/-- The unit of a name has seen a file. -/
def SeenUnder (units : Units) (dirs : List String) (name x : String) : Prop :=
  ∃ u, units.lookup name = some u ∧ x ∈ u.filesSeen dirs

/-- The keys of what checks and rules find under some names, each for itself. -/
def found (files : FileSystem) (units : Units) (dirs : List String) (trees : List TreeCheck)
    (texts : List TextRule) (names : List String) : Set Key :=
  { k | ∃ n ∈ names,
    (∃ u, units.lookup n = some u ∧ ∃ c ∈ trees, k ∈ keys (c.findings files u dirs)) ∨
      ∃ x, SeenUnder units dirs n x ∧ VisitFilter.letsFile dirs x = true ∧
        ∃ r ∈ texts, k ∈ keys (r.findings files x) }

theorem mem_found {dirs : List String} {k : Key} : k ∈ found files units dirs trees texts names ↔
    ∃ n ∈ names,
      (∃ u, units.lookup n = some u ∧ ∃ c ∈ trees, k ∈ keys (c.findings files u dirs)) ∨
        ∃ x, SeenUnder units dirs n x ∧ VisitFilter.letsFile dirs x = true ∧
          ∃ r ∈ texts, k ∈ keys (r.findings files x) := Iff.rfl

theorem found_mono {trees' : List TreeCheck} {texts' : List TextRule} {names' : List String}
    (hn : names' ⊆ names) (hc : trees' ⊆ trees) (hr : texts' ⊆ texts) :
    found files units dirs trees' texts' names' ⊆ found files units dirs trees texts names := by
  rintro k ⟨n, hn', ⟨u, hu, c, hc', hk⟩ | ⟨x, hx, hlet, r, hr', hk⟩⟩
  · exact ⟨n, hn hn', .inl ⟨u, hu, c, hc hc', hk⟩⟩
  · exact ⟨n, hn hn', .inr ⟨x, hx, hlet, r, hr hr', hk⟩⟩

/-- What is found is found by one check or one rule under one name. -/
theorem found_eq_iUnion : found files units dirs trees texts names =
    ⋃ n ∈ names, (⋃ c ∈ trees, found files units dirs [c] [] [n]) ∪
      ⋃ r ∈ texts, found files units dirs [] [r] [n] := by
  apply Set.Subset.antisymm
  · rintro k ⟨n, hn, ⟨u, hu, c, hc, hk⟩ | ⟨x, hx, hlet, r, hr, hk⟩⟩
    · refine Set.mem_biUnion hn (.inl (Set.mem_biUnion hc ?_))
      exact ⟨n, List.mem_singleton_self n, .inl ⟨u, hu, c, List.mem_singleton_self c, hk⟩⟩
    · refine Set.mem_biUnion hn (.inr (Set.mem_biUnion hr ?_))
      exact ⟨n, List.mem_singleton_self n, .inr ⟨x, hx, hlet, r, List.mem_singleton_self r, hk⟩⟩
  · refine Set.iUnion₂_subset fun n hn => Set.union_subset ?_ ?_
    · exact Set.iUnion₂_subset fun c hc => found_mono (List.singleton_sublist.mpr hn).subset
        (List.singleton_sublist.mpr hc).subset (List.nil_subset _)
    · exact Set.iUnion₂_subset fun r hr => found_mono (List.singleton_sublist.mpr hn).subset
        (List.nil_subset _) (List.singleton_sublist.mpr hr).subset

/-- Nothing on an audit meets a fault, looked at for itself. -/
structure Returns (files : FileSystem) (units : Units) (o : AuditOptions)
    (trees : List TreeCheck) (texts : List TextRule) (names : List String) : Prop where
  walks : ∀ n ∈ names, ∃ u, Walks files units o.includeDirs trees n u
  reads : ∀ n ∈ names, ∀ x, SeenUnder units o.includeDirs n x →
    VisitFilter.letsFile o.includeDirs x = true → Reads files texts x
  shows : ∀ k ∈ found files units o.includeDirs trees texts names, k.Shown files o.display

/-- Parts of an audit that returns return. -/
theorem Returns.mono {trees' : List TreeCheck} {texts' : List TextRule} {names' : List String}
    (h : Returns files units o trees texts names) (hn : names' ⊆ names) (hc : trees' ⊆ trees)
    (hr : texts' ⊆ texts) : Returns files units o trees' texts' names' where
  walks n hn' := by
    obtain ⟨u, hu, hwalk, hpass⟩ := h.walks n (hn hn')
    exact ⟨u, hu, hwalk, fun c hc' => hpass c (hc hc')⟩
  reads n hn' x hx hlet := by
    obtain ⟨file, hread, hok⟩ := h.reads n (hn hn') x hx hlet
    exact ⟨file, hread, fun r hr' => hok r (hr hr')⟩
  shows k hk := h.shows k (found_mono hn hc hr hk)

theorem new_treeKeys (trees : List TreeCheck) (texts : List TextRule) :
    (new trees texts).treeKeys = ∅ :=
  Violation.keys_flatMap_eq_empty (List.forall_mem_map.mpr fun _ _ => rfl)

theorem new_textKeys (trees : List TreeCheck) (texts : List TextRule) :
    (new trees texts).textKeys = ∅ :=
  Violation.keys_flatMap_eq_empty (List.forall_mem_map.mpr fun _ _ => rfl)

theorem new_checks (trees : List TreeCheck) (texts : List TextRule) :
    (new trees texts).trees.map (·.check) = trees := by
  rw [new, List.map_map]
  exact List.map_id trees

theorem new_rules (trees : List TreeCheck) (texts : List TextRule) :
    (new trees texts).texts.map (·.rule) = texts := by
  rw [new, List.map_map]
  exact List.map_id texts

section

variable {a₁ a₂ : Audit}
  (hw : Walked files units dirs names ((new trees texts).tell .started none) a₁)

include hw

theorem Walked.rules_of_new : a₁.texts.map (·.rule) = texts := by
  rw [hw.texts]
  exact new_rules trees texts

theorem Walked.seen_of_new (x : String) :
    x ∈ a₁.seen.toList ↔ ∃ n ∈ names, SeenUnder units dirs n x := by
  rw [hw.seen]
  exact or_iff_right List.not_mem_nil

theorem Walked.treeKeys_of_new (k : Key) : k ∈ a₁.treeKeys ↔ ∃ n ∈ names, ∃ u,
    units.lookup n = some u ∧ ∃ c ∈ trees, k ∈ keys (c.findings files u dirs) := by
  have h₀ : ((new trees texts).tell .started none).treeKeys = ∅ := new_treeKeys trees texts
  have hchecks : ((new trees texts).tell .started none).trees.map (·.check) = trees :=
    new_checks trees texts
  rw [hw.found, h₀, hchecks, or_iff_right (Set.notMem_empty k)]

theorem Walked.textKeys_of_new : a₁.textKeys = ∅ := by
  rw [textKeys, hw.texts]
  exact new_textKeys trees texts

/-- Behind walks and files, a new audit has the keys that its parts find. -/
theorem Walked.keys_of_held {xs : List String} (hxs : ∀ x, x ∈ xs ↔ x ∈ a₁.seen.toList)
    (hh : Held files dirs xs a₁ a₂) :
    keys a₂.violations.toList = Audit.found files units dirs trees texts names := by
  have htree : a₂.treeKeys = a₁.treeKeys := by rw [treeKeys, treeKeys, hh.trees]
  ext k
  rw [keys_violations, Set.mem_union, htree, hw.treeKeys_of_new, hh.found, hw.textKeys_of_new,
    or_iff_right (Set.notMem_empty k), hw.rules_of_new, mem_found]
  simp only [hxs, hw.seen_of_new]
  constructor
  · rintro (⟨n, hn, h⟩ | ⟨x, ⟨n, hn, hx⟩, h⟩)
    · exact ⟨n, hn, .inl h⟩
    · exact ⟨n, hn, .inr ⟨x, hx, h⟩⟩
  · rintro ⟨n, hn, h | ⟨x, hx, h⟩⟩
    · exact .inl ⟨n, hn, h⟩
    · exact .inr ⟨x, ⟨n, hn, hx⟩, h⟩

end

/-- Behind its walks, a new audit returns if the files seen can be held to its rules and what is
found can be displayed. Then it has found what its parts find. -/
theorem Walked.finish_spec {order : List String → List String} (horder : ∀ l, (order l).Perm l)
    {a₁ : Audit} (hf : a₁.fault = none)
    (hw : Walked files units o.includeDirs names ((new trees texts).tell .started none) a₁) :
    let a₂ := checkFiles files (.ofDirs o.includeDirs) a₁ (order a₁.seen.toList)
    let a₃ := if a₂.fault.isSome then a₂ else (a₂.tell .finished none).showFound files o.display
    (a₃.fault = none ↔
      (∀ n ∈ names, ∀ x, SeenUnder units o.includeDirs n x →
        VisitFilter.letsFile o.includeDirs x = true → Reads files texts x) ∧
      ∀ k ∈ Audit.found files units o.includeDirs trees texts names, k.Shown files o.display) ∧
    (a₃.fault = none → keys a₃.violations.toList =
      Audit.found files units o.includeDirs trees texts names) := by
  -- the files seen count by membership alone, so their order drops out here
  have hxs : ∀ x, x ∈ order a₁.seen.toList ↔ x ∈ a₁.seen.toList :=
    fun x => (horder _).mem_iff
  obtain ⟨h1, h2⟩ := @checkFiles_spec files o.includeDirs (order a₁.seen.toList)
    _ a₁ (VisitFilter.ofDirs_coherent _) hf
  simp only [hxs, hw.seen_of_new, hw.rules_of_new] at h1
  dsimp only
  generalize checkFiles files (.ofDirs o.includeDirs) a₁ (order a₁.seen.toList) = a₂ at h1 h2 ⊢
  cases hh : a₂.fault with
  | some e =>
    simp only [hh, Option.isSome_some, if_true]
    refine ⟨⟨nofun, fun hr => ?_⟩, nofun⟩
    rw [h1.mpr fun x ⟨n, hn, hx⟩ => hr.1 n hn x hx] at hh
    cases hh
  | none =>
    have hkeys := hw.keys_of_held hxs (h2 hh)
    simp only [Option.isSome_none, Bool.false_eq_true, if_false]
    refine ⟨?_, fun _ => hkeys⟩
    show (ViolationSet.display files o.display a₂.violations).fault? = none ↔ _
    rw [ViolationSet.display_ok, hkeys]
    exact ⟨fun hs => ⟨fun n hn x hx => h1.mp hh x ⟨n, hn, hx⟩, hs⟩, fun hr => hr.2⟩

theorem returns_iff : Returns files units o trees texts names ↔
    (∀ n ∈ names, ∃ u, Walks files units o.includeDirs trees n u) ∧
    (∀ n ∈ names, ∀ x, SeenUnder units o.includeDirs n x →
      VisitFilter.letsFile o.includeDirs x = true → Reads files texts x) ∧
    ∀ k ∈ found files units o.includeDirs trees texts names, k.Shown files o.display :=
  ⟨fun h => ⟨h.walks, h.reads, h.shows⟩, fun h => ⟨h.1, h.2.1, h.2.2⟩⟩

/-- An audit returns, and finds what its parts find, if its walks do. -/
theorem runBy_of_walks {order : List String → List String} (horder : ∀ l, (order l).Perm l)
    {a₁ : Audit} (hwalk : names.foldl (walkUnit files units o.includeDirs)
      ((new trees texts).tell .started none) = a₁)
    (hfault : a₁.fault = none ↔ ∀ n ∈ names, ∃ u, Walks files units o.includeDirs trees n u)
    (hwalked : a₁.fault = none →
      Walked files units o.includeDirs names ((new trees texts).tell .started none) a₁) :
    (((new trees texts).runBy order files units o names).fault = none ↔
      Returns files units o trees texts names) ∧
    (((new trees texts).runBy order files units o names).fault = none →
      keys ((new trees texts).runBy order files units o names).violations.toList =
        found files units o.includeDirs trees texts names) := by
  rw [returns_iff, ← hfault, runBy, hwalk]
  cases hf : a₁.fault with
  | some e =>
    simp only [checkFiles_of_fault hf, hf, Option.isSome_some, if_true]
    exact ⟨⟨nofun, fun h => nomatch h.1⟩, nofun⟩
  | none =>
    obtain ⟨h1, h2⟩ := (hwalked hf).finish_spec horder hf
    exact ⟨h1.trans ⟨fun h => ⟨rfl, h⟩, fun h => h.2⟩, h2⟩

/-- An audit with fresh checks returns if nothing on it meets a fault alone, and then finds what
its parts find. -/
theorem runBy_spec {order : List String → List String} (horder : ∀ l, (order l).Perm l)
    (hunits : ∀ e ∈ units, e.2.root.Distinct) (hfresh : ∀ c ∈ trees, c.Fresh) :
    (((new trees texts).runBy order files units o names).fault = none ↔
      Returns files units o trees texts names) ∧
    (((new trees texts).runBy order files units o names).fault = none →
      keys ((new trees texts).runBy order files units o names).violations.toList =
        found files units o.includeDirs trees texts names) := by
  have hfresh₀ : ∀ t ∈ (new trees texts).trees, t.check.Fresh := by
    rw [← List.forall_mem_map (f := TreeAudit.check) (P := TreeCheck.Fresh), new_checks]
    exact hfresh
  obtain ⟨h1, h2⟩ := @walkUnits_spec files units o.includeDirs hunits names
    ((new trees texts).tell .started none) hfresh₀ rfl
  rw [show ((new trees texts).tell .started none).trees.map (·.check) = trees from
    new_checks trees texts] at h1
  exact runBy_of_walks horder rfl h1 h2

/-- An audit under one name needs no fresh checks. -/
theorem run_singleton_spec {name : String} :
    (((new trees texts).run files units o [name]).fault = none ↔
      Returns files units o trees texts [name]) ∧
    (((new trees texts).run files units o [name]).fault = none →
      keys ((new trees texts).run files units o [name]).violations.toList =
        found files units o.includeDirs trees texts [name]) := by
  obtain ⟨h1, h2⟩ := @walkUnit_spec files units o.includeDirs ((new trees texts).tell .started none)
    name rfl
  rw [show ((new trees texts).tell .started none).trees.map (·.check) = trees from
    new_checks trees texts,
    ← List.forall_mem_singleton (p := fun n => ∃ u, Walks _ _ _ _ n u)] at h1
  exact runBy_of_walks (fun _ => .refl _) rfl h1 h2

theorem runBy_of_returns {order : List String → List String} (horder : ∀ l, (order l).Perm l)
    (hunits : ∀ e ∈ units, e.2.root.Distinct) (hfresh : ∀ c ∈ trees, c.Fresh)
    (h : Returns files units o trees texts names) :
    ((new trees texts).runBy order files units o names).fault = none ∧
      keys ((new trees texts).runBy order files units o names).violations.toList =
        found files units o.includeDirs trees texts names :=
  have hf := (runBy_spec horder hunits hfresh).1.mpr h
  ⟨hf, (runBy_spec horder hunits hfresh).2 hf⟩

theorem run_of_returns (hunits : ∀ e ∈ units, e.2.root.Distinct) (hfresh : ∀ c ∈ trees, c.Fresh)
    (h : Returns files units o trees texts names) :
    ((new trees texts).run files units o names).fault = none ∧
      keys ((new trees texts).run files units o names).violations.toList =
        found files units o.includeDirs trees texts names :=
  runBy_of_returns (fun _ => .refl _) hunits hfresh h

theorem status_eq_of_keys {a b : Audit} (h : keys a.violations.toList = keys b.violations.toList) :
    a.status = b.status := by
  have hsize : a.violations.size = 0 ↔ b.violations.size = 0 := by
    rw [ViolationSet.size_eq_zero, ViolationSet.size_eq_zero, h]
  simp only [status, hsize]

/-- If an audit returns, so does each of its checks and rules under each of its names alone, and
what is found is the union of what they find. No order matters, and neither does it matter how
often a name, a check or a rule is given. -/
theorem keys_run_eq_iUnion (hunits : ∀ e ∈ units, e.2.root.Distinct) (hfresh : ∀ c ∈ trees, c.Fresh)
    (h : ((new trees texts).run files units o names).fault = none) :
    (∀ n ∈ names,
      (∀ c ∈ trees, ((new [c] []).run files units o [n]).fault = none) ∧
        ∀ r ∈ texts, ((new [] [r]).run files units o [n]).fault = none) ∧
    keys ((new trees texts).run files units o names).violations.toList =
      ⋃ n ∈ names,
        (⋃ c ∈ trees, keys ((new [c] []).run files units o [n]).violations.toList) ∪
          ⋃ r ∈ texts, keys ((new [] [r]).run files units o [n]).violations.toList ∧
    ∀ (order : List String → List String) (names' : List String) (trees' : List TreeCheck)
      (texts' : List TextRule), (∀ l, (order l).Perm l) → (∀ n, n ∈ names' ↔ n ∈ names) →
      (∀ c, c ∈ trees' ↔ c ∈ trees) → (∀ r, r ∈ texts' ↔ r ∈ texts) →
      ((new trees' texts').runBy order files units o names').fault = none ∧
      keys ((new trees' texts').runBy order files units o names').violations.toList =
        keys ((new trees texts).run files units o names).violations.toList ∧
      ((new trees' texts').runBy order files units o names').status =
        ((new trees texts).run files units o names).status := by
  have hret : Returns files units o trees texts names :=
    (runBy_spec (fun _ => .refl _) hunits hfresh).1.mp (run_eq_runBy _ ▸ h)
  have hkeys := (run_of_returns hunits hfresh hret).2
  have htree : ∀ n ∈ names, ∀ c ∈ trees, ((new [c] []).run files units o [n]).fault = none ∧
      keys ((new [c] []).run files units o [n]).violations.toList =
        found files units o.includeDirs [c] [] [n] := fun n hn c hc =>
    run_of_returns hunits (List.forall_mem_singleton.mpr (hfresh c hc))
      (hret.mono (List.singleton_sublist.mpr hn).subset (List.singleton_sublist.mpr hc).subset
        (List.nil_subset _))
  have htext : ∀ n ∈ names, ∀ r ∈ texts, ((new [] [r]).run files units o [n]).fault = none ∧
      keys ((new [] [r]).run files units o [n]).violations.toList =
        found files units o.includeDirs [] [r] [n] := fun n hn r hr =>
    run_of_returns hunits (List.forall_mem_nil _)
      (hret.mono (List.singleton_sublist.mpr hn).subset (List.nil_subset _)
        (List.singleton_sublist.mpr hr).subset)
  refine ⟨fun n hn => ⟨fun c hc => (htree n hn c hc).1, fun r hr => (htext n hn r hr).1⟩, ?_, ?_⟩
  · rw [hkeys, found_eq_iUnion]
    refine Set.iUnion₂_congr fun n hn => congrArg₂ _ ?_ ?_
    · exact Set.iUnion₂_congr fun c hc => (htree n hn c hc).2.symm
    · exact Set.iUnion₂_congr fun r hr => (htext n hn r hr).2.symm
  · intro order names' trees' texts' horder hn hc hr
    have hn' : names' ⊆ names := fun n => (hn n).mp
    have hc' : trees' ⊆ trees := fun c => (hc c).mp
    have hr' : texts' ⊆ texts := fun r => (hr r).mp
    obtain ⟨hf, hk⟩ := runBy_of_returns horder hunits (fun c h => hfresh c (hc' h))
      (hret.mono hn' hc' hr')
    have hfound : found files units o.includeDirs trees' texts' names' =
        found files units o.includeDirs trees texts names :=
      (found_mono hn' hc' hr').antisymm
        (found_mono (fun n => (hn n).mpr) (fun c => (hc c).mpr) (fun r => (hr r).mpr))
    have hsame := hk.trans (hfound.trans hkeys.symm)
    exact ⟨hf, hsame, status_eq_of_keys hsame⟩

/-- One unit under two names. -/
def unitsTwice : Units := [("a.cc", .classAndLoop), ("b.cc", .classAndLoop)]

def includeAll : AuditOptions := ⟨["/"], ⟨false, false, []⟩⟩

/-- A name given twice, with something found in the trees and something in the text. -/
theorem keys_run_eq_iUnion_twice :
    ((new [.indent (.ofStyle .standard), .spacing .new] [.finalNewline []]).run .oneLine
      unitsTwice includeAll ["a.cc", "b.cc", "a.cc"]).violations.size = 2 ∧
    ((new [.spacing .new, .indent (.ofStyle .standard)] [.finalNewline []]).runBy List.reverse
      .oneLine unitsTwice includeAll ["b.cc", "a.cc"]).fault = none ∧
    keys ((new [.spacing .new, .indent (.ofStyle .standard)] [.finalNewline []]).runBy List.reverse
        .oneLine unitsTwice includeAll ["b.cc", "a.cc"]).violations.toList =
      keys ((new [.indent (.ofStyle .standard), .spacing .new] [.finalNewline []]).run .oneLine
        unitsTwice includeAll ["a.cc", "b.cc", "a.cc"]).violations.toList ∧
    ((new [.spacing .new, .indent (.ofStyle .standard)] [.finalNewline []]).runBy List.reverse
      .oneLine unitsTwice includeAll ["b.cc", "a.cc"]).status = 1 := by
  have hunits : ∀ e ∈ unitsTwice, e.2.root.Distinct := by
    simp only [unitsTwice, List.forall_mem_cons, List.not_mem_nil, false_imp_iff, implies_true,
      and_true]
    exact ⟨Tree.number_distinct _, Tree.number_distinct _⟩
  have hfresh : ∀ c ∈ [.indent (.ofStyle .standard), .spacing .new], TreeCheck.Fresh c := by
    simp only [List.forall_mem_cons, List.not_mem_nil, false_imp_iff, implies_true, and_true]
    exact ⟨⟨.standard, rfl⟩, rfl⟩
  have hrun : ((new [.indent (.ofStyle .standard), .spacing .new] [.finalNewline []]).run .oneLine
      unitsTwice includeAll ["a.cc", "b.cc", "a.cc"]).fault = none := by decide +kernel
  obtain ⟨-, -, h⟩ := keys_run_eq_iUnion hunits hfresh hrun
  obtain ⟨hf, hk, hs⟩ := h List.reverse ["b.cc", "a.cc"]
    [.spacing .new, .indent (.ofStyle .standard)] [.finalNewline []] List.reverse_perm
    (fun n => by grind) (fun c => (List.Perm.swap _ _ _).mem_iff) (fun _ => Iff.rfl)
  exact ⟨by decide +kernel, hf, hk, hs.trans (by decide +kernel)⟩

end Audit

end StyleCheck
