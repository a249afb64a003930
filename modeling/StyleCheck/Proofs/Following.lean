import StyleCheck.Proofs.Tours
import StyleCheck.Walk.Check

/-!
# Checks on a walk

A walk tells its checks of the same events, one check after the other. As long as it meets no fault,
each check is where it would be if it had followed the events alone.
-/

namespace StyleCheck

namespace Report

variable {ω α β : Type}

theorem map_of_ok {r : Report ω α} {a : α} (h : r.outcome = .ok a) (f : α → β) :
    (f <$> r) = ⟨r.notes, .ok (f a)⟩ := by
  rw [map_eq_pure_bind, bind_of_ok h, pure_notes, List.append_nil]
  rfl

theorem map_outcome_eq_ok {r : Report ω α} {f : α → β} {b : β} :
    (f <$> r).outcome = .ok b ↔ ∃ a, r.outcome = .ok a ∧ f a = b := by
  rw [map_eq_pure_bind, bind_outcome_eq_ok]
  simp only [pure_outcome, Except.ok.injEq]

/-- Where every step is one of another machine, so is a run. -/
theorem foldlM_map {σ τ ε : Type} {g : σ → τ} {f : σ → ε → Report ω σ} {f' : τ → ε → Report ω τ}
    (h : ∀ s e, f' (g s) e = g <$> f s e) (es : List ε) (s : σ) :
    es.foldlM f' (g s) = g <$> es.foldlM f s := by
  induction es generalizing s with
  | nil => rfl
  | cons e es ih =>
    rw [List.foldlM_cons, List.foldlM_cons, h, bind_map_left, map_bind]
    exact bind_congr ih

end Report

/-- The file that a visit sees, if it sees one. -/
def Visit.file? : Visit → Option String
  | seen file => some file
  | event _ | fault _ => none

/-- The files seen on visits. -/
def Visit.files (vs : List Visit) : List String := vs.filterMap file?

variable {files : FileSystem} {unit : TranslationUnit}

/-- Follows events of a walk. -/
def IndentCheck.follow (files : FileSystem) (unit : TranslationUnit) (c : IndentCheck)
    (es : List Event) : Finding IndentCheck := es.foldlM (step files unit) c

/-- Follows events of a walk. -/
def SpacingCheck.follow (unit : TranslationUnit) (c : SpacingCheck) (es : List Event) :
    Report Violation SpacingCheck := es.foldlM (step unit) c

namespace TreeCheck

/-- Follows events of a walk. -/
def follow (files : FileSystem) (unit : TranslationUnit) (c : TreeCheck) (es : List Event) :
    Report Violation TreeCheck := es.foldlM (step files unit) c

theorem follow_indent (c : IndentCheck) (es : List Event) :
    (indent c).follow files unit es = indent <$> c.follow files unit es :=
  Report.foldlM_map (fun _ _ => rfl) es c

theorem follow_spacing (c : SpacingCheck) (es : List Event) :
    (spacing c).follow files unit es = spacing <$> c.follow unit es :=
  Report.foldlM_map (fun _ _ => rfl) es c

end TreeCheck

namespace TreeAudit

/-- Follows events one after the other, up to the first fault. -/
def follow (files : FileSystem) (unit : TranslationUnit) :
    List Event → TreeAudit → TreeAudit × Option Fault
  | [], a => (a, none)
  | e :: es, a =>
    match a.step files unit e with
    | (a, some fault) => (a, some fault)
    | (a, none) => follow files unit es a

theorem step_of_ok {a : TreeAudit} {e : Event} {c : TreeCheck}
    (h : (a.check.step files unit e).outcome = .ok c) :
    a.step files unit e =
      (⟨c, a.violations.insertAll (a.check.step files unit e).notes⟩, none) := by
  simp only [step, h]

theorem step_of_error {a : TreeAudit} {e : Event} {fault : Fault}
    (h : (a.check.step files unit e).outcome = .error fault) :
    (a.step files unit e).2 = some fault := by
  simp only [step, h]

theorem follow_cons_of_step {a : TreeAudit} {e : Event} (h : (a.step files unit e).2 = none)
    (es : List Event) :
    follow files unit (e :: es) a = follow files unit es (a.step files unit e).1 := by
  rw [follow]
  split
  · next heq => rw [heq] at h; cases h
  · next heq => rw [heq]

theorem step_of_follow_cons {a : TreeAudit} {e : Event} {es : List Event}
    (h : (follow files unit (e :: es) a).2 = none) : (a.step files unit e).2 = none := by
  rw [follow] at h
  split at h
  · cases h
  · next heq => rw [heq]

/-- The steps of an audit are those of its check, and it keeps what they report. -/
theorem follow_of_ok {es : List Event} : ∀ {a : TreeAudit} {c : TreeCheck},
    (a.check.follow files unit es).outcome = .ok c →
    follow files unit es a =
      (⟨c, a.violations.insertAll (a.check.follow files unit es).notes⟩, none) := by
  induction es with
  | nil =>
    intro a c h
    cases h
    rfl
  | cons e es ih =>
    intro a c h
    rw [TreeCheck.follow, List.foldlM_cons] at h ⊢
    obtain ⟨d, h1, h2⟩ := Report.bind_outcome_eq_ok.mp h
    rw [follow, step_of_ok h1, Report.bind_notes_of_ok h1, OrdSet.insertAll_append]
    exact ih (a := ⟨d, a.violations.insertAll (a.check.step files unit e).notes⟩) h2

theorem follow_fault {es : List Event} : ∀ {a : TreeAudit},
    (follow files unit es a).2 = none ↔ ∃ c, (a.check.follow files unit es).outcome = .ok c := by
  induction es with
  | nil => intro a; exact ⟨fun _ => ⟨a.check, rfl⟩, fun _ => rfl⟩
  | cons e es ih =>
    intro a
    rw [TreeCheck.follow, List.foldlM_cons]
    cases h : (a.check.step files unit e).outcome with
    | error fault =>
      have hf := step_of_error h
      rw [Report.bind_of_error h, follow]
      split
      · simp
      · next heq => rw [heq] at hf; cases hf
    | ok d =>
      rw [Report.bind_of_ok h, follow, step_of_ok h]
      exact ih

/-! ## Several checks -/

theorem stepAll_fault {e : Event} {as : List TreeAudit} :
    (stepAll files unit e as).2 = none ↔ ∀ a ∈ as, (a.step files unit e).2 = none := by
  induction as with
  | nil => simp [stepAll]
  | cons a as ih =>
    rw [stepAll, List.forall_mem_cons]
    split
    · next heq => simp [heq]
    · next heq => simp [heq, ih]

theorem stepAll_checks {e : Event} {as : List TreeAudit} (h : (stepAll files unit e as).2 = none) :
    (stepAll files unit e as).1 = as.map fun a => (a.step files unit e).1 := by
  induction as with
  | nil => rfl
  | cons a as ih =>
    rw [stepAll] at h ⊢
    split
    · next heq => rw [heq] at h; cases h
    · next heq =>
      rw [heq] at h
      rw [List.map_cons, heq, ← ih h]

end TreeAudit

namespace Walk

open TreeAudit

variable {w : Walk}

theorem visit_seen (h : w.fault = none) (file : String) :
    visit files unit w (.seen file) = { w with seen := w.seen.insert file } := by
  unfold visit
  rw [h]

theorem visit_fault (h : w.fault = none) (e : Fault) :
    visit files unit w (.fault e) = { w with fault := some e } := by
  unfold visit
  rw [h]

theorem visit_event (h : w.fault = none) (e : Event) :
    visit files unit w (.event e) =
      { w with
        checks := (stepAll files unit e w.checks).1
        fault := (stepAll files unit e w.checks).2 } := by
  unfold visit
  rw [h]

theorem foldl_visit_of_fault {e : Fault} (h : w.fault = some e) (vs : List Visit) :
    vs.foldl (visit files unit) w = w := by
  induction vs with
  | nil => rfl
  | cons v vs ih =>
    have hv : visit files unit w v = w := by
      unfold visit
      rw [h]
    rw [List.foldl_cons, hv, ih]

/-- A walk meets no fault if no visit is one and every check follows the events without one. Then
the checks are where they come to by themselves. -/
theorem foldl_visit_spec {vs : List Visit} : ∀ {w : Walk}, w.fault = none →
    ((vs.foldl (visit files unit) w).fault = none ↔
      (∀ e, Visit.fault e ∉ vs) ∧
        ∀ a ∈ w.checks, (follow files unit (Visit.events vs) a).2 = none) ∧
    ((vs.foldl (visit files unit) w).fault = none →
      (vs.foldl (visit files unit) w).checks =
          w.checks.map (fun a => (follow files unit (Visit.events vs) a).1) ∧
        (vs.foldl (visit files unit) w).seen = w.seen.insertAll (Visit.files vs)) := by
  induction vs with
  | nil =>
    intro w hw
    simp [hw, Visit.events, Visit.files, follow, OrdSet.insertAll]
  | cons v vs ih =>
    intro w hw
    rw [List.foldl_cons]
    cases v with
    | seen file =>
      obtain ⟨h1, h2⟩ := ih (w := { w with seen := w.seen.insert file }) hw
      rw [visit_seen hw]
      refine ⟨?_, h2⟩
      rw [h1]
      simp only [List.mem_cons, reduceCtorEq, false_or]
      rfl
    | fault e =>
      rw [visit_fault hw, foldl_visit_of_fault (e := e) rfl]
      refine ⟨⟨nofun, fun h => absurd List.mem_cons_self (h.1 e)⟩, nofun⟩
    | event e =>
      have hev : Visit.events (.event e :: vs) = e :: Visit.events vs := rfl
      rw [visit_event hw, hev]
      cases hf : (stepAll files unit e w.checks).2 with
      | some fault =>
        rw [foldl_visit_of_fault (e := fault) rfl]
        refine ⟨⟨nofun, fun h => ?_⟩, nofun⟩
        rw [stepAll_fault.mpr fun a ha => step_of_follow_cons (h.2 a ha)] at hf
        cases hf
      | none =>
        have hfol : ∀ a ∈ w.checks, follow files unit (e :: Visit.events vs) a =
            follow files unit (Visit.events vs) (a.step files unit e).1 :=
          fun a ha => follow_cons_of_step (stepAll_fault.mp hf a ha) _
        rw [stepAll_checks hf]
        obtain ⟨h1, h2⟩ :=
          ih (w := ⟨w.checks.map fun a => (a.step files unit e).1, w.seen, none⟩) rfl
        constructor
        · rw [h1, List.forall_mem_map]
          simp only [List.mem_cons, reduceCtorEq, false_or]
          exact and_congr_right fun _ => forall₂_congr fun a ha => by rw [hfol a ha]
        · intro h
          obtain ⟨h3, h4⟩ := h2 h
          rw [h3, List.map_map]
          exact ⟨List.map_congr_left fun a ha => by rw [hfol a ha]; rfl, h4⟩

/-- On a walk without a fault, a check of indentation takes its own steps. -/
theorem indent_follows {vs : List Visit} {w : Walk} {i : Nat} {c : IndentCheck} {old : ViolationSet}
    (hw : w.fault = none) (hf : (vs.foldl (visit files unit) w).fault = none)
    (hi : w.checks[i]? = some ⟨.indent c, old⟩) :
    ∃ c', (c.follow files unit (Visit.events vs)).outcome = .ok c' ∧
      (vs.foldl (visit files unit) w).checks[i]? =
        some ⟨.indent c', old.insertAll (c.follow files unit (Visit.events vs)).notes⟩ := by
  obtain ⟨h1, h2⟩ := @foldl_visit_spec files unit vs w hw
  obtain ⟨d, hd⟩ := follow_fault.mp ((h1.mp hf).2 _ (List.mem_of_getElem? hi))
  obtain ⟨c', hc, rfl⟩ := Report.map_outcome_eq_ok.mp (TreeCheck.follow_indent c _ ▸ hd)
  have hind : (TreeCheck.indent c).follow files unit (Visit.events vs) =
      ⟨(c.follow files unit (Visit.events vs)).notes, .ok (.indent c')⟩ :=
    (TreeCheck.follow_indent c _).trans (Report.map_of_ok hc _)
  refine ⟨c', hc, ?_⟩
  rw [(h2 hf).1, List.getElem?_map, hi, Option.map_some, follow_of_ok (by rw [hind]), hind]

end Walk

end StyleCheck
