import Mathlib.Data.List.Forall2
import StyleCheck.Proofs.FrameStack

/-!
# Walks side by side

Two computations are parallel if the second notes what the first notes, rewritten, and both end with
one fault or with related results (`Report.Parallel`). `Tree.map` changes the nodes of a tree and
keeps its shape. Where checks take parallel steps on a tree and its image, whole walks are parallel:
they see the same files, end with the same fault, and find the same violations, rewritten
(`Walk.run_parallel`). Checks of indentation take such steps where nodes are told apart as before
and each construct is judged in parallel (`IndentCheck.step_map`).
-/

namespace StyleCheck

variable {α β γ δ ω υ : Type}

/-! ## Computations -/

/-- Two computations end alike: with one fault, or with related results. -/
inductive Alike (R : α → β → Prop) : Except Fault α → Except Fault β → Prop where
  | ok {a : α} {b : β} : R a b → Alike R (.ok a) (.ok b)
  | fault (e : Fault) : Alike R (.error e) (.error e)

namespace Alike

variable {R : α → β → Prop} {S : γ → δ → Prop} {x : Except Fault α} {y : Except Fault β}

theorem refl (x : Except Fault α) : Alike Eq x x := by
  cases x with
  | ok a => exact .ok rfl
  | error e => exact .fault e

theorem eq_map {f : α → β} (h : Alike (fun a b => b = f a) x y) : y = x.map f := by
  cases h with
  | ok hab => rw [hab]; rfl
  | fault e => rfl

theorem mono {R' : α → β → Prop} (h : Alike R x y)
    (hR : ∀ {a b}, x = .ok a → R a b → R' a b) : Alike R' x y := by
  cases h with
  | ok hab => exact .ok (hR rfl hab)
  | fault e => exact .fault e

theorem bind {f : α → Except Fault γ} {g : β → Except Fault δ} (h : Alike R x y)
    (hfg : ∀ {a b}, x = .ok a → R a b → Alike S (f a) (g b)) : Alike S (x >>= f) (y >>= g) := by
  cases h with
  | ok hab => exact hfg rfl hab
  | fault e => exact .fault e

/-- A result that the second goes on with changed. -/
theorem bind_map {m : α → β} {f : α → Except Fault γ} {g : β → Except Fault δ}
    (h : ∀ a, x = .ok a → Alike S (f a) (g (m a))) : Alike S (x >>= f) (x.map m >>= g) := by
  cases x with
  | ok a => exact h a rfl
  | error e => exact .fault e

theorem ite {p q : Prop} [Decidable p] [Decidable q] {x' : Except Fault α} {y' : Except Fault β}
    (hpq : p ↔ q) (ht : p → Alike R x y) (he : Alike R x' y') :
    Alike R (if p then x else x') (if q then y else y') := by
  by_cases hp : p
  · rw [if_pos hp, if_pos (hpq.mp hp)]
    exact ht hp
  · rw [if_neg hp, if_neg (fun hq => hp (hpq.mpr hq))]
    exact he

end Alike

/-- The second computation notes what the first notes, rewritten, and both end alike. -/
structure Report.Parallel (φ : ω → υ) (R : α → β → Prop) (r : Report ω α) (s : Report υ β) :
    Prop where
  notes : s.notes = r.notes.map φ
  outcome : Alike R r.outcome s.outcome

namespace Report.Parallel

variable {φ : ω → υ} {R : α → β → Prop} {S : γ → δ → Prop} {r : Report ω α} {s : Report υ β}

theorem pure {a : α} {b : β} (h : R a b) : Parallel φ R (Pure.pure a) (Pure.pure b) := ⟨rfl, .ok h⟩

theorem giveUp (e : Fault) : Parallel φ R (Report.giveUp e) (Report.giveUp e) := ⟨rfl, .fault e⟩

theorem note (w : ω) : Parallel φ Eq (Report.note w) (Report.note (φ w)) := ⟨rfl, .ok rfl⟩

theorem lift {x : Except Fault α} {y : Except Fault β} (h : Alike R x y) :
    Parallel φ R (liftM x) (liftM y) := ⟨rfl, h⟩

theorem bind {f : α → Report ω γ} {g : β → Report υ δ} (h : Parallel φ R r s)
    (hfg : ∀ {a b}, R a b → Parallel φ S (f a) (g b)) : Parallel φ S (r >>= f) (s >>= g) := by
  obtain ⟨hnotes, hends⟩ := h
  rcases r with ⟨m, x⟩
  rcases s with ⟨n, y⟩
  cases hends with
  | ok hab =>
    obtain ⟨h1, h2⟩ := hfg hab
    simp only [Report.ok_bind]
    refine ⟨?_, h2⟩
    rw [List.map_append, ← hnotes, ← h1]
  | fault e => exact ⟨hnotes, .fault e⟩

/-- A result that both go on with. -/
theorem bind_same {x : Except Fault α} {f : α → Report ω γ} {g : α → Report υ δ}
    (h : ∀ a, x = .ok a → Parallel φ S (f a) (g a)) :
    Parallel φ S (liftM x >>= f) (liftM x >>= g) := by
  cases x with
  | ok a => exact h a rfl
  | error e => exact ⟨rfl, .fault e⟩

/-- A result that the second goes on with changed. -/
theorem bind_map {x : Except Fault α} {m : α → β} {f : α → Report ω γ} {g : β → Report υ δ}
    (h : ∀ a, x = .ok a → Parallel φ S (f a) (g (m a))) :
    Parallel φ S (liftM x >>= f) (liftM (x.map m) >>= g) := by
  cases x with
  | ok a => exact h a rfl
  | error e => exact ⟨rfl, .fault e⟩

theorem ite {p q : Prop} [Decidable p] [Decidable q] {r' : Report ω α} {s' : Report υ β}
    (hpq : p ↔ q) (ht : Parallel φ R r s) (he : Parallel φ R r' s') :
    Parallel φ R (if p then r else r') (if q then s else s') := by
  by_cases hp : p
  · rw [if_pos hp, if_pos (hpq.mp hp)]
    exact ht
  · rw [if_neg hp, if_neg (fun hq => hp (hpq.mpr hq))]
    exact he

/-- Something done on one condition in front of what both go on with. -/
theorem ite_bind {p q : Prop} [Decidable p] [Decidable q] {f : Unit → Report ω γ}
    {g : Unit → Report υ δ} {r : Report ω Unit} {s : Report υ Unit} (hpq : p ↔ q)
    (ht : Parallel φ Eq r s) (h : Parallel φ S (f ()) (g ())) :
    Parallel φ S (if p then r >>= f else f ()) (if q then s >>= g else g ()) :=
  .ite hpq (ht.bind fun _ => h) h

theorem map {f : α → γ} {g : β → δ} (h : Parallel φ R r s) (hfg : ∀ {a b}, R a b → S (f a) (g b)) :
    Parallel φ S (f <$> r) (g <$> s) := by
  rw [map_eq_pure_bind, map_eq_pure_bind]
  exact h.bind fun hab => pure (hfg hab)

theorem mono {R' : α → β → Prop} (h : Parallel φ R r s)
    (hR : ∀ {a b}, r.outcome = .ok a → R a b → R' a b) : Parallel φ R' r s :=
  ⟨h.notes, h.outcome.mono hR⟩

theorem refl (r : Report ω α) : Parallel id Eq r r := ⟨(List.map_id _).symm, .refl _⟩

theorem eq_map {s : Report ω β} {f : α → β} (h : Parallel id (fun a b => b = f a) r s) :
    s = f <$> r := by
  obtain ⟨hnotes, hends⟩ := h
  rcases r with ⟨m, x⟩
  rcases s with ⟨n, y⟩
  rw [List.map_id] at hnotes
  cases hnotes
  cases hends with
  | ok hab =>
    cases hab
    exact congrArg (Report.mk · _) (List.append_nil m).symm
  | fault e => rfl

end Report.Parallel

/-! ## Trees of one shape -/

namespace Tree

mutual

/-- The tree with its nodes changed. -/
def map (g : Node → Node) : Tree → Tree
  | mk n cs => mk (g n) (mapAll g cs)

def mapAll (g : Node → Node) : List Tree → List Tree
  | [] => []
  | t :: ts => t.map g :: mapAll g ts

end

variable {g : Node → Node}

theorem mapAll_eq (ts : List Tree) : mapAll g ts = ts.map (map g) := by
  induction ts with
  | nil => rfl
  | cons t ts ih => rw [mapAll, ih, List.map_cons]

theorem map_mk (n : Node) (cs : List Tree) : (mk n cs).map g = mk (g n) (cs.map (map g)) := by
  rw [map, mapAll_eq]

@[simp] theorem node_map (t : Tree) : (t.map g).node = g t.node := by
  cases t with
  | mk n cs => rw [map_mk, node_mk, node_mk]

@[simp] theorem children_map (t : Tree) : (t.map g).children = t.children.map (map g) := by
  cases t with
  | mk n cs => rw [map_mk, children_mk, children_mk]

theorem lastChild?_map (t : Tree) : (t.map g).lastChild? = t.lastChild?.map (map g) := by
  rw [lastChild?, lastChild?, children_map, List.getLast?_map]

theorem preorder_map (t : Tree) : (t.map g).preorder = t.preorder.map (map g) := by
  induction t using children_induction with
  | mk n cs ih =>
    rw [preorder_eq, preorder_eq (mk n cs), List.map_cons, children_map, children_mk,
      List.flatMap_map, List.map_flatMap]
    exact congrArg _ (List.flatMap_congr ih)

theorem map_map (h : Node → Node) (t : Tree) : (t.map g).map h = t.map (h ∘ g) := by
  induction t using children_induction with
  | mk n cs ih =>
    rw [map_mk, map_mk, map_mk, List.map_map]
    exact congrArg _ (List.map_congr_left ih)

end Tree

/-- The event on the changed tree. -/
def Event.map (g : Node → Node) : Event → Event
  | start t => start (t.map g)
  | enter t => enter (t.map g)
  | leave t => leave (t.map g)
  | finish t => finish (t.map g)

theorem Event.tree_map (g : Node → Node) (e : Event) : (e.map g).tree = e.tree.map g := by
  cases e <;> rfl

/-- The visit of the changed tree. -/
def Visit.map (g : Node → Node) : Visit → Visit
  | seen file => seen file
  | event e => event (e.map g)
  | fault e => fault e

/-- A change of nodes that leaves the files they are in, and whether filters let them through. -/
structure Node.KeepsAccess (g : Node → Node) : Prop where
  file? : ∀ n, (g n).file? = n.file?
  allowsNode : ∀ (f : VisitFilter) n, f.allowsNode (g n) = f.allowsNode n

section

variable {g : Node → Node} (hg : Node.KeepsAccess g)

include hg

theorem Tree.visits_map (t : Tree) : ∀ f : VisitFilter,
    (t.map g).visits f = ((t.visits f).1.map (Visit.map g), (t.visits f).2) := by
  have hs : ∀ n, (sighting n).map (Visit.map g) = sighting n := by
    intro n
    unfold sighting
    split <;> rfl
  have hs' : ∀ n, sighting (g n) = sighting n := by
    intro n
    rw [sighting, sighting, hg.file?]
  induction t using children_induction with
  | mk n cs ih =>
    have hcs : ∀ f : VisitFilter, visitsAll f (cs.map (map g)) =
        ((visitsAll f cs).1.map (Visit.map g), (visitsAll f cs).2) := by
      induction cs with
      | nil => intro f; rfl
      | cons c cs ihcs =>
        intro f
        have hrest := ihcs fun d hd => ih d (List.mem_cons_of_mem c hd)
        rw [List.map_cons, visitsAll, visitsAll, ih c List.mem_cons_self, hrest, List.map_append]
    intro f
    rw [map_mk, visits, visits, hg.allowsNode, hs']
    rcases f.allowsNode n with ⟨_ | _ | _, f'⟩
    · simp only [List.map_append, hs]
      rfl
    · simp only [hs]
    · simp only [hcs, List.map_append, List.map_cons, List.map_nil, hs, Visit.map, Event.map,
        map_mk]

end

/-! ## Walks -/

/-- The set with every element rewritten. -/
def OrdSet.map [Ord α] [Ord β] [Std.TransOrd β] (φ : α → β) (s : OrdSet α) : OrdSet β :=
  .ofList (s.toList.map φ)

/-- Rewriting that keeps the order of violations. -/
def Violation.KeepsOrder (φ : Violation → Violation) : Prop :=
  ∀ v w, compare (φ v) (φ w) = compare v w

section

variable {φ : Violation → Violation} (hφ : Violation.KeepsOrder φ)

include hφ

theorem OrdSet.toList_map (s : ViolationSet) : (s.map φ).toList = s.toList.map φ := by
  refine toList_ofList (s.ascending.map φ fun v w h => ?_)
  rw [hφ, h]

theorem OrdSet.insertInto_map (v : Violation) (l : List Violation) :
    insertInto (φ v) (l.map φ) = (insertInto v l).map φ := by
  induction l with
  | nil => rfl
  | cons w l ih =>
    rw [List.map_cons, insertInto, insertInto, hφ]
    cases compare v w with
    | lt => rfl
    | eq => rfl
    | gt => rw [List.map_cons, ← ih]

theorem OrdSet.insertAll_map (l : List Violation) : ∀ s : ViolationSet,
    (s.map φ).insertAll (l.map φ) = OrdSet.map φ (s.insertAll l) := by
  induction l with
  | nil => intro s; rfl
  | cons v l ih =>
    intro s
    have hv : (s.map φ).insert (φ v) = OrdSet.map φ (s.insert v) := by
      refine OrdSet.ext ?_
      rw [toList_map hφ]
      show insertInto (φ v) (s.map φ).toList = _
      rw [toList_map hφ]
      exact insertInto_map hφ v s.toList
    show ((s.map φ).insert (φ v)).insertAll (l.map φ) = OrdSet.map φ ((s.insert v).insertAll l)
    rw [hv, ih]

end

/-- Audits that have found the same violations, rewritten, with related checks. -/
structure TreeAudit.Parallel (φ : Violation → Violation) (R : TreeCheck → TreeCheck → Prop)
    (a b : TreeAudit) : Prop where
  violations : b.violations = a.violations.map φ
  check : R a.check b.check

/-- Audits that have found the same violations, rewritten. -/
def TreeAudit.FoundAlike (φ : Violation → Violation) (a b : TreeAudit) : Prop :=
  b.violations = a.violations.map φ

/-- Walks that have come to the same point: their checks are related unless both were given up. -/
structure Walk.Parallel (φ : Violation → Violation) (R : TreeCheck → TreeCheck → Prop)
    (w w' : Walk) : Prop where
  seen : w'.seen = w.seen
  fault : w'.fault = w.fault
  found : List.Forall₂ (TreeAudit.FoundAlike φ) w.checks w'.checks
  checks : w.fault = none → List.Forall₂ (TreeAudit.Parallel φ R) w.checks w'.checks

section

variable {φ : Violation → Violation} {R S : TreeCheck → TreeCheck → Prop}
  {files files' : FileSystem} {u u' : TranslationUnit} {e e' : Event}

/-- Audits take parallel steps if their checks do. -/
theorem TreeAudit.Parallel.step {a b : TreeAudit} (hφ : Violation.KeepsOrder φ)
    (h : Parallel φ R a b)
    (hstep : Report.Parallel φ S (a.check.step files u e) (b.check.step files' u' e')) :
    (b.step files' u' e').2 = (a.step files u e).2 ∧
      FoundAlike φ (a.step files u e).1 (b.step files' u' e').1 ∧
      ((a.step files u e).2 = none →
        Parallel φ S (a.step files u e).1 (b.step files' u' e').1) := by
  have hv : b.violations.insertAll (b.check.step files' u' e').notes =
      (a.violations.insertAll (a.check.step files u e).notes).map φ := by
    rw [hstep.notes, h.violations, OrdSet.insertAll_map hφ]
  have hends := hstep.outcome
  unfold TreeAudit.step
  simp only [hv]
  generalize (a.check.step files u e).outcome = x at hends ⊢
  generalize (b.check.step files' u' e').outcome = y at hends ⊢
  cases hends with
  | ok hcc => exact ⟨rfl, rfl, fun _ => ⟨rfl, hcc⟩⟩
  | fault f => exact ⟨rfl, rfl, fun hf => by cases hf⟩

theorem TreeAudit.stepAll_parallel {as bs : List TreeAudit} (hφ : Violation.KeepsOrder φ)
    (h : List.Forall₂ (Parallel φ R) as bs)
    (hstep : ∀ {c d}, R c d → Report.Parallel φ S (c.step files u e) (d.step files' u' e')) :
    (stepAll files' u' e' bs).2 = (stepAll files u e as).2 ∧
      List.Forall₂ (FoundAlike φ) (stepAll files u e as).1 (stepAll files' u' e' bs).1 ∧
      ((stepAll files u e as).2 = none →
        List.Forall₂ (Parallel φ S) (stepAll files u e as).1 (stepAll files' u' e' bs).1) := by
  induction h with
  | nil => exact ⟨rfl, .nil, fun _ => .nil⟩
  | @cons a b as bs hab hrest ih =>
    obtain ⟨h1, h2, h3⟩ := hab.step hφ (hstep hab.check)
    have hfound : List.Forall₂ (FoundAlike φ) as bs := hrest.imp fun _ _ h => h.violations
    rw [stepAll, stepAll]
    rcases ha : a.step files u e with ⟨a', _ | f⟩ <;>
      rcases hb : b.step files' u' e' with ⟨b', _ | f'⟩ <;>
      rw [ha, hb] at h1 h2 h3 <;> cases h1
    · obtain ⟨h4, h5, h6⟩ := ih
      exact ⟨h4, .cons h2 h5, fun hf => .cons (h3 rfl) (h6 hf)⟩
    · exact ⟨rfl, .cons h2 hfound, fun hf => by cases hf⟩

end

namespace Walk

variable {φ : Violation → Violation} {g : Node → Node} {files files' : FileSystem}
  {u u' : TranslationUnit} {root : Tree} {w w' : Walk}

theorem Parallel.violations {R : TreeCheck → TreeCheck → Prop} (h : Parallel φ R w w') :
    w'.checks.map (·.violations) = w.checks.map (·.violations.map φ) := by
  have hfound := h.found
  generalize w.checks = as at hfound ⊢
  generalize w'.checks = bs at hfound ⊢
  induction hfound with
  | nil => rfl
  | cons hab _ ih => exact congrArg₂ List.cons hab ih

theorem visit_of_fault {e : Fault} (h : w.fault = some e) (v : Visit) :
    visit files u w v = w := by
  unfold visit
  rw [h]

/-- An event that related checks take parallel steps on. -/
theorem Parallel.event {R S : TreeCheck → TreeCheck → Prop} (hφ : Violation.KeepsOrder φ)
    {e e' : Event} (h : Parallel φ R w w')
    (hstep : ∀ {c d}, R c d → Report.Parallel φ S (c.step files u e) (d.step files' u' e')) :
    Parallel φ S (visit files u w (.event e)) (visit files' u' w' (.event e')) := by
  cases hw : w.fault with
  | some f =>
    rw [visit_of_fault hw, visit_of_fault (h.fault.trans hw)]
    exact ⟨h.seen, h.fault, h.found, fun hn => by rw [hw] at hn; cases hn⟩
  | none =>
    have hw' : w'.fault = none := h.fault.trans hw
    obtain ⟨h1, h2, h3⟩ := TreeAudit.stepAll_parallel hφ (h.checks hw) hstep
    unfold visit
    rw [hw, hw']
    exact ⟨h.seen, h1, h2, h3⟩

/-- What every event in order keeps parallel, visits in order keep parallel. -/
theorem Parallel.foldl_visit {R : List Tree → TreeCheck → TreeCheck → Prop}
    (hφ : Violation.KeepsOrder φ) {P : Event → Prop}
    (hstep : ∀ {o e c d}, e.Fits root o → P e → R o c d →
      Report.Parallel φ (R (e.after o)) (c.step files u e) (d.step files' u' (e.map g)))
    {vs : List Visit} : ∀ {o : List Tree} {w w' : Walk}, Event.Orderly root o (Visit.events vs) →
      (∀ e ∈ Visit.events vs, P e) → Parallel φ (R o) w w' →
      Parallel φ (R ((Visit.events vs).foldl Event.after o)) (vs.foldl (visit files u) w)
        ((vs.map (Visit.map g)).foldl (visit files' u') w') := by
  induction vs with
  | nil => exact fun _ _ h => h
  | cons v vs ih =>
    intro o w w' ho hP h
    rw [List.map_cons, List.foldl_cons, List.foldl_cons]
    cases v with
    | seen file =>
      refine ih (o := o) ho hP ?_
      show Parallel φ (R o) (visit files u w (.seen file)) (visit files' u' w' (.seen file))
      unfold visit
      rw [h.fault]
      cases hw : w.fault with
      | some f => exact h
      | none => exact ⟨congrArg (OrdSet.insert · file) h.seen, rfl, h.found, fun _ => h.checks hw⟩
    | fault f =>
      refine ih (o := o) ho hP ?_
      show Parallel φ (R o) (visit files u w (.fault f)) (visit files' u' w' (.fault f))
      unfold visit
      rw [h.fault]
      cases hw : w.fault with
      | some f => exact h
      | none => exact ⟨h.seen, rfl, h.found, fun hf => by cases hf⟩
    | event e =>
      exact ih (o := e.after o) ho.2 (fun x hx => hP x (List.mem_cons_of_mem e hx))
        (h.event hφ (hstep ho.1 (hP e List.mem_cons_self)))

/-- Walks through a unit and its image are parallel if checks take parallel steps at the start, on
every event in order inside, and at the end. -/
theorem run_parallel {dirs : List String} {R₀ R₁ : TreeCheck → TreeCheck → Prop}
    {R : List Tree → TreeCheck → TreeCheck → Prop} (hφ : Violation.KeepsOrder φ)
    (hg : Node.KeepsAccess g) (hu : u'.root = u.root.map g)
    (hstart : ∀ {c d}, R₀ c d → Report.Parallel φ (R []) (c.step files u (.start u.root))
      (d.step files' u' (.start u'.root)))
    (hstep : ∀ {o e c d}, e.Fits u.root o → e ∈ u.root.tour (VisitFilter.letsThrough dirs) →
      R o c d →
      Report.Parallel φ (R (e.after o)) (c.step files u e) (d.step files' u' (e.map g)))
    (hfinish : ∀ {c d}, R [] c d → Report.Parallel φ R₁ (c.step files u (.finish u.root))
      (d.step files' u' (.finish u'.root)))
    {as bs : List TreeAudit} (h : List.Forall₂ (TreeAudit.Parallel φ R₀) as bs) :
    Parallel φ R₁ (run files u dirs as).1 (run files' u' dirs bs).1 := by
  obtain ⟨ho, hopen⟩ := Event.tour_orderly (p := VisitFilter.letsThrough dirs) u.root .top
  obtain ⟨hev, -⟩ := u.root.events_visits (VisitFilter.ofDirs_coherent dirs)
  have h₀ : Parallel φ R₀ (ofChecks as) (ofChecks bs) :=
    ⟨rfl, rfl, h.imp fun _ _ hab => hab.violations, fun _ => h⟩
  have h₁ := h₀.event hφ hstart
  rw [← hev] at ho hopen hstep
  have h₂ := Parallel.foldl_visit hφ hstep ho (fun _ he => he) h₁
  rw [hopen] at h₂
  have h₃ := h₂.event hφ hfinish
  simp only [run, TranslationUnit.visits, hu, Tree.visits_map hg, List.foldl_append,
    List.cons_append, List.foldl_cons, List.foldl_nil] at h₃ ⊢
  exact h₃

end Walk

/-! ## Checks of indentation -/

theorem Frame.allows_of_ne {f : Frame} (h : f.construct.form ≠ .rangeLoop) (n : Node) :
    f.allows n = .ok true := by
  unfold allows
  split
  · next hf => exact absurd hf h
  · rfl

section

variable {g : Node → Node} (hg : ∀ m n, (g m).same (g n) = m.same n)

include hg

theorem Frame.allows_map {f f' : Frame}
    (hform : f'.construct.form = .rangeLoop ↔ f.construct.form = .rangeLoop)
    (htree : f'.tree = f.tree.map (Tree.map g)) (n : Node) : f'.allows (g n) = f.allows n := by
  by_cases hf : f.construct.form = .rangeLoop
  · unfold allows
    rw [hf, hform.mpr hf, htree]
    cases f.tree with
    | none => rfl
    | some a =>
      rw [Option.map_some, Option.bind_some, Option.bind_some, Tree.lastChild?_map]
      cases a.lastChild? with
      | none => rfl
      | some last => exact congrArg Except.ok (by rw [Tree.node_map, hg])
  · rw [allows_of_ne hf, allows_of_ne fun h => hf (hform.mp h)]

/-- Checks that stopped at the same node leave a tree in the same way. -/
theorem IndentCheck.step_leave_parallel {φ : Violation → Violation} {files files' : FileSystem}
    {u u' : TranslationUnit} {c d : IndentCheck} {R : IndentCheck → IndentCheck → Prop}
    (hstopped : d.stopped = c.stopped.map g)
    (hpop : R { c with frames := c.frames.tail, depth := c.depth - 1 }
      { d with frames := d.frames.tail, depth := d.depth - 1 })
    (hgo : R { c with stopped := none } { d with stopped := none }) (hstay : R c d) (t : Tree) :
    Report.Parallel φ R (c.step files u (.leave t)) (d.step files' u' (.leave (t.map g))) := by
  cases hs : c.stopped with
  | none =>
    rw [step_leave_going hs, step_leave_going (by rw [hstopped, hs]; rfl)]
    exact .pure hpop
  | some n =>
    have hs' : d.stopped = some (g n) := by rw [hstopped, hs]; rfl
    have hsame : (g n).same (t.map g).node = n.same t.node := by rw [Tree.node_map, hg]
    cases hn : n.same t.node with
    | true =>
      rw [step_leave_same hs hn, step_leave_same hs' (hsame.trans hn)]
      exact .pure hgo
    | false =>
      rw [step_leave_other hs hn, step_leave_other hs' (hsame.trans hn)]
      exact .pure hstay

end

/-! ## Checks with their trees changed -/

/-- The frame of the changed tree. -/
def Frame.map (g : Node → Node) (f : Frame) : Frame := { f with tree := f.tree.map (Tree.map g) }

/-- The opening for the changed tree, in the frames of changed trees. -/
def Opening.map (g : Node → Node) (o : Opening) : Opening :=
  ⟨o.tree.map g, o.parent.map g, o.outer.map (Frame.map g), o.frame.map g⟩

/-- The check with all trees and nodes that it holds changed. -/
def IndentCheck.map (g : Node → Node) (c : IndentCheck) : IndentCheck :=
  { c with frames := c.frames.map (Frame.map g), stopped := c.stopped.map g }

def TreeCheck.map (g : Node → Node) : TreeCheck → TreeCheck
  | indent c => indent (c.map g)
  | spacing c => spacing c
  | bare => bare

section

variable {g : Node → Node} {c : IndentCheck} {t : Tree}

theorem Frame.enterKind_map (style : IndentStyle) (f : Frame) (k : Kind) (t : Tree) :
    (f.map g).enterKind style k (some (t.map g)) =
      (f.enterKind style k (some t)).map (Frame.map g) := by
  unfold enterKind
  rw [show (f.map g).bodyFault? style = f.bodyFault? style from rfl]
  split <;> rfl

theorem Opening.parentAfter_map (o : Opening) : (o.map g).parentAfter = o.parentAfter.map g := by
  unfold parentAfter
  rw [show (o.map g).frame.construct = o.frame.construct from rfl]
  split <;> rfl

theorem IndentCheck.push_map (o : Opening) : (c.map g).push (o.map g) = (c.push o).map g := by
  unfold push
  rw [o.parentAfter_map]
  rfl

variable (hsame : ∀ m n, (g m).same (g n) = m.same n) (hkind : ∀ n, (g n).kind = n.kind)

include hsame hkind

theorem IndentCheck.opening?_map (c : IndentCheck) (t : Tree) :
    (c.map g).opening? (t.map g) = (c.opening? t).map (Option.map (Opening.map g)) := by
  have hallows : ∀ f : Frame, (f.map g).allows (g t.node) = f.allows t.node := by
    intro f
    refine Frame.allows_map hsame ?_ ?_ t.node <;> rfl
  refine Alike.eq_map ?_
  unfold opening?
  rw [Tree.node_map, hkind, show (c.map g).stopped.isSome = c.stopped.isSome from Option.isSome_map,
    show (c.map g).frames = c.frames.map (Frame.map g) from rfl]
  refine (Alike.refl _).bind @fun k _ _ h => ?_
  subst h
  refine .ite Iff.rfl (fun _ => .ok rfl) ?_
  cases c.frames with
  | nil => exact .fault .entryOutOfRange
  | cons parent outer =>
    simp only [List.map_cons, hallows, Frame.enterKind_map]
    refine (Alike.refl _).bind @fun allowed _ _ h => ?_
    subst h
    exact .ite Iff.rfl (fun _ => .bind_map fun frame _ => .ok rfl) (.ok rfl)

/-- A check and the changed check take parallel steps if what they look at is judged in parallel. -/
theorem IndentCheck.step_map {φ : Violation → Violation} {files files' : FileSystem}
    {u u' : TranslationUnit} {e : Event}
    (hcheck : ∀ t o, e = .enter t → c.opening? t = .ok (some o) →
      Report.Parallel φ Eq (Scene.check ⟨files, u, c.style⟩ o.parent o.frame t)
        (Scene.check ⟨files', u', c.style⟩ (o.parent.map g) (o.frame.map g) (t.map g))) :
    Report.Parallel φ (fun c c' => c' = c.map g) (c.step files u e)
      ((c.map g).step files' u' (e.map g)) := by
  cases e with
  | start t =>
    refine .ite ?_ (.pure rfl) (.giveUp _)
    rw [map, List.isEmpty_map]
  | finish t =>
    refine .ite ?_ (.pure rfl) (.giveUp _)
    rw [map, List.length_map]
  | leave t =>
    refine step_leave_parallel hsame ?_ ?_ ?_ ?_ t
    · rfl
    · simp only [map, List.map_tail]
    · rfl
    · rfl
  | enter t =>
    rw [Event.map, step, step, opening?_map hsame hkind]
    refine .bind_map fun x hx => ?_
    cases x with
    | none =>
      have hstopped : (c.stopped.map g).or (some (g t.node)) =
          (c.stopped.or (some t.node)).map g := by
        cases c.stopped <;> rfl
      refine .pure ?_
      rw [Tree.node_map, map, map, hstopped]
    | some o => exact (hcheck t o rfl hx).bind fun _ => .pure (push_map o)

end

end StyleCheck
