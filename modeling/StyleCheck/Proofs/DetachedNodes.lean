import Mathlib.Data.List.Nodup
import StyleCheck.Proofs.DoLoops
import StyleCheck.Proofs.LookedAt
import StyleCheck.Walk.Trace

/-!
# Nodes without their data

A node may be handed out without its data, and then it is not the same as the node with them. On a
walk every node is handed out once, so nodes are told apart as before whichever of them lack their
data. Do loops alone ask for more: their keyword `while` is the token of the same node, and tokens
belong to nodes with their data, so a loop without its data is looked up by its location. Where each
is found there (`TranslationUnit.FindsLoops`), a walk does not show which nodes lack their data:
each step is the same, with the nodes as they were handed out (`Trace.run_toggle`).
-/

namespace StyleCheck

/-- The node handed out the other way, if its number is in the set. -/
def Node.toggle (numbers : Nat → Bool) (n : Node) : Node :=
  { n with detached := n.detached ^^ numbers n.id }

/-- The node with its data. -/
def Node.withData (n : Node) : Node := { n with detached := false }

namespace TranslationUnit

def toggle (numbers : Nat → Bool) (u : TranslationUnit) : TranslationUnit :=
  ⟨u.root.map (Node.toggle numbers), u.tokens⟩

def withData (u : TranslationUnit) : TranslationUnit := ⟨u.root.map Node.withData, u.tokens⟩

/-- No two nodes have one number. -/
def NumbersApart (u : TranslationUnit) : Prop := (u.root.preorder.map (·.node.id)).Nodup

/-- Every do loop without its data is what is found at its location. -/
def FindsLoops (u : TranslationUnit) : Prop :=
  ∀ t ∈ u.root.preorder, t.node.kind = .ok .doStmt → t.node.detached = true →
    (u.atLocation? t.node.file t.node.location).map (·.node.id) = some t.node.id

end TranslationUnit

variable {numbers : Nat → Bool} {u : TranslationUnit} {t : Tree}

/-! ## Do loops -/

theorem Node.same_toggle (m n : Node) :
    (m.toggle numbers).same (n.toggle numbers) = m.same n := by
  unfold same toggle
  cases h : m.id == n.id with
  | false => rfl
  | true =>
    rw [beq_iff_eq] at h
    simp only [h, Bool.true_and]
    cases m.detached <;> cases n.detached <;> cases numbers n.id <;> rfl

/-- With their data all nodes are as they were. -/
theorem Tree.withData_toggle (t : Tree) :
    (t.map (Node.toggle numbers)).map Node.withData = t.map Node.withData := by
  rw [map_map]
  rfl

theorem Tree.withData_attached (t : Tree) : t.attached.map Node.withData = t.map Node.withData := by
  cases t with
  | mk n cs =>
    rw [attached, map_mk, map_mk]
    rfl

namespace TranslationUnit

theorem NumbersApart.toggle (hu : u.NumbersApart) : (u.toggle numbers).NumbersApart := by
  have hids : (u.toggle numbers).root.preorder.map (·.node.id) =
      u.root.preorder.map (·.node.id) := by
    show ((u.root.map _).preorder).map _ = _
    rw [Tree.preorder_map, List.map_map]
    refine List.map_congr_left fun t _ => ?_
    rw [Function.comp_apply, Tree.node_map]
    rfl
  unfold NumbersApart
  rw [hids]
  exact hu

end TranslationUnit

namespace Scene

variable {files : FileSystem} {style : IndentStyle}

/-- The tree of a do loop is its own, with or without the data of its top node. -/
theorem exists_doLoopTree {s : Scene} (hu : s.unit.NumbersApart) (hloops : s.unit.FindsLoops)
    (ht : t ∈ s.unit.root.preorder) (hk : t.node.kind = .ok .doStmt) :
    ∃ d, s.doLoopTree t = .ok d ∧ d.map Node.withData = t.map Node.withData := by
  unfold doLoopTree
  cases hdetached : t.node.detached with
  | false => exact ⟨t, rfl, rfl⟩
  | true =>
    obtain ⟨d, hd, hid⟩ := Option.map_eq_some_iff.mp (hloops t ht hk hdetached)
    have hfound := hd
    unfold TranslationUnit.atLocation? at hfound
    obtain ⟨a, ha, rfl⟩ := Option.map_eq_some_iff.mp hfound
    have hmem := List.mem_of_mem_drop (List.mem_of_find?_eq_some ha)
    have hnode : a.attached.node.id = a.node.id := by cases a; rfl
    obtain rfl : a = t := List.inj_on_of_nodup_map hu hmem ht (hnode.symm.trans hid)
    exact ⟨a.attached, by rw [hd]; rfl, a.withData_attached⟩

/-- The tree that a do loop is judged by has the data of its top node. -/
theorem detached_of_doLoopTree {s : Scene} {d : Tree} (hd : s.doLoopTree t = .ok d) :
    d.node.detached = false := by
  unfold doLoopTree at hd
  cases hdetached : t.node.detached with
  | false =>
    rw [hdetached] at hd
    cases hd
    exact hdetached
  | true =>
    rw [hdetached, if_pos rfl, present_eq_ok] at hd
    obtain ⟨⟨n, cs⟩, -, rfl⟩ := Option.map_eq_some_iff.mp hd
    rfl

theorem doLoop_withData (hu : u.NumbersApart) (hloops : u.FindsLoops)
    (ht : t ∈ u.root.preorder) (hk : t.node.kind = .ok .doStmt) :
    doLoop ⟨files, u.withData, style⟩ (t.map Node.withData) = doLoop ⟨files, u, style⟩ t := by
  obtain ⟨d, hd, hsame⟩ := exists_doLoopTree (s := ⟨files, u, style⟩) hu hloops ht hk
  have hattached : (t.map Node.withData).node.detached = false := by rw [Tree.node_map]; rfl
  refine doLoop_withRoot (s := ⟨files, u, style⟩) (g := Node.withData) (fun c hc _ => ?_)
    (fun _ => rfl) (fun n => (Alike.refl n.kind).mono fun _ h => by rw [h]) ?_
  · -- the loop that was looked up has its data, so the keyword belongs to it
    exact TranslationUnit.owns_map (g := Node.withData) (fun _ => rfl) rfl
      (detached_of_doLoopTree hc).symm rfl
  rw [hd, doLoopTree, hattached]
  exact congrArg Except.ok hsame.symm

variable (hu : u.NumbersApart) (hloops : u.FindsLoops) (hloops' : (u.toggle numbers).FindsLoops)
  (ht : t ∈ u.root.preorder)

include hu hloops hloops' ht

theorem doLoop_toggle (hk : t.node.kind = .ok .doStmt) :
    doLoop ⟨files, u.toggle numbers, style⟩ (t.map (Node.toggle numbers)) =
      doLoop ⟨files, u, style⟩ t := by
  have ht' : t.map (Node.toggle numbers) ∈ (u.toggle numbers).root.preorder := by
    show _ ∈ (u.root.map _).preorder
    rw [Tree.preorder_map]
    exact List.mem_map_of_mem ht
  have hk' : (t.map (Node.toggle numbers)).node.kind = .ok .doStmt := by
    rw [Tree.node_map]
    exact hk
  have hunit : (u.toggle numbers).withData = u.withData :=
    congrArg (TranslationUnit.mk · u.tokens) u.root.withData_toggle
  calc doLoop ⟨files, u.toggle numbers, style⟩ (t.map (Node.toggle numbers))
      = doLoop ⟨files, (u.toggle numbers).withData, style⟩
          ((t.map (Node.toggle numbers)).map Node.withData) :=
        (doLoop_withData hu.toggle hloops' ht' hk').symm
    _ = doLoop ⟨files, u.withData, style⟩ (t.map Node.withData) := by
        rw [hunit, t.withData_toggle]
    _ = doLoop ⟨files, u, style⟩ t := doLoop_withData hu hloops ht hk

theorem check_toggle (parent : Frame) {f : Frame} (hf : f.OpenedFor t) :
    check ⟨files, u.toggle numbers, style⟩ (parent.map (Node.toggle numbers))
      (f.map (Node.toggle numbers)) (t.map (Node.toggle numbers)) =
      check ⟨files, u, style⟩ parent f t := by
  have hextent : (t.map (Node.toggle numbers)).extent = t.extent := by
    rw [Tree.extent, Tree.node_map]
    rfl
  refine check_withRoot (s := ⟨files, u, style⟩) rfl hextent rfl rfl (fun hloop => ?_)
    fun _ _ => ⟨rfl, rfl⟩
  obtain ⟨k, hk, hform⟩ := hf.form_eq
  rw [hform, Kind.form_eq_doLoop] at hloop
  exact doLoop_toggle hu hloops hloops' ht (hloop ▸ hk)

end Scene

/-! ## Steps -/

def TreeAudit.map (g : Node → Node) (a : TreeAudit) : TreeAudit := ⟨a.check.map g, a.violations⟩

def Walk.map (g : Node → Node) (w : Walk) : Walk :=
  { w with checks := w.checks.map (TreeAudit.map g) }

def Snapshot.map (g : Node → Node) (s : Snapshot) : Snapshot :=
  ⟨s.event.map g, s.kind, s.checks.map (TreeAudit.map g)⟩

/-- The trace with all trees and nodes changed, in the events and in the checks. Violations, files
and faults are as they were. -/
def Trace.map (g : Node → Node) (t : Trace) : Trace :=
  ⟨t.snapshots.map (Snapshot.map g), t.walk.map g, t.blocked⟩

variable {files : FileSystem} {e : Event}

theorem SpacingCheck.step_toggle (c : SpacingCheck) (e : Event) :
    c.step (u.toggle numbers) (e.map (Node.toggle numbers)) = c.step u e := by
  cases e with
  | start t | leave t | finish t => rfl
  | enter t =>
    unfold step Event.map SpacingForm.check Tree.extent
    simp only [Tree.node_map]
    rfl

section

variable (hu : u.NumbersApart) (hloops : u.FindsLoops) (hloops' : (u.toggle numbers).FindsLoops)
  (he : e.tree ∈ u.root.preorder)

include hu hloops hloops' he

/-- A step of a check is one of the check with the nodes handed out the other way. -/
theorem TreeCheck.step_toggle (c : TreeCheck) :
    (c.map (Node.toggle numbers)).step files (u.toggle numbers) (e.map (Node.toggle numbers)) =
      TreeCheck.map (Node.toggle numbers) <$> c.step files u e := by
  cases c with
  | bare => rfl
  | spacing c =>
    show spacing <$> c.step (u.toggle numbers) _ = map _ <$> spacing <$> c.step u e
    rw [c.step_toggle, Functor.map_map]
    rfl
  | indent c =>
    have hstep : Report.Parallel id (fun c c' => c' = c.map (Node.toggle numbers))
        (c.step files u e) ((c.map (Node.toggle numbers)).step files (u.toggle numbers)
          (e.map (Node.toggle numbers))) := by
      refine IndentCheck.step_map Node.same_toggle (fun _ => rfl) fun t o ht ho => ?_
      subst ht
      obtain ⟨-, -, -, -, k, hk, hframe⟩ := IndentCheck.opening?_eq_some ho
      rw [Scene.check_toggle (t := t) hu hloops hloops' he o.parent
        (Frame.openedFor_of_enterKind hk hframe)]
      exact .refl _
    show indent <$> (c.map _).step _ _ _ = map _ <$> indent <$> c.step files u e
    rw [hstep.eq_map, Functor.map_map, Functor.map_map]
    rfl

end

/-! ## Traces -/

section

variable {g : Node → Node} {u' : TranslationUnit}

theorem TreeAudit.step_map {e' : Event} {a : TreeAudit}
    (h : (a.check.map g).step files u' e' = TreeCheck.map g <$> a.check.step files u e) :
    (a.map g).step files u' e' = ((a.step files u e).1.map g, (a.step files u e).2) := by
  unfold step
  rw [show (a.map g).check = a.check.map g from rfl, h]
  rcases a.check.step files u e with ⟨notes, fault | c⟩
  · rfl
  · have hmap : TreeCheck.map g <$> (⟨notes, .ok c⟩ : Report Violation TreeCheck) =
        ⟨notes, .ok (c.map g)⟩ := Report.map_of_ok rfl _
    rw [hmap]
    rfl

theorem TreeAudit.stepAll_map {e' : Event}
    (h : ∀ c : TreeCheck, (c.map g).step files u' e' = TreeCheck.map g <$> c.step files u e)
    (as : List TreeAudit) :
    stepAll files u' e' (as.map (map g)) =
      ((stepAll files u e as).1.map (map g), (stepAll files u e as).2) := by
  induction as with
  | nil => rfl
  | cons a as ih =>
    rw [List.map_cons, stepAll, stepAll, step_map (h a.check), ih]
    rcases a.step files u e with ⟨b, _ | fault⟩ <;> rfl

variable (hkind : ∀ n, (g n).kind = n.kind)
  (hstep : ∀ e : Event, e.tree ∈ u.root.preorder → ∀ c : TreeCheck,
    (c.map g).step files u' (e.map g) = TreeCheck.map g <$> c.step files u e)

include hstep

theorem Walk.visit_map {v : Visit} (hv : ∀ e, v = .event e → e.tree ∈ u.root.preorder) (w : Walk) :
    (w.map g).visit files u' (v.map g) = (w.visit files u v).map g := by
  unfold visit
  rw [show (w.map g).fault = w.fault from rfl]
  cases w.fault with
  | some fault => rfl
  | none =>
    cases v with
    | seen file | fault fault => rfl
    | event e =>
      simp only [Visit.map]
      rw [show (w.map g).checks = w.checks.map (TreeAudit.map g) from rfl,
        TreeAudit.stepAll_map (hstep e (hv e rfl))]
      rfl

include hkind

theorem Trace.visit_map {v : Visit} (hv : ∀ e, v = .event e → e.tree ∈ u.root.preorder)
    (t : Trace) : (t.map g).visit files u' (v.map g) = (t.visit files u v).map g := by
  unfold visit
  rw [show (t.map g).walk = t.walk.map g from rfl, Walk.visit_map hstep hv,
    show (t.walk.map g).fault = t.walk.fault from rfl]
  cases v with
  | seen file | fault fault => cases t.walk.fault <;> rfl
  | event e =>
    have hk : (e.map g).tree.node.kind = e.tree.node.kind := by
      rw [Event.tree_map, Tree.node_map, hkind]
    generalize t.walk.visit files u (.event e) = w
    simp only [Visit.map, show (w.map g).fault = w.fault from rfl]
    cases t.walk.fault with
    | some fault => rfl
    | none =>
      cases w.fault with
      | some fault => rfl
      | none =>
        simp only [hk]
        cases e.tree.node.kind with
        | error fault => rfl
        | ok k =>
          simp only [map, List.map_append]
          rfl

theorem Trace.foldl_visit_map {vs : List Visit}
    (hvs : ∀ e, .event e ∈ vs → e.tree ∈ u.root.preorder) (t : Trace) :
    (vs.map (Visit.map g)).foldl (visit files u') (t.map g) =
      (vs.foldl (visit files u) t).map g := by
  induction vs generalizing t with
  | nil => rfl
  | cons v vs ih =>
    rw [List.map_cons, List.foldl_cons, List.foldl_cons, visit_map hkind hstep]
    · exact ih (fun e he => hvs e (List.mem_cons_of_mem v he)) _
    · rintro e rfl
      exact hvs e List.mem_cons_self

end

/-- What a walk tells its checks of are trees of the unit. -/
theorem TranslationUnit.tree_mem_of_visits {dirs : List String} {e : Event}
    (he : .event e ∈ (u.visits (.ofDirs dirs)).1) : e.tree ∈ u.root.preorder := by
  have hmem : e ∈ Visit.events (u.visits (.ofDirs dirs)).1 :=
    List.mem_filterMap.mpr ⟨.event e, he, rfl⟩
  rw [u.events_visits dirs, List.mem_cons, List.mem_append, List.mem_singleton] at hmem
  rcases hmem with rfl | hmem | rfl
  · exact Tree.self_mem_preorder _
  · obtain ⟨a, ha, -, rfl | rfl⟩ := Tree.mem_tour hmem
    · exact ha
    · exact ha
  · exact Tree.self_mem_preorder _

theorem Node.toggle_keepsAccess : Node.KeepsAccess (toggle numbers) :=
  ⟨fun _ => rfl, fun _ _ => rfl⟩

theorem TranslationUnit.visits_toggle (f : VisitFilter) : (u.toggle numbers).visits f =
    ((u.visits f).1.map (Visit.map (Node.toggle numbers)), (u.visits f).2) := by
  unfold visits
  rw [show (u.toggle numbers).root = u.root.map (Node.toggle numbers) from rfl,
    Tree.visits_map Node.toggle_keepsAccess]
  simp only [List.map_append, List.map_cons, List.map_nil, Visit.map, Event.map]

theorem Trace.run_singleton (files : FileSystem) (dirs : List String) (c : TreeCheck)
    (u : TranslationUnit) : run files dirs c [some u] =
      let t := (u.visits (.ofDirs dirs)).1.foldl (visit files u) (ofCheck c)
      if t.walk.fault.isSome then t
      else { t with blocked := ((u.visits (.ofDirs dirs)).2.block t.walk.seen).blocked } := rfl

/-- A walk through a unit in which nodes with these numbers are handed out the other way. Where no
two nodes have one number and every do loop without its data is found at its location, in the one
unit and in the other, the walks are the same event by event: the same states, with the nodes as
they were handed out, and the same violations, files and faults. -/
theorem Trace.run_toggle (files : FileSystem) (dirs : List String) (style : IndentStyle)
    (u : TranslationUnit) (numbers : Nat → Bool) (hu : u.NumbersApart) (hloops : u.FindsLoops)
    (hloops' : (u.toggle numbers).FindsLoops) :
    run files dirs (.indent (.ofStyle style)) [some (u.toggle numbers)] =
      (run files dirs (.indent (.ofStyle style)) [some u]).map (Node.toggle numbers) := by
  have hwalk : ((u.visits (.ofDirs dirs)).1.map (Visit.map (Node.toggle numbers))).foldl
        (visit files (u.toggle numbers)) (ofCheck (.indent (.ofStyle style))) =
      ((u.visits (.ofDirs dirs)).1.foldl (visit files u)
        (ofCheck (.indent (.ofStyle style)))).map (Node.toggle numbers) :=
    foldl_visit_map (g := Node.toggle numbers) (fun _ => rfl)
      (fun _ he => TreeCheck.step_toggle hu hloops hloops' he)
      (fun _ he => TranslationUnit.tree_mem_of_visits he) (ofCheck (.indent (.ofStyle style)))
  rw [run_singleton, run_singleton, TranslationUnit.visits_toggle]
  simp only [hwalk]
  generalize (u.visits (.ofDirs dirs)).1.foldl (visit files u) _ = t
  rw [show (t.map (Node.toggle numbers)).walk.fault = t.walk.fault from rfl]
  split <;> rfl

/-! Two loops to walk through -/

/-- A loop over a range, of which the last part alone is looked at, and a do loop on the next
line. -/
def TranslationUnit.twoLoops : TranslationUnit where
  root := .number <| .mk (.atStart .translationUnit) [
    .mk (.atStart .cxxForRangeStmt) [
      .mk (.atStart .varDecl) [],
      .mk (.atStart .compoundStmt) []],
    .mk ⟨0, .ok .doStmt, some "a.cc", ⟨2, 1⟩, ⟨some "a.cc", ⟨2, 1⟩, ⟨2, 20⟩⟩, false⟩ [
      .mk ⟨0, .ok .compoundStmt, some "a.cc", ⟨2, 4⟩, ⟨some "a.cc", ⟨2, 4⟩, ⟨2, 10⟩⟩, false⟩ [],
      .mk ⟨0, .ok .unexposedExpr, some "a.cc", ⟨2, 18⟩, ⟨some "a.cc", ⟨2, 18⟩, ⟨2, 19⟩⟩, false⟩ []]]
  tokens :=
    [⟨.keyword, "do", "a.cc", ⟨2, 1⟩, some 4⟩, ⟨.punctuation, "\x7b", "a.cc", ⟨2, 4⟩, some 5⟩,
     ⟨.identifier, "x", "a.cc", ⟨2, 6⟩, some 5⟩, ⟨.punctuation, ";", "a.cc", ⟨2, 7⟩, some 5⟩,
     ⟨.punctuation, "\x7d", "a.cc", ⟨2, 9⟩, some 5⟩, ⟨.keyword, "while", "a.cc", ⟨2, 11⟩, some 4⟩,
     ⟨.punctuation, "(", "a.cc", ⟨2, 17⟩, some 4⟩, ⟨.identifier, "x", "a.cc", ⟨2, 18⟩, some 6⟩,
     ⟨.punctuation, ")", "a.cc", ⟨2, 19⟩, some 4⟩]

def FileSystem.twoLoops : FileSystem :=
  ⟨[("/a.cc", Text.ofString "x\ndo \x7b x; \x7d while (x);\n")]⟩

/-- The parts of the loop over a range and the do loop lack their data. The do loop is judged all
the same, as its closing brace is not in the column of `do`. -/
theorem Trace.run_toggle_loops :
    let marked := TranslationUnit.twoLoops.toggle fun n => decide (2 ≤ n)
    let trace := run .twoLoops ["/"] (.indent (.ofStyle .standard)) [some .twoLoops]
    run .twoLoops ["/"] (.indent (.ofStyle .standard)) [some marked] =
        trace.map (Node.toggle fun n => decide (2 ≤ n)) ∧
      trace.walk.fault = none ∧ trace.walk.checks.map (·.violations.toList.map (·.text)) =
        [["Closing curly brace must have the same indentation as the \"do\" keyword."]] := by
  intro marked trace
  refine ⟨run_toggle _ _ _ _ _ ?_ ?_ ?_, by decide +kernel, by decide +kernel⟩
  · unfold TranslationUnit.NumbersApart
    decide +kernel
  · unfold TranslationUnit.FindsLoops
    decide +kernel
  · unfold TranslationUnit.FindsLoops
    decide +kernel

end StyleCheck
