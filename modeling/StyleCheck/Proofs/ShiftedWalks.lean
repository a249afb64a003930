import StyleCheck.Proofs.AuditUnion
import StyleCheck.Proofs.LineShift
import StyleCheck.Proofs.LookedAt

/-!
# Walks further down

Checks of indentation and of spacing follow a walk further down as they follow the walk itself, with
all that they hold as far down. So whole walks end alike (`Walk.run_down`), in units that count
their lines from one (`TranslationUnit.CountsFromOne`).
-/

namespace StyleCheck

variable {k : Nat}

/-! ## Frames -/

theorem Node.same_down (m n : Node) : (m.down k).same (n.down k) = m.same n := rfl

/-- What a unit must count from one for its lines to be the lines of its files: the lines of its
tokens and of its nodes, its own nodes apart, and of what do loops without their data are looked up
as. -/
structure TranslationUnit.CountsFromOne (u : TranslationUnit) : Prop where
  tokens : Scene.OnLines u.tokens
  nodes : ∀ t ∈ u.root.preorder, t.node.kind ≠ .ok .translationUnit →
    1 ≤ t.extent.start.line ∧ 1 ≤ t.extent.stop.line
  lookups : ∀ t ∈ u.root.preorder, t.node.kind = .ok .doStmt → t.node.detached = true →
    ∀ d ∈ u.atLocation? t.node.file t.node.location, 1 ≤ d.extent.stop.line

namespace Scene

open Finding (Moved)

variable {s : Scene} {f : Frame} {t : Tree}

theorem children_of_doLoopTree (ht : t ∈ s.unit.root.preorder) {d : Tree}
    (hd : s.doLoopTree t = .ok d) : ∀ body ∈ d.children, body ∈ s.unit.root.preorder := by
  unfold doLoopTree at hd
  split at hd
  · have hfound := present_eq_ok.mp hd
    unfold TranslationUnit.atLocation? at hfound
    obtain ⟨a, ha, rfl⟩ := Option.map_eq_some_iff.mp hfound
    have hmem := List.mem_of_mem_drop (List.mem_of_find?_eq_some ha)
    intro body hb
    cases a with
    | mk n cs => exact Tree.mem_preorder_of_child (a := .mk n cs) hb hmem
  · cases hd
    exact fun body hb => Tree.mem_preorder_of_child hb ht

theorem doLoopTree_onLines (hu : s.unit.CountsFromOne) (ht : t ∈ s.unit.root.preorder)
    (hk : t.node.kind = .ok .doStmt) {d : Tree} (hd : s.doLoopTree t = .ok d) :
    1 ≤ d.extent.stop.line ∧
      ∀ body ∈ d.children, body.node.kind = .ok .compoundStmt → 1 ≤ body.extent.stop.line := by
  constructor
  · unfold doLoopTree at hd
    split at hd
    · next hdetached => exact hu.lookups t ht hk hdetached d (present_eq_ok.mp hd)
    · cases hd
      exact (hu.nodes t ht (by rw [hk]; decide)).2
  · intro body hb hbody
    exact (hu.nodes body (children_of_doLoopTree ht hd body hb) (by rw [hbody]; decide)).2

theorem check_moved (hu : s.unit.CountsFromOne) (ht : t ∈ s.unit.root.preorder) (parent : Frame)
    (hf : f.OpenedFor t) : Moved k (s.check parent f t)
      ((s.down k).check (parent.map (Node.down k)) (f.map (Node.down k))
        (t.map (Node.down k))) := by
  obtain ⟨d, hd, hform⟩ := hf.form_eq
  unfold check
  rw [show (f.map (Node.down k)).construct.form = f.construct.form from rfl, hform]
  by_cases hroot : d = .translationUnit
  · rw [hroot]
    exact .pure rfl
  · obtain ⟨hstart, hstop⟩ := hu.nodes t ht (by rw [hd]; simpa using hroot)
    have hblock := fun p => checkBlock_moved (k := k) (f := f) hu.tokens hstart hstop p
    cases hkind : d.form with
    | root | silent | unexposed => exact .pure rfl
    | plain | caseLabel | enumeration | function | block | conditional =>
      rw [Tree.extent_down]
      exact checkStart_moved hstart 0
    | record | recordTemplate => exact hblock s.style.recordBraces
    | method => exact hblock s.style.functionBraces
    | rangeLoop | whileLoop => exact hblock s.style.blockBraces
    | switch => exact hblock s.style.switchBraces
    | namespaceBody => exact hblock s.style.namespaceBraces
    | compound =>
      rw [Tree.extent_down]
      exact checkCompound_moved hu.tokens hstop
    | doLoop =>
      rw [(Kind.form_eq_doLoop d).mp hkind] at hd
      exact checkDoLoop_moved hu.tokens fun _ => doLoopTree_onLines hu ht hd
    | accessLabel => exact checkAccessLabel_moved parent hstart
    | jumpLabel => exact checkJumpLabel_moved hstart

end Scene

/-! ## Checks of indentation -/

namespace IndentCheck

variable {c : IndentCheck} {files : FileSystem} {u : TranslationUnit} {t : Tree}

/-- Every event moves down with the check. -/
theorem step_moved {e : Event} (hu : u.CountsFromOne)
    (he : ∀ t, e = .enter t → t ∈ u.root.preorder) :
    Report.Parallel (Violation.down k) (fun c c' => c' = c.map (Node.down k)) (c.step files u e)
      ((c.map (Node.down k)).step (files.down k) (u.down k) (e.map (Node.down k))) := by
  refine step_map Node.same_down (fun _ => rfl) fun t o ht ho => ?_
  obtain ⟨-, -, -, -, d, hd, hframe⟩ := opening?_eq_some ho
  exact Scene.check_moved (s := ⟨files, u, c.style⟩) hu (he t ht) o.parent
    (Frame.openedFor_of_enterKind hd hframe)

end IndentCheck

/-! ## Checks of spacing -/

namespace Spacing

def Breach.down (k : Nat) (b : Breach) : Breach := ⟨b.token.down k, b.text⟩

def NamespaceTokens.down (k : Nat) (n : NamespaceTokens) : NamespaceTokens :=
  ⟨n.keyword.down k, n.name.down k, n.opening.down k, n.closing.down k, n.comment.down k⟩

theorem tokenAt_down (ts : List Token) (i : Nat) :
    tokenAt (ts.map (Token.down k)) i = (tokenAt ts i).map (Token.down k) := by
  unfold tokenAt
  rw [List.getElem?_map]
  cases ts[i]? <;> rfl

theorem tokenFromEnd_down (ts : List Token) (i : Nat) :
    tokenFromEnd (ts.map (Token.down k)) i = (tokenFromEnd ts i).map (Token.down k) := by
  rw [tokenFromEnd, tokenFromEnd, ← List.map_reverse, tokenAt_down]

theorem namespaceTokens_down (ts : List Token) :
    Alike (fun a b => b = Sum.map (Breach.down k) (NamespaceTokens.down k) a)
      (namespaceTokens ts) (namespaceTokens (ts.map (Token.down k))) := by
  have hopens : (ts.map (Token.down k)).findIdx? opens = ts.findIdx? opens := List.findIdx?_map ..
  have hcloses : (ts.map (Token.down k)).reverse.findIdx? closes = ts.reverse.findIdx? closes := by
    rw [← List.map_reverse]
    exact List.findIdx?_map ..
  unfold namespaceTokens
  simp only [hopens, hcloses, tokenAt_down, tokenFromEnd_down]
  cases ts.findIdx? opens with
  | none => exact .bind_map fun t _ => .ok rfl
  | some openingAt =>
    cases ts.reverse.findIdx? closes with
    | none => exact .bind_map fun t _ => .ok rfl
    | some closingAt =>
      refine .bind_map fun keyword _ => .ite Iff.rfl (fun _ => .bind_map fun t _ => .ok rfl) ?_
      refine .bind_map fun name _ => .ite Iff.rfl (fun _ => .ok rfl) ?_
      refine .bind_map fun opening _ => .ite Iff.rfl (fun _ => .ok rfl) ?_
      refine .bind_map fun closing _ => .ite Iff.rfl (fun _ => .ok rfl) ?_
      exact .bind_map fun comment _ => .ite Iff.rfl (fun _ => .ok rfl) (.ok rfl)

theorem NamespaceTokens.breach?_down (n : NamespaceTokens) :
    (n.down k).breach? = n.breach?.map (Breach.down k) := by
  have hline : ∀ {p q : Pos}, (p.down k).line ≠ (q.down k).line ↔ p.line ≠ q.line :=
    not_congr (Int.add_left_inj _)
  unfold breach?
  simp only [down, Token.stop_down, hline, apply_ite (Option.map (Breach.down k)),
    Option.map_some, Option.map_none]
  rfl

theorem namespaceBreach_down (ts : List Token) :
    namespaceBreach (ts.map (Token.down k)) =
      (namespaceBreach ts).map (Option.map (Breach.down k)) := by
  unfold namespaceBreach
  rw [(namespaceTokens_down ts).eq_map]
  rcases namespaceTokens ts with e | b | n
  · rfl
  · rfl
  · exact congrArg Except.ok n.breach?_down

end Spacing

theorem SpacingForm.check_moved (f : SpacingForm) (u : TranslationUnit) (t : Tree) :
    Report.Parallel (Violation.down k) Eq (f.check u t)
      (f.check (u.down k) (t.map (Node.down k))) := by
  cases f with
  | root | free => exact .pure rfl
  | undecided => exact .giveUp _
  | namespaceBody =>
    have hts := Token.within_down (k := k) u.tokens t.extent.file t.extent.start t.extent.stop
    unfold check
    simp only [Tree.extent_down]
    rw [show Token.within (u.down k).tokens (t.extent.down k).file (t.extent.down k).start
      (t.extent.down k).stop = _ from hts, Spacing.namespaceBreach_down]
    refine .bind_map fun b _ => ?_
    cases b with
    | none => exact .pure rfl
    | some b => exact .note _

theorem SpacingCheck.step_moved (c : SpacingCheck) (u : TranslationUnit) (e : Event) :
    Report.Parallel (Violation.down k) Eq (c.step u e)
      (c.step (u.down k) (e.map (Node.down k))) := by
  cases e with
  | start t => exact .ite Iff.rfl (.pure rfl) (.giveUp _)
  | finish t => exact .ite Iff.rfl (.pure rfl) (.giveUp _)
  | leave t => exact .pure rfl
  | enter t =>
    unfold step Event.map
    simp only [Tree.node_map]
    refine .bind_same fun d _ => ?_
    exact (SpacingForm.check_moved _ u t).bind fun _ => .pure rfl

/-! ## Walks -/

theorem TreeCheck.step_moved {files : FileSystem} {u : TranslationUnit} {c : TreeCheck} {e : Event}
    (hu : u.CountsFromOne) (he : ∀ t, e = .enter t → t ∈ u.root.preorder) :
    Report.Parallel (Violation.down k) (fun c c' => c' = c.map (Node.down k)) (c.step files u e)
      ((c.map (Node.down k)).step (files.down k) (u.down k) (e.map (Node.down k))) := by
  cases c with
  | indent c => exact (IndentCheck.step_moved hu he).map fun h => congrArg indent h
  | spacing c => exact (SpacingCheck.step_moved c u e).map fun h => congrArg spacing h.symm
  | bare => exact .giveUp _

theorem Violation.down_keepsOrder : KeepsOrder (down k) := by
  intro v w
  have hline : compare (v.line + (k : Int)) (w.line + k) = compare v.line w.line := by
    simp only [compare, compareOfLessAndEq, Int.add_lt_add_iff_right, Int.add_left_inj]
  show order (v.down k) (w.down k) = order v w
  unfold order
  rw [← hline]
  rfl

/-- The check as far down, with what it has reported. -/
def TreeAudit.down (k : Nat) (a : TreeAudit) : TreeAudit :=
  ⟨a.check.map (Node.down k), a.violations.map (Violation.down k)⟩

namespace Walk

variable {u : TranslationUnit}

theorem run_down_parallel (files : FileSystem) (hu : u.CountsFromOne) (dirs : List String)
    (checks : List TreeAudit) :
    Parallel (Violation.down k) (fun c c' => c' = c.map (Node.down k)) (run files u dirs checks).1
      (run (files.down k) (u.down k) dirs (checks.map (TreeAudit.down k))).1 := by
  have hlast : ∀ {c d : TreeCheck} {e : Event}, (∀ t, e ≠ .enter t) → d = c.map (Node.down k) →
      Report.Parallel (Violation.down k) (fun c c' => c' = c.map (Node.down k)) (c.step files u e)
        (d.step (files.down k) (u.down k) (e.map (Node.down k))) := by
    rintro c d e he rfl
    exact TreeCheck.step_moved hu fun t ht => absurd ht (he t)
  have hchecks : List.Forall₂
      (TreeAudit.Parallel (Violation.down k) fun c c' => c' = c.map (Node.down k))
      checks (checks.map (TreeAudit.down k)) := by
    rw [List.forall₂_map_right_iff]
    exact List.forall₂_same.mpr fun a _ => ⟨rfl, rfl⟩
  refine run_parallel (R := fun _ c c' => c' = c.map (Node.down k)) Violation.down_keepsOrder
    Node.down_keepsAccess rfl (hlast nofun) ?_ (hlast nofun) hchecks
  rintro o e c d hfits - rfl
  refine TreeCheck.step_moved hu ?_
  rintro t rfl
  exact hfits.mem_preorder

/-- Moving all files of a unit down moves what is found in them down, and nothing else: the same
files are seen, the walk ends with the same fault or none, and every check reports the same
violations, as many lines further down. Checks that have not begun are the same for both walks. -/
theorem run_down (files : FileSystem) {u : TranslationUnit} (hu : u.CountsFromOne)
    (dirs : List String) (checks : List TreeAudit) (k : Nat) :
    let w := (run files u dirs checks).1
    let w' := (run (files.down k) (u.down k) dirs (checks.map (TreeAudit.down k))).1
    w'.seen = w.seen ∧ w'.fault = w.fault ∧
      w'.checks.map (·.violations) = w.checks.map (·.violations.map (Violation.down k)) ∧
      (w.fault = none → w'.checks = w.checks.map (TreeAudit.down k)) ∧
      ∀ c : TreeCheck, c.Fresh → (TreeAudit.ofCheck c).down k = .ofCheck c := by
  intro w w'
  have h := run_down_parallel (k := k) files hu dirs checks
  refine ⟨h.seen, h.fault, h.violations, fun hf => ?_, ?_⟩
  · have hchecks := h.checks hf
    show (run (files.down k) (u.down k) dirs (checks.map (TreeAudit.down k))).1.checks =
      (run files u dirs checks).1.checks.map (TreeAudit.down k)
    generalize (run files u dirs checks).1.checks = as at hchecks ⊢
    generalize (run (files.down k) (u.down k) dirs (checks.map (TreeAudit.down k))).1.checks = bs
      at hchecks ⊢
    induction hchecks with
    | nil => rfl
    | @cons a b as bs hab _ ih =>
      rw [List.map_cons, ← ih, TreeAudit.down, ← hab.violations, ← hab.check]
  · intro c hc
    cases c with
    | indent c =>
      obtain ⟨style, rfl⟩ := hc
      rfl
    | spacing c => rfl
    | bare => exact hc.elim

/-- A do loop that was handed out without its data. -/
def loopByLocation : TranslationUnit where
  root := (Tree.mk (.atStart .translationUnit) [
    .mk { Node.atStart .doStmt with
        extent := ⟨some "a.cc", ⟨1, 1⟩, ⟨2, 10⟩⟩
        detached := true } [
      .mk { Node.atStart .nullStmt with
          location := ⟨1, 3⟩
          extent := ⟨some "a.cc", ⟨1, 3⟩, ⟨1, 4⟩⟩ } [],
      .mk { Node.atStart .declRefExpr with
          location := ⟨2, 8⟩
          extent := ⟨some "a.cc", ⟨2, 8⟩, ⟨2, 9⟩⟩ } []]]).number
  tokens := [
    ⟨.keyword, "do", "a.cc", ⟨1, 1⟩, some 1⟩, ⟨.punctuation, ";", "a.cc", ⟨1, 3⟩, some 2⟩,
    ⟨.keyword, "while", "a.cc", ⟨2, 2⟩, some 1⟩, ⟨.punctuation, "(", "a.cc", ⟨2, 7⟩, some 1⟩,
    ⟨.identifier, "x", "a.cc", ⟨2, 8⟩, some 3⟩, ⟨.punctuation, ")", "a.cc", ⟨2, 9⟩, some 1⟩]

def loopFile : FileSystem := ⟨[("/a.cc", Text.ofString "do;\n while(x);\n")]⟩

/-- The keyword out of its column is found in the second line, and three lines further down. -/
theorem run_down_three :
    loopByLocation.CountsFromOne ∧
      let w := (run (loopFile.down 3) (loopByLocation.down 3) ["/"]
        [.ofCheck (.indent (.ofStyle .standard)), .ofCheck (.spacing .new)]).1
      w.fault = none ∧ w.checks.map (·.violations.toList.map fun v => (v.rule, v.line, v.column)) =
        [[("indent.generic", 5, 2)], []] := by
  have hu : loopByLocation.CountsFromOne :=
    ⟨by unfold Scene.OnLines; decide, by decide +kernel, by decide +kernel⟩
  obtain ⟨-, hfault, hfound, -⟩ := run_down loopFile hu ["/"]
    [.ofCheck (.indent (.ofStyle .standard)), .ofCheck (.spacing .new)] 3
  refine ⟨hu, ?_, ?_⟩
  · exact hfault.trans (by decide +kernel)
  · have hlines := congrArg (List.map fun s : ViolationSet =>
      s.toList.map fun v => (v.rule, v.line, v.column)) hfound
    rw [List.map_map, List.map_map] at hlines
    exact hlines.trans (by decide +kernel)

/-- A unit inside a unit, located where a do loop without its data is. Its own lines are no lines of
a file. -/
def loopAtUnit : TranslationUnit where
  root := (Tree.mk (.atStart .translationUnit) [
    .mk { Node.atStart .translationUnit with extent := ⟨some "a.cc", ⟨0, 0⟩, ⟨0, 0⟩⟩ } [],
    .mk { Node.atStart .doStmt with detached := true } []]).number
  tokens := []

def emptyFile : FileSystem := ⟨[("/a.cc", [])]⟩

/-- Where the unit looked up has no lines of its own, an empty line in front of an empty file
changes the fault. -/
theorem run_down_at_nested_unit :
    (∀ t ∈ loopAtUnit.root.preorder, t.node.kind ≠ .ok .translationUnit →
        1 ≤ t.node.location.line ∧ 1 ≤ t.extent.start.line ∧ 1 ≤ t.extent.stop.line) ∧
      loopAtUnit.tokens = [] ∧
      (run emptyFile loopAtUnit ["/"] [.ofCheck (.indent (.ofStyle .standard))]).1.fault =
        some .entryOutOfRange ∧
      (run (emptyFile.down 1) (loopAtUnit.down 1) ["/"]
        [.ofCheck (.indent (.ofStyle .standard))]).1.fault = some .tokenOutOfRange := by
  decide +kernel

end Walk

end StyleCheck
