import StyleCheck.Proofs.DoLoops
import StyleCheck.Proofs.LookedAt

/-!
# Classes and class templates

`TranslationUnit.retype` makes classes of a unit templates and changes nothing else. The levels of a
template are counted as those of a class without access labels, and no mark is kept in it. Some
parts of a class tell the two apart (`TranslationUnit.TellsApart`): an access label does if what
follows it is to be indented, and every part does if the setting for that is off and is no number.
Where no part does, the walks end alike; where one does, one of them meets a fault
(`Walk.run_retype`).
-/

namespace StyleCheck

/-! ## Classes made templates -/

/-- The kinds of class templates. -/
inductive TemplateKind where
  | whole
  | partialSpecialization

def TemplateKind.kind : TemplateKind → Kind
  | whole => .classTemplate
  | partialSpecialization => .classTemplatePartialSpecialization

/-- Which classes are made templates, by their numbers, and of what kind. -/
def Retyping := Nat → Option TemplateKind

def Node.retypedKind (r : Retyping) (n : Node) : Except Fault Kind :=
  match n.kind, r n.id with
  | .ok .classDecl, some k => .ok k.kind
  | kind, _ => kind

def Node.retype (r : Retyping) (n : Node) : Node := { n with kind := n.retypedKind r }

def TranslationUnit.retype (r : Retyping) (u : TranslationUnit) : TranslationUnit :=
  ⟨u.root.map (Node.retype r), u.tokens⟩

/-- A class that is made a template. -/
def Node.Retyped (r : Retyping) (n : Node) : Prop :=
  n.kind = .ok .classDecl ∧ (r n.id).isSome

/-- Whether a part of a class is not treated as that part of a class template would be. -/
def IndentStyle.tellsTemplate (style : IndentStyle) (part : Node) : Bool :=
  if style.belowVisibility.isOn then part.isAccessLabel
  else style.belowVisibility.countFault?.isSome

/-- A class that is made a template, and a part of it that tells so, are both looked at. -/
structure TranslationUnit.TellsApart (u : TranslationUnit) (style : IndentStyle)
    (dirs : List String) (r : Retyping) (a part : Tree) : Prop where
  looked : a ∈ u.root.lookedAt (VisitFilter.letsThrough dirs)
  retyped : a.node.Retyped r
  child : part ∈ a.children
  allowed : VisitFilter.letsThrough dirs part.node = true
  tells : style.tellsTemplate part.node = true

variable {r : Retyping} {style : IndentStyle}

theorem TranslationUnit.TellsApart.mem_parts {u : TranslationUnit} {dirs : List String}
    {a part : Tree} (h : u.TellsApart style dirs r a part) : part ∈ a.parts := by
  refine Tree.mem_parts.mpr ⟨h.child, fun hk => ?_⟩
  rw [h.retyped.1] at hk
  cases hk

namespace Node

theorem same_retype (a b : Node) : (a.retype r).same (b.retype r) = a.same b := rfl

/-- A class is made a template, and every other node stays. -/
theorem retype_cases (r : Retyping) (n : Node) :
    (n.Retyped r ∧ ∃ d : TemplateKind, (n.retype r).kind = .ok d.kind) ∨ n.retype r = n := by
  show (n.Retyped r ∧ ∃ d : TemplateKind, n.retypedKind r = .ok d.kind) ∨ _
  rw [retype]
  unfold retypedKind
  split
  · next d hk hr => exact .inl ⟨⟨hk, by rw [hr]; rfl⟩, d, rfl⟩
  · exact .inr rfl

theorem Retyped.kind {n : Node} (h : n.Retyped r) :
    ∃ d : TemplateKind, (n.retype r).kind = .ok d.kind := by
  obtain ⟨hk, hr⟩ := h
  obtain ⟨d, hr⟩ := Option.isSome_iff_exists.mp hr
  refine ⟨d, ?_⟩
  show n.retypedKind r = _
  rw [retypedKind, hk, hr]

theorem kind_retype_alike (n : Node) :
    Alike (fun k k' => n.kind = .ok k ∧ (n.retype r).kind = .ok k') n.kind (n.retype r).kind := by
  obtain ⟨⟨hn, -⟩, d, hd⟩ | h := n.retype_cases r
  · rw [hd, hn]
    exact .ok ⟨rfl, rfl⟩
  · rw [h]
    cases n.kind with
    | ok k => exact .ok ⟨rfl, rfl⟩
    | error e => exact .fault e

/-- Kinds other than those of classes and class templates are kept. -/
theorem kind_retype_iff {k : Kind} (hk : k.form ≠ .record) (hk' : k.form ≠ .recordTemplate)
    (n : Node) : (n.retype r).kind = .ok k ↔ n.kind = .ok k := by
  obtain ⟨⟨hn, -⟩, d, hd⟩ | h := n.retype_cases r
  · rw [hd, hn, Except.ok.injEq, Except.ok.injEq]
    refine iff_of_false ?_ ?_
    · rintro rfl
      cases d <;> exact hk' rfl
    · rintro rfl
      exact hk rfl
  · rw [h]

theorem isAccessLabel_retype (n : Node) : (n.retype r).isAccessLabel = n.isAccessLabel := by
  have h := n.kind_retype_iff (r := r) (k := .cxxAccessSpecDecl) (by decide) (by decide)
  rw [Bool.eq_iff_iff, isAccessLabel_iff, isAccessLabel_iff, h]

theorem isRangeLoop_retype (n : Node) : (n.retype r).isRangeLoop = n.isRangeLoop := by
  have h := n.kind_retype_iff (r := r) (k := .cxxForRangeStmt) (by decide) (by decide)
  rw [Bool.eq_iff_iff, isRangeLoop_iff, isRangeLoop_iff, h]

theorem retype_keepsAccess : KeepsAccess (retype r) where
  file? _ := rfl
  allowsNode f n := by
    obtain ⟨⟨hn, -⟩, d, hd⟩ | h := n.retype_cases r
    · unfold VisitFilter.allowsNode
      rw [hd, hn]
      cases d <;> rfl
    · rw [h]

theorem retype_keepsLoops : KeepsLoops (retype r) where
  id _ := rfl
  kind n := by
    obtain ⟨⟨hn, -⟩, d, hd⟩ | h := n.retype_cases r
    · rw [hd, hn]
      exact .ok (iff_of_false nofun (by cases d <;> nofun))
    · rw [h]
      exact (Alike.refl _).mono fun _ hk => by rw [hk]
  attached _ := rfl
  detached _ := rfl
  located _ _ := rfl

theorem letsThrough_retype (dirs : List String) (n : Node) :
    VisitFilter.letsThrough dirs (n.retype r) = VisitFilter.letsThrough dirs n := by
  rw [VisitFilter.letsThrough, VisitFilter.letsThrough, retype_keepsAccess.allowsNode]

end Node

namespace Tree

theorem distinct_retype {t : Tree} (h : t.Distinct) : (t.map (Node.retype r)).Distinct := by
  unfold Distinct at h ⊢
  rw [preorder_map, List.pairwise_map]
  simpa only [node_map, Node.same_retype] using h

theorem extent_retype (t : Tree) : (t.map (Node.retype r)).extent = t.extent := by
  rw [extent, node_map]
  rfl

theorem parts_retype (t : Tree) :
    (t.map (Node.retype r)).parts = t.parts.map (map (Node.retype r)) := by
  unfold parts
  rw [node_map, Node.isRangeLoop_retype, children_map, List.getLast?_map]
  split
  · cases t.children.getLast? <;> rfl
  · rfl

theorem lookedAt_retype (dirs : List String) (t : Tree) :
    (t.map (Node.retype r)).lookedAt (VisitFilter.letsThrough dirs) =
      (t.lookedAt (VisitFilter.letsThrough dirs)).map (map (Node.retype r)) := by
  induction t using children_induction with
  | mk n cs ih =>
    have hp : VisitFilter.letsThrough dirs ((mk n cs).map (Node.retype r)).node =
        VisitFilter.letsThrough dirs n := by
      rw [node_map, node_mk, Node.letsThrough_retype]
    cases h : VisitFilter.letsThrough dirs n with
    | false => rw [lookedAt_of_neg (hp.trans h), lookedAt_of_neg h, List.map_nil]
    | true =>
      rw [lookedAt_of_pos (hp.trans h), lookedAt_of_pos (t := mk n cs) h, parts_retype,
        List.map_cons, List.flatMap_map, List.map_flatMap]
      exact congrArg _ (List.flatMap_congr fun c hc =>
        ih c ((parts_sublist (mk n cs)).subset hc))

end Tree

/-! ## Frames -/

/-- Frames of a tree and of the tree with classes made templates. They differ if the tree is such a
class itself; then no mark that would count was set. -/
structure Frame.Twin (style : IndentStyle) (r : Retyping) (f f' : Frame) : Prop where
  levels : f'.levels = f.levels
  bracesAbove : f'.bracesAbove = f.bracesAbove
  marked : f'.marked = f.marked
  tree : f'.tree = f.tree.map (Tree.map (Node.retype r))
  construct : f'.construct = f.construct ∨
    f.construct.form = .record ∧ f'.construct.form = .recordTemplate ∧
      (style.belowVisibility.isOn = true → f.marked = false) ∧
      ∃ a, f.tree = some a ∧ a.node.Retyped r

/-- No part that tells a class from a template is about to be opened in a frame. -/
def Frame.Blind (style : IndentStyle) (r : Retyping) (f : Frame) (t : Tree) : Prop :=
  ∀ a, f.tree = some a → a.node.Retyped r → style.tellsTemplate t.node = false

variable {f f' : Frame} {t : Tree}

theorem Frame.OpenedFor.form_eq_accessLabel (h : f.OpenedFor t) :
    f.construct.form = .accessLabel ↔ t.node.isAccessLabel = true := by
  obtain ⟨k, hk, hform⟩ := h.form_eq
  rw [hform, Kind.form_eq_accessLabel, Node.isAccessLabel_iff, hk, Except.ok.injEq]

/-- An access label is no part to open in such a class if what follows it is to be indented. -/
theorem Frame.Blind.isOn_eq_false (h : f.Blind style r t) (ht : t.node.isAccessLabel = true)
    {a : Tree} (ha : f.tree = some a) (hr : a.node.Retyped r) :
    style.belowVisibility.isOn = false := by
  have htells := h a ha hr
  rw [IndentStyle.tellsTemplate, ht] at htells
  by_contra hon
  rw [Bool.not_eq_false] at hon
  rw [if_pos hon] at htells
  cases htells

namespace Frame.Twin

theorem root (style : IndentStyle) (r : Retyping) : Twin style r .root .root :=
  ⟨rfl, rfl, rfl, rfl, .inl rfl⟩

theorem form_eq_iff (h : Twin style r f f') {x : Form} (hx : x ≠ .record)
    (hx' : x ≠ .recordTemplate) : f'.construct.form = x ↔ f.construct.form = x := by
  obtain hc | ⟨hc, hc', -⟩ := h.construct
  · rw [hc]
  · rw [hc, hc']
    exact iff_of_false hx'.symm hx.symm

theorem allows (h : Twin style r f f') (n : Node) : f'.allows (n.retype r) = f.allows n :=
  Frame.allows_map Node.same_retype (h.form_eq_iff nofun nofun) h.tree n

theorem ownsBraces (h : Twin style r f f') : f'.ownsBraces = f.ownsBraces := by
  unfold Frame.ownsBraces
  obtain hc | ⟨hc, hc', -⟩ := h.construct
  · rw [hc, h.bracesAbove]
  · rw [hc, hc']

theorem extraLevels (h : Twin style r f f') : f'.extraLevels style = f.extraLevels style := by
  unfold Frame.extraLevels
  obtain hc | ⟨hc, hc', hm, -⟩ := h.construct
  · rw [hc, h.marked, h.bracesAbove]
  · -- a class without a mark that counts adds what a template adds
    have hmark : (style.belowVisibility.isOn && f.marked) = false := by
      rw [Bool.and_eq_false_imp]
      exact hm
    rw [hc, hc', hmark]
    exact (Int.add_zero _).symm

theorem bodyFault? (h : Twin style r f f') (hb : f.Blind style r t) :
    f'.bodyFault? style = f.bodyFault? style := by
  unfold Frame.bodyFault?
  obtain hc | ⟨hc, hc', -, a, ha, hr⟩ := h.construct
  · rw [hc, h.bracesAbove]
  · have htells := hb a ha hr
    unfold IndentStyle.tellsTemplate at htells
    rw [hc, hc']
    cases hon : style.belowVisibility.isOn with
    | true => exact (Option.or_none).symm
    | false =>
      rw [hon] at htells
      have hnum : style.belowVisibility.countFault? = none := by
        rw [← Option.not_isSome_iff_eq_none, Bool.not_eq_true]
        exact htells
      rw [hnum]
      exact (Option.or_none).symm

theorem enterKind (h : Twin style r f f') (hb : f.Blind style r t) {k k' : Kind}
    (hk : t.node.kind = .ok k) (hk' : (t.node.retype r).kind = .ok k') :
    Alike (Twin style r) (f.enterKind style k (some t))
      (f'.enterKind style k' (some (t.map (Node.retype r)))) := by
  have henter : ∀ c c', (c' = c ∨ c.form = .record ∧ c'.form = .recordTemplate ∧
      t.node.Retyped r) → Twin style r (f.enter style c (k.name ++ "'") (some t))
        (f'.enter style c' (k'.name ++ "'") (some (t.map (Node.retype r)))) := by
    intro c c' hc
    refine ⟨?_, h.ownsBraces, rfl, rfl, hc.imp id fun ⟨h1, h2, hr⟩ => ?_⟩
    · show f'.childLevels style = f.childLevels style
      rw [Frame.childLevels, Frame.childLevels, h.levels, h.extraLevels]
    · exact ⟨h1, h2, fun _ => rfl, t, rfl, hr⟩
  unfold Frame.enterKind
  rw [h.bodyFault? hb]
  obtain ⟨hr, d, hd⟩ | hsame := t.node.retype_cases r
  · cases hk.symm.trans hr.1
    cases hk'.symm.trans hd
    have hof : Construct.ofKind d.kind = .ok ⟨Construct.labelOf d.kind, .recordTemplate⟩ := by
      cases d <;> rfl
    rw [hof, show Construct.ofKind .classDecl =
      .ok ⟨Construct.labelOf .classDecl, .record⟩ from rfl]
    cases f.bodyFault? style with
    | some e => exact .fault e
    | none => exact .ok (henter _ _ (.inr ⟨rfl, rfl, hr⟩))
  · rw [hsame] at hk'
    cases hk'.symm.trans hk
    cases Construct.ofKind k with
    | error e => exact .fault e
    | ok c =>
      cases f.bodyFault? style with
      | some e => exact .fault e
      | none => exact .ok (henter c c (.inl rfl))

theorem mark (h : Twin style r f f') (hb : f.Blind style r t)
    (ht : t.node.isAccessLabel = true) : Twin style r f.mark f'.mark := by
  refine ⟨h.levels, h.bracesAbove, rfl, h.tree, h.construct.imp id ?_⟩
  rintro ⟨h1, h2, -, a, ha, hr⟩
  refine ⟨h1, h2, fun hon => ?_, a, ha, hr⟩
  rw [hb.isOn_eq_false ht ha hr] at hon
  cases hon

end Frame.Twin

/-! ## Rules -/

namespace Scene

variable {files : FileSystem} {u : TranslationUnit} {parent parent' f f' : Frame} {t : Tree}

theorem doLoop_retype (t : Tree) :
    doLoop ⟨files, u.retype r, style⟩ (t.map (Node.retype r)) =
      doLoop ⟨files, u, style⟩ t :=
  doLoop_withRoot (s := ⟨files, u, style⟩) (g := Node.retype r)
    (fun _ _ _ => TranslationUnit.owns_map (g := Node.retype r) (fun _ => rfl) rfl rfl rfl)
    (fun _ => rfl)
    Node.retype_keepsLoops.kind (doLoopTree_map Node.retype_keepsLoops rfl)

theorem check_retype (hp : parent.Twin style r parent') (hf : f.Twin style r f')
    (hb : parent.Blind style r t) (ht : f.OpenedFor t) :
    check ⟨files, u.retype r, style⟩ parent' f' (t.map (Node.retype r)) =
      check ⟨files, u, style⟩ parent f t := by
  obtain hc | ⟨hc, hc', -⟩ := hf.construct
  · refine check_withRoot (s := ⟨files, u, style⟩) hf.levels (Tree.extent_retype t)
      (congrArg Construct.form hc) hf.bracesAbove (fun _ => doLoop_retype t) fun hlabel hon => ?_
    obtain hparent | ⟨-, -, -, a, ha, hr⟩ := hp.construct
    · exact ⟨hparent, hp.marked⟩
    · rw [hb.isOn_eq_false (ht.form_eq_accessLabel.mp hlabel) ha hr] at hon
      cases hon
  · unfold check
    rw [hc, hc']
    exact checkBlock_withRoot (s := ⟨files, u, style⟩) hf.levels (Tree.extent_retype t) _

end Scene

/-! ## Checks -/

/-- Openings of a tree and of the tree with classes made templates. -/
structure Opening.Twin (style : IndentStyle) (r : Retyping) (o o' : Opening) : Prop where
  parent : o.parent.Twin style r o'.parent
  outer : List.Forall₂ (Frame.Twin style r) o.outer o'.outer
  frame : o.frame.Twin style r o'.frame

namespace IndentCheck

/-- Checks that follow a walk and the walk with classes made templates. -/
structure Twin (style : IndentStyle) (r : Retyping) (c d : IndentCheck) : Prop where
  style_eq : c.style = style ∧ d.style = style
  frames : List.Forall₂ (Frame.Twin style r) c.frames d.frames
  stopped : d.stopped = c.stopped.map (Node.retype r)
  depth : d.depth = c.depth

/-- No part that tells a class from a template is about to be opened. -/
def Blind (style : IndentStyle) (r : Retyping) (c : IndentCheck) (t : Tree) : Prop :=
  c.stopped = none → ∀ f ∈ c.frames.head?, f.Blind style r t

variable {files : FileSystem} {u : TranslationUnit} {c d : IndentCheck} {t : Tree}

theorem Twin.opening? (h : Twin style r c d) (hb : c.Blind style r t) :
    Alike (Option.Rel (Opening.Twin style r)) (c.opening? t)
      (d.opening? (t.map (Node.retype r))) := by
  unfold IndentCheck.opening?
  rw [Tree.node_map, h.style_eq.1, h.style_eq.2, h.stopped, Option.isSome_map]
  refine t.node.kind_retype_alike.bind fun _ hk => ?_
  cases hs : c.stopped with
  | some n => exact .ok .none
  | none =>
    have hblind := hb hs
    have hframes := h.frames
    generalize c.frames = fs at hblind hframes
    generalize d.frames = fs' at hframes
    cases hframes with
    | nil => exact .fault .entryOutOfRange
    | @cons parent parent' outer outer' hp houter =>
      have hbp := hblind parent rfl
      simp only [Option.isSome_none, Bool.false_eq_true, if_false, hp.allows]
      refine (Alike.refl _).bind @fun allowed _ _ hab => ?_
      subst hab
      refine .ite Iff.rfl (fun _ => ?_) (.ok .none)
      exact (hp.enterKind hbp hk.1 hk.2).bind fun _ hframe => .ok (.some ⟨hp, houter, hframe⟩)

theorem Twin.push {o o' : Opening} (h : Twin style r c d) (ho : o.Twin style r o')
    (hopen : c.opening? t = .ok (some o)) (hb : c.Blind style r t) :
    Twin style r (c.push o) (d.push o') := by
  obtain ⟨hs, -, hf, -, k, hk, he⟩ := opening?_eq_some hopen
  have hbp : o.parent.Blind style r t := hb hs o.parent (by rw [hf]; rfl)
  have hform : o'.frame.construct.form = .accessLabel ↔ o.frame.construct.form = .accessLabel :=
    ho.frame.form_eq_iff nofun nofun
  have hparent : o.parentAfter.Twin style r o'.parentAfter := by
    unfold Opening.parentAfter
    by_cases hl : o.frame.construct.form = .accessLabel
    · rw [if_pos hl, if_pos (hform.mpr hl)]
      have hopened := Frame.openedFor_of_enterKind hk he
      exact ho.parent.mark hbp (hopened.form_eq_accessLabel.mp hl)
    · rw [if_neg hl, if_neg fun h => hl (hform.mp h)]
      exact ho.parent
  refine ⟨h.style_eq, .cons ho.frame (.cons hparent ho.outer), h.stopped, ?_⟩
  exact congrArg (· + 1) h.depth

theorem Twin.step_enter (h : Twin style r c d) (hb : c.Blind style r t) :
    Report.Parallel id (Twin style r) (c.step files u (.enter t))
      (d.step files (u.retype r) (.enter (t.map (Node.retype r)))) := by
  have hopening := h.opening? hb
  rcases hc : c.opening? t with e | x <;>
    rcases hd : d.opening? (t.map (Node.retype r)) with e' | y <;>
    rw [hc, hd] at hopening <;> cases hopening
  case error.error.fault =>
    rw [step, step, hc, hd]
    exact .giveUp e
  case ok.ok.ok hxy =>
    cases hxy with
    | none =>
      rw [step_enter_of_none hc, step_enter_of_none hd]
      refine .pure ⟨h.style_eq, h.frames, ?_, h.depth⟩
      show d.stopped.or _ = (c.stopped.or _).map _
      rw [h.stopped, Tree.node_map]
      cases c.stopped <;> rfl
    | @some o o' ho =>
      obtain ⟨hs, -, hf, -, k, hk, he⟩ := opening?_eq_some hc
      rw [step_enter_of_some hc, step_enter_of_some hd, h.style_eq.1, h.style_eq.2,
        Scene.check_retype ho.parent ho.frame (hb hs o.parent (by rw [hf]; rfl))
          (Frame.openedFor_of_enterKind hk he)]
      exact (Report.Parallel.refl _).bind fun _ => .pure (h.push ho hc hb)

theorem Twin.step_leave (h : Twin style r c d) (t : Tree) :
    Report.Parallel id (Twin style r) (c.step files u (.leave t))
      (d.step files (u.retype r) (.leave (t.map (Node.retype r)))) := by
  refine step_leave_parallel Node.same_retype h.stopped ?_ ?_ h t
  · have htail : List.Forall₂ (Frame.Twin style r) c.frames.tail d.frames.tail := by
      rw [← List.drop_one, ← List.drop_one]
      exact List.forall₂_drop 1 h.frames
    exact ⟨h.style_eq, htail, h.stopped, congrArg (· - 1) h.depth⟩
  · exact ⟨h.style_eq, h.frames, rfl, h.depth⟩

/-- The frames of a check are those of trees that are looked at. -/
def LooksIn (trees : List Tree) (c : IndentCheck) : Prop :=
  ∀ f ∈ c.frames, ∀ a, f.tree = some a → a ∈ trees

/-- A frame is opened for a part of a tree that is looked at, so the part is looked at too. -/
theorem LooksIn.push {root : Tree} {o : List Tree} {p : Node → Bool} {op : Opening}
    (h : c.LooksIn (root.lookedAt p)) (hr : root.Distinct) (hl : root.Lineage (t :: o))
    (hp : p t.node = true) (hb : c.Balanced style o) (hopen : c.opening? t = .ok (some op)) :
    (c.push op).LooksIn (root.lookedAt p) := by
  obtain ⟨hs, -, hf, ha, k, hk, he⟩ := opening?_eq_some hopen
  have hparent := h op.parent (by rw [hf]; exact List.mem_cons_self)
  have ht : t ∈ root.lookedAt p := by
    cases o with
    | nil =>
      cases hl
      rw [Tree.lookedAt_of_pos hp]
      exact List.mem_cons_self
    | cons b above =>
      have hopened := Frame.openedFor_of_balanced hb hs hf
      have hbd := hl.distinct hr b (List.mem_cons_of_mem t List.mem_cons_self)
      exact Tree.mem_lookedAt_of_part (hopened.mem_parts hbd hl.mem_children ha) hp
        (hparent b hopened.tree_eq)
  intro f hmem a hfa
  rcases List.mem_cons.mp hmem with rfl | hmem
  · rw [(Frame.openedFor_of_enterKind hk he).tree_eq] at hfa
    cases hfa
    exact ht
  rcases List.mem_cons.mp hmem with rfl | hmem
  · obtain ⟨m, hm⟩ := op.parentAfter_eq
    rw [hm] at hfa
    exact hparent a hfa
  · exact h f (by rw [hf]; exact List.mem_cons_of_mem _ hmem) a hfa

theorem LooksIn.step {root : Tree} {o : List Tree} {p : Node → Bool} {e : Event}
    {c' : IndentCheck} (h : c.LooksIn (root.lookedAt p)) (hr : root.Distinct)
    (hfits : e.Fits root o) (hp : ∀ t, e = .enter t → p t.node = true) (hb : c.Balanced style o)
    (hs : (c.step files u e).outcome = .ok c') : c'.LooksIn (root.lookedAt p) := by
  cases e with
  | start => exact hfits.elim
  | finish => exact hfits.elim
  | enter t =>
    obtain ⟨op, hopen, rfl⟩ | ⟨-, rfl⟩ := step_enter_ok hs
    · exact h.push hr hfits (hp t rfl) hb hopen
    · exact h
  | leave t =>
    rw [IndentCheck.step] at hs
    split at hs
    · cases hs
      split <;> exact h
    · cases hs
      exact fun f hf => h f (List.mem_of_mem_tail hf)

/-- Where no part tells a class from a template, none is about to be opened. -/
theorem blind_of_balanced {dirs : List String} {o : List Tree}
    (hno : ∀ a part, ¬ u.TellsApart style dirs r a part) (hl : u.root.Lineage (t :: o))
    (hp : VisitFilter.letsThrough dirs t.node = true) (hb : c.Balanced style o)
    (hlooks : c.LooksIn (u.root.lookedAt (VisitFilter.letsThrough dirs))) :
    c.Blind style r t := by
  intro hs f hf a ha hr
  obtain ⟨outer, hfr⟩ := List.head?_eq_some_iff.mp hf
  have hlook := hlooks f (by rw [hfr]; exact List.mem_cons_self) a ha
  cases o with
  | nil =>
    -- the frame around the whole unit has no tree
    obtain ⟨-, -, hlen, -⟩ := hb.settled
    obtain ⟨m, hm⟩ := hb.bottom
    rw [hfr] at hlen hm
    rw [List.length_cons, Nat.add_eq_right, List.length_eq_zero_iff] at hlen
    rw [hlen, List.getLast?_singleton, Option.some_inj] at hm
    rw [hm] at ha
    cases ha
  | cons b above =>
    have hopened := Frame.openedFor_of_balanced hb hs hfr
    have hab : a = b := Option.some_inj.mp (ha.symm.trans hopened.tree_eq)
    rw [← Bool.not_eq_true]
    exact fun htells => hno a t ⟨hlook, hr, hab ▸ hl.mem_children, hp, htells⟩

/-- How checks stand inside a walk and the walk with classes made templates, while the trees `o` are
open. -/
structure Beside (u : TranslationUnit) (style : IndentStyle) (dirs : List String) (r : Retyping)
    (o : List Tree) (c d : IndentCheck) : Prop where
  balanced : c.Balanced style o
  looks : c.LooksIn (u.root.lookedAt (VisitFilter.letsThrough dirs))
  twin : Twin style r c d

namespace Beside

variable {dirs : List String} {o : List Tree} {e : Event}

theorem at_start (u : TranslationUnit) (style : IndentStyle) (dirs : List String) (r : Retyping) :
    Beside u style dirs r [] { ofStyle style with frames := [.root] }
      { ofStyle style with frames := [.root] } := by
  refine ⟨.at_start style, ?_, ⟨rfl, rfl⟩, .cons (.root style r) .nil, rfl, rfl⟩
  intro f hf a ha
  cases List.mem_singleton.mp hf
  cases ha

/-- Where no part tells a class from a template, every event in order is followed alike. -/
theorem step (hu : u.root.Distinct) (hno : ∀ a part, ¬ u.TellsApart style dirs r a part)
    (hfits : e.Fits u.root o) (hmem : e ∈ u.root.tour (VisitFilter.letsThrough dirs))
    (h : Beside u style dirs r o c d) :
    Report.Parallel id (Beside u style dirs r (e.after o)) (c.step files u e)
      (d.step files (u.retype r) (e.map (Node.retype r))) := by
  have hp : ∀ t, e = .enter t → VisitFilter.letsThrough dirs t.node = true := by
    rintro t rfl
    obtain ⟨a, -, hpa, ha | ha⟩ := Tree.mem_tour hmem
    · cases ha
      exact hpa
    · cases ha
  have htwin : Report.Parallel id (Twin style r) (c.step files u e)
      (d.step files (u.retype r) (e.map (Node.retype r))) := by
    cases e with
    | start => exact hfits.elim
    | finish => exact hfits.elim
    | enter t =>
      exact h.twin.step_enter (blind_of_balanced hno hfits (hp t rfl) h.balanced h.looks)
    | leave t => exact h.twin.step_leave t
  exact htwin.mono fun hok ht =>
    ⟨h.balanced.step hu hfits hok, h.looks.step hu hfits hp h.balanced hok, ht⟩

theorem step_finish (h : Beside u style dirs r o c d) (t t' : Tree) :
    Report.Parallel id (fun _ _ => True) (c.step files u (.finish t))
      (d.step files (u.retype r) (.finish t')) :=
  .ite (by rw [h.twin.frames.length_eq]) (.pure trivial) (.giveUp _)

end Beside

/-- On a walk without a fault, every part of a tree that is looked at is opened inside the frame of
that tree, and comes through its check. -/
theorem opens_part {dirs : List String} (hu : u.root.Distinct)
    (hf : (Walk.run files u dirs [.ofCheck (.indent (.ofStyle style))]).1.fault = none)
    {a : Tree} (ha : a ∈ u.root.lookedAt (VisitFilter.letsThrough dirs)) (ht : t ∈ a.parts)
    (hp : VisitFilter.letsThrough dirs t.node = true) :
    ∃ parent frame k, parent.OpenedFor a ∧ t.node.kind = .ok k ∧
      Frame.enterKind style parent k (some t) = .ok frame ∧
      (Scene.check ⟨files, u, style⟩ parent frame t).outcome = .ok () := by
  obtain ⟨c, hc, -⟩ := Walk.indent_follows (i := 0) (w := .ofChecks _) rfl hf rfl
  rw [u.events_visits dirs, follow_start, follow_append, Report.bind_outcome_eq_ok] at hc
  obtain ⟨c₁, hc₁, -⟩ := hc
  -- the part is looked at, so a frame is opened for it on the tour
  have hlooked := follow_tour u.root hu rfl (show _ = Frame.root :: [] from rfl) rfl hc₁
  have hmem : t ∈ u.root.lookedAt (VisitFilter.letsThrough dirs) :=
    Tree.mem_lookedAt_of_part ht hp ha
  rw [← show _ = u.root.lookedAt _ from hlooked.trees] at hmem
  obtain ⟨op, hop, rfl⟩ := List.mem_map.mp hmem
  have hcheck := check_ok_of_mem_openings hc₁ hop
  have hord := (Event.tour_orderly (p := VisitFilter.letsThrough dirs) u.root .top).1
  obtain ⟨above, hl, hparent, k, hk, he⟩ :=
    parent_of_mem_openings hu hord (.at_start style) hop
  have hchild := (Tree.parts_sublist a).subset ht
  have hpre := (Tree.lookedAt_sublist u.root).subset ha
  refine ⟨op.parent, op.frame, k, ?_, hk, he, hcheck⟩
  obtain ⟨outer, rfl⟩ := hl.parent hu hpre hchild
  exact hparent a rfl

end IndentCheck

/-! ## Walks -/

namespace Walk

variable {files : FileSystem} {u : TranslationUnit} {dirs : List String}

theorem run_retype_parallel (files : FileSystem) (hu : u.root.Distinct)
    (hno : ∀ a part, ¬ u.TellsApart style dirs r a part) :
    Parallel id (fun _ _ => True) (run files u dirs [.ofCheck (.indent (.ofStyle style))]).1
      (run files (u.retype r) dirs [.ofCheck (.indent (.ofStyle style))]).1 := by
  let R : List Tree → TreeCheck → TreeCheck → Prop := fun o x y =>
    ∃ c d, x = .indent c ∧ y = .indent d ∧ IndentCheck.Beside u style dirs r o c d
  have hstart : ∀ {x y : TreeCheck}, x = .indent (.ofStyle style) ∧ y = .indent (.ofStyle style) →
      Report.Parallel id (R []) (x.step files u (.start u.root))
        (y.step files (u.retype r) (.start (u.retype r).root)) := by
    rintro _ _ ⟨rfl, rfl⟩
    exact (Report.Parallel.pure (IndentCheck.Beside.at_start u style dirs r)).map
      fun h => ⟨_, _, rfl, rfl, h⟩
  have hstep : ∀ {o : List Tree} {e : Event} {x y : TreeCheck}, e.Fits u.root o →
      e ∈ u.root.tour (VisitFilter.letsThrough dirs) → R o x y →
      Report.Parallel id (R (e.after o)) (x.step files u e)
        (y.step files (u.retype r) (e.map (Node.retype r))) := by
    rintro o e _ _ hfits hmem ⟨c, d, rfl, rfl, h⟩
    exact (h.step hu hno hfits hmem).map fun h => ⟨_, _, rfl, rfl, h⟩
  have hfinish : ∀ {x y : TreeCheck}, R [] x y →
      Report.Parallel id (fun _ _ => True) (x.step files u (.finish u.root))
        (y.step files (u.retype r) (.finish (u.retype r).root)) := by
    rintro _ _ ⟨c, d, rfl, rfl, h⟩
    exact (h.step_finish _ _).map fun _ => trivial
  exact run_parallel (fun _ _ => rfl) Node.retype_keepsAccess rfl hstart hstep hfinish
    (.cons ⟨rfl, rfl, rfl⟩ .nil)

/-- With levels below access labels, a template with a label cannot be walked through. -/
theorem fault_of_label (hu : u.root.Distinct) {a part : Tree}
    (h : u.TellsApart style dirs r a part) (hon : style.belowVisibility.isOn = true) :
    (run files (u.retype r) dirs [.ofCheck (.indent (.ofStyle style))]).1.fault ≠ none := by
  intro hf
  have hlooked : a.map (Node.retype r) ∈
      (u.retype r).root.lookedAt (VisitFilter.letsThrough dirs) := by
    rw [show (u.retype r).root = u.root.map (Node.retype r) from rfl, Tree.lookedAt_retype]
    exact List.mem_map_of_mem h.looked
  have hpart : part.map (Node.retype r) ∈ (a.map (Node.retype r)).parts := by
    rw [Tree.parts_retype]
    exact List.mem_map_of_mem h.mem_parts
  have hp : VisitFilter.letsThrough dirs (part.map (Node.retype r)).node = true := by
    rw [Tree.node_map, Node.letsThrough_retype]
    exact h.allowed
  obtain ⟨parent, frame, k, hparent, hk, he, hcheck⟩ :=
    IndentCheck.opens_part (Tree.distinct_retype hu) hf hlooked hpart hp
  have hunmarked : parent.keepsMark = false := by
    obtain ⟨k', hk', hform⟩ := hparent.form_eq
    obtain ⟨d, hd⟩ := h.retyped.kind
    rw [Tree.node_map, hd] at hk'
    cases hk'
    rw [Frame.keepsMark, hform]
    cases d <;> rfl
  have hlabel : frame.construct.form = .accessLabel := by
    have htells := h.tells
    rw [IndentStyle.tellsTemplate, if_pos hon] at htells
    rw [(Frame.openedFor_of_enterKind hk he).form_eq_accessLabel, Tree.node_map,
      Node.isAccessLabel_retype]
    exact htells
  rw [Scene.check, hlabel] at hcheck
  simp only [Scene.checkAccessLabel, hon, hunmarked] at hcheck
  cases hcheck

/-- If the setting for levels below access labels is off and is no number, a class with a part
cannot be walked through. -/
theorem fault_of_part (hu : u.root.Distinct) {a part : Tree}
    (h : u.TellsApart style dirs r a part) (hoff : style.belowVisibility.isOn = false) :
    (run files u dirs [.ofCheck (.indent (.ofStyle style))]).1.fault ≠ none := by
  intro hf
  obtain ⟨parent, frame, k, hparent, -, he, -⟩ :=
    IndentCheck.opens_part hu hf h.looked h.mem_parts h.allowed
  obtain ⟨k', hk', hform⟩ := hparent.form_eq
  rw [h.retyped.1] at hk'
  cases hk'
  have htells := h.tells
  rw [IndentStyle.tellsTemplate, if_neg (by rw [hoff]; nofun)] at htells
  have hbody : (parent.bodyFault? style).isSome = true := by
    rw [Frame.bodyFault?, hform]
    show Option.isSome (Option.or _ (if _ then none else _)) = true
    rw [hoff, if_neg nofun, Option.isSome_or, htells, Bool.or_true]
  unfold Frame.enterKind at he
  split at he <;> cases he
  next hnone =>
    rw [hnone] at hbody
    cases hbody

/-- A class template is checked like a class where no part that is looked at tells them apart: the
walks see the same files, end with the same fault or none, and report the same violations. Where a
part tells them apart, the template makes its walk end with a fault if what follows access labels is
to be indented, and otherwise the class does. -/
theorem run_retype (files : FileSystem) {u : TranslationUnit} (hu : u.root.Distinct)
    (dirs : List String) (style : IndentStyle) (r : Retyping) :
    let walk := fun u => (run files u dirs [.ofCheck (.indent (.ofStyle style))]).1
    ((∀ a part, ¬ u.TellsApart style dirs r a part) →
        (walk (u.retype r)).seen = (walk u).seen ∧ (walk (u.retype r)).fault = (walk u).fault ∧
          (walk (u.retype r)).checks.map (·.violations) = (walk u).checks.map (·.violations)) ∧
      ∀ a part, u.TellsApart style dirs r a part →
        if style.belowVisibility.isOn then (walk (u.retype r)).fault ≠ none
        else (walk u).fault ≠ none := by
  intro walk
  constructor
  · intro hno
    have h := run_retype_parallel files hu hno
    have hid : ∀ s : ViolationSet, s.map id = s := fun s =>
      OrdSet.ext ((OrdSet.toList_map (fun _ _ => rfl) s).trans (List.map_id _))
    refine ⟨h.seen, h.fault, h.violations.trans ?_⟩
    simp only [hid]
    rfl
  · intro a part h
    split
    · next hon => exact fault_of_label hu h hon
    · next hoff => exact fault_of_part hu h (Bool.not_eq_true _ ▸ hoff)

/-- The style in which nothing is indented below access labels. -/
def flatStyle : IndentStyle := { IndentStyle.standard with belowVisibility := .flag false }

/-- The class in the small unit becomes a template. In the flat style it is checked as before, and
its field is found misplaced; in the standard style its access label tells it from a class. -/
theorem run_retype_classAndLoop :
    let r : Retyping := fun _ => some .whole
    let u := TranslationUnit.classAndLoop
    let walk := fun style =>
      (run .oneLine (u.retype r) ["/"] [.ofCheck (.indent (.ofStyle style))]).1
    u.root.Distinct ∧ (∀ a part, ¬ u.TellsApart flatStyle ["/"] r a part) ∧
      (walk flatStyle).fault = none ∧
      (walk flatStyle).checks.map (·.violations.toList.map (·.text)) =
        [["Invalid indent. Expecting one of \x7b4\x7d"]] ∧
      (∃ a part, u.TellsApart .standard ["/"] r a part) ∧ (walk .standard).fault ≠ none := by
  intro r u walk
  have hu : u.root.Distinct := Tree.number_distinct _
  have hno : ∀ a part, ¬ u.TellsApart flatStyle ["/"] r a part := fun _ _ h => nomatch h.tells
  obtain ⟨-, hfault, hfound⟩ := (run_retype .oneLine hu ["/"] flatStyle r).1 hno
  let label : Tree := .mk { Node.atStart .cxxAccessSpecDecl with id := 2 } []
  let field : Tree := .mk { Node.atStart .fieldDecl with id := 3 } []
  have hapart : u.TellsApart .standard ["/"] r
      (.mk { Node.atStart .classDecl with id := 1 } [label, field]) label := by
    refine ⟨List.mem_of_getElem? (i := 1) rfl, ⟨rfl, rfl⟩, List.mem_cons_self, ?_, rfl⟩
    decide +kernel
  refine ⟨hu, hno, hfault.trans (by decide +kernel), ?_, ⟨_, _, hapart⟩, ?_⟩
  · have htexts := congrArg (List.map fun s : ViolationSet => s.toList.map (·.text)) hfound
    rw [List.map_map, List.map_map] at htexts
    exact htexts.trans (by decide +kernel)
  · exact (run_retype .oneLine hu ["/"] .standard r).2 _ _ hapart

/-- In the standard style the access label is fine in a class and a fault in a template. If the
setting is missing, it is the class that makes a fault. -/
theorem run_retype_changes_fault :
    let r : Retyping := fun _ => some .whole
    let u := TranslationUnit.classAndLoop
    let walk := fun style u => (run .oneLine u ["/"] [.ofCheck (.indent (.ofStyle style))]).1
    let unsetStyle := { IndentStyle.standard with belowVisibility := .unset }
    (walk .standard u).fault = none ∧
      (walk .standard (u.retype r)).fault = some (.noVisibilityMark "ClassTemplateHandler") ∧
      (walk unsetStyle u).fault = some (.notANumber "NoneType") ∧
      (walk unsetStyle (u.retype r)).fault = none := by
  decide +kernel

end Walk

end StyleCheck
