import StyleCheck.Proofs.LookedAt

/-!
# Levels in closed form

The level that a tree is expected in is a sum over the lineage of the tree: what each tree on it
adds for the next one (`Tree.weight`). The tables below go by kind alone. Frames reach the same
numbers step by step, from the marks and braces that they keep.
-/

namespace StyleCheck

namespace Kind

def isUnexposed : Kind → Bool
  | unexposedDecl | unexposedExpr | unexposedStmt | unexposedAttr => true
  | _ => false

/-- Whether a kind is a block in braces; compound statements do not count here. -/
def isBlock : Kind → Bool
  | blockExpr | classDecl | structDecl | unionDecl | classTemplate
  | classTemplatePartialSpecialization | constructorDecl | destructorDecl | conversionFunction
  | cxxMethod | functionDecl | functionTemplate | cxxForRangeStmt | cxxTryStmt | doStmt | forStmt
  | ifStmt | whileStmt | switchStmt | namespaceDecl => true
  | _ => false

/-- How many levels the body of a construct stands further in than the construct: `braced` says
whether a block around a compound statement answers for its braces, `labelled` whether an access
label stands in front. -/
def bodyLevels (style : IndentStyle) (braced labelled : Bool) : Kind → Int
  | classDecl | structDecl | unionDecl =>
    Frame.bracesAdd style.recordBraces + style.insideRecord.count +
      (style.belowVisibility.isOn && labelled).toInt
  | compoundStmt => if braced then 0 else style.insideBlock.count
  | classTemplate | classTemplatePartialSpecialization | enumDecl =>
    Frame.bracesAdd style.recordBraces + style.insideRecord.count
  | constructorDecl | destructorDecl | conversionFunction | cxxMethod | functionDecl
  | functionTemplate => Frame.bracesAdd style.functionBraces + style.insideFunction.count
  | cxxForRangeStmt | cxxTryStmt | doStmt | forStmt | ifStmt | whileStmt =>
    Frame.bracesAdd style.blockBraces + style.insideBlock.count
  | switchStmt => Frame.bracesAdd style.blockBraces + style.insideSwitch.count
  | namespaceDecl => Frame.bracesAdd style.namespaceBraces + style.insideNamespace.count
  | caseStmt | defaultStmt | breakStmt => style.insideCase.count
  | _ => 0

end Kind

namespace Tree

/-- Whether the first of these trees that is not unexposed is a block in braces. -/
def inBlock : List Tree → Bool
  | [] => false
  | a :: above =>
    match a.node.kind with
    | .ok k => if k.isUnexposed then inBlock above else k.isBlock
    | .error _ => false

/-- Whether an access label that was checked stands among the children of `a` in front of `c`. -/
def labelledBefore (checked : Node → Bool) (a c : Tree) : Bool :=
  (a.children.takeWhile fun d => !d.node.same c.node).any fun d =>
    d.node.isAccessLabel && checked d.node

/-- The levels that the innermost of the trees around `c` adds for it. -/
def weight (style : IndentStyle) (checked : Node → Bool) (c : Tree) : List Tree → Int
  | [] => 0
  | a :: above =>
    match a.node.kind with
    | .ok k => k.bodyLevels style (inBlock above) (labelledBefore checked a c)
    | .error _ => 0

/-- The sum of the weights along a lineage. -/
def levelSum (style : IndentStyle) (checked : Node → Bool) : List Tree → Int
  | [] => 0
  | c :: above => weight style checked c above + levelSum style checked above

/-- In a distinct tree, the children in front of one are those up to the first that is the same. -/
theorem labelledBefore_eq {a c : Tree} (ha : a.Distinct) {before after : List Tree}
    (hsplit : a.children = before ++ c :: after) (checked : Node → Bool) :
    labelledBefore checked a c =
      before.any fun d => d.node.isAccessLabel && checked d.node := by
  have hsib := ha.siblings
  rw [hsplit, List.pairwise_append] at hsib
  have hne : ∀ d ∈ before, (!d.node.same c.node) = true := by
    intro d hd
    rw [hsib.2.2 d hd c List.mem_cons_self d d.self_mem_preorder c c.self_mem_preorder]
    rfl
  unfold labelledBefore
  rw [hsplit, List.takeWhile_append_of_pos hne, List.takeWhile_cons_of_neg (by simp),
    List.append_nil]

end Tree

/-! ## What frames keep -/

namespace Frame

variable {style : IndentStyle} {f : Frame} {k : Kind}

theorem extraLevels_eq (h : f.construct.form = k.form) :
    f.extraLevels style = k.bodyLevels style f.bracesAbove f.marked := by
  unfold extraLevels
  rw [h]
  cases k <;> rfl

theorem ownsBraces_eq (h : f.construct.form = k.form) :
    f.ownsBraces = if k.isUnexposed then f.bracesAbove else k.isBlock := by
  unfold ownsBraces
  rw [h]
  cases k <;> rfl

variable {checked : Node → Bool} {t : Tree} {above : List Tree}

/-- The frame of the innermost of the open trees `above` keeps what they add up to. -/
def Tells (style : IndentStyle) (checked : Node → Bool) (f : Frame) : List Tree → Prop
  | [] => ∃ m, f = { root with marked := m }
  | a :: above => f.OpenedFor a ∧
    f.levels = .single (style.levelSize * Tree.levelSum style checked (a :: above)) ∧
    f.bracesAbove = Tree.inBlock above

/-- Its mark tells of the access labels in front of the next child. A loop over a range looks at
its last child alone, and its mark counts for nothing. -/
def MarkTells (checked : Node → Bool) (f : Frame) (t : Tree) : List Tree → Prop
  | [] => True
  | a :: _ => a.node.isRangeLoop = false → f.marked = Tree.labelledBefore checked a t

theorem Tells.markIf (h : f.Tells style checked above) (b : Bool) :
    (f.markIf b).Tells style checked above := by
  cases above with
  | nil =>
    obtain ⟨m, rfl⟩ := h
    exact ⟨m || b, rfl⟩
  | cons a above => exact ⟨h.1.markIf b, h.2⟩

theorem Tells.levels_eq (h : f.Tells style checked above) :
    f.levels = .single (style.levelSize * Tree.levelSum style checked above) := by
  cases above with
  | nil =>
    obtain ⟨m, rfl⟩ := h
    rw [Tree.levelSum, Int.mul_zero]
    rfl
  | cons a above => exact h.2.1

theorem Tells.ownsBraces (h : f.Tells style checked above) :
    f.ownsBraces = Tree.inBlock above := by
  cases above with
  | nil =>
    obtain ⟨m, rfl⟩ := h
    rfl
  | cons a above =>
    obtain ⟨⟨-, k, hk, hform⟩, -, hb⟩ := h
    rw [ownsBraces_eq hform, hb, Tree.inBlock, hk]

theorem Tells.extraLevels (h : f.Tells style checked above) (hm : f.MarkTells checked t above) :
    f.extraLevels style = Tree.weight style checked t above := by
  cases above with
  | nil =>
    obtain ⟨m, rfl⟩ := h
    rfl
  | cons a above =>
    obtain ⟨⟨-, k, hk, hform⟩, -, hb⟩ := h
    rw [extraLevels_eq hform, Tree.weight, hk, hb]
    by_cases hr : k = .cxxForRangeStmt
    · subst hr
      rfl
    · rw [hm (Node.isRangeLoop_eq_false hk hr)]

/-- A frame that is opened keeps what the frame around it kept and the weight of that one. -/
theorem Tells.enter {g : Frame} (h : f.Tells style checked above)
    (hm : f.MarkTells checked t above) (hk : t.node.kind = .ok k)
    (he : f.enterKind style k (some t) = .ok g) : g.Tells style checked (t :: above) := by
  have hopened := openedFor_of_enterKind hk he
  obtain ⟨c, -, rfl⟩ := enterKind_ok he
  refine ⟨hopened, ?_, h.ownsBraces⟩
  show f.childLevels style = _
  rw [childLevels, h.levels_eq, h.extraLevels hm, Tree.levelSum, Int.mul_add, Int.add_comm]
  rfl

end Frame

namespace IndentCheck

variable {files : FileSystem} {unit : TranslationUnit} {style : IndentStyle} {checked : Node → Bool}
  {p : Node → Bool} {root t : Tree} {above : List Tree} {c c' : IndentCheck}

/-- The children in front of `t` that were let through were looked at, so the mark of the frame
around them tells whether one of them is an access label. -/
theorem markTells_of_looked {a : Tree} {f : Frame} {outer : List Frame} {es : List Event}
    {before after : List Tree} (ha : a.Distinct) (hsplit : a.children = before ++ t :: after)
    (hck : ∀ d ∈ a.children, checked d.node = true → p d.node = true) (hf : f.marked = false)
    (hl : Looked files unit c f outer es c'
      ((Tree.pick a.node.isRangeLoop (t :: after) before).any fun d =>
        p d.node && d.node.isAccessLabel)
      ((Tree.pick a.node.isRangeLoop (t :: after) before).flatMap (Tree.lookedAt p)))
    (hlog : ∀ o ∈ c.openings files unit es, checked o.tree.node = true) :
    (f.markIf ((Tree.pick a.node.isRangeLoop (t :: after) before).any fun d =>
      p d.node && d.node.isAccessLabel)).MarkTells checked t (a :: above) := by
  intro hr
  rw [hr, Tree.pick_false] at hl ⊢
  rw [Tree.labelledBefore_eq ha hsplit, Frame.markIf, hf, Bool.false_or]
  have heq : ∀ d ∈ before, (p d.node && d.node.isAccessLabel) =
      (d.node.isAccessLabel && checked d.node) := by
    intro d hd
    have hchild : d ∈ a.children := by
      rw [hsplit]
      exact List.mem_append_left _ hd
    cases hp : p d.node with
    | true =>
      have hmem : d ∈ (c.openings files unit es).map (·.tree) := by
        rw [hl.trees, List.mem_flatMap]
        exact ⟨d, hd, by rw [Tree.lookedAt_of_pos hp]; exact List.mem_cons_self⟩
      obtain ⟨o, ho, rfl⟩ := List.mem_map.mp hmem
      rw [hlog o ho, Bool.true_and, Bool.and_true]
    | false =>
      have hno : checked d.node = false := by
        rw [← Bool.not_eq_true]
        intro hc
        rw [hck d hchild hc] at hp
        cases hp
      rw [hno, Bool.false_and, Bool.and_false]
  rw [Bool.eq_iff_iff, List.any_eq_true, List.any_eq_true]
  exact exists_congr fun d => and_congr_right fun hd => by rw [heq d hd]

/-- Behind the first children of a tree, the check is stopped at the tree or has a frame for it that
tells where the next child belongs. -/
theorem tells_before_child {f : Frame} {outer : List Frame} {x : Tree} {before after : List Tree}
    (ht : t.Distinct) (hck : ∀ d ∈ t.children, checked d.node = true → p d.node = true)
    (hst : c.style = style) (hs : c.stopped = none) (hf : c.frames = f :: outer)
    (htells : f.Tells style checked above) (hmark : f.MarkTells checked t above)
    (hcs : t.children = before ++ x :: after)
    (h : (c.follow files unit (.enter t :: before.flatMap (Tree.tour p))).outcome = .ok c')
    (hlog : ∀ o ∈ c.openings files unit (.enter t :: before.flatMap (Tree.tour p)),
      checked o.tree.node = true) :
    c'.stopped = some t.node ∨ c'.style = style ∧ c'.stopped = none ∧
      ∃ g outer, c'.frames = g :: outer ∧ g.Tells style checked (t :: above) ∧
        g.MarkTells checked x (t :: above) := by
  rw [follow_cons, Report.bind_outcome_eq_ok] at h
  obtain ⟨c₁, h1, h2⟩ := h
  rw [openings_cons h1] at hlog
  have hbefore : ∀ d ∈ before, d ∈ t.children := by
    intro d hd
    rw [hcs]
    exact List.mem_append_left _ hd
  obtain ⟨op, ho, rfl⟩ | ⟨ho, rfl⟩ := step_enter_ok h1
  · right
    obtain ⟨-, -, hfr, -, k, hk, he⟩ := opening?_eq_some ho
    rw [hf, List.cons.injEq] at hfr
    rw [hst, ← hfr.1] at he
    have hfresh : op.frame.marked = false := by
      obtain ⟨_, -, heq⟩ := Frame.enterKind_ok he
      rw [heq]
      rfl
    have hl := looked_of_children (c := c.push op) [] before (x :: after) hcs
      (Frame.openedFor_of_enterKind hk he) ht hs
      (fun d hd => follow_tour d (ht.child (hbefore d hd))) rfl h2
    have hlog₂ : ∀ o ∈ (c.push op).openings files unit (before.flatMap (Tree.tour p)),
        checked o.tree.node = true := fun o ho => hlog o (List.mem_append_right _ ho)
    rw [hl.state]
    exact ⟨hst, hs, _, _, rfl, (htells.enter hmark hk he).markIf _,
      markTells_of_looked ht hcs hck hfresh hl hlog₂⟩
  · left
    rw [hs, Option.none_or] at h2
    rw [(follow_waiting rfl (ht.spares hbefore) h2).1]

/-- Wherever a tree is entered on a tour and the check goes on, its innermost frame tells where the
tree belongs. -/
theorem tells_on_tour (hr : root.Distinct)
    (hck : ∀ a ∈ root.preorder, checked a.node = true → p a.node = true) (t : Tree) :
    ∀ {above : List Tree} {c c₁ : IndentCheck} {f : Frame} {outer : List Frame}
      {es more : List Event} {d : Tree},
      root.Lineage (t :: above) → c.style = style → c.stopped = none → c.frames = f :: outer →
      f.Tells style checked above → f.MarkTells checked t above →
      t.tour p = es ++ .enter d :: more → (c.follow files unit es).outcome = .ok c₁ →
      (∀ o ∈ c.openings files unit es, checked o.tree.node = true) → c₁.stopped = none →
      c₁.style = style ∧ ∃ g outer, c₁.frames = g :: outer ∧
        g.Tells style checked (es.foldl Event.after above) ∧
        g.MarkTells checked d (es.foldl Event.after above) := by
  induction t using Tree.children_induction with
  | mk n cs ih =>
    intro above c c₁ f outer es more d hl hst hs hf htells hmark hsplit hfol hlog hgoing
    obtain ⟨rfl, rfl⟩ | ⟨before, x, after, es, more, hcs, rfl, hx⟩ := Tree.tour_split hsplit
    · cases hfol
      exact ⟨hst, f, outer, hf, htells, hmark⟩
    · have ht := hl.distinct hr _ List.mem_cons_self
      rw [Tree.children_mk] at hcs
      have hxmem : x ∈ cs := by
        rw [hcs]
        exact List.mem_append_right _ List.mem_cons_self
      rw [← List.cons_append, follow_append, Report.bind_outcome_eq_ok] at hfol
      obtain ⟨c₂, h1, h2⟩ := hfol
      rw [← List.cons_append, openings_append _ h1] at hlog
      have hbelow := tells_before_child ht
        (fun d hd => hck d (Tree.mem_preorder_of_child hd hl.mem_preorder)) hst hs hf htells hmark
        hcs h1 fun o ho => hlog o (List.mem_append_left _ ho)
      obtain hstop | ⟨hst₂, hs₂, g, outer₂, hf₂, htells₂, hmark₂⟩ := hbelow
      · -- a check that stopped at a tree is still stopped below it
        have hspare : ∀ e ∈ es, e.Spares n := by
          intro e he
          have hmem : e ∈ x.tour p := by
            rw [hx]
            exact List.mem_append_left _ he
          exact Tree.spares_of_mem_tour
            (fun a ha => ht.below (List.mem_flatMap.mpr ⟨x, hxmem, ha⟩)) hmem
        rw [(follow_waiting hstop hspare h2).1, hstop] at hgoing
        cases hgoing
      · have hx₂ := ih x hxmem (.child hl hxmem) hst₂ hs₂ hf₂ htells₂ hmark₂ hx h2
          (fun o ho => hlog o (List.mem_append_right _ ho)) hgoing
        have hopen : (before.flatMap (Tree.tour p)).foldl Event.after (.mk n cs :: above) =
            .mk n cs :: above := by
          have hord : ∀ d ∈ before, Event.Orderly root (.mk n cs :: above) (d.tour p) ∧
              (d.tour p).foldl Event.after (.mk n cs :: above) = .mk n cs :: above := by
            intro d hd
            refine Event.tour_orderly d (.child hl ?_)
            rw [Tree.children_mk, hcs]
            exact List.mem_append_left _ hd
          exact (Event.tours_orderly hord).2
        rw [List.foldl_cons, List.foldl_append, Event.after_enter, hopen]
        exact hx₂

/-- What is opened on a tour through a tree stands in the level that its lineage adds up to. -/
theorem levels_on_tour (hr : root.Distinct)
    (hck : ∀ a ∈ root.preorder, checked a.node = true → p a.node = true) (t : Tree)
    {above : List Tree} {c c₁ : IndentCheck} {f : Frame} {outer : List Frame}
    {es more : List Event} {d : Tree} {op : Opening} (hl : root.Lineage (t :: above))
    (hst : c.style = style) (hs : c.stopped = none) (hf : c.frames = f :: outer)
    (htells : f.Tells style checked above) (hmark : f.MarkTells checked t above)
    (hsplit : t.tour p = es ++ .enter d :: more) (hfol : (c.follow files unit es).outcome = .ok c₁)
    (hlog : ∀ o ∈ c.openings files unit es, checked o.tree.node = true)
    (hop : c₁.opening? d = .ok (some op)) :
    op.frame.levels = .single
      (style.levelSize * Tree.levelSum style checked (d :: es.foldl Event.after above)) := by
  obtain ⟨hgoing, -, hfr, -, k, hk, he⟩ := opening?_eq_some hop
  obtain ⟨hst₁, g, outer₁, hf₁, htells₁, hmark₁⟩ :=
    tells_on_tour hr hck t hl hst hs hf htells hmark hsplit hfol hlog hgoing
  rw [hf₁, List.cons.injEq] at hfr
  rw [hst₁, ← hfr.1] at he
  exact (htells₁.enter hmark₁ hk he).levels_eq

theorem enter_mem_of_mem_openings {es : List Event} {op : Opening} : ∀ {c : IndentCheck},
    op ∈ c.openings files unit es → .enter op.tree ∈ es := by
  induction es with
  | nil => nofun
  | cons e es ih =>
    intro c h
    rw [openings, List.mem_append] at h
    rcases h with h | h
    · cases e with
      | enter t =>
        rw [opened] at h
        split at h
        · next ho =>
          cases List.mem_singleton.mp h
          rw [(opening?_eq_some ho).2.1]
          exact List.mem_cons_self
        · cases h
      | _ => cases h
    · split at h
      · exact List.mem_cons_of_mem e (ih h)
      · cases h

/-- Where a frame is opened on a walk, its levels are the one column that the lineage of its tree
adds up to. An access label counts as checked if a frame was opened for it before. -/
theorem levels_eq_levelSum {checks : List TreeAudit} {i : Nat} {vs : ViolationSet}
    (hi : checks[i]? = some ⟨.indent (.ofStyle style), vs⟩)
    (files : FileSystem) (u : TranslationUnit) (hu : u.root.Distinct) (dirs : List String)
    {done rest : List Visit} {t : Tree} {op : Opening}
    (hsplit : (u.visits (.ofDirs dirs)).1 = done ++ .event (.enter t) :: rest)
    (hc : Walk.Inside files u dirs checks i done c) (hop : c.opening? t = .ok (some op)) :
    let lineage := t :: Event.openTrees (Visit.events done)
    let opened := (ofStyle style).openings files u (Visit.events done)
    let checked := fun n => opened.any (·.tree.node.same n)
    u.root.Lineage lineage ∧
      op.frame.levels = .single (style.levelSize * Tree.levelSum style checked lineage) := by
  intro lineage opened checked
  obtain ⟨es, -, hes, -, hfol⟩ := hc.follow hi
  obtain ⟨es', hes', ⟨hfin, -⟩ | ⟨more, htour⟩⟩ := TranslationUnit.event_next hsplit hc.begun
  · cases hfin
  rw [hes, List.cons.injEq] at hes'
  rw [← hes'.2] at htour
  have hstart : (step files u (ofStyle style) (.start u.root)).outcome =
      .ok { ofStyle style with frames := [.root] } := rfl
  have hopened : opened = openings files u { ofStyle style with frames := [.root] } es := by
    show openings _ _ _ (Visit.events done) = _
    rw [hes, openings_cons hstart]
    rfl
  have hlineage : lineage = t :: es.foldl Event.after [] := by
    show t :: Event.openTrees (Visit.events done) = _
    rw [hes]
    rfl
  have ho := (Event.tour_orderly (p := VisitFilter.letsThrough dirs) u.root .top).1
  rw [htour, Event.orderly_append] at ho
  have hck : ∀ a ∈ u.root.preorder, checked a.node = true →
      VisitFilter.letsThrough dirs a.node = true := by
    intro a ha hca
    obtain ⟨o, ho, hsame⟩ := List.any_eq_true.mp hca
    rw [hopened] at ho
    have hmem : .enter o.tree ∈ u.root.tour (VisitFilter.letsThrough dirs) := by
      rw [htour]
      exact List.mem_append_left _ (enter_mem_of_mem_openings ho)
    obtain ⟨b, hb, hp, hob | hob⟩ := Tree.mem_tour hmem
    · cases hob
      rw [← hu.eq_of_same hb ha hsame]
      exact hp
    · cases hob
  rw [hlineage]
  refine ⟨ho.2.1, ?_⟩
  rw [follow_start] at hfol
  refine levels_on_tour hu hck u.root .top rfl rfl (show _ = Frame.root :: [] from rfl)
    ⟨false, rfl⟩ trivial htour hfol ?_ hop
  intro o hmem
  refine List.any_eq_true.mpr ⟨o, ?_, Node.same_self _⟩
  rw [hopened]
  exact hmem

/-- The field behind an access label stands two levels further in than its class. -/
theorem levels_eq_levelSum_in_class :
    ∃ done rest c t op,
      (TranslationUnit.classAndLoop.visits (.ofDirs ["/"])).1 =
        done ++ .event (.enter t) :: rest ∧
      Walk.Inside .oneLine .classAndLoop ["/"] [.ofCheck (.indent (.ofStyle .standard))] 0 done c ∧
      c.opening? t = .ok (some op) ∧ t.node.kind = .ok .fieldDecl ∧
      op.frame.levels = .single (IndentStyle.standard.levelSize * 2) := by
  let visits := (TranslationUnit.classAndLoop.visits (.ofDirs ["/"])).1
  let field : Tree := .mk { Node.atStart .fieldDecl with id := 3 } []
  have hsplit : visits = visits.take 9 ++ .event (.enter field) :: visits.drop 10 := rfl
  obtain ⟨c, hc, hq⟩ := Walk.Inside.of_any .oneLine [.ofCheck (.indent (.ofStyle .standard))] 0
    (fun c => !(c.opened (.enter field)).isEmpty) hsplit
    (by decide +kernel) (by decide +kernel) (by decide +kernel)
  obtain ⟨op, hop⟩ : ∃ op, c.opening? field = .ok (some op) := by
    rw [opened] at hq
    split at hq
    · next op hop => exact ⟨op, hop⟩
    · cases hq
  obtain ⟨-, h⟩ := levels_eq_levelSum (i := 0) rfl .oneLine .classAndLoop
    (Tree.number_distinct _) ["/"] hsplit hc hop
  refine ⟨_, _, c, field, op, hsplit, hc, hop, rfl, ?_⟩
  rw [h]
  rfl

end IndentCheck

end StyleCheck
