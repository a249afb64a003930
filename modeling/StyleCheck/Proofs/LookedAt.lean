import StyleCheck.Proofs.FrameStack

/-!
# What is looked at

`Tree.lookedAt` is a plain recursion: a tree that is let through is looked at, and then its parts
are. All children of a tree are parts of it, but of a loop over a range the last child alone is.
A check that stops and goes on with the events of a walk looks at the same trees in the same order
(`IndentCheck.follow_tour`).
-/

namespace StyleCheck

def Node.isRangeLoop (n : Node) : Bool :=
  match n.kind with
  | .ok .cxxForRangeStmt => true
  | _ => false

def Node.isAccessLabel (n : Node) : Bool :=
  match n.kind with
  | .ok .cxxAccessSpecDecl => true
  | _ => false

theorem Node.isRangeLoop_iff {n : Node} : n.isRangeLoop = true ↔ n.kind = .ok .cxxForRangeStmt := by
  unfold isRangeLoop
  split <;> simp_all

theorem Node.isRangeLoop_eq_false {n : Node} {k : Kind} (hk : n.kind = .ok k)
    (h : k ≠ .cxxForRangeStmt) : n.isRangeLoop = false := by
  rw [← Bool.not_eq_true, isRangeLoop_iff, hk]
  simpa using h

theorem Node.isAccessLabel_iff {n : Node} :
    n.isAccessLabel = true ↔ n.kind = .ok .cxxAccessSpecDecl := by
  unfold isAccessLabel
  split <;> simp_all

namespace Kind

theorem form_eq_rangeLoop (k : Kind) : k.form = .rangeLoop ↔ k = .cxxForRangeStmt := by
  cases k <;> decide

theorem form_eq_accessLabel (k : Kind) : k.form = .accessLabel ↔ k = .cxxAccessSpecDecl := by
  cases k <;> decide

theorem form_eq_doLoop (k : Kind) : k.form = .doLoop ↔ k = .doStmt := by
  cases k <;> decide

end Kind

namespace Tree

/-- The children of a tree that are looked at if they are let through. -/
def parts (t : Tree) : List Tree :=
  if t.node.isRangeLoop then t.children.getLast?.toList else t.children

/-- Those of the children in front of `rest` that are parts: all, or the last child alone. -/
def pick (lastOnly : Bool) (rest : List Tree) : List Tree → List Tree
  | [] => []
  | t :: ts =>
    (if lastOnly && !(ts ++ rest).isEmpty then [] else [t]) ++ pick lastOnly rest ts

mutual

/-- The trees that are looked at, in preorder, where `p` lets nodes through or not. -/
def lookedAt (p : Node → Bool) : Tree → List Tree
  | mk n cs => if p n then mk n cs :: lookedAtAll p n.isRangeLoop cs else []

def lookedAtAll (p : Node → Bool) (lastOnly : Bool) : List Tree → List Tree
  | [] => []
  | t :: ts =>
    (if lastOnly && !ts.isEmpty then [] else t.lookedAt p) ++ lookedAtAll p lastOnly ts

end

theorem pick_false (rest ts : List Tree) : pick false rest ts = ts := by
  induction ts with
  | nil => rfl
  | cons t ts ih => rw [pick, ih]; rfl

theorem parts_eq_pick (t : Tree) : t.parts = pick t.node.isRangeLoop [] t.children := by
  have hlast : ∀ ts : List Tree, pick true [] ts = ts.getLast?.toList := by
    intro ts
    induction ts with
    | nil => rfl
    | cons t ts ih =>
      rw [pick, ih]
      cases ts <;> simp
  unfold parts
  cases t.node.isRangeLoop with
  | false => rw [pick_false]; rfl
  | true => rw [hlast]; rfl

theorem lookedAtAll_eq (p : Node → Bool) (lastOnly : Bool) (ts : List Tree) :
    lookedAtAll p lastOnly ts = (pick lastOnly [] ts).flatMap (lookedAt p) := by
  induction ts with
  | nil => rfl
  | cons t ts ih =>
    rw [lookedAtAll, ih, pick, List.flatMap_append, List.append_nil]
    split <;> simp

theorem lookedAt_of_pos {p : Node → Bool} {t : Tree} (h : p t.node = true) :
    t.lookedAt p = t :: t.parts.flatMap (lookedAt p) := by
  cases t with
  | mk n cs =>
    rw [node_mk] at h
    rw [lookedAt, if_pos h, lookedAtAll_eq, parts_eq_pick]
    rfl

theorem lookedAt_of_neg {p : Node → Bool} {t : Tree} (h : p t.node = false) :
    t.lookedAt p = [] := by
  cases t with
  | mk n cs =>
    rw [node_mk] at h
    rw [lookedAt, if_neg (by simpa using h)]

theorem parts_sublist (t : Tree) : t.parts.Sublist t.children := by
  unfold parts
  split
  · cases h : t.children.getLast? with
    | none => exact List.nil_sublist _
    | some c => exact List.singleton_sublist.mpr (List.mem_of_getLast? h)
  · exact List.Sublist.refl _

theorem mem_parts {t c : Tree} :
    c ∈ t.parts ↔ c ∈ t.children ∧ (t.node.kind = .ok .cxxForRangeStmt →
      t.children.getLast? = some c) := by
  rw [← Node.isRangeLoop_iff]
  unfold parts
  cases t.node.isRangeLoop with
  | false => simp
  | true =>
    simp only [if_true, Option.mem_toList, forall_const]
    exact ⟨fun h => ⟨List.mem_of_getLast? h, h⟩, fun h => h.2⟩

variable {p : Node → Bool} {root t : Tree}

/-- What is looked at comes in preorder. -/
theorem lookedAt_sublist (t : Tree) : (t.lookedAt p).Sublist t.preorder := by
  induction t using children_induction with
  | mk n cs ih =>
    cases h : p n with
    | false => rw [lookedAt_of_neg h]; exact List.nil_sublist _
    | true =>
      rw [lookedAt_of_pos h, preorder_eq]
      refine List.Sublist.cons_cons _ ?_
      have hall : ∀ {ts us : List Tree}, ts.Sublist us →
          (∀ c ∈ us, (c.lookedAt p).Sublist c.preorder) →
          (ts.flatMap (lookedAt p)).Sublist (us.flatMap preorder) := by
        intro ts us hsub hus
        induction hsub with
        | slnil => exact List.Sublist.refl _
        | cons c _ ihs =>
          exact (ihs fun d hd => hus d (List.mem_cons_of_mem c hd)).trans
            (List.sublist_append_right _ _)
        | cons_cons c _ ihs =>
          exact (hus c List.mem_cons_self).append
            (ihs fun d hd => hus d (List.mem_cons_of_mem c hd))
      exact hall (parts_sublist (mk n cs)) ih

theorem mem_lookedAt_of_part {a c : Tree} (hc : c ∈ a.parts) (hp : p c.node = true) :
    a ∈ t.lookedAt p → c ∈ t.lookedAt p := by
  induction t using children_induction with
  | mk n cs ih =>
    intro ha
    cases h : p n with
    | false => rw [lookedAt_of_neg h] at ha; cases ha
    | true =>
      rw [lookedAt_of_pos h, List.mem_cons, List.mem_flatMap] at ha ⊢
      right
      rcases ha with rfl | ⟨d, hd, had⟩
      · exact ⟨c, hc, by rw [lookedAt_of_pos hp]; exact List.mem_cons_self⟩
      · exact ⟨d, hd, ih d ((parts_sublist (mk n cs)).subset hd) had⟩

/-- A lineage on which every tree is let through and is a part of the one above it. -/
structure Clear (p : Node → Bool) (l : List Tree) : Prop where
  allowed : ∀ a ∈ l, p a.node = true
  parted : l.IsChain fun c a => a.node.kind = .ok .cxxForRangeStmt → a.children.getLast? = some c

theorem mem_lookedAt_of_clear {above : List Tree} (hl : root.Lineage (t :: above)) :
    Clear p (t :: above) → t ∈ root.lookedAt p := by
  intro h
  induction above generalizing t with
  | nil =>
    cases hl
    rw [lookedAt_of_pos (h.allowed root List.mem_cons_self)]
    exact List.mem_cons_self
  | cons a above ih =>
    obtain ⟨hlast, htail⟩ := List.isChain_cons_cons.mp h.parted
    have ha := ih hl.tail ⟨fun b hb => h.allowed b (List.mem_cons_of_mem t hb), htail⟩
    exact mem_lookedAt_of_part (mem_parts.mpr ⟨hl.mem_children, hlast⟩)
      (h.allowed t List.mem_cons_self) ha

theorem clear_of_mem_lookedAt (s : Tree) : ∀ {above : List Tree}, root.Lineage (s :: above) →
    (p s.node = true → Clear p (s :: above)) → t ∈ s.lookedAt p →
    ∃ above, root.Lineage (t :: above) ∧ Clear p (t :: above) := by
  induction s using children_induction with
  | mk n cs ih =>
    intro above hl hc ht
    cases h : p n with
    | false => rw [lookedAt_of_neg h] at ht; cases ht
    | true =>
      have hclear := hc h
      rw [lookedAt_of_pos h, List.mem_cons, List.mem_flatMap] at ht
      rcases ht with rfl | ⟨d, hd, htd⟩
      · exact ⟨above, hl, hclear⟩
      · obtain ⟨hmem, hlast⟩ := mem_parts.mp hd
        refine ih d hmem (.child hl hmem) (fun hp => ⟨?_, ?_⟩) htd
        · intro b hb
          rcases List.mem_cons.mp hb with rfl | hb
          · exact hp
          · exact hclear.allowed b hb
        · exact List.isChain_cons_cons.mpr ⟨hlast, hclear.parted⟩

/-- A tree is looked at if every tree on the way to it is let through and is a part. -/
theorem mem_lookedAt :
    t ∈ root.lookedAt p ↔ ∃ above, root.Lineage (t :: above) ∧ Clear p (t :: above) := by
  constructor
  · refine clear_of_mem_lookedAt root .top fun hp => ⟨?_, .singleton _⟩
    intro a ha
    rw [List.mem_singleton.mp ha]
    exact hp
  · rintro ⟨above, hl, hc⟩
    exact mem_lookedAt_of_clear hl hc

end Tree

/-- A tour leaves nothing but what is in its tree. -/
theorem Tree.spares_of_mem_tour {p : Node → Bool} {n : Node} {t : Tree} {e : Event}
    (h : ∀ a ∈ t.preorder, n.same a.node = false) (he : e ∈ t.tour p) : e.Spares n := by
  obtain ⟨a, ha, -, rfl | rfl⟩ := mem_tour he
  · trivial
  · exact h a ha

/-- The tours through children of a tree do not leave the tree. -/
theorem Tree.Distinct.spares {p : Node → Bool} {t : Tree} (ht : t.Distinct) {ts : List Tree}
    (hts : ∀ d ∈ ts, d ∈ t.children) : ∀ e ∈ ts.flatMap (tour p), e.Spares t.node := by
  intro e he
  obtain ⟨d, hd, he⟩ := List.mem_flatMap.mp he
  exact spares_of_mem_tour
    (fun a ha => ht.below (List.mem_flatMap.mpr ⟨d, hts d hd, ha⟩)) he

/-! ## What a check looks at -/

/-- Marks a frame, or leaves it as it is. -/
def Frame.markIf (f : Frame) (b : Bool) : Frame := { f with marked := f.marked || b }

@[simp] theorem Frame.markIf_false (f : Frame) : f.markIf false = f := by simp [markIf]

theorem Frame.markIf_markIf (f : Frame) (b b' : Bool) :
    (f.markIf b).markIf b' = f.markIf (b || b') := by simp [markIf, Bool.or_assoc]

/-- A frame that was opened for a tree. -/
structure Frame.OpenedFor (f : Frame) (t : Tree) : Prop where
  tree_eq : f.tree = some t
  form_eq : ∃ k, t.node.kind = .ok k ∧ f.construct.form = k.form

namespace Frame

variable {style : IndentStyle} {f g : Frame} {t : Tree}

theorem openedFor_of_enterKind {k : Kind} (hk : t.node.kind = .ok k)
    (h : g.enterKind style k (some t) = .ok f) : f.OpenedFor t := by
  obtain ⟨c, hc, rfl⟩ := enterKind_ok h
  refine ⟨rfl, k, hk, ?_⟩
  unfold Construct.ofKind at hc
  split at hc <;> cases hc
  rfl

theorem OpenedFor.markIf (h : f.OpenedFor t) (b : Bool) : (f.markIf b).OpenedFor t :=
  ⟨h.tree_eq, h.form_eq⟩

/-- The frame of a tree lets its parts through. -/
theorem OpenedFor.allows (h : f.OpenedFor t) (ht : t.Distinct) {before after : List Tree} {d : Tree}
    (hsplit : t.children = before ++ d :: after) :
    f.allows d.node = .ok (!(t.node.isRangeLoop && !after.isEmpty)) := by
  obtain ⟨k, hk, hform⟩ := h.form_eq
  unfold Frame.allows
  by_cases hr : k = .cxxForRangeStmt
  · have hloop : t.node.isRangeLoop = true := Node.isRangeLoop_iff.mpr (hr ▸ hk)
    rw [hform, (Kind.form_eq_rangeLoop k).mpr hr, h.tree_eq, hloop]
    cases hlast : after.getLast? with
    | none =>
      rw [List.getLast?_eq_none_iff] at hlast
      subst hlast
      simp [Tree.lastChild?, hsplit]
    | some last =>
      have hmem := List.mem_of_getLast? hlast
      have hne : after.isEmpty = false := by
        cases after with
        | nil => cases hmem
        | cons _ _ => rfl
      have hsib := ht.siblings
      rw [hsplit, List.pairwise_append] at hsib
      have hds := (List.pairwise_cons.mp hsib.2.1).1 last hmem d d.self_mem_preorder last
        last.self_mem_preorder
      have hgl : (before ++ d :: after).getLast? = some last := by
        rw [List.getLast?_append, List.getLast?_cons, hlast]
        rfl
      simp [Tree.lastChild?, hsplit, hgl, hds, hne]
  · have hloop := Node.isRangeLoop_eq_false hk hr
    have hne : k.form ≠ .rangeLoop := fun he => hr ((Kind.form_eq_rangeLoop k).mp he)
    rw [hform, hloop]
    split
    · next he => exact absurd he hne
    · rfl

theorem OpenedFor.mem_parts (h : f.OpenedFor t) (ht : t.Distinct) {d : Tree} (hd : d ∈ t.children)
    (ha : f.allows d.node = .ok true) : d ∈ t.parts := by
  obtain ⟨before, after, hsplit⟩ := List.append_of_mem hd
  rw [h.allows ht hsplit] at ha
  refine Tree.mem_parts.mpr ⟨hd, fun hk => ?_⟩
  rw [Node.isRangeLoop_iff.mpr hk] at ha
  cases after with
  | nil => rw [hsplit, List.getLast?_concat]
  | cons x after => cases ha

/-- The innermost frame of a check that goes on is that of the innermost open tree. -/
theorem openedFor_of_balanced {c : IndentCheck} {outer : List Frame} {above : List Tree}
    (h : c.Balanced style (t :: above)) (hs : c.stopped = none) (hf : c.frames = f :: outer) :
    f.OpenedFor t := by
  have hgoing := h.going hs
  have hnested := h.nested
  rw [hf] at hgoing hnested
  cases outer with
  | nil => cases hgoing
  | cons g outer =>
    rw [List.dropLast_cons_cons, List.map_cons, List.map_cons, List.cons.injEq] at hgoing
    obtain ⟨⟨a, k, m, hk, he⟩, -⟩ := List.isChain_cons_cons.mp hnested
    have hopened := openedFor_of_enterKind hk he
    have hat : some a = some t := hopened.tree_eq.symm.trans hgoing.1
    cases hat
    exact ⟨hgoing.1, hopened.form_eq⟩

end Frame

/-- What is reported of an opening. -/
def Opening.findings (files : FileSystem) (unit : TranslationUnit) (style : IndentStyle)
    (op : Opening) : List Violation :=
  (Scene.check ⟨files, unit, style⟩ op.parent op.frame op.tree).notes

namespace IndentCheck

/-- The opening that an event makes, if it makes one. -/
def opened (c : IndentCheck) : Event → List Opening
  | .enter t =>
    match c.opening? t with
    | .ok (some op) => [op]
    | _ => []
  | _ => []

/-- The openings made while events are followed, up to the first fault. -/
def openings (files : FileSystem) (unit : TranslationUnit) : IndentCheck → List Event → List Opening
  | _, [] => []
  | c, e :: es =>
    c.opened e ++
      match (c.step files unit e).outcome with
      | .ok c' => openings files unit c' es
      | .error _ => []

variable {files : FileSystem} {unit : TranslationUnit} {c c' : IndentCheck} {t : Tree}
  {p : Node → Bool}

theorem opened_enter {op : Opening} (h : c.opening? t = .ok (some op)) :
    c.opened (.enter t) = [op] := by rw [opened, h]

theorem opened_eq_nil (h : c.opening? t = .ok none) : c.opened (.enter t) = [] := by
  rw [opened, h]

theorem openings_cons {e : Event} (h : (c.step files unit e).outcome = .ok c') (es : List Event) :
    c.openings files unit (e :: es) = c.opened e ++ c'.openings files unit es := by
  rw [openings, h]

theorem openings_append {es : List Event} (fs : List Event) : ∀ {c : IndentCheck},
    (c.follow files unit es).outcome = .ok c' →
    c.openings files unit (es ++ fs) = c.openings files unit es ++ c'.openings files unit fs := by
  induction es with
  | nil =>
    intro c h
    cases h
    rfl
  | cons e es ih =>
    intro c h
    rw [follow_cons, Report.bind_outcome_eq_ok] at h
    obtain ⟨d, h1, h2⟩ := h
    rw [List.cons_append, openings_cons h1, openings_cons h1, ih h2, List.append_assoc]

/-- A check that stopped opens nothing until the walk leaves the tree that it stopped at. -/
theorem openings_waiting {n : Node} (hs : c.stopped = some n) {es : List Event}
    (hes : ∀ e ∈ es, e.Spares n) (h : (c.follow files unit es).outcome = .ok c') :
    c.openings files unit es = [] := by
  induction es with
  | nil => rfl
  | cons e es ih =>
    rw [follow_cons] at h
    obtain ⟨d, hd, -⟩ := Report.bind_outcome_eq_ok.mp h
    have hstep := step_waiting hs (hes e List.mem_cons_self) hd
    rw [hstep, pure_bind] at h
    have hok : (c.step files unit e).outcome = .ok c := by rw [hstep]; rfl
    rw [openings_cons hok,
      ih (fun x hx => hes x (List.mem_cons_of_mem e hx)) h, List.append_nil]
    cases e with
    | enter t =>
      rw [opened]
      split
      · next op ho =>
        rw [(opening?_eq_some ho).1] at hs
        cases hs
      · rfl
    | _ => rfl

/-- What following events did to a check whose innermost frame is `f`: it is marked if `marks`,
the trees `looked` were looked at, and only what was found there was reported. -/
structure Looked (files : FileSystem) (unit : TranslationUnit) (c : IndentCheck) (f : Frame)
    (outer : List Frame) (es : List Event) (c' : IndentCheck) (marks : Bool) (looked : List Tree) :
    Prop where
  state : c' = { c with frames := f.markIf marks :: outer }
  trees : (c.openings files unit es).map (·.tree) = looked
  notes : (c.follow files unit es).notes =
    (c.openings files unit es).flatMap (·.findings files unit c.style)

variable {f : Frame} {outer : List Frame}

theorem Looked.nil (hf : c.frames = f :: outer) : Looked files unit c f outer [] c false [] := by
  refine ⟨?_, rfl, rfl⟩
  rw [Frame.markIf_false, ← hf]

theorem Looked.append {es fs : List Event} {c₁ c₂ : IndentCheck} {m₁ m₂ : Bool}
    {ts us : List Tree} (hes : (c.follow files unit es).outcome = .ok c₁)
    (h₁ : Looked files unit c f outer es c₁ m₁ ts)
    (h₂ : Looked files unit c₁ (f.markIf m₁) outer fs c₂ m₂ us) :
    Looked files unit c f outer (es ++ fs) c₂ (m₁ || m₂) (ts ++ us) := by
  have hstyle : c₁.style = c.style := by rw [h₁.state]
  refine ⟨?_, ?_, ?_⟩
  · rw [h₂.state, h₁.state, Frame.markIf_markIf]
  · rw [openings_append fs hes, List.map_append, h₁.trees, h₂.trees]
  · rw [follow_append, Report.bind_notes_of_ok hes, openings_append fs hes, List.flatMap_append,
      h₁.notes, h₂.notes, hstyle]

theorem step_leave_notes (c : IndentCheck) (t : Tree) :
    (c.step files unit (.leave t)).notes = [] := by
  rw [step]
  split <;> rfl

/-- A tour through a tree that is let through enters it, goes through its children, and leaves. -/
theorem tour_steps (hp : p t.node = true) (h : (c.follow files unit (t.tour p)).outcome = .ok c') :
    ∃ c₁ c₂, (c.step files unit (.enter t)).outcome = .ok c₁ ∧
      (c₁.follow files unit (t.children.flatMap (Tree.tour p))).outcome = .ok c₂ ∧
      (c₂.step files unit (.leave t)).outcome = .ok c' ∧
      (c.follow files unit (t.tour p)).notes = (c.step files unit (.enter t)).notes ++
        (c₁.follow files unit (t.children.flatMap (Tree.tour p))).notes ∧
      c.openings files unit (t.tour p) = c.opened (.enter t) ++
        c₁.openings files unit (t.children.flatMap (Tree.tour p)) := by
  rw [Tree.tour_of_pos hp] at h ⊢
  rw [follow_cons, Report.bind_outcome_eq_ok] at h
  obtain ⟨c₁, h1, h⟩ := h
  rw [follow_append, Report.bind_outcome_eq_ok] at h
  obtain ⟨c₂, h2, h3⟩ := h
  rw [follow_singleton] at h3
  refine ⟨c₁, c₂, h1, h2, h3, ?_, ?_⟩
  · rw [follow_cons, Report.bind_notes_of_ok h1, follow_append, Report.bind_notes_of_ok h2,
      follow_singleton, step_leave_notes, List.append_nil]
  · have hlast : c₂.openings files unit [.leave t] = [] := by
      rw [openings_cons h3]
      rfl
    rw [openings_cons h1, openings_append _ h2, hlast, List.append_nil]

/-- A tour that the frame does not let through leaves no trace. -/
theorem looked_of_refused (ht : t.Distinct) (hs : c.stopped = none) (hf : c.frames = f :: outer)
    (ha : f.allows t.node = .ok false) (hp : p t.node = true)
    (h : (c.follow files unit (t.tour p)).outcome = .ok c') :
    Looked files unit c f outer (t.tour p) c' false [] := by
  obtain ⟨c₁, c₂, h1, h2, h3, hnotes, hopen⟩ := tour_steps hp h
  obtain ⟨op, ho, -⟩ | ⟨ho, rfl⟩ := step_enter_ok h1
  · obtain ⟨-, -, hf', ha', -⟩ := opening?_eq_some ho
    rw [hf, List.cons.injEq] at hf'
    rw [← hf'.1, ha] at ha'
    cases ha'
  · rw [hs, Option.none_or] at h2 hnotes hopen
    have hspare : ∀ e ∈ t.children.flatMap (Tree.tour p), e.Spares t.node :=
      ht.spares fun _ hd => hd
    obtain ⟨rfl, hn⟩ := follow_waiting rfl hspare h2
    rw [openings_waiting rfl hspare h2, opened_eq_nil ho] at hopen
    rw [step_leave_same rfl (Node.same_self _)] at h3
    rw [hn, step_enter_of_none ho] at hnotes
    cases h3
    refine ⟨?_, ?_, ?_⟩
    · rw [Frame.markIf_false, ← hf, ← hs]
    · rw [hopen]
      rfl
    · rw [hnotes, hopen]
      rfl

/-- The parts among the next children of a frame's tree are looked at in turn, if this holds of
each of them. -/
theorem looked_of_children (before cs rest : List Tree)
    (hsplit : t.children = before ++ (cs ++ rest)) (hf : f.OpenedFor t) (ht : t.Distinct)
    (hs : c.stopped = none)
    (ih : ∀ d ∈ cs, ∀ {c c' : IndentCheck} {f : Frame} {b : Bool}, c.stopped = none →
      c.frames = f :: outer → f.allows d.node = .ok b →
      (c.follow files unit (d.tour p)).outcome = .ok c' →
      Looked files unit c f outer (d.tour p) c' (b && p d.node && d.node.isAccessLabel)
        (if b then d.lookedAt p else []))
    (hfr : c.frames = f :: outer)
    (h : (c.follow files unit (cs.flatMap (Tree.tour p))).outcome = .ok c') :
    Looked files unit c f outer (cs.flatMap (Tree.tour p)) c'
      ((Tree.pick t.node.isRangeLoop rest cs).any fun d => p d.node && d.node.isAccessLabel)
      ((Tree.pick t.node.isRangeLoop rest cs).flatMap (Tree.lookedAt p)) := by
  induction cs generalizing c f before with
  | nil =>
    cases h
    exact .nil hfr
  | cons d cs ihcs =>
    rw [List.flatMap_cons] at h ⊢
    rw [follow_append, Report.bind_outcome_eq_ok] at h
    obtain ⟨c₁, h1, h2⟩ := h
    have hd := ih d List.mem_cons_self hs hfr (hf.allows ht hsplit) h1
    have hrest := ihcs (before ++ [d]) (by rw [hsplit, List.append_assoc]; rfl) (hf.markIf _)
      (by rw [hd.state]; exact hs) (fun e he => ih e (List.mem_cons_of_mem d he))
      (by rw [hd.state]) h2
    have happ := hd.append h1 hrest
    rw [Tree.pick, List.any_append, List.flatMap_append]
    -- a child of a loop over a range is passed over unless it is the last one
    generalize (t.node.isRangeLoop && !(cs ++ rest).isEmpty) = passed at happ ⊢
    cases passed with
    | false => simpa using happ
    | true => simpa using happ

theorem parentAfter_eq_markIf {op : Opening} (h : c.opening? t = .ok (some op)) :
    op.parentAfter = op.parent.markIf t.node.isAccessLabel := by
  obtain ⟨-, -, -, -, k, hk, he⟩ := opening?_eq_some h
  obtain ⟨k', hk', hform⟩ := (Frame.openedFor_of_enterKind hk he).form_eq
  rw [hk] at hk'
  cases hk'
  unfold Opening.parentAfter
  rw [hform]
  by_cases ha : k = .cxxAccessSpecDecl
  · subst ha
    have hlabel : t.node.isAccessLabel = true := by rw [Node.isAccessLabel, hk]
    rw [if_pos ((Kind.form_eq_accessLabel _).mpr rfl), hlabel, Frame.mark, Frame.markIf,
      Bool.or_true]
  · have hlabel : t.node.isAccessLabel = false := by
      rw [← Bool.not_eq_true, Node.isAccessLabel_iff, hk]
      simpa using ha
    rw [if_neg (fun h => ha ((Kind.form_eq_accessLabel k).mp h)), hlabel, Frame.markIf_false]

theorem step_enter_notes {op : Opening} (h : c.opening? t = .ok (some op))
    (hs : (c.step files unit (.enter t)).outcome = .ok c') :
    (c.step files unit (.enter t)).notes = op.findings files unit c.style := by
  rw [step_enter_of_some h] at hs ⊢
  obtain ⟨_, hc, -⟩ := Report.bind_outcome_eq_ok.mp hs
  rw [Report.bind_notes_of_ok hc, Report.pure_notes, List.append_nil, Opening.findings,
    (opening?_eq_some h).2.1]

theorem looked_of_allowed (hs : c.stopped = none) (hf : c.frames = f :: outer)
    (ha : f.allows t.node = .ok true) (hp : p t.node = true)
    (hchildren : ∀ {c c' : IndentCheck} {g : Frame} {outer : List Frame}, g.OpenedFor t →
      c.stopped = none → c.frames = g :: outer →
      (c.follow files unit (t.children.flatMap (Tree.tour p))).outcome = .ok c' →
      ∃ m, Looked files unit c g outer (t.children.flatMap (Tree.tour p)) c' m
        (t.parts.flatMap (Tree.lookedAt p)))
    (h : (c.follow files unit (t.tour p)).outcome = .ok c') :
    Looked files unit c f outer (t.tour p) c' t.node.isAccessLabel (t.lookedAt p) := by
  obtain ⟨c₁, c₂, h1, h2, h3, hnotes, hopen⟩ := tour_steps hp h
  obtain ⟨op, ho, rfl⟩ | ⟨ho, -⟩ := step_enter_ok h1
  · obtain ⟨-, htree, hfr, -, k, hk, he⟩ := opening?_eq_some ho
    rw [hf, List.cons.injEq] at hfr
    obtain ⟨rfl, rfl⟩ := hfr
    obtain ⟨m, hl⟩ := hchildren (c := c.push op) (Frame.openedFor_of_enterKind hk he) hs rfl h2
    have hs₂ : c₂.stopped = none := by rw [hl.state]; exact hs
    rw [step_leave_going hs₂, hl.state] at h3
    cases h3
    refine ⟨?_, ?_, ?_⟩
    · rw [← parentAfter_eq_markIf ho]
      show { c with frames := op.parentAfter :: op.outer, depth := c.depth + 1 - 1 } = _
      rw [Int.add_sub_cancel]
    · rw [hopen, opened_enter ho, List.map_append, hl.trees, Tree.lookedAt_of_pos hp, ← htree]
      rfl
    · rw [hnotes, hopen, opened_enter ho, List.flatMap_append, step_enter_notes ho h1, hl.notes,
        List.flatMap_singleton]
      rfl
  · obtain hst | ⟨-, parent, outer', hfr, ha'⟩ := opening?_eq_none ho
    · rw [hs] at hst
      cases hst
    · rw [hf, List.cons.injEq] at hfr
      rw [← hfr.1, ha] at ha'
      cases ha'

/-- A tour through a tree looks at it and its parts, and leaves the check as it was, but for the
mark of an access label. -/
theorem follow_tour (t : Tree) : ∀ {c c' : IndentCheck} {f : Frame} {outer : List Frame} {b : Bool},
    t.Distinct → c.stopped = none → c.frames = f :: outer → f.allows t.node = .ok b →
    (c.follow files unit (t.tour p)).outcome = .ok c' →
    Looked files unit c f outer (t.tour p) c' (b && p t.node && t.node.isAccessLabel)
      (if b then t.lookedAt p else []) := by
  induction t using Tree.children_induction with
  | mk n cs ih =>
    intro c c' f outer b ht hs hf ha h
    cases hp : p n with
    | false =>
      rw [Tree.tour_of_neg hp] at h ⊢
      rw [Tree.lookedAt_of_neg hp]
      cases h
      simpa [hp] using Looked.nil hf
    | true =>
      cases b with
      | false => simpa using looked_of_refused ht hs hf ha hp h
      | true =>
        have hl := looked_of_allowed hs hf ha hp (h := h) fun hg hs hfr hc =>
          ⟨_, by
            rw [Tree.parts_eq_pick]
            exact looked_of_children [] cs [] (List.append_nil cs).symm hg ht hs
              (fun d hd => ih d hd (ht.child hd)) hfr hc⟩
        simpa [hp] using hl

theorem step_style {e : Event} (h : (c.step files unit e).outcome = .ok c') :
    c'.style = c.style := by
  cases e with
  | enter t => obtain ⟨op, -, rfl⟩ | ⟨-, rfl⟩ := step_enter_ok h <;> rfl
  | leave t =>
    rw [step] at h
    split at h
    · cases h
      split <;> rfl
    · cases h
      rfl
  | start t =>
    rw [step] at h
    split at h <;> cases h
    rfl
  | finish t =>
    rw [step] at h
    split at h <;> cases h
    rfl

/-- Where events are followed to their end, so is the check of every tree looked at. -/
theorem check_ok_of_mem_openings {es : List Event} {op : Opening} : ∀ {c : IndentCheck},
    (c.follow files unit es).outcome = .ok c' → op ∈ c.openings files unit es →
    (Scene.check ⟨files, unit, c.style⟩ op.parent op.frame op.tree).outcome = .ok () := by
  induction es with
  | nil => nofun
  | cons e es ih =>
    intro c h hop
    rw [follow_cons, Report.bind_outcome_eq_ok] at h
    obtain ⟨d, h1, h2⟩ := h
    rw [openings_cons h1, List.mem_append] at hop
    rcases hop with hop | hop
    · cases e with
      | enter t =>
        rw [opened] at hop
        split at hop
        · next op' ho =>
          cases List.mem_singleton.mp hop
          rw [step_enter_of_some ho] at h1
          obtain ⟨⟨⟩, hc, -⟩ := Report.bind_outcome_eq_ok.mp h1
          rw [(opening?_eq_some ho).2.1]
          exact hc
        · cases hop
      | _ => cases hop
    · rw [← step_style h1]
      exact ih h2 hop

/-- What is opened is opened inside the frame of the tree that it is a child of. -/
theorem parent_of_mem_openings {style : IndentStyle} {root : Tree} (hr : root.Distinct)
    {es : List Event} {op : Opening} : ∀ {o : List Tree} {c : IndentCheck},
    Event.Orderly root o es → c.Balanced style o → op ∈ c.openings files unit es →
    ∃ above, root.Lineage (op.tree :: above) ∧ (∀ a ∈ above.head?, op.parent.OpenedFor a) ∧
      ∃ k, op.tree.node.kind = .ok k ∧
        op.parent.enterKind style k (some op.tree) = .ok op.frame := by
  induction es with
  | nil => nofun
  | cons e es ih =>
    intro o c ho hb hop
    rw [openings, List.mem_append] at hop
    rcases hop with hop | hop
    · cases e with
      | enter t =>
        rw [opened] at hop
        split at hop
        · next op' hopens =>
          cases List.mem_singleton.mp hop
          obtain ⟨hs, htree, hf, -, k, hk, he⟩ := opening?_eq_some hopens
          rw [hb.style_eq] at he
          rw [htree]
          refine ⟨o, ho.1, fun a ha => ?_, k, hk, he⟩
          obtain ⟨above, rfl⟩ := List.head?_eq_some_iff.mp ha
          exact Frame.openedFor_of_balanced hb hs hf
        · cases hop
      | _ => cases hop
    · split at hop
      · next c' hc' => exact ih ho.2 (hb.step hr ho.1 hc') hop
      · cases hop

/-- What a check at rest looks at on a walk. -/
theorem looked_on_walk {style : IndentStyle} (ht : t.Distinct)
    (h : ((ofStyle style).follow files unit
      (.start t :: (t.tour p ++ [.finish t]))).outcome = .ok c') :
    ((ofStyle style).openings files unit (.start t :: (t.tour p ++ [.finish t]))).map (·.tree) =
        t.lookedAt p ∧
      ((ofStyle style).follow files unit (.start t :: (t.tour p ++ [.finish t]))).notes =
        ((ofStyle style).openings files unit (.start t :: (t.tour p ++ [.finish t]))).flatMap
          (·.findings files unit style) := by
  have hstart : (step files unit (ofStyle style) (.start t)).outcome =
      .ok { ofStyle style with frames := [.root] } := rfl
  rw [follow_start, follow_append, Report.bind_outcome_eq_ok] at h
  obtain ⟨d, hd, hfin⟩ := h
  have hl := follow_tour t ht rfl (show _ = Frame.root :: [] from rfl) rfl hd
  rw [follow_singleton] at hfin
  have hlast : d.openings files unit [.finish t] = [] := by
    rw [openings_cons hfin]
    rfl
  have hnotes : (d.step files unit (.finish t)).notes = [] := by
    rw [step]
    split <;> rfl
  rw [openings_cons hstart, openings_append _ hd, hlast, List.append_nil, follow_start,
    follow_append, Report.bind_notes_of_ok hd, follow_singleton, hnotes, List.append_nil]
  exact ⟨hl.trees, hl.notes⟩

/-- On a walk without a fault, the trees looked at are those on whose lineage every tree is let
through and is a part of the one above it: each of them once, in preorder. Each is held to the rules
once, and what that finds is what is reported. -/
theorem looks_at_clear_trees {style : IndentStyle} {checks : List TreeAudit} {i : Nat}
    {vs : ViolationSet} (hi : checks[i]? = some ⟨.indent (.ofStyle style), vs⟩)
    (files : FileSystem) (u : TranslationUnit) (hu : u.root.Distinct) (dirs : List String)
    (hf : (Walk.run files u dirs checks).1.fault = none) :
    let events := Visit.events (u.visits (.ofDirs dirs)).1
    let openings := (ofStyle style).openings files u events
    let looked := openings.map (·.tree)
    looked = u.root.lookedAt (VisitFilter.letsThrough dirs) ∧
      (∀ t, t ∈ looked ↔ ∃ above, u.root.Lineage (t :: above) ∧
        Tree.Clear (VisitFilter.letsThrough dirs) (t :: above)) ∧
      looked.Sublist u.root.preorder ∧
      (looked.Pairwise fun a b => a.node.same b.node = false) ∧
      (∀ op ∈ openings,
        (Scene.check ⟨files, u, style⟩ op.parent op.frame op.tree).outcome = .ok ()) ∧
      (Walk.run files u dirs checks).1.checks[i]? =
        some ⟨.indent (.ofStyle style),
          vs.insertAll (openings.flatMap (·.findings files u style))⟩ := by
  intro events openings looked
  obtain ⟨c, hc, hv⟩ := Walk.indent_follows (w := .ofChecks checks) rfl hf hi
  have hev : events = .start u.root ::
      (u.root.tour (VisitFilter.letsThrough dirs) ++ [.finish u.root]) := u.events_visits dirs
  have hok : ((ofStyle style).follow files u events).outcome = .ok c := hc
  have hrest : c = ofStyle style := follow_walk hu (by rw [← hev]; exact hok)
  obtain ⟨hlooked, hnotes⟩ : looked = u.root.lookedAt (VisitFilter.letsThrough dirs) ∧
      ((ofStyle style).follow files u events).notes =
        openings.flatMap (·.findings files u style) := by
    rw [hev] at hok
    show ((ofStyle style).openings files u events).map (·.tree) = _ ∧ _ =
      ((ofStyle style).openings files u events).flatMap _
    rw [hev]
    exact looked_on_walk hu hok
  have hsub : looked.Sublist u.root.preorder := hlooked ▸ Tree.lookedAt_sublist u.root
  refine ⟨hlooked, ?_, hsub, ?_, ?_, ?_⟩
  · intro t
    rw [hlooked]
    exact Tree.mem_lookedAt
  · exact List.Pairwise.sublist hsub hu
  · intro op hop
    exact check_ok_of_mem_openings (c := ofStyle style) hok hop
  · rw [← hnotes]
    rw [hrest] at hv
    exact hv

/-- The first part of the loop is let through and not looked at, nor is what is below it. -/
theorem looks_at_clear_trees_in_loop :
    (Walk.run .oneLine .classAndLoop ["/"]
        [.ofCheck (.indent (.ofStyle .standard))]).1.fault = none ∧
      ∃ looked : List Tree, looked.length = 7 ∧
        looked.Sublist TranslationUnit.classAndLoop.root.preorder ∧
        TranslationUnit.classAndLoop.root.preorder.length = 9 ∧
        ∀ t, t ∈ looked ↔ ∃ above, TranslationUnit.classAndLoop.root.Lineage (t :: above) ∧
          Tree.Clear (VisitFilter.letsThrough ["/"]) (t :: above) := by
  have hf : (Walk.run .oneLine .classAndLoop ["/"]
      [.ofCheck (.indent (.ofStyle .standard))]).1.fault = none := by decide +kernel
  obtain ⟨h, hmem, hsub, -⟩ := looks_at_clear_trees (i := 0) rfl .oneLine .classAndLoop
    (Tree.number_distinct _) ["/"] hf
  refine ⟨hf, _, ?_, hsub, by decide +kernel, hmem⟩
  rw [h]
  decide +kernel

end IndentCheck

end StyleCheck
