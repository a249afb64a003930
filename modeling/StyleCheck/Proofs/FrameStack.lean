import Mathlib.Data.List.Chain
import StyleCheck.Proofs.Following

/-!
# The stack of frames

On every walk the frames of a check of indentation are those of the open trees, up to the tree that
the check stopped at (`IndentCheck.Balanced`). Each event keeps this, hence every walk does, and a
walk that meets no fault leaves the check as it was at first.
-/

namespace StyleCheck

variable {files : FileSystem} {unit : TranslationUnit} {style : IndentStyle}

/-- An event inside a unit that does not leave this node. -/
def Event.Spares (n : Node) : Event → Prop
  | enter _ => True
  | leave t => n.same t.node = false
  | start _ | finish _ => False

namespace IndentCheck

variable {c c' : IndentCheck} {t : Tree}

/-! ## What an event does -/

/-- The ways that a tree is entered without a fault. -/
theorem opening?_cases {x : Option Opening} (h : c.opening? t = .ok x) :
    ∃ k, t.node.kind = .ok k ∧
      ((∃ s, c.stopped = some s ∧ x = none) ∨
        ∃ parent outer, c.stopped = none ∧ c.frames = parent :: outer ∧
          ((parent.allows t.node = .ok false ∧ x = none) ∨
            ∃ frame, parent.allows t.node = .ok true ∧
              parent.enterKind c.style k (some t) = .ok frame ∧
              x = some ⟨t, parent, outer, frame⟩)) := by
  unfold opening? at h
  cases hk : t.node.kind with
  | error e => rw [hk] at h; cases h
  | ok k =>
    refine ⟨k, rfl, ?_⟩
    rw [hk] at h
    cases hs : c.stopped with
    | some s =>
      rw [hs] at h
      cases h
      exact .inl ⟨s, rfl, rfl⟩
    | none =>
      rw [hs] at h
      cases hf : c.frames with
      | nil => rw [hf] at h; cases h
      | cons parent outer =>
        refine .inr ⟨parent, outer, rfl, rfl, ?_⟩
        rw [hf] at h
        cases ha : parent.allows t.node with
        | error e => simp only [ha] at h; cases h
        | ok allowed =>
          simp only [ha, bind, Except.bind] at h
          cases allowed with
          | false => cases h; exact .inl ⟨rfl, rfl⟩
          | true =>
            cases he : parent.enterKind c.style k (some t) with
            | error e => simp [he] at h
            | ok frame =>
              rw [he] at h
              cases h
              exact .inr ⟨frame, rfl, rfl, rfl⟩

theorem opening?_eq_some {op : Opening} (h : c.opening? t = .ok (some op)) :
    c.stopped = none ∧ op.tree = t ∧ c.frames = op.parent :: op.outer ∧
      op.parent.allows t.node = .ok true ∧
      ∃ k, t.node.kind = .ok k ∧ op.parent.enterKind c.style k (some t) = .ok op.frame := by
  obtain ⟨k, hk, ⟨s, -, hx⟩ | ⟨parent, outer, hs, hf, ⟨-, hx⟩ | ⟨frame, ha, he, hx⟩⟩⟩ :=
    opening?_cases h
  · cases hx
  · cases hx
  · cases hx
    exact ⟨hs, rfl, hf, ha, k, hk, he⟩

theorem opening?_eq_none (h : c.opening? t = .ok none) :
    c.stopped.isSome = true ∨
      c.stopped = none ∧ ∃ parent outer, c.frames = parent :: outer ∧
        parent.allows t.node = .ok false := by
  obtain ⟨k, hk, ⟨s, hs, -⟩ | ⟨parent, outer, hs, hf, ⟨ha, -⟩ | ⟨frame, -, -, hx⟩⟩⟩ :=
    opening?_cases h
  · exact .inl (by rw [hs]; rfl)
  · exact .inr ⟨hs, parent, outer, hf, ha⟩
  · cases hx

theorem opening?_of_allows {k : Kind} {parent frame : Frame} {outer : List Frame}
    (hk : t.node.kind = .ok k) (hs : c.stopped = none) (hf : c.frames = parent :: outer)
    (ha : parent.allows t.node = .ok true)
    (he : parent.enterKind c.style k (some t) = .ok frame) :
    c.opening? t = .ok (some ⟨t, parent, outer, frame⟩) := by
  simp only [opening?, hk, hs, hf, ha, he, bind, Except.bind]
  rfl

/-- Where a tree is looked at, its frame is pushed once it was checked. -/
theorem step_enter_of_some {op : Opening} (h : c.opening? t = .ok (some op)) :
    c.step files unit (.enter t) =
      (Scene.check ⟨files, unit, c.style⟩ op.parent op.frame t >>= fun _ => pure (c.push op)) := by
  rw [step, h]
  rfl

theorem step_enter_of_none (h : c.opening? t = .ok none) :
    c.step files unit (.enter t) = pure { c with stopped := c.stopped.or (some t.node) } := by
  rw [step, h]
  rfl

/-- A tree that is entered is looked at, or else the check is stopped behind it. -/
theorem step_enter_ok (h : (c.step files unit (.enter t)).outcome = .ok c') :
    (∃ op, c.opening? t = .ok (some op) ∧ c' = c.push op) ∨
      c.opening? t = .ok none ∧ c' = { c with stopped := c.stopped.or (some t.node) } := by
  cases ho : c.opening? t with
  | error e =>
    rw [step, ho] at h
    cases h
  | ok x =>
    cases x with
    | none =>
      rw [step_enter_of_none ho] at h
      cases h
      exact .inr ⟨rfl, rfl⟩
    | some op =>
      rw [step_enter_of_some ho, Report.bind_outcome_eq_ok] at h
      obtain ⟨_, -, h⟩ := h
      cases h
      exact .inl ⟨op, rfl, rfl⟩

theorem step_leave_going (h : c.stopped = none) :
    c.step files unit (.leave t) =
      pure { c with frames := c.frames.tail, depth := c.depth - 1 } := by
  rw [step, h]

theorem step_leave_same {n : Node} (h : c.stopped = some n) (hn : n.same t.node = true) :
    c.step files unit (.leave t) = pure { c with stopped := none } := by
  rw [step, h]
  simp only [hn, if_true]

theorem step_leave_other {n : Node} (h : c.stopped = some n) (hn : n.same t.node = false) :
    c.step files unit (.leave t) = pure c := by
  rw [step, h]
  simp only [hn, Bool.false_eq_true, if_false]

end IndentCheck

/-! ## Frames and open trees -/

/-- A frame was opened for its tree inside another, their marks apart. -/
def Frame.OpenedIn (style : IndentStyle) (f g : Frame) : Prop :=
  ∃ t k m, t.node.kind = .ok k ∧
    Frame.enterKind style { g with marked := m } k (some t) = .ok { f with marked := false }

theorem Frame.enterKind_ok {f g : Frame} {k : Kind} {x : Option Tree}
    (h : g.enterKind style k x = .ok f) :
    ∃ c, Construct.ofKind k = .ok c ∧ f = g.enter style c (k.name ++ "'") x := by
  unfold enterKind at h
  split at h <;> cases h
  next c hc _ => exact ⟨c, hc, rfl⟩

theorem Opening.parentAfter_eq (op : Opening) :
    ∃ m, op.parentAfter = { op.parent with marked := m } := by
  unfold parentAfter
  split
  · exact ⟨true, rfl⟩
  · exact ⟨op.parent.marked, rfl⟩

namespace IndentCheck

/-- How a check stands inside a walk, while the trees `o` are open. -/
structure Balanced (style : IndentStyle) (o : List Tree) (c : IndentCheck) : Prop where
  style_eq : c.style = style
  size : (c.frames.length : Int) = c.depth + 1
  /-- Below all stands the frame of the unit. -/
  bottom : ∃ m, c.frames.getLast? = some { Frame.root with marked := m }
  nested : c.frames.IsChain (Frame.OpenedIn style)
  /-- A check that goes on has a frame for every open tree. -/
  going : c.stopped = none → c.frames.dropLast.map (·.tree) = o.map some
  /-- A check that stopped has a frame for what is open around the tree it stopped at. -/
  waiting : ∀ n, c.stopped = some n → ∃ inner t outer, o = inner ++ t :: outer ∧ t.node = n ∧
    c.frames.dropLast.map (·.tree) = outer.map some

namespace Balanced

variable {root t : Tree} {o : List Tree} {c c' : IndentCheck} {e : Event}

theorem at_start (style : IndentStyle) :
    Balanced style [] { IndentCheck.ofStyle style with frames := [.root] } where
  style_eq := rfl
  size := rfl
  bottom := ⟨false, rfl⟩
  nested := .singleton _
  going _ := rfl
  waiting _ h := nomatch h

theorem push {op : Opening} (h : c.Balanced style o) (ho : c.opening? t = .ok (some op)) :
    (c.push op).Balanced style (t :: o) := by
  obtain ⟨hs, -, hf, -, k, hk, he⟩ := opening?_eq_some ho
  obtain ⟨cons, -, hframe⟩ := Frame.enterKind_ok he
  have ht : op.frame.tree = some t := by rw [hframe]; rfl
  have hm : op.frame.marked = false := by rw [hframe]; rfl
  obtain ⟨m, hp⟩ := op.parentAfter_eq
  rw [h.style_eq] at he
  have hframes : (c.push op).frames =
      op.frame :: { op.parent with marked := m } :: op.outer := by rw [← hp]; rfl
  constructor
  case style_eq => exact h.style_eq
  case size =>
    have := h.size
    rw [hf] at this
    rw [hframes]
    show (_ : Int) = c.depth + 1 + 1
    simp only [List.length_cons] at this ⊢
    omega
  case bottom =>
    obtain ⟨b, hb⟩ := h.bottom
    rw [hframes]
    rw [hf] at hb
    cases hout : op.outer with
    | nil =>
      rw [hout, List.getLast?_singleton, Option.some_inj] at hb
      exact ⟨m, by rw [hb]; rfl⟩
    | cons g outer =>
      rw [hout] at hb
      exact ⟨b, by simpa only [List.getLast?_cons_cons] using hb⟩
  case nested =>
    have hn := h.nested
    rw [hf] at hn
    rw [hframes, List.isChain_cons_cons]
    refine ⟨⟨t, k, op.parent.marked, hk, ?_⟩, ?_⟩
    · rw [← hm]
      exact he
    · -- the mark of a frame does not show in where it was opened
      cases hout : op.outer with
      | nil => exact .singleton _
      | cons g outer =>
        rw [hout, List.isChain_cons_cons] at hn
        exact List.isChain_cons_cons.mpr hn
  case going =>
    intro _
    have hg := h.going hs
    rw [hf] at hg
    rw [hframes, List.dropLast_cons_cons, List.map_cons, ht, List.map_cons, ← hg]
    cases op.outer <;> rfl
  case waiting =>
    intro n hn
    rw [show (c.push op).stopped = c.stopped from rfl, hs] at hn
    cases hn

theorem stop (h : c.Balanced style o) :
    Balanced style (t :: o) { c with stopped := c.stopped.or (some t.node) } := by
  refine ⟨h.style_eq, h.size, h.bottom, h.nested, ?_, ?_⟩
  · intro hs
    simp at hs
  · intro n hn
    cases hs : c.stopped with
    | none =>
      rw [hs] at hn
      cases hn
      exact ⟨[], t, o, rfl, rfl, h.going hs⟩
    | some s =>
      rw [hs] at hn
      cases hn
      obtain ⟨inner, a, outer, ho, ha, hfr⟩ := h.waiting _ hs
      exact ⟨t :: inner, a, outer, by rw [ho]; rfl, ha, hfr⟩

theorem pop (h : c.Balanced style (t :: o)) (hs : c.stopped = none) :
    Balanced style o { c with frames := c.frames.tail, depth := c.depth - 1 } := by
  have hg := h.going hs
  -- the frame of the tree stands on another one
  obtain ⟨f, g, fs, hf⟩ : ∃ f g fs, c.frames = f :: g :: fs := by
    match hfr : c.frames with
    | [] | [_] => rw [hfr] at hg; cases hg
    | f :: g :: fs => exact ⟨f, g, fs, rfl⟩
  refine ⟨h.style_eq, ?_, ?_, h.nested.tail, ?_, ?_⟩
  · have := h.size
    rw [hf] at this ⊢
    simp only [List.length_cons, List.tail_cons] at this ⊢
    omega
  · obtain ⟨m, hm⟩ := h.bottom
    rw [hf] at hm ⊢
    exact ⟨m, hm⟩
  · intro _
    rw [hf, List.dropLast_cons_cons, List.map_cons, List.map_cons, List.cons.injEq] at hg
    rw [hf]
    exact hg.2
  · intro n hn
    rw [hs] at hn
    cases hn

theorem leave (hr : root.Distinct) (hl : root.Lineage (t :: o)) (h : c.Balanced style (t :: o))
    (hs : (c.step files unit (.leave t)).outcome = .ok c') : c'.Balanced style o := by
  cases hst : c.stopped with
  | none =>
    rw [step_leave_going hst] at hs
    cases hs
    exact h.pop hst
  | some n =>
    obtain ⟨inner, a, outer, ho, rfl, hfr⟩ := h.waiting n hst
    cases inner with
    | nil =>
      cases ho
      rw [step_leave_same hst (Node.same_self _)] at hs
      cases hs
      exact ⟨h.style_eq, h.size, h.bottom, h.nested, fun _ => hfr, fun _ hn => nomatch hn⟩
    | cons i inner =>
      cases ho
      -- what is left stands below the tree that the check stopped at
      have hne : a.node.same t.node = false :=
        hl.not_same hr a (List.mem_append_right _ List.mem_cons_self)
      rw [step_leave_other hst hne] at hs
      cases hs
      refine ⟨h.style_eq, h.size, h.bottom, h.nested, ?_, ?_⟩
      · intro hn
        rw [hst] at hn
        cases hn
      · intro n hn
        rw [hst] at hn
        cases hn
        exact ⟨inner, a, outer, rfl, rfl, hfr⟩

/-- Every event in order keeps a check balanced. -/
theorem step (hr : root.Distinct) (he : e.Fits root o) (h : c.Balanced style o)
    (hs : (c.step files unit e).outcome = .ok c') : c'.Balanced style (e.after o) := by
  cases e with
  | start => exact he.elim
  | finish => exact he.elim
  | enter t =>
    obtain ⟨op, ho, rfl⟩ | ⟨-, rfl⟩ := step_enter_ok hs
    · exact h.push ho
    · exact h.stop
  | leave t =>
    obtain ⟨hl, above, rfl⟩ := he
    rw [Event.after_leave]
    exact h.leave hr hl hs

theorem settled (h : c.Balanced style []) :
    c.style = style ∧ c.stopped = none ∧ c.frames.length = 1 ∧ c.depth = 0 := by
  have hs : c.stopped = none := by
    cases hst : c.stopped with
    | none => rfl
    | some n =>
      obtain ⟨inner, t, outer, ho, -⟩ := h.waiting n hst
      simp at ho
  have hlen : c.frames.length = 1 := by
    obtain ⟨m, hm⟩ := h.bottom
    have hd := h.going hs
    match hf : c.frames with
    | [] => rw [hf] at hm; cases hm
    | [_] => rfl
    | f :: g :: fs => rw [hf] at hd; cases hd
  have := h.size
  exact ⟨h.style_eq, hs, hlen, by omega⟩

end Balanced

/-! ## Along a walk -/

variable {c c' : IndentCheck} {root : Tree}

theorem follow_cons (c : IndentCheck) (e : Event) (es : List Event) :
    c.follow files unit (e :: es) = (c.step files unit e >>= fun d => d.follow files unit es) :=
  List.foldlM_cons

theorem follow_singleton (c : IndentCheck) (e : Event) :
    c.follow files unit [e] = c.step files unit e := by
  rw [follow_cons]
  exact bind_pure _

theorem follow_append (c : IndentCheck) (es fs : List Event) :
    c.follow files unit (es ++ fs) = (c.follow files unit es >>= fun d => d.follow files unit fs) :=
  List.foldlM_append

theorem follow_start (es : List Event) :
    (ofStyle style).follow files unit (.start root :: es) =
      follow files unit { ofStyle style with frames := [.root] } es := by
  rw [follow_cons, step]
  exact pure_bind _ _

theorem balanced_of_follow {es : List Event} (hr : root.Distinct) (ho : Event.Orderly root [] es)
    (h : ((ofStyle style).follow files unit (.start root :: es)).outcome = .ok c) :
    c.Balanced style (es.foldl Event.after []) := by
  rw [follow_start] at h
  exact ho.invariant (fun he hb hs => hb.step hr he hs) (.at_start style) h

/-- At the end of a walk the check is as it was at first. -/
theorem step_finish (h : c.Balanced style []) :
    c.step files unit (.finish root) = pure (ofStyle style) := by
  obtain ⟨rfl, hs, hlen, hd⟩ := h.settled
  rw [step, if_pos hlen, hs, hd]
  rfl

theorem step_waiting {n : Node} {e : Event} (hs : c.stopped = some n) (he : e.Spares n)
    (h : (c.step files unit e).outcome = .ok c') : c.step files unit e = pure c := by
  cases e with
  | start => exact he.elim
  | finish => exact he.elim
  | leave t => exact step_leave_other hs he
  | enter t =>
    obtain ⟨op, ho, -⟩ | ⟨ho, -⟩ := step_enter_ok h
    · rw [(opening?_eq_some ho).1] at hs
      cases hs
    · have hor : c.stopped.or (some t.node) = c.stopped := by rw [hs]; rfl
      rw [step_enter_of_none ho, hor]

/-- A check that stopped stays as it is until the walk leaves the tree that it stopped at. -/
theorem follow_waiting {n : Node} (hs : c.stopped = some n) {es : List Event}
    (hes : ∀ e ∈ es, e.Spares n) (h : (c.follow files unit es).outcome = .ok c') :
    c' = c ∧ (c.follow files unit es).notes = [] := by
  induction es with
  | nil =>
    cases h
    exact ⟨rfl, rfl⟩
  | cons e es ih =>
    rw [follow_cons] at h ⊢
    obtain ⟨d, hd, -⟩ := Report.bind_outcome_eq_ok.mp h
    rw [step_waiting hs (hes e List.mem_cons_self) hd, pure_bind] at h ⊢
    exact ih (fun x hx => hes x (List.mem_cons_of_mem e hx)) h

/-- A walk that meets no fault leaves a check as it was at first. -/
theorem follow_walk {p : Node → Bool} (hr : root.Distinct)
    (h : ((ofStyle style).follow files unit
      (.start root :: (root.tour p ++ [.finish root]))).outcome = .ok c) : c = ofStyle style := by
  obtain ⟨ho, hopen⟩ := Event.tour_orderly (p := p) root .top
  rw [← List.cons_append, follow_append, Report.bind_outcome_eq_ok] at h
  obtain ⟨d, h1, h2⟩ := h
  have hd := balanced_of_follow hr ho h1
  rw [hopen] at hd
  rw [follow_singleton, step_finish hd] at h2
  cases h2
  rfl

end IndentCheck

/-! ## Walks one after the other -/

namespace Walk

/-- What checks come to on walks that meet no fault, one after the other. -/
inductive Reaches (start : List TreeAudit) : List TreeAudit → Prop where
  | here : Reaches start start
  | run {files : FileSystem} {u : TranslationUnit} {dirs : List String} {checks : List TreeAudit} :
      Reaches start checks → u.root.Distinct → (Walk.run files u dirs checks).1.fault = none →
      Reaches start (Walk.run files u dirs checks).1.checks

/-- Inside a walk through `u`, after the visits `done` and without a fault so far, `c` is its check
of indentation number `i`. -/
structure Inside (files : FileSystem) (u : TranslationUnit) (dirs : List String)
    (checks : List TreeAudit) (i : Nat) (done : List Visit) (c : IndentCheck) : Prop where
  begun : done ≠ []
  unfinished : ∃ next rest, (u.visits (.ofDirs dirs)).1 = done ++ next :: rest
  faultless : (done.foldl (visit files u) (ofChecks checks)).fault = none
  check : ∃ vs, (done.foldl (visit files u) (ofChecks checks)).checks[i]? = some ⟨.indent c, vs⟩

variable {u : TranslationUnit} {dirs : List String} {start checks : List TreeAudit} {i : Nat}
  {vs : ViolationSet}

/-- A check at rest is at rest again after a walk that meets no fault. -/
theorem run_at_rest (hu : u.root.Distinct) (hi : checks[i]? = some ⟨.indent (.ofStyle style), vs⟩)
    (hf : (run files u dirs checks).1.fault = none) :
    ∃ vs', (run files u dirs checks).1.checks[i]? = some ⟨.indent (.ofStyle style), vs'⟩ := by
  obtain ⟨c, hc, hv⟩ := indent_follows (w := ofChecks checks) rfl hf hi
  rw [u.events_visits dirs] at hc
  rw [IndentCheck.follow_walk hu hc] at hv
  exact ⟨_, hv⟩

theorem Reaches.at_rest (h : Reaches start checks)
    (hi : start[i]? = some ⟨.indent (.ofStyle style), vs⟩) :
    ∃ vs', checks[i]? = some ⟨.indent (.ofStyle style), vs'⟩ := by
  induction h with
  | here => exact ⟨vs, hi⟩
  | run _ hu hf ih =>
    obtain ⟨vs', hi'⟩ := ih
    exact run_at_rest hu hi' hf

namespace Inside

variable {done more : List Visit} {c c' : IndentCheck}

/-- Inside a walk, the check number `i` can be asked. -/
theorem of_any (files : FileSystem) (checks : List TreeAudit) (i : Nat) (q : IndentCheck → Bool)
    {next : Visit} {rest : List Visit}
    (hsplit : (u.visits (.ofDirs dirs)).1 = done ++ next :: rest) (hd : done ≠ [])
    (hf : (done.foldl (visit files u) (ofChecks checks)).fault = none)
    (hq : ((done.foldl (visit files u) (ofChecks checks)).checks[i]?.any fun a =>
      match a.check with
      | .indent c => q c
      | _ => false) = true) : ∃ c, Inside files u dirs checks i done c ∧ q c = true := by
  obtain ⟨⟨check, vs⟩, ha, hqa⟩ := (Option.any_eq_true _ _).mp hq
  cases check with
  | indent c => exact ⟨c, ⟨hd, ⟨next, rest, hsplit⟩, hf, vs, ha⟩, hqa⟩
  | spacing c => cases hqa
  | bare => cases hqa

/-- Inside a walk a check has come to where the events so far lead it. -/
theorem follow (h : Inside files u dirs checks i done c)
    (hi : checks[i]? = some ⟨.indent (.ofStyle style), vs⟩) :
    ∃ es rest, Visit.events done = .start u.root :: es ∧
      u.root.tour (VisitFilter.letsThrough dirs) = es ++ rest ∧
      ((IndentCheck.ofStyle style).follow files u (.start u.root :: es)).outcome = .ok c := by
  obtain ⟨next, rest, hsplit⟩ := h.unfinished
  obtain ⟨es, more, hes, htour⟩ := TranslationUnit.events_split hsplit h.begun
  obtain ⟨c₁, hc₁, hv⟩ := indent_follows (w := ofChecks checks) rfl h.faultless hi
  obtain ⟨vs', hc⟩ := h.check
  rw [hc] at hv
  cases hv
  exact ⟨es, more, hes, htour, by rw [← hes]; exact hc₁⟩

theorem balanced (hu : u.root.Distinct) (hi : checks[i]? = some ⟨.indent (.ofStyle style), vs⟩)
    (h : Inside files u dirs checks i done c) :
    (Event.openTrees (Visit.events done) = [] ∨
        u.root.Lineage (Event.openTrees (Visit.events done))) ∧
      c.Balanced style (Event.openTrees (Visit.events done)) := by
  obtain ⟨es, rest, hes, htour, hc⟩ := h.follow hi
  have ho : Event.Orderly u.root [] es := by
    have := (Event.tour_orderly (p := VisitFilter.letsThrough dirs) u.root .top).1
    rw [htour, Event.orderly_append] at this
    exact this.1
  have hb := IndentCheck.balanced_of_follow hu ho hc
  rw [hes]
  exact ⟨ho.lineage (.inl rfl), hb⟩

theorem waits {n : Node} (hi : checks[i]? = some ⟨.indent (.ofStyle style), vs⟩)
    (h : Inside files u dirs checks i done c) (hs : c.stopped = some n)
    (h' : Inside files u dirs checks i (done ++ more) c')
    (hmore : ∀ t, .event (.leave t) ∈ more → n.same t.node = false) : c' = c := by
  obtain ⟨es, -, hes, -, hc⟩ := h.follow hi
  obtain ⟨es', rest, hes', htour, hc'⟩ := h'.follow hi
  rw [Visit.events_append, hes, List.cons_append, List.cons.injEq] at hes'
  rw [← hes'.2, ← List.cons_append, IndentCheck.follow_append, Report.bind_outcome_eq_ok] at hc'
  obtain ⟨d, hd, hc'⟩ := hc'
  rw [hc] at hd
  cases hd
  refine (IndentCheck.follow_waiting hs ?_ hc').1
  have ho := (Event.tour_orderly (p := VisitFilter.letsThrough dirs) u.root .top).1
  rw [htour, ← hes'.2] at ho
  intro e he
  obtain ⟨o, hfit⟩ := ho.fits e (List.mem_append_left _ (List.mem_append_right _ he))
  cases e with
  | start => exact hfit.elim
  | finish => exact hfit.elim
  | enter t => trivial
  | leave t =>
    refine hmore t ?_
    obtain ⟨v, hv, hve⟩ := List.mem_filterMap.mp he
    cases v <;> cases hve
    exact hv

end Inside

/-- A unit begins and ends where a check expects it to. -/
theorem step_ends {done rest : List Visit} {e : Event} (hu : u.root.Distinct)
    (hi : checks[i]? = some ⟨.indent (.ofStyle style), vs⟩)
    (hsplit : (u.visits (.ofDirs dirs)).1 = done ++ .event e :: rest)
    (he : ∃ t, e = .start t ∨ e = .finish t)
    (hf : (done.foldl (visit files u) (ofChecks checks)).fault = none) :
    ∃ c c' vs', (done.foldl (visit files u) (ofChecks checks)).checks[i]? = some ⟨.indent c, vs'⟩ ∧
      c.step files u e = pure c' := by
  by_cases hd : done = []
  · subst hd
    obtain rfl : .start u.root = e := by
      have := u.events_visits dirs
      rw [hsplit] at this
      exact (List.cons.inj this).1.symm
    exact ⟨_, _, vs, hi, rfl⟩
  · obtain ⟨c, -, hc⟩ := indent_follows (w := ofChecks checks) rfl hf hi
    have hin : Inside files u dirs checks i done c := ⟨hd, ⟨_, _, hsplit⟩, hf, ⟨_, hc⟩⟩
    obtain ⟨ho, hopen⟩ := Event.tour_orderly (p := VisitFilter.letsThrough dirs) u.root .top
    obtain ⟨es, hes, ⟨rfl, htour⟩ | ⟨more, htour⟩⟩ := TranslationUnit.event_next hsplit hd
    · -- the tour is over, and everything was left
      have hb := (hin.balanced hu hi).2
      rw [htour] at hopen
      rw [hes, show Event.openTrees (.start u.root :: es) = [] from hopen] at hb
      exact ⟨c, _, _, hc, IndentCheck.step_finish hb⟩
    · rw [htour] at ho
      obtain ⟨o, hfit⟩ := ho.fits e (List.mem_append_right _ List.mem_cons_self)
      obtain ⟨t, rfl | rfl⟩ := he
      · exact hfit.elim
      · exact hfit.elim

end Walk

/-- Whatever walks a check at rest has followed, inside the next one its frames are those of the
open trees up to where it stopped; it waits there until that tree is left; it never takes a unit to
begin or end out of turn; and a walk without a fault leaves it at rest. -/
theorem IndentCheck.frames_match_open_trees {start checks : List TreeAudit} {i : Nat}
    {vs : ViolationSet} (hi : start[i]? = some ⟨.indent (.ofStyle style), vs⟩)
    (hr : Walk.Reaches start checks) (files : FileSystem) (u : TranslationUnit)
    (hu : u.root.Distinct) (dirs : List String) :
    (∀ done next rest, (u.visits (.ofDirs dirs)).1 = done ++ next :: rest → done ≠ [] →
        (done.foldl (Walk.visit files u) (.ofChecks checks)).fault = none →
        ∃ c, Walk.Inside files u dirs checks i done c) ∧
      (∀ done c, Walk.Inside files u dirs checks i done c →
        (Event.openTrees (Visit.events done) = [] ∨
            u.root.Lineage (Event.openTrees (Visit.events done))) ∧
          c.Balanced style (Event.openTrees (Visit.events done))) ∧
      (∀ done more c c' n, Walk.Inside files u dirs checks i done c → c.stopped = some n →
        Walk.Inside files u dirs checks i (done ++ more) c' →
        (∀ t, .event (.leave t) ∈ more → n.same t.node = false) → c' = c) ∧
      (∀ done e rest, (u.visits (.ofDirs dirs)).1 = done ++ .event e :: rest →
        (∃ t, e = .start t ∨ e = .finish t) →
        (done.foldl (Walk.visit files u) (.ofChecks checks)).fault = none →
        ∃ c c' vs', (done.foldl (Walk.visit files u) (.ofChecks checks)).checks[i]? =
          some ⟨.indent c, vs'⟩ ∧ c.step files u e = pure c') ∧
      ((Walk.run files u dirs checks).1.fault = none →
        ∃ vs', (Walk.run files u dirs checks).1.checks[i]? =
          some ⟨.indent (.ofStyle style), vs'⟩) := by
  obtain ⟨vs₁, hi₁⟩ := hr.at_rest hi
  refine ⟨?_, ?_, ?_, ?_, ?_⟩
  · intro done next rest hsplit hd hf
    obtain ⟨c, -, hc⟩ := Walk.indent_follows (w := .ofChecks checks) rfl hf hi₁
    exact ⟨c, hd, ⟨next, rest, hsplit⟩, hf, ⟨_, hc⟩⟩
  · intro done c hin
    exact hin.balanced hu hi₁
  · intro done more c c' n hin hs hin' hmore
    exact hin.waits hi₁ hs hin' hmore
  · intro done e rest hsplit he hf
    exact Walk.step_ends hu hi₁ hsplit he hf
  · exact Walk.run_at_rest hu hi₁

/-! A small unit to walk through -/

/-- A node of a kind, at the start of the file `a.cc`. -/
def Node.atStart (k : Kind) : Node :=
  ⟨0, .ok k, some "a.cc", ⟨1, 1⟩, ⟨some "a.cc", ⟨1, 1⟩, ⟨1, 2⟩⟩, false⟩

/-- A class with a field behind an access label, and a loop over a range. -/
def TranslationUnit.classAndLoop : TranslationUnit where
  root := .number <| .mk (.atStart .translationUnit) [
    .mk (.atStart .classDecl) [
      .mk (.atStart .cxxAccessSpecDecl) [],
      .mk (.atStart .fieldDecl) []],
    .mk (.atStart .cxxForRangeStmt) [
      .mk (.atStart .declStmt) [.mk (.atStart .varDecl) []],
      .mk (.atStart .compoundStmt) [.mk (.atStart .returnStmt) []]]]
  tokens := []

def FileSystem.oneLine : FileSystem := ⟨[("/a.cc", [0x78, 0x0A])]⟩

/-- On a second walk, below the tree that the check stopped at. -/
theorem IndentCheck.frames_match_open_trees_in_loop :
    ∃ checks done c, Walk.Reaches [.ofCheck (.indent (.ofStyle .standard))] checks ∧
      Walk.Inside .oneLine .classAndLoop ["/"] checks 0 done c ∧
      c.stopped.isSome = true ∧ (Event.openTrees (Visit.events done)).length = 4 ∧
      c.Balanced .standard (Event.openTrees (Visit.events done)) := by
  let visits := (TranslationUnit.classAndLoop.visits (.ofDirs ["/"])).1
  have hd : TranslationUnit.classAndLoop.root.Distinct := Tree.number_distinct _
  let checks := (Walk.run .oneLine .classAndLoop ["/"]
    [.ofCheck (.indent (.ofStyle .standard))]).1.checks
  have hr : Walk.Reaches [.ofCheck (.indent (.ofStyle .standard))] checks :=
    .run .here hd (by decide +kernel)
  have hlen : 18 < visits.length := by decide +kernel
  have hsplit : visits = visits.take 18 ++ visits[18] :: visits.drop 19 := by
    rw [← List.drop_eq_getElem_cons hlen, List.take_append_drop]
  obtain ⟨c, hc, hs⟩ := Walk.Inside.of_any .oneLine checks 0 (fun c => c.stopped.isSome) hsplit
    (by decide +kernel) (by decide +kernel) (by decide +kernel)
  obtain ⟨-, h, -⟩ := IndentCheck.frames_match_open_trees (i := 0) rfl hr .oneLine .classAndLoop
    hd ["/"]
  exact ⟨checks, visits.take 18, c, hr, hc, hs, by decide +kernel, (h _ c hc).2⟩

end StyleCheck
