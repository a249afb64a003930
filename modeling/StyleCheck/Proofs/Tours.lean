import StyleCheck.Proofs.Filters
import StyleCheck.Proofs.Trees
import StyleCheck.Report
import StyleCheck.Walk.Event

/-!
# Tours

The events of a walk are those of a plain recursion: `Tree.tour` enters every node that is let
through, goes on below it, and leaves it again. They come in order: a tree is entered from its
parent and left once everything below it was left (`Event.Orderly`). What every event in order
keeps, a walk keeps (`Event.Orderly.invariant`).
-/

namespace StyleCheck

/-- The event that a visit is, if it is one. -/
def Visit.event? : Visit → Option Event
  | event e => some e
  | seen _ | fault _ => none

/-- The events among visits. -/
def Visit.events (vs : List Visit) : List Event := vs.filterMap event?

theorem Visit.events_append (vs ws : List Visit) : events (vs ++ ws) = events vs ++ events ws :=
  List.filterMap_append

namespace Tree

mutual

/-- The events of a tour through a tree, of which `p` lets nodes through or not. -/
def tour (p : Node → Bool) : Tree → List Event
  | mk n cs =>
    if p n then .enter (mk n cs) :: tourAll p cs ++ [.leave (mk n cs)] else []

def tourAll (p : Node → Bool) : List Tree → List Event
  | [] => []
  | t :: ts => t.tour p ++ tourAll p ts

end

theorem tourAll_eq (p : Node → Bool) (ts : List Tree) : tourAll p ts = ts.flatMap (tour p) := by
  induction ts with
  | nil => rfl
  | cons t ts ih => rw [tourAll, ih, List.flatMap_cons]

theorem tour_of_pos {p : Node → Bool} {t : Tree} (h : p t.node = true) :
    t.tour p = .enter t :: (t.children.flatMap (tour p) ++ [.leave t]) := by
  cases t with
  | mk n cs =>
    rw [node_mk] at h
    rw [tour, if_pos h, tourAll_eq]
    rfl

theorem tour_of_neg {p : Node → Bool} {t : Tree} (h : p t.node = false) : t.tour p = [] := by
  cases t with
  | mk n cs =>
    rw [node_mk] at h
    rw [tour, if_neg (by simpa using h)]

/-- A tour enters and leaves trees that are let through. -/
theorem mem_tour {p : Node → Bool} {e : Event} {t : Tree} (h : e ∈ t.tour p) :
    ∃ a ∈ t.preorder, p a.node = true ∧ (e = .enter a ∨ e = .leave a) := by
  induction t using children_induction with
  | mk n cs ih =>
    cases hp : p n with
    | false => rw [tour_of_neg hp] at h; cases h
    | true =>
      rw [tour_of_pos hp, List.mem_cons, List.mem_append, List.mem_flatMap,
        List.mem_singleton] at h
      rcases h with rfl | ⟨c, hc, he⟩ | rfl
      · exact ⟨_, self_mem_preorder _, hp, .inl rfl⟩
      · obtain ⟨a, ha, hpa, he⟩ := ih c hc he
        refine ⟨a, ?_, hpa, he⟩
        rw [preorder_eq]
        exact List.mem_cons_of_mem _ (List.mem_flatMap.mpr ⟨c, hc, ha⟩)
      · exact ⟨_, self_mem_preorder _, hp, .inr rfl⟩

/-- An event on tours is part of the tour through one of the trees. -/
theorem tours_split {p : Node → Bool} {e : Event} {ts : List Tree} : ∀ {es more : List Event},
    ts.flatMap (tour p) = es ++ e :: more →
    ∃ before t after es' more', ts = before ++ t :: after ∧
      es = before.flatMap (tour p) ++ es' ∧ t.tour p = es' ++ e :: more' := by
  induction ts with
  | nil => intro es more h; simp at h
  | cons t ts ih =>
    intro es more h
    rw [List.flatMap_cons, List.append_eq_append_iff] at h
    rcases h with ⟨es', rfl, h⟩ | ⟨tail, h1, h2⟩
    · obtain ⟨before, d, after, fs, more', rfl, rfl, hd⟩ := ih h
      exact ⟨t :: before, d, after, fs, more', rfl, by simp, hd⟩
    · cases tail with
      | nil =>
        obtain ⟨before, d, after, fs, more', rfl, hfs, hd⟩ :=
          ih (show ts.flatMap (tour p) = [] ++ e :: more from h2.symm)
        rw [List.append_nil] at h1
        refine ⟨t :: before, d, after, fs, more', rfl, ?_, hd⟩
        rw [List.flatMap_cons, List.append_assoc, ← hfs, List.append_nil, h1]
      | cons x tail =>
        obtain ⟨rfl, rfl⟩ := List.cons.inj h2
        exact ⟨[], t, ts, es, tail, rfl, rfl, h1⟩

/-- A tree is entered first on the tour through it, and every other tree on the tour through a
child of it. -/
theorem tour_split {p : Node → Bool} {t d : Tree} {es more : List Event}
    (h : t.tour p = es ++ .enter d :: more) :
    es = [] ∧ d = t ∨ ∃ before c after es' more', t.children = before ++ c :: after ∧
      es = .enter t :: (before.flatMap (tour p) ++ es') ∧ c.tour p = es' ++ .enter d :: more' := by
  cases hp : p t.node with
  | false =>
    rw [tour_of_neg hp] at h
    simp at h
  | true =>
    rw [tour_of_pos hp] at h
    cases es with
    | nil =>
      cases h
      exact .inl ⟨rfl, rfl⟩
    | cons e es =>
      rw [List.cons_append, List.cons.injEq] at h
      obtain ⟨rfl, h⟩ := h
      obtain ⟨more', hmore⟩ : ∃ more', t.children.flatMap (tour p) = es ++ .enter d :: more' := by
        rcases List.append_eq_append_iff.mp h with ⟨_ | ⟨_, _⟩, -, h2⟩ | ⟨_ | ⟨_, more'⟩, h1, h2⟩
        · cases h2
        · simp at h2
        · cases h2
        · obtain ⟨rfl, -⟩ := List.cons.inj h2
          exact ⟨more', h1⟩
      obtain ⟨before, c, after, es', more', hcs, rfl, hc⟩ := tours_split hmore
      exact .inr ⟨before, c, after, es', more', hcs, rfl, hc⟩

theorem events_sighting (n : Node) : Visit.events (sighting n) = [] := by
  unfold sighting
  split <;> rfl

/-- The answers that a filter keeps do not show in the events. -/
theorem events_visits {dirs : List String} (t : Tree) : ∀ {f : VisitFilter}, f.Coherent dirs →
    Visit.events (t.visits f).1 = t.tour (VisitFilter.letsThrough dirs) ∧
      (t.visits f).2.Coherent dirs := by
  induction t using children_induction with
  | mk n cs ih =>
    have hcs : ∀ {f : VisitFilter}, f.Coherent dirs →
        Visit.events (visitsAll f cs).1 = tourAll (VisitFilter.letsThrough dirs) cs ∧
          (visitsAll f cs).2.Coherent dirs := by
      induction cs with
      | nil => intro f hf; exact ⟨rfl, hf⟩
      | cons c cs ihcs =>
        intro f hf
        obtain ⟨h1, h2⟩ := ih c List.mem_cons_self hf
        obtain ⟨h3, h4⟩ := ihcs (fun d hd => ih d (List.mem_cons_of_mem c hd)) h2
        rw [visitsAll, tourAll]
        exact ⟨by rw [Visit.events_append, h1, h3], h4⟩
    intro f hf
    rw [visits, tour]
    cases hk : n.kind with
    | error e =>
      have hl : VisitFilter.letsThrough dirs n = false := by
        rw [VisitFilter.letsThrough, VisitFilter.allowsNode_of_error _ hk]
      rw [VisitFilter.allowsNode_of_error _ hk, hl]
      exact ⟨by rw [Visit.events_append, events_sighting]; rfl, hf⟩
    | ok k =>
      obtain ⟨f', hf', hc⟩ := hf.allowsNode hk
      rw [hf']
      cases hl : VisitFilter.letsThrough dirs n with
      | false => exact ⟨events_sighting n, hc⟩
      | true =>
        obtain ⟨h1, h2⟩ := hcs hc
        refine ⟨?_, h2⟩
        show Visit.events (sighting n ++ .event (.enter (mk n cs)) :: (visitsAll f' cs).1 ++
          [.event (.leave (mk n cs))]) = _
        rw [Visit.events_append, Visit.events_append, events_sighting, if_pos rfl, ← h1]
        rfl

end Tree

/-- The events of a walk through a unit. -/
theorem TranslationUnit.events_visits (u : TranslationUnit) (dirs : List String) :
    Visit.events (u.visits (.ofDirs dirs)).1 =
      .start u.root :: (u.root.tour (VisitFilter.letsThrough dirs) ++ [.finish u.root]) := by
  obtain ⟨h, -⟩ := u.root.events_visits (VisitFilter.ofDirs_coherent dirs)
  rw [TranslationUnit.visits, List.cons_append]
  show Event.start u.root :: Visit.events ((u.root.visits (.ofDirs dirs)).1 ++ _) = _
  rw [Visit.events_append, h]
  rfl

/-- Inside a walk the checks were told of the start and of a part of the tour. -/
theorem TranslationUnit.events_split {u : TranslationUnit} {dirs : List String}
    {done rest : List Visit} {next : Visit}
    (h : (u.visits (.ofDirs dirs)).1 = done ++ next :: rest) (hd : done ≠ []) :
    ∃ es more, Visit.events done = .start u.root :: es ∧
      u.root.tour (VisitFilter.letsThrough dirs) = es ++ more := by
  obtain ⟨hb, -⟩ := u.root.events_visits (VisitFilter.ofDirs_coherent dirs)
  cases done with
  | nil => exact absurd rfl hd
  | cons d done =>
    rw [TranslationUnit.visits, List.cons_append, List.cons_append, List.cons.injEq] at h
    obtain ⟨rfl, h⟩ := h
    have hdrop := congrArg List.dropLast h
    rw [List.dropLast_concat, List.dropLast_append_of_ne_nil (by simp)] at hdrop
    refine ⟨Visit.events done, Visit.events (next :: rest).dropLast, rfl, ?_⟩
    rw [← hb, hdrop, Visit.events_append]

/-- The next event inside a walk is the next one of the tour, or ends the walk. -/
theorem TranslationUnit.event_next {u : TranslationUnit} {dirs : List String}
    {done rest : List Visit} {e : Event}
    (h : (u.visits (.ofDirs dirs)).1 = done ++ .event e :: rest) (hd : done ≠ []) :
    ∃ es, Visit.events done = .start u.root :: es ∧
      (e = .finish u.root ∧ u.root.tour (VisitFilter.letsThrough dirs) = es ∨
        ∃ more, u.root.tour (VisitFilter.letsThrough dirs) = es ++ e :: more) := by
  obtain ⟨es, more, hes, htour⟩ := events_split h hd
  refine ⟨es, hes, ?_⟩
  have hev := u.events_visits dirs
  rw [h, Visit.events_append, hes, htour, List.cons_append, List.cons.injEq,
    List.append_assoc] at hev
  have hnext : e :: Visit.events rest = more ++ [.finish u.root] := List.append_cancel_left hev.2
  cases more with
  | nil => exact .inl ⟨(List.cons.inj hnext).1, by rw [htour, List.append_nil]⟩
  | cons m more => exact .inr ⟨more, by rw [htour, (List.cons.inj hnext).1]⟩

/-! ## Order of events -/

namespace Event

/-- What is open after an event: a tree is open from when it is entered until it is left. -/
def after (o : List Tree) : Event → List Tree
  | enter t => t :: o
  | leave t => o.eraseP fun a => a.node.same t.node
  | start _ | finish _ => o

/-- The trees that were entered and not left again, the last one first. -/
def openTrees (es : List Event) : List Tree := es.foldl after []

@[simp] theorem after_enter (o : List Tree) (t : Tree) : after o (enter t) = t :: o := rfl

@[simp] theorem after_leave (o : List Tree) (t : Tree) : after (t :: o) (leave t) = o := by
  simp [after]

/-- An event inside a unit, while `o` is open. -/
def Fits (root : Tree) (o : List Tree) : Event → Prop
  | enter t => root.Lineage (t :: o)
  | leave t => root.Lineage o ∧ ∃ above, o = t :: above
  | start _ | finish _ => False

/-- Events that come in order while `o` is open at first. -/
def Orderly (root : Tree) : List Tree → List Event → Prop
  | _, [] => True
  | o, e :: es => e.Fits root o ∧ Orderly root (after o e) es

theorem orderly_append {root : Tree} {es fs : List Event} : ∀ {o : List Tree},
    Orderly root o (es ++ fs) ↔ Orderly root o es ∧ Orderly root (es.foldl after o) fs := by
  induction es with
  | nil => intro o; simp [Orderly]
  | cons e es ih =>
    intro o
    simp only [List.cons_append, Orderly, List.foldl_cons, ih, and_assoc]

theorem Orderly.fits {root : Tree} {es : List Event} : ∀ {o : List Tree}, Orderly root o es →
    ∀ e ∈ es, ∃ o', e.Fits root o' := by
  induction es with
  | nil => nofun
  | cons e es ih =>
    intro o h x hx
    rcases List.mem_cons.mp hx with rfl | hx
    · exact ⟨o, h.1⟩
    · exact ih h.2 x hx

/-- What is open leads from the innermost tree up to the top. -/
theorem Orderly.lineage {root : Tree} {es : List Event} : ∀ {o : List Tree}, Orderly root o es →
    (o = [] ∨ root.Lineage o) → es.foldl after o = [] ∨ root.Lineage (es.foldl after o) := by
  induction es with
  | nil => exact fun _ h => h
  | cons e es ih =>
    intro o h _
    refine ih h.2 ?_
    cases e with
    | start => exact h.1.elim
    | finish => exact h.1.elim
    | enter t => exact .inr h.1
    | leave t =>
      obtain ⟨hl, above, rfl⟩ := h.1
      rw [after_leave]
      cases above with
      | nil => exact .inl rfl
      | cons a above => exact .inr hl.tail

theorem tours_orderly {root : Tree} {p : Node → Bool} {ts o : List Tree}
    (h : ∀ t ∈ ts, Orderly root o (t.tour p) ∧ (t.tour p).foldl after o = o) :
    Orderly root o (ts.flatMap (Tree.tour p)) ∧ (ts.flatMap (Tree.tour p)).foldl after o = o := by
  induction ts with
  | nil => exact ⟨trivial, rfl⟩
  | cons t ts ih =>
    obtain ⟨h1, h2⟩ := h t List.mem_cons_self
    obtain ⟨h3, h4⟩ := ih fun d hd => h d (List.mem_cons_of_mem t hd)
    rw [List.flatMap_cons, orderly_append, List.foldl_append, h2]
    exact ⟨⟨h1, h3⟩, h4⟩

/-- A tour comes in order, and leaves everything that it enters. -/
theorem tour_orderly {root : Tree} {p : Node → Bool} (t : Tree) : ∀ {o : List Tree},
    root.Lineage (t :: o) → Orderly root o (t.tour p) ∧ (t.tour p).foldl after o = o := by
  induction t using Tree.children_induction with
  | mk n cs ih =>
    intro o h
    cases hp : p n with
    | false =>
      rw [Tree.tour_of_neg hp]
      exact ⟨trivial, rfl⟩
    | true =>
      obtain ⟨h1, h2⟩ := tours_orderly fun c hc => ih c hc (.child h hc)
      rw [Tree.tour_of_pos hp]
      simp only [Orderly, List.foldl_cons, List.foldl_append, orderly_append, after_enter,
        Tree.children, h2, after_leave, List.foldl_nil]
      exact ⟨⟨h, h1, ⟨h, o, rfl⟩, trivial⟩, trivial⟩

variable {σ ω : Type} {root : Tree} {step : σ → Event → Report ω σ} {I : List Tree → σ → Prop}

/-- What every event in order keeps, events in order keep. -/
theorem Orderly.invariant
    (hstep : ∀ {o e s s'}, Fits root o e → I o s → (step s e).outcome = .ok s' → I (after o e) s') :
    ∀ {es o s s'}, Orderly root o es → I o s → (es.foldlM step s).outcome = .ok s' →
      I (es.foldl after o) s' := by
  intro es
  induction es with
  | nil =>
    intro o s s' _ hI hs
    cases hs
    exact hI
  | cons e es ih =>
    intro o s s' ho hI hs
    rw [List.foldlM_cons, Report.bind_outcome_eq_ok] at hs
    obtain ⟨s₁, h1, h2⟩ := hs
    exact ih ho.2 (hstep ho.1 hI h1) h2

end Event

end StyleCheck
