import StyleCheck.Proofs.AuditUnion

/-!
# Files seen and files held to rules

A walk comes to a tree if all trees above it are let through (`Tree.reached`). It sees the files of
the trees that it comes to, and enters those of them that are let through. An audit that returns has
held to its rules for texts just the files seen that are below one of its directories, so that what
is entered and what is held to the rules are about the same files.
-/

namespace StyleCheck

open VisitFilter (letsFile letsThrough)

/-! ## Trees that a walk comes to -/

namespace Tree

mutual

/-- The trees above which every tree is let through, in preorder. -/
def reached (p : Node → Bool) : Tree → List Tree
  | mk n cs => mk n cs :: if p n then reachedAll p cs else []

def reachedAll (p : Node → Bool) : List Tree → List Tree
  | [] => []
  | t :: ts => t.reached p ++ reachedAll p ts

end

variable {p : Node → Bool} {root s t : Tree}

theorem reachedAll_eq (p : Node → Bool) (ts : List Tree) :
    reachedAll p ts = ts.flatMap (reached p) := by
  induction ts with
  | nil => rfl
  | cons t ts ih => rw [reachedAll, ih, List.flatMap_cons]

theorem mem_reached_iff : t ∈ s.reached p ↔
    t = s ∨ p s.node = true ∧ ∃ c ∈ s.children, t ∈ c.reached p := by
  cases s with
  | mk n cs =>
    rw [reached, List.mem_cons, reachedAll_eq]
    by_cases hp : p n = true
    · simp [hp]
    · simp [hp]

theorem mem_reached_of_child {a c : Tree} (hp : p a.node = true) (hc : c ∈ a.children) :
    a ∈ s.reached p → c ∈ s.reached p := by
  induction s using children_induction with
  | mk n cs ih =>
    intro ha
    rw [mem_reached_iff] at ha ⊢
    rcases ha with rfl | ⟨hn, d, hd, had⟩
    · exact .inr ⟨hp, c, hc, mem_reached_iff.mpr (.inl rfl)⟩
    · exact .inr ⟨hn, d, hd, ih d hd had⟩

theorem lineage_of_mem_reached (s : Tree) : ∀ {above : List Tree}, root.Lineage (s :: above) →
    (∀ a ∈ above, p a.node = true) → t ∈ s.reached p →
    ∃ above, root.Lineage (t :: above) ∧ ∀ a ∈ above, p a.node = true := by
  induction s using children_induction with
  | mk n cs ih =>
    intro above hl hall ht
    rcases mem_reached_iff.mp ht with rfl | ⟨hn, c, hc, htc⟩
    · exact ⟨above, hl, hall⟩
    · exact ih c hc (.child hl hc) (List.forall_mem_cons.mpr ⟨hn, hall⟩) htc

/-- A walk comes to a tree if all trees above it are let through. -/
theorem mem_reached : t ∈ root.reached p ↔
    ∃ above, root.Lineage (t :: above) ∧ ∀ a ∈ above, p a.node = true := by
  constructor
  · exact lineage_of_mem_reached root .top nofun
  · rintro ⟨above, hl, hall⟩
    induction above generalizing t with
    | nil =>
      cases hl
      exact mem_reached_iff.mpr (.inl rfl)
    | cons a above ih =>
      obtain ⟨ha, hall⟩ := List.forall_mem_cons.mp hall
      exact mem_reached_of_child ha hl.mem_children (ih hl.tail hall)

/-- What happens when a walk comes to a tree: its file is seen, and it is entered if it is let
through. -/
def arrival (dirs : List String) (t : Tree) : List Visit :=
  sighting t.node ++
    match t.node.kind with
    | .error e => [.fault e]
    | .ok _ => if letsThrough dirs t.node then [.event (.enter t)] else []

/-- All that happens on a walk happens when it comes to a tree, or when it leaves one. -/
theorem mem_visits {dirs : List String} {v : Visit} (hv : ∀ a, v ≠ .event (.leave a)) (t : Tree) :
    ∀ {f : VisitFilter}, f.Coherent dirs →
      (v ∈ (t.visits f).1 ↔ ∃ s ∈ t.reached (letsThrough dirs), v ∈ s.arrival dirs) := by
  induction t using children_induction with
  | mk n cs ih =>
    have hcs : ∀ {f : VisitFilter}, f.Coherent dirs → (v ∈ (visitsAll f cs).1 ↔
        ∃ c ∈ cs, ∃ s ∈ c.reached (letsThrough dirs), v ∈ s.arrival dirs) := by
      induction cs with
      | nil => simp [visitsAll]
      | cons c cs ihcs =>
        intro f hf
        rw [visitsAll, List.mem_append, ih c List.mem_cons_self hf,
          ihcs (fun d hd => ih d (List.mem_cons_of_mem c hd)) (c.events_visits hf).2]
        simp
    intro f hf
    rw [visits]
    simp only [mem_reached_iff (s := mk n cs), node_mk, children_mk]
    cases hk : n.kind with
    | error e =>
      have hl : letsThrough dirs n = false := by
        rw [letsThrough, VisitFilter.allowsNode_of_error _ hk]
      rw [VisitFilter.allowsNode_of_error _ hk]
      simp [hl, arrival, hk]
    | ok k =>
      obtain ⟨f', hf', hc⟩ := hf.allowsNode hk
      rw [hf']
      cases hl : letsThrough dirs n with
      | false => simp [hl, arrival, hk]
      | true =>
        have harrival : (mk n cs).arrival dirs = sighting n ++ [.event (.enter (mk n cs))] := by
          simp [arrival, hk, hl]
        have hself : v ∈ sighting n ++ .event (.enter (mk n cs)) :: (visitsAll f' cs).1 ++
              [.event (.leave (mk n cs))] ↔
            v ∈ (mk n cs).arrival dirs ∨ v ∈ (visitsAll f' cs).1 := by
          simp [harrival, hv (mk n cs), or_assoc]
        show v ∈ sighting n ++ .event (.enter (mk n cs)) :: (visitsAll f' cs).1 ++
          [.event (.leave (mk n cs))] ↔ _
        rw [hself, hcs hc]
        constructor
        · rintro (h | ⟨c, hcmem, s, hs, h⟩)
          · exact ⟨_, .inl rfl, h⟩
          · exact ⟨s, .inr ⟨rfl, c, hcmem, hs⟩, h⟩
        · rintro ⟨s, rfl | ⟨-, c, hcmem, hs⟩, h⟩
          · exact .inl h
          · exact .inr ⟨c, hcmem, s, hs, h⟩

theorem seen_mem_arrival {dirs : List String} {x : String} :
    .seen x ∈ t.arrival dirs ↔ t.node.file? = some x := by
  unfold arrival sighting
  cases t.node.file? <;> cases t.node.kind <;> cases letsThrough dirs t.node <;> simp [eq_comm]

theorem enter_mem_arrival {dirs : List String} :
    .event (.enter s) ∈ t.arrival dirs ↔
      s = t ∧ (∃ k, t.node.kind = .ok k) ∧ letsThrough dirs t.node = true := by
  unfold arrival sighting
  cases t.node.file? <;> cases t.node.kind <;> cases letsThrough dirs t.node <;> simp

theorem fault_mem_arrival {dirs : List String} {e : Fault} :
    .fault e ∈ t.arrival dirs ↔ t.node.kind = .error e := by
  unfold arrival sighting
  cases t.node.file? <;> cases t.node.kind <;> cases letsThrough dirs t.node <;> simp [eq_comm]

end Tree

namespace TranslationUnit

variable {u : TranslationUnit} {dirs : List String} {t : Tree}

/-- A tree of a unit that a walk comes to: all trees above it are let through. -/
def Reached (u : TranslationUnit) (dirs : List String) (t : Tree) : Prop :=
  ∃ above, u.root.Lineage (t :: above) ∧ ∀ a ∈ above, letsThrough dirs a.node = true

theorem mem_visits {v : Visit} (hv : ∀ e, v = .event e → ∃ a, e = .enter a) :
    v ∈ (u.visits (.ofDirs dirs)).1 ↔ ∃ s, u.Reached dirs s ∧ v ∈ s.arrival dirs := by
  have hout : ∀ e, (∀ a, e ≠ .enter a) → v ≠ .event e := by
    rintro e he rfl
    obtain ⟨a, ha⟩ := hv e rfl
    exact he a ha
  have hstart := hout (.start u.root) fun _ he => by cases he
  have hfinish := hout (.finish u.root) fun _ he => by cases he
  have hleave : ∀ a, v ≠ .event (.leave a) := fun a => hout (.leave a) fun _ he => by cases he
  rw [visits, List.mem_append, List.mem_cons, List.mem_singleton,
    Tree.mem_visits hleave u.root (VisitFilter.ofDirs_coherent dirs)]
  simp only [hstart, hfinish, false_or, or_false, Tree.mem_reached]
  rfl

/-- The files seen on a walk are those of the trees that it comes to. -/
theorem mem_filesSeen {x : String} :
    x ∈ u.filesSeen dirs ↔ ∃ t, u.Reached dirs t ∧ t.node.file? = some x := by
  have hseen : x ∈ u.filesSeen dirs ↔ .seen x ∈ (u.visits (.ofDirs dirs)).1 := by
    rw [filesSeen, Visit.files, List.mem_filterMap]
    constructor
    · rintro ⟨v, hv, hx⟩
      cases v <;> cases hx
      exact hv
    · exact fun h => ⟨_, h, rfl⟩
  rw [hseen, mem_visits (v := .seen x) fun _ he => by cases he]
  simp only [Tree.seen_mem_arrival]

/-- The kinds of trees that a walk comes to can be told, if it meets no fault. -/
theorem Walkable.kind (h : u.Walkable dirs) (ht : u.Reached dirs t) :
    ∃ k, t.node.kind = .ok k := by
  cases hk : t.node.kind with
  | ok k => exact ⟨k, rfl⟩
  | error e =>
    have hv : .fault e ∈ (u.visits (.ofDirs dirs)).1 := by
      rw [mem_visits fun _ he => by cases he]
      exact ⟨t, ht, Tree.fault_mem_arrival.mpr hk⟩
    exact absurd hv (h e)

/-- The trees entered on a walk are those that it comes to and that are let through. -/
theorem Walkable.enter_mem_events (h : u.Walkable dirs) :
    .enter t ∈ Visit.events (u.visits (.ofDirs dirs)).1 ↔
      u.Reached dirs t ∧ letsThrough dirs t.node = true := by
  have henter : .enter t ∈ Visit.events (u.visits (.ofDirs dirs)).1 ↔
      .event (.enter t) ∈ (u.visits (.ofDirs dirs)).1 := by
    rw [Visit.events, List.mem_filterMap]
    constructor
    · rintro ⟨v, hv, he⟩
      cases v <;> cases he
      exact hv
    · exact fun h => ⟨_, h, rfl⟩
  rw [henter, mem_visits fun e he => ⟨t, by cases he; rfl⟩]
  simp only [Tree.enter_mem_arrival]
  constructor
  · rintro ⟨s, hs, rfl, -, hl⟩
    exact ⟨hs, hl⟩
  · rintro ⟨ht, hl⟩
    exact ⟨t, ht, rfl, h.kind ht, hl⟩

end TranslationUnit

/-! ## Files below a directory -/

namespace VisitFilter

variable {dirs : List String}

theorem letsFile_iff {x : String} : letsFile dirs x = true ↔
    ∃ d ∈ dirs, (absoluteName d).toList <+: (absoluteName x).toList := by
  simp only [letsFile, covers, List.any_map, List.any_eq_true, Function.comp_apply,
    List.isPrefixOf_iff_prefix]

/-- The top of a unit is let through, and all else with its file. -/
theorem letsThrough_iff {n : Node} {k : Kind} (hk : n.kind = .ok k) :
    letsThrough dirs n = true ↔
      k = .translationUnit ∨ ∃ x, n.file? = some x ∧ letsFile dirs x = true := by
  rw [letsThrough, allowsNode_of_kind _ hk]
  by_cases hu : k = .translationUnit
  · simp [hu]
  · rw [if_neg hu]
    simp only [hu, false_or]
    cases n.file? with
    | none => simp
    | some x =>
      obtain ⟨f, hf, -⟩ := (ofDirs_coherent dirs).allowsFile x
      simp [hf]

end VisitFilter

theorem FileSystem.paths_of_reads {files : FileSystem} {xs : List String} :
    ∀ {sources : List SourceFile}, xs.map files.read = sources.map .ok →
      sources.map (·.path) = xs.map absoluteName := by
  induction xs with
  | nil =>
    intro sources h
    cases sources with
    | nil => rfl
    | cons s sources => cases h
  | cons x xs ih =>
    intro sources h
    cases sources with
    | nil => cases h
    | cons s sources =>
      rw [List.map_cons, List.map_cons, List.cons.injEq] at h
      obtain ⟨hread, hrest⟩ := h
      have hpath : s.path = absoluteName x := by
        obtain ⟨text, -, rfl⟩ := source_eq_ok.mp hread
        rfl
      rw [List.map_cons, List.map_cons, ih hrest, hpath]

/-! ## Walks of an audit -/

/-- An audit by one check comes to be another on walks through the units of some names: it follows
every event of every walk, and meets no fault. -/
def TreeAudit.Follows (files : FileSystem) (units : Units) (dirs : List String) :
    List String → TreeAudit → TreeAudit → Prop
  | [], a, b => b = a
  | name :: names, a, b => ∃ u a', units.lookup name = some u ∧
      follow files u (Visit.events (u.visits (.ofDirs dirs)).1) a = (a', none) ∧
      Follows files units dirs names a' b

/-- An audit by one rule behind some files. -/
def TextAudit.checkEach (sources : List SourceFile) (t : TextAudit) : TextAudit :=
  sources.foldl (fun t s => (t.check s).1) t

namespace Audit

variable {files : FileSystem} {units : Units} {dirs : List String} {a : Audit} {name : String}

/-- A walk without a fault tells every check of its events. -/
theorem walkUnit_told (ha : a.fault = none) (h : (a.walkUnit files units dirs name).fault = none) :
    ∃ u, units.lookup name = some u ∧ u.Walkable dirs ∧
      (∀ t ∈ a.trees,
        (TreeAudit.follow files u (Visit.events (u.visits (.ofDirs dirs)).1) t).2 = none) ∧
      a.walkUnit files units dirs name =
        { a with
          trees := a.trees.map fun t =>
            (TreeAudit.follow files u (Visit.events (u.visits (.ofDirs dirs)).1) t).1
          seen := a.seen.union (.ofList (u.filesSeen dirs)) } := by
  unfold walkUnit at h ⊢
  simp only [ha, Option.isSome_none, Bool.false_eq_true, if_false] at h ⊢
  cases hu : units.lookup name with
  | none => simp [hu] at h
  | some u =>
    rw [hu] at h
    obtain ⟨h1, h2⟩ :=
      @Walk.foldl_visit_spec files u (u.visits (.ofDirs dirs)).1 (.ofChecks a.trees) rfl
    cases hw : (Walk.run files u dirs a.trees).1.fault with
    | some e => simp [hw] at h
    | none =>
      obtain ⟨h3, h4⟩ := h2 hw
      refine ⟨u, rfl, (h1.mp hw).1, (h1.mp hw).2, ?_⟩
      simp only [hw]
      rw [show (Walk.run files u dirs a.trees).1.checks = _ from h3,
        show (Walk.run files u dirs a.trees).1.seen = _ from h4]
      rfl

/-- What an audit has come to behind walks that told each of its checks of all events. -/
structure Told (files : FileSystem) (units : Units) (dirs : List String) (names : List String)
    (a a' : Audit) : Prop where
  walks : ∀ n ∈ names, ∃ u, units.lookup n = some u ∧ u.Walkable dirs
  trees : List.Forall₂ (TreeAudit.Follows files units dirs names) a.trees a'.trees
  seen : ∀ x, x ∈ a'.seen.toList ↔ x ∈ a.seen.toList ∨ ∃ n ∈ names, ∃ u,
    units.lookup n = some u ∧ x ∈ u.filesSeen dirs
  texts : a'.texts = a.texts
  events : a'.events = a.events

theorem walkUnits_told (names : List String) : ∀ {a : Audit}, a.fault = none →
    (names.foldl (walkUnit files units dirs) a).fault = none →
    Told files units dirs names a (names.foldl (walkUnit files units dirs) a) := by
  induction names with
  | nil =>
    intro a _ _
    exact ⟨nofun, List.forall₂_same.mpr fun _ _ => rfl, by simp, rfl, rfl⟩
  | cons name names ih =>
    intro a ha h
    rw [List.foldl_cons] at h ⊢
    cases hf : (a.walkUnit files units dirs name).fault with
    | some e =>
      rw [foldl_walkUnit_of_fault hf, hf] at h
      cases h
    | none =>
      obtain ⟨u, hu, hwalk, hfollow, hstep⟩ := walkUnit_told ha hf
      have hrest := ih hf h
      rw [hstep] at hrest ⊢
      refine ⟨List.forall_mem_cons.mpr ⟨⟨u, hu, hwalk⟩, hrest.walks⟩, ?_, ?_, hrest.texts,
        hrest.events⟩
      · have hboth := List.forall₂_and_left _ _ |>.mpr
          ⟨hfollow, List.forall₂_map_left_iff.mp hrest.trees⟩
        exact hboth.imp fun t b ⟨hnone, hb⟩ => ⟨u, _, hu, Prod.ext rfl hnone, hb⟩
      · intro x
        have hone : x ∈ (a.seen.union (.ofList (u.filesSeen dirs))).toList ↔
            x ∈ a.seen.toList ∨ x ∈ u.filesSeen dirs := by
          show x ∈ (OrdSet.insertAll _ _).toList ↔ _
          rw [OrdSet.mem_insertAll, OrdSet.ofList, OrdSet.mem_insertAll]
          simp [OrdSet.empty]
        rw [hrest.seen, hone]
        simp [hu, or_assoc]

/-! ## Files of an audit -/

/-- What an audit tells about a file that it holds to its rules. -/
def fileEvents (x : String) : List AuditEvent :=
  [⟨.fileStarted, some x⟩, ⟨.fileFinished, some x⟩]

theorem checkFile_told (h : (a.checkFile files name).fault = none) :
    ∃ file, files.read name = .ok file ∧
      (a.checkFile files name).texts = a.texts.map (fun t => (t.check file).1) ∧
      (a.checkFile files name).events = a.events ++ fileEvents name ∧
      (a.checkFile files name).seen = a.seen := by
  obtain ⟨file, hr, -⟩ := checkFile_fault.mp h
  obtain ⟨-, htexts, hfault⟩ := checkFile_of_read (a := a) hr
  have hnone : (checkTexts file a.texts).2.2 = none := hfault.symm.trans h
  rw [(checkTexts_spec file a.texts).2 hnone] at htexts
  refine ⟨file, hr, htexts, ?_⟩
  unfold checkFile
  simp only [hr, tell, hnone, Option.isSome_none, Bool.false_eq_true, if_false, and_true]
  exact List.append_assoc ..

/-- What an audit has come to behind the files of some names, of which it held those that are let
through to each of its rules. -/
structure HeldEach (files : FileSystem) (dirs : List String) (xs : List String) (a a' : Audit) :
    Prop where
  texts : ∃ sources : List SourceFile,
    (xs.filter (letsFile dirs)).map files.read = sources.map .ok ∧
      a'.texts = a.texts.map (TextAudit.checkEach sources)
  events : a'.events = a.events ++ (xs.filter (letsFile dirs)).flatMap fileEvents
  trees : a'.trees = a.trees
  seen : a'.seen = a.seen

theorem checkFiles_held (xs : List String) : ∀ {f : VisitFilter} {a : Audit}, f.Coherent dirs →
    a.fault = none → (checkFiles files f a xs).fault = none →
    HeldEach files dirs xs a (checkFiles files f a xs) := by
  induction xs with
  | nil =>
    intro f a _ _ _
    exact ⟨⟨[], rfl, (List.map_id _).symm⟩, (List.append_nil _).symm, rfl, rfl⟩
  | cons x xs ih =>
    intro f a hf ha h
    obtain ⟨f', hcoh, hrun⟩ := @checkFiles_cons files _ _ _ hf ha x xs
    rw [hrun] at h ⊢
    cases hx : letsFile dirs x with
    | false =>
      rw [hx, if_neg Bool.false_ne_true] at h
      obtain ⟨htexts, hevents, htrees, hseen⟩ := ih hcoh ha h
      rw [if_neg Bool.false_ne_true]
      have hfilter : (x :: xs).filter (letsFile dirs) = xs.filter (letsFile dirs) :=
        List.filter_cons_of_neg (by simp [hx])
      exact ⟨by rwa [hfilter], by rwa [hfilter], htrees, hseen⟩
    | true =>
      rw [hx, if_pos rfl] at h
      rw [if_pos rfl]
      cases hc : (a.checkFile files x).fault with
      | some e =>
        rw [checkFiles_of_fault hc, hc] at h
        cases h
      | none =>
        obtain ⟨file, hr, htexts₁, hevents₁, hseen₁⟩ := checkFile_told hc
        obtain ⟨⟨sources, hreads, htexts⟩, hevents, htrees, hseen⟩ := ih hcoh hc h
        have hfilter : (x :: xs).filter (letsFile dirs) = x :: xs.filter (letsFile dirs) :=
          List.filter_cons_of_pos hx
        refine ⟨⟨file :: sources, ?_, ?_⟩, ?_, ?_, hseen.trans hseen₁⟩
        · rw [hfilter, List.map_cons, List.map_cons, hr, hreads]
        · rw [htexts, htexts₁, List.map_map]
          rfl
        · rw [hevents, hevents₁, hfilter, List.flatMap_cons, List.append_assoc]
        · rw [htrees, (checkFile_of_read hr).1]

/-- What an audit that returns was told on its way, and what it has told. -/
theorem run_told {o : AuditOptions} {names : List String}
    (ha : a.fault = none) (h : (a.run files units o names).fault = none) :
    ∃ b, Told files units o.includeDirs names (a.tell .started none) b ∧
      ∃ c, HeldEach files o.includeDirs b.seen.toList b c ∧
        (a.run files units o names).trees = c.trees ∧ (a.run files units o names).texts = c.texts ∧
        (a.run files units o names).seen = c.seen ∧
        (a.run files units o names).events = c.events ++ [⟨.finished, none⟩] := by
  simp only [run] at h ⊢
  have hwalks := @walkUnits_told files units o.includeDirs names (a.tell .started none) ha
  generalize names.foldl (walkUnit files units o.includeDirs) (a.tell .started none) = b
    at h hwalks ⊢
  have hb : b.fault = none := by
    cases hb : b.fault with
    | none => rfl
    | some e =>
      rw [checkFiles_of_fault hb, hb] at h
      simp [hb] at h
  refine ⟨b, hwalks hb, ?_⟩
  have hheld := @checkFiles_held files o.includeDirs b.seen.toList _ b
    (VisitFilter.ofDirs_coherent _) hb
  generalize checkFiles files (.ofDirs o.includeDirs) b b.seen.toList = c at h hheld ⊢
  have hc : c.fault = none := by
    cases hc : c.fault with
    | none => rfl
    | some e => simp [hc] at h
  refine ⟨c, hheld hc, ?_⟩
  simp only [hc, Option.isSome_none, Bool.false_eq_true, if_false]
  exact ⟨rfl, rfl, rfl, rfl⟩

/-- If an audit returns, it has seen the files of the trees that its walks came to. It held those of
them that are below one of its directories to each of its rules, and no others. Each of its checks
followed every walk to its end. On these walks every tree was entered that is in a file held to the
rules and that the walk came to, and nothing else but units. -/
theorem run_holds_seen_files {o : AuditOptions} {trees : List TreeCheck} {texts : List TextRule}
    {names : List String} (h : ((new trees texts).run files units o names).fault = none) :
    let a := (new trees texts).run files units o names
    let held := a.seen.toList.filter (letsFile o.includeDirs)
    (∀ x, x ∈ a.seen.toList ↔ ∃ n ∈ names, ∃ u, units.lookup n = some u ∧
      ∃ t, u.Reached o.includeDirs t ∧ t.node.file? = some x) ∧
    (∀ x, x ∈ held ↔ x ∈ a.seen.toList ∧
      ∃ d ∈ o.includeDirs, (absoluteName d).toList <+: (absoluteName x).toList) ∧
    (∃ sources : List SourceFile, held.map files.read = sources.map .ok ∧
      sources.map (·.path) = held.map absoluteName ∧
      a.texts = texts.map fun r => (TextAudit.ofRule r).checkEach sources) ∧
    a.events = ⟨.started, none⟩ :: held.flatMap fileEvents ++ [⟨.finished, none⟩] ∧
    List.Forall₂ (fun c b => TreeAudit.Follows files units o.includeDirs names (.ofCheck c) b)
      trees a.trees ∧
    ∀ n ∈ names, ∃ u, units.lookup n = some u ∧
      let entered := Visit.events (u.visits (.ofDirs o.includeDirs)).1
      ∀ t, (∀ x ∈ held, u.Reached o.includeDirs t → t.node.file? = some x → .enter t ∈ entered) ∧
        (.enter t ∈ entered → t.node.kind ≠ .ok .translationUnit →
          ∃ x ∈ held, t.node.file? = some x) := by
  intro a held
  obtain ⟨b, htold, c, hheld, htrees, htexts, hseen, hevents⟩ :=
    run_told (a := new trees texts) rfl h
  have hmem : ∀ x, x ∈ a.seen.toList ↔ ∃ n ∈ names, ∃ u, units.lookup n = some u ∧
      ∃ t, u.Reached o.includeDirs t ∧ t.node.file? = some x := by
    intro x
    rw [show a.seen = b.seen from hseen.trans hheld.seen, htold.seen]
    simp [TranslationUnit.mem_filesSeen, new, tell, OrdSet.empty]
  have hheldmem : ∀ x, x ∈ held ↔ x ∈ a.seen.toList ∧ letsFile o.includeDirs x = true :=
    fun x => List.mem_filter
  have hlists : b.seen.toList.filter (letsFile o.includeDirs) = held := by
    show _ = (a.seen.toList.filter _)
    rw [show a.seen = b.seen from hseen.trans hheld.seen]
  obtain ⟨⟨sources, hreads, hchecked⟩, htell, hsame, -⟩ := hheld
  rw [hlists] at hreads htell
  refine ⟨hmem, fun x => ?_, ⟨sources, hreads, ?_, ?_⟩, ?_, ?_, fun n hn => ?_⟩
  · rw [hheldmem, VisitFilter.letsFile_iff]
  · exact FileSystem.paths_of_reads hreads
  · rw [show a.texts = c.texts from htexts, hchecked, htold.texts]
    exact List.map_map ..
  · rw [show a.events = _ from hevents, htell, htold.events]
    rfl
  · rw [show a.trees = b.trees from htrees.trans hsame]
    exact List.forall₂_map_left_iff.mp htold.trees
  · obtain ⟨u, hu, hwalk⟩ := htold.walks n hn
    refine ⟨u, hu, fun t => ⟨fun x hx ht hf => ?_, fun he hk => ?_⟩⟩
    · obtain ⟨k, hk⟩ := hwalk.kind ht
      have hlets := (VisitFilter.letsThrough_iff hk).mpr (.inr ⟨x, hf, ((hheldmem x).mp hx).2⟩)
      exact hwalk.enter_mem_events.mpr ⟨ht, hlets⟩
    · obtain ⟨ht, hl⟩ := hwalk.enter_mem_events.mp he
      obtain ⟨k, hk'⟩ := hwalk.kind ht
      rcases (VisitFilter.letsThrough_iff hk').mp hl with rfl | ⟨x, hf, hx⟩
      · exact absurd hk' hk
      · exact ⟨x, (hheldmem x).mpr ⟨(hmem x).mpr ⟨n, hn, u, hu, t, ht, hf⟩, hx⟩, hf⟩

/-- A statement in one file, and one in another with a third file below it. -/
def unitAcrossFiles : TranslationUnit where
  root := (Tree.mk (.atStart .translationUnit) [
    .mk { Node.atStart .returnStmt with
        file := some "src/a.cc"
        extent := ⟨some "src/a.cc", ⟨1, 1⟩, ⟨1, 2⟩⟩ } [],
    .mk { Node.atStart .returnStmt with file := some "lib/b.h" } [
      .mk { Node.atStart .returnStmt with file := some "src/c.cc" } []]]).number
  tokens := []

def sourceFile : FileSystem := ⟨[("/src/a.cc", [0x78, 0x0A])]⟩

def includeSource : AuditOptions := ⟨["/src"], ⟨false, false, []⟩⟩

/-- The third file is below the directory, but the walk does not come to it. -/
theorem run_holds_seen_files_across :
    let a := (new [.indent (.ofStyle .standard)] [.noTrailingBlanks]).run sourceFile
      [("a.cc", unitAcrossFiles)] includeSource ["a.cc"]
    a.fault = none ∧ a.seen.toList = ["a.cc", "lib/b.h", "src/a.cc"] ∧
      a.events.map (·.file) = [none, some "src/a.cc", some "src/a.cc", none] ∧
      ∀ t, .enter t ∈ Visit.events (unitAcrossFiles.visits (.ofDirs ["/src"])).1 →
        t.node.kind ≠ .ok .translationUnit → t.node.file? = some "src/a.cc" := by
  intro a
  have hf : a.fault = none := by decide +kernel
  have hseen : a.seen.toList = ["a.cc", "lib/b.h", "src/a.cc"] := by decide +kernel
  obtain ⟨-, -, -, hevents, -, hentered⟩ := run_holds_seen_files hf
  have hheld : a.seen.toList.filter (letsFile includeSource.includeDirs) = ["src/a.cc"] := by
    rw [hseen]
    decide +kernel
  refine ⟨hf, hseen, ?_, fun t ht hk => ?_⟩
  · rw [show a.events = _ from hevents, hheld]
    rfl
  · obtain ⟨u, hu, hall⟩ := hentered "a.cc" List.mem_cons_self
    cases hu
    obtain ⟨x, hx, hfile⟩ := (hall t).2 ht hk
    rw [hheld, List.mem_singleton] at hx
    rw [hfile, hx]

end Audit

end StyleCheck
