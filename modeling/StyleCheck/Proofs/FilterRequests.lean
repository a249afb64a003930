import StyleCheck.Proofs.SeenFiles
import StyleCheck.Proofs.Spellings

/-!
# Filters and what they were asked before

A filter knows of the requests made to it which files they block (`Blocks`), and keeps an answer
under each absolute name that one of them asked about while it was not blocked (`Answered`). What it
says next follows from that (`Recalls`). As long as nothing is blocked, it does not matter what was
asked before, nor how a name is spelled. A file that is blocked is refused only if there is an
answer for it that says so (`TellsBlocked`), and a walk blocks what it has asked about itself.
-/

namespace StyleCheck

theorem OrdSet.contains_iff {s : OrdSet String} {x : String} :
    s.contains x = true ↔ x ∈ s.toList := by
  simp [contains]

namespace VisitFilter

/-! ## Requests -/

/-- The file that a request asks about. -/
def Request.asked? : Request → Option String
  | file name => some name
  | node n =>
    match n.kind with
    | .error _ => none
    | .ok k => if k = .translationUnit then none else n.file?
  | block _ => none

/-- The filter behind some requests. -/
def after (f : VisitFilter) (rs : List Request) : VisitFilter :=
  rs.foldl (fun f r => (f.step r).2) f

theorem after_cons (f : VisitFilter) (r : Request) (rs : List Request) :
    f.after (r :: rs) = (f.step r).2.after rs := rfl

theorem after_append (f : VisitFilter) (rs rs' : List Request) :
    f.after (rs ++ rs') = (f.after rs).after rs' := List.foldl_append

/-- What a filter says to requests, one after the other. -/
def replies (f : VisitFilter) : List Request → List (Except Fault (Option Bool))
  | [] => []
  | r :: rs => (f.step r).1 :: (f.step r).2.replies rs

/-- Whether one of the requests blocks a file. -/
def Blocks (rs : List Request) (name : String) : Prop :=
  ∃ names, Request.block names ∈ rs ∧ name ∈ names

/-- Whether one of the requests asks about a file of this absolute name, under a name that none of
those before it blocks. -/
def Answered (rs : List Request) (path : String) : Prop :=
  ∃ before r later name, rs = before ++ r :: later ∧ r.asked? = some name ∧
    absoluteName name = path ∧ ¬ Blocks before name

variable {dirs : List String} {rs : List Request} {r : Request} {f : VisitFilter}
  {name path : String} {answer : Bool}

theorem blocks_append {rs' : List Request} :
    Blocks (rs ++ rs') name ↔ Blocks rs name ∨ Blocks rs' name := by
  simp only [Blocks, List.mem_append, or_and_right, exists_or]

theorem blocks_singleton_block {names : List String} :
    Blocks [.block names] name ↔ name ∈ names := by
  simp [Blocks]

theorem not_blocks_of_ne (h : ∀ r ∈ rs, ∀ names, r ≠ .block names) : ¬ Blocks rs name := by
  rintro ⟨names, hr, -⟩
  exact h _ hr names rfl

theorem blocks_concat_of_ne (h : ∀ names, r ≠ .block names) :
    Blocks (rs ++ [r]) name ↔ Blocks rs name := by
  rw [blocks_append, or_iff_left (not_blocks_of_ne (List.forall_mem_singleton.mpr h))]

theorem answered_concat : Answered (rs ++ [r]) path ↔ Answered rs path ∨
    ∃ name, r.asked? = some name ∧ absoluteName name = path ∧ ¬ Blocks rs name := by
  constructor
  · rintro ⟨before, x, later, name, hsplit, hx, hname, hfree⟩
    rcases List.eq_nil_or_concat later with rfl | ⟨later, y, rfl⟩
    · obtain ⟨rfl, hr⟩ := List.append_inj' hsplit rfl
      cases hr
      exact .inr ⟨name, hx, hname, hfree⟩
    · rw [List.concat_eq_append, ← List.cons_append, ← List.append_assoc] at hsplit
      obtain ⟨rfl, -⟩ := List.append_inj' hsplit rfl
      exact .inl ⟨before, x, later, name, rfl, hx, hname, hfree⟩
  · rintro (⟨before, x, later, name, rfl, hx⟩ | ⟨name, hr, hname, hfree⟩)
    · exact ⟨before, x, later ++ [r], name, by simp, hx⟩
    · exact ⟨rs, r, [], name, rfl, hr, hname, hfree⟩

theorem answered_concat_block {names : List String} :
    Answered (rs ++ [.block names]) path ↔ Answered rs path := by
  rw [answered_concat]
  simp [Request.asked?]

theorem asked?_node {n : Node} {k : Kind} (hk : n.kind = .ok k) :
    (Request.node n).asked? = some name ↔ k ≠ .translationUnit ∧ n.file? = some name := by
  simp only [Request.asked?, hk]
  by_cases hu : k = .translationUnit <;> simp [hu]

/-- As long as nothing is blocked, every file that is asked about is answered. -/
theorem answered_of_free (hfree : ∀ x, ¬ Blocks rs x) :
    Answered rs path ↔ ∃ r ∈ rs, ∃ name, r.asked? = some name ∧ absoluteName name = path := by
  constructor
  · rintro ⟨before, r, later, name, rfl, hr, hname, -⟩
    exact ⟨r, List.mem_append_right _ List.mem_cons_self, name, hr, hname⟩
  · rintro ⟨r, hmem, name, hr, hname⟩
    obtain ⟨before, later, rfl⟩ := List.append_of_mem hmem
    have hbefore : ¬ Blocks before name := fun hb => hfree name (blocks_append.mpr (.inl hb))
    exact ⟨before, r, later, name, rfl, hr, hname, hbefore⟩

/-- There are answers for absolute names only. -/
theorem Answered.absolute (h : Answered rs path) : absoluteName path = path := by
  obtain ⟨_, _, _, name, -, -, rfl, -⟩ := h
  exact absoluteName_idem name

/-! ## What a filter recalls -/

/-- All that a filter can do when it is asked about a file. -/
theorem allowsFile_cases (f : VisitFilter) (name : String) :
    (∃ answer, f.cache.lookup name = some answer ∧ f.allowsFile name = (.ok answer, f)) ∨
    (f.cache.lookup name = none ∧ name ∈ f.blocked.toList ∧
      f.allowsFile name = (.error (.blockedFile name), f)) ∨
    f.cache.lookup name = none ∧ name ∉ f.blocked.toList ∧
      f.allowsFile name = (.ok (covers f.dirs (absoluteName name)),
        f.remember (absoluteName name) (covers f.dirs (absoluteName name))) := by
  unfold allowsFile
  cases hl : f.cache.lookup name with
  | some answer => exact .inl ⟨answer, rfl, rfl⟩
  | none =>
    by_cases hb : name ∈ f.blocked.toList
    · exact .inr (.inl ⟨rfl, hb, if_pos (OrdSet.contains_iff.mpr hb)⟩)
    · exact .inr (.inr ⟨rfl, hb, if_neg fun hc => hb (OrdSet.contains_iff.mp hc)⟩)

/-- A filter for `dirs` behind some requests. -/
structure Recalls (dirs : List String) (rs : List Request) (f : VisitFilter) : Prop where
  dirs_eq : f.dirs = dirs.map absoluteName
  blocked : ∀ name, name ∈ f.blocked.toList ↔ Blocks rs name
  answers : ∀ path answer,
    f.cache.lookup path = some answer ↔ Answered rs path ∧ answer = letsFile dirs path

theorem ofDirs_recalls (dirs : List String) : (ofDirs dirs).Recalls dirs [] := by
  refine ⟨rfl, fun name => ?_, fun path answer => ?_⟩
  · simp [ofDirs, OrdSet.empty, Blocks]
  · simp [ofDirs, Answered]

namespace Recalls

theorem lookup_eq_none (h : f.Recalls dirs rs) :
    f.cache.lookup path = none ↔ ¬ Answered rs path := by
  rw [Option.eq_none_iff_forall_ne_some]
  simp only [ne_eq, h.answers, not_and]
  exact ⟨fun hall hans => hall _ hans rfl, fun hans _ hyes => absurd hyes hans⟩

/-- A filter says what the rule says, unless the file is blocked and there is no answer for it. -/
theorem reply (h : f.Recalls dirs rs) (name : String) :
    (f.allowsFile name).1 = .ok (letsFile dirs name) ∧ (Answered rs name ∨ ¬ Blocks rs name) ∨
      (f.allowsFile name).1 = .error (.blockedFile name) ∧ ¬ Answered rs name ∧ Blocks rs name := by
  rcases f.allowsFile_cases name with ⟨answer, hl, hf⟩ | ⟨hl, hb, hf⟩ | ⟨hl, hb, hf⟩
  · obtain ⟨hans, rfl⟩ := (h.answers name answer).mp hl
    exact .inl ⟨by rw [hf], .inl hans⟩
  · exact .inr ⟨by rw [hf], h.lookup_eq_none.mp hl, (h.blocked name).mp hb⟩
  · exact .inl ⟨by rw [hf, h.dirs_eq]; rfl, .inr fun hblocks => hb ((h.blocked name).mpr hblocks)⟩

/-- A filter stays as it is if a request neither blocks anything nor is answered anew. -/
theorem keep (h : f.Recalls dirs rs) (hr : ∀ names, r ≠ .block names)
    (hans : ∀ name, r.asked? = some name → ¬ Blocks rs name → Answered rs (absoluteName name)) :
    f.Recalls dirs (rs ++ [r]) := by
  refine ⟨h.dirs_eq, fun x => ?_, fun path answer => ?_⟩
  · rw [h.blocked, blocks_concat_of_ne hr]
  · rw [h.answers, answered_concat, or_iff_left_of_imp]
    rintro ⟨name, hname, rfl, hfree⟩
    exact hans name hname hfree

/-- An answer is kept under the absolute name of a file that is not blocked. -/
theorem remember (h : f.Recalls dirs rs) (hr : r.asked? = some name) (hfree : ¬ Blocks rs name) :
    (f.remember (absoluteName name) (letsFile dirs name)).Recalls dirs (rs ++ [r]) := by
  refine ⟨h.dirs_eq, fun x => ?_, fun path answer => ?_⟩
  · rw [blocks_concat_of_ne (by rintro names rfl; cases hr)]
    exact h.blocked x
  · have hnew : Answered (rs ++ [r]) path ↔ Answered rs path ∨ path = absoluteName name := by
      rw [answered_concat, hr]
      simp [hfree, eq_comm]
    rw [lookup_remember, hnew]
    by_cases hp : path = absoluteName name
    · rw [if_pos hp, hp, letsFile_absoluteName]
      simp [eq_comm]
    · rw [if_neg hp, or_iff_left hp, h.answers]

/-- Asked about a file, a filter keeps the answer unless the file is blocked. -/
theorem ask (h : f.Recalls dirs rs) (hr : r.asked? = some name) :
    (f.allowsFile name).2.Recalls dirs (rs ++ [r]) := by
  have hne : ∀ names, r ≠ .block names := by
    rintro names rfl
    cases hr
  rcases f.allowsFile_cases name with ⟨answer, hl, hf⟩ | ⟨hl, hb, hf⟩ | ⟨hl, hb, hf⟩
  · -- names that there is an answer under are absolute, so the answer is under the right one
    have hans : Answered rs name := ((h.answers name answer).mp hl).1
    rw [hf]
    refine h.keep hne fun other hother _ => ?_
    cases hr.symm.trans hother
    rwa [hans.absolute]
  · rw [hf]
    refine h.keep hne fun other hother hfree => ?_
    cases hr.symm.trans hother
    exact absurd ((h.blocked name).mp hb) hfree
  · rw [hf, h.dirs_eq]
    exact h.remember hr fun hblocks => hb ((h.blocked name).mpr hblocks)

theorem block (h : f.Recalls dirs rs) {names : List String} {s : OrdSet String}
    (hs : ∀ x, x ∈ s.toList ↔ x ∈ names) : (f.block s).Recalls dirs (rs ++ [.block names]) := by
  refine ⟨h.dirs_eq, fun x => ?_, fun path answer => ?_⟩
  · rw [blocks_append, blocks_singleton_block, ← h.blocked, ← hs]
    exact OrdSet.mem_insertAll
  · rw [answered_concat_block]
    exact h.answers path answer

theorem step (h : f.Recalls dirs rs) (r : Request) : (f.step r).2.Recalls dirs (rs ++ [r]) := by
  cases r with
  | file name => exact h.ask rfl
  | block names =>
    exact h.block fun x => by simp [OrdSet.ofList, OrdSet.mem_insertAll, OrdSet.empty]
  | node n =>
    have hne : ∀ names, Request.node n ≠ .block names := fun _ he => by cases he
    show (f.allowsNode n).2.Recalls dirs (rs ++ [.node n])
    cases hk : n.kind with
    | error e =>
      rw [allowsNode_of_error f hk]
      exact h.keep hne fun name hname => by simp [Request.asked?, hk] at hname
    | ok k =>
      rw [allowsNode_of_kind f hk]
      have hasked : ∀ name, (Request.node n).asked? = some name ↔ _ := fun name => asked?_node hk
      by_cases hu : k = .translationUnit
      · rw [if_pos hu]
        exact h.keep hne fun name hname => absurd hu ((hasked name).mp hname).1
      · rw [if_neg hu]
        cases hfile : n.file? with
        | none => exact h.keep hne fun name hname => by simp [hasked, hfile] at hname
        | some name => exact h.ask ((hasked name).mpr ⟨hu, hfile⟩)

theorem after (h : f.Recalls dirs rs) (rs' : List Request) :
    (f.after rs').Recalls dirs (rs ++ rs') := by
  induction rs' generalizing f rs with
  | nil => rwa [List.append_nil]
  | cons r rs' ih =>
    rw [List.append_cons]
    exact ih (h.step r)

end Recalls

theorem after_recalls (dirs : List String) (rs : List Request) :
    ((ofDirs dirs).after rs).Recalls dirs rs := (ofDirs_recalls dirs).after rs

/-! ## Nothing blocked -/

theorem not_blocks_files (names : List String) (name : String) :
    ¬ Blocks (names.map .file) name :=
  not_blocks_of_ne (by simp)

theorem Recalls.allowsFile_of_free (h : f.Recalls dirs rs) (hfree : ¬ Blocks rs name) :
    (f.allowsFile name).1 = .ok (letsFile dirs name) := by
  rcases h.reply name with ⟨hok, -⟩ | ⟨-, -, hblocks⟩
  · exact hok
  · exact absurd hblocks hfree

theorem Recalls.replies_files (names : List String) : ∀ {f : VisitFilter} {rs : List Request},
    f.Recalls dirs rs → (∀ name, ¬ Blocks rs name) →
    f.replies (names.map .file) = names.map fun name => .ok (some (letsFile dirs name)) := by
  induction names with
  | nil => exact fun _ _ => rfl
  | cons name names ih =>
    intro f rs h hfree
    have hnext : ∀ x, ¬ Blocks (rs ++ [.file name]) x := fun x => by
      rw [blocks_concat_of_ne fun _ he => by cases he]
      exact hfree x
    have hfirst : (f.step (.file name)).1 = .ok (some (letsFile dirs name)) := by
      show some <$> (f.allowsFile name).1 = _
      rw [h.allowsFile_of_free (hfree name)]
      rfl
    rw [List.map_cons, List.map_cons, replies, hfirst, ih (h.step (.file name)) hnext]

/-- A filter that blocks nothing says of each file whether its absolute name starts with that of an
included directory. So it matters neither what it was asked before nor how a name is spelled. -/
theorem replies_by_absolute_name (dirs : List String) :
    (∀ names : List String, (ofDirs dirs).replies (names.map .file) = names.map fun name =>
      .ok (some (decide (∃ d ∈ dirs, (absoluteName d).toList <+: (absoluteName name).toList)))) ∧
    ∀ earlier others a b, (∀ x, ¬ Blocks earlier x) → (∀ x, ¬ Blocks others x) →
      AbsPath.Respelled a b →
      (((ofDirs dirs).after earlier).allowsFile a).1 =
        (((ofDirs dirs).after others).allowsFile b).1 := by
  constructor
  · intro names
    have hrule : ∀ name, letsFile dirs name =
        decide (∃ d ∈ dirs, (absoluteName d).toList <+: (absoluteName name).toList) := by
      intro name
      rw [Bool.eq_iff_iff, letsFile_iff, decide_eq_true_iff]
    rw [(ofDirs_recalls dirs).replies_files names (not_blocks_files [])]
    simp only [hrule]
  · intro earlier others a b hearlier hothers hab
    rw [(after_recalls dirs earlier).allowsFile_of_free (hearlier a),
      (after_recalls dirs others).allowsFile_of_free (hothers b), letsFile, letsFile,
      absoluteName_eq_iff.mpr hab]

/-- Files asked about under several names. Two slashes at the start are not the same as one. -/
theorem replies_by_absolute_name_respelled :
    (ofDirs ["src/../lib"]).replies (["lib//x.h", "//lib/x.h", "/lib/x.h"].map .file) =
      [.ok (some true), .ok (some false), .ok (some true)] ∧
    AbsPath.Respelled "../lib/y/" "/lib/./z/../y" ∧
    (((ofDirs ["src/../lib"]).after (["lib/y", "z"].map .file)).allowsFile "../lib/y/").1 =
      (((ofDirs ["src/../lib"]).after (([] : List String).map .file)).allowsFile
        "/lib/./z/../y").1 := by
  obtain ⟨hreplies, hsame⟩ := replies_by_absolute_name ["src/../lib"]
  have hab : AbsPath.Respelled "../lib/y/" "/lib/./z/../y" :=
    absoluteName_eq_iff.mp (by decide +kernel)
  refine ⟨?_, hab, hsame _ _ _ _ (not_blocks_files _) (not_blocks_files _) hab⟩
  rw [hreplies]
  decide +kernel

/-! ## Blocked files -/

/-- What a filter says of a blocked file. It is refused if there is an answer for it and that answer
says so. Without an answer, the filter comes to a fault. -/
structure TellsBlocked (f : VisitFilter) (dirs : List String) (x : String) (known : Prop) :
    Prop where
  refused : (f.allowsFile x).1 = .ok false ↔
    known ∧ ¬ ∃ d ∈ dirs, (absoluteName d).toList <+: x.toList
  allowed : (f.allowsFile x).1 = .ok true ↔
    known ∧ ∃ d ∈ dirs, (absoluteName d).toList <+: x.toList
  fault : (f.allowsFile x).1 = .error (.blockedFile x) ↔ ¬ known

theorem TellsBlocked.congr {known known' : Prop} (h : f.TellsBlocked dirs name known)
    (hk : known ↔ known') : f.TellsBlocked dirs name known' := by
  rwa [← propext hk]

theorem Recalls.tellsBlocked (h : f.Recalls dirs rs) (hb : Blocks rs name) :
    f.TellsBlocked dirs name (Answered rs name) := by
  rcases h.reply name with ⟨hf, hans | hfree⟩ | ⟨hf, hans, -⟩
  · have hlets : letsFile dirs name = true ↔
        ∃ d ∈ dirs, (absoluteName d).toList <+: name.toList := by
      rw [letsFile_iff, hans.absolute]
    refine ⟨?_, ?_, ?_⟩ <;> rw [hf]
    · simp only [← hlets, hans, true_and, Except.ok.injEq, Bool.not_eq_true]
    · simp only [← hlets, hans, true_and, Except.ok.injEq]
    · simp [hans]
  · exact absurd hb hfree
  · refine ⟨?_, ?_, ?_⟩ <;> rw [hf] <;> simp [hans]

end VisitFilter

open VisitFilter

/-- A walk asks its filter about the trees that it comes to. -/
theorem Tree.filter_visits {dirs : List String} (t : Tree) : ∀ {f : VisitFilter}, f.Coherent dirs →
    (t.visits f).2 = f.after ((t.reached (letsThrough dirs)).map fun s => .node s.node) := by
  induction t using children_induction with
  | mk n cs ih =>
    have hcs : ∀ {f : VisitFilter}, f.Coherent dirs → (visitsAll f cs).2 =
        f.after ((reachedAll (letsThrough dirs) cs).map fun s => .node s.node) := by
      induction cs with
      | nil => exact fun _ => rfl
      | cons c cs ihcs =>
        intro f hf
        rw [visitsAll, reachedAll, List.map_append, after_append, ← ih c List.mem_cons_self hf]
        exact ihcs (fun d hd => ih d (List.mem_cons_of_mem c hd)) (c.events_visits hf).2
    intro f hf
    rw [visits, reached, List.map_cons, after_cons]
    cases hk : n.kind with
    | error e =>
      have hl : letsThrough dirs n = false := by
        rw [letsThrough, allowsNode_of_error _ hk]
      simp [step, allowsNode_of_error _ hk, hl, after]
    | ok k =>
      obtain ⟨f', hf', hc⟩ := hf.allowsNode hk
      have hstep : (f.step (.node n)).2 = f' := congrArg Prod.snd hf'
      rw [node_mk, hstep, hf']
      cases hl : letsThrough dirs n with
      | false => simp [after]
      | true => exact hcs hc

/-- What a walk without a fault has asked of its filter. -/
def TranslationUnit.requests (u : TranslationUnit) (dirs : List String) : List Request :=
  (u.root.reached (letsThrough dirs)).map fun t => .node t.node

namespace TranslationUnit

variable {u : TranslationUnit} {dirs : List String} {x : String}

theorem not_blocks_requests : ¬ Blocks (u.requests dirs) x :=
  not_blocks_of_ne (by simp [requests])

/-- A walk has answers for the files of the trees that it comes to, units apart. -/
theorem Walkable.answered_requests (h : u.Walkable dirs) : Answered (u.requests dirs) x ↔
    ∃ t y, u.Reached dirs t ∧ t.node.kind ≠ .ok .translationUnit ∧
      t.node.file? = some y ∧ absoluteName y = x := by
  rw [answered_of_free fun _ => not_blocks_requests]
  constructor
  · rintro ⟨r, hr, y, hy, hx⟩
    obtain ⟨t, ht, rfl⟩ := List.mem_map.mp hr
    obtain ⟨k, hk⟩ := h.kind (Tree.mem_reached.mp ht)
    obtain ⟨hu, hfile⟩ := (asked?_node hk).mp hy
    exact ⟨t, y, Tree.mem_reached.mp ht, by simpa [hk] using hu, hfile, hx⟩
  · rintro ⟨t, y, ht, hu, hfile, hx⟩
    obtain ⟨k, hk⟩ := h.kind ht
    exact ⟨_, List.mem_map_of_mem (Tree.mem_reached.mpr ht), y,
      (asked?_node hk).mpr ⟨by simpa [hk] using hu, hfile⟩, hx⟩

end TranslationUnit

/-- The filter of a walk is one that was asked about the trees that the walk comes to, and blocked
the files seen behind that. -/
theorem Walk.run_recalls {files : FileSystem} {u : TranslationUnit} {dirs : List String}
    {checks : List TreeAudit} (hf : (run files u dirs checks).1.fault = none) :
    ∃ f, (run files u dirs checks).2 = some f ∧ f.Recalls dirs
      (u.requests dirs ++ [.block (run files u dirs checks).1.seen.toList]) := by
  refine ⟨_, if_neg (Option.not_isSome_iff_eq_none.mpr hf), ?_⟩
  rw [show (u.visits (.ofDirs dirs)).2 = (u.root.visits (.ofDirs dirs)).2 from rfl,
    u.root.filter_visits (ofDirs_coherent dirs)]
  exact (after_recalls dirs (u.requests dirs)).block fun _ => Iff.rfl

namespace VisitFilter

/-- A blocked file is refused if some name that stands for it was asked about while that name was
not blocked, and if the file is in none of the directories. Otherwise it is let through, or asking
about it comes to a fault. So it is, too, with the files that a walk has seen. -/
theorem blocked_refused_iff (dirs : List String) :
    (∀ rs x, Blocks rs x → ((ofDirs dirs).after rs).TellsBlocked dirs x (Answered rs x)) ∧
    ∀ files u checks, (Walk.run files u dirs checks).1.fault = none →
      ∃ f, (Walk.run files u dirs checks).2 = some f ∧
        ∀ x ∈ (Walk.run files u dirs checks).1.seen.toList, f.TellsBlocked dirs x
          (∃ t y, u.Reached dirs t ∧ t.node.kind ≠ .ok .translationUnit ∧
            t.node.file? = some y ∧ absoluteName y = x) := by
  refine ⟨fun rs x hb => (after_recalls dirs rs).tellsBlocked hb, ?_⟩
  intro files u checks hf
  have hwalk : u.Walkable dirs := ((Walk.run_spec files u dirs checks).1.mp hf).1
  obtain ⟨f, hfilter, hrecalls⟩ := Walk.run_recalls hf
  refine ⟨f, hfilter, fun x hx => ?_⟩
  have hb : Blocks (u.requests dirs ++ [.block (Walk.run files u dirs checks).1.seen.toList]) x :=
    blocks_append.mpr (.inr (blocks_singleton_block.mpr hx))
  refine (hrecalls.tellsBlocked hb).congr ?_
  rw [answered_concat_block, hwalk.answered_requests]

/-- A unit with a statement in each of some files. -/
def unitOfFiles (names : List String) : TranslationUnit where
  root := (Tree.mk (.atStart .translationUnit) (names.map fun name =>
    .mk { Node.atStart .returnStmt with file := some name } [])).number
  tokens := []

/-- Of three files seen on a walk, one is let through, one is refused, and one comes to a fault. -/
theorem blocked_refused_iff_walked :
    let w := Walk.run ⟨[]⟩ (unitOfFiles ["/src/a.cc", "/lib/b.h", "src/c.cc"]) ["/src"] []
    Blocks [.file "x/../b.h", .block ["/b.h"]] "/b.h" ∧
    (((ofDirs ["/src"]).after [.file "x/../b.h", .block ["/b.h"]]).allowsFile "/b.h").1 =
      .ok false ∧
    w.1.fault = none ∧ (∀ x ∈ ["/src/a.cc", "/lib/b.h", "src/c.cc"], x ∈ w.1.seen.toList) ∧
    ∃ f, w.2 = some f ∧
      (f.allowsFile "/src/a.cc").1 = .ok true ∧ (f.allowsFile "/lib/b.h").1 = .ok false ∧
      (f.allowsFile "src/c.cc").1 = .error (.blockedFile "src/c.cc") := by
  intro w
  obtain ⟨hasked, hwalked⟩ := blocked_refused_iff ["/src"]
  have hb : Blocks [.file "x/../b.h", .block ["/b.h"]] "/b.h" :=
    ⟨["/b.h"], by simp, by simp⟩
  have hans : Answered [.file "x/../b.h", .block ["/b.h"]] "/b.h" :=
    ⟨[], _, _, _, rfl, rfl, by decide +kernel, not_blocks_files [] _⟩
  have hf : w.1.fault = none := by decide +kernel
  have hseen : ∀ x ∈ ["/src/a.cc", "/lib/b.h", "src/c.cc"], x ∈ w.1.seen.toList := by
    decide +kernel
  have hknown : ∀ x ∈ ["/src/a.cc", "/lib/b.h"],
      ∃ t ∈ (unitOfFiles ["/src/a.cc", "/lib/b.h", "src/c.cc"]).root.reached (letsThrough ["/src"]),
        t.node.kind ≠ .ok .translationUnit ∧ t.node.file? = some x ∧ absoluteName x = x := by
    decide +kernel
  obtain ⟨a, ha⟩ := hknown "/src/a.cc" (by simp)
  obtain ⟨b, hb'⟩ := hknown "/lib/b.h" (by simp)
  obtain ⟨f, hfilter, htells⟩ := hwalked _ _ _ hf
  refine ⟨hb, (hasked _ _ hb).refused.mpr ⟨hans, by decide +kernel⟩, hf, hseen, f, hfilter,
    ?_, ?_, ?_⟩
  · exact (htells _ (hseen _ (by simp))).allowed.mpr
      ⟨⟨a, _, Tree.mem_reached.mp ha.1, ha.2⟩, by decide +kernel⟩
  · exact (htells _ (hseen _ (by simp))).refused.mpr
      ⟨⟨b, _, Tree.mem_reached.mp hb'.1, hb'.2⟩, by decide +kernel⟩
  · refine (htells _ (hseen _ (by simp))).fault.mpr ?_
    rintro ⟨t, y, -, -, -, hy⟩
    have hidem := absoluteName_idem y
    rw [hy] at hidem
    exact absurd hidem (by decide +kernel)

/-- A file that is asked about only when it is blocked, and one that is asked about before. -/
theorem blocked_not_refused :
    (((ofDirs ["/"]).after [.block ["/a.cpp"]]).allowsFile "/a.cpp").1 =
      .error (.blockedFile "/a.cpp") ∧
    (((ofDirs ["/"]).after [.file "/a.cpp", .block ["/a.cpp"]]).allowsFile "/a.cpp").1 =
      .ok true := by
  decide +kernel

end VisitFilter

end StyleCheck
