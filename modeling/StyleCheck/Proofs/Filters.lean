import StyleCheck.Proofs.Paths
import StyleCheck.Walk.Filter

/-!
# What filters let through

A filter keeps its answers under absolute names and looks them up under any name. As absolute names
stand for themselves, every answer kept is the one that a filter gives that was asked nothing
before: `letsThrough` for nodes, `letsFile` for files.
-/

namespace StyleCheck

/-- Entries of another name are found as before. -/
theorem lookup_filter_ne {β : Type} {name other : String} (h : other ≠ name)
    (entries : List (String × β)) :
    (entries.filter fun e => e.1 != name).lookup other = entries.lookup other := by
  induction entries with
  | nil => rfl
  | cons e entries ih =>
    by_cases he : e.1 = name
    · have hne : (other == e.1) = false := by rw [he]; exact beq_eq_false_iff_ne.mpr h
      rw [List.filter_cons_of_neg (by simpa using he), ih, List.lookup_cons, hne]
    · rw [List.filter_cons_of_pos (by simpa using he), List.lookup_cons, List.lookup_cons, ih]

namespace VisitFilter

/-- Whether a file is below one of the directories. -/
def letsFile (dirs : List String) (name : String) : Bool :=
  covers (dirs.map absoluteName) (absoluteName name)

/-- Whether a filter that was asked nothing before lets a node through. -/
def letsThrough (dirs : List String) (n : Node) : Bool :=
  match ((ofDirs dirs).allowsNode n).1 with
  | .ok answer => answer
  | .error _ => false

/-- A filter for `dirs` that has blocked nothing and keeps right answers. -/
structure Coherent (dirs : List String) (f : VisitFilter) : Prop where
  dirs_eq : f.dirs = dirs.map absoluteName
  unblocked : f.blocked = .empty
  answers : ∀ name answer, f.cache.lookup name = some answer → answer = letsFile dirs name

theorem ofDirs_coherent (dirs : List String) : (ofDirs dirs).Coherent dirs :=
  ⟨rfl, rfl, nofun⟩

variable {dirs : List String} {f : VisitFilter}

theorem lookup_remember (f : VisitFilter) (name other : String) (answer : Bool) :
    (f.remember name answer).cache.lookup other =
      if other = name then some answer else f.cache.lookup other := by
  rw [remember, List.lookup_cons]
  by_cases h : other = name
  · rw [if_pos h, beq_iff_eq.mpr h]
  · rw [if_neg h, beq_eq_false_iff_ne.mpr h, lookup_filter_ne h]

theorem letsFile_absoluteName (dirs : List String) (name : String) :
    letsFile dirs (absoluteName name) = letsFile dirs name := by
  rw [letsFile, letsFile, absoluteName_idem]

theorem Coherent.remember (h : f.Coherent dirs) (name : String) :
    (f.remember (absoluteName name) (letsFile dirs name)).Coherent dirs := by
  refine ⟨h.dirs_eq, h.unblocked, fun other answer hl => ?_⟩
  rw [lookup_remember] at hl
  split at hl
  · next he =>
    cases hl
    rw [he, letsFile_absoluteName]
  · exact h.answers other answer hl

/-- A coherent filter answers by the rule, and stays coherent. -/
theorem Coherent.allowsFile (h : f.Coherent dirs) (name : String) :
    ∃ f', f.allowsFile name = (.ok (letsFile dirs name), f') ∧ f'.Coherent dirs := by
  unfold VisitFilter.allowsFile
  split
  · next answer hl =>
    rw [h.answers name answer hl]
    exact ⟨f, rfl, h⟩
  · have hb : f.blocked.contains name = false := by rw [h.unblocked]; rfl
    simp only [hb, Bool.false_eq_true, if_false, h.dirs_eq]
    exact ⟨_, rfl, h.remember name⟩

theorem allowsNode_of_error (f : VisitFilter) {n : Node} {e : Fault}
    (hk : n.kind = .error e) : f.allowsNode n = (.error e, f) := by
  unfold VisitFilter.allowsNode
  rw [hk]

/-- The top of a unit is let through, and all else with its file. -/
theorem allowsNode_of_kind (f : VisitFilter) {n : Node} {k : Kind} (hk : n.kind = .ok k) :
    f.allowsNode n =
      if k = .translationUnit then (.ok true, f)
      else
        match n.file? with
        | none => (.ok false, f)
        | some name => f.allowsFile name := by
  unfold VisitFilter.allowsNode
  rw [hk]
  cases k <;> rfl

/-- All coherent filters let the same nodes through. -/
theorem Coherent.allowsNode (h : f.Coherent dirs) {n : Node} {k : Kind} (hk : n.kind = .ok k) :
    ∃ f', f.allowsNode n = (.ok (letsThrough dirs n), f') ∧ f'.Coherent dirs := by
  rw [letsThrough, allowsNode_of_kind _ hk, allowsNode_of_kind _ hk]
  by_cases hu : k = .translationUnit
  · rw [if_pos hu, if_pos hu]
    exact ⟨f, rfl, h⟩
  · rw [if_neg hu, if_neg hu]
    cases n.file? with
    | none => exact ⟨f, rfl, h⟩
    | some name =>
      obtain ⟨f', hf', h'⟩ := h.allowsFile name
      obtain ⟨g, hg, -⟩ := (ofDirs_coherent dirs).allowsFile name
      exact ⟨f', by simp only [hf', hg], h'⟩

end VisitFilter

end StyleCheck
