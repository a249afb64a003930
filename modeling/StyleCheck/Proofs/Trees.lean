import StyleCheck.Tree.Node

/-!
# Trees and their nodes

A tree is `Distinct` if no two of its nodes are the same; every numbered tree is. A `Lineage` leads
from a tree up to the top of the tree that it stands in.
-/

namespace StyleCheck

namespace Node

@[simp] theorem same_self (a : Node) : a.same a = true := by simp [same]

theorem same_comm (a b : Node) : a.same b = b.same a := by
  simp only [same, Bool.beq_comm (a := a.id), Bool.beq_comm (a := a.detached)]

end Node

namespace Tree

@[simp] theorem node_mk (n : Node) (cs : List Tree) : (mk n cs).node = n := rfl

@[simp] theorem children_mk (n : Node) (cs : List Tree) : (mk n cs).children = cs := rfl

/-- What holds of a tree whenever it holds of its children holds of every tree. -/
@[elab_as_elim]
theorem children_induction {motive : Tree → Prop}
    (mk : ∀ n cs, (∀ c ∈ cs, motive c) → motive (.mk n cs)) : ∀ t, motive t
  | .mk n cs => mk n cs fun c _ => children_induction mk c

theorem preorderAll_eq (ts : List Tree) : preorderAll ts = ts.flatMap preorder := by
  induction ts with
  | nil => rfl
  | cons t ts ih => rw [preorderAll, ih, List.flatMap_cons]

theorem preorder_eq (t : Tree) : t.preorder = t :: t.children.flatMap preorder := by
  cases t with
  | mk n cs => rw [preorder, preorderAll_eq, children]

theorem self_mem_preorder (t : Tree) : t ∈ t.preorder := by
  rw [preorder_eq]
  exact List.mem_cons_self

theorem preorder_subset {a t : Tree} (h : a ∈ t.preorder) : a.preorder ⊆ t.preorder := by
  induction t using children_induction with
  | mk n cs ih =>
    rw [preorder_eq, List.mem_cons, List.mem_flatMap] at h
    rcases h with rfl | ⟨c, hc, hac⟩
    · exact List.Subset.refl _
    · intro x hx
      rw [preorder_eq (mk n cs)]
      exact List.mem_cons_of_mem _ (List.mem_flatMap.mpr ⟨c, hc, ih c hc hac hx⟩)

theorem mem_preorder_of_child {t a c : Tree} (hc : c ∈ a.children) (ha : a ∈ t.preorder) :
    c ∈ t.preorder := by
  apply preorder_subset ha
  rw [preorder_eq]
  exact List.mem_cons_of_mem _ (List.mem_flatMap.mpr ⟨c, hc, self_mem_preorder c⟩)

theorem mem_below_of_child {t a c : Tree} (hc : c ∈ a.children) (ha : a ∈ t.preorder) :
    c ∈ t.children.flatMap preorder := by
  rw [preorder_eq, List.mem_cons, List.mem_flatMap] at ha
  rw [List.mem_flatMap]
  rcases ha with rfl | ⟨d, hd, had⟩
  · exact ⟨c, hc, c.self_mem_preorder⟩
  · exact ⟨d, hd, mem_preorder_of_child hc had⟩

/-! ## Distinct nodes -/

/-- No two nodes of the tree are the same. -/
def Distinct (t : Tree) : Prop := t.preorder.Pairwise fun a b => a.node.same b.node = false

theorem Distinct.eq_of_same {t a b : Tree} (h : t.Distinct) (ha : a ∈ t.preorder)
    (hb : b ∈ t.preorder) (hs : a.node.same b.node = true) : a = b := by
  unfold Distinct at h
  generalize t.preorder = l at h ha hb
  induction h with
  | nil => cases ha
  | cons hx _ ih =>
    rcases List.mem_cons.mp ha with rfl | ha' <;> rcases List.mem_cons.mp hb with rfl | hb'
    · rfl
    · rw [hx b hb'] at hs
      cases hs
    · rw [Node.same_comm, hx a ha'] at hs
      cases hs
    · exact ih ha' hb'

theorem Distinct.below {t a : Tree} (h : t.Distinct) (ha : a ∈ t.children.flatMap preorder) :
    t.node.same a.node = false := by
  unfold Distinct at h
  rw [preorder_eq] at h
  exact (List.pairwise_cons.mp h).1 a ha

theorem Distinct.not_mem_below {t : Tree} (h : t.Distinct) : t ∉ t.children.flatMap preorder := by
  intro ht
  have := h.below ht
  rw [Node.same_self] at this
  cases this

theorem Distinct.children_pairwise {t : Tree} (h : t.Distinct) :
    (t.children.flatMap preorder).Pairwise fun a b => a.node.same b.node = false := by
  unfold Distinct at h
  rw [preorder_eq] at h
  exact (List.pairwise_cons.mp h).2

theorem Distinct.child {t c : Tree} (h : t.Distinct) (hc : c ∈ t.children) : c.Distinct :=
  (List.pairwise_flatMap.mp h.children_pairwise).1 c hc

/-- Nothing in a child of a tree is the same as something in a later child. -/
theorem Distinct.siblings {t : Tree} (h : t.Distinct) :
    t.children.Pairwise fun c d =>
      ∀ a ∈ c.preorder, ∀ b ∈ d.preorder, a.node.same b.node = false :=
  (List.pairwise_flatMap.mp h.children_pairwise).2

/-- A tree is in one child of a tree only. -/
theorem Distinct.child_unique {t c d a : Tree} (h : t.Distinct) (hc : c ∈ t.children)
    (hd : d ∈ t.children) (hac : a ∈ c.preorder) (had : a ∈ d.preorder) : c = d := by
  have hsib := h.siblings
  generalize t.children = l at hsib hc hd
  induction hsib with
  | nil => cases hc
  | cons hx _ ih =>
    rcases List.mem_cons.mp hc with rfl | hc' <;> rcases List.mem_cons.mp hd with rfl | hd'
    · rfl
    · have := hx d hd' a hac a had
      rw [Node.same_self] at this
      cases this
    · have := hx c hc' a had a hac
      rw [Node.same_self] at this
      cases this
    · exact ih hc' hd'

/-- A child of a tree has no other tree around it there. -/
theorem Distinct.not_mem_children {t d a c : Tree} (h : t.Distinct) (hd : d ∈ t.children)
    (ha : a ∈ d.preorder) (hc : c ∈ a.children) : c ∉ t.children := by
  intro hct
  obtain rfl := h.child_unique hct hd c.self_mem_preorder (mem_preorder_of_child hc ha)
  exact (h.child hct).not_mem_below (mem_below_of_child hc ha)

/-- A tree is a child of one tree only. -/
theorem Distinct.parent_unique {t a b c : Tree} (h : t.Distinct) (ha : a ∈ t.preorder)
    (hb : b ∈ t.preorder) (hca : c ∈ a.children) (hcb : c ∈ b.children) : a = b := by
  induction t using children_induction with
  | mk n cs ih =>
    rw [preorder_eq, List.mem_cons, List.mem_flatMap] at ha hb
    rcases ha with rfl | ⟨d, hd, had⟩ <;> rcases hb with rfl | ⟨e, he, hbe⟩
    · rfl
    · exact absurd hca (h.not_mem_children he hbe hcb)
    · exact absurd hcb (h.not_mem_children hd had hca)
    · obtain rfl := h.child_unique hd he (mem_preorder_of_child hca had)
        (mem_preorder_of_child hcb hbe)
      exact ih d hd (h.child hd) had hbe

/-! ## Lineages -/

/-- A tree, the tree that it is a child of, and so on up to the top. -/
inductive Lineage (root : Tree) : List Tree → Prop where
  | top : Lineage root [root]
  | child {t a : Tree} {o : List Tree} : Lineage root (a :: o) → t ∈ a.children →
      Lineage root (t :: a :: o)

namespace Lineage

variable {root t : Tree} {o : List Tree}

theorem tail {a : Tree} (h : root.Lineage (t :: a :: o)) : root.Lineage (a :: o) := by
  cases h with
  | child h _ => exact h

theorem mem_children {a : Tree} (h : root.Lineage (t :: a :: o)) : t ∈ a.children := by
  cases h with
  | child _ ht => exact ht

theorem distinct (hr : root.Distinct) {l : List Tree} (h : root.Lineage l) :
    ∀ a ∈ l, a.Distinct := by
  induction h with
  | top =>
    intro a ha
    rw [List.mem_singleton.mp ha]
    exact hr
  | child _ ht ih =>
    intro a ha
    rcases List.mem_cons.mp ha with rfl | ha
    · exact (ih _ List.mem_cons_self).child ht
    · exact ih a ha

theorem descends (h : root.Lineage (t :: o)) : ∀ a ∈ o, t ∈ a.children.flatMap preorder := by
  induction o generalizing t with
  | nil => nofun
  | cons b o ih =>
    intro a ha
    rcases List.mem_cons.mp ha with rfl | ha
    · exact List.mem_flatMap.mpr ⟨t, h.mem_children, self_mem_preorder t⟩
    · obtain ⟨c, hc, hbc⟩ := List.mem_flatMap.mp (ih h.tail a ha)
      exact List.mem_flatMap.mpr ⟨c, hc, mem_preorder_of_child h.mem_children hbc⟩

/-- No tree is the same as one that it stands in. -/
theorem not_same (hr : root.Distinct) (h : root.Lineage (t :: o)) :
    ∀ a ∈ o, a.node.same t.node = false := fun a ha =>
  (h.distinct hr a (List.mem_cons_of_mem _ ha)).below (h.descends a ha)

theorem mem_preorder (h : root.Lineage (t :: o)) : t ∈ root.preorder := by
  induction o generalizing t with
  | nil =>
    cases h
    exact self_mem_preorder _
  | cons a o ih => exact mem_preorder_of_child h.mem_children (ih h.tail)

/-- Above a child of a tree stands that tree. -/
theorem parent {a : Tree} (h : root.Lineage (t :: o)) (hr : root.Distinct) (ha : a ∈ root.preorder)
    (ht : t ∈ a.children) : ∃ outer, o = a :: outer := by
  cases h with
  | top => exact absurd (mem_below_of_child ht ha) hr.not_mem_below
  | @child _ b outer hb htb => exact ⟨outer, by rw [hr.parent_unique ha hb.mem_preorder ht htb]⟩

end Lineage

/-! ## Numbered trees -/

/-- Numbering goes through a tree in preorder. -/
theorem numberFrom_spec (t : Tree) : ∀ next,
    (numberFrom next t).1.preorder.map (·.node.id) = List.range' next t.preorder.length ∧
      (numberFrom next t).2 = next + t.preorder.length := by
  induction t using children_induction with
  | mk n cs ih =>
    have hcs : ∀ next,
        ((numberAllFrom next cs).1.flatMap preorder).map (·.node.id) =
            List.range' next (cs.flatMap preorder).length ∧
          (numberAllFrom next cs).2 = next + (cs.flatMap preorder).length := by
      induction cs with
      | nil => intro next; exact ⟨rfl, rfl⟩
      | cons c cs ihcs =>
        intro next
        obtain ⟨h1, h2⟩ := ih c List.mem_cons_self next
        obtain ⟨h3, h4⟩ := ihcs (fun d hd => ih d (List.mem_cons_of_mem _ hd))
          (numberFrom next c).2
        simp only [numberAllFrom, List.flatMap_cons, List.map_append, List.length_append]
        rw [h1, h3, h4, h2, List.range'_append_1]
        exact ⟨rfl, by omega⟩
    intro next
    obtain ⟨h1, h2⟩ := hcs (next + 1)
    have hlen : (mk n cs).preorder.length = (cs.flatMap preorder).length + 1 := by
      rw [preorder_eq]; rfl
    rw [hlen, List.range'_succ, ← h1, numberFrom, preorder_eq]
    exact ⟨rfl, by rw [h2]; omega⟩

theorem number_distinct (t : Tree) : t.number.Distinct := by
  have h : (t.number.preorder.map (·.node.id)).Nodup := by
    rw [number, (numberFrom_spec t 0).1]
    exact List.nodup_range'
  refine (List.pairwise_map.mp h).imp fun {a b} hab => ?_
  simp [Node.same, hab]

end Tree

end StyleCheck
