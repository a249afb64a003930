import StyleCheck.Proofs.Parallel
import StyleCheck.Proofs.RuleInputs
import StyleCheck.Proofs.TokenRanges

/-!
# Do loops side by side

The tokens of a do loop are found through its tree: the tree itself, or the one located there; the
keyword `while` that belongs to its node; its body. Where nodes are changed and the tokens of
extents with them, the tokens found are those found before, changed (`Scene.doLoop_map`). Where
extents stay as they are, so do the tokens of the loop (`Scene.doLoop_withRoot`).
-/

namespace StyleCheck

variable {α β : Type}

/-- A change of nodes that keeps apart what do loops are told by: which node it is, where it is
found, and whether it is a compound statement. -/
structure Node.KeepsLoops (g : Node → Node) : Prop where
  id : ∀ n, (g n).id = n.id
  kind : ∀ n, Alike (fun k k' => k = .compoundStmt ↔ k' = .compoundStmt) n.kind (g n).kind
  attached : ∀ n, g { n with detached := false } = { g n with detached := false }
  detached : ∀ n, (g n).detached = n.detached
  located : ∀ m n, ((g m).file == (g n).file && (g m).location == (g n).location) =
    (m.file == n.file && m.location == n.location)

theorem TranslationUnit.atLocation?_map {g : Node → Node} (hg : Node.KeepsLoops g)
    {u u' : TranslationUnit} (hu : u'.root = u.root.map g) (n : Node) :
    u'.atLocation? (g n).file (g n).location =
      (u.atLocation? n.file n.location).map (Tree.map g) := by
  have hp : ((fun t : Tree => t.node.file == (g n).file && t.node.location == (g n).location) ∘
      Tree.map g) = fun t => t.node.file == n.file && t.node.location == n.location := by
    funext t
    rw [Function.comp_apply, Tree.node_map]
    exact hg.located t.node n
  have hattached : ∀ t : Tree, (t.map g).attached = t.attached.map g := by
    rintro ⟨m, cs⟩
    rw [Tree.map_mk, Tree.attached, Tree.attached, Tree.map_mk, hg.attached]
  unfold atLocation?
  rw [hu, Tree.preorder_map, ← List.map_drop, List.find?_map, hp, Option.map_map, Option.map_map]
  exact congrArg (Option.map · _) (funext hattached)

/-- Tokens belong to the nodes that they belonged to, where numbers stay and the node is handed out
as it was. -/
theorem TranslationUnit.owns_map {g : Node → Node} (hid : ∀ n, (g n).id = n.id)
    {u u' : TranslationUnit} (hu : u'.root = u.root.map g) {n : Node}
    (hn : (g n).detached = n.detached) {t t' : Token} (ht : t'.owner = t.owner) :
    u'.owns (g n) t' = u.owns n t := by
  have hnumbers : (∃ s ∈ u'.root.preorder, s.node.id = n.id) ↔
      ∃ s ∈ u.root.preorder, s.node.id = n.id := by
    rw [hu, Tree.preorder_map]
    simp [Tree.node_map, hid]
  rw [Bool.eq_iff_iff, owns_iff, owns_iff, ht, hid, hn, hnumbers]

/-- The loop with its tokens changed. -/
def DoLoop.map (τ : Token → Token) (l : DoLoop) : DoLoop :=
  ⟨τ l.doKeyword, τ l.whileKeyword, l.braces.map (Prod.map τ τ)⟩

/-- All tokens of a loop are among these. -/
structure DoLoop.From (ts : List Token) (l : DoLoop) : Prop where
  doKeyword : l.doKeyword ∈ ts
  whileKeyword : l.whileKeyword ∈ ts
  braces : ∀ opening closing, l.braces = some (opening, closing) → opening ∈ ts ∧ closing ∈ ts

namespace Scene

theorem present_map (part : String) (f : α → β) (x : Option α) :
    present part (x.map f) = (present part x).map f := by
  cases x <;> rfl

theorem tokensOf_subset {s : Scene} {e : Extent} {adjust : Int → Int} {ts : List Token}
    (h : s.tokensOf e adjust = .ok ts) : ts ⊆ s.unit.tokens := by
  obtain ⟨file, line, hfile, hline⟩ := exists_line_of_tokensOf h
  rw [tokensOf_eq hfile hline, Except.ok.injEq] at h
  subst h
  intro t ht
  have hrange := (Token.takeThrough_initial _ _).subset ht
  exact List.mem_of_mem_filter (List.mem_of_mem_filter hrange)

section

variable {g : Node → Node} (hg : Node.KeepsLoops g) {τ : Token → Token}
  (hτ : ∀ t, (τ t).spelling = t.spelling) {s s' : Scene} {t : Tree}

/-- The tokens of an extent in one scene are those of another in the other, changed. -/
def TokensAlike (τ : Token → Token) (s s' : Scene) (e e' : Extent) : Prop :=
  ∀ adjust, s'.tokensOf e' adjust = (s.tokensOf e adjust).map (List.map τ)

include hg in
theorem doLoopTree_map (hroot : s'.unit.root = s.unit.root.map g) :
    s'.doLoopTree (t.map g) = (s.doLoopTree t).map (Tree.map g) := by
  unfold doLoopTree
  rw [Tree.node_map, hg.detached, TranslationUnit.atLocation?_map hg hroot, present_map]
  split <;> rfl

include hτ in
theorem bodyBraces_map (ht : TokensAlike τ s s' t.extent (g t.node).extent) :
    Alike (fun b b' => b' = Prod.map τ τ b ∧ b.1 ∈ s.unit.tokens ∧ b.2 ∈ s.unit.tokens)
      (s.bodyBraces t) (s'.bodyBraces (t.map g)) := by
  unfold bodyBraces
  rw [show (t.map g).extent = (g t.node).extent by rw [Tree.extent, Tree.node_map], ht]
  refine .bind_map fun ts hts => ?_
  rw [List.head?_map, List.getLast?_map]
  cases hfirst : ts.head? with
  | none => exact .fault _
  | some opening =>
    cases hlast : ts.getLast? with
    | none => exact .fault _
    | some closing =>
      have hsub := tokensOf_subset hts
      have hopening := hsub (List.mem_of_head? hfirst)
      have hclosing := hsub (List.mem_of_getLast? hlast)
      refine .ite ?_ (fun _ => .fault _) (.ok ⟨rfl, hopening, hclosing⟩)
      rw [hτ opening, hτ closing]

include hτ in
/-- Where the trees of a loop are found alike, and tokens belong to it alike, its tokens are. -/
theorem doLoop_alike {t' : Tree}
    (howns : ∀ d, s.doLoopTree t = .ok d → ∀ u,
      s'.unit.owns (g d.node) (τ u) = s.unit.owns d.node u)
    (hkind : ∀ n, Alike (fun k k' => k = .compoundStmt ↔ k' = .compoundStmt) n.kind (g n).kind)
    (htree : s'.doLoopTree t' = (s.doLoopTree t).map (Tree.map g))
    (hloop : ∀ d, s.doLoopTree t = .ok d → TokensAlike τ s s' d.extent (g d.node).extent ∧
      ∀ body ∈ d.children, body.node.kind = .ok .compoundStmt →
        TokensAlike τ s s' body.extent (g body.node).extent) :
    Alike (fun l l' => l' = l.map τ ∧ l.From s.unit.tokens) (s.doLoop t) (s'.doLoop t') := by
  unfold doLoop
  rw [htree]
  refine .bind_map fun d hd => ?_
  obtain ⟨hstop, hbody⟩ := hloop d hd
  rw [show (d.map g).extent = (g d.node).extent by rw [Tree.extent, Tree.node_map], hstop]
  refine .bind_map fun ts hts => ?_
  have hsub := tokensOf_subset hts
  cases ts with
  | nil => exact .fault .tokenOutOfRange
  | cons first rest =>
    refine .ite ?_ (fun _ => .fault _) ?_
    · rw [hτ first]
    have hp : ((fun u : Token => u.spelling == "while" && s'.unit.owns (d.map g).node u) ∘ τ) =
        fun u => u.spelling == "while" && s.unit.owns d.node u := by
      funext u
      rw [Function.comp_apply, hτ u, Tree.node_map, howns d hd]
    rw [List.find?_map, hp]
    cases hwhile : (first :: rest).find? fun u =>
      u.spelling == "while" && s.unit.owns d.node u with
    | none => exact .fault .noWhileKeyword
    | some keyword =>
      have hkeyword := List.mem_of_find?_eq_some hwhile
      rw [Tree.children_map]
      rcases hc : d.children with _ | ⟨body, _ | ⟨condition, _ | ⟨_, _⟩⟩⟩
      case cons.cons.nil =>
        have hmem : body ∈ d.children := hc ▸ List.mem_cons_self
        have hbodyKind : Alike (fun k k' => k = .compoundStmt ↔ k' = .compoundStmt) body.node.kind
            (body.map g).node.kind := by
          rw [Tree.node_map]
          exact hkind body.node
        refine hbodyKind.bind fun hk hkk => .ite hkk (fun h => ?_) (.ok ⟨rfl, ?_⟩)
        · refine (bodyBraces_map hτ (hbody body hmem (h ▸ hk))).bind fun _ hb => .ok ⟨?_, ?_⟩
          · rw [hb.1]
            rfl
          · refine ⟨hsub List.mem_cons_self, hsub hkeyword, fun opening closing ho => ?_⟩
            cases ho
            exact hb.2
        · refine ⟨hsub List.mem_cons_self, hsub hkeyword, fun opening closing ho => ?_⟩
          cases ho
      all_goals exact .fault .doLoopParts

include hg hτ in
theorem doLoop_map (howner : ∀ t, (τ t).owner = t.owner)
    (hroot : s'.unit.root = s.unit.root.map g)
    (hloop : ∀ d, s.doLoopTree t = .ok d → TokensAlike τ s s' d.extent (g d.node).extent ∧
      ∀ body ∈ d.children, body.node.kind = .ok .compoundStmt →
        TokensAlike τ s s' body.extent (g body.node).extent) :
    Alike (fun l l' => l' = l.map τ ∧ l.From s.unit.tokens) (s.doLoop t) (s'.doLoop (t.map g)) :=
  doLoop_alike hτ
    (fun d _ u => TranslationUnit.owns_map hg.id hroot (hg.detached d.node) (howner u)) hg.kind
    (doLoopTree_map hg hroot) hloop

end

/-- In a scene with another tree, where the tree of a loop is found alike, tokens belong to it alike
and no extent is changed, the loop is the same. -/
theorem doLoop_withRoot {s : Scene} {root t t' : Tree} {g : Node → Node}
    (howns : ∀ d, s.doLoopTree t = .ok d → ∀ u,
      (s.withRoot root).unit.owns (g d.node) u = s.unit.owns d.node u)
    (hextent : ∀ n, (g n).extent = n.extent)
    (hkind : ∀ n, Alike (fun k k' => k = .compoundStmt ↔ k' = .compoundStmt) n.kind (g n).kind)
    (htree : (s.withRoot root).doLoopTree t' = (s.doLoopTree t).map (Tree.map g)) :
    (s.withRoot root).doLoop t' = s.doLoop t := by
  have htokens : ∀ d : Tree, TokensAlike id s (s.withRoot root) d.extent (g d.node).extent := by
    intro d adjust
    rw [hextent, List.map_id_fun, Except.map_id]
    rfl
  have hsame : ∀ l : DoLoop, l.map id = l := by
    rintro ⟨doKeyword, whileKeyword, braces⟩
    rw [DoLoop.map, Prod.map_id, Option.map_id]
    rfl
  have h := doLoop_alike (τ := id) (fun _ => rfl) howns hkind htree
    fun d _ => ⟨htokens d, fun body _ _ => htokens body⟩
  have heq : Alike (fun l l' => l' = id l) _ _ := h.mono fun _ hl => hl.1.trans (hsame _)
  exact heq.eq_map.trans (by rw [Except.map_id]; rfl)

end Scene

end StyleCheck
