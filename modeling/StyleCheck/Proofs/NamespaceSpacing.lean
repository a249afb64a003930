import Mathlib.Data.List.Basic
import Mathlib.Tactic.SplitIfs
import StyleCheck.Spacing.Check

/-!
# Which namespaces pass the check of spacing

The layout that a namespace should have (`Documented`) and the layouts that pass (`Accepted`). The
two differ: any punctuation passes for a brace, even one token for both, the opening brace is held
to its column but not to its line, and a name that is spelled like an opening brace is taken for
one. On a namespace with tokens the check always comes to its end, with one violation at the most
(`namespaceBody_clean_iff`).
-/

namespace StyleCheck

/-! ## Lines of tokens -/

theorem Text.ofString_append (s t : String) : ofString (s ++ t) = ofString s ++ ofString t := by
  rw [ofString, String.toList_append, List.flatMap_append, ofString, ofString]

namespace Token

theorem behind_line (text : Text) (p : Pos) :
    (behind p text).line = p.line + text.count Text.newline := by
  induction text generalizing p with
  | nil => simp [behind]
  | cons b text ih =>
    rw [behind, ih]
    by_cases h : b = Text.newline
    · rw [if_pos h, h, List.count_cons_self]
      show p.line + 1 + _ = _
      omega
    · rw [if_neg h, List.count_cons_of_ne h]

theorem stop_line (t : Token) :
    t.stop.line = t.start.line + (Text.ofString t.spelling).count Text.newline := behind_line _ _

theorem stop_line_of_not_mem {t : Token} (h : Text.newline ∉ Text.ofString t.spelling) :
    t.stop.line = t.start.line := by
  rw [stop_line, List.count_eq_zero.mpr h]
  omega

theorem isMark_iff {t : Token} {spelling : String} :
    t.isMark spelling = true ↔ t.kind = .punctuation ∧ t.spelling = spelling := by
  simp [isMark]

/-- Tokens that start and end on one line, all on the same. -/
def OnOneLine (ts : List Token) : Prop := ∃ l, ∀ t ∈ ts, t.start.line = l ∧ t.stop.line = l

end Token

namespace Spacing

variable {ts : List Token} {t : Token} {n : NamespaceTokens}

/-! ## Layouts of namespaces -/

/-- A namespace as it should be written. Blanks are told by columns, as tokens come without the text
between them. -/
structure Documented (ts : List Token) (n : NamespaceTokens) : Prop where
  tokens : ∃ middle, ts = n.keyword :: n.name :: n.opening :: (middle ++ [n.closing, n.comment])
  keyword : n.keyword.kind = .keyword ∧ n.keyword.spelling = "namespace"
  name : n.name.kind = .identifier
  opening : n.opening.isMark "\x7b" = true
  closing : n.closing.isMark "\x7d" = true
  comment : n.comment.kind = .comment ∧ n.comment.spelling = "// namespace " ++ n.name.spelling
  head : Token.OnOneLine [n.keyword, n.name, n.opening]
  nameGap : n.keyword.stop.column + 1 = n.name.start.column
  openingGap : n.name.stop.column + 1 = n.opening.start.column
  tail : Token.OnOneLine [n.closing, n.comment]
  commentGap : n.closing.stop.column + 2 = n.comment.start.column

/-- Where the tokens of a namespace stand among its tokens. One token in the third place may be
both braces. -/
inductive Stands : List Token → NamespaceTokens → Prop
  | apart (n : NamespaceTokens) (middle : List Token) :
    Stands (n.keyword :: n.name :: n.opening :: (middle ++ [n.closing, n.comment])) n
  | shared (n : NamespaceTokens) (h : n.closing = n.opening) :
    Stands [n.keyword, n.name, n.opening, n.comment] n

/-- The rules about blanks and the closing comment. None is about the line of the opening brace. -/
structure Spaced (n : NamespaceTokens) : Prop where
  nameLine : n.keyword.stop.line = n.name.stop.line
  nameGap : n.keyword.stop.column + 1 = n.name.start.column
  openingGap : n.name.stop.column + 1 = n.opening.start.column
  commentLine : n.closing.stop.line = n.comment.stop.line
  commentGap : n.closing.stop.column + 2 = n.comment.start.column
  commentText : n.comment.spelling = "// namespace " ++ n.name.spelling

/-- A namespace that passes. -/
structure Accepted (ts : List Token) (n : NamespaceTokens) : Prop where
  stands : Stands ts n
  keyword : n.keyword.kind = .keyword ∧ n.keyword.spelling = "namespace"
  name : n.name.kind = .identifier ∧ n.name.spelling ≠ "\x7b"
  opening : opens n.opening = true
  closing : closes n.closing = true
  comment : n.comment.kind = .comment
  spaced : Spaced n

/-- What a namespace that passes still may lack. -/
structure Strict (ts : List Token) (n : NamespaceTokens) : Prop where
  apart : ts.length ≠ 4
  opening : n.opening.isMark "\x7b" = true
  closing : n.closing.isMark "\x7d" = true
  nameLine : n.name.start.line = n.name.stop.line
  openingLine : n.opening.start.line = n.name.stop.line

theorem opens_iff : opens t = true ↔ t.kind = .punctuation ∨ t.spelling = "\x7b" := by
  simp [opens]

theorem closes_iff : closes t = true ↔ t.kind = .punctuation ∨ t.spelling = "\x7d" := by
  simp [closes]

theorem opens_eq_false (h : t.kind ≠ .punctuation) (hs : t.spelling ≠ "\x7b") :
    opens t = false := by
  rw [← Bool.not_eq_true, opens_iff, not_or]
  exact ⟨h, hs⟩

theorem closes_eq_false (h : t.kind ≠ .punctuation) (hs : t.spelling ≠ "\x7d") :
    closes t = false := by
  rw [← Bool.not_eq_true, closes_iff, not_or]
  exact ⟨h, hs⟩

/-- The keyword is no brace. -/
theorem brace_ne_keyword (h : t.kind = .keyword ∧ t.spelling = "namespace") :
    opens t = false ∧ closes t = false := by
  refine ⟨opens_eq_false ?_ ?_, closes_eq_false ?_ ?_⟩ <;> simp [h]

theorem Stands.places (h : Stands ts n) :
    ts[0]? = some n.keyword ∧ ts[1]? = some n.name ∧ ts[2]? = some n.opening ∧
      ts.reverse[1]? = some n.closing ∧ ts.reverse[0]? = some n.comment := by
  cases h with
  | apart _ _ => simp
  | shared _ h => simp [h]

theorem Stands.unique {m : NamespaceTokens} (hn : Stands ts n) (hm : Stands ts m) : n = m := by
  obtain ⟨h0, h1, h2, h3, h4⟩ := hn.places
  obtain ⟨g0, g1, g2, g3, g4⟩ := hm.places
  cases n
  cases m
  simp only [NamespaceTokens.mk.injEq]
  exact ⟨Option.some.inj (h0.symm.trans g0), Option.some.inj (h1.symm.trans g1),
    Option.some.inj (h2.symm.trans g2), Option.some.inj (h3.symm.trans g3),
    Option.some.inj (h4.symm.trans g4)⟩

theorem findIdx?_cons_eq_zero {p : Token → Bool} :
    (t :: ts).findIdx? p = some 0 ↔ p t = true := by
  rw [List.findIdx?_cons]
  cases p t <;> simp

theorem findIdx?_cons_eq_succ {p : Token → Bool} {i : Nat} :
    (t :: ts).findIdx? p = some (i + 1) ↔ p t = false ∧ ts.findIdx? p = some i := by
  rw [List.findIdx?_cons]
  cases p t <;> simp

theorem Stands.openingAt_iff (h : Stands ts n) :
    ts.findIdx? opens = some 2 ↔
      opens n.keyword = false ∧ opens n.name = false ∧ opens n.opening = true := by
  cases h with
  | apart _ _ => simp only [findIdx?_cons_eq_succ, findIdx?_cons_eq_zero]
  | shared _ _ => simp only [findIdx?_cons_eq_succ, findIdx?_cons_eq_zero]

theorem Stands.closingAt_iff (h : Stands ts n) :
    ts.reverse.findIdx? closes = some 1 ↔ closes n.comment = false ∧ closes n.closing = true := by
  cases h with
  | apart _ _ => simp [findIdx?_cons_eq_succ, findIdx?_cons_eq_zero]
  | shared _ hn => simp [findIdx?_cons_eq_succ, findIdx?_cons_eq_zero, hn]

/-! ## The search for the tokens -/

/-- The tokens of a namespace are found, each in its place and of its kind. -/
structure Found (ts : List Token) (n : NamespaceTokens) : Prop where
  openingAt : ts.findIdx? opens = some 2
  closingAt : ts.reverse.findIdx? closes = some 1
  first : ts[0]? = some n.keyword
  second : ts[1]? = some n.name
  third : ts[2]? = some n.opening
  lastButOne : ts.reverse[1]? = some n.closing
  last : ts.reverse[0]? = some n.comment
  keyword : n.keyword.kind = .keyword ∧ n.keyword.spelling = "namespace"
  name : n.name.kind = .identifier
  comment : n.comment.kind = .comment

theorem exists_tokenAt {i : Nat} (h : i < ts.length) : ∃ t ∈ ts, tokenAt ts i = .ok t :=
  ⟨ts[i], List.getElem_mem h, by rw [tokenAt, List.getElem?_eq_getElem h]⟩

theorem tokenAt_bind_eq_ok {α : Type} {i : Nat} {f : Token → Except Fault α} {a : α} :
    tokenAt ts i >>= f = .ok a ↔ ∃ t, ts[i]? = some t ∧ f t = .ok a := by
  unfold tokenAt
  cases ts[i]? <;> simp [bind, Except.bind]

/-- A token out of its place is not a namespace found. -/
theorem breach_ne_found (x : Except Fault Token) (text : String) :
    (do return .inl ⟨← x, text⟩ : Except Fault (Breach ⊕ NamespaceTokens)) ≠ .ok (.inr n) := by
  cases x with
  | error e => intro h; cases h
  | ok t => intro h; cases h

theorem ite_breach_eq_found {p : Prop} [Decidable p] {x : Except Fault Token} {text : String}
    {q : Except Fault (Breach ⊕ NamespaceTokens)} :
    (if p then do return .inl ⟨← x, text⟩ else q) = .ok (.inr n) ↔ ¬ p ∧ q = .ok (.inr n) := by
  by_cases h : p
  · rw [if_pos h]
    exact iff_of_false (breach_ne_found x text) fun hq => hq.1 h
  · rw [if_neg h, and_iff_right h]

theorem namespaceTokens_eq_inr : namespaceTokens ts = .ok (.inr n) ↔ Found ts n := by
  unfold namespaceTokens
  constructor
  · intro h
    cases ho : ts.findIdx? opens with
    | none =>
      simp only [ho] at h
      exact absurd h (breach_ne_found _ _)
    | some i =>
      cases hc : ts.reverse.findIdx? closes with
      | none =>
        simp only [ho, hc] at h
        exact absurd h (breach_ne_found _ _)
      | some j =>
        simp only [ho, hc, tokenFromEnd, tokenAt_bind_eq_ok, ite_breach_eq_found] at h
        obtain ⟨keyword, h0, hk, name, h1, hn, opening, h2, hi, closing, h3, hj, comment, h4, hm,
          h⟩ := h
        cases h
        simp only [ne_eq, not_or, not_not] at hk hn hi hj hm
        exact ⟨hi ▸ ho, hj ▸ hc, h0, h1, h2, h3, h4, hk, hn, hm⟩
  · intro h
    simp only [h.openingAt, h.closingAt, tokenFromEnd, tokenAt_bind_eq_ok, ite_breach_eq_found]
    exact ⟨_, h.first, by simp [h.keyword], _, h.second, by simp [h.name], _, h.third, by simp, _,
      h.lastButOne, by simp, _, h.last, by simp [h.comment], rfl⟩

/-- The search comes to its end; a token out of its place is one of those given. -/
def Answers (ts : List Token) (x : Except Fault (Breach ⊕ NamespaceTokens)) : Prop :=
  ∃ r, x = .ok r ∧ ∀ b, r = .inl b → b.token ∈ ts

theorem Answers.breach {x : Except Fault Token} (h : ∃ t ∈ ts, x = .ok t) (text : String) :
    Answers ts (do return .inl ⟨← x, text⟩) := by
  obtain ⟨t, ht, rfl⟩ := h
  refine ⟨.inl ⟨t, text⟩, rfl, fun b hb => ?_⟩
  cases hb
  exact ht

theorem Answers.ite {p : Prop} [Decidable p] {x y : Except Fault (Breach ⊕ NamespaceTokens)}
    (hx : Answers ts x) (hy : ¬ p → Answers ts y) : Answers ts (if p then x else y) := by
  by_cases h : p
  · rwa [if_pos h]
  · rw [if_neg h]
    exact hy h

theorem Answers.bind {us : List Token} {i : Nat}
    {f : Token → Except Fault (Breach ⊕ NamespaceTokens)} (ht : tokenAt us i = .ok t)
    (h : Answers ts (f t)) : Answers ts (tokenAt us i >>= f) := by
  rw [ht]
  exact h

/-- With a keyword and a name in front, two searches that both find something find it behind. -/
theorem exists_third {k x : Token} {rest : List Token} {i j : Nat}
    (hk : k.kind = .keyword ∧ k.spelling = "namespace") (hx : x.kind = .identifier)
    (hopens : (k :: x :: rest).findIdx? opens = some i)
    (hcloses : (k :: x :: rest).reverse.findIdx? closes = some j) :
    ∃ o rest', rest = o :: rest' := by
  cases rest with
  | cons o rest' => exact ⟨o, rest', rfl⟩
  | nil =>
    obtain ⟨hko, hkc⟩ := brace_ne_keyword hk
    -- the name would have to be both braces
    by_cases hxs : x.spelling = "\x7b"
    · have hxc : closes x = false := closes_eq_false (by simp [hx]) (by simp [hxs])
      simp [List.findIdx?_cons, hkc, hxc] at hcloses
    · have hxo : opens x = false := opens_eq_false (by simp [hx]) hxs
      simp [List.findIdx?_cons, hko, hxo] at hopens

theorem namespaceTokens_answers (h : ts ≠ []) : Answers ts (namespaceTokens ts) := by
  have hlast : ∃ t ∈ ts, tokenFromEnd ts 0 = .ok t := by
    obtain ⟨t, ht, hlast⟩ :=
      exists_tokenAt (List.length_pos_iff.mpr (List.reverse_ne_nil_iff.mpr h))
    exact ⟨t, List.mem_reverse.mp ht, hlast⟩
  unfold namespaceTokens
  cases ho : ts.findIdx? opens with
  | none => exact .breach (exists_tokenAt (List.length_pos_iff.mpr h)) _
  | some i =>
    cases hc : ts.reverse.findIdx? closes with
    | none => exact .breach hlast _
    | some j =>
      obtain ⟨k, rest, rfl⟩ := List.exists_cons_of_ne_nil h
      have hmem : ∃ t ∈ k :: rest, (Except.ok k : Except Fault Token) = .ok t :=
        ⟨k, List.mem_cons_self, rfl⟩
      refine .bind rfl (.ite (.breach hlast _) fun hk => ?_)
      simp only [ne_eq, not_or, not_not] at hk
      cases rest with
      | nil =>
        simp [List.findIdx?_cons, (brace_ne_keyword hk).1] at ho
      | cons x rest =>
        refine .bind rfl (.ite (.breach hmem _) fun hx => ?_)
        obtain ⟨o, rest', rfl⟩ := exists_third hk (not_not.mp hx) ho hc
        have hlength : 1 < (k :: x :: o :: rest').reverse.length := by simp
        obtain ⟨c, -, hclosing⟩ := exists_tokenAt hlength
        obtain ⟨m, hm, hcomment⟩ := hlast
        refine .bind rfl (.ite (.breach hmem _) fun _ => ?_)
        refine .bind hclosing (.ite (.breach hmem _) fun _ => ?_)
        refine .bind hcomment (.ite (.breach ⟨m, hm, rfl⟩ _) fun _ => ?_)
        exact ⟨_, rfl, fun b hb => by cases hb⟩

/-! ## The layouts that pass -/

theorem breach?_eq_none : n.breach? = none ↔ Spaced n := by
  have hrule : ∀ {p : Prop} [Decidable p] {b : Breach} {r : Option Breach},
      (if p then some b else r) = none ↔ ¬ p ∧ r = none := by
    intro p _ b r
    by_cases h : p <;> simp [h]
  unfold NamespaceTokens.breach?
  simp only [hrule, ne_eq, not_not, and_true]
  constructor
  · rintro ⟨hline, hname, hopening, hcommentLine, hcomment, htext⟩
    exact ⟨hline, hname, hopening, hcommentLine, hcomment, htext⟩
  · intro h
    exact ⟨h.nameLine, h.nameGap, h.openingGap, h.commentLine, h.commentGap, h.commentText⟩

theorem breach?_token {b : Breach} (h : n.breach? = some b) : b.token = n.keyword := by
  unfold NamespaceTokens.breach? at h
  split_ifs at h <;> cases h <;> rfl

/-- On a namespace with tokens the check comes to its end and reports no token of others. -/
theorem exists_namespaceBreach (h : ts ≠ []) :
    ∃ r, namespaceBreach ts = .ok r ∧ ∀ b, r = some b → b.token ∈ ts := by
  obtain ⟨r, hr, htoken⟩ := namespaceTokens_answers h
  cases r with
  | inl b =>
    refine ⟨some b, by simp only [namespaceBreach, hr], fun b' hb => ?_⟩
    cases hb
    exact htoken b rfl
  | inr n =>
    refine ⟨n.breach?, by simp only [namespaceBreach, hr], fun b hb => ?_⟩
    rw [breach?_token hb]
    exact List.mem_of_getElem? (namespaceTokens_eq_inr.mp hr).first

/-- A closing comment that is no brace stands behind the third token, and the closing brace in
front of it, where the third token may stand, too. -/
theorem Found.stands (h : Found ts n) (hcomment : opens n.comment = false) : Stands ts n := by
  obtain ⟨keyword, name, opening, closing, comment⟩ := n
  obtain ⟨hopens, -, h0, h1, h2, h3, h4, -, -, -⟩ := h
  rcases ts with _ | ⟨k, _ | ⟨x, _ | ⟨o, rest⟩⟩⟩
  · cases h0
  · cases h1
  · cases h2
  · cases h0
    cases h1
    cases h2
    rcases List.eq_nil_or_concat' rest with rfl | ⟨rest, m, rfl⟩
    · -- the comment would be the third token, which opens
      cases h4
      simp only [findIdx?_cons_eq_succ, findIdx?_cons_eq_zero] at hopens
      exact absurd hopens.2.2 (Bool.not_eq_true _ ▸ hcomment)
    · rcases List.eq_nil_or_concat' rest with rfl | ⟨middle, c, rfl⟩
      · cases h3
        cases h4
        exact .shared _ rfl
      · simp only [List.reverse_cons, List.reverse_append, List.reverse_nil] at h3 h4
        cases h3
        cases h4
        rw [List.append_assoc]
        exact .apart _ middle

theorem Spaced.comment_ne (h : Spaced n) {s : String} (hs : s.length = 1) :
    n.comment.spelling ≠ s := by
  intro he
  have hlength := congrArg String.length h.commentText
  rw [he, hs, String.length_append] at hlength
  have : "// namespace ".length = 13 := rfl
  omega

theorem accepted_iff : Accepted ts n ↔ Found ts n ∧ Spaced n := by
  constructor
  · rintro ⟨hstands, hk, hx, ho, hc, hm, hspaced⟩
    obtain ⟨h0, h1, h2, h3, h4⟩ := hstands.places
    refine ⟨⟨hstands.openingAt_iff.mpr ⟨?_, ?_, ho⟩, hstands.closingAt_iff.mpr ⟨?_, hc⟩,
      h0, h1, h2, h3, h4, hk, hx.1, hm⟩, hspaced⟩
    · exact (brace_ne_keyword hk).1
    · exact opens_eq_false (by simp [hx]) hx.2
    · exact closes_eq_false (by simp [hm]) (hspaced.comment_ne rfl)
  · rintro ⟨hfound, hspaced⟩
    have hm : opens n.comment = false :=
      opens_eq_false (by simp [hfound.comment]) (hspaced.comment_ne rfl)
    have hstands := hfound.stands hm
    obtain ⟨-, hx, ho⟩ := hstands.openingAt_iff.mp hfound.openingAt
    obtain ⟨-, hc⟩ := hstands.closingAt_iff.mp hfound.closingAt
    refine ⟨hstands, hfound.keyword, ⟨hfound.name, fun hs => ?_⟩, ho, hc, hfound.comment, hspaced⟩
    rw [opens_iff.mpr (.inr hs)] at hx
    cases hx

theorem namespaceBreach_eq_none : namespaceBreach ts = .ok none ↔ ∃ n, Accepted ts n := by
  simp only [accepted_iff, ← namespaceTokens_eq_inr, ← breach?_eq_none]
  unfold namespaceBreach
  cases h : namespaceTokens ts with
  | error e => simp
  | ok r =>
    cases r with
    | inl b => simp
    | inr m => simp

/-! ## Layouts that pass and should not, and the other way round -/

theorem Documented.stands (h : Documented ts n) : Stands ts n := by
  obtain ⟨middle, rfl⟩ := h.tokens
  exact .apart n middle

theorem Documented.accepted (h : Documented ts n) (hname : n.name.spelling ≠ "\x7b") :
    Accepted ts n := by
  obtain ⟨l, hhead⟩ := h.head
  obtain ⟨l', htail⟩ := h.tail
  simp only [List.forall_mem_cons] at hhead htail
  refine ⟨h.stands, h.keyword, ⟨h.name, hname⟩, ?_, ?_, h.comment.1, ?_⟩
  · exact opens_iff.mpr (.inl (Token.isMark_iff.mp h.opening).1)
  · exact closes_iff.mpr (.inl (Token.isMark_iff.mp h.closing).1)
  · exact ⟨hhead.1.2.trans hhead.2.1.2.symm, h.nameGap, h.openingGap,
      htail.1.2.trans htail.2.1.2.symm, h.commentGap, h.comment.2⟩

theorem Documented.strict (h : Documented ts n) : Strict ts n := by
  obtain ⟨l, hhead⟩ := h.head
  simp only [List.forall_mem_cons] at hhead
  refine ⟨?_, h.opening, h.closing, hhead.2.1.1.trans hhead.2.1.2.symm,
    hhead.2.2.1.1.trans hhead.2.1.2.symm⟩
  obtain ⟨middle, rfl⟩ := h.tokens
  simp only [List.length_cons, List.length_append, List.length_nil]
  omega

theorem Stands.not_documented (h : Stands ts n) (hs : ¬ Strict ts n) :
    ¬ ∃ m, Documented ts m := by
  rintro ⟨m, hm⟩
  rw [h.unique hm.stands] at hs
  exact hs hm.strict

/-- The closing comment has as many lines as the name in it. -/
theorem Spaced.comment_line (h : Spaced n) (hname : n.name.start.line = n.name.stop.line) :
    n.comment.start.line = n.comment.stop.line := by
  have hcount : (Text.ofString "// namespace ").count Text.newline = 0 := by decide
  rw [Token.stop_line] at hname ⊢
  rw [h.commentText, Text.ofString_append, List.count_append, hcount]
  omega

theorem Accepted.documented (h : Accepted ts n) (hs : Strict ts n) : Documented ts n := by
  have hkeyword : n.keyword.stop.line = n.keyword.start.line :=
    Token.stop_line_of_not_mem (by rw [h.keyword.2]; decide)
  have hopening : n.opening.stop.line = n.opening.start.line :=
    Token.stop_line_of_not_mem (by rw [(Token.isMark_iff.mp hs.opening).2]; decide)
  have hclosing : n.closing.stop.line = n.closing.start.line :=
    Token.stop_line_of_not_mem (by rw [(Token.isMark_iff.mp hs.closing).2]; decide)
  have hspaced := h.spaced
  refine ⟨?_, h.keyword, h.name.1, hs.opening, hs.closing, ⟨h.comment, hspaced.commentText⟩,
    ⟨n.name.stop.line, ?_⟩, hspaced.nameGap, hspaced.openingGap, ⟨n.comment.stop.line, ?_⟩,
    hspaced.commentGap⟩
  · cases h.stands with
    | apart _ middle => exact ⟨middle, rfl⟩
    | shared _ _ => exact absurd rfl hs.apart
  · rw [List.forall_mem_cons, List.forall_mem_cons, List.forall_mem_cons]
    exact ⟨⟨hkeyword.symm.trans hspaced.nameLine, hspaced.nameLine⟩, ⟨hs.nameLine, rfl⟩,
      ⟨hs.openingLine, hopening.trans hs.openingLine⟩, List.forall_mem_nil _⟩
  · rw [List.forall_mem_cons, List.forall_mem_cons]
    exact ⟨⟨hclosing.symm.trans hspaced.commentLine, hspaced.commentLine⟩,
      ⟨hspaced.comment_line hs.nameLine, rfl⟩, List.forall_mem_nil _⟩

/-- The layouts that pass are those that should, unless one of the differences is met. -/
theorem exists_accepted_iff :
    ((∃ n, Accepted ts n) ↔ ∃ n, Documented ts n) ↔
      ∀ n, (Accepted ts n → Strict ts n) ∧ (Documented ts n → n.name.spelling ≠ "\x7b") := by
  constructor
  · intro h n
    constructor
    · intro hn
      obtain ⟨m, hm⟩ := h.mp ⟨n, hn⟩
      rw [hn.stands.unique hm.stands]
      exact hm.strict
    · intro hn
      obtain ⟨m, hm⟩ := h.mpr ⟨n, hn⟩
      rw [hn.stands.unique hm.stands]
      exact hm.name.2
  · intro h
    constructor
    · rintro ⟨n, hn⟩
      exact ⟨n, hn.documented ((h n).1 hn)⟩
    · rintro ⟨n, hn⟩
      exact ⟨n, hn.accepted ((h n).2 hn)⟩

end Spacing

namespace SpacingForm

open Spacing

variable {unit : TranslationUnit} {t : Tree}

/-- The tokens that the spacing of a tree is judged by. -/
def tokensOf (unit : TranslationUnit) (t : Tree) : List Token :=
  Token.within unit.tokens t.extent.file t.extent.start t.extent.stop

theorem namespaceBody_check_of_none (h : namespaceBreach (tokensOf unit t) = .ok none) :
    namespaceBody.check unit t = pure () := by
  show (liftM (namespaceBreach (tokensOf unit t)) >>= _ : Report Violation Unit) = _
  rw [h]
  rfl

theorem namespaceBody_check_of_some {b : Breach}
    (h : namespaceBreach (tokensOf unit t) = .ok (some b)) :
    namespaceBody.check unit t = .note ⟨"spacing.namespace", some b.token.file,
      b.token.start.line, b.token.start.column, b.text⟩ := by
  show (liftM (namespaceBreach (tokensOf unit t)) >>= _ : Report Violation Unit) = _
  rw [h]
  rfl

/-- A namespace with tokens is reported once or not at all, at one of its tokens. It is not reported
just if it is of a layout that passes. These are the layouts that namespaces should have, unless the
braces are one token, or other punctuation, or the opening brace or the end of the name is on
another line, or the name is spelled like an opening brace. -/
theorem namespaceBody_clean_iff (unit : TranslationUnit) (t : Tree) (h : tokensOf unit t ≠ []) :
    let r := (SpacingFrame.ofKind .namespaceDecl).form.check unit t
    let ts := tokensOf unit t
    (r = pure () ∨ ∃ u ∈ ts, ∃ text, r = .note ⟨"spacing.namespace", some u.file, u.start.line,
        u.start.column, text⟩) ∧
      (r = pure () ↔ ∃ n, Accepted ts n) ∧
      ((r = pure () ↔ ∃ n, Documented ts n) ↔
        ∀ n, (Accepted ts n → Strict ts n) ∧ (Documented ts n → n.name.spelling ≠ "\x7b")) := by
  intro r ts
  obtain ⟨b?, hb, hmem⟩ := exists_namespaceBreach h
  have hclean : r = pure () ↔ ∃ n, Accepted ts n := by
    rw [← namespaceBreach_eq_none]
    cases b? with
    | none => exact iff_of_true (namespaceBody_check_of_none hb) hb
    | some b =>
      have hr : r = .note _ := namespaceBody_check_of_some hb
      rw [hr, hb]
      exact iff_of_false (Report.note_ne_pure _) (by simp)
  refine ⟨?_, hclean, by rw [hclean, exists_accepted_iff]⟩
  cases b? with
  | none => exact .inl (namespaceBody_check_of_none hb)
  | some b => exact .inr ⟨b.token, hmem b rfl, b.text, namespaceBody_check_of_some hb⟩

/-- A namespace over three lines. -/
def threeLines : Tree :=
  .mk ⟨1, .ok .namespaceDecl, some "a.cc", ⟨1, 11⟩, ⟨some "a.cc", ⟨1, 1⟩, ⟨3, 2⟩⟩, false⟩ []

/-- The namespace alone in its unit. -/
def oneNamespace (tokens : List Token) : TranslationUnit :=
  ⟨.mk ⟨0, .ok .translationUnit, none, ⟨0, 0⟩, ⟨none, ⟨0, 0⟩, ⟨0, 0⟩⟩, false⟩ [threeLines], tokens⟩

/-- The namespace as it should be written, the closing brace on the third line. -/
def written : NamespaceTokens where
  keyword := ⟨.keyword, "namespace", "a.cc", ⟨1, 1⟩, some 1⟩
  name := ⟨.identifier, "x", "a.cc", ⟨1, 11⟩, some 1⟩
  opening := ⟨.punctuation, "\x7b", "a.cc", ⟨1, 13⟩, some 1⟩
  closing := ⟨.punctuation, "\x7d", "a.cc", ⟨3, 1⟩, some 1⟩
  comment := ⟨.comment, "// namespace x", "a.cc", ⟨3, 4⟩, none⟩

def listed (n : NamespaceTokens) (middle : List Token) : List Token :=
  n.keyword :: n.name :: n.opening :: (middle ++ [n.closing, n.comment])

/-- Punctuation inside a namespace is not taken for its braces. -/
theorem namespaceBody_clean_iff_written :
    let unit := oneNamespace (listed written [⟨.punctuation, ";", "a.cc", ⟨2, 1⟩, none⟩])
    tokensOf unit threeLines ≠ [] ∧ Documented (tokensOf unit threeLines) written ∧
      (SpacingFrame.ofKind .namespaceDecl).form.check unit threeLines = pure () := by
  intro unit
  have hne : tokensOf unit threeLines ≠ [] := by decide
  have hdocumented : Documented (tokensOf unit threeLines) written :=
    ⟨⟨[⟨.punctuation, ";", "a.cc", ⟨2, 1⟩, none⟩], by decide⟩, by decide, by decide, by decide,
      by decide, by decide, ⟨1, by decide⟩, by decide, by decide, ⟨3, by decide⟩, by decide⟩
  exact ⟨hne, hdocumented, (namespaceBody_clean_iff unit threeLines hne).2.1.mpr
    ⟨written, hdocumented.accepted (by decide)⟩⟩

/-- The opening brace in its column of the next line. -/
def brokenLine : NamespaceTokens :=
  { written with opening := ⟨.punctuation, "\x7b", "a.cc", ⟨2, 13⟩, some 1⟩ }

/-- A namespace `x :: y`. -/
def nested : NamespaceTokens :=
  { written with opening := ⟨.punctuation, "::", "a.cc", ⟨1, 13⟩, some 1⟩ }

/-- An opening brace with the comment behind it. -/
def unclosed : NamespaceTokens :=
  { written with
    closing := written.opening
    comment := ⟨.comment, "// namespace x", "a.cc", ⟨1, 16⟩, none⟩ }

/-- An opening brace for a name. -/
def braceNamed : NamespaceTokens :=
  { written with
    name := ⟨.identifier, "\x7b", "a.cc", ⟨1, 11⟩, some 1⟩
    comment := ⟨.comment, "// namespace \x7b", "a.cc", ⟨3, 4⟩, none⟩ }

/-- Namespaces pass with a brace on the next line, with other punctuation for a brace and with one
brace. A namespace as it should be is reported for its name. -/
theorem namespaceBody_confuses_layouts :
    (∀ ts ∈ [listed brokenLine [],
        listed nested [⟨.identifier, "y", "a.cc", ⟨1, 16⟩, some 1⟩,
          ⟨.punctuation, "\x7b", "a.cc", ⟨1, 18⟩, some 1⟩],
        [unclosed.keyword, unclosed.name, unclosed.opening, unclosed.comment]],
      tokensOf (oneNamespace ts) threeLines = ts ∧
        namespaceBody.check (oneNamespace ts) threeLines = pure () ∧ ¬ ∃ n, Documented ts n) ∧
      namespaceBody.check (oneNamespace (listed braceNamed [])) threeLines ≠ pure () ∧
        Documented (tokensOf (oneNamespace (listed braceNamed [])) threeLines) braceNamed := by
  refine ⟨?_, ?_, ?_⟩
  · simp only [List.forall_mem_cons]
    refine ⟨⟨by decide, namespaceBody_check_of_none rfl, ?_⟩,
      ⟨by decide, namespaceBody_check_of_none rfl, ?_⟩,
      ⟨by decide, namespaceBody_check_of_none rfl, ?_⟩, List.forall_mem_nil _⟩
    · exact (Stands.apart brokenLine _).not_documented fun h => absurd h.openingLine (by decide)
    · exact (Stands.apart nested _).not_documented fun h => absurd h.opening (by decide)
    · exact (Stands.shared unclosed rfl).not_documented fun h => absurd rfl h.apart
  · rw [namespaceBody_check_of_some rfl]
    exact Report.note_ne_pure _
  · exact ⟨⟨[], by decide⟩, by decide, by decide, by decide, by decide, by decide, ⟨1, by decide⟩,
      by decide, by decide, ⟨3, by decide⟩, by decide⟩

end SpacingForm

end StyleCheck
