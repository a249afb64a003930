import StyleCheck.Proofs.CommentPlaces
import StyleCheck.Proofs.ViolationKeys

/-!
# Forms of TODO comments

TODO comments are documented to be written `// TODO(name): text` (`Todo.Documented`). More than that
is let pass (`Todo.Passes`): the space in front of the word may be missing or be another blank, the
colon may be missing, and the name may begin with a parenthesis that closes at once. Every other
TODO comment is reported where it starts, and nothing else is (`TextRule.todoForm_reports_iff`).
-/

namespace StyleCheck

namespace Text

def space : UInt8 := 0x20

/-- Nothing, or a text that begins with a space. -/
def EndsOrSpaced (t : Text) : Prop := ∀ b ∈ t.head?, b = space

instance (t : Text) : Decidable (EndsOrSpaced t) :=
  inferInstanceAs (Decidable (∀ b ∈ t.head?, b = space))

namespace Todo

/-- A TODO comment: two slashes, blanks and the word. -/
def Marked (t : Text) : Prop :=
  ∃ lead body, t = slash :: slash :: (lead ++ (word ++ body)) ∧ lead.all isBlank = true

/-- The form that is documented. -/
def Documented (t : Text) : Prop :=
  ∃ name rest, t = ofString "// TODO(" ++ name ++ ofString "):" ++ rest ∧ name ≠ [] ∧
    closeParen ∉ name ∧ EndsOrSpaced rest

/-- A TODO comment with a name in parentheses. The first byte of the name may be anything, and the
name goes up to the first parenthesis that closes behind it. -/
structure Named (t lead : Text) (first : UInt8) (others rest : Text) : Prop where
  eq : t = slash :: slash ::
    (lead ++ (word ++ openParen :: first :: (others ++ closeParen :: rest)))
  blank : lead.all isBlank = true
  others : closeParen ∉ others

/-- The form that is let pass. -/
def Passes (t : Text) : Prop :=
  ∃ lead first others rest, Named t lead first others rest ∧ lead.length ≤ 1 ∧
    (EndsOrSpaced rest ∨ ∃ text, rest = colon :: text ∧ EndsOrSpaced text)

/-- What is let pass in a comment that is not of the documented form. -/
def Slips (t : Text) : Prop :=
  Passes t ∧ ∃ lead first others rest, Named t lead first others rest ∧
    (lead ≠ [space] ∨ first = closeParen ∨ rest.head? ≠ some colon)

variable {t u lead body others rest : Text} {first : UInt8} {c : Todo}

/-! ## Parts of a TODO comment -/

theorem splitName_named (h : closeParen ∉ others) (rest : Text) :
    splitName (openParen :: first :: (others ++ closeParen :: rest)) =
      (some (openParen :: first :: (others ++ [closeParen])), rest) := by
  have htake : (others ++ closeParen :: rest).takeWhile (· ≠ closeParen) = others := by
    rw [List.takeWhile_append_of_pos]
    · simp
    · intro b hb
      exact decide_eq_true fun he => h (he ▸ hb)
  rw [splitName, if_pos ⟨rfl, by simp⟩]
  dsimp only
  rw [htake, List.append_cons others, List.drop_left' (by simp)]
  rfl

theorem exists_named_of_splitName (h : (splitName body).1 ≠ none) :
    ∃ first others rest, body = openParen :: first :: (others ++ closeParen :: rest) ∧
      closeParen ∉ others := by
  unfold splitName at h
  split at h
  · next a b t =>
    split at h
    · next hab =>
      obtain ⟨rfl, hmem⟩ := hab
      obtain ⟨others, rest, rfl, hothers⟩ := List.eq_append_cons_of_mem hmem
      exact ⟨b, others, rest, rfl, hothers⟩
    · exact absurd rfl h
  · exact absurd rfl h

theorem ofComment?_marked (hlead : lead.all isBlank = true) (body : Text) :
    ofComment? (slash :: slash :: (lead ++ (word ++ body))) =
      some ⟨lead, (splitName body).1, gapOf (dropColon (splitName body).2)⟩ := by
  have hblank := List.all_eq_true.mp hlead
  have htake : (lead ++ (word ++ body)).takeWhile isBlank = lead := by
    rw [List.takeWhile_append_of_pos hblank]
    exact List.append_nil lead
  have hdrop : (lead ++ (word ++ body)).dropWhile isBlank = word ++ body := by
    rw [List.dropWhile_append_of_pos hblank]
    rfl
  have hword : word.isPrefixOf (word ++ body) = true := by simp
  rw [ofComment?, if_pos ⟨rfl, rfl⟩]
  dsimp only
  rw [hdrop, htake, if_pos hword, List.drop_left]

theorem marked_of_ofComment? (h : ofComment? t = some c) : Marked t := by
  unfold ofComment? at h
  split at h
  · next a b u =>
    split at h
    · next hab =>
      obtain ⟨rfl, rfl⟩ := hab
      dsimp only at h
      split at h
      · next hword =>
        obtain ⟨body, hbody⟩ := List.isPrefixOf_iff_prefix.mp hword
        refine ⟨u.takeWhile isBlank, body, ?_, List.all_takeWhile⟩
        rw [hbody, List.takeWhile_append_dropWhile]
      · cases h
    · cases h
  · cases h

/-! ## The rules -/

theorem gapOf_iff : gapOf t = .nothing ∨ gapOf t = .blank space ↔ EndsOrSpaced t := by
  cases t with
  | nil => exact iff_of_true (.inl rfl) fun b hb => by cases hb
  | cons a t =>
    by_cases ha : a = space
    · subst ha
      exact iff_of_true (.inr rfl) fun b hb => (Option.some.inj hb).symm
    · refine iff_of_false ?_ fun h => ha (h a rfl)
      rw [gapOf]
      split <;> simp [ha]

theorem endsOrSpaced_dropColon : EndsOrSpaced (dropColon t) ↔
    EndsOrSpaced t ∨ ∃ text, t = colon :: text ∧ EndsOrSpaced text := by
  cases t with
  | nil => simp [dropColon]
  | cons a t =>
    rw [dropColon]
    by_cases ha : a = colon
    · subst ha
      have hcolon : ¬ EndsOrSpaced (colon :: t) := fun h => absurd (h colon rfl) (by decide)
      rw [if_pos rfl, or_iff_right hcolon]
      simp
    · rw [if_neg ha, or_iff_left]
      rintro ⟨text, htext, -⟩
      exact ha (List.cons.inj htext).1

/-- No rule is broken if there is at most one blank, a name, and a space or nothing behind it. -/
theorem breach?_eq_none : c.breach? = none ↔
    c.lead.length ≤ 1 ∧ c.name ≠ none ∧ (c.gap = .nothing ∨ c.gap = .blank space) := by
  rw [breach?]
  by_cases hlead : 1 < c.lead.length
  · rw [if_pos hlead]
    exact iff_of_false (by simp) fun h => by omega
  · rw [if_neg hlead, and_iff_right (Nat.not_lt.mp hlead)]
    by_cases hname : c.name = none
    · simp [hname]
    · by_cases hgap : c.gap = .nothing ∨ c.gap = .blank space
      · have hrule : ¬ (c.gap ≠ .nothing ∧ c.gap ≠ .blank 0x20) := by
          rintro ⟨hn, hb⟩
          exact hgap.elim hn hb
        rw [if_neg hname, if_neg hrule]
        exact iff_of_true rfl ⟨hname, hgap⟩
      · have hrule : c.gap ≠ .nothing ∧ c.gap ≠ .blank 0x20 := not_or.mp hgap
        rw [if_neg hname, if_pos hrule]
        exact iff_of_false (by simp) fun h => hgap h.2

theorem Named.marked (h : Named t lead first others rest) : Marked t := ⟨lead, _, h.eq, h.blank⟩

theorem Named.ofComment? (h : Named t lead first others rest) :
    ofComment? t = some ⟨lead, some (openParen :: first :: (others ++ [closeParen])),
      gapOf (dropColon rest)⟩ := by
  rw [h.eq, ofComment?_marked h.blank, splitName_named h.others]

/-- The parts of a comment with a name are its own. -/
theorem Named.unique {lead' others' rest' : Text} {first' : UInt8}
    (h : Named t lead first others rest) (h' : Named t lead' first' others' rest') :
    lead = lead' ∧ first = first' ∧ rest = rest' := by
  have hparts := h.ofComment?.symm.trans h'.ofComment?
  simp only [Option.some.injEq, Todo.mk.injEq, List.cons.injEq, true_and,
    List.append_cancel_right_eq] at hparts
  obtain ⟨rfl, ⟨rfl, rfl⟩, -⟩ := hparts
  have heq := h.eq.symm.trans h'.eq
  simp only [List.cons.injEq, true_and, List.append_cancel_left_eq] at heq
  exact ⟨rfl, rfl, heq⟩

/-- Comments that break no rule are those that are let pass. -/
theorem breach?_ofComment? (h : ofComment? t = some c) : c.breach? = none ↔ Passes t := by
  obtain ⟨lead, body, rfl, hlead⟩ := marked_of_ofComment? h
  rw [ofComment?_marked hlead, Option.some_inj] at h
  subst h
  rw [breach?_eq_none]
  constructor
  · rintro ⟨hle, hname, hgap⟩
    obtain ⟨first, others, rest, rfl, hothers⟩ := exists_named_of_splitName hname
    rw [splitName_named hothers, gapOf_iff, endsOrSpaced_dropColon] at hgap
    exact ⟨lead, first, others, rest, ⟨rfl, hlead, hothers⟩, hle, hgap⟩
  · rintro ⟨lead', first, others, rest, hnamed, hle, hgap⟩
    have hparts := (ofComment?_marked hlead body).symm.trans hnamed.ofComment?
    simp only [Option.some.injEq, Todo.mk.injEq] at hparts
    obtain ⟨rfl, hname, hrest⟩ := hparts
    rw [hname, hrest, gapOf_iff, endsOrSpaced_dropColon]
    exact ⟨hle, by simp, hgap⟩

theorem documented_iff : Documented t ↔ ∃ first others text,
    Named t [space] first others (colon :: text) ∧ first ≠ closeParen ∧ EndsOrSpaced text := by
  have hfront : ofString "// TODO(" = slash :: slash :: ([space] ++ (word ++ [openParen])) := by
    decide +kernel
  have hback : ofString "):" = [closeParen, colon] := by decide +kernel
  rw [Documented, hfront, hback]
  constructor
  · rintro ⟨name, text, rfl, hne, hname, htext⟩
    obtain ⟨first, others, rfl⟩ := List.exists_cons_of_ne_nil hne
    rw [List.mem_cons, not_or] at hname
    obtain ⟨hfirst, hothers⟩ := hname
    exact ⟨first, others, text, ⟨by simp, rfl, hothers⟩, Ne.symm hfirst, htext⟩
  · rintro ⟨first, others, text, hnamed, hfirst, htext⟩
    refine ⟨first :: others, text, by rw [hnamed.eq]; simp, List.cons_ne_nil _ _, ?_, htext⟩
    exact List.not_mem_cons_of_ne_of_not_mem (Ne.symm hfirst) hnamed.others

theorem Documented.passes (h : Documented t) : Passes t := by
  obtain ⟨first, others, text, hnamed, -, htext⟩ := documented_iff.mp h
  exact ⟨_, first, others, _, hnamed, Nat.le_refl 1, .inr ⟨text, rfl, htext⟩⟩

/-- What is let pass is of the documented form, or slips. -/
theorem slips_iff : Slips t ↔ Passes t ∧ ¬ Documented t := by
  refine and_congr_right fun hpasses => ?_
  rw [documented_iff]
  constructor
  · rintro ⟨lead, first, others, rest, hnamed, hslip⟩ ⟨first', others', text, hnamed', hfirst, -⟩
    obtain ⟨rfl, rfl, rfl⟩ := hnamed.unique hnamed'
    rcases hslip with h | h | h
    · exact h rfl
    · exact hfirst h
    · exact h rfl
  · intro hnot
    obtain ⟨lead, first, others, rest, hnamed, -, hrest⟩ := hpasses
    refine ⟨lead, first, others, rest, hnamed, ?_⟩
    by_contra hslip
    push Not at hslip
    obtain ⟨rfl, hfirst, hcolon⟩ := hslip
    obtain ⟨text, rfl⟩ := List.head?_eq_some_iff.mp hcolon
    refine hnot ⟨first, others, text, hnamed, hfirst, ?_⟩
    rcases hrest with h | ⟨_, htext, h⟩
    · exact absurd (h colon rfl) (by decide)
    · exact (List.cons.inj htext).2 ▸ h

theorem Named.slips (h : Named t lead first others rest) (hle : lead.length ≤ 1)
    (hrest : EndsOrSpaced (dropColon rest))
    (hslip : lead ≠ [space] ∨ first = closeParen ∨ rest.head? ≠ some colon) : Slips t :=
  ⟨⟨lead, first, others, rest, h, hle, endsOrSpaced_dropColon.mp hrest⟩,
    lead, first, others, rest, h, hslip⟩

theorem Passes.marked (h : Passes t) : Marked t := by
  obtain ⟨lead, first, others, rest, hnamed, -⟩ := h
  exact hnamed.marked

end Todo

end Text

/-! ## What is reported -/

namespace TextRule

open Text.Todo (Marked Documented Passes Slips)

/-- What the report of a TODO comment is known by: the place where it starts. -/
def todoKey (path : String) (c : Text.Comment) : Violation.Key :=
  ⟨some path, c.start.line, c.start.column, "whitespace.todo"⟩

theorem todoViolation?_key {path : String} {c : Text.Comment} {k : Violation.Key} :
    (∃ v, todoViolation? path c = some v ∧ v.key = k) ↔
      k = todoKey path c ∧ Marked c.text ∧ ¬ Passes c.text := by
  rw [todoViolation?]
  cases htodo : Text.Todo.ofComment? c.text with
  | none =>
    refine iff_of_false ?_ ?_
    · rintro ⟨v, hv, -⟩
      cases hv
    · rintro ⟨-, ⟨lead, body, htext, hlead⟩, -⟩
      rw [htext, Text.Todo.ofComment?_marked hlead] at htodo
      cases htodo
  | some todo =>
    have hpasses := Text.Todo.breach?_ofComment? htodo
    rw [and_iff_right (Text.Todo.marked_of_ofComment? htodo), ← hpasses]
    cases hbreach : todo.breach? with
    | none =>
      refine iff_of_false ?_ fun h => h.2 rfl
      rintro ⟨v, hv, -⟩
      simp [hbreach] at hv
    | some said =>
      constructor
      · rintro ⟨v, hv, rfl⟩
        simp only [Option.bind_eq_bind, Option.bind_some, hbreach, Option.pure_def,
          Option.some_inj] at hv
        subst hv
        exact ⟨rfl, by simp⟩
      · rintro ⟨rfl, -⟩
        exact ⟨_, by simp only [Option.bind_eq_bind, Option.bind_some, hbreach]; rfl, rfl⟩

/-- What is reported is known by the TODO comments that are not let pass. -/
theorem mem_keys_todoForm {file : SourceFile} {k : Violation.Key} :
    k ∈ Violation.keys ((TextAudit.ofRule .todoForm).check file).1.violations.toList ↔
      ∃ c ∈ Text.comments file.text, k = todoKey file.path c ∧ Marked c.text ∧
        ¬ Passes c.text := by
  have hkeys : Violation.keys ((TextAudit.ofRule .todoForm).check file).1.violations.toList =
      Violation.keys ((Text.comments file.text).filterMap (todoViolation? file.path)) := by
    refine (ViolationSet.keys_insertAll .empty _).trans ?_
    rw [OrdSet.empty, Violation.keys_nil, Set.empty_union]
    rfl
  rw [hkeys, Violation.mem_keys]
  simp only [List.mem_filterMap, ← todoViolation?_key]
  constructor
  · rintro ⟨v, ⟨c, hc, hv⟩, hk⟩
    exact ⟨c, hc, v, hv, hk⟩
  · rintro ⟨c, hc, v, hv, hk⟩
    exact ⟨v, ⟨c, hc, hv⟩, hk⟩

end TextRule

end StyleCheck
