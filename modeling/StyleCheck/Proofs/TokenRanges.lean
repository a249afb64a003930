import StyleCheck.Indent.Scene

/-!
# The tokens of an extent

Tokens of a file that stand one behind the other (`Token.InOrder`) are cut in three by an extent:
those in front of it, inside it, and behind (`Token.InOrder.cut`). Let the extent end where one of
them ends. If it ends its line, the tokens taken for its own are tokens inside it. If anything but
blanks stands behind it on its last line, they are all the tokens inside it and one more, the next
behind it (`Scene.Borrows`).
-/

namespace StyleCheck

namespace Pos

variable {p q r : Pos}

theorem before_eq_true :
    p.before q = true ↔ p.line < q.line ∨ p.line = q.line ∧ p.column < q.column := by
  simp [before]

theorem before_eq_false :
    p.before q = false ↔ q.line < p.line ∨ q.line = p.line ∧ q.column ≤ p.column := by
  rw [← Bool.not_eq_true, before_eq_true]
  omega

theorem before_of_before_of_le (hpq : p.before q = true) (hqr : r.before q = false) :
    p.before r = true := by
  rw [before_eq_true] at hpq ⊢
  rw [before_eq_false] at hqr
  omega

theorem before_of_le_of_before (hpq : q.before p = false) (hqr : q.before r = true) :
    p.before r = true := by
  rw [before_eq_true] at hqr ⊢
  rw [before_eq_false] at hpq
  omega

theorem not_before_of_before (h : p.before q = true) : q.before p = false := by
  rw [before_eq_true] at h
  rw [before_eq_false]
  omega

theorem before_of_le_of_ne (hle : q.before p = false) (hne : p ≠ q) :
    p.before q = true := by
  rcases p with ⟨line, column⟩
  rcases q with ⟨line', column'⟩
  rw [Ne, Pos.mk.injEq] at hne
  rw [before_eq_false] at hle
  rw [before_eq_true]
  simp only at hle ⊢
  omega

end Pos

theorem Text.ofString_ne_nil {text : String} (htext : text ≠ "") : Text.ofString text ≠ [] := by
  rw [Text.ofString, Ne, List.flatMap_eq_nil_iff]
  intro h
  have hnil : text.toList = [] := by
    rw [List.eq_nil_iff_forall_not_mem]
    intro c hc
    have hlength := congrArg List.length (h c hc)
    rw [String.length_utf8EncodeChar] at hlength
    exact Nat.ne_of_gt c.utf8Size_pos hlength
  exact htext (String.toList_eq_nil_iff.mp hnil)

/-- What holds on the first part of a list and not behind it cuts the list in two. -/
theorem eq_filter_append_filter_not {α : Type} {p : α → Bool} {l : List α}
    (h : l.Pairwise fun a b => p b = true → p a = true) :
    l = l.filter p ++ l.filter fun a => !p a := by
  induction l with
  | nil => rfl
  | cons a l ih =>
    obtain ⟨hfirst, hrest⟩ := List.pairwise_cons.mp h
    by_cases ha : p a = true
    · rw [List.filter_cons_of_pos ha, List.filter_cons_of_neg (by simpa using ha),
        List.cons_append, ← ih hrest]
    · have hnone : ∀ b ∈ l, ¬ p b = true := fun b hb hpb => ha (hfirst b hb hpb)
      have hall : ∀ b ∈ a :: l, (!p b) = true := by
        simpa using And.intro (eq_false_of_ne_true ha) hnone
      rw [List.filter_cons_of_neg ha, List.filter_eq_nil_iff.mpr hnone, List.nil_append,
        List.filter_eq_self.mpr hall]

/-! ## Tokens in order -/

namespace Token

variable {ts : List Token} {t z : Token} {e : Extent} {stop : Pos}

theorem before_next (b : UInt8) (p : Pos) :
    p.before (if b = Text.newline then ⟨p.line + 1, 1⟩ else ⟨p.line, p.column + 1⟩) = true := by
  rw [Pos.before_eq_true]
  split
  · exact .inl (Int.lt_succ _)
  · exact .inr ⟨rfl, Int.lt_succ _⟩

theorem behind_not_before (text : Text) (p : Pos) : (behind p text).before p = false := by
  induction text generalizing p with
  | nil => simp [behind, Pos.before_eq_false]
  | cons b text ih =>
    exact Pos.not_before_of_before (Pos.before_of_before_of_le (before_next b p) (ih _))

theorem before_behind {text : Text} (htext : text ≠ []) (p : Pos) :
    p.before (behind p text) = true := by
  cases text with
  | nil => exact absurd rfl htext
  | cons b text => exact Pos.before_of_before_of_le (before_next b p) (behind_not_before text _)

theorem start_before_stop (h : t.spelling ≠ "") : t.start.before t.stop = true :=
  before_behind (Text.ofString_ne_nil h) t.start

/-- Each token stands behind the one in front of it, and none is empty. -/
structure InOrder (ts : List Token) : Prop where
  nonempty : ∀ t ∈ ts, t.spelling ≠ ""
  apart : ts.Pairwise fun t u => u.start.before t.stop = false

theorem InOrder.sublist {us : List Token} (hts : InOrder ts) (hus : us.Sublist ts) : InOrder us :=
  ⟨fun t ht => hts.nonempty t (hus.subset ht), hts.apart.sublist hus⟩

/-- Behind a token, nothing starts before its end. -/
theorem InOrder.of_mem_back {front back : List Token} (hts : InOrder (front ++ z :: back))
    (ht : t ∈ back) : t.start.before z.stop = false :=
  (List.pairwise_cons.mp (List.pairwise_append.mp hts.apart).2.1).1 t ht

/-- If a token starts before a position, so do those in front of it. -/
theorem InOrder.starts (hts : InOrder ts) (p : Pos) :
    ts.Pairwise fun t u => u.start.before p = true → t.start.before p = true := by
  refine List.Pairwise.imp_of_mem ?_ hts.apart
  intro t u ht _ hapart hu
  have hspan := start_before_stop (hts.nonempty t ht)
  rw [Pos.before_eq_true] at hspan hu ⊢
  rw [Pos.before_eq_false] at hapart
  omega

/-- If a token ends at a position at the latest, so do those in front of it. -/
theorem InOrder.stops (hts : InOrder ts) (p : Pos) :
    ts.Pairwise fun t u => (!p.before u.stop) = true → (!p.before t.stop) = true := by
  refine List.Pairwise.imp_of_mem ?_ hts.apart
  intro t u _ hu hapart hstop
  have hspan := start_before_stop (hts.nonempty u hu)
  rw [Bool.not_eq_true', Pos.before_eq_false] at hstop ⊢
  rw [Pos.before_eq_true] at hspan
  rw [Pos.before_eq_false] at hapart
  omega

/-! ## Ranges -/

theorem takeThrough_append_of_le {l m : List Token}
    (h : ∀ t ∈ l, stop.before t.stop = false) :
    takeThrough stop (l ++ m) = l ++ takeThrough stop m := by
  induction l with
  | nil => rfl
  | cons t l ih =>
    rw [List.cons_append, takeThrough, h t List.mem_cons_self, if_neg Bool.false_ne_true,
      ih fun u hu => h u (List.mem_cons_of_mem t hu), List.cons_append]

/-- A range takes all that stands in front of a token that starts in it. -/
theorem InOrder.takeThrough_append {l m n : List Token} (hts : InOrder (l ++ z :: n))
    (hz : stop.before z.start = false) :
    takeThrough stop (l ++ z :: m) = l ++ takeThrough stop (z :: m) := by
  refine takeThrough_append_of_le fun t ht => ?_
  have hapart := (List.pairwise_append.mp hts.apart).2.2 t ht z List.mem_cons_self
  rw [Pos.before_eq_false] at hapart hz ⊢
  omega

/-- A range goes on to the first token that ends behind it. -/
theorem takeThrough_append_cons {l m : List Token} {z : Token}
    (hl : ∀ t ∈ l, stop.before t.stop = false) (hz : stop.before z.stop = true) :
    takeThrough stop (l ++ z :: m) = l ++ [z] := by
  rw [takeThrough_append_of_le hl, takeThrough, if_pos hz]

theorem takeThrough_append_of_before {l m : List Token}
    (h : ∃ t ∈ l, stop.before t.stop = true) :
    takeThrough stop (l ++ m) = takeThrough stop l := by
  induction l with
  | nil => simp at h
  | cons t l ih =>
    rw [List.cons_append, takeThrough, takeThrough]
    split
    · rfl
    · next ht =>
      obtain ⟨u, hu, hstop⟩ := h
      rcases List.mem_cons.mp hu with rfl | hu
      · exact absurd hstop ht
      · rw [ih ⟨u, hu, hstop⟩]

theorem takeThrough_initial (stop : Pos) (ts : List Token) : takeThrough stop ts <+: ts := by
  induction ts with
  | nil => exact List.prefix_rfl
  | cons t ts ih =>
    rw [takeThrough, List.prefix_cons_inj]
    split
    · exact List.nil_prefix
    · exact ih

end Token

/-- Whether a token lies inside an extent. -/
def Extent.contains (e : Extent) (t : Token) : Bool :=
  some t.file == e.file && !t.start.before e.start && !e.stop.before t.stop

theorem Extent.stop_of_contains {e : Extent} {t : Token} (h : e.contains t = true) :
    e.stop.before t.stop = false := by
  simp only [contains, Bool.and_eq_true, Bool.not_eq_true'] at h
  exact h.2

/-- The tokens of a file. -/
def TranslationUnit.tokensIn (u : TranslationUnit) (file : Option String) : List Token :=
  u.tokens.filter fun t => some t.file == file

/-- The first token that does not start before a position. -/
def Token.next? (ts : List Token) (p : Pos) : Option Token :=
  ts.find? fun t => !t.start.before p

namespace Token

variable {ts : List Token} {t z : Token} {e : Extent}

/-- The tokens in front of an extent, inside it, and behind it, in this order. -/
theorem InOrder.cut (hts : InOrder ts) (hfile : ∀ t ∈ ts, some t.file = e.file) :
    ∃ front back, ts = front ++ (ts.filter e.contains ++ back) ∧
      ts.filter (fun t => !t.start.before e.start) = ts.filter e.contains ++ back ∧
      (∀ t ∈ front, t.start.before e.start = true) ∧ ∀ t ∈ back, e.stop.before t.stop = true := by
  have hstarts := eq_filter_append_filter_not (hts.starts e.start)
  have hstops := eq_filter_append_filter_not
    ((hts.sublist (List.filter_sublist (p := fun t => !t.start.before e.start))).stops e.stop)
  have hinside : (ts.filter fun t => !t.start.before e.start).filter
      (fun t => !e.stop.before t.stop) = ts.filter e.contains := by
    rw [List.filter_filter]
    refine List.filter_congr fun t ht => ?_
    rw [Extent.contains, hfile t ht, beq_self_eq_true, Bool.true_and, Bool.and_comm]
  rw [hinside] at hstops
  refine ⟨_, _, hstarts.trans (congrArg _ hstops), hstops, fun t ht => ?_, fun t ht => ?_⟩
  · exact (List.mem_filter.mp ht).2
  · simpa using (List.mem_filter.mp ht).2

/-- If a token inside an extent ends where the extent does, the tokens that do not start before the
extent are those inside it, and then those that do not start before its end. -/
theorem InOrder.split (hts : InOrder ts) (hfile : ∀ t ∈ ts, some t.file = e.file) (hz : z ∈ ts)
    (hstart : z.start.before e.start = false) (hstop : z.stop = e.stop) :
    ∃ back, ts.filter (fun t => !t.start.before e.start) = ts.filter e.contains ++ back ∧
      next? ts e.stop = back.head? ∧ z ∈ ts.filter e.contains ∧
      ∀ t ∈ back, e.stop.before t.stop = true := by
  obtain ⟨front, back, htokens, hsplit, hfront, hback⟩ := hts.cut hfile
  have hspan := hstop ▸ start_before_stop (hts.nonempty z hz)
  have hzin : z ∈ ts.filter e.contains := by
    refine List.mem_filter.mpr ⟨hz, ?_⟩
    rw [Extent.contains, hfile z hz, hstart, hstop]
    simp [Pos.before_eq_false]
  have hnone : (front ++ ts.filter e.contains).find? (fun t => !t.start.before e.stop) = none := by
    rw [List.find?_eq_none]
    intro t ht
    rw [Bool.not_eq_true', Bool.not_eq_false]
    rcases List.mem_append.mp ht with ht | ht
    · have hbefore := Pos.before_of_before_of_le (hfront t ht) hstart
      exact Pos.before_of_before_of_le hbefore (Pos.not_before_of_before hspan)
    · obtain ⟨hmem, hin⟩ := List.mem_filter.mp ht
      exact Pos.before_of_before_of_le (start_before_stop (hts.nonempty t hmem))
        (Extent.stop_of_contains hin)
  refine ⟨back, hsplit, ?_, hzin, hback⟩
  rw [← List.append_assoc] at htokens
  rw [next?, htokens, List.find?_append, hnone, Option.none_or]
  cases back with
  | nil => rfl
  | cons t back =>
    have hbehind : t.start.before e.stop = false := by
      rw [htokens] at hts
      rw [← hstop]
      exact (List.pairwise_append.mp hts.apart).2.2 z (List.mem_append_right _ hzin) t
        List.mem_cons_self
    rw [List.find?_cons, hbehind]
    rfl

end Token

/-- An extent starts where a token starts and ends where one ends. -/
structure Extent.OnTokens (e : Extent) (ts : List Token) : Prop where
  starts : ∃ t ∈ ts, t.start = e.start
  stops : ∃ t ∈ ts, t.stop = e.stop
  proper : e.start.before e.stop = true

/-- The token that an extent ends with does not start before the extent. -/
theorem Extent.OnTokens.exists_last {e : Extent} {ts : List Token} (he : e.OnTokens ts)
    (hts : Token.InOrder ts) :
    ∃ z ∈ ts, z.start.before e.start = false ∧ z.stop = e.stop := by
  obtain ⟨z, hz, hstop⟩ := he.stops
  refine ⟨z, hz, ?_, hstop⟩
  obtain ⟨a, ha, hstart⟩ := he.starts
  obtain ⟨front, back, rfl⟩ := List.append_of_mem hz
  have hproper := he.proper
  rw [← hstart, ← hstop] at hproper
  rw [← hstart]
  rcases List.mem_append.mp ha with hfront | hback
  · have hapart := (List.pairwise_append.mp hts.apart).2.2 a hfront z List.mem_cons_self
    exact Pos.not_before_of_before
      (Pos.before_of_before_of_le (Token.start_before_stop (hts.nonempty a ha)) hapart)
  · rcases List.mem_cons.mp hback with rfl | hback
    · simp [Pos.before_eq_false]
    · rw [hts.of_mem_back hback] at hproper
      cases hproper

namespace Scene

variable {s : Scene} {e : Extent} {ts : List Token} {t : Token}

/-- A token behind an extent is taken for one of its own: the next one, if the extent ends in front
of the last ink of its last line. -/
def Borrows (s : Scene) (e : Extent) (t : Token) : Prop :=
  ∃ file line, e.file = some file ∧ s.line file e.stop.line = .ok line ∧
    e.stop.column ≤ (Text.trimEnd line).length ∧
    Token.next? (s.unit.tokensIn e.file) e.stop = some t

theorem file_of_mem_tokensIn {u : TranslationUnit} {file : Option String} {t : Token}
    (ht : t ∈ u.tokensIn file) : some t.file = file :=
  eq_of_beq (List.mem_filter.mp ht).2

theorem tokensOf_eq {file : String} {line : Text} (hfile : e.file = some file)
    (hline : s.line file e.stop.line = .ok line) (adjust : Int → Int) :
    s.tokensOf e adjust = .ok (Token.takeThrough
      ⟨e.stop.line, adjust (min e.stop.column (Text.trimEnd line).length)⟩
      ((s.unit.tokensIn e.file).filter fun t => !t.start.before e.start)) := by
  unfold tokensOf
  rw [TranslationUnit.tokensIn, List.filter_filter, hfile, present]
  show (s.line file e.stop.line >>= _) = _
  rw [hline]
  simp only [Bool.and_comm]
  rfl

theorem exists_line_of_tokensOf {adjust : Int → Int} (hts : s.tokensOf e adjust = .ok ts) :
    ∃ file line, e.file = some file ∧ s.line file e.stop.line = .ok line := by
  unfold tokensOf at hts
  cases hfile : e.file with
  | none =>
    rw [hfile] at hts
    cases hts
  | some file =>
    rw [hfile] at hts
    change (s.line file e.stop.line >>= _) = _ at hts
    cases hline : s.line file e.stop.line with
    | error _ =>
      rw [hline] at hts
      cases hts
    | ok line => exact ⟨file, line, rfl, hline⟩

/-- The tokens of an extent are those inside it and the one that it borrows, if it borrows one. If
not, they are tokens inside it. -/
theorem tokensOf_cases (horder : Token.InOrder (s.unit.tokensIn e.file))
    (he : e.OnTokens (s.unit.tokensIn e.file)) (hts : s.tokensOf e id = .ok ts) :
    (∃ t, s.Borrows e t ∧ ts = (s.unit.tokensIn e.file).filter e.contains ++ [t]) ∨
      (∀ t, ¬ s.Borrows e t) ∧ ts <+: (s.unit.tokensIn e.file).filter e.contains := by
  obtain ⟨file, line, hfile, hline⟩ := exists_line_of_tokensOf hts
  obtain ⟨z, hz, hstart, hstop⟩ := he.exists_last horder
  obtain ⟨back, hsplit, hnext, hzin, hback⟩ :=
    horder.split (fun t ht => file_of_mem_tokensIn ht) hz hstart hstop
  rw [tokensOf_eq hfile hline, hsplit, Except.ok.injEq] at hts
  subst hts
  by_cases hend : e.stop.column ≤ (Text.trimEnd line).length
  · have hinside : ∀ t ∈ (s.unit.tokensIn e.file).filter e.contains,
        e.stop.before t.stop = false :=
      fun t ht => Extent.stop_of_contains (List.mem_filter.mp ht).2
    rw [id, Int.min_eq_left hend, Token.takeThrough_append_of_le hinside]
    cases back with
    | nil =>
      refine .inr ⟨?_, ?_⟩
      · rintro t ⟨_, _, -, -, -, ht⟩
        cases hnext.symm.trans ht
      · simp only [Token.takeThrough, List.append_nil, List.prefix_rfl]
    | cons t back =>
      refine .inl ⟨t, ⟨file, line, hfile, hline, hend, hnext⟩, ?_⟩
      rw [Token.takeThrough, if_pos (hback t List.mem_cons_self)]
  · refine .inr ⟨?_, ?_⟩
    · rintro t ⟨_, _, hfile', hline', hend', -⟩
      cases hfile.symm.trans hfile'
      cases hline.symm.trans hline'
      exact hend hend'
    · have hbefore : Pos.before ⟨e.stop.line, id (min e.stop.column (Text.trimEnd line).length)⟩
          z.stop = true := by
        rw [hstop, Pos.before_eq_true, id, Int.min_eq_right (by omega)]
        exact .inr ⟨rfl, Int.not_le.mp hend⟩
      rw [Token.takeThrough_append_of_before ⟨z, hzin, hbefore⟩]
      exact Token.takeThrough_initial _ _

theorem Borrows.exists_tokens (h : s.Borrows e t) : ∃ ts, s.tokensOf e id = .ok ts := by
  obtain ⟨_, _, hfile, hline, -⟩ := h
  exact ⟨_, tokensOf_eq hfile hline id⟩

/-- An extent borrows one token at most. -/
theorem Borrows.unique {u : Token} (h : s.Borrows e t) (hu : s.Borrows e u) : t = u := by
  obtain ⟨_, _, -, -, -, ht⟩ := h
  obtain ⟨_, _, -, -, -, hu⟩ := hu
  exact Option.some_inj.mp (ht.symm.trans hu)

section

variable (horder : Token.InOrder (s.unit.tokensIn e.file))

include horder

/-- A token that is borrowed does not lie inside the extent. -/
theorem Borrows.not_contains (h : s.Borrows e t) : e.contains t = false := by
  obtain ⟨_, _, -, -, -, hnext⟩ := h
  have hstart : t.start.before e.stop = false := by simpa using List.find?_some hnext
  have hspan := Token.start_before_stop (horder.nonempty t (List.mem_of_find?_eq_some hnext))
  rw [Extent.contains, Pos.before_of_le_of_before hstart hspan]
  simp

variable (he : e.OnTokens (s.unit.tokensIn e.file)) (hts : s.tokensOf e id = .ok ts)

include he hts

theorem tokensOf_of_borrows (h : s.Borrows e t) :
    ts = (s.unit.tokensIn e.file).filter e.contains ++ [t] := by
  rcases tokensOf_cases horder he hts with ⟨u, hu, rfl⟩ | ⟨hnone, -⟩
  · rw [h.unique hu]
  · exact absurd h (hnone t)

theorem mem_or_borrows (ht : t ∈ ts) :
    (t ∈ s.unit.tokensIn e.file ∧ e.contains t = true) ∨ s.Borrows e t := by
  rcases tokensOf_cases horder he hts with ⟨u, hu, rfl⟩ | ⟨-, hinitial⟩
  · rcases List.mem_append.mp ht with ht | ht
    · exact .inl (List.mem_filter.mp ht)
    · cases List.mem_singleton.mp ht
      exact .inr hu
  · exact .inl (List.mem_filter.mp (hinitial.subset ht))

end

end Scene

end StyleCheck
