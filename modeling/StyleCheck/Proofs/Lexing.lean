import Mathlib.Data.List.TakeWhile
import StyleCheck.Text.Comment
import StyleCheck.Text.Utf8

/-!
# Comments and literals from left to right

`Form` says what a complete comment or literal is, in front of the rest of a text. Spans are a
`Lexing` of a text if they come in order, do not overlap, are forms, and every form of the text
starts inside one of them. There is just one such list of spans, and the comments of a text have it
(`comments_lex_leftmost`).
-/

namespace StyleCheck.Text

/-- What stands between the quotes of a literal. A backslash takes the next byte along, whatever it
is; all other bytes but the quote stand for themselves. -/
inductive QuoteBody (quote : UInt8) : Text → Prop
  | nil : QuoteBody quote []
  | plain {b : UInt8} {t : Text} : b ≠ quote → b ≠ backslash → QuoteBody quote t →
      QuoteBody quote (b :: t)
  | escaped {b : UInt8} {t : Text} : QuoteBody quote t → QuoteBody quote (backslash :: b :: t)

/-- A complete comment or literal, in front of the rest of a text. -/
inductive Form : (form rest : Text) → Prop
  /-- Two slashes and all that is in front of the next line feed, or of the end. -/
  | line {body rest : Text} : newline ∉ body → (∀ b ∈ rest.head?, b = newline) →
      Form (slash :: slash :: body) rest
  /-- From `/*` up to the first `*/` behind it. -/
  | block {body rest : Text} : ¬ [star, slash] <:+: body →
      Form (slash :: star :: body ++ [star, slash]) rest
  | literal {quote : UInt8} {body rest : Text} : quote = singleQuote ∨ quote = doubleQuote →
      QuoteBody quote body → Form (quote :: body ++ [quote]) rest

variable {a b quote : UInt8} {t u body rest form : Text} {n : Nat}

/-! ## Ends of forms -/

theorem close_prefix_iff : [star, slash] <+: a :: t ↔ a = star ∧ t.head? = some slash := by
  cases t <;> simp [List.cons_prefix_cons, eq_comm]

theorem blockEnd?_cons (h : ¬ [star, slash] <+: a :: t) :
    blockEnd? (a :: t) = (blockEnd? t).map (· + 1) := by
  rw [close_prefix_iff] at h
  cases t with
  | nil => rfl
  | cons b t => rw [blockEnd?, if_neg fun hab => h ⟨hab.1, congrArg some hab.2⟩]

theorem blockEnd?_of_body (h : ¬ [star, slash] <:+: body) (rest : Text) :
    blockEnd? (body ++ star :: slash :: rest) = some (body.length + 2) := by
  induction body with
  | nil => rfl
  | cons a body ih =>
    rw [List.infix_cons_iff, not_or, close_prefix_iff] at h
    have hfirst : ¬ [star, slash] <+: a :: (body ++ star :: slash :: rest) := by
      rw [close_prefix_iff]
      cases body with
      | nil => exact fun hp => absurd (Option.some.inj hp.2) (by decide)
      | cons b body => exact h.1
    rw [List.cons_append, blockEnd?_cons hfirst, ih h.2]
    rfl

theorem exists_body_of_blockEnd? : ∀ {n : Nat}, blockEnd? t = some n →
    ∃ body rest, t = body ++ star :: slash :: rest ∧ ¬ [star, slash] <:+: body ∧
      n = body.length + 2 := by
  fun_induction blockEnd? t with
  | case1 => intro n h; cases h
  | case2 a => intro n h; cases h
  | case3 a b t h =>
    obtain ⟨rfl, rfl⟩ := h
    rintro n ⟨⟩
    exact ⟨[], t, rfl, by simp, rfl⟩
  | case4 a b t h ih =>
    intro n hn
    obtain ⟨m, hm, rfl⟩ := Option.map_eq_some_iff.mp hn
    obtain ⟨body, rest, ht, hbody, rfl⟩ := ih hm
    refine ⟨a :: body, rest, by rw [ht]; rfl, ?_, rfl⟩
    rw [List.infix_cons_iff, not_or, close_prefix_iff]
    refine ⟨?_, hbody⟩
    rintro ⟨ha, hb⟩
    cases body with
    | nil => cases hb
    | cons c body =>
      cases ht
      exact h ⟨ha, Option.some.inj hb⟩

theorem quoteEnd?_cons (hq : b ≠ quote) (hb : b ≠ backslash) :
    quoteEnd? quote (b :: t) = (quoteEnd? quote t).map (· + 1) := by
  cases t with
  | nil => simp [quoteEnd?, hq]
  | cons c t => rw [quoteEnd?, if_neg hb, if_neg hq]

theorem quoteEnd?_quote (h : quote ≠ backslash) : quoteEnd? quote (quote :: t) = some 1 := by
  cases t with
  | nil => rw [quoteEnd?, if_pos rfl]
  | cons c t => rw [quoteEnd?, if_neg h, if_pos rfl]

theorem quoteEnd?_of_body (h : quote ≠ backslash) (hbody : QuoteBody quote body) (rest : Text) :
    quoteEnd? quote (body ++ quote :: rest) = some (body.length + 1) := by
  induction hbody with
  | nil => exact quoteEnd?_quote h
  | plain hq hb _ ih => rw [List.cons_append, quoteEnd?_cons hq hb, ih]; rfl
  | escaped _ ih =>
    rw [List.cons_append, List.cons_append, quoteEnd?, if_pos rfl, ih]
    rfl

theorem exists_body_of_quoteEnd? : ∀ {n : Nat}, quoteEnd? quote t = some n →
    ∃ body rest, t = body ++ quote :: rest ∧ QuoteBody quote body ∧ n = body.length + 1 := by
  fun_induction quoteEnd? quote t with
  | case1 => intro n h; cases h
  | case2 => rintro n ⟨⟩; exact ⟨[], [], rfl, .nil, rfl⟩
  | case3 => intro n h; cases h
  | case4 b t ih =>
    intro n hn
    obtain ⟨m, hm, rfl⟩ := Option.map_eq_some_iff.mp hn
    obtain ⟨body, rest, rfl, hbody, rfl⟩ := ih hm
    exact ⟨_, rest, rfl, .escaped hbody, rfl⟩
  | case5 b t hb => rintro n ⟨⟩; exact ⟨[], _, rfl, .nil, rfl⟩
  | case6 a b t hb hq ih =>
    intro n hn
    obtain ⟨m, hm, rfl⟩ := Option.map_eq_some_iff.mp hn
    obtain ⟨body, rest, ht, hbody, rfl⟩ := ih hm
    exact ⟨a :: body, rest, by rw [ht]; rfl, .plain hq hb hbody, rfl⟩

/-! ## Forms at the front of a text -/

theorem formLength?_slashes (t : Text) :
    formLength? (slash :: slash :: t) = some ((t.takeWhile (· ≠ newline)).length + 2) := rfl

theorem formLength?_slashStar (t : Text) :
    formLength? (slash :: star :: t) = (blockEnd? t).map (· + 2) := rfl

theorem formLength?_quote (h : quote = singleQuote ∨ quote = doubleQuote) (t : Text) :
    formLength? (quote :: t) = (quoteEnd? quote t).map (· + 1) := by
  cases t <;> simp only [formLength?, if_pos h]

/-- The length of the form that a text begins with is found. -/
theorem formLength?_of_form (h : Form form rest) :
    formLength? (form ++ rest) = some form.length := by
  cases h with
  | @line body _ hbody hrest =>
    have htake : (body ++ rest).takeWhile (· ≠ newline) = body := by
      rw [List.takeWhile_append_of_pos]
      · cases rest with
        | nil => exact List.append_nil _
        | cons b rest => simp [hrest b rfl]
      · intro b hb
        exact decide_eq_true fun he => hbody (he ▸ hb)
    rw [List.cons_append, List.cons_append, formLength?_slashes, htake]
    rfl
  | @block body _ hbody =>
    simp only [List.cons_append, List.append_assoc, List.nil_append, formLength?_slashStar,
      blockEnd?_of_body hbody, Option.map_some, List.length_cons, List.length_append,
      List.length_nil]
  | @literal quote body _ hquote hbody =>
    have hb : quote ≠ backslash := by
      rcases hquote with rfl | rfl <;> decide
    simp only [List.cons_append, List.append_assoc, List.nil_append, formLength?_quote hquote,
      quoteEnd?_of_body hb hbody, Option.map_some, List.length_cons, List.length_append,
      List.length_nil]

theorem form_line (t : Text) :
    Form (slash :: slash :: t.takeWhile (· ≠ newline)) (t.dropWhile (· ≠ newline)) := by
  refine .line (fun hb => by simpa using List.mem_takeWhile_imp hb) fun b hb => ?_
  have hrest := List.head?_dropWhile_not (· ≠ newline) t
  rw [Option.mem_def.mp hb] at hrest
  simpa using hrest

theorem exists_form_of_formLength? (h : formLength? t = some n) :
    ∃ form rest, t = form ++ rest ∧ n = form.length ∧ Form form rest := by
  unfold formLength? at h
  split at h
  · cases h
  · next a t =>
    split at h
    · next hquote =>
      obtain ⟨m, hm, rfl⟩ := Option.map_eq_some_iff.mp h
      obtain ⟨body, rest, rfl, hbody, rfl⟩ := exists_body_of_quoteEnd? hm
      exact ⟨a :: body ++ [a], rest, by simp, by simp, .literal hquote hbody⟩
    · split at h
      · next ha =>
        subst ha
        split at h
        · cases h
        · next b t =>
          split at h
          · next hb =>
            subst hb
            cases h
            exact ⟨_, _, by simp, rfl, form_line t⟩
          · split at h
            · next hb =>
              subst hb
              obtain ⟨m, hm, rfl⟩ := Option.map_eq_some_iff.mp h
              obtain ⟨body, rest, rfl, hbody, rfl⟩ := exists_body_of_blockEnd? hm
              exact ⟨slash :: star :: body ++ [star, slash], rest, by simp, by simp, .block hbody⟩
            · cases h
      · cases h

theorem Form.two_le_length (h : Form form rest) : 2 ≤ form.length := by
  cases h <;> simp

/-! ## Spans -/

/-- The offset behind a span. -/
def Span.stop (s : Span) : Nat := s.offset + s.length

/-- A span of a text that is a form. -/
def FormAt (t : Text) (s : Span) : Prop :=
  ∃ before form rest, t = before ++ (form ++ rest) ∧ before.length = s.offset ∧
    form.length = s.length ∧ Form form rest

variable {s : Span} {spans : List Span} {start : Nat}

theorem formAt_iff : FormAt t s ↔ formLength? (t.drop s.offset) = some s.length := by
  constructor
  · rintro ⟨before, form, rest, rfl, hbefore, hform, hf⟩
    rw [← hbefore, List.drop_left, formLength?_of_form hf, hform]
  · intro h
    obtain ⟨form, rest, hdrop, hlength, hf⟩ := exists_form_of_formLength? h
    have hlt : s.offset < t.length := by
      by_contra hle
      rw [List.drop_eq_nil_of_le (by omega)] at h
      cases h
    refine ⟨t.take s.offset, form, rest, ?_, List.length_take_of_le hlt.le, hlength.symm, hf⟩
    rw [← hdrop, List.take_append_drop]

theorem FormAt.stop_le (h : FormAt t s) : s.offset + 2 ≤ s.stop ∧ s.stop ≤ t.length := by
  obtain ⟨before, form, rest, rfl, hbefore, hform, hf⟩ := h
  have := hf.two_le_length
  simp only [Span.stop, List.length_append]
  omega

/-- Two forms that start at one offset are one. -/
theorem FormAt.unique {a b : Span} (ha : FormAt t a) (hb : FormAt t b)
    (h : a.offset = b.offset) : a = b := by
  rw [formAt_iff] at ha hb
  rw [h, hb] at ha
  cases a
  cases b
  simp_all

/-- What is found in a text from an offset on, read from left to right: forms one behind the other,
so that no form starts but inside one of them. -/
structure Lexing (t : Text) (start : Nat) (spans : List Span) : Prop where
  ordered : spans.Pairwise fun a b => a.stop ≤ b.offset
  forms : ∀ s ∈ spans, start ≤ s.offset ∧ FormAt t s
  leftmost : ∀ s, FormAt t s → start ≤ s.offset →
    ∃ a ∈ spans, a.offset ≤ s.offset ∧ s.offset < a.stop

namespace Lexing

theorem nil (h : t.length ≤ start) : Lexing t start [] := by
  refine ⟨.nil, List.forall_mem_nil _, fun s hs hle => ?_⟩
  have := hs.stop_le
  omega

/-- A form, and what is found behind it. -/
theorem cons (hs : FormAt t s) (h : Lexing t s.stop spans) : Lexing t s.offset (s :: spans) := by
  have hstop := hs.stop_le
  refine ⟨List.pairwise_cons.mpr ⟨fun a ha => (h.forms a ha).1, h.ordered⟩, ?_, fun a ha hle => ?_⟩
  · rw [List.forall_mem_cons]
    refine ⟨⟨Nat.le_refl _, hs⟩, fun a ha => ⟨?_, (h.forms a ha).2⟩⟩
    have := (h.forms a ha).1
    omega
  · by_cases hin : a.offset < s.stop
    · exact ⟨s, List.mem_cons_self, hle, hin⟩
    · obtain ⟨b, hb, hcover⟩ := h.leftmost a ha (by omega)
      exact ⟨b, List.mem_cons_of_mem s hb, hcover⟩

/-- A byte that no form starts with is passed over. -/
theorem pass (h : Lexing t (start + 1) spans) (hnone : ∀ s, FormAt t s → s.offset ≠ start) :
    Lexing t start spans := by
  refine ⟨h.ordered, fun s hs => ⟨?_, (h.forms s hs).2⟩, fun s hs hle => h.leftmost s hs ?_⟩
  · have := (h.forms s hs).1
    omega
  · have := hnone s hs
    omega

theorem tail (h : Lexing t start (s :: spans)) : Lexing t s.stop spans := by
  obtain ⟨hfirst, hordered⟩ := List.pairwise_cons.mp h.ordered
  obtain ⟨⟨hle, hs⟩, hforms⟩ := List.forall_mem_cons.mp h.forms
  refine ⟨hordered, fun a ha => ⟨hfirst a ha, (hforms a ha).2⟩, fun a ha hstop => ?_⟩
  have := hs.stop_le
  obtain ⟨b, hb, hcover⟩ := h.leftmost a ha (by omega)
  rcases List.mem_cons.mp hb with rfl | hb
  · omega
  · exact ⟨b, hb, hcover⟩

/-- The first span starts where the first form does. -/
theorem head_le (h : Lexing t start (s :: spans)) {a : Span} (ha : FormAt t a)
    (hle : start ≤ a.offset) : s.offset ≤ a.offset := by
  obtain ⟨b, hb, hcover⟩ := h.leftmost a ha hle
  rcases List.mem_cons.mp hb with rfl | hb
  · exact hcover.1
  · have := (List.pairwise_cons.mp h.ordered).1 b hb
    have := (h.forms s List.mem_cons_self).2.stop_le
    omega

/-- No span starts inside another one. -/
theorem not_inside {a b : Span} : ∀ {spans : List Span} {start : Nat}, Lexing t start spans →
    a ∈ spans → b ∈ spans → a.offset < b.offset → a.stop ≤ b.offset := by
  intro spans
  induction spans with
  | nil =>
    intro start h ha
    cases ha
  | cons s spans ih =>
    intro start h ha hb hlt
    have hfirst := (List.pairwise_cons.mp h.ordered).1
    rcases List.mem_cons.mp ha with rfl | hat
    · rcases List.mem_cons.mp hb with rfl | hbt
      · omega
      · exact hfirst b hbt
    · rcases List.mem_cons.mp hb with rfl | hbt
      · have := hfirst a hat
        have := (h.forms b List.mem_cons_self).2.stop_le
        omega
      · exact ih h.tail hat hbt hlt

/-- There is one way to read a text from left to right. -/
theorem unique : ∀ {spans others : List Span} {start : Nat},
    Lexing t start spans → Lexing t start others → spans = others
  | [], [], _, _, _ => rfl
  | [], b :: others, _, h, h' => by
    obtain ⟨hle, hb⟩ := h'.forms b List.mem_cons_self
    obtain ⟨a, ha, -⟩ := h.leftmost b hb hle
    cases ha
  | a :: spans, [], _, h, h' => by
    obtain ⟨hle, ha⟩ := h.forms a List.mem_cons_self
    obtain ⟨b, hb, -⟩ := h'.leftmost a ha hle
    cases hb
  | a :: spans, b :: others, _, h, h' => by
    obtain ⟨hlea, ha⟩ := h.forms a List.mem_cons_self
    obtain ⟨hleb, hb⟩ := h'.forms b List.mem_cons_self
    have hoffset : a.offset = b.offset := Nat.le_antisymm (h.head_le hb hleb) (h'.head_le ha hlea)
    obtain rfl := ha.unique hb hoffset
    rw [unique h.tail h'.tail]

end Lexing

theorem drop_succ_of_drop {offset : Nat} (h : t.drop offset = b :: u) :
    t.drop (offset + 1) = u := by
  rw [← List.tail_drop, h, List.tail_cons]

/-- The induction follows the scan: `skip` bytes are inside the last form found. -/
theorem formsFrom_lexing {skip offset : Nat} : t.drop offset = u →
    t.Lexing (offset + skip) (formsFrom skip offset u) := by
  fun_induction formsFrom skip offset u with
  | case1 skip offset =>
    intro h
    have := List.drop_eq_nil_iff.mp h
    exact .nil (by omega)
  | case2 skip offset b u ih =>
    intro h
    rw [Nat.add_succ, ← Nat.succ_add]
    exact ih (drop_succ_of_drop h)
  | case3 offset b u n hn ih =>
    intro h
    have hform : FormAt t ⟨offset, n⟩ := formAt_iff.mpr (by rw [h, hn])
    have hstop : offset + 1 + (n - 1) = Span.stop ⟨offset, n⟩ := by
      have := hform.stop_le
      simp only [Span.stop] at this ⊢
      omega
    exact .cons hform (hstop ▸ ih (drop_succ_of_drop h))
  | case4 offset b u hn ih =>
    intro h
    refine .pass (ih (drop_succ_of_drop h)) fun s hs hoffset => ?_
    rw [formAt_iff, hoffset, Nat.add_zero, h, hn] at hs
    cases hs

theorem forms_lexing (t : Text) : t.Lexing 0 (forms t) :=
  @formsFrom_lexing t t 0 0 List.drop_zero

theorem forms_eq_iff : forms t = spans ↔ t.Lexing 0 spans :=
  ⟨fun h => h ▸ forms_lexing t, fun h => (forms_lexing t).unique h⟩

/-- The span of a comment or literal. -/
def Comment.span (c : Comment) : Span := ⟨c.start.offset, c.stop.offset - c.start.offset⟩

theorem span_ofSpan (t : Text) (s : Span) : (Comment.ofSpan t s).span = s := by
  simp [Comment.span, Comment.ofSpan]

theorem spans_comments (t : Text) : (comments t).map Comment.span = forms t := by
  simp [comments, Function.comp_def, span_ofSpan]

/-- The text of a comment is what stands in its span. -/
theorem FormAt.text_ofSpan (h : FormAt t s) : ∃ before rest,
    t = before ++ ((Comment.ofSpan t s).text ++ rest) ∧ before.length = s.offset ∧
      (Comment.ofSpan t s).text.length = s.length ∧ Form (Comment.ofSpan t s).text rest := by
  obtain ⟨before, form, rest, ht, hbefore, hlength, hform⟩ := h
  have htext : (Comment.ofSpan t s).text = form := by
    rw [Comment.ofSpan, ht, ← hbefore, ← hlength, List.drop_left, List.take_left]
  rw [htext]
  exact ⟨before, rest, ht, hbefore, hlength, hform⟩

/-- The comments of a text are all that is found in it from left to right, and nothing else is. Each
of them has at least two bytes, tells the text between its places, and is a complete form there; no
other one starts inside it. -/
theorem comments_lex_leftmost (t : Text) :
    (∀ spans, (comments t).map Comment.span = spans ↔ t.Lexing 0 spans) ∧
      ∀ c ∈ comments t, 2 ≤ c.text.length ∧ c.start.offset + c.text.length = c.stop.offset ∧
        (∃ before rest, t = before ++ (c.text ++ rest) ∧ before.length = c.start.offset ∧
          Form c.text rest) ∧
        ∀ d ∈ comments t, ¬ (c.start.offset < d.start.offset ∧ d.start.offset < c.stop.offset) := by
  refine ⟨fun spans => by rw [spans_comments, forms_eq_iff], fun c hc => ?_⟩
  obtain ⟨s, hs, rfl⟩ := List.mem_map.mp hc
  have hform : FormAt t s := ((forms_lexing t).forms s hs).2
  obtain ⟨before, rest, ht, hbefore, hlength, hf⟩ := hform.text_ofSpan
  refine ⟨hf.two_le_length, congrArg (s.offset + ·) hlength, ⟨before, rest, ht, hbefore, hf⟩, ?_⟩
  rintro _ hd ⟨hlt, hin⟩
  obtain ⟨d, hmem, rfl⟩ := List.mem_map.mp hd
  exact absurd hin (Nat.not_lt.mpr ((forms_lexing t).not_inside hs hmem hlt))

/-- A quote in quotes, quotes and slashes in comments, and a quote that nothing ends. -/
theorem comments_lex_leftmost_mixed :
    let t := ofString "x = '\"'; // it's \"\n/* ' // */ \""
    (comments t).map Comment.span = [⟨4, 3⟩, ⟨9, 9⟩, ⟨19, 10⟩] ∧
      t.Lexing 0 [⟨4, 3⟩, ⟨9, 9⟩, ⟨19, 10⟩] ∧
      ∃ c ∈ comments t, c.start.offset = 9 ∧ 2 ≤ c.text.length ∧
        ∃ rest, Form c.text rest ∧ c.text = ofString "// it's \"" := by
  intro t
  obtain ⟨hlex, hall⟩ := comments_lex_leftmost t
  have hforms : forms t = [⟨4, 3⟩, ⟨9, 9⟩, ⟨19, 10⟩] := by decide +kernel
  have hspans := (spans_comments t).trans hforms
  have hc : Comment.ofSpan t ⟨9, 9⟩ ∈ comments t := List.mem_map_of_mem (by rw [hforms]; decide)
  obtain ⟨hlength, -, ⟨_, rest, -, -, hform⟩, -⟩ := hall _ hc
  exact ⟨hspans, (hlex _).mp hspans, _, hc, rfl, hlength, rest, hform, by decide +kernel⟩

end StyleCheck.Text
