import StyleCheck.Indent.Braces
import StyleCheck.Proofs.LineStarts

/-!
# The layout of braces

The braces of a construct are judged by four of its tokens (`Bracing`), and each placement demands
a layout of them (`Bracing.StandsAs`). Braces on the line or on the next line are accepted just if
they stand as demanded. Of indented braces it is accepted that the opening one stands on any line
but the one directly above the token in front of it, as if the two were swapped; so an opening brace
on the line of this token, or some lines below it, is accepted, too
(`Scene.checkBraces_accepts_iff`).
-/

namespace StyleCheck

/-- The tokens that the braces of a construct are judged by: its first token, its first opening
brace with the token in front of it, and its last closing brace. -/
structure Bracing (ts : List Token) where
  first : Token
  previous : Token
  opening : Token
  closing : Token
  starts : ts.head? = some first
  opens : ∃ front rest, ts = front ++ previous :: opening :: rest ∧
    opening.isMark "\x7b" = true ∧ ∀ t ∈ front ++ [previous], t.isMark "\x7b" = false
  closes : ∃ front rest, ts = front ++ closing :: rest ∧
    closing.isMark "\x7d" = true ∧ ∀ t ∈ rest, t.isMark "\x7d" = false

namespace Bracing

variable {ts : List Token}

/-- The opening brace stands one level further in than the construct, and the closing brace in its
column. -/
def Indented (b : Bracing ts) (s : Scene) (f : Frame) : Prop :=
  ∃ column, s.column b.opening.extent = .ok column ∧
    (∃ a ∈ f.levels.columns.toList, column = a + s.style.levelSize) ∧
    s.column b.closing.extent = .ok column

/-- The layout that a placement demands. -/
def StandsAs (b : Bracing ts) (s : Scene) (f : Frame) : BracePlacement → Prop
  | .sameLine =>
    b.previous.start.line = b.opening.start.line ∧ b.closing.start.column = b.first.start.column
  | .nextLine =>
    b.opening.start.line = b.previous.start.line + 1 ∧
      b.opening.start.column = b.first.start.column ∧
      b.closing.start.column = b.first.start.column
  | .nextLineIndent => b.opening.start.line = b.previous.start.line + 1 ∧ b.Indented s f
  | .other _ => False

end Bracing

/-! ## Finding the tokens -/

namespace Token

variable {ts front rest : List Token} {p o c : Token}

theorem beforeBrace?_append (ho : o.isMark "\x7b" = true)
    (hfront : ∀ t ∈ front, t.isMark "\x7b" = false) (q : Option Token) :
    beforeBrace? q (front ++ o :: rest) = front.getLast?.or q := by
  induction front generalizing q with
  | nil => simp [beforeBrace?, ho]
  | cons t front ih =>
    have ht := hfront t List.mem_cons_self
    rw [List.cons_append, beforeBrace?, ht, if_neg Bool.false_ne_true,
      ih fun u hu => hfront u (List.mem_cons_of_mem t hu), List.getLast?_cons]
    cases front.getLast? <;> rfl

theorem openingBrace?_eq_some : openingBrace? ts = some o ↔ ∃ front rest, ts = front ++ o :: rest ∧
    o.isMark "\x7b" = true ∧ ∀ t ∈ front, t.isMark "\x7b" = false := by
  rw [openingBrace?, List.find?_eq_some_iff_append]
  simp only [Bool.not_eq_true']
  constructor
  · rintro ⟨ho, front, rest, hts, hfront⟩
    exact ⟨front, rest, hts, ho, hfront⟩
  · rintro ⟨front, rest, hts, ho, hfront⟩
    exact ⟨ho, front, rest, hts, hfront⟩

theorem closingBrace?_eq_some : closingBrace? ts = some c ↔ ∃ front rest, ts = front ++ c :: rest ∧
    c.isMark "\x7d" = true ∧ ∀ t ∈ rest, t.isMark "\x7d" = false := by
  rw [closingBrace?, List.find?_eq_some_iff_append]
  simp only [Bool.not_eq_true']
  constructor
  · rintro ⟨hc, rest, front, hts, hrest⟩
    refine ⟨front.reverse, rest.reverse, ?_, hc, fun t ht => hrest t (List.mem_reverse.mp ht)⟩
    rw [← List.reverse_reverse ts, hts]
    simp
  · rintro ⟨front, rest, rfl, hc, hrest⟩
    exact ⟨hc, rest.reverse, front.reverse, by simp, fun t ht => hrest t (List.mem_reverse.mp ht)⟩

theorem first_eq_ok : first ts = .ok p ↔ ts.head? = some p := by
  cases ts <;> simp [first]

end Token

namespace Bracing

variable {ts : List Token} (b : Bracing ts)

theorem openingBrace?_eq : Token.openingBrace? ts = some b.opening := by
  obtain ⟨front, rest, hts, hopening, hfront⟩ := b.opens
  exact Token.openingBrace?_eq_some.mpr ⟨front ++ [b.previous], rest, by simpa using hts, hopening,
    hfront⟩

theorem beforeBrace?_eq : Token.beforeBrace? none ts = some b.previous := by
  obtain ⟨front, rest, hts, hopening, hfront⟩ := b.opens
  have hbefore : Token.beforeBrace? none ((front ++ [b.previous]) ++ b.opening :: rest) = _ :=
    Token.beforeBrace?_append hopening hfront none
  rwa [List.append_assoc, List.singleton_append, ← hts, List.getLast?_concat] at hbefore

theorem closingBrace?_eq : Token.closingBrace? ts = some b.closing :=
  Token.closingBrace?_eq_some.mpr b.closes

theorem closing_mem : b.closing ∈ ts :=
  List.mem_reverse.mp (List.mem_of_find?_eq_some b.closingBrace?_eq)

theorem closing_isMark : b.closing.isMark "\x7d" = true := by
  obtain ⟨_, _, -, hmark, -⟩ := b.closes
  exact hmark

/-- A list of tokens has one bracing at most. -/
theorem eq (b' : Bracing ts) : b = b' := by
  have hfirst := b.starts.symm.trans b'.starts
  have hprevious := b.beforeBrace?_eq.symm.trans b'.beforeBrace?_eq
  have hopening := b.openingBrace?_eq.symm.trans b'.openingBrace?_eq
  have hclosing := b.closingBrace?_eq.symm.trans b'.closingBrace?_eq
  cases b
  cases b'
  simp_all

/-- Tokens that are found make up a bracing. -/
theorem exists_of_found {first previous opening closing : Token} (hfirst : ts.head? = some first)
    (hprevious : Token.beforeBrace? none ts = some previous)
    (hopening : Token.openingBrace? ts = some opening)
    (hclosing : Token.closingBrace? ts = some closing) :
    ∃ b : Bracing ts, b.first = first ∧ b.previous = previous ∧ b.opening = opening ∧
      b.closing = closing := by
  obtain ⟨front, rest, hts, hmark, hfront⟩ := Token.openingBrace?_eq_some.mp hopening
  rw [hts, Token.beforeBrace?_append hmark hfront, Option.or_none,
    List.getLast?_eq_some_iff] at hprevious
  obtain ⟨front, rfl⟩ := hprevious
  exact ⟨⟨first, previous, opening, closing, hfirst,
    ⟨front, rest, by simpa using hts, hmark, hfront⟩, Token.closingBrace?_eq_some.mp hclosing⟩,
    rfl, rfl, rfl, rfl⟩

end Bracing

/-! ## Checks that report nothing -/

theorem Finding.flagBrace_ne_pure {e : Extent} {text : String} :
    Finding.flagBrace e text ≠ pure () := Report.note_ne_pure _

theorem Finding.flagBrace_bind_ne_pure {e : Extent} {text : String} {r : Unit → Finding Unit} :
    (Finding.flagBrace e text >>= r) ≠ pure () := by
  intro h
  obtain ⟨_, hflag, -⟩ := Report.bind_eq_pure.mp h
  exact flagBrace_ne_pure hflag

namespace Scene

variable {s : Scene} {f : Frame} {e : Extent} {ts : List Token} {opening : Token}
  {m : BracePlacement}

/-- A missing token stands in no column. -/
theorem startOnSameColumn_eq {t : Token} {x : Option Token} :
    Extent.startOnSameColumn (some t.extent) (x.map Token.extent) = some true ↔
      ∃ u, x = some u ∧ u.start.column = t.start.column := by
  cases x with
  | none => simp [Extent.startOnSameColumn]
  | some u =>
    rw [Option.map_some, Extent.startOnSameColumn, Option.some_inj, beq_iff_eq]
    constructor
    · intro h
      exact ⟨u, rfl, h.symm⟩
    · rintro ⟨_, hu, h⟩
      cases hu
      exact h.symm

theorem startOnSameLine_eq {t : Token} {x : Option Token} :
    Extent.startOnSameLine (x.map Token.extent) (some t.extent) = some true ↔
      ∃ u, x = some u ∧ u.start.line = t.start.line := by
  cases x with
  | none => simp [Extent.startOnSameLine]
  | some u => simp [Extent.startOnSameLine, Token.extent]

theorem checkClosing_eq_pure : checkClosing ts = pure () ↔
    ∃ first closing, ts.head? = some first ∧ Token.closingBrace? ts = some closing ∧
      closing.start.column = first.start.column := by
  unfold checkClosing
  rw [Report.bind_eq_pure]
  simp only [Report.lift_eq_pure, Token.first_eq_ok]
  refine exists_congr fun first => ?_
  rw [Report.ite_eq_pure, not_not, startOnSameColumn_eq]
  · simp only [and_true, exists_and_left]
  · intro h
    obtain ⟨_, -, hflag⟩ := Report.bind_eq_pure.mp h
    exact Finding.flagBrace_ne_pure hflag

theorem checkSameLine_eq_pure : checkSameLine ts opening = pure () ↔
    (∃ previous, Token.beforeBrace? none ts = some previous ∧
      previous.start.line = opening.start.line) ∧ checkClosing ts = pure () := by
  unfold checkSameLine
  rw [Report.ite_eq_pure Finding.flagBrace_ne_pure, not_not, startOnSameLine_eq]

theorem checkNextLine_eq_pure : checkNextLine ts opening = pure () ↔
    (∃ previous, Token.beforeBrace? none ts = some previous ∧
      opening.start.line = previous.start.line + 1) ∧
    (∃ first, ts.head? = some first ∧ opening.start.column = first.start.column) ∧
      checkClosing ts = pure () := by
  unfold checkNextLine
  rw [Report.bind_eq_pure]
  simp only [Report.lift_eq_pure, present_eq_ok]
  constructor
  · rintro ⟨previous, hprevious, h⟩
    rw [Report.ite_eq_pure Finding.flagBrace_bind_ne_pure, not_not, Report.bind_eq_pure] at h
    obtain ⟨hline, first, hfirst, h⟩ := h
    rw [Report.ite_eq_pure Finding.flagBrace_bind_ne_pure, not_not] at h
    rw [Report.lift_eq_pure, Token.first_eq_ok] at hfirst
    exact ⟨⟨previous, hprevious, hline.symm⟩, ⟨first, hfirst, h.1.symm⟩, h.2⟩
  · rintro ⟨⟨previous, hprevious, hline⟩, ⟨first, hfirst, hcolumn⟩, hclosing⟩
    refine ⟨previous, hprevious, ?_⟩
    rw [Report.ite_eq_pure Finding.flagBrace_bind_ne_pure, not_not, Report.bind_eq_pure]
    refine ⟨hline.symm, first, Report.lift_eq_pure.mpr (Token.first_eq_ok.mpr hfirst), ?_⟩
    rw [Report.ite_eq_pure Finding.flagBrace_bind_ne_pure, not_not]
    exact ⟨hcolumn.symm, hclosing⟩

theorem checkNextLineIndent_eq_pure : s.checkNextLineIndent f ts opening = pure () ↔
    (∃ previous, Token.beforeBrace? none ts = some previous ∧
      previous.start.line ≠ opening.start.line + 1) ∧
    ∃ closing column, Token.closingBrace? ts = some closing ∧
      s.column opening.extent = .ok column ∧
      (∃ a ∈ f.levels.columns.toList, column = a + s.style.levelSize) ∧
      s.column closing.extent = .ok column := by
  unfold checkNextLineIndent
  rw [Report.bind_eq_pure]
  simp only [Report.lift_eq_pure, present_eq_ok,
    Report.ite_eq_pure Finding.flagBrace_bind_ne_pure, Report.bind_eq_pure,
    Report.ite_eq_pure Finding.flagBrace_ne_pure, Bool.not_eq_true', Bool.not_eq_false,
    Levels.accepts_shift]
  constructor
  · rintro ⟨previous, hprevious, hline, column, hcolumn, hlevel, closing, hclosing, _, hc, heq, -⟩
    cases not_not.mp heq
    exact ⟨⟨previous, hprevious, hline⟩, closing, column, hclosing, hcolumn, hlevel, hc⟩
  · rintro ⟨⟨previous, hprevious, hline⟩, closing, column, hclosing, hcolumn, hlevel, hc⟩
    exact ⟨previous, hprevious, hline, column, hcolumn, hlevel, closing, hclosing, column, hc,
      not_not.mpr rfl, trivial⟩

theorem checkBraces_of_none (hts : s.tokensOf e id = .ok ts)
    (hnone : Token.openingBrace? ts = none) :
    s.checkBraces f e m =
      if (Token.closingBrace? ts).isSome then Report.giveUp .strayClosingBrace else pure () := by
  unfold checkBraces
  rw [hts]
  change Report.bind ⟨[], .ok ts⟩ _ = _
  simp only [Report.bind, hnone, List.nil_append]

/-- The rule that an opening brace is held to. -/
theorem checkBraces_of_some (hts : s.tokensOf e id = .ok ts)
    (hopening : Token.openingBrace? ts = some opening) :
    s.checkBraces f e .sameLine = checkSameLine ts opening ∧
    s.checkBraces f e .nextLine = checkNextLine ts opening ∧
    s.checkBraces f e .nextLineIndent = s.checkNextLineIndent f ts opening ∧
    ∀ word, s.checkBraces f e (.other word) = Report.giveUp .unknownPlacement := by
  unfold checkBraces
  rw [hts]
  refine ⟨?_, ?_, ?_, fun word => ?_⟩ <;> change Report.bind ⟨[], .ok ts⟩ _ = _ <;>
    simp only [Report.bind, hopening, List.nil_append]

section

variable (hopening : Token.openingBrace? ts = some opening)

include hopening

theorem checkSameLine_iff_standsAs : checkSameLine ts opening = pure () ↔
    ∃ b : Bracing ts, b.StandsAs s f .sameLine := by
  rw [checkSameLine_eq_pure, checkClosing_eq_pure]
  constructor
  · rintro ⟨⟨previous, hprevious, hline⟩, first, closing, hfirst, hclosing, hcolumn⟩
    obtain ⟨b, rfl, rfl, rfl, rfl⟩ :=
      Bracing.exists_of_found hfirst hprevious hopening hclosing
    exact ⟨b, hline, hcolumn⟩
  · rintro ⟨b, hline, hcolumn⟩
    cases hopening.symm.trans b.openingBrace?_eq
    exact ⟨⟨_, b.beforeBrace?_eq, hline⟩, _, _, b.starts, b.closingBrace?_eq, hcolumn⟩

theorem checkNextLine_iff_standsAs : checkNextLine ts opening = pure () ↔
    ∃ b : Bracing ts, b.StandsAs s f .nextLine := by
  rw [checkNextLine_eq_pure, checkClosing_eq_pure]
  constructor
  · rintro ⟨⟨previous, hprevious, hline⟩, ⟨first, hfirst, ho⟩, _, closing, hf, hclosing, hc⟩
    cases hfirst.symm.trans hf
    obtain ⟨b, rfl, rfl, rfl, rfl⟩ :=
      Bracing.exists_of_found hfirst hprevious hopening hclosing
    exact ⟨b, hline, ho, hc⟩
  · rintro ⟨b, hline, ho, hc⟩
    cases hopening.symm.trans b.openingBrace?_eq
    exact ⟨⟨_, b.beforeBrace?_eq, hline⟩, ⟨_, b.starts, ho⟩, _, _, b.starts, b.closingBrace?_eq, hc⟩

theorem checkNextLineIndent_iff_indented : s.checkNextLineIndent f ts opening = pure () ↔
    ∃ b : Bracing ts, b.Indented s f ∧ b.previous.start.line ≠ b.opening.start.line + 1 := by
  rw [checkNextLineIndent_eq_pure]
  constructor
  · rintro ⟨⟨previous, hprevious, hline⟩, closing, column, hclosing, hcolumn, hlevel, hc⟩
    obtain ⟨first, hfirst⟩ : ∃ first, ts.head? = some first := by
      cases ts with
      | nil => cases hopening
      | cons t ts => exact ⟨t, rfl⟩
    obtain ⟨b, rfl, rfl, rfl, rfl⟩ :=
      Bracing.exists_of_found hfirst hprevious hopening hclosing
    exact ⟨b, ⟨column, hcolumn, hlevel, hc⟩, hline⟩
  · rintro ⟨b, ⟨column, hcolumn, hlevel, hc⟩, hline⟩
    cases hopening.symm.trans b.openingBrace?_eq
    exact ⟨⟨_, b.beforeBrace?_eq, hline⟩, _, column, b.closingBrace?_eq, hcolumn, hlevel, hc⟩

end

theorem exists_tokens_of_pure (h : s.checkBraces f e m = pure ()) :
    ∃ ts, s.tokensOf e id = .ok ts := by
  obtain ⟨ts, hts, -⟩ := Report.bind_eq_pure.mp h
  exact ⟨ts, Report.lift_eq_pure.mp hts⟩

/-- No opening brace is accepted without a closing one. -/
theorem nonempty_bracing (hts : s.tokensOf e id = .ok ts)
    (hopening : Token.openingBrace? ts = some opening) (h : s.checkBraces f e m = pure ()) :
    Nonempty (Bracing ts) := by
  obtain ⟨hsame, hnext, hindent, hother⟩ := checkBraces_of_some (f := f) hts hopening
  cases m with
  | sameLine =>
    rw [hsame, checkSameLine_iff_standsAs (s := s) (f := f) hopening] at h
    exact h.nonempty
  | nextLine =>
    rw [hnext, checkNextLine_iff_standsAs (s := s) (f := f) hopening] at h
    exact h.nonempty
  | nextLineIndent =>
    rw [hindent, checkNextLineIndent_iff_indented hopening] at h
    exact h.nonempty
  | other word => exact absurd ((hother word).symm.trans h) (Report.giveUp_ne_pure _ _)

/-- Braces on the line or on the next line are accepted just if they stand as the placement
demands. Indented braces are accepted just if the opening one is indented by a level, with the
closing one in its column, and does not stand on the line directly above the token in front of it;
so they stand as demanded if in addition the opening one is on the line below this token. -/
theorem checkBraces_accepts_iff (hts : s.tokensOf e id = .ok ts)
    (hbrace : ∃ t ∈ ts, t.isMark "\x7b" = true) :
    (m ≠ .nextLineIndent →
      (s.checkBraces f e m = pure () ↔ ∃ b : Bracing ts, b.StandsAs s f m)) ∧
    (s.checkBraces f e .nextLineIndent = pure () ↔
      ∃ b : Bracing ts, b.Indented s f ∧ b.previous.start.line ≠ b.opening.start.line + 1) ∧
    (s.checkBraces f e m = pure () →
      ∀ b : Bracing ts, b.StandsAs s f m ↔
        (m = .nextLineIndent → b.opening.start.line = b.previous.start.line + 1)) := by
  obtain ⟨opening, hopening⟩ : ∃ opening, Token.openingBrace? ts = some opening :=
    Option.isSome_iff_exists.mp (List.find?_isSome.mpr hbrace)
  obtain ⟨hsame, hnext, hindent, hother⟩ := checkBraces_of_some (f := f) hts hopening
  have hstands : m ≠ .nextLineIndent →
      (s.checkBraces f e m = pure () ↔ ∃ b : Bracing ts, b.StandsAs s f m) := by
    intro hm
    cases m with
    | sameLine => rw [hsame, checkSameLine_iff_standsAs hopening]
    | nextLine => rw [hnext, checkNextLine_iff_standsAs hopening]
    | nextLineIndent => exact absurd rfl hm
    | other word =>
      rw [hother]
      exact iff_of_false (Report.giveUp_ne_pure _ _) fun h => h.elim fun _ hb => hb
  have hindented : s.checkBraces f e .nextLineIndent = pure () ↔
      ∃ b : Bracing ts, b.Indented s f ∧ b.previous.start.line ≠ b.opening.start.line + 1 := by
    rw [hindent, checkNextLineIndent_iff_indented hopening]
  refine ⟨hstands, hindented, fun hclean b => ?_⟩
  by_cases hm : m = .nextLineIndent
  · subst hm
    obtain ⟨b', hb', -⟩ := hindented.mp hclean
    cases b.eq b'
    exact ⟨fun h _ => h.1, fun h => ⟨h rfl, hb'⟩⟩
  · obtain ⟨b', hb'⟩ := (hstands hm).mp hclean
    cases b.eq b'
    exact iff_of_true hb' fun h => absurd h hm

/-- The tokens of a class whose braces stand in column four, the opening one on the given line. -/
def indentedClassTokens (line : Int) : List Token :=
  [⟨.keyword, "class", "a.cc", ⟨1, 1⟩, none⟩, ⟨.identifier, "C", "a.cc", ⟨1, 7⟩, none⟩,
   ⟨.punctuation, "\x7b", "a.cc", ⟨line, 5⟩, none⟩,
   ⟨.punctuation, "\x7d", "a.cc", ⟨line + 1, 5⟩, none⟩]

/-- The class with something between its head and its braces. -/
def indentedClass (gap : String) (line : Int) : Scene :=
  ofFile ("class C\n" ++ gap ++ "    \x7b\n    \x7d\n") (indentedClassTokens line) .standard

/-- The braces of a class on the lines below its head. -/
theorem checkBraces_accepts_iff_below_head :
    ∃ b : Bracing (indentedClassTokens 2),
      b.StandsAs (indentedClass "" 2) .root .nextLineIndent ∧ b.opening.start = ⟨2, 5⟩ := by
  have hts : (indentedClass "" 2).tokensOf ⟨some "a.cc", ⟨1, 1⟩, ⟨3, 6⟩⟩ id =
      .ok (indentedClassTokens 2) := rfl
  have hbrace : ∃ t ∈ indentedClassTokens 2, t.isMark "\x7b" = true :=
    ⟨⟨.punctuation, "\x7b", "a.cc", ⟨2, 5⟩, none⟩, by simp [indentedClassTokens], rfl⟩
  obtain ⟨-, -, hsound⟩ :=
    checkBraces_accepts_iff (f := .root) (m := .nextLineIndent) hts hbrace
  obtain ⟨b, -, hprevious, hopening, -⟩ :=
    @Bracing.exists_of_found (indentedClassTokens 2) _ _ _ _ rfl rfl rfl rfl
  refine ⟨b, (hsound rfl b).mpr fun _ => ?_, ?_⟩
  · rw [hprevious, hopening]
    rfl
  · rw [hopening]

/-- With an empty line between the head of the class and its braces, they are accepted, too, and do
not stand as demanded. -/
theorem checkBraces_accepts_gap :
    (indentedClass "\n" 3).tokensOf ⟨some "a.cc", ⟨1, 1⟩, ⟨4, 6⟩⟩ id =
      .ok (indentedClassTokens 3) ∧
    (indentedClass "\n" 3).checkBraces .root ⟨some "a.cc", ⟨1, 1⟩, ⟨4, 6⟩⟩ .nextLineIndent =
      pure () ∧
    ∃ b : Bracing (indentedClassTokens 3), b.previous.start.line = 1 ∧
      b.opening.start.line = 3 ∧ ¬ b.StandsAs (indentedClass "\n" 3) .root .nextLineIndent := by
  obtain ⟨b, -, hprevious, hopening, -⟩ :=
    @Bracing.exists_of_found (indentedClassTokens 3) _ _ _ _ rfl rfl rfl rfl
  refine ⟨rfl, rfl, b, by rw [hprevious], by rw [hopening], ?_⟩
  rintro ⟨hline, -⟩
  rw [hprevious, hopening] at hline
  exact absurd hline (by decide)

end Scene

end StyleCheck
