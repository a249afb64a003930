import StyleCheck.Indent.DoLoop
import StyleCheck.Proofs.TokensInside

/-!
# The braces of do loops

A do loop with a body in braces, written as it should be (`Scene.WrittenLoop`). The range that the
tokens of the body are taken from ends one column earlier than that of other constructs. If the
closing brace ends its line, this column stands in front of the brace, and a token that touches the
brace already reaches over it (`Scene.WrittenLoop.Tight`). Then the brace is not taken, the token in
front is held for it, and the loop is given up unless that one is a closing brace, too. All other
loops are judged by their own braces (`Scene.checkDoLoop_own_braces_iff`).
-/

namespace StyleCheck

/-! ## Columns that can be told -/

/-- Tabs of no width have no columns. -/
theorem Text.exists_widthFrom_iff {w c : Int} {t : Text} {n : Nat} (hn : n ≤ t.length) :
    (∃ d, widthFrom w c t n = .ok d) ↔ w ≠ 0 ∨ tab ∉ t.take n := by
  by_cases hw : w = 0
  · induction t generalizing c n with
    | nil =>
      cases Nat.le_zero.mp hn
      simp [widthFrom]
    | cons b t ih =>
      cases n with
      | zero => simp [widthFrom]
      | succ n =>
        rw [widthFrom, List.take_succ_cons, List.mem_cons, not_or]
        by_cases hb : b = tab
        · simp [hb, hw]
        · rw [if_neg hb, ih (Nat.le_of_succ_le_succ hn)]
          simp [hw, Ne.symm hb]
  · simp only [ne_eq, hw, not_false_eq_true, true_or, iff_true]
    exact ⟨_, widthFrom_eq hw hn⟩

theorem Text.length_trimEnd_le (t : Text) : (trimEnd t).length ≤ t.length := by
  rw [trimEnd, List.length_reverse]
  exact (List.dropWhile_sublist _).length_le.trans (List.length_reverse).le

/-- A token on one line ends as many columns further as it has bytes. -/
theorem Token.stop_eq {t : Token} (h : Text.newline ∉ Text.ofString t.spelling) :
    t.stop = ⟨t.start.line, t.start.column + (Text.ofString t.spelling).length⟩ := by
  have hbehind : ∀ (text : Text) (p : Pos), Text.newline ∉ text →
      behind p text = ⟨p.line, p.column + text.length⟩ := by
    intro text
    induction text with
    | nil => intro p _; simp [behind]
    | cons b text ih =>
      intro p hp
      rw [List.mem_cons, not_or] at hp
      rw [behind, if_neg (Ne.symm hp.1), ih _ hp.2, List.length_cons]
      simp only [Pos.mk.injEq, true_and]
      omega
  exact hbehind _ _ h

namespace Scene

variable {s : Scene} {t : Token}

/-- A token stands in the text of its file: in a column of its own, and up to the last ink of the
line that it ends on at the most. -/
structure Prints (s : Scene) (t : Token) : Prop where
  column : 1 ≤ t.start.column
  line : ∃ line, s.line t.file t.stop.line = .ok line ∧
    t.stop.column ≤ (Text.trimEnd line).length + 1

instance (s : Scene) (t : Token) : Decidable (s.Prints t) :=
  decidable_of_iff (1 ≤ t.start.column ∧ (s.line t.file t.stop.line).toOption.any fun line =>
      t.stop.column ≤ (Text.trimEnd line).length + 1) <| by
    constructor
    · rintro ⟨hcolumn, hline⟩
      cases h : s.line t.file t.stop.line with
      | error _ =>
        rw [h] at hline
        cases hline
      | ok line =>
        rw [h] at hline
        exact ⟨hcolumn, line, h, of_decide_eq_true hline⟩
    · rintro ⟨hcolumn, line, hline, hstop⟩
      rw [hline]
      exact ⟨hcolumn, decide_eq_true hstop⟩

/-- Tabs have a width, or there are none in front of the token. -/
def TellsColumn (s : Scene) (t : Token) : Prop :=
  s.style.tabSize ≠ 0 ∨ ∃ line, s.line t.file t.start.line = .ok line ∧
    Text.tab ∉ line.take (t.start.column - 1).toNat

theorem exists_column_iff (ht : s.Prints t) (hspelling : Text.newline ∉ Text.ofString t.spelling) :
    (∃ c, s.column t.extent = .ok c) ↔ s.TellsColumn t := by
  obtain ⟨line, hline, hstop⟩ := ht.line
  rw [Token.stop_eq hspelling] at hline hstop
  have hlength : (t.start.column - 1).toNat ≤ line.length := by
    have := Text.length_trimEnd_le line
    simp only at hstop
    omega
  have hcolumn : s.column t.extent =
      Text.widthFrom s.style.tabSize 0 line (t.start.column - 1).toNat := by
    show (s.line t.file t.start.line >>= _) = _
    rw [hline]
    rfl
  rw [hcolumn, Text.exists_widthFrom_iff hlength, TellsColumn, hline]
  simp

/-! ## The tokens of a loop -/

theorem bodyBraces_eq {body : Tree} {ts : List Token} {opening closing : Token}
    (hts : s.tokensOf body.extent (fun column => max 0 (column - 1)) = .ok ts)
    (hopening : ts.head? = some opening) (hclosing : ts.getLast? = some closing) :
    s.bodyBraces body =
      if opening.spelling ≠ "\x7b" ∨ closing.spelling ≠ "\x7d" then .error .doLoopBraces
      else .ok (opening, closing) := by
  unfold bodyBraces
  simp only [hts, bind, Except.bind, hopening, hclosing]
  split <;> rfl

theorem doLoop_eq {t d body condition : Tree} {first keyword : Token} {rest : List Token}
    (hd : s.doLoopTree t = .ok d) (hts : s.tokensOf d.extent id = .ok (first :: rest))
    (hfirst : first.spelling = "do")
    (hkeyword : (first :: rest).find? (fun u => u.spelling == "while" &&
      s.unit.owns d.node u) = some keyword)
    (hchildren : d.children = [body, condition]) (hkind : body.node.kind = .ok .compoundStmt) :
    s.doLoop t = (s.bodyBraces body).map fun braces => ⟨first, keyword, some braces⟩ := by
  unfold doLoop
  simp only [hd, hts, bind, Except.bind, pure, Except.pure, hfirst, ne_eq, not_true_eq_false,
    if_false, hkeyword, hchildren, hkind, if_true]
  cases s.bodyBraces body <;> rfl

/-! ## Loops as they are written -/

/-- A do loop with a body in braces: `do`, the tokens of the body from its opening to its closing
brace, and a `while` that belongs to the loop. The tokens of the file stand one behind the other,
and those of the loop stand in its text. -/
structure WrittenLoop (s : Scene) (d : Tree) where
  file : String
  body : Tree
  condition : Tree
  doKeyword : Token
  opening : Token
  inner : List Token
  closing : Token
  whileKeyword : Token
  rest : List Token
  inFile : d.extent.file = some file
  children : d.children = [body, condition]
  braced : body.node.kind = .ok .compoundStmt
  extent : body.extent = ⟨some file, opening.start, closing.stop⟩
  inOrder : Token.InOrder (s.unit.tokensIn (some file))
  tokens : (s.unit.tokensIn (some file)).filter d.extent.contains =
    (doKeyword :: (opening :: inner ++ [closing])) ++ whileKeyword :: rest
  bodyTokens : (s.unit.tokensIn (some file)).filter body.extent.contains =
    opening :: inner ++ [closing]
  saysDo : doKeyword.spelling = "do"
  opens : opening.spelling = "\x7b"
  closes : closing.spelling = "\x7d"
  saysWhile : whileKeyword.spelling = "while"
  owned : s.unit.owns d.node whileKeyword = true
  printed : ∀ t ∈ (s.unit.tokensIn (some file)).filter d.extent.contains, s.Prints t
  lastLine : ∃ line, s.line file d.extent.stop.line = .ok line

namespace WrittenLoop

variable {d : Tree} (l : s.WrittenLoop d)

/-- The token in front of the closing brace. -/
def previous : Token := (l.opening :: l.inner).getLast (List.cons_ne_nil _ _)

/-- The closing brace ends its line, and the token in front touches it. -/
def Tight : Prop :=
  l.previous.stop = l.closing.start ∧ ∃ line, s.line l.file l.closing.stop.line = .ok line ∧
    l.closing.stop.column = (Text.trimEnd line).length + 1

theorem dropLast_append_previous :
    (l.opening :: l.inner).dropLast ++ [l.previous] = l.opening :: l.inner :=
  List.dropLast_concat_getLast _

/-- The tokens in front of the closing brace end where it starts at the latest. -/
theorem stop_le_closing {t : Token} (ht : t ∈ l.opening :: l.inner) :
    l.closing.start.before t.stop = false := by
  have horder := l.inOrder.sublist (l.bodyTokens ▸ List.filter_sublist)
  exact (List.pairwise_append.mp horder.apart).2.2 t ht _ List.mem_cons_self

/-- But for the last of them, they end before it starts. -/
theorem stop_before_closing {t : Token} (ht : t ∈ (l.opening :: l.inner).dropLast) :
    t.stop.before l.closing.start = true := by
  have horder := l.inOrder.sublist (l.bodyTokens ▸ List.filter_sublist)
  rw [← dropLast_append_previous, List.append_assoc] at horder
  have hapart := (List.pairwise_append.mp horder.apart).2.2 t ht _ List.mem_cons_self
  have hspan := Token.start_before_stop (horder.nonempty l.previous (by simp))
  have hprevious := l.stop_le_closing (List.getLast_mem (List.cons_ne_nil _ _))
  exact Pos.before_of_before_of_le (Pos.before_of_le_of_before hapart hspan) hprevious

theorem closing_stop : l.closing.stop = ⟨l.closing.start.line, l.closing.start.column + 1⟩ := by
  rw [Token.stop_eq (by rw [l.closes]; decide), l.closes]
  rfl

theorem prints_closing : s.Prints l.closing :=
  l.printed _ (by rw [l.tokens]; simp)

theorem file_of_mem {t : Token}
    (ht : t ∈ (s.unit.tokensIn (some l.file)).filter d.extent.contains) : t.file = l.file :=
  Option.some_inj.mp (file_of_mem_tokensIn (List.mem_filter.mp ht).1)

/-- Up to `while`, the tokens of the loop are all taken. -/
theorem exists_tokensOf : ∃ more, s.tokensOf d.extent id =
    .ok ((l.doKeyword :: (l.opening :: l.inner ++ [l.closing])) ++ l.whileKeyword :: more) := by
  obtain ⟨line, hline⟩ := l.lastLine
  obtain ⟨-, back, -, hstart, -, -⟩ := l.inOrder.cut (e := d.extent)
    fun t ht => (file_of_mem_tokensIn ht).trans l.inFile.symm
  rw [l.tokens] at hstart
  have horder := l.inOrder.sublist (l.tokens ▸ List.filter_sublist)
  have hmem : l.whileKeyword ∈ (s.unit.tokensIn (some l.file)).filter d.extent.contains := by
    rw [l.tokens]
    simp
  -- `while` starts in front of the last ink of the line, since it ends there at the latest
  have hwhile : Pos.before ⟨d.extent.stop.line,
      min d.extent.stop.column (Text.trimEnd line).length⟩ l.whileKeyword.start = false := by
    have hcontains := (List.mem_filter.mp hmem).2
    obtain ⟨line', hline', hcolumn⟩ := (l.printed _ hmem).line
    have hstop := Token.stop_eq (t := l.whileKeyword) (by rw [l.saysWhile]; decide)
    rw [l.saysWhile, show (Text.ofString "while").length = 5 from rfl] at hstop
    simp only [Extent.contains, Bool.and_eq_true, Bool.not_eq_true', Pos.before_eq_false, hstop]
      at hcontains
    rw [l.file_of_mem hmem, hstop] at hline'
    rw [hstop] at hcolumn
    simp only [Pos.before_eq_false] at hcontains hcolumn ⊢
    rcases hcontains.2 with hlt | ⟨heq, hle⟩
    · exact .inl hlt
    · rw [heq, hline, Except.ok.injEq] at hline'
      subst hline'
      exact .inr ⟨heq, by omega⟩
  rw [tokensOf_eq l.inFile hline, l.inFile, hstart, id, List.append_assoc]
  exact ⟨_, congrArg Except.ok (horder.takeThrough_append (m := l.rest ++ back) hwhile)⟩

/-- The line that the closing brace ends on, and the range that the tokens of the body are taken
from. -/
theorem exists_tokensOf_body : ∃ line back, s.line l.file l.closing.stop.line = .ok line ∧
    l.closing.start.column ≤ (Text.trimEnd line).length ∧
    s.tokensOf l.body.extent (fun column => max 0 (column - 1)) = .ok (Token.takeThrough
      ⟨l.closing.start.line,
        max 0 (min (l.closing.start.column + 1) (Text.trimEnd line).length - 1)⟩
      (l.opening :: l.inner ++ l.closing :: back)) := by
  obtain ⟨line, hline, hcolumn⟩ := l.prints_closing.line
  rw [l.file_of_mem (by rw [l.tokens]; simp)] at hline
  rw [l.closing_stop] at hcolumn
  obtain ⟨-, back, -, hstart, -, -⟩ := l.inOrder.cut (e := l.body.extent)
    fun t ht => by rw [l.extent]; exact file_of_mem_tokensIn ht
  have hfile : l.body.extent.file = some l.file := by rw [l.extent]
  have hstop : l.body.extent.stop = l.closing.stop := by rw [l.extent]
  have htaken := tokensOf_eq hfile (hstop ▸ hline) (fun column => max 0 (column - 1))
  rw [hfile, hstart, l.bodyTokens, hstop, l.closing_stop, List.append_assoc,
    List.singleton_append] at htaken
  exact ⟨line, back, hline, by simpa using hcolumn, htaken⟩

/-- A closing brace that ends its line is not taken if a token touches it. -/
theorem tokensOf_body_of_tight (h : l.Tight) :
    s.tokensOf l.body.extent (fun column => max 0 (column - 1)) = .ok (l.opening :: l.inner) := by
  obtain ⟨line, back, hline, -, htaken⟩ := l.exists_tokensOf_body
  obtain ⟨htouch, line', hline', hend⟩ := h
  rw [hline, Except.ok.injEq] at hline'
  subst hline'
  rw [l.closing_stop] at hend
  have hfirst := l.prints_closing.column
  have hrange : max 0 (min (l.closing.start.column + 1) ((Text.trimEnd line).length : Int) - 1) =
      l.closing.start.column - 1 := by
    simp only at hend
    omega
  rw [hrange, ← l.dropLast_append_previous, List.append_assoc, List.singleton_append,
    Token.takeThrough_append_cons] at htaken
  · rw [htaken, l.dropLast_append_previous]
  · intro t ht
    have hbefore := l.stop_before_closing ht
    rw [Pos.before_eq_true] at hbefore
    rw [Pos.before_eq_false]
    simp only
    omega
  · rw [htouch, Pos.before_eq_true]
    exact .inr ⟨rfl, Int.sub_lt_self _ Int.one_pos⟩

/-- All other closing braces are taken, and nothing behind them. -/
theorem tokensOf_body_of_not_tight (h : ¬ l.Tight) :
    s.tokensOf l.body.extent (fun column => max 0 (column - 1)) =
      .ok (l.opening :: l.inner ++ [l.closing]) := by
  obtain ⟨line, back, hline, hcolumn, htaken⟩ := l.exists_tokensOf_body
  have hfirst := l.prints_closing.column
  rw [htaken, Token.takeThrough_append_cons]
  · intro t ht
    have hapart := l.stop_le_closing ht
    by_cases hend : l.closing.start.column = (Text.trimEnd line).length
    · have hbefore : t.stop.before l.closing.start = true := by
        rw [← l.dropLast_append_previous] at ht
        rcases List.mem_append.mp ht with ht | ht
        · exact l.stop_before_closing ht
        · cases List.mem_singleton.mp ht
          refine Pos.before_of_le_of_ne hapart fun htouch => h ⟨htouch, line, hline, ?_⟩
          rw [l.closing_stop, ← hend]
      rw [Pos.before_eq_true] at hbefore
      rw [Pos.before_eq_false]
      simp only
      omega
    · rw [Pos.before_eq_false] at hapart ⊢
      simp only
      omega
  · rw [l.closing_stop, Pos.before_eq_true]
    refine .inr ⟨rfl, ?_⟩
    simp only
    omega

theorem bodyBraces_of_not_tight (h : ¬ l.Tight) :
    s.bodyBraces l.body = .ok (l.opening, l.closing) := by
  rw [bodyBraces_eq (l.tokensOf_body_of_not_tight h) rfl List.getLast?_concat, if_neg]
  simp [l.opens, l.closes]

theorem bodyBraces_of_tight (h : l.Tight) : s.bodyBraces l.body =
    if l.previous.spelling = "\x7d" then .ok (l.opening, l.previous) else .error .doLoopBraces := by
  rw [bodyBraces_eq (l.tokensOf_body_of_tight h) rfl (List.getLast?_eq_some_getLast _)]
  simp only [l.opens, ne_eq, not_true_eq_false, false_or, ite_not]
  rfl

theorem Tight.previous_ne (h : l.Tight) : l.previous ≠ l.closing := by
  intro heq
  have hstop := congrArg Pos.column h.1
  rw [heq, l.closing_stop] at hstop
  simp at hstop

/-- Whatever is held for the closing brace is one, and a token of the loop. -/
theorem of_bodyBraces {closing : Token} (h : s.bodyBraces l.body = .ok (l.opening, closing)) :
    closing ∈ (s.unit.tokensIn (some l.file)).filter d.extent.contains ∧
      closing.spelling = "\x7d" := by
  rw [l.tokens]
  by_cases htight : l.Tight
  · rw [l.bodyBraces_of_tight htight] at h
    split at h
    · next hprevious =>
      cases h
      have hmem : l.previous ∈ l.opening :: l.inner := List.getLast_mem _
      have hbody := List.mem_append_left [l.closing] hmem
      exact ⟨List.mem_append_left _ (List.mem_cons_of_mem _ hbody), hprevious⟩
    · cases h
  · rw [l.bodyBraces_of_not_tight htight] at h
    cases h
    exact ⟨by simp, l.closes⟩

/-- Some `while` of the loop is found, and the braces of the body are left to be told. -/
theorem exists_doLoop {t : Tree} (hd : s.doLoopTree t = .ok d) :
    ∃ keyword ∈ (s.unit.tokensIn (some l.file)).filter d.extent.contains,
      keyword.spelling = "while" ∧ keyword.owner = some d.node.id ∧
      s.doLoop t = (s.bodyBraces l.body).map fun braces => ⟨l.doKeyword, keyword, some braces⟩ := by
  obtain ⟨more, hts⟩ := l.exists_tokensOf
  let owns : Token → Bool := fun u => u.spelling == "while" && s.unit.owns d.node u
  have howns : owns l.whileKeyword = true := by
    show (l.whileKeyword.spelling == "while" && s.unit.owns d.node l.whileKeyword) = true
    rw [l.saysWhile, l.owned]
    rfl
  let front := l.doKeyword :: (l.opening :: l.inner ++ [l.closing])
  obtain ⟨keyword, hkeyword⟩ : ∃ keyword, (front ++ [l.whileKeyword]).find? owns = some keyword :=
    Option.isSome_iff_exists.mp (List.find?_isSome.mpr ⟨_, by simp, howns⟩)
  have hfound : (front ++ l.whileKeyword :: more).find? owns = some keyword := by
    rw [List.append_cons, List.find?_append, hkeyword]
    rfl
  have hmem : keyword ∈ (s.unit.tokensIn (some l.file)).filter d.extent.contains := by
    rw [l.tokens, List.append_cons]
    exact List.mem_append_left _ (List.mem_of_find?_eq_some hkeyword)
  have hspelling := List.find?_some hkeyword
  simp only [owns, Bool.and_eq_true, beq_iff_eq] at hspelling
  exact ⟨keyword, hmem, hspelling.1, (TranslationUnit.owns_iff.mp hspelling.2).1,
    doLoop_eq hd hts l.saysDo hfound l.children l.braced⟩

end WrittenLoop

end Scene

/-! ## What loops are judged by -/

namespace Report

variable {ω α β : Type} {p : Prop} [Decidable p]

theorem liftM_bind_outcome_eq_ok {x : Except Fault α} {f : α → Report ω β} {b : β} :
    ((liftM x : Report ω α) >>= f).outcome = .ok b ↔ ∃ a, x = .ok a ∧ (f a).outcome = .ok b :=
  bind_outcome_eq_ok

theorem unit_bind_outcome_eq_ok {r : Report ω Unit} {f : Unit → Report ω α} {a : α} :
    (r >>= f).outcome = .ok a ↔ r.outcome = .ok () ∧ (f ()).outcome = .ok a :=
  bind_outcome_eq_ok.trans (Unique.exists_iff)

/-- Whether something is noted first does not matter to how a computation ends. -/
theorem ite_note_bind_outcome (w : ω) (r : Report ω α) :
    (if p then note w >>= fun _ => r else r).outcome = r.outcome := by
  split <;> rfl

theorem ite_note_outcome (w : ω) : (if p then note w else pure ()).outcome = .ok () := by
  split <;> rfl

end Report

/-- The tokens that the columns are compared of. -/
def DoLoop.judged (placement : BracePlacement) (l : DoLoop) : List Token :=
  match l.braces with
  | none => [l.doKeyword, l.whileKeyword]
  | some (opening, closing) =>
    if placement = .sameLine then [l.doKeyword, closing]
    else [l.doKeyword, l.whileKeyword, opening, closing]

theorem DoLoop.mem_judged {placement : BracePlacement}
    {doKeyword whileKeyword opening closing u : Token}
    (hu : u ∈ judged placement ⟨doKeyword, whileKeyword, some (opening, closing)⟩) :
    u = doKeyword ∨ u = whileKeyword ∨ u = opening ∨ u = closing := by
  simp only [judged] at hu
  split at hu
  · simp only [List.mem_cons, List.not_mem_nil, or_false] at hu
    exact hu.imp_right fun h => .inr (.inr h)
  · simpa using hu

namespace Scene

variable {s : Scene} {t : Tree} {f : Frame} {l : DoLoop} {opening closing : Token}

theorem checkDoKeyword_outcome :
    (s.checkDoKeyword f l).outcome = .ok () ↔ ∃ c, s.column l.doKeyword.extent = .ok c := by
  simp only [checkDoKeyword, Report.liftM_bind_outcome_eq_ok, Finding.flagIndent, Finding.flag,
    Report.ite_note_outcome, and_true]

theorem checkKeywordColumns_outcome :
    (s.checkKeywordColumns l).outcome = .ok () ↔
      (∃ c, s.column l.whileKeyword.extent = .ok c) ∧
      ∃ c, s.column l.doKeyword.extent = .ok c := by
  simp only [checkKeywordColumns, Report.liftM_bind_outcome_eq_ok, Finding.flagIndent, Finding.flag,
    Report.ite_note_outcome, and_true, exists_and_right]

theorem checkDoOpening_outcome {levels : Levels} :
    (s.checkDoOpening levels opening).outcome = .ok () ↔ ∃ c, s.column opening.extent = .ok c := by
  simp only [checkDoOpening, Report.liftM_bind_outcome_eq_ok, Finding.flagBrace, Finding.flag,
    Report.ite_note_outcome, and_true]

theorem checkDoSameLine_outcome :
    (s.checkDoSameLine l opening closing).outcome = .ok () ↔
      (∃ c, s.column closing.extent = .ok c) ∧ ∃ c, s.column l.doKeyword.extent = .ok c := by
  simp only [checkDoSameLine, Report.liftM_bind_outcome_eq_ok, Finding.flagIndent,
    Finding.flagBrace, Finding.flag, Report.ite_note_bind_outcome, Report.ite_note_outcome,
    and_true, exists_and_right]

theorem checkDoNextLine_outcome
    (hplacement : s.style.blockBraces = .nextLine ∨ s.style.blockBraces = .nextLineIndent) :
    (s.checkDoNextLine f l opening closing).outcome = .ok () ↔
      ((∃ c, s.column l.whileKeyword.extent = .ok c) ∧ ∃ c, s.column l.doKeyword.extent = .ok c) ∧
      (∃ c, s.column closing.extent = .ok c) ∧ ∃ c, s.column opening.extent = .ok c := by
  rcases hplacement with h | h <;>
  simp only [checkDoNextLine, h, Report.unit_bind_outcome_eq_ok, checkKeywordColumns_outcome,
    Finding.flagIndent, Finding.flagBrace, Finding.flag, Report.ite_note_bind_outcome,
    Report.liftM_bind_outcome_eq_ok, checkDoOpening_outcome, exists_and_right, and_self]

/-- The check of a loop comes to its end if all the columns that it compares can be told. -/
theorem checkDoLoop_outcome (hl : s.doLoop t = .ok l)
    (hplacement : s.style.blockBraces = .sameLine ∨ s.style.blockBraces = .nextLine ∨
      s.style.blockBraces = .nextLineIndent) :
    (s.checkDoLoop f t).outcome = .ok () ↔
      ∀ u ∈ l.judged s.style.blockBraces, ∃ c, s.column u.extent = .ok c := by
  rw [checkDoLoop, Report.liftM_bind_outcome_eq_ok]
  simp only [hl, Except.ok.injEq, exists_eq_left', Report.unit_bind_outcome_eq_ok,
    checkDoKeyword_outcome]
  rcases hbraces : l.braces with _ | ⟨opening, closing⟩
  · simp only [checkKeywordColumns_outcome, DoLoop.judged, hbraces, List.mem_cons, List.not_mem_nil,
      or_false, forall_eq_or_imp, forall_eq]
    exact and_congr_right fun hdo => and_iff_left hdo
  · rcases hplacement with h | h
    · simp only [DoLoop.judged, hbraces, h, if_true, checkDoSameLine_outcome, List.mem_cons,
        List.not_mem_nil, or_false, forall_eq_or_imp, forall_eq]
      exact and_congr_right fun hdo => and_iff_left hdo
    · have hne : s.style.blockBraces ≠ .sameLine := by
        rcases h with h | h <;> simp [h]
      simp only [DoLoop.judged, hbraces, if_neg hne, checkDoNextLine_outcome h, List.mem_cons,
        List.not_mem_nil, or_false, forall_eq_or_imp, forall_eq]
      exact and_congr_right fun hdo => and_congr (and_iff_left hdo) and_comm

/-- Which braces a do loop is judged by, and when it is given up. Its own braces are found just if
the loop is not tight. If it is, the token in front of the closing brace is held for it: the loop is
judged by that one if it is a closing brace of something else, and given up if not. Once the braces
are found, the loop is judged if the columns of its tokens can be told. -/
theorem checkDoLoop_own_braces_iff {d : Tree} (hd : s.doLoopTree t = .ok d) (l : s.WrittenLoop d)
    (hplacement : s.style.blockBraces = .sameLine ∨ s.style.blockBraces = .nextLine ∨
      s.style.blockBraces = .nextLineIndent) (f : Frame) :
    ∃ keyword, keyword.spelling = "while" ∧ keyword.owner = some d.node.id ∧
      let loop (closing : Token) : DoLoop := ⟨l.doKeyword, keyword, some (l.opening, closing)⟩
      (s.doLoop t = .ok (loop l.closing) ↔ ¬ l.Tight) ∧
      (l.Tight → l.previous.spelling = "\x7d" → s.doLoop t = .ok (loop l.previous)) ∧
      (l.Tight → l.previous.spelling ≠ "\x7d" → s.checkDoLoop f t = .giveUp .doLoopBraces) ∧
      ∀ closing, s.doLoop t = .ok (loop closing) →
        ((s.checkDoLoop f t).outcome = .ok () ↔
          ∀ u ∈ (loop closing).judged s.style.blockBraces, s.TellsColumn u) := by
  obtain ⟨keyword, hkeyword, hwhile, howned, hloop⟩ := l.exists_doLoop hd
  refine ⟨keyword, hwhile, howned, ⟨?_, ?_⟩, ?_, ?_, ?_⟩
  · intro hown htight
    rw [hloop, l.bodyBraces_of_tight htight] at hown
    split at hown
    · have hbraces := congrArg DoLoop.braces (Except.ok.inj hown)
      exact htight.previous_ne l (Prod.mk.inj (Option.some_inj.mp hbraces)).2
    · cases hown
  · intro hfree
    rw [hloop, l.bodyBraces_of_not_tight hfree]
    rfl
  · intro htight hprevious
    rw [hloop, l.bodyBraces_of_tight htight, if_pos hprevious]
    rfl
  · intro htight hprevious
    rw [checkDoLoop, hloop, l.bodyBraces_of_tight htight, if_neg hprevious]
    rfl
  · intro closing hfound
    rw [checkDoLoop_outcome hfound hplacement]
    obtain ⟨hmem, hcloses⟩ : closing ∈ (s.unit.tokensIn (some l.file)).filter d.extent.contains ∧
        closing.spelling = "\x7d" := by
      rw [hloop] at hfound
      cases hbraces : s.bodyBraces l.body with
      | error _ =>
        rw [hbraces] at hfound
        cases hfound
      | ok braces =>
        rw [hbraces] at hfound
        cases hfound
        exact l.of_bodyBraces hbraces
    refine forall₂_congr fun u hu => ?_
    rcases DoLoop.mem_judged hu with rfl | rfl | rfl | rfl
    · exact exists_column_iff (l.printed _ (by rw [l.tokens]; simp)) (by rw [l.saysDo]; decide)
    · exact exists_column_iff (l.printed _ hkeyword) (by rw [hwhile]; decide)
    · exact exists_column_iff (l.printed _ (by rw [l.tokens]; simp)) (by rw [l.opens]; decide)
    · exact exists_column_iff (l.printed _ hmem) (by rw [hcloses]; decide)

/-- A do loop whose body is closed in a column of the first line. -/
def loopClosedAt (column : Int) : Tree :=
  let file := some "a.cc"
  .mk ⟨1, .ok .doStmt, file, ⟨1, 1⟩, ⟨file, ⟨1, 1⟩, ⟨2, 10⟩⟩, false⟩
    [.mk ⟨2, .ok .compoundStmt, file, ⟨1, 4⟩, ⟨file, ⟨1, 4⟩, ⟨1, column + 1⟩⟩, false⟩ [],
     .mk ⟨3, .ok .unexposedExpr, file, ⟨2, 8⟩, ⟨file, ⟨2, 8⟩, ⟨2, 9⟩⟩, false⟩ []]

/-- The tokens of its body, given those between the braces. -/
def bodyClosedAt (inner : List Token) (column : Int) : List Token :=
  ⟨.punctuation, "\x7b", "a.cc", ⟨1, 4⟩, some 2⟩ :: inner ++
    [⟨.punctuation, "\x7d", "a.cc", ⟨1, column⟩, some 2⟩]

/-- The tokens of the condition. -/
def loopCondition : List Token :=
  [⟨.punctuation, "(", "a.cc", ⟨2, 7⟩, some 1⟩, ⟨.identifier, "x", "a.cc", ⟨2, 8⟩, some 3⟩,
   ⟨.punctuation, ")", "a.cc", ⟨2, 9⟩, some 1⟩]

/-- The loop alone in its file. -/
def oneLoop (text : String) (inner : List Token) (column : Int) : Scene :=
  let tokens := (⟨.keyword, "do", "a.cc", ⟨1, 1⟩, some 1⟩ :: bodyClosedAt inner column) ++
    ⟨.keyword, "while", "a.cc", ⟨2, 1⟩, some 1⟩ :: loopCondition ++
    [⟨.punctuation, ";", "a.cc", ⟨2, 10⟩, none⟩]
  { ofFile text tokens .standard with
    unit := ⟨.mk ⟨0, .ok .translationUnit, none, ⟨0, 0⟩, ⟨none, ⟨0, 0⟩, ⟨0, 0⟩⟩, false⟩
      [loopClosedAt column], tokens⟩ }

/-- The loop is written as it should be, if its tokens stand in the text one behind the other. -/
def oneLoop.written {text : String} {inner : List Token} {column : Int}
    (hstop : (⟨1, column + 1⟩ : Pos) =
      Token.stop ⟨.punctuation, "\x7d", "a.cc", ⟨1, column⟩, some 2⟩)
    (horder : Token.InOrder ((oneLoop text inner column).unit.tokensIn (some "a.cc")))
    (htokens : ((oneLoop text inner column).unit.tokensIn (some "a.cc")).filter
      (loopClosedAt column).extent.contains =
        (⟨.keyword, "do", "a.cc", ⟨1, 1⟩, some 1⟩ :: bodyClosedAt inner column) ++
          ⟨.keyword, "while", "a.cc", ⟨2, 1⟩, some 1⟩ :: loopCondition)
    (hbody : ((oneLoop text inner column).unit.tokensIn (some "a.cc")).filter
      (Extent.contains ⟨some "a.cc", ⟨1, 4⟩, ⟨1, column + 1⟩⟩) = bodyClosedAt inner column)
    (hprinted : ∀ t ∈ ((oneLoop text inner column).unit.tokensIn (some "a.cc")).filter
      (loopClosedAt column).extent.contains, (oneLoop text inner column).Prints t)
    (hline : ∃ line, (oneLoop text inner column).line "a.cc" 2 = .ok line) :
    (oneLoop text inner column).WrittenLoop (loopClosedAt column) where
  file := "a.cc"
  body := _
  condition := _
  doKeyword := _
  opening := _
  inner := inner
  closing := _
  whileKeyword := _
  rest := loopCondition
  inFile := rfl
  children := rfl
  braced := rfl
  extent := by rw [← hstop]; rfl
  inOrder := horder
  tokens := htokens
  bodyTokens := hbody
  saysDo := rfl
  opens := rfl
  closes := rfl
  saysWhile := rfl
  owned := rfl
  printed := hprinted
  lastLine := hline

/-- A body with one statement, and blanks in front of the closing brace. -/
def spacedLoop : Scene :=
  oneLoop "do \x7b x; \x7d\nwhile (x);\n"
    [⟨.identifier, "x", "a.cc", ⟨1, 6⟩, some 2⟩, ⟨.punctuation, ";", "a.cc", ⟨1, 7⟩, some 2⟩] 9

def spacedLoop.written : spacedLoop.WrittenLoop (loopClosedAt 9) :=
  oneLoop.written (by decide) ⟨by decide +kernel, by decide +kernel⟩ (by decide +kernel)
    (by decide +kernel) (by decide +kernel) ⟨_, rfl⟩

/-- The closing brace ends its line, but a blank stands in front of it. -/
theorem checkDoLoop_own_braces_iff_spaced :
    (∃ keyword, spacedLoop.doLoop (loopClosedAt 9) = .ok ⟨spacedLoop.written.doKeyword, keyword,
      some (spacedLoop.written.opening, spacedLoop.written.closing)⟩) ∧
    (spacedLoop.checkDoLoop .root (loopClosedAt 9)).outcome = .ok () := by
  have hfree : ¬ spacedLoop.written.Tight := fun h => absurd h.1 (by decide +kernel)
  obtain ⟨keyword, -, -, hown, -, -, hends⟩ :=
    checkDoLoop_own_braces_iff (t := loopClosedAt 9) rfl spacedLoop.written (.inl rfl) .root
  have hloop := hown.mpr hfree
  exact ⟨⟨keyword, hloop⟩, (hends _ hloop).mpr fun u _ => .inl (by decide +kernel)⟩

/-- An empty body. -/
def emptyLoop : Scene := oneLoop "do \x7b\x7d\nwhile (x);\n" [] 5

/-- The opening brace touches the closing one, and the loop is given up. -/
theorem gives_up_on_tight_braces :
    Nonempty (emptyLoop.WrittenLoop (loopClosedAt 5)) ∧
    emptyLoop.style.blockBraces = .sameLine ∧
    emptyLoop.doLoopTree (loopClosedAt 5) = .ok (loopClosedAt 5) ∧
    ∀ f, emptyLoop.checkDoLoop f (loopClosedAt 5) = .giveUp .doLoopBraces :=
  ⟨⟨oneLoop.written (by decide) ⟨by decide +kernel, by decide +kernel⟩ (by decide +kernel)
    (by decide +kernel) (by decide +kernel) ⟨_, rfl⟩⟩, rfl, rfl, fun f => rfl⟩

end Scene

end StyleCheck
