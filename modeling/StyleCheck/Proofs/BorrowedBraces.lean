import StyleCheck.Proofs.BraceLayout
import StyleCheck.Proofs.TokenRanges

/-!
# Borrowed braces

A construct that does not end its line borrows the next token (`Scene.Borrows`). If this is a
closing brace, it is taken for the construct's own; if it is an opening one, too, unless the
construct has one. A construct without any brace is fine just if it borrows none, and is given up
with a stray closing brace if it borrows one of those (`Scene.checkBraces_borrows_iff`).
-/

namespace StyleCheck

theorem Token.isMark_closing {t : Token} (h : t.isMark "\x7b" = true) :
    t.isMark "\x7d" = false := by
  simp only [isMark, Bool.and_eq_true, beq_iff_eq] at h
  simp [isMark, h]

namespace Scene

variable {s : Scene} {e : Extent} {ts : List Token} {t : Token}

section

variable (horder : Token.InOrder (s.unit.tokensIn e.file))
  (he : e.OnTokens (s.unit.tokensIn e.file)) (hts : s.tokensOf e id = .ok ts)

include horder he hts

/-- A token outside the extent is borrowed. -/
theorem borrows_of_not_contains (ht : t ∈ ts) (hout : e.contains t = false) : s.Borrows e t := by
  rcases mem_or_borrows horder he hts ht with ⟨-, hin⟩ | hborrows
  · rw [hout] at hin
    cases hin
  · exact hborrows

theorem closingBrace?_outside_iff :
    (∃ t, Token.closingBrace? ts = some t ∧ e.contains t = false) ↔
      ∃ t, s.Borrows e t ∧ t.isMark "\x7d" = true := by
  constructor
  · rintro ⟨t, hclosing, hout⟩
    obtain ⟨front, rest, rfl, hmark, -⟩ := Token.closingBrace?_eq_some.mp hclosing
    exact ⟨t, borrows_of_not_contains horder he hts (by simp) hout, hmark⟩
  · rintro ⟨t, hborrows, hmark⟩
    refine ⟨t, ?_, hborrows.not_contains horder⟩
    rw [tokensOf_of_borrows horder he hts hborrows]
    exact Token.closingBrace?_eq_some.mpr ⟨_, [], rfl, hmark, List.forall_mem_nil _⟩

theorem openingBrace?_outside_iff :
    (∃ t, Token.openingBrace? ts = some t ∧ e.contains t = false) ↔
      (∀ t ∈ s.unit.tokensIn e.file, e.contains t = true → t.isMark "\x7b" = false) ∧
        ∃ t, s.Borrows e t ∧ t.isMark "\x7b" = true := by
  constructor
  · rintro ⟨t, hopening, hout⟩
    have hborrows := borrows_of_not_contains horder he hts (List.mem_of_find?_eq_some hopening) hout
    have hmark : t.isMark "\x7b" = true := by
      obtain ⟨_, _, -, hmark, -⟩ := Token.openingBrace?_eq_some.mp hopening
      exact hmark
    refine ⟨fun u hu hin => ?_, t, hborrows, hmark⟩
    rw [tokensOf_of_borrows horder he hts hborrows, Token.openingBrace?,
      List.find?_append] at hopening
    -- a brace inside the extent is found before one that is borrowed
    cases hfind : ((s.unit.tokensIn e.file).filter e.contains).find? (·.isMark "\x7b") with
    | none =>
      have hnone := List.find?_eq_none.mp hfind u (List.mem_filter.mpr ⟨hu, hin⟩)
      simpa using hnone
    | some v =>
      rw [hfind, Option.some_or, Option.some_inj] at hopening
      subst hopening
      rw [(List.mem_filter.mp (List.mem_of_find?_eq_some hfind)).2] at hout
      cases hout
  · rintro ⟨hinside, t, hborrows, hmark⟩
    refine ⟨t, ?_, hborrows.not_contains horder⟩
    rw [tokensOf_of_borrows horder he hts hborrows]
    refine Token.openingBrace?_eq_some.mpr ⟨_, [], rfl, hmark, fun u hu => ?_⟩
    exact hinside u (List.mem_filter.mp hu).1 (List.mem_filter.mp hu).2

variable (hinside : ∀ t ∈ s.unit.tokensIn e.file, e.contains t = true →
  t.isMark "\x7b" = false ∧ t.isMark "\x7d" = false)

include hinside

/-- Every brace of a construct without braces is borrowed. -/
theorem borrows_of_brace (ht : t ∈ ts) (hmark : t.isMark "\x7b" = true ∨ t.isMark "\x7d" = true) :
    s.Borrows e t := by
  rcases mem_or_borrows horder he hts ht with ⟨hmem, hin⟩ | hborrows
  · obtain ⟨hopening, hclosing⟩ := hinside t hmem hin
    rw [hopening, hclosing] at hmark
    simp at hmark
  · exact hborrows

/-- If a closing brace is borrowed, it is the only brace that is found. -/
theorem checkBraces_of_borrowed_closing (f : Frame) (m : BracePlacement) (ht : s.Borrows e t)
    (hmark : t.isMark "\x7d" = true) : s.checkBraces f e m = .giveUp .strayClosingBrace := by
  have hnone : Token.openingBrace? ts = none := by
    rw [Token.openingBrace?, List.find?_eq_none]
    intro u hu hopening
    cases ht.unique (borrows_of_brace horder he hts hinside hu (.inl hopening))
    rw [Token.isMark_closing hopening] at hmark
    cases hmark
  obtain ⟨u, hclosing, -⟩ := (closingBrace?_outside_iff horder he hts).mpr ⟨t, ht, hmark⟩
  rw [checkBraces_of_none hts hnone, hclosing]
  rfl

/-- The braces of a construct without braces are fine if it borrows none. -/
theorem checkBraces_eq_pure_iff (f : Frame) (m : BracePlacement) : s.checkBraces f e m = pure () ↔
    ∀ t, s.Borrows e t → t.isMark "\x7b" = false ∧ t.isMark "\x7d" = false := by
  constructor
  · intro hclean t ht
    have hclosing : t.isMark "\x7d" = false := by
      rw [← Bool.not_eq_true]
      intro hmark
      rw [checkBraces_of_borrowed_closing horder he hts hinside f m ht hmark] at hclean
      exact Report.giveUp_ne_pure _ _ hclean
    refine ⟨?_, hclosing⟩
    -- an opening brace is not accepted alone, and the closing one would be the same token
    rw [← Bool.not_eq_true]
    intro hmark
    have hin : ∀ u ∈ s.unit.tokensIn e.file, e.contains u = true → u.isMark "\x7b" = false :=
      fun u hu h => (hinside u hu h).1
    obtain ⟨o, hopening, -⟩ :=
      (openingBrace?_outside_iff horder he hts).mpr ⟨hin, t, ht, hmark⟩
    obtain ⟨b⟩ := nonempty_bracing hts hopening hclean
    have hsame := ht.unique
      (borrows_of_brace horder he hts hinside b.closing_mem (.inr b.closing_isMark))
    rw [hsame, b.closing_isMark] at hclosing
    cases hclosing
  · intro hborrows
    have hnone : ∀ u ∈ ts, ¬ (u.isMark "\x7b" = true ∨ u.isMark "\x7d" = true) := by
      intro u hu hmark
      obtain ⟨hopening, hclosing⟩ :=
        hborrows u (borrows_of_brace horder he hts hinside hu hmark)
      rw [hopening, hclosing] at hmark
      simp at hmark
    have hopening : Token.openingBrace? ts = none := by
      rw [Token.openingBrace?, List.find?_eq_none]
      exact fun u hu hmark => hnone u hu (.inl hmark)
    have hclosing : Token.closingBrace? ts = none := by
      rw [Token.closingBrace?, List.find?_eq_none]
      exact fun u hu hmark => hnone u (List.mem_reverse.mp hu) (.inr hmark)
    rw [checkBraces_of_none hts hopening, hclosing]
    rfl

end

/-- An extent that starts and ends with tokens of a file, which stand one behind the other. A brace
that is found for it lies outside it just if it is borrowed: the last closing brace if one is
borrowed, the first opening brace if one is borrowed and none lies inside. If no brace lies inside,
its braces are fine just if its last line can be read and no brace is borrowed, and a closing brace
that is borrowed is a stray one. -/
theorem checkBraces_borrows_iff (horder : Token.InOrder (s.unit.tokensIn e.file))
    (he : e.OnTokens (s.unit.tokensIn e.file)) :
    (∀ ts, s.tokensOf e id = .ok ts →
      ((∃ t, Token.openingBrace? ts = some t ∧ e.contains t = false) ↔
        (∀ t ∈ s.unit.tokensIn e.file, e.contains t = true → t.isMark "\x7b" = false) ∧
          ∃ t, s.Borrows e t ∧ t.isMark "\x7b" = true) ∧
      ((∃ t, Token.closingBrace? ts = some t ∧ e.contains t = false) ↔
        ∃ t, s.Borrows e t ∧ t.isMark "\x7d" = true)) ∧
    ((∀ t ∈ s.unit.tokensIn e.file, e.contains t = true →
        t.isMark "\x7b" = false ∧ t.isMark "\x7d" = false) →
      ∀ (f : Frame) (m : BracePlacement),
        (s.checkBraces f e m = pure () ↔
          (∃ file line, e.file = some file ∧ s.line file e.stop.line = .ok line) ∧
            ∀ t, s.Borrows e t → t.isMark "\x7b" = false ∧ t.isMark "\x7d" = false) ∧
        ∀ t, s.Borrows e t → t.isMark "\x7d" = true →
          s.checkBraces f e m = .giveUp .strayClosingBrace) := by
  refine ⟨fun ts hts => ⟨openingBrace?_outside_iff horder he hts,
    closingBrace?_outside_iff horder he hts⟩, fun hinside f m => ⟨⟨fun hclean => ?_, ?_⟩, ?_⟩⟩
  · obtain ⟨ts, hts⟩ := exists_tokens_of_pure hclean
    exact ⟨exists_line_of_tokensOf hts,
      (checkBraces_eq_pure_iff horder he hts hinside f m).mp hclean⟩
  · rintro ⟨⟨file, line, hfile, hline⟩, hborrows⟩
    exact (checkBraces_eq_pure_iff horder he (tokensOf_eq hfile hline id) hinside f m).mpr hborrows
  · intro t ht hmark
    obtain ⟨ts, hts⟩ := ht.exists_tokens
    exact checkBraces_of_borrowed_closing horder he hts hinside f m ht hmark

/-- A block of a loop without braces, with its closing brace at the given place. -/
def loopTokens (closing : Pos) : List Token :=
  [⟨.punctuation, "\x7b", "a.cc", ⟨1, 1⟩, none⟩, ⟨.keyword, "while", "a.cc", ⟨1, 3⟩, none⟩,
   ⟨.punctuation, "(", "a.cc", ⟨1, 9⟩, none⟩, ⟨.identifier, "x", "a.cc", ⟨1, 10⟩, none⟩,
   ⟨.punctuation, ")", "a.cc", ⟨1, 11⟩, none⟩, ⟨.punctuation, ";", "a.cc", ⟨1, 12⟩, none⟩,
   ⟨.punctuation, "\x7d", "a.cc", closing, none⟩]

/-- The block with a blank in front of its closing brace. -/
def loopInBlock (blank : String) (closing : Pos) : Scene :=
  ofFile ("\x7b while (x);" ++ blank ++ "\x7d\n") (loopTokens closing) .standard

/-- The extent of the loop. -/
def loopExtent : Extent := ⟨some "a.cc", ⟨1, 3⟩, ⟨1, 13⟩⟩

/-- A loop that ends its line borrows nothing. -/
theorem checkBraces_borrows_iff_loop :
    (loopInBlock "\n" ⟨2, 1⟩).checkBraces .root loopExtent .sameLine = pure () := by
  have horder : Token.InOrder ((loopInBlock "\n" ⟨2, 1⟩).unit.tokensIn (some "a.cc")) :=
    ⟨by decide +kernel, by decide +kernel⟩
  have he : loopExtent.OnTokens ((loopInBlock "\n" ⟨2, 1⟩).unit.tokensIn (some "a.cc")) :=
    ⟨by decide +kernel, by decide +kernel, rfl⟩
  obtain ⟨-, hplain⟩ := checkBraces_borrows_iff horder he
  refine ((hplain (by decide +kernel) .root .sameLine).1).mpr ⟨⟨_, _, rfl, rfl⟩, ?_⟩
  rintro t ⟨_, _, hfile, hline, hend, -⟩
  cases hfile
  cases hline
  exact absurd hend (by decide +kernel)

/-- In front of the closing brace of its block, the loop is given up, although it has no braces. -/
theorem checkBraces_borrows_closing :
    Token.InOrder ((loopInBlock " " ⟨1, 14⟩).unit.tokensIn (some "a.cc")) ∧
    loopExtent.OnTokens ((loopInBlock " " ⟨1, 14⟩).unit.tokensIn (some "a.cc")) ∧
    (∀ t ∈ (loopInBlock " " ⟨1, 14⟩).unit.tokensIn (some "a.cc"), loopExtent.contains t = true →
      t.isMark "\x7b" = false ∧ t.isMark "\x7d" = false) ∧
    (loopInBlock " " ⟨1, 14⟩).checkBraces .root loopExtent .sameLine =
      .giveUp .strayClosingBrace :=
  ⟨⟨by decide +kernel, by decide +kernel⟩, ⟨by decide +kernel, by decide +kernel, rfl⟩,
    by decide +kernel, rfl⟩

end Scene

end StyleCheck
