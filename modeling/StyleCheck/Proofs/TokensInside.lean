import StyleCheck.Proofs.LineStarts
import StyleCheck.Proofs.TokenRanges

/-!
# The tokens inside an extent

Where tokens stand one behind the other, an extent cuts them into those that start in front of it,
those inside it, and those behind (`Token.InOrder.cut`). The range that the tokens of an extent are
taken from ends at the last ink of its last line at the latest, one column in front of the end of an
extent that ends its line. The last token inside reaches over that column and no other one does,
since tokens are a column wide at least. So nothing is lost by it, and one token more is taken just
if the extent does not end its line (`Scene.tokensOf_eq_inside`).
-/

namespace StyleCheck

namespace Scene

variable {s : Scene} {e : Extent} {file : String} {line : Text} {z : Token}

/-- The tokens of an extent whose last token inside ends where the extent does, no further than the
last ink of its line reaches. They are the tokens inside it, followed by the next token of the file,
if there is one, just if ink stands behind the extent on its last line. -/
theorem tokensOf_eq_inside (horder : Token.InOrder (s.unit.tokensIn e.file))
    (hfile : e.file = some file) (hline : s.line file e.stop.line = .ok line)
    (hcolumn : e.stop.column ≤ (Text.trimEnd line).length + 1)
    (hz : ((s.unit.tokensIn e.file).filter e.contains).getLast? = some z)
    (hstop : z.stop = e.stop) :
    let inside := (s.unit.tokensIn e.file).filter e.contains
    ∃ front back, s.unit.tokensIn e.file = front ++ (inside ++ back) ∧
      (∀ t ∈ front ++ back, e.contains t = false) ∧
      s.tokensOf e id =
        .ok (inside ++ if e.stop.column ≤ (Text.trimEnd line).length then back.take 1 else []) ∧
      (e.stop.column = (Text.trimEnd line).length + 1 → s.tokensOf e id = .ok inside) := by
  intro inside
  obtain ⟨front, back, htokens, hstart, hfront, hback⟩ :=
    horder.cut (e := e) fun t ht => file_of_mem_tokensIn ht
  have htaken := tokensOf_eq hfile hline id
  rw [hstart, id] at htaken
  have hinside : ∀ t ∈ inside, e.stop.before t.stop = false :=
    fun t ht => Extent.stop_of_contains (List.mem_filter.mp ht).2
  have hends : (Text.trimEnd line).length < e.stop.column → s.tokensOf e id = .ok inside := by
    intro hlt
    obtain ⟨init, hinit⟩ := List.getLast?_eq_some_iff.mp hz
    have horder' : Token.InOrder (init ++ [z]) := by
      rw [← hinit]
      exact horder.sublist List.filter_sublist
    -- the range ends in the column of the last byte of `z`
    have hfrom : Pos.before ⟨e.stop.line, (Text.trimEnd line).length⟩ z.start = false := by
      have hspan := Token.start_before_stop (horder'.nonempty z (by simp))
      rw [hstop, Pos.before_eq_true] at hspan
      rw [Pos.before_eq_false]
      simp only
      omega
    have hover : Pos.before ⟨e.stop.line, (Text.trimEnd line).length⟩ z.stop = true := by
      rw [hstop, Pos.before_eq_true]
      exact .inr ⟨rfl, hlt⟩
    rw [htaken, Int.min_eq_right hlt.le]
    show _ = Except.ok ((s.unit.tokensIn e.file).filter e.contains)
    rw [hinit, List.append_assoc, List.singleton_append, horder'.takeThrough_append hfrom,
      Token.takeThrough, if_pos hover]
  refine ⟨front, back, htokens, ?_, ?_, fun hend => hends (by omega)⟩
  · intro t ht
    rcases List.mem_append.mp ht with ht | ht
    · simp [Extent.contains, hfront t ht]
    · simp [Extent.contains, hback t ht]
  · split
    · next hle =>
      rw [htaken, Int.min_eq_left hle, Token.takeThrough_append_of_le hinside]
      cases back with
      | nil => rfl
      | cons t back => rw [Token.takeThrough, if_pos (hback t List.mem_cons_self)]; rfl
    · next hlt => rw [List.append_nil, hends (by omega)]

/-- Two statements on two lines, with a comment from the one line to the other between them. -/
def acrossComment : Scene :=
  ofFile "x; /*\n*/y;  \n"
    [⟨.identifier, "x", "a.cc", ⟨1, 1⟩, none⟩, ⟨.punctuation, ";", "a.cc", ⟨1, 2⟩, none⟩,
     ⟨.comment, "/*\n*/", "a.cc", ⟨1, 4⟩, none⟩, ⟨.identifier, "y", "a.cc", ⟨2, 3⟩, none⟩,
     ⟨.punctuation, ";", "a.cc", ⟨2, 4⟩, none⟩] .standard

/-- The first statement takes the comment along. The second ends its line, blanks aside, and takes
nothing. -/
theorem tokensOf_eq_inside_across_comment :
    let tokens := acrossComment.unit.tokensIn (some "a.cc")
    let first : Extent := ⟨some "a.cc", ⟨1, 1⟩, ⟨1, 3⟩⟩
    let second : Extent := ⟨some "a.cc", ⟨2, 3⟩, ⟨2, 5⟩⟩
    (∃ front back, tokens = front ++ (tokens.filter first.contains ++ back) ∧
      acrossComment.tokensOf first id = .ok (tokens.filter first.contains ++ back.take 1)) ∧
    acrossComment.tokensOf second id = .ok (tokens.filter second.contains) := by
  intro tokens first second
  have horder : Token.InOrder tokens := ⟨by decide +kernel, by decide +kernel⟩
  obtain ⟨front, back, htokens, -, htaken, -⟩ := tokensOf_eq_inside (s := acrossComment)
    (e := first) (z := ⟨.punctuation, ";", "a.cc", ⟨1, 2⟩, none⟩) horder rfl rfl
    (by decide +kernel) (by decide +kernel) rfl
  obtain ⟨-, -, -, -, -, hends⟩ := tokensOf_eq_inside (s := acrossComment)
    (e := second) (z := ⟨.punctuation, ";", "a.cc", ⟨2, 4⟩, none⟩) horder rfl rfl
    (by decide +kernel) (by decide +kernel) rfl
  exact ⟨⟨front, back, htokens, htaken.trans (by rw [if_pos (by decide +kernel)])⟩, hends rfl⟩

end Scene

end StyleCheck
