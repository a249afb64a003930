import StyleCheck.Indent.Rules

/-!
# What rules read

Of a unit the rules read the tokens, of a construct its extent, and of a frame its levels and
whether braces are answered for above. Do loops alone look anything up in the tree of the unit. So a
construct that is seen as before is judged as before, in whatever tree it stands
(`Scene.check_withRoot`).
-/

namespace StyleCheck

namespace Scene

/-- The scene with another tree in its unit. -/
def withRoot (s : Scene) (root : Tree) : Scene := { s with unit := ⟨root, s.unit.tokens⟩ }

variable {s : Scene} {root : Tree} {parent parent' f f' : Frame} {t t' : Tree}

section

variable (hlevels : f'.levels = f.levels)

include hlevels

theorem checkStart_withRoot (e : Extent) (offset : Int) :
    (s.withRoot root).checkStart f' e offset = s.checkStart f e offset := by
  unfold checkStart
  rw [hlevels]
  rfl

theorem checkBraces_withRoot (e : Extent) (p : BracePlacement) :
    (s.withRoot root).checkBraces f' e p = s.checkBraces f e p := by
  unfold checkBraces checkNextLineIndent
  rw [hlevels]
  rfl

theorem checkCompound_withRoot (hbraces : f'.bracesAbove = f.bracesAbove) (e : Extent) :
    (s.withRoot root).checkCompound f' e = s.checkCompound f e := by
  unfold checkCompound
  rw [hlevels, hbraces]
  rfl

theorem checkDoLoop_withRoot (hloop : (s.withRoot root).doLoop t' = s.doLoop t) :
    (s.withRoot root).checkDoLoop f' t' = s.checkDoLoop f t := by
  unfold checkDoLoop checkDoKeyword checkDoNextLine
  rw [hlevels, hloop]
  rfl

variable (hextent : t'.extent = t.extent)

include hextent

theorem checkBlock_withRoot (p : BracePlacement) :
    (s.withRoot root).checkBlock f' t' p = s.checkBlock f t p := by
  rw [checkBlock, checkBlock, hextent, checkStart_withRoot hlevels, checkBraces_withRoot hlevels]

theorem checkJumpLabel_withRoot :
    (s.withRoot root).checkJumpLabel f' t' = s.checkJumpLabel f t := by
  unfold checkJumpLabel
  rw [hextent, checkStart_withRoot hlevels]
  rfl

/-- The frame around an access label is asked for its mark if labels indent what follows them. -/
theorem checkAccessLabel_withRoot (hparent : s.style.belowVisibility.isOn = true →
      parent'.construct = parent.construct ∧ parent'.marked = parent.marked) :
    (s.withRoot root).checkAccessLabel parent' f' t' = s.checkAccessLabel parent f t := by
  unfold checkAccessLabel
  simp only [checkStart_withRoot hlevels, hextent]
  by_cases hon : s.style.belowVisibility.isOn = true
  · obtain ⟨hconstruct, hmarked⟩ := hparent hon
    rw [Frame.keepsMark, Frame.keepsMark, hconstruct, hmarked]
    rfl
  · rw [if_neg hon, if_neg (show ¬ (s.withRoot root).style.belowVisibility.isOn = true from hon)]

/-- A construct that is seen as before is judged as before. -/
theorem check_withRoot (hform : f'.construct.form = f.construct.form)
    (hbraces : f'.bracesAbove = f.bracesAbove)
    (hloop : f.construct.form = .doLoop → (s.withRoot root).doLoop t' = s.doLoop t)
    (hparent : f.construct.form = .accessLabel → s.style.belowVisibility.isOn = true →
      parent'.construct = parent.construct ∧ parent'.marked = parent.marked) :
    (s.withRoot root).check parent' f' t' = s.check parent f t := by
  unfold check
  rw [hform]
  cases hf : f.construct.form with
  | root | silent | unexposed => rfl
  | plain | caseLabel | enumeration | function | block | conditional =>
    rw [hextent]
    exact checkStart_withRoot hlevels _ _
  | record | recordTemplate | method | rangeLoop | whileLoop | switch | namespaceBody =>
    exact checkBlock_withRoot hlevels hextent _
  | compound =>
    rw [hextent]
    exact checkCompound_withRoot hlevels hbraces _
  | doLoop => exact checkDoLoop_withRoot hlevels (hloop hf)
  | accessLabel => exact checkAccessLabel_withRoot hlevels hextent (hparent hf)
  | jumpLabel => exact checkJumpLabel_withRoot hlevels hextent

end

end Scene

end StyleCheck
