import StyleCheck.Proofs.BraceLayout
import StyleCheck.Proofs.LevelSums

/-!
# Braces and the levels of bodies

A construct whose braces are checked names a placement twice: where its braces belong
(`Kind.checkedBraces?`), and how far its body is moved with them. Both are the same setting for
every kind but switch statements, whose body moves with the braces of blocks. So a brace that is
accepted one level further in has nothing of its construct expected to the left of it, but for
switch statements in a style that indents their braces and neither those of blocks nor their bodies
(`Frame.children_follow_braces`).
-/

namespace StyleCheck

/-- The settings that count levels are flags. -/
structure IndentStyle.HasFlags (style : IndentStyle) : Prop where
  belowVisibility : ∃ b, style.belowVisibility = .flag b
  insideRecord : ∃ b, style.insideRecord = .flag b
  insideFunction : ∃ b, style.insideFunction = .flag b
  insideBlock : ∃ b, style.insideBlock = .flag b
  insideSwitch : ∃ b, style.insideSwitch = .flag b
  insideCase : ∃ b, style.insideCase = .flag b
  insideNamespace : ∃ b, style.insideNamespace = .flag b

namespace Kind

/-- The placement that the braces of a kind are held to, if they are checked. -/
def checkedBraces? (style : IndentStyle) : Kind → Option BracePlacement
  | classDecl | structDecl | unionDecl | classTemplate | classTemplatePartialSpecialization =>
    some style.recordBraces
  | constructorDecl | destructorDecl | conversionFunction | cxxMethod => some style.functionBraces
  | namespaceDecl => some style.namespaceBraces
  | cxxForRangeStmt | whileStmt => some style.blockBraces
  | switchStmt => some style.switchBraces
  | _ => none

/-- The setting that indents the body of a kind whose braces are checked. -/
def bodySetting (style : IndentStyle) : Kind → Setting
  | classDecl | structDecl | unionDecl | classTemplate | classTemplatePartialSpecialization =>
    style.insideRecord
  | constructorDecl | destructorDecl | conversionFunction | cxxMethod => style.insideFunction
  | namespaceDecl => style.insideNamespace
  | cxxForRangeStmt | whileStmt => style.insideBlock
  | switchStmt => style.insideSwitch
  | _ => .flag false

def isRecord : Kind → Bool
  | classDecl | structDecl | unionDecl => true
  | _ => false

/-- The levels that the body of a kind stands further in than the construct, if its braces were
placed in one way. -/
def levelsAt (style : IndentStyle) (k : Kind) (marked : Bool) (p : BracePlacement) : Int :=
  Frame.bracesAdd p + (k.bodySetting style).isOn.toInt +
    (k.isRecord && style.belowVisibility.isOn && marked).toInt

end Kind

theorem Setting.count_flag {s : Setting} (h : ∃ b, s = .flag b) : s.count = s.isOn.toInt := by
  obtain ⟨b, rfl⟩ := h
  rfl

theorem Setting.countFault?_flag {s : Setting} (h : ∃ b, s = .flag b) : s.countFault? = none := by
  obtain ⟨b, rfl⟩ := h
  rfl

namespace Frame

variable {style : IndentStyle} {f g p : Frame} {k : Kind} {m : BracePlacement}

/-! ## Chains of frames -/

/-- Frames opened inside each other. Access labels may have marked any of them. -/
inductive InChain (style : IndentStyle) : Frame → Prop
  | root : InChain style root
  | enter {p f : Frame} {k : Kind} {t : Option Tree} :
    InChain style p → p.enterKind style k t = .ok f → InChain style f
  | mark {f : Frame} : InChain style f → InChain style f.mark

/-- A frame in a chain has one level. -/
theorem InChain.levels_eq (h : f.InChain style) : ∃ c, f.levels = .single c := by
  induction h with
  | root => exact ⟨0, rfl⟩
  | @enter p f k t _ he ih =>
    obtain ⟨c, hc⟩ := ih
    obtain ⟨_, -, rfl⟩ := enterKind_ok he
    refine ⟨c + style.levelSize * p.extraLevels style, ?_⟩
    show p.childLevels style = _
    rw [childLevels, hc]
    rfl
  | mark _ ih => exact ih

/-- Where flags count levels, the levels of a body can be told. -/
theorem bodyFault?_eq_none (h : style.HasFlags) (f : Frame) : f.bodyFault? style = none := by
  unfold bodyFault?
  cases f.construct.form <;>
    simp [Setting.countFault?_flag h.belowVisibility, Setting.countFault?_flag h.insideRecord,
      Setting.countFault?_flag h.insideFunction, Setting.countFault?_flag h.insideBlock,
      Setting.countFault?_flag h.insideSwitch, Setting.countFault?_flag h.insideCase,
      Setting.countFault?_flag h.insideNamespace]

/-- Every kind but one can be entered, at the levels of the body. -/
theorem enterKind_of_flags (h : style.HasFlags) (f : Frame) (hk : k ≠ .templateTemplateParameter)
    (x : Option Tree) :
    ∃ g, f.enterKind style k x = .ok g ∧ g.levels = f.childLevels style := by
  have hc : ∃ c, Construct.ofKind k = .ok c := by
    unfold Construct.ofKind
    split
    · exact absurd rfl hk
    · exact ⟨_, rfl⟩
  obtain ⟨c, hc⟩ := hc
  refine ⟨f.enter style c (k.name ++ "'") x, ?_, rfl⟩
  rw [enterKind, hc, bodyFault?_eq_none h]

/-- The body of a switch statement moves with the braces of blocks, every other body with its own
braces. -/
theorem extraLevels_of_braces (h : style.HasFlags) (hk : f.construct.form = k.form)
    (hm : k.checkedBraces? style = some m) :
    f.extraLevels style =
      k.levelsAt style f.marked (if k = .switchStmt then style.blockBraces else m) := by
  rw [extraLevels_eq hk]
  cases k <;> cases hm <;>
    simp [Kind.bodyLevels, Kind.levelsAt, Kind.bodySetting, Kind.isRecord,
      Setting.count_flag h.insideRecord, Setting.count_flag h.insideFunction,
      Setting.count_flag h.insideBlock, Setting.count_flag h.insideSwitch,
      Setting.count_flag h.insideNamespace]

end Frame

/-! ## Braces that are accepted -/

namespace Scene

variable {s : Scene} {f : Frame} {ts : List Token} {opening : Token} {b : Int}

/-- The complaint about an opening brace that is not indented one level further. -/
def misplaced (opening : Token) : Violation :=
  ⟨"indent.brace", opening.extent.file, opening.extent.start.line, opening.extent.start.column,
    "Opening brace should be indented one level further than block start."⟩

/-- The check of indented braces comes to its end and does not complain about the column `b` of the
opening one. -/
def AcceptsOpening (s : Scene) (f : Frame) (e : Extent) (b : Int) : Prop :=
  (s.checkBraces f e .nextLineIndent).outcome = .ok () ∧
    ∃ ts opening, s.tokensOf e id = .ok ts ∧ Token.openingBrace? ts = some opening ∧
      s.column opening.extent = .ok b ∧
      misplaced opening ∉ (s.checkBraces f e .nextLineIndent).notes

theorem accepts_of_checkNextLineIndent (hb : s.column opening.extent = .ok b)
    (hok : (s.checkNextLineIndent f ts opening).outcome = .ok ())
    (hquiet : misplaced opening ∉ (s.checkNextLineIndent f ts opening).notes) :
    (f.levels.shift s.style.levelSize).accepts b = true := by
  by_contra hno
  rw [Bool.not_eq_true] at hno
  unfold checkNextLineIndent at hok hquiet
  cases hprevious : Token.beforeBrace? none ts with
  | none =>
    rw [hprevious] at hok
    cases hok
  | some previous =>
    rw [hprevious, hb] at hquiet
    refine hquiet ?_
    show misplaced opening ∈ Report.notes (if _ then _ else _)
    have hflag : ∀ rest, (if (!(f.levels.shift s.style.levelSize).accepts b) = true then
        Finding.flagBrace opening.extent
          "Opening brace should be indented one level further than block start."
        else rest) = Report.note (misplaced opening) := by
      intro rest
      rw [hno]
      rfl
    split
    · refine List.mem_append_right _ ?_
      show misplaced opening ∈ Report.notes (if _ then _ else _)
      rw [hflag]
      exact List.mem_singleton_self _
    · show misplaced opening ∈ Report.notes (if _ then _ else _)
      rw [hflag]
      exact List.mem_singleton_self _

theorem AcceptsOpening.accepts {e : Extent} (h : s.AcceptsOpening f e b) :
    (f.levels.shift s.style.levelSize).accepts b = true := by
  obtain ⟨hok, ts, opening, hts, hopening, hb, hquiet⟩ := h
  obtain ⟨-, -, hcheck, -⟩ := checkBraces_of_some (f := f) hts hopening
  rw [hcheck] at hok hquiet
  exact accepts_of_checkNextLineIndent hb hok hquiet

end Scene

/-! ## Children and braces -/

/-- A label that the style holds to column zero and to no level. -/
def Frame.flushLeft (style : IndentStyle) (child : Frame) : Bool :=
  child.construct.form == .jumpLabel && style.labelsFlushLeft

/-- The levels that a child is expected in: its own. An access label behind another one is the
exception, as it stands one level in front of what stands below the label. -/
def Frame.expects (style : IndentStyle) (f child : Frame) : Levels :=
  if child.construct.form = .accessLabel ∧ style.belowVisibility.isOn = true ∧
      f.keepsMark = true ∧ f.marked = true then
    child.levels.shift (-style.levelSize)
  else child.levels

/-- An access label is held to the levels that it is expected in. -/
theorem Scene.check_accessLabel {s : Scene} {parent f : Frame}
    (hf : f.construct.form = .accessLabel)
    (hp : s.style.belowVisibility.isOn = true → parent.keepsMark = true) (t : Tree) :
    s.check parent f t =
      s.checkStart { f with levels := parent.expects s.style f } t.extent 0 := by
  have hcheck : s.check parent f t = s.checkAccessLabel parent f t := by
    rw [check, hf]
  rw [hcheck, checkAccessLabel, Frame.expects]
  cases hon : s.style.belowVisibility.isOn with
  | false => simp
  | true =>
    rw [hp hon]
    cases hm : parent.marked with
    | false => simp [hf]
    | true =>
      simp only [hf, and_self, if_true, checkStart, Levels.shift_zero]

namespace Kind

variable {style : IndentStyle} {k : Kind} {marked : Bool}

theorem toInt_nonneg (b : Bool) : 0 ≤ b.toInt := by cases b <;> decide

theorem levelsAt_nonneg {p : BracePlacement} : 0 ≤ k.levelsAt style marked p := by
  have h1 := toInt_nonneg (k.bodySetting style).isOn
  have h2 := toInt_nonneg (k.isRecord && style.belowVisibility.isOn && marked)
  unfold levelsAt Frame.bracesAdd
  split <;> omega

/-- Indented braces move their body by a level at least, and what stands below an access label by
two. -/
theorem le_levelsAt_nextLineIndent :
    1 + (k.isRecord && style.belowVisibility.isOn && marked).toInt ≤
      k.levelsAt style marked .nextLineIndent := by
  have := toInt_nonneg (k.bodySetting style).isOn
  rw [levelsAt, show Frame.bracesAdd .nextLineIndent = 1 from rfl]
  omega

theorem levelsAt_inj {p q : BracePlacement} :
    k.levelsAt style marked p = k.levelsAt style marked q ↔
      (p = .nextLineIndent ↔ q = .nextLineIndent) := by
  have hbraces : Frame.bracesAdd p = Frame.bracesAdd q ↔
      (p = .nextLineIndent ↔ q = .nextLineIndent) := by
    unfold Frame.bracesAdd
    by_cases hp : p = .nextLineIndent <;> by_cases hq : q = .nextLineIndent <;> simp [hp, hq]
  rw [← hbraces, levelsAt, levelsAt]
  omega

/-- A switch statement moves its body by no level if neither the braces of blocks are indented nor
its body is. -/
theorem levelsAt_switchStmt : switchStmt.levelsAt style marked style.blockBraces = 0 ↔
    ¬ (style.blockBraces = .nextLineIndent ∨ style.insideSwitch.isOn = true) := by
  unfold levelsAt Frame.bracesAdd
  by_cases hp : style.blockBraces = .nextLineIndent <;> cases hs : style.insideSwitch.isOn <;>
    simp [hp, hs, bodySetting, isRecord]

theorem isRecord_of_form (h : k.form = .record) : k.isRecord = true := by
  cases k <;> first | rfl | cases h

theorem form_of_isRecord (hk : k.isRecord = true) : k.form = .record := by
  cases k <;> first | rfl | cases hk

end Kind

namespace Frame

variable {style : IndentStyle} {f : Frame} {k : Kind} {m : BracePlacement}

/-- The braces of a construct are held to the placement of its kind. -/
theorem check_of_braces (hk : f.construct.form = k.form) (hm : k.checkedBraces? style = some m)
    {s : Scene} (hs : s.style = style) (parent : Frame) (t : Tree) :
    s.check parent f t = s.checkBlock f t m := by
  subst hs
  rw [Scene.check, hk]
  cases k <;> cases hm <;> rfl

/-- If a body moves by a level at least, and by two below an access label, no child is expected to
the left of a brace that is accepted. -/
theorem le_expects {child : Frame} {c e : Int} (hsize : 0 ≤ style.levelSize)
    (hk : f.construct.form = k.form) (hc : child.levels = .single (c + style.levelSize * e))
    (he : style.levelSize * (1 + (k.isRecord && style.belowVisibility.isOn && f.marked).toInt) ≤
      style.levelSize * e) :
    ∀ column ∈ (f.expects style child).columns.toList, c + style.levelSize ≤ column := by
  intro column hcolumn
  unfold expects at hcolumn
  rw [hc] at hcolumn
  split at hcolumn
  · next hlabel =>
    obtain ⟨-, hon, hrecord, hmarked⟩ := hlabel
    have hform : k.isRecord = true := Kind.isRecord_of_form (hk ▸ eq_of_beq hrecord)
    rw [hform, hon, hmarked, show 1 + (true && true && true).toInt = 2 from rfl] at he
    rw [Levels.single_shift] at hcolumn
    cases List.mem_singleton.mp hcolumn
    omega
  · have hlabelled := Int.mul_nonneg hsize
      (Kind.toInt_nonneg (k.isRecord && style.belowVisibility.isOn && f.marked))
    rw [Int.mul_add] at he
    cases List.mem_singleton.mp hcolumn
    omega

section

variable (hflags : style.HasFlags) (hk : f.construct.form = k.form)
  (hm : k.checkedBraces? style = some m) {c : Int} (hc : f.levels = .single c)

include hflags hk hm hc

theorem childLevels_of_braces : f.childLevels style = .single (c + style.levelSize *
    k.levelsAt style f.marked (if k = .switchStmt then style.blockBraces else m)) := by
  rw [childLevels, extraLevels_of_braces hflags hk hm, hc, Levels.single_shift]

/-- Children follow the placement that the braces are held to, unless the construct is a switch
statement and the braces of blocks are placed otherwise. -/
theorem childLevels_eq_iff (hsize : 0 ≤ style.levelSize) :
    f.childLevels style = f.levels.shift (style.levelSize * k.levelsAt style f.marked m) ↔
      (k = .switchStmt → 0 < style.levelSize →
        (m = .nextLineIndent ↔ style.blockBraces = .nextLineIndent)) := by
  rw [childLevels_of_braces hflags hk hm hc, hc, Levels.single_shift, Levels.single_inj]
  by_cases hswitch : k = .switchStmt
  · rw [if_pos hswitch]
    rcases Int.le_iff_lt_or_eq.mp hsize with hpos | hzero
    · have hcancel : ∀ x y : Int,
          c + style.levelSize * x = c + style.levelSize * y ↔ x = y := by
        intro x y
        rw [Int.add_right_inj]
        exact Int.mul_eq_mul_left_iff (Int.ne_of_gt hpos)
      rw [hcancel, Kind.levelsAt_inj]
      simp only [hswitch, hpos, forall_const]
      exact iff_comm
    · simp [← hzero]
  · rw [if_neg hswitch]
    simp [hswitch]

/-- A switch statement whose body is not moved has a child to the left of an indented brace. -/
theorem exists_child_left (hswitch : k = .switchStmt) (hpos : 0 < style.levelSize)
    (hnot : ¬ (style.blockBraces = .nextLineIndent ∨ style.insideSwitch.isOn = true)) :
    ∃ kind x child, f.enterKind style kind x = .ok child ∧ child.flushLeft style = false ∧
      ∃ column ∈ (f.expects style child).columns.toList, column < c + style.levelSize := by
  -- the levels of a case label are those of the switch statement itself
  obtain ⟨child, he, hl⟩ := enterKind_of_flags (k := .caseStmt) hflags f (by decide) none
  rw [childLevels_of_braces hflags hk hm hc, if_pos hswitch, hswitch,
    Kind.levelsAt_switchStmt.mpr hnot, Int.mul_zero, Int.add_zero] at hl
  have hform : child.construct.form = .caseLabel := by
    obtain ⟨_, hof, rfl⟩ := enterKind_ok he
    cases hof
    rfl
  refine ⟨.caseStmt, none, child, he, by rw [flushLeft, hform]; rfl, c, ?_, by omega⟩
  rw [expects, hform, if_neg (by simp), hl]
  exact List.mem_singleton_self c

/-- No child is expected to the left of an indented brace, unless the construct is a switch
statement whose body is not moved. -/
theorem forall_le_expects_iff (hsize : 0 ≤ style.levelSize) (hindent : m = .nextLineIndent) :
    (∀ kind x child, f.enterKind style kind x = .ok child → child.flushLeft style = false →
        ∀ column ∈ (f.expects style child).columns.toList, c + style.levelSize ≤ column) ↔
      (k = .switchStmt → 0 < style.levelSize →
        style.blockBraces = .nextLineIndent ∨ style.insideSwitch.isOn = true) := by
  constructor
  · intro hall hswitch hpos
    by_contra hnot
    obtain ⟨kind, x, child, he, hflush, column, hcolumn, hlt⟩ :=
      exists_child_left hflags hk hm hc hswitch hpos hnot
    have hle := hall kind x child he hflush column hcolumn
    omega
  · intro hright kind x child he _
    have hlevels : child.levels = f.childLevels style := by
      obtain ⟨_, -, rfl⟩ := enterKind_ok he
      rfl
    refine le_expects hsize hk (hlevels.trans (childLevels_of_braces hflags hk hm hc)) ?_
    by_cases hswitch : k = .switchStmt
    · subst hswitch
      rw [if_pos rfl]
      rcases Int.le_iff_lt_or_eq.mp hsize with hpos | hzero
      · have hge : 0 ≤ Kind.switchStmt.levelsAt style f.marked style.blockBraces :=
          Kind.levelsAt_nonneg
        have hne : Kind.switchStmt.levelsAt style f.marked style.blockBraces ≠ 0 :=
          fun hzero => Kind.levelsAt_switchStmt.mp hzero (hright rfl hpos)
        refine Int.mul_le_mul_of_nonneg_left ?_ hsize
        show 1 + 0 ≤ _
        omega
      · simp [← hzero]
    · rw [if_neg hswitch, hindent]
      exact Int.mul_le_mul_of_nonneg_left Kind.le_levelsAt_nextLineIndent hsize

end

/-- A construct in a chain of frames whose braces are held to a placement `m`: what stands directly
in it can be entered, one level further in for indented braces and one for its flag, and one more
below an access label. The braces are those of `m`, but for switch statements, where they are those
of blocks. If `m` indents braces, no child is expected to the left of an opening brace that is
accepted, labels in column zero aside, unless the construct is a switch statement whose body is not
moved at all. -/
theorem children_follow_braces (hflags : style.HasFlags) (hsize : 0 ≤ style.levelSize)
    (hf : f.InChain style) (hk : f.construct.form = k.form)
    (hm : k.checkedBraces? style = some m) :
    (∀ (s : Scene) (parent : Frame) (t : Tree), s.style = style →
      s.check parent f t = s.checkBlock f t m) ∧
    (∃ c, f.levels = .single c ∧ ∀ (kind : Kind) (x : Option Tree),
      kind ≠ .templateTemplateParameter →
      ∃ child, f.enterKind style kind x = .ok child ∧
        child.levels = .single (c + style.levelSize *
          k.levelsAt style f.marked (if k = .switchStmt then style.blockBraces else m))) ∧
    (f.childLevels style = f.levels.shift (style.levelSize * k.levelsAt style f.marked m) ↔
      (k = .switchStmt → 0 < style.levelSize →
        (m = .nextLineIndent ↔ style.blockBraces = .nextLineIndent))) ∧
    (∀ (s : Scene) (child : Frame) (t : Tree), s.style = style →
      child.construct.form = .accessLabel →
      (style.belowVisibility.isOn = true → f.keepsMark = true) →
      s.check f child t = s.checkStart { child with levels := f.expects style child } t.extent 0) ∧
    ∀ (s : Scene) (e : Extent) (b : Int), s.style = style → m = .nextLineIndent →
      s.AcceptsOpening f e b →
      ((∀ kind x child, f.enterKind style kind x = .ok child → child.flushLeft style = false →
          ∀ column ∈ (f.expects style child).columns.toList, b ≤ column) ↔
        (k = .switchStmt → 0 < style.levelSize →
          style.blockBraces = .nextLineIndent ∨ style.insideSwitch.isOn = true)) := by
  obtain ⟨c, hc⟩ := hf.levels_eq
  refine ⟨fun s parent t hs => check_of_braces hk hm hs parent t, ⟨c, hc, ?_⟩,
    childLevels_eq_iff hflags hk hm hc hsize, ?_, ?_⟩
  · intro kind x hkind
    obtain ⟨child, he, hl⟩ := enterKind_of_flags hflags f hkind x
    exact ⟨child, he, hl.trans (childLevels_of_braces hflags hk hm hc)⟩
  · rintro s child t rfl hlabel hmark
    exact Scene.check_accessLabel hlabel hmark t
  · rintro s e b rfl hindent haccept
    have hb : b = c + s.style.levelSize := by
      have := haccept.accepts
      rwa [hc, Levels.single_shift, Levels.accepts_single] at this
    rw [hb]
    exact forall_le_expects_iff hflags hk hm hc hsize hindent

end Frame

/-! Braces one level further in -/

/-- A style that indents the braces of records and of switch statements, and no others. -/
def IndentStyle.indentedBraces : IndentStyle :=
  { standard with recordBraces := .nextLineIndent, switchBraces := .nextLineIndent }

theorem IndentStyle.indentedBraces_hasFlags : indentedBraces.HasFlags where
  belowVisibility := ⟨_, rfl⟩
  insideRecord := ⟨_, rfl⟩
  insideFunction := ⟨_, rfl⟩
  insideBlock := ⟨_, rfl⟩
  insideSwitch := ⟨_, rfl⟩
  insideCase := ⟨_, rfl⟩
  insideNamespace := ⟨_, rfl⟩

/-- Four lines: a head, an opening brace one level further in, a label and a closing brace, both in
the column of the opening one. -/
def Scene.indentedBraces : Scene where
  files := ⟨[("/a.cc", Text.ofString "head\n    \x7b\n    label:\n    \x7d\n")]⟩
  unit := ⟨Tree.mk (.atStart .translationUnit) [],
    [⟨.keyword, "head", "a.cc", ⟨1, 1⟩, none⟩, ⟨.punctuation, "\x7b", "a.cc", ⟨2, 5⟩, none⟩,
     ⟨.identifier, "label", "a.cc", ⟨3, 5⟩, none⟩, ⟨.punctuation, ":", "a.cc", ⟨3, 10⟩, none⟩,
     ⟨.punctuation, "\x7d", "a.cc", ⟨4, 5⟩, none⟩]⟩
  style := .indentedBraces

/-- The extent of the braces and the head in front of them. -/
def Extent.fourLines : Extent := ⟨some "a.cc", ⟨1, 1⟩, ⟨4, 6⟩⟩

namespace Frame

/-- In a class behind an access label. -/
theorem children_follow_braces_in_class :
    ∃ f : Frame, f.InChain .indentedBraces ∧ f.construct.form = .record ∧ f.marked = true ∧
      Scene.indentedBraces.AcceptsOpening f .fourLines 4 ∧
      (∃ child, f.enterKind .indentedBraces .fieldDecl none = .ok child ∧
        child.levels = .single 12) ∧
      ∀ kind x child, f.enterKind .indentedBraces kind x = .ok child →
        child.flushLeft .indentedBraces = false →
        ∀ column ∈ (f.expects .indentedBraces child).columns.toList, 4 ≤ column := by
  obtain ⟨f, hf, -⟩ :=
    enterKind_of_flags (k := .classDecl) IndentStyle.indentedBraces_hasFlags root (by decide) none
  have hform : f.mark.construct.form = .record := by
    cases hf
    rfl
  have haccept : Scene.indentedBraces.AcceptsOpening f.mark .fourLines 4 := by
    cases hf
    exact ⟨rfl, _, _, rfl, rfl, rfl, by decide +kernel⟩
  have hchain := (InChain.root.enter hf).mark
  obtain ⟨-, ⟨c, hc, hchild⟩, -, -, hleft⟩ :=
    children_follow_braces (k := .classDecl) IndentStyle.indentedBraces_hasFlags (by decide) hchain
      hform rfl
  refine ⟨f.mark, hchain, hform, rfl, haccept, ?_, (hleft _ _ 4 rfl rfl haccept).mpr nofun⟩
  obtain ⟨child, he, hl⟩ := hchild .fieldDecl none (by decide)
  cases hf
  cases hc
  exact ⟨child, he, hl⟩

/-- The brace of a switch statement is accepted in column four, and a case label in the same column
is reported, as it is expected in column zero. -/
theorem case_label_left_of_brace :
    ∃ f label, root.enterKind .indentedBraces .switchStmt none = .ok f ∧
      f.enterKind .indentedBraces .caseStmt none = .ok label ∧
      Scene.indentedBraces.AcceptsOpening f .fourLines 4 ∧ label.levels = .single 0 ∧
      (Scene.indentedBraces.check f label
        (.mk { Node.atStart .caseStmt with extent := ⟨some "a.cc", ⟨3, 5⟩, ⟨3, 11⟩⟩ } [])).notes =
        [⟨"indent.generic", some "a.cc", 3, 5, "Invalid indent. Expecting one of \x7b0\x7d"⟩] :=
  ⟨_, _, rfl, rfl, ⟨rfl, _, _, rfl, rfl, rfl, by decide +kernel⟩, rfl, rfl⟩

end Frame

end StyleCheck
