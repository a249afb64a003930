import Mathlib.Algebra.Order.Group.Int
import Mathlib.Order.Bounds.Defs
import StyleCheck.Text.Column

/-!
# Tab stops

On a screen a tab goes on to the next column that is a multiple of the tab width (`nextStop`), and
every other byte takes one column (`displayColumn`). `expandedWidth` adds the next multiple to the
width in place of going on to it. So it never falls short of the column on the screen, and it is
this column just if no tab has a byte in front of it (`expandedWidth_eq_displayColumn_iff`). A text
with spaces for its tabs (`untab`) always has the width it is shown with.
-/

namespace StyleCheck.Text

variable {w c d : Int} {b : UInt8} {t : Text} {n : Nat}

/-! ## Columns on a screen -/

/-- The next multiple of the tab width behind a column. -/
def nextStop (tabSize column : Int) : Int := tabSize * (column / tabSize + 1)

/-- The column behind one more byte. -/
def showByte (tabSize column : Int) (b : UInt8) : Int :=
  if b = tab then nextStop tabSize column else column + 1

/-- The column behind a text that starts its line. -/
def displayColumn (tabSize : Int) (t : Text) : Int := t.foldl (showByte tabSize) 0

/-- A text that starts in a column, with as many spaces in place of each tab as it is wide. -/
def untabFrom (tabSize : Int) : (column : Int) → Text → Text
  | _, [] => []
  | column, b :: t =>
    if b = tab then
      List.replicate (nextStop tabSize column - column).toNat 0x20 ++
        untabFrom tabSize (nextStop tabSize column) t
    else b :: untabFrom tabSize (column + 1) t

def untab (tabSize : Int) (t : Text) : Text := untabFrom tabSize 0 t

theorem nextStop_isLeast (hw : 0 < w) (c : Int) :
    IsLeast {m | w ∣ m ∧ c < m} (nextStop w c) := by
  refine ⟨⟨Int.dvd_mul_right w _, ?_⟩, ?_⟩
  · rw [nextStop, Int.mul_add, Int.mul_one]
    exact Int.lt_mul_ediv_self_add hw
  · rintro m ⟨⟨q, rfl⟩, hq⟩
    have hlt : c / w < q := Int.ediv_lt_of_lt_mul hw (by rwa [Int.mul_comm])
    exact Int.mul_le_mul_of_nonneg_left (by omega) hw.le

theorem lt_nextStop (hw : 0 < w) (c : Int) : c < nextStop w c := (nextStop_isLeast hw c).1.2

theorem nextStop_mono (hw : 0 < w) (h : c ≤ d) : nextStop w c ≤ nextStop w d :=
  (nextStop_isLeast hw c).2 ⟨(nextStop_isLeast hw d).1.1, h.trans_lt (lt_nextStop hw d)⟩

theorem lt_showByte (hw : 0 < w) (c : Int) (b : UInt8) : c < showByte w c b := by
  unfold showByte
  split
  · exact lt_nextStop hw c
  · omega

theorem foldl_showByte_of_no_tab (h : tab ∉ t) : t.foldl (showByte w) c = c + t.length := by
  induction t generalizing c with
  | nil => simp
  | cons b t ih =>
    rw [List.mem_cons, not_or] at h
    rw [List.foldl_cons, ih h.2, showByte, if_neg (Ne.symm h.1), List.length_cons]
    omega

theorem tab_not_mem_untabFrom : tab ∉ untabFrom w c t := by
  induction t generalizing c with
  | nil => exact List.not_mem_nil
  | cons b t ih =>
    unfold untabFrom
    split
    · rw [List.mem_append, not_or]
      exact ⟨fun h => absurd (List.eq_of_mem_replicate h) (by decide), ih⟩
    · next hb =>
      rw [List.mem_cons, not_or]
      exact ⟨Ne.symm hb, ih⟩

/-- Spaces for tabs are as many columns as are shown. -/
theorem length_untabFrom (hw : 0 < w) (c : Int) (t : Text) :
    c + (untabFrom w c t).length = t.foldl (showByte w) c := by
  induction t generalizing c with
  | nil => simp [untabFrom]
  | cons b t ih =>
    rw [List.foldl_cons, ← ih, untabFrom, showByte]
    split
    · have := lt_nextStop hw c
      rw [List.length_append, List.length_replicate]
      omega
    · rw [List.length_cons]
      omega

/-! ## Widths -/

/-- The width with one more byte. -/
def widen (tabSize width : Int) (b : UInt8) : Int :=
  if b = tab then width + tabStep tabSize width else width + 1

/-- The width of a text. -/
def width (tabSize : Int) (t : Text) : Int := t.foldl (widen tabSize) 0

theorem widthFrom_eq (hw : w ≠ 0) (hn : n ≤ t.length) :
    widthFrom w c t n = .ok ((t.take n).foldl (widen w) c) := by
  induction t generalizing c n with
  | nil =>
    cases Nat.le_zero.mp hn
    rfl
  | cons b t ih =>
    cases n with
    | zero => rfl
    | succ n =>
      have hn' : n ≤ t.length := Nat.le_of_succ_le_succ hn
      rw [widthFrom, List.take_succ_cons, List.foldl_cons, widen, if_neg hw]
      split <;> exact ih hn'

/-- Inside its line, every place has a width. -/
theorem expandedWidth_eq (hw : 0 < w) (hn : n ≤ t.length) :
    expandedWidth t n w = .ok (width w (t.take n)) := by
  rw [expandedWidth, Int.toNat_natCast, widthFrom_eq (by omega) hn]
  rfl

theorem tabStep_eq_nextStop (hw : 0 < w) (c : Int) : tabStep w c = nextStop w c := by
  rw [tabStep, nextStop, Int.fdiv_eq_ediv_of_nonneg c hw.le, Int.mul_comm]

theorem lt_widen (hw : 0 < w) (hc : 0 ≤ c) (b : UInt8) : c < widen w c b := by
  unfold widen
  rw [tabStep_eq_nextStop hw]
  have := lt_nextStop hw c
  split <;> omega

theorem widen_of_ne (hb : b ≠ tab) : widen w c b = showByte w c b := by
  rw [widen, showByte, if_neg hb, if_neg hb]

/-- A text that is ahead of the screen stays ahead of it. -/
theorem foldl_showByte_lt (hw : 0 < w) (hc : 0 ≤ c) (h : c < d) :
    t.foldl (showByte w) c < t.foldl (widen w) d := by
  induction t generalizing c d with
  | nil => exact h
  | cons b t ih =>
    refine ih (hc.trans (lt_showByte hw c b).le) ?_
    unfold showByte widen
    rw [tabStep_eq_nextStop hw]
    have := nextStop_mono hw h.le
    split <;> omega

/-- Behind the start of the line, the first tab is where a width gets ahead of the screen. -/
theorem foldl_widen_eq_iff (hw : 0 < w) (hc : 0 < c) :
    t.foldl (showByte w) c ≤ t.foldl (widen w) c ∧
      (t.foldl (widen w) c = t.foldl (showByte w) c ↔ tab ∉ t) := by
  induction t generalizing c with
  | nil => simp
  | cons b t ih =>
    rw [List.foldl_cons, List.foldl_cons, List.mem_cons, not_or]
    by_cases hb : b = tab
    · have hahead : showByte w c b < widen w c b := by
        rw [showByte, widen, if_pos hb, if_pos hb, tabStep_eq_nextStop hw]
        omega
      have hlt := foldl_showByte_lt (t := t) hw (hc.trans (lt_showByte hw c b)).le hahead
      exact ⟨hlt.le, iff_of_false hlt.ne' fun h => h.1 hb.symm⟩
    · obtain ⟨hle, hiff⟩ := ih (hc.trans (lt_showByte hw c b))
      rw [widen_of_ne hb]
      exact ⟨hle, hiff.trans (and_iff_right (Ne.symm hb)).symm⟩

theorem width_eq_displayColumn_iff (hw : 0 < w) (t : Text) :
    displayColumn w t ≤ width w t ∧ (width w t = displayColumn w t ↔ tab ∉ t.tail) := by
  cases t with
  | nil => simp [displayColumn, width]
  | cons b t =>
    -- the first byte takes the same columns in both, a tab too
    have hfirst : widen w 0 b = showByte w 0 b := by
      rw [widen, showByte, tabStep_eq_nextStop hw, Int.zero_add, Int.zero_add]
    rw [displayColumn, width, List.foldl_cons, List.foldl_cons, hfirst]
    exact foldl_widen_eq_iff hw (lt_showByte hw 0 b)

theorem width_untab (hw : 0 < w) (t : Text) : width w (untab w t) = displayColumn w t := by
  have htab : tab ∉ untab w t := tab_not_mem_untabFrom
  rw [(width_eq_displayColumn_iff hw _).2.mpr fun h => htab (List.mem_of_mem_tail h),
    displayColumn, foldl_showByte_of_no_tab htab, untab, length_untabFrom hw]
  rfl

/-- The first bytes of a line have a width. It is at least the column that they reach on a screen,
and it is this column if no tab is among them but as the first byte, and else not. With spaces for
the tabs, the width is the column on the screen. -/
theorem expandedWidth_eq_displayColumn_iff (hw : 1 ≤ w) (hn : n ≤ t.length) :
    ∃ c, expandedWidth t n w = .ok c ∧ displayColumn w (t.take n) ≤ c ∧
      (c = displayColumn w (t.take n) ↔ tab ∉ (t.take n).tail) ∧
      expandedWidth (untab w (t.take n) ++ t.drop n) (untab w (t.take n)).length w =
        .ok (displayColumn w (t.take n)) := by
  obtain ⟨hle, hiff⟩ := width_eq_displayColumn_iff hw (t.take n)
  refine ⟨_, expandedWidth_eq hw hn, hle, hiff, ?_⟩
  rw [expandedWidth_eq hw (by simp), List.take_left, width_untab hw]

/-- A tab and two spaces. -/
theorem expandedWidth_eq_displayColumn_iff_one_tab :
    expandedWidth [tab, 0x20, 0x20, 0x78] 3 4 = .ok (displayColumn 4 [tab, 0x20, 0x20]) := by
  obtain ⟨c, hc, -, hiff, -⟩ := expandedWidth_eq_displayColumn_iff (w := 4) (n := 3)
    (t := [tab, 0x20, 0x20, 0x78]) (by decide) (by decide)
  exact hc.trans (congrArg Except.ok (hiff.mpr (by decide)))

/-- A tab behind another one makes a width of twelve where the screen shows eight, and one behind a
space a width of five where the screen shows four. -/
theorem expandedWidth_ahead_of_screen :
    expandedWidth [tab, tab] 2 4 = .ok 12 ∧ displayColumn 4 [tab, tab] = 8 ∧
      expandedWidth [0x20, tab] 2 4 = .ok 5 ∧ displayColumn 4 [0x20, tab] = 4 :=
  ⟨rfl, rfl, rfl, rfl⟩

end StyleCheck.Text
