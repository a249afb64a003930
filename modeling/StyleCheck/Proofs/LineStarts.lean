import StyleCheck.Indent.Finding
import StyleCheck.Proofs.TabStops

/-!
# Where lines start

A line starts with its first ink (`Text.StartsAt`). The rules look for the start of a line by
comparing widths, and every byte makes a line wider, a tab too, so that each place on a line has a
width of its own (`Text.width_take_inj`). Hence a construct starts its line for the rules just if
it stands where the line starts, and only then its column is held to the levels
(`Scene.checkStart_reports_iff`).
-/

namespace StyleCheck

namespace Text

variable {line : Text} {i : Nat}

/-- A line starts at its first ink. A line of blanks starts at the last of them, and one without
any byte at zero. -/
inductive StartsAt : Text → Nat → Prop
  | ink {blanks rest : Text} {b : UInt8} :
    (∀ x ∈ blanks, isBlank x = true) → isBlank b = false →
      StartsAt (blanks ++ b :: rest) blanks.length
  | blank {blanks : Text} {b : UInt8} :
    (∀ x ∈ blanks ++ [b], isBlank x = true) → StartsAt (blanks ++ [b]) blanks.length
  | empty : StartsAt [] 0

theorem findIdx?_ink_eq_none {t : Text} :
    t.findIdx? (fun b => !isBlank b) = none ↔ ∀ x ∈ t, isBlank x = true := by
  simp [List.findIdx?_eq_none_iff]

theorem startsAt_inkStart (t : Text) : StartsAt t (inkStart t) := by
  unfold inkStart
  cases h : t.findIdx? (fun b => !isBlank b) with
  | some i =>
    obtain ⟨hi, hink, hbefore⟩ := List.findIdx?_eq_some_iff_getElem.mp h
    have hsplit : t = t.take i ++ t[i] :: t.drop (i + 1) := by
      rw [List.getElem_cons_drop, List.take_append_drop]
    have hblanks : ∀ x ∈ t.take i, isBlank x = true := by
      intro x hx
      obtain ⟨j, hj, rfl⟩ := List.mem_take_iff_getElem.mp hx
      simpa using hbefore j (by omega)
    have hstart : StartsAt (t.take i ++ t[i] :: t.drop (i + 1)) (t.take i).length :=
      .ink hblanks (by simpa using hink)
    rwa [← hsplit, List.length_take_of_le hi.le] at hstart
  | none =>
    have hblanks := findIdx?_ink_eq_none.mp h
    rcases List.eq_nil_or_concat t with rfl | ⟨blanks, b, rfl⟩
    · exact .empty
    · rw [List.concat_eq_append] at hblanks ⊢
      simpa using StartsAt.blank hblanks

/-- A line starts at one offset. -/
theorem startsAt_iff : StartsAt line i ↔ i = inkStart line := by
  constructor
  · intro h
    unfold inkStart
    cases h with
    | @ink blanks rest b hblanks hb =>
      rw [List.findIdx?_append, findIdx?_ink_eq_none.mpr hblanks]
      simp [List.findIdx?_cons, hb]
    | @blank blanks b hblanks =>
      rw [findIdx?_ink_eq_none.mpr hblanks]
      simp
    | empty => rfl
  · rintro rfl
    exact startsAt_inkStart line

instance : Decidable (StartsAt line i) := decidable_of_iff _ startsAt_iff.symm

theorem StartsAt.le_length (h : StartsAt line i) : i ≤ line.length := by
  cases h <;> simp

/-- Nothing but blanks stands in front of the start of a line. -/
theorem StartsAt.blank_of_mem_take (h : StartsAt line i) : ∀ x ∈ line.take i, isBlank x = true := by
  intro x hx
  cases h with
  | ink hblanks => exact hblanks x (by simpa using hx)
  | blank hblanks => exact hblanks x (List.mem_of_mem_take hx)
  | empty => cases hx

variable {w : Int}

theorem add_length_le_foldl_widen (hw : 0 < w) {c : Int} (hc : 0 ≤ c) (t : Text) :
    c + t.length ≤ t.foldl (widen w) c := by
  induction t generalizing c with
  | nil => simp
  | cons b t ih =>
    have hwider := lt_widen hw hc b
    have hrest := ih (hc.trans hwider.le)
    rw [List.length_cons, List.foldl_cons]
    omega

/-- Every byte makes a line wider. -/
theorem width_take_lt (hw : 0 < w) {m n : Nat} (hmn : m < n) (hn : n ≤ line.length) :
    width w (line.take m) < width w (line.take n) := by
  have hsplit : line.take n = line.take m ++ (line.drop m).take (n - m) := by
    rw [← List.take_add, Nat.add_sub_cancel' hmn.le]
  have hnonneg : 0 ≤ width w (line.take m) := by
    have := add_length_le_foldl_widen hw (c := 0) (by omega) (line.take m)
    unfold width
    omega
  have hwider := add_length_le_foldl_widen hw hnonneg ((line.drop m).take (n - m))
  rw [List.length_take_of_le (by rw [List.length_drop]; omega)] at hwider
  have hwidth : width w (line.take n) =
      ((line.drop m).take (n - m)).foldl (widen w) (width w (line.take m)) := by
    rw [hsplit, width, List.foldl_append, width]
  omega

/-- Each place on a line has a width of its own. -/
theorem width_take_inj (hw : 0 < w) {m n : Nat} (hm : m ≤ line.length) (hn : n ≤ line.length) :
    width w (line.take m) = width w (line.take n) ↔ m = n := by
  refine ⟨fun h => ?_, fun h => by rw [h]⟩
  rcases Nat.lt_trichotomy m n with hlt | heq | hlt
  · exact absurd h (width_take_lt hw hlt hn).ne
  · exact heq
  · exact absurd h (width_take_lt hw hlt hm).ne'

end Text

namespace Scene

variable {s : Scene} {e : Extent} {file : String} {line : Text} {i : Nat}

/-- The complaint about a construct that starts in none of its levels. -/
def misindented (f : Frame) (e : Extent) (offset : Int) : Violation :=
  ⟨"indent.generic", e.file, e.start.line, e.start.column,
    "Invalid indent. Expecting one of \x7b" ++ (f.levels.shift offset).listing ++ "\x7d"⟩

theorem checkStart_of_startsLine {column : Int} {starts : Bool}
    (hstarts : s.startsLine e = .ok starts) (hcolumn : s.column e = .ok column) (f : Frame)
    (offset : Int) :
    s.checkStart f e offset =
      if starts && !(f.levels.shift offset).accepts column then .note (misindented f e offset)
      else pure () := by
  unfold checkStart
  rw [hstarts, hcolumn]
  cases starts <;> rfl

section

variable (htab : 1 ≤ s.style.tabSize) (hfile : e.file = some file)
  (hline : s.line file e.start.line = .ok line) (hplace : e.start.column = i + 1)
  (hi : i ≤ line.length)

include htab hfile hline

theorem lineStart_eq :
    s.lineStart e = .ok (Text.width s.style.tabSize (line.take (Text.inkStart line))) := by
  have hle := (Text.startsAt_inkStart line).le_length
  simp only [lineStart, hfile, hline]
  exact Text.expandedWidth_eq htab hle

include hplace hi

theorem column_eq : s.column e = .ok (Text.width s.style.tabSize (line.take i)) := by
  have hi' : e.start.column - 1 = (i : Int) := by omega
  simp only [column, hfile, hline, hi']
  exact Text.expandedWidth_eq htab hi

theorem startsLine_eq : s.startsLine e = .ok (decide (line.StartsAt i)) := by
  have hle := (Text.startsAt_inkStart line).le_length
  rw [startsLine, lineStart_eq htab hfile hline, column_eq htab hfile hline hplace hi]
  refine congrArg Except.ok ?_
  rw [Bool.eq_iff_iff, beq_iff_eq, decide_eq_true_iff, Text.width_take_inj htab hle hi,
    Text.startsAt_iff, eq_comm]

end

/-- A construct on a line of a file starts this line for the rules just if it stands where the line
starts. It is reported, once, if it does and its column is none of its levels, and else not; so it
is not reported if anything but blanks stands in front of it. -/
theorem checkStart_reports_iff (htab : 1 ≤ s.style.tabSize) (hfile : e.file = some file)
    (hline : s.line file e.start.line = .ok line) (hplace : e.start.column = i + 1)
    (hi : i ≤ line.length) :
    s.startsLine e = .ok (decide (line.StartsAt i)) ∧
    ∃ column, s.column e = .ok column ∧ ∀ (f : Frame) (offset : Int),
      s.checkStart f e offset =
        (if line.StartsAt i ∧ ∀ a ∈ f.levels.columns.toList, column ≠ a + offset then
          .note (misindented f e offset)
        else pure ()) ∧
      ((∃ b ∈ line.take i, Text.isBlank b = false) → s.checkStart f e offset = pure ()) := by
  have hstarts := startsLine_eq htab hfile hline hplace hi
  have hcolumn := column_eq htab hfile hline hplace hi
  refine ⟨hstarts, _, hcolumn, fun f offset => ?_⟩
  have hcheck := checkStart_of_startsLine hstarts hcolumn f offset
  have hreport : (decide (line.StartsAt i) &&
        !(f.levels.shift offset).accepts (Text.width s.style.tabSize (line.take i))) = true ↔
      line.StartsAt i ∧ ∀ a ∈ f.levels.columns.toList,
        Text.width s.style.tabSize (line.take i) ≠ a + offset := by
    rw [Bool.and_eq_true, decide_eq_true_iff, Bool.not_eq_true', ← Bool.not_eq_true,
      Levels.accepts_shift]
    simp
  simp only [hreport] at hcheck
  refine ⟨hcheck, ?_⟩
  rintro ⟨b, hb, hink⟩
  rw [hcheck, if_neg]
  rintro ⟨hstart, -⟩
  rw [hstart.blank_of_mem_take b hb] at hink
  cases hink

/-- A unit of one file, with its tokens and no construct. -/
def ofFile (text : String) (tokens : List Token) (style : IndentStyle) : Scene where
  files := ⟨[("/a.cc", Text.ofString text)]⟩
  unit := ⟨.mk ⟨0, .ok .translationUnit, none, ⟨0, 0⟩, ⟨none, ⟨0, 0⟩, ⟨0, 0⟩⟩, false⟩ [], tokens⟩
  style := style

/-- Two statements behind a space and a tab: the first is reported, the second is not. -/
theorem checkStart_reports_iff_behind_tab :
    (ofFile " \tx;y;\n" [] .standard).checkStart .root ⟨some "a.cc", ⟨1, 3⟩, ⟨1, 4⟩⟩ 0 =
      .note ⟨"indent.generic", some "a.cc", 1, 3, "Invalid indent. Expecting one of \x7b0\x7d"⟩ ∧
    (ofFile " \tx;y;\n" [] .standard).checkStart .root ⟨some "a.cc", ⟨1, 5⟩, ⟨1, 6⟩⟩ 0 =
      pure () := by
  have hline : (ofFile " \tx;y;\n" [] .standard).line "a.cc" 1 =
      .ok [0x20, Text.tab, 0x78, 0x3B, 0x79, 0x3B] := rfl
  obtain ⟨-, column, hcolumn, hx⟩ := checkStart_reports_iff (i := 2)
    (e := ⟨some "a.cc", ⟨1, 3⟩, ⟨1, 4⟩⟩) (by decide +kernel) rfl hline rfl (by decide)
  obtain ⟨-, _, -, hy⟩ := checkStart_reports_iff (i := 4)
    (e := ⟨some "a.cc", ⟨1, 5⟩, ⟨1, 6⟩⟩) (by decide +kernel) rfl hline rfl (by decide)
  cases hcolumn
  exact ⟨(hx .root 0).1.trans (if_pos (by decide)), (hy .root 0).2 ⟨0x78, by decide, rfl⟩⟩

end Scene

end StyleCheck
