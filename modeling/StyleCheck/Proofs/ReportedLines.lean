import Mathlib.Data.List.DropRight
import StyleCheck.Display
import StyleCheck.Proofs.Paths
import StyleCheck.TextRule.Basic

/-!
# Reported lines

`TextRule.BrokenAt` says of each rule which lines break it, counted from one. A rule points at lines
(`TextRule.PointsAtLines`) if it comes to its end, reports just the lines that break it, and each of
them is shown with its own text.
-/

namespace StyleCheck

/-- An entry of a list is its head or is in its tail, one place further on. -/
theorem exists_getElem?_cons {α : Type} {P : Nat → α → Prop} {a : α} {l : List α} :
    (∃ i x, (a :: l)[i]? = some x ∧ P i x) ↔ P 0 a ∨ ∃ i x, l[i]? = some x ∧ P (i + 1) x := by
  constructor
  · rintro ⟨_ | i, x, hx, hp⟩
    · rw [List.getElem?_cons_zero, Option.some_inj] at hx
      exact .inl (hx ▸ hp)
    · exact .inr ⟨i, x, hx, hp⟩
  · rintro (hp | ⟨i, x, hx, hp⟩)
    · exact ⟨0, a, rfl, hp⟩
    · exact ⟨i + 1, x, hx, hp⟩

/-! ## Places in a text -/

namespace Text

/-- Whether an offset is behind the first `i` lines and not behind one more. -/
def InLine (ls : List Line) (offset i : Nat) : Prop :=
  ((ls.take i).flatMap Line.full).length ≤ offset ∧
    offset < ((ls.take (i + 1)).flatMap Line.full).length

theorem inLine_cons_zero {l : Line} {ls : List Line} {offset : Nat} :
    InLine (l :: ls) offset 0 ↔ offset < l.full.length := by
  simp [InLine]

theorem inLine_cons_succ {l : Line} {ls : List Line} {offset i : Nat} :
    InLine (l :: ls) offset (i + 1) ↔
      l.full.length ≤ offset ∧ InLine ls (offset - l.full.length) i := by
  simp only [InLine, List.take_succ_cons, List.flatMap_cons, List.length_append]
  omega

/-- A line found by an offset is the one that the offset is in. -/
theorem locateFrom_eq {ls : List Line} : ∀ {offset n m : Nat},
    offset < (ls.flatMap Line.full).length →
    ((locateFrom n ls offset).1 = m ↔ ∃ i, m = n + i ∧ InLine ls offset i) := by
  induction ls with
  | nil =>
    intro offset n m h
    cases h
  | cons l ls ih =>
    intro offset n m h
    rw [locateFrom]
    by_cases hl : offset < l.full.length
    · rw [if_pos hl]
      constructor
      · rintro rfl
        exact ⟨0, rfl, inLine_cons_zero.mpr hl⟩
      · rintro ⟨_ | i, rfl, hi⟩
        · rfl
        · exact absurd (inLine_cons_succ.mp hi).1 (by omega)
    · have hrest : offset - l.full.length < (ls.flatMap Line.full).length := by
        rw [List.flatMap_cons, List.length_append] at h
        omega
      rw [if_neg hl, ih hrest]
      constructor
      · rintro ⟨i, rfl, hi⟩
        exact ⟨i + 1, by omega, inLine_cons_succ.mpr ⟨by omega, hi⟩⟩
      · rintro ⟨_ | i, rfl, hi⟩
        · exact absurd (inLine_cons_zero.mp hi) hl
        · exact ⟨i, by omega, (inLine_cons_succ.mp hi).2⟩

/-- An offset is in a line that there is. -/
theorem InLine.lt {ls : List Line} {offset i : Nat} (h : InLine ls offset i) : i < ls.length := by
  by_contra hi
  obtain ⟨h1, h2⟩ := h
  rw [List.take_of_length_le (by omega)] at h1 h2
  omega

/-- The forms of a text begin in it. -/
theorem formsFrom_offset {skip offset : Nat} {t : Text} {s : Span}
    (h : s ∈ formsFrom skip offset t) : offset ≤ s.offset ∧ s.offset < offset + t.length := by
  fun_induction formsFrom skip offset t with
  | case1 => cases h
  | case2 skip offset b t ih =>
    have := ih h
    rw [List.length_cons]
    omega
  | case3 offset a t n hn ih =>
    rw [List.length_cons]
    rcases List.mem_cons.mp h with rfl | h
    · dsimp only
      omega
    · have := ih h
      omega
  | case4 offset a t hn ih =>
    have := ih h
    rw [List.length_cons]
    omega

theorem locate_eq {t : Text} {s : Span} (h : s ∈ forms t) {m : Nat} :
    (locate t s.offset).1 = m ↔ ∃ i, m = i + 1 ∧ InLine (splitLines t) s.offset i := by
  have hlt : s.offset < ((splitLines t).flatMap Line.full).length := by
    have := formsFrom_offset h
    rw [joinLines_splitLines]
    omega
  rw [locate, locateFrom_eq hlt]
  simp only [Nat.add_comm 1]

theorem trimEnd_ne {t : Text} : trimEnd t ≠ t ↔ ∃ u b, t = u ++ [b] ∧ isBlank b = true := by
  rw [show trimEnd t = t.rdropWhile isBlank from rfl, ne_eq, List.rdropWhile_eq_self_iff]
  push Not
  constructor
  · rintro ⟨ht, hb⟩
    exact ⟨t.dropLast, t.getLast ht, (List.dropLast_append_getLast ht).symm, hb⟩
  · rintro ⟨u, b, rfl, hb⟩
    exact ⟨by simp, by simpa using hb⟩

theorem length_lines (t : Text) : (lines t).length = (splitLines t).length := List.length_map ..

theorem lines_eq_nil {t : Text} : lines t = [] ↔ t = [] := by
  constructor
  · intro h
    rw [← joinLines_splitLines t, List.map_eq_nil_iff.mp h]
    rfl
  · rintro rfl
    rfl

end Text

/-! ## Lines that break a rule -/

namespace TextRule

/-- Line `n` of a text, counted from one, breaks a rule: it is the first that does not fit the
header, ends in a carriage return and a line feed, is the last of a text with no proper end, ends in
a blank, or has the start of a TODO comment of another form in it. -/
def BrokenAt (text : Text) : TextRule → Nat → Prop
  | _, 0 => False
  | header expected, i + 1 =>
    expected.length ≤ (Text.lines text).length ∧
      (∃ h l, expected[i]? = some h ∧ (Text.lines text)[i]? = some l ∧ h.fits l = false) ∧
      ∀ j < i, ∀ h l, expected[j]? = some h → (Text.lines text)[j]? = some l → h.fits l = true
  | unixEndings, i + 1 =>
    ∃ l, (Text.splitLines text)[i]? = some l ∧ l.ending = [Text.carriageReturn, Text.newline]
  | finalNewline allowed, i + 1 =>
    (Text.lines text).length = i + 1 ∧ ∀ a ∈ allowed, ¬ a <:+ text
  | noTrailingBlanks, i + 1 =>
    ∃ l b, (Text.lines text)[i]? = some (l ++ [b]) ∧ Text.isBlank b = true
  | todoForm, i + 1 =>
    ∃ s ∈ Text.forms text, Text.InLine (Text.splitLines text) s.offset i ∧
      ∃ todo, Text.Todo.ofComment? ((text.drop s.offset).take s.length) = some todo ∧
        todo.breach? ≠ none
  | bare, _ => False

variable {text : Text} {r : TextRule} {path : String} {v : Violation}

/-- A line that breaks a rule is a line of the text. -/
theorem BrokenAt.le_length {n : Nat} (h : r.BrokenAt text n) :
    1 ≤ n ∧ n ≤ (Text.lines text).length := by
  cases n with
  | zero => cases r <;> exact h.elim
  | succ i =>
    refine ⟨by omega, ?_⟩
    cases r with
    | header expected =>
      obtain ⟨-, ⟨_, l, -, hl, -⟩, -⟩ := h
      exact (List.getElem?_eq_some_iff.mp hl).1
    | unixEndings =>
      obtain ⟨l, hl, -⟩ := h
      rw [Text.length_lines]
      exact (List.getElem?_eq_some_iff.mp hl).1
    | finalNewline allowed => exact h.1.ge
    | noTrailingBlanks =>
      obtain ⟨l, b, hl, -⟩ := h
      exact (List.getElem?_eq_some_iff.mp hl).1
    | todoForm =>
      obtain ⟨s, -, hs, -⟩ := h
      rw [Text.length_lines]
      exact hs.lt
    | bare => exact h.elim

theorem mem_badEndings {ls : List Text.Line} : ∀ {n : Nat},
    v ∈ badEndings path n ls ↔ ∃ i l, ls[i]? = some l ∧
      (l.ending = [Text.carriageReturn, Text.newline] ∧
        v = ⟨"whitespace.lineending", some path, (n + i : Nat), l.full.length,
          "Line  with CRLF (Windows line ending)"⟩) := by
  induction ls with
  | nil => simp [badEndings]
  | cons l ls ih =>
    intro n
    rw [exists_getElem?_cons, badEndings]
    simp only [Nat.add_zero, Nat.add_comm _ 1, ← Nat.add_assoc]
    split
    · next h => simp only [List.mem_cons, ih, h, true_and]
    · next h => simp only [ih, h, false_and, false_or]

theorem mem_trailingBlanks {ls : List Text} : ∀ {n : Nat},
    v ∈ trailingBlanks path n ls ↔ ∃ i l, ls[i]? = some l ∧
      (Text.trimEnd l ≠ l ∧
        v = ⟨"whitespace.trailing", some path, (n + i : Nat), (Text.trimEnd l).length + 1,
          "Trailing whitespace is not allowed."⟩) := by
  induction ls with
  | nil => simp [trailingBlanks]
  | cons l ls ih =>
    intro n
    rw [exists_getElem?_cons, trailingBlanks]
    simp only [Nat.add_zero, Nat.add_comm _ 1, ← Nat.add_assoc]
    split
    · next h => simp only [List.mem_cons, ih, h, not_false_eq_true, ne_eq, true_and]
    · next h => simp only [ih, h, false_and, false_or]

theorem firstMisfit_eq_some {hs : List HeaderLine} {ls : List Text} : ∀ {n m : Nat},
    firstMisfit n hs ls = some m ↔ ∃ i, m = n + i ∧
      (∃ h l, hs[i]? = some h ∧ ls[i]? = some l ∧ h.fits l = false) ∧
      ∀ j < i, ∀ h l, hs[j]? = some h → ls[j]? = some l → h.fits l = true := by
  intro n m
  fun_induction firstMisfit n hs ls with
  | case1 n h hs l ls hfit ih =>
    rw [ih]
    constructor
    · rintro ⟨i, rfl, hmis, hfits⟩
      refine ⟨i + 1, by omega, hmis, ?_⟩
      rintro (_ | j) hj h' l' hh hl
      · cases hh
        cases hl
        exact hfit
      · exact hfits j (by omega) h' l' hh hl
    · rintro ⟨_ | i, rfl, ⟨h', l', hh, hl, hmis⟩, hfits⟩
      · cases hh
        cases hl
        rw [hfit] at hmis
        cases hmis
      · exact ⟨i, by omega, ⟨h', l', hh, hl, hmis⟩,
          fun j hj => hfits (j + 1) (by omega)⟩
  | case2 n h hs l ls hfit =>
    constructor
    · rintro ⟨⟩
      exact ⟨0, rfl, ⟨h, l, rfl, rfl, by simpa using hfit⟩, fun j hj => by omega⟩
    · rintro ⟨_ | i, rfl, -, hfits⟩
      · rfl
      · exact absurd (hfits 0 (by omega) h l rfl rfl) hfit
  | case3 hs n ls hne =>
    constructor
    · nofun
    · rintro ⟨i, -, ⟨h, l, hh, hl, -⟩, -⟩
      cases hs with
      | nil => cases hh
      | cons h' hs =>
        cases ls with
        | nil => cases hl
        | cons l' ls => exact (hne h' hs l' ls rfl rfl).elim

theorem mem_todoViolations : v ∈ (Text.comments text).filterMap (todoViolation? path) ↔
    ∃ s ∈ Text.forms text, ∃ todo,
      Text.Todo.ofComment? ((text.drop s.offset).take s.length) = some todo ∧
        ∃ said, todo.breach? = some said ∧
          ⟨"whitespace.todo", some path, (Text.locate text s.offset).1,
            (Text.locate text s.offset).2, said⟩ = v := by
  rw [List.mem_filterMap, Text.comments]
  simp only [List.mem_map, exists_exists_and_eq_and, todoViolation?, Text.Comment.ofSpan,
    Option.bind_eq_bind, Option.bind_eq_some_iff, Option.pure_def, Option.some_inj]

variable {file : SourceFile}

/-- Violations are reported in the file that was looked at. -/
theorem file_of_mem_check (h : v ∈ (r.check file).notes) : v.file = some file.path := by
  cases r with
  | header expected =>
    rw [check] at h
    split at h
    · cases h
    · split at h
      · cases List.mem_singleton.mp h
        rfl
      · cases h
  | unixEndings =>
    obtain ⟨i, l, -, -, rfl⟩ := mem_badEndings.mp h
    rfl
  | finalNewline allowed =>
    rw [check] at h
    split at h
    · cases h
    · split at h
      · cases List.mem_singleton.mp h
        rfl
      · cases h
  | noTrailingBlanks =>
    obtain ⟨i, l, -, -, rfl⟩ := mem_trailingBlanks.mp h
    rfl
  | todoForm =>
    obtain ⟨s, -, todo, -, said, -, rfl⟩ := mem_todoViolations.mp h
    rfl
  | bare => cases h

theorem isSuffix_any {allowed : List Text} :
    allowed.any (·.isSuffixOf text) = true ↔ ∃ a ∈ allowed, a <:+ text := by
  simp only [List.any_eq_true, List.isSuffixOf_iff_suffix]

/-- A rule comes to its end unless it looks for the last line of an empty file. -/
theorem check_outcome (hfile : file.lines = Text.lines file.text) (hr : r ≠ .bare) :
    (r.check file).outcome = .ok () ↔
      ∀ allowed, r = .finalNewline allowed → file.text = [] → [] ∈ allowed := by
  cases r with
  | header expected =>
    refine iff_of_true ?_ nofun
    rw [check]
    split
    · rfl
    · split <;> rfl
  | unixEndings => exact iff_of_true rfl nofun
  | finalNewline allowed =>
    simp only [finalNewline.injEq, forall_eq']
    rw [check, hfile]
    by_cases hany : allowed.any (·.isSuffixOf file.text) = true
    · rw [if_pos hany]
      refine iff_of_true rfl fun hnil => ?_
      obtain ⟨a, ha, hsuffix⟩ := isSuffix_any.mp hany
      rw [hnil, List.suffix_nil] at hsuffix
      exact hsuffix ▸ ha
    · rw [if_neg hany]
      cases hlast : (Text.lines file.text).getLast? with
      | some last =>
        refine iff_of_true rfl fun hnil => ?_
        rw [hnil] at hlast
        cases hlast
      | none =>
        have hnil := Text.lines_eq_nil.mp (List.getLast?_eq_none_iff.mp hlast)
        refine iff_of_false nofun fun h => hany (isSuffix_any.mpr ⟨[], h hnil, ?_⟩)
        exact List.nil_suffix
  | noTrailingBlanks => exact iff_of_true rfl nofun
  | todoForm => exact iff_of_true rfl nofun
  | bare => exact absurd rfl hr

/-- Line endings are reported one line above the line that has them. -/
theorem lines_of_unixEndings {n : Int} :
    (∃ v ∈ (unixEndings.check file).notes, v.line = n) ↔
      ∃ i : Nat, n = i ∧ unixEndings.BrokenAt file.text (i + 1) := by
  constructor
  · rintro ⟨v, hv, rfl⟩
    obtain ⟨i, l, hl, hend, rfl⟩ := mem_badEndings.mp hv
    exact ⟨i, by simp, l, hl, hend⟩
  · rintro ⟨i, rfl, l, hl, hend⟩
    exact ⟨_, mem_badEndings.mpr ⟨i, l, hl, hend, rfl⟩, by simp⟩

theorem lines_of_header {expected : List HeaderLine} (hfile : file.lines = Text.lines file.text)
    {n : Int} : (∃ v ∈ ((header expected).check file).notes, v.line = n) ↔
      ∃ m : Nat, n = m ∧ (header expected).BrokenAt file.text m := by
  have hbroken : ∀ m, (header expected).BrokenAt file.text m ↔
      (header expected).tooShort file = false ∧ firstMisfit 1 expected file.lines = some m := by
    intro m
    rw [firstMisfit_eq_some, tooShort, decide_eq_false_iff_not, Nat.not_lt, hfile]
    constructor
    · cases m with
      | zero => exact False.elim
      | succ i =>
        rintro ⟨hlen, hmis, hfits⟩
        exact ⟨hlen, i, Nat.add_comm i 1, hmis, hfits⟩
    · rintro ⟨hlen, i, rfl, hmis, hfits⟩
      rw [Nat.add_comm]
      exact ⟨hlen, hmis, hfits⟩
  simp only [hbroken]
  rw [check]
  cases hshort : (header expected).tooShort file with
  | true => simp
  | false =>
    cases hmis : firstMisfit 1 expected file.lines with
    | none => simp
    | some m => simp [Report.note, eq_comm]

theorem lines_of_finalNewline {allowed : List Text} (hfile : file.lines = Text.lines file.text)
    {n : Int} : (∃ v ∈ ((finalNewline allowed).check file).notes, v.line = n) ↔
      ∃ m : Nat, n = m ∧ (finalNewline allowed).BrokenAt file.text m := by
  have hbroken : ∀ m, (finalNewline allowed).BrokenAt file.text m ↔
      allowed.any (·.isSuffixOf file.text) = false ∧ m = file.lines.length ∧ file.lines ≠ [] := by
    intro m
    rw [← Bool.not_eq_true, isSuffix_any, hfile, ← List.length_pos_iff]
    push Not
    cases m with
    | zero =>
      refine iff_of_false id ?_
      omega
    | succ i =>
      show (_ = _ ∧ _) ↔ _
      rw [and_comm]
      refine and_congr_right fun _ => ?_
      omega
  simp only [hbroken]
  rw [check]
  cases hany : allowed.any (·.isSuffixOf file.text) with
  | true => simp
  | false =>
    cases hlast : file.lines.getLast? with
    | none => simp [List.getLast?_eq_none_iff.mp hlast, Report.giveUp]
    | some last =>
      have hne : file.lines ≠ [] := by
        intro h
        rw [h] at hlast
        cases hlast
      simp [Report.note, hne, eq_comm]

/-- All other rules report the lines that break them. -/
theorem lines_of_check (hfile : file.lines = Text.lines file.text) (hr : r ≠ .unixEndings)
    {n : Int} : (∃ v ∈ (r.check file).notes, v.line = n) ↔
      ∃ m : Nat, n = m ∧ r.BrokenAt file.text m := by
  cases r with
  | header expected => exact lines_of_header hfile
  | unixEndings => exact absurd rfl hr
  | finalNewline allowed => exact lines_of_finalNewline hfile
  | noTrailingBlanks =>
    constructor
    · rintro ⟨v, hv, rfl⟩
      obtain ⟨i, l, hl, hblank, rfl⟩ := mem_trailingBlanks.mp hv
      obtain ⟨u, b, rfl, hb⟩ := Text.trimEnd_ne.mp hblank
      exact ⟨i + 1, by simp [Nat.add_comm], u, b, hfile ▸ hl, hb⟩
    · rintro ⟨_ | i, rfl, h⟩
      · exact h.elim
      · obtain ⟨u, b, hl, hb⟩ := h
        have hblank := Text.trimEnd_ne.mpr ⟨u, b, rfl, hb⟩
        exact ⟨_, mem_trailingBlanks.mpr ⟨i, _, hfile ▸ hl, hblank, rfl⟩, by simp [Nat.add_comm]⟩
  | todoForm =>
    constructor
    · rintro ⟨v, hv, rfl⟩
      obtain ⟨s, hs, todo, htodo, said, hsaid, rfl⟩ := mem_todoViolations.mp hv
      obtain ⟨i, hi, hin⟩ := (Text.locate_eq hs).mp rfl
      exact ⟨i + 1, by rw [← hi], s, hs, hin, todo, htodo, by rw [hsaid]; nofun⟩
    · rintro ⟨_ | i, rfl, h⟩
      · exact h.elim
      · obtain ⟨s, hs, hin, todo, htodo, hne⟩ := h
        obtain ⟨said, hsaid⟩ := Option.ne_none_iff_exists'.mp hne
        refine ⟨_, mem_todoViolations.mpr ⟨s, hs, todo, htodo, said, hsaid, rfl⟩, ?_⟩
        exact congrArg Nat.cast ((Text.locate_eq hs).mpr ⟨i, rfl, hin⟩)
  | bare =>
    refine iff_of_false ?_ ?_
    · rintro ⟨v, hv, -⟩
      cases hv
    · rintro ⟨_ | i, -, h⟩ <;> exact h

end TextRule

/-! ## Lines that are shown -/

/-- A file that was read has its own lines, and is read again under its path. -/
theorem FileSystem.read_eq {files : FileSystem} {name : String} {file : SourceFile}
    (h : files.read name = .ok file) :
    file.lines = Text.lines file.text ∧ files.read file.path = .ok file := by
  obtain ⟨text, ht, rfl⟩ := source_eq_ok.mp h
  refine ⟨rfl, source_eq_ok.mpr ⟨text, ?_, ?_⟩⟩
  · rw [absoluteName_idem, ht]
  · rw [absoluteName_idem]

/-- A violation in a line of its file is shown with this line. -/
theorem Violation.display_line {files : FileSystem} {file : SourceFile} {v : Violation} {l : Text}
    (hread : files.read file.path = .ok file) (hv : v.file = some file.path) (h1 : 1 ≤ v.line)
    (hl : file.lines[(v.line - 1).toNat]? = some l) :
    v.display files true =
      ⟨[Text.ofString v.report, Text.trimEnd l, Text.ofString (caret v.column), []], .ok ()⟩ := by
  have hline : Text.lineAt file.lines v.line = .ok l := by
    unfold Text.lineAt Text.atOffset?
    rw [if_pos (by omega), hl]
  unfold display
  simp only [hv, hread]
  show (Report.note (Text.ofString v.report) >>= fun _ =>
    liftM (Text.lineAt file.lines v.line) >>= _) = _
  rw [hline]
  rfl

/-- A rule comes to its end, reports just the lines that break it, and each of them is shown with
its own text. -/
structure TextRule.PointsAtLines (files : FileSystem) (r : TextRule) (file : SourceFile) :
    Prop where
  returns : (r.check file).outcome = .ok ()
  lines : ∀ n : Int, (∃ v ∈ (r.check file).notes, v.line = n) ↔
    ∃ m : Nat, n = m ∧ r.BrokenAt file.text m
  shown : ∀ v ∈ (r.check file).notes, ∃ l, 1 ≤ v.line ∧ v.line ≤ file.lines.length ∧
    file.lines[(v.line - 1).toNat]? = some l ∧
    v.display files true =
      ⟨[Text.ofString v.report, Text.trimEnd l, Text.ofString (caret v.column), []], .ok ()⟩

namespace TextRule

/-- Rules point at lines, but for two: the rule about line endings where there is a line that breaks
it, since it counts lines from zero, and the rule about the end of a file where the file is empty
and an empty end is not allowed. -/
theorem pointsAtLines_iff {files : FileSystem} {name : String} {file : SourceFile}
    (h : files.read name = .ok file) {r : TextRule} (hr : r ≠ .bare) :
    r.PointsAtLines files file ↔
      (r = .unixEndings → ∀ n, ¬ r.BrokenAt file.text n) ∧
        ∀ allowed, r = .finalNewline allowed → file.text = [] → [] ∈ allowed := by
  obtain ⟨hfile, hread⟩ := FileSystem.read_eq h
  constructor
  · intro hp
    refine ⟨?_, (check_outcome hfile hr).mp hp.returns⟩
    rintro rfl n
    induction n with
    | zero => exact id
    | succ i ih =>
      -- the line above would break the rule too
      intro hi
      obtain ⟨m, hm, hbroken⟩ := (hp.lines i).mp (lines_of_unixEndings.mpr ⟨i, rfl, hi⟩)
      exact ih (Int.ofNat.inj hm ▸ hbroken)
  · rintro ⟨hunix, hempty⟩
    have hlines : ∀ n : Int, (∃ v ∈ (r.check file).notes, v.line = n) ↔
        ∃ m : Nat, n = m ∧ r.BrokenAt file.text m := by
      intro n
      by_cases hu : r = .unixEndings
      · have hnone := hunix hu
        subst hu
        rw [lines_of_unixEndings]
        refine iff_of_false ?_ ?_
        · rintro ⟨i, -, hi⟩
          exact hnone _ hi
        · rintro ⟨m, -, hm⟩
          exact hnone _ hm
      · exact lines_of_check hfile hu
    refine ⟨(check_outcome hfile hr).mpr hempty, hlines, fun v hv => ?_⟩
    obtain ⟨m, hm, hbroken⟩ := (hlines v.line).mp ⟨v, hv, rfl⟩
    obtain ⟨h1, h2⟩ := hbroken.le_length
    rw [← hfile] at h2
    have hget : file.lines[(v.line - 1).toNat]? = some file.lines[m - 1] := by
      rw [hm, show ((m : Int) - 1).toNat = m - 1 by omega]
      exact List.getElem?_eq_getElem _
    refine ⟨_, by omega, by omega, hget, ?_⟩
    exact Violation.display_line hread (file_of_mem_check hv) (by omega) hget

def commentFile : FileSystem := ⟨[("/a.cc", Text.ofString "x \r// TODO: y\n")]⟩

/-- A comment behind a carriage return is in the second line, and shown with it. -/
theorem pointsAtLines_comment :
    ∃ file, commentFile.read "a.cc" = .ok file ∧ todoForm ≠ bare ∧
      todoForm.PointsAtLines commentFile file ∧
      (todoForm.check file).notes.map (·.line) = [2] := by
  have hread : commentFile.read "a.cc" = .ok _ := rfl
  have hr : todoForm ≠ bare := by decide
  exact ⟨_, hread, hr, (pointsAtLines_iff hread hr).mpr ⟨nofun, nofun⟩, by decide +kernel⟩

def twoLines : FileSystem := ⟨[("/a.cc", Text.ofString "x\r\ny\n"), ("/b.cc", [])]⟩

/-- The first line has the wrong ending, and the last one is shown for it. An empty file has no last
line to report. -/
theorem misses_lines :
    (∃ file v, twoLines.read "a.cc" = .ok file ∧ (unixEndings.check file).notes = [v] ∧
      unixEndings.BrokenAt file.text 1 ∧ v.line = 0 ∧
      (v.display twoLines true).notes = [v.report, "y", "  ^", ""].map Text.ofString) ∧
    ∃ file, twoLines.read "b.cc" = .ok file ∧
      ((endsIn []).check file).outcome = .error .entryOutOfRange := by
  refine ⟨⟨_, _, rfl, rfl, ⟨_, rfl, rfl⟩, rfl, ?_⟩, _, rfl, rfl⟩
  decide +kernel

end TextRule

end StyleCheck
