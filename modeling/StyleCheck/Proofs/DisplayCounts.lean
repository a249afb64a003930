import StyleCheck.Proofs.SeenFiles
import StyleCheck.Proofs.SuppressedLines

/-!
# What a display counts

Of the violations that an audit found, some are skipped, since their rule is ignored, some are
hidden, since their line is suppressed, and the others are shown. The summary counts the hidden ones
as displayed, and the status counts them all. So the summary is right if nothing is hidden, and the
status if something is shown or nothing was found (`Audit.run_counts`).
-/

namespace StyleCheck

variable {files : FileSystem} {o : DisplayOptions} {v : Violation}

/-! ## What is printed -/

/-- What is printed below the report of a violation: nothing, if it is in no file. -/
def Violation.below (files : FileSystem) (showSource : Bool) (v : Violation) : List Text :=
  match v.file with
  | none => []
  | some name =>
    match files.line name v.line with
    | .ok line => v.source showSource line
    | .error _ => []

/-- A violation is displayed by its report and what comes below. -/
theorem Violation.display_notes (files : FileSystem) (showSource : Bool) (v : Violation) :
    (v.display files showSource).notes = Text.ofString v.report :: v.below files showSource := by
  rw [display_eq, below]
  cases v.file with
  | none => rfl
  | some name =>
    dsimp only
    cases files.line name v.line <;> rfl

namespace DisplayOptions

/-- Whether a violation is on a suppressed line, and this counts. -/
def hides (o : DisplayOptions) (files : FileSystem) (v : Violation) : Bool :=
  !o.ignoreSuppressions &&
    match files.suppresses v.file v.line with
    | .ok suppressed => suppressed
    | .error _ => false

end DisplayOptions

/-- A violation that can be displayed is, unless it is hidden. -/
theorem Violation.displayUnlessSuppressed_eq
    (h : (v.displayUnlessSuppressed files o).outcome = .ok ()) :
    v.displayUnlessSuppressed files o =
      if o.hides files v then pure () else v.display files o.showSource := by
  unfold displayUnlessSuppressed at h ⊢
  unfold DisplayOptions.hides
  cases hi : o.ignoreSuppressions with
  | true => rfl
  | false =>
    simp only [hi, Bool.false_eq_true, if_false] at h ⊢
    cases hs : files.suppresses v.file v.line with
    | error e =>
      rw [hs] at h
      cases h
    | ok suppressed => rfl

theorem Violation.displayUnlessSuppressed_notes
    (h : (v.displayUnlessSuppressed files o).outcome = .ok ()) :
    (v.displayUnlessSuppressed files o).notes =
      if o.hides files v then [] else Text.ofString v.report :: v.below files o.showSource := by
  rw [displayUnlessSuppressed_eq h]
  cases o.hides files v with
  | true => rfl
  | false => exact v.display_notes files o.showSource

/-- One violation after the other is printed, but for the hidden ones. -/
theorem displayEach_notes : ∀ {vs : List Violation}, (displayEach files o vs).outcome = .ok () →
    (displayEach files o vs).notes =
      (vs.filter fun v => !o.hides files v).flatMap fun v =>
        Text.ofString v.report :: v.below files o.showSource
  | [], _ => rfl
  | v :: vs, h => by
    rw [displayEach] at h ⊢
    obtain ⟨⟨⟩, hv, hvs⟩ := Report.bind_outcome_eq_ok.mp h
    rw [Report.bind_notes_of_ok hv, Violation.displayUnlessSuppressed_notes hv,
      displayEach_notes hvs]
    cases hh : o.hides files v with
    | true => rw [List.filter_cons_of_neg (by simp [hh])]; rfl
    | false => rw [List.filter_cons_of_pos (by simp [hh]), List.flatMap_cons]; rfl

/-! ## What is counted -/

namespace DisplayOptions

/-- The violations that are printed. -/
def shown (o : DisplayOptions) (files : FileSystem) (vs : List Violation) : List Violation :=
  vs.filter fun v => !o.hides files v && !o.skips v

/-- The violations that are left out because of their line alone. -/
def hidden (o : DisplayOptions) (files : FileSystem) (vs : List Violation) : List Violation :=
  vs.filter fun v => o.hides files v && !o.skips v

/-- The violations that are left out because of their rule. -/
def skipped (o : DisplayOptions) (vs : List Violation) : List Violation := vs.filter o.skips

theorem length_unskipped (o : DisplayOptions) (files : FileSystem) (vs : List Violation) :
    (vs.filter fun v => !o.skips v).length =
      (o.shown files vs).length + (o.hidden files vs).length := by
  rw [List.length_eq_length_filter_add (o.hides files), List.filter_filter, List.filter_filter,
    Nat.add_comm]
  rfl

theorem length_found (o : DisplayOptions) (files : FileSystem) (vs : List Violation) :
    vs.length = (o.shown files vs).length + (o.hidden files vs).length + (o.skipped vs).length := by
  rw [← o.length_unskipped files vs, Nat.add_comm]
  exact List.length_eq_length_filter_add o.skips

end DisplayOptions

theorem summary_eq (o : DisplayOptions) (files : FileSystem) (vs : List Violation) :
    summary o vs = "Displayed " ++ toString ((o.shown files vs).length + (o.hidden files vs).length)
      ++ " violations, skipped " ++ toString (o.skipped vs).length ++ "." := by
  rw [← o.length_unskipped files vs]
  rfl

/-- A set is displayed by the violations that are shown, and a summary. -/
theorem ViolationSet.display_notes {s : ViolationSet} (h : (display files o s).outcome = .ok ()) :
    (display files o s).notes =
      ((o.shown files s.toList).flatMap fun v =>
        Text.ofString v.report :: v.below files o.showSource) ++
        [Text.ofString (summary o s.toList)] := by
  rw [display] at h ⊢
  obtain ⟨⟨⟩, heach, -⟩ := Report.bind_outcome_eq_ok.mp h
  rw [Report.bind_notes_of_ok heach, displayEach_notes heach, List.filter_filter]
  rfl

namespace Audit

variable {units : Units} {dirs : List String} {a : Audit}

theorem walkUnit_printed (a : Audit) (name : String) :
    (a.walkUnit files units dirs name).printed = a.printed := by
  unfold walkUnit
  split
  · rfl
  · split
    · rfl
    · dsimp only
      split <;> rfl

theorem walkUnits_printed (names : List String) : ∀ a : Audit,
    (names.foldl (walkUnit files units dirs) a).printed = a.printed := by
  induction names with
  | nil => intro a; rfl
  | cons name names ih =>
    intro a
    rw [List.foldl_cons, ih, walkUnit_printed]

theorem checkFile_printed (a : Audit) (name : String) :
    (a.checkFile files name).printed = a.printed := by
  unfold checkFile
  dsimp only
  split
  · rfl
  · split <;> rfl

theorem checkFiles_printed (names : List String) : ∀ (f : VisitFilter) (a : Audit),
    (checkFiles files f a names).printed = a.printed := by
  induction names with
  | nil => intro f a; rfl
  | cons name names ih =>
    intro f a
    rw [checkFiles]
    split
    · rfl
    · split
      · rfl
      · exact ih _ a
      · rw [ih, checkFile_printed]

/-- An audit that returns has printed its display, and nothing else. -/
theorem run_printed {o : AuditOptions} {names : List String}
    (h : (a.run files units o names).fault = none) :
    (ViolationSet.display files o.display (a.run files units o names).violations).outcome = .ok () ∧
      (a.run files units o names).printed = a.printed ++
        (ViolationSet.display files o.display (a.run files units o names).violations).notes := by
  let walked := names.foldl (walkUnit files units o.includeDirs) (a.tell .started none)
  have hprinted : (checkFiles files (.ofDirs o.includeDirs) walked walked.seen.toList).printed =
      a.printed := by
    rw [checkFiles_printed, walkUnits_printed]
    rfl
  simp only [run] at h ⊢
  generalize checkFiles files (.ofDirs o.includeDirs) _ _ = c at h hprinted ⊢
  cases hc : c.fault with
  | some e => simp [hc] at h
  | none =>
    simp only [hc, Option.isSome_none, Bool.false_eq_true, if_false] at h ⊢
    refine ⟨Report.fault?_eq_none.mp h, ?_⟩
    show c.printed ++ _ = _
    rw [hprinted]
    rfl

theorem status_eq_zero (a : Audit) : a.status = 0 ↔ a.violations.toList = [] := by
  rw [status, ← List.length_eq_zero_iff, OrdSet.size]
  split <;> simp [*]

/-- An audit that returns prints the violations that are shown, in order, and a summary. The summary
counts those that are hidden as displayed, so that its numbers are right just if none are. The
status is zero if nothing was found, so that it tells whether something was printed unless all that
was found is skipped or hidden. -/
theorem run_counts {o : AuditOptions} {trees : List TreeCheck} {texts : List TextRule}
    {names : List String} (h : ((new trees texts).run files units o names).fault = none) :
    let a := (new trees texts).run files units o names
    let found := a.violations.toList
    let shown := o.display.shown files found
    let hidden := o.display.hidden files found
    let skipped := o.display.skipped found
    (∃ n m : Nat,
      a.printed = (shown.flatMap fun v =>
        Text.ofString v.report :: v.below files o.display.showSource) ++
        [Text.ofString <|
          "Displayed " ++ toString n ++ " violations, skipped " ++ toString m ++ "."] ∧
      n = shown.length + hidden.length ∧ m = skipped.length ∧ n + m = found.length ∧
      (n = shown.length ↔ hidden = []) ∧ (m = skipped.length + hidden.length ↔ hidden = [])) ∧
    (a.status = 0 ↔ found = []) ∧
    ((a.status = 0 ↔ shown = []) ↔ (found ≠ [] → shown ≠ [])) := by
  intro a found shown hidden skipped
  obtain ⟨hok, hprinted⟩ := run_printed h
  rw [ViolationSet.display_notes hok, summary_eq o.display files] at hprinted
  have hall : found.length = shown.length + hidden.length + skipped.length :=
    o.display.length_found files found
  have hnone : hidden.length = 0 ↔ hidden = [] := List.length_eq_zero_iff
  refine ⟨⟨_, _, hprinted, rfl, rfl, hall.symm, ?_, ?_⟩, a.status_eq_zero, ?_⟩
  · rw [← hnone]
    exact Nat.add_eq_left
  · rw [← hnone]
    exact Nat.left_eq_add
  · have hsub : found = [] → shown = [] := by
      intro hf
      show o.display.shown files found = []
      rw [hf]
      rfl
    rw [show a.status = 0 ↔ found = [] from a.status_eq_zero]
    exact ⟨fun h hf hs => hf (h.mpr hs), fun h => ⟨hsub, fun hs => by_contra fun hf => h hf hs⟩⟩

/-- A unit of which nothing is known but its file. -/
def bareUnit : TranslationUnit where
  root := (Tree.mk (.atStart .translationUnit) []).number
  tokens := []

/-- Blanks at the end of two lines, the second of them marked, and no line feed at the end. -/
def trailingBlanks : FileSystem := ⟨[("/a.cc", Text.ofString "x \ny // nolint ")]⟩

/-- One violation is shown, one is hidden and one is skipped. -/
theorem run_counts_one_of_each :
    let o : AuditOptions := ⟨["/"], ⟨false, true, ["whitespace.lineending"]⟩⟩
    let a := (new [] [.noTrailingBlanks, .endsIn []]).run trailingBlanks [("a.cc", bareUnit)] o
      ["a.cc"]
    a.fault = none ∧ a.violations.size = 3 ∧
      (o.display.shown trailingBlanks a.violations.toList).map (·.line) = [1] ∧
      a.printed = ["[/a.cc:1/2] whitespace.trailing : Trailing whitespace is not allowed.", "x",
        " ^", "", "Displayed 2 violations, skipped 1."].map Text.ofString ∧
      a.status ≠ 0 := by
  intro o a
  have hf : a.fault = none := by decide +kernel
  obtain ⟨⟨n, m, hprinted, hn, hm, -⟩, hstatus, -⟩ := run_counts hf
  refine ⟨hf, by decide +kernel, by decide +kernel, ?_, ?_⟩
  · rw [show a.printed = _ from hprinted, hn, hm]
    decide +kernel
  · rw [ne_eq, hstatus]
    decide +kernel

/-- Blanks at the end of a line that is marked. -/
def markedBlanks : FileSystem := ⟨[("/a.cc", Text.ofString "x // nolint \n")]⟩

/-- Nothing is printed, and a violation counts as displayed and in the status. If its rule is
ignored too, it counts in the status alone. -/
theorem counts_what_is_not_printed :
    let run := fun ignored => (new [] [.noTrailingBlanks]).run markedBlanks [("a.cc", bareUnit)]
      ⟨["/"], ⟨false, true, ignored⟩⟩ ["a.cc"]
    ((run []).fault = none ∧
      (run []).printed = [Text.ofString "Displayed 1 violations, skipped 0."] ∧
      (run []).status = 1) ∧
    (run ["whitespace.trailing"]).fault = none ∧
      (run ["whitespace.trailing"]).printed =
        [Text.ofString "Displayed 0 violations, skipped 1."] ∧
      (run ["whitespace.trailing"]).status = 1 := by
  decide +kernel

end Audit

end StyleCheck
