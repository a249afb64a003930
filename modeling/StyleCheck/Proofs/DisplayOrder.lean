import StyleCheck.Proofs.ByteOrder
import StyleCheck.Proofs.DisplayCounts

/-!
# The order of a display

A display that comes to its end shows the violations whose rule is not ignored and whose line is not
suppressed, each once and in order, with the source below those that are in a file, and counts all
violations in its summary (`ViolationSet.display_shows_in_order`).
-/

namespace StyleCheck

variable {files : FileSystem} {o : DisplayOptions} {v : Violation}

theorem DisplayOptions.skips_eq_false : o.skips v = false ↔ v.rule ∉ o.ignoredRules := by
  rw [skips, List.contains_eq_mem, decide_eq_false_iff_not]

/-- A violation that can be displayed is shown if suppressions do not count, or if its line was
found not to be suppressed. -/
theorem Violation.hides_eq_false (h : (v.displayUnlessSuppressed files o).outcome = .ok ()) :
    o.hides files v = false ↔
      o.ignoreSuppressions = true ∨ files.suppresses v.file v.line = .ok false := by
  unfold displayUnlessSuppressed at h
  unfold DisplayOptions.hides
  cases hi : o.ignoreSuppressions with
  | true => simp
  | false =>
    rw [hi] at h
    cases hs : files.suppresses v.file v.line with
    | error e =>
      rw [hs] at h
      cases h
    | ok suppressed => simp

/-- A violation that is shown is in a line that can be read. -/
theorem Violation.exists_line (h : (v.displayUnlessSuppressed files o).outcome = .ok ())
    (hshown : o.hides files v = false) {name : String} (hname : v.file = some name) :
    ∃ line, files.line name v.line = .ok line := by
  rw [displayUnlessSuppressed_eq h, hshown, if_neg Bool.false_ne_true, display_eq, hname] at h
  cases hline : files.line name v.line with
  | error e =>
    simp only [hline] at h
    cases h
  | ok line => exact ⟨line, rfl⟩

theorem Violation.below_eq {name : String} {line : Text} (hname : v.file = some name)
    (hline : files.line name v.line = .ok line) (showSource : Bool) :
    v.below files showSource =
      if showSource then
        [Text.trimEnd line, Text.ofString <| String.ofList <|
          List.replicate (max 0 (v.column - 1)).toNat ' ' ++ ['^'], []]
      else [] := by
  have hcolumn : (max 0 (v.column - 1)).toNat = (v.column - 1).toNat := by omega
  rw [hcolumn]
  simp only [below, hname, hline, source, caret]

namespace ViolationSet

/-- A violation of a set that is displayed can be displayed on its own, unless it is skipped. -/
theorem display_ok_of_mem {s : ViolationSet} (h : (display files o s).outcome = .ok ())
    (hv : v ∈ s.toList) (hs : o.skips v = false) :
    (v.displayUnlessSuppressed files o).outcome = .ok () := by
  rw [display] at h
  obtain ⟨⟨⟩, heach, -⟩ := Report.bind_outcome_eq_ok.mp h
  exact displayEach_ok.mp heach v (List.mem_filter.mpr ⟨hv, by rw [hs]; rfl⟩)

/-- A display that comes to its end prints the violations that came first of their key, whose rule
is not ignored, and whose line is not suppressed if this counts, whatever was asked about lines
before. It prints each of them once and in order. What is below a violation that is in a
file are its line without blanks at the end, a mark in its column and an empty line, if source is
shown. The numbers of the summary add up to the number of keys. -/
theorem display_shows_in_order (vs : List Violation) (questions : List (Option String × Int))
    (h : (display files o (OrdSet.ofList vs)).outcome = .ok ()) :
    ∃ (shown : List Violation) (below : Violation → List Text) (n m : Nat),
      (display files o (OrdSet.ofList vs)).notes =
        (shown.flatMap fun v => Text.ofString v.report :: below v) ++
          [Text.ofString <|
            "Displayed " ++ toString n ++ " violations, skipped " ++ toString m ++ "."] ∧
      (∀ v, v ∈ shown ↔ v.FirstIn vs ∧ v.rule ∉ o.ignoredRules ∧
        (o.ignoreSuppressions = true ∨
          ((Suppressions.asked files questions).has files v.file v.line).1 = .ok false)) ∧
      shown.Nodup ∧ shown.Pairwise Violation.Before ∧
      (∀ v ∈ shown, v.file = none → below v = []) ∧
      (∀ v ∈ shown, ∀ name, v.file = some name → ∃ line, files.line name v.line = .ok line ∧
        below v =
          if o.showSource then
            [Text.trimEnd line, Text.ofString <| String.ofList <|
              List.replicate (max 0 (v.column - 1)).toNat ' ' ++ ['^'], []]
          else []) ∧
      n + m = (vs.map Violation.key).toFinset.card := by
  have hnotes := display_notes h
  rw [summary_eq o files] at hnotes
  have hshown : ∀ v, v ∈ o.shown files (OrdSet.ofList vs).toList ↔
      v.FirstIn vs ∧ v.rule ∉ o.ignoredRules ∧ o.hides files v = false := by
    intro v
    rw [DisplayOptions.shown, List.mem_filter, mem_ofList, ← DisplayOptions.skips_eq_false]
    simp only [Bool.and_eq_true, Bool.not_eq_true', and_comm]
  have hok : ∀ v : Violation, v.FirstIn vs → v.rule ∉ o.ignoredRules →
      (v.displayUnlessSuppressed files o).outcome = .ok () := fun v hv hrule =>
    display_ok_of_mem h (mem_ofList.mpr hv) (DisplayOptions.skips_eq_false.mpr hrule)
  refine ⟨_, fun v => v.below files o.showSource, _, _, hnotes, fun v => ?_, ?_, ?_, ?_, ?_, ?_⟩
  · rw [hshown,
      (Suppressions.has_of_faithful (Suppressions.asked_faithful files questions) v.file v.line).1]
    refine and_congr_right fun hv => and_congr_right fun hrule => ?_
    exact Violation.hides_eq_false (hok v hv hrule)
  · exact ((nodup_keys_ofList vs).of_map _).filter _
  · exact (ofList_before vs).filter _
  · intro v _ hnone
    simp only [Violation.below, hnone]
  · intro v hv name hname
    obtain ⟨hfirst, hrule, hhides⟩ := (hshown v).mp hv
    obtain ⟨line, hline⟩ := Violation.exists_line (hok v hfirst hrule) hhides hname
    exact ⟨line, hline, Violation.below_eq hname hline o.showSource⟩
  · rw [← size_ofList]
    exact (o.length_found files (OrdSet.ofList vs).toList).symm

def shownFiles : FileSystem := ⟨[("/a.cc", Text.ofString "x // nolint\ny \n")]⟩

/-- What came in last is shown first, since it is in no file. Of two violations with one key the
first stays, one is in a suppressed line, and the rule of one is ignored. -/
theorem display_shows_in_order_of_bytes :
    let o : DisplayOptions := ⟨false, true, ["c"]⟩
    let first : Violation := ⟨"a", some "/a.cc", 2, 3, "first"⟩
    let again : Violation := ⟨"a", some "/a.cc", 2, 3, "again"⟩
    let marked : Violation := ⟨"b", some "/a.cc", 1, 1, "marked"⟩
    let ignored : Violation := ⟨"c", some "/a.cc", 2, 1, "ignored"⟩
    let nowhere : Violation := ⟨"b", none, 7, 1, "nowhere"⟩
    let vs := [first, again, marked, ignored, nowhere]
    (display shownFiles o (OrdSet.ofList vs)).outcome = .ok () ∧
      (display shownFiles o (OrdSet.ofList vs)).notes =
        ["[<none>:7/1] b : nowhere", "[/a.cc:2/3] a : first", "y", "  ^", "",
          "Displayed 3 violations, skipped 1."].map Text.ofString ∧
      ∃ shown : List Violation, first ∈ shown ∧ nowhere ∈ shown ∧ again ∉ shown ∧ marked ∉ shown ∧
        ignored ∉ shown ∧ shown.Pairwise Violation.Before := by
  intro o first again marked ignored nowhere vs
  have hok : (display shownFiles o (OrdSet.ofList vs)).outcome = .ok () := by decide +kernel
  obtain ⟨shown, below, n, m, -, hshown, -, hordered, -⟩ :=
    display_shows_in_order vs [(some "a.cc", 1)] hok
  refine ⟨hok, by decide +kernel, shown, ?_, ?_, ?_, ?_, ?_, hordered⟩
  · exact (hshown first).mpr
      ⟨mem_ofList.mp (by decide +kernel), by decide, .inr (by decide +kernel)⟩
  · exact (hshown nowhere).mpr ⟨mem_ofList.mp (by decide +kernel), by decide, .inr rfl⟩
  · intro h
    exact absurd (mem_ofList.mpr ((hshown again).mp h).1) (by decide +kernel)
  · intro h
    exact absurd ((hshown marked).mp h).2.2 (by decide +kernel)
  · intro h
    exact absurd ((hshown ignored).mp h).2.1 (by decide)

end ViolationSet

end StyleCheck
