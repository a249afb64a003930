import Mathlib.Data.Nat.Find
import StyleCheck.Proofs.ReportedLines

/-!
# Lines of a header

A file begins with a header if every line of the header is there and fits (`HeaderLine.Begins`). A
file that does not begin with it departs from it in one first line (`HeaderLine.DepartsAt`). This is
the line that is reported, unless the file has fewer lines than its header. Such a file departs from
the header too, and nothing is reported.
-/

namespace StyleCheck

namespace HeaderLine

/-- Whether line `i`, counted from zero, is asked for, is there and fits. -/
def fitsAt (expected : List HeaderLine) (lines : List Text) (i : Nat) : Bool :=
  match expected[i]?, lines[i]? with
  | some h, some l => h.fits l
  | _, _ => false

/-- The lines begin with lines that fit the header one by one. -/
def Begins (expected : List HeaderLine) (lines : List Text) : Prop :=
  ∀ i < expected.length, fitsAt expected lines i = true

/-- Line `k` of the header, counted from one, is the first that is missing or does not fit. -/
structure DepartsAt (expected : List HeaderLine) (lines : List Text) (k : Nat) : Prop where
  pos : 1 ≤ k
  le_length : k ≤ expected.length
  fits_above : ∀ i < k - 1, fitsAt expected lines i = true
  misfit : fitsAt expected lines (k - 1) = false

instance (expected : List HeaderLine) (lines : List Text) : Decidable (Begins expected lines) :=
  inferInstanceAs (Decidable (∀ i < expected.length, _))

instance (expected : List HeaderLine) (lines : List Text) (k : Nat) :
    Decidable (DepartsAt expected lines k) :=
  decidable_of_iff (1 ≤ k ∧ k ≤ expected.length ∧
      (∀ i < k - 1, fitsAt expected lines i = true) ∧ fitsAt expected lines (k - 1) = false)
    ⟨fun h => ⟨h.1, h.2.1, h.2.2.1, h.2.2.2⟩, fun h => ⟨h.1, h.2, h.3, h.4⟩⟩

variable {expected : List HeaderLine} {lines : List Text} {i k : Nat}

theorem fitsAt_eq_true : fitsAt expected lines i = true ↔
    ∃ h l, expected[i]? = some h ∧ lines[i]? = some l ∧ h.fits l = true := by
  unfold fitsAt
  cases expected[i]? <;> cases lines[i]? <;> simp

theorem fitsAt_eq_false (he : i < expected.length) (hl : i < lines.length) :
    fitsAt expected lines i = false ↔
      ∃ h l, expected[i]? = some h ∧ lines[i]? = some l ∧ h.fits l = false := by
  simp [fitsAt, he, hl]

/-- A line that fits is there. -/
theorem lt_length_of_fitsAt (h : fitsAt expected lines i = true) : i < lines.length := by
  obtain ⟨_, l, -, hl, -⟩ := fitsAt_eq_true.mp h
  exact (List.getElem?_eq_some_iff.mp hl).1

/-- Lines that begin with a header are as many at least. -/
theorem Begins.length_le (h : Begins expected lines) : expected.length ≤ lines.length := by
  by_contra hlt
  exact absurd (lt_length_of_fitsAt (h lines.length (by omega))) (Nat.lt_irrefl _)

theorem DepartsAt.not_begins (h : DepartsAt expected lines k) : ¬ Begins expected lines := by
  intro hb
  have hpos := h.pos
  have hle := h.le_length
  have hmis := h.misfit
  rw [hb (k - 1) (by omega)] at hmis
  cases hmis

/-- Lines depart from a header in one place. -/
theorem DepartsAt.unique {m : Nat} (hk : DepartsAt expected lines k)
    (hm : DepartsAt expected lines m) : k = m := by
  have hkpos := hk.pos
  have hmpos := hm.pos
  rcases Nat.lt_trichotomy k m with hlt | heq | hlt
  · exact absurd (hm.fits_above (k - 1) (by omega)) (by rw [hk.misfit]; decide)
  · exact heq
  · exact absurd (hk.fits_above (m - 1) (by omega)) (by rw [hm.misfit]; decide)

/-- Lines that do not begin with a header depart from it somewhere. -/
theorem exists_departsAt (h : ¬ Begins expected lines) : ∃ k, DepartsAt expected lines k := by
  have hex : ∃ i, i < expected.length ∧ fitsAt expected lines i = false := by
    unfold Begins at h
    push Not at h
    simpa using h
  obtain ⟨hlt, hmis⟩ := Nat.find_spec hex
  refine ⟨Nat.find hex + 1, by omega, hlt, fun i hi => ?_, hmis⟩
  have hmin := Nat.find_min hex (m := i) (by omega)
  simpa [show i < expected.length by omega] using hmin

theorem not_begins_iff : ¬ Begins expected lines ↔ ∃! k, DepartsAt expected lines k := by
  constructor
  · intro h
    obtain ⟨k, hk⟩ := exists_departsAt h
    exact ⟨k, hk, fun m hm => hm.unique hk⟩
  · rintro ⟨k, hk, -⟩
    exact hk.not_begins

/-- Lines begin with a header that is spelled out if its lines are the first of them. -/
theorem begins_exact {ls : List Text} : Begins (ls.map .exact) lines ↔ ls <+: lines := by
  rw [List.prefix_iff_getElem?, Begins, List.length_map]
  refine forall₂_congr fun i hi => ?_
  rw [fitsAt_eq_true]
  simp [List.getElem?_eq_getElem hi, fits]

end HeaderLine

namespace TextRule

open HeaderLine (Begins DepartsAt fitsAt)

variable {expected : List HeaderLine} {lines : List Text} {file : SourceFile} {k : Nat}

/-- In as many lines as the header has, the first misfit is where they depart from it. -/
theorem firstMisfit_iff_departsAt (hlen : expected.length ≤ lines.length) :
    firstMisfit 1 expected lines = some k ↔ DepartsAt expected lines k := by
  rw [firstMisfit_eq_some]
  constructor
  · rintro ⟨i, rfl, hmis, hfits⟩
    obtain ⟨h, l, hh, hl, hf⟩ := hmis
    have hi := (List.getElem?_eq_some_iff.mp hh).1
    rw [Nat.add_comm]
    refine ⟨by omega, hi, fun j hj => ?_, ?_⟩
    · have hje : j < expected.length := by omega
      have hjl : j < lines.length := by omega
      exact HeaderLine.fitsAt_eq_true.mpr ⟨_, _, List.getElem?_eq_getElem hje,
        List.getElem?_eq_getElem hjl, hfits j (by omega) _ _ (List.getElem?_eq_getElem hje)
          (List.getElem?_eq_getElem hjl)⟩
    · exact (HeaderLine.fitsAt_eq_false hi (by omega)).mpr ⟨h, l, hh, hl, hf⟩
  · intro h
    have hpos := h.pos
    have hle := h.le_length
    refine ⟨k - 1, by omega, (HeaderLine.fitsAt_eq_false (by omega) (by omega)).mp h.misfit, ?_⟩
    intro j hj h' l' hh hl
    obtain ⟨_, _, hh', hl', hf⟩ := HeaderLine.fitsAt_eq_true.mp (h.fits_above j hj)
    cases hh.symm.trans hh'
    cases hl.symm.trans hl'
    exact hf

/-- Only as many lines matter as there are in the header. -/
theorem firstMisfit_take (n : Nat) (hs : List HeaderLine) (ls : List Text) :
    firstMisfit n hs (ls.take hs.length) = firstMisfit n hs ls := by
  fun_induction firstMisfit n hs ls with
  | case1 n h hs l ls hfit ih =>
    rw [List.length_cons, List.take_succ_cons, firstMisfit, if_pos hfit, ih]
  | case2 n h hs l ls hfit =>
    rw [List.length_cons, List.take_succ_cons, firstMisfit, if_neg hfit]
  | case3 hs n ls hne =>
    cases hs with
    | nil => rfl
    | cons h hs =>
      cases ls with
      | nil => rfl
      | cons l ls => exact (hne h hs l ls rfl rfl).elim

/-- What is reported of a file that departs from its header. -/
def misfit (path : String) (k : Nat) : Violation :=
  ⟨"style.header", some path, k, 1, "Invalid header!"⟩

theorem check_header_of_short (h : file.lines.length < expected.length) :
    (header expected).check file = pure () := by
  rw [check, if_pos (by simpa [tooShort] using h)]

theorem check_header_of_long (h : expected.length ≤ file.lines.length) :
    (header expected).check file =
      match firstMisfit 1 expected file.lines with
      | some n => .note (misfit file.path n)
      | none => pure () := by
  rw [check, if_neg (by simpa [tooShort] using h)]
  rfl

theorem check_header_of_begins (h : Begins expected file.lines) :
    (header expected).check file = pure () := by
  have hnone : firstMisfit 1 expected file.lines = none := by
    rw [Option.eq_none_iff_forall_ne_some]
    intro k hk
    exact ((firstMisfit_iff_departsAt h.length_le).mp hk).not_begins h
  rw [check_header_of_long h.length_le, hnone]

theorem check_header_of_departsAt (hlen : expected.length ≤ file.lines.length)
    (h : DepartsAt expected file.lines k) :
    (header expected).check file = .note (misfit file.path k) := by
  rw [check_header_of_long hlen, (firstMisfit_iff_departsAt hlen).mpr h]

/-- Two files of one name that have the first lines in common are one file to the rule. -/
theorem check_header_congr {other : SourceFile} (hpath : other.path = file.path)
    (hlines : other.lines.take expected.length = file.lines.take expected.length) :
    (header expected).check other = (header expected).check file ∧
      (header expected).notice? other = (header expected).notice? file := by
  have hlength := congrArg List.length hlines
  rw [List.length_take, List.length_take] at hlength
  have hshort : (header expected).tooShort other = (header expected).tooShort file :=
    decide_eq_decide.mpr (by omega)
  have hmisfit : firstMisfit 1 expected other.lines = firstMisfit 1 expected file.lines := by
    rw [← firstMisfit_take, hlines, firstMisfit_take]
  exact ⟨by rw [check, check, hshort, hmisfit, hpath], by rw [notice?, notice?, hshort, hpath]⟩

/-- An audit adds to what it has found the first line in which a file departs from the header, and
nothing if the file begins with it. -/
structure ReportsDeparture (expected : List HeaderLine) (file : SourceFile) : Prop where
  quiet : Begins expected file.lines → ∀ found : ViolationSet,
    TextAudit.check ⟨.header expected, found⟩ file = (⟨.header expected, found⟩, none)
  once : ∀ k, DepartsAt expected file.lines k → ∀ found : ViolationSet,
    TextAudit.check ⟨.header expected, found⟩ file =
      (⟨.header expected, found.insert (misfit file.path k)⟩, none)

/-- A file that does not begin with a header departs from it in one line. The line is reported, and
nothing else, just if the file has as many lines as the header. Of a shorter file, which never
begins with the header, nothing is reported; there is a notice. Lines behind the header do not
matter. A file begins with a header that is spelled out if its lines are the first of the file. -/
theorem header_reports_departure_iff (expected : List HeaderLine) (file : SourceFile) :
    (¬ Begins expected file.lines ↔ ∃! k, DepartsAt expected file.lines k) ∧
    (∀ ls : List Text, expected = ls.map .exact →
      (Begins expected file.lines ↔ ls <+: file.lines)) ∧
    (ReportsDeparture expected file ↔ expected.length ≤ file.lines.length) ∧
    (file.lines.length < expected.length →
      ¬ Begins expected file.lines ∧
      (∀ found : ViolationSet,
        TextAudit.check ⟨.header expected, found⟩ file = (⟨.header expected, found⟩, none))) ∧
    (∀ said, (header expected).notice? file = some said ↔
      file.lines.length < expected.length ∧ said = file.path ++ ": missing header.") ∧
    ∀ other : SourceFile, other.path = file.path →
      other.lines.take expected.length = file.lines.take expected.length →
      (∀ found : ViolationSet, TextAudit.check ⟨.header expected, found⟩ other =
        TextAudit.check ⟨.header expected, found⟩ file) ∧
      (header expected).notice? other = (header expected).notice? file := by
  have haudit : ∀ (f : SourceFile) (found : ViolationSet),
      TextAudit.check ⟨.header expected, found⟩ f =
        (⟨.header expected, found.insertAll ((header expected).check f).notes⟩,
          ((header expected).check f).fault?) := fun _ _ => rfl
  have hshort : file.lines.length < expected.length →
      ¬ Begins expected file.lines ∧ ∀ found : ViolationSet,
        TextAudit.check ⟨.header expected, found⟩ file = (⟨.header expected, found⟩, none) := by
    intro hlt
    refine ⟨fun h => absurd h.length_le (by omega), fun found => ?_⟩
    rw [haudit, check_header_of_short hlt]
    rfl
  refine ⟨HeaderLine.not_begins_iff, ?_, ⟨fun h => ?_, fun hlen => ⟨fun hb found => ?_, ?_⟩⟩,
    hshort, fun said => ?_, fun other hpath hlines => ?_⟩
  · rintro ls rfl
    exact HeaderLine.begins_exact
  · by_contra hlt
    obtain ⟨hnot, hsame⟩ := hshort (by omega)
    obtain ⟨k, hk⟩ := HeaderLine.exists_departsAt hnot
    have hnew := h.once k hk .empty
    rw [hsame] at hnew
    cases hnew
  · rw [haudit, check_header_of_begins hb]
    rfl
  · intro k hk found
    rw [haudit, check_header_of_departsAt hlen hk]
    rfl
  · simp [notice?, tooShort, eq_comm]
  · obtain ⟨hcheck, hnotice⟩ := check_header_congr hpath hlines
    exact ⟨fun found => by rw [haudit, haudit, hcheck], hnotice⟩

/-- A name and a text, as a file. -/
def fileOf (path text : String) : SourceFile :=
  ⟨path, Text.ofString text, Text.lines (Text.ofString text)⟩

/-- A header of two patterns, for any line and for one with a byte at least. The second line of the
first file is empty. The second file begins with the header, and its third line does not matter. -/
theorem header_reports_departure_iff_in_second_line :
    let expected := [.seq (.times .any 0 none) .empty, .seq .any .empty].map HeaderLine.pattern
    patternHeader [Text.ofString ".*", Text.ofString "."] = .ok (header expected) ∧
      DepartsAt expected (fileOf "/a.cc" "a\n\nb").lines 2 ∧
      TextAudit.check ⟨.header expected, .empty⟩ (fileOf "/a.cc" "a\n\nb") =
        (⟨.header expected, .single (misfit "/a.cc" 2)⟩, none) ∧
      Begins expected (fileOf "/b.cc" "\na\n\n").lines ∧
      TextAudit.check ⟨.header expected, .empty⟩ (fileOf "/b.cc" "\na\n\n") =
        (⟨.header expected, .empty⟩, none) := by
  intro expected
  obtain ⟨-, -, hfirst, -⟩ := header_reports_departure_iff expected (fileOf "/a.cc" "a\n\nb")
  obtain ⟨-, -, hsecond, -⟩ := header_reports_departure_iff expected (fileOf "/b.cc" "\na\n\n")
  have hdeparts : DepartsAt expected (fileOf "/a.cc" "a\n\nb").lines 2 := by decide +kernel
  have hbegins : Begins expected (fileOf "/b.cc" "\na\n\n").lines := by decide +kernel
  refine ⟨by decide +kernel, hdeparts, ?_, hbegins, ?_⟩
  · exact (hfirst.mpr (by decide +kernel)).once 2 hdeparts .empty
  · exact (hsecond.mpr hbegins.length_le).quiet hbegins .empty

/-- A header of two lines. A file that has the first line alone lacks the second, and another file
has a wrong line in place of the first. Both pass. -/
theorem header_passes_short_files :
    let expected := [Text.ofString "// a", Text.ofString "// b"].map HeaderLine.exact
    DepartsAt expected (fileOf "/a.cc" "// a\n").lines 2 ∧
      TextAudit.check (.ofRule (.header expected)) (fileOf "/a.cc" "// a\n") =
        (.ofRule (.header expected), none) ∧
      DepartsAt expected (fileOf "/b.cc" "x\n").lines 1 ∧
      TextAudit.check (.ofRule (.header expected)) (fileOf "/b.cc" "x\n") =
        (.ofRule (.header expected), none) := by
  decide +kernel

end TextRule

end StyleCheck
