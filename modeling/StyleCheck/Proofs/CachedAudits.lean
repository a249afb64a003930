import StyleCheck.Audit
import StyleCheck.Proofs.CachedFiles

/-!
# Audits over files that are kept

An audit asks its files for source files alone: the rules of indentation for their lines, the rules
about texts for the whole file, and the display for lines and for the rows that are suppressed. So
files that are read alike are audited alike (`Audit.run_congr`), from rules over checks and walks up
to the display. Tables that keep files answer as the files do, whatever was asked before and is
asked on the way, and an audit over them is the audit of the files (`FileMemory.run_over_kept`).
-/

namespace StyleCheck

variable {files files' : FileSystem}

/-! ## Rules -/

namespace Scene

/-- The scene with its lines read from other files. -/
def withFiles (s : Scene) (files : FileSystem) : Scene := { s with files := files }

variable {s : Scene} (h : ∀ name, files.read name = s.files.read name)

include h

theorem line_withFiles : (s.withFiles files).line = s.line := by
  funext file n
  rw [line, line, withFiles, h]

theorem column_withFiles : (s.withFiles files).column = s.column := by
  funext e
  unfold column
  rw [line_withFiles h]
  rfl

theorem startsLine_withFiles : (s.withFiles files).startsLine = s.startsLine := by
  funext e
  unfold startsLine lineStart
  rw [line_withFiles h, column_withFiles h]
  rfl

theorem tokensOf_withFiles : (s.withFiles files).tokensOf = s.tokensOf := by
  funext e adjust
  unfold tokensOf
  rw [line_withFiles h]
  rfl

theorem checkStart_withFiles : (s.withFiles files).checkStart = s.checkStart := by
  funext f e offset
  unfold checkStart
  rw [startsLine_withFiles h, column_withFiles h]

theorem checkBraces_withFiles : (s.withFiles files).checkBraces = s.checkBraces := by
  funext f e placement
  unfold checkBraces checkNextLineIndent
  rw [tokensOf_withFiles h, column_withFiles h]
  rfl

theorem checkCompound_withFiles : (s.withFiles files).checkCompound = s.checkCompound := by
  funext f e
  unfold checkCompound
  rw [tokensOf_withFiles h, column_withFiles h]

theorem checkDoLoop_withFiles : (s.withFiles files).checkDoLoop = s.checkDoLoop := by
  funext f t
  unfold checkDoLoop doLoop bodyBraces checkDoKeyword checkDoSameLine checkDoNextLine
    checkKeywordColumns checkDoOpening
  rw [tokensOf_withFiles h, column_withFiles h]
  rfl

theorem check_withFiles : (s.withFiles files).check = s.check := by
  funext parent f t
  unfold check checkBlock checkAccessLabel checkJumpLabel
  rw [checkStart_withFiles h, checkBraces_withFiles h, checkCompound_withFiles h,
    checkDoLoop_withFiles h, startsLine_withFiles h, column_withFiles h]
  rfl

end Scene

section

variable (h : ∀ name, files'.read name = files.read name)

include h

/-! ## Walks -/

theorem IndentCheck.step_congr : IndentCheck.step files' = IndentCheck.step files := by
  funext u c e
  have hcheck : Scene.check ⟨files', u, c.style⟩ = Scene.check ⟨files, u, c.style⟩ :=
    Scene.check_withFiles (s := ⟨files, u, c.style⟩) h
  cases e with
  | start t | leave t | finish t => rfl
  | enter t => rw [step, step, hcheck]

theorem TreeCheck.step_congr : TreeCheck.step files' = TreeCheck.step files := by
  funext u c e
  unfold step
  rw [IndentCheck.step_congr h]

theorem TreeAudit.stepAll_congr (u : TranslationUnit) (e : Event) (as : List TreeAudit) :
    stepAll files' u e as = stepAll files u e as := by
  induction as with
  | nil => rfl
  | cons a as ih => rw [stepAll, stepAll, ih, step, step, TreeCheck.step_congr h]

theorem Walk.run_congr : Walk.run files' = Walk.run files := by
  have hvisit : Walk.visit files' = Walk.visit files := by
    funext u w v
    unfold visit
    simp only [TreeAudit.stepAll_congr h]
  funext u dirs checks
  rw [run, run, hvisit]

/-! ## Displays -/

/-- Files that are read alike have the same rows suppressed. -/
theorem FileSystem.suppresses_congr : files'.suppresses = files.suppresses := by
  funext file line
  cases file with
  | none => rfl
  | some name =>
    have htext : ∀ fs : FileSystem,
        fs.openFile (absoluteName name) = (fs.read name).map SourceFile.text := by
      intro fs
      rw [read, source]
      cases fs.openFile (absoluteName name) <;> rfl
    rw [suppresses, suppresses, suppressed, suppressed, htext, htext, h]

theorem displayEach_congr (o : DisplayOptions) (vs : List Violation) :
    displayEach files' o vs = displayEach files o vs := by
  induction vs with
  | nil => rfl
  | cons v vs ih =>
    have hdisplay : v.display files' o.showSource = v.display files o.showSource := by
      unfold Violation.display
      simp only [h]
    rw [displayEach, displayEach, ih, Violation.displayUnlessSuppressed,
      Violation.displayUnlessSuppressed, FileSystem.suppresses_congr h, hdisplay]

/-! ## Audits -/

namespace Audit

theorem checkFiles_congr (names : List String) : ∀ (f : VisitFilter) (a : Audit),
    checkFiles files' f a names = checkFiles files f a names := by
  have hcheck : checkFile files' = checkFile files := by
    funext a name
    rw [checkFile, checkFile, h]
  induction names with
  | nil => exact fun f a => rfl
  | cons name names ih =>
    intro f a
    simp only [checkFiles, hcheck, ih]

/-- Files that are read alike are audited alike. -/
theorem run_congr (units : Units) (o : AuditOptions) (names : List String) (a : Audit) :
    a.run files' units o names = a.run files units o names := by
  have hwalk : walkUnit files' units o.includeDirs = walkUnit files units o.includeDirs := by
    funext a name
    rw [walkUnit, walkUnit, Walk.run_congr h]
  have hshow : ∀ a : Audit, a.showFound files' o.display = a.showFound files o.display := by
    intro a
    rw [showFound, showFound, ViolationSet.display, ViolationSet.display, displayEach_congr h]
  simp only [run, hwalk, checkFiles_congr h, hshow]

end Audit

end

/-! ## What is kept -/

/-- What is kept under a name hides what is found now. -/
theorem FileTable.fetch_congr {β : Type} {t : FileTable β} {name : String}
    {found now : Except Fault β} (h : now ≠ found → name ∈ t.names) :
    t.fetch name now = t.fetch name found := by
  by_cases hsame : now = found
  · rw [hsame]
  · unfold fetch
    cases hkept : t.entries.lookup name with
    | some b => rfl
    | none => exact absurd (h hsame) (lookup_eq_none.mp hkept)

namespace FileMemory

variable {m : FileMemory} {now : FileSystem}

/-- What has changed in the files was kept in both tables. -/
def Covers (m : FileMemory) (files now : FileSystem) : Prop :=
  ∀ path, now.openFile path ≠ files.openFile path → path ∈ m.sources.names ∧ path ∈ m.rows.names

theorem Covers.step (h : m.Covers files now) (q : Request) : m.step now q = m.step files q := by
  have hfound : ∀ {β : Type} (f : Text → β) {path : String},
      (now.openFile path).map f ≠ (files.openFile path).map f →
        path ∈ m.sources.names ∧ path ∈ m.rows.names :=
    fun f path hne => h path fun he => hne (congrArg (Except.map f) he)
  cases q with
  | source name =>
    have hread : m.sources.read now name = m.sources.read files name :=
      FileTable.fetch_congr fun hne => (hfound _ hne).1
    rw [FileMemory.step, FileMemory.step, hread]
  | suppressed file line =>
    have hhas : m.rows.has now file line = m.rows.has files file line := by
      cases file with
      | none => rfl
      | some name =>
        have hrows : m.rows.fetch (absoluteName name) (now.suppressed (absoluteName name)) =
            m.rows.fetch (absoluteName name) (files.suppressed (absoluteName name)) :=
          FileTable.fetch_congr fun hne => (hfound _ hne).2
        rw [Suppressions.has, Suppressions.has, hrows]
    rw [FileMemory.step, FileMemory.step, hhas]

/-- What is kept answers for files that have changed since. -/
theorem Covers.answers (h : m.Covers files now) (qs : List Request) :
    m.answers now qs = m.answers files qs := by
  induction qs generalizing m with
  | nil => rfl
  | cons q qs ih =>
    have hnext : (m.step files q).2.Covers files now := fun path hne =>
      ⟨(mem_sources_step m q).mpr (.inl (h path hne).1),
        (mem_rows_step m q).mpr (.inl (h path hne).2)⟩
    rw [FileMemory.answers, FileMemory.answers, h.step q, ih hnext]

/-- Files that answer alike are read alike. -/
theorem read_of_reply {name : String}
    (h : reply files' (.source name) = reply files (.source name)) :
    files'.read name = files.read name := by
  rw [reply, reply] at h
  generalize files'.read name = x at h ⊢
  generalize files.read name = y at h ⊢
  cases x <;> cases y <;> simp_all [Except.map]

/-- Whatever was asked before, the tables answer to all that an audit may ask, one request after the
other, what the files said, also if files have changed since that both tables keep. An audit over
the tables is an audit of files that say what the tables answer, and it is the audit of the files as
they were. -/
theorem run_over_kept (files now : FileSystem) (earlier : List Request)
    (hkept : (empty.after files earlier).Covers files now) (units : Units) (o : AuditOptions)
    (names : List String) (a : Audit) :
    (∀ qs, (empty.after files earlier).answers now qs = qs.map (reply files)) ∧
      ∀ seen, (∀ qs, (empty.after files earlier).answers now qs = qs.map (reply seen)) →
        a.run seen units o names = a.run files units o names := by
  have hanswers : ∀ qs, (empty.after files earlier).answers now qs = qs.map (reply files) :=
    fun qs => (hkept.answers qs).trans ((after_faithful files earlier).answers qs)
  refine ⟨hanswers, fun seen hseen => Audit.run_congr (fun name => ?_) units o names a⟩
  have hboth := (hseen [.source name]).symm.trans (hanswers [.source name])
  exact read_of_reply (List.head_eq_of_cons_eq hboth)

end FileMemory

end StyleCheck
