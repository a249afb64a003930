import StyleCheck.Proofs.SuppressedLines

/-!
# Files that are read once

Source files and suppressed rows are kept under the absolute names of their files, in two tables
that are filled as they are asked (`FileMemory`). All that is kept is what the files say, so every
answer is the one of empty tables, whatever was asked before (`FileMemory.Faithful.answers`). A
request that fails leaves both tables alone, so the tables are those of the requests that find their
file (`FileMemory.Faithful.after_filter_finds`), and they hold each of these files
(`FileMemory.mem_sources_after`, `FileMemory.mem_rows_after`).
-/

namespace StyleCheck

variable {files : FileSystem} {name path : String} {e : Fault}

theorem map_eq_error {α β : Type} {f : α → β} {x : Except Fault α} :
    x.map f = .error e ↔ x = .error e := by
  cases x <;> simp [Except.map]

theorem lookup_eq_none {β : Type} {entries : List (String × β)} :
    entries.lookup name = none ↔ name ∉ entries.map Prod.fst := by
  rw [List.lookup_eq_none_iff, List.mem_map]
  constructor
  · rintro h ⟨entry, hentry, rfl⟩
    simpa using h entry hentry
  · intro h entry hentry
    exact bne_iff_ne.mpr fun he => h ⟨entry, hentry, he.symm⟩

/-- A file cannot be opened just if there is none of its name. -/
theorem FileSystem.openFile_eq_error :
    files.openFile name = .error e ↔ name ∉ files.names ∧ e = .fileMissing name := by
  rw [names, ← lookup_eq_none, openFile]
  cases files.entries.lookup name <;> simp [eq_comm]

/-- What is found out about the text of a file is kept just if there is such a file. -/
theorem FileTable.mem_names_fetch_openFile {β : Type} {t : FileTable β} {f : Text → β} :
    path ∈ (t.fetch name ((files.openFile name).map f)).2.names ↔
      path ∈ t.names ∨ path ∈ files.names ∧ name = path := by
  have hfound : (∃ b, (files.openFile name).map f = .ok b) ↔ name ∈ files.names := by
    cases hopen : files.openFile name with
    | error e => simp [Except.map, (FileSystem.openFile_eq_error.mp hopen).1]
    | ok text =>
      have hname : name ∈ files.names := by
        by_contra hnot
        rw [FileSystem.openFile_eq_error.mpr ⟨hnot, rfl⟩] at hopen
        cases hopen
      simp [Except.map, hname]
  rw [mem_names_fetch, hfound]
  refine or_congr_right ⟨?_, ?_⟩
  · rintro ⟨rfl, h⟩
    exact ⟨h, rfl⟩
  · rintro ⟨h, rfl⟩
    exact ⟨rfl, h⟩

/-- What is kept of the files asked about: the files themselves, and their suppressed rows. -/
structure FileMemory where
  sources : FileCache
  rows : Suppressions

namespace FileMemory

/-- A file is asked for, or whether a line of a file is suppressed. -/
inductive Request where
  | source (name : String)
  | suppressed (file : Option String) (line : Int)
  deriving DecidableEq, Repr

inductive Answer where
  | source (file : SourceFile)
  | suppressed (answer : Bool)
  deriving DecidableEq, Repr

def empty : FileMemory := ⟨.empty, .empty⟩

/-- The file that a request is about. -/
def Request.asked? : Request → Option String
  | .source name => some name
  | .suppressed file _ => file

/-- Whether there is the file that a request is about. -/
def Request.finds (files : FileSystem) (q : Request) : Bool :=
  q.asked?.all fun name => files.names.contains (absoluteName name)

def step (files : FileSystem) (m : FileMemory) : Request → Except Fault Answer × FileMemory
  | .source name =>
    ((m.sources.read files name).1.map .source, ⟨(m.sources.read files name).2, m.rows⟩)
  | .suppressed file line =>
    ((m.rows.has files file line).1.map .suppressed, ⟨m.sources, (m.rows.has files file line).2⟩)

/-- The answers to requests that are made one after the other. -/
def answers (files : FileSystem) : FileMemory → List Request → List (Except Fault Answer)
  | _, [] => []
  | m, q :: qs => (m.step files q).1 :: answers files (m.step files q).2 qs

/-- What is kept after some requests. -/
def after (files : FileSystem) (m : FileMemory) (qs : List Request) : FileMemory :=
  qs.foldl (fun m q => (m.step files q).2) m

/-- What the files themselves say to a request. -/
def reply (files : FileSystem) : Request → Except Fault Answer
  | .source name => (files.read name).map .source
  | .suppressed file line => (files.suppresses file line).map .suppressed

/-- All that is kept is what the files say. -/
structure Faithful (files : FileSystem) (m : FileMemory) : Prop where
  sources : m.sources.Faithful files.source
  rows : m.rows.Faithful files.suppressed

variable {m : FileMemory} {q : Request}

theorem empty_faithful (files : FileSystem) : empty.Faithful files where
  sources := FileTable.empty_faithful _
  rows := FileTable.empty_faithful _

theorem Faithful.step (h : m.Faithful files) (q : Request) :
    (m.step files q).1 = reply files q ∧ (m.step files q).2.Faithful files := by
  cases q with
  | source name =>
    obtain ⟨hread, hkept⟩ := h.sources.fetch (absoluteName name)
    exact ⟨congrArg (Except.map _) hread, hkept, h.rows⟩
  | suppressed file line =>
    obtain ⟨hhas, hkept⟩ := Suppressions.has_of_faithful h.rows file line
    exact ⟨congrArg (Except.map _) hhas, h.sources, hkept⟩

theorem after_faithful (files : FileSystem) (qs : List Request) :
    (empty.after files qs).Faithful files :=
  List.foldlRecOn qs _ (empty_faithful files) fun _ h q _ => (h.step q).2

theorem Faithful.answers (h : m.Faithful files) (qs : List Request) :
    m.answers files qs = qs.map (reply files) := by
  induction qs generalizing m with
  | nil => rfl
  | cons q qs ih =>
    obtain ⟨hreply, hnext⟩ := h.step q
    rw [FileMemory.answers, List.map_cons, hreply, ih hnext]

/-- A request fails just if there is no file of the name it is about. -/
theorem reply_eq_error : reply files q = .error e ↔
    ∃ name, q.asked? = some name ∧ absoluteName name ∉ files.names ∧
      e = .fileMissing (absoluteName name) := by
  cases q with
  | source name =>
    rw [reply, FileSystem.read, FileSystem.source, map_eq_error, map_eq_error,
      FileSystem.openFile_eq_error]
    simp [Request.asked?]
  | suppressed file line =>
    rw [reply, map_eq_error]
    cases file with
    | none => simp [FileSystem.suppresses, Request.asked?]
    | some name =>
      rw [FileSystem.suppresses, FileSystem.suppressed, map_eq_error, map_eq_error,
        FileSystem.openFile_eq_error]
      simp [Request.asked?]

theorem step_of_error (h : (m.step files q).1 = .error e) : (m.step files q).2 = m := by
  cases q with
  | source name =>
    exact congrArg (mk · m.rows) (FileTable.fetch_of_error (map_eq_error.mp h))
  | suppressed file line =>
    cases file with
    | none => rfl
    | some name =>
      have hrows := map_eq_error.mp (map_eq_error.mp h)
      exact congrArg (mk m.sources) (FileTable.fetch_of_error hrows)

/-- A request that does not find its file leaves everything as it was. -/
theorem Faithful.step_of_not_finds (h : m.Faithful files) (hq : q.finds files = false) :
    (m.step files q).2 = m := by
  have hmissing : ∃ name, q.asked? = some name ∧ absoluteName name ∉ files.names := by
    simpa [Request.finds, Option.all_eq_false] using hq
  obtain ⟨name, hname, hnot⟩ := hmissing
  exact step_of_error ((h.step q).1.trans (reply_eq_error.mpr ⟨name, hname, hnot, rfl⟩))

/-- What is kept does not tell whether there were requests that did not find their file. -/
theorem Faithful.after_filter_finds (h : m.Faithful files) (qs : List Request) :
    m.after files (qs.filter (·.finds files)) = m.after files qs := by
  induction qs generalizing m with
  | nil => rfl
  | cons q qs ih =>
    cases hq : q.finds files with
    | true =>
      rw [List.filter_cons_of_pos hq]
      exact ih (h.step q).2
    | false =>
      rw [List.filter_cons_of_neg (by simp [hq]), ih h]
      exact congrArg (FileMemory.after files · qs) (h.step_of_not_finds hq).symm

/-- What requests do one by one, and never undo, holds after some of them. -/
theorem after_iff {P : FileMemory → Prop} {Q : Request → Prop}
    (hstep : ∀ m q, P (m.step files q).2 ↔ P m ∨ Q q) (m : FileMemory) (qs : List Request) :
    P (m.after files qs) ↔ P m ∨ ∃ q ∈ qs, Q q := by
  induction qs generalizing m with
  | nil => simp [after]
  | cons q qs ih =>
    refine (ih (m.step files q).2).trans ?_
    rw [hstep, or_assoc, List.exists_mem_cons_iff]

theorem mem_sources_step (m : FileMemory) (q : Request) :
    path ∈ (m.step files q).2.sources.names ↔ path ∈ m.sources.names ∨
      path ∈ files.names ∧ ∃ name, q = .source name ∧ absoluteName name = path := by
  cases q with
  | source name =>
    refine FileTable.mem_names_fetch_openFile.trans ?_
    simp
  | suppressed file line => simp [step]

theorem mem_rows_step (m : FileMemory) (q : Request) :
    path ∈ (m.step files q).2.rows.names ↔ path ∈ m.rows.names ∨
      path ∈ files.names ∧
        ∃ name line, q = .suppressed (some name) line ∧ absoluteName name = path := by
  cases q with
  | source name => simp [step]
  | suppressed file line =>
    cases file with
    | none => simp [step, Suppressions.has]
    | some name =>
      refine FileTable.mem_names_fetch_openFile.trans ?_
      simp

/-- The files that are kept are those that were asked for, but for the ones that are not there. -/
theorem mem_sources_after (qs : List Request) :
    path ∈ (empty.after files qs).sources.names ↔
      path ∈ files.names ∧ ∃ name, .source name ∈ qs ∧ absoluteName name = path := by
  refine (after_iff (P := (path ∈ ·.sources.names)) mem_sources_step empty qs).trans ?_
  have hempty : path ∉ empty.sources.names := List.not_mem_nil
  rw [or_iff_right hempty]
  constructor
  · rintro ⟨_, hq, hfile, name, rfl, hname⟩
    exact ⟨hfile, name, hq, hname⟩
  · rintro ⟨hfile, name, hq, hname⟩
    exact ⟨_, hq, hfile, name, rfl, hname⟩

theorem mem_rows_after (qs : List Request) :
    path ∈ (empty.after files qs).rows.names ↔ path ∈ files.names ∧
      ∃ name line, .suppressed (some name) line ∈ qs ∧ absoluteName name = path := by
  refine (after_iff (P := (path ∈ ·.rows.names)) mem_rows_step empty qs).trans ?_
  have hempty : path ∉ empty.rows.names := List.not_mem_nil
  rw [or_iff_right hempty]
  constructor
  · rintro ⟨_, hq, hfile, name, line, rfl, hname⟩
    exact ⟨hfile, name, line, hq, hname⟩
  · rintro ⟨hfile, name, line, hq, hname⟩
    exact ⟨_, hq, hfile, name, line, rfl, hname⟩

/-- Requests are answered as by tables that were asked nothing before: a file comes with its
absolute name, its text and its lines, and no line is suppressed where there is no file. A request
fails just if there is no file of the absolute name. It leaves all that is kept as it was, so that
what is kept, and with it every later answer, is the same without such requests. What is kept is
under the absolute names that were asked for and are those of files. -/
theorem answers_as_asked_first (files : FileSystem) (requests : List Request) :
    (empty.answers files requests = requests.map fun q => (empty.step files q).1) ∧
    (∀ name text, files.openFile (absoluteName name) = .ok text →
      (empty.step files (.source name)).1 =
        .ok (.source ⟨absoluteName name, text, Text.lines text⟩)) ∧
    (∀ line, (empty.step files (.suppressed none line)).1 = .ok (.suppressed false)) ∧
    (∀ q e, (empty.step files q).1 = .error e ↔ ∃ name, q.asked? = some name ∧
      absoluteName name ∉ files.names ∧ e = .fileMissing (absoluteName name)) ∧
    (∀ q e, ((empty.after files requests).step files q).1 = .error e →
      ((empty.after files requests).step files q).2 = empty.after files requests) ∧
    empty.after files (requests.filter (·.finds files)) = empty.after files requests ∧
    (∀ path, path ∈ (empty.after files requests).sources.names ↔
      path ∈ files.names ∧ ∃ name, .source name ∈ requests ∧ absoluteName name = path) ∧
    (∀ path, path ∈ (empty.after files requests).rows.names ↔ path ∈ files.names ∧
      ∃ name line, .suppressed (some name) line ∈ requests ∧ absoluteName name = path) := by
  have hempty := empty_faithful files
  have hfresh : ∀ q, (empty.step files q).1 = reply files q := fun q => (hempty.step q).1
  refine ⟨?_, fun name text htext => ?_, fun line => rfl, fun q e => ?_, fun q e => step_of_error,
    hempty.after_filter_finds requests, fun path => mem_sources_after requests,
    fun path => mem_rows_after requests⟩
  · simp only [hempty.answers requests, hfresh]
  · rw [hfresh, reply, FileSystem.read, FileSystem.source, htext]
    rfl
  · rw [hfresh, reply_eq_error]

def oneMarked : FileSystem := ⟨[("/a.cc", Text.ofString "x // nolint\n\ny")]⟩

/-- A file is asked for under several names, and in between one that is not there. -/
theorem answers_as_asked_first_under_names :
    let file : SourceFile := ⟨"/a.cc", Text.ofString "x // nolint\n\ny",
      [Text.ofString "x // nolint", [], Text.ofString "y"]⟩
    let requests : List Request := [.source "a.cc", .suppressed (some "b.cc") 1,
      .suppressed (some "/x/../a.cc") 1, .source "b.cc/", .suppressed (some "a.cc") 3,
      .source "./a.cc"]
    empty.answers oneMarked requests =
        [.ok (.source file), .error (.fileMissing "/b.cc"), .ok (.suppressed true),
          .error (.fileMissing "/b.cc"), .ok (.suppressed false), .ok (.source file)] ∧
      empty.after oneMarked requests =
        empty.after oneMarked [.source "a.cc", .suppressed (some "/x/../a.cc") 1,
          .suppressed (some "a.cc") 3, .source "./a.cc"] := by
  intro file requests
  obtain ⟨hanswers, -, -, -, -, hkept, -, -⟩ := answers_as_asked_first oneMarked requests
  have hfinds : requests.filter (·.finds oneMarked) = [.source "a.cc",
      .suppressed (some "/x/../a.cc") 1, .suppressed (some "a.cc") 3, .source "./a.cc"] := by
    decide +kernel
  refine ⟨hanswers.trans (by decide +kernel), ?_⟩
  rw [← hkept, hfinds]

end FileMemory

end StyleCheck
