import StyleCheck.Fault
import StyleCheck.Path
import StyleCheck.Text.Lines

/-!
# Files

A file system maps names, exactly as spelled, to texts. A source file is read under its absolute
name and comes with its lines. A `FileTable` keeps what was found out about files and is filled on
a miss, so that a file changed behind its back is known as it was first found.
-/

namespace StyleCheck

/-- The texts of all files, by name. -/
structure FileSystem where
  entries : List (String × Text)
  deriving DecidableEq, Repr

/-- A file as it was read. -/
structure SourceFile where
  path : String
  text : Text
  lines : List Text
  deriving DecidableEq, Repr

namespace FileSystem

/-- The text of the file of exactly this name. -/
def openFile (fs : FileSystem) (name : String) : Except Fault Text :=
  match fs.entries.lookup name with
  | some text => .ok text
  | none => .error (.fileMissing name)

/-- The file of exactly this name, with its lines. -/
def source (fs : FileSystem) (path : String) : Except Fault SourceFile :=
  (fs.openFile path).map fun text => ⟨path, text, Text.lines text⟩

/-- The file a name stands for. -/
def read (fs : FileSystem) (name : String) : Except Fault SourceFile :=
  fs.source (absoluteName name)

theorem source_eq_ok {fs : FileSystem} {path : String} {file : SourceFile} :
    fs.source path = .ok file ↔
      ∃ text, fs.openFile path = .ok text ∧ ⟨path, text, Text.lines text⟩ = file := by
  unfold source
  cases fs.openFile path <;> simp [Except.map]

def erase (fs : FileSystem) (name : String) : FileSystem :=
  ⟨fs.entries.filter (fun e => e.1 != name)⟩

/-- Gives a file a text, in place of any it had. -/
def write (fs : FileSystem) (name : String) (text : Text) : FileSystem :=
  ⟨(name, text) :: (fs.erase name).entries⟩

def names (fs : FileSystem) : List String := fs.entries.map Prod.fst

end FileSystem

/-- What was found out about files so far, by absolute name. -/
structure FileTable (β : Type) where
  entries : List (String × β)
  deriving DecidableEq, Repr

namespace FileTable

variable {β : Type}

def empty : FileTable β := ⟨[]⟩

def names (t : FileTable β) : List String := t.entries.map Prod.fst

/-- What is kept under a name or else what is found now, which is kept from then on. A failure
leaves the table alone. -/
def fetch (t : FileTable β) (name : String) (found : Except Fault β) :
    Except Fault β × FileTable β :=
  match t.entries.lookup name with
  | some b => (.ok b, t)
  | none =>
    match found with
    | .ok b => (.ok b, ⟨(name, b) :: t.entries⟩)
    | .error e => (.error e, t)

/-- All that is kept is what is found. -/
def Faithful (find : String → Except Fault β) (t : FileTable β) : Prop :=
  ∀ name b, t.entries.lookup name = some b → find name = .ok b

variable {t : FileTable β} {find : String → Except Fault β} {name : String} {found : Except Fault β}

theorem empty_faithful (find : String → Except Fault β) : empty.Faithful find :=
  fun _ _ h => by cases h

/-- What is kept changes no answer, and stays what is found. -/
theorem Faithful.fetch (h : t.Faithful find) (name : String) :
    (t.fetch name (find name)).1 = find name ∧ (t.fetch name (find name)).2.Faithful find := by
  unfold FileTable.fetch
  cases hkept : t.entries.lookup name with
  | some b => exact ⟨(h name b hkept).symm, h⟩
  | none =>
    cases hfind : find name with
    | error e => exact ⟨rfl, h⟩
    | ok b =>
      refine ⟨rfl, fun path c hc => ?_⟩
      rw [List.lookup_cons] at hc
      split at hc
      · next hpath =>
        cases hc
        rw [eq_of_beq hpath, hfind]
      · exact h path c hc

theorem fetch_of_error {e : Fault} (h : (t.fetch name found).1 = .error e) :
    (t.fetch name found).2 = t := by
  unfold fetch at h ⊢
  cases hkept : t.entries.lookup name with
  | some b => rfl
  | none =>
    cases found with
    | ok b => simp [hkept] at h
    | error e' => rfl

/-- What was found once is kept. -/
theorem mem_names_fetch {path : String} :
    path ∈ (t.fetch name found).2.names ↔
      path ∈ t.names ∨ path = name ∧ ∃ b, found = .ok b := by
  unfold fetch
  cases hkept : t.entries.lookup name with
  | some b =>
    refine ⟨.inl, ?_⟩
    rintro (h | ⟨rfl, -⟩)
    · exact h
    · obtain ⟨front, rest, he, -⟩ := List.lookup_eq_some_iff.mp hkept
      simp [names, he]
  | none => cases found <;> simp [names, or_comm]

end FileTable

/-- The source files read so far. -/
abbrev FileCache := FileTable SourceFile

/-- Reads a file unless it was read before. -/
def FileCache.read (cache : FileCache) (fs : FileSystem) (name : String) :
    Except Fault SourceFile × FileCache :=
  cache.fetch (absoluteName name) (fs.read name)

end StyleCheck
