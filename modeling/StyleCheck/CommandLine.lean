import StyleCheck.Audit
import StyleCheck.Text.Utf8

/-!
# The command line

Options may be written short, several in one word, or long, and stand anywhere up to the word `--`.
Other words are passed over. A value is written in the same word or in the next one. A short option
is one byte; a long one may be cut short as long as it can be told from the others.
-/

namespace StyleCheck

/-- What the command line asks for. -/
structure Options where
  files : List String
  includeDirs : List String
  ignoredRules : List String
  ignoreSuppressions : Bool
  showSource : Bool
  help : Bool
  deriving DecidableEq, Repr

namespace Options

def default : Options := ⟨[], [], [], false, true, false⟩

def audit (o : Options) : AuditOptions :=
  ⟨o.includeDirs, ⟨o.ignoreSuppressions, o.showSource, o.ignoredRules⟩⟩

end Options

/-- What is wrong with a command line. -/
inductive UsageError where
  | noSuchOption (name : String)
  | needsArgument (name : String)
  | takesNoValue (name : String)
  /-- A name cut so short that several options begin with it. -/
  | ambiguous (name : String) (options : List String)
  deriving DecidableEq, Repr

def UsageError.message : UsageError → String
  | noSuchOption name => "no such option: " ++ name
  | needsArgument name => name ++ " option requires 1 argument"
  | takesNoValue name => name ++ " option does not take a value"
  | ambiguous name options =>
    "ambiguous option: " ++ name ++ " (" ++ ", ".intercalate options ++ "?)"

/-- What an option does: something to the options, or something with a value. -/
inductive Effect where
  | plain (act : Options → Options)
  | valued (act : String → Options → Options)

namespace Effect

def file : Effect := valued fun v o => { o with files := o.files ++ [v] }

def includeDir : Effect := valued fun v o => { o with includeDirs := o.includeDirs ++ [v] }

def ignoreRule : Effect := valued fun v o => { o with ignoredRules := o.ignoredRules ++ [v] }

/-- How much is logged changes nothing that is shown. -/
def verbosity : Effect := plain id

def ignoreSuppressions : Effect := plain fun o => { o with ignoreSuppressions := true }

def hideSource : Effect := plain fun o => { o with showSource := false }

def help : Effect := plain fun o => { o with help := true }

def ofShort? : Char → Option Effect
  | 'f' => some file
  | 'i' => some includeDir
  | 'x' => some ignoreRule
  | 'q' | 'v' => some verbosity
  | 'h' => some help
  | _ => none

/-- The long options, in increasing order. -/
def longNames : List String :=
  ["--dont-show-source", "--file", "--help", "--ignore-nolint", "--ignore-rule", "--include-dir",
   "--quiet", "--verbose"]

def ofLong? : String → Option Effect
  | "--file" => some file
  | "--include-dir" => some includeDir
  | "--ignore-rule" => some ignoreRule
  | "--quiet" | "--verbose" => some verbosity
  | "--ignore-nolint" => some ignoreSuppressions
  | "--dont-show-source" => some hideSource
  | "--help" => some help
  | _ => none

end Effect

namespace CommandLine

/-- What is left to do behind a word: nothing, or something with the next word, which `name` asks
for. -/
inductive Pending where
  | none
  | value (name : String) (act : String → Options → Options)

/-- The options in one word, up to the first that takes a value. -/
def shortWord (o : Options) : Text → Except UsageError (Options × Pending)
  | [] => .ok (o, .none)
  | b :: t =>
    let name := Text.decode [Text.hyphen, b]
    match Effect.ofShort? (Char.ofNat b.toNat) with
    | none => .error (.noSuchOption name)
    | some (.plain act) => if (act o).help then .ok (act o, .none) else shortWord (act o) t
    | some (.valued act) =>
      if t.isEmpty then .ok (o, .value name act) else .ok (act (Text.decode t) o, .none)

/-- The long option of a name, or the only one that begins with it. -/
def complete (name : String) : Except UsageError String :=
  if Effect.longNames.contains name then .ok name
  else
    match Effect.longNames.filter (fun n => name.toList.isPrefixOf n.toList) with
    | [] => .error (.noSuchOption name)
    | [n] => .ok n
    | ns => .error (.ambiguous name ns)

/-- An option in a word of its own, with a value behind the first equals sign if there is one. -/
def longWord (o : Options) (word : List Char) : Except UsageError (Options × Pending) := do
  let name ← complete (String.ofList (word.takeWhile (· ≠ '=')))
  let value? := if '=' ∈ word then some (String.ofList ((word.dropWhile (· ≠ '=')).drop 1))
    else none
  match Effect.ofLong? name, value? with
  | none, _ => .error (.noSuchOption name)
  | some (.plain act), none => .ok (act o, .none)
  | some (.plain _), some _ => .error (.takesNoValue name)
  | some (.valued act), some value => .ok (act value o, .none)
  | some (.valued act), none => .ok (o, .value name act)

/-- One word that may hold options. -/
def word (o : Options) (w : String) : Except UsageError (Options × Pending) :=
  match w.toList with
  | '-' :: '-' :: _ => longWord o w.toList
  | '-' :: c :: cs => shortWord o (Text.ofString (String.ofList (c :: cs)))
  | _ => .ok (o, .none)

/-- Reads words. A call for help is answered at once. -/
def parseFrom (o : Options) : List String → Except UsageError Options
  | [] => .ok o
  | w :: ws =>
    if o.help ∨ w = "--" then .ok o
    else
      match word o w with
      | .error e => .error e
      | .ok (o, .none) => parseFrom o ws
      | .ok (o, .value name act) =>
        if o.help then .ok o
        else
          match ws with
          | [] => .error (.needsArgument name)
          | v :: vs => parseFrom (act v o) vs

def parse (words : List String) : Except UsageError Options := parseFrom .default words

def usage : List String := ["Usage: linty [options]", ""]

def helpText : List String :=
  usage ++
  ["Options:",
   "  -h, --help            show this help message and exit",
   "  -f FILE, --file=FILE  Compilation unit File(s) (*.c, *.cpp, ...).",
   "  -i INCLUDE_DIRS, --include-dir=INCLUDE_DIRS",
   "                        Specify include directories",
   "  -q, --quiet           Fewer message.",
   "  -v, --verbose         More messages.",
   "  -x IGNORE_RULES, --ignore-rule=IGNORE_RULES",
   "                        Identifiers of rules to ignore.",
   "  --ignore-nolint       Ignore \"// nolint\" statements.",
   "  --dont-show-source    Suppress source line display"]

/-- How a run ends. -/
inductive Outcome where
  /-- The command line is wrong: what is written to the error output. -/
  | usage (lines : List String)
  | help (lines : List String)
  | audited (a : Audit)

/-- Audits as a command line asks. -/
def run (files : FileSystem) (units : Units) (a : Audit) (words : List String) : Outcome :=
  match parse words with
  | .error e => .usage (usage ++ ["linty: error: " ++ e.message])
  | .ok o =>
    if o.help then .help helpText
    else .audited (a.run files units o.audit o.files)

end CommandLine

end StyleCheck
