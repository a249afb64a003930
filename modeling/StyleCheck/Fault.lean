/-!
# Faults

Why a run is given up. A fault names its cause; `Fault.message` is the only place that words it.
A violation of the style is not a fault: see `StyleCheck.Violation`.
-/

namespace StyleCheck

inductive Fault where
  /-- A file that does not exist was opened. -/
  | fileMissing (path : String)
  /-- A line, a kind or a part was asked for by a number that there is none of. -/
  | entryOutOfRange
  /-- A column lies behind the end of its line. -/
  | columnOutOfRange
  /-- A token was asked of a construct that has too few of them. -/
  | tokenOutOfRange
  /-- A tab was met while tabs are zero columns wide. -/
  | zeroTabWidth
  /-- A blocked file was asked about under a name the filter has no answer for. -/
  | blockedFile (name : String)
  /-- A part was asked of something that is not there. -/
  | absent (part : String)
  /-- An access label stands in a construct that keeps no visibility mark. -/
  | noVisibilityMark (construct : String)
  /-- The text rule has nothing to apply. -/
  | noTextRule
  /-- A table of kinds has no entry of this name. -/
  | noKindNamed (table name : String)
  /-- No kind of node has this id. -/
  | unknownNodeKind
  /-- No kind of type has this id. -/
  | unknownTypeKind (id : Int)
  /-- The id of a kind is in use. -/
  | kindTaken (table : String)
  /-- No construct is known under this label. -/
  | noConstruct (label : String)
  /-- The tree check has nothing to write its log to. -/
  | noLog
  /-- The settings have no entry of this name. -/
  | unknownSetting (name : String)
  /-- A setting that counts levels holds a text that writes no integer. -/
  | notAnInteger (text : String)
  /-- A setting that counts levels holds something of a shape that cannot count. -/
  | notANumber (shape : String)
  /-- A header check was given a path and lines. -/
  | headerGivenTwice
  /-- A header check was given neither a path nor lines. -/
  | headerNotGiven
  /-- A header line is no pattern. -/
  | badPattern
  /-- The spacing rule has nothing to apply. -/
  | noSpacingRule
  /-- Levels were built from neither a column nor a base with an offset. -/
  | levelsNotGiven
  /-- A construct has a closing brace but no opening one. -/
  | strayClosingBrace
  /-- The style names no placement of braces. -/
  | unknownPlacement
  /-- A walk began while constructs were open, or ended with some left open. -/
  | unbalancedWalk
  /-- A construct has no first token. -/
  | noFirstToken
  /-- A do loop does not begin with its keyword. -/
  | noDoKeyword
  /-- A do loop has no keyword `while` of its own. -/
  | noWhileKeyword
  /-- A do loop has other than two parts. -/
  | doLoopParts
  /-- The body of a do loop is not enclosed in braces. -/
  | doLoopBraces
  deriving DecidableEq, Repr

namespace Fault

/-- The text a fault is reported with. -/
def message : Fault → String
  | fileMissing path => "[Errno 2] No such file or directory: '" ++ path ++ "'"
  | entryOutOfRange => "list index out of range"
  | columnOutOfRange => "string index out of range"
  | tokenOutOfRange => "tuple index out of range"
  | zeroTabWidth => "integer division or modulo by zero"
  | blockedFile name => name
  | absent part => "'NoneType' object has no attribute '" ++ part ++ "'"
  | noVisibilityMark construct =>
    "'" ++ construct ++ "' object has no attribute 'visibility_specifier_touched'"
  | noTextRule => "'Check' object has no attribute 'processFiltered'"
  | noKindNamed table name => "type object '" ++ table ++ "' has no attribute '" ++ name ++ "'"
  | unknownNodeKind => "Unknown cursor kind"
  | unknownTypeKind id => "Unknown type kind " ++ toString id
  | kindTaken table => table ++ " already loaded"
  | noConstruct label => "name '" ++ label ++ "' is not defined"
  | noLog => "name 'logging' is not defined"
  | unknownSetting name => "Unknown parameter \"" ++ name ++ "\"."
  | notAnInteger text => "invalid literal for int() with base 10: '" ++ text ++ "'"
  | notANumber shape =>
    "int() argument must be a string, a bytes-like object or a real number, not '" ++ shape ++ "'"
  | headerGivenTwice => "Cannot give both path and lines to HeaderCheck."
  | headerNotGiven => "One of path and lines has to be given to HeaderCheck."
  | noSpacingRule => "Abstract method!"
  | noFirstToken => "There must be a first token!"
  | noDoKeyword => "First token must be do token."
  | noWhileKeyword => "Must find while token."
  | doLoopParts => "A do-while statement has two children."
  | badPattern | levelsNotGiven | strayClosingBrace | unknownPlacement | unbalancedWalk
  | doLoopBraces => ""

end Fault

end StyleCheck
