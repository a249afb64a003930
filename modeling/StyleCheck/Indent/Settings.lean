import StyleCheck.Fault
import StyleCheck.Text.Numeral

/-!
# Settings

The settings of a style, by name, and the part of them that decides indentation. Every setting has
a default; a name that has none is refused, apart from a few that are taken and never read.
-/

namespace StyleCheck

/-- The value of a setting. -/
inductive Setting where
  | flag (b : Bool)
  | number (n : Int)
  | text (s : String)
  | unset
  /-- A list, of which no more is known than whether it is empty and how it is written. -/
  | list (isEmpty : Bool) (written : String)
  /-- A table of named values, known like a list. -/
  | table (isEmpty : Bool) (written : String)
  deriving DecidableEq, Repr

/-- Whether a value switches something on. -/
def Setting.isOn : Setting → Bool
  | flag b => b
  | number n => n != 0
  | text s => s != ""
  | unset => false
  | list isEmpty _ | table isEmpty _ => !isEmpty

/-- A value as a number, of columns or of levels. A flag that is set counts as one; what writes no
number counts as nothing. -/
def Setting.count : Setting → Int
  | flag b => b.toInt
  | number n => n
  | text s => (Numeral.toInt? s).getD 0
  | unset | list .. | table .. => 0

/-- Why a value cannot count, if it cannot. -/
def Setting.countFault? : Setting → Option Fault
  | flag _ | number _ => none
  | text s => if (Numeral.toInt? s).isSome then none else some (.notAnInteger s)
  | unset => some (.notANumber "NoneType")
  | list .. => some (.notANumber "list")
  | table .. => some (.notANumber "dict")

/-- Where an opening brace belongs. -/
inductive BracePlacement where
  /-- Behind the token in front of it. -/
  | sameLine
  /-- On the line below, in the column of the construct. -/
  | nextLine
  /-- On the line below, one level further in. -/
  | nextLineIndent
  /-- Any other word: no placement. -/
  | other (word : String)
  deriving DecidableEq, Repr

def BracePlacement.ofSetting : Setting → BracePlacement
  | .text "same-line" => sameLine
  | .text "next-line" => nextLine
  | .text "next-line-indent" => nextLineIndent
  | .text s => other s
  | _ => other ""

/-- The settings, in the order of their declaration. -/
structure Settings where
  entries : List (String × Setting)
  deriving DecidableEq, Repr

namespace Settings

def defaults : Settings := ⟨
  [("tab_policy", .text "spaces-only"),
   ("indentation_size", .number 4),
   ("tab_size", .number 4),
   ("indent_visibility_specifiers", .flag false),
   ("indent_below_visibility_specifiers", .flag true),
   ("indent_inside_class_struct_body", .flag true),
   ("indent_statements_within_function_bodies", .flag true),
   ("indent_statements_within_blocks", .flag true),
   ("indent_statements_within_switch_body", .flag false),
   ("indent_statements_within_case_body", .flag true),
   ("indent_break_statements", .flag true),
   ("indent_declarations_within_namespace_definition", .flag false),
   ("indent_labels_flush_left", .flag true),
   ("brace_positions_class_struct_declaration", .text "same-line"),
   ("brace_positions_namespace_declaration", .text "same-line"),
   ("brace_positions_function_declaration", .text "same-line"),
   ("brace_positions_blocks", .text "same-line"),
   ("brace_positions_blocks_in_case_statement", .text "same-line"),
   ("brace_positions_switch_statement", .text "same-line"),
   ("brace_positions_brace_positions_initializer_list", .text "same-line"),
   ("brace_positions_keep_empty_initializer_list_on_one_line", .flag true),
   ("insert_space_before_opening_brace_of_a_class", .flag true),
   ("insert_space_before_colon_of_base_clause", .flag false),
   ("insert_space_after_colon_of_base_clause", .flag true),
   ("insert_space_before_comma_in_base_clause", .flag false),
   ("insert_space_after_comma_in_base_clause", .flag true),
   ("insert_space_before_comma_in_declarator_list", .flag false),
   ("insert_space_after_comma_in_declarator_list", .flag true),
   ("insert_space_before_opening_function_parenthesis", .flag false),
   ("insert_space_after_opening_function_parenthesis", .flag false),
   ("insert_space_before_closing_function_parenthesis", .flag false),
   ("insert_space_between_empty_function_parentheses", .flag false),
   ("insert_space_before_opening_function_brace", .flag true),
   ("insert_space_before_comma_in_parameters", .flag false),
   ("insert_space_after_comma_in_parameters", .flag true),
   ("insert_space_before_opening_exception_specification_parenthesis", .flag true),
   ("insert_space_after_opening_exception_specification_parenthesis", .flag false),
   ("insert_space_before_closing_exception_specification_parenthesis", .flag false),
   ("insert_space_between_empty_exception_specification_parenthesis", .flag true),
   ("insert_space_before_comma_in_exception_specification_parameters", .flag false),
   ("insert_space_after_comma_in_exception_specification_parameters", .flag true),
   ("insert_space_before_label_colon", .flag false),
   ("insert_space_after_label_colon", .flag true),
   ("insert_space_before_control_statement_semicolon", .flag false),
   ("insert_space_before_opening_block_brace", .flag true),
   ("insert_space_after_closing_block_brace", .flag true),
   ("insert_space_before_opening_if_else_parenthesis", .flag true),
   ("insert_space_after_opening_if_else_parenthesis", .flag false),
   ("insert_space_before_closing_if_else_parenthesis", .flag false),
   ("insert_space_before_opening_for_parenthesis", .flag true),
   ("insert_space_after_opening_for_parenthesis", .flag false),
   ("insert_space_before_closing_for_parenthesis", .flag false),
   ("insert_space_before_for_semicolon", .flag false),
   ("insert_space_after_for_semicolon", .flag true),
   ("insert_space_before_colon_in_switch_case", .flag false),
   ("insert_space_before_colon_in_switch_default", .flag false),
   ("insert_space_before_opening_switch_brace", .flag true),
   ("insert_space_before_opening_switch_parenthesis", .flag true),
   ("insert_space_after_opening_switch_parenthesis", .flag false),
   ("insert_space_before_closing_switch_parenthesis", .flag false),
   ("insert_space_before_opening_do_while_parenthesis", .flag true),
   ("insert_space_after_opening_do_while_parenthesis", .flag false),
   ("insert_space_before_closing_do_while_parenthesis", .flag false),
   ("insert_space_before_opening_catch_parenthesis", .flag true),
   ("insert_space_after_opening_catch_parenthesis", .flag false),
   ("insert_space_before_closing_catch_parenthesis", .flag false),
   ("insert_space_before_opening_function_invocation_parenthesis", .flag false),
   ("insert_space_after_opening_function_invocation_parenthesis", .flag false),
   ("insert_space_before_closing_function_invocation_parenthesis", .flag false),
   ("insert_space_between_empty_function_invocation_parentheses", .flag false),
   ("insert_space_before_comma_in_function_arguments", .flag false),
   ("insert_space_after_comma_in_function_arguments", .flag true),
   ("insert_space_before_assignment_operator", .flag true),
   ("insert_space_after_assignment_operator", .flag true),
   ("insert_space_before_opening_initializer_list_brace", .flag true),
   ("insert_space_after_opening_initializer_list_brace", .flag true),
   ("insert_space_before_closing_initializer_list_brace", .flag true),
   ("insert_space_before_initializer_list_comma", .flag false),
   ("insert_space_after_initializer_list_comma", .flag true),
   ("insert_space_between_empty_initializer_list_braces", .flag false),
   ("insert_space_before_binary_operators", .flag true),
   ("insert_space_after_binary_operators", .flag true),
   ("insert_space_before_unary_operators", .flag false),
   ("insert_space_after_unary_operators", .flag false),
   ("insert_space_before_prefix_operators", .flag false),
   ("insert_space_after_prefix_operators", .flag false),
   ("insert_space_before_postfix_operators", .flag false),
   ("insert_space_after_postfix_operators", .flag false),
   ("insert_space_before_opening_parenthesis", .flag false),
   ("insert_space_after_opening_parenthesis", .flag false),
   ("insert_space_before_closing_parenthesis", .flag false),
   ("insert_space_after_closing_parenthesis", .flag true),
   ("insert_space_before_conditional_question_mark", .flag true),
   ("insert_space_after_conditional_question_mark", .flag true),
   ("insert_space_before_conditional_colon", .flag true),
   ("insert_space_after_conditional_colon", .flag true),
   ("insert_space_before_comma_in_expression_list", .flag false),
   ("insert_space_after_comma_in_expression_list", .flag true),
   ("insert_space_before_opening_array_bracket", .flag false),
   ("insert_space_after_opening_array_bracket", .flag false),
   ("insert_space_before_closing_array_bracket", .flag false),
   ("insert_space_between_empty_array_brackets", .flag false),
   ("insert_space_before_opening_template_argument_angle_bracket", .flag false),
   ("insert_space_after_opening_template_argument_angle_bracket", .flag false),
   ("insert_space_before_template_argument_comma", .flag false),
   ("insert_space_after_template_argument_comma", .flag true),
   ("insert_space_before_closing_template_argument_angle_bracket", .flag false),
   ("insert_space_after_closing_template_argument_angle_bracket", .flag true),
   ("insert_space_before_opening_template_parameter_angle_bracket", .flag false),
   ("insert_space_after_opening_template_parameter_angle_bracket", .flag false),
   ("insert_space_before_template_parameter_comma", .flag false),
   ("insert_space_after_template_parameter_comma", .flag true),
   ("insert_space_before_closing_template_parameter_angle_bracket", .flag false),
   ("insert_space_after_closing_template_parameter_angle_bracket", .flag true),
   ("insert_new_line_before_else_in_an_if_statement", .flag false),
   ("insert_new_line_before_catch_in_a_try_statement", .flag false),
   ("insert_new_line_before_while_in_a_do_statement", .flag false),
   ("keep_then_statement_on_same_line", .flag false),
   ("keep_simple_if_on_one_line", .flag false),
   ("keep_else_statement_on_same_line", .flag false),
   ("keep_else_if_on_one_line", .flag true),
   ("line_wrapping_allow_flush", .flag true),
   ("line_wrapping_allow_indent", .flag true),
   ("line_wrapping_indent", .number 2),
   ("line_wrapping_initializer_list_allow_flush", .flag true),
   ("line_wrapping_initializer_list_allow_indent", .flag true),
   ("line_wrapping_initializer_list_indent", .number 2)]⟩

def get (s : Settings) (name : String) : Setting := (s.entries.lookup name).getD .unset

/-- Names that are taken although they have no default. No rule reads them. -/
def spare : List String :=
  ["__class__", "__delattr__", "__dict__", "__dir__", "__doc__", "__eq__", "__format__", "__ge__",
   "__getattribute__", "__getstate__", "__gt__", "__hash__", "__init__", "__init_subclass__",
   "__le__", "__lt__", "__module__", "__ne__", "__new__", "__reduce__", "__reduce_ex__",
   "__repr__", "__setattr__", "__sizeof__", "__str__", "__subclasshook__", "__weakref__"]

/-- Changes the value of a setting that there is, or gives a spare name a value. -/
def set (s : Settings) (name : String) (value : Setting) : Except Fault Settings :=
  if s.entries.any (fun e => e.1 == name) then
    .ok ⟨s.entries.map fun e => if e.1 == name then (name, value) else e⟩
  else if spare.contains name then .ok ⟨s.entries ++ [(name, value)]⟩
  else .error (.unknownSetting name)

/-- Changes several settings, one after the other. -/
def setAll (s : Settings) : List (String × Setting) → Except Fault Settings
  | [] => .ok s
  | (name, value) :: rest =>
    match s.set name value with
    | .ok s' => s'.setAll rest
    | .error e => .error e

end Settings

/-- What decides indentation: the widths of a tab and of a level, settings that count the levels by
which the bodies of constructs are indented, and where braces belong. -/
structure IndentStyle where
  tabSize : Int
  levelSize : Int
  belowVisibility : Setting
  insideRecord : Setting
  insideFunction : Setting
  insideBlock : Setting
  insideSwitch : Setting
  insideCase : Setting
  insideNamespace : Setting
  labelsFlushLeft : Bool
  recordBraces : BracePlacement
  namespaceBraces : BracePlacement
  functionBraces : BracePlacement
  blockBraces : BracePlacement
  switchBraces : BracePlacement
  deriving DecidableEq, Repr

def IndentStyle.ofSettings (s : Settings) : IndentStyle where
  tabSize := (s.get "tab_size").count
  levelSize := (s.get "indentation_size").count
  belowVisibility := s.get "indent_below_visibility_specifiers"
  insideRecord := s.get "indent_inside_class_struct_body"
  insideFunction := s.get "indent_statements_within_function_bodies"
  insideBlock := s.get "indent_statements_within_blocks"
  insideSwitch := s.get "indent_statements_within_switch_body"
  insideCase := s.get "indent_statements_within_case_body"
  insideNamespace := s.get "indent_declarations_within_namespace_definition"
  labelsFlushLeft := (s.get "indent_labels_flush_left").isOn
  recordBraces := .ofSetting (s.get "brace_positions_class_struct_declaration")
  namespaceBraces := .ofSetting (s.get "brace_positions_namespace_declaration")
  functionBraces := .ofSetting (s.get "brace_positions_function_declaration")
  blockBraces := .ofSetting (s.get "brace_positions_blocks")
  switchBraces := .ofSetting (s.get "brace_positions_switch_statement")

/-- The style of the default settings. -/
def IndentStyle.standard : IndentStyle := .ofSettings .defaults

end StyleCheck
