import StyleCheck.Fault
import StyleCheck.Tree.Kind

/-!
# Constructs

What indentation sees in a node. The form of a construct decides how it is checked, how far its
body is indented, and whether it answers for the braces of a compound statement below it; its
label names it in reports.
-/

namespace StyleCheck

/-- The forms of constructs. -/
inductive Form where
  /-- The place that a whole unit stands in. -/
  | root
  /-- Starts in an expected column, and that is all. -/
  | plain
  /-- Not checked. -/
  | silent
  /-- Not checked, and hands braces on to what it stands in. -/
  | unexposed
  /-- A case label, or a statement indented like one. -/
  | caseLabel
  | enumeration
  /-- A class, struct or union. -/
  | record
  | recordTemplate
  /-- A function whose braces are checked. -/
  | method
  /-- A function whose braces are not checked. -/
  | function
  /-- A block that adds no level. -/
  | block
  | compound
  /-- A loop over a range, of which the last part alone is looked at. -/
  | rangeLoop
  | whileLoop
  /-- A statement with a block whose braces are not checked. -/
  | conditional
  | doLoop
  | switch
  | namespaceBody
  /-- An access label such as `public:`. -/
  | accessLabel
  /-- A label to jump to. -/
  | jumpLabel
  deriving DecidableEq, Repr

structure Construct where
  label : String
  form : Form
  deriving DecidableEq, Repr

namespace Kind

def form : Kind → Form
  | unexposedDecl | unexposedExpr | unexposedStmt | unexposedAttr => .unexposed
  | caseStmt | defaultStmt | breakStmt => .caseLabel
  | enumDecl => .enumeration
  | classDecl | structDecl | unionDecl => .record
  | classTemplate | classTemplatePartialSpecialization => .recordTemplate
  | constructorDecl | destructorDecl | conversionFunction | cxxMethod => .method
  | functionDecl | functionTemplate => .function
  | blockExpr => .block
  | compoundStmt => .compound
  | cxxForRangeStmt => .rangeLoop
  | whileStmt => .whileLoop
  | ifStmt | forStmt | cxxTryStmt => .conditional
  | doStmt => .doLoop
  | switchStmt => .switch
  | namespaceDecl => .namespaceBody
  | cxxAccessSpecDecl => .accessLabel
  | labelStmt => .jumpLabel
  | translationUnit | varDecl | parmDecl | linkageSpec | typeAliasDecl | usingDirective
  | usingDeclaration | templateTypeParameter | templateNonTypeParameter
  | templateTemplateParameter | typeRef | templateRef | namespaceRef | memberRef | labelRef
  | overloadedDeclRef | memberRefExpr | initListExpr | invalidFile | noDeclFound
  | notImplemented | invalidCode | ibActionAttr | ibOutletAttr | ibOutletCollectionAttr
  | preprocessingDirective | macroDefinition | macroInstantiation | inclusionDirective
  | sehTryStmt | sehExceptStmt | sehFinallyStmt
  | objcInterfaceDecl | objcCategoryDecl | objcProtocolDecl | objcPropertyDecl | objcIvarDecl
  | objcInstanceMethodDecl | objcClassMethodDecl | objcImplementationDecl | objcCategoryImplDecl
  | objcSynthesizeDecl | objcDynamicDecl | objcSuperClassRef | objcProtocolRef | objcClassRef
  | objcMessageExpr | objcStringLiteral | objcEncodeExpr | objcSelectorExpr | objcProtocolExpr
  | objcBridgeCastExpr | objcAtTryStmt | objcAtCatchStmt | objcAtFinallyStmt | objcAtThrowStmt
  | objcAtSynchronizedStmt | objcAutoreleasePoolStmt | objcForCollectionStmt => .silent
  | _ => .plain

end Kind

namespace Construct

/-- Words in underscores as one word in capitals: `NO_DECL` is `NoDecl`. -/
def titled : (atStart : Bool) → List Char → List Char
  | _, [] => []
  | atStart, c :: cs =>
    if c = '_' then titled true cs
    else (if atStart then c.toUpper else c.toLower) :: titled false cs

/-- The label of the construct that a kind of node makes. -/
def labelOf (k : Kind) : String := String.ofList (titled true k.name.toList) ++ "Handler"

/-- The construct that a kind of node makes. Template template parameters make none. -/
def ofKind (k : Kind) : Except Fault Construct :=
  match k with
  | .templateTemplateParameter => .error (.noConstruct (labelOf k))
  | _ => .ok ⟨labelOf k, k.form⟩

def root : Construct := ⟨"RootHandler", .root⟩

/-- Constructs that no kind of node makes. -/
def general : List Construct :=
  [root, ⟨"IndentSyntaxNodeHandler", .plain⟩, ⟨"UnexposedNodeHandler", .unexposed⟩,
   ⟨"CurlyBraceBlockHandler", .block⟩, ⟨"TemplateTemplateParameterHandler", .silent⟩]

/-- The construct of a label. -/
def ofLabel (label : String) : Except Fault Construct :=
  match general.find? (fun c => c.label == label) with
  | some c => .ok c
  | none =>
    match Kind.all.find? (fun k => labelOf k == label) with
    | some k => ofKind k
    | none => .error (.noConstruct label)

end Construct

end StyleCheck
