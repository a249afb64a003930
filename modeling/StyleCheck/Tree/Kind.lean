/-!
# Kinds of nodes

Every node of a syntax tree is of one kind. A kind has an id, by which trees refer to it, and a
name, by which reports and configurations do.
-/

namespace StyleCheck

inductive Kind where
  | unexposedDecl | structDecl | unionDecl | classDecl | enumDecl | fieldDecl | enumConstantDecl
  | functionDecl | varDecl | parmDecl | objcInterfaceDecl | objcCategoryDecl | objcProtocolDecl
  | objcPropertyDecl | objcIvarDecl | objcInstanceMethodDecl | objcClassMethodDecl
  | objcImplementationDecl | objcCategoryImplDecl | typedefDecl | cxxMethod | namespaceDecl
  | linkageSpec | constructorDecl | destructorDecl | conversionFunction | templateTypeParameter
  | templateNonTypeParameter | templateTemplateParameter | functionTemplate | classTemplate
  | classTemplatePartialSpecialization | namespaceAlias | usingDirective | usingDeclaration
  | typeAliasDecl | objcSynthesizeDecl | objcDynamicDecl | cxxAccessSpecDecl
  | objcSuperClassRef | objcProtocolRef | objcClassRef | typeRef | cxxBaseSpecifier | templateRef
  | namespaceRef | memberRef | labelRef | overloadedDeclRef
  | invalidFile | noDeclFound | notImplemented | invalidCode
  | unexposedExpr | declRefExpr | memberRefExpr | callExpr | objcMessageExpr | blockExpr
  | integerLiteral | floatingLiteral | imaginaryLiteral | stringLiteral | characterLiteral
  | parenExpr | unaryOperator | arraySubscriptExpr | binaryOperator | compoundAssignmentOperator
  | conditionalOperator | cstyleCastExpr | compoundLiteralExpr | initListExpr | addrLabelExpr
  | stmtExpr | genericSelectionExpr | gnuNullExpr | cxxStaticCastExpr | cxxDynamicCastExpr
  | cxxReinterpretCastExpr | cxxConstCastExpr | cxxFunctionalCastExpr | cxxTypeidExpr
  | cxxBoolLiteralExpr | cxxNullPtrLiteralExpr | cxxThisExpr | cxxThrowExpr | cxxNewExpr
  | cxxDeleteExpr | cxxUnaryExpr | objcStringLiteral | objcEncodeExpr | objcSelectorExpr
  | objcProtocolExpr | objcBridgeCastExpr | packExpansionExpr | sizeOfPackExpr
  | unexposedStmt | labelStmt | compoundStmt | caseStmt | defaultStmt | ifStmt | switchStmt
  | whileStmt | doStmt | forStmt | gotoStmt | indirectGotoStmt | continueStmt | breakStmt
  | returnStmt | asmStmt | objcAtTryStmt | objcAtCatchStmt | objcAtFinallyStmt | objcAtThrowStmt
  | objcAtSynchronizedStmt | objcAutoreleasePoolStmt | objcForCollectionStmt | cxxCatchStmt
  | cxxTryStmt | cxxForRangeStmt | sehTryStmt | sehExceptStmt | sehFinallyStmt | nullStmt
  | declStmt
  | translationUnit
  | unexposedAttr | ibActionAttr | ibOutletAttr | ibOutletCollectionAttr
  | preprocessingDirective | macroDefinition | macroInstantiation | inclusionDirective
  deriving DecidableEq, Repr

namespace Kind

/-- All kinds, by increasing id. -/
def all : List Kind :=
  [.unexposedDecl, .structDecl, .unionDecl, .classDecl, .enumDecl, .fieldDecl, .enumConstantDecl,
   .functionDecl, .varDecl, .parmDecl, .objcInterfaceDecl, .objcCategoryDecl, .objcProtocolDecl,
   .objcPropertyDecl, .objcIvarDecl, .objcInstanceMethodDecl, .objcClassMethodDecl,
   .objcImplementationDecl, .objcCategoryImplDecl, .typedefDecl, .cxxMethod, .namespaceDecl,
   .linkageSpec, .constructorDecl, .destructorDecl, .conversionFunction, .templateTypeParameter,
   .templateNonTypeParameter, .templateTemplateParameter, .functionTemplate, .classTemplate,
   .classTemplatePartialSpecialization, .namespaceAlias, .usingDirective, .usingDeclaration,
   .typeAliasDecl, .objcSynthesizeDecl, .objcDynamicDecl, .cxxAccessSpecDecl, .objcSuperClassRef,
   .objcProtocolRef, .objcClassRef, .typeRef, .cxxBaseSpecifier, .templateRef, .namespaceRef,
   .memberRef, .labelRef, .overloadedDeclRef, .invalidFile, .noDeclFound, .notImplemented,
   .invalidCode, .unexposedExpr, .declRefExpr, .memberRefExpr, .callExpr, .objcMessageExpr,
   .blockExpr, .integerLiteral, .floatingLiteral, .imaginaryLiteral, .stringLiteral,
   .characterLiteral, .parenExpr, .unaryOperator, .arraySubscriptExpr, .binaryOperator,
   .compoundAssignmentOperator, .conditionalOperator, .cstyleCastExpr, .compoundLiteralExpr,
   .initListExpr, .addrLabelExpr, .stmtExpr, .genericSelectionExpr, .gnuNullExpr,
   .cxxStaticCastExpr, .cxxDynamicCastExpr, .cxxReinterpretCastExpr, .cxxConstCastExpr,
   .cxxFunctionalCastExpr, .cxxTypeidExpr, .cxxBoolLiteralExpr, .cxxNullPtrLiteralExpr,
   .cxxThisExpr, .cxxThrowExpr, .cxxNewExpr, .cxxDeleteExpr, .cxxUnaryExpr, .objcStringLiteral,
   .objcEncodeExpr, .objcSelectorExpr, .objcProtocolExpr, .objcBridgeCastExpr,
   .packExpansionExpr, .sizeOfPackExpr, .unexposedStmt, .labelStmt, .compoundStmt, .caseStmt,
   .defaultStmt, .ifStmt, .switchStmt, .whileStmt, .doStmt, .forStmt, .gotoStmt,
   .indirectGotoStmt, .continueStmt, .breakStmt, .returnStmt, .asmStmt, .objcAtTryStmt,
   .objcAtCatchStmt, .objcAtFinallyStmt, .objcAtThrowStmt, .objcAtSynchronizedStmt,
   .objcAutoreleasePoolStmt, .objcForCollectionStmt, .cxxCatchStmt, .cxxTryStmt,
   .cxxForRangeStmt, .sehTryStmt, .sehExceptStmt, .sehFinallyStmt, .nullStmt, .declStmt,
   .translationUnit, .unexposedAttr, .ibActionAttr, .ibOutletAttr, .ibOutletCollectionAttr,
   .preprocessingDirective, .macroDefinition, .macroInstantiation, .inclusionDirective]

def id : Kind → Nat
  | unexposedDecl => 1
  | structDecl => 2
  | unionDecl => 3
  | classDecl => 4
  | enumDecl => 5
  | fieldDecl => 6
  | enumConstantDecl => 7
  | functionDecl => 8
  | varDecl => 9
  | parmDecl => 10
  | objcInterfaceDecl => 11
  | objcCategoryDecl => 12
  | objcProtocolDecl => 13
  | objcPropertyDecl => 14
  | objcIvarDecl => 15
  | objcInstanceMethodDecl => 16
  | objcClassMethodDecl => 17
  | objcImplementationDecl => 18
  | objcCategoryImplDecl => 19
  | typedefDecl => 20
  | cxxMethod => 21
  | namespaceDecl => 22
  | linkageSpec => 23
  | constructorDecl => 24
  | destructorDecl => 25
  | conversionFunction => 26
  | templateTypeParameter => 27
  | templateNonTypeParameter => 28
  | templateTemplateParameter => 29
  | functionTemplate => 30
  | classTemplate => 31
  | classTemplatePartialSpecialization => 32
  | namespaceAlias => 33
  | usingDirective => 34
  | usingDeclaration => 35
  | typeAliasDecl => 36
  | objcSynthesizeDecl => 37
  | objcDynamicDecl => 38
  | cxxAccessSpecDecl => 39
  | objcSuperClassRef => 40
  | objcProtocolRef => 41
  | objcClassRef => 42
  | typeRef => 43
  | cxxBaseSpecifier => 44
  | templateRef => 45
  | namespaceRef => 46
  | memberRef => 47
  | labelRef => 48
  | overloadedDeclRef => 49
  | invalidFile => 70
  | noDeclFound => 71
  | notImplemented => 72
  | invalidCode => 73
  | unexposedExpr => 100
  | declRefExpr => 101
  | memberRefExpr => 102
  | callExpr => 103
  | objcMessageExpr => 104
  | blockExpr => 105
  | integerLiteral => 106
  | floatingLiteral => 107
  | imaginaryLiteral => 108
  | stringLiteral => 109
  | characterLiteral => 110
  | parenExpr => 111
  | unaryOperator => 112
  | arraySubscriptExpr => 113
  | binaryOperator => 114
  | compoundAssignmentOperator => 115
  | conditionalOperator => 116
  | cstyleCastExpr => 117
  | compoundLiteralExpr => 118
  | initListExpr => 119
  | addrLabelExpr => 120
  | stmtExpr => 121
  | genericSelectionExpr => 122
  | gnuNullExpr => 123
  | cxxStaticCastExpr => 124
  | cxxDynamicCastExpr => 125
  | cxxReinterpretCastExpr => 126
  | cxxConstCastExpr => 127
  | cxxFunctionalCastExpr => 128
  | cxxTypeidExpr => 129
  | cxxBoolLiteralExpr => 130
  | cxxNullPtrLiteralExpr => 131
  | cxxThisExpr => 132
  | cxxThrowExpr => 133
  | cxxNewExpr => 134
  | cxxDeleteExpr => 135
  | cxxUnaryExpr => 136
  | objcStringLiteral => 137
  | objcEncodeExpr => 138
  | objcSelectorExpr => 139
  | objcProtocolExpr => 140
  | objcBridgeCastExpr => 141
  | packExpansionExpr => 142
  | sizeOfPackExpr => 143
  | unexposedStmt => 200
  | labelStmt => 201
  | compoundStmt => 202
  | caseStmt => 203
  | defaultStmt => 204
  | ifStmt => 205
  | switchStmt => 206
  | whileStmt => 207
  | doStmt => 208
  | forStmt => 209
  | gotoStmt => 210
  | indirectGotoStmt => 211
  | continueStmt => 212
  | breakStmt => 213
  | returnStmt => 214
  | asmStmt => 215
  | objcAtTryStmt => 216
  | objcAtCatchStmt => 217
  | objcAtFinallyStmt => 218
  | objcAtThrowStmt => 219
  | objcAtSynchronizedStmt => 220
  | objcAutoreleasePoolStmt => 221
  | objcForCollectionStmt => 222
  | cxxCatchStmt => 223
  | cxxTryStmt => 224
  | cxxForRangeStmt => 225
  | sehTryStmt => 226
  | sehExceptStmt => 227
  | sehFinallyStmt => 228
  | nullStmt => 230
  | declStmt => 231
  | translationUnit => 300
  | unexposedAttr => 400
  | ibActionAttr => 401
  | ibOutletAttr => 402
  | ibOutletCollectionAttr => 403
  | preprocessingDirective => 500
  | macroDefinition => 501
  | macroInstantiation => 502
  | inclusionDirective => 503

def name : Kind → String
  | unexposedDecl => "UNEXPOSED_DECL"
  | structDecl => "STRUCT_DECL"
  | unionDecl => "UNION_DECL"
  | classDecl => "CLASS_DECL"
  | enumDecl => "ENUM_DECL"
  | fieldDecl => "FIELD_DECL"
  | enumConstantDecl => "ENUM_CONSTANT_DECL"
  | functionDecl => "FUNCTION_DECL"
  | varDecl => "VAR_DECL"
  | parmDecl => "PARM_DECL"
  | objcInterfaceDecl => "OBJC_INTERFACE_DECL"
  | objcCategoryDecl => "OBJC_CATEGORY_DECL"
  | objcProtocolDecl => "OBJC_PROTOCOL_DECL"
  | objcPropertyDecl => "OBJC_PROPERTY_DECL"
  | objcIvarDecl => "OBJC_IVAR_DECL"
  | objcInstanceMethodDecl => "OBJC_INSTANCE_METHOD_DECL"
  | objcClassMethodDecl => "OBJC_CLASS_METHOD_DECL"
  | objcImplementationDecl => "OBJC_IMPLEMENTATION_DECL"
  | objcCategoryImplDecl => "OBJC_CATEGORY_IMPL_DECL"
  | typedefDecl => "TYPEDEF_DECL"
  | cxxMethod => "CXX_METHOD"
  | namespaceDecl => "NAMESPACE"
  | linkageSpec => "LINKAGE_SPEC"
  | constructorDecl => "CONSTRUCTOR"
  | destructorDecl => "DESTRUCTOR"
  | conversionFunction => "CONVERSION_FUNCTION"
  | templateTypeParameter => "TEMPLATE_TYPE_PARAMETER"
  | templateNonTypeParameter => "TEMPLATE_NON_TYPE_PARAMETER"
  | templateTemplateParameter => "TEMPLATE_TEMPLATE_PARAMTER"
  | functionTemplate => "FUNCTION_TEMPLATE"
  | classTemplate => "CLASS_TEMPLATE"
  | classTemplatePartialSpecialization => "CLASS_TEMPLATE_PARTIAL_SPECIALIZATION"
  | namespaceAlias => "NAMESPACE_ALIAS"
  | usingDirective => "USING_DIRECTIVE"
  | usingDeclaration => "USING_DECLARATION"
  | typeAliasDecl => "TYPE_ALIAS_DECL"
  | objcSynthesizeDecl => "OBJC_SYNTHESIZE_DECL"
  | objcDynamicDecl => "OBJC_DYNAMIC_DECL"
  | cxxAccessSpecDecl => "CXX_ACCESS_SPEC_DECL"
  | objcSuperClassRef => "OBJC_SUPER_CLASS_REF"
  | objcProtocolRef => "OBJC_PROTOCOL_REF"
  | objcClassRef => "OBJC_CLASS_REF"
  | typeRef => "TYPE_REF"
  | cxxBaseSpecifier => "CXX_BASE_SPECIFIER"
  | templateRef => "TEMPLATE_REF"
  | namespaceRef => "NAMESPACE_REF"
  | memberRef => "MEMBER_REF"
  | labelRef => "LABEL_REF"
  | overloadedDeclRef => "OVERLOADED_DECL_REF"
  | invalidFile => "INVALID_FILE"
  | noDeclFound => "NO_DECL_FOUND"
  | notImplemented => "NOT_IMPLEMENTED"
  | invalidCode => "INVALID_CODE"
  | unexposedExpr => "UNEXPOSED_EXPR"
  | declRefExpr => "DECL_REF_EXPR"
  | memberRefExpr => "MEMBER_REF_EXPR"
  | callExpr => "CALL_EXPR"
  | objcMessageExpr => "OBJC_MESSAGE_EXPR"
  | blockExpr => "BLOCK_EXPR"
  | integerLiteral => "INTEGER_LITERAL"
  | floatingLiteral => "FLOATING_LITERAL"
  | imaginaryLiteral => "IMAGINARY_LITERAL"
  | stringLiteral => "STRING_LITERAL"
  | characterLiteral => "CHARACTER_LITERAL"
  | parenExpr => "PAREN_EXPR"
  | unaryOperator => "UNARY_OPERATOR"
  | arraySubscriptExpr => "ARRAY_SUBSCRIPT_EXPR"
  | binaryOperator => "BINARY_OPERATOR"
  | compoundAssignmentOperator => "COMPOUND_ASSIGNMENT_OPERATOR"
  | conditionalOperator => "CONDITIONAL_OPERATOR"
  | cstyleCastExpr => "CSTYLE_CAST_EXPR"
  | compoundLiteralExpr => "COMPOUND_LITERAL_EXPR"
  | initListExpr => "INIT_LIST_EXPR"
  | addrLabelExpr => "ADDR_LABEL_EXPR"
  | stmtExpr => "StmtExpr"
  | genericSelectionExpr => "GENERIC_SELECTION_EXPR"
  | gnuNullExpr => "GNU_NULL_EXPR"
  | cxxStaticCastExpr => "CXX_STATIC_CAST_EXPR"
  | cxxDynamicCastExpr => "CXX_DYNAMIC_CAST_EXPR"
  | cxxReinterpretCastExpr => "CXX_REINTERPRET_CAST_EXPR"
  | cxxConstCastExpr => "CXX_CONST_CAST_EXPR"
  | cxxFunctionalCastExpr => "CXX_FUNCTIONAL_CAST_EXPR"
  | cxxTypeidExpr => "CXX_TYPEID_EXPR"
  | cxxBoolLiteralExpr => "CXX_BOOL_LITERAL_EXPR"
  | cxxNullPtrLiteralExpr => "CXX_NULL_PTR_LITERAL_EXPR"
  | cxxThisExpr => "CXX_THIS_EXPR"
  | cxxThrowExpr => "CXX_THROW_EXPR"
  | cxxNewExpr => "CXX_NEW_EXPR"
  | cxxDeleteExpr => "CXX_DELETE_EXPR"
  | cxxUnaryExpr => "CXX_UNARY_EXPR"
  | objcStringLiteral => "OBJC_STRING_LITERAL"
  | objcEncodeExpr => "OBJC_ENCODE_EXPR"
  | objcSelectorExpr => "OBJC_SELECTOR_EXPR"
  | objcProtocolExpr => "OBJC_PROTOCOL_EXPR"
  | objcBridgeCastExpr => "OBJC_BRIDGE_CAST_EXPR"
  | packExpansionExpr => "PACK_EXPANSION_EXPR"
  | sizeOfPackExpr => "SIZE_OF_PACK_EXPR"
  | unexposedStmt => "UNEXPOSED_STMT"
  | labelStmt => "LABEL_STMT"
  | compoundStmt => "COMPOUND_STMT"
  | caseStmt => "CASE_STMT"
  | defaultStmt => "DEFAULT_STMT"
  | ifStmt => "IF_STMT"
  | switchStmt => "SWITCH_STMT"
  | whileStmt => "WHILE_STMT"
  | doStmt => "DO_STMT"
  | forStmt => "FOR_STMT"
  | gotoStmt => "GOTO_STMT"
  | indirectGotoStmt => "INDIRECT_GOTO_STMT"
  | continueStmt => "CONTINUE_STMT"
  | breakStmt => "BREAK_STMT"
  | returnStmt => "RETURN_STMT"
  | asmStmt => "ASM_STMT"
  | objcAtTryStmt => "OBJC_AT_TRY_STMT"
  | objcAtCatchStmt => "OBJC_AT_CATCH_STMT"
  | objcAtFinallyStmt => "OBJC_AT_FINALLY_STMT"
  | objcAtThrowStmt => "OBJC_AT_THROW_STMT"
  | objcAtSynchronizedStmt => "OBJC_AT_SYNCHRONIZED_STMT"
  | objcAutoreleasePoolStmt => "OBJC_AUTORELEASE_POOL_STMT"
  | objcForCollectionStmt => "OBJC_FOR_COLLECTION_STMT"
  | cxxCatchStmt => "CXX_CATCH_STMT"
  | cxxTryStmt => "CXX_TRY_STMT"
  | cxxForRangeStmt => "CXX_FOR_RANGE_STMT"
  | sehTryStmt => "SEH_TRY_STMT"
  | sehExceptStmt => "SEH_EXCEPT_STMT"
  | sehFinallyStmt => "SEH_FINALLY_STMT"
  | nullStmt => "NULL_STMT"
  | declStmt => "DECL_STMT"
  | translationUnit => "TRANSLATION_UNIT"
  | unexposedAttr => "UNEXPOSED_ATTR"
  | ibActionAttr => "IB_ACTION_ATTR"
  | ibOutletAttr => "IB_OUTLET_ATTR"
  | ibOutletCollectionAttr => "IB_OUTLET_COLLECTION_ATTR"
  | preprocessingDirective => "PREPROCESSING_DIRECTIVE"
  | macroDefinition => "MACRO_DEFINITION"
  | macroInstantiation => "MACRO_INSTANTIATION"
  | inclusionDirective => "INCLUSION_DIRECTIVE"

end Kind

end StyleCheck
