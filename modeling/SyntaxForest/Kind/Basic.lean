/-!
# Kinds of syntax nodes

The closed set of node kinds, in a fixed order, each with the upper-case name that diagnostics print.
-/

namespace SyntaxForest

/-- What a syntax node stands for. The order of the constructors is the order of kinds. -/
inductive Kind
  -- Top level
  | root | script | moduleBody
  -- Statements
  | block | empty | exprResult | varDecl | letDecl | constDecl | ifStmt | switchStmt | switchCase
  | defaultCase | whileLoop | doLoop | forLoop | forIn | forOf | forAwaitOf | breakStmt
  | continueStmt | returnStmt | throwStmt | tryStmt | catchClause | withStmt | label | labelName
  | debugger
  -- Functions and classes
  | function | paramList | classDef | classMembers | extendsClause | memberFunction | memberField
  | computedProp | computedField | getter | setter | superRef | newTarget | yieldExpr | awaitExpr
  -- Literals and atoms
  | identifier | stringLit | numberLit | bigIntLit | regexpLit | nullLit | thisRef | trueLit
  | falseLit | arrayLit | objectLit | stringKey | templateLit | templateSub | templateString
  | taggedTemplate
  -- Member access and calls
  | getProp | getElem | optChainGetProp | optChainGetElem | optChainCall | call | newExpr
  | dynamicImport | importMeta
  -- Unary operators
  | logicalNot | bitNot | unaryPlus | unaryMinus | typeOf | voidOp | deleteProp | increment
  | decrement
  -- Binary operators
  | bitOr | bitXor | bitAnd | equal | notEqual | strictEqual | strictNotEqual | less | lessEqual
  | greater | greaterEqual | shiftLeft | shiftRight | unsignedShiftRight | add | sub | mul | div
  | mod | exponent | inOp | instanceOf | logicalOr | logicalAnd | coalesce | comma | conditional
  -- Assignment
  | assign | assignBitOr | assignBitXor | assignBitAnd | assignShiftLeft | assignShiftRight
  | assignUnsignedShiftRight | assignAdd | assignSub | assignMul | assignDiv | assignMod
  | assignExponent | assignLogicalOr | assignLogicalAnd | assignCoalesce
  -- Destructuring and spread
  | arrayPattern | objectPattern | destructuringLhs | defaultValue | iterRest | objectRest
  | iterSpread | objectSpread
  -- Modules
  | importDecl | importSpecs | importSpec | importStar | exportDecl | exportSpecs | exportSpec
  -- Type annotation syntax
  | cast | stringType | booleanType | numberType | anyType | voidType | undefinedType | namedType
  | arrayType | functionType | parameterizedType | unionType | nullableType | recordType
  | restParameterType | optionalParameter | genericType | genericTypeList | interfaceDecl
  | interfaceExtends | interfaceMembers | enumDecl | enumMembers | typeAlias | indexSignature
  | callSignature | namespaceDecl | namespaceElements | declareDecl
  -- Doc-comment type expressions
  | bang | qmark | ellipsis | pipe | star | equals
  deriving DecidableEq, Repr

namespace Kind

/-- Place in the order of kinds, from zero. -/
def index (kind : Kind) : Nat := kind.ctorIdx

/-- The name that diagnostics print. -/
def name : Kind → String
  | .root => "ROOT"
  | .script => "SCRIPT"
  | .moduleBody => "MODULE_BODY"
  | .block => "BLOCK"
  | .empty => "EMPTY"
  | .exprResult => "EXPR_RESULT"
  | .varDecl => "VAR"
  | .letDecl => "LET"
  | .constDecl => "CONST"
  | .ifStmt => "IF"
  | .switchStmt => "SWITCH"
  | .switchCase => "CASE"
  | .defaultCase => "DEFAULT_CASE"
  | .whileLoop => "WHILE"
  | .doLoop => "DO"
  | .forLoop => "FOR"
  | .forIn => "FOR_IN"
  | .forOf => "FOR_OF"
  | .forAwaitOf => "FOR_AWAIT_OF"
  | .breakStmt => "BREAK"
  | .continueStmt => "CONTINUE"
  | .returnStmt => "RETURN"
  | .throwStmt => "THROW"
  | .tryStmt => "TRY"
  | .catchClause => "CATCH"
  | .withStmt => "WITH"
  | .label => "LABEL"
  | .labelName => "LABEL_NAME"
  | .debugger => "DEBUGGER"
  | .function => "FUNCTION"
  | .paramList => "PARAM_LIST"
  | .classDef => "CLASS"
  | .classMembers => "CLASS_MEMBERS"
  | .extendsClause => "EXTENDS"
  | .memberFunction => "MEMBER_FUNCTION_DEF"
  | .memberField => "MEMBER_FIELD_DEF"
  | .computedProp => "COMPUTED_PROP"
  | .computedField => "COMPUTED_FIELD_DEF"
  | .getter => "GETTER_DEF"
  | .setter => "SETTER_DEF"
  | .superRef => "SUPER"
  | .newTarget => "NEW_TARGET"
  | .yieldExpr => "YIELD"
  | .awaitExpr => "AWAIT"
  | .identifier => "NAME"
  | .stringLit => "STRING"
  | .numberLit => "NUMBER"
  | .bigIntLit => "BIGINT"
  | .regexpLit => "REGEXP"
  | .nullLit => "NULL"
  | .thisRef => "THIS"
  | .trueLit => "TRUE"
  | .falseLit => "FALSE"
  | .arrayLit => "ARRAYLIT"
  | .objectLit => "OBJECTLIT"
  | .stringKey => "STRING_KEY"
  | .templateLit => "TEMPLATELIT"
  | .templateSub => "TEMPLATELIT_SUB"
  | .templateString => "TEMPLATELIT_STRING"
  | .taggedTemplate => "TAGGED_TEMPLATELIT"
  | .getProp => "GETPROP"
  | .getElem => "GETELEM"
  | .optChainGetProp => "OPTCHAIN_GETPROP"
  | .optChainGetElem => "OPTCHAIN_GETELEM"
  | .optChainCall => "OPTCHAIN_CALL"
  | .call => "CALL"
  | .newExpr => "NEW"
  | .dynamicImport => "DYNAMIC_IMPORT"
  | .importMeta => "IMPORT_META"
  | .logicalNot => "NOT"
  | .bitNot => "BITNOT"
  | .unaryPlus => "POS"
  | .unaryMinus => "NEG"
  | .typeOf => "TYPEOF"
  | .voidOp => "VOID"
  | .deleteProp => "DELPROP"
  | .increment => "INC"
  | .decrement => "DEC"
  | .bitOr => "BITOR"
  | .bitXor => "BITXOR"
  | .bitAnd => "BITAND"
  | .equal => "EQ"
  | .notEqual => "NE"
  | .strictEqual => "SHEQ"
  | .strictNotEqual => "SHNE"
  | .less => "LT"
  | .lessEqual => "LE"
  | .greater => "GT"
  | .greaterEqual => "GE"
  | .shiftLeft => "LSH"
  | .shiftRight => "RSH"
  | .unsignedShiftRight => "URSH"
  | .add => "ADD"
  | .sub => "SUB"
  | .mul => "MUL"
  | .div => "DIV"
  | .mod => "MOD"
  | .exponent => "EXPONENT"
  | .inOp => "IN"
  | .instanceOf => "INSTANCEOF"
  | .logicalOr => "OR"
  | .logicalAnd => "AND"
  | .coalesce => "COALESCE"
  | .comma => "COMMA"
  | .conditional => "HOOK"
  | .assign => "ASSIGN"
  | .assignBitOr => "ASSIGN_BITOR"
  | .assignBitXor => "ASSIGN_BITXOR"
  | .assignBitAnd => "ASSIGN_BITAND"
  | .assignShiftLeft => "ASSIGN_LSH"
  | .assignShiftRight => "ASSIGN_RSH"
  | .assignUnsignedShiftRight => "ASSIGN_URSH"
  | .assignAdd => "ASSIGN_ADD"
  | .assignSub => "ASSIGN_SUB"
  | .assignMul => "ASSIGN_MUL"
  | .assignDiv => "ASSIGN_DIV"
  | .assignMod => "ASSIGN_MOD"
  | .assignExponent => "ASSIGN_EXPONENT"
  | .assignLogicalOr => "ASSIGN_OR"
  | .assignLogicalAnd => "ASSIGN_AND"
  | .assignCoalesce => "ASSIGN_COALESCE"
  | .arrayPattern => "ARRAY_PATTERN"
  | .objectPattern => "OBJECT_PATTERN"
  | .destructuringLhs => "DESTRUCTURING_LHS"
  | .defaultValue => "DEFAULT_VALUE"
  | .iterRest => "ITER_REST"
  | .objectRest => "OBJECT_REST"
  | .iterSpread => "ITER_SPREAD"
  | .objectSpread => "OBJECT_SPREAD"
  | .importDecl => "IMPORT"
  | .importSpecs => "IMPORT_SPECS"
  | .importSpec => "IMPORT_SPEC"
  | .importStar => "IMPORT_STAR"
  | .exportDecl => "EXPORT"
  | .exportSpecs => "EXPORT_SPECS"
  | .exportSpec => "EXPORT_SPEC"
  | .cast => "CAST"
  | .stringType => "STRING_TYPE"
  | .booleanType => "BOOLEAN_TYPE"
  | .numberType => "NUMBER_TYPE"
  | .anyType => "ANY_TYPE"
  | .voidType => "VOID_TYPE"
  | .undefinedType => "UNDEFINED_TYPE"
  | .namedType => "NAMED_TYPE"
  | .arrayType => "ARRAY_TYPE"
  | .functionType => "FUNCTION_TYPE"
  | .parameterizedType => "PARAMETERIZED_TYPE"
  | .unionType => "UNION_TYPE"
  | .nullableType => "NULLABLE_TYPE"
  | .recordType => "RECORD_TYPE"
  | .restParameterType => "REST_PARAMETER_TYPE"
  | .optionalParameter => "OPTIONAL_PARAMETER"
  | .genericType => "GENERIC_TYPE"
  | .genericTypeList => "GENERIC_TYPE_LIST"
  | .interfaceDecl => "INTERFACE"
  | .interfaceExtends => "INTERFACE_EXTENDS"
  | .interfaceMembers => "INTERFACE_MEMBERS"
  | .enumDecl => "ENUM"
  | .enumMembers => "ENUM_MEMBERS"
  | .typeAlias => "TYPE_ALIAS"
  | .indexSignature => "INDEX_SIGNATURE"
  | .callSignature => "CALL_SIGNATURE"
  | .namespaceDecl => "NAMESPACE"
  | .namespaceElements => "NAMESPACE_ELEMENTS"
  | .declareDecl => "DECLARE"
  | .bang => "BANG"
  | .qmark => "QMARK"
  | .ellipsis => "ELLIPSIS"
  | .pipe => "PIPE"
  | .star => "STAR"
  | .equals => "EQUALS"

/-- Every kind, in order. -/
def all : List Kind :=
  [.root, .script, .moduleBody, .block, .empty, .exprResult, .varDecl, .letDecl, .constDecl,
   .ifStmt, .switchStmt, .switchCase, .defaultCase, .whileLoop, .doLoop, .forLoop, .forIn, .forOf,
   .forAwaitOf, .breakStmt, .continueStmt, .returnStmt, .throwStmt, .tryStmt, .catchClause,
   .withStmt, .label, .labelName, .debugger, .function, .paramList, .classDef, .classMembers,
   .extendsClause, .memberFunction, .memberField, .computedProp, .computedField, .getter, .setter,
   .superRef, .newTarget, .yieldExpr, .awaitExpr, .identifier, .stringLit, .numberLit, .bigIntLit,
   .regexpLit, .nullLit, .thisRef, .trueLit, .falseLit, .arrayLit, .objectLit, .stringKey,
   .templateLit, .templateSub, .templateString, .taggedTemplate, .getProp, .getElem,
   .optChainGetProp, .optChainGetElem, .optChainCall, .call, .newExpr, .dynamicImport, .importMeta,
   .logicalNot, .bitNot, .unaryPlus, .unaryMinus, .typeOf, .voidOp, .deleteProp, .increment,
   .decrement, .bitOr, .bitXor, .bitAnd, .equal, .notEqual, .strictEqual, .strictNotEqual, .less,
   .lessEqual, .greater, .greaterEqual, .shiftLeft, .shiftRight, .unsignedShiftRight, .add, .sub,
   .mul, .div, .mod, .exponent, .inOp, .instanceOf, .logicalOr, .logicalAnd, .coalesce, .comma,
   .conditional, .assign, .assignBitOr, .assignBitXor, .assignBitAnd, .assignShiftLeft,
   .assignShiftRight, .assignUnsignedShiftRight, .assignAdd, .assignSub, .assignMul, .assignDiv,
   .assignMod, .assignExponent, .assignLogicalOr, .assignLogicalAnd, .assignCoalesce,
   .arrayPattern, .objectPattern, .destructuringLhs, .defaultValue, .iterRest, .objectRest,
   .iterSpread, .objectSpread, .importDecl, .importSpecs, .importSpec, .importStar, .exportDecl,
   .exportSpecs, .exportSpec, .cast, .stringType, .booleanType, .numberType, .anyType, .voidType,
   .undefinedType, .namedType, .arrayType, .functionType, .parameterizedType, .unionType,
   .nullableType, .recordType, .restParameterType, .optionalParameter, .genericType,
   .genericTypeList, .interfaceDecl, .interfaceExtends, .interfaceMembers, .enumDecl, .enumMembers,
   .typeAlias, .indexSignature, .callSignature, .namespaceDecl, .namespaceElements, .declareDecl,
   .bang, .qmark, .ellipsis, .pipe, .star, .equals]

/-- The kind that prints as `text`. -/
def ofName? (text : String) : Option Kind := all.find? (·.name == text)

instance : ToString Kind := ⟨name⟩

instance : Ord Kind := ⟨fun a b => compare a.index b.index⟩

/-- The kinds of a list in the order of kinds, repetitions kept. -/
def sort (kinds : List Kind) : List Kind := kinds.mergeSort fun a b => decide (a.index ≤ b.index)

end Kind

end SyntaxForest
