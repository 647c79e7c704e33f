import SyntaxForest.Kind.Basic
/-!
# Classes of kinds

Which payload a node of a kind carries, and where in a program a node of a kind may stand.
-/

namespace SyntaxForest

/-- The three forms of a payload: none, a text or a number. -/
inductive Shape
  | generic | text | number
  deriving DecidableEq, Repr

/-- The word that messages use for a shape. -/
def Shape.name : Shape → String
  | .generic => "generic"
  | .text => "text"
  | .number => "number"

instance : ToString Shape := ⟨Shape.name⟩

namespace Kind

/-- The payload that every node of the kind carries. -/
def shape : Kind → Shape
  | .labelName | .memberFunction | .memberField | .getter | .setter | .identifier | .stringLit
  | .bigIntLit | .regexpLit | .stringKey | .templateString | .importStar => .text
  | .numberLit => .number
  | _ => .generic

/-- Whether nodes of the kind carry a text or a number. -/
def hasPayload (kind : Kind) : Bool := kind.shape != .generic

/-- Whether a node of the kind defines a function whose first child names it. -/
def isFunction (kind : Kind) : Bool := kind == .function

/-- The three declarations of variables. -/
def isDeclaration : Kind → Bool
  | .varDecl | .letDecl | .constDecl => true
  | _ => false

/-- Plain and compound assignment. -/
def isAssignment : Kind → Bool
  | .assign | .assignBitOr | .assignBitXor | .assignBitAnd | .assignShiftLeft | .assignShiftRight
  | .assignUnsignedShiftRight | .assignAdd | .assignSub | .assignMul | .assignDiv | .assignMod
  | .assignExponent | .assignLogicalOr | .assignLogicalAnd | .assignCoalesce => true
  | _ => false

/-- Operators with one operand. -/
def isUnaryOperator : Kind → Bool
  | .logicalNot | .bitNot | .unaryPlus | .unaryMinus | .typeOf | .voidOp | .deleteProp | .increment
  | .decrement => true
  | _ => false

/-- Operators with two operands, and the conditional. -/
def isBinaryOperator : Kind → Bool
  | .bitOr | .bitXor | .bitAnd | .equal | .notEqual | .strictEqual | .strictNotEqual | .less
  | .lessEqual | .greater | .greaterEqual | .shiftLeft | .shiftRight | .unsignedShiftRight | .add
  | .sub | .mul | .div | .mod | .exponent | .inOp | .instanceOf | .logicalOr | .logicalAnd
  | .coalesce | .comma | .conditional => true
  | _ => false

/-- Kinds that may stand in a statement list. -/
def mayBeStatement : Kind → Bool
  | .block | .empty | .exprResult | .varDecl | .letDecl | .constDecl | .ifStmt | .switchStmt
  | .whileLoop | .doLoop | .forLoop | .forIn | .forOf | .forAwaitOf | .breakStmt | .continueStmt
  | .returnStmt | .throwStmt | .tryStmt | .withStmt | .label | .debugger | .function | .classDef
  | .importDecl | .exportDecl | .interfaceDecl | .enumDecl | .typeAlias | .namespaceDecl
  | .declareDecl => true
  | _ => false

/-- Expressions other than operators and assignments. -/
def isOperand : Kind → Bool
  | .function | .classDef | .identifier | .stringLit | .numberLit | .bigIntLit | .regexpLit
  | .nullLit | .thisRef | .trueLit | .falseLit | .arrayLit | .objectLit | .templateLit
  | .taggedTemplate | .getProp | .getElem | .optChainGetProp | .optChainGetElem | .optChainCall
  | .call | .newExpr | .dynamicImport | .importMeta | .newTarget | .superRef | .yieldExpr
  | .awaitExpr | .cast => true
  | _ => false

/-- Kinds that may stand where a value is expected. -/
def mayBeExpression (kind : Kind) : Bool :=
  kind.isOperand || kind.isUnaryOperator || kind.isBinaryOperator || kind.isAssignment

end Kind

end SyntaxForest
