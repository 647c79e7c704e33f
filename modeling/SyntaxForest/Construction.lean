import SyntaxForest.Forest.Attach
import SyntaxForest.Forest.Create
/-!
# Canonical nodes

The constructions that know what a well-formed function, block, call and so on looks like. The kinds of
all parts are checked first, then whether the parts stand alone, and only then is a node allocated.
-/

namespace SyntaxForest

/-- A canonical node to be made, with its parts. -/
inductive Construction
  | empty
  | identifier (text : String)
  | stringLit (text : String)
  | numberLit (value : Double)
  | trueLit
  | falseLit
  | nullLit
  | thisRef
  | paramList (parameters : List NodeId)
  | block (statements : List NodeId)
  | script (statements : List NodeId)
  | function (name parameters body : NodeId)
  | exprResult (expression : NodeId)
  | returnStmt (value : Option NodeId)
  | varDecl (name : NodeId) (value : Option NodeId)
  | call (target : NodeId) (arguments : List NodeId)
  | assign (target value : NodeId)
  | getProp (target : NodeId) (property : String)
  deriving DecidableEq, Repr

namespace Edit

/-- Allocates a node without payload. -/
def leaf (kind : Kind) : Edit NodeId := allocate { kind := kind, payload := .generic }

/-- Allocates a text node. -/
def textLeaf (kind : Kind) (text : String) : Edit NodeId :=
  allocate { kind := kind, payload := .text text }

/-- Checks that a node may play a role. -/
def expect (role : Role) (id : NodeId) : Edit Unit := do
  let kind ← ask (·.kind id)
  if role.accepts kind then return () else throw (.argument (.unfit role kind))

/-- Allocates a node with the given children, which must stand alone and be distinct. -/
def parentOf (kind : Kind) (operation : Operation) (children : List NodeId) : Edit NodeId := do
  ask (·.checkAllDetached operation [] children)
  let id ← leaf kind
  appendChildren id children
  return id

/-- Declares a variable; the initial value becomes the child of the name. -/
def declare (name : NodeId) (value : Option NodeId) : Edit NodeId := do
  expect .declaredName name
  ask (·.checkAllDetached .varDecl [] [name])
  match value with
  | none => parentOf .varDecl .varDecl [name]
  | some value =>
    expect .expression value
    if ← ask (·.hasChildren name) then refuse name .varDecl .hasInitializer
    else
      appendChild name value
      parentOf .varDecl .varDecl [name]

end Edit

open Edit in
/-- Makes a canonical node and returns it. -/
def Construction.run : Construction → Edit NodeId
  | .empty => leaf .empty
  | .identifier text => textLeaf .identifier text
  | .stringLit text => textLeaf .stringLit text
  | .numberLit value => newNumber value
  | .trueLit => leaf .trueLit
  | .falseLit => leaf .falseLit
  | .nullLit => leaf .nullLit
  | .thisRef => leaf .thisRef
  | .paramList parameters => do
    parameters.forM (expect .parameter)
    parentOf .paramList .paramList parameters
  | .block statements => do
    statements.forM (expect .statement)
    parentOf .block .block statements
  | .script statements => do
    statements.forM (expect .statement)
    parentOf .script .script statements
  | .function name parameters body => do
    expect .functionName name
    expect .functionParameters parameters
    expect .functionBody body
    parentOf .function .function [name, parameters, body]
  | .exprResult expression => do
    expect .expression expression
    parentOf .exprResult .exprResult [expression]
  | .returnStmt none => leaf .returnStmt
  | .returnStmt (some value) => do
    expect .expression value
    parentOf .returnStmt .returnStmt [value]
  | .varDecl name value => declare name value
  | .call target arguments => do
    expect .expression target
    arguments.forM (expect .argument)
    parentOf .call .call (target :: arguments)
  | .assign target value => do
    expect .assignmentTarget target
    expect .expression value
    parentOf .assign .assign [target, value]
  | .getProp target property => do
    expect .expression target
    ask (·.checkAllDetached .getProp [] [target])
    let property ← textLeaf .stringLit property
    parentOf .getProp .getProp [target, property]

end SyntaxForest
