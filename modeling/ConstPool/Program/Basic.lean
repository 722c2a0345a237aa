import ConstPool.Fault.Basic
import ConstPool.OrderedMap
import ConstPool.Syntax.Expr

/-!
# Programs

A program is what has been declared: constant functions and variables, other functions and
variables, and types with their fields. Functions and variables share one space of names, and
a name is declared once; a type may be declared again and then replaces the earlier one.

* `Program.declare`: adds a declaration or refuses it.
* `FunctionDecl.qualifiedName`: the name under which a function is called.
* `isKnownType`: the types that a program may mention.
-/

namespace ConstPool

/-- A parameter of a function. -/
inductive Param where
  | value (name : String)
  | type (name : String)
  deriving DecidableEq, Repr

/-- The name of a parameter. -/
def Param.name : Param → String
  | .value name => name
  | .type name => name

/-- Where a function is declared. -/
inductive Placement where
  | topLevel
  | inClass (className : String)
  | inFunction (function : String)
  deriving DecidableEq, Repr

/-- The declaration of a constant function. -/
structure FunctionDecl where
  name : String
  params : List Param
  body : Expr
  placement : Placement

namespace FunctionDecl

/-- The name under which a function is called: that of its class or function, if any, comes
first. -/
def qualifiedName (f : FunctionDecl) : String :=
  match f.placement with
  | .topLevel => f.name
  | .inClass className => className ++ "." ++ f.name
  | .inFunction function => function ++ "." ++ f.name

/-- The names of the value parameters in order. -/
def valueParams (f : FunctionDecl) : List String :=
  f.params.filterMap fun
    | .value name => some name
    | .type _ => none

/-- The names of the type parameters in order. -/
def typeParams (f : FunctionDecl) : List String :=
  f.params.filterMap fun
    | .type name => some name
    | .value _ => none

/-- The number of value parameters. -/
def arity (f : FunctionDecl) : Nat := f.valueParams.length

/-- The number of type parameters. -/
def typeArity (f : FunctionDecl) : Nat := f.typeParams.length

end FunctionDecl

/-- The declaration of a constant variable. -/
structure VariableDecl where
  name : String
  value : Expr

/-- The declaration of a type: its fields with the names of their types. -/
structure TypeDecl where
  name : String
  fields : List (String × String)
  deriving DecidableEq, Repr

/-- The names of the fields of a type. -/
def TypeDecl.fieldNames (t : TypeDecl) : List String := t.fields.map Prod.fst

/-- Whether a type has a field of a name. -/
def TypeDecl.hasField (t : TypeDecl) (name : String) : Bool :=
  t.fields.any fun field => field.1 == name

/-- The declared types by name. -/
abbrev Types := OrderedMap String TypeDecl

/-- The types that need no declaration. -/
def builtinTypes : List String :=
  ["int", "double", "num", "bool", "String", "Null", "Object", "dynamic", "List", "Map", "Type"]

/-- Whether a name stands for a type. -/
def isKnownType (types : Types) (name : String) : Bool :=
  builtinTypes.contains name || types.contains name

/-- What has been declared. -/
structure Program where
  /-- The constant functions by their qualified names. -/
  functions : OrderedMap String FunctionDecl := .empty
  /-- The constant variables by their names. -/
  globals : OrderedMap String VariableDecl := .empty
  /-- The functions without constant meaning. -/
  plainFunctions : OrderedSet String := .empty
  /-- The variables without constant meaning. -/
  plainVariables : OrderedSet String := .empty
  types : Types := .empty

/-- A declaration. The plain ones are those without constant meaning. -/
inductive Declaration where
  | function (f : FunctionDecl)
  | variable (v : VariableDecl)
  | plainFunction (name : String)
  | plainVariable (name : String)
  | type (t : TypeDecl)

/-- The first name in a list that stands in it before. -/
def firstRepeated? (seen : List String) : List String → Option String
  | [] => none
  | name :: rest => if name ∈ seen then some name else firstRepeated? (name :: seen) rest

namespace Program

/-- Whether a name is declared as a function or a variable. -/
def isTaken (p : Program) (name : String) : Bool :=
  p.functions.contains name || p.globals.contains name ||
    p.plainFunctions.contains name || p.plainVariables.contains name

/-- Fails if a name is declared already. -/
def ensureFree (p : Program) (name : String) : Except Fault Unit :=
  if p.isTaken name then .error (.indirect name .declaredTwice) else .ok ()

/-- Adds a constant function. The parameters need names of their own. -/
def declareFunction (p : Program) (f : FunctionDecl) : Except Fault Program := do
  let name := f.qualifiedName
  p.ensureFree name
  match firstRepeated? [] (f.params.map Param.name) with
  | some parameter => throw (.impure (.repeatedParameter parameter name))
  | none => return { p with functions := p.functions.insert name f }

/-- Adds a constant variable. -/
def declareVariable (p : Program) (v : VariableDecl) : Except Fault Program := do
  p.ensureFree v.name
  return { p with globals := p.globals.insert v.name v }

/-- Adds a declaration, or says why it is refused. -/
def declare (p : Program) : Declaration → Except Fault Program
  | .function f => p.declareFunction f
  | .variable v => p.declareVariable v
  | .plainFunction name => do
    p.ensureFree name
    return { p with plainFunctions := p.plainFunctions.insert name }
  | .plainVariable name => do
    p.ensureFree name
    return { p with plainVariables := p.plainVariables.insert name }
  | .type t => .ok { p with types := p.types.insert t.name t }

/-- Adds declarations one after another and leaves out those that are refused. -/
def declareAll (p : Program) (declarations : List Declaration) : Program :=
  declarations.foldl (fun acc d => (acc.declare d).toOption.getD acc) p

/-- Whether a name is a function without constant meaning. -/
def isPlainFunction (p : Program) (name : String) : Bool := p.plainFunctions.contains name

/-- Whether a name is a variable without constant meaning. -/
def isPlainVariable (p : Program) (name : String) : Bool := p.plainVariables.contains name

end Program

/-- A constant function or variable as a vertex of the call graph. -/
inductive Node where
  | function (name : String)
  | variable (name : String)
  deriving DecidableEq

/-- A node as the name of a function or of a variable. -/
def Node.code : Node → String ⊕ String
  | .function name => .inl name
  | .variable name => .inr name

instance : Key Node := .via Node.code fun {x y} h => by
  cases x <;> cases y <;> simp_all [Node.code]

/-- The name of a node. -/
def Node.name : Node → String
  | .function name => name
  | .variable name => name

/-- A node as it is shown: functions have parentheses. -/
def Node.text : Node → String
  | .function name => name ++ "()"
  | .variable name => name

end ConstPool
