import ConstPool.Program.Basic
import ConstPool.Graph.Reach

/-!
# Vetting of bodies

Before anything runs, the whole body of every constant function and variable is read, dead
branches included. A body passes if each name in it stands for a parameter, a visible local or a
constant variable, each call is a call by name of a constant function with the right numbers of
arguments, each assignment is to a local, each jump lies in a loop, and each type and class is
known. The answer lists the constant functions and variables that the body needs directly.

Reading goes from left to right, and the first offence is the one reported.

* `Expr.vet`, `Stmt.vet`: one expression or statement in its surroundings.
* `FunctionDecl.vet`, `VariableDecl.vet`: a declaration.
-/

namespace ConstPool

/-- What may be used at a point of a body. -/
structure Surroundings where
  /-- The function or variable whose body is read. -/
  owner : String
  program : Program
  types : Types
  typeParams : List String
  params : List String
  /-- The locals that are visible at this point. -/
  locals : List String
  /-- Whether the point lies in a loop. -/
  inLoop : Bool

namespace Surroundings

/-- The surroundings in which one more local is visible. -/
def declare (s : Surroundings) (name : String) : Surroundings :=
  { s with locals := name :: s.locals }

/-- The surroundings of the body of a loop. -/
def enterLoop (s : Surroundings) : Surroundings := { s with inLoop := true }

/-- The surroundings after a statement: a declaration makes a local visible. -/
def after (s : Surroundings) : Stmt → Surroundings
  | .declare name _ => s.declare name
  | _ => s

/-- The surroundings after a list of statements. -/
def afterAll (s : Surroundings) (body : List Stmt) : Surroundings := body.foldl after s

/-- A name as an expression. -/
def vetName (s : Surroundings) (name : String) : Except Fault (List Node) :=
  if s.locals.contains name || s.params.contains name || s.typeParams.contains name then .ok []
  else if s.program.globals.contains name then .ok [.variable name]
  else if s.program.isPlainVariable name then .error (.impure (.readsVariable s.owner name))
  else if s.program.functions.contains name || s.program.isPlainFunction name then
    .error (.indirect name .functionAsValue)
  else .error (.unresolved name .noSuchName)

/-- A name as the target of an assignment: only locals can be assigned to. -/
def vetTarget (s : Surroundings) (name : String) : Except Fault Unit :=
  if s.locals.contains name then .ok ()
  else if s.params.contains name then .error (.impure (.assignsParameter s.owner name))
  else if s.program.globals.contains name then
    .error (.impure (.assignsConstant s.owner name))
  else if s.program.isPlainVariable name then .error (.impure (.writesVariable s.owner name))
  else .error (.unresolved name .undeclaredAssignment)

/-- A function that is called with so many type arguments and values. -/
def vetCallee (s : Surroundings) (name : String) (types args : Nat) : Except Fault (List Node) :=
  match s.program.functions.get? name with
  | some f =>
    if f.arity ≠ args then .error (.arity name f.arity args)
    else if f.typeArity ≠ types then .error (.arity name f.typeArity types)
    else .ok [.function name]
  | none =>
    if s.program.isPlainFunction name then .error (.impure (.callsFunction s.owner name))
    else .error (.unresolved name .noSuchFunction)

/-- A class of which an object is made. -/
def vetClass (s : Surroundings) (name : String) : Except Fault Unit :=
  if s.types.contains name then .ok () else .error (.unresolved name .noSuchClass)

/-- A jump out of a loop or to its next round. -/
def vetJump (s : Surroundings) : Except Fault Unit :=
  if s.inLoop then .ok () else .error (.impure (.jumpOutsideLoop s.owner))

end Surroundings

/-! ### Types -/

mutual

/-- A type: its name is known, or it is a type parameter. -/
def TypeExpr.vet (s : Surroundings) : TypeExpr → Except Fault Unit
  | .named name args => do
    if !isKnownType s.types name then throw (.unresolved name .noSuchType)
    vetTypes s args
  | .param name =>
    if s.typeParams.contains name then .ok ()
    else .error (.unresolved name (.noTypeParam s.owner))

/-- A list of types. -/
def vetTypes (s : Surroundings) : List TypeExpr → Except Fault Unit
  | [] => .ok ()
  | t :: rest => do
    t.vet s
    vetTypes s rest

end

/-! ### Expressions and statements -/

mutual

/-- An expression in its surroundings: what it needs, or its first offence. -/
def Expr.vet : Expr → Surroundings → Except Fault (List Node)
  | .scalar _, _ => .ok []
  | .text _, _ => .ok []
  | .name name, s => s.vetName name
  | .unary _ operand, s => operand.vet s
  | .binary _ left right, s => return (← left.vet s) ++ (← right.vet s)
  | .and left right, s => return (← left.vet s) ++ (← right.vet s)
  | .or left right, s => return (← left.vet s) ++ (← right.vet s)
  | .ifNull left right, s => return (← left.vet s) ++ (← right.vet s)
  | .cond condition onTrue onFalse, s =>
    return (← condition.vet s) ++ (← onTrue.vet s) ++ (← onFalse.vet s)
  | .block body result, s => return (← vetBody body s) ++ (← result.vet (s.afterAll body))
  | .list items, s => vetList items s
  | .map entries, s => vetEntries entries s
  | .object className fields, s => do
    s.vetClass className
    vetFields fields s
  | .collect binder source none item, s =>
    return (← source.vet s) ++ (← item.vet (s.declare binder))
  | .collect binder source (some filter) item, s =>
    return (← source.vet s) ++ (← filter.vet (s.declare binder)) ++
      (← item.vet (s.declare binder))
  | .range start stop, s => return (← start.vet s) ++ (← stop.vet s)
  | .index target position, s => return (← target.vet s) ++ (← position.vet s)
  | .field target _, s => target.vet s
  | .type t, s => do
    t.vet s
    return []
  | .query _ t, s => do
    t.vet s
    return []
  | .throw message, s => message.vet s
  | .call function types args, s => do
    let callee ← s.vetCallee function types.length args.length
    vetTypes s types
    return callee ++ (← vetList args s)
  | .method _ name _ _, _ => .error (.indirect name .instanceMethod)
  | .tearOff function, _ => .error (.indirect function .tearOff)

/-- A list of expressions. -/
def vetList : List Expr → Surroundings → Except Fault (List Node)
  | [], _ => .ok []
  | e :: rest, s => return (← e.vet s) ++ (← vetList rest s)

/-- The entries of a map, each key before its value. -/
def vetEntries : List (Expr × Expr) → Surroundings → Except Fault (List Node)
  | [], _ => .ok []
  | (key, value) :: rest, s =>
    return (← key.vet s) ++ (← value.vet s) ++ (← vetEntries rest s)

/-- The fields of an object. -/
def vetFields : List (String × Expr) → Surroundings → Except Fault (List Node)
  | [], _ => .ok []
  | (_, value) :: rest, s => return (← value.vet s) ++ (← vetFields rest s)

/-- A statement in its surroundings. The target of an assignment comes before its value. -/
def Stmt.vet : Stmt → Surroundings → Except Fault (List Node)
  | .declare _ value, s => value.vet s
  | .assign name value, s => do
    s.vetTarget name
    value.vet s
  | .evaluate e, s => e.vet s
  | .branch condition onTrue onFalse, s =>
    return (← condition.vet s) ++ (← vetBody onTrue s) ++ (← vetBody onFalse s)
  | .loop condition body, s => return (← condition.vet s) ++ (← vetBody body s.enterLoop)
  | .forEach binder source body, s =>
    return (← source.vet s) ++ (← vetBody body (s.enterLoop.declare binder))
  | .leaveLoop, s => do
    s.vetJump
    return []
  | .nextRound, s => do
    s.vetJump
    return []
  | .giveBack value, s => value.vet s

/-- The statements of a body; each sees the locals that were declared before it. -/
def vetBody : List Stmt → Surroundings → Except Fault (List Node)
  | [], _ => .ok []
  | stmt :: rest, s => return (← stmt.vet s) ++ (← vetBody rest (s.after stmt))

end

/-! ### Declarations -/

/-- The surroundings at the start of the body of a function. -/
def FunctionDecl.surroundings (f : FunctionDecl) (program : Program) (types : Types) :
    Surroundings where
  owner := f.qualifiedName
  program := program
  types := types
  typeParams := f.typeParams
  params := f.valueParams
  locals := []
  inLoop := false

/-- The direct needs of a function, each once, if its body passes. -/
def FunctionDecl.vet (f : FunctionDecl) (program : Program) (types : Types) :
    Except Fault (List Node) :=
  (f.body.vet (f.surroundings program types)).map Graph.distinct

/-- The surroundings of the value of a variable. -/
def VariableDecl.surroundings (v : VariableDecl) (program : Program) (types : Types) :
    Surroundings where
  owner := v.name
  program := program
  types := types
  typeParams := []
  params := []
  locals := []
  inLoop := false

/-- The direct needs of a variable, each once, if its value passes. -/
def VariableDecl.vet (v : VariableDecl) (program : Program) (types : Types) :
    Except Fault (List Node) :=
  (v.value.vet (v.surroundings program types)).map Graph.distinct

end ConstPool
