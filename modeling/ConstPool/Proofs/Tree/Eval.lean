import ConstPool.Eval.Resolve
import ConstPool.Proofs.Tree.Operators

/-!
# Running bodies on trees

What the bodies of a program mean. A body runs on trees, in scopes and with a number of steps like
any body, but there is no stock beside it: nothing is pooled, nothing has an identity, and no
result is kept. A call of another function runs its body anew, with all its steps, and so does
every look at a constant variable.

The only bound on calls is the number of bodies that may be nested. In a program without recursion
an answer does not depend on it once it is large enough, so there is one answer to each request,
and it is what every other way of answering is compared with.

* `TypeExpr.tree`: a type as a value.
* `Expr.evalTree`, `Stmt.execTree`: one expression or statement.
* `Analysis.answer`: the answer to a request, as far as calls may be nested.
-/

namespace ConstPool

variable {α : Type}

/-- The run of a part of a body on trees. -/
abbrev TreeRun (α : Type) := Eval Unit (Tree α)

/-- What stays the same while a body runs on trees. -/
structure TreeEnv (α : Type) where
  analysis : Analysis
  /-- The name of the function or variable whose body runs. -/
  owner : String
  /-- The values of the parameters, type parameters among them. -/
  params : Dict String (Tree α)
  /-- The result of a call or the value of a variable. -/
  request : Request (Tree α) (Tree α) → Except Fault (Tree α)

/-- The fault of a body that takes too many steps. -/
def TreeEnv.exhausted (env : TreeEnv α) : Fault :=
  .endless env.owner env.analysis.settings.stepBudget .steps

variable [DecidableEq α] [Leaf α]

/-! ### Types -/

mutual

/-- A type as a value. A type parameter stands for the type it was given. -/
def TypeExpr.tree (env : TreeEnv α) : TypeExpr → Except Fault (Tree α)
  | .named name args => do
    if !isKnownType env.analysis.types name then throw (.unresolved name .noSuchType)
    return .type name (← typeTrees env args)
  | .param name =>
    match env.params.get? name with
    | some t =>
      if t.scalar?.isNone then .ok t else .error (.unresolved name (.noTypeParam env.owner))
    | none => .error (.unresolved name (.noTypeParam env.owner))

/-- A list of types as values. -/
def typeTrees (env : TreeEnv α) : List TypeExpr → Except Fault (List (Tree α))
  | [] => .ok []
  | t :: rest => return (← t.tree env) :: (← typeTrees env rest)

end

namespace TreeEnv

/-- The answer to a question about a type. -/
def queryType (env : TreeEnv α) (q : Query) (t : Tree α) : Except Fault (Tree α) :=
  match t with
  | .node (.type name _) =>
    match q with
    | .typeName => .ok (.text t.describe)
    | .fieldNames => do
      return .list ((← env.analysis.fieldsOf name).map fun field => Tree.text field.1).toArray
    | .fieldTypes => do
      return .list ((← env.analysis.fieldsOf name).map fun field => Tree.type field.2 []).toArray
  | t => .error (.runtime (.notAType t.typeName))

/-- The value of a name: a local, a parameter, or a constant variable. -/
def lookup (env : TreeEnv α) (name : String) : TreeRun α (Tree α) := do
  match (← get).scopes.find? name with
  | some t => return t
  | none =>
    match env.params.get? name with
    | some t => return t
    | none =>
      if env.analysis.program.globals.contains name then
        Eval.ofExcept (env.request (.read name))
      else Eval.raise (env.analysis.noValue env.owner name)

/-- The integers from `start` up to and without `stop`, a step for each. -/
def range (env : TreeEnv α) (start stop : Int64) : TreeRun α (Tree α) := do
  let count := (stop.toInt - start.toInt).toNat
  Eval.spend env.exhausted count
  return .list ((Array.range count).map fun (i : Nat) => .scalar (.int (.ofInt (start.toInt + i))))

end TreeEnv

/-! ### Expressions and statements -/

mutual

/-- The value of an expression. -/
def Expr.evalTree (env : TreeEnv α) : Expr → TreeRun α (Tree α)
  | .scalar s => do
    Eval.spend env.exhausted 1
    return .scalar s
  | .text content => do
    Eval.spend env.exhausted 1
    return .text content
  | .name name => do
    Eval.spend env.exhausted 1
    env.lookup name
  | .unary op operand => do
    Eval.spend env.exhausted 1
    Eval.ofExcept (Tree.unary op (← operand.evalTree env))
  | .binary op left right => do
    Eval.spend env.exhausted 1
    let l ← left.evalTree env
    let r ← right.evalTree env
    Eval.ofExcept (Tree.binary op l r)
  | .and left right => do
    Eval.spend env.exhausted 1
    if ← Eval.ofExcept (Tree.asBool .leftOfAnd (← left.evalTree env)) then
      return .scalar (.bool (← Eval.ofExcept (Tree.asBool .rightOfAnd (← right.evalTree env))))
    else return .scalar (.bool false)
  | .or left right => do
    Eval.spend env.exhausted 1
    if ← Eval.ofExcept (Tree.asBool .leftOfOr (← left.evalTree env)) then
      return .scalar (.bool true)
    else
      return .scalar (.bool (← Eval.ofExcept (Tree.asBool .rightOfOr (← right.evalTree env))))
  | .ifNull left right => do
    Eval.spend env.exhausted 1
    let l ← left.evalTree env
    if l.scalar? = some .null then right.evalTree env else return l
  | .cond condition onTrue onFalse => do
    Eval.spend env.exhausted 1
    if ← Eval.ofExcept (Tree.asBool .condition (← condition.evalTree env)) then
      onTrue.evalTree env
    else onFalse.evalTree env
  | .block body result => do
    Eval.spend env.exhausted 1
    Eval.inScope .empty do
      execTreeBody env body
      result.evalTree env
  | .list items => do
    Eval.spend env.exhausted 1
    return .list (← evalTreeItems env items #[])
  | .map entries => do
    Eval.spend env.exhausted 1
    return .node (.map (← evalTreeEntries env entries #[]).toList)
  | .object className fields => do
    Eval.spend env.exhausted 1
    match env.analysis.types.get? className with
    | none => Eval.raise (.unresolved className .noSuchClass)
    | some t =>
      let given ← evalTreeFields env t className fields .empty
      return .object className (← Eval.ofExcept (t.complete className given))
  | .collect binder source none item => do
    Eval.spend env.exhausted 1
    let elements ← Eval.ofExcept (← source.evalTree env).elements
    let produce : TreeRun α (Option (Tree α)) := do return some (← item.evalTree env)
    return .list (← Eval.collect env.exhausted binder produce elements #[])
  | .collect binder source (some filter) item => do
    Eval.spend env.exhausted 1
    let elements ← Eval.ofExcept (← source.evalTree env).elements
    let produce : TreeRun α (Option (Tree α)) := do
      if ← Eval.ofExcept (Tree.asBool .filter (← filter.evalTree env)) then
        return some (← item.evalTree env)
      else return none
    return .list (← Eval.collect env.exhausted binder produce elements #[])
  | .range start stop => do
    Eval.spend env.exhausted 1
    let a ← Eval.ofExcept (Tree.asInt .rangeStart (← start.evalTree env))
    let b ← Eval.ofExcept (Tree.asInt .rangeStop (← stop.evalTree env))
    env.range a b
  | .index target position => do
    Eval.spend env.exhausted 1
    let t ← target.evalTree env
    let p ← position.evalTree env
    Eval.ofExcept (t.index p)
  | .field target name => do
    Eval.spend env.exhausted 1
    Eval.ofExcept ((← target.evalTree env).member name)
  | .type t => do
    Eval.spend env.exhausted 1
    Eval.ofExcept (t.tree env)
  | .query q t => do
    Eval.spend env.exhausted 1
    Eval.ofExcept (env.queryType q (← Eval.ofExcept (t.tree env)))
  | .throw message => do
    Eval.spend env.exhausted 1
    Eval.raise (.runtime (.thrown env.owner (← message.evalTree env).message))
  | .call function types args => do
    Eval.spend env.exhausted 1
    let f ← Eval.ofExcept (env.analysis.callee env.owner function)
    let types ← Eval.ofExcept (typeTrees env types)
    let args ← evalTreeArgs env args
    Eval.ofExcept (env.request (.call f types args))
  | .method _ name _ _ => do
    Eval.spend env.exhausted 1
    Eval.raise (.indirect name .instanceMethod)
  | .tearOff function => do
    Eval.spend env.exhausted 1
    Eval.raise (.indirect function .tearOff)

/-- The values of a list of expressions, after those that are there. -/
def evalTreeItems (env : TreeEnv α) : List Expr → Array (Tree α) → TreeRun α (Array (Tree α))
  | [], done => pure done
  | item :: rest, done => do
    let t ← item.evalTree env
    evalTreeItems env rest (done.push t)

/-- The entries of a map, after those that are there. Each key is compared with the keys before
it once its value is known. -/
def evalTreeEntries (env : TreeEnv α) :
    List (Expr × Expr) → Array (Tree α × Tree α) → TreeRun α (Array (Tree α × Tree α))
  | [], done => pure done
  | (key, value) :: rest, done => do
    let k ← key.evalTree env
    let v ← value.evalTree env
    Eval.ofExcept (k.ensureNewKey done)
    evalTreeEntries env rest (done.push (k, v))

/-- The fields of an object, after those that are there. Each name is checked before its value is
computed. -/
def evalTreeFields (env : TreeEnv α) (t : TypeDecl) (className : String) :
    List (String × Expr) → OrderedMap String (Tree α) → TreeRun α (OrderedMap String (Tree α))
  | [], done => pure done
  | (name, value) :: rest, done => do
    Eval.ofExcept (t.ensureNewField className name done)
    let v ← value.evalTree env
    evalTreeFields env t className rest (done.insert name v)

/-- The arguments of a call. -/
def evalTreeArgs (env : TreeEnv α) : List Expr → TreeRun α (List (Tree α))
  | [] => pure []
  | arg :: rest => do
    let t ← arg.evalTree env
    return t :: (← evalTreeArgs env rest)

/-- Runs a statement. -/
def Stmt.execTree (env : TreeEnv α) : Stmt → TreeRun α Unit
  | .declare name value => do
    let t ← value.evalTree env
    Eval.declare name t
  | .assign name value => do
    let t ← value.evalTree env
    Eval.assign (.unresolved name .undeclaredAssignment) name t
  | .evaluate e => do
    let _ ← e.evalTree env
    return ()
  | .branch condition onTrue onFalse => do
    if ← Eval.ofExcept (Tree.asBool .condition (← condition.evalTree env)) then
      Eval.inScope .empty (execTreeBody env onTrue)
    else Eval.inScope .empty (execTreeBody env onFalse)
  | .loop condition body => do
    let rounds := (← get).left
    let test : TreeRun α Bool := do
      Eval.ofExcept (Tree.asBool .loopCondition (← condition.evalTree env))
    Eval.loop env.exhausted test (execTreeBody env body) rounds
  | .forEach binder source body => do
    let elements ← Eval.ofExcept (← source.evalTree env).elements
    Eval.forEach env.exhausted binder (execTreeBody env body) elements
  | .leaveLoop => throw .leaveLoop
  | .nextRound => throw .nextRound
  | .giveBack value => do throw (.result (← value.evalTree env))

/-- Runs statements one after another. -/
def execTreeBody (env : TreeEnv α) : List Stmt → TreeRun α Unit
  | [] => pure ()
  | stmt :: rest => do
    stmt.execTree env
    execTreeBody env rest

end

/-- The constant with which a body ends. -/
def TreeEnv.run (env : TreeEnv α) (body : Expr) : Except Fault (Tree α) :=
  match body.evalTree env ⟨(), [.empty], env.analysis.settings.stepBudget⟩ with
  | .ok t _ => .ok t.settled
  | .error (.result t) _ => .ok t.settled
  | .error (.fault f) _ => .error f
  | .error .leaveLoop _ => .error (.impure (.jumpOutOfBody env.owner))
  | .error .nextRound _ => .error (.impure (.jumpOutOfBody env.owner))

/-- The answer to a request, if at most so many bodies may be nested. What is requested within a
body is answered in the same way, however often it was requested before. -/
def Analysis.answer (a : Analysis) : (bodies : Nat) → Request (Tree α) (Tree α) →
    Except Fault (Tree α)
  | 0, request => do
    let _ ← a.bodyOf request
    throw (.breach (.outsideCallGraph request.node.name a.settings.maxCallDepth))
  | bodies + 1, request => do
    let body ← a.bodyOf request
    let env : TreeEnv α :=
      { analysis := a
        owner := request.node.name
        params := request.params id
        request := a.answer bodies }
    env.run body

end ConstPool
