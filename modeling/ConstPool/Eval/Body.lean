import ConstPool.Eval.Machine

/-!
# Running expressions and statements

Every expression takes a step when its evaluation begins, every round of a loop takes one, and
every integer of a range takes one. Operands are evaluated from left to right. The arguments of a
call are pooled one after another before the call is made; everything else stays a draft until the
body ends.

* `TypeExpr.draft`: a type as a value.
* `Expr.eval`, `Stmt.exec`: one expression or statement.
* `Env.run`: a whole body, whose value is pooled.
-/

namespace ConstPool

/-- The run of a part of a body over a stock, with drafts for constants. -/
abbrev Run := Eval Stock Draft

/-! ### Types -/

mutual

/-- A type as a value. A type parameter stands for the type it was given. -/
def TypeExpr.draft (env : Env) : TypeExpr → Except Fault Draft
  | .named name args => do
    if !isKnownType env.analysis.types name then throw (.unresolved name .noSuchType)
    return .type name (← typeDrafts env args)
  | .param name =>
    match env.params.get? name with
    | some (.ref id) => .ok (.pooled id)
    | _ => .error (.unresolved name (.noTypeParam env.owner))

/-- A list of types as values. -/
def typeDrafts (env : Env) : List TypeExpr → Except Fault (List Draft)
  | [] => .ok []
  | t :: rest => return (← t.draft env) :: (← typeDrafts env rest)

end

/-- The type arguments of a call, pooled one after another. -/
def evalTypes (env : Env) : List TypeExpr → Run (List ValueId)
  | [] => pure []
  | t :: rest => do
    let d ← Eval.ofExcept (t.draft env)
    let id ← Eval.onStock d.internType
    return id :: (← evalTypes env rest)

namespace Analysis

/-- The fields of a type, if they are known; a type that needs no declaration has none. -/
def fieldsOf (a : Analysis) (name : String) : Except Fault (List (String × String)) :=
  match a.types.get? name with
  | some t => .ok t.fields
  | none => if builtinTypes.contains name then .ok [] else .error (.unresolved name .nothingToQuery)

/-- The function that a body calls by a name. -/
def callee (a : Analysis) (owner name : String) : Except Fault FunctionDecl :=
  match a.program.functions.get? name with
  | some f => .ok f
  | none =>
    if a.program.isPlainFunction name then .error (.impure (.callsFunction owner name))
    else .error (.unresolved name .noSuchFunction)

/-- Why a name in a body has no value, if it is neither bound nor a constant variable. -/
def noValue (a : Analysis) (owner name : String) : Fault :=
  if a.program.isPlainVariable name then .impure (.readsVariable owner name)
  else if a.program.functions.contains name || a.program.isPlainFunction name then
    .indirect name .functionAsValue
  else .unresolved name .noSuchName

/-- The answer to a question about a type. -/
def queryType (a : Analysis) (q : Query) (t : Draft) (pool : Pool) : Except Fault Draft := do
  match ← t.shape? pool with
  | some (.type name _) =>
    match q with
    | .typeName => return .text (← t.describe pool)
    | .fieldNames => return .list ((← a.fieldsOf name).map fun field => .text field.1).toArray
    | .fieldTypes => return .list ((← a.fieldsOf name).map fun field => .type field.2 []).toArray
  | _ => throw (.runtime (.notAType (t.typeName pool)))

end Analysis

namespace Env

/-! ### Names -/

/-- Asks for a constant from outside and takes it as a draft. -/
def fetch (env : Env) (r : Request ValueId Atom) : Run Draft := do
  let id ← Eval.onStock (env.request r)
  return .atom (← Eval.ask fun pool => pool.atomOf id)

/-- The value of a name: a local, a parameter, or a constant variable. -/
def lookup (env : Env) (name : String) : Run Draft := do
  match (← get).scopes.find? name with
  | some d => return d
  | none =>
    match env.params.get? name with
    | some atom => return .atom atom
    | none =>
      if env.analysis.program.globals.contains name then env.fetch (.read name)
      else Eval.raise (env.analysis.noValue env.owner name)

/-- The integers from `start` up to and without `stop`, a step for each. -/
def range (env : Env) (start stop : Int64) : Run Draft := do
  let count := (stop.toInt - start.toInt).toNat
  Eval.spend env.exhausted count
  return .list ((Array.range count).map fun (i : Nat) => .int (.ofInt (start.toInt + i)))

end Env

/-! ### Values of certain kinds -/

namespace Draft

/-- The truth value that a draft is, where one is wanted. -/
def asBool (role : Role) (d : Draft) (pool : Pool) : Except Fault Bool :=
  match d.scalar? with
  | some (.bool b) => .ok b
  | _ => .error (.runtime (.wrongType role (d.typeName pool)))

/-- The integer that a draft is, where one is wanted. -/
def asInt (role : Role) (d : Draft) (pool : Pool) : Except Fault Int64 :=
  match d.scalar? with
  | some (.int n) => .ok n
  | _ => .error (.runtime (.wrongType role (d.typeName pool)))

/-- Fails if a key equals the key of one of the entries before it. -/
def ensureNewKey (key : Draft) (given : Array (Draft × Draft)) (pool : Pool) :
    Except Fault Unit := do
  if ← given.anyM fun e => equals pool e.1 key then
    throw (.runtime (.duplicateKey (← key.message pool)))

end Draft

/-- Fails if an object of the class has no such field or if the field was given before. -/
def TypeDecl.ensureNewField {δ : Type} (t : TypeDecl) (className name : String)
    (given : OrderedMap String δ) : Except Fault Unit :=
  if !t.hasField name then .error (.runtime (.noField className name))
  else if given.contains name then .error (.runtime (.repeatedField name className))
  else .ok ()

/-- The given fields of an object, if no field of the class is missing. -/
def TypeDecl.complete {δ : Type} (t : TypeDecl) (className : String)
    (given : OrderedMap String δ) : Except Fault (List (String × δ)) :=
  match t.fieldNames.find? fun name => !given.contains name with
  | some name => .error (.runtime (.missingField name className))
  | none => .ok given.entries

/-! ### Expressions and statements -/

mutual

/-- The value of an expression. -/
def Expr.eval (env : Env) : Expr → Run Draft
  | .scalar s => do
    Eval.spend env.exhausted 1
    return .scalar s
  | .text content => do
    Eval.spend env.exhausted 1
    return .text content
  | .name name => do
    Eval.spend env.exhausted 1
    env.lookup name
  | .unary op operand => do
    Eval.spend env.exhausted 1
    let d ← operand.eval env
    Eval.ask fun pool => d.unary pool op
  | .binary op left right => do
    Eval.spend env.exhausted 1
    let l ← left.eval env
    let r ← right.eval env
    Eval.ask fun pool => Draft.binary pool op l r
  | .and left right => do
    Eval.spend env.exhausted 1
    if ← Eval.ask (Draft.asBool .leftOfAnd (← left.eval env)) then
      return .bool (← Eval.ask (Draft.asBool .rightOfAnd (← right.eval env)))
    else return .bool false
  | .or left right => do
    Eval.spend env.exhausted 1
    if ← Eval.ask (Draft.asBool .leftOfOr (← left.eval env)) then return .bool true
    else return .bool (← Eval.ask (Draft.asBool .rightOfOr (← right.eval env)))
  | .ifNull left right => do
    Eval.spend env.exhausted 1
    match ← left.eval env with
    | .scalar .null => right.eval env
    | d => return d
  | .cond condition onTrue onFalse => do
    Eval.spend env.exhausted 1
    if ← Eval.ask (Draft.asBool .condition (← condition.eval env)) then onTrue.eval env
    else onFalse.eval env
  | .block body result => do
    Eval.spend env.exhausted 1
    Eval.inScope .empty do
      execBody env body
      result.eval env
  | .list items => do
    Eval.spend env.exhausted 1
    return .list (← evalItems env items #[])
  | .map entries => do
    Eval.spend env.exhausted 1
    return .fresh (.map (← evalEntries env entries #[]).toList)
  | .object className fields => do
    Eval.spend env.exhausted 1
    match env.analysis.types.get? className with
    | none => Eval.raise (.unresolved className .noSuchClass)
    | some t =>
      let given ← evalFields env t className fields .empty
      return .object className (← Eval.ofExcept (t.complete className given))
  | .collect binder source none item => do
    Eval.spend env.exhausted 1
    let d ← source.eval env
    let elements ← Eval.ask fun pool => d.elements pool
    let produce : Run (Option Draft) := do return some (← item.eval env)
    return .list (← Eval.collect env.exhausted binder produce elements #[])
  | .collect binder source (some filter) item => do
    Eval.spend env.exhausted 1
    let d ← source.eval env
    let elements ← Eval.ask fun pool => d.elements pool
    let produce : Run (Option Draft) := do
      if ← Eval.ask (Draft.asBool .filter (← filter.eval env)) then return some (← item.eval env)
      else return none
    return .list (← Eval.collect env.exhausted binder produce elements #[])
  | .range start stop => do
    Eval.spend env.exhausted 1
    let a ← Eval.ask (Draft.asInt .rangeStart (← start.eval env))
    let b ← Eval.ask (Draft.asInt .rangeStop (← stop.eval env))
    env.range a b
  | .index target position => do
    Eval.spend env.exhausted 1
    let t ← target.eval env
    let p ← position.eval env
    Eval.ask fun pool => t.index pool p
  | .field target name => do
    Eval.spend env.exhausted 1
    let t ← target.eval env
    Eval.ask fun pool => t.member pool name
  | .type t => do
    Eval.spend env.exhausted 1
    Eval.ofExcept (t.draft env)
  | .query q t => do
    Eval.spend env.exhausted 1
    let d ← Eval.ofExcept (t.draft env)
    Eval.ask (env.analysis.queryType q d)
  | .throw message => do
    Eval.spend env.exhausted 1
    let d ← message.eval env
    let text ← Eval.ask fun pool => d.message pool
    Eval.raise (.runtime (.thrown env.owner text))
  | .call function types args => do
    Eval.spend env.exhausted 1
    let f ← Eval.ofExcept (env.analysis.callee env.owner function)
    let types ← evalTypes env types
    let args ← evalArgs env args
    env.fetch (.call f types args)
  | .method _ name _ _ => do
    Eval.spend env.exhausted 1
    Eval.raise (.indirect name .instanceMethod)
  | .tearOff function => do
    Eval.spend env.exhausted 1
    Eval.raise (.indirect function .tearOff)

/-- The values of a list of expressions, after those that are there. -/
def evalItems (env : Env) : List Expr → Array Draft → Run (Array Draft)
  | [], done => pure done
  | item :: rest, done => do
    let d ← item.eval env
    evalItems env rest (done.push d)

/-- The entries of a map, after those that are there. Each key is compared with the keys before
it once its value is known. -/
def evalEntries (env : Env) :
    List (Expr × Expr) → Array (Draft × Draft) → Run (Array (Draft × Draft))
  | [], done => pure done
  | (key, value) :: rest, done => do
    let k ← key.eval env
    let v ← value.eval env
    Eval.ask (Draft.ensureNewKey k done)
    evalEntries env rest (done.push (k, v))

/-- The fields of an object, after those that are there. Each name is checked before its value is
computed. -/
def evalFields (env : Env) (t : TypeDecl) (className : String) :
    List (String × Expr) → OrderedMap String Draft → Run (OrderedMap String Draft)
  | [], done => pure done
  | (name, value) :: rest, done => do
    Eval.ofExcept (t.ensureNewField className name done)
    let v ← value.eval env
    evalFields env t className rest (done.insert name v)

/-- The arguments of a call, pooled one after another. -/
def evalArgs (env : Env) : List Expr → Run (List Atom)
  | [] => pure []
  | arg :: rest => do
    let d ← arg.eval env
    let atom ← Eval.onStock d.intern
    return atom :: (← evalArgs env rest)

/-- Runs a statement. -/
def Stmt.exec (env : Env) : Stmt → Run Unit
  | .declare name value => do
    let d ← value.eval env
    Eval.declare name d
  | .assign name value => do
    let d ← value.eval env
    Eval.assign (.unresolved name .undeclaredAssignment) name d
  | .evaluate e => do
    let _ ← e.eval env
    return ()
  | .branch condition onTrue onFalse => do
    if ← Eval.ask (Draft.asBool .condition (← condition.eval env)) then
      Eval.inScope .empty (execBody env onTrue)
    else Eval.inScope .empty (execBody env onFalse)
  | .loop condition body => do
    let rounds := (← get).left
    let test : Run Bool := do
      Eval.ask (Draft.asBool .loopCondition (← condition.eval env))
    Eval.loop env.exhausted test (execBody env body) rounds
  | .forEach binder source body => do
    let d ← source.eval env
    let elements ← Eval.ask fun pool => d.elements pool
    Eval.forEach env.exhausted binder (execBody env body) elements
  | .leaveLoop => throw .leaveLoop
  | .nextRound => throw .nextRound
  | .giveBack value => do throw (.result (← value.eval env))

/-- Runs statements one after another. -/
def execBody (env : Env) : List Stmt → Run Unit
  | [] => pure ()
  | stmt :: rest => do
    stmt.exec env
    execBody env rest

end

namespace Env

/-- The value with which a body ends: the value of its expression, or the one given back
early. -/
def finish (env : Env) (body : Expr) (stock : Stock) : Except Fault Draft × Stock :=
  match body.eval env ⟨stock, [.empty], env.analysis.settings.stepBudget⟩ with
  | .ok d m => (.ok d, m.stock)
  | .error (.result d) m => (.ok d, m.stock)
  | .error (.fault f) m => (.error f, m.stock)
  | .error .leaveLoop m => (.error (.impure (.jumpOutOfBody env.owner)), m.stock)
  | .error .nextRound m => (.error (.impure (.jumpOutOfBody env.owner)), m.stock)

/-- Runs a body and pools its value. -/
def run (env : Env) (body : Expr) : Work ValueId := fun stock =>
  match env.finish body stock with
  | (.ok d, stock) =>
    (do let atom ← d.intern
        Work.onPool (Pool.internAtom atom) : Work ValueId) stock
  | (.error f, stock) => .error f stock

end Env

end ConstPool
