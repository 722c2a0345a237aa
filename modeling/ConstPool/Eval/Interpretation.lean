import ConstPool.Eval.Body

/-!
# Interpretations of bodies

Running a body is one thing, and what it is run with is another. The order of the steps is given by
the syntax; an interpretation says what the steps are: what a constant is, how scopes, jumps and
loops work, how a question about constants is answered and what it means to pool one. So a body can
be followed on drafts, on trees with a log, or by counting, and what these have to do with each
other is said step by step.

* `Question`: what is asked about constants.
* `Control`, `Interpretation`: what the steps of a body are.
* `Expr.evalIn`, `Stmt.execIn`: one expression or statement.
* `Env.interpretation`: the steps of a body that runs on drafts.
* `Expr.eval_eq`: these are the steps that evaluation takes.
-/

namespace ConstPool

/-! ### Questions -/

/-- A question about constants `δ` with an answer `β`. -/
inductive Question (δ : Type) : Type → Type where
  | unary (op : UnaryOperator) (d : δ) : Question δ δ
  | binary (op : BinaryOperator) (l r : δ) : Question δ δ
  /-- The truth value that a constant is. -/
  | truth (role : Role) (d : δ) : Question δ Bool
  /-- The integer that a constant is. -/
  | integer (role : Role) (d : δ) : Question δ Int64
  /-- What a loop runs through. -/
  | elements (d : δ) : Question δ (List δ)
  /-- Whether a key is new among the entries of a map. -/
  | newKey (key : δ) (given : Array (δ × δ)) : Question δ Unit
  | index (target position : δ) : Question δ δ
  | member (target : δ) (name : String) : Question δ δ
  /-- A question about a type. -/
  | query (q : Query) (t : δ) : Question δ δ
  /-- The message that a constant is. -/
  | message (d : δ) : Question δ String

/-- The answer to a question about drafts. -/
def Question.onDrafts (a : Analysis) {β : Type} : Question Draft β → Pool → Except Fault β
  | .unary op d, pool => d.unary pool op
  | .binary op l r, pool => Draft.binary pool op l r
  | .truth role d, pool => d.asBool role pool
  | .integer role d, pool => d.asInt role pool
  | .elements d, pool => d.elements pool
  | .newKey key given, pool => key.ensureNewKey given pool
  | .index target position, pool => target.index pool position
  | .member target name, pool => target.member pool name
  | .query q t, pool => a.queryType q t pool
  | .message d, pool => d.message pool

/-! ### Steps -/

/-- How scopes, jumps and loops work in runs `m` with constants `δ`. -/
structure Control (m : Type → Type) (δ : Type) where
  /-- Takes a step, if one is left. -/
  step : m Unit
  stop : {β : Type} → Stop δ → m β
  inScope : {β : Type} → Dict String δ → m β → m β
  round : Dict String δ → m Unit → m Bool
  loop : m Bool → m Unit → m Unit
  declare : String → δ → m Unit
  assign : String → δ → m Unit

/-- What the steps of a body are in runs `m` with constants `δ`, pooled types `τ` and pooled
arguments `ρ`. -/
structure Interpretation (m : Type → Type) (δ τ ρ : Type) extends Control m δ where
  analysis : Analysis
  /-- The name of the function or variable whose body runs. -/
  owner : String
  scalar : Scalar → δ
  /-- A constant made of its parts. -/
  layer : Shape δ δ → δ
  isNull : δ → Bool
  lookup : String → m δ
  range : Int64 → Int64 → m δ
  ask : {β : Type} → Question δ β → m β
  type : TypeExpr → m δ
  poolType : δ → m τ
  pool : δ → m ρ
  call : FunctionDecl → List τ → List ρ → m δ

namespace Interpretation

variable {m : Type → Type} [Monad m] {δ τ ρ : Type} (R : Interpretation m δ τ ρ)

/-- A result that is known, or a fault. -/
def known {β : Type} : Except Fault β → m β
  | .ok b => pure b
  | .error f => R.stop (.fault f)

/-- A loop through the elements of a list. -/
def forEach (binder : String) (body : m Unit) : List δ → m Unit
  | [] => pure ()
  | item :: rest => do
    R.step
    if ← R.round (.one binder item) body then forEach binder body rest
    else pure ()

/-- Collects what is produced for the elements of a list, after what was collected so far. -/
def collect (binder : String) (produce : m (Option δ)) : List δ → Array δ → m (Array δ)
  | [], collected => pure collected
  | item :: rest, collected => do
    R.step
    match ← R.inScope (.one binder item) produce with
    | some d => collect binder produce rest (collected.push d)
    | none => collect binder produce rest collected

/-- The type arguments of a call, pooled one after another. -/
def types : List TypeExpr → m (List τ)
  | [] => pure []
  | t :: rest => do
    let d ← R.type t
    let id ← R.poolType d
    return id :: (← types rest)

end Interpretation

/-! ### Expressions and statements -/

section Syntax

variable {m : Type → Type} [Monad m] {δ τ ρ : Type}

mutual

/-- The value of an expression. -/
def Expr.evalIn (R : Interpretation m δ τ ρ) : Expr → m δ
  | .scalar s => do
    R.step
    return R.scalar s
  | .text content => do
    R.step
    return R.layer (.text content)
  | .name name => do
    R.step
    R.lookup name
  | .unary op operand => do
    R.step
    let d ← operand.evalIn R
    R.ask (.unary op d)
  | .binary op left right => do
    R.step
    let l ← left.evalIn R
    let r ← right.evalIn R
    R.ask (.binary op l r)
  | .and left right => do
    R.step
    if ← R.ask (.truth .leftOfAnd (← left.evalIn R)) then
      return R.scalar (.bool (← R.ask (.truth .rightOfAnd (← right.evalIn R))))
    else return R.scalar (.bool false)
  | .or left right => do
    R.step
    if ← R.ask (.truth .leftOfOr (← left.evalIn R)) then return R.scalar (.bool true)
    else return R.scalar (.bool (← R.ask (.truth .rightOfOr (← right.evalIn R))))
  | .ifNull left right => do
    R.step
    let d ← left.evalIn R
    if R.isNull d then right.evalIn R else return d
  | .cond condition onTrue onFalse => do
    R.step
    if ← R.ask (.truth .condition (← condition.evalIn R)) then onTrue.evalIn R
    else onFalse.evalIn R
  | .block body result => do
    R.step
    R.inScope .empty do
      bodyIn R body
      result.evalIn R
  | .list items => do
    R.step
    return R.layer (.list (← itemsIn R items #[]))
  | .map entries => do
    R.step
    return R.layer (.map (← entriesIn R entries #[]).toList)
  | .object className fields => do
    R.step
    match R.analysis.types.get? className with
    | none => R.stop (.fault (.unresolved className .noSuchClass))
    | some t =>
      let given ← fieldsIn R t className fields .empty
      return R.layer (.object className (Shape.sortFields (← R.known (t.complete className given))))
  | .collect binder source none item => do
    R.step
    let d ← source.evalIn R
    let elements ← R.ask (.elements d)
    let produce : m (Option δ) := do return some (← item.evalIn R)
    return R.layer (.list (← R.collect binder produce elements #[]))
  | .collect binder source (some filter) item => do
    R.step
    let d ← source.evalIn R
    let elements ← R.ask (.elements d)
    let produce : m (Option δ) := do
      if ← R.ask (.truth .filter (← filter.evalIn R)) then return some (← item.evalIn R)
      else return none
    return R.layer (.list (← R.collect binder produce elements #[]))
  | .range start stop => do
    R.step
    let a ← R.ask (.integer .rangeStart (← start.evalIn R))
    let b ← R.ask (.integer .rangeStop (← stop.evalIn R))
    R.range a b
  | .index target position => do
    R.step
    let t ← target.evalIn R
    let p ← position.evalIn R
    R.ask (.index t p)
  | .field target name => do
    R.step
    let t ← target.evalIn R
    R.ask (.member t name)
  | .type t => do
    R.step
    R.type t
  | .query q t => do
    R.step
    let d ← R.type t
    R.ask (.query q d)
  | .throw message => do
    R.step
    let d ← message.evalIn R
    let text ← R.ask (.message d)
    R.stop (.fault (.runtime (.thrown R.owner text)))
  | .call function types args => do
    R.step
    let f ← R.known (R.analysis.callee R.owner function)
    let types ← R.types types
    let args ← argsIn R args
    R.call f types args
  | .method _ name _ _ => do
    R.step
    R.stop (.fault (.indirect name .instanceMethod))
  | .tearOff function => do
    R.step
    R.stop (.fault (.indirect function .tearOff))

/-- The values of a list of expressions, after those that are there. -/
def itemsIn (R : Interpretation m δ τ ρ) : List Expr → Array δ → m (Array δ)
  | [], done => pure done
  | item :: rest, done => do
    let d ← item.evalIn R
    itemsIn R rest (done.push d)

/-- The entries of a map, after those that are there. -/
def entriesIn (R : Interpretation m δ τ ρ) :
    List (Expr × Expr) → Array (δ × δ) → m (Array (δ × δ))
  | [], done => pure done
  | (key, value) :: rest, done => do
    let k ← key.evalIn R
    let v ← value.evalIn R
    R.ask (.newKey k done)
    entriesIn R rest (done.push (k, v))

/-- The fields of an object, after those that are there. -/
def fieldsIn (R : Interpretation m δ τ ρ) (t : TypeDecl) (className : String) :
    List (String × Expr) → OrderedMap String δ → m (OrderedMap String δ)
  | [], done => pure done
  | (name, value) :: rest, done => do
    R.known (t.ensureNewField className name done)
    let v ← value.evalIn R
    fieldsIn R t className rest (done.insert name v)

/-- The arguments of a call, pooled one after another. -/
def argsIn (R : Interpretation m δ τ ρ) : List Expr → m (List ρ)
  | [] => pure []
  | arg :: rest => do
    let d ← arg.evalIn R
    let atom ← R.pool d
    return atom :: (← argsIn R rest)

/-- Runs a statement. -/
def Stmt.execIn (R : Interpretation m δ τ ρ) : Stmt → m Unit
  | .declare name value => do
    let d ← value.evalIn R
    R.declare name d
  | .assign name value => do
    let d ← value.evalIn R
    R.assign name d
  | .evaluate e => do
    let _ ← e.evalIn R
    return ()
  | .branch condition onTrue onFalse => do
    if ← R.ask (.truth .condition (← condition.evalIn R)) then
      R.inScope .empty (bodyIn R onTrue)
    else R.inScope .empty (bodyIn R onFalse)
  | .loop condition body => do
    let test : m Bool := do R.ask (.truth .loopCondition (← condition.evalIn R))
    R.loop test (bodyIn R body)
  | .forEach binder source body => do
    let d ← source.evalIn R
    let elements ← R.ask (.elements d)
    R.forEach binder (bodyIn R body) elements
  | .leaveLoop => R.stop .leaveLoop
  | .nextRound => R.stop .nextRound
  | .giveBack value => do R.stop (.result (← value.evalIn R))

/-- Runs statements one after another. -/
def bodyIn (R : Interpretation m δ τ ρ) : List Stmt → m Unit
  | [] => pure ()
  | stmt :: rest => do
    stmt.execIn R
    bodyIn R rest

end

end Syntax

/-! ### Bodies that run on drafts -/

/-- Scopes, jumps and loops of a machine. -/
def Eval.control {σ δ : Type} (exhausted : Fault) : Control (Eval σ δ) δ where
  step := Eval.spend exhausted 1
  stop := throw
  inScope := Eval.inScope
  round := Eval.round
  loop test body := do Eval.loop exhausted test body (← get).left
  declare := Eval.declare
  assign name := Eval.assign (.unresolved name .undeclaredAssignment) name

/-- A draft is the null that is held in place. -/
def Draft.isNull : Draft → Bool
  | .scalar .null => true
  | _ => false

/-- The steps of a body that runs on drafts. -/
def Env.interpretation (env : Env) : Interpretation Run Draft ValueId Atom where
  toControl := Eval.control env.exhausted
  analysis := env.analysis
  owner := env.owner
  scalar := .scalar
  layer := .fresh
  isNull := Draft.isNull
  lookup := env.lookup
  range := env.range
  ask q := Eval.ask (q.onDrafts env.analysis)
  type t := Eval.ofExcept (t.draft env)
  poolType d := Eval.onStock d.internType
  pool d := Eval.onStock d.intern
  call f types args := env.fetch (.call f types args)

section Equations

variable (env : Env)

/-- What is known in advance is the result or the fault itself. -/
theorem Env.known_eq {β : Type} (x : Except Fault β) :
    env.interpretation.known x = Eval.ofExcept x := by
  cases x <;> rfl

/-- A loop over drafts. -/
theorem Env.forEach_eq (binder : String) (body : Run Unit) (ds : List Draft) :
    env.interpretation.forEach binder body ds = Eval.forEach env.exhausted binder body ds := by
  induction ds with
  | nil => rfl
  | cons d ds ih =>
    rw [Interpretation.forEach, Eval.forEach, ih]
    rfl

/-- A loop over drafts that collects what the body produces. -/
theorem Env.collect_eq (binder : String) (produce : Run (Option Draft)) (ds : List Draft)
    (done : Array Draft) : env.interpretation.collect binder produce ds done =
      Eval.collect env.exhausted binder produce ds done := by
  induction ds generalizing done with
  | nil => rfl
  | cons d ds ih =>
    rw [Interpretation.collect, Eval.collect]
    simp only [ih]
    rfl

/-- Type arguments are drafted without a step. -/
theorem Env.types_eq (ts : List TypeExpr) :
    env.interpretation.types ts = evalTypes env ts := by
  induction ts with
  | nil => rfl
  | cons t ts ih =>
    rw [Interpretation.types, evalTypes, ih]
    rfl

mutual

/-- An expression is evaluated in these steps. -/
theorem Expr.eval_eq : (e : Expr) → e.evalIn env.interpretation = e.eval env
  | .scalar _ => by
    rw [Expr.evalIn, Expr.eval]
    rfl
  | .text _ => by
    rw [Expr.evalIn, Expr.eval]
    rfl
  | .name _ => by
    rw [Expr.evalIn, Expr.eval]
    rfl
  | .unary _ operand => by
    rw [Expr.evalIn, Expr.eval, Expr.eval_eq operand]
    rfl
  | .binary _ left right => by
    rw [Expr.evalIn, Expr.eval, Expr.eval_eq left, Expr.eval_eq right]
    rfl
  | .and left right => by
    rw [Expr.evalIn, Expr.eval, Expr.eval_eq left, Expr.eval_eq right]
    rfl
  | .or left right => by
    rw [Expr.evalIn, Expr.eval, Expr.eval_eq left, Expr.eval_eq right]
    rfl
  | .ifNull left right => by
    rw [Expr.evalIn, Expr.eval, Expr.eval_eq left, Expr.eval_eq right]
    refine congrArg (Eval.spend env.exhausted 1 >>= ·) (funext fun _ => ?_)
    refine congrArg (left.eval env >>= ·) (funext fun d => ?_)
    rcases d with ⟨(_ | b | i | x) | id⟩ | l <;> rfl
  | .cond condition onTrue onFalse => by
    rw [Expr.evalIn, Expr.eval, Expr.eval_eq condition, Expr.eval_eq onTrue,
      Expr.eval_eq onFalse]
    rfl
  | .block body result => by
    rw [Expr.evalIn, Expr.eval, bodyEq body, Expr.eval_eq result]
    rfl
  | .list items => by
    rw [Expr.evalIn, Expr.eval, itemsEq items]
    rfl
  | .map entries => by
    rw [Expr.evalIn, Expr.eval, entriesEq entries]
    rfl
  | .object className fields => by
    rw [Expr.evalIn, Expr.eval]
    have hanalysis : env.interpretation.analysis = env.analysis := rfl
    rw [hanalysis]
    cases env.analysis.types.get? className with
    | none => rfl
    | some t =>
      dsimp only
      rw [fieldsEq t className fields]
      simp only [Env.known_eq]
      rfl
  | .collect binder source none item => by
    rw [Expr.evalIn, Expr.eval, Expr.eval_eq source, Expr.eval_eq item]
    simp only [Env.collect_eq]
    rfl
  | .collect binder source (some filter) item => by
    rw [Expr.evalIn, Expr.eval, Expr.eval_eq source, Expr.eval_eq filter, Expr.eval_eq item]
    simp only [Env.collect_eq]
    rfl
  | .range start stop => by
    rw [Expr.evalIn, Expr.eval, Expr.eval_eq start, Expr.eval_eq stop]
    rfl
  | .index target position => by
    rw [Expr.evalIn, Expr.eval, Expr.eval_eq target, Expr.eval_eq position]
    rfl
  | .field target _ => by
    rw [Expr.evalIn, Expr.eval, Expr.eval_eq target]
    rfl
  | .type _ => by
    rw [Expr.evalIn, Expr.eval]
    rfl
  | .query _ _ => by
    rw [Expr.evalIn, Expr.eval]
    rfl
  | .throw message => by
    rw [Expr.evalIn, Expr.eval, Expr.eval_eq message]
    rfl
  | .call function types args => by
    rw [Expr.evalIn, Expr.eval, Env.known_eq, Env.types_eq, argsEq args]
    rfl
  | .method _ _ _ _ => by
    rw [Expr.evalIn, Expr.eval]
    rfl
  | .tearOff _ => by
    rw [Expr.evalIn, Expr.eval]
    rfl

/-- The items of a list literal. -/
theorem itemsEq : (items : List Expr) → itemsIn env.interpretation items = evalItems env items
  | [] => by
    funext done
    rw [itemsIn, evalItems]
  | item :: rest => by
    funext done
    rw [itemsIn, evalItems, Expr.eval_eq item, itemsEq rest]

/-- The entries of a map literal, the key of each before its value. -/
theorem entriesEq : (entries : List (Expr × Expr)) →
    entriesIn env.interpretation entries = evalEntries env entries
  | [] => by
    funext done
    rw [entriesIn, evalEntries]
  | (key, value) :: rest => by
    funext done
    rw [entriesIn, evalEntries, Expr.eval_eq key, Expr.eval_eq value, entriesEq rest]
    rfl

/-- The fields of an object literal, of which each name is checked before its value. -/
theorem fieldsEq (t : TypeDecl) (className : String) : (fields : List (String × Expr)) →
    fieldsIn env.interpretation t className fields = evalFields env t className fields
  | [] => by
    funext done
    rw [fieldsIn, evalFields]
  | (name, value) :: rest => by
    funext done
    rw [fieldsIn, evalFields, Expr.eval_eq value, fieldsEq t className rest, Env.known_eq]

/-- The arguments of a call, pooled one after the other. -/
theorem argsEq : (args : List Expr) → argsIn env.interpretation args = evalArgs env args
  | [] => by rw [argsIn, evalArgs]
  | arg :: rest => by
    rw [argsIn, evalArgs, Expr.eval_eq arg, argsEq rest]
    rfl

/-- A statement runs in these steps. -/
theorem Stmt.exec_eq : (stmt : Stmt) → stmt.execIn env.interpretation = stmt.exec env
  | .declare _ value => by
    rw [Stmt.execIn, Stmt.exec, Expr.eval_eq value]
    rfl
  | .assign _ value => by
    rw [Stmt.execIn, Stmt.exec, Expr.eval_eq value]
    rfl
  | .evaluate e => by rw [Stmt.execIn, Stmt.exec, Expr.eval_eq e]
  | .branch condition onTrue onFalse => by
    rw [Stmt.execIn, Stmt.exec, Expr.eval_eq condition, bodyEq onTrue, bodyEq onFalse]
    rfl
  | .loop condition body => by
    rw [Stmt.execIn, Stmt.exec, Expr.eval_eq condition, bodyEq body]
    rfl
  | .forEach binder source body => by
    rw [Stmt.execIn, Stmt.exec, Expr.eval_eq source, bodyEq body]
    simp only [Env.forEach_eq]
    rfl
  | .leaveLoop => by
    rw [Stmt.execIn, Stmt.exec]
    rfl
  | .nextRound => by
    rw [Stmt.execIn, Stmt.exec]
    rfl
  | .giveBack value => by
    rw [Stmt.execIn, Stmt.exec, Expr.eval_eq value]
    rfl

/-- The statements of a body. -/
theorem bodyEq : (body : List Stmt) → bodyIn env.interpretation body = execBody env body
  | [] => by rw [bodyIn, execBody]
  | stmt :: rest => by rw [bodyIn, execBody, Stmt.exec_eq stmt, bodyEq rest]

end

end Equations

end ConstPool
