import ConstPool.Eval.Body

/-!
# Answering requests

A request is for the result of a call or for the value of a constant variable. It is answered
from the cache or by running the body concerned, which may issue requests of its own. The calls
that may still be nested bound how deep this goes (`Analysis.resolve`). The analysis has refused
what needs more of them, as far as it knows the height of a declaration.

* `Analysis.bodyOf`: the body that a request comes down to, once it has passed the checks.
* `Analysis.resolve`: the answer to a request within a chain of bodies.
* `Analysis.resolveSite`: the answer to a call site, whose arguments have to be constants.
* `Analysis.siteRequest`: what a call site requests.
-/

namespace ConstPool

/-- The parameters of a function with the arguments they are bound to. Types and values are taken
from lists of their own; `arg` makes a value of a type. -/
def bindParams {τ ρ : Type} (arg : τ → ρ) :
    List Param → List τ → List ρ → Dict String ρ → Dict String ρ
  | [], _, _, bound => bound
  | .type name :: params, t :: types, args, bound =>
    bindParams arg params types args (bound.insert name (arg t))
  | .value name :: params, types, v :: args, bound =>
    bindParams arg params types args (bound.insert name v)
  | _ :: params, types, args, bound => bindParams arg params types args bound

namespace Request

variable {τ ρ : Type}

/-- What is requested, as a node of the call graph. -/
def node : Request τ ρ → Node
  | .call f _ _ => .function f.qualifiedName
  | .read name => .variable name

/-- The parameters of the requested body with their values. -/
def params (arg : τ → ρ) : Request τ ρ → Dict String ρ
  | .call f types args => bindParams arg f.params types args .empty
  | .read _ => .empty

/-- The key under which the result of a request is kept. -/
def key : Request ValueId Atom → MemoKey
  | .call f types args => .ofCall f.qualifiedName types args
  | .read name => .variable name

end Request

namespace Analysis

/-- Checks a request: the verdict on what is requested, then the numbers of values and of type
arguments. The body that is to be run is the answer. -/
def bodyOf {τ ρ : Type} (a : Analysis) : Request τ ρ → Except Fault Expr
  | .call f types args => do
    let name := f.qualifiedName
    a.verdict (.function name)
    if f.arity ≠ args.length then throw (.arity name f.arity args.length)
    if f.typeArity ≠ types.length then throw (.arity name f.typeArity types.length)
    return f.body
  | .read name => do
    a.verdict (.variable name)
    match a.program.globals.get? name with
    | some v => return v.value
    | none => throw (.unresolved name .noSuchVariable)

/-- Answers a request that is issued by the body at the head of a chain, or by none. At most
`callsLeft` further bodies may be nested, and none of them twice. -/
def resolve (a : Analysis) :
    (callsLeft : Nat) → Option Chain → Request ValueId Atom → Work ValueId
  | 0, parent, request => do
    let _ ← Work.ofExcept (a.bodyOf request)
    let chain := Chain.extend parent request.node.name
    throw (.breach (.outsideCallGraph chain.name chain.depth))
  | callsLeft + 1, parent, request => do
    let body ← Work.ofExcept (a.bodyOf request)
    let chain := Chain.extend parent request.node.name
    if parent.any fun c => c.contains chain.name then
      throw (.breach (.outsideCallGraph chain.name chain.depth))
    let env : Env :=
      { analysis := a
        chain
        params := request.params .ref
        request := a.resolve callsLeft (some chain) }
    Work.remember request.key (env.run body)

/-- How many bodies may be nested within the body at the head of a chain. -/
def callsBelow (a : Analysis) (chain : Chain) : Nat := a.settings.maxCallDepth - (chain.depth + 1)

/-- Answers a request that no body has issued. -/
def invoke (a : Analysis) (request : Request ValueId Atom) : Work ValueId :=
  a.resolve a.settings.maxCallDepth none request

/-- Runs an expression as the body at the head of a given chain, without vetting it. -/
def runIn (a : Analysis) (chain : Chain) (params : Dict String Atom) (body : Expr) :
    Work ValueId :=
  Env.run { analysis := a, chain, params, request := a.resolve (a.callsBelow chain) (some chain) }
    body

/-! ### Call sites -/

/-- A value at a call site: a constant of the pool. -/
def valueArgument (target : String) (index : Nat) : Argument → Work Atom
  | .const id => Work.askPool fun pool => pool.atomOf id
  | .runtime description => throw (.argument target index (.runtimeValue description))
  | .typeParam name => throw (.argument target index (.openTypeParam name))

/-- A type argument at a call site: a type of the pool. -/
def typeArgumentAt (target : String) (index : Nat) : Argument → Work ValueId
  | .const id => do
    match ← Work.askPool fun pool => pool.get id with
    | .shape (.type _ _) => return id
    | value => throw (.argument target index (.notAType value.kindName))
  | .runtime description => throw (.argument target index (.runtimeType description))
  | .typeParam name => throw (.argument target index (.openTypeParam name))

/-- The function that is called at a site. -/
def siteFunction (a : Analysis) : Target → Except Fault FunctionDecl
  | .function name =>
    match a.program.functions.get? name with
    | some f => .ok f
    | none =>
      if a.program.isPlainFunction name then .error (.unresolved name .notConstFunction)
      else .error (.unresolved name .noSuchFunction)
  | .method receiver name =>
    .error (.indirect (Target.method receiver name).name .instanceMethod)
  | .dynamic description => .error (.indirect description .dynamicDispatch)
  | .tearOff name => .error (.indirect name .tearOffAtSite)

/-- Answers a call site: the function is looked up, then the type arguments and the values are
checked in order, and then the call is made. -/
def resolveSite (a : Analysis) (site : Site) : Work ValueId := do
  let f ← Work.ofExcept (a.siteFunction site.target)
  let name := site.target.name
  let types ← site.types.zipIdx.mapM fun e => typeArgumentAt name e.2 e.1
  let args ← site.args.zipIdx.mapM fun e => valueArgument name e.2 e.1
  a.invoke (.call f types args)

/-- The request of a call site: the function is looked up, then the type arguments and the values
are checked in order. -/
def siteRequest (a : Analysis) (site : Site) : Work (Request ValueId Atom) := do
  let f ← Work.ofExcept (a.siteFunction site.target)
  let name := site.target.name
  let types ← site.types.zipIdx.mapM fun e => typeArgumentAt name e.2 e.1
  let args ← site.args.zipIdx.mapM fun e => valueArgument name e.2 e.1
  return .call f types args

/-- A call site is answered by making its request and answering it. -/
theorem resolveSite_eq (a : Analysis) (site : Site) :
    a.resolveSite site = a.siteRequest site >>= a.invoke := by
  simp only [resolveSite, siteRequest, bind_assoc, pure_bind]

end Analysis

end ConstPool
