import ConstPool.Eval.Interpretation
import ConstPool.Eval.Resolve
import ConstPool.Parallel.Task

/-!
# Bodies as tasks

A body that runs beside others has scopes and steps of its own. What it shares with them is the
stock, and with the stock it has to do in a few places: where a constant is looked at, where a value
is pooled, and where the result of a call or the value of a variable is asked for. Each of these is
a job. Everything between two of them concerns the body alone.

So the body of a task goes through the same steps as any body, in the order of the syntax. They only
are other ones: a strand is a run of a part of a body that may stop at every action for the others
to come in between. Its machine has no stock; the stock is what the actions find.

Requests are nested in each other as they are where one body runs alone. A request passes the same
checks in the same order, its depth is that of its own chain, and a name is refused that is on its
own chain already. What other threads compute is on no chain but theirs; where a request is for such
a result, the task waits for it.

* `Strand`: a run of a part of a body as a task.
* `Env.strand`: the steps of a body that runs beside others.
* `Env.task`: a whole body.
* `Analysis.task`, `Analysis.siteTask`: the answer to a request and to a call site.
-/

namespace ConstPool

/-! ### Strands -/

/-- What a body has for itself: its scopes and the steps that it may still take. -/
abbrev Local := Machine Unit Draft

/-- The run of a part of a body as a task. It ends as every run does, and between two actions
others may come in. -/
def Strand (α : Type) := Local → Task (EStateM.Result (Stop Draft) Local α)

namespace Strand

variable {α β : Type}

/-- A part of a body that concerns the body alone. -/
def own (part : Eval Unit Draft α) : Strand α := fun m => .done (part m)

/-- A part of a body that goes on when another one has come to its end. -/
protected def bind (x : Strand α) (f : α → Strand β) : Strand β := fun m => do
  match ← x m with
  | .ok a m => f a m
  | .error stop m => return .error stop m

instance : Monad Strand where
  pure a := own (pure a)
  bind := Strand.bind

/-- A job that is done for a body. -/
def perform (job : Job α) : Strand α := fun m => do
  match ← job.run with
  | .ok a => return .ok a m
  | .error f => return .error (.fault f) m

/-- Runs a part of a body in a scope of its own, which is closed however the part ends. -/
def inScope (scope : Dict String Draft) (part : Strand α) : Strand α := fun m => do
  match ← part { m with scopes := scope :: m.scopes } with
  | .ok a m => return .ok a { m with scopes := m.scopes.tail }
  | .error stop m => return .error stop { m with scopes := m.scopes.tail }

/-- One round of a loop in a scope of its own. The answer says whether the loop goes on. -/
def round (scope : Dict String Draft) (body : Strand Unit) : Strand Bool := fun m => do
  match ← inScope scope body m with
  | .ok () m => return .ok true m
  | .error .nextRound m => return .ok true m
  | .error .leaveLoop m => return .ok false m
  | .error stop m => return .error stop m

/-- A loop with a condition. -/
def loop (exhausted : Fault) (test : Strand Bool) (body : Strand Unit) : Nat → Strand Unit
  | 0 => own (Eval.raise exhausted)
  | rounds + 1 => do
    own (Eval.spend exhausted 1)
    if ← test then
      if ← round .empty body then loop exhausted test body rounds
      else pure ()
    else pure ()

/-- Scopes, jumps and loops of a body that runs beside others. -/
def control (exhausted : Fault) : Control Strand Draft where
  step := own (Eval.spend exhausted 1)
  stop stop := own (throw stop)
  inScope := inScope
  round := round
  loop test body := fun m => loop exhausted test body m.left m
  declare name d := own (Eval.declare name d)
  assign name d := own (Eval.assign (.unresolved name .undeclaredAssignment) name d)

end Strand

/-- The value of a local, if there is one of the name. -/
def Eval.local? {σ δ : Type} (name : String) : Eval σ δ (Option δ) := do
  return (← get).scopes.find? name

/-! ### Bodies -/

namespace Env

variable (env : Env) (request : Request ValueId Atom → Job ValueId)

/-- Asks for a constant from outside and takes it as a draft. -/
def strandFetch (r : Request ValueId Atom) : Strand Draft := do
  let id ← Strand.perform (request r)
  return .atom (← Strand.perform (Job.ask fun pool => pool.atomOf id))

/-- The value of a name: a local, a parameter, or a constant variable. -/
def strandLookup (name : String) : Strand Draft := do
  match ← Strand.own (Eval.local? name) with
  | some d => return d
  | none =>
    match env.params.get? name with
    | some atom => return .atom atom
    | none =>
      if env.analysis.program.globals.contains name then strandFetch request (.read name)
      else Strand.own (Eval.raise (env.analysis.noValue env.owner name))

/-- The integers from `start` up to and without `stop`, a step for each. -/
def strandRange (start stop : Int64) : Strand Draft := do
  let count := (stop.toInt - start.toInt).toNat
  Strand.own (Eval.spend env.exhausted count)
  return .list ((Array.range count).map fun (i : Nat) => .int (.ofInt (start.toInt + i)))

/-- The steps of a body that runs beside others. Requests are answered by `request`. -/
def strand : Interpretation Strand Draft ValueId Atom where
  toControl := Strand.control env.exhausted
  analysis := env.analysis
  owner := env.owner
  scalar := .scalar
  layer := .fresh
  isNull := Draft.isNull
  lookup := env.strandLookup request
  range := env.strandRange
  ask q := Strand.perform (Job.ask (q.onDrafts env.analysis))
  type t := Strand.own (Eval.ofExcept (t.draft env))
  poolType d := Strand.perform (d.internTypeBy Job.intern)
  pool d := Strand.perform (d.internBy Job.intern)
  call f types args := strandFetch request (.call f types args)

/-- The value with which a body ends, pooled, or the fault with which it fails. -/
def settle {α : Type} : EStateM.Result (Stop Draft) α Draft → Job ValueId
  | .ok d _ => pool d
  | .error (.result d) _ => pool d
  | .error (.fault f) _ => throw f
  | .error .leaveLoop _ => throw (.impure (.jumpOutOfBody env.owner))
  | .error .nextRound _ => throw (.impure (.jumpOutOfBody env.owner))
where
  /-- Pools the value of the body. -/
  pool (d : Draft) : Job ValueId := do
    let atom ← d.internBy Job.intern
    Job.once (Work.onPool (Pool.internAtom atom))

/-- Runs a body beside others and pools its value. -/
def task (body : Expr) : Job ValueId :=
  ExceptT.mk do
    let ended ← body.evalIn (env.strand request) ⟨(), [.empty], env.analysis.settings.stepBudget⟩
    (env.settle ended).run

end Env

/-! ### Requests and sites -/

namespace Analysis

/-- Answers a request that is issued by the body at the head of a chain, or by none, beside others.
At most `callsLeft` further bodies may be nested, and none of them twice. -/
def task (a : Analysis) : (callsLeft : Nat) → Option Chain → Request ValueId Atom → Job ValueId
  | 0, parent, request => do
    let _ ← Job.ofExcept (a.bodyOf request)
    let chain := Chain.extend parent request.node.name
    throw (.breach (.outsideCallGraph chain.name chain.depth))
  | callsLeft + 1, parent, request => do
    let body ← Job.ofExcept (a.bodyOf request)
    let chain := Chain.extend parent request.node.name
    if parent.any fun c => c.contains chain.name then
      throw (.breach (.outsideCallGraph chain.name chain.depth))
    let env : Env :=
      { analysis := a
        chain
        params := request.params .ref
        request := a.resolve callsLeft (some chain) }
    Job.remember request.key (env.task (a.task callsLeft (some chain)) body)

/-- Answers a call site beside others: its request is made, and then it is answered. -/
def siteTask (a : Analysis) (site : Site) : Job ValueId := do
  let request ← Job.once (a.siteRequest site)
  a.task a.settings.maxCallDepth none request

end Analysis

end ConstPool
