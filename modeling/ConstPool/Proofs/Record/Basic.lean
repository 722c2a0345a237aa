import ConstPool.Eval.Interpretation
import ConstPool.Proofs.Tree.Eval

/-!
# What a body asks for

A body that runs on trees can keep a record: of the constants that it would pool, and of the
requests that come down to the body of another declaration. The record depends on the parameters and
on the answers alone. So it says what a run on drafts does to a stock, whatever the stock is.

* `Log`: the record of a run.
* `TreeEnv.recorder`: the steps of a body that runs on trees and keeps a record.
* `Analysis.record`: the record of the body that a request comes down to.
-/

namespace ConstPool

/-- A request for trees of scalars. -/
abbrev Inquiry := Request (Tree Scalar) (Tree Scalar)

/-- What a run has pooled and which of its requests came down to a body, the latest last. -/
structure Log where
  pooled : List (Tree Scalar) := []
  asked : List Inquiry := []

namespace Log

/-- A constant is pooled. -/
def pool (log : Log) (t : Tree Scalar) : Log := { log with pooled := log.pooled ++ [t] }

/-- A request comes down to a body. -/
def ask (log : Log) (r : Inquiry) : Log := { log with asked := log.asked ++ [r] }

/-- A request is issued, which may or may not come down to a body. -/
def note (log : Log) (a : Analysis) (r : Inquiry) : Log :=
  match a.bodyOf r with
  | .ok _ => log.ask r
  | .error _ => log

/-- An inquiry that has a body is written down. -/
theorem note_of_ok {a : Analysis} {r : Inquiry} {body : Expr} (h : a.bodyOf r = .ok body)
    (log : Log) : log.note a r = log.ask r := by
  rw [note, h]

/-- An inquiry without one is not. -/
theorem note_of_error {a : Analysis} {r : Inquiry} {f : Fault} (h : a.bodyOf r = .error f)
    (log : Log) : log.note a r = log := by
  rw [note, h]

end Log

/-- A result that is known, or a fault, after a change of the record. -/
def Eval.onLog {δ β : Type} (change : Log → Log) (x : Except Fault β) : Eval Log δ β := fun m =>
  match x with
  | .ok b => .ok b { m with stock := change m.stock }
  | .error f => .error (.fault f) { m with stock := change m.stock }

/-- The answer to a question about trees. -/
def Question.onTrees {α β : Type} [DecidableEq α] [Leaf α] (env : TreeEnv α) :
    Question (Tree α) β → Except Fault β
  | .unary op t => t.unary op
  | .binary op t u => t.binary op u
  | .truth role t => t.asBool role
  | .integer role t => t.asInt role
  | .elements t => t.elements
  | .newKey key given => key.ensureNewKey given
  | .index t position => t.index position
  | .member t name => t.member name
  | .query q t => env.queryType q t
  | .message t => .ok t.message

/-- The fault of a request for something that a body does not need. No vetted body issues one, and
no body fails with it otherwise. -/
def Request.unneeded {τ ρ : Type} (r : Request τ ρ) : Fault := .breach (.other r.node.name)

namespace TreeEnv

variable (env : TreeEnv Scalar) (needs : List Node)

/-- The answer to a request for something that the body needs. -/
def consult (r : Inquiry) : Eval Log (Tree Scalar) (Tree Scalar) :=
  if r.node ∈ needs then Eval.onLog (·.note env.analysis r) (env.request r)
  else Eval.raise r.unneeded

/-- The value of a name: a local, a parameter, or a constant variable. -/
def find (name : String) : Eval Log (Tree Scalar) (Tree Scalar) := do
  match (← get).scopes.find? name with
  | some t => return t
  | none =>
    match env.params.get? name with
    | some t => return t
    | none =>
      if env.analysis.program.globals.contains name then env.consult needs (.read name)
      else Eval.raise (env.analysis.noValue env.owner name)

/-- The integers from `start` up to and without `stop`, a step for each. -/
def integers (start stop : Int64) : Eval Log (Tree Scalar) (Tree Scalar) := do
  let count := (stop.toInt - start.toInt).toNat
  Eval.spend env.exhausted count
  return .list ((Array.range count).map fun (i : Nat) => .scalar (.int (.ofInt (start.toInt + i))))

/-- The steps of a body that runs on trees and keeps a record. -/
def recorder : Interpretation (Eval Log (Tree Scalar)) (Tree Scalar) (Tree Scalar) (Tree Scalar)
    where
  toControl := Eval.control env.exhausted
  analysis := env.analysis
  owner := env.owner
  scalar := .scalar
  layer := .node
  isNull t := decide (t.scalar? = some .null)
  lookup := env.find needs
  range := env.integers
  ask q := Eval.ofExcept (q.onTrees env)
  type t := Eval.ofExcept (t.tree env)
  poolType t := Eval.onLog (·.pool t) (.ok t)
  pool t := Eval.onLog (·.pool t) (.ok t)
  call f types args := env.consult needs (.call f types args)

/-- The run of a body that keeps a record. -/
def recording (body : Expr) :
    EStateM.Result (Stop (Tree Scalar)) (Machine Log (Tree Scalar)) (Tree Scalar) :=
  body.evalIn (env.recorder needs) ⟨{}, [.empty], env.analysis.settings.stepBudget⟩

/-- The record of a body. -/
def record (body : Expr) : Log :=
  match env.recording needs body with
  | .ok _ m => m.stock
  | .error _ m => m.stock

/-- The constant with which a run ends, or its fault. -/
def ended {σ : Type} :
    EStateM.Result (Stop (Tree Scalar)) (Machine σ (Tree Scalar)) (Tree Scalar) →
      Except Fault (Tree Scalar)
  | .ok t _ => .ok t.settled
  | .error (.result t) _ => .ok t.settled
  | .error (.fault f) _ => .error f
  | .error .leaveLoop _ => .error (.impure (.jumpOutOfBody env.owner))
  | .error .nextRound _ => .error (.impure (.jumpOutOfBody env.owner))

end TreeEnv

/-- The surroundings of the body that a request comes down to, if requests within it are answered by
`reply`. -/
def Analysis.around (a : Analysis) (reply : Inquiry → Except Fault (Tree Scalar)) (r : Inquiry) :
    TreeEnv Scalar := ⟨a, r.node.name, r.params id, reply⟩

/-- The record of the body that a request comes down to. -/
def Analysis.record (a : Analysis) (reply : Inquiry → Except Fault (Tree Scalar)) (r : Inquiry) :
    Log :=
  match a.bodyOf r with
  | .ok body => (a.around reply r).record (a.graph.needs.direct r.node) body
  | .error _ => {}

/-- What the body of a request comes to while it keeps its record. -/
def Analysis.ending (a : Analysis) (reply : Inquiry → Except Fault (Tree Scalar)) (r : Inquiry)
    (body : Expr) : Except Fault (Tree Scalar) :=
  (a.around reply r).ended ((a.around reply r).recording (a.graph.needs.direct r.node) body)

end ConstPool
