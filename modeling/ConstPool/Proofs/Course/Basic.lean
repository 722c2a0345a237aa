import ConstPool.Eval.Resolve
import ConstPool.Proofs.Draft.Recursion
import ConstPool.Eval.Interpretation

/-!
# The course of a body

Evaluation counts down: the steps that are left bound the rounds of a loop and the length of a
range, and the calls that are left bound how deep bodies are nested. So it ends by construction.
Here it is said without any bound what happens when a body runs. A loop goes on as long as its
condition holds, a range counts on until it has come to its end, and a request runs the body it
comes down to, which issues requests of its own. Steps are counted upward with 64 bits, and the
counter is compared with the budget when a step is taken. The counter begins again after the
greatest number, as one does that is never checked; the number of steps that were really taken is
kept beside it.

What happens is said by rules. A derivation is finite, so where there is one the body comes to its
end. There is none where a loop goes on forever, where bodies are nested without end, where the
integer after one of a range does not fit into 64 bits, where a question is asked about drafts that
can be opened forever, or where a result is asked for that is being computed.

* `Course`: how a part of a body may go.
* `Course.Loops`, `Course.Counts`: loops and ranges without a bound.
* `Env.course`: the steps of a body.
* `Analysis.Answers`: how requests are answered, to any depth.
* `Analysis.Courses`: how a body at the head of a chain goes.
-/

namespace ConstPool

/-- A body that has come to its end, and the steps it has taken. -/
structure Ended where
  chain : Chain
  ticks : Nat

/-- The stock and the scopes of a running body, the steps it has taken, and the bodies that have
come to their end within it. -/
structure Clock where
  stock : Stock
  scopes : Scopes Draft
  ticks : Nat
  ended : List Ended

/-- How a part of a body may go: where it may lead from a clock. -/
def Course (β : Type) : Type := Clock → EStateM.Result (Stop Draft) Clock β → Prop

/-- What answers a request: the outcome, the stock after it, and the bodies that were run for it. -/
structure Answer where
  outcome : Outcome
  stock : Stock
  ended : List Ended

/-- Which answers a request may have on a stock. -/
abbrev Answering := Request ValueId Atom → Stock → Answer → Prop

namespace Course

variable {β γ : Type}

/-- One part after another. -/
inductive Then (x : Course β) (f : β → Course γ) (c : Clock) :
    EStateM.Result (Stop Draft) Clock γ → Prop
  | next {b : β} {d : Clock} {r : EStateM.Result (Stop Draft) Clock γ} :
    x c (.ok b d) → f b d r → Then x f c r
  | stop {s : Stop Draft} {d : Clock} : x c (.error s d) → Then x f c (.error s d)

instance : Monad Course where
  pure b := fun c r => r = .ok b c
  bind := Then

/-! ### Steps -/

/-- Stops. -/
def stop (s : Stop Draft) : Course β := fun c r => r = .error s c

/-- What the counter of steps shows after so many steps. It has 64 bits: after the greatest number
it begins again with zero. -/
def counter (ticks : Nat) : UInt64 := .ofNat ticks

/-- The counter shows the number of steps as long as this has 64 bits. -/
theorem toNat_counter {ticks : Nat} (h : ticks < UInt64.size) : (counter ticks).toNat = ticks :=
  UInt64.toNat_ofNat_of_lt h

/-- Takes a step and fails if the counter shows more than the budget. -/
inductive Tick (exhausted : Fault) (budget : Nat) (c : Clock) :
    EStateM.Result (Stop Draft) Clock Unit → Prop
  | within : (counter (c.ticks + 1)).toNat ≤ budget →
    Tick exhausted budget c (.ok () { c with ticks := c.ticks + 1 })
  | beyond : budget < (counter (c.ticks + 1)).toNat →
    Tick exhausted budget c (.error (.fault exhausted) { c with ticks := c.ticks + 1 })

/-- Takes a step, which counts against the budget. -/
def tick (exhausted : Fault) (budget : Nat) : Course Unit := Tick exhausted budget

/-- A computation on the stock. -/
def work (w : Work β) : Course β := fun c r =>
  r = match w c.stock with
    | .ok b stock => .ok b { c with stock }
    | .error f stock => .error (.fault f) { c with stock }

/-- A question about drafts. It takes no step to open a draft, so there is no rule where drafts can
be opened forever. -/
def ask (question : Pool → Except Fault β) : Course β := fun c r =>
  WellFounded (Draft.PartIn c.stock.pool) ∧ work (Work.askPool question) c r

/-- A request for a constant from outside, which has one of its answers. -/
inductive Asks (answering : Answering) (request : Request ValueId Atom) (c : Clock) :
    EStateM.Result (Stop Draft) Clock ValueId → Prop
  | ok {id : ValueId} {stock : Stock} {ended : List Ended} :
    answering request c.stock ⟨.ok id, stock, ended⟩ →
      Asks answering request c (.ok id { c with stock, ended := ended ++ c.ended })
  | error {f : Fault} {stock : Stock} {ended : List Ended} :
    answering request c.stock ⟨.error f, stock, ended⟩ →
      Asks answering request c (.error (.fault f) { c with stock, ended := ended ++ c.ended })

/-- Asks for a constant from outside. -/
def request (answering : Answering) (r : Request ValueId Atom) : Course ValueId := Asks answering r

/-- Asks for a constant from outside and takes it as a draft. -/
def fetch (answering : Answering) (r : Request ValueId Atom) : Course Draft := do
  let id ← request answering r
  return .atom (← work (Work.askPool fun pool => pool.atomOf id))

/-- Declares a local in the innermost scope. -/
def declare (name : String) (d : Draft) : Course Unit := fun c r =>
  r = .ok () { c with scopes := c.scopes.declare name d }

/-- Gives the innermost local of a name a new value, and fails if there is none. -/
def assign (name : String) (d : Draft) : Course Unit := fun c r =>
  r = match c.scopes.assign? name d with
    | some scopes => .ok () { c with scopes }
    | none => .error (.fault (.unresolved name .undeclaredAssignment)) c

/-- The ends of a part in a scope of its own, which is closed however the part ends. -/
inductive InScope (scope : Dict String Draft) (part : Course β) (c : Clock) :
    EStateM.Result (Stop Draft) Clock β → Prop
  | ok {b : β} {d : Clock} : part { c with scopes := scope :: c.scopes } (.ok b d) →
    InScope scope part c (.ok b { d with scopes := d.scopes.tail })
  | stop {s : Stop Draft} {d : Clock} :
    part { c with scopes := scope :: c.scopes } (.error s d) →
      InScope scope part c (.error s { d with scopes := d.scopes.tail })

/-- A part of a body in a scope of its own. -/
def inScope (scope : Dict String Draft) (part : Course β) : Course β := InScope scope part

/-! ### Loops -/

/-- The ends of a round of a loop. A jump ends the round and says whether the loop goes on. -/
inductive Round (scope : Dict String Draft) (body : Course Unit) (c : Clock) :
    EStateM.Result (Stop Draft) Clock Bool → Prop
  | ok {d : Clock} : InScope scope body c (.ok () d) → Round scope body c (.ok true d)
  | nextRound {d : Clock} : InScope scope body c (.error .nextRound d) →
    Round scope body c (.ok true d)
  | leaveLoop {d : Clock} : InScope scope body c (.error .leaveLoop d) →
    Round scope body c (.ok false d)
  | result {v : Draft} {d : Clock} : InScope scope body c (.error (.result v) d) →
    Round scope body c (.error (.result v) d)
  | fault {f : Fault} {d : Clock} : InScope scope body c (.error (.fault f) d) →
    Round scope body c (.error (.fault f) d)

/-- One round of a loop in a scope of its own. The answer says whether the loop goes on. -/
def round (scope : Dict String Draft) (body : Course Unit) : Course Bool := Round scope body

/-- The ends of a loop with a condition, which goes on as long as the condition holds and no round
leaves it. -/
inductive Loops (tick : Course Unit) (test round : Course Bool) :
    Clock → EStateM.Result (Stop Draft) Clock Unit → Prop
  | exhausted {c d : Clock} {s : Stop Draft} : tick c (.error s d) →
    Loops tick test round c (.error s d)
  | testStops {c c₁ d : Clock} {s : Stop Draft} : tick c (.ok () c₁) → test c₁ (.error s d) →
    Loops tick test round c (.error s d)
  | ends {c c₁ d : Clock} : tick c (.ok () c₁) → test c₁ (.ok false d) →
    Loops tick test round c (.ok () d)
  | roundStops {c c₁ c₂ d : Clock} {s : Stop Draft} : tick c (.ok () c₁) → test c₁ (.ok true c₂) →
    round c₂ (.error s d) → Loops tick test round c (.error s d)
  | leaves {c c₁ c₂ d : Clock} : tick c (.ok () c₁) → test c₁ (.ok true c₂) →
    round c₂ (.ok false d) → Loops tick test round c (.ok () d)
  | again {c c₁ c₂ c₃ : Clock} {r : EStateM.Result (Stop Draft) Clock Unit} : tick c (.ok () c₁) →
    test c₁ (.ok true c₂) → round c₂ (.ok true c₃) → Loops tick test round c₃ r →
      Loops tick test round c r

/-- A loop with a condition. -/
def loop (tick : Course Unit) (test : Course Bool) (body : Course Unit) : Course Unit :=
  Loops tick test (round .empty body)

/-- The ends of a range, which counts on until it has come to its end and takes a step for each
integer. There is no rule for an integer after which the next one does not fit into 64 bits. -/
inductive Counts (tick : Course Unit) (stop : Int64) :
    Int64 → Array Draft → Clock → EStateM.Result (Stop Draft) Clock Draft → Prop
  | done {n : Int64} {counted : Array Draft} {c : Clock} : ¬ n.toInt < stop.toInt →
    Counts tick stop n counted c (.ok (.list counted) c)
  | exhausted {n : Int64} {counted : Array Draft} {c d : Clock} {s : Stop Draft} :
    n.toInt < stop.toInt → tick c (.error s d) → Counts tick stop n counted c (.error s d)
  | next {n n' : Int64} {counted : Array Draft} {c d : Clock}
      {r : EStateM.Result (Stop Draft) Clock Draft} :
    n.toInt < stop.toInt → tick c (.ok () d) → n'.toInt = n.toInt + 1 →
      Counts tick stop n' (counted.push (.int n)) d r → Counts tick stop n counted c r

/-- The integers from `start` up to and without `stop`. -/
def range (tick : Course Unit) (start stop : Int64) : Course Draft := Counts tick stop start #[]

end Course

/-! ### Bodies -/

namespace Env

variable (env : Env) (answering : Answering)

/-- The value of a name in given scopes: a local, a parameter, or a constant variable. -/
def valueOf (name : String) (scopes : Scopes Draft) : Course Draft :=
  match scopes.find? name with
  | some d => pure d
  | none =>
    match env.params.get? name with
    | some atom => pure (.atom atom)
    | none =>
      if env.analysis.program.globals.contains name then Course.fetch answering (.read name)
      else Course.stop (.fault (env.analysis.noValue env.owner name))

/-- Takes a step of the body. -/
abbrev tick : Course Unit := Course.tick env.exhausted env.analysis.settings.stepBudget

/-- The steps of a body without a bound on loops, ranges and calls. -/
def course : Interpretation Course Draft ValueId Atom where
  step := env.tick
  stop := Course.stop
  inScope := Course.inScope
  round := Course.round
  loop := Course.loop env.tick
  declare := Course.declare
  assign := Course.assign
  analysis := env.analysis
  owner := env.owner
  scalar := .scalar
  layer := .fresh
  isNull := Draft.isNull
  lookup name := fun c => env.valueOf answering name c.scopes c
  range := Course.range env.tick
  ask q := Course.ask (q.onDrafts env.analysis)
  type t := Course.work (Work.ofExcept (t.draft env))
  poolType d := Course.work d.internType
  pool d := Course.work d.intern
  call f types args := Course.fetch answering (.call f types args)

end Env

/-- Pools the constant with which a body ends. -/
def Draft.settle (d : Draft) : Work ValueId := do
  let atom ← d.intern
  Work.onPool (Pool.internAtom atom)

namespace Clock

variable (c : Clock) (chain : Chain)

/-- The end of a body with a fault. -/
def failed (f : Fault) : Answer := ⟨.error f, c.stock, ⟨chain, c.ticks⟩ :: c.ended⟩

/-- The end of a body with a constant, which is pooled. -/
def settled (d : Draft) : Answer :=
  ⟨(d.settle.outcome c.stock).1, (d.settle.outcome c.stock).2, ⟨chain, c.ticks⟩ :: c.ended⟩

end Clock

/-- The end of a body whose expression has come to its end. No jump may leave the body. -/
def Env.answer (env : Env) : EStateM.Result (Stop Draft) Clock Draft → Answer
  | .ok d c => c.settled env.chain d
  | .error (.result d) c => c.settled env.chain d
  | .error (.fault f) c => c.failed env.chain f
  | .error .leaveLoop c => c.failed env.chain (.impure (.jumpOutOfBody env.owner))
  | .error .nextRound c => c.failed env.chain (.impure (.jumpOutOfBody env.owner))

/-- How a body may go whose requests are answered in a given way: it begins with one empty scope,
and before it no step has been taken and no body has come to its end. -/
def Env.Courses (env : Env) (answering : Answering) (body : Expr) (stock : Stock) (x : Answer) :
    Prop :=
  ∃ r, body.evalIn (env.course answering) ⟨stock, [.empty], 0, []⟩ r ∧ x = env.answer r

namespace Analysis

variable (a : Analysis)

/-- The surroundings of a body whose requests are not answered by running anything. How they are
answered is said apart. -/
def within (chain : Chain) (params : Dict String Atom) : Env where
  analysis := a
  chain
  params
  request _ := throw (.breach (.outsideCallGraph chain.name chain.depth))

/-- A body may not be nested within a chain: it would be too deep, or it is in the chain already. -/
def Outside (parent : Option Chain) (name : String) : Prop :=
  a.settings.maxCallDepth ≤ (Chain.extend parent name).depth ∨
    (parent.any fun c => c.contains name) = true

/-- How a request is answered that is issued by the body at the head of a chain, or by none. The
body that is run issues requests, which are answered in the same way. There is no rule for a
request whose result is being computed. -/
inductive Answers : Option Chain → Request ValueId Atom → Stock → Answer → Prop
  | refused {parent : Option Chain} {r : Request ValueId Atom} {s : Stock} {f : Fault} :
    a.bodyOf r = .error f → Answers parent r s ⟨.error f, s, []⟩
  | outside {parent : Option Chain} {r : Request ValueId Atom} {s : Stock} {body : Expr} :
    a.bodyOf r = .ok body → a.Outside parent r.node.name →
      Answers parent r s
        ⟨.error (.breach (.outsideCallGraph r.node.name (Chain.extend parent r.node.name).depth)),
          s, []⟩
  | found {parent : Option Chain} {r : Request ValueId Atom} {s : Stock} {body : Expr}
      {o : Outcome} :
    a.bodyOf r = .ok body → ¬ a.Outside parent r.node.name →
      s.memo.cells.get? r.key = some (.done o) →
        Answers parent r s ⟨o, { s with memo := s.memo.hit }, []⟩
  | computed {parent : Option Chain} {r : Request ValueId Atom} {s : Stock} {body : Expr}
      {answering : Answering} {x : Answer} :
    a.bodyOf r = .ok body → ¬ a.Outside parent r.node.name → s.memo.cells.get? r.key = none →
      (∀ r' s' x', answering r' s' x' →
        Answers (some (Chain.extend parent r.node.name)) r' s' x') →
      (a.within (Chain.extend parent r.node.name) (r.params .ref)).Courses answering body
        { s with memo := s.memo.start r.key } x →
        Answers parent r s
          ⟨x.outcome, { x.stock with memo := x.stock.memo.finish r.key x.outcome }, x.ended⟩

/-- How a body at the head of a chain may go. -/
def Courses (chain : Chain) (params : Dict String Atom) (body : Expr) (stock : Stock)
    (x : Answer) : Prop :=
  (a.within chain params).Courses (a.Answers (some chain)) body stock x

end Analysis

end ConstPool
