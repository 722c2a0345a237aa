import ConstPool.Analysis
import ConstPool.Draft.Text
import ConstPool.Draft.Intern
import ConstPool.Draft.Access

/-!
# The machine that runs a body

A body runs on a stack of scopes with a number of steps that it may still take, over a stock of
constants. It ends with a value or stops: with a value given back early, with a jump, or with a
fault. Whatever happens, the scopes opened by a part of the body are closed behind it
(`Eval.inScope`).

Scopes, jumps and loops do not depend on what a constant is and where constants are kept: the
machine has parameters for the stock and for the constants. A body runs on a `Stock` and on
drafts. What lies outside of it, the calls of other functions and the values of variables, is
asked for through `Env.request`.
-/

namespace ConstPool

/-! ### Scopes -/

/-- The locals of one block, and the blocks around it, innermost first. -/
abbrev Scopes (δ : Type) := List (Dict String δ)

namespace Scopes

variable {δ : Type}

/-- The value of the innermost local of a name. -/
def find? (name : String) : Scopes δ → Option δ
  | [] => none
  | scope :: outer =>
    match scope.get? name with
    | some d => some d
    | none => find? name outer

/-- Declares a local in the innermost scope. -/
def declare (name : String) (d : δ) : Scopes δ → Scopes δ
  | [] => []
  | scope :: outer => scope.insert name d :: outer

/-- Gives the innermost local of a name a new value, if there is one. -/
def assign? (name : String) (d : δ) : Scopes δ → Option (Scopes δ)
  | [] => none
  | scope :: outer =>
    if scope.contains name then some (scope.insert name d :: outer)
    else (assign? name d outer).map (scope :: ·)

end Scopes

/-! ### Running bodies -/

/-- The functions and variables that are being computed, innermost first: the one whose body runs,
and those that wait for it. The depth counts the latter. It is a natural number: a chain that is
built by `Chain.extend` has as many names as its depth says, so no depth ever needs 64 bits. -/
structure Chain where
  name : String
  waiting : List String
  depth : Nat

/-- Whether a name is being computed. -/
def Chain.contains (chain : Chain) (name : String) : Bool :=
  chain.name = name || chain.waiting.contains name

/-- The chain of a body that is computed for another one, or for none. -/
def Chain.extend (parent : Option Chain) (name : String) : Chain :=
  match parent with
  | none => ⟨name, [], 0⟩
  | some c => ⟨name, c.name :: c.waiting, c.depth + 1⟩

/-- What a body asks for from outside: the result of a call with type arguments `τ` and values
`ρ`, or the value of a variable. -/
inductive Request (τ ρ : Type) where
  | call (f : FunctionDecl) (types : List τ) (args : List ρ)
  | read (name : String)

/-- What stays the same while a body runs. -/
structure Env where
  analysis : Analysis
  chain : Chain
  /-- The values of the parameters, type parameters among them. -/
  params : Dict String Atom
  /-- Answers a request for the result of a call or the value of a variable. -/
  request : Request ValueId Atom → Work ValueId

namespace Env

/-- The name of the function or variable whose body runs. -/
def owner (env : Env) : String := env.chain.name

/-- The fault of a body that takes too many steps. -/
def exhausted (env : Env) : Fault := .endless env.owner env.analysis.settings.stepBudget .steps

end Env

/-- The stock, the scopes of the running body, and the steps it may still take. -/
structure Machine (σ δ : Type) where
  stock : σ
  scopes : Scopes δ
  left : Nat

/-- Why a part of a body did not come to its end. -/
inductive Stop (δ : Type) where
  | result (d : δ)
  | leaveLoop
  | nextRound
  | fault (f : Fault)

/-- The run of a part of a body, over a stock `σ` and with constants `δ`. -/
abbrev Eval (σ δ : Type) := EStateM (Stop δ) (Machine σ δ)

namespace Eval

variable {σ δ α : Type}

/-- Stops with a fault. -/
@[inline] def raise (f : Fault) : Eval σ δ α := throw (.fault f)

/-- A result that is known, or a fault. -/
@[inline] def ofExcept : Except Fault α → Eval σ δ α
  | .ok a => pure a
  | .error f => raise f

/-- A step on the stock. -/
@[inline] def onStock (work : Work α) : Eval Stock δ α := fun ⟨stock, scopes, left⟩ =>
  match work stock with
  | .ok a stock => .ok a ⟨stock, scopes, left⟩
  | .error f stock => .error (.fault f) ⟨stock, scopes, left⟩

/-- A question to the pool. -/
@[inline] def ask (question : Pool → Except Fault α) : Eval Stock δ α := fun m =>
  match question m.stock.pool with
  | .ok a => .ok a m
  | .error f => .error (.fault f) m

/-- A question to the pool is a step on the stock that leaves it as it is. -/
theorem ask_eq_onStock (question : Pool → Except Fault α) :
    (ask question : Eval Stock δ α) = onStock (Work.askPool question) := by
  funext ⟨stock, scopes, left⟩
  simp only [ask, onStock, Work.askPool]
  cases question stock.pool <;> rfl

/-- Takes so many steps, if as many are left, and fails else.

The steps that are left are a natural number, which goes down. A program counts up instead, with a
counter of 64 bits that it compares with the budget. The two come to the same as long as the step
that is one too many still has a number of 64 bits, that is, for every budget but the greatest one.
The counter is that of `Course.Tick`, and `Env.courses_agree` says that they come to the same. -/
@[inline] def spend (exhausted : Fault) (steps : Nat) : Eval σ δ Unit := fun m =>
  if steps ≤ m.left then .ok () { m with left := m.left - steps }
  else .error (.fault exhausted) m

/-- Declares a local in the innermost scope. -/
@[inline] def declare (name : String) (d : δ) : Eval σ δ Unit := fun m =>
  .ok () { m with scopes := m.scopes.declare name d }

/-- Gives the innermost local of a name a new value, and fails if there is none. -/
@[inline] def assign (undeclared : Fault) (name : String) (d : δ) : Eval σ δ Unit := fun m =>
  match m.scopes.assign? name d with
  | some scopes => .ok () { m with scopes }
  | none => .error (.fault undeclared) m

/-- Runs a part of a body in a scope of its own, which is closed however the part ends. -/
@[inline] def inScope (scope : Dict String δ) (part : Eval σ δ α) : Eval σ δ α := fun m =>
  match part { m with scopes := scope :: m.scopes } with
  | .ok a m => .ok a { m with scopes := m.scopes.tail }
  | .error stop m => .error stop { m with scopes := m.scopes.tail }

/-- One round of a loop in a scope of its own. The answer says whether the loop goes on. -/
def round (scope : Dict String δ) (body : Eval σ δ Unit) : Eval σ δ Bool := fun m =>
  match inScope scope body m with
  | .ok () m => .ok true m
  | .error .nextRound m => .ok true m
  | .error .leaveLoop m => .ok false m
  | .error stop m => .error stop m

/-- A loop with a condition. Every round takes a step, so the steps left at its start bound the
number of rounds. -/
def loop (exhausted : Fault) (test : Eval σ δ Bool) (body : Eval σ δ Unit) : Nat → Eval σ δ Unit
  | 0 => raise exhausted
  | rounds + 1 => do
    spend exhausted 1
    if ← test then
      if ← round .empty body then loop exhausted test body rounds
      else pure ()
    else pure ()

/-- A loop through the elements of a list. -/
def forEach (exhausted : Fault) (binder : String) (body : Eval σ δ Unit) : List δ → Eval σ δ Unit
  | [] => pure ()
  | item :: rest => do
    spend exhausted 1
    if ← round (.one binder item) body then forEach exhausted binder body rest
    else pure ()

/-- Collects what is produced for the elements of a list, after what was collected so far. -/
def collect (exhausted : Fault) (binder : String) (produce : Eval σ δ (Option δ)) :
    List δ → Array δ → Eval σ δ (Array δ)
  | [], collected => pure collected
  | item :: rest, collected => do
    spend exhausted 1
    match ← inScope (.one binder item) produce with
    | some d => collect exhausted binder produce rest (collected.push d)
    | none => collect exhausted binder produce rest collected

end Eval

end ConstPool
