import ConstPool.Proofs.Journal.Answers

/-!
# Requests on the way

While a request is answered, its body may issue further requests, and the bodies of these more of
them. Something holds throughout if it holds of all these requests, each of them with the chain and
the stock that it meets. For the requests of one body this is read off the journals of the body: if
an entry is made for no request that is as it should be, then no entry is made at all.

* `Env.Always`: the requests that one body issues.
* `Visit`: a request where it is answered.
* `Analysis.Throughout`: a visit and those within it, to any depth.
* `Env.always_of_run_eq`, `Env.always_of_kept`: what a body does not depend on it does not ask for,
  and what requests keep is there whenever it asks.
* `Analysis.throughout_of_step`: what one body passes on holds throughout.
-/

namespace ConstPool

variable {a : Analysis} {body : Expr} {s : Stock}

/-! ### The requests of a body -/

namespace Env

/-- Every request that a body issues has a property, on the stock on which it is issued: a journal
in which the requests with the property make no entry stays empty. -/
def Always (env : Env) (P : Request ValueId Atom → Stock → Prop) (body : Expr) (s : Stock) : Prop :=
  ∀ within : Request ValueId Atom → Stock → Journal, (∀ r s', P r s' → within r s' = []) →
    env.journal within body s = []

variable {env : Env} {P Q : Request ValueId Atom → Stock → Prop} {J : Stock → Prop}

/-- A weaker property of the requests. -/
theorem Always.mono (h : env.Always P body s) (himp : ∀ r s', P r s' → Q r s') :
    env.Always Q body s :=
  fun within hwithin => h within fun r s' hr => hwithin r s' (himp r s' hr)

/-- What requests and pooling keep is there whenever a body issues a request. -/
theorem always_of_kept (hp : env.analysis.program.Declared)
    (hintern : ∀ value s, J s → J ((Work.intern value).outcome s).2)
    (hrequest : ∀ r s, J s → J ((env.request r).outcome s).2) (hs : J s) :
    env.Always (fun r s' => r.Declared env.analysis.program ∧ J s') body s := by
  intro within hwithin
  have hguarded : env.Guarded within (fun j s' => j = [] ∧ J s') (fun _ => False) env.request :=
    { program := hp
      intern := fun value ⟨hj, hJ⟩ => ⟨hj, hintern value _ hJ⟩
      request := fun {j s' r} hr ⟨hj, hJ⟩ => by
        refine .inl ⟨rfl, ?_, hrequest r s' hJ⟩
        rw [hj, hwithin r s' ⟨hr, hJ⟩]
        rfl }
  rcases hguarded.finish body ⟨rfl, hs⟩ with ⟨-, hempty, -⟩ | ⟨_, _, hf⟩
  · exact hempty
  · exact hf.elim

/-- What a body does not depend on it does not ask for: if it does the same whatever the answers to
requests without a property are, then all its requests have the property. -/
theorem always_of_run_eq (hp : env.analysis.program.Declared)
    (h : ∀ request', (∀ r s', P r s' → request' r s' = env.request r s') →
      (env.answeredBy request').run body s = env.run body s) : env.Always P body s := by
  intro within hwithin
  refine journal_of_run_eq (K := (· = [])) hp rfl (fun {j r s'} hj hr => ?_) h
  rw [hj, hwithin r s' hr]
  rfl

end Env

/-! ### Visits -/

/-- A request where it is answered: the node whose body has issued it, if a body of a request has,
the chain of the bodies that are running, and the stock. -/
structure Visit where
  caller : Option Node
  chain : Option Chain
  request : Request ValueId Atom
  stock : Stock

namespace Visit

variable (v : Visit)

/-- The chain at the head of which the body of the request would run. -/
def next : Chain := Chain.extend v.chain v.request.node.name

/-- The surroundings of the body, if so many bodies may be nested in it. -/
def env (a : Analysis) (callsLeft : Nat) : Env :=
  ⟨a, v.next, v.request.params .ref, a.resolve callsLeft (some v.next)⟩

/-- The stock on which the body begins. -/
def begun : Stock := { v.stock with memo := v.stock.memo.start v.request.key }

/-- A request that the body issues. -/
def nested (r : Request ValueId Atom) (s : Stock) : Visit :=
  ⟨some v.request.node, some v.next, r, s⟩

/-- The body runs: the request passes its checks, its name is not in the chain, and the cache has no
result for it. -/
structure Runs (a : Analysis) (body : Expr) : Prop where
  passes : a.bodyOf v.request = .ok body
  free : (v.chain.any fun c => c.contains v.request.node.name) = false
  missing : v.stock.memo.cells.get? v.request.key = none

end Visit

namespace Analysis

/-- A property of a visit and of all visits within it. -/
def Throughout (a : Analysis) (P : Visit → Prop) : (callsLeft : Nat) → Visit → Prop
  | 0, v => P v
  | callsLeft + 1, v => P v ∧ ∀ body, v.Runs a body →
    (v.env a callsLeft).Always (fun r s => a.Throughout P callsLeft (v.nested r s)) body v.begun

/-- A property of a request that no body has issued, and of all visits within it. -/
def ThroughoutOf (a : Analysis) (P : Visit → Prop) (r : Request ValueId Atom) (s : Stock) : Prop :=
  a.Throughout P a.settings.maxCallDepth ⟨none, none, r, s⟩

/-- A property of all visits within an expression that runs as the body at the head of a chain. -/
def ThroughoutIn (a : Analysis) (P : Visit → Prop) (chain : Chain) (params : Dict String Atom)
    (body : Expr) (s : Stock) : Prop :=
  Env.Always ⟨a, chain, params, a.resolve (a.callsBelow chain) (some chain)⟩
    (fun r s => a.Throughout P (a.callsBelow chain) ⟨none, some chain, r, s⟩) body s

/-- What holds throughout a visit holds of the visit itself. -/
theorem Throughout.here {P : Visit → Prop} {callsLeft : Nat} {v : Visit}
    (h : a.Throughout P callsLeft v) : P v := by
  cases callsLeft with
  | zero => exact h
  | succ callsLeft => exact h.1

/-- What holds of a visit and is passed on by every body that runs holds throughout. The induction
is on the bodies that may still be nested. -/
theorem throughout_of_step {P : Visit → Prop} {Q : Nat → Visit → Prop}
    (hP : ∀ callsLeft v, Q callsLeft v → P v)
    (hstep : ∀ callsLeft v body, Q (callsLeft + 1) v → v.Runs a body →
      (v.env a callsLeft).Always (fun r s => Q callsLeft (v.nested r s)) body v.begun)
    {callsLeft : Nat} {v : Visit} (hv : Q callsLeft v) : a.Throughout P callsLeft v := by
  induction callsLeft generalizing v with
  | zero => exact hP 0 v hv
  | succ callsLeft ih =>
    refine ⟨hP _ v hv, fun body hruns => ?_⟩
    exact (hstep callsLeft v body hv hruns).mono fun r s hnested => ih hnested

end Analysis

end ConstPool
