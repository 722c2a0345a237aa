import ConstPool.Eval.Resolve
import ConstPool.Proofs.Draft.Intern
import ConstPool.Eval.Interpretation

/-!
# What escapes from a body

What a body makes stays with it, unless it escapes: as an argument that is pooled for a call, or as
the value with which the body ends. A body can be watched while it runs. Every step is the one that
it takes anyway, and what escapes in it is noted. A request is noted before it is answered, and with
it what escapes from the bodies that answer it.

To be watched is one more thing that a stock has with it, so a watched body is an interpretation of
the body in which the steps that pool arguments and the steps that request also make a note.

* `Escape`, `Watched`: what escapes, and a stock with a note of it.
* `Env.watcher`, `Env.watch`: the steps of a body that is watched, and the whole body.
* `Analysis.escapes`: what escapes from the bodies that answer a request.
* `Escape.Covers`: a constant is part of one that has escaped.
* `Pool.GrowsBy`, `Stock.GrowsBy`: nothing is new but what is part of something that has escaped.
-/

namespace ConstPool

open Draft

/-- What leaves a body. -/
inductive Escape where
  /-- A type is pooled as an argument of a call. -/
  | typeArgument (id : ValueId)
  /-- A value is pooled as an argument of a call. -/
  | argument (a : Atom)
  /-- A call is made, or a constant variable is read. -/
  | request (r : Request ValueId Atom)
  /-- A body ends with a value. -/
  | result (id : ValueId)

/-- A stock, and what has escaped so far. -/
structure Watched where
  stock : Stock
  escapes : List Escape

/-- Takes a step and notes what leaves the body in it. That depends on the stock before the step and
on its result, if there is one. -/
def Eval.watch {β : Type} (step : Run β) (leaves : Stock → Option β → List Escape) :
    Eval Watched Draft β := fun ⟨⟨stock, escapes⟩, scopes, left⟩ =>
  match step ⟨stock, scopes, left⟩ with
  | .ok b m => .ok b ⟨⟨m.stock, escapes ++ leaves stock (some b)⟩, m.scopes, m.left⟩
  | .error stop m => .error stop ⟨⟨m.stock, escapes ++ leaves stock none⟩, m.scopes, m.left⟩

/-- What leaves a body when it ends. -/
def Outcome.escapes : Outcome → List Escape
  | .ok id => [.result id]
  | .error _ => []

/-! ### Bodies that are watched -/

namespace Env

-- What escapes while a request is answered is told by `within`.
variable (env : Env) (within : Request ValueId Atom → Stock → List Escape)

/-- A request. -/
def watchedFetch (r : Request ValueId Atom) : Eval Watched Draft Draft :=
  Eval.watch (env.fetch r) fun stock _ => .request r :: within r stock

/-- The value of a name: a local, a parameter, or a constant variable. -/
def watchedLookup (name : String) : Eval Watched Draft Draft := do
  match (← get).scopes.find? name with
  | some d => return d
  | none =>
    match env.params.get? name with
    | some a => return .atom a
    | none =>
      if env.analysis.program.globals.contains name then env.watchedFetch within (.read name)
      else Eval.raise (env.analysis.noValue env.owner name)

/-- The steps of a body that is watched. -/
def watcher : Interpretation (Eval Watched Draft) Draft ValueId Atom where
  toControl := Eval.control env.exhausted
  analysis := env.analysis
  owner := env.owner
  scalar := .scalar
  layer := .fresh
  isNull := Draft.isNull
  lookup := env.watchedLookup within
  range a b := Eval.watch (env.range a b) fun _ _ => []
  ask q := Eval.watch (Eval.ask (q.onDrafts env.analysis)) fun _ _ => []
  type t := Eval.ofExcept (t.draft env)
  poolType d := Eval.watch (Eval.onStock d.internType) fun _ id => id.toList.map .typeArgument
  pool d := Eval.watch (Eval.onStock d.intern) fun _ a => a.toList.map .argument
  call f types args := env.watchedFetch within (.call f types args)

/-- The value with which a watched body ends, before it is pooled. -/
def watch (body : Expr) (stock : Stock) : Except Fault Draft × Watched :=
  match body.evalIn (env.watcher within)
      ⟨⟨stock, []⟩, [.empty], env.analysis.settings.stepBudget⟩ with
  | .ok d m => (.ok d, m.stock)
  | .error (.result d) m => (.ok d, m.stock)
  | .error (.fault f) m => (.error f, m.stock)
  | .error .leaveLoop m => (.error (.impure (.jumpOutOfBody env.owner)), m.stock)
  | .error .nextRound m => (.error (.impure (.jumpOutOfBody env.owner)), m.stock)

/-- What escapes from a body and from those nested in it, but for the value with which it ends. -/
def escapes (body : Expr) (stock : Stock) : List Escape := (env.watch within body stock).2.escapes

end Env

namespace Analysis

/-- What escapes from the bodies that answer a request, the values with which they end included.
There is nothing if the request fails before a body is run or if its result is in the cache. -/
def escapes (a : Analysis) :
    (callsLeft : Nat) → Option Chain → Request ValueId Atom → Stock → List Escape
  | 0, _, _, _ => []
  | callsLeft + 1, parent, r, stock =>
    match a.bodyOf r, stock.memo.cells.get? r.key with
    | .ok body, none =>
      if parent.any fun c => c.contains r.node.name then []
      else
        let chain := Chain.extend parent r.node.name
        let env : Env := ⟨a, chain, r.params .ref, a.resolve callsLeft (some chain)⟩
        let start : Stock := { stock with memo := stock.memo.start r.key }
        env.escapes (a.escapes callsLeft (some chain)) body start ++
          Outcome.escapes ((env.run body).outcome start).1
    | _, _ => []

/-- What escapes from the body at the head of a given chain and from those nested in it, but for the
value with which it ends. -/
def escapesIn (a : Analysis) (chain : Chain) (params : Dict String Atom) (body : Expr)
    (stock : Stock) : List Escape :=
  Env.escapes ⟨a, chain, params, a.resolve (a.callsBelow chain) (some chain)⟩
    (a.escapes (a.callsBelow chain) (some chain)) body stock

end Analysis

/-! ### Constants that have escaped -/

/-- The constant that escapes. -/
def Escape.Denotes (pool : Pool) : Escape → Tree Holding → Prop
  | .typeArgument id, t => Means pool (.atom (.ref id)) t
  | .argument a, t => Means pool (.atom a) t
  | .request _, _ => False
  | .result id, t => pool.Denotes id t

/-- What escapes is the same tree in a pool that keeps it. -/
theorem Escape.Denotes.mono {p q : Pool} (hkeeps : p.Keeps q) {e : Escape} {t : Tree Holding}
    (h : e.Denotes p t) : e.Denotes q t := by
  cases e with
  | typeArgument id => exact Means.mono hkeeps h
  | argument a => exact Means.mono hkeeps h
  | request r => exact h
  | result id => exact Pool.Denotes.mono h hkeeps

/-- The constant of an identity is part of one that escapes, or all of it. -/
def Escape.Covers (pool : Pool) (e : Escape) (id : ValueId) : Prop :=
  ∃ t u : Tree Holding, e.Denotes pool t ∧ pool.Denotes id u ∧ (u = t ∨ u.Within t)

/-- A part of what escapes remains one in a pool that keeps both. -/
theorem Escape.Covers.mono {p q : Pool} (hkeeps : p.Keeps q) {e : Escape} {id : ValueId}
    (h : e.Covers p id) : e.Covers q id := by
  obtain ⟨t, u, ht, hu, hpart⟩ := h
  exact ⟨t, u, ht.mono hkeeps, hu.mono hkeeps, hpart⟩

/-- A later pool: whatever is new in it is part of something that has escaped. -/
structure Pool.GrowsBy (es : List Escape) (p q : Pool) : Prop where
  keeps : p.Keeps q
  covered : ∀ {id}, p.size ≤ id.index → id.index < q.size → ∃ e ∈ es, e.Covers q id

namespace Pool.GrowsBy

variable {es es' : List Escape} {p q r : Pool}

/-- A pool in which nothing is new. -/
theorem refl : p.GrowsBy es p :=
  ⟨.refl p, fun hnew hknown => absurd hknown (Nat.not_lt.2 hnew)⟩

/-- What is new after two stretches is covered by what has escaped in one of them. -/
theorem trans (h : p.GrowsBy es q) (h' : q.GrowsBy es' r) : p.GrowsBy (es ++ es') r where
  keeps := h.keeps.trans h'.keeps
  covered {id} hnew hknown := by
    rcases Nat.lt_or_ge id.index q.size with hq | hq
    · obtain ⟨e, he, hcovers⟩ := h.covered hnew hq
      exact ⟨e, List.mem_append_left _ he, hcovers.mono h'.keeps⟩
    · obtain ⟨e, he, hcovers⟩ := h'.covered hq hknown
      exact ⟨e, List.mem_append_right _ he, hcovers⟩

/-- More has escaped. -/
theorem mono (h : p.GrowsBy es q) (hes : ∀ e ∈ es, e ∈ es') : p.GrowsBy es' q where
  keeps := h.keeps
  covered hnew hknown := by
    obtain ⟨e, he, hcovers⟩ := h.covered hnew hknown
    exact ⟨e, hes e he, hcovers⟩

/-- A pool has grown by parts of a constant that escapes. -/
theorem of_extends {e : Escape} {t : Tree Holding} (h : p.Extends (fun u => u = t ∨ u.Within t) q)
    (ht : e.Denotes q t) : p.GrowsBy [e] q where
  keeps := h.keeps
  covered {id} hnew hknown := by
    obtain ⟨value, hvalue⟩ := Option.isSome_iff_exists.1 (Pool.get?_isSome_iff.2 hknown)
    obtain ⟨u, hpart, hu⟩ := h.added (Pool.get?_eq_none_iff.2 hnew) hvalue
    exact ⟨e, List.mem_singleton_self e, t, u, ht, hu, hpart⟩

end Pool.GrowsBy

/-- A later stock: whatever is new in its pool is part of something that has escaped. If nothing has
left the body, it is the same stock. -/
structure Stock.GrowsBy (es : List Escape) (s s' : Stock) : Prop where
  pool : s.pool.GrowsBy es s'.pool
  untouched : es = [] → s' = s

namespace Stock.GrowsBy

variable {es es' : List Escape} {s s' s'' : Stock}

/-- A stock in which nothing is new. -/
theorem refl : s.GrowsBy es s := ⟨.refl, fun _ => rfl⟩

/-- A stock after two stretches. -/
theorem trans (h : s.GrowsBy es s') (h' : s'.GrowsBy es' s'') : s.GrowsBy (es ++ es') s'' where
  pool := h.pool.trans h'.pool
  untouched hnil := by
    obtain ⟨hes, hes'⟩ := List.append_eq_nil_iff.1 hnil
    rw [h'.untouched hes', h.untouched hes]

end Stock.GrowsBy

end ConstPool
