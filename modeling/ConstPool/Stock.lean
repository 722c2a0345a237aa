import ConstPool.Pool
import ConstPool.Uses.Basic
import ConstPool.Memo

/-!
# The stock of constants

What computing constants leaves behind: the pool, the uses of constants by constants, and the
cache of results. A computation on the stock (`Work`) gives a result or a fault, and the stock
after it in either case: constants that were pooled before a fault stay pooled.

* `intern`: pools a value and records the uses of its parts.
* `remember`: looks a result up, or computes it and keeps it.
-/

namespace ConstPool

/-- The pool, the uses and the cache. -/
structure Stock where
  pool : Pool := {}
  uses : Uses := .empty
  memo : Memo := {}

/-- A computation on the stock that may fail. -/
abbrev Work := EStateM Fault Stock

namespace Work

/-- A result that does not touch the stock. -/
def ofExcept {α : Type} : Except Fault α → Work α
  | .ok a => pure a
  | .error fault => throw fault

/-- A step on the pool alone. -/
def onPool {α : Type} (step : Pool → Except Fault α × Pool) : Work α := fun ⟨pool, uses, memo⟩ =>
  match step pool with
  | (.ok a, pool) => .ok a ⟨pool, uses, memo⟩
  | (.error fault, pool) => .error fault ⟨pool, uses, memo⟩

/-- A question to the pool. -/
def askPool {α : Type} (question : Pool → Except Fault α) : Work α := fun stock =>
  match question stock.pool with
  | .ok a => .ok a stock
  | .error fault => .error fault stock

/-- Pools a value and records that it uses its parts. -/
def intern (value : Value) : Work ValueId := do
  let id ← onPool (Pool.intern value)
  modify fun ⟨pool, uses, memo⟩ => ⟨pool, uses.recordParts id value.children, memo⟩
  return id

/-- The result of a request: from the cache if it was computed before, and else computed now
and kept, whether it is a constant or a fault. A request for a result that is being computed
cannot be answered. -/
def remember (key : MemoKey) (compute : Work ValueId) : Work ValueId := fun stock =>
  match stock.memo.cells.get? key with
  | some (.done (.ok id)) => .ok id { stock with memo := stock.memo.hit }
  | some (.done (.error fault)) => .error fault { stock with memo := stock.memo.hit }
  | some .running => .error (.breach (.computedTwice key.name)) stock
  | none =>
    match compute { stock with memo := stock.memo.start key } with
    | .ok id after => .ok id { after with memo := after.memo.finish key (.ok id) }
    | .error fault after =>
      .error fault { after with memo := after.memo.finish key (.error fault) }

/-- The outcome of a computation and the stock after it. -/
def outcome {α : Type} (work : Work α) (stock : Stock) : Except Fault α × Stock :=
  match work stock with
  | .ok a after => (.ok a, after)
  | .error fault after => (.error fault, after)

end Work

end ConstPool
