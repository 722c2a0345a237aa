import ConstPool.Fault.Basic
import ConstPool.Constant.Key
import ConstPool.Dict
import ConstPool.Number.Double

/-!
# The cache of results

The result of a call is a function of what is called and with what, so it is computed once. The
cache has a cell for every call that was ever requested. A cell whose computation is under way is
kept apart from one that holds a result; a fault is a result like any other.

* `MemoKey.call`: the key of a call, type arguments before values.
* `Memo.start`, `Memo.finish`, `Memo.hit`: the steps of a request.
-/

namespace ConstPool

/-- What was requested: the call of a function with its arguments, or the value of a variable. -/
inductive MemoKey where
  | call (function : String) (args : List Atom)
  | variable (name : String)
  deriving DecidableEq

/-- A key as a function with arguments or a variable. -/
def MemoKey.code : MemoKey → (String × List Atom) ⊕ String
  | .call function args => .inl (function, args)
  | .variable name => .inr name

instance : Key MemoKey := .via MemoKey.code fun {x y} h => by
  cases x <;> cases y <;> simp_all [MemoKey.code]

/-- The key of the call of a function with type arguments and values. -/
def MemoKey.ofCall (function : String) (types : List ValueId) (args : List Atom) : MemoKey :=
  .call function (types.map .ref ++ args)

/-- The name of the function or variable of a key. -/
def MemoKey.name : MemoKey → String
  | .call function _ => function
  | .variable name => name

/-- The result of a request: an identity or a fault. -/
abbrev Outcome := Except Fault ValueId

/-- A cell of the cache. -/
inductive MemoCell where
  | running
  | done (outcome : Outcome)

/-- The cells by key, and how many requests found a result and how many computed one. -/
structure Memo where
  cells : Dict MemoKey MemoCell := .empty
  hits : Nat := 0
  misses : Nat := 0

namespace Memo

/-- The result in the cell of a key, if the computation has ended. -/
def peek (memo : Memo) (key : MemoKey) : Option Outcome :=
  match memo.cells.get? key with
  | some (.done outcome) => some outcome
  | _ => none

/-- The computation of a key begins. -/
def start (memo : Memo) (key : MemoKey) : Memo :=
  { memo with cells := memo.cells.insert key .running }

/-- The computation of a key ends with a result. -/
def finish (memo : Memo) (key : MemoKey) (outcome : Outcome) : Memo :=
  { memo with cells := memo.cells.insert key (.done outcome), misses := memo.misses + 1 }

/-- A request has found a result. -/
def hit (memo : Memo) : Memo := { memo with hits := memo.hits + 1 }

/-- The number of cells. -/
def size (memo : Memo) : Nat := memo.cells.size

/-- The share of requests that found a result; zero before the first request. -/
def hitRate (memo : Memo) : Double := .ofQuotient memo.hits (memo.hits + memo.misses)

/-- A computation that begins for a key without a cell makes one. -/
theorem size_start {memo : Memo} {key : MemoKey} (h : memo.cells.get? key = none) :
    (memo.start key).size = memo.size + 1 := by
  simp [size, start, Dict.size_insert, Dict.contains, h]

/-- A computation that ends fills the cell that it has made. -/
theorem size_finish {memo : Memo} {key : MemoKey} {cell : MemoCell}
    (h : memo.cells.get? key = some cell) (outcome : Outcome) :
    (memo.finish key outcome).size = memo.size := by
  simp [size, finish, Dict.size_insert, Dict.contains, h]

/-- The outcome of a computation that has finished is told. -/
@[simp] theorem peek_finish_self (memo : Memo) (key : MemoKey) (outcome : Outcome) :
    (memo.finish key outcome).peek key = some outcome := by
  simp [peek, finish]

/-- What is told about other keys does not change. -/
theorem peek_finish_of_ne (memo : Memo) {key key' : MemoKey} (h : key' ≠ key)
    (outcome : Outcome) : (memo.finish key outcome).peek key' = memo.peek key' := by
  simp [peek, finish, Dict.get?_insert_of_ne _ h]

end Memo

end ConstPool
