import ConstPool.Draft.Intern

/-!
# Tasks

Where several threads compute constants over one stock, a computation is not a function of the
stock. It takes one action after another, and each of them finds the stock as the others have left
it by then. A task is such a computation: it has come to its result, or it says which action it
takes next and how it goes on from what it finds.

An action is what nothing comes in between of: a value is looked up and inserted while the pool is
locked, a use is recorded, a constant is read, a result is looked up and its cell taken. What a task
finds is the stock right before its action. The action may also have to wait: who asks for a result
that is being computed goes on only when it is there. A task that waits takes no action, and it is
the others that bring it on.

Reading is one action, however many constants are looked at. Constants never change and are never
given up, so what is read of them does not depend on when it is read. A cell is made and taken in
one action too. Where these are two, a cell that is made and not yet taken by anyone keeps nobody
from anything, so that it was made early shows nowhere once it is taken.

* `Task`: a computation beside others.
* `Job`: a task that may fail.
* `Job.once`: a single action.
* `Job.intern`, `Job.remember`: pooling a value, and the answer to a request.
* `Task.run?`: a task that nothing comes in between of.
-/

namespace ConstPool

/-- A computation of `α` beside others over one stock. It has come to its result, or it takes an
action. What the action makes of the stock that it finds is `after`, or `none` where it has to wait;
`next` says how the task goes on, depending on the stock that was found. -/
inductive Task (α : Type) where
  | done (a : α)
  | act (after : Stock → Option Stock) (next : Stock → Task α)

namespace Task

variable {α β : Type}

/-- A task that goes on when another one has come to its result. -/
protected def bind : Task α → (α → Task β) → Task β
  | done a, f => f a
  | act after next, f => act after fun s => (next s).bind f

instance : Monad Task where
  pure := done
  bind := Task.bind

/-- A task that is done hands its result on. -/
@[simp] theorem done_bind (a : α) (f : α → Task β) : (done a >>= f) = f a := rfl

/-- A task that acts first acts first in a sequence as well. -/
@[simp] theorem act_bind (after : Stock → Option Stock) (next : Stock → Task α) (f : α → Task β) :
    (act after next >>= f) = act after fun s => next s >>= f := rfl

/-- What a task comes to if nothing comes in between of its actions, and the stock after it. There
is nothing if it has to wait, since then nobody brings it on. -/
def run? : Task α → Stock → Option (α × Stock)
  | done a, s => some (a, s)
  | act after next, s =>
    match after s with
    | some s' => (next s).run? s'
    | none => none

end Task

/-- A task that comes to a result or to a fault. -/
abbrev Job := ExceptT Fault Task

namespace Job

variable {α : Type}

/-- A single action: it does to the stock what the computation does, and ends as it does. -/
def once (work : Work α) : Job α :=
  ExceptT.mk (.act (fun s => some (work.outcome s).2) fun s => .done (work.outcome s).1)

/-- A result that is known, or a fault. -/
def ofExcept (x : Except Fault α) : Job α := ExceptT.mk (.done x)

/-- A question to the pool. -/
def ask (question : Pool → Except Fault α) : Job α := once (Work.askPool question)

/-- Records that a constant uses its parts, one after another. -/
def link (id : ValueId) : List ValueId → Job Unit
  | [] => pure ()
  | part :: rest => do
    once (modify fun ⟨pool, uses, memo⟩ => ⟨pool, uses.record (.value id) part, memo⟩)
    link id rest

/-- Pools a value and then records that it uses its parts. -/
def intern (value : Value) : Job ValueId := do
  let id ← once (Work.onPool (Pool.intern value))
  link id value.children
  return id

/-- The result of a request: from the cache if it was computed before, and else computed now and
kept. Where it is being computed, the task waits until it is there. -/
def remember (key : MemoKey) (compute : Job ValueId) : Job ValueId :=
  ExceptT.mk <| .act
    (fun s =>
      match s.memo.cells.get? key with
      | some (.done _) => some { s with memo := s.memo.hit }
      | some .running => none
      | none => some { s with memo := s.memo.start key })
    fun s =>
      match s.memo.cells.get? key with
      | some (.done outcome) => .done outcome
      | _ => do
        let outcome ← compute.run
        .act (fun s => some { s with memo := s.memo.finish key outcome }) fun _ => .done outcome

end Job

end ConstPool
