import ConstPool.Proofs.Agreement
import ConstPool.Vetting

/-!
# Offences

What vetting finds in a body is an offence: a fault that can be reported, so that reading a body
never ends the work. That a declaration needs itself is not seen in its body alone.

An offence says what is wrong in the text and names what is missing there. It is never a breach, so
whoever hands in a program that does not pass is told the first thing that is wrong with it.

* `Offending`: a computation fails with offences only.
* `Expr.vet_offending`, `Stmt.vet_offending`: one expression or statement.
-/

namespace ConstPool

/-- The faults that are found in a body: no breach, and no need of a declaration for itself. -/
def Fault.IsOffence : Fault → Prop
  | .breach _ => False
  | .impure (.recursive _) => False
  | .impure (.selfDependent _) => False
  | _ => True

/-- An offence can be reported. -/
theorem Fault.IsOffence.benign {f : Fault} (h : f.IsOffence) : f.Benign := by
  cases f with
  | breach cause => exact h.elim
  | _ => rfl

/-! ### Computations that fail with such faults -/

/-- If the computation fails, the fault can be reported. -/
def Reported {β : Type} (x : Except Fault β) : Prop := ∀ f, x = .error f → f.Benign

namespace Reported

variable {β γ : Type} {x : Except Fault β}

/-- An accepted text reports nothing. -/
theorem ok (b : β) : Reported (.ok b : Except Fault β) := fun _ h => nomatch h

/-- A fault that may be reported is reported. -/
theorem error {f : Fault} (h : f.Benign) : Reported (.error f : Except Fault β) :=
  fun _ hf => Except.error.inj hf ▸ h

/-- Two checks in sequence. -/
theorem bind {g : β → Except Fault γ} (h : Reported x) (hnext : ∀ b, Reported (g b)) :
    Reported (x >>= g) := by
  rcases x with f | b
  · exact error (h f rfl)
  · exact hnext b

end Reported

/-- If the computation fails, the fault is an offence. -/
def Offending {β : Type} (x : Except Fault β) : Prop := ∀ f, x = .error f → f.IsOffence

namespace Offending

variable {β γ : Type} {x : Except Fault β}

/-- An accepted text holds no offence. -/
theorem ok (b : β) : Offending (.ok b : Except Fault β) := fun _ h => nomatch h

/-- An offence that is found is one. -/
theorem error {f : Fault} (h : f.IsOffence) : Offending (.error f : Except Fault β) :=
  fun _ hf => Except.error.inj hf ▸ h

/-- Two checks in sequence. -/
theorem bind {g : β → Except Fault γ} (h : Offending x) (hnext : ∀ b, Offending (g b)) :
    Offending (x >>= g) := by
  rcases x with f | b
  · exact error (h f rfl)
  · exact hnext b

/-- What is made of an accepted text does not matter. -/
theorem map {g : β → γ} (h : Offending x) : Offending (x.map g) := by
  rcases x with f | b
  · exact error (h f rfl)
  · exact ok (g b)

/-- An offence may be reported. -/
theorem reported (h : Offending x) : Reported x := fun f hf => (h f hf).benign

end Offending

/-! ### Vetting -/

namespace Surroundings

variable (s : Surroundings)

/-- A name that is refused is an offence of the text. -/
theorem vetName_offending (name : String) : Offending (s.vetName name) := by
  unfold vetName
  split
  · exact .ok _
  · split
    · exact .ok _
    · split
      · exact .error trivial
      · split <;> exact .error trivial

/-- So is the target of an assignment. -/
theorem vetTarget_offending (name : String) : Offending (s.vetTarget name) := by
  unfold vetTarget
  split
  · exact .ok _
  · split
    · exact .error trivial
    · split
      · exact .error trivial
      · split <;> exact .error trivial

/-- So is the callee of a call, with its numbers of arguments. -/
theorem vetCallee_offending (name : String) (types args : Nat) :
    Offending (s.vetCallee name types args) := by
  unfold vetCallee
  split
  · split
    · exact .error trivial
    · split
      · exact .error trivial
      · exact .ok _
  · split <;> exact .error trivial

/-- So is the class of an object literal. -/
theorem vetClass_offending (name : String) : Offending (s.vetClass name) := by
  unfold vetClass
  split
  · exact .ok _
  · exact .error trivial

/-- So is a jump outside of a loop. -/
theorem vetJump_offending : Offending s.vetJump := by
  unfold vetJump
  split
  · exact .ok _
  · exact .error trivial

end Surroundings

mutual

/-- A type. -/
theorem TypeExpr.vet_offending (s : Surroundings) : (t : TypeExpr) → Offending (t.vet s)
  | .named name args => by
    rw [TypeExpr.vet]
    cases isKnownType s.types name
    · exact .error trivial
    · exact vetTypes_offending s args
  | .param name => by
    rw [TypeExpr.vet]
    split
    · exact .ok _
    · exact .error trivial

/-- A list of types. -/
theorem vetTypes_offending (s : Surroundings) : (ts : List TypeExpr) → Offending (vetTypes s ts)
  | [] => .ok _
  | t :: rest => (TypeExpr.vet_offending s t).bind fun _ => vetTypes_offending s rest

end

mutual

/-- An expression. -/
theorem Expr.vet_offending : (e : Expr) → (s : Surroundings) → Offending (e.vet s)
  | .scalar _, _ => .ok _
  | .text _, _ => .ok _
  | .name name, s => s.vetName_offending name
  | .unary _ operand, s => operand.vet_offending s
  | .binary _ left right, s =>
    (left.vet_offending s).bind fun _ => (right.vet_offending s).bind fun _ => .ok _
  | .and left right, s =>
    (left.vet_offending s).bind fun _ => (right.vet_offending s).bind fun _ => .ok _
  | .or left right, s =>
    (left.vet_offending s).bind fun _ => (right.vet_offending s).bind fun _ => .ok _
  | .ifNull left right, s =>
    (left.vet_offending s).bind fun _ => (right.vet_offending s).bind fun _ => .ok _
  | .cond condition onTrue onFalse, s =>
    (condition.vet_offending s).bind fun _ => (onTrue.vet_offending s).bind fun _ =>
      (onFalse.vet_offending s).bind fun _ => .ok _
  | .block body result, s =>
    (vetBody_offending body s).bind fun _ => (result.vet_offending _).bind fun _ => .ok _
  | .list items, s => vetList_offending items s
  | .map entries, s => vetEntries_offending entries s
  | .object className fields, s =>
    (s.vetClass_offending className).bind fun _ => vetFields_offending fields s
  | .collect _ source none item, s =>
    (source.vet_offending s).bind fun _ => (item.vet_offending _).bind fun _ => .ok _
  | .collect _ source (some filter) item, s =>
    (source.vet_offending s).bind fun _ => (filter.vet_offending _).bind fun _ =>
      (item.vet_offending _).bind fun _ => .ok _
  | .range start stop, s =>
    (start.vet_offending s).bind fun _ => (stop.vet_offending s).bind fun _ => .ok _
  | .index target position, s =>
    (target.vet_offending s).bind fun _ => (position.vet_offending s).bind fun _ => .ok _
  | .field target _, s => target.vet_offending s
  | .type t, s => (TypeExpr.vet_offending s t).bind fun _ => .ok _
  | .query _ t, s => (TypeExpr.vet_offending s t).bind fun _ => .ok _
  | .throw message, s => message.vet_offending s
  | .call function types args, s =>
    (s.vetCallee_offending function _ _).bind fun _ => (vetTypes_offending s types).bind fun _ =>
      (vetList_offending args s).bind fun _ => .ok _
  | .method _ _ _ _, _ => .error trivial
  | .tearOff _, _ => .error trivial

/-- A list of expressions. -/
theorem vetList_offending : (es : List Expr) → (s : Surroundings) → Offending (vetList es s)
  | [], _ => .ok _
  | e :: rest, s => (e.vet_offending s).bind fun _ => (vetList_offending rest s).bind fun _ => .ok _

/-- The entries of a map. -/
theorem vetEntries_offending : (es : List (Expr × Expr)) → (s : Surroundings) →
    Offending (vetEntries es s)
  | [], _ => .ok _
  | (key, value) :: rest, s =>
    (key.vet_offending s).bind fun _ => (value.vet_offending s).bind fun _ =>
      (vetEntries_offending rest s).bind fun _ => .ok _

/-- The fields of an object. -/
theorem vetFields_offending : (fs : List (String × Expr)) → (s : Surroundings) →
    Offending (vetFields fs s)
  | [], _ => .ok _
  | (_, value) :: rest, s =>
    (value.vet_offending s).bind fun _ => (vetFields_offending rest s).bind fun _ => .ok _

/-- A statement. -/
theorem Stmt.vet_offending : (stmt : Stmt) → (s : Surroundings) → Offending (stmt.vet s)
  | .declare _ value, s => value.vet_offending s
  | .assign name value, s => (s.vetTarget_offending name).bind fun _ => value.vet_offending s
  | .evaluate e, s => e.vet_offending s
  | .branch condition onTrue onFalse, s =>
    (condition.vet_offending s).bind fun _ => (vetBody_offending onTrue s).bind fun _ =>
      (vetBody_offending onFalse s).bind fun _ => .ok _
  | .loop condition body, s =>
    (condition.vet_offending s).bind fun _ => (vetBody_offending body _).bind fun _ => .ok _
  | .forEach _ source body, s =>
    (source.vet_offending s).bind fun _ => (vetBody_offending body _).bind fun _ => .ok _
  | .leaveLoop, s => s.vetJump_offending.bind fun _ => .ok _
  | .nextRound, s => s.vetJump_offending.bind fun _ => .ok _
  | .giveBack value, s => value.vet_offending s

/-- The statements of a body. -/
theorem vetBody_offending : (body : List Stmt) → (s : Surroundings) → Offending (vetBody body s)
  | [], _ => .ok _
  | stmt :: rest, s =>
    (stmt.vet_offending s).bind fun _ => (vetBody_offending rest _).bind fun _ => .ok _

end

/-- The declaration of a function. -/
theorem FunctionDecl.vet_offending (f : FunctionDecl) (p : Program) (types : Types) :
    Offending (f.vet p types) := (f.body.vet_offending _).map

/-- The declaration of a variable. -/
theorem VariableDecl.vet_offending (v : VariableDecl) (p : Program) (types : Types) :
    Offending (v.vet p types) := (v.value.vet_offending _).map

end ConstPool
