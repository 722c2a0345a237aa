import ConstPool.Proofs.Interpretation.Related
import ConstPool.Proofs.Simulation.Body

/-!
# The types that are written in a vetted body

A body that passed passed with all the types that are written in it: which types are known and
which type parameters there are is the same everywhere in a body.

* `TypeExpr.vet_eq`: a type passes wherever it is written.
* `Expr.vet_types`, `Stmt.vet_types`: the types of one expression or statement.
-/

namespace ConstPool

section Types

variable {s s' : Surroundings}

mutual

/-- Whether a type passes depends on the types and the type parameters that are known. -/
theorem TypeExpr.vet_eq (howner : s'.owner = s.owner) (htypes : s'.types = s.types)
    (hparams : s'.typeParams = s.typeParams) : (t : TypeExpr) → t.vet s' = t.vet s
  | .named name args => by
    rw [TypeExpr.vet, TypeExpr.vet, htypes, vetTypes_eq howner htypes hparams args]
  | .param name => by rw [TypeExpr.vet, TypeExpr.vet, hparams, howner]

/-- The same for a list of types. -/
theorem vetTypes_eq (howner : s'.owner = s.owner) (htypes : s'.types = s.types)
    (hparams : s'.typeParams = s.typeParams) : (ts : List TypeExpr) → vetTypes s' ts = vetTypes s ts
  | [] => by rw [vetTypes, vetTypes]
  | t :: rest => by
    rw [vetTypes, vetTypes, TypeExpr.vet_eq howner htypes hparams t,
      vetTypes_eq howner htypes hparams rest]

end

end Types

/-- Every type of a list passes. -/
def VetTypes (s : Surroundings) (ts : List TypeExpr) : Prop := ∀ t ∈ ts, t.vet s = .ok ()

namespace VetTypes

variable {s s' : Surroundings} {ts us : List TypeExpr}

/-- No types, nothing to pass. -/
theorem nil : VetTypes s [] := fun _ h => nomatch h

/-- The types of two pieces pass if those of each do. -/
theorem append (h : VetTypes s ts) (h' : VetTypes s us) : VetTypes s (ts ++ us) :=
  List.forall_mem_append.2 ⟨h, h'⟩

/-- The types pass where the same types and type parameters are known. -/
theorem of_eq (h : VetTypes s' ts) (howner : s'.owner = s.owner) (htypes : s'.types = s.types)
    (hparams : s'.typeParams = s.typeParams) : VetTypes s ts := by
  intro t ht
  rw [← TypeExpr.vet_eq howner htypes hparams]
  exact h t ht

/-- The types pass if they pass as a list. -/
theorem of_vetTypes (h : vetTypes s ts = .ok ()) : VetTypes s ts := by
  induction ts with
  | nil => exact nil
  | cons t ts ih =>
    rw [vetTypes] at h
    obtain ⟨_, ht, hts⟩ := ok_of_bind h
    exact List.forall_mem_cons.2 ⟨ht, ih hts⟩

/-- A name declared on the way does not matter to types. -/
theorem of_declare {name : String} (h : VetTypes (s.declare name) ts) : VetTypes s ts :=
  h.of_eq rfl rfl rfl

/-- Neither does a statement on the way. -/
theorem of_after {stmt : Stmt} (h : VetTypes (s.after stmt) ts) : VetTypes s ts := by
  cases stmt <;> exact h.of_eq rfl rfl rfl

/-- Nor do all statements of a body. -/
theorem of_afterAll {body : List Stmt} (h : VetTypes (s.afterAll body) ts) : VetTypes s ts := by
  induction body generalizing s with
  | nil => exact h
  | cons stmt rest ih => exact of_after (ih h)

end VetTypes

section Syntax

variable {needs : List Node}

mutual

/-- The types of an expression that passed. -/
theorem Expr.vet_types : (e : Expr) → (s : Surroundings) → Vetted needs (e.vet s) →
    VetTypes s e.types
  | .scalar _, _, _ => .nil
  | .text _, _, _ => .nil
  | .name _, _, _ => .nil
  | .unary _ operand, s, h => Expr.vet_types operand s h
  | .binary _ left right, s, h =>
    (Expr.vet_types left s h.append.1).append (Expr.vet_types right s h.append.2)
  | .and left right, s, h =>
    (Expr.vet_types left s h.append.1).append (Expr.vet_types right s h.append.2)
  | .or left right, s, h =>
    (Expr.vet_types left s h.append.1).append (Expr.vet_types right s h.append.2)
  | .ifNull left right, s, h =>
    (Expr.vet_types left s h.append.1).append (Expr.vet_types right s h.append.2)
  | .cond condition onTrue onFalse, s, h =>
    (Expr.vet_types condition s h.append₃.1).append
      ((Expr.vet_types onTrue s h.append₃.2.1).append (Expr.vet_types onFalse s h.append₃.2.2))
  | .block body result, s, h =>
    (bodyVetTypes body s h.append.1).append (Expr.vet_types result _ h.append.2).of_afterAll
  | .list items, s, h => itemsVetTypes items s h
  | .map entries, s, h => entriesVetTypes entries s h
  | .object _ fields, s, h => fieldsVetTypes fields s h.after_check
  | .collect _ source none item, s, h =>
    (Expr.vet_types source s h.append.1).append (Expr.vet_types item _ h.append.2).of_declare
  | .collect _ source (some filter) item, s, h =>
    (Expr.vet_types source s h.append₃.1).append
      ((Expr.vet_types filter _ h.append₃.2.1).of_declare.append
        (Expr.vet_types item _ h.append₃.2.2).of_declare)
  | .range start stop, s, h =>
    (Expr.vet_types start s h.append.1).append (Expr.vet_types stop s h.append.2)
  | .index target position, s, h =>
    (Expr.vet_types target s h.append.1).append (Expr.vet_types position s h.append.2)
  | .field target _, s, h => Expr.vet_types target s h
  | .type _, _, h => fun _ ht => List.mem_singleton.1 ht ▸ h.check
  | .query _ _, _, h => fun _ ht => List.mem_singleton.1 ht ▸ h.check
  | .throw message, s, h => Expr.vet_types message s h
  | .call _ _ args, s, h =>
    (VetTypes.of_vetTypes h.of_call.2.2.1).append (itemsVetTypes args s h.of_call.2.2.2)
  | .method _ _ _ _, _, _ => .nil
  | .tearOff _, _, _ => .nil

/-- The types in the items of a list that passed. -/
theorem itemsVetTypes : (items : List Expr) → (s : Surroundings) → Vetted needs (vetList items s) →
    VetTypes s (typesOfItems items)
  | [], _, _ => .nil
  | item :: rest, s, h =>
    (Expr.vet_types item s h.append.1).append (itemsVetTypes rest s h.append.2)

/-- The types in the entries of a map that passed. -/
theorem entriesVetTypes : (entries : List (Expr × Expr)) → (s : Surroundings) →
    Vetted needs (vetEntries entries s) → VetTypes s (typesOfEntries entries)
  | [], _, _ => .nil
  | (key, value) :: rest, s, h =>
    (Expr.vet_types key s h.append₃.1).append
      ((Expr.vet_types value s h.append₃.2.1).append (entriesVetTypes rest s h.append₃.2.2))

/-- The types in the fields of an object that passed. -/
theorem fieldsVetTypes : (fields : List (String × Expr)) → (s : Surroundings) →
    Vetted needs (vetFields fields s) → VetTypes s (typesOfFields fields)
  | [], _, _ => .nil
  | (_, value) :: rest, s, h =>
    (Expr.vet_types value s h.append.1).append (fieldsVetTypes rest s h.append.2)

/-- The types of a statement that passed. -/
theorem Stmt.vet_types : (stmt : Stmt) → (s : Surroundings) → Vetted needs (stmt.vet s) →
    VetTypes s stmt.types
  | .declare _ value, s, h => Expr.vet_types value s h
  | .assign _ value, s, h => Expr.vet_types value s h.after_check
  | .evaluate e, s, h => Expr.vet_types e s h
  | .branch condition onTrue onFalse, s, h =>
    (Expr.vet_types condition s h.append₃.1).append
      ((bodyVetTypes onTrue s h.append₃.2.1).append (bodyVetTypes onFalse s h.append₃.2.2))
  | .loop condition body, s, h =>
    (Expr.vet_types condition s h.append.1).append
      ((bodyVetTypes body _ h.append.2).of_eq rfl rfl rfl)
  | .forEach _ source body, s, h =>
    (Expr.vet_types source s h.append.1).append
      ((bodyVetTypes body _ h.append.2).of_eq rfl rfl rfl)
  | .leaveLoop, _, _ => .nil
  | .nextRound, _, _ => .nil
  | .giveBack value, s, h => Expr.vet_types value s h

/-- The types in a body that passed, each of which is judged where its statement stands. -/
theorem bodyVetTypes : (body : List Stmt) → (s : Surroundings) → Vetted needs (vetBody body s) →
    VetTypes s (typesOfBody body)
  | [], _, _ => .nil
  | stmt :: rest, s, h =>
    (Stmt.vet_types stmt s h.append.1).append (bodyVetTypes rest _ h.append.2).of_after

end

end Syntax

end ConstPool
