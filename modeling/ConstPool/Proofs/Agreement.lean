import Mathlib.Data.List.Forall2
import ConstPool.Fault.Basic

/-!
# Results that agree

Two computations agree if both succeed with values that correspond, or both fail with the same
fault. Which faults may occur is a parameter: most often they are those that can be reported.

* `Agree.bind`: computations that agree step by step agree.
* `Results`: the values and the faults with which one computation may end.
-/

namespace ConstPool

/-- A fault that is reported and does not end the work. -/
def Fault.Benign (f : Fault) : Prop := f.isFatal = false

/-- Two results that correspond, or the same fault. -/
inductive Agree {β γ : Type} (E : Fault → Prop) (V : β → γ → Prop) :
    Except Fault β → Except Fault γ → Prop
  | ok {b : β} {c : γ} : V b c → Agree E V (.ok b) (.ok c)
  | error {f : Fault} : E f → Agree E V (.error f) (.error f)

namespace Agree

variable {β γ β' γ' : Type} {E E' : Fault → Prop} {V V' : β → γ → Prop} {W : β' → γ' → Prop}
  {x : Except Fault β} {y : Except Fault γ}

/-- Less may be known of the faults and of the results. -/
theorem imp (h : Agree E V x y) (hE : ∀ f, E f → E' f) (hV : ∀ b c, V b c → V' b c) :
    Agree E' V' x y := by
  cases h with
  | ok h => exact .ok (hV _ _ h)
  | error h => exact .error (hE _ h)

/-- A weaker correspondence of the values. -/
theorem imp_value (h : Agree E V x y) (hV : ∀ b c, V b c → V' b c) : Agree E V' x y :=
  h.imp (fun _ h => h) hV

/-- In sequence: results that correspond are passed on to computations that agree. -/
theorem bind {f : β → Except Fault β'} {g : γ → Except Fault γ'} (h : Agree E V x y)
    (hnext : ∀ b c, V b c → Agree E W (f b) (g c)) : Agree E W (x >>= f) (y >>= g) := by
  cases h with
  | ok h => exact hnext _ _ h
  | error h => exact .error h

/-- What is made of results that correspond corresponds. -/
theorem map {f : β → β'} {g : γ → γ'} (h : Agree E V x y)
    (hnext : ∀ b c, V b c → W (f b) (g c)) : Agree E W (x.map f) (y.map g) := by
  cases h with
  | ok h => exact .ok (hnext _ _ h)
  | error h => exact .error h

/-- A computation agrees with itself if its faults may occur. -/
theorem refl {x : Except Fault β} (h : ∀ f, x = .error f → E f) : Agree E Eq x x := by
  rcases x with f | b
  · exact .error (h f rfl)
  · exact .ok rfl

/-- Results with equal values are equal. -/
theorem eq {y : Except Fault β} (h : Agree E Eq x y) : x = y := by
  cases h with
  | ok h => rw [h]
  | error _ => rfl

/-- Two results that correspond to a third one. -/
theorem through {y' : Except Fault β'} (h : Agree E V x y) {W : β' → γ → Prop}
    (h' : Agree E W y' y) : Agree E (fun b b' => ∃ c, V b c ∧ W b' c) x y' := by
  cases h with
  | ok hV =>
    cases h' with
    | ok hW => exact .ok ⟨_, hV, hW⟩
  | error hf =>
    cases h' with
    | error _ => exact .error hf

end Agree

/-! ### One computation -/

/-- A value of a certain kind, or a fault of a certain kind. -/
inductive Results {β : Type} (E : Fault → Prop) (V : β → Prop) : Except Fault β → Prop
  | ok {b : β} : V b → Results E V (.ok b)
  | error {f : Fault} : E f → Results E V (.error f)

namespace Results

variable {β γ : Type} {E E' : Fault → Prop} {V V' : β → Prop} {W : γ → Prop} {x : Except Fault β}

/-- Less may be known of the fault and of the result. -/
theorem imp (h : Results E V x) (hE : ∀ f, E f → E' f) (hV : ∀ b, V b → V' b) :
    Results E' V' x := by
  cases h with
  | ok h => exact .ok (hV _ h)
  | error h => exact .error (hE _ h)

/-- Less may be known of the result. -/
theorem imp_value (h : Results E V x) (hV : ∀ b, V b → V' b) : Results E V' x :=
  h.imp (fun _ h => h) hV

/-- A weaker property of the faults. -/
theorem imp_error (h : Results E V x) (hE : ∀ f, E f → E' f) : Results E' V x :=
  h.imp hE fun _ h => h

/-- The value is the one that was computed. -/
theorem with_eq (h : Results E V x) : Results E (fun b => x = .ok b ∧ V b) x := by
  cases h with
  | ok h => exact .ok ⟨rfl, h⟩
  | error h => exact .error h

/-- In sequence: the second computation is given a result as described. -/
theorem bind {f : β → Except Fault γ} (h : Results E V x) (hnext : ∀ b, V b → Results E W (f b)) :
    Results E W (x >>= f) := by
  cases h with
  | ok h => exact hnext _ h
  | error h => exact .error h

/-- What is made of a result as described. -/
theorem map {f : β → γ} (h : Results E V x) (hnext : ∀ b, V b → W (f b)) :
    Results E W (x.map f) := by
  cases h with
  | ok h => exact .ok (hnext _ h)
  | error h => exact .error h

/-- The members of a list one after another. -/
theorem mapM {f : β → Except Fault γ} {R : β → γ → Prop} {xs : List β}
    (h : ∀ x ∈ xs, Results E (R x) (f x)) : Results E (List.Forall₂ R xs) (xs.mapM f) := by
  induction xs with
  | nil => exact .ok .nil
  | cons x xs ih =>
    obtain ⟨hx, hxs⟩ := List.forall_mem_cons.1 h
    rw [List.mapM_cons]
    exact hx.bind fun y hy => (ih hxs).bind fun ys hys => .ok (.cons hy hys)

end Results

/-- Results that correspond, of which the second one is of a certain kind. -/
theorem Agree.and {β γ : Type} {E E' : Fault → Prop} {V : β → γ → Prop} {F : γ → Prop}
    {x : Except Fault β} {y : Except Fault γ} (h : Agree E V x y) (hF : Results E' F y) :
    Agree E (fun b c => V b c ∧ F c) x y := by
  cases h with
  | error hf => exact .error hf
  | ok hV =>
    cases hF with
    | ok hF => exact .ok ⟨hV, hF⟩

/-- What is said of a result by one that corresponds to it. -/
theorem Agree.results {β γ : Type} {E E' : Fault → Prop} {V : β → γ → Prop} {W : β → Prop}
    {x : Except Fault β} {y : Except Fault γ} (h : Agree E V x y) (hE : ∀ f, E f → E' f)
    (hV : ∀ b c, V b c → W b) : Results E' W x := by
  cases h with
  | ok h => exact .ok (hV _ _ h)
  | error h => exact .error (hE _ h)

end ConstPool
