import ConstPool.Eval.Interpretation
import ConstPool.Proofs.Simulation.Env

/-!
# Interpretations that are related

Two interpretations are related if their steps are: each step of the one goes with a step of the
other, from every world on and with constants that correspond. Then every body does in the one what
it does in the other. This is proved once, along the syntax, for all interpretations.

A relation between interpretations says what each of their steps has to satisfy, and nothing about
the syntax. The types that are written in a body are treated apart, since some relations hold only
for those that have been vetted. Larger budgets, bodies that are watched, bodies of which a journal
is kept and bodies that keep a record are all instances.

* `Correlation`: runs that go together, and constants that correspond in a world.
* `Control.Related`, `Interpretation.Related`: steps that go together.
* `Expr.types`: the types that are written in an expression.
* `Expr.related`, `Stmt.related`: one expression or statement.
-/

namespace ConstPool

variable {m m' : Type → Type} [Monad m] [Monad m'] {δ ε τ τ' ρ ρ' : Type}

/-- What it means that runs `m` with constants `δ` and runs `m'` with constants `ε` go together. It
is said relative to worlds, in which more and more constants correspond. -/
structure Correlation (m m' : Type → Type) [Monad m] [Monad m'] (δ ε : Type) where
  World : Type
  le : World → World → Prop
  refl : ∀ w, le w w
  trans : ∀ {u v w}, le u v → le v w → le u w
  stands : World → δ → ε → Prop
  mono : ∀ {v w d e}, le v w → stands v d e → stands w d e
  /-- Two runs go together from a world on, with results that correspond in the world at their
  end. -/
  Runs : {β γ : Type} → World → (World → β → γ → Prop) → m β → m' γ → Prop
  pure : ∀ {β γ : Type} {w : World} {V : World → β → γ → Prop} {b : β} {c : γ},
    (∀ w', le w w' → V w' b c) → Runs w V (Pure.pure b) (Pure.pure c)
  bind : ∀ {β γ β' γ' : Type} {w : World} {V : World → β → γ → Prop} {W : World → β' → γ' → Prop}
    {x : m β} {y : m' γ} {f : β → m β'} {g : γ → m' γ'}, Runs w V x y →
    (∀ w' b c, le w w' → V w' b c → Runs w' W (f b) (g c)) → Runs w W (x >>= f) (y >>= g)
  imp : ∀ {β γ : Type} {w : World} {V W : World → β → γ → Prop} {x : m β} {y : m' γ},
    Runs w V x y → (∀ w' b c, V w' b c → W w' b c) → Runs w W x y

variable (C : Correlation m m' δ ε)

/-- Questions about constants that correspond in a world, and how their answers correspond. Types
correspond in a sense of their own. -/
inductive Question.Rel (types : C.World → δ → ε → Prop) (w : C.World) :
    {β γ : Type} → Question δ β → Question ε γ → (C.World → β → γ → Prop) → Prop
  | unary (op : UnaryOperator) {d : δ} {e : ε} : C.stands w d e →
    Rel types w (.unary op d) (.unary op e) C.stands
  | binary (op : BinaryOperator) {l r : δ} {l' r' : ε} : C.stands w l l' → C.stands w r r' →
    Rel types w (.binary op l r) (.binary op l' r') C.stands
  | truth (role : Role) {d : δ} {e : ε} : C.stands w d e →
    Rel types w (.truth role d) (.truth role e) fun _ b c => b = c
  | integer (role : Role) {d : δ} {e : ε} : C.stands w d e →
    Rel types w (.integer role d) (.integer role e) fun _ b c => b = c
  | elements {d : δ} {e : ε} : C.stands w d e →
    Rel types w (.elements d) (.elements e) fun w => List.Forall₂ (C.stands w)
  | newKey {k : δ} {k' : ε} {given : Array (δ × δ)} {given' : Array (ε × ε)} : C.stands w k k' →
    List.Forall₂ (fun e e' => C.stands w e.1 e'.1 ∧ C.stands w e.2 e'.2) given.toList
      given'.toList →
    Rel types w (.newKey k given) (.newKey k' given') fun _ _ _ => True
  | index {t p : δ} {t' p' : ε} : C.stands w t t' → C.stands w p p' →
    Rel types w (.index t p) (.index t' p') C.stands
  | member {t : δ} {t' : ε} (name : String) : C.stands w t t' →
    Rel types w (.member t name) (.member t' name) C.stands
  | query (q : Query) {t : δ} {t' : ε} : types w t t' →
    Rel types w (.query q t) (.query q t') C.stands
  | message {d : δ} {e : ε} : C.stands w d e →
    Rel types w (.message d) (.message e) fun _ b c => b = c

/-- Questions about constants that correspond are that in later worlds too. -/
theorem Question.Rel.mono {C : Correlation m m' δ ε} {types : C.World → δ → ε → Prop}
    {w w' : C.World} {β γ : Type} {q : Question δ β} {q' : Question ε γ} {V : C.World → β → γ → Prop}
    (h : q.Rel C types w q' V) (hle : C.le w w') (htypes : ∀ {d e}, types w d e → types w' d e) :
    q.Rel C types w' q' V := by
  cases h with
  | unary op hd => exact .unary op (C.mono hle hd)
  | binary op hl hr => exact .binary op (C.mono hle hl) (C.mono hle hr)
  | truth role hd => exact .truth role (C.mono hle hd)
  | integer role hd => exact .integer role (C.mono hle hd)
  | elements hd => exact .elements (C.mono hle hd)
  | newKey hk hgiven =>
    exact .newKey (C.mono hle hk) (hgiven.imp fun _ _ he => ⟨C.mono hle he.1, C.mono hle he.2⟩)
  | index ht hp => exact .index (C.mono hle ht) (C.mono hle hp)
  | member name ht => exact .member name (C.mono hle ht)
  | query q ht => exact .query q (htypes ht)
  | message hd => exact .message (C.mono hle hd)

/-- Where only equal constants correspond, related questions are one question, and what is known of
equal answers is known of all answers that correspond. -/
theorem Question.Rel.of_eq {C : Correlation m m' δ δ} {types : C.World → δ → δ → Prop}
    (hstands : ∀ w d e, C.stands w d e ↔ d = e) (htypes : ∀ w d e, types w d e → d = e)
    {w : C.World} {x : {β : Type} → Question δ β → m β} {y : {β : Type} → Question δ β → m' β}
    (hask : ∀ {β : Type} (q : Question δ β), C.Runs w (fun _ b c => b = c) (x q) (y q))
    {β γ : Type} {q : Question δ β} {q' : Question δ γ} {V : C.World → β → γ → Prop}
    (h : q.Rel C types w q' V) : C.Runs w V (x q) (y q') := by
  have hconstant : ∀ q : Question δ δ, C.Runs w C.stands (x q) (y q) := fun q =>
    C.imp (hask q) fun w' d e => (hstands w' d e).2
  cases h with
  | unary op hd => exact (hstands _ _ _).1 hd ▸ hconstant _
  | binary op hl hr =>
    exact (hstands _ _ _).1 hl ▸ (hstands _ _ _).1 hr ▸ hconstant _
  | truth role hd => exact (hstands _ _ _).1 hd ▸ hask _
  | integer role hd => exact (hstands _ _ _).1 hd ▸ hask _
  | @elements d e hd =>
    obtain rfl := (hstands _ _ _).1 hd
    refine C.imp (hask _) fun w' ds es heq => ?_
    subst heq
    exact List.forall₂_same.2 fun d _ => (hstands w' d d).2 rfl
  | @newKey k k' given given' hk hgiven =>
    obtain rfl := (hstands _ _ _).1 hk
    -- the entries given before correspond one by one, so they are equal as arrays too
    have heq : given = given' := by
      refine Array.toList_inj.1 (List.forall₂_eq_eq_eq ▸ hgiven.imp fun e e' he => ?_)
      exact Prod.ext ((hstands _ _ _).1 he.1) ((hstands _ _ _).1 he.2)
    subst heq
    exact C.imp (hask _) fun _ _ _ _ => trivial
  | index ht hp => exact (hstands _ _ _).1 ht ▸ (hstands _ _ _).1 hp ▸ hconstant _
  | member name ht => exact (hstands _ _ _).1 ht ▸ hconstant _
  | query q ht => exact htypes _ _ _ ht ▸ hconstant _
  | message hd => exact (hstands _ _ _).1 hd ▸ hask _

/-- Scopes, jumps and loops that go together. -/
structure Control.Related (K : Control m δ) (K' : Control m' ε) : Prop where
  step : ∀ w, C.Runs w (fun _ _ _ => True) K.step K'.step
  result : ∀ {β γ : Type} {w} {V : C.World → β → γ → Prop} {d e}, C.stands w d e →
    C.Runs w V (K.stop (.result d)) (K'.stop (.result e))
  leaveLoop : ∀ {β γ : Type} {w} {V : C.World → β → γ → Prop},
    C.Runs w V (K.stop .leaveLoop) (K'.stop .leaveLoop)
  nextRound : ∀ {β γ : Type} {w} {V : C.World → β → γ → Prop},
    C.Runs w V (K.stop .nextRound) (K'.stop .nextRound)
  fault : ∀ {β γ : Type} {w} {V : C.World → β → γ → Prop} {f : Fault}, f.Benign →
    C.Runs w V (K.stop (.fault f)) (K'.stop (.fault f))
  inScope : ∀ {β γ : Type} {w} {V : C.World → β → γ → Prop} {scope scope'} {x : m β} {y : m' γ},
    DictRel (C.stands w) scope scope' → C.Runs w V x y →
      C.Runs w V (K.inScope scope x) (K'.inScope scope' y)
  round : ∀ {w scope scope' x y}, DictRel (C.stands w) scope scope' →
    C.Runs w (fun _ _ _ => True) x y →
      C.Runs w (fun _ b c => b = c) (K.round scope x) (K'.round scope' y)
  loop : ∀ {w test test' body body'},
    (∀ w', C.le w w' → C.Runs w' (fun _ b c => b = c) test test') →
    (∀ w', C.le w w' → C.Runs w' (fun _ _ _ => True) body body') →
      C.Runs w (fun _ _ _ => True) (K.loop test body) (K'.loop test' body')
  declare : ∀ {w d e} name, C.stands w d e →
    C.Runs w (fun _ _ _ => True) (K.declare name d) (K'.declare name e)
  assign : ∀ {w d e} name, C.stands w d e →
    C.Runs w (fun _ _ _ => True) (K.assign name d) (K'.assign name e)

/-- Steps of bodies that go together. The types that are written in a body are `written`. Types,
pooled types and pooled arguments correspond each in a sense of their own. -/
structure Interpretation.Related (types : C.World → δ → ε → Prop) (typeArgs : C.World → τ → τ' → Prop)
    (args : C.World → ρ → ρ' → Prop) (written : TypeExpr → Prop) (R : Interpretation m δ τ ρ)
    (R' : Interpretation m' ε τ' ρ') : Prop
    extends Control.Related C R.toControl R'.toControl where
  program : R'.analysis.program = R.analysis.program
  objectTypes : R'.analysis.types = R.analysis.types
  owner : R'.owner = R.owner
  scalar : ∀ w s, C.stands w (R.scalar s) (R'.scalar s)
  layer : ∀ {w l l'}, l.Ordered → Shape.Rel (C.stands w) (fun _ _ => False) l l' →
    C.stands w (R.layer l) (R'.layer l')
  isNull : ∀ {w d e}, C.stands w d e → R.isNull d = R'.isNull e
  lookup : ∀ w name, C.Runs w C.stands (R.lookup name) (R'.lookup name)
  range : ∀ w a b, C.Runs w C.stands (R.range a b) (R'.range a b)
  ask : ∀ {β γ : Type} {w} {q : Question δ β} {q' : Question ε γ} {V}, q.Rel C types w q' V →
    C.Runs w V (R.ask q) (R'.ask q')
  type : ∀ {w t}, written t → C.Runs w types (R.type t) (R'.type t)
  constant : ∀ {w d e}, types w d e → C.stands w d e
  poolType : ∀ {w d e}, types w d e → C.Runs w typeArgs (R.poolType d) (R'.poolType e)
  pool : ∀ {w d e}, C.stands w d e → C.Runs w args (R.pool d) (R'.pool e)
  typeArgs_mono : ∀ {v w i j}, C.le v w → typeArgs v i j → typeArgs w i j
  args_mono : ∀ {v w a b}, C.le v w → args v a b → args w a b
  call : ∀ {w name f is js as bs}, R.analysis.callee R.owner name = .ok f →
    List.Forall₂ (typeArgs w) is js → List.Forall₂ (args w) as bs →
      C.Runs w C.stands (R.call f is as) (R'.call f js bs)

/-! ### Types that are written -/

mutual

/-- The types that are written in an expression. -/
def Expr.types : Expr → List TypeExpr
  | .scalar _ => []
  | .text _ => []
  | .name _ => []
  | .unary _ operand => operand.types
  | .binary _ left right => left.types ++ right.types
  | .and left right => left.types ++ right.types
  | .or left right => left.types ++ right.types
  | .ifNull left right => left.types ++ right.types
  | .cond condition onTrue onFalse => condition.types ++ (onTrue.types ++ onFalse.types)
  | .block body result => typesOfBody body ++ result.types
  | .list items => typesOfItems items
  | .map entries => typesOfEntries entries
  | .object _ fields => typesOfFields fields
  | .collect _ source none item => source.types ++ item.types
  | .collect _ source (some filter) item => source.types ++ (filter.types ++ item.types)
  | .range start stop => start.types ++ stop.types
  | .index target position => target.types ++ position.types
  | .field target _ => target.types
  | .type t => [t]
  | .query _ t => [t]
  | .throw message => message.types
  | .call _ types args => types ++ typesOfItems args
  | .method _ _ _ _ => []
  | .tearOff _ => []

/-- The types in a list of expressions. -/
def typesOfItems : List Expr → List TypeExpr
  | [] => []
  | item :: rest => item.types ++ typesOfItems rest

/-- The types in the entries of a map. -/
def typesOfEntries : List (Expr × Expr) → List TypeExpr
  | [] => []
  | (key, value) :: rest => key.types ++ (value.types ++ typesOfEntries rest)

/-- The types in the fields of an object. -/
def typesOfFields : List (String × Expr) → List TypeExpr
  | [] => []
  | (_, value) :: rest => value.types ++ typesOfFields rest

/-- The types that are written in a statement. -/
def Stmt.types : Stmt → List TypeExpr
  | .declare _ value => value.types
  | .assign _ value => value.types
  | .evaluate e => e.types
  | .branch condition onTrue onFalse =>
    condition.types ++ (typesOfBody onTrue ++ typesOfBody onFalse)
  | .loop condition body => condition.types ++ typesOfBody body
  | .forEach _ source body => source.types ++ typesOfBody body
  | .leaveLoop => []
  | .nextRound => []
  | .giveBack value => value.types

/-- The types in statements one after another. -/
def typesOfBody : List Stmt → List TypeExpr
  | [] => []
  | stmt :: rest => stmt.types ++ typesOfBody rest

end

/-- Which function a body calls depends on the program alone. -/
theorem Analysis.callee_congr {a b : Analysis} (h : a.program = b.program) :
    a.callee = b.callee := by
  unfold Analysis.callee
  rw [h]

/-- The function that a body calls is declared under the name that it is called by. -/
theorem Analysis.get?_of_callee {a : Analysis} {owner name : String} {f : FunctionDecl}
    (h : a.callee owner name = .ok f) : a.program.functions.get? name = some f := by
  unfold Analysis.callee at h
  split at h
  · next g hg =>
    cases h
    exact hg
  · split at h <;> cases h

/-- The function that a body calls is known or there is a fault that is reported. -/
theorem Analysis.benign_of_callee {a : Analysis} {owner name : String} {f : Fault}
    (h : a.callee owner name = .error f) : f.Benign := by
  unfold Analysis.callee at h
  split at h
  · cases h
  · split at h <;> cases h <;> rfl

/-! ### Lists -/

namespace Interpretation.Related

variable {C} {types : C.World → δ → ε → Prop} {typeArgs : C.World → τ → τ' → Prop}
  {args : C.World → ρ → ρ' → Prop} {written : TypeExpr → Prop} {R : Interpretation m δ τ ρ}
  {R' : Interpretation m' ε τ' ρ'} {β γ : Type} {w : C.World} {V : C.World → β → γ → Prop}

/-- Every expression begins with a step. -/
theorem step_bind (h : R.Related C types typeArgs args written R') {x : m β} {y : m' γ}
    (hnext : ∀ w', C.le w w' → C.Runs w' V x y) :
    C.Runs w V (R.step >>= fun _ => x) (R'.step >>= fun _ => y) :=
  C.bind (h.step w) fun w' _ _ hle _ => hnext w' hle

/-- Runs that go on with a value that is equal on both sides. -/
theorem bind_eq {β' γ' : Type} {W : C.World → β' → γ' → Prop} {x : m β} {y : m' β}
    {f : β → m β'} {g : β → m' γ'} (h : C.Runs w (fun _ b c => b = c) x y)
    (hnext : ∀ w' b, C.le w w' → C.Runs w' W (f b) (g b)) : C.Runs w W (x >>= f) (y >>= g) :=
  C.bind h fun w' b c hle hbc => by
    subst hbc
    exact hnext w' b hle

/-- What comes after a truth value depends on it alone. -/
theorem test (h : R.Related C types typeArgs args written R') (role : Role) {x : m δ} {y : m' ε}
    {f : Bool → m β} {g : Bool → m' γ} (hx : C.Runs w C.stands x y)
    (hnext : ∀ w' b, C.le w w' → C.Runs w' V (f b) (g b)) :
    C.Runs w V (x >>= fun d => R.ask (.truth role d) >>= f)
      (y >>= fun e => R'.ask (.truth role e) >>= g) :=
  C.bind hx fun _ _ _ hle hd => bind_eq (h.ask (.truth role hd)) fun w' b hle' =>
    hnext w' b (C.trans hle hle')

/-- What a loop runs through. -/
theorem elements (h : R.Related C types typeArgs args written R') {x : m δ} {y : m' ε}
    {f : List δ → m β} {g : List ε → m' γ} (hx : C.Runs w C.stands x y)
    (hnext : ∀ w' ds es, C.le w w' → List.Forall₂ (C.stands w') ds es →
      C.Runs w' V (f ds) (g es)) :
    C.Runs w V (x >>= fun d => R.ask (.elements d) >>= f)
      (y >>= fun e => R'.ask (.elements e) >>= g) :=
  C.bind hx fun _ _ _ hle hd => C.bind (h.ask (.elements hd)) fun w' ds es hle' hds =>
    hnext w' ds es (C.trans hle hle') hds

/-- A result that is known on both sides. -/
theorem known (h : R.Related C types typeArgs args written R') {p : Except Fault β}
    {q : Except Fault γ} (hagree : ∀ w', C.le w w' → Agree Fault.Benign (V w') p q) :
    C.Runs w V (R.known p) (R'.known q) := by
  rcases p with f | b
  · rcases q with g | c
    · cases hagree w (C.refl w) with
      | error hf => exact h.fault hf
    · cases hagree w (C.refl w)
  · rcases q with g | c
    · cases hagree w (C.refl w)
    · refine C.pure fun w' hle => ?_
      cases hagree w' hle with
      | ok hV => exact hV

/-- A loop through lists that correspond. -/
theorem forEach (h : R.Related C types typeArgs args written R') (binder : String) {body : m Unit}
    {body' : m' Unit} (hbody : ∀ w', C.le w w' → C.Runs w' (fun _ _ _ => True) body body')
    {ds : List δ} {es : List ε} (hds : List.Forall₂ (C.stands w) ds es) :
    C.Runs w (fun _ _ _ => True) (R.forEach binder body ds) (R'.forEach binder body' es) := by
  induction ds generalizing es w with
  | nil =>
    cases hds
    exact C.pure fun _ _ => trivial
  | cons d ds ih =>
    cases hds with
    | cons hd hds =>
      refine h.step_bind fun w₁ h₁ => ?_
      refine bind_eq (h.round (.one (C.mono h₁ hd)) (hbody w₁ h₁)) fun w₂ b h₂ => ?_
      have hle := C.trans h₁ h₂
      cases b
      · exact C.pure fun _ _ => trivial
      · exact ih (fun w' hle' => hbody w' (C.trans hle hle')) (hds.imp fun _ _ => C.mono hle)

/-- What is produced for the elements of lists that correspond. -/
theorem collect (h : R.Related C types typeArgs args written R') (binder : String)
    {produce : m (Option δ)} {produce' : m' (Option ε)}
    (hproduce : ∀ w', C.le w w' →
      C.Runs w' (fun w => Option.Rel (C.stands w)) produce produce')
    {ds : List δ} {es : List ε} (hds : List.Forall₂ (C.stands w) ds es) {done : Array δ}
    {done' : Array ε} (hdone : List.Forall₂ (C.stands w) done.toList done'.toList) :
    C.Runs w (fun w ds es => List.Forall₂ (C.stands w) ds.toList es.toList)
      (R.collect binder produce ds done) (R'.collect binder produce' es done') := by
  induction ds generalizing es w done done' with
  | nil =>
    cases hds
    exact C.pure fun w' hle => hdone.imp fun _ _ => C.mono hle
  | cons d ds ih =>
    cases hds with
    | cons hd hds =>
      refine h.step_bind fun w₁ h₁ => ?_
      refine C.bind (h.inScope (.one (C.mono h₁ hd)) (hproduce w₁ h₁)) fun w₂ o o' h₂ ho => ?_
      have hle := C.trans h₁ h₂
      have hlater : ∀ w', C.le w₂ w' →
          C.Runs w' (fun w => Option.Rel (C.stands w)) produce produce' :=
        fun w' hle' => hproduce w' (C.trans hle hle')
      have hrest := hds.imp fun _ _ => C.mono hle
      have hdone' := hdone.imp fun _ _ => C.mono hle
      cases ho with
      | none => exact ih hlater hrest hdone'
      | some hv =>
        refine ih hlater hrest ?_
        rw [Array.toList_push, Array.toList_push]
        exact List.rel_append hdone' (.cons hv .nil)

/-- The type arguments of a call are pooled. -/
theorem pooledTypes (h : R.Related C types typeArgs args written R') {ts : List TypeExpr}
    (hts : ∀ t ∈ ts, written t) :
    C.Runs w (fun w => List.Forall₂ (typeArgs w)) (R.types ts) (R'.types ts) := by
  induction ts generalizing w with
  | nil => exact C.pure fun _ _ => .nil
  | cons t ts ih =>
    obtain ⟨ht, hts⟩ := List.forall_mem_cons.1 hts
    rw [Interpretation.types, Interpretation.types]
    refine C.bind (h.type ht) fun w₁ d e _ hd => ?_
    refine C.bind (h.poolType hd) fun w₂ i j _ hi => ?_
    refine C.bind (ih hts) fun w₃ is js h₃ his => C.pure fun w₄ h₄ => ?_
    exact .cons (h.typeArgs_mono (C.trans h₃ h₄) hi) (his.imp fun _ _ => h.typeArgs_mono h₄)

end Interpretation.Related

/-! ### Expressions and statements -/

section Syntax

variable {C} {types : C.World → δ → ε → Prop} {typeArgs : C.World → τ → τ' → Prop}
  {args : C.World → ρ → ρ' → Prop} {written : TypeExpr → Prop} {R : Interpretation m δ τ ρ}
  {R' : Interpretation m' ε τ' ρ'}

open Interpretation.Related (bind_eq)

mutual

/-- An expression. -/
theorem Expr.related (h : R.Related C types typeArgs args written R') (w : C.World) :
    (e : Expr) → (∀ t ∈ e.types, written t) → C.Runs w C.stands (e.evalIn R) (e.evalIn R')
  | .scalar s, _ => by
    rw [Expr.evalIn, Expr.evalIn]
    exact h.step_bind fun _ _ => C.pure fun w₂ _ => h.scalar w₂ s
  | .text content, _ => by
    rw [Expr.evalIn, Expr.evalIn]
    exact h.step_bind fun _ _ => C.pure fun _ _ => h.layer trivial (.text content)
  | .name name, _ => by
    rw [Expr.evalIn, Expr.evalIn]
    exact h.step_bind fun w₁ _ => h.lookup w₁ name
  | .unary op operand, hts => by
    rw [Expr.evalIn, Expr.evalIn]
    refine h.step_bind fun w₁ _ => ?_
    exact C.bind (Expr.related h w₁ operand hts) fun _ _ _ _ hd => h.ask (.unary op hd)
  | .binary op left right, hts => by
    rw [Expr.evalIn, Expr.evalIn]
    obtain ⟨hleft, hright⟩ := List.forall_mem_append.1 hts
    refine h.step_bind fun w₁ _ => ?_
    refine C.bind (Expr.related h w₁ left hleft) fun w₂ _ _ _ hl => ?_
    refine C.bind (Expr.related h w₂ right hright) fun w₃ _ _ h₃ hr => ?_
    exact h.ask (.binary op (C.mono h₃ hl) hr)
  | .and left right, hts => by
    rw [Expr.evalIn, Expr.evalIn]
    obtain ⟨hleft, hright⟩ := List.forall_mem_append.1 hts
    refine h.step_bind fun w₁ _ => ?_
    refine h.test .leftOfAnd (Expr.related h w₁ left hleft) fun w₂ b _ => ?_
    cases b
    · exact C.pure fun w₃ _ => h.scalar w₃ _
    · exact h.test .rightOfAnd (Expr.related h w₂ right hright) fun _ b _ =>
        C.pure fun w₄ _ => h.scalar w₄ _
  | .or left right, hts => by
    rw [Expr.evalIn, Expr.evalIn]
    obtain ⟨hleft, hright⟩ := List.forall_mem_append.1 hts
    refine h.step_bind fun w₁ _ => ?_
    refine h.test .leftOfOr (Expr.related h w₁ left hleft) fun w₂ b _ => ?_
    cases b
    · exact h.test .rightOfOr (Expr.related h w₂ right hright) fun _ b _ =>
        C.pure fun w₄ _ => h.scalar w₄ _
    · exact C.pure fun w₃ _ => h.scalar w₃ _
  | .ifNull left right, hts => by
    rw [Expr.evalIn, Expr.evalIn]
    obtain ⟨hleft, hright⟩ := List.forall_mem_append.1 hts
    refine h.step_bind fun w₁ _ => ?_
    refine C.bind (Expr.related h w₁ left hleft) fun w₂ d e _ hd => ?_
    rw [h.isNull hd]
    cases R'.isNull e
    · exact C.pure fun _ h₃ => C.mono h₃ hd
    · exact Expr.related h w₂ right hright
  | .cond condition onTrue onFalse, hts => by
    rw [Expr.evalIn, Expr.evalIn]
    obtain ⟨hcondition, hbranches⟩ := List.forall_mem_append.1 hts
    obtain ⟨htrue, hfalse⟩ := List.forall_mem_append.1 hbranches
    refine h.step_bind fun w₁ _ => ?_
    refine h.test .condition (Expr.related h w₁ condition hcondition) fun w₂ b _ => ?_
    cases b
    · exact Expr.related h w₂ onFalse hfalse
    · exact Expr.related h w₂ onTrue htrue
  | .block body result, hts => by
    rw [Expr.evalIn, Expr.evalIn]
    obtain ⟨hbody, hresult⟩ := List.forall_mem_append.1 hts
    refine h.step_bind fun w₁ _ => h.inScope .empty ?_
    exact C.bind (bodyRelated h w₁ body hbody) fun w₂ _ _ _ _ => Expr.related h w₂ result hresult
  | .list items, hts => by
    rw [Expr.evalIn, Expr.evalIn]
    refine h.step_bind fun w₁ _ => ?_
    refine C.bind (itemsRelated h w₁ items hts .nil) fun w₂ ds es _ hds => C.pure fun w₃ h₃ => ?_
    exact h.layer trivial (.list (hds.imp fun _ _ => C.mono h₃))
  | .map entries, hts => by
    rw [Expr.evalIn, Expr.evalIn]
    refine h.step_bind fun w₁ _ => ?_
    refine C.bind (entriesRelated h w₁ entries hts .nil) fun w₂ ds es _ hds =>
      C.pure fun w₃ h₃ => ?_
    exact h.layer trivial (.map (hds.imp fun _ _ he => ⟨C.mono h₃ he.1, C.mono h₃ he.2⟩))
  | .object className fields, hts => by
    rw [Expr.evalIn, Expr.evalIn, h.objectTypes]
    refine h.step_bind fun w₁ _ => ?_
    cases R.analysis.types.get? className with
    | none => exact h.fault rfl
    | some t =>
      refine C.bind (fieldsRelated h w₁ t className fields hts .empty) fun w₂ ds es _ hds => ?_
      refine C.bind (h.known fun w₃ h₃ => (hds.imp fun _ _ => C.mono h₃).complete t className)
        fun w₃ fs fs' _ hfs => C.pure fun w₄ h₄ => ?_
      refine h.layer (Shape.pairwise_sortFields hfs.1) (.object className ?_)
      exact Shape.forall₂_sortFields (hfs.2.imp fun _ _ he => ⟨he.1, C.mono h₄ he.2⟩)
  | .collect binder source none item, hts => by
    rw [Expr.evalIn, Expr.evalIn]
    obtain ⟨hsource, hitem⟩ := List.forall_mem_append.1 hts
    refine h.step_bind fun w₁ _ => ?_
    refine h.elements (Expr.related h w₁ source hsource) fun w₂ ds es _ hds => ?_
    -- an item is evaluated in whichever world the rounds before have led to
    have hproduce : ∀ w', C.Runs w' (fun w => Option.Rel (C.stands w))
        (do return some (← item.evalIn R)) (do return some (← item.evalIn R')) := fun w' =>
      C.bind (Expr.related h w' item hitem) fun _ _ _ _ hd =>
        C.pure fun _ h₄ => .some (C.mono h₄ hd)
    refine C.bind (h.collect binder (fun w' _ => hproduce w') hds .nil) fun w₃ ds es _ hds =>
      C.pure fun w₄ h₄ => ?_
    exact h.layer trivial (.list (hds.imp fun _ _ => C.mono h₄))
  | .collect binder source (some filter) item, hts => by
    rw [Expr.evalIn, Expr.evalIn]
    obtain ⟨hsource, hparts⟩ := List.forall_mem_append.1 hts
    obtain ⟨hfilter, hitem⟩ := List.forall_mem_append.1 hparts
    refine h.step_bind fun w₁ _ => ?_
    refine h.elements (Expr.related h w₁ source hsource) fun w₂ ds es _ hds => ?_
    have hproduce : ∀ w', C.Runs w' (fun w => Option.Rel (C.stands w))
        (do
          if ← R.ask (.truth .filter (← filter.evalIn R)) then return some (← item.evalIn R)
          else return none)
        (do
          if ← R'.ask (.truth .filter (← filter.evalIn R')) then return some (← item.evalIn R')
          else return none) := by
      intro w'
      refine h.test .filter (Expr.related h w' filter hfilter) fun w₃ b _ => ?_
      cases b
      · exact C.pure fun _ _ => .none
      · exact C.bind (Expr.related h w₃ item hitem) fun _ _ _ _ hd =>
          C.pure fun _ h₅ => .some (C.mono h₅ hd)
    refine C.bind (h.collect binder (fun w' _ => hproduce w') hds .nil) fun w₃ ds es _ hds =>
      C.pure fun w₄ h₄ => ?_
    exact h.layer trivial (.list (hds.imp fun _ _ => C.mono h₄))
  | .range start stop, hts => by
    rw [Expr.evalIn, Expr.evalIn]
    obtain ⟨hstart, hstop⟩ := List.forall_mem_append.1 hts
    refine h.step_bind fun w₁ _ => ?_
    refine C.bind (Expr.related h w₁ start hstart) fun w₂ _ _ _ ha => ?_
    refine bind_eq (h.ask (.integer .rangeStart ha)) fun w₃ a _ => ?_
    refine C.bind (Expr.related h w₃ stop hstop) fun w₄ _ _ _ hb => ?_
    exact bind_eq (h.ask (.integer .rangeStop hb)) fun w₅ b _ => h.range w₅ a b
  | .index target position, hts => by
    rw [Expr.evalIn, Expr.evalIn]
    obtain ⟨htarget, hposition⟩ := List.forall_mem_append.1 hts
    refine h.step_bind fun w₁ _ => ?_
    refine C.bind (Expr.related h w₁ target htarget) fun w₂ _ _ _ ht => ?_
    refine C.bind (Expr.related h w₂ position hposition) fun w₃ _ _ h₃ hp => ?_
    exact h.ask (.index (C.mono h₃ ht) hp)
  | .field target name, hts => by
    rw [Expr.evalIn, Expr.evalIn]
    refine h.step_bind fun w₁ _ => ?_
    exact C.bind (Expr.related h w₁ target hts) fun _ _ _ _ ht => h.ask (.member name ht)
  | .type t, hts => by
    rw [Expr.evalIn, Expr.evalIn]
    refine h.step_bind fun w₁ _ => ?_
    exact C.imp (h.type (hts t (List.mem_singleton_self t))) fun _ _ _ => h.constant
  | .query q t, hts => by
    rw [Expr.evalIn, Expr.evalIn]
    refine h.step_bind fun w₁ _ => ?_
    exact C.bind (h.type (hts t (List.mem_singleton_self t))) fun _ _ _ _ hd => h.ask (.query q hd)
  | .throw message, hts => by
    rw [Expr.evalIn, Expr.evalIn, h.owner]
    refine h.step_bind fun w₁ _ => ?_
    refine C.bind (Expr.related h w₁ message hts) fun w₂ _ _ _ hd => ?_
    exact bind_eq (h.ask (.message hd)) fun _ _ _ => h.fault rfl
  | .call function ts as, hts => by
    rw [Expr.evalIn, Expr.evalIn, Analysis.callee_congr h.program, h.owner]
    obtain ⟨htypes, hargs⟩ := List.forall_mem_append.1 hts
    refine h.step_bind fun w₁ _ => ?_
    rcases hcallee : R.analysis.callee R.owner function with f | f
    · have hbenign := Analysis.benign_of_callee hcallee
      exact C.bind (h.known (V := fun _ _ _ => False) fun _ _ => .error hbenign)
        fun _ _ _ _ hfalse => hfalse.elim
    · -- the callee is looked up on both sides, as the same function of one program
      have hknown : C.Runs w₁ (fun _ b c => b = f ∧ c = f) (R.known (.ok f)) (R'.known (.ok f)) :=
        h.known fun _ _ => .ok ⟨rfl, rfl⟩
      refine C.bind hknown fun w₂ _ _ _ heq => ?_
      obtain ⟨rfl, rfl⟩ := heq
      refine C.bind (h.pooledTypes htypes) fun w₃ is js _ his => ?_
      refine C.bind (argsRelated h w₃ as hargs) fun w₄ xs ys h₄ hxs => ?_
      exact h.call hcallee (his.imp fun _ _ => h.typeArgs_mono h₄) hxs
  | .method _ name _ _, _ => by
    rw [Expr.evalIn, Expr.evalIn]
    exact h.step_bind fun _ _ => h.fault rfl
  | .tearOff function, _ => by
    rw [Expr.evalIn, Expr.evalIn]
    exact h.step_bind fun _ _ => h.fault rfl

/-- A list of expressions. -/
theorem itemsRelated (h : R.Related C types typeArgs args written R') (w : C.World) :
    (items : List Expr) → (∀ t ∈ typesOfItems items, written t) → {done : Array δ} →
      {done' : Array ε} → List.Forall₂ (C.stands w) done.toList done'.toList →
        C.Runs w (fun w ds es => List.Forall₂ (C.stands w) ds.toList es.toList)
          (itemsIn R items done) (itemsIn R' items done')
  | [], _, _, _, hdone => by
    rw [itemsIn, itemsIn]
    exact C.pure fun _ h₁ => hdone.imp fun _ _ => C.mono h₁
  | item :: rest, hts, _, _, hdone => by
    rw [itemsIn, itemsIn]
    obtain ⟨hitem, hrest⟩ := List.forall_mem_append.1 hts
    refine C.bind (Expr.related h w item hitem) fun w₁ d e h₁ hd => ?_
    refine itemsRelated h w₁ rest hrest ?_
    rw [Array.toList_push, Array.toList_push]
    exact List.rel_append (hdone.imp fun _ _ => C.mono h₁) (.cons hd .nil)

/-- The entries of a map. -/
theorem entriesRelated (h : R.Related C types typeArgs args written R') (w : C.World) :
    (entries : List (Expr × Expr)) → (∀ t ∈ typesOfEntries entries, written t) →
      {done : Array (δ × δ)} → {done' : Array (ε × ε)} →
      List.Forall₂ (fun e e' => C.stands w e.1 e'.1 ∧ C.stands w e.2 e'.2) done.toList
          done'.toList →
        C.Runs w
          (fun w ds es => List.Forall₂
            (fun e e' => C.stands w e.1 e'.1 ∧ C.stands w e.2 e'.2) ds.toList es.toList)
          (entriesIn R entries done) (entriesIn R' entries done')
  | [], _, _, _, hdone => by
    rw [entriesIn, entriesIn]
    exact C.pure fun _ h₁ => hdone.imp fun _ _ he => ⟨C.mono h₁ he.1, C.mono h₁ he.2⟩
  | (key, value) :: rest, hts, _, _, hdone => by
    rw [entriesIn, entriesIn]
    obtain ⟨hkey, hparts⟩ := List.forall_mem_append.1 hts
    obtain ⟨hvalue, hrest⟩ := List.forall_mem_append.1 hparts
    refine C.bind (Expr.related h w key hkey) fun w₁ k k' h₁ hk => ?_
    refine C.bind (Expr.related h w₁ value hvalue) fun w₂ v v' h₂ hv => ?_
    have hle := C.trans h₁ h₂
    have hgiven := hdone.imp fun _ _ he => And.intro (C.mono hle he.1) (C.mono hle he.2)
    refine C.bind (h.ask (.newKey (C.mono h₂ hk) hgiven)) fun w₃ _ _ h₃ _ => ?_
    refine entriesRelated h w₃ rest hrest ?_
    rw [Array.toList_push, Array.toList_push]
    refine List.rel_append (hgiven.imp fun _ _ he => ⟨C.mono h₃ he.1, C.mono h₃ he.2⟩) ?_
    exact .cons ⟨C.mono (C.trans h₂ h₃) hk, C.mono h₃ hv⟩ .nil

/-- The fields of an object. -/
theorem fieldsRelated (h : R.Related C types typeArgs args written R') (w : C.World)
    (t : TypeDecl) (className : String) :
    (fields : List (String × Expr)) → (∀ t ∈ typesOfFields fields, written t) →
      {done : OrderedMap String δ} → {done' : OrderedMap String ε} →
      FieldsRel (C.stands w) done done' →
        C.Runs w (fun w => FieldsRel (C.stands w)) (fieldsIn R t className fields done)
          (fieldsIn R' t className fields done')
  | [], _, _, _, hdone => by
    rw [fieldsIn, fieldsIn]
    exact C.pure fun _ h₁ => hdone.imp fun _ _ => C.mono h₁
  | (name, value) :: rest, hts, done, done', hdone => by
    rw [fieldsIn, fieldsIn, ← hdone.ensureNewField_eq]
    obtain ⟨hvalue, hrest⟩ := List.forall_mem_append.1 hts
    have hnew : C.Runs w (fun _ _ _ => t.ensureNewField className name done = .ok ())
        (R.known (t.ensureNewField className name done))
        (R'.known (t.ensureNewField className name done)) := by
      refine h.known fun _ _ => ?_
      rcases hnew : t.ensureNewField className name done with f | _
      · exact .error (FieldsRel.benign_of_ensureNewField hnew)
      · exact .ok rfl
    refine C.bind hnew fun w₁ _ _ h₁ hnew => ?_
    refine C.bind (Expr.related h w₁ value hvalue) fun w₂ d e h₂ hd => ?_
    refine fieldsRelated h w₂ t className rest hrest ?_
    exact (hdone.imp fun _ _ => C.mono (C.trans h₁ h₂)).insert (FieldsRel.new_of_ensureNewField hnew)
      hd

/-- The arguments of a call are pooled. -/
theorem argsRelated (h : R.Related C types typeArgs args written R') (w : C.World) :
    (as : List Expr) → (∀ t ∈ typesOfItems as, written t) →
      C.Runs w (fun w => List.Forall₂ (args w)) (argsIn R as) (argsIn R' as)
  | [], _ => by
    rw [argsIn, argsIn]
    exact C.pure fun _ _ => .nil
  | arg :: rest, hts => by
    rw [argsIn, argsIn]
    obtain ⟨harg, hrest⟩ := List.forall_mem_append.1 hts
    refine C.bind (Expr.related h w arg harg) fun w₁ d e _ hd => ?_
    refine C.bind (h.pool hd) fun w₂ a b _ ha => ?_
    refine C.bind (argsRelated h w₂ rest hrest) fun w₃ as bs h₃ has => C.pure fun w₄ h₄ => ?_
    exact .cons (h.args_mono (C.trans h₃ h₄) ha) (has.imp fun _ _ => h.args_mono h₄)

/-- A statement. -/
theorem Stmt.related (h : R.Related C types typeArgs args written R') (w : C.World) :
    (stmt : Stmt) → (∀ t ∈ stmt.types, written t) →
      C.Runs w (fun _ _ _ => True) (stmt.execIn R) (stmt.execIn R')
  | .declare name value, hts => by
    rw [Stmt.execIn, Stmt.execIn]
    exact C.bind (Expr.related h w value hts) fun _ _ _ _ hd => h.declare name hd
  | .assign name value, hts => by
    rw [Stmt.execIn, Stmt.execIn]
    exact C.bind (Expr.related h w value hts) fun _ _ _ _ hd => h.assign name hd
  | .evaluate e, hts => by
    rw [Stmt.execIn, Stmt.execIn]
    exact C.bind (Expr.related h w e hts) fun _ _ _ _ _ => C.pure fun _ _ => trivial
  | .branch condition onTrue onFalse, hts => by
    rw [Stmt.execIn, Stmt.execIn]
    obtain ⟨hcondition, hbranches⟩ := List.forall_mem_append.1 hts
    obtain ⟨htrue, hfalse⟩ := List.forall_mem_append.1 hbranches
    refine h.test .condition (Expr.related h w condition hcondition) fun w₁ b _ => ?_
    cases b
    · exact h.inScope .empty (bodyRelated h w₁ onFalse hfalse)
    · exact h.inScope .empty (bodyRelated h w₁ onTrue htrue)
  | .loop condition body, hts => by
    rw [Stmt.execIn, Stmt.execIn]
    obtain ⟨hcondition, hbody⟩ := List.forall_mem_append.1 hts
    refine h.loop (fun w' _ => ?_) fun w' _ => bodyRelated h w' body hbody
    exact C.bind (Expr.related h w' condition hcondition) fun _ _ _ _ hd =>
      h.ask (.truth .loopCondition hd)
  | .forEach binder source body, hts => by
    rw [Stmt.execIn, Stmt.execIn]
    obtain ⟨hsource, hbody⟩ := List.forall_mem_append.1 hts
    refine h.elements (Expr.related h w source hsource) fun w₁ ds es _ hds => ?_
    exact h.forEach binder (fun w' _ => bodyRelated h w' body hbody) hds
  | .leaveLoop, _ => by
    rw [Stmt.execIn, Stmt.execIn]
    exact h.leaveLoop
  | .nextRound, _ => by
    rw [Stmt.execIn, Stmt.execIn]
    exact h.nextRound
  | .giveBack value, hts => by
    rw [Stmt.execIn, Stmt.execIn]
    exact C.bind (Expr.related h w value hts) fun _ _ _ _ hd => h.result hd

/-- Statements one after another. -/
theorem bodyRelated (h : R.Related C types typeArgs args written R') (w : C.World) :
    (body : List Stmt) → (∀ t ∈ typesOfBody body, written t) →
      C.Runs w (fun _ _ _ => True) (bodyIn R body) (bodyIn R' body)
  | [], _ => by
    rw [bodyIn, bodyIn]
    exact C.pure fun _ _ => trivial
  | stmt :: rest, hts => by
    rw [bodyIn, bodyIn]
    obtain ⟨hstmt, hrest⟩ := List.forall_mem_append.1 hts
    exact C.bind (Stmt.related h w stmt hstmt) fun w₁ _ _ _ _ => bodyRelated h w₁ rest hrest

end

end Syntax

end ConstPool
