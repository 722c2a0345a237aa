import ConstPool.Proofs.Conduct.Basic
import ConstPool.Proofs.Draft.Faults
import ConstPool.Proofs.Simulation.Body

/-!
# A vetted body conforms

What vetting has found to be in order stays in order while the body runs: a visible local has a
value, a known type can be asked about, and a jump lies in a loop. So a vetted body stops with
faults of operators alone, or with one of a request for something that it needs; and it requests
nothing else. The proof goes along the syntax, with the surroundings of vetting as the invariant:
the locals that are visible at a point are there when the run comes to it.

The second run, which goes beside the first, has other answers to requests that the body does not
need. That it does the same says that none of these requests is ever issued.

* `Terms.Fair`, `Equipped`: what terms and surroundings have to see to.
* `Expr.conforms`, `Stmt.conforms`: one expression or statement.
* `Equipped.run`: a whole body.
-/

namespace ConstPool

variable {T : Terms} {β γ : Type}

/-! ### Pooling -/

/-- Terms under which constants may be pooled and operators may fail. -/
structure Terms.Fair (T : Terms) : Prop where
  dynamic : ∀ f, f.Dynamic → T.admits f
  intern : ∀ value, Work.Conforms T (Work.intern value)

namespace Terms.Fair

/-- Pooling one layer pools one constant. -/
theorem internLayer (h : T.Fair) (layer : Shape Atom ValueId) : Work.Conforms T (internLayer layer) :=
  (h.intern _).bind fun _ => .pure _

/-- A type argument must be a constant of the pool. If it is none, the stock is left as it is. -/
theorem typeArgument (h : T.Fair) (a : Atom) : Work.Conforms T (typeArgument a) := by
  cases a with
  | scalar s => exact .throw (h.dynamic _ (Fault.dynamic_breach _))
  | ref id => exact .pure id

mutual

/-- A draft is pooled. -/
theorem draft (h : T.Fair) : (d : Draft) → Work.Conforms T d.intern
  | .atom a => .pure a
  | .fresh (.text content) => by
    rw [Draft.intern]
    exact h.internLayer _
  | .fresh (.list ⟨items⟩) => by
    rw [Draft.intern]
    exact (h.draftItems items _).bind fun _ => h.internLayer _
  | .fresh (.map entries) => by
    rw [Draft.intern]
    exact (h.draftEntries entries).bind fun _ => h.internLayer _
  | .fresh (.object _ fields) => by
    rw [Draft.intern]
    exact (h.draftFields fields).bind fun _ => h.internLayer _
  | .fresh (.type _ args) => by
    rw [Draft.intern]
    exact (h.draftArgs args).bind fun _ => h.internLayer _

/-- The items of a list. -/
theorem draftItems (h : T.Fair) : (items : List Draft) → (done : Array Atom) →
    Work.Conforms T (Draft.internItems items done)
  | [], done => .pure done
  | item :: rest, done => by
    rw [Draft.internItems]
    exact (h.draft item).bind fun _ => h.draftItems rest _

/-- The entries of a map. -/
theorem draftEntries (h : T.Fair) : (entries : List (Draft × Draft)) →
    Work.Conforms T (Draft.internEntries entries)
  | [] => .pure _
  | (key, value) :: rest => by
    rw [Draft.internEntries]
    exact (h.draft key).bind fun _ => (h.draft value).bind fun _ =>
      (h.draftEntries rest).bind fun _ => .pure _

/-- The fields of an object. -/
theorem draftFields (h : T.Fair) : (fields : List (String × Draft)) →
    Work.Conforms T (Draft.internFields fields)
  | [] => .pure _
  | (_, value) :: rest => by
    rw [Draft.internFields]
    exact (h.draft value).bind fun _ => (h.draftFields rest).bind fun _ => .pure _

/-- The arguments of a type. -/
theorem draftArgs (h : T.Fair) : (args : List Draft) → Work.Conforms T (Draft.internArgs args)
  | [] => .pure _
  | arg :: rest => by
    rw [Draft.internArgs]
    exact (h.draft arg).bind fun a => (h.typeArgument a).bind fun _ =>
      (h.draftArgs rest).bind fun _ => .pure _

end

/-- A type is pooled. -/
theorem internType (h : T.Fair) (d : Draft) : Work.Conforms T d.internType :=
  (h.draft d).bind fun a => h.typeArgument a

/-- The constant with which a body ends is pooled. -/
theorem settle (h : T.Fair) (d : Draft) : Work.Conforms T (do
    let atom ← d.intern
    Work.onPool (Pool.internAtom atom) : Work ValueId) := by
  refine (h.draft d).bind fun a => ?_
  cases a with
  | scalar v =>
    -- A scalar has no parts, so its uses are recorded when it is pooled.
    have hsame : Work.onPool (Pool.internAtom (.scalar v)) = Work.intern (.scalar v) := by
      funext ⟨pool, uses, memo⟩
      simp only [Work.intern, Work.onPool, Pool.internAtom, bind, EStateM.bind]
      rcases pool.intern (.scalar v) with ⟨f | id, p⟩ <;> rfl
    rw [hsame]
    exact h.intern _
  | ref id =>
    rintro ⟨pool, uses, memo⟩ hs
    have hget := pool.plain_get id
    simp only [Work.onPool, Pool.internAtom]
    generalize pool.get id = r at hget ⊢
    cases hget with
    | ok _ => exact .ok hs
    | error hf => exact .error hs (h.dynamic _ hf)

end Terms.Fair

/-! ### Surroundings -/

namespace Analysis

/-- The fields of a type are known, unless the type is not. -/
theorem results_fieldsOf (a : Analysis) (name : String) :
    Results (fun f => isKnownType a.types name = false ∧ f = .unresolved name .nothingToQuery)
      (fun _ => True) (a.fieldsOf name) := by
  unfold fieldsOf
  split
  · exact .ok trivial
  · next hnone =>
    split
    · exact .ok trivial
    · next hbuiltin =>
      refine .error ⟨?_, rfl⟩
      rw [isKnownType, OrderedMap.contains_eq, hnone, Bool.eq_false_iff.2 hbuiltin]
      rfl

/-- A question about a type is answered, unless it is about the fields of a type that is not
known. -/
theorem results_queryType (a : Analysis) (q : Query) (d : Draft) (pool : Pool) :
    Results (fun f => f.Dynamic ∨ ∃ name args, d.shape? pool = .ok (some (.type name args)) ∧
        isKnownType a.types name = false ∧ f = .unresolved name .nothingToQuery)
      (fun _ => True) (a.queryType q d pool) := by
  have hshape := (d.plain_shape? pool).with_eq
  refine (hshape.imp_error fun _ hf => .inl hf).bind fun shape hshape => ?_
  split
  · next name args =>
    have hdescribe := d.plain_describe pool
    have hfields := a.results_fieldsOf name
    cases q with
    | typeName => exact (hdescribe.imp_error fun _ hf => .inl hf).bind fun _ _ => .ok trivial
    | fieldNames =>
      refine (hfields.imp_error fun f hf => .inr ⟨name, args, hshape.1, hf⟩).bind fun _ _ => ?_
      exact .ok trivial
    | fieldTypes =>
      refine (hfields.imp_error fun f hf => .inr ⟨name, args, hshape.1, hf⟩).bind fun _ _ => ?_
      exact .ok trivial
  · exact .error (.inl (Fault.dynamic_runtime _))

end Analysis

/-- A request as a vetted body may issue it: a call is for a function as it is declared and has the
right numbers of arguments, and a variable is declared. -/
def Request.Fits {τ ρ : Type} (p : Program) : Request τ ρ → Prop
  | .call f types args =>
    p.functions.get? f.qualifiedName = some f ∧ f.arity = args.length ∧
      f.typeArity = types.length
  | .read name => p.globals.contains name

/-- The same body with other answers to its requests. -/
def Env.answeredBy (env : Env) (request : Request ValueId Atom → Work ValueId) : Env :=
  { env with request }

/-- A draft of which every question about types is answered, or the fault is admitted. -/
def Terms.Queried (T : Terms) (a : Analysis) (d : Draft) : Prop :=
  ∀ q s, T.holds s → Results T.admits (fun _ => True) (a.queryType q d s.pool)

/-- The surroundings that vetting saw are those in which the body runs under the terms. The body
needs nothing but `needs`. For what it needs the other answers `request'` are the same. -/
structure Equipped (T : Terms) (needs : List Node) (s : Surroundings) (env : Env)
    (request' : Request ValueId Atom → Work ValueId) : Prop where
  fair : T.Fair
  exhausted : T.admits env.exhausted
  program : s.program = env.analysis.program
  types : s.types = env.analysis.types
  bound : ∀ name, name ∈ s.params ∨ name ∈ s.typeParams → env.params.contains name
  /-- A type parameter stands for a constant that can be asked about. -/
  typeParam : ∀ name ∈ s.typeParams,
    Results T.admits (T.Queried env.analysis) ((TypeExpr.param name).draft env)
  /-- A function is called by the name under which it was declared. -/
  named : ∀ {name f}, env.analysis.program.functions.get? name = some f → f.qualifiedName = name
  request : ∀ {r : Request ValueId Atom}, r.node ∈ needs → r.Fits env.analysis.program →
    request' r = env.request r ∧ Work.Conforms T (env.request r)

/-- Runs of a part of a body at a point with the surroundings `s`: the second one with other
answers. -/
abbrev Conducted (T : Terms) (s : Surroundings) (V : β → Prop) (x y : Run β) : Prop :=
  Eval.Conforms T s.inLoop s.locals s.locals V x y

/-- Nothing is said about a value. -/
abbrev anything : β → Prop := fun _ => True

/-- No statement takes the point out of its loop, or into one. -/
@[simp] theorem Surroundings.inLoop_after (s : Surroundings) (stmt : Stmt) :
    (s.after stmt).inLoop = s.inLoop := by
  cases stmt <;> rfl

/-- Neither does a body. -/
@[simp] theorem Surroundings.inLoop_afterAll (s : Surroundings) (body : List Stmt) :
    (s.afterAll body).inLoop = s.inLoop := by
  induction body generalizing s with
  | nil => rfl
  | cons stmt rest ih => exact (ih (s.after stmt)).trans (s.inLoop_after stmt)

mutual

/-- A type depends on the parameters, on the types that are known and on the name of the body. -/
theorem TypeExpr.draft_congr {env env' : Env} (htypes : env'.analysis.types = env.analysis.types)
    (hparams : env'.params = env.params) (howner : env'.owner = env.owner) :
    (t : TypeExpr) → t.draft env' = t.draft env
  | .named name args => by
    rw [TypeExpr.draft, TypeExpr.draft, typeDrafts_congr htypes hparams howner args, htypes]
  | .param name => by rw [TypeExpr.draft, TypeExpr.draft, hparams, howner]

/-- The same for a list of types. -/
theorem typeDrafts_congr {env env' : Env} (htypes : env'.analysis.types = env.analysis.types)
    (hparams : env'.params = env.params) (howner : env'.owner = env.owner) :
    (ts : List TypeExpr) → typeDrafts env' ts = typeDrafts env ts
  | [] => rfl
  | t :: rest => by
    rw [typeDrafts, typeDrafts, TypeExpr.draft_congr htypes hparams howner t,
      typeDrafts_congr htypes hparams howner rest]

end

/-- A type does not depend on answers. -/
theorem TypeExpr.draft_answeredBy (env : Env) (request' : Request ValueId Atom → Work ValueId)
    (t : TypeExpr) : t.draft (env.answeredBy request') = t.draft env :=
  @TypeExpr.draft_congr env (env.answeredBy request') rfl rfl rfl t

namespace Equipped

variable {needs : List Node} {s s' : Surroundings} {env : Env}
  {request' : Request ValueId Atom → Work ValueId} {jumps : Bool}
  {names names' names'' : List String} {V : β → Prop} {W : γ → Prop} {x y : Run β}

/-- Surroundings that differ in the locals and in what lies around the point alone. -/
theorem of_eq (h : Equipped T needs s env request') (hprogram : s'.program = s.program)
    (htypes : s'.types = s.types) (hparams : s'.params = s.params)
    (htypeParams : s'.typeParams = s.typeParams) : Equipped T needs s' env request' where
  fair := h.fair
  exhausted := h.exhausted
  program := hprogram.trans h.program
  types := htypes.trans h.types
  bound name hname := h.bound name (by rwa [hparams, htypeParams] at hname)
  typeParam name hname := h.typeParam name (by rwa [htypeParams] at hname)
  named := h.named
  request := h.request

/-- Other answers to what the body does not need. -/
theorem answeredBy (h : Equipped T needs s env request')
    {request'' : Request ValueId Atom → Work ValueId}
    (hsame : ∀ r : Request ValueId Atom, r.node ∈ needs → r.Fits env.analysis.program →
      request'' r = env.request r) : Equipped T needs s env request'' :=
  { h with request := fun {r} hneeds hfits => ⟨hsame r hneeds hfits, (h.request hneeds hfits).2⟩ }

/-- Equipment does not depend on the names declared around the point. -/
theorem declare (h : Equipped T needs s env request') (name : String) :
    Equipped T needs (s.declare name) env request' := h.of_eq rfl rfl rfl rfl

/-- Neither does it depend on the loops around it. -/
theorem enterLoop (h : Equipped T needs s env request') :
    Equipped T needs s.enterLoop env request' := h.of_eq rfl rfl rfl rfl

/-- A statement before the point leaves the equipment as it is. -/
theorem after (h : Equipped T needs s env request') (stmt : Stmt) :
    Equipped T needs (s.after stmt) env request' := by
  cases stmt <;> exact h.of_eq rfl rfl rfl rfl

/-- So do all statements before it. -/
theorem afterAll (h : Equipped T needs s env request') (body : List Stmt) :
    Equipped T needs (s.afterAll body) env request' := by
  induction body generalizing s with
  | nil => exact h
  | cons stmt rest ih => exact ih (h.after stmt)

/-! ### Steps -/

/-- Every expression begins with a step. -/
theorem step (h : Equipped T needs s env request')
    (hnext : Eval.Conforms T jumps names names' V x y) :
    Eval.Conforms T jumps names names' V (Eval.spend env.exhausted 1 >>= fun _ => x)
      (Eval.spend (env.answeredBy request').exhausted 1 >>= fun _ => y) :=
  (Eval.Conforms.spend h.exhausted 1).bind fun _ _ => hnext

/-- A question to the pool that an operator asks. -/
theorem ask (h : Equipped T needs s env request') {question : Pool → Except Fault β}
    (hplain : ∀ pool, Plain (question pool)) :
    Eval.Conforms T jumps names names anything (Eval.ask question) (Eval.ask question) :=
  .ask fun s _ => (hplain s.pool).imp_error h.fair.dynamic

/-- What comes after a truth value depends on it alone. -/
theorem test (h : Equipped T needs s env request') (role : Role) {U : Draft → Prop}
    {x y : Run Draft} {f g : Bool → Run β} (hx : Eval.Conforms T jumps names names' U x y)
    (hnext : ∀ b, Eval.Conforms T jumps names' names'' V (f b) (g b)) :
    Eval.Conforms T jumps names names'' V (x >>= fun d => Eval.ask (Draft.asBool role d) >>= f)
      (y >>= fun d => Eval.ask (Draft.asBool role d) >>= g) :=
  hx.bind fun d _ => (h.ask fun pool => d.plain_asBool pool role).bind fun b _ => hnext b

/-- The elements of a list, for a loop through them. -/
theorem elements (h : Equipped T needs s env request') {U : Draft → Prop} {x y : Run Draft}
    {f g : List Draft → Run β} (hx : Eval.Conforms T jumps names names' U x y)
    (hnext : ∀ ds, Eval.Conforms T jumps names' names'' V (f ds) (g ds)) :
    Eval.Conforms T jumps names names'' V
      (x >>= fun d => (Eval.ask fun pool => d.elements pool) >>= f)
      (y >>= fun d => (Eval.ask fun pool => d.elements pool) >>= g) :=
  hx.bind fun d _ => (h.ask fun pool => d.plain_elements pool).bind fun ds _ => hnext ds

/-- A jump that passed lies in a loop. -/
theorem inLoop_of_vetJump (h : s.vetJump = .ok ()) : s.inLoop = true := by
  unfold Surroundings.vetJump at h
  split at h
  · assumption
  · cases h

/-- A variable that may be assigned to is a local one. -/
theorem mem_locals_of_vetTarget {name : String} (h : s.vetTarget name = .ok ()) :
    name ∈ s.locals := by
  unfold Surroundings.vetTarget at h
  split at h
  · next hlocal => exact List.contains_iff_mem.1 hlocal
  · split at h
    · cases h
    · split at h
      · cases h
      · split at h <;> cases h

/-- A class that passed is declared. -/
theorem exists_type_of_vetClass (h : Equipped T needs s env request') {name : String}
    (hclass : s.vetClass name = .ok ()) : ∃ t, env.analysis.types.get? name = some t := by
  rcases htype : env.analysis.types.get? name with _ | t
  · rw [Surroundings.vetClass, h.types, OrderedMap.contains_eq, htype] at hclass
    cases hclass
  · exact ⟨t, rfl⟩

/-! ### Types -/

/-- Parts of a type pass one after the other. -/
theorem ok_of_vetTypes {t : TypeExpr} {rest : List TypeExpr} (h : vetTypes s (t :: rest) = .ok ()) :
    t.vet s = .ok () ∧ vetTypes s rest = .ok () := by
  rw [vetTypes] at h
  obtain ⟨_, ht, hrest⟩ := ok_of_bind h
  exact ⟨ht, hrest⟩

end Equipped

section Syntax

variable {needs : List Node} {s : Surroundings} {env : Env}
  {request' : Request ValueId Atom → Work ValueId}

mutual

/-- A type that passed is known, or it stands for a constant that can be asked about. -/
theorem TypeExpr.results_draft (h : Equipped T needs s env request') : (t : TypeExpr) →
    t.vet s = .ok () → Results T.admits (T.Queried env.analysis) (t.draft env)
  | .named name args, hvet => by
    rw [TypeExpr.vet] at hvet
    rw [TypeExpr.draft, ← h.types]
    cases hknown : isKnownType s.types name with
    | false =>
      rw [hknown] at hvet
      cases hvet
    | true =>
      rw [hknown] at hvet
      refine (results_typeDrafts h args hvet).bind fun ds _ => .ok fun q stock _ => ?_
      refine (env.analysis.results_queryType q _ stock.pool).imp_error ?_
      rintro f (hf | ⟨n, as, hshape, hunknown, -⟩)
      · exact h.fair.dynamic f hf
      · cases hshape
        rw [← h.types, hknown] at hunknown
        cases hunknown
  | .param name, hvet => by
    rw [TypeExpr.vet] at hvet
    split at hvet
    · next hname => exact h.typeParam name (List.contains_iff_mem.1 hname)
    · cases hvet

/-- A list of types. -/
theorem results_typeDrafts (h : Equipped T needs s env request') : (ts : List TypeExpr) →
    vetTypes s ts = .ok () → Results T.admits anything (typeDrafts env ts)
  | [], _ => .ok trivial
  | t :: rest, hvet => by
    obtain ⟨ht, hrest⟩ := Equipped.ok_of_vetTypes hvet
    rw [typeDrafts]
    exact (TypeExpr.results_draft h t ht).bind fun _ _ =>
      (results_typeDrafts h rest hrest).bind fun _ _ => .ok trivial

end

namespace Equipped

variable {jumps : Bool} {names : List String}

/-- A type as a value. -/
theorem typeDraft (h : Equipped T needs s env request') {t : TypeExpr} (hvet : t.vet s = .ok ()) :
    Eval.Conforms T jumps names names (T.Queried env.analysis) (Eval.ofExcept (t.draft env))
      (Eval.ofExcept (t.draft (env.answeredBy request'))) := by
  rw [TypeExpr.draft_answeredBy]
  exact .ofExcept (TypeExpr.results_draft h t hvet)

/-- The type arguments of a call are pooled. -/
theorem evalTypes (h : Equipped T needs s env request') (types : List TypeExpr)
    (hvet : vetTypes s types = .ok ()) :
    Eval.Conforms T jumps names names (fun ids => ids.length = types.length)
      (ConstPool.evalTypes env types) (ConstPool.evalTypes (env.answeredBy request') types) := by
  induction types with
  | nil => exact .pure rfl
  | cons t rest ih =>
    obtain ⟨ht, hrest⟩ := ok_of_vetTypes hvet
    rw [ConstPool.evalTypes, ConstPool.evalTypes]
    exact (h.typeDraft ht).bind fun d _ => (Eval.Conforms.onStock (h.fair.internType d)).bind
      fun _ _ => (ih hrest).bind fun ids hids => .pure (congrArg (· + 1) hids)

/-! ### Names -/

/-- A request for something that the body needs. -/
theorem fetch (h : Equipped T needs s env request') {r : Request ValueId Atom}
    (hneeds : r.node ∈ needs) (hfits : r.Fits env.analysis.program) :
    Eval.Conforms T jumps names names anything (env.fetch r)
      ((env.answeredBy request').fetch r) := by
  obtain ⟨hsame, hconforms⟩ := h.request hneeds hfits
  have hsame' : (env.answeredBy request').request r = env.request r := hsame
  rw [Env.fetch, Env.fetch, hsame']
  exact (Eval.Conforms.onStock hconforms).bind fun id _ =>
    (h.ask fun pool => pool.plain_atomOf id).bind fun _ _ => .pure trivial

/-- The value of a name: a visible local is there, a parameter is bound, and else the name is that
of a variable which the body needs. -/
theorem lookup (h : Equipped T needs s env request') {name : String} {ns : List Node}
    (hvet : s.vetName name = .ok ns) (hneeds : ∀ n ∈ ns, n ∈ needs) :
    Conducted T s anything (env.lookup name) ((env.answeredBy request').lookup name) := by
  refine Eval.Conforms.get_bind fun m hm => ?_
  rcases hfind : m.scopes.find? name with _ | d
  · dsimp only
    have hparams : (env.answeredBy request').params = env.params := rfl
    rw [hparams]
    rcases hparam : env.params.get? name with _ | a
    · rcases EnvRel.cases_of_vetName hvet with hlocal | hbound | ⟨hglobal, rfl⟩
      · have hsome := Scopes.find?_isSome (hm.binds name hlocal)
        rw [hfind] at hsome
        cases hsome
      · have hsome := h.bound name hbound
        rw [Dict.contains, hparam] at hsome
        cases hsome
      · rw [h.program] at hglobal
        have hanalysis : (env.answeredBy request').analysis = env.analysis := rfl
        have hfits : (Request.read name : Request ValueId Atom).Fits env.analysis.program := hglobal
        simp only [hanalysis, hglobal, if_true]
        exact h.fetch (hneeds _ (List.mem_singleton_self _)) hfits m hm
    · exact ⟨rfl, .ok (.refl hm) hm.binds trivial⟩
  · exact ⟨rfl, .ok (.refl hm) hm.binds trivial⟩

/-- The integers of a range. -/
theorem range (h : Equipped T needs s env request') (start stop : Int64) :
    Eval.Conforms T jumps names names anything (env.range start stop)
      ((env.answeredBy request').range start stop) :=
  (Eval.Conforms.spend h.exhausted _).bind fun _ _ => .pure trivial

end Equipped

/-! ### Expressions and statements -/

mutual

/-- An expression. -/
theorem Expr.conforms {s : Surroundings} (h : Equipped T needs s env request') :
    (e : Expr) → Vetted needs (e.vet s) →
      Conducted T s anything (e.eval env) (e.eval (env.answeredBy request'))
  | .scalar v, _ => by
    rw [Expr.eval, Expr.eval]
    exact h.step (.pure trivial)
  | .text content, _ => by
    rw [Expr.eval, Expr.eval]
    exact h.step (.pure trivial)
  | .name name, hvet => by
    rw [Expr.eval, Expr.eval]
    obtain ⟨ns, hns, hneeds⟩ := hvet
    exact h.step (h.lookup hns hneeds)
  | .unary op operand, hvet => by
    rw [Expr.eval, Expr.eval]
    refine h.step ((Expr.conforms h operand hvet).bind fun d _ => ?_)
    exact h.ask fun pool => d.plain_unary pool op
  | .binary op left right, hvet => by
    rw [Expr.eval, Expr.eval]
    obtain ⟨hleft, hright⟩ := hvet.append
    refine h.step ((Expr.conforms h left hleft).bind fun d _ => ?_)
    refine (Expr.conforms h right hright).bind fun e _ => ?_
    exact h.ask fun pool => d.plain_binary pool op e
  | .and left right, hvet => by
    rw [Expr.eval, Expr.eval]
    obtain ⟨hleft, hright⟩ := hvet.append
    refine h.step (h.test .leftOfAnd (Expr.conforms h left hleft) fun b => ?_)
    cases b
    · exact .pure trivial
    · exact h.test .rightOfAnd (Expr.conforms h right hright) fun _ => .pure trivial
  | .or left right, hvet => by
    rw [Expr.eval, Expr.eval]
    obtain ⟨hleft, hright⟩ := hvet.append
    refine h.step (h.test .leftOfOr (Expr.conforms h left hleft) fun b => ?_)
    cases b
    · exact h.test .rightOfOr (Expr.conforms h right hright) fun _ => .pure trivial
    · exact .pure trivial
  | .ifNull left right, hvet => by
    rw [Expr.eval, Expr.eval]
    obtain ⟨hleft, hright⟩ := hvet.append
    refine h.step ((Expr.conforms h left hleft).bind fun d _ => ?_)
    -- only null goes on to the right operand
    rcases d with ⟨(_ | b | i | x) | id⟩ | l
    all_goals first
      | exact .pure trivial
      | exact Expr.conforms h right hright
  | .cond condition onTrue onFalse, hvet => by
    rw [Expr.eval, Expr.eval]
    obtain ⟨hcondition, htrue, hfalse⟩ := hvet.append₃
    refine h.step (h.test .condition (Expr.conforms h condition hcondition) fun b => ?_)
    cases b
    · exact Expr.conforms h onFalse hfalse
    · exact Expr.conforms h onTrue htrue
  | .block body result, hvet => by
    rw [Expr.eval, Expr.eval]
    obtain ⟨hbody, hresult⟩ := hvet.append
    -- the result stands in the scope of the block, with all that its statements declare
    have hlast := Expr.conforms (h.afterAll body) result hresult
    rw [Conducted, s.inLoop_afterAll] at hlast
    have hpart := (bodyConforms h body hbody).bind fun _ _ => hlast
    exact h.step (hpart.inScope fun _ hname => .inl hname)
  | .list items, hvet => by
    rw [Expr.eval, Expr.eval]
    exact h.step ((itemsConform h items hvet _).bind fun _ _ => .pure trivial)
  | .map entries, hvet => by
    rw [Expr.eval, Expr.eval]
    exact h.step ((entriesConform h entries hvet _).bind fun _ _ => .pure trivial)
  | .object className fields, hvet => by
    rw [Expr.eval, Expr.eval]
    have hfields : Vetted needs (vetFields fields s) := hvet.after_check
    have hclass : s.vetClass className = .ok () := hvet.check
    have hanalysis : (env.answeredBy request').analysis = env.analysis := rfl
    -- vetting has found the class, so the case that it is missing does not come up
    obtain ⟨t, htype⟩ := h.exists_type_of_vetClass hclass
    rw [hanalysis, htype]
    refine h.step ((fieldsConform h t className fields hfields _).bind fun given _ => ?_)
    have hcomplete := (t.plain_complete className given).imp_error h.fair.dynamic
    exact (Eval.Conforms.ofExcept hcomplete).bind fun _ _ => .pure trivial
  | .collect binder source none item, hvet => by
    rw [Expr.eval, Expr.eval]
    obtain ⟨hsource, hitem⟩ := hvet.append
    refine h.step (h.elements (Expr.conforms h source hsource) fun ds => ?_)
    have hproduce : Conducted T (s.declare binder) anything
        (do return some (← item.eval env) : Run (Option Draft))
        (do return some (← item.eval (env.answeredBy request'))) :=
      (Expr.conforms (h.declare binder) item hitem).bind fun _ _ => .pure trivial
    exact (Eval.Conforms.collect h.exhausted hproduce ds #[]).bind fun _ _ => .pure trivial
  | .collect binder source (some filter) item, hvet => by
    rw [Expr.eval, Expr.eval]
    obtain ⟨hsource, hfilter, hitem⟩ := hvet.append₃
    refine h.step (h.elements (Expr.conforms h source hsource) fun ds => ?_)
    have h' := h.declare binder
    have hproduce : Conducted T (s.declare binder) anything
        (do
          if ← Eval.ask (Draft.asBool .filter (← filter.eval env)) then
            return some (← item.eval env)
          else return none : Run (Option Draft))
        (do
          if ← Eval.ask (Draft.asBool .filter (← filter.eval (env.answeredBy request'))) then
            return some (← item.eval (env.answeredBy request'))
          else return none) := by
      refine h'.test .filter (Expr.conforms h' filter hfilter) fun b => ?_
      cases b
      · exact .pure trivial
      · exact (Expr.conforms h' item hitem).bind fun _ _ => .pure trivial
    exact (Eval.Conforms.collect h.exhausted hproduce ds #[]).bind fun _ _ => .pure trivial
  | .range start stop, hvet => by
    rw [Expr.eval, Expr.eval]
    obtain ⟨hstart, hstop⟩ := hvet.append
    refine h.step ((Expr.conforms h start hstart).bind fun d _ => ?_)
    refine (h.ask fun pool => d.plain_asInt pool .rangeStart).bind fun a _ => ?_
    refine (Expr.conforms h stop hstop).bind fun e _ => ?_
    exact (h.ask fun pool => e.plain_asInt pool .rangeStop).bind fun b _ => h.range a b
  | .index target position, hvet => by
    rw [Expr.eval, Expr.eval]
    obtain ⟨htarget, hposition⟩ := hvet.append
    refine h.step ((Expr.conforms h target htarget).bind fun d _ => ?_)
    refine (Expr.conforms h position hposition).bind fun e _ => ?_
    exact h.ask fun pool => d.plain_index pool e
  | .field target name, hvet => by
    rw [Expr.eval, Expr.eval]
    refine h.step ((Expr.conforms h target hvet).bind fun d _ => ?_)
    exact h.ask fun pool => d.plain_member pool name
  | .type t, hvet => by
    rw [Expr.eval, Expr.eval]
    exact h.step ((h.typeDraft hvet.check).imp fun _ _ => trivial)
  | .query q t, hvet => by
    rw [Expr.eval, Expr.eval]
    exact h.step ((h.typeDraft hvet.check).bind fun d hd => .ask fun s hs => hd q s hs)
  | .throw message, hvet => by
    rw [Expr.eval, Expr.eval]
    refine h.step ((Expr.conforms h message hvet).bind fun d _ => ?_)
    refine (h.ask fun pool => d.plain_message pool).bind fun text _ => ?_
    exact .raise (h.fair.dynamic _ (Fault.dynamic_runtime _))
  | .call function types args, hvet => by
    rw [Expr.eval, Expr.eval]
    obtain ⟨⟨f, hf, harity, htypeArity⟩, hneeds, htypes, hargs⟩ := hvet.of_call
    rw [h.program] at hf
    have hnode : .function f.qualifiedName ∈ needs := by
      rwa [h.named hf]
    have hdeclared : env.analysis.program.functions.get? f.qualifiedName = some f := by
      rwa [h.named hf]
    have hcallee : env.analysis.callee env.owner function = .ok f := by
      rw [Analysis.callee, hf]
    have hcallee' : (env.answeredBy request').analysis.callee
        (env.answeredBy request').owner function = .ok f := hcallee
    rw [hcallee, hcallee']
    refine h.step ((h.evalTypes types htypes).bind fun ids hids => ?_)
    refine (argsConform h args hargs).bind fun as has => h.fetch hnode ?_
    exact ⟨hdeclared, harity.trans has.symm, htypeArity.trans hids.symm⟩
  | .method _ _ _ _, hvet => by
    -- vetting refuses every method, and every tear-off below
    obtain ⟨_, hns, _⟩ := hvet
    cases hns
  | .tearOff _, hvet => by
    obtain ⟨_, hns, _⟩ := hvet
    cases hns

/-- A list of expressions. -/
theorem itemsConform {s : Surroundings} (h : Equipped T needs s env request') :
    (items : List Expr) → Vetted needs (vetList items s) → (done : Array Draft) →
      Conducted T s anything (evalItems env items done)
        (evalItems (env.answeredBy request') items done)
  | [], _, _ => .pure trivial
  | item :: rest, hvet, done => by
    rw [evalItems, evalItems]
    obtain ⟨hitem, hrest⟩ := hvet.append
    exact (Expr.conforms h item hitem).bind fun d _ => itemsConform h rest hrest (done.push d)

/-- The entries of a map. -/
theorem entriesConform {s : Surroundings} (h : Equipped T needs s env request') :
    (entries : List (Expr × Expr)) → Vetted needs (vetEntries entries s) →
      (done : Array (Draft × Draft)) → Conducted T s anything (evalEntries env entries done)
        (evalEntries (env.answeredBy request') entries done)
  | [], _, _ => .pure trivial
  | (key, value) :: rest, hvet, done => by
    rw [evalEntries, evalEntries]
    obtain ⟨hkey, hvalue, hrest⟩ := hvet.append₃
    refine (Expr.conforms h key hkey).bind fun k _ => ?_
    refine (Expr.conforms h value hvalue).bind fun v _ => ?_
    refine (h.ask fun pool => Draft.plain_ensureNewKey pool k done).bind fun _ _ => ?_
    exact entriesConform h rest hrest (done.push (k, v))

/-- The fields of an object. -/
theorem fieldsConform {s : Surroundings} (h : Equipped T needs s env request') (t : TypeDecl)
    (className : String) : (fields : List (String × Expr)) → Vetted needs (vetFields fields s) →
      (done : OrderedMap String Draft) →
        Conducted T s anything (evalFields env t className fields done)
          (evalFields (env.answeredBy request') t className fields done)
  | [], _, _ => .pure trivial
  | (name, value) :: rest, hvet, done => by
    rw [evalFields, evalFields]
    obtain ⟨hvalue, hrest⟩ := hvet.append
    have hnew := (t.plain_ensureNewField className done name).imp_error h.fair.dynamic
    refine (Eval.Conforms.ofExcept hnew).bind fun _ _ => ?_
    refine (Expr.conforms h value hvalue).bind fun d _ => ?_
    exact fieldsConform h t className rest hrest (done.insert name d)

/-- The arguments of a call are pooled. -/
theorem argsConform {s : Surroundings} (h : Equipped T needs s env request') :
    (args : List Expr) → Vetted needs (vetList args s) →
      Conducted T s (fun atoms => atoms.length = args.length) (evalArgs env args)
        (evalArgs (env.answeredBy request') args)
  | [], _ => .pure rfl
  | arg :: rest, hvet => by
    rw [evalArgs, evalArgs]
    obtain ⟨harg, hrest⟩ := hvet.append
    refine (Expr.conforms h arg harg).bind fun d _ => ?_
    refine (Eval.Conforms.onStock (h.fair.draft d)).bind fun _ _ => ?_
    exact (argsConform h rest hrest).bind fun as has => .pure (congrArg (· + 1) has)

/-- A statement. -/
theorem Stmt.conforms {s : Surroundings} (h : Equipped T needs s env request') :
    (stmt : Stmt) → Vetted needs (stmt.vet s) →
      Eval.Conforms T s.inLoop s.locals (s.after stmt).locals anything (stmt.exec env)
        (stmt.exec (env.answeredBy request'))
  | .declare name value, hvet => by
    rw [Stmt.exec, Stmt.exec]
    exact (Expr.conforms h value hvet).bind fun d _ => .declare name d
  | .assign name value, hvet => by
    rw [Stmt.exec, Stmt.exec]
    have hlocal : name ∈ s.locals := Equipped.mem_locals_of_vetTarget hvet.check
    have hvalue : Vetted needs (value.vet s) := hvet.after_check
    exact (Expr.conforms h value hvalue).bind fun d _ => .assign hlocal d _
  | .evaluate e, hvet => by
    rw [Stmt.exec, Stmt.exec]
    exact (Expr.conforms h e hvet).bind fun _ _ => .pure trivial
  | .branch condition onTrue onFalse, hvet => by
    rw [Stmt.exec, Stmt.exec]
    obtain ⟨hcondition, htrue, hfalse⟩ := hvet.append₃
    refine h.test .condition (Expr.conforms h condition hcondition) fun b => ?_
    cases b
    · exact (bodyConforms h onFalse hfalse).inScope fun _ hname => .inl hname
    · exact (bodyConforms h onTrue htrue).inScope fun _ hname => .inl hname
  | .loop condition body, hvet => by
    rw [Stmt.exec, Stmt.exec]
    obtain ⟨hcondition, hbody⟩ := hvet.append
    have htest : Conducted T s anything
        (do Eval.ask (Draft.asBool .loopCondition (← condition.eval env)))
        (do Eval.ask (Draft.asBool .loopCondition
          (← condition.eval (env.answeredBy request')))) :=
      (Expr.conforms h condition hcondition).bind fun d _ =>
        h.ask fun pool => d.plain_asBool pool .loopCondition
    have hround := bodyConforms h.enterLoop body hbody
    exact .get_bind fun m hm => Eval.Conforms.loop h.exhausted htest hround m.left m hm
  | .forEach binder source body, hvet => by
    rw [Stmt.exec, Stmt.exec]
    obtain ⟨hsource, hbody⟩ := hvet.append
    refine h.elements (Expr.conforms h source hsource) fun ds => ?_
    exact .forEach h.exhausted (bodyConforms (h.enterLoop.declare binder) body hbody) ds
  | .leaveLoop, hvet => by
    rw [Stmt.exec, Stmt.exec]
    exact .stop (.leaveLoop (Equipped.inLoop_of_vetJump hvet.check))
  | .nextRound, hvet => by
    rw [Stmt.exec, Stmt.exec]
    exact .stop (.nextRound (Equipped.inLoop_of_vetJump hvet.check))
  | .giveBack value, hvet => by
    rw [Stmt.exec, Stmt.exec]
    exact (Expr.conforms h value hvet).bind fun d _ => .stop (.result d)

/-- Statements one after another. -/
theorem bodyConforms {s : Surroundings} (h : Equipped T needs s env request') :
    (body : List Stmt) → Vetted needs (vetBody body s) →
      Eval.Conforms T s.inLoop s.locals (s.afterAll body).locals anything (execBody env body)
        (execBody (env.answeredBy request') body)
  | [], _ => .pure trivial
  | stmt :: rest, hvet => by
    rw [execBody, execBody]
    obtain ⟨hstmt, hrest⟩ := hvet.append
    have hlast := bodyConforms (h.after stmt) rest hrest
    rw [s.inLoop_after] at hlast
    exact (Stmt.conforms h stmt hstmt).bind fun _ _ => hlast

end

/-- A whole body. No jump leaves it, since none of its jumps lies outside of a loop. -/
theorem Equipped.run (h : Equipped T needs s env request') (hlocals : s.locals = [])
    (hloop : s.inLoop = false) {body : Expr} (hvet : Vetted needs (body.vet s)) {stock : Stock}
    (hstock : T.holds stock) :
    (env.answeredBy request').run body stock = env.run body stock ∧
      Work.Leaves T (env.run body stock) := by
  have hready : Eval.Ready T s.locals
      (⟨stock, [.empty], env.analysis.settings.stepBudget⟩ : Machine Stock Draft) := by
    refine ⟨hstock, List.cons_ne_nil _ _, ?_⟩
    rw [hlocals]
    rintro _ ⟨⟩
  obtain ⟨heq, hleaves⟩ := Expr.conforms h body hvet _ hready
  have heq' : (env.answeredBy request').finish body stock = env.finish body stock := by
    unfold Env.finish
    exact heq ▸ rfl
  have hrun : (env.answeredBy request').run body stock = env.run body stock := by
    unfold Env.run
    rw [heq']
  refine ⟨hrun, ?_⟩
  rw [hloop] at hleaves
  unfold Env.run Env.finish
  generalize body.eval env _ = r at hleaves ⊢
  cases hleaves with
  | ok hon _ _ => exact h.fair.settle _ _ hon.holds
  | stop hon hs =>
    cases hs with
    | result d => exact h.fair.settle d _ hon.holds
    | leaveLoop hjump => cases hjump
    | nextRound hjump => cases hjump
    | fault hf => exact .error hon.holds hf

end Syntax

end ConstPool
