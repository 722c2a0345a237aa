import ConstPool.Proofs.Draft.Access
import ConstPool.Proofs.Draft.Intern
import ConstPool.Proofs.OrderedMap
import ConstPool.Proofs.Simulation.Basic
import ConstPool.Proofs.Tree.Eval

/-!
# Bodies that run on drafts and on trees

What a body meets while it runs on drafts over a stock corresponds to what it meets while it runs
on trees: parameters, requests and their answers, types and names. The body has been vetted, so it
asks for nothing but what it needs, and a name that it takes for a local is one.

Steps are spent alike on both sides, so a body runs out of them at the same point. What a body is
answered is described by the answer on trees as long as the pool has only grown in between, and
this is why the correspondence is said relative to a pool.

* `Stock.Invariant`: a property of stocks that pooling keeps.
* `Stock.correspondence`: drafts over stocks and the trees that they mean.
* `EnvRel`: the surroundings of a body on drafts and on trees.
-/

namespace ConstPool

open Draft

variable {α : Type} [Leaf α]

/-! ### Stocks -/

/-- A property of stocks that pooling keeps. Stocks that have it have sound pools. -/
structure Stock.Invariant (α : Type) [Leaf α] (I : Stock → Prop) : Prop where
  sound : ∀ {s}, I s → s.pool.Sound
  grows : ∀ {s s'}, I s → s.Grows α s' → I s'

/-- Drafts over stocks and the trees that they mean. -/
def Stock.correspondence (α : Type) [Leaf α] (I : Stock → Prop) (E B : Fault → Prop) :
    Correspondence Stock Draft Unit (Tree α) where
  World := Pool
  le := Pool.Grows α
  refl := .refl
  trans := .trans
  world := Stock.pool
  stands := Means
  mono h := .mono h.keeps
  holds s _ := I s
  shared := E
  excused _ := B

variable {I : Stock → Prop} {E B : Fault → Prop} {w : Pool} {names names' : List String}

namespace Sim

/-- A question to the pool. -/
theorem ask {β γ : Type} {V : Pool → β → γ → Prop} (hI : Stock.Invariant α I)
    (hE : ∀ f, Fault.Benign f → E f) {question : Pool → Except Fault β} {p : Except Fault γ}
    (h : ∀ q, w.Grows α q → q.Sound → Agree Fault.Benign (V q) (question q) p) :
    Sim (Stock.correspondence α I E B) w names names V (Eval.ask question)
      (Eval.ofExcept p) := by
  intro m n hn
  have hagree := h m.stock.pool hn.later (hI.sound hn.holds)
  unfold Eval.ask
  generalize question m.stock.pool = r at hagree ⊢
  cases hagree with
  | ok hV => exact .ok (.refl hn) hn.binds hV
  | error hf => exact .stop (.refl hn) (.fault (hE _ hf))

/-- A question to the pool that is always answered. -/
theorem ask_ok {β γ : Type} {V : Pool → β → γ → Prop} (hI : Stock.Invariant α I)
    (hE : ∀ f, Fault.Benign f → E f) {question : Pool → Except Fault β} {c : γ}
    (h : ∀ q, w.Grows α q → q.Sound → ∃ b, question q = .ok b ∧ V q b c) :
    Sim (Stock.correspondence α I E B) w names names V (Eval.ask question) (Pure.pure c) := by
  refine ask (p := .ok c) hI hE fun q hq hsound => ?_
  obtain ⟨b, hb, hV⟩ := h q hq hsound
  rw [hb]
  exact .ok hV

/-- A computation on the stock that does not fail is nothing to a machine without a stock. -/
theorem onStock_bind {β β' γ' : Type} {V : Pool → β → Prop} {W : Pool → β' → γ' → Prop}
    (hI : Stock.Invariant α I) {work : Work β} (h : Work.Yields α w work V)
    {f : β → Run β'} {y : TreeRun α γ'}
    (hnext : ∀ w' b, w.Grows α w' → V w' b →
      Sim (Stock.correspondence α I E B) w' names names' W (f b) y) :
    Sim (Stock.correspondence α I E B) w names names' W (Eval.onStock work >>= f) y := by
  intro m n hn
  obtain ⟨b, s, hrun, hgrows, hb⟩ := h m.stock hn.later.keeps (hI.sound hn.holds)
  have hafter : After (Stock.correspondence α I E B) m { m with stock := s } n :=
    ⟨hgrows.pool, hI.grows hn.holds hgrows, hn.scopes.imp fun _ _ hd =>
      hd.imp fun _ _ => .mono hgrows.pool.keeps, hn.left, .refl _⟩
  have hrun' : (Eval.onStock work >>= f) m = f b { m with stock := s } := by
    show EStateM.bind (Eval.onStock work) f m = _
    simp only [EStateM.bind, Eval.onStock, hrun]
  rw [hrun']
  exact (hnext _ b (hn.later.trans hgrows.pool) hb _ n (hafter.near hn hn.binds)).after hafter

end Sim

/-! ### Requests -/

/-- A request for pooled arguments means a request for trees. -/
inductive Request.Means (pool : Pool) : Request ValueId Atom → Request (Tree α) (Tree α) → Prop
  | call (f : FunctionDecl) {types : List ValueId} {types' : List (Tree α)} {args : List Atom}
    {args' : List (Tree α)} :
    List.Forall₂ (fun id t => Draft.Means pool (.atom (.ref id)) t) types types' →
      List.Forall₂ (fun a t => Draft.Means pool (.atom a) t) args args' →
      Request.Means pool (.call f types args) (.call f types' args')
  | read (name : String) : Request.Means pool (.read name) (.read name)

namespace Request.Means

variable {pool : Pool} {r : Request ValueId Atom} {t : Request (Tree α) (Tree α)}

/-- What is requested is the same. -/
theorem node_eq (h : Request.Means pool r t) : r.node = t.node := by
  cases h <;> rfl

/-- A request for constants means the same in a pool that keeps them. -/
theorem mono {q : Pool} (hkeeps : pool.Keeps q) (h : Request.Means pool r t) :
    Request.Means q r t := by
  cases h with
  | call f htypes hargs =>
    exact .call f (htypes.imp fun _ _ => .mono hkeeps) (hargs.imp fun _ _ => .mono hkeeps)
  | read name => exact .read name

end Request.Means

/-- A request for a function names it as the program does. -/
def Request.Declared {τ ρ : Type} (p : Program) : Request τ ρ → Prop
  | .call f _ _ => p.functions.get? f.qualifiedName = some f
  | .read _ => True

/-! ### Surroundings -/

/-- The surroundings of a body on drafts and on trees, in a world `w`. The body needs nothing but
`needs`; what it may use is said by `s`. -/
structure EnvRel [DecidableEq α] (I : Stock → Prop) (E B : Fault → Prop) (needs : List Node)
    (s : Surroundings) (w : Pool) (env : Env) (env' : TreeEnv α) : Prop where
  invariant : Stock.Invariant α I
  benign : ∀ f, Fault.Benign f → E f
  analysis : env'.analysis = env.analysis
  owner : env'.owner = env.owner
  program : s.program = env.analysis.program
  types : s.types = env.analysis.types
  params : DictRel (fun a t => Draft.Means w (.atom a) t) env.params env'.params
  bound : ∀ name, name ∈ s.params ∨ name ∈ s.typeParams → env.params.contains name
  /-- A function is called by the name under which it was declared. -/
  named : ∀ {name f}, env.analysis.program.functions.get? name = some f → f.qualifiedName = name
  request : ∀ {w' names r t}, w.Grows α w' → r.node ∈ needs →
    r.Declared env.analysis.program → Request.Means w' r t →
    Sim (Stock.correspondence α I E B) w' names names Pool.Denotes
      (Eval.onStock (env.request r)) (Eval.ofExcept (env'.request t))

namespace EnvRel

variable [DecidableEq α] {needs : List Node} {s : Surroundings} {env : Env} {env' : TreeEnv α}

/-- The environments still correspond when the pool has grown. -/
theorem mono {w' : Pool} (h : EnvRel I E B needs s w env env') (hgrows : w.Grows α w') :
    EnvRel I E B needs s w' env env' where
  invariant := h.invariant
  benign := h.benign
  analysis := h.analysis
  owner := h.owner
  program := h.program
  types := h.types
  params := h.params.imp fun _ _ => .mono hgrows.keeps
  bound := h.bound
  named := h.named
  request hle := h.request (hgrows.trans hle)

/-- Surroundings that differ in the locals and in what lies around the point alone. -/
theorem of_eq {s' : Surroundings} (h : EnvRel I E B needs s w env env')
    (hprogram : s'.program = s.program) (htypes : s'.types = s.types)
    (hparams : s'.params = s.params) (htypeParams : s'.typeParams = s.typeParams) :
    EnvRel I E B needs s' w env env' where
  invariant := h.invariant
  benign := h.benign
  analysis := h.analysis
  owner := h.owner
  program := hprogram.trans h.program
  types := htypes.trans h.types
  params := h.params
  bound name hname := h.bound name (by rwa [hparams, htypeParams] at hname)
  named := h.named
  request := h.request

/-- Environments do not depend on the names declared around the point. -/
theorem declare (h : EnvRel I E B needs s w env env') (name : String) :
    EnvRel I E B needs (s.declare name) w env env' := h.of_eq rfl rfl rfl rfl

/-- Neither do they depend on the loops around it. -/
theorem enterLoop (h : EnvRel I E B needs s w env env') :
    EnvRel I E B needs s.enterLoop w env env' := h.of_eq rfl rfl rfl rfl

/-- A statement before the point leaves them as they are. -/
theorem after (h : EnvRel I E B needs s w env env') (stmt : Stmt) :
    EnvRel I E B needs (s.after stmt) w env env' := by
  cases stmt <;> exact h.of_eq rfl rfl rfl rfl

/-- So do all statements before it. -/
theorem afterAll (h : EnvRel I E B needs s w env env') (body : List Stmt) :
    EnvRel I E B needs (s.afterAll body) w env env' := by
  induction body generalizing s with
  | nil => exact h
  | cons stmt rest ih => exact ih (h.after stmt)

/-- A body that takes too many steps fails in the same way. -/
theorem exhausted_eq (h : EnvRel I E B needs s w env env') : env'.exhausted = env.exhausted := by
  rw [TreeEnv.exhausted, Env.exhausted, h.analysis, h.owner]

end EnvRel

/-! ### Types -/

mutual

/-- A type as a value. -/
theorem TypeExpr.agree [DecidableEq α] {needs : List Node} {s : Surroundings} {env : Env}
    {env' : TreeEnv α} (h : EnvRel I E B needs s w env env') : (t : TypeExpr) →
    Agree Fault.Benign (fun d u => Draft.Means w d u ∧ d.scalar? = none) (t.draft env)
      (t.tree env')
  | .named name args => by
    rw [TypeExpr.draft, TypeExpr.tree, h.analysis]
    cases isKnownType env.analysis.types name
    · exact .error rfl
    · exact (typesAgree h args).bind fun ds ts hds => .ok ⟨.of_fresh trivial (.type name hds), rfl⟩
  | .param name => by
    have hname := h.params name
    rw [TypeExpr.draft, TypeExpr.tree, h.owner]
    generalize env.params.get? name = x at hname ⊢
    generalize env'.params.get? name = y at hname ⊢
    cases hname with
    | none => exact .error rfl
    | @some a t hmeans =>
      have hscalar := hmeans.scalar?
      cases a with
      | scalar s =>
        have hsome : t.scalar?.isNone = false := by
          rw [← hscalar]
          rfl
        simp only [hsome, Bool.false_eq_true, if_false]
        exact .error rfl
      | ref id =>
        have hnone : t.scalar?.isNone = true := by
          rw [← hscalar]
          rfl
        simp only [hnone, if_true]
        exact .ok ⟨hmeans, rfl⟩

/-- A list of types as values. -/
theorem typesAgree [DecidableEq α] {needs : List Node} {s : Surroundings} {env : Env}
    {env' : TreeEnv α} (h : EnvRel I E B needs s w env env') : (ts : List TypeExpr) →
    Agree Fault.Benign (List.Forall₂ fun d u => Draft.Means w d u ∧ d.scalar? = none)
      (typeDrafts env ts) (typeTrees env' ts)
  | [] => .ok .nil
  | t :: rest => by
    rw [typeDrafts, typeTrees]
    exact (TypeExpr.agree h t).bind fun d u hd => (typesAgree h rest).bind fun ds us hds =>
      .ok (.cons hd hds)

end

namespace EnvRel

variable [DecidableEq α] {needs : List Node} {s : Surroundings} {env : Env} {env' : TreeEnv α}
  {d : Draft} {t : Tree α}

/-- The fields of a type are known on both sides or on none. -/
theorem benign_of_fieldsOf {a : Analysis} {name : String} {f : Fault}
    (h : a.fieldsOf name = .error f) : f.Benign := by
  unfold Analysis.fieldsOf at h
  split at h
  · cases h
  · split at h <;> cases h
    rfl

/-- Lists that are made of one list correspond if their members do. -/
theorem forall₂_map {β γ δ : Type} {R : γ → δ → Prop} {f : β → γ} {g : β → δ} (xs : List β)
    (h : ∀ x, R (f x) (g x)) : List.Forall₂ R (xs.map f) (xs.map g) := by
  rw [List.forall₂_map_left_iff, List.forall₂_map_right_iff]
  exact List.forall₂_same.2 fun x _ => h x

omit [DecidableEq α] in
/-- A question about a type depends on the declared types alone. -/
theorem queryType_of_analysis (env' : TreeEnv α) (hsound : w.Sound) (q : Query)
    (hd : Draft.Means w d t) :
    Agree Fault.Benign (Draft.Means w) (env'.analysis.queryType q d w) (env'.queryType q t) := by
  obtain ⟨layer, hlayer, hrel⟩ := hd.shape?
  have hname := hd.typeName
  have hdescribe := hd.describe hsound
  unfold Analysis.queryType TreeEnv.queryType
  rw [hlayer]
  cases t with
  | leaf a =>
    cases hrel
    rw [hname]
    exact .error rfl
  | node m =>
    cases hrel with
    | some hm =>
      cases hm with
      | @type name args args' hargs =>
        have hfields : Agree Fault.Benign Eq (env'.analysis.fieldsOf name)
            (env'.analysis.fieldsOf name) :=
          .refl fun _ => benign_of_fieldsOf
        cases q with
        | typeName =>
          simp only [bind, Except.bind, hdescribe]
          exact .ok (.text _)
        | fieldNames =>
          refine hfields.bind fun fields _ heq => ?_
          subst heq
          exact .ok (.list (forall₂_map fields fun field => .text field.1))
        | fieldTypes =>
          refine hfields.bind fun fields _ heq => ?_
          subst heq
          exact .ok (.list (forall₂_map fields fun field => .of_fresh trivial (.type _ .nil)))
      | _ =>
        rw [hname]
        exact .error rfl

/-- A question about a type. -/
theorem queryType (h : EnvRel I E B needs s w env env') (hsound : w.Sound) (q : Query)
    (hd : Draft.Means w d t) :
    Agree Fault.Benign (Draft.Means w) (env.analysis.queryType q d w) (env'.queryType q t) :=
  h.analysis ▸ queryType_of_analysis env' hsound q hd

/-! ### Names -/

/-- A request for something that the body needs. -/
theorem fetch (h : EnvRel I E B needs s w env env') {r : Request ValueId Atom}
    {r' : Request (Tree α) (Tree α)} (hneeds : r.node ∈ needs)
    (hdeclared : r.Declared env.analysis.program) (hr : Request.Means w r r') :
    Sim (Stock.correspondence α I E B) w names names (fun w d t => Draft.Means w d t) (env.fetch r)
      (Eval.ofExcept (env'.request r')) := by
  rw [Env.fetch, ← bind_pure (Eval.ofExcept (env'.request r'))]
  refine (h.request (.refl w) hneeds hdeclared hr).bind fun w₁ id t h₁ hid => ?_
  obtain ⟨a, hatom, ha⟩ := hid
  have hask : Sim (Stock.correspondence α I E B) w₁ names names
      (fun w a t => Draft.Means w (.atom a) t) (Eval.ask fun pool => pool.atomOf id)
      (Pure.pure t) := by
    refine .ask_ok h.invariant h.benign fun q hq _ => ⟨a, ?_, ha.mono hq.keeps⟩
    exact hq.keeps.atomOf hatom
  rw [← bind_pure (Pure.pure t)]
  exact hask.bind fun w₂ a t _ ha => .pure fun w' hw' => ha.mono hw'.keeps

/-- A name is a visible local or a parameter, or a constant variable that the body needs. -/
theorem cases_of_vetName {name : String} {ns : List Node} (h : s.vetName name = .ok ns) :
    name ∈ s.locals ∨ (name ∈ s.params ∨ name ∈ s.typeParams) ∨
      s.program.globals.contains name = true ∧ ns = [.variable name] := by
  unfold Surroundings.vetName at h
  split at h
  · next hbound =>
    simp only [Bool.or_eq_true, List.contains_iff_mem] at hbound
    rcases hbound with (hlocal | hparam) | htype
    · exact .inl hlocal
    · exact .inr (.inl (.inl hparam))
    · exact .inr (.inl (.inr htype))
  · split at h
    · next hglobal => exact .inr (.inr ⟨hglobal, (Except.ok.inj h).symm⟩)
    · split at h
      · cases h
      · split at h <;> cases h

/-- The value of a name. -/
theorem lookup (h : EnvRel I E B needs s w env env') {name : String} {ns : List Node}
    (hvet : s.vetName name = .ok ns) (hneeds : ∀ n ∈ ns, n ∈ needs) :
    Sim (Stock.correspondence α I E B) w s.locals s.locals (fun w d t => Draft.Means w d t)
      (env.lookup name) (env'.lookup name) := by
  refine Sim.get_bind fun m n hn => ?_
  have hfind := ScopesRel.find? hn.scopes name
  have hlater : w.Grows α m.stock.pool := hn.later
  rcases hm : m.scopes.find? name with _ | d
  · rw [hm] at hfind
    have hnone : n.scopes.find? name = none := by
      generalize n.scopes.find? name = v at hfind ⊢
      cases hfind
      rfl
    simp only [hnone]
    have hparam := h.params name
    rcases hp : env.params.get? name with _ | a
    · rw [hp] at hparam
      have hnone' : env'.params.get? name = none := by
        generalize env'.params.get? name = v at hparam ⊢
        cases hparam
        rfl
      simp only [hnone']
      -- vetting has found the name to be bound; it is not a local nor a parameter, so it is a
      -- variable
      rcases cases_of_vetName hvet with hlocal | hbound | ⟨hglobal, rfl⟩
      · have hsome := Scopes.find?_isSome (hn.binds name hlocal)
        rw [hm] at hsome
        cases hsome
      · have hsome := h.bound name hbound
        rw [Dict.contains, hp] at hsome
        cases hsome
      · have hglobal' : env.analysis.program.globals.contains name = true := by
          rwa [← h.program]
        simp only [h.analysis, hglobal', if_true]
        have hdeclared : Request.Declared env.analysis.program (.read name : Request ValueId Atom) :=
          trivial
        exact h.fetch (hneeds _ (List.mem_singleton_self _)) hdeclared (.read name) m n hn
    · rw [hp] at hparam
      generalize env'.params.get? name = v at hparam ⊢
      cases hparam with
      | some ha => exact .ok (.refl hn) hn.binds (ha.mono hlater.keeps)
  · rw [hm] at hfind
    generalize n.scopes.find? name = v at hfind ⊢
    cases hfind with
    | some hd => exact .ok (.refl hn) hn.binds hd

/-- Taking too many steps is reported. -/
theorem shared_exhausted (h : EnvRel I E B needs s w env env') : E env.exhausted :=
  h.benign _ (rfl : env.exhausted.Benign)

/-- The integers of a range. -/
theorem range (h : EnvRel I E B needs s w env env') (start stop : Int64) :
    Sim (Stock.correspondence α I E B) w names names (fun w d t => Draft.Means w d t)
      (env.range start stop) (env'.range start stop) := by
  rw [Env.range, TreeEnv.range, h.exhausted_eq]
  refine (Sim.spend h.shared_exhausted _).bind fun w₁ _ _ _ _ => .pure fun w₂ _ => .list ?_
  rw [Array.toList_map, Array.toList_map]
  exact forall₂_map _ fun i => .scalar _

end EnvRel

/-! ### Fields -/

/-- The fields given so far: the same names in the same order, each once, with values that
correspond. -/
structure FieldsRel {δ ε : Type} (R : δ → ε → Prop) (m : OrderedMap String δ)
    (m' : OrderedMap String ε) : Prop where
  keySet : m.keySet = m'.keySet
  values : List.Forall₂ R m.values m'.values
  nodup : m.keys.Nodup

namespace FieldsRel

variable {δ ε : Type} {R : δ → ε → Prop} {m : OrderedMap String δ} {m' : OrderedMap String ε}

/-- No field is given on either side. -/
theorem empty : FieldsRel R .empty .empty := ⟨rfl, .nil, .nil⟩

/-- A weaker relation between the values. -/
theorem imp {S : δ → ε → Prop} (h : FieldsRel R m m') (himp : ∀ d e, R d e → S d e) :
    FieldsRel S m m' := ⟨h.keySet, h.values.imp fun _ _ => himp _ _, h.nodup⟩

/-- A name is given on both sides or on none. -/
theorem contains_eq (h : FieldsRel R m m') (name : String) :
    m.contains name = m'.contains name := by
  rw [OrderedMap.contains, OrderedMap.contains, h.keySet]

/-- One more field. -/
theorem insert (h : FieldsRel R m m') {name : String} (hnew : m.contains name = false) {d : δ}
    {e : ε} (hd : R d e) : FieldsRel R (m.insert name d) (m'.insert name e) := by
  have hnew' : m'.contains name = false := by rwa [← h.contains_eq]
  refine ⟨?_, ?_, ?_⟩
  · rw [OrderedMap.keySet_insert, OrderedMap.keySet_insert, h.keySet]
  · rw [OrderedMap.values_insert_of_new hnew, OrderedMap.values_insert_of_new hnew']
    exact List.rel_append h.values (.cons hd .nil)
  · exact OrderedMap.nodup_keys_insert h.nodup name d

/-- The entries correspond. -/
theorem entries (h : FieldsRel R m m') :
    List.Forall₂ (fun e e' => e.1 = e'.1 ∧ R e.2 e'.2) m.entries m'.entries := by
  have hkeys : m'.keys = m.keys := by rw [OrderedMap.keys, OrderedMap.keys, h.keySet]
  rw [OrderedMap.entries, OrderedMap.entries, hkeys]
  have hvalues := h.values
  generalize m.keys = ks
  generalize m.values = vs at hvalues ⊢
  generalize m'.values = vs' at hvalues ⊢
  induction hvalues generalizing ks with
  | nil => cases ks <;> exact .nil
  | cons hd _ ih =>
    cases ks with
    | nil => exact .nil
    | cons k ks => exact .cons ⟨rfl, hd⟩ (ih ks)

/-- A field is new on both sides or on none. -/
theorem ensureNewField_eq (h : FieldsRel R m m') (t : TypeDecl) (className name : String) :
    t.ensureNewField className name m = t.ensureNewField className name m' := by
  rw [TypeDecl.ensureNewField, TypeDecl.ensureNewField, h.contains_eq]

/-- A field that passed is new. -/
theorem new_of_ensureNewField {t : TypeDecl} {className name : String}
    (h : t.ensureNewField className name m = .ok ()) : m.contains name = false := by
  unfold TypeDecl.ensureNewField at h
  split at h
  · cases h
  · split at h
    · cases h
    · next hnew => simpa using hnew

/-- A field that is refused is refused with a fault that may be reported. -/
theorem benign_of_ensureNewField {t : TypeDecl} {className name : String} {f : Fault}
    (h : t.ensureNewField className name m = .error f) : f.Benign := by
  unfold TypeDecl.ensureNewField at h
  split at h
  · cases h
    rfl
  · split at h <;> cases h
    rfl

/-- An object is complete on both sides or on none. -/
theorem complete (h : FieldsRel R m m') (t : TypeDecl) (className : String) :
    Agree Fault.Benign (fun fields fields' => (fields.map Prod.fst).Nodup ∧
        List.Forall₂ (fun e e' => e.1 = e'.1 ∧ R e.2 e'.2) fields fields')
      (t.complete className m) (t.complete className m') := by
  rw [TypeDecl.complete, TypeDecl.complete]
  simp only [h.contains_eq]
  cases t.fieldNames.find? fun name => !m'.contains name with
  | some name => exact .error rfl
  | none =>
    refine .ok ⟨?_, h.entries⟩
    rw [OrderedMap.map_fst_entries]
    exact h.nodup

end FieldsRel

end ConstPool
