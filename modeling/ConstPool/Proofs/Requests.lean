import ConstPool.Proofs.Nesting

/-!
# Requests and the bodies they come down to

A request that passes the checks has as many arguments as there are parameters. So every parameter
has a value while the body runs, and the key of the request tells what it was.

* `Request.eq_of_key_eq`: two requests that pass are equal if their keys are.
* `Request.Passes.seen`: the body of a request that passes was vetted.
* `Analysis.Sound.envRel`: the surroundings of the body of a request.
-/

namespace ConstPool

open Draft

/-! ### Parameters -/

section Params

variable {τ ρ σ υ : Type}

/-- What is bound stays bound when something else is bound. -/
theorem contains_insert_of_contains {bound : Dict String ρ} {name : String}
    (h : bound.contains name) (other : String) (v : ρ) :
    (bound.insert other v).contains name := by
  rw [Dict.contains_insert, h, Bool.or_true]

/-- With enough arguments every parameter is bound. -/
theorem contains_bindParams (arg : τ → ρ) {name : String} {params : List Param} {types : List τ}
    {args : List ρ} {bound : Dict String ρ}
    (h : (.value name ∈ params ∧
        (params.filterMap fun | .value n => some n | .type _ => none).length ≤ args.length) ∨
      (.type name ∈ params ∧
        (params.filterMap fun | .type n => some n | .value _ => none).length ≤ types.length) ∨
      bound.contains name) :
    (bindParams arg params types args bound).contains name := by
  -- on the parameters, which take the arguments one by one, types and values each from their own
  -- list
  induction params generalizing types args bound with
  | nil =>
    rcases h with ⟨h, -⟩ | ⟨h, -⟩ | h
    · cases h
    · cases h
    · exact h
  | cons p params ih =>
    rcases p with other | other
    · rcases args with _ | ⟨v, args⟩
      · rcases h with ⟨-, hlength⟩ | ⟨h, hlength⟩ | h
        · simp at hlength
        · exact ih (.inr (.inl ⟨by simpa using h, by simpa using hlength⟩))
        · exact ih (.inr (.inr h))
      · rcases h with ⟨h, hlength⟩ | ⟨h, hlength⟩ | h
        · rcases List.mem_cons.1 h with hname | h
          · cases hname
            refine ih (.inr (.inr ?_))
            rw [Dict.contains_insert, decide_eq_true rfl, Bool.true_or]
          · exact ih (.inl ⟨h, by simpa using hlength⟩)
        · exact ih (.inr (.inl ⟨by simpa using h, by simpa using hlength⟩))
        · exact ih (.inr (.inr (contains_insert_of_contains h other v)))
    · rcases types with _ | ⟨t, types⟩
      · rcases h with ⟨h, hlength⟩ | ⟨-, hlength⟩ | h
        · exact ih (.inl ⟨by simpa using h, by simpa using hlength⟩)
        · simp at hlength
        · exact ih (.inr (.inr h))
      · rcases h with ⟨h, hlength⟩ | ⟨h, hlength⟩ | h
        · exact ih (.inl ⟨by simpa using h, by simpa using hlength⟩)
        · rcases List.mem_cons.1 h with hname | h
          · cases hname
            refine ih (.inr (.inr ?_))
            rw [Dict.contains_insert, decide_eq_true rfl, Bool.true_or]
          · exact ih (.inr (.inl ⟨h, by simpa using hlength⟩))
        · exact ih (.inr (.inr (contains_insert_of_contains h other (arg t))))

/-- Arguments that correspond are bound to the same parameters. -/
theorem dictRel_bindParams {R : ρ → υ → Prop} {S : τ → σ → Prop} {arg : τ → ρ} {arg' : σ → υ}
    (harg : ∀ t t', S t t' → R (arg t) (arg' t')) {params : List Param} {types : List τ}
    {types' : List σ} {args : List ρ} {args' : List υ} {bound : Dict String ρ}
    {bound' : Dict String υ} (htypes : List.Forall₂ S types types')
    (hargs : List.Forall₂ R args args') (h : DictRel R bound bound') :
    DictRel R (bindParams arg params types args bound)
      (bindParams arg' params types' args' bound') := by
  induction params generalizing types types' args args' bound bound' with
  | nil => exact h
  | cons p params ih =>
    rcases p with other | other
    · cases hargs with
      | nil => exact ih htypes .nil h
      | cons hv hargs => exact ih htypes hargs (h.insert hv)
    · cases htypes with
      | nil => exact ih .nil hargs h
      | cons ht htypes => exact ih htypes hargs (h.insert (harg _ _ ht))

/-- A name that no parameter has stands for what it stood for. -/
theorem get?_bindParams_of_not_mem (arg : τ → ρ) {name : String} {params : List Param}
    {types : List τ} {args : List ρ} {bound : Dict String ρ}
    (h : name ∉ params.map Param.name) :
    (bindParams arg params types args bound).get? name = bound.get? name := by
  induction params generalizing types args bound with
  | nil => rfl
  | cons p params ih =>
    rw [List.map_cons, List.mem_cons, not_or] at h
    rcases p with other | other
    · rcases args with _ | ⟨v, args⟩
      · exact ih h.2
      · exact (ih h.2).trans (Dict.get?_insert_of_ne _ h.1 _)
    · rcases types with _ | ⟨t, types⟩
      · exact ih h.2
      · exact (ih h.2).trans (Dict.get?_insert_of_ne _ h.1 _)

/-- A type parameter with a name of its own is bound to one of the types. -/
theorem get?_bindParams_type (arg : τ → ρ) {name : String} {params : List Param} {types : List τ}
    {args : List ρ} {bound : Dict String ρ} (hnodup : (params.map Param.name).Nodup)
    (h : .type name ∈ params)
    (hlength : (params.filterMap fun | .type n => some n | .value _ => none).length ≤
      types.length) :
    ∃ t ∈ types, (bindParams arg params types args bound).get? name = some (arg t) := by
  induction params generalizing types args bound with
  | nil => cases h
  | cons p params ih =>
    rw [List.map_cons, List.nodup_cons] at hnodup
    rcases p with other | other
    · have h' : .type name ∈ params := by simpa using h
      rcases args with _ | ⟨v, args⟩
      · exact ih hnodup.2 h' (by simpa using hlength)
      · exact ih hnodup.2 h' (by simpa using hlength)
    · rcases types with _ | ⟨t, types⟩
      · simp at hlength
      · rcases List.mem_cons.1 h with hname | h
        · cases hname
          refine ⟨t, List.mem_cons_self .., ?_⟩
          exact (get?_bindParams_of_not_mem arg hnodup.1).trans (Dict.get?_insert_self ..)
        · obtain ⟨t', ht', hget⟩ : ∃ t' ∈ types, (bindParams arg params types args
              (bound.insert other (arg t))).get? name = some (arg t') :=
            ih hnodup.2 h (by simpa using hlength)
          exact ⟨t', List.mem_cons_of_mem _ ht', hget⟩

end Params

/-- With as many arguments as parameters every parameter of a function is bound. -/
theorem FunctionDecl.contains_params {τ ρ : Type} (f : FunctionDecl) (arg : τ → ρ) {types : List τ}
    {args : List ρ} (harity : f.arity = args.length) (htypeArity : f.typeArity = types.length)
    {name : String} (h : name ∈ f.valueParams ∨ name ∈ f.typeParams) :
    (bindParams arg f.params types args .empty).contains name := by
  refine contains_bindParams arg ?_
  rcases h with h | h
  · obtain ⟨p, hp, hsome⟩ := List.mem_filterMap.1 h
    cases p with
    | value other =>
      cases hsome
      exact .inl ⟨hp, Nat.le_of_eq harity⟩
    | type other => cases hsome
  · obtain ⟨p, hp, hsome⟩ := List.mem_filterMap.1 h
    cases p with
    | value other => cases hsome
    | type other =>
      cases hsome
      exact .inr (.inl ⟨hp, Nat.le_of_eq htypeArity⟩)

/-! ### Requests that pass -/

namespace Request

variable {τ ρ σ υ : Type} {a : Analysis}

/-- A request that is for something declared and passes the checks. -/
structure Passes (a : Analysis) (r : Request τ ρ) (body : Expr) : Prop where
  declared : r.Declared a.program
  bodyOf : a.bodyOf r = .ok body

/-- Only accepted declarations pass. -/
theorem accepts_of_bodyOf {r : Request τ ρ} {body : Expr} (h : a.bodyOf r = .ok body) :
    a.Accepts r.node := by
  cases r with
  | call f types args =>
    obtain ⟨_, hverdict, _⟩ := ok_of_bind h
    exact hverdict
  | read name =>
    obtain ⟨_, hverdict, _⟩ := ok_of_bind h
    exact hverdict

/-- A call that passes has as many arguments as parameters. -/
theorem lengths_of_bodyOf {f : FunctionDecl} {types : List τ} {args : List ρ} {body : Expr}
    (h : a.bodyOf (.call f types args) = .ok body) :
    f.arity = args.length ∧ f.typeArity = types.length ∧ body = f.body := by
  obtain ⟨-, -, h⟩ := ok_of_bind h
  by_cases hargs : f.arity = args.length
  · by_cases htypes : f.typeArity = types.length
    · simp only [hargs, htypes, ne_eq, not_true_eq_false, if_false] at h
      exact ⟨hargs, htypes, (Except.ok.inj h).symm⟩
    · simp only [hargs, htypes, ne_eq, not_true_eq_false, not_false_eq_true, if_false,
        if_true] at h
      cases h
  · simp only [hargs, ne_eq, not_false_eq_true, if_true] at h
    cases h

/-- A call of an accepted function with as many arguments as parameters passes. -/
theorem bodyOf_of_accepts {f : FunctionDecl} {types : List τ} {args : List ρ}
    (haccepts : a.Accepts (.function f.qualifiedName)) (harity : f.arity = args.length)
    (htypeArity : f.typeArity = types.length) : a.bodyOf (.call f types args) = .ok f.body := by
  have hverdict : a.verdict (.function f.qualifiedName) = .ok () := haccepts
  simp only [Analysis.bodyOf, hverdict, harity, htypeArity, ne_eq, not_true_eq_false, if_false]
  rfl

/-- Two calls of one function with equally many types are equal if their keys are. -/
theorem call_eq_of_key_eq {f : FunctionDecl} {types types' : List ValueId} {args args' : List Atom}
    (hlength : types.length = types'.length)
    (hkey : (call f types args).key = (call f types' args').key) :
    call f types args = call f types' args' := by
  simp only [key, MemoKey.ofCall, MemoKey.call.injEq] at hkey
  obtain ⟨htypes, hargs⟩ := List.append_inj hkey.2 (by rwa [List.length_map, List.length_map])
  have href : Function.Injective Atom.ref := fun _ _ h => Atom.ref.inj h
  rw [List.map_injective_iff.2 href htypes, hargs]

/-- Two requests that pass are equal if their keys are. -/
theorem eq_of_key_eq {r r' : Request ValueId Atom} {body body' : Expr} (h : r.Passes a body)
    (h' : r'.Passes a body') (hkey : r.key = r'.key) : r = r' := by
  cases r with
  | call f types args =>
    cases r' with
    | call f' types' args' =>
      have hname : f.qualifiedName = f'.qualifiedName := (MemoKey.call.inj hkey).1
      have hf : f = f' := by
        have hd : a.program.functions.get? f.qualifiedName = some f := h.declared
        have hd' : a.program.functions.get? f'.qualifiedName = some f' := h'.declared
        rw [hname, hd'] at hd
        exact (Option.some.inj hd).symm
      subst hf
      obtain ⟨-, htypes, -⟩ := lengths_of_bodyOf h.bodyOf
      obtain ⟨-, htypes', -⟩ := lengths_of_bodyOf h'.bodyOf
      exact call_eq_of_key_eq (htypes.symm.trans htypes') hkey
    | read name => cases hkey
  | read name =>
    cases r' with
    | call f types args => cases hkey
    | read name' => rw [MemoKey.variable.inj hkey]

/-- The name of the key of a request. -/
theorem name_key (r : Request ValueId Atom) : r.key.name = r.node.name := by
  cases r <;> rfl

/-- Whether a request passes depends on what is requested and on the numbers of arguments. -/
theorem Means.bodyOf_eq {α : Type} [Leaf α] {pool : Pool} {r : Request ValueId Atom}
    {t : Request (Tree α) (Tree α)} (h : Request.Means pool r t) : a.bodyOf r = a.bodyOf t := by
  cases h with
  | call f htypes hargs =>
    simp only [Analysis.bodyOf]
    rw [htypes.length_eq, hargs.length_eq]
  | read name => rfl

/-- A request means at most one request for trees. -/
theorem Means.functional {α : Type} [Leaf α] {pool : Pool} {r : Request ValueId Atom}
    {t t' : Request (Tree α) (Tree α)} (h : Request.Means pool r t)
    (h' : Request.Means pool r t') : t = t' := by
  cases h with
  | call f htypes hargs =>
    cases h' with
    | call _ htypes' hargs' =>
      rw [forall₂_left_unique htypes.flip htypes'.flip fun _ _ _ ht ht' => ht.functional ht',
        forall₂_left_unique hargs.flip hargs'.flip fun _ _ _ ht ht' => ht.functional ht']
  | read name =>
    cases h'
    rfl

/-- What a check finds wrong with a request can be reported. -/
theorem reported_bodyOf (hs : a.Sound) (r : Request τ ρ) : Reported (a.bodyOf r) := by
  cases r with
  | call f types args =>
    have harity : ∀ want got, (Fault.arity f.qualifiedName want got).Benign := fun _ _ => rfl
    refine (hs.reported _).bind fun _ => ?_
    dsimp only
    split
    · exact .error (harity _ _)
    · split
      · exact .error (harity _ _)
      · exact .ok _
  | read name =>
    have hunresolved : (Fault.unresolved name .noSuchVariable).Benign := rfl
    refine (hs.reported _).bind fun _ => ?_
    split
    · exact .ok _
    · exact .error hunresolved

end Request

/-! ### The surroundings of a body -/

namespace Request

/-- What vetting saw of the body of a request: it comes after nothing and lies in no loop, and its
parameters are those that are bound. -/
structure Seen (a : Analysis) (r : Request ValueId Atom) (body : Expr) (s : Surroundings) : Prop
    where
  program : s.program = a.program
  types : s.types = a.types
  locals : s.locals = []
  inLoop : s.inLoop = false
  vetted : Vetted (a.graph.needs.direct r.node) (body.vet s)
  bound : ∀ name, name ∈ s.params ∨ name ∈ s.typeParams → (r.params .ref).contains name
  typeParams : ∀ name ∈ s.typeParams, ∃ f types args, r = .call f types args ∧ name ∈ f.typeParams

/-- The body of a request that passes was vetted. -/
theorem Passes.seen {a : Analysis} (hs : a.Sound) {r : Request ValueId Atom} {body : Expr}
    (h : r.Passes a body) : ∃ s : Surroundings, r.Seen a body s := by
  have haccepts := accepts_of_bodyOf h.bodyOf
  cases r with
  | call f types args =>
    obtain ⟨harity, htypeArity, rfl⟩ := lengths_of_bodyOf h.bodyOf
    obtain ⟨g, hg, hvetted⟩ := hs.functionBody haccepts
    cases hg.symm.trans h.declared
    exact ⟨f.surroundings a.program a.types, rfl, rfl, rfl, rfl, hvetted,
      fun name hname => f.contains_params Atom.ref harity htypeArity hname,
      fun name hname => ⟨f, types, args, rfl, hname⟩⟩
  | read name =>
    obtain ⟨v, hv, hvetted⟩ := hs.variableBody haccepts
    obtain ⟨-, -, hbody⟩ := ok_of_bind h.bodyOf
    rw [hv] at hbody
    cases hbody
    exact ⟨v.surroundings a.program a.types, rfl, rfl, rfl, rfl, hvetted,
      (fun name hname => hname.elim (fun h => nomatch h) fun h => nomatch h),
      fun name hname => nomatch hname⟩

/-- The parameters of a request are bound to what they mean. -/
theorem Means.params {α : Type} [Leaf α] {w : Pool} {r : Request ValueId Atom}
    {t : Request (Tree α) (Tree α)} (h : Request.Means w r t) :
    DictRel (fun a u => Draft.Means w (.atom a) u) (r.params .ref) (t.params id) := by
  cases h with
  | call f htypes hargs =>
    exact dictRel_bindParams (R := fun a u => Draft.Means w (.atom a) u) (fun _ _ ht => ht) htypes
      hargs .empty
  | read name => exact .empty

end Request

section Bodies

variable {α : Type} [Leaf α] [DecidableEq α] {a : Analysis}

/-- What the body of a request meets on drafts and on trees. -/
theorem Analysis.Sound.envRel (hs : a.Sound) {I : Stock → Prop} {E B : Fault → Prop}
    (hI : Stock.Invariant α I) (hE : ∀ f, Fault.Benign f → E f) {r : Request ValueId Atom}
    {t : Request (Tree α) (Tree α)} {body : Expr} (hpasses : r.Passes a body) {w : Pool}
    (hmeans : Request.Means w r t) {chain : Chain} (hchain : chain.name = r.node.name)
    {request : Request ValueId Atom → Work ValueId}
    {request' : Request (Tree α) (Tree α) → Except Fault (Tree α)}
    (hrequest : ∀ {r' t' s}, r'.node ∈ a.graph.needs.direct r.node → r'.Declared a.program →
      I s → Request.Means s.pool r' t' →
        Work.Ends α I E B Pool.Denotes s (request r' s) (request' t')) :
    ∃ s : Surroundings, s.locals = [] ∧ Vetted (a.graph.needs.direct r.node) (body.vet s) ∧
      EnvRel I E B (a.graph.needs.direct r.node) s w
        ⟨a, chain, r.params .ref, request⟩ ⟨a, r.node.name, t.params id, request'⟩ := by
  have hask : ∀ {w' names r' t'}, w.Grows α w' → r'.node ∈ a.graph.needs.direct r.node →
      r'.Declared a.program → Request.Means w' r' t' →
        Sim (Stock.correspondence α I E B) w' names names Pool.Denotes
          (Eval.onStock (request r')) (Eval.ofExcept (request' t')) :=
    fun _ hnode hdeclared hr' => Sim.onStock fun s hgrows hstock =>
      hrequest hnode hdeclared hstock (hr'.mono hgrows.keeps)
  obtain ⟨s, hseen⟩ := hpasses.seen hs
  exact ⟨s, hseen.locals, hseen.vetted, hI, hE, rfl, hchain.symm, hseen.program, hseen.types,
    hmeans.params, hseen.bound, hs.program.named, hask⟩

end Bodies

end ConstPool
