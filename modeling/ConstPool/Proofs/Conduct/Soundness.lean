import Mathlib
import ConstPool.Proofs.Conduct.Resolve
import ConstPool.Proofs.History
import ConstPool.Proofs.Journal.Answers

/-!
# Vetting is sound

A function whose body passed, called with as many arguments as it has parameters, never meets what
vetting is there to exclude: no jump leaves the body, every name has a value, every type is known,
and every call is one of a constant function with the right numbers of arguments. What remains are
the faults of operators, too many steps, a question about a type that was handed in from outside and
is not known, and the faults of what the body needs.

The faults of what the body needs are not just any faults. While the body runs it is watched which
requests it issues, and what each of them is answered, on the stock that the body has reached by
then (`Env.answers`). If the body fails with a fault that is not its own, the fault is the last of
these answers. And the answer is that of a node which vetting has found, to a request that fits its
declaration.

The terms of a run (`FunctionDecl.terms`) say which faults are admitted; that a vetted body conforms
to them is proved along its syntax, with the surroundings of vetting as the invariant. The numbers
of parameters and of arguments have to agree, and the types among the arguments have to be types:
these are the checks that a request goes through before its body is run.

* `FunctionDecl.OwnFault`: the faults of a body itself.
* `FunctionDecl.run_of_vetted`: no other faults occur, and nothing is requested that vetting has not
  found.
-/

namespace ConstPool

namespace FunctionDecl

/-- The faults that the body of a vetted function may meet itself, if it is called with the given
type arguments: those of operators and values, too many steps, and a question about a type argument
that is not known. -/
inductive OwnFault (a : Analysis) (f : FunctionDecl) (types : List ValueId) (pool : Pool) :
    Fault → Prop
  | runtime (cause : RuntimeCause) : OwnFault a f types pool (.runtime cause)
  | breach (cause : BreachCause) : OwnFault a f types pool (.breach cause)
  | exhausted : OwnFault a f types pool (.endless f.qualifiedName a.settings.stepBudget .steps)
  | unknownType {id : ValueId} {name : String} {args : List ValueId} : id ∈ types →
    pool.get? id = some (.shape (.type name args)) → isKnownType a.types name = false →
      OwnFault a f types pool (.unresolved name .nothingToQuery)

/-- A fault that depends on the values at hand is one of the body itself. -/
theorem OwnFault.of_dynamic {a : Analysis} {f : FunctionDecl} {types : List ValueId} {pool : Pool}
    {fault : Fault} (h : fault.Dynamic) : OwnFault a f types pool fault := by
  cases fault with
  | runtime cause => exact .runtime cause
  | breach cause => exact .breach cause
  | _ => rcases h with h | h <;> cases h

/-- The terms of the body of a vetted function: no constant is lost, and the body fails with faults
of its own or with those of `E`. -/
def terms (a : Analysis) (f : FunctionDecl) (types : List ValueId) (pool : Pool)
    (E : Fault → Prop) : Terms where
  holds s := pool.Keeps s.pool
  admits fault := OwnFault a f types pool fault ∨ E fault

end FunctionDecl

/-- What is in the pool stays there. -/
theorem Stock.stable_keeps (pool : Pool) : Stock.Stable fun s => pool.Keeps s.pool where
  intern value s h := by
    rw [(Stock.intern_eq value s).2.1]
    exact h.trans (s.pool.keeps_intern value)
  memo _ h := h

namespace Request

/-- A request that fits is refused for the verdict on what is requested alone. -/
theorem Fits.bodyOf_eq {τ ρ : Type} {a : Analysis} {r : Request τ ρ} (h : r.Fits a.program) :
    ∃ body, a.bodyOf r = (a.verdict r.node).map fun _ => body := by
  cases r with
  | call f types args =>
    obtain ⟨-, harity, htypeArity⟩ := h
    refine ⟨f.body, ?_⟩
    simp only [Analysis.bodyOf, harity, htypeArity, ne_eq, not_true_eq_false, if_false, node]
    cases a.verdict (.function f.qualifiedName) <;> rfl
  | read name =>
    have hglobal : a.program.globals.contains name = true := h
    rw [OrderedMap.contains_eq, Option.isSome_iff_exists] at hglobal
    obtain ⟨v, hv⟩ := hglobal
    refine ⟨v.value, ?_⟩
    simp only [Analysis.bodyOf, hv, node]
    cases a.verdict (.variable name) <;> rfl

end Request

/-- Handing in a value fails because a part is not known, if at all. -/
theorem Pool.dynamic_of_intern {pool : Pool} {value : Value} {fault : Fault}
    (h : (pool.intern value).1 = .error fault) : fault.Dynamic := by
  unfold Pool.intern at h
  split at h
  · cases h
  · split at h
    · cases h
      exact Fault.dynamic_breach _
    · cases h

/-- A type parameter stands for the type it was given. -/
theorem TypeExpr.draft_param {env : Env} {name : String} {id : ValueId}
    (h : env.params.get? name = some (.ref id)) :
    (TypeExpr.param name).draft env = .ok (.pooled id) := by
  rw [TypeExpr.draft, h]

/-- A type in the pool has its name as a draft. -/
theorem Draft.name_of_shape?_pooled {pool : Pool} {id : ValueId} {name name' : String}
    {args : List ValueId} {args' : List Draft}
    (h : pool.get? id = some (.shape (.type name args)))
    (hshape : (Draft.pooled id).shape? pool = .ok (some (.type name' args'))) : name = name' := by
  unfold Draft.shape? Draft.contents at hshape
  simp only [Pool.get_eq_ok_iff.2 h] at hshape
  cases hshape
  rfl

namespace FunctionDecl

variable {a : Analysis} {f : FunctionDecl} {deps : List Node} {types : List ValueId}
  {args : List Atom} {stock : Stock}

/-- The surroundings of the body of a vetted function, if the requests that vetting has found are
answered in accordance with the terms. -/
theorem equipped (hp : a.program.Declared) (hnodup : (f.params.map Param.name).Nodup)
    (harity : f.arity = args.length) (htypeArity : f.typeArity = types.length)
    (htypes : ∀ id ∈ types, ∃ name args, stock.pool.get? id = some (.shape (.type name args)))
    {chain : Chain} (hchain : chain.name = f.qualifiedName) {E : Fault → Prop}
    {request request' : Request ValueId Atom → Work ValueId}
    (hrequest : ∀ {r : Request ValueId Atom}, r.node ∈ deps → r.Fits a.program →
      request' r = request r ∧ Work.Conforms (f.terms a types stock.pool E) (request r)) :
    Equipped (f.terms a types stock.pool E) deps (f.surroundings a.program a.types)
      ⟨a, chain, (Request.call f types args).params .ref, request⟩ request' where
  fair :=
    { dynamic := fun _ hf => .inl (.of_dynamic hf)
      intern := fun value => Work.conforms_iff.2 fun s hkeeps => by
        refine ⟨(Stock.stable_keeps stock.pool).intern value s hkeeps, fun fault hfault => ?_⟩
        rw [(Stock.intern_eq value s).1] at hfault
        exact .inl (.of_dynamic (Pool.dynamic_of_intern hfault)) }
  exhausted := by
    refine .inl ?_
    rw [Env.exhausted, Env.owner, hchain]
    exact .exhausted
  program := rfl
  types := rfl
  bound _ hname := f.contains_params Atom.ref harity htypeArity hname
  -- the declaration lists the parameter, so an argument is bound to it, and by assumption that one
  -- is a type
  typeParam name hname := by
    have hparam : Param.type name ∈ f.params := by
      obtain ⟨p, hp, hsome⟩ := List.mem_filterMap.1 hname
      cases p with
      | value other => cases hsome
      | type other =>
        cases hsome
        exact hp
    obtain ⟨id, hid, hget⟩ : ∃ id ∈ types,
        (bindParams Atom.ref f.params types args .empty).get? name = some (.ref id) :=
      get?_bindParams_type Atom.ref hnodup hparam (Nat.le_of_eq htypeArity)
    obtain ⟨n, us, hvalue⟩ := htypes id hid
    rw [TypeExpr.draft_param hget]
    refine .ok fun q s hkeeps => (a.results_queryType q _ s.pool).imp_error ?_
    rintro fault (hf | ⟨n', us', hshape, hunknown, rfl⟩)
    · exact .inl (.of_dynamic hf)
    · obtain rfl := Draft.name_of_shape?_pooled (hkeeps id _ hvalue) hshape
      exact .inl (.unknownType hid hvalue hunknown)
  named := hp.named
  request := hrequest

/-- With masked answers a request for what vetting has found loses no constant, and it fails with
the mask. -/
theorem conforms_masked (hs : a.Sound) {pool : Pool} {env : Env} {callsLeft : Nat}
    {parent : Option Chain} (henv : env.request = a.resolve callsLeft parent) {cause : BreachCause}
    {r : Request ValueId Atom} (hfits : r.Fits a.program) :
    Work.Conforms (f.terms a types pool fun _ => False) (env.masked (.breach cause) r) := by
  refine Work.conforms_iff.2 fun s hkeeps => ?_
  rw [Env.outcome_masked, henv]
  refine ⟨?_, fun fault hfault => ?_⟩
  · exact Work.conforms_keeping_iff.1
      (hs.conforms_resolve (Stock.stable_keeps pool) hfits.declared) s hkeeps
  · dsimp only at hfault
    generalize ((a.resolve callsLeft parent r).outcome s).1 = o at hfault
    cases o with
    | ok id => cases hfault
    | error g =>
      cases hfault
      exact .inl (.breach cause)

/-- The body of a vetted function, called with as many arguments as it has parameters and with types
for type arguments. If it fails, the fault is one of its own, or it is the answer that the body has
got to its last request, on the stock that it had reached by then. All that it requests is something
that vetting has found it to need, with the right numbers of arguments: other answers to other
requests make no difference. And what it requests is never refused for the numbers of arguments. -/
theorem run_of_vetted (declarations : List Declaration) (modelled : Types) (settings : Settings)
    {f : FunctionDecl} {deps : List Node} {types : List ValueId} {args : List Atom} {stock : Stock}
    (hf : (Program.declareAll {} declarations).functions.get? f.qualifiedName = some f)
    (hvet : f.vet (.declareAll {} declarations) modelled = .ok deps)
    (harity : f.arity = args.length) (htypeArity : f.typeArity = types.length)
    (htypes : ∀ id ∈ types, ∃ name us, stock.pool.get? id = some (.shape (.type name us)))
    (callsLeft : Nat) (parent : Option Chain) :
    let a := Analysis.build (.declareAll {} declarations) modelled settings
    let chain := Chain.extend parent f.qualifiedName
    let env : Env := ⟨a, chain, (Request.call f types args).params .ref,
      a.resolve callsLeft (some chain)⟩
    (∀ fault, ((env.run f.body).outcome stock).1 = .error fault →
      OwnFault a f types stock.pool fault ∨
        ∃ r, (env.answers f.body stock).getLast? = some (.ran r (.error fault))) ∧
    (∀ e ∈ env.answers f.body stock, e.request.node ∈ deps ∧ e.request.Fits a.program) ∧
    (∀ request', (∀ r, r.node ∈ deps → r.Fits a.program → request' r = env.request r) →
      (env.answeredBy request').run f.body stock = env.run f.body stock) ∧
    ∀ r : Request ValueId Atom, r.Fits a.program → ∀ fault, a.bodyOf r = .error fault →
      a.verdict r.node = .error fault := by
  intro a chain env
  have hp := Program.declared_declareAll declarations
  have hs : a.Sound := Analysis.sound_build hp modelled settings
  have hnodup := Program.nodup_params_declareAll declarations hf
  have hvetted : Vetted deps (f.body.vet (f.surroundings a.program a.types)) :=
    Analysis.vetted_of_map hvet
  have hchain : chain.name = f.qualifiedName := by
    cases parent <;> rfl
  have hkeeps := Pool.Keeps.refl stock.pool
  have hothers : ∀ request', (∀ r, r.node ∈ deps → r.Fits a.program →
      request' r = env.request r) →
        (env.answeredBy request').run f.body stock = env.run f.body stock := by
    intro request' hsame
    -- nothing is asked of the answers here but that no constant is lost
    have hequipped : Equipped (f.terms a types stock.pool fun _ => True) deps
        (f.surroundings a.program a.types) env request' := by
      refine equipped hs.program hnodup harity htypeArity htypes hchain fun {r} hneeds hfits => ?_
      refine ⟨hsame r hneeds hfits, Work.conforms_iff.2 fun s hs' => ⟨?_, fun _ _ => .inr trivial⟩⟩
      exact Work.conforms_keeping_iff.1
        (hs.conforms_resolve (Stock.stable_keeps stock.pool) hfits.declared) s hs'
    exact (hequipped.run rfl rfl hvetted hkeeps).1
  refine ⟨fun fault hfault => ?_, ?_, hothers, fun r hfits fault hbody => ?_⟩
  · -- with masked answers only the faults of the body itself are left
    let mask : Fault := .breach (.outsideCallGraph chain.name chain.depth)
    rcases Env.run_error_cases hs.program mask hfault with hlast | hmasked
    · exact .inr hlast
    · have hequipped : Equipped (f.terms a types stock.pool fun _ => False) deps
          (f.surroundings a.program a.types) (env.answeredBy (env.masked mask))
          (env.masked mask) :=
        equipped hs.program hnodup harity htypeArity htypes hchain fun _ hfits =>
          ⟨rfl, conforms_masked hs rfl hfits⟩
      have hleaves := (hequipped.run rfl rfl hvetted hkeeps).2
      rw [hmasked] at hleaves
      exact .inl (((Work.leaves_iff.1 hleaves).2 fault hfault).resolve_right id)
  · exact Env.answers_of_run_eq (P := fun r => r.node ∈ deps ∧ r.Fits a.program) hs.program
      fun request' hsame => hothers request' fun r hneeds hfits => hsame r ⟨hneeds, hfits⟩
  · obtain ⟨body, heq⟩ := hfits.bodyOf_eq
    rw [heq] at hbody
    generalize a.verdict r.node = x at hbody ⊢
    rcases x with g | _
    · cases hbody
      rfl
    · cases hbody

/-- The function that is one. -/
def one : FunctionDecl where
  name := "one"
  params := []
  body := .scalar (.int 1)
  placement := .topLevel

/-- The function that counts to two at most and then asks for the fields of a type. -/
def fieldsAfterCount : FunctionDecl where
  name := "count"
  params := [.type "T", .value "n"]
  body := .block
    [.declare "i" (.scalar (.int 0)),
      .loop (.binary .lt (.name "i") (.name "n"))
        [.assign "i" (.binary .add (.name "i") (.call "one" [] [])),
          .branch (.binary .eq (.name "i") (.scalar (.int 2))) [.leaveLoop] []]]
    (.query .fieldNames (.param "T"))
  placement := .topLevel

/-- A stock with one constant, a type of which nothing is known. -/
def stockOfType : Stock := ((Work.intern (.shape (.type "Missing" []))).outcome {}).2

/-- The body that counts, asked about a type of which nothing is known. -/
def countEnv : Env where
  analysis := .build (.declareAll {} [.function one, .function fieldsAfterCount]) .empty {}
  chain := Chain.extend none "count"
  params := (Request.call fieldsAfterCount [⟨0⟩] [.scalar (.int 3)]).params .ref
  request := Analysis.resolve
    (.build (.declareAll {} [.function one, .function fieldsAfterCount]) .empty {}) 8
      (some (Chain.extend none "count"))

/-- It needs one function, which it calls twice, and it fails because of the type. -/
theorem run_of_vetted_count :
    fieldsAfterCount.vet countEnv.analysis.program .empty = .ok [.function "one"] ∧
      ((countEnv.run fieldsAfterCount.body).outcome stockOfType).1 =
        .error (.unresolved "Missing" .nothingToQuery) ∧
      (∀ fault, ((countEnv.run fieldsAfterCount.body).outcome stockOfType).1 = .error fault →
        OwnFault countEnv.analysis fieldsAfterCount [⟨0⟩] stockOfType.pool fault ∨
          ∃ r, (countEnv.answers fieldsAfterCount.body stockOfType).getLast? =
            some (.ran r (.error fault))) ∧
      (countEnv.answers fieldsAfterCount.body stockOfType).map (·.request.node) =
        [.function "one", .function "one"] := by
  have hvet : fieldsAfterCount.vet countEnv.analysis.program .empty = .ok [.function "one"] := rfl
  have htypes : ∀ id ∈ [(⟨0⟩ : ValueId)], ∃ name us,
      stockOfType.pool.get? id = some (.shape (.type name us)) := by
    intro id hid
    rw [List.mem_singleton.1 hid]
    exact ⟨"Missing", [], rfl⟩
  exact ⟨hvet, by cbv, (run_of_vetted [.function one, .function fieldsAfterCount] .empty {} rfl
    hvet rfl rfl htypes 8 none).1, by cbv⟩

end FunctionDecl

end ConstPool
