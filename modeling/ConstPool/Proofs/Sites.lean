import ConstPool.Proofs.History
import ConstPool.Session

/-!
# Call sites

The arguments of a site are looked up in the pool, which leaves the stock as it is. If they are
all constants of the pool, the site is a request like any other; else it fails before any body
runs.

To read the arguments changes nothing, so a site on a stock is a request on the same stock. That is
what allows sites to be treated like requests in all that follows: their outcomes are those of
requests that no body has issued.

* `Work.Reads`: a computation that leaves the stock as it is.
* `Site.Stored`: every constant among the arguments of a site lies in the pool.
* `Analysis.reads_siteRequest`: what the request of a site is.
* `Analysis.resolveSite_spec`: what a site comes down to.
-/

namespace ConstPool

open Relation

/-! ### Computations that only read -/

/-- From all stocks of a kind the computation has one result, and it leaves the stock as it is. -/
inductive Work.Reads {β : Type} (S : Stock → Prop) (E : Fault → Prop) (V : β → Prop)
    (work : Work β) : Prop
  | ok {b : β} : (∀ s, S s → work s = .ok b s) → V b → Reads S E V work
  | error {f : Fault} : (∀ s, S s → work s = .error f s) → E f → Reads S E V work

namespace Work

variable {β γ : Type} {S : Stock → Prop} {E : Fault → Prop} {V : β → Prop} {W : γ → Prop}

/-- What follows on a computation that has come to a result. -/
theorem bind_of_ok {work : Work β} {s s' : Stock} {b : β} (h : work s = .ok b s')
    (next : β → Work γ) : (work >>= next) s = next b s' := by
  show EStateM.bind work next s = _
  rw [EStateM.bind, h]

/-- Nothing follows on a computation that has failed. -/
theorem bind_of_error {work : Work β} {s s' : Stock} {f : Fault} (h : work s = .error f s')
    (next : β → Work γ) : (work >>= next) s = .error f s' := by
  show EStateM.bind work next s = _
  rw [EStateM.bind, h]

/-- In sequence, on the same stocks. -/
theorem Reads.bind {work : Work β} {next : β → Work γ} (h : Reads S E V work)
    (hnext : ∀ b, V b → Reads S E W (next b)) : Reads S E W (work >>= next) := by
  cases h with
  | ok hrun hb =>
    cases hnext _ hb with
    | ok hrun' hc => exact .ok (fun s hs => (bind_of_ok (hrun s hs) next).trans (hrun' s hs)) hc
    | error hrun' hf =>
      exact .error (fun s hs => (bind_of_ok (hrun s hs) next).trans (hrun' s hs)) hf
  | error hrun hf => exact .error (fun s hs => bind_of_error (hrun s hs) next) hf

/-- The members of a list one after another. -/
theorem Reads.mapM {f : β → Work γ} {xs : List β} (h : ∀ x ∈ xs, Reads S E W (f x)) :
    Reads S E (fun ys => ∀ y ∈ ys, W y) (xs.mapM f) := by
  induction xs with
  | nil => exact .ok (fun _ _ => rfl) fun _ hy => nomatch hy
  | cons x xs ih =>
    obtain ⟨hx, hxs⟩ := List.forall_mem_cons.1 h
    rw [List.mapM_cons]
    refine hx.bind fun y hy => (ih hxs).bind fun ys hys => ?_
    exact .ok (fun _ _ => rfl) (List.forall_mem_cons.2 ⟨hy, hys⟩)

end Work

/-! ### The arguments of a site -/

/-- Every constant among the arguments of a site lies in the pool. -/
def Site.Stored (pool : Pool) (site : Site) : Prop :=
  ∀ id, .const id ∈ site.types ∨ .const id ∈ site.args → id.index < pool.size

/-- A site is stored in every later pool. -/
theorem Site.Stored.mono {p q : Pool} (hkeeps : p.Keeps q) {site : Site} (h : site.Stored p) :
    site.Stored q := fun id hid => hkeeps.size_le (h id hid)

/-- An identity of a type. -/
def Pool.IsType (pool : Pool) (id : ValueId) : Prop :=
  ∃ name args, pool.get? id = some (.shape (.type name args))

/-- A type is no scalar. -/
theorem Pool.IsType.inPlace {pool : Pool} {id : ValueId} (h : pool.IsType id) :
    (Atom.ref id).InPlace pool := by
  obtain ⟨name, args, hget⟩ := h
  exact ⟨_, hget⟩

namespace Analysis

variable {a : Analysis}

/-- A fault of the pool says that an identity is not known. -/
theorem not_lt_size_of_get {pool : Pool} {id : ValueId} {f : Fault} (h : pool.get id = .error f) :
    ¬ id.index < pool.size := by
  intro hlt
  obtain ⟨value, hvalue⟩ := Option.isSome_iff_exists.1 (Pool.get?_isSome_iff.2 hlt)
  rw [Pool.get_eq_ok_iff.2 hvalue] at h
  cases h

section Arguments

variable {S : Stock → Prop} {E : Fault → Prop} {p : Pool} (hE : ∀ f, Fault.Benign f → E f)
  (target : String) (index : Nat) (arg : Argument)
  (hsame : ∀ id, arg = .const id → ∀ s, S s → s.pool.get id = p.get id)
  (hmissing : ∀ id f, arg = .const id → ¬ id.index < p.size → E f)

include hE hsame hmissing

/-- A value argument is an atom whose scalars are in place, or it is refused. -/
theorem reads_valueArgument : Work.Reads S E (Atom.InPlace p) (valueArgument target index arg) := by
  cases arg with
  | const id =>
    have hatom : ∀ s, S s → s.pool.atomOf id = p.atomOf id := fun s hs => by
      rw [Pool.atomOf, hsame id rfl s hs, Pool.atomOf]
    rcases hget : p.get id with f | value
    · have hfault : p.atomOf id = .error f := by
        rw [Pool.atomOf, hget]
        rfl
      refine .error (f := f) (fun s hs => ?_) (hmissing id f rfl (not_lt_size_of_get hget))
      simp only [valueArgument, Work.askPool, hatom s hs, hfault]
    · have hvalue : ∃ x, p.atomOf id = .ok x ∧ x.InPlace p := by
        rw [Pool.atomOf, hget]
        cases value with
        | scalar v => exact ⟨.scalar v, rfl, trivial⟩
        | shape layer => exact ⟨.ref id, rfl, layer, Pool.get_eq_ok_iff.1 hget⟩
      obtain ⟨x, hx, hinplace⟩ := hvalue
      refine .ok (b := x) (fun s hs => ?_) hinplace
      simp only [valueArgument, Work.askPool, hatom s hs, hx]
  | runtime description => exact .error (fun _ _ => rfl) (hE _ rfl)
  | typeParam name => exact .error (fun _ _ => rfl) (hE _ rfl)

/-- A type argument is a known type, or it is refused. -/
theorem reads_typeArgumentAt : Work.Reads S E p.IsType (typeArgumentAt target index arg) := by
  cases arg with
  | const id =>
    have hask : Work.Reads S E (fun value => p.get id = .ok value)
        (Work.askPool fun pool => pool.get id) := by
      rcases hget : p.get id with f | value
      · refine .error (f := f) (fun s hs => ?_) (hmissing id f rfl (not_lt_size_of_get hget))
        simp only [Work.askPool, hsame id rfl s hs, hget]
      · refine .ok (b := value) (fun s hs => ?_) rfl
        simp only [Work.askPool, hsame id rfl s hs, hget]
    refine hask.bind fun value hget => ?_
    split
    · exact .ok (fun _ _ => rfl) ⟨_, _, Pool.get_eq_ok_iff.1 hget⟩
    · exact .error (fun _ _ => rfl) (hE _ rfl)
  | runtime description => exact .error (fun _ _ => rfl) (hE _ rfl)
  | typeParam name => exact .error (fun _ _ => rfl) (hE _ rfl)

end Arguments

/-- The function of a site, or why there is none. -/
theorem siteFunction_cases (hp : a.program.Declared) (target : Target) :
    (∃ f, a.siteFunction target = .error f ∧ f.Benign) ∨
      ∃ f, a.siteFunction target = .ok f ∧ target = .function f.qualifiedName ∧
        a.program.functions.get? f.qualifiedName = some f := by
  cases target with
  | function name =>
    rw [siteFunction]
    rcases hget : a.program.functions.get? name with _ | f
    · dsimp only
      split
      · exact .inl ⟨.unresolved name .notConstFunction, rfl, rfl⟩
      · exact .inl ⟨.unresolved name .noSuchFunction, rfl, rfl⟩
    · obtain rfl := hp.named hget
      exact .inr ⟨f, rfl, rfl, hget⟩
  | method receiver name => exact .inl ⟨_, rfl, rfl⟩
  | dynamic description => exact .inl ⟨_, rfl, rfl⟩
  | tearOff name => exact .inl ⟨_, rfl, rfl⟩

/-- What is known of the request of a site: it is the call of a function of the program, its type
arguments are types, and its other arguments are in place. -/
def SiteRequest (a : Analysis) (p : Pool) (site : Site) (r : Request ValueId Atom) : Prop :=
  ∃ f types args, r = .call f types args ∧ site.target = .function f.qualifiedName ∧
    r.Declared a.program ∧ (∀ id ∈ types, p.IsType id) ∧ ∀ x ∈ args, x.InPlace p

/-- On all stocks that agree on the arguments of a site, its request fails in one way, or it is one
request. If its arguments are known, it fails in a way that can be reported. -/
theorem reads_siteRequest (hp : a.program.Declared) (site : Site) {S : Stock → Prop} {p : Pool}
    (hsame : ∀ id, .const id ∈ site.types ∨ .const id ∈ site.args →
      ∀ s, S s → s.pool.get id = p.get id) :
    Work.Reads S (fun f => site.Stored p → f.Benign) (a.SiteRequest p site) (a.siteRequest site) := by
  have hE : ∀ f : Fault, f.Benign → site.Stored p → f.Benign := fun _ hf _ => hf
  -- the arguments are read one after another, from constants on which the stocks agree
  have htypes := Work.Reads.mapM fun e (he : e ∈ site.types.zipIdx) =>
    reads_typeArgumentAt hE site.target.name e.2 e.1
      (fun id harg => hsame id (.inl (harg ▸ List.fst_mem_of_mem_zipIdx he)))
      fun id f harg hmissing hstored =>
        absurd (hstored id (.inl (harg ▸ List.fst_mem_of_mem_zipIdx he))) hmissing
  have hargs := Work.Reads.mapM fun e (he : e ∈ site.args.zipIdx) =>
    reads_valueArgument hE site.target.name e.2 e.1
      (fun id harg => hsame id (.inr (harg ▸ List.fst_mem_of_mem_zipIdx he)))
      fun id f harg hmissing hstored =>
        absurd (hstored id (.inr (harg ▸ List.fst_mem_of_mem_zipIdx he))) hmissing
  rw [siteRequest]
  rcases siteFunction_cases hp site.target with ⟨f, hf, hbenign⟩ | ⟨f, hf, htarget, hget⟩
  · rw [hf]
    exact .error (fun _ _ => rfl) fun _ => hbenign
  · have hfunction : Work.Reads S (fun f => site.Stored p → f.Benign) (· = f)
        (Work.ofExcept (a.siteFunction site.target)) := by
      rw [hf]
      exact .ok (fun _ _ => rfl) rfl
    refine hfunction.bind ?_
    rintro g rfl
    refine htypes.bind fun types htypes => hargs.bind fun args hargs => ?_
    exact .ok (fun _ _ => rfl) ⟨g, types, args, rfl, htarget, hget, htypes, hargs⟩

/-- On all stocks that agree on the arguments of a site, the site fails in one way and leaves the
stock as it is, or it is one request for a function of the program, whose type arguments are types
and whose other arguments are in place. If its arguments are known, it fails in a way that can be
reported. -/
theorem resolveSite_spec (hp : a.program.Declared) (site : Site) {S : Stock → Prop} {p : Pool}
    (hsame : ∀ id, .const id ∈ site.types ∨ .const id ∈ site.args →
      ∀ s, S s → s.pool.get id = p.get id) :
    (∃ f, (∀ s, S s → (a.resolveSite site).outcome s = (.error f, s)) ∧
        (site.Stored p → f.Benign)) ∨
      ∃ f types args, site.target = .function f.qualifiedName ∧
        Request.Declared a.program (.call f types args : Request ValueId Atom) ∧
          (∀ id ∈ types, p.IsType id) ∧ (∀ x ∈ args, x.InPlace p) ∧
            ∀ s, S s →
              (a.resolveSite site).outcome s = (a.invoke (.call f types args)).outcome s := by
  rw [resolveSite_eq]
  cases a.reads_siteRequest hp site hsame with
  | error hrun hfault =>
    refine .inl ⟨_, fun s hs => ?_, hfault⟩
    rw [Work.outcome, Work.bind_of_error (hrun s hs)]
  | ok hrun hrequest =>
    obtain ⟨f, types, args, rfl, htarget, hdeclared, htypes, hargs⟩ := hrequest
    refine .inr ⟨f, types, args, htarget, hdeclared, htypes, hargs, fun s hs => ?_⟩
    rw [Work.outcome, Work.bind_of_ok (hrun s hs)]
    rfl

/-- A site is a request whose arguments are in place, if it comes to one. -/
theorem resolveSite_cases (hp : a.program.Declared) (site : Site) (s : Stock) :
    (∃ f, (a.resolveSite site).outcome s = (.error f, s) ∧ (site.Stored s.pool → f.Benign)) ∨
      ∃ f types args, site.target = .function f.qualifiedName ∧
        Request.Declared a.program (.call f types args : Request ValueId Atom) ∧
          Request.InPlace s.pool (.call f types args) ∧
            (a.resolveSite site).outcome s = (a.invoke (.call f types args)).outcome s := by
  have hspec := a.resolveSite_spec hp site (S := (· = s)) (p := s.pool) fun id _ s' hs' => by rw [hs']
  refine hspec.imp ?_ ?_
  · rintro ⟨f, hrun, hbenign⟩
    exact ⟨f, hrun s rfl, hbenign⟩
  · rintro ⟨f, types, args, htarget, hdeclared, htypes, hargs, hrun⟩
    exact ⟨f, types, args, htarget, hdeclared,
      ⟨fun id hid => (htypes id hid).inPlace, hargs⟩, hrun s rfl⟩

end Analysis

end ConstPool
