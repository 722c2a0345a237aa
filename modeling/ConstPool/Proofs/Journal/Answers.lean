import ConstPool.Proofs.Journal.Run

/-!
# The answers that a body gets

A body issues requests, and each of them is answered on the stock that the body has reached by then,
with the cache as it is at that time. The requests and their answers are written into a journal,
which tells two things about a body.

The first is what a body does not ask for. If all requests without a property were to fail with one
fault, a body that issues one of them would fail with this fault. So a body that does the same
whatever the fault is has issued no such request.

The second is where a fault comes from. A body stops at the first request that fails, and it fails
with the fault of that request. So there are two kinds of faults, those that are the last answer of
the journal and those that the body would also have met if the faults of all requests were one and
the same, whatever it is. The latter can be told from the body alone, since no fault of a request
gets through.

* `Env.answers`: the requests that a body issues, with their answers.
* `Env.masked`: the same answers with one fault in place of all faults.
* `Env.run_of_finish_error`: a body that fails before its value is pooled pools nothing any more.
* `Env.journal_of_run_eq`: what is true of the journal of a body that asks for nothing else.
* `Env.answers_of_run_eq`: a body gets answers to nothing else.
* `Env.run_error_cases`: a fault is the last answer, or it is there with masked answers too.
-/

namespace ConstPool

open Draft

variable {env : Env} {body : Expr} {s : Stock} {mask : Fault} {β : Type}

namespace Env

/-- The requests that a body issues, in this order, each with the answer that it gets on the stock
that the body has reached by then. -/
def answers (env : Env) (body : Expr) (s : Stock) : Journal :=
  env.journal (fun r s' => [.ran r ((env.request r).outcome s').1]) body s

/-- The answers to requests with one fault in place of all faults. -/
def masked (env : Env) (mask : Fault) (r : Request ValueId Atom) : Work ValueId := fun s =>
  match env.request r s with
  | .ok id s' => .ok id s'
  | .error _ s' => .error mask s'

/-- With masked answers a request fails with the mask, if at all. -/
theorem outcome_masked (r : Request ValueId Atom) (s : Stock) :
    (env.masked mask r).outcome s = ((((env.request r).outcome s).1.mapError fun _ => mask),
      ((env.request r).outcome s).2) := by
  unfold Work.outcome masked
  cases env.request r s <;> rfl

/-! ### What is not asked for -/

/-- A body that fails pools nothing any more. -/
theorem run_of_finish_error {f : Fault} (h : (env.finish body s).1 = .error f) :
    env.run body s = .error f (env.finish body s).2 := by
  unfold run
  rcases hfinish : env.finish body s with ⟨f' | d, s'⟩
  · rw [hfinish] at h
    cases h
    rfl
  · rw [hfinish] at h
    cases h

/-- What requests with a property add to a journal is all that is added to it, if the body does the
same whatever the answers to other requests are. -/
theorem journal_of_run_eq {P : Request ValueId Atom → Stock → Prop} {K : Journal → Prop}
    {within : Request ValueId Atom → Stock → Journal} (hp : env.analysis.program.Declared)
    (hempty : K []) (hnext : ∀ {j r s'}, K j → P r s' → K (j ++ within r s'))
    (h : ∀ request', (∀ r s', P r s' → request' r s' = env.request r s') →
      (env.answeredBy request').run body s = env.run body s) :
    K (env.journal within body s) := by
  classical
  by_contra hentry
  -- if it were otherwise, the body would fail with any fault given to the other requests
  have hfails : ∀ f : Fault, ∃ s', env.run body s = .error f s' := by
    intro f
    let request' (r : Request ValueId Atom) : Work ValueId := fun s' =>
      if P r s' then env.request r s' else .error f s'
    have hguarded : env.Guarded within (fun j _ => K j) (· = f) request' :=
      { program := hp
        intern := fun _ hj => hj
        request := fun {j s' r} _ hj => by
          by_cases hr : P r s'
          · exact .inl ⟨if_pos hr, hnext hj hr⟩
          · exact .inr ⟨f, if_neg hr, rfl⟩ }
    have hrun := h request' fun r s' hr => if_pos hr
    rcases hguarded.finish body (s := s) hempty with ⟨-, hkept⟩ | ⟨f', hfault, rfl⟩
    · exact absurd hkept hentry
    · exact ⟨_, hrun.symm.trans (run_of_finish_error hfault)⟩
  obtain ⟨s₁, h₁⟩ := hfails (.impure (.recursive ""))
  obtain ⟨s₂, h₂⟩ := hfails (.impure (.selfDependent ""))
  cases h₁.symm.trans h₂

/-- A body gets answers to requests with a property only, if it does the same whatever the answers
to other requests are. -/
theorem answers_of_run_eq {P : Request ValueId Atom → Prop} (hp : env.analysis.program.Declared)
    (h : ∀ request', (∀ r, P r → request' r = env.request r) →
      (env.answeredBy request').run body s = env.run body s) :
    ∀ e ∈ env.answers body s, P e.request := by
  classical
  refine journal_of_run_eq (P := fun r _ => P r) (K := fun j => ∀ e ∈ j, P e.request) hp
    (List.forall_mem_nil _) (fun hj hr => ?_) fun request' hsame => ?_
  · exact List.forall_mem_append.2 ⟨hj, List.forall_mem_singleton.2 hr⟩
  · exact h request' fun r hr => funext fun s' => hsame r s' hr

/-! ### Where a fault comes from -/

end Env

/-- Drafts over a stock of which a journal is kept beside drafts over a stock. The first machine may
stop on its own with the fault that is the last answer of its journal. -/
def Draft.asking : Correspondence Noted Draft Stock Draft where
  World := Unit
  le _ _ := True
  refl _ := trivial
  trans _ _ := trivial
  world _ := ()
  stands _ := Eq
  mono _ h := h
  holds n s := n.stock = s
  shared _ := True
  excused n f := ∃ r, n.journal.getLast? = some (.ran r (.error f))

/-- A step on the stock of which nothing is noted. -/
theorem Sim.unnoted (work : Work β) :
    Sim Draft.asking () [] [] (fun _ => Eq) (Eval.quiet work) (Eval.onStock work) := by
  rintro ⟨⟨s, j⟩, scopes, left⟩ ⟨s', scopes', left'⟩ hn
  obtain rfl : s = s' := hn.holds
  simp only [Eval.quiet, Eval.note, Eval.onStock]
  cases work s with
  | ok b s' => exact .ok ⟨trivial, rfl, hn.scopes, hn.left, .refl _⟩ (List.forall_mem_nil _) rfl
  | error f s' => exact .stop ⟨trivial, rfl, hn.scopes, hn.left, .refl _⟩ (.fault trivial)

/-- A question to the pool, of which nothing is noted. -/
theorem Sim.unnotedAsk (question : Pool → Except Fault β) :
    Sim Draft.asking () [] [] (fun _ => Eq) (Eval.quiet (Work.askPool question))
      (Eval.ask question) := by
  rw [Eval.ask_eq_onStock]
  exact Sim.unnoted _

namespace Env

/-- A request that is answered stands beside the same request with a masked answer. -/
theorem sim_masked (mask : Fault) (r : Request ValueId Atom) :
    Sim Draft.asking () [] [] (fun _ => Eq)
      (Eval.note (env.request r) fun s' => [.ran r ((env.request r).outcome s').1])
      (Eval.onStock (env.masked mask r)) := by
  rintro ⟨⟨s, j⟩, scopes, left⟩ ⟨s', scopes', left'⟩ hn
  obtain rfl : s = s' := hn.holds
  simp only [Eval.note, Eval.onStock, masked, Work.outcome]
  cases env.request r s with
  | ok id s' => exact .ok ⟨trivial, rfl, hn.scopes, hn.left, .refl _⟩ (List.forall_mem_nil _) rfl
  | error f s' => exact .excused (u := s') trivial rfl ⟨r, by simp⟩

/-- A constant from outside. -/
theorem sim_fetch_masked (mask : Fault) (r : Request ValueId Atom) :
    Sim Draft.asking () [] [] (fun _ => Eq)
      (env.notedFetch (fun r s' => [.ran r ((env.request r).outcome s').1]) r)
      ((env.answeredBy (env.masked mask)).fetch r) :=
  Sim.bind_eq (sim_masked mask r) fun _ _ _ =>
    Sim.bind_eq (Sim.unnotedAsk _) fun _ _ _ => Sim.pure fun _ _ => rfl

/-- The value of a name. -/
theorem sim_lookup_masked (mask : Fault) (name : String) :
    Sim Draft.asking () [] [] (fun _ => Eq)
      (env.notedLookup (fun r s' => [.ran r ((env.request r).outcome s').1]) name)
      ((env.answeredBy (env.masked mask)).lookup name) := by
  refine Sim.get_bind fun m n hn => ?_
  have hfind := ScopesRel.find? hn.scopes name
  generalize m.scopes.find? name = x at hfind ⊢
  generalize n.scopes.find? name = y at hfind ⊢
  cases hfind with
  | some hd => exact .ok (.refl hn) hn.binds hd
  | none =>
    have hparams : (env.answeredBy (env.masked mask)).params = env.params := rfl
    rw [hparams]
    rcases env.params.get? name with _ | v
    · have hanalysis : (env.answeredBy (env.masked mask)).analysis = env.analysis := rfl
      dsimp only
      rw [hanalysis]
      split
      · exact sim_fetch_masked mask (.read name) m n hn
      · exact Sim.raise trivial m n hn
    · exact .ok (.refl hn) hn.binds rfl

/-- The steps of a body whose answers are noted go together with those of the body with masked
answers. -/
theorem related_masked (env : Env) (mask : Fault) :
    Interpretation.Related (Draft.asking.correlation ()) (fun _ => Eq) (fun _ => Eq) (fun _ => Eq)
      (fun _ => True) (env.noting fun r s' => [.ran r ((env.request r).outcome s').1])
      (env.answeredBy (env.masked mask)).interpretation where
  toRelated := Draft.asking.control () (fun _ _ => trivial) rfl
  program := rfl
  objectTypes := rfl
  owner := rfl
  scalar _ _ := rfl
  layer _ hl := congrArg Draft.fresh hl.eq_of_parts
  isNull hd := congrArg Draft.isNull hd
  lookup _ name _ := sim_lookup_masked mask name
  range _ a b _ := Sim.bind (Sim.spend trivial _) fun _ _ _ _ _ => Sim.pure fun _ _ => rfl
  ask hq := hq.of_eq (fun _ _ _ => .rfl) (fun _ _ _ h => h)
    (x := fun q => Eval.quiet (Work.askPool (q.onDrafts env.analysis)))
    (y := fun q => Eval.ask (q.onDrafts env.analysis))
    fun _ _ => Sim.unnotedAsk _
  type {w t} _ _ := Sim.ofExcept fun _ _ => by
    rw [t.draft_answeredBy]
    exact .refl fun _ _ => trivial
  constant hd := hd
  poolType {w d e} hd _ := by
    cases hd
    exact Sim.unnoted d.internType
  pool {w d e} hd _ := by
    cases hd
    exact Sim.unnoted d.intern
  typeArgs_mono _ h := h
  args_mono _ h := h
  call {w name f is js as bs} _ his has _ := by
    obtain rfl := List.forall₂_eq_eq_eq ▸ his
    obtain rfl := List.forall₂_eq_eq_eq ▸ has
    exact sim_fetch_masked mask _

/-- A body whose answers are noted ends as the body with masked answers does, or it stops with the
fault that is the last answer. -/
theorem ends_masked (env : Env) (mask : Fault) (body : Expr) (s : Stock) :
    Ends Draft.asking [] (fun _ => Eq) ⟨⟨s, []⟩, [.empty], env.analysis.settings.stepBudget⟩
      (body.evalIn (env.noting fun r s' => [.ran r ((env.request r).outcome s').1])
        ⟨⟨s, []⟩, [.empty], env.analysis.settings.stepBudget⟩)
      (body.eval (env.answeredBy (env.masked mask))
        ⟨s, [.empty], env.analysis.settings.stepBudget⟩) := by
  have hstart : Near Draft.asking () [] ⟨⟨s, []⟩, [.empty], env.analysis.settings.stepBudget⟩
      ⟨s, [.empty], env.analysis.settings.stepBudget⟩ :=
    ⟨trivial, rfl, .cons .empty .nil, rfl, List.cons_ne_nil _ _, List.forall_mem_nil _⟩
  have hends := Expr.related (env.related_masked mask) () body (fun _ _ => trivial) trivial _ _ hstart
  rwa [Expr.eval_eq] at hends

/-- Before its value is pooled a body has failed with the last answer that it got, or it does the
same with masked answers. -/
theorem finish_masked (hp : env.analysis.program.Declared) (mask : Fault) (body : Expr) (s : Stock) :
    (∃ r f, (env.answers body s).getLast? = some (.ran r (.error f)) ∧
        (env.finish body s).1 = .error f) ∨
      (env.answeredBy (env.masked mask)).finish body s = env.finish body s := by
  have hguarded : env.Guarded (fun r s' => [.ran r ((env.request r).outcome s').1])
      (fun _ _ => True) (fun _ => False) env.request :=
    ⟨hp, fun _ _ => trivial, fun _ _ => .inl ⟨rfl, trivial⟩⟩
  have hplain := hguarded.ends body (s := s) trivial
  have hmasked := env.ends_masked mask body s
  change Ends _ _ _ _ (body.eval env _) _ at hplain
  have hbudget : (env.answeredBy (env.masked mask)).analysis = env.analysis := rfl
  have howner : (env.answeredBy (env.masked mask)).owner = env.owner := rfl
  unfold answers journal noted finish
  rw [hbudget, howner]
  generalize body.eval env _ = x at hplain ⊢
  generalize body.evalIn (env.noting _) _ = y at hplain hmasked ⊢
  generalize body.eval (env.answeredBy _) _ = z at hmasked ⊢
  -- the run of which a journal is kept stands between the two others, and goes as the plain one
  cases hplain with
  | ok hafter _ hd =>
    have hstock := hafter.holds.1
    obtain rfl := hd
    cases hmasked with
    | ok hafter' _ hd' =>
      obtain rfl := hd'
      exact .inr (congrArg (Prod.mk _) (hafter'.holds.symm.trans hstock))
  | @stop stop _ _ _ hafter hstop =>
    have hstock := hafter.holds.1
    obtain rfl := hstop.eq fun _ _ h => h
    cases hmasked with
    | stop hafter' hstop' =>
      obtain rfl := hstop'.eq fun _ _ h => h
      have hstocks := hafter'.holds.symm.trans hstock
      right
      cases stop <;> exact congrArg (Prod.mk _) hstocks
    | excused _ _ hlast =>
      obtain ⟨r, hlast⟩ := hlast
      exact .inl ⟨r, _, hlast, rfl⟩
  | excused _ _ hf => exact hf.elim

/-- A body that fails has failed with the last answer that it got, or it does the same with masked
answers. -/
theorem run_error_cases (hp : env.analysis.program.Declared) (mask : Fault) {body : Expr}
    {s : Stock} {f : Fault} (h : ((env.run body).outcome s).1 = .error f) :
    (∃ r, (env.answers body s).getLast? = some (.ran r (.error f))) ∨
      (env.answeredBy (env.masked mask)).run body s = env.run body s := by
  rcases finish_masked hp mask body s with ⟨r, g, hlast, hfinish⟩ | hfinish
  · unfold Work.outcome at h
    rw [run_of_finish_error hfinish] at h
    cases h
    exact .inl ⟨r, hlast⟩
  · refine .inr ?_
    unfold run
    rw [hfinish]

end Env

end ConstPool
