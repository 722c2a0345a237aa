import ConstPool.Proofs.Conduct.Resolve
import ConstPool.Proofs.Course.Basic
import ConstPool.Proofs.History
import ConstPool.Proofs.Interpretation.Related

/-!
# More steps

Nothing that a body does depends on how many steps are left, but for whether it may go on. So a body
that may take more steps does what one does that may take fewer, until the latter has none left.
That fault is never caught: whatever waits for the body fails with it, too, and it is the only fault
of this kind in the cache.

Two machines are compared that are in the same state and differ in the steps that are left. As long
as neither cache holds a request that ran out of steps, each part of a body comes to the same on
both, or it runs out of steps on the first one. The relation is that of an interpretation, so it is
proved for each step of a body and follows for whole bodies. From bodies it goes on to requests, by
induction on the bodies that may still be nested: the cache is asked under both budgets, and what
is computed under the smaller one is what is computed under the larger one, or the request is
exhausted and so is all that waits for it. So a request that is exhausted under the larger budget
is exhausted under the smaller one, and the fault names the one body that took too many steps,
however many bodies were waiting for it.

* `Budget.Outlasts`: a part of a body on two machines, of which the second may take more steps.
* `Env.outlasts`: a whole body.
* `Analysis.settles_resolve`: requests under two budgets.
* `Program.invokeUnder_mono`: a budget that is enough is as good as a larger one.
-/

namespace ConstPool

/-- A body has taken too many steps. -/
def Fault.IsExhaustion : Fault → Prop
  | .endless _ _ .steps => True
  | _ => False

/-- A computation has failed because a body took too many steps. -/
def Exhausted {β : Type} (o : Except Fault β) : Prop := ∃ f, o = .error f ∧ f.IsExhaustion

/-! ### The cache -/

/-- No request has failed because a body took too many steps. -/
def Stock.Unspent (s : Stock) : Prop :=
  ∀ key o, s.memo.cells.get? key = some (.done o) → ¬ Exhausted o

/-- All requests that have failed because a body took too many steps have failed with this fault. -/
def Stock.Blames (s : Stock) (f : Fault) : Prop :=
  ∀ key g, s.memo.cells.get? key = some (.done (.error g)) → g.IsExhaustion → g = f

namespace Stock

variable {s : Stock} {f : Fault} {o : Outcome}

/-- Where no request was exhausted, none was with another fault. -/
theorem Unspent.blames (h : s.Unspent) (f : Fault) : s.Blames f :=
  fun key g hcell hg => absurd ⟨g, rfl, hg⟩ (h key _ hcell)

/-- The computation of a key begins. -/
theorem Unspent.start (h : s.Unspent) (key : MemoKey) :
    Unspent { s with memo := s.memo.start key } := by
  intro other o hcell
  rw [Memo.start, Dict.get?_insert] at hcell
  split at hcell
  · cases hcell
  · exact h other o hcell

/-- The computation of a key ends otherwise. -/
theorem Unspent.finish (h : s.Unspent) (key : MemoKey) (ho : ¬ Exhausted o) :
    Unspent { s with memo := s.memo.finish key o } := by
  intro other o' hcell
  rw [Memo.finish, Dict.get?_insert] at hcell
  split at hcell
  · cases hcell
    exact ho
  · exact h other o' hcell

/-- The computation of a key ends with the fault. -/
theorem Blames.finish (h : s.Blames f) (key : MemoKey) :
    Blames { s with memo := s.memo.finish key (.error f) } f := by
  intro other g hcell hg
  rw [Memo.finish, Dict.get?_insert] at hcell
  split at hcell
  · cases hcell
    rfl
  · exact h other g hcell hg

/-- Constants may be pooled. -/
theorem fair_unspent : (Terms.keeping Unspent).Fair where
  dynamic _ _ := trivial
  intern value := Work.conforms_keeping_iff.2 fun s hs => by
    obtain ⟨-, -, hmemo⟩ := Stock.intern_eq value s
    unfold Unspent
    rw [hmemo]
    exact hs

end Stock

namespace Budget

variable {β γ : Type} {V : β → γ → Prop}

/-! ### Computations on the stock -/

/-- How a computation ends under a budget and under a larger one: alike, or the first one has failed
because a body took too many steps, and nothing else is to blame. -/
inductive Settles : Except Fault β × Stock → Except Fault β × Stock → Prop
  | same {o : Except Fault β} {s : Stock} : s.Unspent → ¬ Exhausted o → Settles (o, s) (o, s)
  | exhausted {f : Fault} {s : Stock} {x : Except Fault β × Stock} : f.IsExhaustion →
    s.Blames f → Settles (.error f, s) x

/-- One end of both, after which no cell of the cache is to blame. -/
theorem Settles.of_eq {x : Except Fault β × Stock} (h : x.2.Unspent) : Settles x x := by
  obtain ⟨o, s⟩ := x
  by_cases ho : Exhausted o
  · obtain ⟨f, rfl, hf⟩ := ho
    exact .exhausted hf (h.blames f)
  · exact .same h ho

/-- A result is looked up, or it is computed and kept. -/
theorem Settles.remember {compute compute' : Work ValueId}
    (h : ∀ s : Stock, s.Unspent → Settles (compute.outcome s) (compute'.outcome s)) (key : MemoKey)
    {s : Stock} (hs : s.Unspent) :
    Settles ((Work.remember key compute).outcome s) ((Work.remember key compute').outcome s) := by
  rcases hcell : s.memo.cells.get? key with _ | _ | o
  · rw [Work.outcome_remember_of_none hcell, Work.outcome_remember_of_none hcell]
    have hcompute := h _ (hs.start key)
    generalize compute.outcome _ = x at hcompute ⊢
    generalize compute'.outcome _ = y at hcompute ⊢
    cases hcompute with
    | same hs' ho => exact .same (hs'.finish key ho) ho
    | exhausted hf hblames => exact .exhausted hf (hblames.finish key)
  · rw [Work.outcome_remember_of_running hcell, Work.outcome_remember_of_running hcell]
    exact .of_eq hs
  · rw [Work.outcome_remember_of_done hcell, Work.outcome_remember_of_done hcell]
    exact .of_eq hs

/-! ### Machines -/

/-- Two machines at the same point of a body, of which the second one may take as many steps as the
first one or more. -/
structure Abreast (m n : Machine Stock Draft) : Prop where
  stock : m.stock = n.stock
  scopes : ScopesRel Eq m.scopes n.scopes
  left : m.left ≤ n.left
  unspent : n.stock.Unspent

/-- How a part of a body ends on the two machines: alike, or the first one has failed because a body
took too many steps, and nothing else is to blame. -/
inductive Ends (V : β → γ → Prop) : EStateM.Result (Stop Draft) (Machine Stock Draft) β →
    EStateM.Result (Stop Draft) (Machine Stock Draft) γ → Prop
  | ok {b : β} {c : γ} {m n : Machine Stock Draft} : Abreast m n → V b c →
    Ends V (.ok b m) (.ok c n)
  | stop {s : Stop Draft} {m n : Machine Stock Draft} : Abreast m n →
    (∀ f, s = .fault f → ¬ f.IsExhaustion) → Ends V (.error s m) (.error s n)
  | exhausted {f : Fault} {m : Machine Stock Draft}
      {r : EStateM.Result (Stop Draft) (Machine Stock Draft) γ} :
    f.IsExhaustion → m.stock.Blames f → Ends V (.error (.fault f) m) r

/-- A part of a body does the same on a machine that may take more steps, as long as steps are left
on the other one. -/
def Outlasts (V : β → γ → Prop) (x : Run β) (y : Run γ) : Prop :=
  ∀ m n, Abreast m n → Ends V (x m) (y n)

/-- Machines that go abreast have a stock without exhausted requests. -/
theorem Abreast.blames {m n : Machine Stock Draft} (h : Abreast m n) (f : Fault) :
    m.stock.Blames f := h.stock ▸ h.unspent.blames f

/-- Both machines fail with one fault. -/
theorem Ends.fault {m n : Machine Stock Draft} (h : Abreast m n) (f : Fault) :
    Ends V (.error (.fault f) m) (.error (.fault f) n) := by
  by_cases hf : f.IsExhaustion
  · exact .exhausted hf (h.blames f)
  · refine .stop h fun g hg => ?_
    cases hg
    exact hf

namespace Outlasts

variable {x : Run β} {y : Run γ}

/-- Less is known of the results. -/
theorem imp {W : β → γ → Prop} (h : Outlasts V x y) (himp : ∀ b c, V b c → W b c) :
    Outlasts W x y := by
  intro m n hn
  have hends := h m n hn
  generalize x m = r at hends ⊢
  generalize y n = r' at hends ⊢
  cases hends with
  | ok hn' hV => exact .ok hn' (himp _ _ hV)
  | stop hn' hs => exact .stop hn' hs
  | exhausted hf hblames => exact .exhausted hf hblames

/-- Values that correspond, returned by both runs. -/
theorem pure {b : β} {c : γ} (h : V b c) : Outlasts V (Pure.pure b) (Pure.pure c) :=
  fun _ _ hn => .ok hn h

/-- In sequence: if the first part does not run out of steps, the second one goes on from there. -/
theorem bind {β' γ' : Type} {W : β' → γ' → Prop} {f : β → Run β'} {g : γ → Run γ'}
    (h : Outlasts V x y) (hnext : ∀ b c, V b c → Outlasts W (f b) (g c)) :
    Outlasts W (x >>= f) (y >>= g) := by
  intro m n hn
  have hends := h m n hn
  show Ends W (EStateM.bind x f m) (EStateM.bind y g n)
  unfold EStateM.bind
  generalize x m = r at hends ⊢
  generalize y n = r' at hends ⊢
  cases hends with
  | ok hn' hV => exact hnext _ _ hV _ _ hn'
  | stop hn' hs => exact .stop hn' hs
  | exhausted hf hblames => exact .exhausted hf hblames

/-- A part that stops with a result or jumps. -/
theorem stop {s : Stop Draft} (h : ∀ f, s = .fault f → ¬ f.IsExhaustion) :
    Outlasts V (throw s) (throw s) := fun _ _ hn => .stop hn h

/-- A part that fails. -/
theorem raise (f : Fault) : Outlasts V (Eval.raise f) (Eval.raise f) :=
  fun _ _ hn => .fault hn f

/-- A result that is known. -/
theorem ofExcept (p : Except Fault β) : Outlasts Eq (Eval.ofExcept p) (Eval.ofExcept p) := by
  cases p with
  | ok b => exact .pure rfl
  | error f => exact .raise f

/-- A question to the pool. -/
theorem ask (question : Pool → Except Fault β) :
    Outlasts Eq (Eval.ask question) (Eval.ask question) := by
  intro m n hn
  unfold Eval.ask
  rw [hn.stock]
  cases question n.stock.pool with
  | ok b => exact .ok hn rfl
  | error f => exact .fault hn f

/-- What comes next depends on the machines. -/
theorem get_bind {f : Machine Stock Draft → Run β} {g : Machine Stock Draft → Run γ}
    (h : ∀ m n, Abreast m n → Outlasts V (f m) (g n)) : Outlasts V (get >>= f) (get >>= g) :=
  fun m n hn => h m n hn m n hn

/-- Steps are taken, or none are left. -/
theorem spend {exhausted exhausted' : Fault} (hexhausted : exhausted.IsExhaustion) (steps : Nat) :
    Outlasts (fun _ _ => True) (Eval.spend exhausted steps) (Eval.spend exhausted' steps) := by
  intro m n hn
  have hleft := hn.left
  unfold Eval.spend
  by_cases hm : steps ≤ m.left
  · rw [if_pos hm, if_pos (hm.trans hleft)]
    exact .ok { hn with left := Nat.sub_le_sub_right hleft steps } trivial
  · rw [if_neg hm]
    exact .exhausted hexhausted (hn.blames _)

/-- A computation on the stock. -/
theorem onStock {work work' : Work β}
    (h : ∀ s : Stock, s.Unspent → Settles (work.outcome s) (work'.outcome s)) :
    Outlasts Eq (Eval.onStock work) (Eval.onStock work') := by
  rintro ⟨stock, scopes, left⟩ ⟨_, scopes', left'⟩ hn
  obtain rfl : stock = _ := hn.stock
  have hsettles := h stock hn.unspent
  have hafter : ∀ {s : Stock}, s.Unspent →
      Abreast ⟨s, scopes, left⟩ ⟨s, scopes', left'⟩ := fun hs => ⟨rfl, hn.scopes, hn.left, hs⟩
  unfold Work.outcome at hsettles
  simp only [Eval.onStock]
  generalize work stock = r at hsettles ⊢
  generalize work' stock = r' at hsettles ⊢
  rcases r with ⟨b, s⟩ | ⟨f, s⟩
  · rcases r' with ⟨b', s'⟩ | ⟨f', s'⟩
    · cases hsettles with
      | same hs _ => exact .ok (hafter hs) rfl
    · cases hsettles
  · rcases r' with ⟨b', s'⟩ | ⟨f', s'⟩
    · cases hsettles with
      | exhausted hf hblames => exact .exhausted hf hblames
    · cases hsettles with
      | same hs _ => exact .fault (hafter hs) f
      | exhausted hf hblames => exact .exhausted hf hblames

/-- A computation that changes the cache by no fault is the same for both. -/
theorem work {w : Work β} (h : Work.Conforms (.keeping Stock.Unspent) w) :
    Outlasts Eq (Eval.onStock w) (Eval.onStock w) :=
  .onStock fun s hs => .of_eq (Work.conforms_keeping_iff.1 h s hs)

/-! ### Scopes and loops -/

/-- A part in a scope of its own. -/
theorem inScope {scope scope' : Dict String Draft} (hscope : DictRel Eq scope scope')
    (h : Outlasts V x y) : Outlasts V (Eval.inScope scope x) (Eval.inScope scope' y) := by
  intro m n hn
  have hinner : Abreast { m with scopes := scope :: m.scopes }
      { n with scopes := scope' :: n.scopes } :=
    { hn with scopes := .cons hscope hn.scopes }
  have hclose : ∀ {m' n' : Machine Stock Draft}, Abreast m' n' →
      Abreast { m' with scopes := m'.scopes.tail } { n' with scopes := n'.scopes.tail } :=
    fun hn' => { hn' with scopes := ScopesRel.tail hn'.scopes }
  have hends := h _ _ hinner
  unfold Eval.inScope
  generalize x _ = r at hends ⊢
  generalize y _ = r' at hends ⊢
  cases hends with
  | ok hn' hV => exact .ok (hclose hn') hV
  | stop hn' hs => exact .stop (hclose hn') hs
  | exhausted hf hblames => exact .exhausted hf hblames

/-- A local is declared. -/
theorem declare (name : String) (d : Draft) :
    Outlasts (fun _ _ => True) (Eval.declare name d) (Eval.declare name d) :=
  fun _ _ hn => .ok { hn with scopes := hn.scopes.declare rfl } trivial

/-- A local gets a new value. -/
theorem assign (undeclared : Fault) (name : String) (d : Draft) :
    Outlasts (fun _ _ => True) (Eval.assign undeclared name d) (Eval.assign undeclared name d) := by
  intro m n hn
  have hassign := hn.scopes.assign? name (rfl : d = d)
  unfold Eval.assign
  generalize m.scopes.assign? name d = a at hassign ⊢
  generalize n.scopes.assign? name d = b at hassign ⊢
  cases hassign with
  | some hscopes => exact .ok { hn with scopes := hscopes } trivial
  | none => exact .fault hn _

/-- One round of a loop. -/
theorem round {scope scope' : Dict String Draft} (hscope : DictRel Eq scope scope')
    {body body' : Run Unit} (h : Outlasts (fun _ _ => True) body body') :
    Outlasts Eq (Eval.round scope body) (Eval.round scope' body') := by
  intro m n hn
  have hends := h.inScope hscope m n hn
  unfold Eval.round
  generalize Eval.inScope scope body m = r at hends ⊢
  generalize Eval.inScope scope' body' n = r' at hends ⊢
  cases hends with
  | ok hn' _ => exact .ok hn' rfl
  | @stop s m' n' hn' hs =>
    cases s with
    | nextRound => exact .ok hn' rfl
    | leaveLoop => exact .ok hn' rfl
    | result d => exact .stop hn' hs
    | fault f => exact .stop hn' hs
  | exhausted hf hblames => exact .exhausted hf hblames

/-- A loop with a condition. Its rounds are bounded by the steps that were left at its start, so a
machine that may take more steps may go through more rounds. -/
theorem loop {exhausted exhausted' : Fault} (hexhausted : exhausted.IsExhaustion)
    {test test' : Run Bool} {body body' : Run Unit} (htest : Outlasts Eq test test')
    (hbody : Outlasts (fun _ _ => True) body body') {rounds rounds' : Nat}
    (hrounds : rounds ≤ rounds') :
    Outlasts (fun _ _ => True) (Eval.loop exhausted test body rounds)
      (Eval.loop exhausted' test' body' rounds') := by
  induction rounds generalizing rounds' with
  | zero => exact fun m n hn => .exhausted hexhausted (hn.blames _)
  | succ rounds ih =>
    obtain ⟨rounds', rfl⟩ := Nat.exists_eq_add_of_le' (Nat.lt_of_lt_of_le rounds.succ_pos hrounds)
    refine (spend hexhausted 1).bind fun _ _ _ => htest.bind fun b _ hb => ?_
    subst hb
    cases b
    · exact .pure trivial
    · refine (hbody.round .empty).bind fun b _ hb => ?_
      subst hb
      cases b
      · exact .pure trivial
      · exact ih (Nat.le_of_succ_le_succ hrounds)

end Outlasts

/-- Runs of which the second one may take more steps go together, with equal constants. -/
def outlasting : Correlation Run Run Draft Draft where
  World := Unit
  le _ _ := True
  refl _ := trivial
  trans _ _ := trivial
  stands _ := Eq
  mono _ h := h
  Runs _ V x y := Outlasts (V ()) x y
  pure h := .pure (h () trivial)
  bind h hnext := h.bind fun b c hV => hnext () b c trivial hV
  imp h himp := h.imp (himp ())

end Budget

/-! ### Bodies -/

/-- The same analysis with another budget. -/
def Analysis.withBudget (a : Analysis) (budget : Nat) : Analysis :=
  { a with settings := { a.settings with stepBudget := budget } }

namespace Env

open Budget

/-- The same surroundings under another budget, where requests are answered otherwise. -/
def withBudget (env : Env) (budget : Nat) (request : Request ValueId Atom → Work ValueId) : Env :=
  { env with analysis := env.analysis.withBudget budget, request }

variable {env : Env} {budget : Nat} {request : Request ValueId Atom → Work ValueId}

/-- The fault that a body reports when its steps are used up is an exhaustion. -/
theorem isExhaustion_exhausted (env : Env) : env.exhausted.IsExhaustion := trivial

section Steps

variable (h : ∀ r (s : Stock), s.Unspent →
  Settles ((env.request r).outcome s) ((request r).outcome s))

include h

/-- A constant from outside. -/
theorem outlasts_fetch (r : Request ValueId Atom) :
    Outlasts Eq (env.fetch r) ((env.withBudget budget request).fetch r) := by
  refine (Outlasts.onStock (h r)).bind fun id _ heq => ?_
  subst heq
  refine (Outlasts.ask _).bind fun a _ heq => ?_
  subst heq
  exact .pure rfl

/-- The value of a name. -/
theorem outlasts_lookup (name : String) :
    Outlasts Eq (env.lookup name) ((env.withBudget budget request).lookup name) := by
  refine Outlasts.get_bind fun m n hn => ?_
  have hfind := hn.scopes.find? name
  generalize m.scopes.find? name = o at hfind ⊢
  generalize n.scopes.find? name = o' at hfind ⊢
  cases hfind with
  | some heq => exact .pure heq
  | none =>
    have hparams : (env.withBudget budget request).params = env.params := rfl
    have hprogram : (env.withBudget budget request).analysis.program = env.analysis.program := rfl
    rw [hparams, hprogram]
    cases env.params.get? name with
    | some atom => exact .pure rfl
    | none =>
      dsimp only
      split
      · exact outlasts_fetch h (.read name)
      · exact .raise _

/-- A body under a larger budget takes steps that go together with those under the smaller one. -/
theorem outlasts_related (budget : Nat) : Interpretation.Related outlasting (fun _ => Eq)
    (fun _ => Eq) (fun _ => Eq) (fun _ => True) env.interpretation
    (env.withBudget budget request).interpretation where
  step _ := Outlasts.spend env.isExhaustion_exhausted 1
  result {β γ w V d e} hd := by
    cases hd
    exact Outlasts.stop fun _ hf => nomatch hf
  leaveLoop := Outlasts.stop fun _ hf => nomatch hf
  nextRound := Outlasts.stop fun _ hf => nomatch hf
  fault _ := Outlasts.raise _
  inScope hscope h := Outlasts.inScope hscope h
  round hscope h := Outlasts.round hscope h
  loop htest hbody := Outlasts.get_bind fun m n hn =>
    Outlasts.loop env.isExhaustion_exhausted (htest () trivial) (hbody () trivial) hn.left
  declare {w d e} name hd := by
    cases hd
    exact Outlasts.declare name d
  assign {w d e} name hd := by
    cases hd
    exact Outlasts.assign _ name d
  program := rfl
  objectTypes := rfl
  owner := rfl
  scalar _ _ := rfl
  layer _ hl := congrArg Draft.fresh hl.eq_of_parts
  isNull {w d e} hd := by
    cases hd
    rfl
  lookup _ name := outlasts_lookup h name
  range _ start stop := (Outlasts.spend env.isExhaustion_exhausted _).bind fun _ _ _ => .pure rfl
  ask hq := hq.of_eq (fun _ _ _ => .rfl) (fun _ _ _ h => h)
    (x := fun q => Eval.ask (q.onDrafts env.analysis))
    (y := fun q => Eval.ask (q.onDrafts (env.analysis.withBudget budget)))
    -- the budget is not among what a question reads
    fun q => by
      have hsame : q.onDrafts (env.analysis.withBudget budget) = q.onDrafts env.analysis := by
        cases q <;> rfl
      rw [hsame]
      exact Outlasts.ask _
  type {w t} _ := by
    show Outlasts Eq (Eval.ofExcept (t.draft env))
      (Eval.ofExcept (t.draft (env.withBudget budget request)))
    rw [@TypeExpr.draft_congr env (env.withBudget budget request) rfl rfl rfl t]
    exact Outlasts.ofExcept _
  constant h := h
  poolType {w d e} hd := by
    cases hd
    exact Outlasts.work (Stock.fair_unspent.internType d)
  pool {w d e} hd := by
    cases hd
    exact Outlasts.work (Stock.fair_unspent.draft d)
  typeArgs_mono _ h := h
  args_mono _ h := h
  call {w name f is js as bs} _ his has := by
    obtain rfl := List.forall₂_eq_eq_eq ▸ his
    obtain rfl := List.forall₂_eq_eq_eq ▸ has
    exact outlasts_fetch h _

/-- A whole body. -/
theorem settles_run (hle : env.analysis.settings.stepBudget ≤ budget) (body : Expr) {s : Stock}
    (hs : s.Unspent) :
    Settles ((env.run body).outcome s) (((env.withBudget budget request).run body).outcome s) := by
  have hstart : Abreast ⟨s, [.empty], env.analysis.settings.stepBudget⟩ ⟨s, [.empty], budget⟩ :=
    ⟨rfl, .cons .empty .nil, hle, hs⟩
  have hends := Expr.related (outlasts_related h budget) () body (fun _ _ => trivial) _ _ hstart
  rw [Expr.eval_eq, Expr.eval_eq] at hends
  -- what is left to do after the last step spends nothing, so it is the same on both sides
  have hsettle : ∀ (d : Draft) {m n : Machine Stock Draft}, Abreast m n →
      Settles (d.settle.outcome m.stock) (d.settle.outcome n.stock) := by
    intro d m n hn
    rw [hn.stock]
    exact .of_eq (Work.conforms_keeping_iff.1 (Stock.fair_unspent.settle d) _ hn.unspent)
  have hfail : ∀ (f : Fault) {m n : Machine Stock Draft}, Abreast m n →
      Settles (.error f, m.stock) ((.error f, n.stock) : Outcome × Stock) := by
    intro f m n hn
    rw [hn.stock]
    exact .of_eq hn.unspent
  unfold Work.outcome Env.run Env.finish
  have hbudget : (env.withBudget budget request).analysis.settings.stepBudget = budget := rfl
  rw [hbudget]
  generalize body.eval env _ = r at hends ⊢
  generalize body.eval (env.withBudget budget request) _ = r' at hends ⊢
  cases hends with
  | ok hn hV =>
    cases hV
    exact hsettle _ hn
  | @stop stop m n hn _ =>
    cases stop with
    | result d => exact hsettle d hn
    | leaveLoop => exact hfail _ hn
    | nextRound => exact hfail _ hn
    | fault f => exact hfail f hn
  | exhausted hf hblames => exact .exhausted hf hblames

end Steps

end Env

/-! ### Requests -/

namespace Analysis

open Budget

variable {a : Analysis} {budget : Nat}

/-- A larger budget changes no check of a request. -/
theorem bodyOf_withBudget {τ ρ : Type} (r : Request τ ρ) :
    (a.withBudget budget).bodyOf r = a.bodyOf r := by
  cases r <;> rfl

/-- A request under a budget and under a larger one. The induction is on the number of bodies that
may still be nested. -/
theorem settles_resolve (hle : a.settings.stepBudget ≤ budget) (callsLeft : Nat)
    (parent : Option Chain) (r : Request ValueId Atom) {s : Stock} (hs : s.Unspent) :
    Settles ((a.resolve callsLeft parent r).outcome s)
      (((a.withBudget budget).resolve callsLeft parent r).outcome s) := by
  induction callsLeft generalizing parent r s with
  | zero =>
    rcases hbody : a.bodyOf r with f | body
    · rw [outcome_resolve_of_error hbody,
        outcome_resolve_of_error ((bodyOf_withBudget r).trans hbody)]
      exact .of_eq hs
    · rw [outcome_resolve_zero hbody, outcome_resolve_zero ((bodyOf_withBudget r).trans hbody)]
      exact .of_eq hs
  | succ callsLeft ih =>
    rcases hbody : a.bodyOf r with f | body
    · rw [outcome_resolve_of_error hbody,
        outcome_resolve_of_error ((bodyOf_withBudget r).trans hbody)]
      exact .of_eq hs
    · rcases hrepeated : parent.any fun c => c.contains r.node.name with _ | _
      · rw [resolve_of_passes hbody hrepeated,
          resolve_of_passes ((bodyOf_withBudget r).trans hbody) hrepeated]
        refine Settles.remember (fun s' hs' => ?_) r.key hs
        exact Env.settles_run (fun r' s'' hs'' => ih _ r' hs'') hle body hs'
      · rw [outcome_resolve_of_repeated hbody hrepeated,
          outcome_resolve_of_repeated ((bodyOf_withBudget r).trans hbody) hrepeated]
        exact .of_eq hs

end Analysis

namespace Program

variable (p : Program) (types : Types) (settings : Settings) (pool : Pool) (uses : Uses)
  (r : Request ValueId Atom)

/-- The outcome of a request under a budget, over constants that have been pooled and with nothing
in the cache, and the stock after it. -/
def invokeUnder (budget : Nat) : Outcome × Stock :=
  ((Analysis.build p types { settings with stepBudget := budget }).invoke r).outcome
    ⟨pool, uses, {}⟩

/-- Under a larger budget a request has the same outcome and leaves the same stock, unless it has
failed because a body took too many steps. If it fails for that under the larger budget, it does so
under the smaller one. And whichever body took too many steps, the request fails with its fault. -/
theorem invokeUnder_mono {budget budget' : Nat} (hle : budget ≤ budget') :
    (¬ Exhausted (p.invokeUnder types settings pool uses r budget).1 →
      p.invokeUnder types settings pool uses r budget' =
        p.invokeUnder types settings pool uses r budget) ∧
    (Exhausted (p.invokeUnder types settings pool uses r budget').1 →
      Exhausted (p.invokeUnder types settings pool uses r budget).1) ∧
    ∀ key f, (p.invokeUnder types settings pool uses r budget).2.memo.cells.get? key =
      some (.done (.error f)) → f.IsExhaustion →
        (p.invokeUnder types settings pool uses r budget).1 = .error f := by
  have hfresh : Stock.Unspent ⟨pool, uses, {}⟩ := by
    intro key o hcell
    rw [Dict.get?_empty] at hcell
    cases hcell
  have hsettles : Budget.Settles (p.invokeUnder types settings pool uses r budget)
      (p.invokeUnder types settings pool uses r budget') :=
    Analysis.settles_resolve (a := .build p types { settings with stepBudget := budget }) hle
      settings.maxCallDepth none r hfresh
  generalize p.invokeUnder types settings pool uses r budget = x at hsettles ⊢
  generalize p.invokeUnder types settings pool uses r budget' = y at hsettles ⊢
  cases hsettles with
  | same hs ho =>
    exact ⟨fun _ => rfl, fun h => h, fun key f hcell hf => absurd ⟨f, rfl, hf⟩ (hs key _ hcell)⟩
  | @exhausted f s y hf hblames =>
    refine ⟨fun h => absurd ⟨f, rfl, hf⟩ h, fun _ => ⟨f, rfl, hf⟩, fun key g hcell hg => ?_⟩
    rw [hblames key g hcell hg]

/-- A function that takes four steps, and one that calls it. -/
def nested : Program := .declareAll {} [
  .function { name := "inner", params := [], placement := .topLevel,
              body := .list [.scalar .null, .scalar .null, .scalar .null] },
  .function { name := "outer", params := [], placement := .topLevel,
              body := .call "inner" [] [] }]

/-- The call of the outer function. -/
def callOuter : Request ValueId Atom :=
  .call { name := "outer", params := [], placement := .topLevel, body := .call "inner" [] [] } [] []

/-- Two steps are too few for the inner function, and with it the outer one fails. Four are enough,
so nine are as good. -/
theorem invokeUnder_mono_nested :
    4 ≤ 9 ∧ nested.invokeUnder .empty { maxCallDepth := 2 } {} .empty callOuter 9 =
        nested.invokeUnder .empty { maxCallDepth := 2 } {} .empty callOuter 4 ∧
      (nested.invokeUnder .empty { maxCallDepth := 2 } {} .empty callOuter 4).1 = .ok ⟨0⟩ ∧
      (nested.invokeUnder .empty { maxCallDepth := 2 } {} .empty callOuter 2).1 =
        .error (.endless "inner" 2 .steps) := by
  have hfour : (nested.invokeUnder .empty { maxCallDepth := 2 } {} .empty callOuter 4).1 =
      .ok ⟨0⟩ := by
    with_unfolding_all rfl
  have hmono := nested.invokeUnder_mono .empty { maxCallDepth := 2 } {} .empty callOuter
    (show 4 ≤ 9 by decide)
  refine ⟨by decide, hmono.1 ?_, hfour, by with_unfolding_all rfl⟩
  rw [hfour]
  rintro ⟨f, hf, -⟩
  cases hf

end Program

end ConstPool
