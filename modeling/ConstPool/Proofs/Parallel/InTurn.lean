import ConstPool.Proofs.Parallel.Strands

/-!
# Tasks alone

Where nothing comes in between of its actions, a task does what the computation does that has the
stock for itself. Pooling a draft is the walk through it, a body goes through its steps, a request
is looked up or computed, and a site is answered, each time with the same result and the same stock
in the end. So the evaluation of sites one after another is one of the ways in which their tasks can
go on, and what is said of tasks is said of it too.

A task that has to wait has no result of its own here. Whether it ever has to is another question,
and it is not asked: what is said is that there is no other result.

* `Eval.Same`: parts of bodies that have nothing to do with a stock.
* `Job.Alone`: a job, and the computation that it is if nothing comes in between.
* `Strand.Alone`: the same for the parts of bodies.
* `Analysis.alone_task`, `Analysis.alone_siteTask`: requests and sites.
-/

namespace ConstPool

open Draft

/-! ### Jobs -/

variable {β γ : Type}

/-- A task that goes on when another one has come to its result. -/
theorem Task.run?_bind (x : Task β) (f : β → Task γ) (s : Stock) :
    (x >>= f).run? s = (x.run? s).bind fun y => (f y.1).run? y.2 := by
  induction x generalizing s with
  | done b => rfl
  | act after next ih =>
    rw [Task.act_bind, Task.run?, Task.run?]
    cases after s with
    | none => rfl
    | some s' => exact ih s s'

/-- A job comes to nothing but what the computation comes to, if nothing comes in between. -/
def Job.Alone (job : Job β) (work : Work β) : Prop :=
  ∀ s x, job.run.run? s = some x → work.outcome s = x

namespace Job.Alone

/-- A result that is known in advance. -/
theorem ofExcept (x : Except Fault β) : Alone (Job.ofExcept x) (Work.ofExcept x) := by
  rintro s _ ⟨⟩
  cases x <;> rfl

/-- A value that is returned. -/
theorem pure (b : β) : Alone (Pure.pure b) (Pure.pure b) := ofExcept (.ok b)

/-- A fault. -/
theorem throw (f : Fault) : Alone (β := β) (MonadExcept.throw f) (MonadExcept.throw f) :=
  ofExcept (.error f)

/-- A computation on the stock in one action. -/
theorem once (work : Work β) : Alone (Job.once work) work := by
  rintro s _ ⟨⟩
  rfl

/-- In sequence, if nothing comes in between, the second part starts where the first one ends. -/
theorem bind {job : Job β} {work : Work β} {f : β → Job γ} {g : β → Work γ} (h : Alone job work)
    (hnext : ∀ b, Alone (f b) (g b)) : Alone (job >>= f) (work >>= g) := by
  intro s x hx
  have hrun : (job >>= f).run.run? s =
      (job.run.run? s).bind fun y => (ExceptT.bindCont f y.1).run? y.2 :=
    Task.run?_bind job.run (ExceptT.bindCont f) s
  rw [hrun, Option.bind_eq_some_iff] at hx
  obtain ⟨⟨o, s'⟩, ho, hx⟩ := hx
  have houtcome := h s (o, s') ho
  have hbind : (work >>= g) s = EStateM.bind work g s := rfl
  unfold Work.outcome at houtcome ⊢
  rw [hbind]
  unfold EStateM.bind
  generalize work s = r at houtcome ⊢
  cases r with
  | ok b s'' =>
    cases houtcome
    exact hnext b s' x hx
  | error f s'' =>
    cases houtcome
    cases hx
    rfl

/-- The uses of parts are recorded one after another. -/
theorem link (id : ValueId) (parts : List ValueId) :
    Alone (Job.link id parts)
      (modify fun ⟨pool, uses, memo⟩ => ⟨pool, uses.recordParts id parts, memo⟩) := by
  induction parts with
  | nil => exact pure ()
  | cons part rest ih => exact bind (once _) fun _ => ih

/-- To pool a value in several actions is to pool it, if nothing comes in between. -/
theorem intern (value : Value) : Alone (Job.intern value) (Work.intern value) :=
  bind (once _) fun id => bind (link id value.children) fun _ => pure id

/-- A result is looked up, or it is computed and kept. -/
theorem remember (key : MemoKey) {compute : Job ValueId} {work : Work ValueId}
    (h : Alone compute work) : Alone (Job.remember key compute) (Work.remember key work) := by
  intro s x hx
  unfold Work.outcome Work.remember
  have hrun : (Job.remember key compute).run.run? s = some x := hx
  unfold Job.remember at hrun
  rw [ExceptT.run_mk, Task.run?] at hrun
  generalize s.memo.cells.get? key = cell at hrun ⊢
  rcases cell with _ | _ | o
  · have hbind := Task.run?_bind compute.run (fun outcome =>
      Task.act (fun s => some { s with memo := s.memo.finish key outcome })
        fun _ => .done outcome) { s with memo := s.memo.start key }
    dsimp only at hrun
    rw [hbind, Option.bind_eq_some_iff] at hrun
    obtain ⟨⟨o, s'⟩, ho, hfinish⟩ := hrun
    cases hfinish
    have houtcome := h _ _ ho
    unfold Work.outcome at houtcome
    dsimp only
    generalize work { s with memo := s.memo.start key } = r at houtcome ⊢
    cases r <;> cases houtcome <;> rfl
  · cases hrun
  · cases hrun
    cases o <;> rfl

end Job.Alone

/-! ### Drafts -/

namespace Draft

/-- One layer, pooled in several actions or at once. -/
theorem alone_internLayerBy (layer : Shape Atom ValueId) :
    Job.Alone (internLayerBy Job.intern layer) (internLayerBy Work.intern layer) :=
  .bind (.intern _) fun _ => .pure _

/-- A type argument has to be a constant either way. -/
theorem alone_typeArgumentBy (a : Atom) : Job.Alone (typeArgumentBy a) (typeArgumentBy a) := by
  cases a with
  | scalar s => exact .throw _
  | ref id => exact .pure id

mutual

/-- The walk through a draft. -/
theorem alone_internBy : (d : Draft) →
    Job.Alone (d.internBy Job.intern) (d.internBy Work.intern)
  | .atom a => by
    rw [internBy, internBy]
    exact .pure a
  | .fresh (.text _) => by
    rw [internBy, internBy]
    exact alone_internLayerBy _
  | .fresh (.list ⟨items⟩) => by
    rw [internBy, internBy]
    exact .bind (alone_internItemsBy items _) fun _ => alone_internLayerBy _
  | .fresh (.map entries) => by
    rw [internBy, internBy]
    exact .bind (alone_internEntriesBy entries) fun _ => alone_internLayerBy _
  | .fresh (.object _ fields) => by
    rw [internBy, internBy]
    exact .bind (alone_internFieldsBy fields) fun _ => alone_internLayerBy _
  | .fresh (.type _ args) => by
    rw [internBy, internBy]
    exact .bind (alone_internArgsBy args) fun _ => alone_internLayerBy _

/-- The items of a list. -/
theorem alone_internItemsBy : (items : List Draft) → (done : Array Atom) →
    Job.Alone (internItemsBy Job.intern items done) (internItemsBy Work.intern items done)
  | [], done => by
    rw [internItemsBy, internItemsBy]
    exact .pure done
  | item :: rest, _ => by
    rw [internItemsBy, internItemsBy]
    exact .bind (alone_internBy item) fun _ => alone_internItemsBy rest _

/-- The entries of a map. -/
theorem alone_internEntriesBy : (entries : List (Draft × Draft)) →
    Job.Alone (internEntriesBy Job.intern entries) (internEntriesBy Work.intern entries)
  | [] => by
    rw [internEntriesBy, internEntriesBy]
    exact .pure []
  | (key, value) :: rest => by
    rw [internEntriesBy, internEntriesBy]
    exact .bind (alone_internBy key) fun _ => .bind (alone_internBy value) fun _ =>
      .bind (alone_internEntriesBy rest) fun _ => .pure _

/-- The fields of an object. -/
theorem alone_internFieldsBy : (fields : List (String × Draft)) →
    Job.Alone (internFieldsBy Job.intern fields) (internFieldsBy Work.intern fields)
  | [] => by
    rw [internFieldsBy, internFieldsBy]
    exact .pure []
  | (_, value) :: rest => by
    rw [internFieldsBy, internFieldsBy]
    exact .bind (alone_internBy value) fun _ => .bind (alone_internFieldsBy rest) fun _ => .pure _

/-- The arguments of a type. -/
theorem alone_internArgsBy : (args : List Draft) →
    Job.Alone (internArgsBy Job.intern args) (internArgsBy Work.intern args)
  | [] => by
    rw [internArgsBy, internArgsBy]
    exact .pure []
  | arg :: rest => by
    rw [internArgsBy, internArgsBy]
    exact .bind (alone_internBy arg) fun a => .bind (alone_typeArgumentBy a) fun _ =>
      .bind (alone_internArgsBy rest) fun _ => .pure _

end

/-- A draft is pooled as it is where nothing comes in between. -/
theorem alone_intern (d : Draft) : Job.Alone (d.internBy Job.intern) d.intern :=
  internBy_eq d ▸ alone_internBy d

/-- The argument of a type, pooled in several actions or at once. -/
theorem alone_internType (d : Draft) : Job.Alone (d.internTypeBy Job.intern) d.internType :=
  internTypeBy_eq d ▸ .bind (alone_internBy d) alone_typeArgumentBy

end Draft

/-! ### Strands -/

/-- What may be said of a task to which nothing else happens: it holds of whatever the task comes
to. -/
def Task.alone : Task.Triples Stock where
  Holds Q x s := ∀ b s', x.run? s = some (b, s') → Q b s'
  done := by
    rintro _ _ _ _ h _ _ ⟨⟩
    exact h
  bind {_ _ _ _ x f s} h hnext b s' hrun := by
    rw [Task.run?_bind, Option.bind_eq_some_iff] at hrun
    obtain ⟨⟨c, s''⟩, hc, hrun⟩ := hrun
    exact hnext c s'' (h c s'' hc) b s' hrun
  imp h himp b s' hrun := himp b s' (h b s' hrun)

/-- Machines with the same constants over the same stock. -/
def Stock.same : Correspondence Stock Draft Stock Draft where
  World := Unit
  le _ _ := True
  refl _ := trivial
  trans _ _ := trivial
  world _ := ()
  stands _ d e := d = e
  mono _ h := h
  holds s s' := s = s'
  shared _ := True
  excused _ _ := False

/-- A strand ends as the run does, if nothing comes in between. -/
abbrev Strand.Alone {β γ : Type} (V : Unit → β → γ → Prop) (x : Strand β) (y : Run γ) : Prop :=
  Strand.Follows Task.alone Stock.same (fun _ => False) () V x y

namespace Strand.Alone

/-- A job. -/
theorem perform {β : Type} {job : Job β} {work : Work β} (h : Job.Alone job work) :
    Strand.Alone (fun _ b c => b = c) (Strand.perform job) (Eval.onStock work) := by
  refine Strand.Follows.perform fun s m n hn _ o s' hrun => ?_
  have houtcome := h s (o, s') hrun
  obtain ⟨stock, scopes, left⟩ := n
  have hstock : s = stock := hn.holds
  subst hstock
  have hafter : After Stock.same (m.over s) (m.over s') ⟨s', scopes, left⟩ :=
    ⟨trivial, rfl, hn.scopes, hn.left, .refl _⟩
  unfold Work.outcome at houtcome
  simp only [Eval.onStock]
  generalize work s = x at houtcome ⊢
  cases x <;> cases houtcome
  · exact .ok hafter (List.forall_mem_nil _) rfl
  · exact .stop hafter (.fault trivial)

end Strand.Alone

/-- The value with which a body ends is pooled. -/
theorem Env.alone_settlePool (d : Draft) : Job.Alone (settle.pool d) (do
    let atom ← d.intern
    Work.onPool (Pool.internAtom atom)) :=
  .bind (Draft.alone_intern d) fun _ => .once _

section Env

variable {env : Env} {request : Request ValueId Atom → Job ValueId}
  (hrequest : ∀ r, Job.Alone (request r) (env.request r))

include hrequest

/-- A request within a body. -/
theorem Env.alone_strandFetch (r : Request ValueId Atom) :
    Strand.Alone (fun _ b c => b = c) (strandFetch request r) (env.fetch r) := by
  refine (Strand.Alone.perform (hrequest r)).bind fun _ id id' _ hid => ?_
  subst hid
  have hask : Strand.Alone (fun _ b c => b = c)
      (Strand.perform (Job.ask fun pool => pool.atomOf id)) (Eval.ask fun pool => pool.atomOf id) := by
    rw [Eval.ask_eq_onStock]
    exact .perform (.once _)
  refine hask.bind fun _ a a' _ ha => ?_
  subst ha
  exact .own (.pure _) (.pure fun _ _ => rfl)

/-- The value of a name. -/
theorem Env.alone_strandLookup (name : String) :
    Strand.Alone (fun _ b c => b = c) (env.strandLookup request name) (env.lookup name) := by
  have hlookup : env.lookup name = (do
      (← Eval.local? name).elim
        ((env.params.get? name).elim
          (if env.analysis.program.globals.contains name then env.fetch (.read name)
            else Eval.raise (env.analysis.noValue env.owner name))
          fun x => return .atom x)
        fun d => return d) := by
    unfold Env.lookup Eval.local?
    rw [bind_assoc]
    refine bind_congr fun m => ?_
    rw [pure_bind]
    cases m.scopes.find? name with
    | some d => rfl
    | none => cases env.params.get? name <;> rfl
  rw [hlookup]
  refine (Strand.Follows.local? name).bind fun _ o o' _ ho => ?_
  cases ho with
  | some hd =>
    subst hd
    exact .own (.pure _) (.pure fun _ _ => rfl)
  | none =>
    dsimp only
    cases env.params.get? name with
    | some atom => exact .own (.pure _) (.pure fun _ _ => rfl)
    | none =>
      dsimp only
      split
      · exact Env.alone_strandFetch hrequest _
      · exact .own (.stop _) (.raise trivial)

/-- The steps of a strand are those of the body. -/
theorem Env.alone_strand :
    Interpretation.Related (Strand.following Task.alone Stock.same (fun _ => False) ())
      (fun _ d e => d = e) (fun _ i j => i = j) (fun _ x y => x = y) (fun _ => True)
      (env.strand request) env.interpretation where
  toRelated := Strand.control_related () (fun _ _ => trivial) rfl
  program := rfl
  objectTypes := rfl
  owner := rfl
  scalar _ _ := rfl
  layer _ h := congrArg Draft.fresh h.eq_of_parts
  isNull hd := congrArg Draft.isNull hd
  lookup _ name _ := Env.alone_strandLookup hrequest name
  range _ a b _ := by
    refine Strand.Follows.bind (.own (.spend _ _) (.spend trivial _)) fun _ _ _ _ _ => ?_
    exact .own (.pure _) (.pure fun _ _ => rfl)
  ask hq := by
    refine hq.of_eq (fun _ _ _ => .rfl) (fun _ _ _ h => h) fun q _ => ?_
    show Strand.Alone (fun _ b c => b = c) (Strand.perform (Job.ask (q.onDrafts env.analysis)))
      (Eval.ask (q.onDrafts env.analysis))
    rw [Eval.ask_eq_onStock]
    exact Strand.Alone.perform (.once _)
  type _ _ := .own (.ofExcept _) (.ofExcept fun _ _ => .refl fun _ _ => trivial)
  constant h := h
  poolType hd _ := by
    subst hd
    exact Strand.Alone.perform (Draft.alone_internType _)
  pool hd _ := by
    subst hd
    exact Strand.Alone.perform (Draft.alone_intern _)
  typeArgs_mono _ h := h
  args_mono _ h := h
  call _ htypes hargs _ := by
    rw [List.forall₂_eq_eq_eq] at htypes hargs
    subst htypes
    subst hargs
    exact Env.alone_strandFetch hrequest _

/-- A whole body. -/
theorem Env.alone_task (body : Expr) : Job.Alone (env.task request body) (env.run body) := by
  intro s x hx
  have hbody := Expr.related (Env.alone_strand hrequest) () body (fun _ _ => trivial) trivial s
    ⟨(), [.empty], env.analysis.settings.stepBudget⟩
    ⟨s, [.empty], env.analysis.settings.stepBudget⟩
    ⟨trivial, rfl, .cons .empty .nil, rfl, List.cons_ne_nil _ _, List.forall_mem_nil _⟩
    fun _ _ hf => hf.elim
  rw [Expr.eval_eq] at hbody
  have hrun := Task.run?_bind (body.evalIn (env.strand request)
    ⟨(), [.empty], env.analysis.settings.stepBudget⟩) (fun ended => (env.settle ended).run) s
  have hx' : (env.task request body).run.run? s = some x := hx
  rw [Env.task, ExceptT.run_mk, hrun, Option.bind_eq_some_iff] at hx'
  obtain ⟨⟨ended, s'⟩, hended, hx'⟩ := hx'
  have hends := hbody ended s' hended
  unfold Work.outcome Env.run Env.finish
  generalize body.eval env _ = r at hends ⊢
  have hpool : ∀ {d e : Draft} {t : Stock}, s' = t → d = e →
      (settle.pool d).run.run? s' = some x →
      Work.outcome (do
        let atom ← e.intern
        Work.onPool (Pool.internAtom atom)) t = x := by
    rintro d _ _ rfl rfl hrun
    exact Env.alone_settlePool d s' x hrun
  cases ended with
  | ok d m =>
    cases hends with
    | ok hafter _ hd => exact hpool hafter.holds hd hx'
  | error stop m =>
    cases hends with
    | stop hafter hs =>
      cases hs with
      | result hd => exact hpool hafter.holds hd hx'
      | leaveLoop =>
        cases hx'
        exact congrArg _ hafter.holds.symm
      | nextRound =>
        cases hx'
        exact congrArg _ hafter.holds.symm
      | fault _ =>
        cases hx'
        exact congrArg _ hafter.holds.symm
    | excused _ _ hf => exact hf.elim

end Env

/-! ### Requests and sites -/

namespace Analysis

/-- A request. The induction is on the number of bodies that may still be nested. -/
theorem alone_task (a : Analysis) (callsLeft : Nat) (parent : Option Chain)
    (r : Request ValueId Atom) :
    Job.Alone (a.task callsLeft parent r) (a.resolve callsLeft parent r) := by
  induction callsLeft generalizing parent r with
  | zero =>
    rw [task, resolve]
    exact .bind (.ofExcept _) fun _ => .throw _
  | succ callsLeft ih =>
    rw [task, resolve]
    refine .bind (.ofExcept _) fun body => ?_
    dsimp only
    split
    · exact .bind (.throw _) fun _ => .remember _ (Env.alone_task (ih _) body)
    · exact .remember _ (Env.alone_task (ih _) body)

/-- A call site. -/
theorem alone_siteTask (a : Analysis) (site : Site) :
    Job.Alone (a.siteTask site) (a.resolveSite site) := by
  rw [siteTask, resolveSite_eq]
  exact .bind (.once _) fun r => a.alone_task _ none r

end Analysis

end ConstPool
