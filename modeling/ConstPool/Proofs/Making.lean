import ConstPool.Proofs.Draft.Made
import ConstPool.Proofs.Interpretation.Machines

/-!
# What a body makes

Whatever a body does, vetted or not: over a pool that has come about by handing in values it makes
drafts of known constants, in the forms that drafts have, and it leaves such a pool behind. The
reason is that each step of it does so, and this is all that a body is made of.

* `Stock.Orderly`: the pool has come about by handing in values, and the cache knows it.
* `Work.Makes`, `Makes`: computations on the stock and runs that keep to this.
* `Machine.Orderly`, `Makes.of_ok`: a machine in order, and what a run makes of it.
* `Env.Supplied.eval`: every expression does.
* `Analysis.supplied`: the surroundings of every body that answers a request.
-/

namespace ConstPool

open Draft Relation

/-! ### Stocks -/

/-- A stock whose pool has come about by handing in values, and whose cache has no other results
than constants of the pool. -/
structure Stock.Orderly (s : Stock) : Prop where
  reached : s.pool.Reached
  results : ∀ {key id}, s.memo.cells.get? key = some (.done (.ok id)) → id.index < s.pool.size

/-- An identity that lies in the pool. -/
abbrev Pool.Knows (pool : Pool) (id : ValueId) : Prop := id.index < pool.size

/-- From every orderly stock that follows on the pool, the computation comes to an orderly stock
that follows, and the result is as wanted. -/
def Work.Makes {β : Type} (p : Pool) (V : Pool → β → Prop) (work : Work β) : Prop :=
  ∀ s : Stock, s.Orderly → p.Leads s.pool →
    (work.outcome s).2.Orderly ∧ s.pool.Leads (work.outcome s).2.pool ∧
      ∀ b, (work.outcome s).1 = .ok b → V (work.outcome s).2.pool b

variable {β γ : Type} {p q w : Pool} {V : Pool → β → Prop}

namespace Work.Makes

/-- A computation that adds to the pool what a draft is made of. -/
theorem of_adds {work : Work β} {d : Draft} (hd : d.Made p)
    (h : ∀ {q} {t : Tree Holding}, Means q d t → Work.Yields Holding q work V)
    (hfair : ∀ {T : Terms}, T.Fair → Work.Conforms T work) : work.Makes p V := by
  intro s hs hleads
  obtain ⟨t, ht⟩ := (hd.mono hleads.keeps).exists_means hs.reached.sound
  obtain ⟨b, s', hrun, hgrows, hb⟩ := h ht s (.refl _) hs.reached.sound
  have hafter : s.pool.Leads s'.pool := by
    have hconforms := hfair (Stock.stable_leads s.pool).fair
    have houtcome := Work.conforms_keeping_iff.1 hconforms s .refl
    rwa [Work.outcome, hrun] at houtcome
  have horderly : s'.Orderly := by
    refine ⟨hs.reached.trans hafter, fun hcell => ?_⟩
    rw [hgrows.memo] at hcell
    exact hafter.keeps.size_le (hs.results hcell)
  rw [Work.outcome, hrun]
  exact ⟨horderly, hafter, fun _ h => Except.ok.inj h ▸ hb⟩

/-- A draft is pooled. -/
theorem intern {d : Draft} (hd : d.Made p) : d.intern.Makes p fun q a => a.Known q :=
  .of_adds hd (fun ht => ht.intern.imp fun _ _ ha => ha.1.made.known) fun hT => hT.draft d

/-- A type is pooled. -/
theorem internType {d : Draft} (hd : d.Made p) (hscalar : d.scalar? = none) :
    d.internType.Makes p Pool.Knows :=
  .of_adds hd (fun ht => (ht.internType hscalar).imp fun _ _ hid => hid.known)
    fun hT => hT.internType d

/-- The constant with which a body ends is pooled. -/
theorem settle {d : Draft} (hd : d.Made p) : Work.Makes p Pool.Knows (do
    let atom ← d.intern
    Work.onPool (Pool.internAtom atom) : Work ValueId) := by
  refine .of_adds hd (fun ht => ?_) fun hT => hT.settle d
  exact (ht.settles (fun _ _ => trivial) trivial).imp fun q id hid => hid.known

end Work.Makes

/-- Drafts over a stock beside themselves: both machines are one. -/
def Draft.making : Correspondence Stock Draft Stock Draft where
  World := Pool
  le := Pool.Leads
  refl _ := .refl
  trans := .trans
  world := Stock.pool
  stands w d e := d.Made w ∧ d = e
  mono h hd := ⟨hd.1.mono (Pool.Leads.keeps h), hd.2⟩
  holds s u := s.Orderly ∧ s = u
  shared _ := True
  excused _ _ := False

/-- The run of a part of a body: from every machine in order with a pool that follows on `w` it
comes to one in order, and the result is as wanted. -/
abbrev Makes (w : Pool) (V : Pool → β → Prop) (x : Run β) : Prop :=
  Sim Draft.making w [] [] (fun q b c => V q b ∧ b = c) x x

namespace Makes

/-- A computation on the stock. -/
theorem onStock {work : Work β} (h : work.Makes w V) : Makes w V (Eval.onStock work) := by
  rintro ⟨stock, scopes, left⟩ ⟨_, scopes', left'⟩ hn
  obtain ⟨hs, rfl⟩ : stock.Orderly ∧ stock = _ := hn.holds
  obtain ⟨hs', hleads, hV⟩ := h stock hs hn.later
  have hafter : After Draft.making ⟨stock, scopes, left⟩ ⟨(work.outcome stock).2, scopes, left⟩
      ⟨(work.outcome stock).2, scopes', left'⟩ :=
    ⟨hleads, ⟨hs', rfl⟩, hn.scopes.imp fun _ _ hd => hd.imp fun _ _ => Draft.making.mono hleads,
      hn.left, .refl _⟩
  unfold Work.outcome at hafter hV
  simp only [Eval.onStock]
  generalize work stock = r at hafter hV ⊢
  cases r with
  | ok b s' => exact .ok hafter (List.forall_mem_nil _) ⟨hV b rfl, rfl⟩
  | error f s' => exact .stop hafter (.fault trivial)

/-- A question to the pool. -/
theorem ask {question : Pool → Except Fault β}
    (h : ∀ q, w.Leads q → q.Reached → Results (fun _ => True) (V q) (question q)) :
    Makes w V (Eval.ask question) := by
  rintro ⟨stock, scopes, left⟩ ⟨_, scopes', left'⟩ hn
  obtain ⟨hs, rfl⟩ : stock.Orderly ∧ stock = _ := hn.holds
  have hresult := h stock.pool hn.later hs.reached
  simp only [Eval.ask]
  generalize question stock.pool = r at hresult ⊢
  cases hresult with
  | ok hV => exact .ok (.refl hn) hn.binds ⟨hV, rfl⟩
  | error _ => exact .stop (.refl hn) (.fault trivial)

/-- A question whose answer means a tree. -/
theorem answer {question : Pool → Except Fault Draft}
    (h : ∀ q, w.Leads q → q.Reached →
      ∃ y : Except Fault (Tree Holding), Agree Fault.Benign (Means q) (question q) y) :
    Makes w (fun q d => d.Made q) (Eval.ask question) := by
  refine .ask fun q hq hreached => ?_
  obtain ⟨y, hy⟩ := h q hq hreached
  exact hy.results (fun _ _ => trivial) fun _ _ hd => hd.made

/-- A question of which nothing is known but that it is the same for both machines. -/
theorem plain (question : Pool → Except Fault β) :
    Sim Draft.making w [] [] (fun _ b c => b = c) (Eval.ask question) (Eval.ask question) := by
  have hask : Makes w (fun _ _ => True) (Eval.ask question) := by
    refine .ask fun q _ _ => ?_
    rcases question q with f | b
    · exact .error trivial
    · exact .ok trivial
  exact hask.imp fun _ _ _ h => h.2

end Makes

/-! ### Machines -/

/-- A machine with an orderly stock, whose locals are drafts of known constants. -/
structure Machine.Orderly (m : Machine Stock Draft) : Prop where
  stock : m.stock.Orderly
  nonempty : m.scopes ≠ []
  locals : ∀ scope ∈ m.scopes, ∀ {name d}, scope.get? name = some d → d.Made m.stock.pool

namespace Machine.Orderly

variable {m m' : Machine Stock Draft}

/-- The machine with which a body begins. -/
theorem start {s : Stock} (hs : s.Orderly) (left : Nat) : Machine.Orderly ⟨s, [.empty], left⟩ where
  stock := hs
  nonempty := List.cons_ne_nil _ _
  locals scope hscope {name d} hd := by
    obtain rfl := List.mem_singleton.1 hscope
    cases hd

/-- A machine in order goes together with itself. -/
theorem near (h : m.Orderly) (hleads : w.Leads m.stock.pool) : Near making w [] m m where
  later := hleads
  holds := ⟨h.stock, rfl⟩
  scopes := by
    refine List.forall₂_same.2 fun scope hscope name => ?_
    rcases hd : scope.get? name with _ | d
    · exact .none
    · exact .some ⟨h.locals scope hscope hd, rfl⟩
  left := rfl
  nonempty := h.nonempty
  binds := List.forall_mem_nil _

/-- A machine that goes together with itself is in order. -/
theorem of_after (h : m.Orderly) (hafter : After making m m' m') : m'.Orderly where
  stock := hafter.holds.1
  nonempty hnil := by
    have hgrow := hafter.grow
    rw [hnil] at hgrow
    exact h.nonempty (List.forall₂_nil_right_iff.1 hgrow)
  locals scope hscope {name d} hd := by
    have hname := List.forall₂_same.1 hafter.scopes scope hscope name
    rw [hd] at hname
    cases hname with
    | some hmade => exact hmade.1

end Machine.Orderly

/-- What a run comes to from a machine in order. -/
theorem Makes.of_ok {x : Run β} (h : Makes w V x) {m m' : Machine Stock Draft} (hm : m.Orderly)
    (hleads : w.Leads m.stock.pool) {b : β} (hrun : x m = .ok b m') :
    m'.Orderly ∧ m.stock.pool.Leads m'.stock.pool ∧ V m'.stock.pool b := by
  have hends := h m m (hm.near hleads)
  rw [hrun] at hends
  cases hends with
  | ok hafter _ hV => exact ⟨hm.of_after hafter, hafter.later, hV.1⟩

/-! ### Surroundings -/

/-- The surroundings of a body from the pool `w` on: the parameters are known, and a request with
known arguments is answered with a known constant or fails. -/
structure Env.Supplied (w : Pool) (env : Env) : Prop where
  params : ∀ {name a}, env.params.get? name = some a → a.Known w
  request : ∀ {q r}, w.Leads q → r.Known q → (env.request r).Makes q Pool.Knows

namespace Env.Supplied

variable {env : Env}

/-- What a body is supplied with stays when the pool goes on. -/
theorem later (h : env.Supplied w) (hleads : w.Leads q) : env.Supplied q where
  params ha := (h.params ha).mono hleads.keeps
  request hq := h.request (hleads.trans hq)

/-- An atom that stands for a known constant is known. -/
theorem known_atomOf {id : ValueId} {a : Atom} (hid : q.Knows id) (h : q.atomOf id = .ok a) :
    a.Known q := by
  rw [Pool.atomOf] at h
  rcases hget : q.get id with f | s | layer
  · rw [hget] at h
    cases h
  · rw [hget] at h
    cases h
    trivial
  · rw [hget] at h
    cases h
    exact hid

/-- A request. -/
theorem fetch (h : env.Supplied w) {r : Request ValueId Atom} (hr : r.Known w) :
    Makes w (fun q d => d.Made q) (env.fetch r) := by
  refine (Makes.onStock (h.request .refl hr)).bind fun q id _ _ hid => ?_
  obtain ⟨hid, rfl⟩ := hid
  have hask : Makes q (fun q a => a.Known q) (Eval.ask fun pool => pool.atomOf id) := by
    refine .ask fun p hp _ => ?_
    rcases hatom : p.atomOf id with f | a
    · exact .error trivial
    · exact .ok (known_atomOf ((Pool.Leads.keeps hp).size_le hid) hatom)
  refine hask.bind fun q' a _ _ ha => ?_
  obtain ⟨ha, rfl⟩ := ha
  exact .pure fun q'' hq'' => ⟨(Made.atom ha).mono (Pool.Leads.keeps hq''), rfl⟩

/-- The value of a name. -/
theorem lookup (h : env.Supplied w) (name : String) :
    Makes w (fun q d => d.Made q) (env.lookup name) := by
  refine Sim.get_bind fun m n hn => ?_
  have hfind := ScopesRel.find? hn.scopes name
  generalize m.scopes.find? name = x at hfind ⊢
  generalize n.scopes.find? name = y at hfind ⊢
  cases hfind with
  | some hd => exact .ok (.refl hn) hn.binds hd
  | none =>
    rcases hparam : env.params.get? name with _ | a
    · dsimp only
      split
      · exact h.fetch (r := .read name) trivial m n hn
      · exact Sim.raise trivial m n hn
    · have ha := (h.later hn.later).params hparam
      exact .ok (.refl hn) hn.binds ⟨.atom ha, rfl⟩

/-- The integers of a range. -/
theorem range (start stop : Int64) : Makes w (fun q d => d.Made q) (env.range start stop) := by
  refine (Sim.spend trivial _).bind fun q _ _ _ _ => .pure fun q' _ => ⟨?_, rfl⟩
  refine .list fun d hd => ?_
  obtain ⟨i, -, rfl⟩ := Array.mem_map.1 (Array.mem_toList_iff.1 hd)
  exact .atom trivial

end Env.Supplied

mutual

/-- A type as a value. -/
theorem TypeExpr.made {env : Env} (h : env.Supplied w) : (t : TypeExpr) →
    Results (fun _ => True) (fun d => d.Made w ∧ d.scalar? = none) (t.draft env)
  | .named name args => by
    rw [TypeExpr.draft]
    cases isKnownType env.analysis.types name
    · exact .error trivial
    · refine (typesMade h args).bind fun ds hds => .ok ⟨?_, rfl⟩
      exact .fresh trivial (List.forall_mem_nil _) (fun d hd => (hds d hd).1)
        fun d hd => (hds d hd).2
  | .param name => by
    rw [TypeExpr.draft]
    rcases hparam : env.params.get? name with _ | _ | id
    · exact .error trivial
    · exact .error trivial
    · exact .ok ⟨.atom (h.params hparam), rfl⟩

/-- A list of types as values. -/
theorem typesMade {env : Env} (h : env.Supplied w) : (ts : List TypeExpr) →
    Results (fun _ => True) (fun ds : List Draft => ∀ d ∈ ds, d.Made w ∧ d.scalar? = none)
      (typeDrafts env ts)
  | [] => .ok (List.forall_mem_nil _)
  | t :: rest => by
    rw [typeDrafts]
    exact (TypeExpr.made h t).bind fun d hd => (typesMade h rest).bind fun ds hds =>
      .ok (List.forall_mem_cons.2 ⟨hd, hds⟩)

end

namespace Env.Supplied

variable {env : Env}

/-- A type goes together with itself as a value. -/
theorem agree_draft (h : env.Supplied w) (t : TypeExpr) :
    Agree (fun _ => True) (fun d e => (d.Made w ∧ d.scalar? = none) ∧ d = e) (t.draft env)
      (t.draft env) := by
  have hmade := TypeExpr.made h t
  generalize t.draft env = x at hmade ⊢
  cases hmade with
  | ok hd => exact .ok ⟨hd, rfl⟩
  | error _ => exact .error trivial

/-- A call with known arguments is known. -/
theorem known_call {f : FunctionDecl} {is js : List ValueId} {as bs : List Atom}
    (htypes : List.Forall₂ (fun i j => q.Knows i ∧ i = j) is js)
    (hargs : List.Forall₂ (fun a b => a.Known q ∧ a = b) as bs) :
    is = js ∧ as = bs ∧ (Request.call f is as).Known q := by
  have htypesEq : List.Forall₂ Eq is js := htypes.imp fun _ _ h => h.2
  have hargsEq : List.Forall₂ Eq as bs := hargs.imp fun _ _ h => h.2
  rw [List.forall₂_eq_eq_eq] at htypesEq hargsEq
  subst htypesEq hargsEq
  refine ⟨rfl, rfl, fun id hid => ?_, fun a ha => ?_⟩
  · exact (List.forall₂_same.1 htypes id hid).1
  · exact (List.forall₂_same.1 hargs a ha).1

/-- The answer to a question about drafts of known constants. -/
theorem answers (a : Analysis) {x : Question Draft β} {y : Question Draft γ}
    {U : (Draft.making.correlation w).World → β → γ → Prop}
    (h : x.Rel (Draft.making.correlation w) (fun q d e => (d.Made q ∧ d.scalar? = none) ∧ d = e) p y
      U) :
    Sim Draft.making p [] [] U (Eval.ask (x.onDrafts a)) (Eval.ask (y.onDrafts a)) := by
  -- what the answers are is known on trees, and a draft of known constants means one
  have hmeans : ∀ {q d}, p.Leads q → q.Reached → d.Made p → ∃ t : Tree Holding, Means q d t :=
    fun hq hreached hd => (hd.mono hq.keeps).exists_means hreached.sound
  cases h with
  | unary op hd =>
    obtain ⟨hd, rfl⟩ := hd
    refine Makes.answer fun q hq hreached => ?_
    obtain ⟨t, ht⟩ := hmeans hq hreached hd
    exact ⟨_, ht.unary op⟩
  | binary op hl hr =>
    obtain ⟨hl, rfl⟩ := hl
    obtain ⟨hr, rfl⟩ := hr
    refine Makes.answer fun q hq hreached => ?_
    obtain ⟨t, ht⟩ := hmeans hq hreached hl
    obtain ⟨u, hu⟩ := hmeans hq hreached hr
    exact ⟨_, ht.binary hreached.sound op hu⟩
  | truth role hd =>
    obtain ⟨-, rfl⟩ := hd
    exact Makes.plain _
  | integer role hd =>
    obtain ⟨-, rfl⟩ := hd
    exact Makes.plain _
  | @elements d _ hd =>
    obtain ⟨hd, rfl⟩ := hd
    have hask : Makes p (fun q ds => ∀ d ∈ ds, d.Made q) (Eval.ask fun q => d.elements q) := by
      refine Makes.ask fun q hq hreached => ?_
      obtain ⟨t, ht⟩ := hmeans hq hreached hd
      refine ht.elements.results (fun _ _ => trivial) fun ds ts hds d hmem => ?_
      obtain ⟨u, -, hu⟩ := exists_of_forall₂ hds hmem
      exact hu.made
    refine hask.imp fun q ds es hds => ?_
    obtain ⟨hds, rfl⟩ := hds
    exact List.forall₂_same.2 fun d hd => ⟨hds d hd, rfl⟩
  | @newKey _ _ given given' hk hgiven =>
    obtain ⟨-, rfl⟩ := hk
    have heq : List.Forall₂ Eq given.toList given'.toList :=
      hgiven.imp fun _ _ he => Prod.ext he.1.2 he.2.2
    rw [List.forall₂_eq_eq_eq] at heq
    obtain rfl := Array.toList_inj.1 heq
    exact (Makes.plain _).imp fun _ _ _ _ => trivial
  | index ht hp =>
    obtain ⟨ht, rfl⟩ := ht
    obtain ⟨hp, rfl⟩ := hp
    refine Makes.answer fun q hq hreached => ?_
    obtain ⟨t, ht⟩ := hmeans hq hreached ht
    obtain ⟨u, hu⟩ := hmeans hq hreached hp
    exact ⟨_, ht.index hreached.sound hu⟩
  | member name ht =>
    obtain ⟨ht, rfl⟩ := ht
    refine Makes.answer fun q hq hreached => ?_
    obtain ⟨t, ht⟩ := hmeans hq hreached ht
    exact ⟨_, ht.member name⟩
  | query k ht =>
    obtain ⟨⟨ht, -⟩, rfl⟩ := ht
    refine Makes.answer fun q hq hreached => ?_
    obtain ⟨t, ht⟩ := hmeans hq hreached ht
    exact ⟨_, EnvRel.queryType_of_analysis ⟨a, "", .empty, fun _ => .ok t⟩ hreached.sound k ht⟩
  | message hd =>
    obtain ⟨-, rfl⟩ := hd
    exact Makes.plain _

/-- The steps of a body go together with themselves. -/
theorem related (h : env.Supplied w) :
    Interpretation.Related (Draft.making.correlation w)
      (fun q d e => (d.Made q ∧ d.scalar? = none) ∧ d = e) (fun q i j => q.Knows i ∧ i = j)
      (fun q a b => a.Known q ∧ a = b) (fun _ => True) env.interpretation env.interpretation where
  toRelated := Draft.making.control w (fun _ _ => trivial) rfl
  program := rfl
  objectTypes := rfl
  owner := rfl
  scalar _ s := ⟨.atom trivial, rfl⟩
  layer {q l m} hordered hlayer := by
    -- no type is written as a layer, so a layer that a body builds has no type arguments
    have hargs : ∀ d ∈ l.argList, False := fun d hd => by
      obtain ⟨_, -, hfalse⟩ := exists_of_forall₂ hlayer.argList hd
      exact hfalse
    have hparts : ∀ d ∈ l.partList, d.Made q := fun d hd => by
      obtain ⟨_, -, hmade⟩ := exists_of_forall₂ hlayer.partList hd
      exact hmade.1
    have heq : l = m := (hlayer.imp (fun _ _ hd => hd.2) fun _ _ hfalse => hfalse.elim).eq
    refine ⟨.fresh hordered hparts (fun d hd => (hargs d hd).elim)
      fun d hd => (hargs d hd).elim, ?_⟩
    rw [heq]
  isNull hd := congrArg Draft.isNull hd.2
  lookup q name hle := (h.later hle).lookup name
  range q a b _ := Env.Supplied.range a b
  ask hq _ := answers env.analysis hq
  type {q t} _ hle := Sim.ofExcept fun q' hle' =>
    agree_draft (h.later (ReflTransGen.trans hle hle')) t
  constant hd := ⟨hd.1.1, hd.2⟩
  poolType {q d e} hd _ := by
    obtain ⟨⟨hmade, hscalar⟩, rfl⟩ := hd
    exact Makes.onStock (Work.Makes.internType hmade hscalar)
  pool {q d e} hd _ := by
    obtain ⟨hmade, rfl⟩ := hd
    exact Makes.onStock (Work.Makes.intern hmade)
  typeArgs_mono hle hi := ⟨Pool.Keeps.size_le (Pool.Leads.keeps hle) hi.1, hi.2⟩
  args_mono hle ha := ⟨Atom.Known.mono ha.1 (Pool.Leads.keeps hle), ha.2⟩
  call {q name f is js as bs} _ htypes hargs hle := by
    obtain ⟨rfl, rfl, hknown⟩ := known_call (f := f) htypes hargs
    exact (h.later hle).fetch hknown

/-- The value of an expression. -/
theorem eval (h : env.Supplied w) (e : Expr) : Makes w (fun q d => d.Made q) (e.eval env) := by
  have hrelated := Expr.related h.related w e fun _ _ => trivial
  rw [Expr.eval_eq] at hrelated
  exact hrelated .refl

/-- The value with which a body ends. -/
theorem finish (h : env.Supplied w) (body : Expr) {s : Stock} (hs : s.Orderly)
    (hleads : w.Leads s.pool) :
    (env.finish body s).2.Orderly ∧ s.pool.Leads (env.finish body s).2.pool ∧
      ∀ d, (env.finish body s).1 = .ok d → d.Made (env.finish body s).2.pool := by
  have hstart := Machine.Orderly.start hs env.analysis.settings.stepBudget
  have hends := h.eval body _ _ (hstart.near hleads)
  have hfault : ∀ {s' : Stock} {f : Fault} (d : Draft),
      (Except.error f : Except Fault Draft) = .ok d → d.Made s'.pool := by
    rintro s' f d ⟨⟩
  unfold Env.finish
  generalize body.eval env _ = r at hends ⊢
  cases hends with
  | ok hafter _ hd =>
    exact ⟨hafter.holds.1, hafter.later, fun _ h => Except.ok.inj h ▸ hd.1⟩
  | stop hafter hstop =>
    cases hstop with
    | result hd => exact ⟨hafter.holds.1, hafter.later, fun _ h => Except.ok.inj h ▸ hd.1⟩
    | leaveLoop => exact ⟨hafter.holds.1, hafter.later, hfault⟩
    | nextRound => exact ⟨hafter.holds.1, hafter.later, hfault⟩
    | fault _ => exact ⟨hafter.holds.1, hafter.later, hfault⟩
  | excused _ _ hf => exact hf.elim

/-- A whole body. -/
theorem run (h : env.Supplied w) (body : Expr) : (env.run body).Makes w Pool.Knows := by
  intro s hs hleads
  have hfinish := h.finish body hs hleads
  unfold Work.outcome Env.run
  generalize env.finish body s = x at hfinish ⊢
  obtain ⟨f | d, s'⟩ := x
  · exact ⟨hfinish.1, hfinish.2.1, by rintro id ⟨⟩⟩
  · obtain ⟨hs', hleads', hd⟩ := hfinish
    obtain ⟨hs'', hleads'', hid⟩ := Work.Makes.settle (hd d rfl) s' hs' .refl
    exact ⟨hs'', hleads'.trans hleads'', hid⟩

end Env.Supplied

/-! ### Requests -/

/-- A stock stays orderly when a cell of the cache changes. -/
theorem Stock.Orderly.insert {s : Stock} (h : s.Orderly) {memo : Memo} {key : MemoKey}
    {cell : MemoCell} (hcells : memo.cells = s.memo.cells.insert key cell)
    (hcell : ∀ id, cell = .done (.ok id) → s.pool.Knows id) : Orderly { s with memo } where
  reached := h.reached
  results {other id} hget := by
    rw [hcells, Dict.get?_insert] at hget
    split at hget
    · exact hcell id (Option.some.inj hget)
    · exact h.results hget

/-- A result is looked up, or it is computed and kept. -/
theorem Work.Makes.remember {compute : Work ValueId} (h : compute.Makes p Pool.Knows)
    (key : MemoKey) : (Work.remember key compute).Makes p Pool.Knows := by
  intro s hs hleads
  have hfault : ∀ {f : Fault} {s' : Stock} (id : ValueId),
      (Except.error f : Outcome) = .ok id → s'.pool.Knows id := by
    rintro f s' id ⟨⟩
  unfold Work.outcome Work.remember
  rcases hcell : s.memo.cells.get? key with _ | _ | f | id
  · have hstart : Stock.Orderly { s with memo := s.memo.start key } :=
      hs.insert rfl (by rintro id ⟨⟩)
    have hafter := h { s with memo := s.memo.start key } hstart hleads
    unfold Work.outcome at hafter
    dsimp only
    generalize compute _ = r at hafter ⊢
    obtain ⟨id, s'⟩ | ⟨f, s'⟩ := r
    · obtain ⟨hs', hleads', hid⟩ := hafter
      refine ⟨hs'.insert rfl fun i hi => ?_, hleads', hid⟩
      cases hi
      exact hid id rfl
    · obtain ⟨hs', hleads', -⟩ := hafter
      exact ⟨hs'.insert rfl (by rintro id ⟨⟩), hleads', hfault⟩
  · exact ⟨hs, .refl, hfault⟩
  · exact ⟨⟨hs.reached, hs.results⟩, .refl, hfault⟩
  · exact ⟨⟨hs.reached, hs.results⟩, .refl, fun i hi => Except.ok.inj hi ▸ hs.results hcell⟩

/-- The arguments to which the parameters of a request are bound are known. -/
theorem Request.Known.params {r : Request ValueId Atom} (h : r.Known q) {name : String} {x : Atom}
    (hget : (r.params .ref).get? name = some x) : x.Known q := by
  have hparams : DictRel (fun (x _ : Atom) => x.Known q) (r.params .ref) (r.params .ref) := by
    cases r with
    | call f types args =>
      have htypes : List.Forall₂ (fun id _ => q.Knows id) types types :=
        List.forall₂_same.2 h.1
      exact dictRel_bindParams (R := fun (x _ : Atom) => x.Known q) (fun _ _ hid => hid) htypes
        (List.forall₂_same.2 h.2) .empty
    | read name => exact .empty
  have hname := hparams name
  rw [hget] at hname
  cases hname with
  | some hx => exact hx

namespace Analysis

variable {a : Analysis}

/-- A request is answered with a known constant or fails. The induction is on the number of bodies
that may still be nested. -/
theorem makes_resolve (callsLeft : Nat) {parent : Option Chain} {r : Request ValueId Atom}
    (h : r.Known q) : (a.resolve callsLeft parent r).Makes q Pool.Knows := by
  have hfault : ∀ {p : Pool} {work : Work ValueId} {f : Fault},
      (∀ s, work.outcome s = (.error f, s)) → work.Makes p Pool.Knows := by
    intro p work f houtcome s hs _
    rw [houtcome s]
    exact ⟨hs, .refl, by rintro id ⟨⟩⟩
  induction callsLeft generalizing parent r q with
  | zero =>
    rcases hbody : a.bodyOf r with f | body
    · exact hfault fun s => outcome_resolve_of_error hbody
    · exact hfault fun s => outcome_resolve_zero hbody
  | succ callsLeft ih =>
    rcases hbody : a.bodyOf r with f | body
    · exact hfault fun s => outcome_resolve_of_error hbody
    · rcases hrepeated : parent.any fun c => c.contains r.node.name with _ | _
      · rw [resolve_of_passes hbody hrepeated]
        have hsupplied : Env.Supplied q ⟨a, Chain.extend parent r.node.name, r.params .ref,
            a.resolve callsLeft (some (Chain.extend parent r.node.name))⟩ :=
          ⟨h.params, fun _ hr => ih hr⟩
        exact (hsupplied.run body).remember r.key
      · exact hfault fun s => outcome_resolve_of_repeated hbody hrepeated

/-- The surroundings of every body at the head of a chain. -/
theorem supplied (callsLeft : Nat) (chain : Chain) {params : Dict String Atom}
    (h : ∀ {name x}, params.get? name = some x → x.Known w) :
    Env.Supplied w ⟨a, chain, params, a.resolve callsLeft (some chain)⟩ :=
  ⟨h, fun _ hr => makes_resolve callsLeft hr⟩

end Analysis

end ConstPool
