import ConstPool.Proofs.Constants
import ConstPool.Proofs.Course.Basic
import ConstPool.Proofs.Escape.Basic
import ConstPool.Proofs.Evaluation
import ConstPool.Proofs.Making

/-!
# Nothing is pooled but what escapes

A watched body does what the body does, and the stock grows by nothing but parts of what escapes
from it and from the bodies nested in it. So a body from which nothing escapes leaves the stock
alone until it has ended. If it fails, this is all. If it ends with a value, the parts of the value
are pooled that were not in the pool.

The invariant of a run is that the pool has grown by parts of what is on the list of what has
escaped. To pool an argument puts it on the list first, so the invariant is kept by the only steps
of a body that pool anything. What a nested body pools has escaped from that body, and its list is
appended to that of the body that waits for it.

An argument escapes one at a time, when its expression has a value: if a later argument of the call
fails, the earlier ones are in the pool.

* `Draft.watching`: a machine beside one that is watched.
* `Env.Observed`: the surroundings of a body that is watched.
* `Env.Observed.watch_eq`: a watched body does what the body does.
* `Analysis.growsBy_resolve`: requests.
* `Stock.Linked`, `Stock.Gains`: a stock has grown by exactly the parts of one constant.
* `Analysis.runIn_escapes`: bodies at the head of a chain.
-/

namespace ConstPool

open Draft Relation

variable {β γ : Type} {w p q : Pool} {s s' base : Stock} {V : Pool → β → γ → Prop}

/-! ### Steps that are watched -/

/-- Drafts over a stock beside themselves, where one of the machines is watched. It began with the
stock `base`. -/
def Draft.watching (base : Stock) : Correspondence Stock Draft Watched Draft where
  World := making.World
  le := making.le
  refl := making.refl
  trans := making.trans
  world := making.world
  stands := making.stands
  mono := making.mono
  holds s u := making.holds s u.stock ∧ base.GrowsBy u.escapes s
  shared := making.shared
  excused := making.excused

/-- The value of a step, if it has come to one, and the machine after it. -/
def Eval.ending : EStateM.Result (Stop Draft) (Machine Stock Draft) β →
    Option β × Machine Stock Draft
  | .ok b m => (some b, m)
  | .error _ m => (none, m)

/-- From every orderly stock that follows on the pool, the stock grows by what a step notes. -/
def Eval.Notes (w : Pool) (step : Run β) (leaves : Stock → Option β → List Escape) : Prop :=
  ∀ m : Machine Stock Draft, m.stock.Orderly → w.Leads m.stock.pool →
    m.stock.GrowsBy (leaves m.stock (ending (step m)).1) (ending (step m)).2.stock

/-- A step goes together with the same step that is watched, if what it adds to the stock is
noted. -/
theorem Sim.watch {x : Run β} {y : Run γ} {leaves : Stock → Option γ → List Escape}
    (h : Sim Draft.making w [] [] V x y) (hnotes : Eval.Notes w y leaves) :
    Sim (Draft.watching base) w [] [] V x (Eval.watch y leaves) := by
  rintro m ⟨⟨stock, escapes⟩, scopes, left⟩ hn
  obtain ⟨⟨hs, hstock⟩, hgrows⟩ := hn.holds
  have hends := h m ⟨stock, scopes, left⟩
    ⟨hn.later, ⟨hs, hstock⟩, hn.scopes, hn.left, hn.nonempty, hn.binds⟩
  have hlater : w.Leads m.stock.pool := hn.later
  obtain rfl : m.stock = stock := hstock
  -- what the step adds is noted behind what had escaped before
  have hafter : ∀ {m' n' es}, After Draft.making m m' n' → m.stock.GrowsBy es n'.stock →
      After (Draft.watching base) m m' ⟨⟨n'.stock, escapes ++ es⟩, n'.scopes, n'.left⟩ := by
    intro m' n' es hafter hes
    have hholds := hafter.holds
    have heq : m'.stock = n'.stock := hholds.2
    have hgrows' : base.GrowsBy (escapes ++ es) m'.stock := by
      rw [heq]
      exact hgrows.trans hes
    exact ⟨hafter.later, ⟨hholds, hgrows'⟩, hafter.scopes, hafter.left, hafter.grow⟩
  simp only [Eval.watch]
  have hstep := hnotes ⟨m.stock, scopes, left⟩ hs hlater
  generalize y ⟨m.stock, scopes, left⟩ = r at hends hstep ⊢
  generalize x m = r' at hends ⊢
  cases hends with
  | ok hmaking _ hV => exact .ok (hafter hmaking hstep) (List.forall_mem_nil _) hV
  | stop hmaking hstops =>
    refine .stop (hafter hmaking hstep) ?_
    cases hstops with
    | result hd => exact .result hd
    | leaveLoop => exact .leaveLoop
    | nextRound => exact .nextRound
    | fault hf => exact .fault hf
  | excused _ _ hf => exact hf.elim

namespace Eval.Notes

/-- A step that leaves the stock alone. -/
theorem silent {step : Run β} (h : ∀ m, (ending (step m)).2.stock = m.stock) :
    Eval.Notes w step fun _ _ => [] := by
  intro m _ _
  rw [h m]
  exact .refl

/-- A question to the pool. -/
theorem ask (question : Pool → Except Fault β) :
    Eval.Notes w (Eval.ask question) fun _ _ => [] := by
  refine .silent fun m => ?_
  unfold Eval.ask
  split <;> rfl

/-- The integers of a range. -/
theorem range (env : Env) (start stop : Int64) :
    Eval.Notes w (env.range start stop) fun _ _ => [] := by
  refine .silent fun m => ?_
  simp only [Env.range, Eval.spend, bind, EStateM.bind]
  split
  · next heq =>
    split at heq <;> cases heq
    rfl
  · next heq =>
    split at heq <;> cases heq
    rfl

/-- What a draft is made of is pooled. -/
theorem pool {work : Work β} {d : Draft} (hd : d.Made w) {escape : β → Escape}
    (h : ∀ {q} {t : Tree Holding}, w.Leads q → Means q d t →
      work.Adds (fun u => u = t ∨ u.Within t) q fun q b => (escape b).Denotes q t) :
    Eval.Notes w (Eval.onStock work) fun _ b => b.toList.map escape := by
  have hrun : ∀ {s : Stock}, s.Orderly → w.Leads s.pool →
      ∃ b s', work s = .ok b s' ∧ s.GrowsBy [escape b] s' := by
    intro s hs hleads
    obtain ⟨t, ht⟩ := (hd.mono hleads.keeps).exists_means hs.reached.sound
    obtain ⟨b, s', hrun, hgrows, hb⟩ := h hleads ht s (.refl _) hs.reached.sound
    exact ⟨b, s', hrun, .of_extends hgrows.pool hb, fun hnil => nomatch hnil⟩
  rintro ⟨stock, scopes, left⟩ hs hleads
  obtain ⟨b, s', hwork, hgrows⟩ := hrun hs hleads
  simp only [Eval.onStock, hwork]
  exact hgrows

/-- A request. -/
theorem fetch {env : Env} {r : Request ValueId Atom} {es : Stock → List Escape}
    (h : ∀ {s : Stock}, s.Orderly → w.Leads s.pool →
      s.GrowsBy (es s) ((env.request r).outcome s).2) :
    Eval.Notes w (env.fetch r) fun s _ => es s := by
  rintro ⟨stock, scopes, left⟩ hs hleads
  have hstock : (ending (env.fetch r ⟨stock, scopes, left⟩)).2.stock =
      ((env.request r).outcome stock).2 := by
    simp only [Env.fetch, Eval.onStock, Eval.ask, Work.outcome, bind, EStateM.bind]
    rcases env.request r stock with ⟨id, s⟩ | ⟨f, s⟩
    · dsimp only
      rcases s.pool.atomOf id with f | a <;> rfl
    · rfl
  rw [hstock]
  exact h hs hleads

end Eval.Notes

/-! ### Bodies that are watched -/

/-- The surroundings of a body that is watched, from the pool `w` on. What escapes while a request
is answered covers what is new after it. -/
structure Env.Observed (w : Pool) (env : Env)
    (within : Request ValueId Atom → Stock → List Escape) : Prop extends env.Supplied w where
  growsBy : ∀ {s : Stock} {r : Request ValueId Atom}, s.Orderly → w.Leads s.pool →
    r.Known s.pool → s.GrowsBy (.request r :: within r s) ((env.request r).outcome s).2

namespace Env.Observed

variable {env : Env} {within : Request ValueId Atom → Stock → List Escape}

/-- The request itself has left the body, so the stock need not be the same. -/
theorem of_pools (h : env.Supplied w)
    (hgrows : ∀ {s : Stock} {r : Request ValueId Atom}, s.Orderly → r.Known s.pool →
      s.pool.GrowsBy (within r s) ((env.request r).outcome s).2.pool) : env.Observed w within where
  toSupplied := h
  growsBy hs _ hr :=
    ⟨(hgrows hs hr).mono fun _ he => List.mem_cons_of_mem _ he, fun hnil => nomatch hnil⟩

/-- A body may be watched over a pool that has gone on. -/
theorem later (h : env.Observed w within) (hleads : w.Leads q) : env.Observed q within where
  toSupplied := h.toSupplied.later hleads
  growsBy hs hq := h.growsBy hs (hleads.trans hq)

/-- A request. -/
theorem fetch (h : env.Observed w within) {r : Request ValueId Atom} (hr : r.Known w) :
    Sim (Draft.watching base) w [] [] (fun q d e => d.Made q ∧ d = e) (env.fetch r)
      (env.watchedFetch within r) :=
  Sim.watch (h.toSupplied.fetch hr) <| .fetch fun hs hleads =>
    h.growsBy hs hleads (Request.Known.mono hr hleads.keeps)

/-- The value of a name. -/
theorem lookup (h : env.Observed w within) (name : String) :
    Sim (Draft.watching base) w [] [] (fun q d e => d.Made q ∧ d = e) (env.lookup name)
      (env.watchedLookup within name) := by
  refine Sim.get_bind fun m n hn => ?_
  have hfind := ScopesRel.find? hn.scopes name
  generalize m.scopes.find? name = x at hfind ⊢
  generalize n.scopes.find? name = y at hfind ⊢
  cases hfind with
  | some hd => exact .ok (.refl hn) hn.binds hd
  | none =>
    rcases hparam : env.params.get? name with _ | a
    · dsimp only
      split
      · exact h.fetch (r := .read name) trivial m n hn
      · exact Sim.raise trivial m n hn
    · have ha := (h.later hn.later).params hparam
      exact .ok (.refl hn) hn.binds ⟨.atom ha, rfl⟩

/-- Whether questions are related does not depend on whether one of the machines is watched. -/
theorem rel_making {types : Pool → Draft → Draft → Prop} {x : Question Draft β}
    {y : Question Draft γ} {U : ((Draft.watching base).correlation w).World → β → γ → Prop}
    (h : x.Rel ((Draft.watching base).correlation w) types p y U) :
    x.Rel (Draft.making.correlation w) types p y U := by
  cases h with
  | unary op hd => exact .unary op hd
  | binary op hl hr => exact .binary op hl hr
  | truth role hd => exact .truth role hd
  | integer role hd => exact .integer role hd
  | elements hd => exact .elements hd
  | newKey hk hgiven => exact .newKey hk hgiven
  | index ht hp => exact .index ht hp
  | member name ht => exact .member name ht
  | query q ht => exact .query q ht
  | message hd => exact .message hd

/-- The steps of a body go together with those of a body that is watched. -/
theorem related (h : env.Observed w within) (base : Stock) :
    Interpretation.Related ((Draft.watching base).correlation w)
      (fun q d e => (d.Made q ∧ d.scalar? = none) ∧ d = e) (fun q i j => q.Knows i ∧ i = j)
      (fun q a b => a.Known q ∧ a = b) (fun _ => True) env.interpretation (env.watcher within) where
  toRelated := (Draft.watching base).control w (fun _ _ => trivial) rfl
  program := rfl
  objectTypes := rfl
  owner := rfl
  scalar := h.toSupplied.related.scalar
  layer hordered hlayer := h.toSupplied.related.layer hordered hlayer
  isNull hd := congrArg Draft.isNull hd.2
  lookup q name hle := (h.later hle).lookup name
  range q a b _ := Sim.watch (Env.Supplied.range a b) (.range env a b)
  ask hq _ := Sim.watch (Env.Supplied.answers env.analysis (rel_making hq)) (.ask _)
  type {q t} _ hle := Sim.ofExcept fun q' hle' =>
    (h.toSupplied.later (ReflTransGen.trans hle hle')).agree_draft t
  constant hd := ⟨hd.1.1, hd.2⟩
  poolType {q d e} hd _ := by
    obtain ⟨⟨hmade, hscalar⟩, rfl⟩ := hd
    refine Sim.watch (Makes.onStock (Work.Makes.internType hmade hscalar)) (.pool hmade ?_)
    exact fun _ ht => ht.poolsType hscalar fun u hu => .inr hu
  pool {q d e} hd _ := by
    obtain ⟨hmade, rfl⟩ := hd
    refine Sim.watch (Makes.onStock (Work.Makes.intern hmade)) (.pool hmade fun _ ht => ?_)
    exact (ht.pools fun u hu => .inr hu).imp fun _ _ ha => ha.1
  typeArgs_mono hle hi := h.toSupplied.related.typeArgs_mono hle hi
  args_mono hle ha := h.toSupplied.related.args_mono hle ha
  call {q name f is js as bs} _ htypes hargs hle := by
    obtain ⟨rfl, rfl, hknown⟩ := Env.Supplied.known_call (f := f) htypes hargs
    exact (h.later hle).fetch hknown

/-- A watched body does what the body does, and what is new before its value is pooled is part of
something that has escaped. -/
theorem watch_eq (h : env.Observed w within) (body : Expr) (hs : s.Orderly)
    (hleads : w.Leads s.pool) : (env.watch within body s).1 = (env.finish body s).1 ∧
      (env.watch within body s).2.stock = (env.finish body s).2 ∧
        s.GrowsBy (env.escapes within body s) (env.finish body s).2 := by
  have hstart : Near (Draft.watching s) w []
      ⟨s, [.empty], env.analysis.settings.stepBudget⟩
      ⟨⟨s, []⟩, [.empty], env.analysis.settings.stepBudget⟩ :=
    ⟨hleads, ⟨⟨hs, rfl⟩, .refl⟩, .cons .empty .nil, rfl, List.cons_ne_nil _ _,
      List.forall_mem_nil _⟩
  have hends := Expr.related (h.related s) w body (fun _ _ => trivial) .refl _ _ hstart
  rw [Expr.eval_eq] at hends
  unfold Env.escapes Env.watch Env.finish
  generalize body.eval env _ = r at hends ⊢
  generalize body.evalIn (env.watcher within) _ = r' at hends ⊢
  have hstock : ∀ {m m' n'}, After (Draft.watching s) m m' n' →
      n'.stock.stock = m'.stock ∧ s.GrowsBy n'.stock.escapes m'.stock :=
    fun hafter => ⟨hafter.holds.1.2.symm, hafter.holds.2⟩
  cases hends with
  | ok hafter _ hd => exact ⟨congrArg Except.ok hd.2.symm, hstock hafter⟩
  | stop hafter hstop =>
    cases hstop with
    | result hd => exact ⟨congrArg Except.ok hd.2.symm, hstock hafter⟩
    | leaveLoop => exact ⟨rfl, hstock hafter⟩
    | nextRound => exact ⟨rfl, hstock hafter⟩
    | fault _ => exact ⟨rfl, hstock hafter⟩
  | excused _ _ hf => exact hf.elim

end Env.Observed

/-! ### Values with which bodies end -/

/-- The value with which a body ends is pooled. What is new are parts of it. -/
theorem Draft.Made.settles {d : Draft} (hd : d.Made s.pool) (hs : s.Orderly) :
    ∃ id s', d.settle.outcome s = (.ok id, s') ∧ ∃ t : Tree Holding,
      s.Extends (fun u => u = t ∨ u.Within t) s' ∧ s'.pool.Denotes id t := by
  obtain ⟨t, ht⟩ := hd.exists_means hs.reached.sound
  have hpart : ∀ u : Tree Holding, u.Within t → u = t.settled ∨ u.Within t.settled := by
    intro u hu
    cases t with
    | leaf x => cases hu
    | node layer => exact .inr hu
  obtain ⟨id, s', hrun, hgrows, hid⟩ := ht.settles hpart (.inl rfl) s (.refl _) hs.reached.sound
  refine ⟨id, s', ?_, _, hgrows, hid⟩
  unfold Work.outcome Draft.settle
  rw [hrun]

namespace Env

variable {env : Env} {body : Expr}

/-- A body that does not end with a value. -/
theorem outcome_run_of_error {f : Fault} (h : env.finish body s = (.error f, s')) :
    (env.run body).outcome s = (.error f, s') := by
  unfold Work.outcome run
  rw [h]

/-- A body that ends with a value. -/
theorem outcome_run_of_ok {d : Draft} (h : env.finish body s = (.ok d, s')) :
    (env.run body).outcome s = d.settle.outcome s' := by
  unfold Work.outcome run
  rw [h]
  rfl

/-- Whatever is new after a body is part of something that has escaped or of the value with which
the body ends. -/
theorem Observed.growsBy_run {within : Request ValueId Atom → Stock → List Escape}
    (h : env.Observed w within) (body : Expr) (hs : s.Orderly) (hleads : w.Leads s.pool) :
    s.pool.GrowsBy (env.escapes within body s ++ Outcome.escapes ((env.run body).outcome s).1)
      ((env.run body).outcome s).2.pool := by
  obtain ⟨-, -, hgrows⟩ := h.watch_eq body hs hleads
  obtain ⟨hs', -, hd⟩ := h.toSupplied.finish body hs hleads
  rcases hfinish : env.finish body s with ⟨f | d, s'⟩
  · rw [hfinish] at hgrows
    rw [outcome_run_of_error hfinish, Outcome.escapes, List.append_nil]
    exact hgrows.pool
  · rw [hfinish] at hgrows hs' hd
    obtain ⟨id, s'', hsettle, t, hextends, hid⟩ := (hd d rfl).settles hs'
    rw [outcome_run_of_ok hfinish, hsettle, Outcome.escapes]
    exact hgrows.pool.trans (.of_extends hextends.pool hid)

end Env

/-! ### Requests -/

namespace Analysis

variable {a : Analysis}

/-- Whatever is new after a request is part of something that has escaped from the bodies that
answer it. The induction is on the number of bodies that may still be nested. -/
theorem growsBy_resolve (callsLeft : Nat) (parent : Option Chain) {r : Request ValueId Atom}
    (hs : s.Orderly) (hr : r.Known s.pool) :
    s.pool.GrowsBy (a.escapes callsLeft parent r s)
      ((a.resolve callsLeft parent r).outcome s).2.pool := by
  induction callsLeft generalizing parent r s with
  | zero =>
    rcases hbody : a.bodyOf r with f | body
    · rw [outcome_resolve_of_error hbody]
      exact .refl
    · rw [outcome_resolve_zero hbody]
      exact .refl
  | succ callsLeft ih =>
    rcases hbody : a.bodyOf r with f | body
    · rw [outcome_resolve_of_error hbody]
      exact .refl
    · rcases hrepeated : parent.any fun c => c.contains r.node.name with _ | _
      · rw [resolve_of_passes hbody hrepeated]
        -- only a request that the cache has not met runs a body; every other one leaves the pool
        -- alone
        rcases hcell : s.memo.cells.get? r.key with _ | _ | o
        · have hobserved : Env.Observed s.pool ⟨a, Chain.extend parent r.node.name, r.params .ref,
                a.resolve callsLeft (some (Chain.extend parent r.node.name))⟩
              (a.escapes callsLeft (some (Chain.extend parent r.node.name))) :=
            .of_pools (supplied callsLeft _ hr.params) fun hq hknown => ih _ hq hknown
          have hstart : Stock.Orderly { s with memo := s.memo.start r.key } :=
            hs.insert rfl (by rintro id ⟨⟩)
          rw [Work.outcome_remember_of_none hcell, escapes, hbody, hcell]
          dsimp only
          rw [hrepeated]
          exact hobserved.growsBy_run body hstart .refl
        · rw [Work.outcome_remember_of_running hcell]
          exact .refl
        · rw [Work.outcome_remember_of_done hcell]
          exact .refl
      · rw [outcome_resolve_of_repeated hbody hrepeated]
        exact .refl

/-- The surroundings of every body at the head of a chain. -/
theorem observed (callsLeft : Nat) (chain : Chain) {params : Dict String Atom}
    (h : ∀ {name x}, params.get? name = some x → x.Known w) :
    Env.Observed w ⟨a, chain, params, a.resolve callsLeft (some chain)⟩
      (a.escapes callsLeft (some chain)) :=
  .of_pools (supplied callsLeft chain h) fun hs hr => growsBy_resolve callsLeft _ hs hr

end Analysis

/-! ### Bodies from which nothing escapes -/

/-- The uses of all constants in the pool are recorded. -/
def Stock.Linked (s : Stock) : Prop :=
  ∀ {id part}, s.pool.HasPart id part → (.value id, part) ∈ s.uses.edges.items

/-- A stock has grown by exactly the parts of one constant that it did not have: each of them is
there once and after its own parts, with the uses of its parts, and no other constant is new. A
scalar within another constant is held in place and is no part in this sense. If the uses of an old
constant were not recorded, they may be from now on. -/
structure Stock.Gains (s : Stock) (id : ValueId) (s' : Stock) : Prop where
  keeps : s.pool.Keeps s'.pool
  memo : s'.memo = s.memo
  sound : s'.pool.Sound
  once : ∀ {i j} {u : Tree Holding}, s'.pool.Denotes i u → s'.pool.Denotes j u → i = j
  parts : ∃ t : Tree Holding, s'.pool.Denotes id t ∧ ∀ u : Tree Holding,
    (∃ i, s.pool.size ≤ i.index ∧ s'.pool.Denotes i u) ↔
      (u = t ∨ u.Within t) ∧ ¬ ∃ i, s.pool.Denotes i u
  uses : s.Linked → ∀ e, e ∈ s'.uses.edges.items ↔ e ∈ s.uses.edges.items ∨
    ∃ i, e.1 = .value i ∧ s.pool.size ≤ i.index ∧ s'.pool.HasPart i e.2

/-- A part of a constant that a later pool keeps. -/
theorem Pool.Keeps.hasPart_iff (h : p.Keeps q) {id part : ValueId} (hid : id.index < p.size) :
    q.HasPart id part ↔ p.HasPart id part := by
  obtain ⟨value, hvalue⟩ := Option.isSome_iff_exists.1 (Pool.get?_isSome_iff.2 hid)
  simp only [Pool.HasPart, hvalue, h id value hvalue]

/-- If the uses of all constants were recorded, nothing is recorded but the uses of new ones. -/
theorem Stock.Linked.mem_uses_iff (h : s.Linked) (hkeeps : s.pool.Keeps s'.pool)
    (h' : s'.Records (· ∈ s.uses.edges.items)) (e : User × ValueId) :
    e ∈ s'.uses.edges.items ↔ e ∈ s.uses.edges.items ∨
      ∃ i, e.1 = .value i ∧ s.pool.size ≤ i.index ∧ s'.pool.HasPart i e.2 := by
  rw [h' e]
  obtain ⟨user, part⟩ := e
  constructor
  · rintro (hold | ⟨i, rfl, hpart⟩)
    · exact .inl hold
    · rcases Nat.lt_or_ge i.index s.pool.size with hi | hi
      · exact .inl (h ((hkeeps.hasPart_iff hi).1 hpart))
      · exact .inr ⟨i, rfl, hi, hpart⟩
  · rintro (hold | ⟨i, hi, -, hpart⟩)
    · exact .inl hold
    · exact .inr ⟨i, hi, hpart⟩

/-- Where the value with which a body ends is pooled, the stock grows by exactly its parts. -/
theorem Draft.Made.gains {d : Draft} (hd : d.Made s.pool) (hs : s.Orderly) :
    ∃ id, (d.settle.outcome s).1 = .ok id ∧ s.Gains id (d.settle.outcome s).2 := by
  have hrecords : s.Linked → (d.settle.outcome s).2.Records (· ∈ s.uses.edges.items) := by
    intro hlinked
    refine Work.conforms_keeping_iff.1 ((Stock.stable_records _).fair.settle d) s fun e => ?_
    refine (or_iff_left_of_imp ?_).symm
    obtain ⟨user, part⟩ := e
    rintro ⟨i, rfl, hpart⟩
    exact hlinked hpart
  obtain ⟨id, s', hsettle, t, hextends, hid⟩ := hd.settles hs
  rw [hsettle] at hrecords ⊢
  have hsound := hs.reached.sound
  have hkeeps := hextends.pool.keeps
  have honce : ∀ {i j} {u : Tree Holding}, s'.pool.Denotes i u → s'.pool.Denotes j u → i = j :=
    fun hi hj => hi.left_unique hextends.sound hj
  refine ⟨id, rfl, hkeeps, hextends.memo, hextends.sound, honce, ⟨t, hid, fun u => ?_⟩,
    fun hlinked => hlinked.mem_uses_iff hkeeps (hrecords hlinked)⟩
  -- a tree is new exactly if it has no identity before; `honce` excludes that it gets a second one
  constructor
  · rintro ⟨i, hnew, hi⟩
    obtain ⟨value, hvalue⟩ := Option.isSome_iff_exists.1 (Pool.get?_isSome_iff.2 hi.known)
    obtain ⟨v, hpart, hv⟩ := hextends.pool.added (Pool.get?_eq_none_iff.2 hnew) hvalue
    rw [hi.right_unique hv]
    refine ⟨hpart, fun ⟨j, hj⟩ => ?_⟩
    rw [← hi.right_unique hv] at hj
    obtain rfl := honce hi (hj.mono hkeeps)
    exact absurd hj.known (Nat.not_lt.2 hnew)
  · rintro ⟨hpart, hnone⟩
    have hpooled : ∃ i, s'.pool.Denotes i u := by
      rcases hpart with rfl | hwithin
      · exact ⟨id, hid⟩
      · obtain ⟨a, -, ha⟩ := hid
        exact ha.exists_denotes hwithin
    obtain ⟨i, hi⟩ := hpooled
    refine ⟨i, Nat.le_of_not_lt fun hold => hnone ⟨i, hi.earlier hsound hkeeps hold⟩, hi⟩

namespace Analysis

variable {a : Analysis}

/-- Whatever is new after a body is part of an argument that it or a body nested in it has pooled
for a call, or of the value with which it or a nested body has ended. If it pools no argument and
requests nothing, a body that fails leaves the stock as it was, and one that ends with a value
leaves it with exactly the parts of this value. -/
theorem runIn_escapes {chain : Chain} {params : Dict String Atom} {body : Expr} {o : Outcome}
    (hs : s.Orderly) (hparams : ∀ {name x}, params.get? name = some x → x.Known s.pool)
    (hrun : (a.runIn chain params body).outcome s = (o, s')) :
    (∀ id : ValueId, s.pool.size ≤ id.index → id.index < s'.pool.size →
      ∃ e ∈ a.escapesIn chain params body s ++ o.escapes, e.Covers s'.pool id) ∧
    (a.escapesIn chain params body s = [] →
      (∀ f, o = .error f → s' = s) ∧ ∀ id, o = .ok id → s.Gains id s') := by
  have hobserved := observed (a := a) (a.callsBelow chain) chain hparams
  have hgrows := hobserved.growsBy_run body hs .refl
  obtain ⟨-, -, hbody⟩ := hobserved.watch_eq body hs .refl
  obtain ⟨-, -, hmade⟩ := hobserved.toSupplied.finish body hs .refl
  constructor
  · intro id hnew hknown
    rw [show (Env.run _ body).outcome s = (o, s') from hrun] at hgrows
    exact hgrows.covered hnew hknown
  · intro hnil
    -- nothing has escaped from the body, so the stock is untouched until its value is pooled
    have hsame := hbody.untouched hnil
    rcases hfinish : Env.finish ⟨a, chain, params, a.resolve (a.callsBelow chain) (some chain)⟩
      body s with ⟨f | d, s₁⟩
    · rw [hfinish] at hsame
      cases hrun.symm.trans (Env.outcome_run_of_error hfinish)
      exact ⟨fun _ _ => hsame, fun id hid => nomatch hid⟩
    · rw [hfinish] at hsame hmade
      obtain rfl : s₁ = s := hsame
      obtain ⟨id, hid, hgains⟩ := Draft.Made.gains (hmade d rfl) hs
      rw [← Env.outcome_run_of_ok hfinish, show (Env.run _ body).outcome s₁ = (o, s') from hrun]
        at hid hgains
      have hid : o = .ok id := hid
      subst hid
      refine ⟨fun f hf => (nomatch hf), fun i hi => ?_⟩
      rw [← Except.ok.inj hi]
      exact hgains

/-- A local that is given another value. -/
def replaced : Expr :=
  .block [.declare "all" (.list [.text "x"]), .assign "all" (.text "y")] (.name "all")

/-- The value that the local had before is not pooled, nor is its part. -/
theorem runIn_escapes_replaced :
    (build {} .empty {}).escapesIn ⟨"top", [], 0⟩ .empty replaced {} = [] ∧
      ∃ s', ((build {} .empty {}).runIn ⟨"top", [], 0⟩ .empty replaced).outcome {} = (.ok ⟨0⟩, s') ∧
        Stock.Gains {} ⟨0⟩ s' ∧ s'.pool.size = 1 := by
  have hempty : Stock.Orderly {} := ⟨.refl, by rintro key id ⟨⟩⟩
  have hparams : ∀ {name x}, (Dict.empty : Dict String Atom).get? name = some x → x.Known {} := by
    rintro name x ⟨⟩
  have hnil : (build {} .empty {}).escapesIn ⟨"top", [], 0⟩ .empty replaced {} = [] := by
    with_unfolding_all rfl
  have hok : (((build {} .empty {}).runIn ⟨"top", [], 0⟩ .empty replaced).outcome {}).1 =
      .ok ⟨0⟩ := by
    with_unfolding_all rfl
  have hrun := Prod.ext (y := (_, _)) hok rfl
  have hgains := (runIn_escapes hempty hparams hrun).2 hnil
  exact ⟨hnil, _, hrun, hgains.2 _ rfl, by with_unfolding_all rfl⟩

/-- A function of two values. -/
def pairing : Analysis :=
  .build (.declareAll {} [
    .function { name := "pair", params := [.value "a", .value "b"], placement := .topLevel,
                body := .list [.name "a", .name "b"] }]) .empty {}

/-- A call of which the second argument fails. -/
def callInVain : Expr := .call "pair" [] [.text "x", .throw (.text "boom")]

/-- An argument is pooled as soon as its value is known. So a body from which nothing is called and
which has no result may leave a constant behind: the argument of a call that is not made, since the
next argument fails. -/
theorem escapesIn_callInVain :
    pairing.escapesIn ⟨"top", [], 0⟩ .empty callInVain {} = [.argument (.ref ⟨0⟩)] ∧
      ((pairing.runIn ⟨"top", [], 0⟩ .empty callInVain).outcome {}).1 =
        .error (.runtime (.thrown "top" "boom")) ∧
      ((pairing.runIn ⟨"top", [], 0⟩ .empty callInVain).outcome {}).2.pool.get? ⟨0⟩ =
        some (.shape (.text "x")) ∧
      ({} : Pool).get? ⟨0⟩ = none := by
  refine ⟨?_, ?_, ?_, ?_⟩ <;> with_unfolding_all rfl

/-- A text and a list of it, pooled without the use of the text by the list. -/
def unlinked : Stock where
  pool := ((({} : Pool).intern (.shape (.text "x"))).2.intern (.shape (.list #[.ref ⟨0⟩]))).2

/-- A body that ends with the list that is there. Nothing is new in the pool, and yet a use is
recorded: what is new among the uses is known only where those of the old constants are recorded. -/
theorem uses_unlinked :
    (build {} .empty {}).escapesIn ⟨"top", [], 0⟩ .empty (.list [.text "x"]) unlinked = [] ∧
      (((build {} .empty {}).runIn ⟨"top", [], 0⟩ .empty (.list [.text "x"])).outcome unlinked).1 =
        .ok ⟨1⟩ ∧
      (((build {} .empty {}).runIn ⟨"top", [], 0⟩ .empty (.list [.text "x"])).outcome
        unlinked).2.pool.size = unlinked.pool.size ∧
      (((build {} .empty {}).runIn ⟨"top", [], 0⟩ .empty (.list [.text "x"])).outcome
        unlinked).2.uses.edges.items = #[(.value ⟨1⟩, ⟨0⟩)] := by
  refine ⟨?_, ?_, ?_, ?_⟩ <;> with_unfolding_all rfl

end Analysis

end ConstPool
