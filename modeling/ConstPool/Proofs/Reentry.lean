import ConstPool.Proofs.Clients
import ConstPool.Proofs.Course.Resolve
import ConstPool.Proofs.Visits

/-!
# Nothing is computed twice

The cache computes nothing twice for any client, but a computation that requests its own key has no
answer. In an evaluation this does not happen, whatever the program is. The keys that are being
computed have their names in the chain, and the chain is looked at before the cache is asked. So a
recursive request is refused for its chain, and the cache never gets to see it.

A client is a computation that asks the cache, computes what it is not told, in any nesting, and
looks at keys in between. It is more general than a body: it may request its own key. The log of a
client tells what it has asked and what it was answered, and cache and log mirror each other at
every point. An evaluation is a client that never requests what is being computed, and this is
proved along the visits of a run: the keys that are being computed belong to names in the chain,
and a request for such a name ends before the cache is asked.

* `Visit.Clear`: what reaches the cache is not being computed.
* `Analysis.engaged_resolve`, `Analysis.engaged_runIn`: what is being computed is known throughout.
* `Noted.Reached.idle`: between evaluations nothing is being computed.
* `Memo.computes_once`: the cache, for any client and in any evaluation.
-/

namespace ConstPool

variable {a : Analysis} {busy : MemoKey → Prop} {parent : Option Chain} {callsLeft : Nat}
  {s : Stock}

/-- If a visit reaches the cache, then its result is not being computed: it passes its checks and
is neither too deep nor in its chain. -/
def Visit.Clear (a : Analysis) (v : Visit) : Prop :=
  (∃ body, a.bodyOf v.request = .ok body) → ¬ a.Outside v.chain v.request.node.name →
    v.stock.memo.cells.get? v.request.key ≠ some .running

/-! ### What is being computed -/

/-- Handing in a value computes nothing. -/
theorem Stock.Engaged.intern (h : s.Engaged busy) (value : Value) :
    ((Work.intern value).outcome s).2.Engaged busy :=
  Work.conforms_keeping_iff.1 ((Stock.Engaged.fair busy).intern value) s h

namespace Analysis

/-- What is being computed before a body is being computed after it, if this is so for the requests
that the body issues. -/
theorem engaged_run (hp : a.program.Declared) {chain : Chain} {params : Dict String Atom}
    {request : Request ValueId Atom → Work ValueId}
    (hrequest : ∀ r {s : Stock}, s.Engaged busy → ((request r).outcome s).2.Engaged busy)
    (body : Expr) (h : s.Engaged busy) :
    ((Env.run ⟨a, chain, params, request⟩ body).outcome s).2.Engaged busy := by
  have hguarded : Env.Guarded ⟨a, chain, params, request⟩ (fun _ _ => [])
      (fun _ s' => s'.Engaged busy) (fun _ => False) request :=
    { program := hp
      intern := fun value h => h.intern value
      request := fun _ h => .inl ⟨rfl, hrequest _ h⟩ }
  exact hguarded.run body (j := []) h

/-- What is being computed before a request is being computed after it, and nothing else. The
induction is on the bodies that may still be nested. -/
theorem engaged_resolve (hp : a.program.Declared) (callsLeft : Nat) (parent : Option Chain)
    (r : Request ValueId Atom) (h : s.Engaged busy) :
    ((a.resolve callsLeft parent r).outcome s).2.Engaged busy := by
  induction callsLeft generalizing parent r s busy with
  | zero =>
    rcases hbody : a.bodyOf r with f | body
    · rwa [outcome_resolve_of_error hbody]
    · rwa [outcome_resolve_zero hbody]
  | succ callsLeft ih =>
    rcases hbody : a.bodyOf r with f | body
    · rwa [outcome_resolve_of_error hbody]
    · rcases hrepeated : parent.any fun c => c.contains r.node.name with _ | _
      · rw [resolve_of_passes hbody hrepeated]
        rcases hcell : s.memo.cells.get? r.key with _ | _ | o
        · rw [Work.outcome_remember_of_none hcell]
          exact (engaged_run hp (fun r' _ hs => ih _ r' hs) body (h.start r.key)).finish _
        · rwa [Work.outcome_remember_of_running hcell]
        · rw [Work.outcome_remember_of_done hcell]
          exact ⟨h.sound, h.running⟩
      · rwa [outcome_resolve_of_repeated hbody hrepeated]

/-- What is being computed before a body at the head of a chain is being computed after it. -/
theorem engaged_runIn (hp : a.program.Declared) (chain : Chain) (params : Dict String Atom)
    (body : Expr) (h : s.Engaged busy) :
    ((a.runIn chain params body).outcome s).2.Engaged busy :=
  engaged_run hp (fun r _ hs => engaged_resolve hp _ _ r hs) body h

/-- What is being computed when a body begins is being computed whenever it issues a request. -/
theorem always_engaged (hp : a.program.Declared) {chain : Chain} (params : Dict String Atom)
    (body : Expr) (callsLeft : Nat) (h : s.Engaged busy) :
    Env.Always ⟨a, chain, params, a.resolve callsLeft (some chain)⟩
      (fun r s' => r.Declared a.program ∧ s'.Engaged busy) body s :=
  Env.always_of_kept hp (fun value _ h => h.intern value)
    (fun r _ h => engaged_resolve hp _ _ r h) h

/-! ### Requests -/

/-- A visit with as many calls left as the settings allow, on a stock in which what is being
computed has its name in the chain. -/
structure Guards (a : Analysis) (callsLeft : Nat) (v : Visit) : Prop where
  reckons : a.Reckons callsLeft v.chain
  engaged : v.stock.Engaged fun key => (v.chain.any fun c => c.contains key.name) = true

namespace Guards

variable {v : Visit} {body : Expr}

/-- What is being computed is in the chain, so it does not reach the cache. -/
theorem clear (h : a.Guards callsLeft v) : v.Clear a := by
  intro _ hinside hrunning
  have hin := h.engaged.running _ hrunning
  rw [v.request.name_key] at hin
  exact hinside (.inr hin)

/-- The body of a visit runs with the key of the visit among those that are being computed, and its
name is at the head of the chain. -/
theorem nested (hp : a.program.Declared) (h : a.Guards (callsLeft + 1) v) (hruns : v.Runs a body) :
    (v.env a callsLeft).Always (fun r s => a.Guards callsLeft (v.nested r s)) body v.begun := by
  have hinside : ¬ a.Outside v.chain v.request.node.name := by
    rintro (hdeep | hrepeated)
    · have := h.reckons v.request.node.name
      omega
    · rw [hruns.free] at hrepeated
      cases hrepeated
  obtain ⟨n, hn, hreckons⟩ := h.reckons.next hinside
  cases hn
  have hbusy : ∀ key, key = v.request.key ∨ (v.chain.any fun c => c.contains key.name) = true →
      ((some v.next).any fun c => c.contains key.name) = true :=
    busy_next (fun _ hkey => hkey) v.request
  have hengaged : v.begun.Engaged fun key =>
      key = v.request.key ∨ (v.chain.any fun c => c.contains key.name) = true :=
    h.engaged.start v.request.key
  refine (always_engaged hp _ body _ hengaged).mono fun r s' hr => ?_
  exact ⟨hreckons, hr.2.sound, fun key hkey => hbusy key (hr.2.running key hkey)⟩

/-- It is so throughout. -/
theorem throughout (hp : a.program.Declared) (h : a.Guards callsLeft v) :
    a.Throughout (Visit.Clear a) callsLeft v :=
  throughout_of_step (Q := a.Guards) (fun _ _ hv => hv.clear)
    (fun _ _ _ hv hruns => hv.nested hp hruns) h

end Guards

/-- Every request from outside, on a stock in which nothing is being computed. -/
theorem clear_throughoutOf (hp : a.program.Declared) (hs : s.Engaged fun _ => False)
    (r : Request ValueId Atom) : a.ThroughoutOf (Visit.Clear a) r s :=
  Guards.throughout hp ⟨fun _ => rfl, hs.sound, fun key hkey => (hs.running key hkey).elim⟩

/-- Every expression at the head of a chain. -/
theorem clear_throughoutIn (hp : a.program.Declared) (hs : s.Engaged fun _ => False)
    (chain : Chain) (params : Dict String Atom) (body : Expr) :
    a.ThroughoutIn (Visit.Clear a) chain params body s := by
  have hcalls : a.Reckons (a.callsBelow chain) (some chain) := fun _ => rfl
  refine (always_engaged hp params body _ hs).mono fun r s' hr => ?_
  exact Guards.throughout hp
    ⟨hcalls, hr.2.sound, fun key hkey => (hr.2.running key hkey).elim⟩

end Analysis

/-! ### Histories -/

/-- Between evaluations nothing is being computed. -/
theorem Noted.Reached.idle {D : FunctionDecl → Prop} {n : Noted} (hp : a.program.Declared)
    (h : Noted.Reached a D n) : n.stock.Engaged fun _ => False := by
  have hinvoke : ∀ {s : Stock} (r : Request ValueId Atom), s.Engaged (fun _ => False) →
      ((a.invoke r).outcome s).2.Engaged fun _ => False :=
    fun r hs => Analysis.engaged_resolve hp _ _ r hs
  induction h with
  | refl => exact ⟨Pool.sound_empty, fun key hkey => by simp at hkey⟩
  | tail _ hstep ih =>
    cases hstep with
    | intern value => exact ih.intern value
    | use user id => exact ⟨ih.sound, ih.running⟩
    | site site =>
      rw [Analysis.resolveSite_eq]
      unfold Work.outcome
      rcases Analysis.siteRequest_cases hp site _ with ⟨f, hsite⟩ | ⟨r, hsite, -⟩
      · rw [Work.bind_of_error hsite]
        exact ih
      · rw [Work.bind_of_ok hsite]
        exact hinvoke r ih
    | run chain params body =>
      exact Analysis.engaged_runIn hp chain params body ih
    | call types args _ => exact hinvoke _ ih

/-- Whatever a client does with an empty cache, no key is computed twice, and every answer and every
look at a key tells the outcome of its one computation. When the client has ended, there are as many
misses as cells and as many cells as different keys that were requested, and hits and misses are all
requests but those for a key that is being computed. There are none of these in any evaluation of
any program: in every context, however it has come about, whatever is requested, at whatever depth,
reaches the cache only if its result is not being computed. -/
theorem Memo.computes_once :
    (∀ (c : Client) (pool : Pool) (uses : Uses),
      let s : Stock := ⟨pool, uses, {}⟩
      Access.History (c.log s) ∧ AtRest (c.log s) (c.run.outcome s).2.memo) ∧
    ∀ (declarations : List Declaration) (modelled : Types) (settings : Settings) (n : Noted),
      let a := Analysis.build (.declareAll {} declarations) modelled settings
      Noted.Reached a (fun _ => True) n →
        (∀ r, a.ThroughoutOf (Visit.Clear a) r n.stock) ∧
        (∀ site r s, a.siteRequest site n.stock = .ok r s →
          a.ThroughoutOf (Visit.Clear a) r s) ∧
        ∀ chain params body, a.ThroughoutIn (Visit.Clear a) chain params body n.stock := by
  refine ⟨?_, ?_⟩
  · intro c pool uses s
    have hlogged : Logged [] ([] ++ c.log s) (c.run.outcome s).2.memo := c.logged .empty
    rw [List.nil_append] at hlogged
    exact ⟨hlogged.lawful, hlogged.atRest⟩
  · intro declarations modelled settings n a hreached
    have hp : a.program.Declared := Program.declared_declareAll declarations
    have hidle := hreached.idle hp
    refine ⟨Analysis.clear_throughoutOf hp hidle, fun site r s hsite => ?_,
      Analysis.clear_throughoutIn hp hidle⟩
    rcases Analysis.siteRequest_cases hp site n.stock with ⟨f, hrefused⟩ | ⟨r', hasked, -⟩
    · cases hsite.symm.trans hrefused
    · cases hsite.symm.trans hasked
      exact Analysis.clear_throughoutOf hp hidle r

/-- A client that computes one key within another one, and requests both again. -/
def Client.nested : Client :=
  .request (.variable "outer") (.request (.variable "inner") (.done (.ok ⟨1⟩)) .done) fun _ =>
    .request (.variable "inner") (.done (.ok ⟨2⟩)) fun _ =>
      .peek (.variable "outer") fun found => .done (found.getD (.ok ⟨3⟩))

/-- A function that calls itself. -/
def FunctionDecl.again : FunctionDecl where
  name := "again"
  params := []
  body := .call "again" [] []
  placement := .topLevel

/-- Two keys are computed for three requests. And a context has a function that calls itself, which
was called once already. -/
theorem Memo.computes_once_nested :
    let s : Stock := {}
    let a := Analysis.build (.declareAll {} [.function .again]) .empty {}
    let n : Noted := ⟨((a.invoke (.call .again [] [])).outcome s).2,
      a.journalOf (.call .again [] []) s⟩
    (Access.requests (Client.nested.log s) =
        [.variable "outer", .variable "inner", .variable "inner"] ∧
      Access.begun (Client.nested.log s) = [.variable "outer", .variable "inner"] ∧
      AtRest (Client.nested.log s) (Client.nested.run.outcome s).2.memo) ∧
    Noted.Reached a (fun _ => True) n ∧
      a.ThroughoutOf (Visit.Clear a) (.call .again [] []) n.stock := by
  intro s a n
  have hreached : Noted.Reached a (fun _ => True) n :=
    .single (.call ⟨s, []⟩ [] [] (.inr trivial))
  exact ⟨⟨by rfl, by rfl, (Memo.computes_once.1 Client.nested {} .empty).2⟩, hreached,
    (Memo.computes_once.2 [.function .again] .empty {} n hreached).1 _⟩

end ConstPool
