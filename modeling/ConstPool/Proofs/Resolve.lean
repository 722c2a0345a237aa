import ConstPool.Proofs.Memo
import ConstPool.Proofs.Nesting

/-!
# What a request is answered with

A request is answered as on trees, where there is neither a pool nor a cache, for every number of
bodies that is large enough for all chains below it. There is one exception. Where a chain of
accepted declarations is too long for the settings, the request may fail with a breach that names
the end of the chain.

The induction is on the number of bodies that may still be nested, and it needs what is known of
the cache before, for the results in it, and gives it for the cache after. The chain is described
by the list of the nodes whose bodies run: its names are theirs and its depth is their number.

* `Analysis.Nested`: the bodies that run at one time.
* `Analysis.Explained`: what is known about the outcome of a request.
* `Analysis.Sound.answered`: it is known of every request that a body or a caller issues.
-/

namespace ConstPool

open Draft Relation

namespace Analysis

variable {a : Analysis} {n m : Node}

/-! ### The bodies that run -/

/-- A declaration whose body may run within the bodies of the given ones, innermost first. -/
structure Ready (a : Analysis) (above : List Node) (n : Node) : Prop where
  stacked : a.Stacked (above.length + 1) n
  below : ∀ m ∈ above, TransGen a.Invokes m n

/-- The bodies that run at one time, innermost first, and the chain of their names. -/
inductive Nested (a : Analysis) : List Node → Option Chain → Prop
  | none : Nested a [] none
  | body {above : List Node} {parent : Option Chain} {n : Node} : Nested a above parent →
    Ready a above n → Nested a (n :: above) (some (Chain.extend parent n.name))

/-- A declaration that is used by no body. -/
theorem Ready.of_accepts (h : a.Accepts n) : Ready a [] n where
  stacked := .one h
  below _ hm := nomatch hm

namespace Nested

variable {above : List Node} {parent : Option Chain}

/-- The next body would run as deep as there are bodies above it. -/
theorem depth (h : Nested a above parent) (name : String) :
    (Chain.extend parent name).depth = above.length := by
  induction h generalizing name with
  | none => rfl
  | body _ _ ih => exact congrArg (· + 1) (ih _)

/-- A name in the chain is that of a body that runs. -/
theorem exists_of_contains (h : Nested a above parent) {name : String}
    (hname : parent.any fun c => c.contains name) : ∃ m ∈ above, m.name = name := by
  induction h with
  | none => cases hname
  | @body above parent n hparent _ ih =>
    rw [Option.any_some, Chain.contains, Bool.or_eq_true, decide_eq_true_eq] at hname
    rcases hname with hname | hname
    · refine ⟨n, List.mem_cons_self .., ?_⟩
      cases parent <;> exact hname
    · cases parent with
      | none => cases hname
      | some c =>
        have hc : c.contains name := by
          rw [Chain.contains, Bool.or_eq_true, decide_eq_true_eq, List.contains_iff_mem]
          exact (List.mem_cons.1 (List.contains_iff_mem.1 hname)).imp Eq.symm id
        obtain ⟨m, hm, hname⟩ := ih hc
        exact ⟨m, List.mem_cons_of_mem _ hm, hname⟩

/-- The bodies that run are of accepted nodes. -/
theorem accepts (h : Nested a above parent) : ∀ m ∈ above, a.Accepts m := by
  induction h with
  | none => exact fun m hm => nomatch hm
  | body _ hready ih => exact List.forall_mem_cons.2 ⟨hready.stacked.accepts, ih⟩

/-- What a body invokes may run within it. -/
theorem ready (h : Nested a (n :: above) parent) (hm : a.Invokes n m) :
    Ready a (n :: above) m := by
  cases h with
  | body _ hready =>
    refine ⟨hready.stacked.next hm, List.forall_mem_cons.2 ⟨.single hm, fun l hl => ?_⟩⟩
    exact (hready.below l hl).tail hm

end Nested

/-- Accepted declarations with one name are one. -/
theorem Sound.eq_of_name_eq (hs : a.Sound) (hn : a.Accepts n) (hm : a.Accepts m)
    (hname : n.name = m.name) : n = m := by
  have hne : ∀ {x y}, a.Accepts (.function x) → a.Accepts (.variable y) → x ≠ y := by
    rintro x y hx hy rfl
    obtain ⟨f, hf, -⟩ := hs.functionBody hx
    obtain ⟨v, hv, -⟩ := hs.variableBody hy
    exact hs.program.disjoint _ (OrderedMap.mem_keys_of_get? hf) (OrderedMap.mem_keys_of_get? hv)
  cases n with
  | function x =>
    cases m with
    | function y => exact congrArg Node.function hname
    | «variable» y => exact absurd hname (hne hn hm)
  | «variable» x =>
    cases m with
    | function y => exact absurd hname.symm (hne hm hn)
    | «variable» y => exact congrArg Node.variable hname

/-- No body within those that run has the name of one of them. -/
theorem Nested.new (hs : a.Sound) {above : List Node} {parent : Option Chain}
    (h : a.Nested above parent) (hn : a.Ready above n) : ¬ ∃ m ∈ above, m.name = n.name := by
  rintro ⟨m, hm, hname⟩
  obtain rfl := hs.eq_of_name_eq (h.accepts m hm) hn.stacked.accepts hname
  exact hs.not_transGen _ (hn.below _ hm)

/-- A request from within the bodies that run is neither in their chain nor being computed. -/
theorem Nested.free (hs : a.Sound) {above : List Node} {parent : Option Chain}
    {keys : List MemoKey} (h : a.Nested above parent)
    (hkeys : ∀ key ∈ keys, ∃ m ∈ above, m.name = key.name) {r : Request ValueId Atom}
    (hr : a.Ready above r.node) :
    (parent.any fun c => c.contains r.node.name) = false ∧ r.key ∉ keys := by
  have hnew := h.new hs hr
  refine ⟨Bool.eq_false_iff.2 fun hin => hnew (h.exists_of_contains hin), fun hmem => ?_⟩
  obtain ⟨m, hm, hname⟩ := hkeys _ hmem
  exact hnew ⟨m, hm, hname.trans r.name_key⟩

/-- The keys of the bodies that run, when one more runs. -/
theorem running_cons {above : List Node} {keys : List MemoKey}
    (hkeys : ∀ key ∈ keys, ∃ m ∈ above, m.name = key.name) (r : Request ValueId Atom) :
    ∀ key ∈ r.key :: keys, ∃ m ∈ r.node :: above, m.name = key.name := by
  refine List.forall_mem_cons.2 ⟨⟨_, List.mem_cons_self .., r.name_key.symm⟩, fun key hmem => ?_⟩
  obtain ⟨m, hm, hname⟩ := hkeys key hmem
  exact ⟨m, List.mem_cons_of_mem _ hm, hname⟩

/-! ### Outcomes -/

/-- A fault of a chain from `n` that is too long for the settings. -/
def TooDeep (a : Analysis) (n : Node) (f : Fault) : Prop :=
  ∃ m, a.Exposed n m ∧ f = .breach (.outsideCallGraph m.name a.settings.maxCallDepth)

/-- What is known about the outcome of a request: the request is one for trees, and its outcome is
that on trees or the fault of a chain that is too long. -/
def Explained (α : Type) [Leaf α] [DecidableEq α] (a : Analysis) : Account := fun pool r o =>
  ∃ t : Request (Tree α) (Tree α), Request.Means pool r t ∧
    ((∀ k, a.Shallow k r.node → Agree Fault.Benign pool.Denotes o (a.answer k t)) ∨
      ∃ f, a.TooDeep r.node f ∧ o = .error f)

/-- A fault of a chain from what a node invokes is one of a chain from the node. -/
theorem Invokes.tooDeep (h : a.Invokes n m) {f : Fault} (hf : a.TooDeep m f) : a.TooDeep n f := by
  obtain ⟨l, hl, rfl⟩ := hf
  exact ⟨l, ⟨.head h hl.reaches, hl.stacked⟩, rfl⟩

/-- Only accepted declarations lead chains. -/
theorem Exposed.accepts (h : a.Exposed n m) : a.Accepts n := by
  rcases ReflTransGen.cases_head h.reaches with rfl | ⟨l, hl, -⟩
  · exact h.stacked.accepts
  · exact hl.accepts

variable {α : Type} [Leaf α] [DecidableEq α]

/-- What is known about an outcome is known in later pools as well. -/
theorem lasting_explained : (Explained α a).Lasting := by
  rintro p q r o hkeeps ⟨t, ht, ho⟩
  refine ⟨t, ht.mono hkeeps, ho.imp (fun hagree k hk => ?_) id⟩
  exact (hagree k hk).imp_value fun id t hid => hid.mono hkeeps

/-- A request that does not pass has one outcome. -/
theorem answer_of_error {t : Request (Tree α) (Tree α)} {f : Fault} (h : a.bodyOf t = .error f)
    (k : Nat) : a.answer k t = .error f := by
  cases k <;> rw [answer, h] <;> rfl

/-- A request that passes is answered by its body. -/
theorem answer_of_passes {t : Request (Tree α) (Tree α)} {body : Expr} (h : a.bodyOf t = .ok body)
    (k : Nat) : a.answer (k + 1) t =
      TreeEnv.run ⟨a, t.node.name, t.params id, a.answer k⟩ body := by
  rw [answer, h]
  rfl

section Steps

variable {r : Request ValueId Atom} {parent : Option Chain} {s : Stock} {callsLeft : Nat}

/-- A request that does not pass leaves the stock as it is. -/
theorem outcome_resolve_of_error {f : Fault} (h : a.bodyOf r = .error f) :
    (a.resolve callsLeft parent r).outcome s = (.error f, s) := by
  cases callsLeft <;> rw [resolve, h] <;> rfl

/-- Where no body may be nested any more, a request that passes is a breach. -/
theorem outcome_resolve_zero {body : Expr} (h : a.bodyOf r = .ok body) :
    (a.resolve 0 parent r).outcome s =
      (.error (.breach (.outsideCallGraph r.node.name (Chain.extend parent r.node.name).depth)),
        s) := by
  rw [resolve, h]
  cases parent <;> rfl

/-- A request for what is being computed is a breach. -/
theorem outcome_resolve_of_repeated {body : Expr} (h : a.bodyOf r = .ok body)
    (hrepeated : (parent.any fun c => c.contains r.node.name) = true) :
    (a.resolve (callsLeft + 1) parent r).outcome s =
      (.error (.breach (.outsideCallGraph r.node.name (Chain.extend parent r.node.name).depth)),
        s) := by
  have hname : (Chain.extend parent r.node.name).name = r.node.name := by
    cases parent <;> rfl
  rw [resolve, h]
  simp only [Work.ofExcept, bind, pure, hname, hrepeated, if_true]
  rfl

/-- A request that passes is looked up, or its body is run. -/
theorem resolve_of_passes {body : Expr} (h : a.bodyOf r = .ok body)
    (hfree : (parent.any fun c => c.contains r.node.name) = false) :
    a.resolve (callsLeft + 1) parent r =
      Work.remember r.key (Env.run ⟨a, Chain.extend parent r.node.name, r.params .ref,
        a.resolve callsLeft (some (Chain.extend parent r.node.name))⟩ body) := by
  have hname : (Chain.extend parent r.node.name).name = r.node.name := by
    cases parent <;> rfl
  funext s
  rw [resolve, h]
  simp only [Work.ofExcept, bind, EStateM.bind, pure, EStateM.pure, hname, hfree,
    Bool.false_eq_true, if_false]

end Steps

section Outcomes

variable {keys : List MemoKey} {s : Stock} {r : Request ValueId Atom}
  {t : Request (Tree α) (Tree α)} {work : Work ValueId}

/-- What is known about a request is what a body needs to know about it. -/
theorem ends_of_answered (h : Work.Answered α a (Explained α a) keys s r (work.outcome s))
    (hmeans : Request.Means s.pool r t) {k : Nat} (hshallow : a.Shallow k r.node)
    {B : Fault → Prop} (hB : ∀ f, a.TooDeep r.node f → B f) :
    Work.Ends α (Stock.Faithful a (Explained α a) keys) Fault.Benign B Pool.Denotes s (work s)
      (a.answer k t) := by
  obtain ⟨hgrows, hfaithful, t', ht', hexplained⟩ := h
  obtain rfl := ht'.functional (hmeans.mono hgrows.keeps)
  refine Work.ends_iff.2 ⟨hgrows, hfaithful, ?_⟩
  rcases hexplained with hagree | ⟨f, hdeep, hf⟩
  · exact .inl (hagree k hshallow)
  · exact .inr ⟨f, hB f hdeep, hf⟩

/-- What the run of a body shows is what is known about the request. -/
theorem answered_of_ends (hmeans : Request.Means s.pool r t) (hsome : ∃ k, a.Shallow k r.node)
    (h : ∀ k, a.Shallow k r.node → Work.Ends α (Stock.Faithful a (Explained α a) keys)
      Fault.Benign (a.TooDeep r.node) Pool.Denotes s (work s) (a.answer k t)) :
    Work.Answered α a (Explained α a) keys s r (work.outcome s) := by
  obtain ⟨k, hk⟩ := hsome
  obtain ⟨hgrows, hfaithful, -⟩ := Work.ends_iff.1 (h k hk)
  refine ⟨hgrows, hfaithful, t, hmeans.mono hgrows.keeps, ?_⟩
  by_cases hdeep : ∃ f, a.TooDeep r.node f ∧ (work.outcome s).1 = .error f
  · exact .inr hdeep
  · exact .inl fun k hk => (Work.ends_iff.1 (h k hk)).2.2.resolve_right hdeep

/-- A request that does not pass leaves the stock as it is. -/
theorem Sound.answered_of_error (hs : a.Sound) {callsLeft : Nat} {parent : Option Chain}
    {f : Fault} (h : a.bodyOf r = .error f) (hmeans : Request.Means s.pool r t)
    (hstock : s.Faithful a (Explained α a) keys) :
    Work.Answered α a (Explained α a) keys s r ((a.resolve callsLeft parent r).outcome s) := by
  have hbenign : f.Benign := Request.reported_bodyOf hs r f h
  rw [outcome_resolve_of_error h]
  refine ⟨.refl _, hstock, t, hmeans, .inl fun k _ => ?_⟩
  rw [answer_of_error (hmeans.bodyOf_eq ▸ h)]
  exact .error hbenign

end Outcomes

/-- What is known about every request that is issued, by a body or by none. The induction is on
the number of bodies that may still be nested; the cache stands for all the requests before. -/
theorem Sound.answered (hs : a.Sound) {callsLeft : Nat} {above : List Node}
    {parent : Option Chain} {keys : List MemoKey} {s : Stock} {r : Request ValueId Atom}
    {t : Request (Tree α) (Tree α)} (hnested : a.Nested above parent)
    (hcalls : callsLeft + above.length = a.settings.maxCallDepth)
    (hready : a.Accepts r.node → a.Ready above r.node)
    (hkeys : ∀ key ∈ keys, ∃ n ∈ above, n.name = key.name) (hdeclared : r.Declared a.program)
    (hmeans : Request.Means s.pool r t) (hstock : s.Faithful a (Explained α a) keys) :
    Work.Answered α a (Explained α a) keys s r ((a.resolve callsLeft parent r).outcome s) := by
  induction callsLeft generalizing above parent keys s r t with
  | zero =>
    rcases hbody : a.bodyOf r with f | body
    · exact hs.answered_of_error hbody hmeans hstock
    · have hstacked := (hready (Request.accepts_of_bodyOf hbody)).stacked
      have hdepth : above.length = a.settings.maxCallDepth := by omega
      rw [outcome_resolve_zero hbody, hnested.depth, hdepth]
      rw [hdepth] at hstacked
      exact ⟨.refl _, hstock, t, hmeans, .inr ⟨_, ⟨r.node, ⟨.refl, hstacked⟩, rfl⟩, rfl⟩⟩
  | succ callsLeft ih =>
    rcases hbody : a.bodyOf r with f | body
    · exact hs.answered_of_error hbody hmeans hstock
    · have haccepts := Request.accepts_of_bodyOf hbody
      have hpasses : r.Passes a body := ⟨hdeclared, hbody⟩
      obtain ⟨hfree, hkey⟩ := hnested.free hs hkeys (hready haccepts)
      have hbelow : a.Nested (r.node :: above) (some (Chain.extend parent r.node.name)) :=
        .body hnested (hready haccepts)
      have hname : (Chain.extend parent r.node.name).name = r.node.name := by
        cases parent <;> rfl
      rw [resolve_of_passes hbody hfree]
      refine hstock.remember lasting_explained hpasses hkey fun s' hpool hs' => ?_
      rw [← hpool] at hmeans
      refine answered_of_ends hmeans (hs.exists_shallow r.node) fun k hk => ?_
      rcases k with _ | k
      · exact absurd haccepts hk
      -- on trees the bound is the length of the longest chain, which goes down with each call
      rw [answer_of_passes (hmeans.bodyOf_eq ▸ hbody), ← hmeans.node_eq]
      -- a nested request has one call less, below one declaration more
      have hinner : ∀ {r' : Request ValueId Atom} {t' : Request (Tree α) (Tree α)} {s''},
          r'.node ∈ a.graph.needs.direct r.node → r'.Declared a.program →
            Stock.Faithful a (Explained α a) (r.key :: keys) s'' → Request.Means s''.pool r' t' →
              Work.Ends α (Stock.Faithful a (Explained α a) (r.key :: keys)) Fault.Benign
                (a.TooDeep r.node) Pool.Denotes s''
                (a.resolve callsLeft (some (Chain.extend parent r.node.name)) r' s'')
                (a.answer k t') := by
        intro r' t' s'' hneeds hdeclared' hs'' hmeans'
        have hinvokes : a.Accepts r'.node → a.Invokes r.node r'.node :=
          fun h => ⟨haccepts, hneeds, h⟩
        have hshallow : a.Shallow k r'.node := by
          by_cases h : a.Accepts r'.node
          · exact hk _ (hinvokes h)
          · exact .of_not_accepts h k
        have hanswered := ih hbelow (by rw [List.length_cons]; omega)
          (fun h => hbelow.ready (hinvokes h)) (running_cons hkeys r) hdeclared' hmeans' hs''
        refine ends_of_answered hanswered hmeans' hshallow fun f hf => ?_
        obtain ⟨m, hm, rfl⟩ := hf
        exact (hinvokes hm.accepts).tooDeep ⟨m, hm, rfl⟩
      obtain ⟨surroundings, hlocals, hvetted, hrel⟩ :=
        hs.envRel (Stock.Faithful.invariant α lasting_explained (r.key :: keys)) (fun f hf => hf)
          hpasses hmeans hname hinner
      exact hrel.run hlocals hvetted hs' (.refl _)

end Analysis

end ConstPool
