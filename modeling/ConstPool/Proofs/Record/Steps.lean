import ConstPool.Proofs.Interpretation.Machines
import ConstPool.Proofs.Interpretation.Written
import ConstPool.Proofs.Record.Basic
import ConstPool.Proofs.Tree.Formed

/-!
# Bodies that run on drafts beside those that keep a record

A body that runs on drafts goes through the same steps as the body that runs on the trees which the
drafts mean and keeps a record. Both come to the same result. The trees are well formed, and stay
so. What is in the record is not said here: it is for bodies that run beside others, whose stock is
not theirs alone.

A body requests nothing but what vetting has found that it needs. The body that keeps a record
checks this, and fails with a fault of its own where it is not so. A vetted body never does, and so
the one that keeps a record comes to the answer of the request.

* `Pool.Formed`: a pool of well-formed constants.
* `Stock.Chronicle`: something that is known about stocks.
* `Recording`: the surroundings of a body on drafts, and of one that keeps a record.
* `Recording.related`: their steps go together.
* `Recording.run`: both bodies come to the same result.
-/

namespace ConstPool

open Draft

variable {U : Tree Scalar → Prop}

/-! ### Well-formed constants -/

/-- Every constant of a pool is well formed. -/
def Pool.Formed (U : Tree Scalar → Prop) (pool : Pool) : Prop :=
  ∀ id t, pool.Denotes id t → t.Formed U

/-- The arguments of a request are well formed. -/
def Request.Formed (U : Tree Scalar → Prop) : Inquiry → Prop
  | .call _ types args => (∀ t ∈ types, U t ∧ t.Formed U) ∧ ∀ t ∈ args, t.Formed U
  | .read _ => True

/-- A constant of the pool is at most one tree. -/
theorem Pool.Denotes.right_unique {α : Type} [Leaf α] {pool : Pool} {id : ValueId} {t u : Tree α}
    (h : pool.Denotes id t) (h' : pool.Denotes id u) : t = u := by
  obtain ⟨a, ha, ht⟩ := h
  obtain ⟨b, hb, hu⟩ := h'
  cases ha.symm.trans hb
  exact ht.functional hu

/-- What an atom means in a later pool it means already, if it is known. -/
theorem Draft.Means.earlier {α : Type} [Leaf α] {p q : Pool} (hsound : p.Sound)
    (hkeeps : p.Keeps q) {d : Draft} {t : Tree α} (h : Means q d t) :
    ∀ a, d = .atom a → (∀ id, a = .ref id → id.index < p.size) → Means p d t := by
  induction h with
  | inPlace s => exact fun _ _ _ => .inPlace s
  | @byReference id s a hget ha =>
    rintro _ ⟨⟩ hknown
    obtain ⟨value, hvalue⟩ := Option.isSome_iff_exists.1 (Pool.get?_isSome_iff.2 (hknown id rfl))
    cases (hkeeps _ _ hvalue).symm.trans hget
    exact .byReference hvalue ha
  | @pooled id z hget _ _ hparts hargs =>
    rintro _ ⟨⟩ hknown
    obtain ⟨value, hvalue⟩ := Option.isSome_iff_exists.1 (Pool.get?_isSome_iff.2 (hknown id rfl))
    cases (hkeeps _ _ hvalue).symm.trans hget
    -- the parts of a known constant are known, since their identities are smaller
    have hchild : ∀ child ∈ (Value.shape (z.mapParts Prod.fst Prod.fst)).children,
        child.index < p.size := fun child hchild =>
      Nat.lt_trans (hsound.smaller hvalue child hchild) (Pool.lt_size_of_get? hvalue)
    refine .pooled z hvalue (fun e he => hparts e he _ rfl ?_) fun e he => hargs e he _ rfl ?_
    · intro i hi
      refine hchild i (Value.mem_children_shape.2 (.inl ?_))
      rw [Shape.partList_mapParts, ← hi]
      exact List.mem_map_of_mem he
    · rintro _ ⟨⟩
      refine hchild e.1 (Value.mem_children_shape.2 (.inr ?_))
      rw [Shape.argList_mapParts]
      exact List.mem_map_of_mem he
  | fresh z _ _ _ _ _ _ => exact fun _ hd => nomatch hd

/-- A constant that is known is in a later pool what it was. -/
theorem Pool.Denotes.earlier {α : Type} [Leaf α] {p q : Pool} (hsound : p.Sound)
    (hkeeps : p.Keeps q) {id : ValueId} (hid : id.index < p.size) {t : Tree α}
    (h : q.Denotes id t) : p.Denotes id t := by
  obtain ⟨value, hvalue⟩ := Option.isSome_iff_exists.1 (Pool.get?_isSome_iff.2 hid)
  rcases h.cases with ⟨s, hs, rfl⟩ | ⟨l, hl, hmeans⟩
  · cases (hkeeps _ _ hvalue).symm.trans hs
    exact .of_scalar hvalue
  · cases (hkeeps _ _ hvalue).symm.trans hl
    refine .of_shape hvalue (hmeans.earlier hsound hkeeps _ rfl ?_)
    rintro _ ⟨⟩
    exact hid

/-- A pool that grows by well-formed constants stays well formed. -/
theorem Pool.Formed.extends {p q : Pool} (h : p.Formed U) (hsound : p.Sound) {P : Tree Scalar → Prop}
    (hextends : p.Extends P q) (hP : ∀ t, P t → t.Formed U) : q.Formed U := by
  intro id t ht
  by_cases hid : id.index < p.size
  · exact h id t (ht.earlier hsound hextends.keeps hid)
  · obtain ⟨value, hvalue⟩ := Option.isSome_iff_exists.1 (Pool.get?_isSome_iff.2 ht.known)
    obtain ⟨u, hu, hdenotes⟩ :=
      hextends.added (Pool.get?_eq_none_iff.2 (Nat.le_of_not_lt hid)) hvalue
    rw [ht.right_unique hdenotes]
    exact hP u hu

/-! ### Surroundings without requests -/

/-- The surroundings of a body on drafts, over a pool, and of one on trees, apart from the requests.
-/
structure Env.Mirrors (env : Env) (pool : Pool) (env' : TreeEnv Scalar) : Prop where
  analysis : env'.analysis = env.analysis
  owner : env'.owner = env.owner
  params : DictRel (fun a t => Means pool (.atom a) t) env.params env'.params
  /-- A function is called by the name under which it was declared. -/
  named : ∀ {name f}, env.analysis.program.functions.get? name = some f → f.qualifiedName = name

/-- They are surroundings of a body that requests nothing. -/
theorem Env.Mirrors.envRel {env : Env} {pool : Pool} {env' : TreeEnv Scalar}
    (h : env.Mirrors pool env') :
    EnvRel (fun s => s.pool.Sound) Fault.Benign (fun _ => False) []
      ⟨env.owner, env.analysis.program, env.analysis.types, [], [], [], false⟩ pool env env' where
  invariant := ⟨fun h => h, fun _ h => h.sound⟩
  benign _ hf := hf
  analysis := h.analysis
  owner := h.owner
  program := rfl
  types := rfl
  params := h.params
  bound _ hname := hname.elim (fun h => nomatch h) fun h => nomatch h
  named := h.named
  request _ hneeds := nomatch hneeds

/-- A draft is null if the tree is that it means. -/
theorem Draft.Means.isNull_eq {α : Type} [Leaf α] {pool : Pool} {d : Draft} {t : Tree α}
    (h : Means pool d t) : d.isNull = decide (t.scalar? = some .null) := by
  rw [← h.scalar?]
  rcases d with ⟨(_ | b | i | x) | id⟩ | l <;> rfl

/-! ### Constants that are pooled -/

/-- The constants of a node that an atom means are in the pool. -/
theorem Draft.Means.exists_denotes {α : Type} [Leaf α] {pool : Pool} {a : Atom} {t u : Tree α}
    (h : Means pool (.atom a) t) (hu : u.Within t) : ∃ id, pool.Denotes id u := by
  induction hu generalizing a with
  | self layer =>
    obtain ⟨id, l, rfl, hget, -⟩ := node_iff.1 h
    exact ⟨id, .of_shape hget h⟩
  | @part layer t u ht _ ih =>
    obtain ⟨id, l, rfl, hget, hl⟩ := node_iff.1 h
    obtain ⟨b, -, hb⟩ := exists_of_forall₂ hl.partList.flip ht
    exact ih hb
  | @arg layer t u ht _ ih =>
    obtain ⟨id, l, rfl, hget, hl⟩ := node_iff.1 h
    obtain ⟨b, -, hb⟩ := exists_of_forall₂ hl.argList.flip ht
    exact ih hb

/-- Something that is known about stocks: the constants in them are well formed, and it is kept when
more of them are pooled. -/
structure Stock.Chronicle (U : Tree Scalar → Prop) (H : Stock → Prop) : Prop where
  sound : ∀ {s}, H s → s.pool.Sound
  formed : ∀ {s}, H s → s.pool.Formed U
  pools : ∀ {s s' t}, H s → s.Extends (fun u : Tree Scalar => u.Within t) s' → t.Formed U → H s'

/-- Drafts over stocks and the well-formed trees that they mean, beside a record. -/
def Stock.recording (U : Tree Scalar → Prop) (H : Stock → Prop) (B : Fault → Prop) :
    Correspondence Stock Draft Log (Tree Scalar) where
  World := Pool
  le := Pool.Grows Scalar
  refl := .refl
  trans := .trans
  world := Stock.pool
  stands pool d t := Draft.Means pool d t ∧ t.Formed U
  mono hgrows h := ⟨h.1.mono hgrows.keeps, h.2⟩
  holds s _ := H s
  shared := Fault.Benign
  excused _ := B

section Steps

variable {H : Stock → Prop} {B : Fault → Prop} {w : Pool} {names : List String}
  {β γ : Type} {V : Pool → β → γ → Prop}

/-- How a computation on a stock compares to a known result: the stock has grown and what is known
about it is kept, and the results correspond, unless a fault is excused. -/
structure Work.Charts (H : Stock → Prop) (B : Fault → Prop) (V : Pool → β → γ → Prop)
    (s : Stock) (x : Except Fault β × Stock) (p : Except Fault γ) : Prop where
  grows : s.pool.Grows Scalar x.2.pool
  holds : H x.2
  agree : Agree Fault.Benign (V x.2.pool) x.1 p ∨ ∃ f, B f ∧ x.1 = .error f

/-- More faults are excused. -/
theorem Work.Charts.imp {B' : Fault → Prop} {s : Stock} {x : Except Fault β × Stock}
    {p : Except Fault γ} (h : Work.Charts H B V s x p) (hB : ∀ f, B f → B' f) :
    Work.Charts H B' V s x p :=
  ⟨h.grows, h.holds, h.agree.imp_right fun ⟨f, hf, heq⟩ => ⟨f, hB f hf, heq⟩⟩

/-- A computation on the stock, and a change of the record. -/
theorem Sim.onLog {work : Work β} {change : Log → Log} {p : Except Fault γ}
    (h : ∀ s, w.Grows Scalar s.pool → H s → Work.Charts H B V s (work.outcome s) p) :
    Sim (Stock.recording U H B) w names names V (Eval.onStock work) (Eval.onLog change p) := by
  rintro ⟨stock, scopes, left⟩ ⟨log, scopes', left'⟩ hn
  obtain ⟨hgrows, hholds, hagree⟩ := h stock hn.later hn.holds
  have hafter : ∀ {s : Stock} {log' : Log}, stock.pool.Grows Scalar s.pool → H s →
      After (Stock.recording U H B) ⟨stock, scopes, left⟩ ⟨s, scopes, left⟩ ⟨log', scopes', left'⟩ :=
    fun hgrows hholds => ⟨hgrows, hholds, hn.scopes.imp fun _ _ hd =>
      hd.imp fun _ _ h => ⟨h.1.mono hgrows.keeps, h.2⟩, hn.left, .refl _⟩
  unfold Work.outcome at hgrows hholds hagree
  simp only [Eval.onStock, Eval.onLog]
  generalize work stock = r at hgrows hholds hagree ⊢
  rcases hagree with hagree | ⟨f, hf, heq⟩
  · cases r with
    | ok b s' =>
      cases hagree with
      | ok hV => exact .ok (hafter hgrows hholds) hn.binds hV
    | error g s' =>
      cases hagree with
      | error hg => exact .stop (hafter hgrows hholds) (.fault hg)
  · cases r with
    | ok b s' => cases heq
    | error g s' =>
      cases heq
      exact .excused (u := log) hgrows hholds hf

/-- Pooling, which is recorded. -/
theorem Stock.Chronicle.adds (hH : Stock.Chronicle U H) (atom : β → Atom) {work : Work β}
    {t : Tree Scalar} (hformed : t.Formed U)
    (hwork : work.Adds (fun u : Tree Scalar => u.Within t) w
      fun q b => Means q (.atom (atom b)) t) :
    Sim (Stock.recording U H B) w names names
      (fun q b u => u = t ∧ Means q (.atom (atom b)) t) (Eval.onStock work)
      (Eval.onLog (·.pool t) (.ok t)) := by
  refine Sim.onLog fun s hgrows hs => ?_
  obtain ⟨b, s', hrun, hadds, hb⟩ := hwork s hgrows.keeps (hH.sound hs)
  have houtcome : work.outcome s = (.ok b, s') := by
    rw [Work.outcome, hrun]
  rw [houtcome]
  exact ⟨hadds.pool.imp fun _ _ => trivial, hH.pools hs hadds hformed, .inl (.ok ⟨rfl, hb⟩)⟩

end Steps

/-! ### Questions -/

section Questions

variable {m m' : Type → Type} [Monad m] [Monad m'] {C : Correlation m m' Draft (Tree Scalar)}
  {types : C.World → Draft → Tree Scalar → Prop} {w : C.World} {β γ : Type} {q : Question Draft β}
  {q' : Question (Tree Scalar) γ} {V : C.World → β → γ → Prop}

/-- A question about drafts over a pool and the well-formed trees that they mean has answers that
correspond. -/
theorem Question.Rel.agree (h : q.Rel C types w q' V) {pool : Pool} (hsound : pool.Sound)
    (hstands : ∀ {d t}, C.stands w d t ↔ Means pool d t ∧ t.Formed U)
    (htypes : ∀ {d t}, types w d t → Means pool d t) {a : Analysis} {env' : TreeEnv Scalar}
    (hquery : ∀ q {d t}, Means pool d t →
      Agree Fault.Benign (Means pool) (a.queryType q d pool) (env'.queryType q t)) :
    Agree Fault.Benign (V w) (q.onDrafts a pool) (q'.onTrees env') := by
  have hstands' : ∀ {d t}, C.stands w d t → Means pool d t ∧ t.Formed U := hstands.1
  have hconstant : ∀ {x : Except Fault Draft} {y : Except Fault (Tree Scalar)},
      Agree Fault.Benign (fun d t => Means pool d t ∧ t.Formed U) x y →
        Agree Fault.Benign (C.stands w) x y := fun h => h.imp_value fun _ _ => hstands.2
  cases h with
  | unary op hd =>
    exact hconstant (((hstands' hd).1.unary op).and (Tree.Formed.unary op _))
  | binary op hl hr =>
    have hl := hstands' hl
    have hr := hstands' hr
    exact hconstant ((hl.1.binary hsound op hr.1).and (hl.2.binary op hr.2))
  | truth role hd => exact (hstands' hd).1.asBool role
  | integer role hd => exact (hstands' hd).1.asInt role
  | elements hd =>
    have hd := hstands' hd
    refine (hd.1.elements.and hd.2.elements).imp_value fun ds ts hds => ?_
    exact ((List.forall₂_and_left _ _).2 ⟨hds.2, hds.1.flip⟩).flip.imp fun _ _ h =>
      hstands.2 ⟨h.2, h.1⟩
  | newKey hk hgiven =>
    have hgiven' := hgiven.imp fun _ _ he => And.intro (hstands' he.1).1 (hstands' he.2).1
    exact ((hstands' hk).1.ensureNewKey hsound hgiven').imp_value fun _ _ _ => trivial
  | index ht hp =>
    have ht := hstands' ht
    exact hconstant ((ht.1.index hsound (hstands' hp).1).and (ht.2.index _))
  | member name ht =>
    have ht := hstands' ht
    exact hconstant ((ht.1.member name).and (ht.2.member name))
  | query q ht => exact hconstant ((hquery q (htypes ht)).and (Tree.Formed.queryType q _))
  | @message d t hd =>
    have hmessage : d.message pool = .ok t.message := (hstands' hd).1.message hsound
    show Agree Fault.Benign _ (d.message pool) _
    rw [hmessage]
    exact .ok rfl

end Questions

/-! ### Surroundings -/

/-- The body of an environment within which nothing is requested but what it needs. -/
def Env.within (env : Env) (needs : List Node) : Env :=
  { env with request := fun r => if r.node ∈ needs then env.request r else throw r.unneeded }

/-- A request for a node that is needed is passed on. -/
theorem Env.request_within {env : Env} {needs : List Node} {r : Request ValueId Atom}
    (h : r.node ∈ needs) : (env.within needs).request r = env.request r := if_pos h

/-- Any other request is refused. -/
theorem Env.request_within_of_not {env : Env} {needs : List Node} {r : Request ValueId Atom}
    (h : r.node ∉ needs) : (env.within needs).request r = throw r.unneeded := if_neg h

/-- A name without a value is reported. -/
theorem Analysis.benign_noValue (a : Analysis) (owner name : String) :
    (a.noValue owner name).Benign := by
  unfold Analysis.noValue
  split
  · rfl
  · split <;> rfl

/-- The surroundings of a body on drafts, in a world `w`, and of one that keeps a record. What the
body may use is said by `s`, and it needs nothing but `needs`. -/
structure Recording (U : Tree Scalar → Prop) (H : Stock → Prop) (B : Fault → Prop)
    (needs : List Node) (s : Surroundings) (w : Pool) (env : Env) (env' : TreeEnv Scalar) : Prop
    where
  chronicle : Stock.Chronicle U H
  type : ∀ name args, U (.type name args)
  analysis : env'.analysis = env.analysis
  owner : env'.owner = env.owner
  params : DictRel (fun a t => Draft.Means w (.atom a) t ∧ t.Formed U) env.params env'.params
  typeParams : ∀ name ∈ s.typeParams, ∀ t, env'.params.get? name = some t → U t
  /-- A function is called by the name under which it was declared. -/
  named : ∀ {name f}, env.analysis.program.functions.get? name = some f → f.qualifiedName = name
  request : ∀ {stock r t}, w.Grows Scalar stock.pool → H stock → r.node ∈ needs →
    r.Declared env.analysis.program → Request.Means stock.pool r t → t.Formed U →
    Work.Charts H B Pool.Denotes stock ((env.request r).outcome stock) (env'.request t)
  /-- What a body would fail with if it requested more than it needs. -/
  unneeded : ∀ r : Request ValueId Atom, B r.unneeded

namespace Recording

variable {H : Stock → Prop} {B : Fault → Prop} {needs : List Node} {s : Surroundings}
  {w v : Pool} {env : Env} {env' : TreeEnv Scalar} {names : List String}

/-- A draft and the well-formed tree that it means. -/
abbrev Stands (U : Tree Scalar → Prop) (pool : Pool) (d : Draft) (t : Tree Scalar) : Prop :=
  Draft.Means pool d t ∧ t.Formed U

/-- A draft of a type and the well-formed tree that it means. -/
structure StandsType (U : Tree Scalar → Prop) (pool : Pool) (d : Draft) (t : Tree Scalar) : Prop
    where
  stands : Stands U pool d t
  type : U t
  scalar : d.scalar? = none

/-- What the surroundings have to do with types. -/
theorem plain (h : Recording U H B needs s w env env') (hv : w.Grows Scalar v) :
    (env.within needs).Mirrors v env' where
  analysis := h.analysis
  owner := h.owner
  params := h.params.imp fun _ _ hd => hd.1.mono hv.keeps
  named := h.named

/-- A request within the body. -/
theorem fetch (h : Recording U H B needs s w env env') (hv : w.Grows Scalar v)
    {r : Request ValueId Atom} {t : Inquiry} (hdeclared : r.Declared env.analysis.program)
    (hr : Request.Means v r t) (hformed : t.Formed U) :
    Sim (Stock.recording U H B) v names names (Stands U) ((env.within needs).fetch r)
      (env'.consult needs t) := by
  rw [Env.fetch, TreeEnv.consult, ← hr.node_eq, h.analysis]
  by_cases hneeds : r.node ∈ needs
  · rw [Env.request_within hneeds, if_pos hneeds,
      ← bind_pure (Eval.onLog (fun log => log.note env.analysis t) (env'.request t))]
    -- the request answers with an identity, of which the atom is asked after it; on trees the answer
    -- is the constant itself
    have hcall : Sim (Stock.recording U H B) v names names
        (fun q id u => q.Denotes id u ∧ u.Formed U) (Eval.onStock (env.request r))
        (Eval.onLog (fun log => log.note env.analysis t) (env'.request t)) := by
      refine Sim.onLog fun stock hgrows hstock => ?_
      have hcharts := h.request (hv.trans hgrows) hstock hneeds hdeclared (hr.mono hgrows.keeps)
        hformed
      refine ⟨hcharts.grows, hcharts.holds, hcharts.agree.imp_left fun hagree => ?_⟩
      exact hagree.imp_value fun id u hid => ⟨hid, h.chronicle.formed hcharts.holds id u hid⟩
    refine hcall.bind fun q id u _ hid => ?_
    obtain ⟨⟨a, hatom, ha⟩, hu⟩ := hid
    have hask : Sim (Stock.recording U H B) q names names
        (fun q a u => Stands U q (.atom a) u) (Eval.ask fun pool => pool.atomOf id)
        (Eval.ofExcept (.ok u)) := by
      refine Sim.question fun stock log (hgrows : Pool.Grows Scalar q stock.pool) _ => ?_
      have hatom' : stock.pool.atomOf id = .ok a := hgrows.keeps.atomOf hatom
      rw [hatom']
      exact .ok ⟨ha.mono hgrows.keeps, hu⟩
    rw [← bind_pure (Pure.pure u)]
    refine hask.bind fun q' a u _ ha => .pure fun q'' (hgrows : Pool.Grows Scalar q' q'') => ?_
    exact ⟨ha.1.mono hgrows.keeps, ha.2⟩
  · rw [Env.request_within_of_not hneeds]
    exact fun m n hn => .excused (u := n.stock) (Pool.Extends.refl _) hn.holds (h.unneeded r)

/-- The value of a name. -/
theorem lookup (h : Recording U H B needs s w env env') (hv : w.Grows Scalar v) (name : String) :
    Sim (Stock.recording U H B) v names names (Stands U) ((env.within needs).lookup name)
      (env'.find needs name) := by
  refine Sim.get_bind fun m n hn => ?_
  have hfind := ScopesRel.find? hn.scopes name
  have hlater : v.Grows Scalar m.stock.pool := hn.later
  generalize m.scopes.find? name = x at hfind ⊢
  generalize n.scopes.find? name = y at hfind ⊢
  cases hfind with
  | some hd => exact .ok (.refl hn) hn.binds hd
  | none =>
    have hparam := h.params name
    have hparams : (env.within needs).params = env.params := rfl
    rw [hparams]
    generalize env.params.get? name = x at hparam ⊢
    generalize env'.params.get? name = y at hparam ⊢
    cases hparam with
    | some ha =>
      exact .ok (.refl hn) hn.binds ⟨ha.1.mono (hv.trans hlater).keeps, ha.2⟩
    | none =>
      have hanalysis : (env.within needs).analysis = env.analysis := rfl
      have howner : (env.within needs).owner = env.owner := rfl
      rw [h.analysis, h.owner, hanalysis, howner]
      dsimp only
      split
      · have hdeclared : Request.Declared env.analysis.program (.read name : Request ValueId Atom) :=
          trivial
        exact h.fetch hv hdeclared (.read name) trivial m n hn
      · exact Sim.raise (Analysis.benign_noValue env.analysis env.owner name) m n hn

/-- The integers of a range. -/
theorem range (h : Recording U H B needs s w env env') (start stop : Int64) :
    Sim (Stock.recording U H B) v names names (Stands U) ((env.within needs).range start stop)
      (env'.integers start stop) := by
  have hexhausted : env'.exhausted = (env.within needs).exhausted := by
    rw [TreeEnv.exhausted, h.analysis, h.owner]
    rfl
  have hbenign : (env.within needs).exhausted.Benign := rfl
  rw [Env.range, TreeEnv.integers, hexhausted]
  refine (Sim.spend hbenign _).bind fun w₁ _ _ _ _ => .pure fun w₂ _ => ⟨.list ?_, .list ?_⟩
  · rw [Array.toList_map, Array.toList_map]
    exact EnvRel.forall₂_map _ fun i => .scalar _
  · rw [Array.toList_map]
    intro t ht
    obtain ⟨i, -, rfl⟩ := List.mem_map.1 ht
    exact .scalar _

/-- A question about constants that correspond. -/
theorem ask (h : Recording U H B needs s w env env') (hv : w.Grows Scalar v) {β γ : Type}
    {q : Question Draft β} {q' : Question (Tree Scalar) γ}
    {V : ((Stock.recording U H B).correlation w).World → β → γ → Prop}
    (hq : q.Rel ((Stock.recording U H B).correlation w) (StandsType U) v q' V) :
    Sim (Stock.recording U H B) v names names V
      (Eval.ask (q.onDrafts (env.within needs).analysis)) (Eval.ofExcept (q'.onTrees env')) := by
  refine Sim.question fun stock log (hgrows : v.Grows Scalar stock.pool) hstock => ?_
  have hlater : q.Rel ((Stock.recording U H B).correlation w) (StandsType U) stock.pool q' V :=
    hq.mono hgrows fun hd => ⟨⟨hd.stands.1.mono hgrows.keeps, hd.stands.2⟩, hd.type, hd.scalar⟩
  have hsound := h.chronicle.sound hstock
  exact hlater.agree hsound .rfl (fun hd => hd.stands.1) fun q _ _ hd =>
    (h.plain (hv.trans hgrows)).envRel.queryType hsound q hd

/-- The steps of a body that runs on drafts go together with those of the body that keeps a
record. -/
theorem related (h : Recording U H B needs s w env env') :
    Interpretation.Related ((Stock.recording U H B).correlation w) (StandsType U)
      (fun pool id t => Draft.Means pool (.atom (.ref id)) t ∧ U t ∧ t.Formed U)
      (fun pool a t => Draft.Means pool (.atom a) t ∧ t.Formed U) (fun t => t.vet s = .ok ())
      (env.within needs).interpretation (env'.recorder needs) where
  toRelated := by
    have hexhausted : env'.exhausted = (env.within needs).exhausted := by
      rw [TreeEnv.exhausted, h.analysis, h.owner]
      rfl
    show Control.Related _ (Eval.control (env.within needs).exhausted)
      (Eval.control env'.exhausted)
    rw [hexhausted]
    exact (Stock.recording U H B).control w (fun _ hf => hf) rfl
  program := congrArg Analysis.program h.analysis
  objectTypes := congrArg Analysis.types h.analysis
  owner := h.owner
  scalar _ s := ⟨.scalar s, .scalar s⟩
  layer hordered hlayer := by
    have hargs := hlayer.argList
    refine ⟨.of_fresh hordered (hlayer.imp (fun _ _ hd => hd.1) fun _ _ hfalse => hfalse.elim), ?_⟩
    refine .node (Tree.Formed.of_forall₂ hlayer.partList fun _ _ hd => hd.2) fun t ht => ?_
    obtain ⟨_, -, hfalse⟩ := exists_of_forall₂ hargs.flip ht
    exact hfalse.elim
  isNull hd := hd.1.isNull_eq
  lookup v name hv := h.lookup hv name
  range v a b _ := h.range a b
  ask hq hv := h.ask hv hq
  type {v t} ht hv := by
    refine Sim.ofExcept fun v' hle => ?_
    have hv' : w.Grows Scalar v' := Pool.Extends.trans hv hle
    refine ((TypeExpr.agree (h.plain hv').envRel t).and (TypeExpr.formed h.type ?_ t ht)).imp_value ?_
    · intro name hname u hu
      have hparam := h.params name
      rw [hu] at hparam
      refine ⟨h.typeParams name hname u hu, ?_⟩
      generalize env.params.get? name = x at hparam
      cases hparam with
      | some hd => exact hd.2
    · rintro d u ⟨⟨hd, hscalar⟩, hu⟩
      exact ⟨⟨hd, hu.2⟩, hu.1, hscalar⟩
  constant hd := hd.stands
  poolType {v d t} hd hv := by
    refine (h.chronicle.adds Atom.ref hd.stands.2
      (hd.stands.1.poolsType hd.scalar fun _ hu => hu)).imp ?_
    rintro q id _ ⟨rfl, hid⟩
    exact ⟨hid, hd.type, hd.stands.2⟩
  pool {v d t} hd hv := by
    refine (h.chronicle.adds id hd.2
      ((hd.1.pools fun _ hu => hu).imp fun q a ha => ha.1)).imp ?_
    rintro q a _ ⟨rfl, ha⟩
    exact ⟨ha, hd.2⟩
  typeArgs_mono hle hid := ⟨hid.1.mono (Pool.Extends.keeps hle), hid.2⟩
  args_mono hle ha := ⟨ha.1.mono (Pool.Extends.keeps hle), ha.2⟩
  call {v name f is js as bs} hcallee htypes hargs hv := by
    have hget : env.analysis.program.functions.get? name = some f :=
      Analysis.get?_of_callee hcallee
    have hdeclared : Request.Declared env.analysis.program (.call f is as) := by
      show env.analysis.program.functions.get? f.qualifiedName = some f
      rw [h.named hget]
      exact hget
    refine h.fetch hv hdeclared ?_ ⟨?_, ?_⟩
    · exact .call f (htypes.imp fun _ _ h => h.1) (hargs.imp fun _ _ h => h.1)
    · intro t ht
      obtain ⟨_, -, hid⟩ := exists_of_forall₂ htypes.flip ht
      exact hid.2
    · exact Tree.Formed.of_forall₂ hargs fun _ _ ha => ha.2

end Recording

/-! ### Whole bodies -/

/-- How the run of a body ends, beside one that has come to `result`. The body comes to the same
constant, which is pooled in the end, or it fails with the same fault. -/
inductive Work.Leads (U : Tree Scalar → Prop) (H : Stock → Prop) (B : Fault → Prop)
    (result : Except Fault (Tree Scalar)) : EStateM.Result Fault Stock ValueId → Prop
  | ok {id : ValueId} {s s' : Stock} {t : Tree Scalar} : result = .ok t → H s →
    s.Extends (fun u => u = t ∨ u.Within t) s' → s'.pool.Denotes id t → t.Formed U →
      Work.Leads U H B result (.ok id s')
  | error {f : Fault} {s : Stock} : result = .error f → f.Benign → H s →
    Work.Leads U H B result (.error f s)
  | excused {f : Fault} {s : Stock} : B f → H s → Work.Leads U H B result (.error f s)

/-- A whole body. -/
theorem Recording.run {H : Stock → Prop} {B : Fault → Prop} {needs : List Node}
    {s : Surroundings} {w : Pool} {env : Env} {env' : TreeEnv Scalar}
    (h : Recording U H B needs s w env env') {body : Expr} (hvet : Vetted needs (body.vet s))
    {stock : Stock} (hstock : H stock) (hlater : w.Grows Scalar stock.pool) :
    Work.Leads U H B (env'.ended (env'.recording needs body)) ((env.within needs).run body stock) := by
  have hrelated := Expr.related h.related w body (Expr.vet_types body s hvet)
  rw [Expr.eval_eq] at hrelated
  have hnear : Near (Stock.recording U H B) w []
      ⟨stock, [.empty], (env.within needs).analysis.settings.stepBudget⟩
      ⟨{}, [.empty], env'.analysis.settings.stepBudget⟩ := by
    refine ⟨hlater, hstock, .cons .empty .nil, ?_, List.cons_ne_nil _ _, List.forall_mem_nil _⟩
    rw [h.analysis]
    rfl
  have hends := hrelated (Pool.Extends.refl w) _ _ hnear
  -- what is left is to pool the value, and what this adds is the value and its parts
  have hvalue : ∀ {d : Draft} {t : Tree Scalar} {s' : Stock}, H s' →
      Recording.Stands U s'.pool d t → Work.Leads U H B (.ok t.settled)
        ((do
          let atom ← d.intern
          Work.onPool (Pool.internAtom atom) : Work ValueId) s') := by
    intro d t s' hholds hd
    have hsettles := hd.1.settles (P := fun u => u = t.settled ∨ u.Within t.settled)
      (fun u hu => .inr (hu.settled)) (.inl rfl)
    obtain ⟨id, s'', hrun, hadds, hid⟩ := hsettles s' (.refl _) (h.chronicle.sound hholds)
    rw [hrun]
    exact .ok rfl hholds hadds hid hd.2.settled
  have howner : (env.within needs).owner = env.owner := rfl
  rw [← h.owner] at howner
  unfold Env.run Env.finish TreeEnv.recording
  generalize body.eval (env.within needs) _ = r at hends ⊢
  generalize body.evalIn (env'.recorder needs) _ = r' at hends ⊢
  cases hends with
  | ok hafter _ hd => exact hvalue hafter.holds hd
  | stop hafter hs =>
    cases hs with
    | result hd => exact hvalue hafter.holds hd
    | leaveLoop => exact .error (by rw [howner]; rfl) rfl hafter.holds
    | nextRound => exact .error (by rw [howner]; rfl) rfl hafter.holds
    | fault hf => exact .error rfl hf hafter.holds
  | excused _ hholds hf => exact .excused hf hholds

end ConstPool
