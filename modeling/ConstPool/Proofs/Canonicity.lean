import ConstPool.Proofs.Evaluation
import ConstPool.Proofs.Record.Requests
import ConstPool.Proofs.Sharing

/-!
# The canonical form is kept

A pool is normal if all that is in it is in canonical form and the arguments of types are types.
Whatever was done to come to a normal pool, a site that is evaluated keeps it normal, whether it
comes to a constant or fails: what a body makes is in canonical form if what it is made of is. And
in a normal pool no other identity has the constant that a site comes to.

A pool is normal if and only if its constants are trees of scalars that are well formed. So this
follows from what is known about bodies that run on trees.

The proof compares the run with one on trees of scalars. On trees there is no pool, so everything
that is made is well formed if the arguments are; and the trees that a run adds to the pool are
nodes of what the run on trees has made. A tree of scalars has one constant, and a pool without
slots for scalars holds each tree once, so the identity to which a site comes is the only one of
its constant.

That a site may fail after it has pooled arguments for a call is no exception: those constants stay
in the pool, and they are normal, too.

* `Pool.Normal`: the canonical form.
* `Stock.Faithful.of_canonical`: the cache of a stock whose pool is in canonical form.
* `Session.normal_after_site`: a site keeps the form.
-/

namespace ConstPool

open Draft Relation

/-! ### Types in a pool -/

/-- A tree that is a type. -/
def Tree.IsType {α : Type} (t : Tree α) : Prop := ∃ name args, t = .type name args

/-- An identity is that of a type if the tree is a type. -/
theorem Draft.Means.isType_iff {α : Type} [Leaf α] {pool : Pool} {id : ValueId} {t : Tree α}
    (h : Means pool (.atom (.ref id)) t) : pool.IsType id ↔ t.IsType := by
  constructor
  · rintro ⟨name, args, hget⟩
    rcases h.of_ref with ⟨s, _, hget', -, -⟩ | ⟨l, m, hget', hl, rfl⟩
    · cases hget.symm.trans hget'
    · cases hget.symm.trans hget'
      cases hl with
      | type _ hargs => exact ⟨name, _, rfl⟩
  · rintro ⟨name, args, ht⟩
    rcases h.of_ref with ⟨_, _, _, _, rfl⟩ | ⟨l, m, hget, hl, rfl⟩
    · cases ht
    · cases ht
      cases hl with
      | type _ hargs => exact ⟨name, _, hget⟩

namespace Pool

variable {p q pool : Pool}

/-- All constants are in canonical form, and the arguments of types are types. -/
structure Normal (pool : Pool) : Prop where
  canonical : pool.Canonical
  typeArgs : ∀ id layer, pool.get? id = some (.shape layer) → ∀ arg ∈ layer.argList, pool.IsType arg

/-- If the arguments of types are types then this is so for the trees of the pool. -/
theorem Normal.formed (h : pool.Normal) : pool.Formed Tree.IsType := by
  intro id t ht layer hlayer u hu
  have hnode : ∃ i, pool.Denotes i (.node layer) := by
    rcases ht.cases with ⟨s, -, rfl⟩ | ⟨l, -, hmeans⟩
    · cases hlayer
    · exact hmeans.exists_denotes hlayer
  obtain ⟨i, hi⟩ := hnode
  rcases hi.cases with ⟨s, -, heq⟩ | ⟨_, -, hmeans⟩
  · cases heq
  · obtain ⟨_, l, ⟨⟩, hget, hl⟩ := Draft.Means.node_iff.1 hmeans
    obtain ⟨arg, harg, hmeansArg⟩ := exists_of_forall₂ hl.argList.flip hu
    exact hmeansArg.isType_iff.1 (h.typeArgs i l hget arg harg)

/-- A pool in canonical form is normal if its trees are well formed. -/
theorem Canonical.normal (h : pool.Canonical) (hsound : pool.Sound)
    (hformed : pool.Formed Tree.IsType) : pool.Normal where
  canonical := h
  typeArgs := by
    intro id layer hget arg harg
    obtain ⟨t, ht⟩ : ∃ t : Tree Scalar, Means pool (.atom (.ref id)) t :=
      Atom.InPlace.exists_means hsound h.inPlace ⟨layer, hget⟩
    have hwell : t.Formed Tree.IsType := hformed id t (.of_shape hget ht)
    obtain ⟨l, m, hget', hl, rfl⟩ := ht.exists_layer
    cases hget.symm.trans hget'
    obtain ⟨u, hu, hmeans⟩ := exists_of_forall₂ hl.argList harg
    exact hmeans.isType_iff.2 (hwell m (.self m) u hu)

/-- What is in canonical form in a later pool was so before. -/
theorem Canonical.earlier (h : q.Canonical) (hkeeps : p.Keeps q) : p.Canonical := by
  intro id value hget
  have hvalue := h id value (hkeeps id value hget)
  cases value with
  | scalar s => trivial
  | shape layer =>
    exact ⟨hvalue.1, fun child hchild s hs => hvalue.2 child hchild s (hkeeps child _ hs)⟩

end Pool

/-! ### The cache -/

/-- If a pool has come to be in canonical form, it always was. So the cache tells what is so on
trees of scalars, whichever values were handed in. -/
theorem Stock.Faithful.of_canonical {a : Analysis} (hs : a.Sound) {s : Stock}
    (h : ReflTransGen (Stock.Step a (fun _ _ => True) fun pool r => r.InPlace pool) {} s)
    (hcanonical : s.pool.Canonical) : s.Faithful a (a.Explained Scalar) [] := by
  induction h with
  | refl => exact .of_empty Pool.sound_empty rfl
  | @tail s s' hsteps hstep ih =>
    have hreached : s.Reached a := Stock.steps_mono (fun _ _ h => h) (fun _ _ h => h.known) hsteps
    have hknown := hstep.mono (fun _ _ h => h) fun _ _ h => Request.InPlace.known h
    have hkeeps := (hknown.faithful hs.upholds_explained (hreached.faithful hs.upholds_explained)).2
    have hearlier := hcanonical.earlier hkeeps
    have hfaithful := ih hearlier
    cases hstep with
    | @intern value => exact (hfaithful.intern Analysis.lasting_explained value).1
    | request hdeclared hr =>
      obtain ⟨t, ht⟩ := hr.exists_means hfaithful.sound hearlier.inPlace
      exact (hs.answered_invoke hdeclared ht hfaithful).faithful
    | use user id => exact hfaithful.later Analysis.lasting_explained rfl (.refl _) hfaithful.sound

/-! ### Sites -/

/-- What an atom means in a pool of well-formed constants is well formed. -/
theorem Pool.Formed.of_means {pool : Pool} {U : Tree Scalar → Prop} (h : pool.Formed U) {a : Atom}
    {t : Tree Scalar} (ht : Means pool (.atom a) t) : t.Formed U := by
  cases a with
  | scalar s =>
    rw [Means.scalar_iff.1 ht]
    exact .leaf _
  | ref id =>
    obtain ⟨l, _, hget, -, -⟩ := ht.exists_layer
    exact h id t (.of_shape hget ht)

/-- A request whose type arguments are types, for constants of a normal pool, is one for well-formed
trees. -/
theorem Pool.Normal.exists_means {pool : Pool} (h : pool.Normal) (hsound : pool.Sound)
    {f : FunctionDecl} {types : List ValueId} {args : List Atom}
    (htypes : ∀ id ∈ types, pool.IsType id) (hargs : ∀ x ∈ args, x.InPlace pool) :
    ∃ t : Inquiry, Request.Means pool (.call f types args) t ∧ t.Formed Tree.IsType := by
  have hinplace : Request.InPlace pool (.call f types args) :=
    ⟨fun id hid => (htypes id hid).inPlace, hargs⟩
  obtain ⟨t, ht⟩ := hinplace.exists_means hsound h.canonical.inPlace
  refine ⟨t, ht, ?_⟩
  cases ht with
  | call f htrees hargTrees =>
    refine ⟨fun u hu => ?_, Tree.Formed.of_forall₂ hargTrees fun x u hx => h.formed.of_means hx⟩
    obtain ⟨id, hid, hmeans⟩ := exists_of_forall₂ htrees.flip hu
    exact ⟨hmeans.isType_iff.1 (htypes id hid), h.formed.of_means hmeans⟩

/-- A site keeps the form of the pool. -/
theorem Analysis.Sound.normal_resolveSite {a : Analysis} (hs : a.Sound) {s : Stock}
    (hnodup : ∀ {name f}, a.program.functions.get? name = some f → (f.params.map Param.name).Nodup)
    (hfaithful : s.Faithful a (a.Explained Scalar) []) (h : s.pool.Normal) (site : Site) :
    ((a.resolveSite site).outcome s).2.pool.Normal := by
  rcases a.resolveSite_spec hs.program site (S := (· = s)) (p := s.pool)
    (fun id _ s' hs' => by rw [hs']) with
    ⟨f, hrun, -⟩ | ⟨f, types, args, -, hdeclared, htypes, hargs, hrun⟩
  · rw [hrun s rfl]
    exact h
  · rw [hrun s rfl]
    obtain ⟨t, hmeans, hformed⟩ := h.exists_means (f := f) hfaithful.sound htypes hargs
    obtain ⟨reply, hreply⟩ := hs.exists_replies
    have hcharts := hs.kept (s := s) hreply hnodup (fun name args => ⟨name, args, rfl⟩) .none
      (Nat.add_zero _) .of_accepts (List.forall_mem_nil _) hdeclared hmeans hformed
      ⟨hfaithful, h.formed⟩
    have hcanonical := h.canonical.grows hfaithful.sound hcharts.grows
    exact hcanonical.normal hcharts.holds.faithful.sound hcharts.holds.formed

namespace Session

/-- A site keeps the form of the pool, however it ends. If it comes to a constant, no other identity
has that constant. -/
theorem normal_after_site (declarations : List Declaration) (types : Types) (settings : Settings)
    {s : Session} (h : Reached (.declareAll {} declarations) types settings s)
    (hnormal : s.stock.pool.Normal) (site : Site) :
    let x := (s.analysis.resolveSite site).outcome s.stock
    x.2.pool.Normal ∧ ∀ id, x.1 = .ok id →
      ∃ c, x.2.pool.Stands (.ref id) c ∧ ∀ j, x.2.pool.Stands (.ref j) c → j = id := by
  intro x
  have hp := Program.declared_declareAll declarations
  obtain ⟨hanalysis, hsteps⟩ := stock_of_steps (s := start _ types settings) hp h
  have hs : s.analysis.Sound := Reached.sound hp h
  have hfaithful : s.stock.Faithful s.analysis (s.analysis.Explained Scalar) [] :=
    .of_canonical hs (hanalysis ▸ hsteps) hnormal.canonical
  have hnodup : ∀ {name f}, s.analysis.program.functions.get? name = some f →
      (f.params.map Param.name).Nodup := by
    rw [hanalysis]
    exact fun hget => Program.nodup_params_declareAll declarations hget
  have hafter : x.2.pool.Normal := hs.normal_resolveSite hnodup hfaithful hnormal site
  refine ⟨hafter, fun id hid => ?_⟩
  have hreached : s.stock.Reached s.analysis := (Reached.regular hp h).reached
  have hsound : x.2.pool.Sound :=
    ((hs.reached_of_proceeds hreached
      (s.analysis.steps_resolveSite hs.program site s.stock)).1.faithful hs.upholds_explained).sound
  obtain ⟨c, hc⟩ := hsound.exists_stands (a := .ref id) (hs.lt_size_of_site hreached hid)
  exact ⟨c, hc, fun j hj => hsound.eq_of_stands hafter.canonical.slots hj hc⟩

/-- The function that is a list of the type of lists of integers and of a list of one. -/
def listOfListType : FunctionDecl where
  name := "listOfListType"
  params := []
  body := .list [.type (.named "List" [.named "int" []]), .list [.scalar (.int 1)]]
  placement := .topLevel

/-- A session in which nothing has been done yet. -/
def beforeListType : Session := start (.declareAll {} [.function listOfListType]) .empty {}

/-- The site of the list. -/
def siteOfListType : Site := ⟨.function "listOfListType", [], [], {}⟩

/-- The list is the fourth constant, after the two types and the list of one, and no other identity
has it. -/
theorem normal_after_site_listOfListType :
    beforeListType.stock.pool.Normal ∧
      ((beforeListType.analysis.resolveSite siteOfListType).outcome beforeListType.stock).1 =
        .ok ⟨3⟩ ∧
      ((beforeListType.analysis.resolveSite siteOfListType).outcome
        beforeListType.stock).2.pool.Normal ∧
      ∃ c, ((beforeListType.analysis.resolveSite siteOfListType).outcome
          beforeListType.stock).2.pool.Stands (.ref ⟨3⟩) c ∧
        ∀ j, ((beforeListType.analysis.resolveSite siteOfListType).outcome
          beforeListType.stock).2.pool.Stands (.ref j) c → j = ⟨3⟩ := by
  have hnormal : beforeListType.stock.pool.Normal := by
    refine ⟨.of_empty, fun id layer hget => ?_⟩
    have hnone : ({} : Pool).get? id = none := Pool.get?_eq_none_iff.2 (Nat.zero_le _)
    cases hnone.symm.trans hget
  have hrun : ((beforeListType.analysis.resolveSite siteOfListType).outcome
      beforeListType.stock).1 = .ok ⟨3⟩ := by rfl
  have hafter := normal_after_site [.function listOfListType] .empty {} (s := beforeListType) .refl
    hnormal siteOfListType
  exact ⟨hnormal, hrun, hafter.1, hafter.2 _ hrun⟩

end Session

end ConstPool
