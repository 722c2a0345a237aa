import ConstPool.Proofs.Conduct.Resolve
import ConstPool.Proofs.Record.Steps

/-!
# Requests beside records

A request runs a body, and the body issues requests in turn. What is known of stocks is kept by all
of them, if it is kept when a body pools constants. This goes by induction on the number of bodies
that may still be nested, and it is how well-formed constants stay the only ones there are.

In a program without recursion no chain of bodies is too long. So the answer of a request on trees
is what the body comes to that runs on trees and keeps a record, where the requests within it are
answered on trees too. This says what the record has to do with the request: whoever follows the
record ends with the answer. It is shown with the help of a stock, in which the body runs beside the
one on trees.

* `Analysis.Replies`: the answers to requests on trees.
* `Stock.Kept`: what is known of a stock at all times.
* `Analysis.Sound.leads`: a body beside the one that keeps a record.
* `Analysis.Sound.kept`: what is known is kept by every request.
* `Analysis.Sound.reply_eq`: the record ends with the answer.
-/

namespace ConstPool

open Draft Relation

/-- The answers to requests on trees, where as many bodies may be nested as it takes. -/
def Analysis.Replies (a : Analysis) (reply : Inquiry → Except Fault (Tree Scalar)) : Prop :=
  ∀ t, ∃ k, a.Shallow k t.node ∧ reply t = a.answer k t

/-- There are such answers. -/
theorem Analysis.Sound.exists_replies {a : Analysis} (hs : a.Sound) :
    ∃ reply, a.Replies reply := by
  choose height hheight using hs.exists_shallow
  exact ⟨fun t => a.answer (height t.node) t, fun t => ⟨height t.node, hheight t.node, rfl⟩⟩

/-- What is known of a stock at all times: its cache tells the truth, and its constants are well
formed. -/
structure Stock.Kept (a : Analysis) (U : Tree Scalar → Prop) (keys : List MemoKey) (s : Stock) :
    Prop where
  faithful : s.Faithful a (a.Explained Scalar) keys
  formed : s.pool.Formed U

/-- It is kept when constants are pooled. -/
theorem Stock.Kept.chronicle {a : Analysis} {U : Tree Scalar → Prop} {keys : List MemoKey} :
    Stock.Chronicle U (Stock.Kept a U keys) where
  sound h := h.faithful.sound
  formed h := h.formed
  pools {s s' t} h hgrows ht := by
    have hstock : s.Grows Scalar s' := hgrows.imp fun _ _ => trivial
    refine ⟨?_, ?_⟩
    · exact (Faithful.invariant Scalar Analysis.lasting_explained keys).grows h.faithful hstock
    · exact h.formed.extends h.faithful.sound hgrows.pool fun u hu => ht.within hu

namespace Request

variable {U : Tree Scalar → Prop} {w : Pool} {r : Request ValueId Atom} {t : Inquiry}

/-- The parameters of a request are bound to the well-formed trees that they mean. -/
theorem Means.formedParams (h : Request.Means w r t) (hformed : t.Formed U) :
    DictRel (fun a u => Draft.Means w (.atom a) u ∧ u.Formed U) (r.params .ref) (t.params id) := by
  cases h with
  | call f htypes hargs =>
    refine dictRel_bindParams (R := fun a u => Draft.Means w (.atom a) u ∧ u.Formed U)
      (S := fun i u => Draft.Means w (.atom (.ref i)) u ∧ u.Formed U) (fun _ _ h => h) ?_ ?_ .empty
    · have htypes := (List.forall₂_and_left _ _).2 ⟨fun u hu => (hformed.1 u hu).2, htypes.flip⟩
      exact htypes.flip.imp fun _ _ h => ⟨h.2, h.1⟩
    · have hargs := (List.forall₂_and_left _ _).2 ⟨hformed.2, hargs.flip⟩
      exact hargs.flip.imp fun _ _ h => ⟨h.2, h.1⟩
  | read name => exact .empty

/-- The type parameters of a request stand for type arguments. -/
theorem Means.typeParam {a : Analysis} (h : Request.Means w r t) (hformed : t.Formed U)
    {body : Expr} (hpasses : r.Passes a body)
    (hnodup : ∀ {name f}, a.program.functions.get? name = some f → (f.params.map Param.name).Nodup)
    {s : Surroundings} (hseen : r.Seen a body s) {name : String} (hname : name ∈ s.typeParams)
    {u : Tree Scalar} (hu : (t.params id).get? name = some u) : U u := by
  obtain ⟨f, types, args, rfl, hin⟩ := hseen.typeParams name hname
  cases h with
  | @call _ _ types' _ args' htypes hargs =>
    have hparam : Param.type name ∈ f.params := by
      obtain ⟨p, hp, hsome⟩ := List.mem_filterMap.1 hin
      cases p with
      | value other => cases hsome
      | type other =>
        cases hsome
        exact hp
    have hlength : f.typeArity ≤ types'.length := by
      rw [← htypes.length_eq, (lengths_of_bodyOf hpasses.bodyOf).2.1]
    obtain ⟨v, hv, hget⟩ : ∃ v ∈ types',
        (bindParams id f.params types' args' .empty).get? name = some v :=
      get?_bindParams_type id (hnodup hpasses.declared) hparam hlength
    cases hu.symm.trans hget
    exact (hformed.1 u hv).1

end Request

namespace Analysis

variable {a : Analysis} {reply : Inquiry → Except Fault (Tree Scalar)} {U : Tree Scalar → Prop}
  {keys : List MemoKey} {s : Stock} {r : Request ValueId Atom} {t : Inquiry}

/-- A request has its answer, or a chain was too long. -/
theorem agree_reply (hreply : a.Replies reply) {x : Outcome × Stock}
    (h : Work.Answered Scalar a (a.Explained Scalar) keys s r x) (hmeans : Request.Means s.pool r t) :
    Agree Fault.Benign (Pool.Denotes x.2.pool) x.1 (reply t) ∨
      ∃ f, a.TooDeep r.node f ∧ x.1 = .error f := by
  obtain ⟨t', ht', hexplained⟩ := h.explained
  obtain rfl := ht'.functional (hmeans.mono h.grows.keeps)
  obtain ⟨k, hk, hanswer⟩ := hreply t'
  rw [hanswer]
  exact hexplained.imp_left fun hagree => hagree k (ht'.node_eq ▸ hk)

/-- What may end a body but has no place in its result: a chain that is too long, or a request for
something that the body does not need. -/
def Astray (a : Analysis) (n : Node) (f : Fault) : Prop :=
  a.TooDeep n f ∨ ∃ r : Request ValueId Atom, f = r.unneeded

/-- A fault that can be reported is not one of these. -/
theorem Astray.not_benign {n : Node} {f : Fault} (h : a.Astray n f) : ¬ f.Benign := by
  rcases h with ⟨m, -, rfl⟩ | ⟨r, rfl⟩ <;> exact fun hbenign => nomatch hbenign

/-- A body that passes, in surroundings that are known: it comes to what the body comes to that runs
on trees and keeps a record. -/
theorem Sound.leads (hs : a.Sound)
    (hnodup : ∀ {name f}, a.program.functions.get? name = some f → (f.params.map Param.name).Nodup)
    (htype : ∀ name args, U (.type name args)) {H : Stock → Prop} (hH : Stock.Chronicle U H)
    {body : Expr} (hpasses : r.Passes a body) (hmeans : Request.Means s.pool r t)
    (hformed : t.Formed U) (hstock : H s) (callsLeft : Nat) (parent : Option Chain)
    (hrequest : ∀ {stock} {r' : Request ValueId Atom} {t' : Inquiry},
      r'.node ∈ a.graph.needs.direct r.node → r'.Declared a.program → H stock →
        Request.Means stock.pool r' t' → t'.Formed U →
          Work.Charts H (a.TooDeep r.node) Pool.Denotes stock
            ((a.resolve callsLeft (some (Chain.extend parent r.node.name)) r').outcome stock)
            (reply t')) :
    Work.Leads U H (a.Astray r.node) (a.ending reply t body)
      (Env.run ⟨a, Chain.extend parent r.node.name, r.params .ref,
        a.resolve callsLeft (some (Chain.extend parent r.node.name))⟩ body s) := by
  obtain ⟨surroundings, hseen⟩ := hpasses.seen hs
  have hname : (Chain.extend parent r.node.name).name = t.node.name := by
    rw [← hmeans.node_eq]
    cases parent <;> rfl
  let env : Env := ⟨a, Chain.extend parent r.node.name, r.params .ref,
    a.resolve callsLeft (some (Chain.extend parent r.node.name))⟩
  have hrecording : Recording U H (a.Astray r.node) (a.graph.needs.direct r.node) surroundings
      s.pool env (a.around reply t) :=
    { chronicle := hH
      type := htype
      analysis := rfl
      owner := hname.symm
      params := hmeans.formedParams hformed
      typeParams := fun name hname u hu => hmeans.typeParam hformed hpasses hnodup hseen hname hu
      named := hs.program.named
      request := fun _ hstock hneeds hdeclared hmeans' hformed' =>
        (hrequest hneeds hdeclared hstock hmeans' hformed').imp fun _ => .inl
      unneeded := fun r => .inr ⟨r, rfl⟩ }
  -- Vetting found all that the body requests, so it may be run where nothing else is answered.
  have hrun : (env.within (a.graph.needs.direct r.node)).run body s = env.run body s :=
    hseen.run_answeredBy hs _ (fun _ hneeds _ => Env.request_within hneeds) s
  have hleads := hrecording.run hseen.vetted hstock (.refl _)
  rw [hrun] at hleads
  rw [ending, ← hmeans.node_eq]
  exact hleads

/-- What is known of stocks is kept by every request, and the request has its answer. The induction
is on the number of bodies that may still be nested. -/
theorem Sound.kept (hs : a.Sound) (hreply : a.Replies reply)
    (hnodup : ∀ {name f}, a.program.functions.get? name = some f → (f.params.map Param.name).Nodup)
    (htype : ∀ name args, U (.type name args)) {callsLeft : Nat} {above : List Node}
    {parent : Option Chain} (hnested : a.Nested above parent)
    (hcalls : callsLeft + above.length = a.settings.maxCallDepth)
    (hready : a.Accepts r.node → a.Ready above r.node)
    (hkeys : ∀ key ∈ keys, ∃ n ∈ above, n.name = key.name) (hdeclared : r.Declared a.program)
    (hmeans : Request.Means s.pool r t) (hformed : t.Formed U) (hkept : Stock.Kept a U keys s) :
    Work.Charts (Stock.Kept a U keys) (a.TooDeep r.node) Pool.Denotes s
      ((a.resolve callsLeft parent r).outcome s) (reply t) := by
  induction callsLeft generalizing above parent keys s r t with
  | zero =>
    have hanswered := hs.answered hnested hcalls hready hkeys hdeclared hmeans hkept.faithful
    refine ⟨hanswered.grows, ⟨hanswered.faithful, ?_⟩, agree_reply hreply hanswered hmeans⟩
    rcases hbody : a.bodyOf r with f | body
    · rw [outcome_resolve_of_error hbody]
      exact hkept.formed
    · rw [outcome_resolve_zero hbody]
      exact hkept.formed
  | succ callsLeft ih =>
    have hanswered := hs.answered hnested hcalls hready hkeys hdeclared hmeans hkept.faithful
    refine ⟨hanswered.grows, ⟨hanswered.faithful, ?_⟩, agree_reply hreply hanswered hmeans⟩
    rcases hbody : a.bodyOf r with f | body
    · rw [outcome_resolve_of_error hbody]
      exact hkept.formed
    · have haccepts := Request.accepts_of_bodyOf hbody
      have hpasses : r.Passes a body := ⟨hdeclared, hbody⟩
      obtain ⟨hfree, hkey⟩ := hnested.free hs hkeys (hready haccepts)
      have hbelow : a.Nested (r.node :: above) (some (Chain.extend parent r.node.name)) :=
        .body hnested (hready haccepts)
      rw [resolve_of_passes hbody hfree]
      rcases hcell : s.memo.cells.get? r.key with _ | _ | o
      · have hleads := hs.leads (s := { s with memo := s.memo.start r.key })
          (H := Stock.Kept a U (r.key :: keys)) hnodup htype Stock.Kept.chronicle hpasses hmeans
          hformed ⟨hkept.faithful.start r.key, hkept.formed⟩ callsLeft parent
          fun {stock r' t'} hneeds hdeclared' hstock hmeans' hformed' => by
            have hinvokes : a.Accepts r'.node → a.Invokes r.node r'.node :=
              fun h => ⟨haccepts, hneeds, h⟩
            refine (ih hbelow (by rw [List.length_cons]; omega)
              (fun h => hbelow.ready (hinvokes h)) (running_cons hkeys r) hdeclared' hmeans'
              hformed' hstock).imp fun f hf => ?_
            obtain ⟨m, hm, rfl⟩ := hf
            exact (hinvokes hm.accepts).tooDeep ⟨m, hm, rfl⟩
        rw [Work.outcome_remember_of_none hcell]
        unfold Work.outcome
        generalize Env.run _ body _ = x at hleads ⊢
        cases hleads with
        | ok _ hstock hpools _ hu =>
          refine hstock.formed.extends hstock.faithful.sound hpools.pool ?_
          rintro w (rfl | hw)
          · exact hu
          · exact hu.within hw
        | error _ _ hstock => exact hstock.formed
        | excused _ hstock => exact hstock.formed
      · -- a request that is being answered is one of those above, and the chain has no name twice
        exact absurd (hkept.faithful.running hcell) hkey
      · rw [Work.outcome_remember_of_done hcell]
        exact hkept.formed

/-- Without recursion, the body that runs on trees and keeps a record comes to the answer of its
request, and the answer is no breach. -/
theorem Sound.reply_eq (hs : a.Sound) (hacyclic : a.graph.cyclic = []) (hreply : a.Replies reply)
    (hnodup : ∀ {name f}, a.program.functions.get? name = some f → (f.params.map Param.name).Nodup)
    {body : Expr} (hpasses : r.Passes a body) {pool : Pool} (hsound : pool.Sound)
    (hmeans : Request.Means pool r t) :
    reply t = a.ending reply t body ∧ ∀ f, reply t = .error f → f.Benign := by
  -- the body runs beside the one on trees, from the constants of the pool and nothing in the cache
  let s : Stock := { pool }
  have hdeep : ∀ f, ¬ a.TooDeep r.node f := by
    rintro f ⟨m, hm, -⟩
    exact hs.not_exposed_of_acyclic hacyclic hm
  have htrue : ∀ t : Tree Scalar, t.Formed fun _ => True := .anything fun _ => trivial
  have hformed : ∀ t : Inquiry, t.Formed fun _ => True := by
    rintro (⟨f, types, args⟩ | name)
    · exact ⟨fun u _ => ⟨trivial, htrue u⟩, fun u _ => htrue u⟩
    · trivial
  have haccepts := Request.accepts_of_bodyOf hpasses.bodyOf
  obtain ⟨k, hk⟩ : ∃ k, a.settings.maxCallDepth = k + 1 := by
    have hshallow := hs.shallow_of_acyclic hacyclic r.node
    rcases hdepth : a.settings.maxCallDepth with _ | k
    · rw [hdepth] at hshallow
      exact absurd haccepts hshallow
    · exact ⟨k, rfl⟩
  have hfaithful : s.Faithful a (a.Explained Scalar) [] := .of_empty hsound rfl
  have hleads := hs.leads (s := { s with memo := s.memo.start r.key })
    (H := Stock.Kept a (fun _ => True) [r.key]) hnodup (fun _ _ => trivial) Stock.Kept.chronicle
    hpasses hmeans (hformed t) ⟨hfaithful.start r.key, fun _ _ _ => htrue _⟩ k none
    fun {stock r' t'} hneeds hdeclared hstock hmeans' hformed' => by
      have hinvokes : a.Accepts r'.node → a.Invokes r.node r'.node := fun h => ⟨haccepts, hneeds, h⟩
      have hbelow : a.Nested [r.node] (some (Chain.extend none r.node.name)) :=
        .body .none (.of_accepts haccepts)
      refine (hs.kept hreply hnodup (fun _ _ => trivial) hbelow (by rw [hk]; rfl)
        (fun h => hbelow.ready (hinvokes h))
        (running_cons (List.forall_mem_nil _) r) hdeclared hmeans' hformed' hstock).imp
        fun f hf => ?_
      obtain ⟨m, hm, rfl⟩ := hf
      exact (hinvokes hm.accepts).tooDeep ⟨m, hm, rfl⟩
  have hagree := agree_reply (s := s) hreply (hs.answered .none (Nat.add_zero _) .of_accepts
    (List.forall_mem_nil _) hpasses.declared hmeans hfaithful) hmeans
  rw [hk, resolve_of_passes hpasses.bodyOf rfl,
    Work.outcome_remember_of_none (Dict.get?_empty r.key)] at hagree
  unfold Work.outcome at hagree
  generalize Env.run _ body _ = x at hleads hagree
  replace hagree := hagree.resolve_right fun ⟨f, hf, _⟩ => hdeep f hf
  generalize reply t = y at hagree ⊢
  cases hleads with
  | ok hresult _ _ hid _ =>
    cases hagree with
    | ok hv => exact ⟨by rw [hresult, hid.right_unique hv], fun f hf => nomatch hf⟩
  | error hresult hbenign _ =>
    cases hagree
    rw [hresult]
    refine ⟨rfl, fun f hf => ?_⟩
    cases hf
    exact hbenign
  | excused hf _ =>
    cases hagree with
    | error hbenign => exact absurd hbenign hf.not_benign

end Analysis

end ConstPool
