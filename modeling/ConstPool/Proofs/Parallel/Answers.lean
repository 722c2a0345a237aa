import ConstPool.Proofs.Parallel.Beside

/-!
# Requests beside others

A thread that requests something finds the result in the cache, or it computes the result and keeps
it, or it has to wait because others compute it. In each case it goes on with the answer that the
request has on trees, and what it has done is told by the record that asks for it. This goes by
induction on the number of bodies that may still be nested, as it does where one body runs alone.

What a thread waits for is computed by others, since all that it computes itself leads to it and
nothing leads to itself.

* `Analysis.Straight`: a program without recursion, and the answers to its inquiries.
* `Analysis.task_of_error`, `Analysis.task_of_passes`: a request that is refused, or not.
* `Analysis.Straight.meets_task`: a request beside others.
-/

namespace ConstPool

open Draft Relation

namespace Analysis

variable {a : Analysis} {reply : Inquiry → Except Fault (Tree Scalar)}

/-! ### Requests that are refused, or not -/

section Steps

variable {r : Request ValueId Atom} {parent : Option Chain} {callsLeft : Nat}
  {request : Request ValueId Atom → Job ValueId}

/-- A request that does not pass fails. -/
theorem task_of_error {f : Fault} (h : a.bodyOf r = .error f) :
    a.task callsLeft parent r = throw f := by
  cases callsLeft <;> rw [task, h] <;> rfl

/-- A request that passes is looked up, or its body is run. -/
theorem task_of_passes {body : Expr} (h : a.bodyOf r = .ok body)
    (hfree : (parent.any fun c => c.contains r.node.name) = false) :
    a.task (callsLeft + 1) parent r =
      Job.remember r.key (Env.task ⟨a, Chain.extend parent r.node.name, r.params .ref,
        a.resolve callsLeft (some (Chain.extend parent r.node.name))⟩
        (a.task callsLeft (some (Chain.extend parent r.node.name))) body) := by
  have hname : (Chain.extend parent r.node.name).name = r.node.name := by
    cases parent <;> rfl
  have hok : ∀ next : Expr → Job ValueId, (Job.ofExcept (.ok body) >>= next) = next body :=
    fun _ => rfl
  rw [task, h, hok]
  simp only [hname, hfree, Bool.false_eq_true, if_false]

end Steps

end Analysis

/-! ### Results that are kept -/

variable {a : Analysis} {reply : Inquiry → Except Fault (Tree Scalar)}

/-- What a constant consists of is in the pool. -/
theorem Stock.has_of_denotes {s : Stock} {id : ValueId} {t u : Tree Scalar}
    (h : s.pool.Denotes id t) (hu : u = t ∨ u.Within t) : s.Has u := by
  rcases hu with rfl | hu
  · exact ⟨id, h⟩
  · obtain ⟨x, -, hx⟩ := h
    exact hx.exists_denotes hu

/-- A record that asks for something and nothing else pools nothing. -/
theorem Log.not_pooled_ask (t : Inquiry) (u : Tree Scalar) : ¬ (({} : Log).ask t).Pooled u := by
  rintro ⟨v, hv, -⟩
  cases hv

/-- A result that has been computed is kept. -/
theorem Job.meets_finish {known : Stock} {deeds told result : List Deed} {r : Request ValueId Atom}
    {body : Expr} {t : Inquiry} {o : Outcome} (hpasses : r.Passes a body)
    (hmeans : Request.Means known.pool r t)
    (htold : Deed.Told a reply (deeds ++ [.started t]) known told (a.record reply t))
    (hpools : Deed.Pools (Analysis.Result reply t) result)
    (hagree : Agree Fault.Benign known.pool.Denotes o (reply t)) :
    (Task.act (fun s => some { s with memo := s.memo.finish r.key o }) fun _ => .done o).Meets a reply
      (Deed.Answers a reply deeds (({} : Log).ask t) (reply t)) known (told ++ result) := by
  intro s hlater hgood
  refine ⟨fun hnone => (nomatch hnone), ?_⟩
  rintro _ ⟨⟩
  have hmeans' : Request.Means s.pool r t := hmeans.mono hlater.grows.keeps
  have hagree' : Agree Fault.Benign s.pool.Denotes o (reply t) :=
    hagree.imp_value fun _ _ hid => hid.mono hlater.grows.keeps
  have hadds : ∀ u, a.Adds reply t u → s.Has u := by
    rintro u (hu | ⟨v, hv, hu⟩)
    · exact hlater.has (htold.pooled u hu)
    · rw [hv] at hagree'
      cases hagree' with
      | ok hid => exact Stock.has_of_denotes hid hu
  have hasks : ∀ t', a.Asks reply t t' → s.Done a t' := fun t' ht' =>
    hlater.done t' (htold.asked t' ht')
  have hrunning : Deed.running (told ++ result) = t :: Deed.running deeds := by
    rw [Deed.running, List.foldl_append, hpools.balanced]
    show Deed.running told = _
    rw [htold.running_eq, Deed.running, List.foldl_append]
    rfl
  refine ⟨[.finished t], .finish hpasses hmeans' hagree' hadds hasks, fun u hu => ?_, ⟨?_, ?_, ?_⟩,
    hagree'⟩
  · cases List.mem_singleton.1 hu
    exact ⟨_, hrunning⟩
  · obtain ⟨more, rfl, htells⟩ := htold.tells
    refine ⟨_, ?_, .compute htells hpools⟩
    simp only [List.append_assoc, List.cons_append, List.nil_append]
  · exact fun u hu => absurd hu (Log.not_pooled_ask t u)
  · intro u hu
    cases List.mem_singleton.1 hu
    exact (Stock.done_finish_iff hgood.sound hmeans' hpasses).2 (.inr rfl)

/-- A result is found, or it is computed and kept, or the thread waits for it. Who computes it does
what is in its record. -/
theorem Job.meets_remember {known : Stock} {deeds : List Deed} {r : Request ValueId Atom}
    {body : Expr} {t : Inquiry} {compute : Job ValueId} (hpasses : r.Passes a body)
    (hmeans : Request.Means known.pool r t)
    (hwaits : ∀ u ∈ Deed.running deeds, TransGen a.Invokes u.node t.node)
    (hcompute : ∀ s, known.Later a s → s.pool.Sound → compute.run.Meets a reply (fun s' deeds' o =>
      ∃ told result, deeds' = told ++ result ∧
        Deed.Told a reply (deeds ++ [.started t]) s' told (a.record reply t) ∧
          Deed.Pools (Analysis.Result reply t) result ∧
            Agree Fault.Benign s'.pool.Denotes o (reply t)) s (deeds ++ [.started t])) :
    (Job.remember r.key compute).run.Meets a reply
      (Deed.Answers a reply deeds (({} : Log).ask t) (reply t)) known deeds := by
  intro s hlater hgood
  have hmeans' : Request.Means s.pool r t := hmeans.mono hlater.grows.keeps
  rcases hcell : s.memo.cells.get? r.key with _ | _ | o
  · refine ⟨fun hnone => ?_, fun s' hs' => ?_⟩
    · dsimp only at hnone
      rw [hcell] at hnone
      cases hnone
    · dsimp only at hs'
      rw [hcell] at hs'
      cases hs'
      refine ⟨[.started t], .start hpasses hmeans' hcell, Deed.fits_of_not_mem fun u hu => ?_, ?_⟩
      · cases List.mem_singleton.1 hu
      · dsimp only
        rw [hcell]
        have hstart : known.Later a { s with memo := s.memo.start r.key } :=
          hlater.trans ((Stock.Does.start hpasses hmeans' hcell).later hgood)
        refine (hcompute _ hstart hgood.sound).bind ?_
        rintro s₂ _ o hlater₂ ⟨told, result, rfl, htold, hpools, hagree⟩
        exact Job.meets_finish hpasses (hmeans'.mono hlater₂.grows.keeps) htold hpools hagree
  · refine ⟨fun _ => ⟨t, ⟨r, body, hpasses, hmeans', hcell⟩, hwaits⟩, fun s' hs' => ?_⟩
    dsimp only at hs'
    rw [hcell] at hs'
    cases hs'
  · refine ⟨fun hnone => ?_, fun s' hs' => ?_⟩
    · dsimp only at hnone
      rw [hcell] at hnone
      cases hnone
    · dsimp only at hs'
      rw [hcell] at hs'
      cases hs'
      refine ⟨[.found t], .find hpasses hmeans' hcell, Deed.fits_of_not_mem fun u hu => ?_, ?_⟩
      · cases List.mem_singleton.1 hu
      · dsimp only
        rw [hcell]
        have hdone : s.Cell a t (.done o) := ⟨r, body, hpasses, hmeans', hcell⟩
        refine ⟨⟨⟨_, rfl, .find t⟩, fun u hu => absurd hu (Log.not_pooled_ask t u), fun u hu => ?_⟩,
          hgood.truthful t o hdone⟩
        cases List.mem_singleton.1 hu
        exact ⟨o, hdone⟩

namespace Analysis

/-! ### Programs without recursion -/

/-- A program without recursion, of which the functions have distinct parameters, and the answers to
its inquiries. -/
structure Straight (a : Analysis) (reply : Inquiry → Except Fault (Tree Scalar)) : Prop where
  sound : a.Sound
  acyclic : a.graph.cyclic = []
  nodup : ∀ {name f}, a.program.functions.get? name = some f → (f.params.map Param.name).Nodup
  replies : a.Replies reply

/-- A request that does not pass fails as it does on trees. -/
theorem Straight.meets_of_error (h : a.Straight reply) {callsLeft : Nat} {parent : Option Chain}
    {known : Stock} {deeds : List Deed} {r : Request ValueId Atom} {t : Inquiry}
    (hmeans : Request.Means known.pool r t) {f : Fault} (hbody : a.bodyOf r = .error f) :
    (a.task callsLeft parent r).run.Meets a reply
      (Deed.Answers a reply deeds (({} : Log).note a t) (reply t)) known deeds := by
  have hbody' : a.bodyOf t = .error f := hmeans.bodyOf_eq ▸ hbody
  obtain ⟨k, -, hk⟩ := h.replies t
  have hreply : reply t = .error f := hk.trans (answer_of_error hbody' k)
  rw [task_of_error hbody, Log.note_of_error hbody', hreply]
  exact ⟨.start deeds known, .error (Request.reported_bodyOf h.sound r f hbody)⟩

/-- The body of a request, if the requests within it are answered: it comes to the answer of its own
request. -/
theorem Straight.meets_body (h : a.Straight reply) {before : List Deed} {s : Stock}
    {r : Request ValueId Atom} {t : Inquiry} {body : Expr} (hpasses : r.Passes a body)
    (hsound : s.pool.Sound) (hmeans : Request.Means s.pool r t) {parent : Option Chain}
    {answer : Request ValueId Atom → Work ValueId} {request : Request ValueId Atom → Job ValueId}
    (hrequest : ∀ {s' deeds} {r' : Request ValueId Atom} {t' : Inquiry},
      Deed.running deeds = Deed.running before → r'.node ∈ a.graph.needs.direct r.node →
        r'.Declared a.program → Request.Means s'.pool r' t' →
          (request r').run.Meets a reply
            (Deed.Answers a reply deeds (({} : Log).note a t') (reply t')) s' deeds) :
    (Env.task ⟨a, Chain.extend parent r.node.name, r.params .ref, answer⟩ request body).run.Meets a
      reply (fun s' deeds o => ∃ told result, deeds = told ++ result ∧
        Deed.Told a reply before s' told (a.record reply t) ∧
          Deed.Pools (Result reply t) result ∧
            Agree Fault.Benign s'.pool.Denotes o (reply t)) s before := by
  obtain ⟨hreply, hbenign⟩ :=
    h.sound.reply_eq h.acyclic h.replies h.nodup hpasses hsound hmeans
  have hname : (Chain.extend parent r.node.name).name = t.node.name := by
    rw [← hmeans.node_eq]
    cases parent <;> rfl
  have hbeside : Env.Beside a reply before (a.graph.needs.direct t.node) request s
      ⟨a, Chain.extend parent r.node.name, r.params .ref, answer⟩ (a.around reply t) :=
    { mirrors :=
        { analysis := rfl
          owner := hname.symm
          params := hmeans.params
          named := h.sound.program.named }
      request := fun _ hrunning hneeds hdeclared hmeans' =>
        hrequest hrunning (hmeans.node_eq ▸ hneeds) hdeclared hmeans' }
  have hrecord : a.record reply t = (a.around reply t).record (a.graph.needs.direct t.node) body := by
    rw [record, ← hmeans.bodyOf_eq, hpasses.bodyOf]
  have havoids : Eval.Avoids Fault.Unneeded
      ((a.around reply t).recording (a.graph.needs.direct t.node) body) := by
    rintro _ n ⟨q, rfl⟩ heq
    have hended : reply t = .error q.unneeded := by
      rw [hreply, ending, heq]
      rfl
    cases hbenign _ hended
  have hbody := hbeside.task havoids (P := Result reply t) fun u hu v hv =>
    ⟨u, by rw [hreply, ending, hu], hv⟩
  rw [hrecord]
  rw [hreply, ending]
  exact hbody

/-- A request beside others. The induction is on the number of bodies that may still be nested. -/
theorem Straight.meets_task (h : a.Straight reply) {callsLeft : Nat} {above : List Node}
    {parent : Option Chain} (hnested : a.Nested above parent)
    (hcalls : callsLeft + above.length = a.settings.maxCallDepth) {known : Stock}
    {deeds : List Deed} (hrunning : ∀ u ∈ Deed.running deeds, u.node ∈ above)
    {r : Request ValueId Atom} {t : Inquiry} (hready : a.Accepts r.node → a.Ready above r.node)
    (hdeclared : r.Declared a.program) (hmeans : Request.Means known.pool r t) :
    (a.task callsLeft parent r).run.Meets a reply
      (Deed.Answers a reply deeds (({} : Log).note a t) (reply t)) known deeds := by
  induction callsLeft generalizing above parent known deeds r t with
  | zero =>
    rcases hbody : a.bodyOf r with f | body
    · exact h.meets_of_error hmeans hbody
    · -- without recursion no chain is that long
      have hstacked := (hready (Request.accepts_of_bodyOf hbody)).stacked
      have := (hstacked.le_of_shallow (h.sound.shallow_of_acyclic h.acyclic)).1
      omega
  | succ callsLeft ih =>
    rcases hbody : a.bodyOf r with f | body
    · exact h.meets_of_error hmeans hbody
    · have haccepts := Request.accepts_of_bodyOf hbody
      have hpasses : r.Passes a body := ⟨hdeclared, hbody⟩
      have hbelow : a.Nested (r.node :: above) (some (Chain.extend parent r.node.name)) :=
        .body hnested (hready haccepts)
      obtain ⟨hfree, -⟩ := hnested.free h.sound (List.forall_mem_nil _) (hready haccepts)
      rw [task_of_passes hbody hfree, Log.note_of_ok (hmeans.bodyOf_eq ▸ hbody)]
      refine Job.meets_remember hpasses hmeans (fun u hu => ?_) fun s hlater hsound => ?_
      · rw [← hmeans.node_eq]
        exact (hready haccepts).below _ (hrunning u hu)
      · have hmeans' : Request.Means s.pool r t := hmeans.mono hlater.grows.keeps
        refine h.meets_body hpasses hsound hmeans' fun {s' deeds' r' t'} hrunning' hneeds hdeclared'
          hmeans'' => ?_
        have hinvokes : a.Accepts r'.node → a.Invokes r.node r'.node :=
          fun h => ⟨haccepts, hneeds, h⟩
        refine ih hbelow (by rw [List.length_cons]; omega) (fun u hu => ?_)
          (fun h => hbelow.ready (hinvokes h)) hdeclared' hmeans''
        rw [hrunning', Deed.running, List.foldl_append] at hu
        rcases List.mem_cons.1 hu with rfl | hu
        · rw [hmeans.node_eq]
          exact List.mem_cons_self ..
        · exact List.mem_cons_of_mem _ (hrunning u hu)

end Analysis

end ConstPool
