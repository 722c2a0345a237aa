import ConstPool.Parallel.Task
import ConstPool.Proofs.Nesting
import ConstPool.Proofs.Parallel.Deeds

/-!
# What a thread is sure of

A thread does not see what the others do. It finds a stock, and all that it knows of it is that it
is in order and that what was there before is there still. Whatever it finds, it goes on in such a
way that its deeds in the end are as wanted. This is said along the task: an action is taken from
every stock that may be found, and what it does is one of the deeds that are known.

A thread may have to wait only for a result that others compute. What is more, it is one that every
inquiry that the thread itself is computing leads to. So no two threads ever wait for each other.

* `Deed.Waits`: what a thread may wait for.
* `Task.Meets`: a task that meets what is wanted of its deeds and its result.
* `Task.Meets.bind`: tasks one after another.
* `Job.Fills`: jobs that pool trees.
* `Job.Fills.interns`: pooling a draft.
-/

namespace ConstPool

open Draft Relation

section Meets

variable (a : Analysis) (reply : Inquiry → Except Fault (Tree Scalar))

/-- After its deeds a thread may wait, on this stock: for a result that is being computed, and to
which all that the thread computes leads. -/
def Deed.Waits (deeds : List Deed) (s : Stock) : Prop :=
  ∃ t, s.Running a t ∧ ∀ u ∈ Deed.running deeds, TransGen a.Invokes u.node t.node

/-- Deeds that a thread may add to its deeds: what it ends to compute is the innermost of what it
computes. -/
def Deed.Fits (deeds more : List Deed) : Prop :=
  ∀ t, .finished t ∈ more → ∃ rest, Deed.running deeds = t :: rest

/-- Whatever a task finds at its actions, it does one of the known deeds, and in the end its deeds
and its result are as wanted. It begins after certain deeds, with a stock that its thread knows. -/
def Task.Meets {α : Type} (Q : Stock → List Deed → α → Prop) :
    Task α → Stock → List Deed → Prop
  | .done b, known, deeds => Q known deeds b
  | .act after next, known, deeds => ∀ s, known.Later a s → s.Good a reply →
    (after s = none → Deed.Waits a deeds s) ∧
      ∀ s', after s = some s' → ∃ more, s.Does a reply more s' ∧ Deed.Fits deeds more ∧
        (next s).Meets Q s' (deeds ++ more)

end Meets

variable {a : Analysis} {reply : Inquiry → Except Fault (Tree Scalar)} {α β : Type}
  {known : Stock} {deeds : List Deed}

/-- Where nothing is finished there is nothing that must fit. -/
theorem Deed.fits_of_not_mem {deeds more : List Deed} (h : ∀ t, .finished t ∉ more) :
    Deed.Fits deeds more := fun t ht => absurd ht (h t)

namespace Task.Meets

variable {Q : Stock → List Deed → α → Prop} {W : Stock → List Deed → β → Prop} {x : Task α}

/-- A task that goes on from whatever another one has come to. -/
theorem bind {f : α → Task β} (h : x.Meets a reply Q known deeds)
    (hnext : ∀ s deeds' b, known.Later a s → Q s deeds' b → (f b).Meets a reply W s deeds') :
    (x >>= f).Meets a reply W known deeds := by
  induction x generalizing known deeds with
  | done b => exact hnext known deeds b (.refl known) h
  | act after next ih =>
    intro s hlater hgood
    obtain ⟨hwaits, hdoes⟩ := h s hlater hgood
    refine ⟨hwaits, fun s' hs' => ?_⟩
    obtain ⟨more, hmore, hfits, hrest⟩ := hdoes s' hs'
    refine ⟨more, hmore, hfits, ih s hrest fun s'' deeds' b hlater' hb => ?_⟩
    exact hnext s'' deeds' b (hlater.trans ((hmore.later hgood).trans hlater')) hb

/-- Less is wanted. -/
theorem imp {Q' : Stock → List Deed → α → Prop} (h : x.Meets a reply Q known deeds)
    (himp : ∀ s deeds' b, known.Later a s → Q s deeds' b → Q' s deeds' b) :
    x.Meets a reply Q' known deeds := by
  induction x generalizing known deeds with
  | done b => exact himp known deeds b (.refl known) h
  | act after next ih =>
    intro s hlater hgood
    obtain ⟨hwaits, hdoes⟩ := h s hlater hgood
    refine ⟨hwaits, fun s' hs' => ?_⟩
    obtain ⟨more, hmore, hfits, hrest⟩ := hdoes s' hs'
    refine ⟨more, hmore, hfits, ih s hrest fun s'' deeds' b hlater' hb => ?_⟩
    exact himp s'' deeds' b (hlater.trans ((hmore.later hgood).trans hlater')) hb

end Task.Meets

namespace Job

variable {Q : Stock → List Deed → Except Fault α → Prop}
  {W : Stock → List Deed → Except Fault β → Prop}

/-- A job that goes on where another one has come to a result. -/
theorem meets_bind {job : Job α} {next : α → Job β} (h : job.run.Meets a reply Q known deeds)
    (hok : ∀ s deeds' b, known.Later a s → Q s deeds' (.ok b) →
      (next b).run.Meets a reply W s deeds')
    (herror : ∀ s deeds' f, known.Later a s → Q s deeds' (.error f) → W s deeds' (.error f)) :
    (job >>= next).run.Meets a reply W known deeds := by
  show (job.run >>= ExceptT.bindCont next).Meets a reply W known deeds
  refine h.bind fun s deeds' x hlater hx => ?_
  cases x with
  | ok b => exact hok s deeds' b hlater hx
  | error f => exact herror s deeds' f hlater hx

/-- A single action. -/
theorem meets_once {work : Work α}
    (h : ∀ s, known.Later a s → s.Good a reply → ∃ more, s.Does a reply more (work.outcome s).2 ∧
      Deed.Fits deeds more ∧ Q (work.outcome s).2 (deeds ++ more) (work.outcome s).1) :
    (once work).run.Meets a reply Q known deeds := by
  intro s hlater hgood
  obtain ⟨more, hdoes, hfits, hQ⟩ := h s hlater hgood
  refine ⟨fun hnone => ?_, fun s' hs' => ?_⟩
  · cases hnone
  · cases hs'
    exact ⟨more, hdoes, hfits, hQ⟩

/-- A look at the stock. -/
theorem meets_read {work : Work α}
    (h : ∀ s, known.Later a s → s.Good a reply → (work.outcome s).2 = s ∧
      Q s deeds (work.outcome s).1) :
    (once work).run.Meets a reply Q known deeds := by
  refine meets_once fun s hlater hgood => ?_
  obtain ⟨hsame, hQ⟩ := h s hlater hgood
  rw [hsame]
  refine ⟨[], .nothing, Deed.fits_of_not_mem fun _ => List.not_mem_nil, ?_⟩
  rwa [List.append_nil]

/-- A question to the pool. -/
theorem meets_ask {question : Pool → Except Fault α}
    (h : ∀ s, known.Later a s → s.Good a reply → Q s deeds (question s.pool)) :
    (ask question).run.Meets a reply Q known deeds := by
  refine meets_read fun s hlater hgood => ?_
  have hQ := h s hlater hgood
  unfold Work.outcome Work.askPool
  generalize question s.pool = x at hQ ⊢
  cases x <;> exact ⟨rfl, hQ⟩

end Job

/-! ### Jobs that pool trees -/

variable {P : Tree Scalar → Prop}

/-- A job does not fail, pools trees with `P`, and has a result of a certain kind, whatever else is
in the pool by then. -/
def Job.Fills (a : Analysis) (reply : Inquiry → Except Fault (Tree Scalar)) (P : Tree Scalar → Prop)
    (p : Pool) (job : Job α) (V : Pool → α → Prop) : Prop :=
  ∀ known deeds, p.Keeps known.pool → job.run.Meets a reply
    (fun s deeds' x => ∃ b more, x = .ok b ∧ deeds' = deeds ++ more ∧ Deed.Pools P more ∧
      V s.pool b) known deeds

namespace Job.Fills

variable {p q : Pool} {V : Pool → α → Prop} {W : Pool → β → Prop} {job : Job α}

/-- A value that is returned fills nothing. -/
theorem pure {b : α} (h : ∀ q, p.Keeps q → V q b) :
    Fills a reply P p (Pure.pure b : Job α) V :=
  fun known deeds hkeeps =>
    ⟨b, [], rfl, (List.append_nil deeds).symm, .nil, h known.pool hkeeps⟩

/-- In sequence, with whatever others have pooled in between. -/
theorem bind {next : α → Job β} (h : Fills a reply P p job V)
    (hnext : ∀ q b, p.Keeps q → V q b → Fills a reply P q (next b) W) :
    Fills a reply P p (job >>= next) W := by
  intro known deeds hkeeps
  refine Job.meets_bind (h known deeds hkeeps) ?_ ?_
  · rintro s _ b hlater ⟨_, more, heq, rfl, hmore, hb⟩
    cases heq
    refine (hnext s.pool b (hkeeps.trans hlater.grows.keeps) hb s (deeds ++ more) (.refl _)).imp ?_
    rintro s' _ x - ⟨c, more', rfl, rfl, hmore', hc⟩
    exact ⟨c, more ++ more', rfl, List.append_assoc .., hmore.append hmore', hc⟩
  · rintro s _ f hlater ⟨_, _, heq, -⟩
    cases heq

/-- What holds from a pool on holds from any later one. -/
theorem mono (h : Fills a reply P p job V) (hkeeps : p.Keeps q) : Fills a reply P q job V :=
  fun known deeds hknown => h known deeds (hkeeps.trans hknown)

/-- Less is known of the result. -/
theorem imp {V' : Pool → α → Prop} (h : Fills a reply P p job V)
    (himp : ∀ q b, V q b → V' q b) : Fills a reply P p job V' := by
  intro known deeds hkeeps
  refine (h known deeds hkeeps).imp ?_
  rintro s _ x - ⟨b, more, rfl, rfl, hmore, hb⟩
  exact ⟨b, more, rfl, rfl, hmore, himp _ _ hb⟩

end Job.Fills

/-- The uses of parts are recorded. -/
theorem Job.meets_link {id : ValueId} {parts : List ValueId}
    (hparts : ∀ part ∈ parts, known.pool.HasPart id part) :
    (Job.link id parts).run.Meets a reply
      (fun _ deeds' x => x = .ok () ∧ deeds' = deeds ++ parts.map (.linked id)) known deeds := by
  induction parts generalizing known deeds with
  | nil => exact ⟨rfl, (List.append_nil deeds).symm⟩
  | cons part rest ih =>
    rw [List.forall_mem_cons] at hparts
    rw [Job.link]
    refine meets_bind (Q := fun _ deeds' x => x = .ok () ∧ deeds' = deeds ++ [.linked id part])
      ?_ ?_ ?_
    · refine meets_once fun s hlater hgood => ?_
      refine ⟨[.linked id part], ?_, Deed.fits_of_not_mem fun t ht => ?_, rfl, rfl⟩
      · exact .link (hparts.1.imp fun _ h => ⟨hlater.grows.keeps _ _ h.1, h.2⟩)
      · cases List.mem_singleton.1 ht
    · rintro s _ _ hlater ⟨-, rfl⟩
      have hrest : ∀ part ∈ rest, s.pool.HasPart id part := fun part hpart =>
        (hparts.2 part hpart).imp fun _ h => ⟨hlater.grows.keeps _ _ h.1, h.2⟩
      refine (ih hrest).imp ?_
      rintro s' _ x - ⟨rfl, rfl⟩
      exact ⟨rfl, List.append_assoc ..⟩
    · rintro s _ f - ⟨heq, -⟩
      cases heq

/-- A value is pooled, and then the uses of its parts are recorded. -/
theorem Job.meets_intern {value : Value} {t : Tree Scalar} (hP : P t) {V : Pool → ValueId → Prop}
    (h : ∀ s : Stock, known.Later a s → ∃ id q, s.pool.intern value = (.ok id, q) ∧
      Pool.Interned s.pool q value id ∧ s.pool.Extends (· = t) q ∧ q.Denotes id t ∧
        ∀ q', q.Keeps q' → V q' id) :
    (Job.intern value).run.Meets a reply (fun s deeds' x => ∃ id more, x = .ok id ∧
      deeds' = deeds ++ more ∧ Deed.Pools P more ∧ V s.pool id) known deeds := by
  have hpooled : (once (Work.onPool (Pool.intern value))).run.Meets a reply
      (fun s deeds' x => ∃ id, x = .ok id ∧ deeds' = deeds ++ [.pooled id value t] ∧
        s.pool.get? id = some value ∧ ∀ q', s.pool.Keeps q' → V q' id) known deeds := by
    refine meets_once fun s hlater hgood => ?_
    obtain ⟨id, q, hintern, hinterned, hextends, hid, hV⟩ := h s hlater
    have hrun : (Work.onPool (Pool.intern value)).outcome s = (.ok id, { s with pool := q }) := by
      obtain ⟨pool, uses, memo⟩ := s
      simp only [Work.outcome, Work.onPool, hintern]
    rw [hrun]
    refine ⟨[.pooled id value t], .pool hinterned hextends hid,
      Deed.fits_of_not_mem fun u hu => ?_, id, rfl, rfl, hinterned.get, hV⟩
    cases List.mem_singleton.1 hu
  rw [Job.intern]
  refine meets_bind hpooled ?_ ?_
  · rintro s _ id - ⟨_, ⟨⟩, rfl, hget, hV⟩
    have hlinks : (Job.link id value.children).run.Meets a reply
        (fun s' deeds' x => x = .ok () ∧ deeds' =
          deeds ++ [.pooled id value t] ++ value.children.map (.linked id)) s
        (deeds ++ [.pooled id value t]) :=
      Job.meets_link fun part hpart => ⟨value, hget, hpart⟩
    refine meets_bind hlinks ?_ ?_
    · rintro s' _ _ hlater ⟨-, rfl⟩
      exact ⟨id, _, rfl, List.append_assoc .., .value hP, hV s'.pool hlater.grows.keeps⟩
    · rintro s' _ f - ⟨heq, -⟩
      cases heq
  · rintro s _ f - ⟨_, heq, -⟩
    cases heq

/-- Jobs that do not fail and pool trees with `P`. -/
def Job.pooling (a : Analysis) (reply : Inquiry → Except Fault (Tree Scalar))
    (P : Tree Scalar → Prop) : Pooling Job P where
  intern := Job.intern
  Adds p job V := Job.Fills a reply P p job V
  pure := Job.Fills.pure
  bind := Job.Fills.bind
  mono := Job.Fills.mono
  imp := Job.Fills.imp
  layer {p layer l} hordered h hP := by
    intro known deeds hkeeps
    refine Job.meets_intern (V := fun q id => Means q (.atom (.ref id)) (.node l)) hP
      fun s hlater => ?_
    have hlayer : LayerMeans s.pool layer l :=
      h.imp (fun _ _ => .mono (hkeeps.trans hlater.grows.keeps))
        fun _ _ => .mono (hkeeps.trans hlater.grows.keeps)
    obtain ⟨id, q, hintern, hq, hextends, hmeans⟩ :=
      Pool.exists_interned (P := (· = .node l)) hordered hlayer rfl
    exact ⟨id, q, hintern, hq, hextends, .of_shape hq.get hmeans, fun q' hq' => hmeans.mono hq'⟩

end ConstPool
