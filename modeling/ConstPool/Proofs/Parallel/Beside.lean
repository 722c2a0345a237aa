import ConstPool.Proofs.Parallel.Strands
import ConstPool.Proofs.Parallel.Threads

/-!
# Bodies that run beside others

A body that runs beside others does what is in its record, whatever the others do to the stock in
the meantime. It looks at constants that stay what they are, it pools what the record says is
pooled, and where the record asks for a result, that result is there when it goes on. So the body
comes to what the body comes to that runs on trees and keeps the record.

This goes along the steps of the two bodies. What is known while they go on is that the deeds of the
thread tell what is in the record so far. How a request within the body is answered is assumed here.

* `Deed.Told`: what a thread has done is told by a record.
* `Deed.telling`: a body on a changing stock beside a record.
* `Env.Beside`: the surroundings of a body beside others, and of one that keeps a record.
* `Env.Beside.related`: their steps go together.
* `Env.Beside.task`: whole bodies.
-/

namespace ConstPool

open Draft Relation

variable {a : Analysis} {reply : Inquiry → Except Fault (Tree Scalar)}

/-! ### What has been told -/

/-- What a thread has done since its deeds were `before` is told by a record. What the record has
pooled is in the pool, and what it has asked for is in the cache. -/
structure Deed.Told (a : Analysis) (reply : Inquiry → Except Fault (Tree Scalar))
    (before : List Deed) (s : Stock) (deeds : List Deed) (log : Log) : Prop where
  tells : ∃ more, deeds = before ++ more ∧ Deed.Tells a reply log more
  pooled : ∀ u, log.Pooled u → s.Has u
  asked : ∀ t ∈ log.asked, s.Done a t

namespace Deed.Told

variable {before deeds deeds' more : List Deed} {s s' : Stock} {log log' : Log}

/-- Nothing has been done. -/
theorem start (before : List Deed) (s : Stock) : Told a reply before s before {} where
  tells := ⟨[], (List.append_nil before).symm, .nil⟩
  pooled u hu := by
    obtain ⟨t, ht, -⟩ := hu
    cases ht
  asked _ ht := nomatch ht

/-- What has been told is so still when others have gone on. -/
theorem later (h : Told a reply before s deeds log) (hlater : s.Later a s') :
    Told a reply before s' deeds log where
  tells := h.tells
  pooled u hu := hlater.has (h.pooled u hu)
  asked t ht := hlater.done t (h.asked t ht)

/-- One record and then another one. -/
theorem append (h : Told a reply before s deeds log) (h' : Told a reply deeds s' deeds' log')
    (hlater : s.Later a s') : Told a reply before s' deeds' (log ++ log') where
  tells := by
    obtain ⟨more, rfl, htells⟩ := h.tells
    obtain ⟨more', rfl, htells'⟩ := h'.tells
    exact ⟨more ++ more', List.append_assoc .., htells.append htells'⟩
  pooled u hu := (Log.pooled_append.1 hu).elim (fun hu => hlater.has (h.pooled u hu)) (h'.pooled u)
  asked t ht := by
    rw [Log.asked_append] at ht
    exact (List.mem_append.1 ht).elim (fun ht => hlater.done t (h.asked t ht)) (h'.asked t)

/-- A thread computes what it computed before. -/
theorem running_eq (h : Told a reply before s deeds log) : running deeds = running before := by
  obtain ⟨more, rfl, htells⟩ := h.tells
  rw [running, List.foldl_append]
  exact htells.balanced _

/-- A constant has been pooled. -/
theorem pool {t : Tree Scalar} (hpools : Pools (·.Within t) more) (hhas : ∀ u, u.Within t → s.Has u) :
    Told a reply before s (before ++ more) (({} : Log).pool t) where
  tells := ⟨more, rfl, .pool hpools⟩
  pooled u hu := hhas u (Log.pooled_pool.1 hu)
  asked _ ht := nomatch ht

end Deed.Told

/-- A thread that has done `before` comes to an outcome for `x`, and what it has done until then is
told by a record. -/
structure Deed.Answers (a : Analysis) (reply : Inquiry → Except Fault (Tree Scalar))
    (before : List Deed) (log : Log) (x : Except Fault (Tree Scalar)) (s : Stock) (deeds : List Deed)
    (o : Outcome) : Prop where
  told : Deed.Told a reply before s deeds log
  agree : Agree Fault.Benign s.pool.Denotes o x

/-! ### Steps -/

/-- What may be said of a task that goes on beside others, with a stock that its thread knows and
after certain deeds. -/
def Task.besides (a : Analysis) (reply : Inquiry → Except Fault (Tree Scalar)) :
    Task.Triples (Stock × List Deed) where
  Holds Q x g := x.Meets a reply (fun s deeds b => Q b (s, deeds)) g.1 g.2
  done h := h
  bind h hnext := h.bind fun s deeds b _ hb => hnext b (s, deeds) hb
  imp h himp := h.imp fun s deeds b _ hb => himp b (s, deeds) hb

/-- A body that runs on drafts over a stock that others change, beside one that runs on trees and
keeps a record. -/
def Deed.telling (a : Analysis) (reply : Inquiry → Except Fault (Tree Scalar))
    (before : List Deed) : Correspondence (Stock × List Deed) Draft Log (Tree Scalar) where
  World := Stock
  le := Stock.Later a
  refl := .refl
  trans := .trans
  world := Prod.fst
  stands s d t := Means s.pool d t
  mono h hd := hd.mono h.grows.keeps
  holds g log := Told a reply before g.1 g.2 log
  shared := Fault.Benign
  excused _ _ := False

/-- A body has requested more than it needs. -/
def Fault.Unneeded (f : Fault) : Prop := ∃ t : Inquiry, f = t.unneeded

/-- A part of a body does beside others what is in the record. -/
abbrev Strand.Records (a : Analysis) (reply : Inquiry → Except Fault (Tree Scalar))
    (before : List Deed) {β γ : Type} (w : Stock) (V : Stock → β → γ → Prop) (x : Strand β)
    (y : Eval Log (Tree Scalar) γ) : Prop :=
  Strand.Follows (Task.besides a reply) (Deed.telling a reply before) Fault.Unneeded w V x y

namespace Strand.Records

variable {before : List Deed} {β γ : Type} {w : Stock} {V : Stock → β → γ → Prop} {job : Job β}

/-- A job, and what it adds to the record. -/
theorem perform {change : Log → Log} {x : Except Fault γ}
    (h : ∀ s deeds log, w.Later a s → Deed.Told a reply before s deeds log →
      job.run.Meets a reply (fun s' deeds' o =>
        Deed.Told a reply before s' deeds' (change log) ∧ Agree Fault.Benign (V s') o x) s deeds) :
    Strand.Records a reply before w V (Strand.perform job) (Eval.onLog change x) := by
  refine Strand.Follows.perform fun g m n hn _ => ?_
  obtain ⟨log, scopes, left⟩ := n
  refine (h g.1 g.2 log hn.later hn.holds).imp fun s' deeds' o hlater ho => ?_
  have hafter : After (Deed.telling a reply before) (m.over g) (m.over (s', deeds'))
      ⟨change log, scopes, left⟩ :=
    ⟨hlater, ho.1, hn.scopes.imp fun _ _ hd => hd.imp fun _ _ hd => hd.mono hlater.grows.keeps,
      hn.left, .refl _⟩
  obtain ⟨-, hagree⟩ := ho
  cases hagree with
  | ok hV => exact .ok hafter (List.forall_mem_nil _) hV
  | error hf => exact .stop hafter (.fault hf)

/-- A question to the pool. -/
theorem ask {question : Pool → Except Fault β} {x : Except Fault γ}
    (h : ∀ s, w.Later a s → s.pool.Sound → Agree Fault.Benign (V s) (question s.pool) x) :
    Strand.Records a reply before w V (Strand.perform (Job.ask question)) (Eval.ofExcept x) := by
  have hsame : (Eval.ofExcept x : Eval Log (Tree Scalar) γ) = Eval.onLog (fun log => log) x := by
    cases x <;> rfl
  rw [hsame]
  refine perform fun s deeds log hlater htold => Job.meets_ask fun s' hlater' hgood => ?_
  exact ⟨htold.later hlater', h s' (hlater.trans hlater') hgood.sound⟩

/-- Pooling, which is recorded. -/
theorem pool {V : Stock → β → Tree Scalar → Prop} (atom : β → Atom) {t : Tree Scalar}
    (h : Job.Fills a reply (·.Within t) w.pool job fun q b => Means q (.atom (atom b)) t)
    (hV : ∀ s b, Means s.pool (.atom (atom b)) t → V s b t) :
    Strand.Records a reply before w V (Strand.perform job) (Eval.onLog (·.pool t) (.ok t)) := by
  refine perform fun s deeds log hlater htold => ?_
  refine (h s deeds hlater.grows.keeps).imp ?_
  rintro s' _ o hlater' ⟨b, more, rfl, rfl, hpools, hb⟩
  have hpooled : Deed.Told a reply deeds s' (deeds ++ more) (({} : Log).pool t) :=
    .pool hpools fun u hu => hb.exists_denotes hu
  rw [← Log.append_pool]
  exact ⟨htold.append hpooled hlater', .ok (hV s' b hb)⟩

end Strand.Records

/-! ### Surroundings -/

/-- The surroundings of a body that runs beside others, over a stock that its thread knows, and of
the body that keeps a record. Requests for what the body needs are told by the record. -/
structure Env.Beside (a : Analysis) (reply : Inquiry → Except Fault (Tree Scalar))
    (before : List Deed) (needs : List Node) (request : Request ValueId Atom → Job ValueId)
    (w : Stock) (env : Env) (env' : TreeEnv Scalar) : Prop where
  mirrors : env.Mirrors w.pool env'
  request : ∀ {s deeds r} {t : Inquiry}, w.Later a s →
    Deed.running deeds = Deed.running before → r.node ∈ needs →
      r.Declared env.analysis.program → Request.Means s.pool r t →
        (request r).run.Meets a reply
          (Deed.Answers a reply deeds (({} : Log).note env.analysis t) (env'.request t)) s deeds

namespace Env.Beside

variable {before : List Deed} {needs : List Node} {request : Request ValueId Atom → Job ValueId}
  {w v : Stock} {env : Env} {env' : TreeEnv Scalar}

/-- The surroundings are the same when others have gone on. -/
theorem mirrors_later (h : Env.Beside a reply before needs request w env env') (hv : w.Later a v) :
    env.Mirrors v.pool env' where
  analysis := h.mirrors.analysis
  owner := h.mirrors.owner
  params := h.mirrors.params.imp fun _ _ hd => hd.mono hv.grows.keeps
  named := h.mirrors.named

/-- A request within the body. -/
theorem fetch (h : Env.Beside a reply before needs request w env env') (hv : w.Later a v)
    {r : Request ValueId Atom} {t : Inquiry} (hdeclared : r.Declared env.analysis.program)
    (hr : Request.Means v.pool r t) :
    Strand.Records a reply before v (fun s d u => Means s.pool d u) (strandFetch request r)
      (env'.consult needs t) := by
  rw [strandFetch, TreeEnv.consult, ← hr.node_eq, h.mirrors.analysis]
  by_cases hneeds : r.node ∈ needs
  · rw [if_pos hneeds, ← bind_pure (Eval.onLog (fun log => log.note env.analysis t) (env'.request t))]
    -- the request answers with an identity, of which the atom is asked after it; on trees the answer
    -- is the constant itself
    have hcall : Strand.Records a reply before v (fun s id u => s.pool.Denotes id u)
        (Strand.perform (request r)) (Eval.onLog (fun log => log.note env.analysis t)
          (env'.request t)) := by
      refine Strand.Records.perform fun s deeds log hlater htold => ?_
      refine (h.request (hv.trans hlater) htold.running_eq hneeds hdeclared
        (hr.mono hlater.grows.keeps)).imp fun s' deeds' o hlater' ho => ?_
      have htold' := htold.append ho.told hlater'
      rw [Log.append_note] at htold'
      exact ⟨htold', ho.agree⟩
    refine hcall.bind fun s id u _ hid => ?_
    obtain ⟨x, hatom, hx⟩ := hid
    have hask : Strand.Records a reply before s (fun s x u => Means s.pool (.atom x) u)
        (Strand.perform (Job.ask fun pool => pool.atomOf id)) (Eval.ofExcept (.ok u)) := by
      refine Strand.Records.ask fun s' hlater _ => ?_
      have hatom' : s'.pool.atomOf id = .ok x := hlater.grows.keeps.atomOf hatom
      rw [hatom']
      exact .ok (hx.mono hlater.grows.keeps)
    rw [← bind_pure (Pure.pure u)]
    exact hask.bind fun s' x u _ hx => .own (.pure _) (.pure fun s'' hlater =>
      hx.mono hlater.grows.keeps)
  · rw [if_neg hneeds]
    intro g m n _ havoids
    exact absurd rfl (havoids _ n ⟨t, rfl⟩)

/-- The value of a name. -/
theorem lookup (h : Env.Beside a reply before needs request w env env') (hv : w.Later a v)
    (name : String) :
    Strand.Records a reply before v (fun s d u => Means s.pool d u) (env.strandLookup request name)
      (env'.find needs name) := by
  have hfind : env'.find needs name = (do
      (← Eval.local? name).elim
        ((env'.params.get? name).elim
          (if env'.analysis.program.globals.contains name then env'.consult needs (.read name)
            else Eval.raise (env'.analysis.noValue env'.owner name))
          fun t => return t)
        fun t => return t) := by
    unfold TreeEnv.find Eval.local?
    rw [bind_assoc]
    refine bind_congr fun m => ?_
    rw [pure_bind]
    cases m.scopes.find? name with
    | some t => rfl
    | none => cases env'.params.get? name <;> rfl
  rw [hfind]
  refine (Strand.Follows.local? name).bind fun s o o' hs ho => ?_
  have hlater : w.Later a s := hv.trans hs
  cases ho with
  | some hd => exact .own (.pure _) (.pure fun s' hlater => hd.mono hlater.grows.keeps)
  | none =>
    dsimp only
    have hparam := (h.mirrors_later hlater).params name
    generalize env.params.get? name = x at hparam ⊢
    generalize env'.params.get? name = y at hparam ⊢
    cases hparam with
    | some ha => exact .own (.pure _) (.pure fun s' hlater => ha.mono hlater.grows.keeps)
    | none =>
      dsimp only
      rw [h.mirrors.analysis, h.mirrors.owner]
      split
      · have hdeclared : Request.Declared env.analysis.program (.read name : Request ValueId Atom) :=
          trivial
        exact h.fetch hlater hdeclared (.read name)
      · exact .own (.stop _) (.raise (Analysis.benign_noValue env.analysis env.owner name))

/-- Bodies in these surroundings fail alike when they take too many steps. -/
theorem exhausted_eq (h : Env.Beside a reply before needs request w env env') :
    env'.exhausted = env.exhausted := by
  rw [TreeEnv.exhausted, h.mirrors.analysis, h.mirrors.owner]
  rfl

/-- The integers of a range. -/
theorem range (h : Env.Beside a reply before needs request w env env') (start stop : Int64) :
    Strand.Records a reply before v (fun s d u => Means s.pool d u) (env.strandRange start stop)
      (env'.integers start stop) := by
  have hbenign : (Deed.telling a reply before).shared env.exhausted := rfl
  rw [strandRange, TreeEnv.integers, h.exhausted_eq]
  refine Strand.Follows.bind (.own (.spend _ _) (.spend hbenign _)) fun s _ _ _ _ => ?_
  refine .own (.pure _) (.pure fun s' _ => .list ?_)
  rw [Array.toList_map, Array.toList_map]
  exact EnvRel.forall₂_map _ fun i => .scalar _

/-- The steps of a body that runs beside others go together with those of the body that keeps a
record. -/
theorem related (h : Env.Beside a reply before needs request w env env') :
    Interpretation.Related
      (Strand.following (Task.besides a reply) (Deed.telling a reply before) Fault.Unneeded w)
      (fun s d t => Means s.pool d t ∧ d.scalar? = none)
      (fun s id t => Means s.pool (.atom (.ref id)) t) (fun s x t => Means s.pool (.atom x) t)
      (fun _ => True) (env.strand request) (env'.recorder needs) where
  toRelated := by
    show Control.Related _ (Strand.control env.exhausted) (Eval.control env'.exhausted)
    rw [h.exhausted_eq]
    have hbenign : env.exhausted.Benign := rfl
    exact Strand.control_related (D := Deed.telling a reply before) w (fun _ hf => hf) hbenign
  program := congrArg Analysis.program h.mirrors.analysis
  objectTypes := congrArg Analysis.types h.mirrors.analysis
  owner := h.mirrors.owner
  scalar _ s := .scalar s
  layer hordered hlayer :=
    .of_fresh hordered (hlayer.imp (fun _ _ hd => hd) fun _ _ hfalse => hfalse.elim)
  isNull hd := Means.isNull_eq hd
  lookup v name hv := h.lookup hv name
  range v a b _ := h.range a b
  ask {β γ v q q' V} hq hv := by
    refine Strand.Records.ask fun s hlater hsound => ?_
    have hrel := hq.mono hlater fun hd => ⟨hd.1.mono hlater.grows.keeps, hd.2⟩
    -- every tree is well formed if any tree may stand for a type
    refine hrel.agree (U := fun _ => True) hsound (fun {d t} => ?_) (fun hd => hd.1) fun q _ _ hd => ?_
    · exact ⟨fun hd => ⟨hd, .anything (fun _ => trivial) t⟩, And.left⟩
    · exact (h.mirrors_later (hv.trans hlater)).envRel.queryType hsound q hd
  type {v t} _ hv := by
    refine .own (.ofExcept _) (.ofExcept fun s hlater => ?_)
    exact TypeExpr.agree (h.mirrors_later (hv.trans hlater)).envRel t
  constant hd := hd.1
  poolType {v d t} hd hv := by
    refine Strand.Records.pool .ref ?_ fun _ _ h => h
    exact (Job.pooling a reply (·.Within t)).internsType hd.1 hd.2 fun _ hu => hu
  pool {v d t} hd hv := by
    refine Strand.Records.pool id ?_ fun _ _ h => h
    have hinterns := (Job.pooling a reply (·.Within t)).interns hd fun _ hu => hu
    exact (Job.pooling a reply (·.Within t)).imp hinterns fun q x hx => hx.1
  typeArgs_mono hle hid := hid.mono (Stock.Later.grows hle).keeps
  args_mono hle ha := ha.mono (Stock.Later.grows hle).keeps
  call {v name f is js as bs} hcallee htypes hargs hv := by
    have hget : env.analysis.program.functions.get? name = some f :=
      Analysis.get?_of_callee hcallee
    have hdeclared : Request.Declared env.analysis.program (.call f is as) := by
      show env.analysis.program.functions.get? f.qualifiedName = some f
      rw [h.mirrors.named hget]
      exact hget
    exact h.fetch hv hdeclared (.call f htypes hargs)

end Env.Beside

/-! ### Whole bodies -/

/-- The atom with which a body ends is handed in. -/
theorem Job.fills_internAtom {P : Tree Scalar → Prop} {p : Pool} {x : Atom} {t : Tree Scalar}
    (h : Means p (.atom x) t) (hP : P t.settled) :
    Job.Fills a reply P p (Job.once (Work.onPool (Pool.internAtom x))) fun q id =>
      q.Denotes id t.settled := by
  intro known deeds hkeeps
  refine Job.meets_once fun s hlater hgood => ?_
  have hmeans : Means s.pool (.atom x) t := h.mono (hkeeps.trans hlater.grows.keeps)
  obtain ⟨pool, uses, memo⟩ := s
  rcases hmeans.internAtom with ⟨v, id, q, hintern, hq, hleaf⟩ | ⟨id, hintern, hid⟩
  · have hrun : (Work.onPool (Pool.internAtom x)).outcome ⟨pool, uses, memo⟩ =
        (.ok id, ⟨q, uses, memo⟩) := by
      simp only [Work.outcome, Work.onPool, hintern]
    have hdenotes : q.Denotes id t.settled := hleaf ▸ .of_scalar hq.get
    rw [hrun]
    refine ⟨[.pooled id (.scalar v) t.settled], ?_, Deed.fits_of_not_mem fun u hu => ?_, id, _, rfl,
      rfl, .value hP, hdenotes⟩
    · exact .pool hq (.of_interned_scalar hq hleaf.symm) hdenotes
    · cases List.mem_singleton.1 hu
  · have hrun : (Work.onPool (Pool.internAtom x)).outcome ⟨pool, uses, memo⟩ =
        (.ok id, ⟨pool, uses, memo⟩) := by
      simp only [Work.outcome, Work.onPool, hintern]
    rw [hrun]
    exact ⟨[], .nothing, Deed.fits_of_not_mem fun _ => List.not_mem_nil, id, [], rfl, rfl, .nil, hid⟩

/-- The value with which a body ends is pooled. -/
theorem Env.fills_settlePool {P : Tree Scalar → Prop} {p : Pool} {d : Draft} {t : Tree Scalar}
    (h : Means p d t) (hP : ∀ u, u = t.settled ∨ u.Within t.settled → P u) :
    Job.Fills a reply P p (settle.pool d) fun q id => q.Denotes id t.settled := by
  have hinterns : Job.Fills a reply P p (d.internBy Job.intern) fun q x =>
      Means q (.atom x) t ∧ (d.scalar? = none → ∃ id, x = .ref id) :=
    (Job.pooling a reply P).interns h fun u hu => hP u (.inr hu.settled)
  exact hinterns.bind fun q x _ hx => Job.fills_internAtom hx.1 (hP _ (.inl rfl))

/-- A whole body: it does what is in the record and comes to what the record ends with, and then its
result is pooled. -/
theorem Env.Beside.task {before : List Deed} {needs : List Node}
    {request : Request ValueId Atom → Job ValueId} {w : Stock} {env : Env} {env' : TreeEnv Scalar}
    (h : Env.Beside a reply before needs request w env env') {body : Expr}
    (havoids : Eval.Avoids Fault.Unneeded (env'.recording needs body)) {P : Tree Scalar → Prop}
    (hP : ∀ t, env'.ended (env'.recording needs body) = .ok t → ∀ u, u = t ∨ u.Within t → P u) :
    (env.task request body).run.Meets a reply (fun s deeds o => ∃ told result,
      deeds = told ++ result ∧ Deed.Told a reply before s told (env'.record needs body) ∧
        Deed.Pools P result ∧
          Agree Fault.Benign s.pool.Denotes o (env'.ended (env'.recording needs body))) w before := by
  have hnear : Near (Deed.telling a reply before) w []
      ((⟨(), [.empty], env.analysis.settings.stepBudget⟩ : Local).over (w, before))
      ⟨{}, [.empty], env'.analysis.settings.stepBudget⟩ := by
    refine ⟨.refl w, .start before w, .cons .empty .nil, ?_, List.cons_ne_nil _ _,
      List.forall_mem_nil _⟩
    rw [h.mirrors.analysis]
    rfl
  have hbody := Expr.related h.related w body (fun _ _ => trivial) (.refl w) _ _ _ hnear havoids
  have hrecording : env'.recording needs body =
      body.evalIn (env'.recorder needs) ⟨{}, [.empty], env'.analysis.settings.stepBudget⟩ := rfl
  rw [← hrecording] at hbody
  unfold TreeEnv.record
  rw [Env.task, ExceptT.run_mk]
  refine Task.Meets.bind hbody fun s deeds ended _ hends => ?_
  generalize env'.recording needs body = r at hends hP ⊢
  -- what is left is to pool the value, which both ways of coming to one share
  have hvalue : ∀ {d : Draft} {t : Tree Scalar} {log : Log}, Deed.Told a reply before s deeds log →
      Means s.pool d t → (∀ u, u = t.settled ∨ u.Within t.settled → P u) →
        (settle.pool d).run.Meets a reply (fun s' deeds' o => ∃ told result,
          deeds' = told ++ result ∧ Deed.Told a reply before s' told log ∧ Deed.Pools P result ∧
            Agree Fault.Benign s'.pool.Denotes o (.ok t.settled)) s deeds := by
    intro d t log htold hd hsettled
    refine (Env.fills_settlePool hd hsettled s deeds (.refl _)).imp ?_
    rintro s' _ o hlater ⟨id, more, rfl, rfl, hpools, hid⟩
    exact ⟨deeds, more, rfl, htold.later hlater, hpools, .ok hid⟩
  have hfault : ∀ {f : Fault} {log : Log}, Deed.Told a reply before s deeds log → f.Benign →
      (throw f : Job ValueId).run.Meets a reply (fun s' deeds' o => ∃ told result,
        deeds' = told ++ result ∧ Deed.Told a reply before s' told log ∧ Deed.Pools P result ∧
          Agree Fault.Benign s'.pool.Denotes o (.error f : Except Fault (Tree Scalar))) s deeds :=
    fun htold hf =>
    ⟨deeds, [], (List.append_nil deeds).symm, htold, .nil, .error hf⟩
  have howner := h.mirrors.owner
  cases ended with
  | ok d m =>
    cases hends with
    | ok hafter _ hd => exact hvalue hafter.holds hd (hP _ rfl)
  | error stop m =>
    cases hends with
    | stop hafter hs =>
      cases hs with
      | result hd => exact hvalue hafter.holds hd (hP _ rfl)
      | leaveLoop =>
        rw [TreeEnv.ended, howner]
        exact hfault hafter.holds rfl
      | nextRound =>
        rw [TreeEnv.ended, howner]
        exact hfault hafter.holds rfl
      | fault hf => exact hfault hafter.holds hf
    | excused _ _ hf => exact hf.elim

end ConstPool
