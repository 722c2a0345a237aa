import ConstPool.Proofs.Conduct.Resolve
import ConstPool.Proofs.Sessions
import ConstPool.Proofs.Table.Exact

/-!
# What an evaluation leaves behind

Whatever is done with a session, the recorded uses are those of the constants in its pool, and one
for every site that came to a constant. They stay so when an evaluation ends early, with a part of
a wave computed and not settled. An evaluation that comes to its end has settled every site that
waited, and none of them with a breach; else the breach is the outcome of one of them.

A session goes on by handing in values, handing in sites, evaluating and ending. `Regular` is kept
by all of them. The induction for an evaluation is on the sites of its plan: each of them is
answered on the stock that the ones before it have left, and settling it adds one use, if it has
come to a constant, and one diagnostic, if it has not.

* `Stock.stable_records`, `Stock.stable_traced`: requests keep the uses right.
* `Session.Regular`: what is true of every session.
* `Session.Regular.evaluate`: what an evaluation does.
-/

namespace ConstPool

open Relation

/-! ### Uses -/

/-- The outcome of handing in a value, and what is in the pool then. -/
theorem Pool.intern_cases (pool : Pool) (value : Value) :
    (∃ f q, pool.intern value = (.error f, q) ∧ ∀ id, q.get? id = pool.get? id) ∨
      ∃ id q, pool.intern value = (.ok id, q) ∧
        ∀ i v, q.get? i = some v ↔ pool.get? i = some v ∨ i = id ∧ v = value := by
  rcases hid : pool.idOf? value with _ | id
  · rcases hdangling : pool.dangling? value with _ | missing
    · refine .inr ⟨_, _, intern_of_new hid hdangling, fun i v => ?_⟩
      rw [get?_insert_values hid]
      split
      · next hi =>
        have hnone : pool.get? i = none := get?_eq_none_iff.2 (Nat.le_of_eq hi.symm)
        have hsame : i = ⟨pool.size⟩ := congrArg ValueId.mk hi
        rw [hnone]
        constructor
        · exact fun h => .inr ⟨hsame, (Option.some.inj h).symm⟩
        · rintro (h | ⟨-, rfl⟩)
          · cases h
          · rfl
      · next hi =>
        refine ⟨.inl, fun h => h.resolve_right ?_⟩
        rintro ⟨rfl, -⟩
        exact hi rfl
    · exact .inl ⟨_, _, intern_of_dangling hid hdangling, fun _ => rfl⟩
  · refine .inr ⟨id, _, intern_of_mem hid, fun i v => ⟨.inl, ?_⟩⟩
    rintro (h | ⟨rfl, rfl⟩)
    · exact h
    · exact get?_of_idOf? hid

/-- The uses of the parts of a constant are recorded. -/
theorem Uses.mem_recordParts {uses : Uses} {id : ValueId} {parts : List ValueId}
    {e : User × ValueId} : e ∈ (uses.recordParts id parts).edges.items ↔
      e ∈ uses.edges.items ∨ e.1 = .value id ∧ e.2 ∈ parts := by
  induction parts generalizing uses with
  | nil => simp [recordParts]
  | cons part rest ih =>
    rw [recordParts, List.foldl_cons, ← recordParts, ih, mem_record, List.mem_cons, or_assoc,
      Prod.ext_iff, ← and_or_left]

/-- The recorded uses of a stock are those of the constants in its pool, and certain others. -/
def Stock.Records (others : User × ValueId → Prop) (s : Stock) : Prop :=
  ∀ e : User × ValueId, e ∈ s.uses.edges.items ↔
    others e ∨ ∃ id, e.1 = .value id ∧ s.pool.HasPart id e.2

/-- Requests record the uses of new constants, and no others. -/
theorem Stock.stable_records (others : User × ValueId → Prop) :
    Stock.Stable (Stock.Records others) where
  intern value s h := by
    obtain ⟨pool, uses, memo⟩ := s
    rcases pool.intern_cases value with ⟨f, q, hintern, hget⟩ | ⟨id, q, hintern, hget⟩
    · have hafter : ((Work.intern value).outcome ⟨pool, uses, memo⟩).2 = ⟨q, uses, memo⟩ := by
        simp only [Work.outcome, Work.intern, Work.onPool, bind, EStateM.bind, hintern]
      rw [hafter]
      intro e
      refine (h e).trans ?_
      simp only [Pool.HasPart, hget]
    · have hafter : ((Work.intern value).outcome ⟨pool, uses, memo⟩).2 =
          ⟨q, uses.recordParts id value.children, memo⟩ := by
        simp only [Work.outcome, Work.intern, Work.onPool, bind, EStateM.bind, hintern]
        rfl
      rw [hafter]
      -- the new identity has the children of the value as parts; the others keep theirs
      have hpart : ∀ {i part}, q.HasPart i part ↔
          pool.HasPart i part ∨ i = id ∧ part ∈ value.children := by
        intro i part
        simp only [Pool.HasPart, hget]
        constructor
        · rintro ⟨v, hv | ⟨rfl, rfl⟩, hin⟩
          · exact .inl ⟨v, hv, hin⟩
          · exact .inr ⟨rfl, hin⟩
        · rintro (⟨v, hv, hin⟩ | ⟨rfl, hin⟩)
          · exact ⟨v, .inl hv, hin⟩
          · exact ⟨value, .inr ⟨rfl, rfl⟩, hin⟩
      intro e
      rw [Uses.mem_recordParts, h e, or_assoc]
      refine or_congr_right ⟨?_, ?_⟩
      · rintro (⟨i, hi, hold⟩ | ⟨hi, hnew⟩)
        · exact ⟨i, hi, hpart.2 (.inl hold)⟩
        · exact ⟨id, hi, hpart.2 (.inr ⟨rfl, hnew⟩)⟩
      · rintro ⟨i, hi, hi'⟩
        rcases hpart.1 hi' with hold | ⟨rfl, hnew⟩
        · exact .inl ⟨i, hi, hold⟩
        · exact .inr ⟨hi, hnew⟩
  memo _ h := h

/-- The recorded uses of a stock are those of the constants in its pool, and what sites came to. -/
def Stock.Traced (cameTo : SiteId → ValueId → Prop) (s : Stock) : Prop := s.uses.Traces s.pool cameTo

/-- What sites came to are uses besides those of the constants. -/
theorem Stock.traced_iff {cameTo : SiteId → ValueId → Prop} {s : Stock} :
    s.Traced cameTo ↔ s.Records fun e => ∃ site, e.1 = .site site ∧ cameTo site e.2 := by
  constructor
  · rintro h ⟨user, part⟩
    cases user with
    | site site =>
      rw [h.results]
      simp
    | value id =>
      rw [h.parts]
      simp
  · intro h
    refine ⟨fun {id part} => (h (.value id, part)).trans ?_,
      fun {site id} => (h (.site site, id)).trans ?_⟩
    · simp
    · simp

/-- Requests keep the uses right. -/
theorem Stock.stable_traced (cameTo : SiteId → ValueId → Prop) :
    Stock.Stable (Stock.Traced cameTo) where
  intern value s h := traced_iff.2 ((stable_records _).intern value s (traced_iff.1 h))
  memo _ h := h

namespace Analysis

variable {a : Analysis} {s : Stock}

/-- A site keeps what requests keep. -/
theorem Sound.keeps_resolveSite (hs : a.Sound) {I : Stock → Prop} (hI : Stock.Stable I)
    (site : Site) (h : I s) : I ((a.resolveSite site).outcome s).2 := by
  rcases a.resolveSite_cases hs.program site s with
    ⟨f, hrun, -⟩ | ⟨f, types, args, -, hdeclared, -, hrun⟩
  · rw [hrun]
    exact h
  · rw [hrun]
    exact Work.conforms_keeping_iff.1 (hs.conforms_resolve hI hdeclared) s h

/-- The constant that a site comes to lies in the pool. -/
theorem Sound.lt_size_of_site (hs : a.Sound) (h : s.Reached a) {site : Site} {id : ValueId}
    (hid : ((a.resolveSite site).outcome s).1 = .ok id) :
    id.index < ((a.resolveSite site).outcome s).2.pool.size := by
  rcases a.resolveSite_cases hs.program site s with
    ⟨f, hrun, -⟩ | ⟨f, types, args, -, hdeclared, hinplace, hrun⟩
  · rw [hrun] at hid
    cases hid
  · rw [hrun] at hid ⊢
    obtain ⟨t, -, hagree | ⟨f, -, hf⟩⟩ := (hs.upholds_explained.answered hdeclared hinplace.known
      (h.faithful hs.upholds_explained)).explained
    · obtain ⟨k, hk⟩ := hs.exists_shallow (Request.call f types args : Request ValueId Atom).node
      have hagree := hagree k hk
      rw [hid] at hagree
      generalize a.answer k t = y at hagree
      cases hagree with
      | ok hdenotes =>
        obtain ⟨atom, hatom, -⟩ := hdenotes
        by_contra hout
        rw [Pool.atomOf, Pool.get, Pool.get?_eq_none_iff.2 (Nat.le_of_not_lt hout)] at hatom
        cases hatom
    · rw [hid] at hf
      cases hf

/-- Where a stock has gone on, it still has a history, and no constant is lost. -/
theorem Sound.reached_of_proceeds (hs : a.Sound) {s' : Stock} (h : s.Reached a)
    (hsteps : s.Proceeds a s') : s'.Reached a ∧ s.pool.Keeps s'.pool := by
  have hleads : Stock.Leads a s s' :=
    Stock.steps_mono (fun _ _ h => h.elim) (fun _ _ h => h.known) hsteps
  exact ⟨h.trans hleads, (hleads.faithful hs.upholds_explained
    (h.faithful hs.upholds_explained)).2⟩

end Analysis

namespace Session

variable {s s' s'' : Session}

/-! ### Sites that wait -/

/-- A site has been handed in and has no outcome yet. -/
structure Awaits (s : Session) (e : SiteId × Site) : Prop where
  site : s.site? e.1 = some e.2
  unsettled : s.outcomes.get? e.1 = none

/-- The numbered sites are those that are found under their numbers. -/
theorem mem_numbered {e : SiteId × Site} : e ∈ s.numbered ↔ s.site? e.1 = some e.2 := by
  obtain ⟨⟨n⟩, site⟩ := e
  rw [numbered, site?, List.mem_map]
  constructor
  · rintro ⟨⟨site', n'⟩, hmem, heq⟩
    cases heq
    exact List.mem_zipIdx_iff_getElem?.1 hmem
  · exact fun h => ⟨(site, n), List.mem_zipIdx_iff_getElem?.2 h, rfl⟩

/-- The pending sites are those that wait. -/
theorem mem_pending {e : SiteId × Site} : e ∈ s.pending ↔ s.Awaits e := by
  rw [pending, List.mem_filter, mem_numbered, Bool.not_eq_true', OrderedMap.contains_eq,
    Option.isSome_eq_false_iff, Option.isNone_iff_eq_none]
  exact ⟨fun h => ⟨h.1, h.2⟩, fun h => ⟨h.site, h.unsettled⟩⟩

/-- Every site waits once. -/
theorem nodup_pending (s : Session) : (s.pending.map Prod.fst).Nodup := by
  have hnumbered : (s.numbered.map Prod.fst).Nodup := by
    have hmap : s.numbered.map Prod.fst = (List.range s.sites.length).map SiteId.mk := by
      rw [numbered, List.map_map, List.range_eq_range', ← List.zipIdx_map_snd 0 s.sites,
        List.map_map]
      rfl
    rw [hmap]
    exact List.nodup_range.map fun _ _ h => SiteId.mk.inj h
  exact hnumbered.sublist (List.filter_sublist.map _)

/-! ### What is true at all times -/

/-- What is true of a session at all times. -/
structure Regular (s : Session) : Prop where
  reached : s.stock.Reached s.analysis
  traced : s.stock.Traced fun id value => s.outcomes.get? id = some (.ok value)
  known : ∀ {id value}, s.outcomes.get? id = some (.ok value) → value.index < s.stock.pool.size
  /-- An outcome is that of a site which was handed in; a fault that can be reported has been. -/
  reported : ∀ {id o}, s.outcomes.get? id = some o → ∃ site, s.site? id = some site ∧
    ∀ f, o = .error f → f.isFatal = false → .ofFault f site.span ∈ s.diagnostics

/-- All of this holds at the start, where there is nothing yet. -/
theorem regular_start (p : Program) (types : Types) (settings : Settings) :
    (start p types settings).Regular where
  reached := .refl
  traced := by
    have hnone : ∀ id, ({} : Pool).get? id = none := fun id =>
      Pool.get?_eq_none_iff.2 (Nat.zero_le _)
    refine ⟨fun {id part} => ⟨fun h => ?_, fun h => ?_⟩, fun {id value} => ⟨fun h => ?_, fun h => ?_⟩⟩
    · cases Array.not_mem_empty _ h
    · obtain ⟨v, hv, -⟩ := h
      cases (hnone id).symm.trans hv
    · cases Array.not_mem_empty _ h
    · rw [show (start p types settings).outcomes = .empty from rfl, OrderedMap.get?_empty] at h
      cases h
  known h := by
    rw [show (start p types settings).outcomes = .empty from rfl, OrderedMap.get?_empty] at h
    cases h
  reported h := by
    rw [show (start p types settings).outcomes = .empty from rfl, OrderedMap.get?_empty] at h
    cases h

/-- A session whose stock has gone on. -/
theorem Regular.withStock (h : s.Regular) {stock : Stock}
    (hreached : stock.Reached s.analysis) (hkeeps : s.stock.pool.Keeps stock.pool)
    (htraced : stock.Traced fun id value => s.outcomes.get? id = some (.ok value)) :
    ({ s with stock } : Session).Regular where
  reached := hreached
  traced := htraced
  known hok := hkeeps.size_le (h.known hok)
  reported := h.reported

/-- To settle a site is to write its outcome down. -/
theorem outcomes_settle (s : Session) (id : SiteId) (site : Site) (o : Outcome) :
    (s.settle id site o).outcomes = s.outcomes.insert id o := by
  unfold settle
  split
  · rfl
  · split <;> rfl

/-- No constant is pooled when a site is settled. -/
theorem pool_settle (s : Session) (id : SiteId) (site : Site) (o : Outcome) :
    (s.settle id site o).stock.pool = s.stock.pool := by
  unfold settle
  split
  · rfl
  · split <;> rfl

/-- No site is handed in when one is settled. -/
theorem sites_settle (s : Session) (id : SiteId) (site : Site) (o : Outcome) :
    (s.settle id site o).sites = s.sites := by
  unfold settle
  split
  · rfl
  · split <;> rfl

/-- The uses stay right when the outcome of a site is settled that had none. -/
theorem traced_settle {id : SiteId} (hnone : s.outcomes.get? id = none) (site : Site) (o : Outcome)
    (h : s.stock.Traced fun id value => s.outcomes.get? id = some (.ok value)) :
    (s.settle id site o).stock.Traced fun id' value =>
      (s.settle id site o).outcomes.get? id' = some (.ok value) := by
  have hcame : ∀ {id' o'}, (s.outcomes.insert id o).get? id' = some o' ↔
      s.outcomes.get? id' = some o' ∨ id' = id ∧ o = o' := OrderedMap.get?_insert_of_new hnone
  rw [outcomes_settle]
  cases o with
  | ok value =>
    refine ⟨fun {i part} => ?_, fun {id' v} => ?_⟩
    · rw [settle, Uses.mem_record, h.parts]
      refine or_iff_left ?_
      rintro ⟨⟩
    · rw [settle, Uses.mem_record, h.results, hcame, Prod.mk.injEq, User.site.injEq,
        Except.ok.injEq, eq_comm (a := v)]
  | error f =>
    -- a fault is not the use of a constant
    have hstock : (s.settle id site (.error f)).stock = s.stock := by
      unfold settle
      dsimp only
      split <;> rfl
    rw [hstock]
    refine ⟨h.parts, fun {id' v} => h.results.trans ?_⟩
    rw [hcame]
    refine (or_iff_left ?_).symm
    rintro ⟨-, ⟨⟩⟩

/-- A fault that can be reported is reported when it is settled, and what was reported before is
kept. -/
theorem diagnostics_settle (s : Session) (id : SiteId) (site : Site) (o : Outcome) :
    s.diagnostics ⊆ (s.settle id site o).diagnostics ∧ ∀ f, o = .error f → f.isFatal = false →
      .ofFault f site.span ∈ (s.settle id site o).diagnostics := by
  unfold settle
  cases o with
  | ok value => exact ⟨List.Subset.refl _, fun f hf => nomatch hf⟩
  | error f =>
    dsimp only
    split
    · next hfatal =>
      refine ⟨List.Subset.refl _, fun g hg hbenign => ?_⟩
      cases hg
      exact absurd hfatal (Bool.eq_false_iff.1 hbenign)
    · refine ⟨List.subset_append_left _ _, fun g hg _ => ?_⟩
      cases hg
      exact List.mem_append_right _ (List.mem_singleton_self _)

/-- An outcome of a site that waits is settled. -/
theorem Regular.settle (hs : s.analysis.Sound) (h : s.Regular) {id : SiteId} {site : Site}
    {o : Outcome} (hid : s.Awaits (id, site))
    (hknown : ∀ value, o = .ok value → value.index < s.stock.pool.size) :
    (s.settle id site o).Regular := by
  have hlater := s.later_settle id site o
  have hreached := (hs.reached_of_proceeds h.reached hlater.steps).1
  rw [hlater.analysis.symm] at hreached
  -- the site waited, so it had no outcome that this one could replace
  have hcame : ∀ {id' o'}, (s.outcomes.insert id o).get? id' = some o' ↔
      s.outcomes.get? id' = some o' ∨ id' = id ∧ o = o' := OrderedMap.get?_insert_of_new hid.unsettled
  have hsite : (s.settle id site o).site? = s.site? := by
    funext id'
    rw [site?, site?, sites_settle]
  obtain ⟨hkept, hnew⟩ := s.diagnostics_settle id site o
  refine ⟨hreached, traced_settle hid.unsettled site o h.traced, fun {id' v} hv => ?_,
    fun {id' o'} hget => ?_⟩
  · rw [outcomes_settle] at hv
    rw [pool_settle]
    rcases hcame.1 hv with hold | ⟨-, hv⟩
    · exact h.known hold
    · exact hknown v hv
  · rw [outcomes_settle] at hget
    rw [hsite]
    rcases hcame.1 hget with hold | ⟨rfl, rfl⟩
    · obtain ⟨site', hsite', hreported⟩ := h.reported hold
      exact ⟨site', hsite', fun f hf hbenign => hkept (hreported f hf hbenign)⟩
    · exact ⟨site, hid.site, hnew⟩

/-! ### Evaluation -/

/-- An outcome that does not end the work. -/
def Recovers (o : Outcome) : Prop := ∀ f, o = .error f → f.isFatal = false

/-- What settling the sites `es`, which waited, has made of a session: all of them have outcomes
with which the work goes on, or one of them has the breach that ended it. -/
structure Settles (s s' : Session) (es : List (SiteId × Site))
    (result : Except Fault EvaluationReport) : Prop where
  regular : s'.Regular
  analysis : s'.analysis = s.analysis
  sites : s'.sites = s.sites
  others : ∀ id, id ∉ es.map Prod.fst → s'.outcomes.get? id = s.outcomes.get? id
  ends : Results (fun f => f.isFatal = true ∧ ∃ e ∈ es, s'.outcomes.get? e.1 = some (.error f))
    (fun _ => ∀ e ∈ es, ∃ o, s'.outcomes.get? e.1 = some o ∧ Recovers o) result

namespace Settles

variable {es es' : List (SiteId × Site)} {result : Except Fault EvaluationReport}
  {report : EvaluationReport} {f : Fault}

/-- There is nothing to settle. -/
theorem nil (h : s.Regular) : s.Settles s [] (.ok report) :=
  ⟨h, rfl, rfl, fun _ _ => rfl, .ok fun _ he => nomatch he⟩

/-- Sites that still wait after others were settled. -/
theorem awaits (h : s.Settles s' es result) {e : SiteId × Site} (he : s.Awaits e)
    (hnot : e.1 ∉ es.map Prod.fst) : s'.Awaits e where
  site := by rw [site?, h.sites, ← site?, he.site]
  unsettled := by rw [h.others _ hnot, he.unsettled]

/-- More sites are settled. -/
theorem trans (h : s.Settles s' es (.ok report)) (h' : s'.Settles s'' es' result)
    (hdisjoint : ∀ e ∈ es, e.1 ∉ es'.map Prod.fst) : s.Settles s'' (es ++ es') result where
  regular := h'.regular
  analysis := h'.analysis.trans h.analysis
  sites := h'.sites.trans h.sites
  others id hid := by
    rw [List.map_append, List.mem_append, not_or] at hid
    rw [h'.others id hid.2, h.others id hid.1]
  ends := by
    refine h'.ends.imp (fun f hf => ⟨hf.1, ?_⟩) fun _ hok => ?_
    · obtain ⟨e, he, hfault⟩ := hf.2
      exact ⟨e, List.mem_append_right _ he, hfault⟩
    · intro e he
      rcases List.mem_append.1 he with he | he
      · cases h.ends with
        | ok hall =>
          rw [h'.others _ (hdisjoint e he)]
          exact hall e he
      · exact hok e he

/-- The rest of the sites is not looked at any more. -/
theorem append (h : s.Settles s' es (.error f)) (rest : List (SiteId × Site)) :
    s.Settles s' (es ++ rest) (.error f) where
  regular := h.regular
  analysis := h.analysis
  sites := h.sites
  others id hid := by
    rw [List.map_append, List.mem_append, not_or] at hid
    exact h.others id hid.1
  ends := by
    cases h.ends with
    | error hf =>
      obtain ⟨e, he, hfault⟩ := hf.2
      exact .error ⟨hf.1, e, List.mem_append_left _ he, hfault⟩

/-- The same sites in another order. -/
theorem perm (h : s.Settles s' es result) (hperm : es.Perm es') : s.Settles s' es' result where
  regular := h.regular
  analysis := h.analysis
  sites := h.sites
  others id hid := h.others id fun hin => hid ((hperm.map Prod.fst).mem_iff.1 hin)
  ends := by
    refine h.ends.imp (fun f hf => ⟨hf.1, ?_⟩) fun _ hall e he => hall e (hperm.mem_iff.2 he)
    obtain ⟨e, he, hfault⟩ := hf.2
    exact ⟨e, hperm.mem_iff.1 he, hfault⟩

end Settles

/-- One outcome is settled. -/
theorem Regular.settles (hs : s.analysis.Sound) (h : s.Regular) {id : SiteId} {site : Site}
    {o : Outcome} (hid : s.Awaits (id, site))
    (hknown : ∀ value, o = .ok value → value.index < s.stock.pool.size)
    {result : Except Fault EvaluationReport}
    (hends : Results (fun f => f.isFatal = true ∧ o = .error f) (fun _ => Recovers o) result) :
    s.Settles (s.settle id site o) [(id, site)] result where
  regular := h.settle hs hid hknown
  analysis := (s.later_settle id site o).analysis
  sites := s.sites_settle id site o
  others id' hid' := by
    have hne : id' ≠ id := fun heq => hid' (List.mem_singleton.2 heq)
    rw [outcomes_settle, OrderedMap.get?_insert_of_ne _ hne]
  ends := by
    have hget : (s.settle id site o).outcomes.get? id = some o := by
      rw [outcomes_settle, OrderedMap.get?_insert_self]
    refine hends.imp (fun f hf => ⟨hf.1, (id, site), List.mem_singleton_self _, ?_⟩)
      fun _ hrecovers e he => ?_
    · rw [← hf.2]
      exact hget
    · rw [List.mem_singleton.1 he]
      exact ⟨o, hget, hrecovers⟩

/-- Outcomes are settled one by one, up to the first breach. -/
theorem Regular.settleAll (hs : s.analysis.Sound) (h : s.Regular)
    {os : List (SiteId × Site × Outcome)} (hnodup : (os.map Prod.fst).Nodup)
    (hawaits : ∀ o ∈ os, s.Awaits (o.1, o.2.1))
    (hknown : ∀ o ∈ os, ∀ value, o.2.2 = .ok value → value.index < s.stock.pool.size)
    (report : EvaluationReport) :
    s.Settles (settleAll os report s).2 (os.map fun o => (o.1, o.2.1))
      (settleAll os report s).1 := by
  induction os generalizing report s with
  | nil => exact .nil h
  | cons first rest ih =>
    obtain ⟨id, site, o⟩ := first
    obtain ⟨hawaits₁, hawaits⟩ := List.forall_mem_cons.1 hawaits
    obtain ⟨hknown₁, hknown⟩ := List.forall_mem_cons.1 hknown
    rw [List.map_cons, List.nodup_cons] at hnodup
    have hother : ∀ o ∈ rest, o.1 ≠ id := by
      intro o' ho' heq
      have hin : o'.1 ∈ rest.map Prod.fst := List.mem_map_of_mem ho'
      rw [heq] at hin
      exact hnodup.1 hin
    -- an outcome that is no breach goes on with the rest, whatever is added to the report
    have hnext : ∀ report', Recovers o →
        s.Settles (Session.settleAll rest report' (s.settle id site o)).2
          ((id, site) :: rest.map fun o => (o.1, o.2.1))
          (Session.settleAll rest report' (s.settle id site o)).1 := by
      intro report' hrecovers
      have hfirst : s.Settles (s.settle id site o) [(id, site)] (.ok report') :=
        h.settles hs hawaits₁ hknown₁ (.ok hrecovers)
      refine hfirst.trans (ih (hfirst.analysis ▸ hs) hfirst.regular hnodup.2 (fun o' ho' => ?_)
        (fun o' ho' => ?_) report') fun e he => ?_
      · exact hfirst.awaits (hawaits o' ho') fun hin => hother o' ho' (List.mem_singleton.1 hin)
      · rw [pool_settle]
        exact hknown o' ho'
      · rw [List.mem_singleton.1 he, List.map_map]
        exact hnodup.1
    cases o with
    | ok value => exact hnext _ fun f hf => nomatch hf
    | error f =>
      rw [Session.settleAll]
      split
      · next hfatal =>
        have hfirst : s.Settles (s.settle id site (.error f)) [(id, site)] (.error f) :=
          h.settles hs hawaits₁ hknown₁ (.error ⟨hfatal, rfl⟩)
        exact hfirst.append _
      · next hbenign =>
        refine hnext _ fun g hg => ?_
        cases hg
        exact Bool.eq_false_iff.2 hbenign

/-- The outcomes of a wave are those of its sites in order. -/
theorem map_runWave (a : Analysis) (wave : List (SiteId × Site)) (stock : Stock) :
    (runWave a wave stock).1.map (fun o => (o.1, o.2.1)) = wave := by
  induction wave generalizing stock with
  | nil => rfl
  | cons first rest ih => exact congrArg (first :: ·) (ih _)

/-- Running a wave keeps what requests keep. -/
theorem keeps_runWave {a : Analysis} (hs : a.Sound) {I : Stock → Prop} (hI : Stock.Stable I)
    (wave : List (SiteId × Site)) {stock : Stock} (h : I stock) : I (runWave a wave stock).2 := by
  induction wave generalizing stock with
  | nil => exact h
  | cons first rest ih => exact ih (hs.keeps_resolveSite hI first.2 h)

/-- The constants of a wave lie in the pool. -/
theorem lt_size_of_runWave {a : Analysis} (hs : a.Sound) (wave : List (SiteId × Site))
    {stock : Stock} (h : stock.Reached a) : ∀ o ∈ (runWave a wave stock).1,
      ∀ value, o.2.2 = .ok value → value.index < (runWave a wave stock).2.pool.size := by
  induction wave generalizing stock with
  | nil => exact fun _ ho => nomatch ho
  | cons first rest ih =>
    have hfirst := a.steps_resolveSite hs.program first.2 stock
    have hreached := (hs.reached_of_proceeds h hfirst).1
    have hkeeps := (hs.reached_of_proceeds hreached (runWave_spec hs.program rest _).1).2
    refine List.forall_mem_cons.2 ⟨fun value hvalue => ?_, ih hreached⟩
    exact hkeeps.size_le (hs.lt_size_of_site h hvalue)

/-- Waves are evaluated one after another, up to the first breach. -/
theorem Regular.evaluateWaves (hs : s.analysis.Sound) (h : s.Regular)
    {waves : List (List (SiteId × Site))} (hnodup : (waves.flatten.map Prod.fst).Nodup)
    (hawaits : ∀ e ∈ waves.flatten, s.Awaits e) (report : EvaluationReport) :
    s.Settles (evaluateWaves waves report s).2 waves.flatten (evaluateWaves waves report s).1 := by
  induction waves generalizing report s with
  | nil => exact .nil h
  | cons wave rest ih =>
    rw [List.flatten_cons, List.map_append, List.nodup_append] at hnodup
    obtain ⟨hwave, hrest, hdisjoint⟩ := hnodup
    rw [List.flatten_cons, List.forall_mem_append] at hawaits
    obtain ⟨hreached, hkeeps⟩ := hs.reached_of_proceeds h.reached
      (runWave_spec hs.program wave s.stock).1
    have hrun := h.withStock hreached hkeeps
      (keeps_runWave hs (Stock.stable_traced _) wave h.traced)
    have hmap := map_runWave s.analysis wave s.stock
    have hfst : (runWave s.analysis wave s.stock).1.map Prod.fst = wave.map Prod.fst := by
      have hmap := congrArg (List.map Prod.fst) hmap
      rwa [List.map_map] at hmap
    -- running the wave changes the stock only, so its sites still wait
    have hopen : ∀ o ∈ (runWave s.analysis wave s.stock).1,
        Awaits { s with stock := (runWave s.analysis wave s.stock).2 } (o.1, o.2.1) := by
      intro o ho
      have hin : (o.1, o.2.1) ∈ wave := hmap ▸ List.mem_map_of_mem ho
      exact ⟨(hawaits.1 _ hin).site, (hawaits.1 _ hin).unsettled⟩
    have hsettled := Regular.settleAll (s := { s with stock := (runWave s.analysis wave s.stock).2 })
      hs hrun (hfst ▸ hwave) hopen (lt_size_of_runWave hs wave h.reached) report
    rw [hmap] at hsettled
    rw [Session.evaluateWaves]
    dsimp only
    generalize Session.settleAll (runWave s.analysis wave s.stock).1 report
      { s with stock := (runWave s.analysis wave s.stock).2 } = x at hsettled ⊢
    obtain ⟨result, s'⟩ := x
    have hfirst : s.Settles s' wave result := ⟨hsettled.regular, hsettled.analysis, hsettled.sites,
      hsettled.others, hsettled.ends⟩
    cases result with
    | ok report' =>
      refine hfirst.trans (ih (hfirst.analysis ▸ hs) hfirst.regular hrest (fun e he => ?_)
        report') fun e he hin => ?_
      · exact hfirst.awaits (hawaits.2 e he) fun hin =>
          hdisjoint _ hin _ (List.mem_map_of_mem he) rfl
      · exact hdisjoint _ (List.mem_map_of_mem he) _ hin rfl
    | error f => exact hfirst.append _

/-- An evaluation settles the sites that wait, up to the first breach. -/
theorem Regular.evaluate (hs : s.analysis.Sound) (h : s.Regular) :
    s.Settles s.evaluate.2 s.pending s.evaluate.1 := by
  have hperm := s.perm_waves
  have hawaits : ∀ e ∈ s.waves.flatten, s.Awaits e := fun e he =>
    mem_pending.1 (hperm.mem_iff.1 he)
  exact (h.evaluateWaves hs ((hperm.map Prod.fst).nodup_iff.2 s.nodup_pending) hawaits _).perm hperm

/-- The end of a session: what waits is evaluated, and then the constants are selected. -/
theorem finish_eq (s : Session) (retained : List SiteId) :
    s.finish retained = (s.evaluate.1.bind fun _ =>
      select s.evaluate.2.stock.pool s.evaluate.2.stock.uses s.evaluate.2.outcomes retained,
        s.evaluate.2) := by
  unfold finish
  rcases hpending : s.pending with _ | ⟨e, rest⟩
  · -- nothing waits: an evaluation would have no waves
    have hwaves : s.waves = [] := by
      rw [waves, hpending]
      rfl
    have hevaluate : s.evaluate = (.ok { waves := s.waves.length }, s) := by
      rw [evaluate, hwaves]
      rfl
    rw [hevaluate]
    rfl
  · generalize s.evaluate = x
    obtain ⟨f | report, s'⟩ := x
    · rfl
    · rfl

/-- A site that is handed in changes nothing about the others. -/
theorem Regular.submit (h : s.Regular) (site : Site) : (s.submit site).2.Regular where
  reached := h.reached
  traced := h.traced
  known := h.known
  reported {id o} ho := by
    obtain ⟨site', hsite, hreported⟩ := h.reported ho
    refine ⟨site', ?_, hreported⟩
    have hlt := (List.getElem?_eq_some_iff.1 hsite).1
    rw [site?] at hsite ⊢
    exact (List.getElem?_append_left hlt).trans hsite

/-- Whatever is done with a session, it stays regular. -/
theorem Regular.step {V : Pool → Value → Prop} (hs : s.analysis.Sound) (h : s.Regular)
    (hstep : Step V s s') : s'.Regular := by
  cases hstep with
  | @intern value hvalue =>
    have hkeeps := s.stock.pool.keeps_intern value
    rw [← (Stock.intern_eq value s.stock).2.1] at hkeeps
    exact h.withStock (h.reached.tail (.intern trivial)) hkeeps
      ((Stock.stable_traced _).intern value s.stock h.traced)
  | submit site => exact h.submit site
  | evaluate => exact (h.evaluate hs).regular
  | finish retained =>
    rw [finish_eq]
    exact (h.evaluate hs).regular

variable {p : Program} {types : Types} {settings : Settings}

/-- A session that starts from a declared program has a sound analysis at all times. -/
theorem Reached.sound (hp : p.Declared) (h : Reached p types settings s) : s.analysis.Sound := by
  rw [(h.stock hp).1]
  exact Analysis.sound_build hp types settings

/-- Every session is regular. -/
theorem Reached.regular (hp : p.Declared) (h : Reached p types settings s) : s.Regular := by
  induction h with
  | refl => exact regular_start p types settings
  | tail hsteps hstep ih => exact ih.step (Reached.sound hp hsteps) hstep

end Session

end ConstPool
