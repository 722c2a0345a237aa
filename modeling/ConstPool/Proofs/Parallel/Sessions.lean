import ConstPool.Proofs.Evaluation
import ConstPool.Proofs.Parallel.Waves

/-!
# Evaluations, beside each other or not

What comes of an evaluation is open where the sites of a wave are evaluated beside each other. But
each site that waits gets an outcome, which is what its inquiry comes to on trees, and what the
session has become is told by the inquiries of its sites. In a program without recursion no site
ends the work, so all of them are settled.

* `Session.Settled`: what settling outcomes does.
* `Session.Follows`: a session has come about by the inquiries of its sites.
* `Session.Advances`: what an evaluation has done.
* `Session.Follows.advances_of_wave`: one wave.
* `Session.Follows.advances`, `Session.Follows.exists_evaluatesWaves`: waves one after another.
-/

namespace ConstPool

open Relation

namespace Session

variable {s s' s'' : Session}

/-! ### Settling -/

/-- Outcomes of sites that had none were settled, which leaves the constants and the cache as they
were, and the uses right. -/
structure Settled (s s' : Session) (os : List (SiteId × Site × Outcome)) : Prop where
  analysis : s'.analysis = s.analysis
  sites : s'.sites = s.sites
  pool : s'.stock.pool = s.stock.pool
  memo : s'.stock.memo = s.stock.memo
  outcomes : ∀ id o, s'.outcomes.get? id = some o ↔
    s.outcomes.get? id = some o ∨ ∃ site, (id, site, o) ∈ os
  traced : (s.stock.Traced fun id value => s.outcomes.get? id = some (.ok value)) →
    s'.stock.Traced fun id value => s'.outcomes.get? id = some (.ok value)

namespace Settled

variable {os os' : List (SiteId × Site × Outcome)}

/-- No outcome was settled. -/
theorem nil (s : Session) : s.Settled s [] where
  analysis := rfl
  sites := rfl
  pool := rfl
  memo := rfl
  outcomes id o := by simp
  traced h := h

/-- Outcomes that were settled in two stretches. -/
theorem trans (h : s.Settled s' os) (h' : s'.Settled s'' os') :
    s.Settled s'' (os ++ os') where
  analysis := h'.analysis.trans h.analysis
  sites := h'.sites.trans h.sites
  pool := h'.pool.trans h.pool
  memo := h'.memo.trans h.memo
  outcomes id o := by
    simp only [h'.outcomes, h.outcomes, List.mem_append, exists_or, or_assoc]
  traced htraced := h'.traced (h.traced htraced)

/-- A site that was not among those that were settled has the outcome that it had. -/
theorem get?_eq_none_iff (h : s.Settled s' os) (id : SiteId) :
    s'.outcomes.get? id = none ↔ s.outcomes.get? id = none ∧ id ∉ os.map Prod.fst := by
  simp only [Option.eq_none_iff_forall_ne_some, ne_eq, h.outcomes, not_or, forall_and, not_exists]
  refine and_congr_right fun _ => ⟨fun hnone hin => ?_, fun hnot o site hin => ?_⟩
  · obtain ⟨⟨_, site, o⟩, hmem, rfl⟩ := List.mem_map.1 hin
    exact hnone o site hmem
  · exact hnot (List.mem_map_of_mem hin)

end Settled

/-- One outcome is settled. -/
theorem settled_settle {id : SiteId} (hnone : s.outcomes.get? id = none) (site : Site)
    (o : Outcome) : s.Settled (s.settle id site o) [(id, site, o)] where
  analysis := (s.later_settle id site o).analysis
  sites := s.sites_settle id site o
  pool := s.pool_settle id site o
  memo := by
    unfold settle
    split
    · rfl
    · split <;> rfl
  outcomes id' o' := by
    rw [outcomes_settle, OrderedMap.get?_insert_of_new hnone]
    simp [eq_comm]
  traced := traced_settle hnone site o

/-- Outcomes with which the work goes on are all settled. -/
theorem settled_settleAll {os : List (SiteId × Site × Outcome)} (h : ∀ o ∈ os, Recovers o.2.2)
    (hnodup : (os.map Prod.fst).Nodup) (hnone : ∀ o ∈ os, s.outcomes.get? o.1 = none)
    (report : EvaluationReport) : (∃ report', (settleAll os report s).1 = .ok report') ∧
      s.Settled (settleAll os report s).2 os := by
  induction os generalizing report s with
  | nil => exact ⟨⟨report, rfl⟩, .nil s⟩
  | cons first rest ih =>
    obtain ⟨id, site, o⟩ := first
    rw [List.forall_mem_cons] at h hnone
    rw [List.map_cons, List.nodup_cons] at hnodup
    have hfirst := settled_settle hnone.1 site o
    have hnext : settleAll ((id, site, o) :: rest) report s =
        settleAll rest (EvaluationReport.count report o) (s.settle id site o) := by
      cases o with
      | ok value => rfl
      | error f =>
        have hbenign : f.isFatal = false := h.1 f rfl
        simp only [settleAll, hbenign, Bool.false_eq_true, if_false]
    rw [hnext]
    -- the sites differ, so this outcome is not one of theirs
    have hunsettled : ∀ o' ∈ rest, (s.settle id site o).outcomes.get? o'.1 = none := by
      intro o' ho'
      have hin : o'.1 ∈ rest.map Prod.fst := List.mem_map_of_mem ho'
      refine (hfirst.get?_eq_none_iff _).2 ⟨hnone.2 o' ho', fun hid => hnodup.1 ?_⟩
      exact List.mem_singleton.1 hid ▸ hin
    obtain ⟨hreport, hrest⟩ := ih h.2 hnodup.2 hunsettled (EvaluationReport.count report o)
    exact ⟨hreport, hfirst.trans hrest⟩

/-! ### What a session has done -/

section Following

variable {reply : Inquiry → Except Fault (Tree Scalar)} {pose : Site → Except Fault Inquiry}
  {s₀ : Session} {done : List Site}

/-- A session has come about from another one by the inquiries of sites, and every outcome is what
the inquiry of its site comes to on trees. -/
structure Follows (reply : Inquiry → Except Fault (Tree Scalar)) (pose : Site → Except Fault Inquiry)
    (s₀ s : Session) (done : List Site) : Prop where
  analysis : s.analysis = s₀.analysis
  posed : Stock.Posed s₀.analysis reply pose s₀.stock s.stock done
  outcomes : ∀ id o, s.outcomes.get? id = some o → ∃ site, s.site? id = some site ∧
    Agree Fault.Benign s.stock.pool.Denotes o (pose site >>= reply)
  traced : s.stock.Traced fun id value => s.outcomes.get? id = some (.ok value)

/-- What an evaluation of the sites `es` has made of the session `s`: each of them has an outcome.
-/
structure Advances (reply : Inquiry → Except Fault (Tree Scalar)) (pose : Site → Except Fault Inquiry)
    (s₀ s : Session) (done : List Site) (es : List (SiteId × Site)) (s' : Session) : Prop where
  follows : Follows reply pose s₀ s' (done ++ es.map Prod.snd)
  sites : s'.sites = s.sites
  settled : ∀ id, s'.outcomes.get? id = none ↔ s.outcomes.get? id = none ∧ id ∉ es.map Prod.fst

/-- Sites that wait, each of them once, and whose arguments lie in a pool. -/
structure Open (s : Session) (p : Pool) (es : List (SiteId × Site)) : Prop where
  nodup : (es.map Prod.fst).Nodup
  awaits : ∀ e ∈ es, s.Awaits e
  stored : ∀ e ∈ es, e.2.Stored p

/-- If all sites of a plan are open, so are the first of them, and the others once those are
settled. -/
theorem open_append {p : Pool} {es es' : List (SiteId × Site)} (h : s.Open p (es ++ es')) :
    s.Open p es ∧ s.Open p es' ∧ ∀ e ∈ es', e.1 ∉ es.map Prod.fst := by
  obtain ⟨hnodup, hawaits, hstored⟩ := h
  rw [List.map_append, List.nodup_append] at hnodup
  rw [List.forall_mem_append] at hawaits hstored
  refine ⟨⟨hnodup.1, hawaits.1, hstored.1⟩, ⟨hnodup.2.1, hawaits.2, hstored.2⟩, fun e he hin => ?_⟩
  exact hnodup.2.2 _ hin _ (List.mem_map_of_mem he) rfl

namespace Advances

variable {es es' : List (SiteId × Site)}

/-- Two stretches of waves, one after the other. -/
theorem trans (h : Advances reply pose s₀ s done es s')
    (h' : Advances reply pose s₀ s' (done ++ es.map Prod.snd) es' s'') :
    Advances reply pose s₀ s done (es ++ es') s'' where
  follows := by
    rw [List.map_append, ← List.append_assoc]
    exact h'.follows
  sites := h'.sites.trans h.sites
  settled id := by
    rw [h'.settled, h.settled, List.map_append, List.mem_append, not_or, and_assoc]

/-- Other sites wait still. -/
theorem opened {p : Pool} (h : Advances reply pose s₀ s done es s') (hopen : s.Open p es')
    (hothers : ∀ e ∈ es', e.1 ∉ es.map Prod.fst) : s'.Open p es' where
  nodup := hopen.nodup
  awaits e he := by
    refine ⟨?_, (h.settled e.1).2 ⟨(hopen.awaits e he).unsettled, hothers e he⟩⟩
    rw [site?, h.sites]
    exact (hopen.awaits e he).site
  stored := hopen.stored

end Advances

/-- One wave: its outcomes are settled, all of them. -/
theorem Follows.advances_of_wave (h : Follows reply pose s₀ s done)
    (hreading : s₀.analysis.Reading s₀.stock.pool reply pose) {parallel : Bool}
    {wave : List (SiteId × Site)} (hopen : s.Open s₀.stock.pool wave)
    {outcomes : List (SiteId × Site × Outcome)} {stock : Stock}
    (hruns : RunsWave s.analysis parallel wave s.stock outcomes stock) (report : EvaluationReport) :
    ∃ report' s', settleAll outcomes report { s with stock } = (.ok report', s') ∧
      Advances reply pose s₀ s done wave s' := by
  rw [h.analysis] at hruns
  obtain ⟨hsites, hran⟩ := hreading.ran_of_runsWave h.posed.good h.posed.idle
    h.posed.later.grows.keeps hopen.stored hruns
  have hids : outcomes.map Prod.fst = wave.map Prod.fst := by
    rw [← hsites, List.map_map]
    rfl
  have hmem : ∀ o ∈ outcomes, (o.1, o.2.1) ∈ wave := fun o ho => hsites ▸ List.mem_map_of_mem ho
  have hagree : ∀ o ∈ outcomes,
      Agree Fault.Benign stock.pool.Denotes o.2.2 (pose o.2.1 >>= reply) := by
    have hran := hran.agree
    rw [← hsites, List.map_map, List.forall₂_map_left_iff, List.forall₂_map_right_iff,
      List.forall₂_same] at hran
    exact hran
  -- every site comes to what it comes to on trees, and no reply is a breach, so no outcome of the
  -- wave stops the evaluation
  have hrecovers : ∀ o ∈ outcomes, Recovers o.2.2 := by
    intro o ho f hf
    have hoagree := hagree o ho
    rw [hf] at hoagree
    generalize pose o.2.1 >>= reply = y at hoagree
    cases hoagree with
    | error hbenign => exact hbenign
  obtain ⟨⟨report', hreport⟩, hsettled⟩ := settled_settleAll (s := { s with stock }) hrecovers
    (hids ▸ hopen.nodup) (fun o ho => (hopen.awaits _ (hmem o ho)).unsettled) report
  generalize settleAll outcomes report { s with stock } = x at hreport hsettled ⊢
  obtain ⟨result, s'⟩ := x
  cases hreport
  have hsite : s'.site? = s.site? := by
    funext id
    rw [site?, site?, hsettled.sites]
  refine ⟨report', s', rfl, ⟨⟨hsettled.analysis.trans h.analysis, ?_, fun id o ho => ?_, ?_⟩,
    hsettled.sites, fun id => ?_⟩⟩
  · exact (h.posed.trans hran.posed).uses hsettled.pool hsettled.memo
  · -- an old outcome still denotes what it did, since the pool has only grown; a new one is the
    -- outcome of a site of the wave
    rw [hsite, hsettled.pool]
    rcases (hsettled.outcomes id o).1 ho with hold | ⟨site, hin⟩
    · obtain ⟨site, hid, hoagree⟩ := h.outcomes id o hold
      exact ⟨site, hid, hoagree.imp_value fun _ _ hdenotes =>
        hdenotes.mono hran.posed.later.grows.keeps⟩
    · exact ⟨site, (hopen.awaits _ (hmem _ hin)).site, hagree _ hin⟩
  · exact hsettled.traced (Stock.traced_iff.2 (hran.records _ (Stock.traced_iff.1 h.traced)))
  · rw [hsettled.get?_eq_none_iff, hids]

/-- Waves one after another: all of them are settled. -/
theorem Follows.advances (h : Follows reply pose s₀ s done)
    (hreading : s₀.analysis.Reading s₀.stock.pool reply pose) {parallel : Bool}
    {waves : List (List (SiteId × Site))} (hopen : s.Open s₀.stock.pool waves.flatten)
    {report : EvaluationReport} {result : Except Fault EvaluationReport}
    (hevaluates : EvaluatesWaves parallel waves report s result s') :
    (∃ report', result = .ok report') ∧ Advances reply pose s₀ s done waves.flatten s' := by
  induction hevaluates generalizing done with
  | @nil report s =>
    refine ⟨⟨report, rfl⟩, ⟨?_, rfl, fun id => by simp⟩⟩
    rwa [List.flatten_nil, List.map_nil, List.append_nil]
  | next hruns hsettle _ ih =>
    rw [List.flatten_cons] at hopen
    obtain ⟨hwave, hrest, hothers⟩ := open_append hopen
    obtain ⟨report', s₁, heq, hfirst⟩ := h.advances_of_wave hreading hwave hruns _
    cases hsettle.symm.trans heq
    obtain ⟨hresult, hafter⟩ := ih hfirst.follows (hfirst.opened hrest hothers)
    rw [List.flatten_cons]
    exact ⟨hresult, hfirst.trans hafter⟩
  | breach hruns hsettle =>
    obtain ⟨hwave, -, -⟩ := open_append hopen
    obtain ⟨report', s₁, heq, -⟩ := h.advances_of_wave hreading hwave hruns _
    cases hsettle.symm.trans heq

/-- Something comes of all waves. -/
theorem Follows.exists_evaluatesWaves (h : Follows reply pose s₀ s done)
    (hreading : s₀.analysis.Reading s₀.stock.pool reply pose) (parallel : Bool)
    {waves : List (List (SiteId × Site))} (hopen : s.Open s₀.stock.pool waves.flatten)
    (report : EvaluationReport) :
    ∃ result s', EvaluatesWaves parallel waves report s result s' := by
  induction waves generalizing s done report with
  | nil => exact ⟨_, _, .nil⟩
  | cons wave rest ih =>
    rw [List.flatten_cons] at hopen
    obtain ⟨hwave, hrest, hothers⟩ := open_append hopen
    obtain ⟨outcomes, stock, hruns⟩ := hreading.exists_runsWave h.posed.good h.posed.idle
      h.posed.later.grows.keeps hwave.stored parallel
    rw [← h.analysis] at hruns
    obtain ⟨report', s', hsettle, hfirst⟩ := h.advances_of_wave hreading hwave hruns report
    obtain ⟨result, s'', hafter⟩ := ih hfirst.follows (hfirst.opened hrest hothers) report'
    exact ⟨result, s'', .next hruns hsettle hafter⟩

end Following

end Session

end ConstPool
