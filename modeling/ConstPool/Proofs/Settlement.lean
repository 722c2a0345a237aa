import ConstPool.Proofs.Finish
import ConstPool.Proofs.Ladder

/-!
# The books of a session

The outcomes of a session are a log: a site gets its outcome once, and the outcomes stand in the
order in which the sites were settled. The uses and the diagnostics say the same as the log. An
evaluation continues the log by outcomes of the sites that wait, those of the lower functions first
and among those of one height in the order in which they were handed in; it gets to the end of
them, or it ends with the first breach and leaves the rest for the next evaluation.

The plan of an evaluation is made once, from the sites that wait: they are put into waves by the
height of their function, in the order of their numbers. A wave is computed as a whole before its
outcomes are settled, one by one. If one of them is a breach, the ones before it are settled and
the ones after it are not, though they were computed. The log of the session therefore grows by a
beginning of the plan. An outcome is never written over, which is why the log is a list without
repetitions and why each later session has that of an earlier one as its beginning.

* `Session.pairwise_plan`: the order in which an evaluation settles sites.
* `Session.Records`: what settling outcomes does to the log and to the diagnostics.
* `Session.Kept`: what is true of the books at all times.
* `Session.books_of_reached`: the books over whole runs.
-/

namespace ConstPool

namespace Session

open Relation

variable {s s' s'' : Session}

/-! ### The order in which sites are settled -/

/-- The sites that wait, in the order in which an evaluation settles them. -/
def plan (s : Session) : List (SiteId × Site) := s.waves.flatten

/-- One site is settled before another one: that of the lower function, and of two at one height
that which was handed in earlier. -/
def Before (s : Session) (e e' : SiteId × Site) : Prop :=
  s.heightOf e.2 < s.heightOf e'.2 ∨
    s.heightOf e.2 = s.heightOf e'.2 ∧ e.1.index < e'.1.index

/-- Waves in ascending order, each of one height and with its sites in the order of their numbers.
-/
structure Layered (s : Session) (waves : List (Nat × List (SiteId × Site))) : Prop where
  ascending : waves.Pairwise fun w w' => w.1 < w'.1
  level : ∀ w ∈ waves, ∀ e ∈ w.2, s.heightOf e.2 = w.1
  numbered : ∀ w ∈ waves, w.2.Pairwise fun e e' => e.1.index < e'.1.index

/-- A first wave, and the others above it. -/
theorem layered_cons {w : Nat × List (SiteId × Site)} {waves : List (Nat × List (SiteId × Site))} :
    s.Layered (w :: waves) ↔ (∀ w' ∈ waves, w.1 < w'.1) ∧ (∀ e ∈ w.2, s.heightOf e.2 = w.1) ∧
      (w.2.Pairwise fun e e' => e.1.index < e'.1.index) ∧ s.Layered waves := by
  constructor
  · rintro ⟨hascending, hlevel, hnumbered⟩
    rw [List.pairwise_cons] at hascending
    rw [List.forall_mem_cons] at hlevel hnumbered
    exact ⟨hascending.1, hlevel.1, hnumbered.1, hascending.2, hlevel.2, hnumbered.2⟩
  · rintro ⟨hfirst, hlevel, hnumbered, hrest⟩
    exact ⟨List.pairwise_cons.2 ⟨hfirst, hrest.ascending⟩,
      List.forall_mem_cons.2 ⟨hlevel, hrest.level⟩,
      List.forall_mem_cons.2 ⟨hnumbered, hrest.numbered⟩⟩

/-- A site is put into a wave of its own height. -/
theorem height_of_mem_addToWave {height : Nat} {e : SiteId × Site}
    {waves : List (Nat × List (SiteId × Site))} {w : Nat × List (SiteId × Site)}
    (h : w ∈ addToWave height e waves) : w.1 = height ∨ ∃ w' ∈ waves, w'.1 = w.1 := by
  induction waves with
  | nil =>
    rw [addToWave, List.mem_singleton] at h
    exact .inl (congrArg Prod.fst h)
  | cons first rest ih =>
    obtain ⟨k, wave⟩ := first
    rw [addToWave] at h
    split at h
    · rcases List.mem_cons.1 h with rfl | h
      · exact .inl rfl
      · exact .inr ⟨w, h, rfl⟩
    · split at h
      · next hheight =>
        rcases List.mem_cons.1 h with rfl | h
        · exact .inl hheight.symm
        · exact .inr ⟨w, List.mem_cons_of_mem _ h, rfl⟩
      · rcases List.mem_cons.1 h with rfl | h
        · exact .inr ⟨_, List.mem_cons_self .., rfl⟩
        · rcases ih h with hheight | ⟨w', hw', heq⟩
          · exact .inl hheight
          · exact .inr ⟨w', List.mem_cons_of_mem _ hw', heq⟩

/-- A site that was handed in after those of the waves joins them at the end of its wave. -/
theorem Layered.add {waves : List (Nat × List (SiteId × Site))} (h : s.Layered waves)
    {e : SiteId × Site}
    (hlater : ∀ e' ∈ (waves.map Prod.snd).flatten, e'.1.index < e.1.index) :
    s.Layered (addToWave (s.heightOf e.2) e waves) := by
  have hlone : ∀ e' ∈ [e], s.heightOf e'.2 = s.heightOf e.2 := by
    intro e' he'
    rw [List.mem_singleton.1 he']
  induction waves with
  | nil => exact layered_cons.2 ⟨fun _ h => (List.not_mem_nil h).elim, hlone,
      List.pairwise_singleton _ _, h⟩
  | cons first rest ih =>
    obtain ⟨k, wave⟩ := first
    obtain ⟨hfirst, hlevel, hnumbered, hrest⟩ := layered_cons.1 h
    rw [List.map_cons, List.flatten_cons, List.forall_mem_append] at hlater
    -- the site opens a wave before this one, joins it, or goes on to the later ones
    rw [addToWave]
    split
    · next hbelow =>
      refine layered_cons.2 ⟨?_, hlone, List.pairwise_singleton _ _, h⟩
      exact List.forall_mem_cons.2 ⟨hbelow, fun w hw => hbelow.trans (hfirst w hw)⟩
    · split
      · next heq =>
        refine layered_cons.2 ⟨hfirst, ?_, ?_, hrest⟩
        · exact List.forall_mem_append.2 ⟨hlevel, fun e' he' => (hlone e' he').trans heq⟩
        · refine List.pairwise_append.2 ⟨hnumbered, List.pairwise_singleton _ _, ?_⟩
          intro e' he' e'' he''
          rw [List.mem_singleton.1 he'']
          exact hlater.1 e' he'
      · refine layered_cons.2 ⟨fun w hw => ?_, hlevel, hnumbered, ih hrest hlater.2⟩
        rcases height_of_mem_addToWave hw with hheight | ⟨w', hw', heq⟩
        · dsimp only
          omega
        · rw [← heq]
          exact hfirst w' hw'

/-- The sites of layered waves stand in order. -/
theorem Layered.pairwise {waves : List (Nat × List (SiteId × Site))} (h : s.Layered waves) :
    (waves.map Prod.snd).flatten.Pairwise s.Before := by
  rw [List.pairwise_flatten, List.forall_mem_map, List.pairwise_map]
  constructor
  · intro w hw
    refine (h.numbered w hw).imp_of_mem fun he he' hlt => .inr ⟨?_, hlt⟩
    rw [h.level w hw _ he, h.level w hw _ he']
  · refine h.ascending.imp_of_mem fun hw hw' hlt e he e' he' => .inl ?_
    rw [h.level _ hw e he, h.level _ hw' e' he']
    exact hlt

/-- The sites that wait stand in the order of their numbers. -/
theorem pairwise_pending (s : Session) :
    s.pending.Pairwise fun e e' => e.1.index < e'.1.index := by
  refine List.Pairwise.filter _ ?_
  rw [numbered, List.pairwise_map, List.pairwise_iff_getElem]
  intro i j hi hj hlt
  simpa using hlt

/-- An evaluation settles the sites that wait, each once. -/
theorem perm_plan (s : Session) : s.plan.Perm s.pending := s.perm_waves

/-- The waves ascend by height. -/
theorem layered_waves (s : Session) :
    ∃ waves, s.Layered waves ∧ s.waves = waves.map Prod.snd := by
  have hfold : ∀ (sites : List (SiteId × Site)) (waves : List (Nat × List (SiteId × Site))),
      s.Layered waves → (sites.Pairwise fun e e' => e.1.index < e'.1.index) →
      (∀ e ∈ sites, ∀ e' ∈ (waves.map Prod.snd).flatten, e'.1.index < e.1.index) →
      s.Layered (sites.foldl (fun acc e => addToWave (s.heightOf e.2) e acc) waves) := by
    intro sites
    induction sites with
    | nil => exact fun _ h _ _ => h
    | cons e rest ih =>
      intro waves hwaves hsites hlater
      rw [List.pairwise_cons] at hsites
      rw [List.forall_mem_cons] at hlater
      refine ih _ (hwaves.add hlater.1) hsites.2 fun e' he' e'' he'' => ?_
      rcases List.mem_cons.1 ((perm_addToWave _ e waves).mem_iff.1 he'') with rfl | he''
      · exact hsites.1 e' he'
      · exact hlater.2 e' he' e'' he''
  have hnil : s.Layered [] := ⟨.nil, fun _ h => (List.not_mem_nil h).elim,
    fun _ h => (List.not_mem_nil h).elim⟩
  exact ⟨_, hfold s.pending [] hnil s.pairwise_pending
    fun _ _ _ h => (List.not_mem_nil h).elim, rfl⟩

/-- An evaluation settles sites by height, and those of one height by number. -/
theorem pairwise_plan (s : Session) : s.plan.Pairwise s.Before := by
  obtain ⟨waves, hlayered, hwaves⟩ := s.layered_waves
  rw [plan, hwaves]
  exact hlayered.pairwise

/-! ### What is written down -/

/-- The diagnostic for an outcome of a site: a fault that does not end the work is reported at the
place of the site. -/
def diagnosis (site : Site) : Outcome → Option Diagnostic
  | .ok _ => none
  | .error f => if f.isFatal then none else some (.ofFault f site.span)

/-- The diagnostics for the outcomes of a session, in the order in which sites were settled. -/
def diagnoses (s : Session) : List Diagnostic :=
  s.outcomes.entries.filterMap fun e => (s.site? e.1).bind fun site => diagnosis site e.2

/-- Outcomes of sites were written down one after another, and nothing else. -/
structure Records (s s' : Session) (new : List (SiteId × Site × Outcome)) : Prop where
  analysis : s'.analysis = s.analysis
  sites : s'.sites = s.sites
  outcomes : s'.outcomes.entries = s.outcomes.entries ++ new.map fun o => (o.1, o.2.2)
  diagnostics : s'.diagnostics = s.diagnostics ++ new.filterMap fun o => diagnosis o.2.1 o.2.2
  others : ∀ id, id ∉ new.map Prod.fst → s'.outcomes.get? id = s.outcomes.get? id

namespace Records

variable {new new' : List (SiteId × Site × Outcome)}

/-- Nothing was written down. -/
theorem nil (s : Session) : s.Records s [] where
  analysis := rfl
  sites := rfl
  outcomes := (List.append_nil _).symm
  diagnostics := (List.append_nil _).symm
  others _ _ := rfl

/-- What was written down in two stretches. -/
theorem trans (h : s.Records s' new) (h' : s'.Records s'' new') :
    s.Records s'' (new ++ new') where
  analysis := h'.analysis.trans h.analysis
  sites := h'.sites.trans h.sites
  outcomes := by rw [h'.outcomes, h.outcomes, List.map_append, List.append_assoc]
  diagnostics := by rw [h'.diagnostics, h.diagnostics, List.filterMap_append, List.append_assoc]
  others id hid := by
    rw [List.map_append, List.mem_append, not_or] at hid
    rw [h'.others id hid.2, h.others id hid.1]

end Records

/-- The outcome of a site without one is written down. -/
theorem records_settle {id : SiteId} (h : s.outcomes.get? id = none) (site : Site)
    (o : Outcome) : s.Records (s.settle id site o) [(id, site, o)] where
  analysis := (s.later_settle id site o).analysis
  sites := s.sites_settle id site o
  outcomes := by
    rw [outcomes_settle, OrderedMap.entries_insert_of_new h]
    rfl
  diagnostics := by
    cases o with
    | ok value => exact (List.append_nil _).symm
    | error f =>
      rw [settle, List.filterMap_cons, List.filterMap_nil, diagnosis]
      dsimp only
      split
      · exact (List.append_nil _).symm
      · rfl
  others id' hid' := by
    have hne : id' ≠ id := fun heq => hid' (List.mem_singleton.2 heq)
    rw [outcomes_settle, OrderedMap.get?_insert_of_ne _ hne]

/-- How work on outcomes ends that was to go on from a report: with all of them settled and counted,
or with the first breach. -/
inductive Ends (report : EvaluationReport) :
    List (SiteId × Site × Outcome) → List (SiteId × Site) → Except Fault EvaluationReport → Prop
  | ok {done : List (SiteId × Site × Outcome)} : (∀ o ∈ done, Recovers o.2.2) →
    Ends report done [] (.ok (done.foldl (fun r o => EvaluationReport.count r o.2.2) report))
  | error {done : List (SiteId × Site × Outcome)} {id : SiteId} {site : Site} {f : Fault}
      {rest : List (SiteId × Site)} : (∀ o ∈ done, Recovers o.2.2) → f.isFatal = true →
    Ends report (done ++ [(id, site, .error f)]) rest (.error f)

/-- What settling `es` has made of a session: the outcomes of the first of them were written down,
up to the breach that ended the work. -/
structure Continues (s s' : Session) (es : List (SiteId × Site)) (report : EvaluationReport)
    (result : Except Fault EvaluationReport) (done : List (SiteId × Site × Outcome))
    (rest : List (SiteId × Site)) : Prop where
  split : es = done.map (fun o => (o.1, o.2.1)) ++ rest
  records : s.Records s' done
  ends : Ends report done rest result

/-- There were no sites to settle. -/
theorem Continues.nil (s : Session) (report : EvaluationReport) :
    s.Continues s [] report (.ok report) [] [] :=
  ⟨rfl, .nil s, .ok fun _ ho => (List.not_mem_nil ho).elim⟩

/-- Work that came to its end goes on with more sites. -/
theorem Continues.trans {es es' : List (SiteId × Site)} {report report' : EvaluationReport}
    {result : Except Fault EvaluationReport} {done done' : List (SiteId × Site × Outcome)}
    {rest rest' : List (SiteId × Site)} (h : s.Continues s' es report (.ok report') done rest)
    (h' : s'.Continues s'' es' report' result done' rest') :
    s.Continues s'' (es ++ es') report result (done ++ done') rest' := by
  obtain ⟨hsplit, hrecords, hends⟩ := h
  obtain ⟨hsplit', hrecords', hends'⟩ := h'
  refine ⟨?_, hrecords.trans hrecords', ?_⟩
  · cases hends with
    | ok _ => rw [hsplit, hsplit', List.append_nil, List.map_append, List.append_assoc]
  · cases hends with
    | ok hall =>
      cases hends' with
      | ok hall' =>
        rw [← List.foldl_append]
        exact .ok (List.forall_mem_append.2 ⟨hall, hall'⟩)
      | error hall' hfatal =>
        rw [← List.append_assoc]
        exact .error (List.forall_mem_append.2 ⟨hall, hall'⟩) hfatal

/-- After a breach the sites that would have followed are left. -/
theorem Continues.append {es : List (SiteId × Site)} {report : EvaluationReport} {f : Fault}
    {done : List (SiteId × Site × Outcome)} {rest : List (SiteId × Site)}
    (h : s.Continues s' es report (.error f) done rest) (es' : List (SiteId × Site)) :
    s.Continues s' (es ++ es') report (.error f) done (rest ++ es') := by
  obtain ⟨hsplit, hrecords, hends⟩ := h
  refine ⟨by rw [hsplit, List.append_assoc], hrecords, ?_⟩
  cases hends with
  | error hall hfatal => exact .error hall hfatal

/-- Outcomes of different sites without one are written down up to the first breach. -/
theorem exists_continues_settleAll {os : List (SiteId × Site × Outcome)}
    (hnodup : (os.map Prod.fst).Nodup) (hnone : ∀ o ∈ os, s.outcomes.get? o.1 = none)
    (report : EvaluationReport) :
    ∃ done rest, s.Continues (settleAll os report s).2 (os.map fun o => (o.1, o.2.1)) report
      (settleAll os report s).1 done rest := by
  induction os generalizing report s with
  | nil => exact ⟨[], [], .nil s report⟩
  | cons first rest ih =>
    obtain ⟨id, site, o⟩ := first
    rw [List.map_cons, List.nodup_cons] at hnodup
    rw [List.forall_mem_cons] at hnone
    have hrecords := records_settle hnone.1 site o
    have hnext : Recovers o → ∃ done left,
        s.Continues (settleAll rest (EvaluationReport.count report o) (s.settle id site o)).2
          ((id, site) :: rest.map fun o => (o.1, o.2.1)) report
          (settleAll rest (EvaluationReport.count report o) (s.settle id site o)).1 done left := by
      intro hrecovers
      have hfirst : s.Continues (s.settle id site o) [(id, site)] report
          (.ok (EvaluationReport.count report o)) [(id, site, o)] [] := by
        have hall : ∀ o' ∈ [(id, site, o)], Recovers o'.2.2 := by
          intro o' ho'
          rw [List.mem_singleton.1 ho']
          exact hrecovers
        exact ⟨rfl, hrecords, .ok hall⟩
      -- the sites differ, so this outcome is not one of theirs
      have hunsettled : ∀ o' ∈ rest, (s.settle id site o).outcomes.get? o'.1 = none := by
        intro o' ho'
        have hin : o'.1 ∈ rest.map Prod.fst := List.mem_map_of_mem ho'
        rw [hrecords.others _ fun hid => hnodup.1 (List.mem_singleton.1 hid ▸ hin),
          hnone.2 o' ho']
      obtain ⟨done, left, hrest⟩ := ih hnodup.2 hunsettled (EvaluationReport.count report o)
      exact ⟨_, _, hfirst.trans hrest⟩
    cases o with
    | ok value => exact hnext fun f hf => nomatch hf
    | error f =>
      rw [settleAll]
      split
      · next hfatal =>
        have hnone : ∀ o ∈ ([] : List (SiteId × Site × Outcome)), Recovers o.2.2 :=
          fun _ ho => (List.not_mem_nil ho).elim
        exact ⟨_, _, rfl, hrecords, .error hnone hfatal⟩
      · next hbenign =>
        refine hnext fun g hg => ?_
        cases hg
        exact Bool.eq_false_iff.2 hbenign

/-- Waves of different sites without an outcome are settled up to the first breach. -/
theorem exists_continues_evaluateWaves {waves : List (List (SiteId × Site))}
    (hnodup : (waves.flatten.map Prod.fst).Nodup)
    (hnone : ∀ e ∈ waves.flatten, s.outcomes.get? e.1 = none) (report : EvaluationReport) :
    ∃ done rest, s.Continues (evaluateWaves waves report s).2 waves.flatten report
      (evaluateWaves waves report s).1 done rest := by
  induction waves generalizing report s with
  | nil => exact ⟨[], [], .nil s report⟩
  | cons wave rest ih =>
    rw [List.flatten_cons, List.map_append, List.nodup_append] at hnodup
    obtain ⟨hwave, hrest, hdisjoint⟩ := hnodup
    rw [List.flatten_cons, List.forall_mem_append] at hnone
    have hmap := map_runWave s.analysis wave s.stock
    have hfst : (runWave s.analysis wave s.stock).1.map Prod.fst = wave.map Prod.fst := by
      have hmap := congrArg (List.map Prod.fst) hmap
      rwa [List.map_map] at hmap
    have hunsettled : ∀ o ∈ (runWave s.analysis wave s.stock).1,
        s.outcomes.get? o.1 = none := fun o ho =>
      hnone.1 (o.1, o.2.1) (hmap ▸ List.mem_map_of_mem ho)
    obtain ⟨done, left, hsettled⟩ := exists_continues_settleAll
      (s := { s with stock := (runWave s.analysis wave s.stock).2 }) (hfst ▸ hwave) hunsettled
      report
    rw [hmap] at hsettled
    rw [evaluateWaves]
    dsimp only
    generalize settleAll (runWave s.analysis wave s.stock).1 report
      { s with stock := (runWave s.analysis wave s.stock).2 } = x at hsettled ⊢
    obtain ⟨result, s'⟩ := x
    -- the stock is not among what is written down
    have hfirst : s.Continues s' wave report result done left := by
      obtain ⟨hsplit, hrecords, hends⟩ := hsettled
      exact ⟨hsplit, ⟨hrecords.analysis, hrecords.sites, hrecords.outcomes, hrecords.diagnostics,
        hrecords.others⟩, hends⟩
    cases result with
    | error f => exact ⟨_, _, hfirst.append rest.flatten⟩
    | ok report' =>
      -- what was settled belongs to this wave
      have hin : done.map Prod.fst ⊆ wave.map Prod.fst := by
        rw [hfirst.split, List.map_append, List.map_map]
        exact List.subset_append_left _ _
      have hunsettled : ∀ e ∈ rest.flatten, s'.outcomes.get? e.1 = none := by
        intro e he
        rw [hfirst.records.others _ fun hdone =>
          hdisjoint _ (hin hdone) _ (List.mem_map_of_mem he) rfl, hnone.2 e he]
      obtain ⟨done', left', hnext⟩ := ih hrest hunsettled report'
      exact ⟨_, _, hfirst.trans hnext⟩

/-- An evaluation settles the sites of its plan up to the first breach. -/
theorem exists_continues_evaluate (s : Session) :
    ∃ done rest, s.Continues s.evaluate.2 s.plan { waves := s.waves.length } s.evaluate.1
      done rest := by
  have hperm := s.perm_plan
  exact exists_continues_evaluateWaves ((hperm.map Prod.fst).nodup_iff.2 s.nodup_pending)
    (fun e he => (mem_pending.1 (hperm.mem_iff.1 he)).unsettled) _

/-! ### The books over whole runs -/

/-- The books of a session are kept: no site was settled twice, and what the sites use and what is
reported follow from the outcomes. -/
structure Kept (s : Session) : Prop where
  once : (s.outcomes.entries.map Prod.fst).Nodup
  handedIn : ∀ id o, s.outcomes.get? id = some o → ∃ site, s.site? id = some site
  uses : ∀ id value, (.site id, value) ∈ s.stock.uses.edges.items ↔
    s.outcomes.get? id = some (.ok value)
  diagnostics : s.diagnostics = s.diagnoses

/-- How an evaluation that has made `s'` of `s` went on with the log: by the entries `new` for the
first sites of its plan, while the sites `rest` go on waiting. It came to its end and counted what
it did, or it was ended by the last of these entries. -/
structure Progress (s s' : Session) (result : Except Fault EvaluationReport)
    (new : List (SiteId × Outcome)) (rest : List (SiteId × Site)) : Prop where
  log : s'.outcomes.entries = s.outcomes.entries ++ new
  order : s.plan.map Prod.fst = new.map Prod.fst ++ rest.map Prod.fst
  waiting : ∀ e, e ∈ s'.pending ↔ e ∈ rest
  report : ∀ report, result = .ok report → rest = [] ∧ (∀ e ∈ new, Recovers e.2) ∧
    report = { evaluated := new.length, succeeded := new.countP (·.2.isOk),
               failed := new.countP (!·.2.isOk), waves := s.waves.length }
  breach : ∀ f, result = .error f → f.isFatal = true ∧ ∃ earlier id,
    new = earlier ++ [(id, .error f)] ∧ ∀ e ∈ earlier, Recovers e.2

/-- The report after counting outcomes. -/
theorem foldl_count (done : List (SiteId × Site × Outcome)) (r : EvaluationReport) :
    done.foldl (fun r o => EvaluationReport.count r o.2.2) r =
      { r with
        evaluated := r.evaluated + done.length
        succeeded := r.succeeded + done.countP (·.2.2.isOk)
        failed := r.failed + done.countP (!·.2.2.isOk) } := by
  induction done generalizing r with
  | nil => rfl
  | cons first rest ih =>
    obtain ⟨id, site, o⟩ := first
    rw [List.foldl_cons, ih]
    cases o with
    | ok value =>
      simp [EvaluationReport.count, Except.isOk, Except.toBool]
      omega
    | error f =>
      simp [EvaluationReport.count, Except.isOk, Except.toBool]
      omega

/-- What is written down goes with the log. -/
theorem Records.kept {new : List (SiteId × Site × Outcome)} (h : s.Records s' new)
    (hkept : s.Kept) (hnodup : (new.map Prod.fst).Nodup)
    (hawaits : ∀ o ∈ new, s.Awaits (o.1, o.2.1)) (hregular : s'.Regular) : s'.Kept where
  once := by
    rw [h.outcomes, List.map_append, List.map_map]
    refine List.nodup_append.2 ⟨hkept.once, hnodup, ?_⟩
    rintro id hid id' hid' rfl
    obtain ⟨o, ho, rfl⟩ := List.mem_map.1 hid'
    have hnone : s.outcomes.get? o.1 = none := (hawaits o ho).unsettled
    rw [OrderedMap.map_fst_entries, ← OrderedMap.get?_isSome_iff, Function.comp_apply,
      hnone] at hid
    cases hid
  handedIn id o ho := by
    obtain ⟨site, hsite, -⟩ := hregular.reported ho
    exact ⟨site, hsite⟩
  uses id value := hregular.traced.results
  diagnostics := by
    have hsites : s'.site? = s.site? := by
      funext id
      rw [site?, site?, h.sites]
    rw [h.diagnostics, hkept.diagnostics, diagnoses, diagnoses, h.outcomes, hsites,
      List.filterMap_append, List.filterMap_map]
    refine congrArg _ (List.filterMap_congr fun o ho => ?_)
    have hsite : s.site? o.1 = some o.2.1 := (hawaits o ho).site
    simp only [Function.comp_apply, hsite, Option.bind_some]

/-- The end of an evaluation as the log shows it. -/
theorem Continues.progress {result : Except Fault EvaluationReport}
    {done : List (SiteId × Site × Outcome)} {rest : List (SiteId × Site)}
    (h : s.Continues s' s.plan { waves := s.waves.length } result done rest) :
    s.Progress s' result (done.map fun o => (o.1, o.2.2)) rest := by
  obtain ⟨hsplit, hrecords, hends⟩ := h
  have hnodup := (s.perm_plan.map Prod.fst).nodup_iff.2 s.nodup_pending
  rw [hsplit, List.map_append, List.map_map, List.nodup_append] at hnodup
  have hsettled : ∀ id ∈ done.map Prod.fst, (s'.outcomes.get? id).isSome = true := by
    intro id hid
    rw [OrderedMap.get?_isSome_iff, ← OrderedMap.map_fst_entries, hrecords.outcomes,
      List.map_append, List.map_map]
    exact List.mem_append_right _ hid
  refine ⟨hrecords.outcomes, ?_, fun e => ⟨fun he => ?_, fun he => ?_⟩, ?_, ?_⟩
  · rw [hsplit, List.map_append, List.map_map, List.map_map]
    rfl
  · have hawaits := mem_pending.1 he
    have hnot : e.1 ∉ done.map Prod.fst := by
      intro hin
      have hsome := hsettled _ hin
      rw [hawaits.unsettled] at hsome
      cases hsome
    -- a site that waits in the end has waited from the start
    have hplan : e ∈ s.plan := by
      refine s.perm_plan.mem_iff.2 (mem_pending.2 ⟨?_, ?_⟩)
      · rw [site?, ← hrecords.sites, ← site?, hawaits.site]
      · rw [← hrecords.others _ hnot, hawaits.unsettled]
    rw [hsplit] at hplan
    refine (List.mem_append.1 hplan).resolve_left fun hin => hnot ?_
    obtain ⟨o, ho, rfl⟩ := List.mem_map.1 hin
    exact List.mem_map_of_mem ho
  · have hplan : e ∈ s.plan := hsplit ▸ List.mem_append_right _ he
    have hawaits := mem_pending.1 (s.perm_plan.mem_iff.1 hplan)
    refine mem_pending.2 ⟨?_, ?_⟩
    · rw [site?, hrecords.sites, ← site?, hawaits.site]
    · rw [hrecords.others _ fun hin => hnodup.2.2 _ hin _ (List.mem_map_of_mem he) rfl,
        hawaits.unsettled]
  · rintro report rfl
    cases hends with
    | ok hall =>
      refine ⟨rfl, fun e he => ?_, ?_⟩
      · obtain ⟨o, ho, rfl⟩ := List.mem_map.1 he
        exact hall o ho
      · rw [foldl_count, List.length_map, List.countP_map, List.countP_map, Nat.zero_add,
          Nat.zero_add, Nat.zero_add]
        rfl
  · rintro f rfl
    cases hends with
    | error hall hfatal =>
      refine ⟨hfatal, _, _, List.map_append, fun e he => ?_⟩
      obtain ⟨o, ho, rfl⟩ := List.mem_map.1 he
      exact hall o ho

/-- The books are right at the start, when they are empty. -/
theorem kept_start (p : Program) (types : Types) (settings : Settings) :
    (start p types settings).Kept where
  once := .nil
  handedIn id o ho := by
    rw [show (start p types settings).outcomes = .empty from rfl, OrderedMap.get?_empty] at ho
    cases ho
  uses id value := (regular_start p types settings).traced.results
  diagnostics := rfl

/-- Evaluation keeps the books, whether it comes to its end or aborts. -/
theorem Kept.evaluate (hs : s.analysis.Sound) (hregular : s.Regular) (h : s.Kept) :
    s.evaluate.2.Kept := by
  obtain ⟨done, rest, hcontinues⟩ := s.exists_continues_evaluate
  have hnodup := (s.perm_plan.map Prod.fst).nodup_iff.2 s.nodup_pending
  rw [hcontinues.split, List.map_append, List.map_map, List.nodup_append] at hnodup
  refine hcontinues.records.kept h hnodup.1 (fun o ho => ?_) (hregular.evaluate hs).regular
  refine mem_pending.1 (s.perm_plan.mem_iff.1 ?_)
  rw [hcontinues.split]
  exact List.mem_append_left _ (List.mem_map_of_mem ho)

/-- Sites keep their numbers when more are handed in. -/
theorem site?_of_prefix (h : s.sites <+: s'.sites) {id : SiteId} {site : Site}
    (hid : s.site? id = some site) : s'.site? id = some site := by
  obtain ⟨more, hmore⟩ := h
  rw [site?, ← hmore]
  exact (List.getElem?_append_left (List.getElem?_eq_some_iff.1 hid).1).trans hid

/-- A site that is handed in changes nothing in the books. -/
theorem Kept.submit (h : s.Kept) (site : Site) : (s.submit site).2.Kept := by
  have hsite : ∀ {id site'}, s.site? id = some site' →
      (s.submit site).2.site? id = some site' :=
    site?_of_prefix (List.prefix_append s.sites [site])
  refine ⟨h.once, fun id o ho => ?_, h.uses, ?_⟩
  · obtain ⟨site', hid⟩ := h.handedIn id o ho
    exact ⟨site', hsite hid⟩
  · refine h.diagnostics.trans (List.filterMap_congr fun e he => ?_)
    have hnodup : s.outcomes.keys.Nodup := OrderedMap.map_fst_entries s.outcomes ▸ h.once
    obtain ⟨site', hid⟩ := h.handedIn e.1 e.2 (OrderedMap.get?_of_mem_entries hnodup he)
    rw [hid, hsite hid]

/-- No step takes a site back. -/
theorem Step.prefix_sites {V : Pool → Value → Prop} (hstep : Step V s s') :
    s.sites <+: s'.sites := by
  have hevaluate : s.sites <+: s.evaluate.2.sites := by
    obtain ⟨done, rest, hcontinues⟩ := s.exists_continues_evaluate
    rw [hcontinues.records.sites]
  cases hstep with
  | intern hvalue => exact List.prefix_refl _
  | submit site => exact List.prefix_append _ _
  | evaluate => exact hevaluate
  | finish retained =>
    rw [finish_eq]
    exact hevaluate

/-- No step takes a site away, or gives it another number. -/
theorem prefix_sites_of_steps {V : Pool → Value → Prop} (hsteps : ReflTransGen (Step V) s s') :
    s.sites <+: s'.sites := by
  induction hsteps with
  | refl => exact List.prefix_refl _
  | tail _ hstep ih => exact ih.trans hstep.prefix_sites

/-- Every step keeps the books, and at most adds to the log. -/
theorem Kept.step {V : Pool → Value → Prop} (hs : s.analysis.Sound) (hregular : s.Regular)
    (h : s.Kept) (hstep : Step V s s') :
    s'.Kept ∧ s.outcomes.entries <+: s'.outcomes.entries := by
  have hevaluate : s.evaluate.2.Kept ∧
      s.outcomes.entries <+: s.evaluate.2.outcomes.entries := by
    obtain ⟨done, rest, hcontinues⟩ := s.exists_continues_evaluate
    exact ⟨h.evaluate hs hregular, _, hcontinues.records.outcomes.symm⟩
  have hafter := hregular.step hs hstep
  cases hstep with
  | intern hvalue =>
    exact ⟨⟨h.once, h.handedIn, fun _ _ => hafter.traced.results, h.diagnostics⟩,
      List.prefix_refl _⟩
  | submit site => exact ⟨h.submit site, List.prefix_refl _⟩
  | evaluate => exact hevaluate
  | finish retained =>
    rw [finish_eq]
    exact hevaluate

section Reached

variable {p : Program} {types : Types} {settings : Settings}

/-- The books of every session are kept. -/
theorem Reached.kept (hp : p.Declared) (h : Reached p types settings s) : s.Kept := by
  induction h with
  | refl => exact kept_start p types settings
  | tail hsteps hstep ih =>
    exact (ih.step (Reached.sound hp hsteps) (Reached.regular hp hsteps) hstep).1

/-- Whatever is done with a session, its log is only added to. -/
theorem Reached.prefix_entries (hp : p.Declared) (h : Reached p types settings s)
    (hsteps : ReflTransGen (Step fun _ _ => True) s s') :
    s.outcomes.entries <+: s'.outcomes.entries := by
  induction hsteps with
  | refl => exact List.prefix_refl _
  | tail hsteps hstep ih =>
    have hbefore : Reached p types settings _ := h.trans hsteps
    exact ih.trans
      ((hbefore.kept hp).step (hbefore.sound hp) (hbefore.regular hp) hstep).2

/-- An outcome is never changed. -/
theorem Reached.outcome_eq (hp : p.Declared) (h : Reached p types settings s)
    (hsteps : ReflTransGen (Step fun _ _ => True) s s') {id : SiteId} {o : Outcome}
    (ho : s.outcomes.get? id = some o) : s'.outcomes.get? id = some o := by
  have hkept := Reached.kept hp (h.trans hsteps)
  have hnodup : s'.outcomes.keys.Nodup := OrderedMap.map_fst_entries s'.outcomes ▸ hkept.once
  exact OrderedMap.get?_of_mem_entries hnodup
    ((h.prefix_entries hp hsteps).subset (OrderedMap.mem_entries_of_get? ho))

end Reached

/-- For everything that can be done with a session. The books are kept: no site was settled twice,
the edges of the sites in the uses are the constants they came to, and the diagnostics are those for
the outcomes in the order in which they came about. No outcome is ever changed. An evaluation has
the sites that wait for its plan, by height and then by number. It settles the first of them. If it
gives a report, these are all of them and the report has their number; if it ends with a breach,
this is the outcome of the last of them and of no other, the rest goes on waiting, and once a later
evaluation gives a report the rest has outcomes too. The end of a session does to the books what an
evaluation does. -/
theorem books_of_reached (declarations : List Declaration) (types : Types) (settings : Settings)
    (h : Reached (.declareAll {} declarations) types settings s) :
    s.Kept ∧
    (∀ s', ReflTransGen (Step fun _ _ => True) s s' →
      s.sites <+: s'.sites ∧ s.outcomes.entries <+: s'.outcomes.entries ∧
        ∀ id o, s.outcomes.get? id = some o → s'.outcomes.get? id = some o) ∧
    (s.plan.Perm s.pending ∧ s.plan.Pairwise s.Before) ∧
    (∃ new rest, s.Progress s.evaluate.2 s.evaluate.1 new rest ∧
      (∀ report, s.evaluate.1 = .ok report → s.evaluate.2.pending = [] ∧
        report.evaluated = s.pending.length ∧
          report.succeeded + report.failed = report.evaluated) ∧
      ∀ s' report, ReflTransGen (Step fun _ _ => True) s.evaluate.2 s' →
        s'.evaluate.1 = .ok report →
          ∀ e ∈ rest, ∃ o, s'.evaluate.2.outcomes.get? e.1 = some o) ∧
    ∀ retained, (s.finish retained).2 = s.evaluate.2 := by
  have hp := Program.declared_declareAll declarations
  refine ⟨h.kept hp, fun s' hsteps => ⟨prefix_sites_of_steps hsteps,
    h.prefix_entries hp hsteps, fun _ _ => h.outcome_eq hp hsteps⟩, ⟨s.perm_plan, s.pairwise_plan⟩, ?_,
    fun retained => by rw [finish_eq]⟩
  obtain ⟨done, rest, hcontinues⟩ := s.exists_continues_evaluate
  have hprogress := hcontinues.progress
  refine ⟨_, rest, hprogress, fun report hreport => ?_, fun s' report hsteps hreport e he => ?_⟩
  · obtain ⟨rfl, -, hcounts⟩ := hprogress.report report hreport
    have hlength := congrArg List.length hprogress.order
    simp only [List.length_map, List.length_append, List.length_nil, Nat.add_zero] at hlength
    refine ⟨List.eq_nil_iff_forall_not_mem.2 fun e he => ?_, ?_, ?_⟩
    · exact List.not_mem_nil ((hprogress.waiting e).1 he)
    · rw [hcounts, ← s.perm_plan.length_eq, hlength, List.length_map]
    · rw [hcounts]
      have hsum := List.length_eq_countP_add_countP (fun e : SiteId × Outcome => e.2.isOk)
        (l := done.map fun o => (o.1, o.2.2))
      simp only [Bool.not_eq_true, Bool.decide_eq_false] at hsum
      exact hsum.symm
  · -- a site that went on waiting was handed in, and none waits in the end
    have hafter : ReflTransGen (Step fun _ _ => True) s.evaluate.2 s'.evaluate.2 :=
      hsteps.tail (.evaluate s')
    have hsite := (mem_pending.1 ((hprogress.waiting e).2 he)).site
    obtain ⟨done', rest', hcontinues'⟩ := s'.exists_continues_evaluate
    obtain ⟨rfl, -, -⟩ := hcontinues'.progress.report report hreport
    by_contra hnone
    refine List.not_mem_nil ((hcontinues'.progress.waiting e).1 (mem_pending.2 ⟨?_, ?_⟩))
    · exact site?_of_prefix (prefix_sites_of_steps hafter) hsite
    · exact Option.eq_none_iff_forall_ne_some.2 fun o ho => hnone ⟨o, ho⟩

/-- A site of a function that is not there and sites of the first and the last of three functions,
each of which calls the next one and the last one itself, where no call may be nested. -/
def besideLadder : Session :=
  let s := start (Ladder.program 2) .empty { maxCallDepth := 1 }
  let s := (s.submit ⟨.function "g", [], [], {}⟩).2
  let s := (s.submit ⟨.function "f", [], [], {}⟩).2
  (s.submit ⟨.function "fff", [], [], {}⟩).2

/-- The first site is reported, the second one is a breach that ends the evaluation, and the third
one goes on waiting until the next evaluation. -/
theorem books_of_besideLadder :
    besideLadder.evaluate.1 = .error (.breach (.outsideCallGraph "ff" 1)) ∧
      besideLadder.evaluate.2.diagnostics.length = 1 ∧
      besideLadder.evaluate.2.pending.map Prod.fst = [⟨2⟩] ∧
      besideLadder.evaluate.2.diagnostics = besideLadder.evaluate.2.diagnoses ∧
      ∃ o, besideLadder.evaluate.2.evaluate.2.outcomes.get? ⟨2⟩ = some o := by
  have hstart : Reached (Ladder.program 2) .empty { maxCallDepth := 1 }
      (start (Ladder.program 2) .empty { maxCallDepth := 1 }) := .refl
  have hreached : Reached (Ladder.program 2) .empty { maxCallDepth := 1 } besideLadder :=
    ((hstart.tail (.submit _ _)).tail (.submit _ _)).tail (.submit _ _)
  obtain ⟨-, -, -, ⟨new, rest, hprogress, -, hnext⟩, -⟩ :=
    books_of_reached (Ladder.declarations 2) .empty { maxCallDepth := 1 } hreached
  obtain ⟨hkept, -⟩ := books_of_reached (Ladder.declarations 2) .empty { maxCallDepth := 1 }
    (hreached.tail (.evaluate besideLadder))
  have hpending : besideLadder.evaluate.2.pending = [(⟨2⟩, ⟨.function "fff", [], [], {}⟩)] := by
    with_unfolding_all rfl
  have hreport : besideLadder.evaluate.2.evaluate.1 =
      .ok { evaluated := 1, failed := 1, waves := 1 } := by
    with_unfolding_all rfl
  refine ⟨by with_unfolding_all rfl, by with_unfolding_all rfl, by rw [hpending]; rfl,
    hkept.diagnostics, ?_⟩
  refine hnext _ _ .refl hreport (⟨2⟩, ⟨.function "fff", [], [], {}⟩) ?_
  rw [← hprogress.waiting, hpending]
  exact List.mem_singleton_self _

end Session

end ConstPool
