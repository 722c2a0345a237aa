import ConstPool.Proofs.Parallel.Answers
import ConstPool.Proofs.Parallel.InTurn
import ConstPool.Proofs.Parallel.Schedule
import ConstPool.Proofs.Record.Posed

/-!
# Waves

The sites of a wave are threads that share a stock. Whatever the order in which they take their
actions, each of them comes to what its inquiry comes to on trees, and what the stock has become
adds up to the inquiries that they pose. The order in which they come about is not to be seen in
either.

Sites that are taken one after another are no other matter. A site alone is a single thread, which
takes one action after another and has nobody to wait for. So what is said of it follows from what
is said of threads, and the sites of a wave are put together one by one.

* `Analysis.Reading`: what sites ask for over a pool, and what is answered.
* `Stock.Account.tally`: what has been done adds up.
* `Stock.Posed`: a stock has come about by the inquiries of sites.
* `Stock.Ran`: sites have been evaluated.
* `Analysis.Reading.ran_of_steps`, `Analysis.Reading.exists_ran`: sites beside each other.
* `Analysis.Reading.ran_resolveSite`: a site alone.
* `Analysis.Reading.wave`, `Analysis.Reading.exists_wave`: a wave in either way.
-/

namespace ConstPool

open Draft Relation

/-- A program without recursion and the answers to its inquiries, and what sites ask for over a
pool. -/
structure Analysis.Reading (a : Analysis) (p : Pool) (reply : Inquiry → Except Fault (Tree Scalar))
    (pose : Site → Except Fault Inquiry) : Prop extends a.Straight reply where
  poses : ∀ site : Site, site.Stored p → a.Poses p site (pose site)

variable {a : Analysis} {reply : Inquiry → Except Fault (Tree Scalar)}
  {pose : Site → Except Fault Inquiry} {p : Pool} {s s' s'' : Stock}

/-- A site beside others: it comes to the answer of its inquiry. -/
theorem Analysis.Reading.meets_siteTask (h : a.Reading p reply pose) {site : Site}
    (hstored : site.Stored p) (hkeeps : p.Keeps s.pool) :
    (a.siteTask site).run.Meets a reply
      (Deed.Answers a reply [] (.posed a [pose site]) (pose site >>= reply)) s [] := by
  have hposes := h.poses site hstored
  rw [siteTask]
  generalize pose site = x at hposes ⊢
  cases hposes with
  | @refused f hbenign hrun =>
    refine Job.meets_bind (Q := fun _ deeds y => deeds = [] ∧ y = .error f)
      (Job.meets_read fun s' hlater _ => ?_) ?_ ?_
    · rw [Work.outcome, hrun s' (hkeeps.trans hlater.grows.keeps)]
      exact ⟨rfl, rfl, rfl⟩
    · rintro s' _ r - ⟨-, heq⟩
      cases heq
    · rintro s' _ f' - ⟨rfl, heq⟩
      cases heq
      exact ⟨.start [] s', .error hbenign⟩
  | @asked r t hdeclared hmeans hrun =>
    refine Job.meets_bind (Q := fun _ deeds y => deeds = [] ∧ y = .ok r)
      (Job.meets_read fun s' hlater _ => ?_) ?_ ?_
    · rw [Work.outcome, hrun s' (hkeeps.trans hlater.grows.keeps)]
      exact ⟨rfl, rfl, rfl⟩
    · rintro s' _ r' hlater ⟨rfl, heq⟩
      cases heq
      rw [Log.posed_ok]
      have hmeans' : Request.Means s'.pool r t := hmeans.mono (hkeeps.trans hlater.grows.keeps)
      exact h.meets_task .none (Nat.add_zero _) (List.forall_mem_nil _) .of_accepts hdeclared hmeans'
    · rintro s' _ f - ⟨-, heq⟩
      cases heq

/-! ### What has been done adds up -/

namespace Stock

/-- Where nothing is being computed any more, what has been done adds up to what a record asks for
that tells it. -/
theorem Account.tally {deeds : List Deed} {log : Log} (h : s.Account a reply deeds [] s')
    (htold : Deed.Told a reply [] s' deeds log) (hpooled : ∀ u, ¬ log.Pooled u) :
    Tally a reply s log.asked s' (Deed.computed deeds) := by
  obtain ⟨_, rfl, htells⟩ := htold.tells
  exact
    { has := fun u => by
        constructor
        · intro hu
          rcases (h.stored.has u).1 hu with hu | ⟨id, value, hu⟩
          · exact .inl hu
          · exact .inr ((htells.pooled id value u hu).resolve_left (hpooled u))
        · rintro (hu | ⟨t, ht, hadds⟩)
          · exact h.later.has hu
          · exact h.cached.adds t ht u hadds
      done := h.cached.done
      fresh := h.cached.fresh
      once := h.cached.once
      answered := htold.asked
      closed := h.cached.closed
      reached := htells.reached
      misses := h.cached.misses
      lookups := by
        have hlookups := htells.lookups
        have hhits := h.cached.hits
        have hmisses := h.cached.misses
        omega
      size := h.cached.size }

/-- A stock has come about from another one by the inquiries of sites: they add up, the stock is in
order, and nothing is being computed. -/
structure Posed (a : Analysis) (reply : Inquiry → Except Fault (Tree Scalar))
    (pose : Site → Except Fault Inquiry) (s s' : Stock) (sites : List Site) : Prop where
  tally : ∃ new, Tally a reply s (Log.posed a (sites.map pose)).asked s' new
  good : s'.Good a reply
  idle : ∀ t, ¬ s'.Running a t
  later : s.Later a s'

namespace Posed

variable {sites sites' : List Site}

/-- Nothing has been done. -/
theorem refl (hgood : s.Good a reply) (hidle : ∀ t, ¬ s.Running a t) :
    Posed a reply pose s s [] := ⟨⟨[], .refl s⟩, hgood, hidle, .refl s⟩

/-- Sites after other sites. -/
theorem trans (h : Posed a reply pose s s' sites) (h' : Posed a reply pose s' s'' sites') :
    Posed a reply pose s s'' (sites ++ sites') where
  tally := by
    obtain ⟨new, hnew⟩ := h.tally
    obtain ⟨new', hnew'⟩ := h'.tally
    rw [List.map_append, Log.posed_append, Log.asked_append]
    exact ⟨new ++ new', hnew.trans hnew'⟩
  good := h'.good
  idle := h'.idle
  later := h.later.trans h'.later

/-- Recording uses makes no difference. -/
theorem uses (h : Posed a reply pose s s' sites) (hpool : s''.pool = s'.pool)
    (hmemo : s''.memo = s'.memo) : Posed a reply pose s s'' sites := by
  obtain ⟨⟨new, hnew⟩, hgood, hidle, hlater⟩ := h
  have htally := hnew.uses hpool hmemo
  obtain ⟨pool, uses, memo⟩ := s'
  obtain ⟨pool', uses', memo'⟩ := s''
  cases hpool
  cases hmemo
  exact
    { tally := ⟨new, htally⟩
      good := ⟨hgood.sound, hgood.keyed, hgood.truthful⟩
      idle := hidle
      later := ⟨hlater.grows, hlater.done⟩ }

end Posed

/-- Sites have been evaluated: each of them has come to what its inquiry comes to on trees, and the
uses that were recorded are those of the constants. -/
structure Ran (a : Analysis) (reply : Inquiry → Except Fault (Tree Scalar))
    (pose : Site → Except Fault Inquiry) (sites : List Site) (s : Stock) (outcomes : List Outcome)
    (s' : Stock) : Prop where
  posed : Posed a reply pose s s' sites
  agree : List.Forall₂ (fun site o => Agree Fault.Benign s'.pool.Denotes o (pose site >>= reply))
    sites outcomes
  records : ∀ others, s.Records others → s'.Records others

namespace Ran

variable {sites sites' : List Site} {outcomes outcomes' : List Outcome}

/-- Nothing has been done. -/
theorem refl (hgood : s.Good a reply) (hidle : ∀ t, ¬ s.Running a t) :
    Ran a reply pose [] s [] s := ⟨.refl hgood hidle, .nil, fun _ h => h⟩

/-- Sites after other sites. -/
theorem trans (h : Ran a reply pose sites s outcomes s')
    (h' : Ran a reply pose sites' s' outcomes' s'') :
    Ran a reply pose (sites ++ sites') s (outcomes ++ outcomes') s'' where
  posed := h.posed.trans h'.posed
  agree := by
    refine List.rel_append (h.agree.imp fun site o ho => ?_) h'.agree
    exact ho.imp_value fun _ _ hid => hid.mono h'.posed.later.grows.keeps
  records others hrecords := h'.records others (h.records others hrecords)

end Ran

end Stock

/-! ### Sites beside each other -/

/-- What two threads have done is told by their records. -/
theorem Deed.Told.beside {deeds deeds' : List Deed} {log log' : Log}
    (h : Deed.Told a reply [] s deeds log) (h' : Deed.Told a reply [] s deeds' log') :
    Deed.Told a reply [] s (deeds ++ deeds') (log ++ log') where
  tells := by
    obtain ⟨_, rfl, htells⟩ := h.tells
    obtain ⟨_, rfl, htells'⟩ := h'.tells
    exact ⟨_, rfl, htells.append htells'⟩
  pooled u hu := (Log.pooled_append.1 hu).elim (h.pooled u) (h'.pooled u)
  asked t ht := by
    rw [Log.asked_append] at ht
    exact (List.mem_append.1 ht).elim (h.asked t) (h'.asked t)

namespace Analysis

/-- What is wanted of the thread of a site. -/
def wantedOf (a : Analysis) (reply : Inquiry → Except Fault (Tree Scalar))
    (pose : Site → Except Fault Inquiry) (site : Site) : Stock → List Deed → Outcome → Prop :=
  Deed.Answers a reply [] (.posed a [pose site]) (pose site >>= reply)

/-- The thread of a site that has not begun yet. -/
def threadOf (a : Analysis) (reply : Inquiry → Except Fault (Tree Scalar))
    (pose : Site → Except Fault Inquiry) (s : Stock) (site : Site) : Thread Outcome where
  task := (a.siteTask site).run
  known := s
  deeds := []
  wanted := a.wantedOf reply pose site

variable {sites : List Site} {outcomes : List Outcome}

/-- The threads of sites are on their way. -/
theorem Reading.scheduled (h : a.Reading p reply pose) (hgood : s.Good a reply)
    (hidle : ∀ t, ¬ s.Running a t) (hkeeps : p.Keeps s.pool)
    (hstored : ∀ site ∈ sites, site.Stored p) :
    Scheduled a reply s (sites.map (a.threadOf reply pose s)) s where
  onWay th hth := by
    obtain ⟨site, hsite, rfl⟩ := List.mem_map.1 hth
    exact ⟨.refl s, h.meets_siteTask (hstored site hsite) hkeeps⟩
  account := by
    have hnone : ∀ {β : Type} (f : Thread Outcome → List β),
        (∀ site, f (a.threadOf reply pose s site) = []) →
          (sites.map (a.threadOf reply pose s)).flatMap f = [] := by
      intro β f hf
      rw [List.flatMap_map, List.flatMap_eq_nil_iff]
      exact fun site _ => hf site
    rw [Thread.allDeeds, Thread.allRunning, hnone Thread.deeds fun _ => rfl, hnone _ fun _ => rfl]
    exact .start hgood hidle

/-- What the threads of sites have come to: their deeds are told by the record of the sites, and
they compute nothing any more. -/
theorem told_of_ends {threads : List (Thread Outcome)}
    (hwanted : threads.map Thread.wanted = sites.map (a.wantedOf reply pose))
    (hends : List.Forall₂ (fun th o => th.known.Later a s ∧ th.wanted th.known th.deeds o) threads
      outcomes) :
    Deed.Told a reply [] s (Thread.allDeeds threads) (.posed a (sites.map pose)) ∧
      Thread.allRunning threads = [] ∧
        List.Forall₂ (fun site o => Agree Fault.Benign s.pool.Denotes o (pose site >>= reply)) sites
          outcomes := by
  induction hends generalizing sites with
  | nil =>
    cases List.map_eq_nil_iff.1 hwanted.symm
    exact ⟨.start [] s, rfl, .nil⟩
  | @cons th o threads outcomes hth _ ih =>
    obtain ⟨site, sites, rfl, hsite, hrest⟩ := List.map_eq_cons_iff.1 hwanted.symm
    obtain ⟨htold, hrunning, hagree⟩ := ih hrest.symm
    obtain ⟨hlater, hanswers⟩ := hth
    rw [← hsite] at hanswers
    have hfirst := hanswers.told.later hlater
    refine ⟨?_, ?_, .cons ?_ hagree⟩
    · rw [List.map_cons, Log.posed_cons]
      exact hfirst.beside htold
    · rw [Thread.allRunning, List.flatMap_cons, ← Thread.allRunning, hrunning, hfirst.running_eq]
      rfl
    · exact hanswers.agree.imp_value fun _ _ hid => hid.mono hlater.grows.keeps

/-- Sites beside each other, in any order of their actions. -/
theorem Reading.ran_of_steps (h : a.Reading p reply pose) (hgood : s.Good a reply)
    (hidle : ∀ t, ¬ s.Running a t) (hkeeps : p.Keeps s.pool)
    (hstored : ∀ site ∈ sites, site.Stored p)
    (hsteps : ReflTransGen Task.Step (sites.map fun site => (a.siteTask site).run, s)
      (outcomes.map .done, s')) : s.Ran a reply pose sites outcomes s' := by
  have htasks : (sites.map (a.threadOf reply pose s)).map Thread.task =
      sites.map fun site => (a.siteTask site).run := List.map_map
  obtain ⟨threads, htasks', hwanted, hscheduled⟩ :=
    (h.scheduled hgood hidle hkeeps hstored).steps htasks.symm hsteps
  rw [List.map_map] at hwanted
  obtain ⟨htold, hrunning, hagree⟩ := told_of_ends hwanted (hscheduled.ends htasks')
  have haccount := hscheduled.account
  rw [hrunning] at haccount
  exact
    { posed :=
        { tally := ⟨_, haccount.tally htold (Log.not_pooled_posed _)⟩
          good := haccount.good
          idle := fun t ht => List.not_mem_nil ((haccount.cached.busy t).1 ht)
          later := haccount.later }
      agree := hagree
      records := fun others hrecords => by
        obtain ⟨_, heq, htells⟩ := htold.tells
        rw [heq, List.nil_append] at haccount
        exact haccount.stored.records haccount.later.grows.keeps htells.linked hrecords }

/-- Sites beside each other come to an end. -/
theorem Reading.exists_ran (h : a.Reading p reply pose) (hgood : s.Good a reply)
    (hidle : ∀ t, ¬ s.Running a t) (hkeeps : p.Keeps s.pool)
    (hstored : ∀ site ∈ sites, site.Stored p) :
    ∃ (outcomes : List Outcome) (s' : Stock), ReflTransGen Task.Step
      (sites.map fun site => (a.siteTask site).run, s) (outcomes.map .done, s') := by
  have hends := (h.scheduled hgood hidle hkeeps hstored).exists_ends h.sound ?_
  · rwa [List.map_map] at hends
  · rintro wanted hwanted known deeds o hanswers
    rw [List.map_map] at hwanted
    obtain ⟨site, -, rfl⟩ := List.mem_map.1 hwanted
    exact Deed.Told.running_eq (Deed.Answers.told hanswers)

/-! ### Sites one after another -/

/-- A site alone: there is one way in which its thread can go on. -/
theorem Reading.ran_resolveSite (h : a.Reading p reply pose) (hgood : s.Good a reply)
    (hidle : ∀ t, ¬ s.Running a t) (hkeeps : p.Keeps s.pool) {site : Site} (hstored : site.Stored p) :
    s.Ran a reply pose [site] [((a.resolveSite site).outcome s).1]
      ((a.resolveSite site).outcome s).2 := by
  have hsites : ∀ site' ∈ [site], site'.Stored p := by
    intro site' hin
    rwa [List.mem_singleton.1 hin]
  obtain ⟨outcomes, s', hsteps⟩ := h.exists_ran hgood hidle hkeeps hsites
  have hran := h.ran_of_steps hgood hidle hkeeps hsites hsteps
  have hagree := hran.agree
  cases hagree with
  | @cons _ o _ _ _ hnil =>
    cases hnil
    have hrun : (a.siteTask site).run.run? s = some (o, s') := Task.run?_of_steps hsteps rfl rfl
    rw [a.alone_siteTask site s (o, s') hrun]
    exact hran

variable {wave : List (SiteId × Site)}

/-- Sites one after another. -/
theorem Reading.ran_runWave (h : a.Reading p reply pose) (hgood : s.Good a reply)
    (hidle : ∀ t, ¬ s.Running a t) (hkeeps : p.Keeps s.pool)
    (hstored : ∀ e ∈ wave, e.2.Stored p) :
    s.Ran a reply pose (wave.map Prod.snd) ((Session.runWave a wave s).1.map fun o => o.2.2)
      (Session.runWave a wave s).2 := by
  induction wave generalizing s with
  | nil => exact .refl hgood hidle
  | cons e rest ih =>
    obtain ⟨id, site⟩ := e
    rw [List.forall_mem_cons] at hstored
    have hfirst := h.ran_resolveSite hgood hidle hkeeps hstored.1
    have hrest := ih hfirst.posed.good hfirst.posed.idle
      (hkeeps.trans hfirst.posed.later.grows.keeps) hstored.2
    exact hfirst.trans hrest

/-! ### Waves in either way -/

/-- Whatever comes of a wave, its outcomes are those of its sites. -/
theorem Reading.ran_of_runsWave (h : a.Reading p reply pose) (hgood : s.Good a reply)
    (hidle : ∀ t, ¬ s.Running a t) (hkeeps : p.Keeps s.pool)
    (hstored : ∀ e ∈ wave, e.2.Stored p) {parallel : Bool}
    {outcomes : List (SiteId × Site × Outcome)}
    (hruns : Session.RunsWave a parallel wave s outcomes s') :
    outcomes.map (fun o => (o.1, o.2.1)) = wave ∧
      s.Ran a reply pose (wave.map Prod.snd) (outcomes.map fun o => o.2.2) s' := by
  cases hruns with
  | inTurn =>
    exact ⟨Session.map_runWave a wave s, h.ran_runWave hgood hidle hkeeps hstored⟩
  | @beside outcomes _ _ hsteps =>
    have hsites : ∀ site ∈ wave.map Prod.snd, site.Stored p := List.forall_mem_map.2 hstored
    have hmap : wave.map (fun e => (a.siteTask e.2).run) =
        (wave.map Prod.snd).map fun site => (a.siteTask site).run := List.map_map.symm
    rw [hmap] at hsteps
    have hran := h.ran_of_steps hgood hidle hkeeps hsites hsteps
    have hlength : wave.length = outcomes.length := by
      have hlength := hran.agree.length_eq
      rwa [List.length_map] at hlength
    rw [List.map_map, List.map_map]
    refine ⟨List.map_fst_zip (Nat.le_of_eq hlength), ?_⟩
    have hvalues : (wave.zip outcomes).map Prod.snd = outcomes :=
      List.map_snd_zip (Nat.le_of_eq hlength.symm)
    show s.Ran a reply pose _ ((wave.zip outcomes).map Prod.snd) s'
    rw [hvalues]
    exact hran

/-- Something comes of every wave. -/
theorem Reading.exists_runsWave (h : a.Reading p reply pose) (hgood : s.Good a reply)
    (hidle : ∀ t, ¬ s.Running a t) (hkeeps : p.Keeps s.pool)
    (hstored : ∀ e ∈ wave, e.2.Stored p) (parallel : Bool) :
    ∃ outcomes s', Session.RunsWave a parallel wave s outcomes s' := by
  rcases hbesides : Session.besides parallel wave with _ | _
  · exact ⟨_, _, .inTurn hbesides⟩
  · have hsites : ∀ site ∈ wave.map Prod.snd, site.Stored p := List.forall_mem_map.2 hstored
    obtain ⟨outcomes, s', hsteps⟩ := h.exists_ran hgood hidle hkeeps hsites
    rw [List.map_map] at hsteps
    exact ⟨_, s', .beside hbesides hsteps⟩

end Analysis

end ConstPool
