import ConstPool.Proofs.Sites

/-!
# What a session does to its stock

Whatever is done with a session, its stock has a history: values are handed in, sites are requests
with known arguments, and settled outcomes are uses. An evaluation settles the waiting sites one by
one and ends early only with the breach of one of them.

The history of the stock is what the results about requests need, and the outcomes of the sites are
what the caller gets to see. Both are derived from the same case analysis: a site that waits is
evaluated and settled, or its breach ends the work.

* `Session.Step`, `Session.Reached`: what can be done with a session.
* `Session.Reached.stock`: the stock of a session has a history.
* `Session.evaluate_cases`: how an evaluation ends.
-/

namespace ConstPool

open Relation

/-- A site is a request or leaves the stock as it is. -/
theorem Analysis.steps_resolveSite {a : Analysis} (hp : a.program.Declared) (site : Site)
    (s : Stock) : Stock.Proceeds a s ((a.resolveSite site).outcome s).2 := by
  rcases a.resolveSite_cases hp site s with ⟨f, hrun, -⟩ | ⟨f, types, args, -, hdecl, hknown, hrun⟩
  · rw [hrun]
  · rw [hrun]
    exact .single (.request hdecl hknown)

namespace Session

/-- A session in which the program is the same and the stock has gone on by issuing requests and
recording uses. -/
structure Later (s s' : Session) : Prop where
  analysis : s'.analysis = s.analysis
  steps : Stock.Proceeds s.analysis s.stock s'.stock

namespace Later

/-- A session is later than itself. -/
theorem refl (s : Session) : s.Later s := ⟨rfl, .refl⟩

/-- A later session of a later one is later. -/
theorem trans {s s' s'' : Session} (h : s.Later s') (h' : s'.Later s'') : s.Later s'' where
  analysis := h'.analysis.trans h.analysis
  steps := by
    have hsteps := h'.steps
    rw [h.analysis] at hsteps
    exact h.steps.trans hsteps

end Later

/-! ### Waves -/

/-- The outcomes of a wave are those of its sites, each from a stock that has gone on. -/
theorem runWave_spec {a : Analysis} (hp : a.program.Declared) (wave : List (SiteId × Site))
    (stock : Stock) : Stock.Proceeds a stock (runWave a wave stock).2 ∧
      ∀ e ∈ (runWave a wave stock).1, (e.1, e.2.1) ∈ wave ∧
        ∃ stock', Stock.Proceeds a stock stock' ∧
          e.2.2 = ((a.resolveSite e.2.1).outcome stock').1 := by
  induction wave generalizing stock with
  | nil => exact ⟨.refl, fun _ he => nomatch he⟩
  | cons x rest ih =>
    obtain ⟨id, site⟩ := x
    have hstep := a.steps_resolveSite hp site stock
    obtain ⟨hrest, houtcomes⟩ := ih ((a.resolveSite site).outcome stock).2
    refine ⟨hstep.trans hrest, List.forall_mem_cons.2 ⟨?_, fun e he => ?_⟩⟩
    · exact ⟨List.mem_cons_self .., stock, .refl, rfl⟩
    · obtain ⟨hmem, stock', hsteps, hrun⟩ := houtcomes e he
      exact ⟨List.mem_cons_of_mem _ hmem, stock', hstep.trans hsteps, hrun⟩

/-- Recording an outcome changes the uses at most. -/
theorem later_settle (s : Session) (id : SiteId) (site : Site) (outcome : Outcome) :
    s.Later (s.settle id site outcome) := by
  cases outcome with
  | ok value => exact ⟨rfl, .single (.use _ _ _)⟩
  | error f =>
    rw [settle]
    dsimp only
    split
    · exact ⟨rfl, .refl⟩
    · exact ⟨rfl, .refl⟩

/-- Outcomes are settled to the end, or up to the first that ends the work. -/
theorem settleAll_spec (outcomes : List (SiteId × Site × Outcome)) (report : EvaluationReport)
    (s : Session) : s.Later (settleAll outcomes report s).2 ∧
      ((∃ r, (settleAll outcomes report s).1 = .ok r) ∨
        ∃ e ∈ outcomes, ∃ f, e.2.2 = .error f ∧ ¬ f.Benign ∧
          (settleAll outcomes report s).1 = .error f) := by
  induction outcomes generalizing report s with
  | nil => exact ⟨.refl s, .inl ⟨report, rfl⟩⟩
  | cons x rest ih =>
    obtain ⟨id, site, outcome⟩ := x
    have hsettle := s.later_settle id site outcome
    have hnext : ∀ report', s.Later (settleAll rest report' (s.settle id site outcome)).2 ∧
        ((∃ r, (settleAll rest report' (s.settle id site outcome)).1 = .ok r) ∨
          ∃ e ∈ (id, site, outcome) :: rest, ∃ f, e.2.2 = .error f ∧ ¬ f.Benign ∧
            (settleAll rest report' (s.settle id site outcome)).1 = .error f) := by
      intro report'
      obtain ⟨hlater, hend⟩ := ih report' (s.settle id site outcome)
      refine ⟨hsettle.trans hlater, hend.imp_right ?_⟩
      rintro ⟨e, he, hfault⟩
      exact ⟨e, List.mem_cons_of_mem _ he, hfault⟩
    cases outcome with
    | ok value => exact hnext _
    | error f =>
      rw [settleAll]
      split
      · next hfatal =>
        refine ⟨hsettle, .inr ⟨_, List.mem_cons_self .., f, rfl, fun hbenign => ?_, rfl⟩⟩
        rw [Fault.Benign, hfatal] at hbenign
        cases hbenign
      · exact hnext _

/-- Waves are evaluated to the end, or up to the first breach. -/
theorem evaluateWaves_spec (waves : List (List (SiteId × Site))) (report : EvaluationReport)
    (s : Session) (hp : s.analysis.program.Declared) :
    s.Later (evaluateWaves waves report s).2 ∧
      ((∃ r, (evaluateWaves waves report s).1 = .ok r) ∨
        ∃ wave ∈ waves, ∃ e ∈ wave, ∃ stock f,
          Stock.Proceeds s.analysis s.stock stock ∧
            ((s.analysis.resolveSite e.2).outcome stock).1 = .error f ∧ ¬ f.Benign ∧
              (evaluateWaves waves report s).1 = .error f) := by
  induction waves generalizing report s with
  | nil => exact ⟨.refl s, .inl ⟨report, rfl⟩⟩
  | cons wave rest ih =>
    obtain ⟨hsteps, hwave⟩ := runWave_spec hp wave s.stock
    have hrun : s.Later { s with stock := (runWave s.analysis wave s.stock).2 } := ⟨rfl, hsteps⟩
    obtain ⟨hsettle, hend⟩ := settleAll_spec (runWave s.analysis wave s.stock).1 report
      { s with stock := (runWave s.analysis wave s.stock).2 }
    have hlater := hrun.trans hsettle
    rw [evaluateWaves]
    dsimp only
    generalize settleAll (runWave s.analysis wave s.stock).1 report
      { s with stock := (runWave s.analysis wave s.stock).2 } = x at hend hlater ⊢
    obtain ⟨result, s'⟩ := x
    rcases hend with ⟨r, rfl⟩ | ⟨e, he, f, hf, hfatal, rfl⟩
    · obtain ⟨hlater', hend'⟩ := ih r s' (hlater.analysis ▸ hp)
      refine ⟨hlater.trans hlater', hend'.imp_right ?_⟩
      rintro ⟨wave', hmem, e, he, stock, f, hstock, hf⟩
      rw [hlater.analysis] at hstock hf
      exact ⟨wave', List.mem_cons_of_mem _ hmem, e, he, stock, f, hlater.steps.trans hstock, hf⟩
    · obtain ⟨hmem, stock, hstock, hrun'⟩ := hwave e he
      refine ⟨hlater, .inr ⟨wave, List.mem_cons_self .., _, hmem, stock, f, hstock, ?_, hfatal,
        rfl⟩⟩
      exact hrun'.symm.trans hf

/-- A site is put into one wave. -/
theorem perm_addToWave (height : Nat) (e : SiteId × Site)
    (waves : List (Nat × List (SiteId × Site))) :
    (((addToWave height e waves).map Prod.snd).flatten).Perm
      (e :: (waves.map Prod.snd).flatten) := by
  induction waves with
  | nil => exact .refl _
  | cons first rest ih =>
    obtain ⟨h, wave⟩ := first
    rw [addToWave]
    split
    · exact .refl _
    · split
      · simp only [List.map_cons, List.flatten_cons, List.append_assoc]
        exact List.perm_middle
      · simp only [List.map_cons, List.flatten_cons]
        exact (ih.append_left wave).trans List.perm_middle

/-- The waves are made of the waiting sites, each once. -/
theorem perm_waves (s : Session) : s.waves.flatten.Perm s.pending := by
  have hfold : ∀ (sites : List (SiteId × Site)) (waves : List (Nat × List (SiteId × Site))),
      (((sites.foldl (fun acc e => addToWave (s.heightOf e.2) e acc) waves).map
        Prod.snd).flatten).Perm (sites ++ (waves.map Prod.snd).flatten) := by
    intro sites
    induction sites with
    | nil => exact fun _ => .refl _
    | cons e rest ih =>
      intro waves
      exact ((ih _).trans ((perm_addToWave _ e waves).append_left rest)).trans List.perm_middle
  exact (hfold s.pending []).trans (.of_eq (List.append_nil _))

/-- An evaluation comes to its end, or it ends with the breach of a waiting site. -/
theorem evaluate_cases (s : Session) (hp : s.analysis.program.Declared) :
    s.Later s.evaluate.2 ∧
      ((∃ r, s.evaluate.1 = .ok r) ∨
        ∃ e ∈ s.pending, ∃ stock f, Stock.Proceeds s.analysis s.stock stock ∧
          ((s.analysis.resolveSite e.2).outcome stock).1 = .error f ∧ ¬ f.Benign ∧
            s.evaluate.1 = .error f) := by
  obtain ⟨hlater, hend⟩ := evaluateWaves_spec s.waves { waves := s.waves.length } s hp
  refine ⟨hlater, hend.imp_right ?_⟩
  rintro ⟨wave, hwave, e, he, hfault⟩
  exact ⟨e, s.perm_waves.mem_iff.1 (List.mem_flatten_of_mem hwave he), hfault⟩

/-! ### Everything that can be done -/

/-- What can be done with a session. The values that are handed in satisfy `V`. -/
inductive Step (V : Pool → Value → Prop) : Session → Session → Prop
  | intern {s : Session} {value : Value} : V s.stock.pool value →
    Step V s (s.perform (Work.intern value)).2
  | submit (s : Session) (site : Site) : Step V s (s.submit site).2
  | evaluate (s : Session) : Step V s s.evaluate.2
  | finish (s : Session) (retained : List SiteId) : Step V s (s.finish retained).2

/-- A session that has come about in this way, with any values. -/
abbrev Reached (p : Program) (types : Types) (settings : Settings) (s : Session) : Prop :=
  ReflTransGen (Step fun _ _ => True) (start p types settings) s

variable {V : Pool → Value → Prop} {s s' : Session}

/-- Every step lets the stock go on. -/
theorem Step.stock (hp : s.analysis.program.Declared) (h : Step V s s') :
    s'.analysis = s.analysis ∧
      ReflTransGen (Stock.Step s.analysis V fun pool r => r.InPlace pool) s.stock s'.stock := by
  have hlater : ∀ {s' : Session}, s.Later s' → s'.analysis = s.analysis ∧
      ReflTransGen (Stock.Step s.analysis V fun pool r => r.InPlace pool) s.stock s'.stock :=
    fun h => ⟨h.analysis, Stock.steps_mono (fun _ _ h => h.elim) (fun _ _ h => h) h.steps⟩
  cases h with
  | intern hvalue => exact ⟨rfl, .single (.intern hvalue)⟩
  | submit site => exact ⟨rfl, .refl⟩
  | evaluate => exact hlater (s.evaluate_cases hp).1
  | finish retained =>
    have hevaluate := (s.evaluate_cases hp).1
    rw [Session.finish]
    generalize s.evaluate = x at hevaluate ⊢
    obtain ⟨result, s'⟩ := x
    cases s.pending.isEmpty
    · cases result with
      | ok report => exact hlater hevaluate
      | error f => exact hlater hevaluate
    · exact hlater (.refl s)

/-- The stock of a session has a history. -/
theorem stock_of_steps (hp : s.analysis.program.Declared) (h : ReflTransGen (Step V) s s') :
    s'.analysis = s.analysis ∧
      ReflTransGen (Stock.Step s.analysis V fun pool r => r.InPlace pool) s.stock s'.stock := by
  induction h with
  | refl => exact ⟨rfl, .refl⟩
  | tail _ hstep ih =>
    obtain ⟨hanalysis, hsteps⟩ := ih
    have hnext := hstep.stock (by rw [hanalysis]; exact hp)
    rw [hanalysis] at hnext
    exact ⟨hnext.1, hsteps.trans hnext.2⟩

/-- The stock of a session that has come about with any values. -/
theorem Reached.stock {p : Program} {types : Types} {settings : Settings} (hp : p.Declared)
    (h : Reached p types settings s) :
    s.analysis = .build p types settings ∧ Stock.Reached (.build p types settings) s.stock := by
  obtain ⟨hanalysis, hsteps⟩ := stock_of_steps (s := start p types settings) hp h
  exact ⟨hanalysis, Stock.steps_mono (fun _ _ h => h) (fun _ _ h => h.known) hsteps⟩

end Session

end ConstPool
