import ConstPool.Parallel.Strand
import ConstPool.Session
import Mathlib.Logic.Relation

/-!
# Waves of sites beside each other

The sites of a wave do not depend on each other, and where the settings allow it they are evaluated
beside each other. Each of them is a task, and in every step one of the tasks takes its next action.
Which one is left open. So there is no one result of a wave, nor of an evaluation: identities are
given out in the order in which constants are pooled, and who finds a result in the cache and who
computes it depends on who came first. What is defined here are all the results that there may be.

The outcomes of a wave stand in the order of its sites, whatever the order in which they came about,
and only when all of them are there are they settled, one by one. A wave of one site, and every wave
where the settings do not allow it otherwise, is evaluated one site after another.

How many threads there are is not said. Where there are fewer than sites, a site is begun when
another one has ended. This is one of the orders in which the tasks can take their actions, so that
what is true of all orders is true for every number of threads.

* `Task.Step`: one of several tasks takes an action.
* `Session.RunsWave`: what may come of a wave.
* `Session.EvaluatesWaves`, `Session.EvaluatesIn`: what may come of an evaluation.
* `Session.Evaluates`: what may come of it with the settings of the session.
* `Session.evaluates_iff`: where sites are evaluated one after another, there is one result.
-/

namespace ConstPool

open Relation

/-- One of several tasks takes its next action, if it does not have to wait. -/
inductive Task.Step {α : Type} : List (Task α) × Stock → List (Task α) × Stock → Prop
  | act {before rest : List (Task α)} {after : Stock → Option Stock} {next : Stock → Task α}
    {s s' : Stock} : after s = some s' →
      Step (before ++ .act after next :: rest, s) (before ++ next s :: rest, s')

namespace Session

/-- Whether the sites of a wave are evaluated beside each other. -/
def besides (parallel : Bool) (wave : List (SiteId × Site)) : Bool :=
  parallel && decide (2 ≤ wave.length)

/-- What may come of a wave: its outcomes in the order of the sites, and the stock. -/
inductive RunsWave (a : Analysis) (parallel : Bool) (wave : List (SiteId × Site)) (s : Stock) :
    List (SiteId × Site × Outcome) → Stock → Prop
  | inTurn : besides parallel wave = false →
    RunsWave a parallel wave s (runWave a wave s).1 (runWave a wave s).2
  | beside {outcomes : List Outcome} {s' : Stock} : besides parallel wave = true →
    ReflTransGen Task.Step (wave.map fun e => (a.siteTask e.2).run, s) (outcomes.map .done, s') →
      RunsWave a parallel wave s ((wave.zip outcomes).map fun e => (e.1.1, e.1.2, e.2)) s'

/-- What may come of waves one after another, up to the first breach. -/
inductive EvaluatesWaves (parallel : Bool) : List (List (SiteId × Site)) → EvaluationReport →
    Session → Except Fault EvaluationReport → Session → Prop
  | nil {report : EvaluationReport} {s : Session} :
    EvaluatesWaves parallel [] report s (.ok report) s
  | next {wave : List (SiteId × Site)} {rest : List (List (SiteId × Site))}
    {report report' : EvaluationReport} {s s' s'' : Session}
    {outcomes : List (SiteId × Site × Outcome)} {stock : Stock}
    {result : Except Fault EvaluationReport} :
    RunsWave s.analysis parallel wave s.stock outcomes stock →
      settleAll outcomes report { s with stock } = (.ok report', s') →
        EvaluatesWaves parallel rest report' s' result s'' →
          EvaluatesWaves parallel (wave :: rest) report s result s''
  | breach {wave : List (SiteId × Site)} {rest : List (List (SiteId × Site))}
    {report : EvaluationReport} {s s' : Session} {outcomes : List (SiteId × Site × Outcome)}
    {stock : Stock} {f : Fault} :
    RunsWave s.analysis parallel wave s.stock outcomes stock →
      settleAll outcomes report { s with stock } = (.error f, s') →
        EvaluatesWaves parallel (wave :: rest) report s (.error f) s'

/-- What may come of evaluating all sites that wait, the sites of a wave beside each other or not.
-/
def EvaluatesIn (parallel : Bool) (s : Session) (result : Except Fault EvaluationReport)
    (s' : Session) : Prop :=
  EvaluatesWaves parallel s.waves { waves := s.waves.length } s result s'

/-- What may come of evaluating all sites that wait, as the settings of the session have it. -/
def Evaluates (s : Session) (result : Except Fault EvaluationReport) (s' : Session) : Prop :=
  EvaluatesIn s.analysis.settings.parallel s result s'

/-! ### One site after another -/

variable {s s' : Session} {result : Except Fault EvaluationReport}

/-- Without parallelism there is one run of a wave, which takes the sites in their order. -/
theorem runsWave_false_iff {a : Analysis} {wave : List (SiteId × Site)} {s s' : Stock}
    {outcomes : List (SiteId × Site × Outcome)} :
    RunsWave a false wave s outcomes s' ↔ runWave a wave s = (outcomes, s') := by
  constructor
  · intro h
    cases h with
    | inTurn => rfl
    | beside hbesides _ => cases hbesides
  · intro h
    have hturn : RunsWave a false wave s (runWave a wave s).1 (runWave a wave s).2 := .inTurn rfl
    rwa [h] at hturn

/-- Without parallelism there is one run of all waves. -/
theorem evaluatesWaves_false_iff {waves : List (List (SiteId × Site))} {report : EvaluationReport} :
    EvaluatesWaves false waves report s result s' ↔
      evaluateWaves waves report s = (result, s') := by
  constructor
  · intro h
    induction h with
    | nil => rfl
    | next hwave hsettle _ ih =>
      rw [runsWave_false_iff] at hwave
      simp only [evaluateWaves, hwave, hsettle, ih]
    | breach hwave hsettle =>
      rw [runsWave_false_iff] at hwave
      simp only [evaluateWaves, hwave, hsettle]
  · intro h
    induction waves generalizing report s with
    | nil =>
      cases h
      exact .nil
    | cons wave rest ih =>
      rw [evaluateWaves] at h
      have hwave : RunsWave s.analysis false wave s.stock (runWave s.analysis wave s.stock).1
          (runWave s.analysis wave s.stock).2 := .inTurn rfl
      dsimp only at h
      generalize hsettle : settleAll (runWave s.analysis wave s.stock).1 report
        { s with stock := (runWave s.analysis wave s.stock).2 } = settled at h
      obtain ⟨f | report', s''⟩ := settled
      · cases h
        exact .breach hwave hsettle
      · exact .next hwave hsettle (ih h)

/-- Where the settings have sites evaluated one after another, an evaluation has one result. -/
theorem evaluates_iff (h : s.analysis.settings.parallel = false) :
    s.Evaluates result s' ↔ s.evaluate = (result, s') := by
  unfold Evaluates EvaluatesIn evaluate
  rw [h]
  exact evaluatesWaves_false_iff

end Session

end ConstPool
