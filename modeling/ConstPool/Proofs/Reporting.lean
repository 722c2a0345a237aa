import ConstPool.Proofs.Finish
import ConstPool.Proofs.Recovery

/-!
# Which faults are reported

A fault that does not end the work is always reported. A breach ends the evaluation that comes upon
it and is kept as the outcome of its site, so the site waits no more: a later end of the session
passes over it and gives a selection. A selection therefore stands for all sites exactly if no
evaluation ended early before.

What is reported is a diagnostic with the place of the site. The session keeps them in the order in
which the sites were settled. A fault that does not end the work is reported when the site is
settled, so it is among the diagnostics ever after. A breach is written down as an outcome and
given to whoever asked for the evaluation, and the site counts as settled: this is the one case in
which a fault is the outcome of a site and no diagnostic tells of it. A ladder has such a session,
whose end gives a selection.

* `Session.Accounts`: a session in which every fault is reported.
* `Session.Unhindered`: what is done with a session without coming upon a breach.
* `Session.Reached.accounts_iff`: these are the same.
* `Session.finish_accounts_iff`: what a selection says about the faults.
-/

namespace ConstPool.Session

open Relation

variable {s s' : Session}

/-- The fault of a site is reported at the place of the site. -/
def Reports (s : Session) (id : SiteId) (f : Fault) : Prop :=
  ∃ site, s.site? id = some site ∧ .ofFault f site.span ∈ s.diagnostics

/-- No site is a breach, and every fault of a site is reported. -/
def Accounts (s : Session) : Prop :=
  ∀ id f, s.outcomes.get? id = some (.error f) → f.isFatal = false ∧ s.Reports id f

/-- What can be done with a session if neither an evaluation nor the end of the session comes upon
a breach. -/
inductive Unhindered : Session → Session → Prop
  | intern (s : Session) (value : Value) : Unhindered s (s.perform (Work.intern value)).2
  | submit (s : Session) (site : Site) : Unhindered s (s.submit site).2
  | evaluate {s : Session} {report : EvaluationReport} : s.evaluate.1 = .ok report →
    Unhindered s s.evaluate.2
  | finish {s : Session} {retained : List SiteId} {sel : Selection} :
    (s.finish retained).1 = .ok sel → Unhindered s (s.finish retained).2

/-- A step that was not hindered is a step. -/
theorem Unhindered.step (h : Unhindered s s') : Step (fun _ _ => True) s s' := by
  cases h with
  | intern => exact .intern trivial
  | submit => exact .submit s _
  | evaluate _ => exact .evaluate s
  | finish _ => exact .finish s _

/-! ### One step -/

/-- A fault that may be reported has been. -/
theorem Regular.reports (h : s.Regular) {id : SiteId} {f : Fault}
    (hf : s.outcomes.get? id = some (.error f)) (hbenign : f.isFatal = false) : s.Reports id f := by
  obtain ⟨site, hsite, hreported⟩ := h.reported hf
  exact ⟨site, hsite, hreported f rfl hbenign⟩

/-- The outcomes of a session are accounted for exactly if none of them is fatal. -/
theorem Regular.accounts_iff (h : s.Regular) :
    s.Accounts ↔ ∀ id f, s.outcomes.get? id = some (.error f) → f.isFatal = false :=
  forall₂_congr fun _ _ => forall_congr' fun hf =>
    and_iff_left_of_imp fun hbenign => h.reports hf hbenign

/-- Where sites that waited are settled, no breach is added exactly if that comes to its end. -/
theorem Settles.accounts_iff (h : s.Regular) {es : List (SiteId × Site)}
    {result : Except Fault EvaluationReport} (hsettles : s.Settles s' es result)
    (hawaits : ∀ e ∈ es, s.Awaits e) :
    s'.Accounts ↔ s.Accounts ∧ ∃ report, result = .ok report := by
  rw [h.accounts_iff, hsettles.regular.accounts_iff, hsettles.exists_report_iff]
  constructor
  · intro hall
    refine ⟨fun id f hf => hall id f ?_, fun e _ f hf => hall e.1 f hf⟩
    rw [hsettles.others id fun hin => ?_, hf]
    -- a site with an outcome does not wait
    obtain ⟨e, he, rfl⟩ := List.mem_map.1 hin
    rw [(hawaits e he).unsettled] at hf
    cases hf
  · rintro ⟨hold, hnew⟩ id f hf
    by_cases hin : id ∈ es.map Prod.fst
    · obtain ⟨e, he, rfl⟩ := List.mem_map.1 hin
      exact hnew e he f hf
    · rw [hsettles.others id hin] at hf
      exact hold id f hf

/-- An evaluation adds no breach exactly if it comes to its end. -/
theorem Regular.accounts_evaluate (hs : s.analysis.Sound) (h : s.Regular) :
    s.evaluate.2.Accounts ↔ s.Accounts ∧ ∃ report, s.evaluate.1 = .ok report :=
  (h.evaluate hs).accounts_iff h fun _ he => mem_pending.1 he

/-- The end of a session adds no breach exactly if it gives a selection. -/
theorem Regular.accounts_finish (hs : s.analysis.Sound) (h : s.Regular) (retained : List SiteId) :
    (s.finish retained).2.Accounts ↔ s.Accounts ∧ ∃ sel, (s.finish retained).1 = .ok sel := by
  have hsession : (s.finish retained).2 = s.evaluate.2 := by rw [finish_eq]
  rw [hsession, h.accounts_evaluate hs]
  refine and_congr_right fun _ => ?_
  rcases h.finish_cases hs retained with ⟨f, hevaluate, hfinish⟩ | ⟨_, _, hevaluate, hfinish, -⟩
  · rw [hevaluate, hfinish]
    constructor
    · rintro ⟨_, hok⟩
      cases hok
    · rintro ⟨_, hok⟩
      cases hok
  · rw [hevaluate, hfinish]
    exact ⟨fun _ => ⟨_, rfl⟩, fun _ => ⟨_, rfl⟩⟩

/-- Handing a site in does not change whether the outcomes are accounted for. -/
theorem Regular.accounts_submit (h : s.Regular) (site : Site) :
    (s.submit site).2.Accounts ↔ s.Accounts := by
  have hafter : (s.submit site).2.Regular := h.submit site
  rw [hafter.accounts_iff, h.accounts_iff]
  rfl

/-- A step to a session without breaches begins at such a session and comes upon none. -/
theorem Step.unhindered (hs : s.analysis.Sound) (h : s.Regular)
    (hstep : Step (fun _ _ => True) s s') (hafter : s'.Accounts) :
    s.Accounts ∧ Unhindered s s' := by
  cases hstep with
  | @intern value _ => exact ⟨hafter, .intern s value⟩
  | submit site => exact ⟨(h.accounts_submit site).1 hafter, .submit s site⟩
  | evaluate =>
    obtain ⟨hbefore, report, hreport⟩ := (h.accounts_evaluate hs).1 hafter
    exact ⟨hbefore, .evaluate hreport⟩
  | finish retained =>
    obtain ⟨hbefore, sel, hsel⟩ := (h.accounts_finish hs retained).1 hafter
    exact ⟨hbefore, .finish hsel⟩

/-- A step that comes upon no breach leads on to such a session. -/
theorem Unhindered.accounts (hs : s.analysis.Sound) (h : s.Regular) (hstep : Unhindered s s')
    (hbefore : s.Accounts) : s'.Accounts := by
  cases hstep with
  | intern => exact hbefore
  | submit site => exact (h.accounts_submit site).2 hbefore
  | evaluate hreport => exact (h.accounts_evaluate hs).2 ⟨hbefore, _, hreport⟩
  | finish hsel => exact (h.accounts_finish hs _).2 ⟨hbefore, _, hsel⟩

/-! ### All steps -/

section Reached

variable {p : Program} {types : Types} {settings : Settings}

/-- Every fault is reported exactly if nothing came upon a breach. -/
theorem Reached.accounts_iff (hp : p.Declared) (h : Reached p types settings s) :
    s.Accounts ↔ ReflTransGen Unhindered (start p types settings) s := by
  constructor
  · intro haccounts
    induction h with
    | refl => exact .refl
    | tail hsteps hstep ih =>
      have hbefore : Reached p types settings _ := hsteps
      obtain ⟨haccounts, hunhindered⟩ :=
        hstep.unhindered (hbefore.sound hp) (hbefore.regular hp) haccounts
      exact (ih haccounts).tail hunhindered
  · intro hsteps
    clear h
    induction hsteps with
    | refl =>
      intro id f hf
      rw [show (start p types settings).outcomes = .empty from rfl, OrderedMap.get?_empty] at hf
      cases hf
    | tail hsteps hstep ih =>
      have hbefore : Reached p types settings _ :=
        ReflTransGen.mono (fun _ _ => Unhindered.step) _ _ hsteps
      exact hstep.accounts (hbefore.sound hp) (hbefore.regular hp) ih

end Reached

/-- A session that ended with a selection has reported every fault that does not end the work. And
it has reported every fault, and no site is a breach, exactly if nothing that was done with the
session before came upon a breach. -/
theorem finish_accounts_iff (declarations : List Declaration) (types : Types)
    (settings : Settings) (h : Reached (.declareAll {} declarations) types settings s)
    {retained : List SiteId} {sel : Selection} (hfinish : (s.finish retained).1 = .ok sel) :
    (∀ id f, (s.finish retained).2.outcomes.get? id = some (.error f) → f.isFatal = false →
      (s.finish retained).2.Reports id f) ∧
    ((s.finish retained).2.Accounts ↔
      ReflTransGen Unhindered (start (.declareAll {} declarations) types settings) s) := by
  have hp := Program.declared_declareAll declarations
  have hregular := h.regular hp
  have hs := h.sound hp
  refine ⟨fun id f hf hbenign => ?_, ?_⟩
  · rw [finish_eq] at hf ⊢
    exact (hregular.evaluate hs).regular.reports hf hbenign
  · rw [hregular.accounts_finish hs, h.accounts_iff hp]
    exact and_iff_left ⟨sel, hfinish⟩

/-- A site that lacks an argument is reported beside the selection. -/
theorem finish_accounts_withList :
    ∃ sel, (withList.finish [⟨0⟩, ⟨1⟩]).1 = .ok sel ∧ (withList.finish [⟨0⟩, ⟨1⟩]).2.Accounts ∧
      (withList.finish [⟨0⟩, ⟨1⟩]).2.outcomes.get? ⟨1⟩ = some (.error (.arity "listOf" 1 0)) := by
  have hstart : ReflTransGen Unhindered (start (.declareAll {} [.function listOf]) .empty {})
      (start (.declareAll {} [.function listOf]) .empty {}) := .refl
  have hconstants := (hstart.tail (.intern _ (.string "kept"))).tail
    (.intern _ (.string "dropped"))
  have hsites : ReflTransGen Unhindered _ withList :=
    (hconstants.tail (.submit _ _)).tail (.submit _ _)
  obtain ⟨sel, hsel⟩ : ∃ sel, (withList.finish [⟨0⟩, ⟨1⟩]).1 = .ok sel := ⟨_, rfl⟩
  have haccounts := (finish_accounts_iff [.function listOf] .empty {} reached_withList hsel).2
  exact ⟨sel, hsel, haccounts.2 hsites, rfl⟩

/-- Three functions, each of which calls the next one and the last one itself, where no call may be
nested: after an evaluation of the first one the session ends with a selection, although its site
is a breach, and nothing is reported. -/
theorem finish_ladder :
    ∃ s sel, Reached (Ladder.program 2) .empty { maxCallDepth := 1 } s ∧
      (s.finish [⟨0⟩]).1 = .ok sel ∧
        (s.finish [⟨0⟩]).2.outcomes.get? ⟨0⟩ =
          some (.error (.breach (.outsideCallGraph "ff" 1))) ∧
          (s.finish [⟨0⟩]).2.diagnostics = [] := by
  have hkept : (onLadder.evaluate.2.finish [⟨0⟩]).1.map (·.kept) = .ok [] := by
    with_unfolding_all rfl
  rcases hresult : (onLadder.evaluate.2.finish [⟨0⟩]).1 with f | sel
  · rw [hresult] at hkept
    cases hkept
  · have hreached : Reached (Ladder.program 2) .empty { maxCallDepth := 1 } onLadder.evaluate.2 :=
      (ReflTransGen.single (.submit _ _)).tail (.evaluate onLadder)
    exact ⟨onLadder.evaluate.2, sel, hreached, hresult, by with_unfolding_all rfl,
      by with_unfolding_all rfl⟩

end ConstPool.Session
