import ConstPool.Proofs.Evaluation

/-!
# The end of a session

A session ends with a selection, unless one of the sites that still waited turns out to be a
breach: the recorded uses never stand in the way. The selection keeps exactly the constants that
are reached from the results of the retained sites.

Which constants are reached is said in terms of the pool: the result of a retained site, the parts
of its value, and so on. The selection goes by the uses that were recorded. The two agree because
the uses trace the pool in every session (`Session.Regular`), so none is missing and none is too
much. The order in which the sites are retained, and repetitions among them, change neither the
constants that are kept nor the counts.

* `Session.Settles.exists_report_iff`: when an evaluation comes to its end.
* `Session.Regular.exists_selected`: the uses lead to a selection.
* `Session.finish_exact`: what is kept.
-/

namespace ConstPool.Session

variable {s s' : Session}

/-- Settling sites comes to its end exactly if none of them turns out to be a breach. -/
theorem Settles.exists_report_iff {es : List (SiteId × Site)}
    {result : Except Fault EvaluationReport} (h : s.Settles s' es result) :
    (∃ report, result = .ok report) ↔
      ∀ e ∈ es, ∀ f, s'.outcomes.get? e.1 = some (.error f) → f.isFatal = false := by
  have hends := h.ends
  constructor
  · rintro ⟨report, rfl⟩ e he f hf
    cases hends with
    | ok hall =>
      obtain ⟨o, ho, hrecovers⟩ := hall e he
      exact hrecovers f (Option.some.inj (ho.symm.trans hf))
  · intro hall
    cases hends with
    | ok _ => exact ⟨_, rfl⟩
    | error hf =>
      obtain ⟨hfatal, e, he, hfault⟩ := hf
      rw [hall e he _ hfault] at hfatal
      cases hfatal

/-- In every session there is a selection for any sites. -/
theorem Regular.exists_selected (hs : s.analysis.Sound) (h : s.Regular)
    (retained : List SiteId) :
    ∃ sel, select s.stock.pool s.stock.uses s.outcomes retained = .ok sel ∧
      Selected s.stock.pool s.stock.uses s.outcomes retained sel := by
  have hsound := (h.reached.faithful hs.upholds_explained).sound
  exact (h.traced.selectable hsound h.known retained).exists_selected

/-- A session ends as its last evaluation does, with a selection if that comes to its end. -/
theorem Regular.finish_cases (hs : s.analysis.Sound) (h : s.Regular) (retained : List SiteId) :
    (∃ f, s.evaluate.1 = .error f ∧ (s.finish retained).1 = .error f) ∨
      ∃ report sel, s.evaluate.1 = .ok report ∧ (s.finish retained).1 = .ok sel ∧
        Selected s.evaluate.2.stock.pool s.evaluate.2.stock.uses s.evaluate.2.outcomes retained
          sel := by
  have hsettles := h.evaluate hs
  rw [finish_eq]
  rcases hresult : s.evaluate.1 with f | report
  · exact .inl ⟨f, rfl, rfl⟩
  · obtain ⟨sel, hsel, hselected⟩ :=
      hsettles.regular.exists_selected (hsettles.analysis.symm ▸ hs) retained
    exact .inr ⟨report, sel, rfl, hsel, hselected⟩

/-- If none of the sites that wait turns out to be a breach, a session ends with a selection that
keeps exactly what the results of the retained sites need, and only which sites are retained
matters. -/
theorem finish_exact (declarations : List Declaration) (types : Types) (settings : Settings)
    (h : Reached (.declareAll {} declarations) types settings s)
    (hpending : ∀ e ∈ s.pending, ∀ f,
      s.evaluate.2.outcomes.get? e.1 = some (.error f) → f.isFatal = false)
    (retained : List SiteId) :
    ∃ sel, (s.finish retained).1 = .ok sel ∧
      sel.Exact (s.finish retained).2.stock.pool (s.finish retained).2.outcomes retained ∧
      ∀ retained', (∀ site, site ∈ retained' ↔ site ∈ retained) →
        (s.finish retained').2 = (s.finish retained).2 ∧
          ∃ sel', (s.finish retained').1 = .ok sel' ∧ sel.Alike sel' := by
  have hp := Program.declared_declareAll declarations
  have hs := h.sound hp
  have hregular := h.regular hp
  have hsettles := hregular.evaluate hs
  obtain ⟨report, hreport⟩ := hsettles.exists_report_iff.2 hpending
  have hfinished : ∀ retained, ∃ sel, (s.finish retained).1 = .ok sel ∧
      Selected s.evaluate.2.stock.pool s.evaluate.2.stock.uses s.evaluate.2.outcomes retained
        sel := by
    intro retained
    rcases hregular.finish_cases hs retained with ⟨f, hf, -⟩ | ⟨-, sel, -, hsel, hselected⟩
    · rw [hreport] at hf
      cases hf
    · exact ⟨sel, hsel, hselected⟩
  obtain ⟨sel, hsel, hselected⟩ := hfinished retained
  refine ⟨sel, hsel, ?_, fun retained' hsame => ?_⟩
  · rw [finish_eq]
    exact hselected.exact hsettles.regular.traced
  · obtain ⟨sel', hsel', hselected'⟩ := hfinished retained'
    exact ⟨by rw [finish_eq, finish_eq], sel', hsel', hselected.alike hsame hselected'⟩

/-- The function that puts a constant into a list. -/
def listOf : FunctionDecl where
  name := "listOf"
  params := [.value "x"]
  body := .list [.name "x"]
  placement := .topLevel

/-- A session with two constants, a site that makes a list of the first of them, and a site that
lacks an argument. -/
def withList : Session :=
  let s := start (.declareAll {} [.function listOf]) .empty {}
  let s := (s.perform (Work.intern (.string "kept"))).2
  let s := (s.perform (Work.intern (.string "dropped"))).2
  let s := (s.submit ⟨.function "listOf", [], [.const ⟨0⟩], {}⟩).2
  (s.submit ⟨.function "listOf", [], [], {}⟩).2

/-- This session has a history. -/
theorem reached_withList : Reached (.declareAll {} [.function listOf]) .empty {} withList := by
  have hstart : Reached (.declareAll {} [.function listOf]) .empty {}
      (start (.declareAll {} [.function listOf]) .empty {}) := .refl
  have hconstants := (hstart.tail (@Step.intern _ _ (.string "kept") trivial)).tail
    (@Step.intern _ _ (.string "dropped") trivial)
  exact (hconstants.tail (.submit _ _)).tail (.submit _ _)

/-- Neither the second constant is kept nor anything for the site that fails. -/
theorem finish_exact_withList :
    ∃ sel, (withList.finish [⟨1⟩, ⟨0⟩, ⟨7⟩, ⟨0⟩]).1 = .ok sel ∧ sel.kept = [⟨0⟩, ⟨2⟩] ∧
      sel.Exact (withList.finish [⟨1⟩, ⟨0⟩, ⟨7⟩, ⟨0⟩]).2.stock.pool
        (withList.finish [⟨1⟩, ⟨0⟩, ⟨7⟩, ⟨0⟩]).2.outcomes [⟨1⟩, ⟨0⟩, ⟨7⟩, ⟨0⟩] := by
  have hlists : withList.evaluate.2.outcomes.get? ⟨0⟩ = some (.ok ⟨2⟩) := rfl
  have hlacks : withList.evaluate.2.outcomes.get? ⟨1⟩ =
      some (.error (.arity "listOf" 1 0)) := rfl
  have hbenign : ∀ e ∈ withList.pending, ∀ f,
      withList.evaluate.2.outcomes.get? e.1 = some (.error f) → f.isFatal = false := by
    intro e he f hf
    have hpending : withList.pending.map Prod.fst = [⟨0⟩, ⟨1⟩] := rfl
    have hid : e.1 ∈ [(⟨0⟩ : SiteId), ⟨1⟩] := hpending ▸ List.mem_map_of_mem he
    rcases List.mem_pair.1 hid with h | h
    · rw [h, hlists] at hf
      cases hf
    · rw [h, hlacks] at hf
      cases hf
      rfl
  have hkept : (withList.finish [⟨1⟩, ⟨0⟩, ⟨7⟩, ⟨0⟩]).1.map (·.kept) = .ok [⟨0⟩, ⟨2⟩] := rfl
  obtain ⟨sel, hsel, hexact, -⟩ := finish_exact [.function listOf] .empty {} reached_withList hbenign
    [⟨1⟩, ⟨0⟩, ⟨7⟩, ⟨0⟩]
  rw [hsel] at hkept
  exact ⟨sel, hsel, Except.ok.inj hkept, hexact⟩

end ConstPool.Session
