import ConstPool.Proofs.Journal.Run

/-!
# When only checked bodies are run

A definition that is handed in from outside is run if the declaration of its name has been accepted.
Its own body is not checked, and its result is kept under the name. So the law of the journal
depends on what is handed in: it is kept in all histories if every such definition, where the
declaration of its name is accepted, passes the check itself and is the only one of its name with as
many parameters. As long as nothing but declared functions are called, it is kept.

The journal is kept beside a run and tells which bodies were run, for which requests, and which
results were returned. The law says of every entry that the body is that of a definition which
passes the check, and that a result which is returned was left by a request for the same
definition. Both can fail in the same way: a definition that is handed in is looked up by its name,
for its verdict and for its result, and run as it is. Two histories show this, one with an
unchecked body and one with two bodies of one name. If every definition that may be run is genuine,
neither can happen.

* `FunctionDecl.Genuine`: a definition that may be handed in.
* `Noted.Reached.lawful`: the law is kept where nothing else is handed in.
* `Noted.lawful_iff`: and only there.
-/

namespace ConstPool

open Relation

variable {a : Analysis} {D : FunctionDecl → Prop}

/-- A definition that passes the check, and there is no other one with its name and as many
parameters that may be called: neither a declared one nor one with `D`. -/
structure FunctionDecl.Genuine (p : Program) (types : Types) (D : FunctionDecl → Prop)
    (f : FunctionDecl) : Prop where
  checked : ∃ needs, f.vet p types = .ok needs
  only : ∀ g : FunctionDecl, p.functions.get? g.qualifiedName = some g ∨ D g →
    g.qualifiedName = f.qualifiedName → g.params.length = f.params.length → g = f

/-- Every parameter is one for a type or one for a value. -/
theorem FunctionDecl.typeArity_add_arity (f : FunctionDecl) :
    f.typeArity + f.arity = f.params.length := by
  unfold typeArity arity typeParams valueParams
  induction f.params with
  | nil => rfl
  | cons param params ih => cases param <;> simp <;> omega

/-! ### Where the law is kept -/

/-- Whatever is handed in is genuine, if it may be run. -/
def Analysis.Trusts (a : Analysis) (D : FunctionDecl → Prop) : Prop :=
  ∀ f, D f → a.Accepts (.function f.qualifiedName) → 0 < a.settings.maxCallDepth →
    f.Genuine a.program a.types D

namespace Request.Admitted

variable {r r' : Request ValueId Atom}

/-- What is requested passes the check. -/
theorem checked (hs : a.Sound) (htrusts : a.Trusts D) (h : r.Admitted a D) :
    r.Checked a.program a.types := by
  obtain ⟨hoffered, body, hbody⟩ := h
  have haccepts := accepts_of_bodyOf hbody
  cases r with
  | call f types args =>
    rcases hoffered with hdeclared | ⟨hD, hpos⟩
    · obtain ⟨g, hg, ns, hvet, -⟩ := hs.functionBody haccepts
      cases hg.symm.trans hdeclared
      exact ⟨_, congrArg (Except.map Graph.distinct) hvet⟩
    · exact (htrusts f hD haccepts hpos).checked
  | read name =>
    obtain ⟨v, hv, ns, hvet, -⟩ := hs.variableBody haccepts
    exact ⟨v, _, hv, congrArg (Except.map Graph.distinct) hvet⟩

/-- The functions of two calls with one key are one. -/
theorem function_eq (htrusts : a.Trusts D) {f g : FunctionDecl} {types types' : List ValueId}
    {args args' : List Atom} (h : Admitted a D (.call f types args))
    (h' : Admitted a D (.call g types' args'))
    (hkey : Request.key (.call f types args) = Request.key (.call g types' args')) : f = g := by
  obtain ⟨hf, body, hbody⟩ := h
  obtain ⟨hg, body', hbody'⟩ := h'
  obtain ⟨hname, hargs⟩ := MemoKey.call.inj hkey
  have haccepts := accepts_of_bodyOf hbody
  have haccepts' := accepts_of_bodyOf hbody'
  obtain ⟨harity, htypeArity, -⟩ := lengths_of_bodyOf hbody
  obtain ⟨harity', htypeArity', -⟩ := lengths_of_bodyOf hbody'
  have hlength : f.params.length = g.params.length := by
    have hcount := congrArg List.length hargs
    simp only [List.length_append, List.length_map] at hcount
    rw [← f.typeArity_add_arity, ← g.typeArity_add_arity]
    omega
  rcases hf with hdeclared | ⟨hD, hpos⟩
  · rcases hg with hdeclared' | ⟨hD, hpos⟩
    · rw [hname, hdeclared'] at hdeclared
      exact (Option.some.inj hdeclared).symm
    · exact (htrusts g hD haccepts' hpos).only f (.inl hdeclared) hname hlength
  · exact ((htrusts f hD haccepts hpos).only g (hg.imp_right And.left)
      hname.symm hlength.symm).symm

/-- Two requests with one key are one. -/
theorem eq_of_key_eq (htrusts : a.Trusts D) (h : r.Admitted a D) (h' : r'.Admitted a D)
    (hkey : r.key = r'.key) : r = r' := by
  cases r with
  | call f types args =>
    cases r' with
    | call g types' args' =>
      obtain rfl := function_eq htrusts h h' hkey
      obtain ⟨-, body, hbody⟩ := h
      obtain ⟨-, body', hbody'⟩ := h'
      obtain ⟨-, htypes, -⟩ := lengths_of_bodyOf hbody
      obtain ⟨-, htypes', -⟩ := lengths_of_bodyOf hbody'
      exact call_eq_of_key_eq (htypes.symm.trans htypes') hkey
    | read name => cases hkey
  | read name =>
    cases r' with
    | call f types args => cases hkey
    | read name' => rw [MemoKey.variable.inj hkey]

end Request.Admitted

namespace Noted

variable {n : Noted}

/-- The law is kept in every history in which nothing is handed in that is not genuine. -/
theorem Reached.lawful (hs : a.Sound) (htrusts : a.Trusts D) (h : Reached a D n) :
    n.journal.Lawful a.program a.types := by
  have haccounts := h.accounts hs.program
  intro before e after hjournal
  have hall : ∀ e' ∈ before ++ e :: after, e'.request.Admitted a D := hjournal ▸ haccounts.admitted
  have hadmitted := hall e (List.mem_append_right _ (List.mem_cons_self ..))
  have hchecked := hadmitted.checked hs htrusts
  cases e with
  | ran r o => exact hchecked
  | found r o =>
    obtain ⟨r', hkey, hran⟩ := haccounts.backed before _ after hjournal
    have hadmitted' := hall _ (List.mem_append_left _ hran)
    obtain rfl := hadmitted'.eq_of_key_eq htrusts hadmitted hkey
    exact ⟨hchecked, hran⟩

/-- As long as nothing but declared functions are called, the law is kept. -/
theorem Reached.lawful_of_declared (hs : a.Sound) (h : Reached a (fun _ => False) n) :
    n.journal.Lawful a.program a.types := h.lawful hs fun _ hf => hf.elim

end Noted

/-! ### Where it is not -/

/-- A call with as many arguments as there are parameters, all of them the first constant of the
pool. -/
def FunctionDecl.sampleCall (f : FunctionDecl) : Request ValueId Atom :=
  .call f (.replicate f.typeArity ⟨0⟩) (.replicate f.arity (.ref ⟨0⟩))

/-- The key of such a call tells types from values by nothing. -/
theorem FunctionDecl.key_sampleCall (f : FunctionDecl) :
    f.sampleCall.key = .call f.qualifiedName (.replicate f.params.length (.ref ⟨0⟩)) := by
  simp only [sampleCall, Request.key, MemoKey.ofCall, List.map_replicate,
    List.replicate_append_replicate, f.typeArity_add_arity]

namespace Analysis

variable {f : FunctionDecl}

/-- Such a call of an accepted function passes. -/
theorem Accepts.bodyOf_sampleCall (h : a.Accepts (.function f.qualifiedName)) :
    a.bodyOf f.sampleCall = .ok f.body :=
  Request.bodyOf_of_accepts h (List.length_replicate ..).symm (List.length_replicate ..).symm

/-- Such a call may be the next step of a history. -/
theorem step_sampleCall (n : Noted) (h : a.program.functions.get? f.qualifiedName = some f ∨ D f) :
    Noted.Step a D n ⟨((a.invoke f.sampleCall).outcome n.stock).2,
      n.journal ++ a.journalOf f.sampleCall n.stock⟩ := .call n _ _ h

/-- If the law is kept in all histories, then whatever is handed in is genuine: it is called first,
so its body is run, and then another definition with the same key, whose call gets its result. -/
theorem trusts_of_lawful (hp : a.program.Declared)
    (h : ∀ n, Noted.Reached a D n → n.journal.Lawful a.program a.types) : a.Trusts D := by
  intro f hf haccepts hpos
  obtain ⟨calls, hcalls⟩ := Nat.exists_eq_succ_of_ne_zero hpos.ne'
  have hbody := haccepts.bodyOf_sampleCall
  have hfirst : Noted.Reached a D _ := .single (step_sampleCall {} (.inr hf))
  -- The body of the definition is run, so the definition passes.
  have hran : .ran f.sampleCall ((a.invoke f.sampleCall).outcome {}).1 ∈
      [] ++ a.journalOf f.sampleCall {} := by
    rw [journalOf, invoke, hcalls, journal_of_none hbody rfl (Dict.get?_empty _)]
    exact List.mem_append_right _ (List.mem_append_right _ (List.mem_singleton_self _))
  obtain ⟨_, _, hchecked⟩ := (h _ hfirst).of_mem hran
  refine ⟨hchecked, fun g hg hname hlength => ?_⟩
  -- Its result is returned for a definition with the same key.
  have hkey : g.sampleCall.key = f.sampleCall.key := by
    rw [g.key_sampleCall, f.key_sampleCall, hname, hlength]
  have haccounts := hfirst.accounts hp
  have hcell := haccounts.kept hran
  rw [← hkey] at hcell
  have hbody' : a.bodyOf g.sampleCall = .ok g.body := Accepts.bodyOf_sampleCall (hname ▸ haccepts)
  have hsecond := hfirst.tail (step_sampleCall _ hg)
  have hfound : a.journalOf g.sampleCall ((a.invoke f.sampleCall).outcome {}).2 =
      [.found g.sampleCall ((a.invoke f.sampleCall).outcome {}).1] := by
    rw [journalOf, hcalls]
    exact journal_of_done hbody' rfl hcell
  have hran' := (h _ hsecond _ _ [] (congrArg (_ ++ ·) hfound)).2
  -- One key was run once, so both are one definition.
  exact (Request.call.inj (haccounts.once hran' hran hkey)).1

end Analysis

namespace Noted

/-- For every program and every set of definitions that are handed in: in all histories no body is
run and no result is returned but for a definition that passes the check, and no result of one
definition is returned for another one, if and only if every definition that is handed in and that
may be run passes the check and is the only one with its name and as many parameters. A definition
may be run if the declaration of its name has been accepted. The journal leaves nothing out: on any
stock it tells what has become of a request, unless the request fails and the stock stays as it
was. -/
theorem lawful_iff (declarations : List Declaration) (types : Types) (settings : Settings)
    (D : FunctionDecl → Prop) :
    (∀ r s,
      Journal.EndsWith
          ((Analysis.build (.declareAll {} declarations) types settings).journalOf r s) r
          (((Analysis.build (.declareAll {} declarations) types settings).invoke r).outcome s).1 ∨
        (Analysis.build (.declareAll {} declarations) types settings).journalOf r s = [] ∧
          ∃ f, ((Analysis.build (.declareAll {} declarations) types settings).invoke r).outcome s =
            (.error f, s)) ∧
    ((∀ n, Reached (.build (.declareAll {} declarations) types settings) D n →
        n.journal.Lawful (.declareAll {} declarations) types) ↔
      ∀ f, D f →
        (Analysis.build (.declareAll {} declarations) types settings).Accepts
          (.function f.qualifiedName) → 0 < settings.maxCallDepth →
            f.Genuine (.declareAll {} declarations) types D) := by
  have hp := Program.declared_declareAll declarations
  have hs := Analysis.sound_build hp types settings
  exact ⟨fun r s => Analysis.journal_cases _ none r s, Analysis.trusts_of_lawful hs.program,
    fun htrusts _ hn => hn.lawful hs htrusts⟩

/-- A function without parameters, whose value is one. -/
def one : FunctionDecl where
  name := "f"
  params := []
  placement := .topLevel
  body := .scalar (.int 1)

/-- The function, and a variable that is no constant. -/
def oneAndCounter : Program := .declareAll {} [.function one, .plainVariable "counter"]

/-- A definition with the name of the function. It mentions the variable. -/
def standIn : FunctionDecl where
  name := "f"
  params := []
  placement := .topLevel
  body := .cond (.scalar (.bool false)) (.name "counter") (.scalar (.int 5))

/-- A call site of the function. -/
def siteOfOne : Site where
  target := .function "f"
  types := []
  args := []
  span := {}

/-- The analysis of the program. -/
def analysisOfOne : Analysis := .build oneAndCounter .empty {}

/-- The stock after the definition was called. -/
def afterStandIn : Stock := ((analysisOfOne.invoke (.call standIn [] [])).outcome {}).2

/-- The definition does not pass the check and is run all the same. Then the call site of the
declared function gets its value, five, although it would get one before. -/
theorem not_lawful_standIn :
    standIn.vet oneAndCounter .empty = .error (.impure (.readsVariable "f" "counter")) ∧
      analysisOfOne.journalOf (.call standIn [] []) {} = [.ran (.call standIn [] []) (.ok ⟨0⟩)] ∧
      analysisOfOne.siteJournal siteOfOne afterStandIn = [.found (.call one [] []) (.ok ⟨0⟩)] ∧
      ((analysisOfOne.resolveSite siteOfOne).outcome afterStandIn).1 = .ok ⟨0⟩ ∧
      ((analysisOfOne.resolveSite siteOfOne).outcome afterStandIn).2.pool.get? ⟨0⟩ =
        some (.scalar (.int 5)) ∧
      ((analysisOfOne.resolveSite siteOfOne).outcome {}).1 = .ok ⟨0⟩ ∧
      ((analysisOfOne.resolveSite siteOfOne).outcome {}).2.pool.get? ⟨0⟩ =
        some (.scalar (.int 1)) ∧
      ∃ n, Reached analysisOfOne (· = standIn) n ∧
        ¬ n.journal.Lawful oneAndCounter .empty := by
  have hvet : standIn.vet oneAndCounter .empty =
      .error (.impure (.readsVariable "f" "counter")) := by
    with_unfolding_all rfl
  have hjournal : analysisOfOne.journalOf (.call standIn [] []) {} =
      [.ran (.call standIn [] []) (.ok ⟨0⟩)] := by
    with_unfolding_all rfl
  have hreached : Reached analysisOfOne (· = standIn) _ := .single (.call {} [] [] (.inr rfl))
  refine ⟨hvet, hjournal, ?_, ?_, ?_, ?_, ?_, _, hreached, fun hlawful => ?_⟩
  case refine_6 =>
    obtain ⟨needs, hneeds⟩ := hlawful [] _ [] (congrArg ([] ++ ·) hjournal)
    cases hvet.symm.trans hneeds
  all_goals with_unfolding_all rfl

end Noted

end ConstPool
