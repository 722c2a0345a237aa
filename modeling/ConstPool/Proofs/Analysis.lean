import ConstPool.Analysis
import ConstPool.Proofs.Graph.Recursion
import ConstPool.Proofs.Program
import ConstPool.Proofs.Simulation.Body
import ConstPool.Proofs.Vetting

/-!
# What the analysis has found out

A declaration that the analysis accepts has a body that passed, whose needs are those of the call
graph. It does not need itself, and if it has a place in the order it is not too high.

The facts are proved from how the analysis is built. Vetting is carried out for every declaration
of the program, functions and variables alike, and its result is kept by the name of the
declaration. A program that came about by declarations has one declaration for each name, so the
result that is found for a name is that of its declaration. Soundness of an analysis is what all
later results start from: they do not look at how verdicts are found.

* `Analysis.Accepts`: a declaration may be used.
* `Analysis.Sound`: what follows for an accepted declaration.
* `Analysis.sound_build`: the analysis of a declared program is sound.
-/

namespace ConstPool

namespace Analysis

/-- A declaration may be used. -/
def Accepts (a : Analysis) (n : Node) : Prop := a.verdict n = .ok ()

/-- What an analysis has found out about the declarations that it accepts. -/
structure Sound (a : Analysis) : Prop where
  program : a.program.Declared
  keys : a.graph.needs.keys.Nodup
  layers : a.graph.layers = a.graph.needs.layers
  cyclic : a.graph.cyclic = a.graph.needs.cyclic a.graph.needs.layers
  key : ∀ {n}, a.Accepts n → n ∈ a.graph.needs.keys
  acyclic : ∀ {n}, a.Accepts n → n ∉ a.graph.cyclic
  low : ∀ {n h}, a.Accepts n → a.graph.layers.get? n = some h → h < a.settings.maxCallDepth
  /-- A function has a body that passed. -/
  functionBody : ∀ {name}, a.Accepts (.function name) →
    ∃ f, a.program.functions.get? name = some f ∧
      Vetted (a.graph.needs.direct (.function name))
        (f.body.vet (f.surroundings a.program a.types))
  /-- A variable has a value that passed. -/
  variableBody : ∀ {name}, a.Accepts (.variable name) →
    ∃ v, a.program.globals.get? name = some v ∧
      Vetted (a.graph.needs.direct (.variable name))
        (v.value.vet (v.surroundings a.program a.types))
  /-- A refusal can be reported. -/
  reported : ∀ n, Reported (a.verdict n)

/-! ### Vetting every declaration -/

section Build

variable {p : Program} {types : Types} {settings : Settings} {n : Node}
  {x : Except Fault (List Node)}

/-- What stands in the list of the vetted declarations. -/
theorem cases_of_mem_vetAll (h : p.Declared) (hmem : (n, x) ∈ p.vetAll types) :
    (∃ name f, n = .function name ∧ p.functions.get? name = some f ∧ x = f.vet p types) ∨
      ∃ name v, n = .variable name ∧ p.globals.get? name = some v ∧ x = v.vet p types := by
  rcases List.mem_append.1 hmem with hmem | hmem
  · obtain ⟨e, he, heq⟩ := List.mem_map.1 hmem
    cases heq
    exact .inl ⟨e.1, e.2, rfl, OrderedMap.get?_of_mem_entries h.functions he, rfl⟩
  · obtain ⟨e, he, heq⟩ := List.mem_map.1 hmem
    cases heq
    exact .inr ⟨e.1, e.2, rfl, OrderedMap.get?_of_mem_entries h.globals he, rfl⟩

/-- The outcome of vetting a declaration. -/
theorem offending_of_mem_vetAll (h : p.Declared) (hmem : (n, x) ∈ p.vetAll types) :
    Offending x := by
  rcases cases_of_mem_vetAll h hmem with ⟨_, f, -, -, rfl⟩ | ⟨_, v, -, -, rfl⟩
  · exact f.vet_offending p types
  · exact v.vet_offending p types

/-- The needs of a declaration are those that vetting found. -/
theorem direct_build (p : Program) (types : Types) (settings : Settings) (n : Node) :
    (build p types settings).graph.needs.direct n =
      (((OrderedMap.ofList (p.vetAll types)).get? n).map fun x => x.toOption.getD []).getD [] := by
  show Needs.direct (needsOf (p.vetAll types)) n = _
  rw [Needs.direct, needsOf,
    OrderedMap.get?_ofList_map (fun _ x => (Except.toOption x).getD []) (p.vetAll types) n]

/-- The verdict on a declaration. -/
theorem verdict_build (p : Program) (types : Types) (settings : Settings) (n : Node) :
    (build p types settings).verdict n =
      (((OrderedMap.ofList (p.vetAll types)).get? n).map
        (verdictOf (build p types settings).graph settings.maxCallDepth n)).getD
          (.error (.unresolved n.name .notDeclared)) := by
  rw [verdict]
  exact congrArg (Option.getD · _) (OrderedMap.get?_ofList_map
    (verdictOf (build p types settings).graph settings.maxCallDepth) (p.vetAll types) n)

/-- What an accepted declaration has passed. -/
theorem passed_of_accepts (h : (build p types settings).Accepts n) :
    ∃ ns, (n, .ok ns) ∈ p.vetAll types ∧ (build p types settings).graph.needs.direct n = ns ∧
      n ∉ (build p types settings).graph.cyclic ∧
      ∀ k, (build p types settings).graph.layers.get? n = some k → k < settings.maxCallDepth := by
  rw [Accepts, verdict_build] at h
  rcases hget : (OrderedMap.ofList (p.vetAll types)).get? n with _ | x
  · rw [hget] at h
    cases h
  · rw [hget] at h
    simp only [Option.map_some, Option.getD_some, verdictOf] at h
    split at h
    · cases h
    · next hcyclic =>
      split at h
      · cases h
      · next ns =>
        split at h
        · cases h
        · next hlow =>
          refine ⟨ns, OrderedMap.mem_of_get?_ofList hget, ?_, fun hin => hcyclic ?_, fun k hk => ?_⟩
          · rw [direct_build, hget]
            rfl
          · exact List.contains_iff_mem.2 hin
          · have hplaced := OrderedMap.contains_iff.2 (OrderedMap.mem_keys_of_get? hk)
            rw [hplaced, Bool.true_and, decide_eq_true_eq, CallGraph.height, hk] at hlow
            exact Nat.lt_of_not_le hlow

/-- A declaration passes if vetting it does. -/
theorem vetted_of_map {e : Except Fault (List Node)} {ns : List Node}
    (h : e.map Graph.distinct = .ok ns) : Vetted ns e := by
  rcases e with f | ms
  · cases h
  · cases h
    exact ⟨ms, rfl, fun m hm => Graph.mem_distinct.2 hm⟩

/-- The analysis of a declared program is sound. -/
theorem sound_build (h : p.Declared) (types : Types) (settings : Settings) :
    (build p types settings).Sound where
  program := h
  keys := OrderedMap.nodup_keys_ofList _
  layers := rfl
  cyclic := rfl
  key haccepts := by
    obtain ⟨ns, hmem, -⟩ := passed_of_accepts haccepts
    refine OrderedMap.mem_keys_ofList.2 ⟨_, List.mem_map_of_mem hmem, rfl⟩
  acyclic haccepts := by
    obtain ⟨ns, -, -, hacyclic, -⟩ := passed_of_accepts haccepts
    exact hacyclic
  low haccepts hget := by
    obtain ⟨ns, -, -, -, hlow⟩ := passed_of_accepts haccepts
    exact hlow _ hget
  functionBody {name} haccepts := by
    obtain ⟨ns, hmem, hdirect, -⟩ := passed_of_accepts haccepts
    rcases cases_of_mem_vetAll h hmem with ⟨_, f, hn, hf, hx⟩ | ⟨_, v, hn, -, -⟩
    · cases hn
      refine ⟨f, hf, ?_⟩
      rw [hdirect]
      exact vetted_of_map hx.symm
    · cases hn
  variableBody {name} haccepts := by
    obtain ⟨ns, hmem, hdirect, -⟩ := passed_of_accepts haccepts
    rcases cases_of_mem_vetAll h hmem with ⟨_, f, hn, -, -⟩ | ⟨_, v, hn, hv, hx⟩
    · cases hn
    · cases hn
      refine ⟨v, hv, ?_⟩
      rw [hdirect]
      exact vetted_of_map hx.symm
  reported n := by
    rw [verdict_build]
    rcases hget : (OrderedMap.ofList (p.vetAll types)).get? n with _ | x
    · exact .error rfl
    · have hx := (offending_of_mem_vetAll h (OrderedMap.mem_of_get?_ofList hget)).reported
      simp only [Option.map_some, Option.getD_some, verdictOf]
      split
      · exact .error rfl
      · split
        · exact .error (hx _ rfl)
        · split
          · exact .error rfl
          · exact .ok _

end Build

end Analysis

end ConstPool
