import ConstPool.Proofs.Analysis
import ConstPool.Proofs.Graph.Search

/-!
# Declarations that need themselves

A declaration is refused for needing itself exactly if it lies on a cycle of declarations that all
pass vetting. A declaration that does not pass needs nothing, so it is on no cycle and breaks those
that would lead through it. One that passes and merely leads to a cycle is accepted.

The graph is that of declarations that pass vetting, with the needs that vetting has found. For
each node without a place a search goes from its needs onward; the node is recursive if the search
comes back to it. The search keeps a stack and what it has seen, and ends in every graph. What it
answers is that there is a way from the node to itself, and by the order such a way runs through
nodes without places alone. The verdicts follow: first recursion, then the faults of the text, then
the bound on the heights of nodes that have one.

* `Needs.exists_search`: the search for a way from one node to another ends.
* `Analysis.transGen_uses_iff`: the cycles of the call graph of a program.
* `Analysis.recursion_exact`: recursive nodes, and the verdicts on recursive declarations.
-/

namespace ConstPool

open Relation

/-- Every member of a cycle leads on, so a cycle needs no step to what leads nowhere. -/
theorem transGen_onward {α : Type} {R : α → α → Prop} {a : α} (h : TransGen R a a) :
    TransGen (fun x y => R x y ∧ ∃ z, R y z) a a := by
  obtain ⟨first, hfirst, -⟩ := TransGen.head'_iff.1 h
  have hall : ∀ {x}, TransGen R x a → TransGen (fun x y => R x y ∧ ∃ z, R y z) x a := by
    intro x hx
    induction hx using TransGen.head_induction_on with
    | single hstep => exact .single ⟨hstep, first, hfirst⟩
    | head hstep hrest ih =>
      obtain ⟨next, hnext, -⟩ := TransGen.head'_iff.1 hrest
      exact .head ⟨hstep, next, hnext⟩ ih
  exact hall h

/-! ### The search for a way back -/

namespace Needs

variable {needs : Needs} {n : Node}

/-- A node that needs something directly is one. -/
theorem mem_keys_of_direct {d : Node} (h : d ∈ needs.direct n) : n ∈ needs.keys := by
  unfold direct at h
  rcases hget : needs.get? n with _ | ds
  · rw [hget] at h
    cases h
  · exact OrderedMap.mem_keys_of_get? hget

/-- A chain of direct needs comes back to a node exactly if one through known needs does. -/
theorem transGen_direct_iff :
    TransGen (Graph.Leads needs.direct) n n ↔ TransGen needs.Uses n n := by
  constructor
  · intro h
    refine TransGen.mono (fun x y hstep => ?_) _ _ (transGen_onward h)
    obtain ⟨hdirect, z, hz⟩ := hstep
    exact mem_known.2 ⟨hdirect, mem_keys_of_direct hz⟩
  · exact TransGen.mono (fun x y huse => (mem_known.1 huse).1) _ _

/-- The search for a way from the needs of one node to another node ends, and finds out whether
there is one. -/
theorem exists_search (needs : Needs) (source target : Node) :
    ∃ found, Graph.Searches needs.direct target (needs.direct source).reverse [] found ∧
      (found = true ↔ TransGen (Graph.Leads needs.direct) source target) := by
  have hclosed : ∀ v ∈ source :: needs.values.flatten,
      needs.direct v ⊆ source :: needs.values.flatten := by
    intro v _ d hd
    refine List.mem_cons_of_mem _ (List.mem_flatten.2 ?_)
    unfold direct at hd
    rcases hget : needs.get? v with _ | ds
    · rw [hget] at hd
      cases hd
    · rw [hget] at hd
      exact ⟨ds, (List.of_mem_zip (OrderedMap.mem_entries_of_get? hget)).2, hd⟩
  have hroots : (needs.direct source).reverse ⊆ source :: needs.values.flatten :=
    List.reverse_subset.2 (hclosed source (List.mem_cons_self ..))
  obtain ⟨found, hsearch⟩ := Graph.exists_searches hclosed target hroots []
  refine ⟨found, hsearch, hsearch.found_iff.trans ?_⟩
  rw [TransGen.head'_iff]
  simp only [List.mem_reverse]

/-- The recursive nodes are those for which the search for a way back succeeds. -/
theorem searches_isCyclic (hkeys : needs.keys.Nodup) (n : Node) :
    Graph.Searches needs.direct n (needs.direct n).reverse []
      ((CallGraph.build needs).isCyclic n) := by
  obtain ⟨found, hsearch, hfound⟩ := needs.exists_search n n
  have hsame : found = (CallGraph.build needs).isCyclic n := by
    rw [Bool.eq_iff_iff, hfound, transGen_direct_iff, CallGraph.isCyclic, List.contains_iff_mem]
    exact (mem_cyclic_iff hkeys).symm
  exact hsame ▸ hsearch

end Needs

/-! ### Cycles of declarations -/

namespace Program

variable {p : Program} {types : Types} {n m : Node}

/-- The outcome of vetting a node, if it is declared. -/
def vetOf (p : Program) (types : Types) : Node → Option (Except Fault (List Node))
  | .function name => (p.functions.get? name).map fun f => f.vet p types
  | .variable name => (p.globals.get? name).map fun v => v.vet p types

/-- A declaration passes vetting, with the needs `ns`. -/
def Passes (p : Program) (types : Types) (n : Node) (ns : List Node) : Prop :=
  p.vetOf types n = some (.ok ns)

/-- A declaration that passes vetting needs directly one that passes, too. -/
def Requires (p : Program) (types : Types) (n m : Node) : Prop :=
  (∃ ns, p.Passes types n ns ∧ m ∈ ns) ∧ ∃ ms, p.Passes types m ms

/-- Every declaration is vetted once. -/
theorem get?_vetAll (h : p.Declared) (types : Types) (n : Node) :
    (OrderedMap.ofList (p.vetAll types)).get? n = p.vetOf types n := by
  have hfound : ∀ x, p.vetOf types n = some x → (n, x) ∈ p.vetAll types := by
    intro x hx
    cases n with
    | function name =>
      obtain ⟨f, hf, rfl⟩ := Option.map_eq_some_iff.1 hx
      exact List.mem_append_left _
        (List.mem_map.2 ⟨(name, f), OrderedMap.mem_entries_of_get? hf, rfl⟩)
    | «variable» name =>
      obtain ⟨v, hv, rfl⟩ := Option.map_eq_some_iff.1 hx
      exact List.mem_append_right _
        (List.mem_map.2 ⟨(name, v), OrderedMap.mem_entries_of_get? hv, rfl⟩)
  -- the tables have one declaration for a node, so the list has one result for it
  have hlisted : ∀ x, (n, x) ∈ p.vetAll types → p.vetOf types n = some x := by
    intro x hx
    rcases Analysis.cases_of_mem_vetAll h hx with ⟨name, f, rfl, hf, rfl⟩ | ⟨name, v, rfl, hv, rfl⟩
    · rw [vetOf, hf]
      rfl
    · rw [vetOf, hv]
      rfl
  rcases hget : (OrderedMap.ofList (p.vetAll types)).get? n with _ | x
  · rcases hvet : p.vetOf types n with _ | x
    · rfl
    · obtain ⟨y, hy⟩ := OrderedMap.exists_of_mem_keys
        (OrderedMap.mem_keys_ofList.2 ⟨_, hfound x hvet, rfl⟩)
      cases hget.symm.trans hy
  · exact (hlisted x (OrderedMap.mem_of_get?_ofList hget)).symm

end Program

namespace Analysis

open Program

variable {p : Program} {types : Types} {settings : Settings} {n m : Node}

/-- What a declaration needs in the call graph is what vetting found. -/
theorem mem_direct_build_iff (h : p.Declared) :
    m ∈ (build p types settings).graph.needs.direct n ↔
      ∃ ns, p.Passes types n ns ∧ m ∈ ns := by
  rw [direct_build, get?_vetAll h]
  unfold Program.Passes
  rcases p.vetOf types n with _ | _ | ns
  · simp
  · simp [Except.toOption]
  · simp [Except.toOption]

/-- A node of the call graph is a declaration. -/
theorem mem_keys_build_iff (h : p.Declared) :
    n ∈ (build p types settings).graph.needs.keys ↔ ∃ x, p.vetOf types n = some x := by
  have hkeys : n ∈ (build p types settings).graph.needs.keys ↔
      n ∈ (OrderedMap.ofList (p.vetAll types)).keys := by
    show n ∈ (OrderedMap.ofList ((p.vetAll types).map _)).keys ↔ _
    simp only [OrderedMap.mem_keys_ofList, List.mem_map, exists_exists_and_eq_and]
  rw [hkeys, ← OrderedMap.get?_isSome_iff, get?_vetAll h, Option.isSome_iff_exists]

/-- The cycles of the call graph are those of declarations that pass vetting. -/
theorem transGen_uses_iff (h : p.Declared) (settings : Settings) :
    TransGen (build p types settings).graph.needs.Uses n n ↔ TransGen (p.Requires types) n n := by
  constructor
  · intro hcycle
    refine TransGen.mono (fun x y hstep => ?_) _ _ (transGen_onward hcycle)
    obtain ⟨huse, z, hz⟩ := hstep
    obtain ⟨ms, hms, -⟩ := (mem_direct_build_iff h).1 (Needs.mem_known.1 hz).1
    exact ⟨(mem_direct_build_iff h).1 (Needs.mem_known.1 huse).1, ms, hms⟩
  · refine TransGen.mono (fun x y hstep => ?_) _ _
    obtain ⟨hneeds, ms, hms⟩ := hstep
    exact Needs.mem_known.2 ⟨(mem_direct_build_iff h).2 hneeds, (mem_keys_build_iff h).2 ⟨_, hms⟩⟩

/-- The recursive declarations. -/
theorem isCyclic_build_iff (h : p.Declared) (settings : Settings) :
    (build p types settings).graph.isCyclic n = true ↔ TransGen (p.Requires types) n n := by
  rw [← transGen_uses_iff h settings, CallGraph.isCyclic, List.contains_iff_mem]
  exact Needs.mem_cyclic_iff (OrderedMap.nodup_keys_ofList _)

/-! ### Verdicts -/

section VerdictOf

variable {graph : CallGraph} {limit : Nat}

/-- A node that needs itself is impure, whatever its text is like. -/
theorem verdictOf_of_cyclic (h : graph.isCyclic n = true) (x : Except Fault (List Node)) :
    verdictOf graph limit n x = .error (.impure (selfNeed n)) := if_pos h

/-- Any other node that does not pass is refused for its text. -/
theorem verdictOf_error (h : ¬ graph.isCyclic n = true) (f : Fault) :
    verdictOf graph limit n (.error f) = .error f := if_neg h

/-- A node that passes is refused only if its calls nest too deep. -/
theorem verdictOf_ok (h : ¬ graph.isCyclic n = true) (ns : List Node) :
    verdictOf graph limit n (.ok ns) =
      if graph.layers.contains n && limit ≤ graph.height n then
        .error (.endless n.name limit .nestedCalls)
      else .ok () := if_neg h

end VerdictOf

/-- To need oneself is no offence of the text. -/
theorem selfNeed_not_isOffence (n : Node) : ¬ (Fault.impure (selfNeed n)).IsOffence := by
  cases n <;> exact id

/-- A declaration is refused for needing itself exactly if it lies on a cycle of declarations that
pass vetting. -/
theorem verdict_eq_selfNeed_iff (h : p.Declared) :
    (build p types settings).verdict n = .error (.impure (selfNeed n)) ↔
      TransGen (p.Requires types) n n := by
  rw [← isCyclic_build_iff h settings, verdict_build, get?_vetAll h]
  constructor
  · intro hverdict
    by_contra hacyclic
    rcases hvet : p.vetOf types n with _ | x
    · rw [hvet] at hverdict
      cases hverdict
    · have hoffence : Offending x :=
        offending_of_mem_vetAll h
          (OrderedMap.mem_of_get?_ofList ((get?_vetAll h types n).trans hvet))
      rw [hvet, Option.map_some, Option.getD_some] at hverdict
      rcases x with f | ns
      · rw [verdictOf_error hacyclic] at hverdict
        cases hverdict
        exact selfNeed_not_isOffence n (hoffence _ rfl)
      · rw [verdictOf_ok hacyclic] at hverdict
        split at hverdict <;> cases hverdict
  · intro hcyclic
    obtain ⟨m, ⟨⟨ns, hns, -⟩, -⟩, -⟩ :=
      TransGen.head'_iff.1 ((isCyclic_build_iff h settings).1 hcyclic)
    rw [hns, Option.map_some, Option.getD_some, verdictOf_of_cyclic hcyclic]

/-- A declaration that passes vetting, leads to a cycle and lies on none is accepted. -/
theorem accepts_of_leads (h : p.Declared) {ns : List Node} (hn : p.Passes types n ns)
    (hleads : ReflTransGen (p.Requires types) n m) (hcycle : TransGen (p.Requires types) m m)
    (hacyclic : ¬ TransGen (p.Requires types) n n) :
    (build p types settings).Accepts n := by
  have hkeys : (build p types settings).graph.needs.keys.Nodup := OrderedMap.nodup_keys_ofList _
  have hunplaced : n ∉ (build p types settings).graph.needs.layers.keys := by
    intro hplaced
    obtain ⟨k, hk⟩ := OrderedMap.exists_of_mem_keys hplaced
    have huses : ReflTransGen (build p types settings).graph.needs.Uses n m := by
      refine ReflTransGen.mono (fun x y hstep => ?_) _ _ hleads
      obtain ⟨hneeds, ms, hms⟩ := hstep
      exact Needs.mem_known.2
        ⟨(mem_direct_build_iff h).2 hneeds, (mem_keys_build_iff h).2 ⟨_, hms⟩⟩
    rcases reflTransGen_iff_eq_or_transGen.1 huses with rfl | huses
    · exact hacyclic hcycle
    · obtain ⟨k', hk', -⟩ := Needs.height_lt_of_transGen hkeys huses hk
      exact Needs.unplaced_of_transGen hkeys ((transGen_uses_iff h settings).2 hcycle)
        (OrderedMap.mem_keys_of_get? hk')
  have hlayers : (build p types settings).graph.layers.contains n = false :=
    Bool.eq_false_iff.2 fun hin => hunplaced (OrderedMap.contains_iff.1 hin)
  rw [Accepts, verdict_build, get?_vetAll h, hn, Option.map_some, Option.getD_some,
    verdictOf_ok fun hcyclic => hacyclic ((isCyclic_build_iff h settings).1 hcyclic), hlayers,
    Bool.false_and]
  rfl

/-- A node is found to be recursive exactly if a chain of needs leads from it back to it; the
search for that chain always ends. And of every program, under all settings, exactly the
declarations on a cycle of declarations that pass vetting are refused for needing themselves; one
that passes and only leads to such a cycle is accepted. -/
theorem recursion_exact :
    (∀ (entries : List (Node × List Node)) (n : Node),
      ((CallGraph.build (.ofList entries)).isCyclic n = true ↔
        n ∈ (OrderedMap.ofList entries).keys ∧ TransGen (Needs.Uses (.ofList entries)) n n) ∧
      Graph.Searches (Needs.direct (.ofList entries)) n
        (Needs.direct (.ofList entries) n).reverse []
        ((CallGraph.build (.ofList entries)).isCyclic n)) ∧
    ∀ (declarations : List Declaration) (types : Types) (settings : Settings) (n : Node),
      let p := Program.declareAll {} declarations
      ((build p types settings).verdict n = .error (.impure (selfNeed n)) ↔
        (∃ ns, p.Passes types n ns) ∧ TransGen (p.Requires types) n n) ∧
      ∀ ns m, p.Passes types n ns → ReflTransGen (p.Requires types) n m →
        TransGen (p.Requires types) m m → ¬ TransGen (p.Requires types) n n →
          (build p types settings).verdict n = .ok () := by
  refine ⟨fun entries n => ?_, fun declarations types settings n => ?_⟩
  · have hkeys := OrderedMap.nodup_keys_ofList entries
    refine ⟨?_, Needs.searches_isCyclic hkeys n⟩
    rw [CallGraph.isCyclic, List.contains_iff_mem]
    refine (Needs.mem_cyclic_iff hkeys).trans ⟨fun hcycle => ⟨?_, hcycle⟩, fun h => h.2⟩
    obtain ⟨m, huse, -⟩ := TransGen.head'_iff.1 hcycle
    exact Needs.mem_keys_of_known huse
  · intro p
    have hdeclared : p.Declared := declared_declareAll declarations
    refine ⟨(verdict_eq_selfNeed_iff hdeclared).trans ⟨fun hcycle => ⟨?_, hcycle⟩, fun h => h.2⟩,
      fun ns m hn hleads hcycle hacyclic => accepts_of_leads hdeclared hn hleads hcycle hacyclic⟩
    obtain ⟨m, ⟨⟨ns, hns, -⟩, -⟩, -⟩ := TransGen.head'_iff.1 hcycle
    exact ⟨ns, hns⟩

end Analysis

end ConstPool
