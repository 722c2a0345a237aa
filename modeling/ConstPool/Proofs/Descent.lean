import ConstPool.Proofs.Heights
import ConstPool.Proofs.Visits

/-!
# Calls descend the call graph

A function of the order that is accepted is called from outside. Whatever its body requests, and
whatever is requested on the way, is lower than the body that requests it: vetting has found all
that a body requests, and the heights fall along the needs. So there are never more bodies running
than there are heights below the function. The chain of names stays shorter than the settings allow,
and no name comes twice.

The heights are found before anything runs, and the chain grows while bodies run. They are tied
together by the sum of the length of the chain and the height of what is requested, which never
grows.

A visit is one request in the run of another one. The statement is about all visits that are found
in a call from outside, at whatever depth, and it is proved from a step: what a body passes on to
the requests that it issues itself. The step knows three things. The request is for a need of the
declaration, since the body has passed. A need of a node with a place has a smaller height. And the
chain grows by one name when a body begins. So the sum is at most the height of the root, which is
below the limit.

* `Visit.Descends`: what a visit has to do with the root.
* `Visit.Placed.nested`: one body passes it on to what it requests.
* `Analysis.descends_of_ordered`: it holds of all visits within a call from outside.
-/

namespace ConstPool

variable {a : Analysis} {root n m : Node} {v : Visit} {body : Expr}

/-! ### Heights -/

namespace Analysis

/-- What a node of the order invokes is in the order, and it is lower. -/
theorem Sound.height_lt (hs : a.Sound) (hn : n ∈ a.graph.order) (hm : a.Invokes n m) :
    m ∈ a.graph.order ∧ a.graph.height m < a.graph.height n := by
  obtain ⟨k, hk⟩ := OrderedMap.exists_of_mem_keys hn
  have hplaced := hk
  rw [hs.layers] at hplaced
  obtain ⟨k', hk', hlt⟩ := Needs.height_lt hs.keys hplaced (hm.uses hs)
  rw [← hs.layers] at hk'
  refine ⟨OrderedMap.mem_keys_of_get? hk', ?_⟩
  simp only [CallGraph.height, hk, hk']
  exact hlt

/-- An accepted node of the order is lower than calls may be nested. -/
theorem Sound.height_lt_limit (hs : a.Sound) (haccepts : a.Accepts n) (hn : n ∈ a.graph.order) :
    a.graph.height n < a.settings.maxCallDepth := by
  obtain ⟨k, hk⟩ := OrderedMap.exists_of_mem_keys hn
  simp only [CallGraph.height, hk]
  exact hs.low haccepts hk

end Analysis

/-! ### Visits -/

namespace Visit

/-- What a visit that passes its checks has to do with the root within which it lies. -/
structure Descends (a : Analysis) (root : Node) (v : Visit) : Prop where
  /-- What is requested is lower than what has requested it. -/
  lower : ∀ caller, v.caller = some caller → a.graph.height v.request.node < a.graph.height caller
  /-- The depth of its body is at most the height of the root less its own. -/
  level : v.next.depth + a.graph.height v.request.node ≤ a.graph.height root
  /-- The settings allow the depth. -/
  allowed : v.next.depth < a.settings.maxCallDepth
  /-- Its name is not in the chain. -/
  new : (v.chain.any fun c => c.contains v.request.node.name) = false

/-- A visit that passes its checks, among the bodies that run. -/
structure Placed (a : Analysis) (root : Node) (v : Visit) : Prop extends Descends a root v where
  ordered : v.request.node ∈ a.graph.order
  ready : ∃ above, a.Nested above v.chain ∧ a.Ready above v.request.node

/-- What is known of every visit within a call from outside, whether it passes or not. -/
structure Below (a : Analysis) (root : Node) (v : Visit) : Prop where
  declared : v.request.Declared a.program
  placed : (∃ body, a.bodyOf v.request = .ok body) → v.Placed a root

/-- What the body of a visit requests is placed as well, if it passes. -/
theorem Placed.nested (hs : a.Sound) (hlimit : a.graph.height root < a.settings.maxCallDepth)
    (hv : v.Placed a root) {r : Request ValueId Atom} {s : Stock}
    (hr : a.Invokes v.request.node r.node) : (v.nested r s).Placed a root := by
  obtain ⟨hordered, hlt⟩ := hs.height_lt hv.ordered hr
  obtain ⟨above, habove, hready⟩ := hv.ready
  have hrunning : a.Nested (v.request.node :: above) (some v.next) := .body habove hready
  have hready' : a.Ready (v.request.node :: above) r.node := hrunning.ready hr
  -- The depth grows by one, and the height falls by one at least.
  have hdepth : (v.nested r s).next.depth = v.next.depth + 1 := rfl
  have hlevel : (v.nested r s).next.depth + a.graph.height r.node ≤ a.graph.height root := by
    have := hv.level
    omega
  refine ⟨⟨fun caller hcaller => ?_, hlevel, by omega, ?_⟩, hordered, _, hrunning, hready'⟩
  · cases hcaller
    exact hlt
  · refine Bool.eq_false_iff.2 fun hin => ?_
    exact hrunning.new hs hready' (hrunning.exists_of_contains hin)

end Visit

/-! ### Bodies -/

namespace Analysis

/-- A body requests nothing but what it needs, as it is declared. -/
theorem Sound.always_needs (hs : a.Sound) {r : Request ValueId Atom} (hr : r.Passes a body)
    (chain : Chain) (callsLeft : Nat) (s : Stock) :
    Env.Always ⟨a, chain, r.params .ref, a.resolve callsLeft (some chain)⟩
      (fun r' _ => r'.node ∈ a.graph.needs.direct r.node ∧ r'.Declared a.program) body s := by
  obtain ⟨surroundings, hseen⟩ := hr.seen hs
  have hneeds : Env.Always ⟨a, chain, r.params .ref, a.resolve callsLeft (some chain)⟩
      (fun r' _ => r'.node ∈ a.graph.needs.direct r.node ∧ r'.Fits a.program) body s :=
    Env.always_of_run_eq hs.program fun request' hsame =>
      hseen.run_answeredBy hs chain (fun r' hneeds hfits => funext (hsame r' · ⟨hneeds, hfits⟩)) s
  exact hneeds.mono fun r' _ hr' => ⟨hr'.1, Request.Fits.declared hr'.2⟩

/-- A function of the order that is accepted is called from outside, with any arguments and on any
stock. Every request that passes its checks while the call is answered, the call itself included, is
for something lower than what has requested it, at a depth of at most the height of the function
less its own, so below the limit of the settings, and it is never for a name in its chain. -/
theorem descends_of_ordered (declarations : List Declaration) (modelled : Types)
    (settings : Settings) {f : FunctionDecl} (types : List ValueId) (args : List Atom) (s : Stock)
    (hf : (Program.declareAll {} declarations).functions.get? f.qualifiedName = some f) :
    let a := Analysis.build (.declareAll {} declarations) modelled settings
    .function f.qualifiedName ∈ a.graph.order → a.verdict (.function f.qualifiedName) = .ok () →
      a.ThroughoutOf
        (fun v => (∃ body, a.bodyOf v.request = .ok body) →
          v.Descends a (.function f.qualifiedName)) (.call f types args) s := by
  intro a hordered haccepts
  have hs : a.Sound := sound_build (Program.declared_declareAll declarations) modelled settings
  have hlimit := hs.height_lt_limit haccepts hordered
  have hroot : Visit.Below a (.function f.qualifiedName) ⟨none, none, .call f types args, s⟩ := by
    refine ⟨hf, fun _ => ⟨⟨?_, ?_, ?_, rfl⟩, hordered, [], .none, .of_accepts haccepts⟩⟩
    · exact fun caller hcaller => nomatch hcaller
    · exact (Nat.zero_add _).le
    · exact Nat.zero_lt_of_lt hlimit
  refine throughout_of_step (Q := fun _ v => v.Below a (.function f.qualifiedName))
    (fun _ v hv hbody => (hv.placed hbody).toDescends) (fun callsLeft v body hv hruns => ?_) hroot
  refine (hs.always_needs ⟨hv.declared, hruns.passes⟩ _ callsLeft _).mono fun r s' hr => ?_
  refine ⟨hr.2, fun ⟨_, hbody⟩ => (hv.placed ⟨body, hruns.passes⟩).nested hs hlimit ?_⟩
  exact ⟨Request.accepts_of_bodyOf hruns.passes, hr.1, Request.accepts_of_bodyOf hbody⟩

/-- The function that adds a variable to one. -/
def successor : FunctionDecl where
  name := "successor"
  params := []
  body := .binary .add (.call "unit" [] []) (.name "base")
  placement := .topLevel

/-- A function above a variable and another function, which the variable needs as well. -/
def stairs : List Declaration :=
  [.function ⟨"unit", [], .scalar (.int 1), .topLevel⟩, .variable ⟨"base", .call "unit" [] []⟩,
    .function successor]

/-- The function stands at height two. Its call asks for what stands on the ground, so there are
visits within it, and all of them descend. -/
theorem descends_of_ordered_successor :
    let a := Analysis.build (.declareAll {} stairs) .empty {}
    (.function "successor" ∈ a.graph.order ∧ a.verdict (.function "successor") = .ok ()) ∧
      a.graph.height (.function "successor") = 2 ∧
      ¬ a.ThroughoutOf (fun v => v.request.node ≠ .function "unit") (.call successor [] []) {} ∧
      a.ThroughoutOf
        (fun v => (∃ body, a.bodyOf v.request = .ok body) → v.Descends a (.function "successor"))
        (.call successor [] []) {} := by
  intro a
  have hordered : .function "successor" ∈ a.graph.order := by decide +kernel
  have haccepts : a.verdict (.function "successor") = .ok () := by rfl
  refine ⟨⟨hordered, haccepts⟩, by rfl, fun h => ?_,
    descends_of_ordered stairs .empty {} [] [] {} rfl hordered haccepts⟩
  have hempty := h.2 successor.body ⟨rfl, rfl, rfl⟩
    (fun r _ => if r.node = .function "unit" then [.found r (.ok ⟨0⟩)] else [])
    fun r s hr => if_neg hr.here
  exact absurd (congrArg List.isEmpty hempty) (by decide +kernel)

end Analysis

end ConstPool
