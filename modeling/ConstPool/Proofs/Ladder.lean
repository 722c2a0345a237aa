import ConstPool.Proofs.Nesting
import ConstPool.Proofs.Resolve

/-!
# Programs that lead deep chains

A program of functions without parameters, each of which calls the next one. The last one calls
itself and is refused for it. None of the others is, and none has a place in the order, because
what it leads to has none. So there is an accepted chain of any length under any limit.

The ladder is the counterexample to bounds that look as if they should hold. The analysis refuses
recursion where it finds it, in the declaration that needs itself, and measures heights only where
it has an order. What is between them is accepted without a height, so nothing but the limit on the
depth of chains ever stops its calls, and it does so while they run.

* `Ladder.program`: the program.
* `Ladder.accepts_iff`, `Ladder.stacked_le`: which functions are accepted, and how long chains are.
* `Ladder.resolve_rung`: what the call of one of them comes to.
-/

namespace ConstPool.Ladder

open Relation

/-! ### The program -/

/-- The name of a function. -/
def rung (i : Nat) : String := String.ofList (List.replicate (i + 1) 'f')

/-- A function that calls the next one, and itself if it is the last. -/
def function (top i : Nat) : FunctionDecl where
  name := rung i
  params := []
  body := .call (rung (min (i + 1) top)) [] []
  placement := .topLevel

/-- The declarations of the functions, the first one first. -/
def declarations (top : Nat) : List Declaration :=
  (List.range (top + 1)).map fun i => .function (function top i)

/-- The program. -/
def program (top : Nat) : Program := Program.declareAll {} (declarations top)

/-- Different rungs have different names. -/
theorem rung_injective : Function.Injective rung := by
  intro i j h
  have hlists := congrArg (fun s => s.toList.length) h
  simpa [rung] using hlists

/-- Two rungs have one name exactly if they are the same. -/
@[simp] theorem rung_inj {i j : Nat} : rung i = rung j ↔ i = j := rung_injective.eq_iff

/-- Nothing has been declared but the first functions. -/
structure Declares (top n : Nat) (p : Program) : Prop where
  functions : ∀ name f, p.functions.get? name = some f ↔
    ∃ i < n, name = rung i ∧ f = function top i
  globals : p.globals = .empty
  plainFunctions : p.plainFunctions = .empty
  plainVariables : p.plainVariables = .empty

/-- One function more. -/
theorem Declares.declare {top n : Nat} {p : Program} (h : Declares top n p) :
    ∃ q, p.declare (.function (function top n)) = .ok q ∧ Declares top (n + 1) q := by
  -- every name that is taken is a lower rung
  have hnew : p.functions.contains (rung n) = false := by
    rw [OrderedMap.contains_eq, Option.isSome_eq_false_iff, Option.isNone_iff_eq_none]
    rcases hget : p.functions.get? (rung n) with _ | f
    · rfl
    · obtain ⟨i, hi, hname, -⟩ := (h.functions _ _).1 hget
      rw [rung_inj] at hname
      omega
  have hfree : p.isTaken (rung n) = false := by
    rw [Program.isTaken, hnew, h.globals, h.plainFunctions, h.plainVariables]
    rfl
  refine ⟨{ p with functions := p.functions.insert (rung n) (function top n) }, ?_, ?_⟩
  · have hname : (function top n).qualifiedName = rung n := rfl
    rw [Program.declare, Program.declareFunction, hname]
    simp only [Program.ensureFree, hfree]
    rfl
  · refine ⟨fun name f => ?_, h.globals, h.plainFunctions, h.plainVariables⟩
    rw [OrderedMap.get?_insert]
    split
    · next heq =>
      subst heq
      constructor
      · intro hf
        exact ⟨n, Nat.lt_succ_self n, rfl, (Option.some.inj hf).symm⟩
      · rintro ⟨i, -, hname, rfl⟩
        rw [rung_inj] at hname
        rw [hname]
    · next hne =>
      rw [h.functions]
      constructor
      · rintro ⟨i, hi, hname⟩
        exact ⟨i, Nat.lt_succ_of_lt hi, hname⟩
      · rintro ⟨i, hi, hname, hf⟩
        refine ⟨i, ?_, hname, hf⟩
        rcases Nat.lt_succ_iff_lt_or_eq.1 hi with hi | rfl
        · exact hi
        · exact absurd hname hne

/-- The program declares its rungs up to the top one. -/
theorem declares (top : Nat) : Declares top (top + 1) (program top) := by
  have hall : ∀ n, Declares top n (Program.declareAll {}
      ((List.range n).map fun i => .function (function top i))) := by
    intro n
    induction n with
    | zero =>
      refine ⟨fun name f => ?_, rfl, rfl, rfl⟩
      simp [Program.declareAll]
    | succ n ih =>
      obtain ⟨q, hq, hdeclares⟩ := ih.declare
      have hlast : Program.declareAll {} ((List.range (n + 1)).map fun i =>
          Declaration.function (function top i)) = q := by
        rw [List.range_succ, List.map_append, Program.declareAll, List.foldl_append]
        rw [Program.declareAll] at hq
        simp only [List.map_cons, List.map_nil, List.foldl_cons, List.foldl_nil, hq]
        rfl
      rw [hlast]
      exact hdeclares
  exact hall (top + 1)

variable {top i : Nat}

/-- Each rung up to the top is declared as the function that calls the next. -/
theorem get?_rung (hi : i ≤ top) :
    (program top).functions.get? (rung i) = some (function top i) :=
  ((declares top).functions _ _).2 ⟨i, Nat.lt_succ_of_le hi, rfl, rfl⟩

/-- Vetting finds that every function needs the next one. -/
theorem vet_function (types : Types) :
    (function top i).vet (program top) types = .ok [.function (rung (min (i + 1) top))] := by
  have hget := get?_rung (Nat.min_le_right (i + 1) top)
  simp only [FunctionDecl.vet, function, Expr.vet, Surroundings.vetCallee,
    FunctionDecl.surroundings, hget]
  rfl

/-! ### What the analysis makes of it -/

variable (top : Nat) (types : Types) (settings : Settings)

/-- The analysis of the program. -/
def analysis : Analysis := .build (program top) types settings

/-- The analysis of the program is sound. -/
theorem sound : (analysis top types settings).Sound :=
  Analysis.sound_build (Program.declared_declareAll _) types settings

/-- What has been vetted is a function of the program, and it passed. -/
theorem get?_vetAll {n : Node} {x : Except Fault (List Node)} :
    (OrderedMap.ofList ((program top).vetAll types)).get? n = some x ↔
      ∃ i ≤ top, n = .function (rung i) ∧ x = .ok [.function (rung (min (i + 1) top))] := by
  have hp := Program.declared_declareAll (declarations top)
  have hcases : ∀ {n x}, (n, x) ∈ (program top).vetAll types →
      ∃ i ≤ top, n = .function (rung i) ∧ x = .ok [.function (rung (min (i + 1) top))] := by
    intro n x hmem
    rcases Analysis.cases_of_mem_vetAll hp hmem with ⟨name, f, rfl, hf, rfl⟩ | ⟨_, v, -, hv, -⟩
    · obtain ⟨i, hi, rfl, rfl⟩ := ((declares top).functions _ _).1 hf
      exact ⟨i, Nat.le_of_lt_succ hi, rfl, vet_function types⟩
    · rw [show (Program.declareAll {} (declarations top)).globals = .empty from
        (declares top).globals] at hv
      cases hv
  constructor
  · exact fun h => hcases (OrderedMap.mem_of_get?_ofList h)
  · rintro ⟨i, hi, rfl, rfl⟩
    have hmem : (Node.function (rung i), (function top i).vet (program top) types) ∈
        (program top).vetAll types := by
      refine List.mem_append_left _ (List.mem_map.2 ⟨(rung i, function top i), ?_, rfl⟩)
      exact OrderedMap.mem_entries_of_get? (get?_rung hi)
    obtain ⟨x, hx⟩ := OrderedMap.exists_of_mem_keys
      (OrderedMap.mem_keys_ofList.2 ⟨_, hmem, rfl⟩)
    obtain ⟨j, hj, hname, rfl⟩ := hcases (OrderedMap.mem_of_get?_ofList hx)
    rw [Node.function.injEq, rung_inj] at hname
    rw [hx, hname]

variable {top types settings} {n m : Node} {i : Nat}

/-- What a function uses is the next one. -/
theorem uses_iff : (analysis top types settings).graph.needs.Uses n m ↔
    ∃ i ≤ top, n = .function (rung i) ∧ m = .function (rung (min (i + 1) top)) := by
  -- the names in the graph are those of the rungs
  have hkeys : ∀ {n}, n ∈ (analysis top types settings).graph.needs.keys ↔
      ∃ i ≤ top, n = .function (rung i) := by
    intro n
    rw [← OrderedMap.get?_isSome_iff]
    show ((Analysis.needsOf ((program top).vetAll types)).get? n).isSome ↔ _
    rw [Analysis.needsOf, OrderedMap.get?_ofList_map fun _ x => (Except.toOption x).getD [],
      Option.isSome_map, Option.isSome_iff_exists]
    constructor
    · rintro ⟨x, hx⟩
      obtain ⟨i, hi, hn, -⟩ := (get?_vetAll top types).1 hx
      exact ⟨i, hi, hn⟩
    · rintro ⟨i, hi, hn⟩
      exact ⟨_, (get?_vetAll top types).2 ⟨i, hi, hn, rfl⟩⟩
  rw [Needs.Uses, Needs.mem_known, analysis, Analysis.direct_build]
  constructor
  · rintro ⟨hmem, -⟩
    rcases hget : (OrderedMap.ofList ((program top).vetAll types)).get? n with _ | x
    · rw [hget] at hmem
      cases hmem
    · obtain ⟨i, hi, hn, rfl⟩ := (get?_vetAll top types).1 hget
      rw [hget] at hmem
      exact ⟨i, hi, hn, List.mem_singleton.1 hmem⟩
  · rintro ⟨i, hi, rfl, rfl⟩
    refine ⟨?_, hkeys.2 ⟨_, Nat.min_le_right _ _, rfl⟩⟩
    rw [(get?_vetAll top types).2 ⟨i, hi, rfl, rfl⟩]
    exact List.mem_singleton.2 rfl

/-- From a function that is not the last one the uses lead upwards. -/
theorem lt_of_transGen (hi : i < top)
    (h : TransGen (analysis top types settings).graph.needs.Uses (.function (rung i)) m) :
    ∃ j ≤ top, i < j ∧ m = .function (rung j) := by
  induction h with
  | single huse =>
    obtain ⟨j, -, hname, rfl⟩ := uses_iff.1 huse
    rw [Node.function.injEq, rung_inj] at hname
    exact ⟨_, Nat.min_le_right _ _, by omega, rfl⟩
  | tail _ huse ih =>
    obtain ⟨j, hj, hlt, rfl⟩ := ih
    obtain ⟨j', -, hname, rfl⟩ := uses_iff.1 huse
    rw [Node.function.injEq, rung_inj] at hname
    exact ⟨_, Nat.min_le_right _ _, by omega, rfl⟩

/-- The last function alone needs itself. -/
theorem mem_cyclic_iff (hi : i ≤ top) :
    Node.function (rung i) ∈ (analysis top types settings).graph.cyclic ↔ i = top := by
  rw [(sound top types settings).cyclic, Needs.mem_cyclic_iff (sound top types settings).keys]
  constructor
  · intro h
    by_contra hne
    obtain ⟨j, -, hlt, hname⟩ := lt_of_transGen (by omega) h
    rw [Node.function.injEq, rung_inj] at hname
    omega
  · rintro rfl
    refine .single (uses_iff.2 ⟨i, hi, rfl, ?_⟩)
    rw [Nat.min_eq_right (Nat.le_succ i)]

/-- No function has a place: the next one would have a smaller height. -/
theorem unplaced (hi : i ≤ top) :
    (analysis top types settings).graph.layers.contains (.function (rung i)) = false := by
  have hnone : ∀ h i, i ≤ top →
      (analysis top types settings).graph.layers.get? (.function (rung i)) ≠ some h := by
    intro h
    induction h using Nat.strongRecOn with
    | ind h ih =>
      intro i hi hget
      rw [(sound top types settings).layers] at hget
      obtain ⟨h', hget', hlt⟩ := Needs.height_lt (sound top types settings).keys hget
        (uses_iff.2 ⟨i, hi, rfl, rfl⟩)
      rw [← (sound top types settings).layers] at hget'
      exact ih h' hlt _ (Nat.min_le_right _ _) hget'
  rw [OrderedMap.contains_eq, Option.isSome_eq_false_iff, Option.isNone_iff_eq_none]
  rcases hget : (analysis top types settings).graph.layers.get? (.function (rung i)) with _ | h
  · rfl
  · exact absurd hget (hnone h i hi)

/-- Every function is accepted but the last one, which is refused for needing itself. -/
theorem verdict_rung (hi : i ≤ top) :
    (analysis top types settings).verdict (.function (rung i)) =
      if i = top then .error (.impure (.recursive (rung i))) else .ok () := by
  have hget := (get?_vetAll top types).2 ⟨i, hi, rfl, rfl⟩
  rw [analysis, Analysis.verdict_build, hget]
  simp only [Option.map_some, Option.getD_some, Analysis.verdictOf]
  have hcyclic : (Analysis.build (program top) types settings).graph.isCyclic
      (.function (rung i)) = decide (i = top) := by
    rw [CallGraph.isCyclic, Bool.eq_iff_iff, List.contains_iff_mem, decide_eq_true_eq]
    exact mem_cyclic_iff hi
  have hplaced : (Analysis.build (program top) types settings).graph.layers.contains
      (.function (rung i)) = false := unplaced hi
  rw [hcyclic, hplaced]
  by_cases hlast : i = top
  · rw [if_pos hlast, decide_eq_true hlast, if_pos rfl]
    rfl
  · rw [if_neg hlast, decide_eq_false hlast]
    rfl

/-- The accepted declarations are the functions but the last one. -/
theorem accepts_iff : (analysis top types settings).Accepts n ↔
    ∃ i < top, n = .function (rung i) := by
  constructor
  · intro h
    obtain ⟨ns, hmem, -⟩ := Analysis.passed_of_accepts h
    obtain ⟨x, hx⟩ := OrderedMap.exists_of_mem_keys
      (OrderedMap.mem_keys_ofList.2 ⟨_, hmem, rfl⟩)
    obtain ⟨i, hi, rfl, -⟩ := (get?_vetAll top types).1 hx
    rw [Analysis.Accepts, verdict_rung hi] at h
    refine ⟨i, Nat.lt_of_le_of_ne hi fun hlast => ?_, rfl⟩
    rw [if_pos hlast] at h
    cases h
  · rintro ⟨i, hi, rfl⟩
    rw [Analysis.Accepts, verdict_rung (Nat.le_of_lt hi), if_neg (Nat.ne_of_lt hi)]

/-- A chain of accepted functions has no more members than there are accepted functions. -/
theorem stacked_le {k : Nat} (h : (analysis top types settings).Stacked k n) :
    ∃ i < top, n = .function (rung i) ∧ k ≤ i + 1 := by
  induction h with
  | one haccepts =>
    obtain ⟨i, hi, rfl⟩ := accepts_iff.1 haccepts
    exact ⟨i, hi, rfl, by omega⟩
  | next _ hinvokes ih =>
    obtain ⟨i, hi, rfl, hle⟩ := ih
    obtain ⟨j, hj, rfl⟩ := accepts_iff.1 hinvokes.accepts'
    obtain ⟨j', -, hname, hnext⟩ := uses_iff.1 (hinvokes.uses (sound top types settings))
    rw [Node.function.injEq, rung_inj] at hname hnext
    exact ⟨j, hj, rfl, by omega⟩

/-! ### Calls -/

/-- The call of a function. -/
def call (top i : Nat) : Request ValueId Atom := .call (function top i) [] []

/-- The call of a function comes down to its body, unless the function is refused. -/
theorem bodyOf_call (hi : i ≤ top) : (analysis top types settings).bodyOf (call top i) =
    if i = top then .error (.impure (.recursive (rung i)))
    else .ok (.call (rung (min (i + 1) top)) [] []) := by
  have hname : (function top i).qualifiedName = rung i := rfl
  simp only [call, Analysis.bodyOf, hname, verdict_rung hi]
  split <;> rfl

/-- A body fails as the call in it does. -/
theorem run_body (env : Env) (hp : env.analysis.program = program top)
    (hbudget : 0 < env.analysis.settings.stepBudget) {j : Nat} (hj : j ≤ top) {s s' : Stock}
    {f : Fault} (h : (env.request (call top j)).outcome s = (.error f, s')) :
    (env.run (.call (rung j) [] [])).outcome s = (.error f, s') := by
  have hrun := Work.eq_error_of_outcome h
  have hcallee : env.analysis.callee env.owner (rung j) = .ok (function top j) := by
    rw [Analysis.callee, hp, get?_rung hj]
  have heval : (Expr.call (rung j) [] []).eval env
      ⟨s, [.empty], env.analysis.settings.stepBudget⟩ =
        .error (.fault f) ⟨s', [.empty], env.analysis.settings.stepBudget - 1⟩ := by
    rw [call] at hrun
    rw [Expr.eval]
    simp only [Eval.spend, Nat.succ_le_of_lt hbudget, if_true, hcallee, evalTypes, evalArgs,
      Env.fetch, Eval.ofExcept, Eval.onStock, bind, EStateM.bind, pure, EStateM.pure, hrun]
  unfold Work.outcome Env.run Env.finish
  rw [heval]

/-- What the calls end with if the function `k` is the first that may not run any more. -/
def fate (top limit k : Nat) : Fault :=
  if k < top then .breach (.outsideCallGraph (rung k) limit) else .impure (.recursive (rung top))

/-- So many bodies run, and they are none of the functions from `i` on. -/
structure Free (parent : Option Chain) (i depth : Nat) : Prop where
  depth : ∀ name, (Chain.extend parent name).depth = depth
  free : ∀ j, i ≤ j → (parent.any fun c => c.contains (rung j)) = false

/-- At the beginning no body runs. -/
theorem Free.none (i : Nat) : Free .none i 0 := ⟨fun _ => rfl, fun _ _ => rfl⟩

/-- One more body runs, and the functions above it are still free. -/
theorem Free.extend {parent : Option Chain} {depth : Nat} (h : Free parent i depth) :
    Free (some (Chain.extend parent (rung i))) (i + 1) (depth + 1) where
  depth name := congrArg (· + 1) (h.depth (rung i))
  free j hj := by
    have hne : rung i ≠ rung j := by
      rw [Ne, rung_inj]
      omega
    have hfree := h.free j (by omega)
    cases parent with
    | none => simp [Chain.contains, Chain.extend, hne]
    | some c =>
      rw [Option.any_some, Chain.contains, Bool.or_eq_false_iff, decide_eq_false_iff_not] at hfree
      simp only [Option.any_some, Chain.contains, Chain.extend, hne, decide_false, Bool.false_or,
        List.contains_cons, hfree.2, Bool.or_false, beq_eq_false_iff_ne, ne_eq]
      exact fun heq => hfree.1 heq.symm

/-- The calls of different functions have different cells. -/
theorem key_call_inj {j : Nat} : (call top i).key = (call top j).key ↔ i = j := by
  show MemoKey.call (rung i) [] = .call (rung j) [] ↔ i = j
  rw [MemoKey.call.injEq, and_iff_left rfl, rung_inj]

/-- The call of the last function is refused, whatever is running. -/
theorem resolve_last (callsLeft : Nat) (parent : Option Chain) (s : Stock) :
    ((analysis top types settings).resolve callsLeft parent (call top top)).outcome s =
      (.error (.impure (.recursive (rung top))), s) := by
  refine Analysis.outcome_resolve_of_error ?_
  rw [bodyOf_call (Nat.le_refl top), if_pos rfl]

/-- The call of another function fails as the call of the next one does, and its cell keeps that. -/
theorem resolve_next (hbudget : 0 < settings.stepBudget) {callsLeft depth : Nat}
    {parent : Option Chain} {s s' : Stock} {f : Fault} (hfree : Free parent i depth) (hi : i < top)
    (hcell : s.memo.cells.get? (call top i).key = none)
    (hnext : ((analysis top types settings).resolve callsLeft (some (Chain.extend parent (rung i)))
        (call top (i + 1))).outcome { s with memo := s.memo.start (call top i).key } =
      (.error f, s')) :
    ((analysis top types settings).resolve (callsLeft + 1) parent (call top i)).outcome s =
      (.error f, { s' with memo := s'.memo.finish (call top i).key (.error f) }) := by
  have hpasses : (analysis top types settings).bodyOf (call top i) =
      .ok (.call (rung (i + 1)) [] []) := by
    rw [bodyOf_call (Nat.le_of_lt hi), if_neg (Nat.ne_of_lt hi), Nat.min_eq_left hi]
  have hbody := run_body ⟨analysis top types settings, Chain.extend parent (rung i),
    (call top i).params .ref,
    (analysis top types settings).resolve callsLeft (some (Chain.extend parent (rung i)))⟩
    rfl hbudget hi hnext
  rw [Analysis.resolve_of_passes (r := call top i) hpasses (hfree.free i (Nat.le_refl i)),
    Work.outcome_remember_of_none hcell]
  exact congrArg (fun x : Outcome × Stock =>
    (x.1, { x.2 with memo := x.2.memo.finish (call top i).key x.1 })) hbody

/-- The calls from a function on all end alike: in a breach if the limit is reached before the last
function is, and else in its refusal. Every function that ran keeps that for its result. -/
theorem resolve_rung (hbudget : 0 < settings.stepBudget) {callsLeft depth : Nat}
    {parent : Option Chain} {s : Stock} (hfree : Free parent i depth)
    (hcalls : callsLeft + depth = settings.maxCallDepth) (hi : i ≤ top)
    (hcells : ∀ j, i ≤ j → s.memo.cells.get? (call top j).key = none) :
    ∃ s', ((analysis top types settings).resolve callsLeft parent (call top i)).outcome s =
        (.error (fate top settings.maxCallDepth (i + callsLeft)), s') ∧
      ∀ j, i ≤ j → j < i + callsLeft → j < top → s'.memo.cells.get? (call top j).key =
        some (.done (.error (fate top settings.maxCallDepth (i + callsLeft)))) := by
  induction callsLeft generalizing i depth parent s with
  | zero =>
    refine ⟨s, ?_, fun j hj hlt => by omega⟩
    rcases Nat.eq_or_lt_of_le hi with rfl | hlt
    · rw [resolve_last, fate, if_neg (by omega)]
    · have hbody : (analysis top types settings).bodyOf (call top i) = _ := bodyOf_call hi
      rw [if_neg (Nat.ne_of_lt hlt)] at hbody
      rw [Analysis.outcome_resolve_zero hbody, hfree.depth, Nat.add_zero, fate, if_pos hlt,
        ← hcalls, Nat.zero_add]
      rfl
  | succ callsLeft ih =>
    rcases Nat.eq_or_lt_of_le hi with rfl | hlt
    · refine ⟨s, ?_, fun j hj _ hlt => by omega⟩
      rw [resolve_last, fate, if_neg (by omega)]
    · have hstart : ∀ j, i + 1 ≤ j →
          (s.memo.start (call top i).key).cells.get? (call top j).key = none := by
        intro j hj
        have hne : (call top j).key ≠ (call top i).key := fun heq => by
          have := key_call_inj.1 heq
          omega
        rw [Memo.start, Dict.get?_insert_of_ne _ hne]
        exact hcells j (by omega)
      obtain ⟨s', hrun, hdone⟩ := ih (s := { s with memo := s.memo.start (call top i).key })
        hfree.extend (by omega) hlt hstart
      -- the limit is reached at the same rung, seen from here or from the next one
      rw [Nat.add_right_comm i 1, Nat.add_assoc i] at hrun hdone
      refine ⟨_, resolve_next hbudget hfree hlt (hcells i (Nat.le_refl i)) hrun,
        fun j hj hj' htop => ?_⟩
      rw [Memo.finish, Dict.get?_insert]
      split
      · rfl
      · next hne =>
        have hij : i ≠ j := fun heq => hne (key_call_inj.2 heq).symm
        exact hdone j (by omega) hj' htop

/-- A call from outside, if none of the functions from there on has been called before. -/
theorem invoke_rung (top : Nat) (types : Types) (settings : Settings)
    (hbudget : 0 < settings.stepBudget) (hi : i ≤ top) {s : Stock}
    (hcells : ∀ j, i ≤ j → s.memo.cells.get? (call top j).key = none) :
    ∃ s', ((analysis top types settings).invoke (call top i)).outcome s =
        (.error (fate top settings.maxCallDepth (i + settings.maxCallDepth)), s') ∧
      ∀ j, i ≤ j → j < i + settings.maxCallDepth → j < top →
        s'.memo.cells.get? (call top j).key =
          some (.done (.error (fate top settings.maxCallDepth (i + settings.maxCallDepth)))) :=
  resolve_rung hbudget (.none i) (Nat.add_zero _) hi hcells

/-- A ladder that is one function higher than the limit. -/
def tall (limit : Nat) : Analysis :=
  analysis (limit + 1) .empty { stepBudget := 1, maxCallDepth := limit }

/-- The calls of a tall ladder on an empty stock. -/
theorem invoke_tall {limit : Nat} (hi : i ≤ limit + 1) :
    ∃ s', ((tall limit).invoke (call (limit + 1) i)).outcome {} =
        (.error (fate (limit + 1) limit (i + limit)), s') ∧
      ∀ j, i ≤ j → j < i + limit → j < limit + 1 →
        s'.memo.cells.get? (call (limit + 1) j).key =
          some (.done (.error (fate (limit + 1) limit (i + limit)))) :=
  invoke_rung (limit + 1) .empty { stepBudget := 1, maxCallDepth := limit } Nat.one_pos hi
    fun _ _ => Dict.get?_empty _

end ConstPool.Ladder
