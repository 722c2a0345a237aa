import ConstPool.Proofs.Graph.Breadth
import ConstPool.Uses.Live

/-!
# What is live

The uses after a sequence of records are its members, each once and in the order of their first
occurrence, whatever is recorded again in between. The search for live constants goes by what every
constant uses, so it finds the constants that can be reached from the roots by recorded uses among
constants, each with its distance. Sites are no vertices of this graph; they only say where the
roots are.

The records are a sequence of pairs of a user and a constant. A user is a site or a constant. To
record a pair again changes nothing, and the targets of a user are read off the edges in the order
in which they came. The search takes the roots of the given sites and goes on level by level; that
a queue, which takes constant by constant, meets the same constants at the same distances is proved
with the walk (`Graph.sweeps_start_iff`). So the depth that the search gives is the length of a
shortest way.

* `Uses.needs_iff_leads`: what the search follows is what was recorded.
* `Live.Exact`: what the search answers, in terms of the records.
* `Uses.reachability_exact`: it does so for every sequence of records and all roots.
-/

namespace ConstPool

open Relation

/-! ### Sets from sequences -/

namespace OrderedSet

variable {α : Type} [DecidableEq α] [Key α]

/-- Inserting one after another adds what is new, each at its first occurrence. -/
theorem toList_foldl_insert {seen : Dict α Unit} {s : OrderedSet α}
    (h : ∀ x, seen.contains x ↔ x ∈ s.items) (xs : List α) :
    (xs.foldl insert s).toList = s.toList ++ Graph.fresh seen xs := by
  induction xs generalizing seen s with
  | nil => simp [Graph.fresh]
  | cons x xs ih =>
    rw [List.foldl_cons, Graph.fresh]
    by_cases hx : x ∈ s.items
    · rw [insert_of_mem hx, if_pos ((h x).2 hx), ih h]
    · have hseen : ∀ y, (seen.insert x ()).contains y ↔ y ∈ (s.insert x).items := by
        intro y
        rw [mem_items_insert, Dict.contains_insert, Bool.or_eq_true, decide_eq_true_iff, h, or_comm]
      have hitems : (s.insert x).toList = s.toList ++ [x] := by
        rw [toList, items_insert_of_not_mem hx, Array.toList_push, toList]
      rw [if_neg fun hc => hx ((h x).1 hc), ih hseen, hitems, List.append_assoc,
        List.singleton_append]

end OrderedSet

namespace Uses

/-! ### Sequences of records -/

/-- The uses after a sequence of records. -/
def recordAll (calls : List (User × ValueId)) : Uses :=
  calls.foldl (fun uses call => uses.record call.1 call.2) {}

/-- A constant needs another one directly according to a sequence of records. -/
def Needs (calls : List (User × ValueId)) (u v : ValueId) : Prop := (User.value u, v) ∈ calls

/-- Calls are recorded as edges, from the first to the last. -/
theorem edges_recordAll (calls : List (User × ValueId)) :
    (recordAll calls).edges = calls.foldl OrderedSet.insert .empty := by
  have hfold : ∀ uses : Uses,
      (calls.foldl (fun uses call => uses.record call.1 call.2) uses).edges =
        calls.foldl OrderedSet.insert uses.edges := by
    induction calls with
    | nil => exact fun _ => rfl
    | cons call calls ih =>
      intro uses
      rw [List.foldl_cons, List.foldl_cons, ih, edges_record]
  exact hfold {}

/-- A sequence of records leaves its members, each once, in the order of their first occurrence. -/
theorem toList_recordAll (calls : List (User × ValueId)) :
    (recordAll calls).edges.toList = Graph.distinct calls := by
  have hempty : ∀ e, (Dict.empty : Dict (User × ValueId) Unit).contains e ↔
      e ∈ (OrderedSet.empty : OrderedSet (User × ValueId)).items := by
    intro e
    simp [Dict.contains, OrderedSet.empty]
  rw [edges_recordAll, OrderedSet.toList_foldl_insert hempty calls]
  rfl

/-- The edges are the recorded calls. -/
theorem mem_recordAll {calls : List (User × ValueId)} {e : User × ValueId} :
    e ∈ (recordAll calls).edges.items ↔ e ∈ calls := by
  rw [← OrderedSet.mem_toList, toList_recordAll, Graph.mem_distinct]

/-- A use is new unless it was recorded. -/
theorem isNew_recordAll {calls : List (User × ValueId)} {user : User} {id : ValueId} :
    (recordAll calls).isNew user id ↔ (user, id) ∉ calls := by
  rw [isNew, Bool.not_eq_true', Bool.eq_false_iff, ne_eq, OrderedSet.contains_iff, mem_recordAll]

/-- What the search follows is what was recorded. -/
theorem needs_iff_leads {calls : List (User × ValueId)} :
    Graph.Leads (fun id => (recordAll calls).targets (.value id)) = Needs calls := by
  funext u v
  exact propext (mem_targets.trans mem_recordAll)

/-- The results of the sites are what was recorded for one of them, each once. -/
theorem rootsOf_recordAll (calls : List (User × ValueId)) (sites : List SiteId) :
    ((recordAll calls).rootsOf sites).Nodup ∧
      ∀ v, v ∈ (recordAll calls).rootsOf sites ↔ ∃ s ∈ sites, (User.site s, v) ∈ calls := by
  refine ⟨Graph.nodup_distinct _, fun v => ?_⟩
  rw [rootsOf, Graph.mem_distinct, List.mem_flatMap]
  simp only [mem_targets, mem_recordAll]

end Uses

/-! ### The answers of the search -/

/-- What the search for live constants answers, in terms of the records and the roots. -/
structure Live.Exact (calls : List (User × ValueId)) (roots : List ValueId) (live : Live) :
    Prop where
  /-- The constants that can be reached are live. -/
  contains : ∀ v, live.contains v ↔ ∃ r ∈ roots, ReflTransGen (Uses.Needs calls) r v
  /-- The depth is the length of a shortest way. -/
  depth : ∀ v n, live.depth? v = some n ↔ IsLeast (Graph.lengths (Uses.Needs calls) roots v) n
  /-- The roots are those that were given. -/
  isRoot : ∀ v, live.isRoot v ↔ v ∈ roots
  /-- The maximum is the greatest of the depths. -/
  maxDepth : ∀ n, live.maxDepth? = some n ↔
    IsGreatest {k | ∃ v, IsLeast (Graph.lengths (Uses.Needs calls) roots v) k} n

namespace Uses

variable {calls : List (User × ValueId)}

/-- There are as many levels as there may be constants that another one needs. -/
theorem target_mem (uses : Uses) (u : ValueId) :
    ∀ v ∈ uses.targets (.value u), v ∈ uses.edges.toList.map Prod.snd := by
  intro v hv
  exact List.mem_map.2 ⟨(.value u, v), OrderedSet.mem_toList.2 (mem_targets.1 hv), rfl⟩

/-- There are no more targets than edges. -/
theorem length_targets (uses : Uses) :
    (uses.edges.toList.map Prod.snd).length ≤ uses.edges.size := by
  rw [List.length_map, OrderedSet.toList, OrderedSet.size, Array.length_toList]

/-- The search finds the constants that can be reached, with their distances. -/
theorem exact_live (calls : List (User × ValueId)) (roots : List ValueId) :
    ((recordAll calls).live roots).Exact calls roots := by
  have hdepth : ∀ v n, ((recordAll calls).live roots).depth? v = some n ↔
      Graph.Distance (Needs calls) roots v n := by
    intro v n
    rw [← needs_iff_leads]
    exact Graph.depth?_walk (target_mem _) (length_targets _)
  have hmet : ∀ v n, (v, n) ∈ ((recordAll calls).live roots).distances ↔
      Graph.Distance (Needs calls) roots v n := by
    intro v n
    rw [← needs_iff_leads]
    exact Graph.mem_met_walk (target_mem _) (length_targets _)
  refine ⟨fun v => ?_, hdepth, fun v => ?_, fun n => ?_⟩
  · rw [Live.contains, Option.isSome_iff_exists, ← Graph.exists_distance_iff]
    exact exists_congr fun n => hdepth v n
  · rw [Live.isRoot, beq_iff_eq, hdepth, Graph.distance_zero_iff]
  · rw [Live.maxDepth?, List.max?_eq_some_iff]
    have hmem : ∀ k, k ∈ ((recordAll calls).live roots).distances.map Prod.snd ↔
        ∃ v, Graph.Distance (Needs calls) roots v k := by
      intro k
      simp only [← hmet, List.mem_map, Prod.exists, exists_eq_right]
    simp only [hmem]
    rfl

/-- A search with a queue, from the roots in their order, ends with what the search by levels has
met. -/
theorem sweeps_live_iff (uses : Uses) (roots : List ValueId) (e : Graph.Walk ValueId) :
    Graph.Sweeps (fun id => uses.targets (.value id)) (roots.foldl (Graph.Walk.meet 0) .empty) e ↔
      e = { (uses.live roots).walk with level := [] } :=
  Graph.sweeps_start_iff uses.target_mem uses.length_targets

/-- Whatever is recorded, in whatever order and however often: a use is new if it was not recorded
before, the uses are the records without repetition, what a user uses is in step with them, the
roots of sites are what was recorded for them, each once, and the search from any roots, which a
queue carries out and ends, gives the constants that can be reached with their distances. -/
theorem reachability_exact (calls : List (User × ValueId)) :
    (∀ user id, (recordAll calls).isNew user id ↔ (user, id) ∉ calls) ∧
      (recordAll calls).edges.toList = Graph.distinct calls ∧
      (∀ user, (recordAll calls).targets user = usedBy user (Graph.distinct calls)) ∧
      (∀ sites, ((recordAll calls).rootsOf sites).Nodup ∧
        ∀ v, v ∈ (recordAll calls).rootsOf sites ↔ ∃ s ∈ sites, (User.site s, v) ∈ calls) ∧
      ∀ roots, ((recordAll calls).live roots).Exact calls roots ∧
        ∀ e, Graph.Sweeps (fun id => (recordAll calls).targets (.value id))
            (roots.foldl (Graph.Walk.meet 0) .empty) e ↔
          e = { ((recordAll calls).live roots).walk with level := [] } := by
  refine ⟨fun _ _ => isNew_recordAll, toList_recordAll calls, fun user => ?_,
    rootsOf_recordAll calls, fun roots => ⟨exact_live calls roots, sweeps_live_iff _ roots⟩⟩
  rw [targets_eq, toList_recordAll]

end Uses

end ConstPool
