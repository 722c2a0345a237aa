import Mathlib.Order.Bounds.Image
import ConstPool.Proofs.Graph.Counting
import ConstPool.Proofs.Graph.Recursion
import ConstPool.Proofs.Settlement

/-!
# Heights and waves

The order holds the nodes from which no cycle can be reached, each after all that it needs. The
height of such a node is the length of the longest chain of needs that starts at it, and all other
nodes stand together one above the highest of these. So the calls of a function come in an earlier
wave than those of the functions that call it. The same order, with the same heights, is what
counting the needs without a place comes to.

The call graph is built from declarations with needs, which may be any lists: a node may need
itself, need another one twice, or need what is not declared. The order is found by placing nodes
whose needs have places until none is left. What is proved about it goes by induction along the
order: a node is placed exactly if it leads to no cycle, and its height is one more than the
greatest height among its needs, or zero. Counting is the other way to find it: each node is given
the number of its needs without a place, a queue holds those with none left, and taking one from the
queue counts down its users. Both ways place the same nodes at the same heights.

* `Needs.layers_induct`: induction along the order.
* `Needs.isGreatest_chains`: heights are lengths of longest chains.
* `CallGraph.ranked_build`: the order and the heights of every call graph.
-/

namespace ConstPool

open Relation

namespace Needs

variable {needs : Needs} {n d : Node}

/-- No cycle can be reached from a node. -/
def Grounded (needs : Needs) (n : Node) : Prop :=
  ∀ m, ReflTransGen needs.Uses n m → ¬ TransGen needs.Uses m m

/-- The lengths of the chains of needs that start at a node. -/
def chains (needs : Needs) (n : Node) : Set Nat :=
  {k | ∃ path : List Node, List.IsChain needs.Uses (n :: path) ∧ path.length = k}

/-- Every node of a list stands after all that it needs. -/
def Sorted (needs : Needs) (nodes : List Node) : Prop :=
  ∀ before n after, nodes = before ++ n :: after → ∀ d ∈ needs.known n, d ∈ before

/-! ### The order -/

/-- Induction along the order: what holds of no nodes, and still holds when a node of which all
needs are placed joins at the end, holds of the whole order. -/
theorem layers_induct (hkeys : needs.keys.Nodup) {motive : List Node → Prop} (nil : motive [])
    (put : ∀ nodes n, (∀ d ∈ needs.known n, d ∈ nodes) → motive nodes → motive (nodes ++ [n])) :
    motive needs.layers.keys := by
  -- one round empties the queue, one node after another
  have hround : ∀ (queue : List Node) {p : Layering}, Layering.Growing needs p queue →
      motive p.placed.keys →
        motive (queue.foldl (Layering.put needs needs.users) p).placed.keys := by
    intro queue
    induction queue with
    | nil => exact fun _ h => h
    | cons n rest ih =>
      intro p hp h
      obtain ⟨hput, hplaced⟩ := hp.put hkeys
      refine ih hput ?_
      rw [hplaced]
      exact put _ n (hp.good.ready n (List.mem_cons_self ..)).needed h
  -- the rounds go on until nothing has become ready, or there were as many as nodes
  have hgrow : ∀ (times : Nat) {p : Layering}, Layering.Growing needs p [] →
      motive p.placed.keys → motive (Layering.grow needs needs.users times p).placed.keys := by
    intro times
    induction times with
    | zero => exact fun _ h => h
    | succ times ih =>
      intro p hp h
      rw [Layering.grow]
      split
      · exact h
      · have hstart := hp.next
        exact ih (hstart.round hkeys).1 (hround _ hstart h)
  exact hgrow _ (Layering.growing_start hkeys) nil

/-- A list stays sorted when a node of which it has all needs joins at the end. -/
theorem Sorted.concat {nodes : List Node} (h : needs.Sorted nodes)
    (hn : ∀ d ∈ needs.known n, d ∈ nodes) : needs.Sorted (nodes ++ [n]) := by
  intro before m after heq d hd
  rcases List.eq_nil_or_concat after with rfl | ⟨after, last, rfl⟩
  · obtain ⟨rfl, hlast⟩ := List.append_inj' heq rfl
    obtain rfl := List.singleton_inj.1 hlast
    exact hn d hd
  · rw [List.concat_eq_append, ← List.cons_append, ← List.append_assoc] at heq
    obtain ⟨hnodes, -⟩ := List.append_inj' heq rfl
    exact h before m after hnodes d hd

/-- The order is sorted. -/
theorem sorted_layers (hkeys : needs.keys.Nodup) : needs.Sorted needs.layers.keys := by
  refine layers_induct hkeys ?_ fun nodes n hn h => h.concat hn
  intro before n after heq
  simp at heq

/-- The nodes of the order are those from which no cycle can be reached. -/
theorem mem_layers_iff (hkeys : needs.keys.Nodup) :
    n ∈ needs.layers.keys ↔ n ∈ needs.keys ∧ needs.Grounded n := by
  obtain ⟨waiting, hplaced, -⟩ := layers_spec hkeys
  constructor
  · refine fun hn => ⟨hplaced.key n hn, fun m hm hcycle => ?_⟩
    have hplaced : m ∈ needs.layers.keys := by
      clear hcycle
      induction hm with
      | refl => exact hn
      | tail _ huse ih => exact hplaced.needed _ ih _ huse
    exact unplaced_of_transGen hkeys hcycle hplaced
  · rintro ⟨hn, hgrounded⟩
    by_contra hunplaced
    obtain ⟨m, hm, hcyclic⟩ := exists_cyclic hkeys hn hunplaced
    exact hgrounded m hm ((mem_cyclic_iff hkeys).1 hcyclic)

/-! ### Heights -/

/-- A node that stands above the ground stands one above one of its needs. -/
theorem heightOver_eq_zero_or (heights : OrderedMap Node Nat) (n : Node) :
    needs.heightOver heights n = 0 ∨ ∃ d ∈ needs.known n, ∃ h, heights.get? d = some h ∧
      needs.heightOver heights n = h + 1 := by
  unfold heightOver
  rcases hmax : ((needs.known n).filterMap fun d => (heights.get? d).map (· + 1)).max? with _ | top
  · exact .inl rfl
  · obtain ⟨d, hd, heq⟩ := List.mem_filterMap.1 (List.max?_eq_some_iff.1 hmax).1
    obtain ⟨h, hget, rfl⟩ := Option.map_eq_some_iff.1 heq
    exact .inr ⟨d, hd, h, hget, rfl⟩

/-- The height of a placed node is the length of the longest chain of needs from it. -/
theorem isGreatest_chains (hkeys : needs.keys.Nodup) {k : Nat}
    (hn : needs.layers.get? n = some k) : IsGreatest (needs.chains n) k := by
  induction k using Nat.strong_induction_on generalizing n with
  | _ k ih =>
    constructor
    · obtain ⟨waiting, hplaced, -⟩ := layers_spec hkeys
      have hheight := hplaced.height hn
      rcases heightOver_eq_zero_or needs.layers n with hzero | ⟨d, hd, h, hget, hsucc⟩
      · exact ⟨[], .singleton n, by rw [hheight, hzero]; rfl⟩
      · obtain ⟨path, hpath, hlength⟩ := (ih h (by omega) hget).1
        exact ⟨d :: path, .cons_cons hd hpath, by rw [List.length_cons, hlength]; omega⟩
    · rintro l ⟨path, hpath, rfl⟩
      cases hpath with
      | singleton => exact Nat.zero_le k
      | cons_cons huse hrest =>
        obtain ⟨k', hget, hlt⟩ := height_lt hkeys hn huse
        have := (ih k' hlt hget).2 ⟨_, hrest, rfl⟩
        rw [List.length_cons]
        omega

end Needs

namespace CallGraph

variable {needs : Needs} {n d : Node}

/-- What order and heights are in the call graph of given needs. -/
structure Ranked (g : CallGraph) (needs : Needs) : Prop where
  /-- No node stands in the order twice. -/
  nodup : g.order.Nodup
  /-- The order holds the nodes from which no cycle can be reached, and no others. -/
  ordered : ∀ n, n ∈ g.order ↔ n ∈ needs.keys ∧ needs.Grounded n
  /-- Every node stands after all nodes that it needs. -/
  sorted : needs.Sorted g.order
  /-- The height of a node of the order is the length of the longest chain of needs from it. -/
  longest : ∀ n ∈ g.order, IsGreatest (needs.chains n) (g.height n)
  /-- Every other node stands one above the highest of the order, or on the ground if the order is
  empty. -/
  above : ∀ n ∈ needs.keys, n ∉ g.order →
    (g.order = [] ∧ g.height n = 0) ∨
      ∃ top, IsGreatest (g.height '' {m | m ∈ g.order}) top ∧ g.height n = top + 1
  /-- A node of the order stands below all that need it. -/
  below : ∀ n d, needs.Uses n d → d ∈ g.order → g.height d < g.height n

/-- A node that was placed has the height of its layer. -/
theorem height_build_of_placed {k : Nat} (h : needs.layers.get? n = some k) :
    (build needs).height n = k := by
  have hget : (build needs).layers.get? n = some k := h
  rw [height, hget]

/-- A node that was not placed stands at the top. -/
theorem height_build_of_unplaced (hn : n ∈ needs.keys) (h : n ∉ needs.layers.keys) :
    (build needs).height n = (build needs).top := by
  have hget : (build needs).layers.get? n = none := by
    rw [← Option.not_isSome_iff_eq_none, OrderedMap.get?_isSome_iff]
    exact h
  have hcontains : (build needs).needs.contains n = true := OrderedMap.contains_iff.2 hn
  rw [height, hget, hcontains]
  rfl

/-- Nodes without a place stand one above the highest node of the order. -/
theorem top_build (hkeys : needs.keys.Nodup) :
    ((build needs).order = [] ∧ (build needs).top = 0) ∨
      ∃ top, IsGreatest ((build needs).height '' {m | m ∈ (build needs).order}) top ∧
        (build needs).top = top + 1 := by
  obtain ⟨waiting, hplaced, -⟩ := needs.layers_spec hkeys
  have hvalue : ∀ k, k ∈ needs.layers.values ↔ ∃ m, needs.layers.get? m = some k := by
    intro k
    constructor
    · intro hk
      rw [← OrderedMap.map_snd_entries] at hk
      obtain ⟨e, he, rfl⟩ := List.mem_map.1 hk
      exact ⟨e.1, OrderedMap.get?_of_mem_entries hplaced.nodup he⟩
    · rintro ⟨m, hm⟩
      exact (List.of_mem_zip (OrderedMap.mem_entries_of_get? hm)).2
  -- without a placed node there is no maximum, and the others stand at the bottom
  rcases hmax : needs.layers.values.max? with _ | top
  · refine .inl ⟨?_, ?_⟩
    · rw [List.max?_eq_none_iff, ← List.length_eq_zero_iff, ← OrderedMap.length_keys,
        List.length_eq_zero_iff] at hmax
      exact hmax
    · show (needs.layers.values.max?.map (· + 1)).getD 0 = 0
      rw [hmax]
      rfl
  · obtain ⟨htop, hle⟩ := List.max?_eq_some_iff.1 hmax
    refine .inr ⟨top, ⟨?_, ?_⟩, ?_⟩
    · obtain ⟨m, hm⟩ := (hvalue top).1 htop
      exact ⟨m, OrderedMap.mem_keys_of_get? hm, height_build_of_placed hm⟩
    · rintro _ ⟨m, hm, rfl⟩
      obtain ⟨k, hk⟩ := OrderedMap.exists_of_mem_keys hm
      rw [height_build_of_placed hk]
      exact hle k ((hvalue k).2 ⟨m, hk⟩)
    · show (needs.layers.values.max?.map (· + 1)).getD 0 = top + 1
      rw [hmax]
      rfl

/-- A node of the order stands below all that need it. -/
theorem height_build_lt (hkeys : needs.keys.Nodup) (huse : needs.Uses n d)
    (hd : d ∈ (build needs).order) : (build needs).height d < (build needs).height n := by
  by_cases hn : n ∈ needs.layers.keys
  · obtain ⟨k, hk⟩ := OrderedMap.exists_of_mem_keys hn
    obtain ⟨k', hk', hlt⟩ := Needs.height_lt hkeys hk huse
    rwa [height_build_of_placed hk, height_build_of_placed hk']
  · rw [height_build_of_unplaced (Needs.mem_keys_of_known huse) hn]
    rcases top_build hkeys with ⟨hnone, -⟩ | ⟨top, htop, heq⟩
    · rw [hnone] at hd
      cases hd
    · rw [heq]
      exact Nat.lt_succ_of_le (htop.2 ⟨d, hd, rfl⟩)

/-- The order and the heights of the call graph of given needs. -/
theorem ranked_of_nodup (hkeys : needs.keys.Nodup) : (build needs).Ranked needs := by
  obtain ⟨waiting, hplaced, -⟩ := needs.layers_spec hkeys
  refine ⟨hplaced.nodup, fun n => Needs.mem_layers_iff hkeys, Needs.sorted_layers hkeys,
    fun n hn => ?_, fun n hn hunplaced => ?_, fun n d huse hd => height_build_lt hkeys huse hd⟩
  · obtain ⟨k, hk⟩ := OrderedMap.exists_of_mem_keys hn
    rw [height_build_of_placed hk]
    exact Needs.isGreatest_chains hkeys hk
  · rw [height_build_of_unplaced hn hunplaced]
    exact top_build hkeys

end CallGraph

/-! ### Waves -/

namespace Session

variable {s : Session}

/-- A site of lower height is in an earlier wave. -/
theorem wave_lt_of_height_lt {i j : Nat} {w w' : List (SiteId × Site)}
    (hw : s.waves[i]? = some w) (hw' : s.waves[j]? = some w') {e e' : SiteId × Site} (he : e ∈ w)
    (he' : e' ∈ w') (hlt : s.heightOf e.2 < s.heightOf e'.2) : i < j := by
  obtain ⟨waves, hlayered, heq⟩ := s.layered_waves
  rw [heq, List.getElem?_map] at hw hw'
  obtain ⟨⟨k, _⟩, hk, rfl⟩ := Option.map_eq_some_iff.1 hw
  obtain ⟨⟨k', _⟩, hk', rfl⟩ := Option.map_eq_some_iff.1 hw'
  have hheight := hlayered.level _ (List.mem_of_getElem? hk) e he
  have hheight' := hlayered.level _ (List.mem_of_getElem? hk') e' he'
  rw [hheight, hheight'] at hlt
  by_contra hge
  obtain ⟨hi, hget⟩ := List.getElem?_eq_some_iff.1 hk
  obtain ⟨hj, hget'⟩ := List.getElem?_eq_some_iff.1 hk'
  rcases Nat.lt_or_eq_of_le (Nat.le_of_not_lt hge) with hji | rfl
  · have := List.pairwise_iff_getElem.1 hlayered.ascending j i hj hi hji
    rw [hget, hget'] at this
    omega
  · cases hk.symm.trans hk'
    exact Nat.lt_irrefl _ hlt

end Session

/-- The order and the heights of every call graph: the order holds the nodes from which no cycle can
be reached, each once and after all that it needs, their heights are the lengths of the longest
chains of needs, and all other nodes stand one above the highest. Counting the needs of every node
that were not placed so far comes to an end, and to this order with these heights. In a session with
this call graph, the sites of a function of the order are evaluated in an earlier wave than those of
the functions that call it. -/
theorem CallGraph.ranked_build (entries : List (Node × List Node)) :
    (build (.ofList entries)).Ranked (.ofList entries) ∧
      (∀ final, Needs.Drains (.ofList entries) (.start (.ofList entries)) .empty final ↔
        final = (build (.ofList entries)).layers) ∧
      ∀ (s : Session) (caller callee : String), s.analysis.graph = build (.ofList entries) →
        Needs.Uses (.ofList entries) (.function caller) (.function callee) →
          .function callee ∈ (build (.ofList entries)).order →
            ∀ (i j : Nat) (w w' : List (SiteId × Site)), s.waves[i]? = some w →
              s.waves[j]? = some w' → ∀ e ∈ w, ∀ e' ∈ w', e.2.target = .function callee →
                e'.2.target = .function caller → i < j := by
  have hkeys := OrderedMap.nodup_keys_ofList entries
  have hranked := ranked_of_nodup hkeys
  refine ⟨hranked, fun final => Needs.drains_start_iff hkeys, ?_⟩
  intro s caller callee hgraph huse hcallee i j w w' hw hw' e he e' he' htarget htarget'
  refine Session.wave_lt_of_height_lt hw hw' he he' ?_
  rw [Session.heightOf, Session.heightOf, htarget, htarget', hgraph]
  exact hranked.below _ _ huse hcallee

end ConstPool
