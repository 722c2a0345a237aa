import ConstPool.Proofs.Graph.Order

/-!
# The order by counting

The order of a call graph may also be found by counting. For every node there is a number, which at
first is that of its needs that are nodes. The nodes whose number is zero wait in a queue. The node
in front is taken and placed, at a height that is read off the heights of its needs. Of all its
users the number gets smaller by one, and a user whose number comes to zero goes to the end of the
queue. When the queue is empty, what has been placed is the order.

`Layering` keeps no numbers. It keeps for every node a part of what the node needs, from the first
need on that had no place when the node was last looked at, and it works off the queue in rounds.
Both ways place the same nodes, at the same heights and in the same order: the number of a node is
always that of its needs without a place (`unmetCount`), so it comes to zero just when nothing is
left of what the node waits for, and the queue is what is left of the round followed by what has
become ready in it. Between two nodes that are placed this is kept, since a node that takes its
place was counted once for each of its users (`drains_put_iff`). The rest follows by induction on
the round and on the number of rounds.

* `Needs.Counting`, `Needs.Drains`: the numbers, the queue, and the course of the counting.
* `Needs.Counting.foldl_release`: what becomes of the users of a node.
* `Layering.ready_foldl_look`: which of them become ready.
* `Needs.drains_start_iff`: the counting ends, and with the order and the heights that there are.
-/

namespace ConstPool

namespace Needs

/-! ### Counting -/

/-- The height of a node over all that it needs, of which only nodes have a height. -/
def heightAmong (needs : Needs) (heights : OrderedMap Node Nat) (node : Node) : Nat :=
  ((needs.direct node).filterMap fun d => (heights.get? d).map (· + 1)).max?.getD 0

/-- The counting as far as it has come. -/
structure Counting where
  /-- For every node the number of its needs that were not taken so far. -/
  unmet : Node → Nat
  /-- The nodes whose number has come to zero and that were not taken, the one in front first. -/
  queue : List Node

namespace Counting

/-- At the start every node has all its needs before it. -/
def start (needs : Needs) : Counting where
  unmet n := (Graph.distinct (needs.known n)).length
  queue := needs.keys.filter fun n => (Graph.distinct (needs.known n)).length = 0

/-- One need less of a node, which goes to the end of the queue if this was the last. -/
def release (c : Counting) (n : Node) : Counting where
  unmet := Function.update c.unmet n (c.unmet n - 1)
  queue := if c.unmet n - 1 = 0 then c.queue ++ [n] else c.queue

end Counting

/-- The course of the counting, from the nodes placed so far to those placed at the end. The node in
front is taken and placed, and there is one need less of every user of it. -/
inductive Drains (needs : Needs) : Counting → OrderedMap Node Nat → OrderedMap Node Nat → Prop
  | done {unmet : Node → Nat} {placed : OrderedMap Node Nat} : Drains needs ⟨unmet, []⟩ placed placed
  | take {unmet : Node → Nat} {n : Node} {rest : List Node} {placed final : OrderedMap Node Nat} :
    Drains needs (((needs.users.get? n).getD []).foldl Counting.release ⟨unmet, rest⟩)
        (placed.insert n (needs.heightAmong placed n)) final →
      Drains needs ⟨unmet, n :: rest⟩ placed final

variable {needs : Needs} {placed final : OrderedMap Node Nat} {unmet : Node → Nat}
  {n m : Node} {rest : List Node}

/-- With nothing in the queue, what is placed is final. -/
theorem drains_nil_iff : needs.Drains ⟨unmet, []⟩ placed final ↔ final = placed := by
  constructor
  · intro h
    cases h
    rfl
  · rintro rfl
    exact .done

/-- The first node of the queue is placed, and its users wait for one node less. -/
theorem drains_cons_iff :
    needs.Drains ⟨unmet, n :: rest⟩ placed final ↔
      needs.Drains (((needs.users.get? n).getD []).foldl Counting.release ⟨unmet, rest⟩)
        (placed.insert n (needs.heightAmong placed n)) final := by
  refine ⟨fun h => ?_, .take⟩
  cases h with
  | take h => exact h

/-- The heights of a node over all needs and over those that are nodes are the same, as only nodes
are placed. -/
theorem heightAmong_eq (hplaced : ∀ d ∈ placed.keys, d ∈ needs.keys) (n : Node) :
    needs.heightAmong placed n = needs.heightOver placed n := by
  rw [heightAmong, heightOver, known, List.filterMap_filter]
  refine congrArg (fun hs : List Nat => hs.max?.getD 0) (List.filterMap_congr fun d _ => ?_)
  split
  · rfl
  · next hd =>
    rcases hget : placed.get? d with _ | h
    · rfl
    · exact absurd (OrderedMap.contains_iff.2 (hplaced d (OrderedMap.mem_keys_of_get? hget))) hd

/-! ### The number of needs without a place -/

/-- How many needs of a node are nodes without a place. -/
def unmetCount (needs : Needs) (placed : OrderedMap Node Nat) (m : Node) : Nat :=
  ((Graph.distinct (needs.known m)).filter fun d => d ∉ placed.keys).length

/-- A node waits for nothing exactly if all that it needs is placed. -/
theorem unmetCount_eq_zero_iff :
    needs.unmetCount placed m = 0 ↔ ∀ d ∈ needs.known m, d ∈ placed.keys := by
  simp [unmetCount, List.filter_eq_nil_iff, Graph.mem_distinct]

/-- When a node takes its place, there is one need less of each of its users. -/
theorem unmetCount_insert (hn : n ∉ placed.keys) (k : Nat) (m : Node) :
    needs.unmetCount placed m =
      if n ∈ needs.known m then needs.unmetCount (placed.insert n k) m + 1
      else needs.unmetCount (placed.insert n k) m := by
  have hmem : n ∈ ((Graph.distinct (needs.known m)).filter fun d => d ∉ placed.keys) ↔
      n ∈ needs.known m := by
    simp [Graph.mem_distinct, hn]
  have hleft : ((Graph.distinct (needs.known m)).filter fun d => d ∉ (placed.insert n k).keys) =
      ((Graph.distinct (needs.known m)).filter fun d => d ∉ placed.keys).erase n := by
    rw [((Graph.nodup_distinct _).filter _).erase_eq_filter, List.filter_filter]
    refine List.filter_congr fun d _ => ?_
    rw [Bool.eq_iff_iff]
    simp only [OrderedMap.mem_keys_insert, not_or, decide_eq_true_eq, Bool.and_eq_true, bne_iff_ne,
      and_comm]
  rw [unmetCount, unmetCount, hleft, List.length_erase]
  by_cases hneeds : n ∈ needs.known m
  · have hpos := List.length_pos_of_mem (hmem.2 hneeds)
    rw [if_pos hneeds, if_pos (hmem.2 hneeds)]
    omega
  · rw [if_neg hneeds, if_neg fun hin => hneeds (hmem.1 hin)]

namespace Counting

/-- Releasing nodes, one after another and each once: of each there is one need less, and those of
which nothing is left go to the end of the queue. -/
theorem foldl_release {us : List Node} (hus : us.Nodup) {c : Counting} {left : Node → Nat}
    (h : ∀ m, c.unmet m = if m ∈ us then left m + 1 else left m) :
    us.foldl release c = ⟨left, c.queue ++ us.filter fun m => left m = 0⟩ := by
  induction us generalizing c with
  | nil =>
    obtain ⟨unmet, queue⟩ := c
    have hleft : unmet = left := funext fun m => h m
    rw [List.foldl_nil, hleft, List.filter_nil, List.append_nil]
  | cons u us ih =>
    obtain ⟨hu, hus⟩ := List.nodup_cons.1 hus
    have hone : c.unmet u - 1 = left u := by
      rw [h u, if_pos (List.mem_cons_self ..), Nat.add_sub_cancel]
    have hrest : ∀ m, (c.release u).unmet m = if m ∈ us then left m + 1 else left m := by
      intro m
      show Function.update c.unmet u (c.unmet u - 1) m = _
      by_cases hmu : m = u
      · rw [hmu, Function.update_self, if_neg hu, hone]
      · rw [Function.update_of_ne hmu, h m]
        simp only [List.mem_cons, hmu, false_or]
    rw [List.foldl_cons, ih hus hrest, release, hone, List.filter_cons]
    by_cases hzero : left u = 0
    · simp [hzero]
    · simp [hzero]

end Counting

end Needs

/-! ### What becomes ready -/

namespace Layering

variable {needs : Needs} {p : Layering} {queue unseen : List Node} {n : Node}

/-- A node that is looked at becomes ready if all its needs have their places. -/
theorem ready_look (h : Good needs p.placed p.waiting queue unseen) :
    (p.look n).ready = if needs.unmetCount p.placed n = 0 then n :: p.ready else p.ready := by
  have hleft : (((p.waiting.get? n).getD []).dropWhile p.placed.contains).isEmpty ↔
      needs.unmetCount p.placed n = 0 := by
    rw [List.isEmpty_iff, Needs.unmetCount_eq_zero_iff, List.dropWhile_eq_nil_iff]
    constructor
    · intro hall d hd
      rcases h.settled n d hd with hwaits | hplaced
      · exact OrderedMap.contains_iff.1 (hall d hwaits)
      · exact hplaced
    · exact fun hall d hd => OrderedMap.contains_iff.2 (hall d (h.noted n d hd))
  unfold look
  simp only [hleft]

/-- Of the nodes that are looked at, those become ready of which all needs have their places. -/
theorem ready_foldl_look (h : Good needs p.placed p.waiting (queue ++ p.ready) unseen) :
    (unseen.foldl look p).ready =
      (unseen.filter fun m => needs.unmetCount p.placed m = 0).reverse ++ p.ready := by
  induction unseen generalizing p with
  | nil => rfl
  | cons n unseen ih =>
    obtain ⟨hsame, hgood⟩ := h.look
    rw [List.foldl_cons, ih hgood, ready_look h, hsame, List.filter_cons]
    by_cases hzero : needs.unmetCount p.placed n = 0
    · simp [hzero]
    · simp [hzero]

end Layering

namespace Needs

open Layering (Growing)

variable {needs : Needs} {p : Layering} {queue : List Node} {n : Node}
  {final : OrderedMap Node Nat}

/-! ### The same order -/

/-- The counting that goes with an order that has grown so far, while the nodes of `queue` are still
to be placed in this round. -/
def countingOf (needs : Needs) (p : Layering) (queue : List Node) : Counting where
  unmet := needs.unmetCount p.placed
  queue := queue ++ p.ready.reverse

/-- The counting goes on as the order grows by a node. -/
theorem drains_put_iff (hkeys : needs.keys.Nodup) (h : Growing needs p (n :: queue)) :
    needs.Drains (needs.countingOf p (n :: queue)) p.placed final ↔
      needs.Drains (needs.countingOf (.put needs needs.users p n) queue)
        (Layering.put needs needs.users p n).placed final := by
  have hn := h.good.ready n (List.mem_cons_self ..)
  -- the order with the node in its place, before its users are looked at
  let q : Layering := { p with placed := p.placed.insert n (needs.heightOver p.placed n) }
  have hgood := h.good.insert hkeys h.placed (needs.heightOver p.placed n)
  have hput : Layering.put needs needs.users p n =
      (needs.keys.filter fun m => n ∈ needs.known m).foldl Layering.look q := by
    rw [Layering.put, users_eq]
  have hplaced : (Layering.put needs needs.users p n).placed = q.placed := by
    rw [hput]
    exact (Layering.Good.lookAll (p := q) hgood).1
  have hready : (Layering.put needs needs.users p n).ready =
      ((needs.keys.filter fun m => n ∈ needs.known m).filter fun m =>
        needs.unmetCount q.placed m = 0).reverse ++ p.ready := by
    rw [hput]
    exact Layering.ready_foldl_look (p := q) hgood
  have hcounts : ∀ m, needs.unmetCount p.placed m =
      if m ∈ needs.keys.filter fun m => n ∈ needs.known m then needs.unmetCount q.placed m + 1
      else needs.unmetCount q.placed m := by
    intro m
    have hmem : (m ∈ needs.keys.filter fun m => n ∈ needs.known m) ↔ n ∈ needs.known m := by
      rw [List.mem_filter, decide_eq_true_eq]
      exact ⟨fun h => h.2, fun h => ⟨mem_keys_of_known h, h⟩⟩
    simp only [hmem]
    exact unmetCount_insert hn.unplaced (needs.heightOver p.placed n) m
  have hrelease := Counting.foldl_release (hkeys.filter fun m => n ∈ needs.known m)
    (c := ⟨needs.unmetCount p.placed, queue ++ p.ready.reverse⟩) hcounts
  rw [countingOf, List.cons_append, drains_cons_iff, users_eq, hrelease,
    heightAmong_eq h.placed.key, countingOf, hplaced, hready, List.reverse_append,
    List.reverse_reverse, List.append_assoc]

/-- The counting goes on as the order grows by the nodes of a round. -/
theorem drains_round_iff (hkeys : needs.keys.Nodup) (h : Growing needs p queue) :
    needs.Drains (needs.countingOf p queue) p.placed final ↔
      needs.Drains (needs.countingOf (queue.foldl (Layering.put needs needs.users) p) [])
        (queue.foldl (Layering.put needs needs.users) p).placed final := by
  induction queue generalizing p with
  | nil => exact Iff.rfl
  | cons n rest ih => exact (drains_put_iff hkeys h).trans (ih (h.put hkeys).1)

/-- The counting goes on as the order grows by rounds. -/
theorem drains_grow_iff (hkeys : needs.keys.Nodup) (h : Growing needs p []) (times : Nat) :
    needs.Drains (needs.countingOf p []) p.placed final ↔
      needs.Drains (needs.countingOf (.grow needs needs.users times p) [])
        (Layering.grow needs needs.users times p).placed final := by
  induction times generalizing p with
  | zero => exact Iff.rfl
  | succ times ih =>
    rw [Layering.grow]
    split
    · exact Iff.rfl
    · have hqueue : needs.countingOf p [] =
          needs.countingOf { p with ready := [] } p.ready.reverse := by
        simp [countingOf]
      rw [hqueue]
      exact (drains_round_iff hkeys h.next).trans (ih (h.next.round hkeys).1)

/-- At the start nothing has a place. -/
theorem start_eq (needs : Needs) : Counting.start needs = needs.countingOf (.start needs) [] := by
  have hunmet : needs.unmetCount .empty = fun n => (Graph.distinct (needs.known n)).length := by
    funext n
    exact congrArg List.length (List.filter_eq_self.2 fun d _ => rfl)
  have hnone : (fun n => decide ((Graph.distinct (needs.known n)).length = 0)) =
      fun n => (needs.known n).isEmpty := by
    funext n
    rw [Bool.eq_iff_iff, decide_eq_true_eq, List.length_eq_zero_iff, List.isEmpty_iff,
      List.eq_nil_iff_forall_not_mem, List.eq_nil_iff_forall_not_mem]
    simp only [Graph.mem_distinct]
  show _ = Counting.mk (needs.unmetCount .empty) ([] ++ (Layering.start needs).ready.reverse)
  rw [hunmet, List.nil_append, Layering.start, List.reverse_reverse, Counting.start, hnone]

/-- The counting ends, and what it has placed are the nodes of the order at their heights. -/
theorem drains_start_iff (hkeys : needs.keys.Nodup) :
    needs.Drains (.start needs) .empty final ↔ final = needs.layers := by
  rw [start_eq]
  refine (drains_grow_iff hkeys (Layering.growing_start hkeys) needs.size).trans ?_
  rw [countingOf, ready_grow_size hkeys]
  exact drains_nil_iff

end Needs

end ConstPool
