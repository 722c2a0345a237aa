import Mathlib.Data.Fintype.Card
import Mathlib.Data.Set.Finite.Basic
import ConstPool.Proofs.Graph.Order
import ConstPool.Proofs.Graph.Walk

/-!
# The nodes that need themselves

A node is found to be recursive exactly if a chain of needs leads from it back to it. The search
only goes through nodes without a place, which loses nothing: heights fall along needs, so no
chain leads from a placed node to one that is not placed, nor back to its start.

* `Needs.mem_cyclic_iff`: the recursive nodes.
* `Needs.induct`: induction along needs that do not come back.
* `Needs.exists_cyclic`: a node without a place leads to a recursive one.
-/

namespace ConstPool.Needs

open Relation

variable {needs : Needs} {n m : Node}

/-- A node needs another one directly. -/
abbrev Uses (needs : Needs) (n m : Node) : Prop := m ∈ needs.known n

/-! ### Heights along chains -/

/-- Along a chain of needs from a placed node heights fall. -/
theorem height_lt_of_transGen (hkeys : needs.keys.Nodup) (h : TransGen needs.Uses n m) {k : Nat}
    (hn : needs.layers.get? n = some k) : ∃ k', needs.layers.get? m = some k' ∧ k' < k := by
  induction h with
  | single huse => exact height_lt hkeys hn huse
  | tail _ huse ih =>
    obtain ⟨k', hk', hlt⟩ := ih
    obtain ⟨k'', hk'', hlt'⟩ := height_lt hkeys hk' huse
    exact ⟨k'', hk'', Nat.lt_trans hlt' hlt⟩

/-- A node that needs itself has no place. -/
theorem unplaced_of_transGen (hkeys : needs.keys.Nodup) (h : TransGen needs.Uses n n) :
    n ∉ needs.layers.keys := by
  intro hn
  obtain ⟨k, hk⟩ := OrderedMap.exists_of_mem_keys hn
  obtain ⟨k', hk', hlt⟩ := height_lt_of_transGen hkeys h hk
  cases hk.symm.trans hk'
  exact Nat.lt_irrefl _ hlt

/-- A need that leads back to the node. -/
abbrev Returns (needs : Needs) (n x y : Node) : Prop :=
  needs.Uses x y ∧ y ∉ needs.layers.keys ∧ ReflTransGen needs.Uses y n

/-- A chain that comes back goes through nodes without a place alone. -/
theorem transGen_returns (hkeys : needs.keys.Nodup) (h : TransGen needs.Uses n n) :
    TransGen (needs.Returns n) n n := by
  have hall : ∀ {x}, TransGen needs.Uses x n → ReflTransGen needs.Uses n x →
      TransGen (needs.Returns n) x n := by
    intro x hx
    induction hx using TransGen.head_induction_on with
    | @single x huse =>
      exact fun _ => .single ⟨huse, unplaced_of_transGen hkeys h, .refl⟩
    | @head x y huse hrest ih =>
      intro hback
      have hy : ReflTransGen needs.Uses n y := hback.tail huse
      have hcycle : TransGen needs.Uses y y := TransGen.trans_left hrest hy
      exact .head ⟨huse, unplaced_of_transGen hkeys hcycle, hrest.to_reflTransGen⟩ (ih hy)
  exact hall h .refl

/-! ### Numbers -/

/-- The number of a node is its place among the nodes. -/
theorem indexOf?_iff (hkeys : needs.keys.Nodup) {i : Nat} :
    needs.keySet.indexOf? n = some i ↔ needs.keys[i]? = some n := by
  have hget : ∀ {j}, needs.keySet.indexOf? n = some j → needs.keys[j]? = some n := by
    intro j hj
    show needs.keySet.items.toList[j]? = some n
    rw [Array.getElem?_toList]
    exact OrderedSet.getElem?_of_indexOf? hj
  refine ⟨hget, fun h => ?_⟩
  obtain ⟨hi, hn⟩ := List.getElem?_eq_some_iff.1 h
  obtain ⟨j, hj⟩ := OrderedSet.exists_indexOf?_iff.2
    (OrderedSet.mem_toList.1 (hn ▸ List.getElem_mem hi))
  obtain ⟨hj', hn'⟩ := List.getElem?_eq_some_iff.1 (hget hj)
  rw [hj, (List.Nodup.getElem_inj_iff hkeys).1 (hn'.trans hn.symm)]

/-- The needs of a node by number are its needs without a place. -/
theorem mem_next_iff (hkeys : needs.keys.Nodup) {i j : Nat} (hi : needs.keys[i]? = some n) :
    j ∈ (NumberedNeeds.ofUnplaced needs needs.layers).next i ↔
      ∃ m, needs.keys[j]? = some m ∧ needs.Uses n m ∧ m ∉ needs.layers.keys := by
  have hindex := (indexOf?_iff hkeys).2 hi
  have hdirect : needs.column[i]? = some (needs.direct n) := by
    have hget : needs.get? n = needs.column[i]? := by
      rw [OrderedMap.get?_eq, hindex]
      rfl
    obtain ⟨ds, hds⟩ := OrderedMap.exists_of_mem_keys (List.mem_of_getElem? hi)
    rw [← hget, direct, hds]
    rfl
  have hnext : (NumberedNeeds.ofUnplaced needs needs.layers).next i =
      ((needs.direct n).filter fun m => !needs.layers.contains m).filterMap
        needs.keySet.indexOf? := by
    rw [NumberedNeeds.next, NumberedNeeds.ofUnplaced, Array.getElem?_map, hdirect]
    rfl
  rw [hnext, List.mem_filterMap]
  constructor
  · rintro ⟨m, hm, hj⟩
    obtain ⟨hdirect, hunplaced⟩ := List.mem_filter.1 hm
    have hj := (indexOf?_iff hkeys).1 hj
    refine ⟨m, hj, mem_known.2 ⟨hdirect, List.mem_of_getElem? hj⟩, fun hin => ?_⟩
    rw [OrderedMap.contains_iff.2 hin] at hunplaced
    cases hunplaced
  · rintro ⟨m, hj, huse, hunplaced⟩
    refine ⟨m, List.mem_filter.2 ⟨(mem_known.1 huse).1, ?_⟩, (indexOf?_iff hkeys).2 hj⟩
    rw [Bool.not_eq_true']
    exact Bool.eq_false_iff.2 fun hin => hunplaced (OrderedMap.contains_iff.1 hin)

/-- A chain of numbers is a chain of nodes. -/
theorem exists_node_of_leads (hkeys : needs.keys.Nodup) {i j : Nat}
    (h : ReflTransGen (Graph.Leads (NumberedNeeds.ofUnplaced needs needs.layers).next) i j)
    (hi : needs.keys[i]? = some n) :
    ∃ m, needs.keys[j]? = some m ∧ ReflTransGen needs.Uses n m := by
  induction h with
  | refl => exact ⟨n, hi, .refl⟩
  | tail _ hstep ih =>
    obtain ⟨m, hm, hreach⟩ := ih
    obtain ⟨m', hm', huse, -⟩ := (mem_next_iff hkeys hm).1 hstep
    exact ⟨m', hm', hreach.tail huse⟩

/-- A chain of nodes without a place is a chain of numbers. -/
theorem leads_of_returns (hkeys : needs.keys.Nodup) {x y : Node} {i : Nat}
    (h : ReflTransGen (needs.Returns n) x y) (hi : needs.keys[i]? = some x) :
    ∃ j, needs.keys[j]? = some y ∧
      ReflTransGen (Graph.Leads (NumberedNeeds.ofUnplaced needs needs.layers).next) i j := by
  induction h with
  | refl => exact ⟨i, hi, .refl⟩
  | tail _ hstep ih =>
    obtain ⟨j, hj, hreach⟩ := ih
    obtain ⟨k, hk⟩ := List.mem_iff_getElem?.1 (mem_known.1 hstep.1).2
    exact ⟨k, hk, hreach.tail ((mem_next_iff hkeys hj).2 ⟨_, hk, hstep.1, hstep.2.1⟩)⟩

/-- The search finds a node again exactly if it needs itself. -/
theorem needsItself_iff (hkeys : needs.keys.Nodup) {i : Nat} (hi : needs.keys[i]? = some n) :
    (NumberedNeeds.ofUnplaced needs needs.layers).needsItself i = true ↔
      TransGen needs.Uses n n := by
  have hrows : (NumberedNeeds.ofUnplaced needs needs.layers).rows.size = needs.keys.length := by
    rw [OrderedMap.length_keys]
    simp [NumberedNeeds.ofUnplaced, OrderedMap.values]
  -- the numbers are those of the keys, so as many levels as there are rows are enough for the walk
  have hrange : ∀ j, (NumberedNeeds.ofUnplaced needs needs.layers).next j ⊆
      List.range needs.keys.length := by
    intro j k hk
    have hj : j < needs.keys.length := by
      by_contra hge
      rw [NumberedNeeds.next, Array.getElem?_eq_none (by omega)] at hk
      cases hk
    obtain ⟨m, hm, -, -⟩ := (mem_next_iff hkeys (List.getElem?_eq_getElem hj)).1 hk
    exact List.mem_range.2 (List.getElem?_eq_some_iff.1 hm).1
  rw [NumberedNeeds.needsItself, Graph.contains_walk (hrange i) (fun j _ => hrange j)
    (by rw [List.length_range, hrows])]
  constructor
  · rintro ⟨r, hr, hri⟩
    obtain ⟨m, hm, huse, -⟩ := (mem_next_iff hkeys hi).1 hr
    obtain ⟨n', hn', hreach⟩ := exists_node_of_leads hkeys hri hm
    cases hi.symm.trans hn'
    exact .head' huse hreach
  · intro h
    -- a node that has a place is not on a cycle, so the cycle goes through nodes without one, which
    -- are all the search sees
    obtain ⟨m, huse, hrest⟩ := TransGen.head'_iff.1 (transGen_returns hkeys h)
    obtain ⟨r, hr⟩ := List.mem_iff_getElem?.1 (mem_known.1 huse.1).2
    obtain ⟨j, hj, hreach⟩ := leads_of_returns hkeys hrest hr
    have hij : j = i := by
      have hj := (indexOf?_iff hkeys).2 hj
      rw [(indexOf?_iff hkeys).2 hi] at hj
      exact (Option.some.inj hj).symm
    exact ⟨r, (mem_next_iff hkeys hi).2 ⟨m, hr, huse.1, huse.2.1⟩, hij ▸ hreach⟩

/-! ### Recursive nodes -/

/-- The recursive nodes are those that need themselves. -/
theorem mem_cyclic_iff (hkeys : needs.keys.Nodup) :
    n ∈ needs.cyclic needs.layers ↔ TransGen needs.Uses n n := by
  rw [cyclic, List.mem_filterMap]
  constructor
  · rintro ⟨⟨m, i⟩, hmem, hsome⟩
    have hi := List.mem_zipIdx_iff_getElem?.1 hmem
    simp only [Option.ite_none_right_eq_some, Bool.and_eq_true, Option.some.injEq] at hsome
    obtain ⟨⟨-, hitself⟩, rfl⟩ := hsome
    exact (needsItself_iff hkeys hi).1 hitself
  · intro h
    obtain ⟨m, huse, -⟩ := TransGen.head'_iff.1 h
    obtain ⟨i, hi⟩ := List.mem_iff_getElem?.1 (mem_keys_of_known huse)
    have hunplaced : needs.layers.contains n = false :=
      Bool.eq_false_iff.2 fun hin =>
        unplaced_of_transGen hkeys h (OrderedMap.contains_iff.1 hin)
    refine ⟨(n, i), List.mem_zipIdx_iff_getElem?.2 hi, ?_⟩
    simp only [hunplaced, (needsItself_iff hkeys hi).2 h, Bool.not_false, Bool.and_self, if_true]

/-- Induction along needs: a property that a node has once all nodes that follow it have it is a
property of every node from which no chain comes back to one of its members. -/
theorem induct {R : Node → Node → Prop} (hR : ∀ {x y}, R x y → needs.Uses x y)
    {motive : Node → Prop} (step : ∀ n, (∀ m, R n m → motive m) → motive n)
    (hacyclic : ∀ m, ReflTransGen R n m → ¬ TransGen R m m) : motive n := by
  by_cases hn : n ∈ needs.keys
  · let P : Node → Prop := fun m => m ∈ needs.keys ∧ ReflTransGen R n m
    let S : {m // P m} → {m // P m} → Prop := fun y x => TransGen R x.1 y.1
    have hfinite : Finite {m // P m} :=
      Set.Finite.subset (List.finite_toSet needs.keys) fun m hm => hm.1
    have htrans : IsTrans {m // P m} S := ⟨fun a b c hab hbc => TransGen.trans hbc hab⟩
    have hirrefl : Std.Irrefl S := ⟨fun x => hacyclic x.1 x.2.2⟩
    have hwf : WellFounded S := Finite.wellFounded_of_trans_of_irrefl S
    have hall : ∀ x : {m // P m}, motive x.1 := by
      intro x
      induction x using hwf.induction with
      | _ x ih =>
        refine step x.1 fun m hm => ?_
        exact ih ⟨m, (mem_known.1 (hR hm)).2, x.2.2.tail hm⟩ (.single hm)
    exact hall ⟨n, hn, .refl⟩
  · exact step n fun m hm => absurd (mem_keys_of_known (hR hm)) hn

/-- A node without a place leads to a recursive one. -/
theorem exists_cyclic (hkeys : needs.keys.Nodup) (hn : n ∈ needs.keys)
    (hunplaced : n ∉ needs.layers.keys) :
    ∃ m, ReflTransGen needs.Uses n m ∧ m ∈ needs.cyclic needs.layers := by
  by_contra hnone
  have hacyclic : ∀ m, ReflTransGen needs.Uses n m → ¬ TransGen needs.Uses m m :=
    fun m hm hcycle => hnone ⟨m, hm, (mem_cyclic_iff hkeys).2 hcycle⟩
  have hplaced : n ∈ needs.keys → n ∈ needs.layers.keys := by
    refine induct (motive := fun m => m ∈ needs.keys → m ∈ needs.layers.keys) (fun h => h)
      (fun m ih hm => ?_) hacyclic
    by_contra hm'
    obtain ⟨d, huse, hd⟩ := exists_unplaced hkeys hm hm'
    exact hd (ih d huse (mem_known.1 huse).2)
  exact hunplaced (hplaced hn)

end ConstPool.Needs
