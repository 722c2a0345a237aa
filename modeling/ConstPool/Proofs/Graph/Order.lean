import Mathlib.Data.List.Perm.Subperm
import Mathlib.Data.List.TakeWhile
import ConstPool.CallGraph
import ConstPool.Proofs.OrderedMap

/-!
# The order of the call graph

The order grows until nothing can be placed any more. Then a node is placed exactly if all that it
needs is placed, and a placed node stands higher than all that it needs.

The invariant of the growth (`Layering.Good`) says of every node that it is placed, that it is
ready, or that it waits for a need that is not placed. While the users of a node that was just
placed are looked at one after another, those that are still to be looked at are an exception.

Placing a node is one step, and the growth is a fold over the users of the node that was placed.
Each of these users is placed in turn if it has become ready, so the invariant is proved for lists
of users and the growth by induction on the number of nodes without a place.

* `Needs.height_lt`: a need of a placed node is placed, at a smaller height.
* `Needs.exists_unplaced`: a node without a place needs one without a place.
-/

namespace ConstPool

namespace Needs

variable {needs : Needs}

/-- The known needs of a node are its needs among the nodes of the map. -/
theorem mem_known {n d : Node} : d ∈ needs.known n ↔ d ∈ needs.direct n ∧ d ∈ needs.keys := by
  rw [known, List.mem_filter, OrderedMap.contains_iff]

/-- A node that needs something is one. -/
theorem mem_keys_of_known {n d : Node} (h : d ∈ needs.known n) : n ∈ needs.keys := by
  have hdirect := (mem_known.1 h).1
  unfold direct at hdirect
  rcases hget : needs.get? n with _ | ds
  · rw [hget] at hdirect
    cases hdirect
  · exact OrderedMap.mem_keys_of_get? hget

/-- The members of a list without repetitions that are a given one. -/
theorem filterMap_eq_of_nodup {n m : Node} {ds : List Node} (h : ds.Nodup) :
    (ds.filterMap fun d => if d = n then some m else none) = if n ∈ ds then [m] else [] := by
  induction ds with
  | nil => rfl
  | cons d ds ih =>
    obtain ⟨hd, h⟩ := List.nodup_cons.1 h
    by_cases hdn : d = n
    · subst hdn
      simp [ih h, hd]
    · have hnd : n ≠ d := fun h => hdn h.symm
      simp [hdn, hnd, ih h]

/-- The users of a node are the nodes that need it. -/
theorem users_eq (n : Node) :
    (needs.users.get? n).getD [] = needs.keys.filter fun m => n ∈ needs.known m := by
  rw [users, Dict.get?_group]
  induction needs.keys with
  | nil => rfl
  | cons m rest ih =>
    rw [List.flatMap_cons, List.filterMap_append, ih, List.filterMap_map]
    have hone : ((Graph.distinct (needs.known m)).filterMap
        ((fun e : Node × Node => if e.1 = n then some e.2 else none) ∘ fun d => (d, m))) =
          if n ∈ needs.known m then [m] else [] := by
      refine (filterMap_eq_of_nodup (Graph.nodup_distinct _)).trans ?_
      simp only [Graph.mem_distinct]
    rw [hone, List.filter_cons]
    by_cases h : n ∈ needs.known m <;> simp [h]

/-! ### Heights -/

/-- The height over a need is greater than its height. -/
theorem lt_heightOver {heights : OrderedMap Node Nat} {n d : Node} {h : Nat}
    (hd : d ∈ needs.known n) (hget : heights.get? d = some h) :
    h < needs.heightOver heights n := by
  have hmem : h + 1 ∈ (needs.known n).filterMap fun d => (heights.get? d).map (· + 1) :=
    List.mem_filterMap.2 ⟨d, hd, by rw [hget]; rfl⟩
  unfold heightOver
  rcases hmax : ((needs.known n).filterMap fun d => (heights.get? d).map (· + 1)).max? with _ | top
  · rw [List.max?_eq_none_iff] at hmax
    rw [hmax] at hmem
    cases hmem
  · have := (List.max?_eq_some_iff.1 hmax).2 _ hmem
    simp only [Option.getD_some]
    omega

/-- The height over needs depends on their heights alone. -/
theorem heightOver_congr {heights heights' : OrderedMap Node Nat} {n : Node}
    (h : ∀ d ∈ needs.known n, heights.get? d = heights'.get? d) :
    needs.heightOver heights n = needs.heightOver heights' n := by
  unfold heightOver
  have hsame : ((needs.known n).filterMap fun d => (heights.get? d).map (· + 1)) =
      (needs.known n).filterMap fun d => (heights'.get? d).map (· + 1) :=
    List.filterMap_congr fun d hd => by rw [h d hd]
  rw [hsame]

end Needs

namespace Layering

variable {needs : Needs} {placed : OrderedMap Node Nat} {waiting : Dict Node (List Node)}
  {pending unseen : List Node} {n : Node}

/-! ### The invariant -/

/-- The placed nodes: what they need is placed too, and their heights are right. -/
structure Placed (needs : Needs) (placed : OrderedMap Node Nat) : Prop where
  key : ∀ n ∈ placed.keys, n ∈ needs.keys
  needed : ∀ n ∈ placed.keys, ∀ d ∈ needs.known n, d ∈ placed.keys
  height : ∀ {n h}, placed.get? n = some h → h = needs.heightOver placed n
  nodup : placed.keys.Nodup

/-- A node that can be placed: all that it needs is placed, and it is not. -/
structure Placeable (needs : Needs) (placed : OrderedMap Node Nat) (n : Node) : Prop where
  key : n ∈ needs.keys
  needed : ∀ d ∈ needs.known n, d ∈ placed.keys
  unplaced : n ∉ placed.keys

/-- The nodes that are not placed. Those that are pending can be placed, those that are `unseen`
have still to be looked at, and each of the others waits for a need that is not placed. -/
structure Good (needs : Needs) (placed : OrderedMap Node Nat) (waiting : Dict Node (List Node))
    (pending unseen : List Node) : Prop where
  ready : ∀ n ∈ pending, Placeable needs placed n
  distinct : pending.Nodup
  noted : ∀ n, ∀ d ∈ (waiting.get? n).getD [], d ∈ needs.known n
  settled : ∀ n, ∀ d ∈ needs.known n, d ∈ (waiting.get? n).getD [] ∨ d ∈ placed.keys
  cover : ∀ n ∈ needs.keys, n ∈ placed.keys ∨ n ∈ pending ∨ n ∈ unseen ∨
    ∃ d rest, (waiting.get? n).getD [] = d :: rest ∧ d ∉ placed.keys
  aside : ∀ n ∈ unseen, n ∈ needs.keys ∧ n ∉ placed.keys ∧ n ∉ pending
  unseenDistinct : unseen.Nodup

/-- A node was looked at: what is left of its needs was noted, and it is pending if nothing is. -/
theorem Good.note (h : Good needs placed waiting pending (n :: unseen)) {left pending' : List Node}
    (hsub : ∀ d ∈ left, d ∈ needs.known n)
    (hrest : ∀ d ∈ needs.known n, d ∈ left ∨ d ∈ placed.keys)
    (hhead : ∀ d rest, left = d :: rest → d ∉ placed.keys) (hdistinct : pending'.Nodup)
    (hmem : ∀ m, m ∈ pending' ↔ m ∈ pending ∨ (m = n ∧ left = [])) :
    Good needs placed (waiting.insert n left) pending' unseen := by
  obtain ⟨hkey, hunplaced, -⟩ := h.aside n (List.mem_cons_self ..)
  obtain ⟨hn, hunseen⟩ := List.nodup_cons.1 h.unseenDistinct
  -- only the note of the node that was looked at changes
  have hget : ∀ m, ((waiting.insert n left).get? m).getD [] =
      if m = n then left else (waiting.get? m).getD [] := by
    intro m
    rw [Dict.get?_insert]
    split <;> rfl
  refine ⟨fun m hm => ?_, hdistinct, fun m d hd => ?_, fun m d hd => ?_, fun m hm => ?_,
    fun m hm => ?_, hunseen⟩
  · rcases (hmem m).1 hm with hm | ⟨rfl, rfl⟩
    · exact h.ready m hm
    · exact ⟨hkey, fun d hd => (hrest d hd).resolve_left List.not_mem_nil, hunplaced⟩
  · rw [hget] at hd
    split at hd
    · next hm => exact hm ▸ hsub d hd
    · exact h.noted m d hd
  · rw [hget]
    split
    · next hm => exact hrest d (hm ▸ hd)
    · exact h.settled m d hd
  · rw [hget]
    by_cases hmn : m = n
    · rw [if_pos hmn]
      rcases left with _ | ⟨d, rest⟩
      · exact .inr (.inl ((hmem m).2 (.inr ⟨hmn, rfl⟩)))
      · exact .inr (.inr (.inr ⟨d, rest, rfl, hhead d rest rfl⟩))
    · rw [if_neg hmn]
      rcases h.cover m hm with hplaced | hpending | hunseen | hwaits
      · exact .inl hplaced
      · exact .inr (.inl ((hmem m).2 (.inl hpending)))
      · exact .inr (.inr (.inl ((List.mem_cons.1 hunseen).resolve_left hmn)))
      · exact .inr (.inr (.inr hwaits))
  · obtain ⟨hmkey, hmplaced, hmpending⟩ := h.aside m (List.mem_cons_of_mem _ hm)
    refine ⟨hmkey, hmplaced, fun hin => ?_⟩
    rcases (hmem m).1 hin with hin | ⟨rfl, -⟩
    · exact hmpending hin
    · exact hn hm

/-- What is dropped from a list passes the test. -/
theorem mem_dropWhile_or {α : Type} {test : α → Bool} {xs : List α} {x : α} (h : x ∈ xs) :
    x ∈ xs.dropWhile test ∨ test x = true := by
  rw [← List.takeWhile_append_dropWhile (p := test) (l := xs), List.mem_append] at h
  exact h.symm.imp_right List.mem_takeWhile_imp

/-- A node of which a need was placed is looked at. -/
theorem Good.look {p : Layering} {queue : List Node}
    (h : Good needs p.placed p.waiting (queue ++ p.ready) (n :: unseen)) :
    (p.look n).placed = p.placed ∧
      Good needs (p.look n).placed (p.look n).waiting (queue ++ (p.look n).ready) unseen := by
  obtain ⟨-, -, hpending⟩ := h.aside n (List.mem_cons_self ..)
  refine ⟨rfl, h.note (fun d hd => ?_) (fun d hd => ?_) (fun d rest hleft => ?_) ?_ fun m => ?_⟩
  · exact h.noted n d ((List.dropWhile_sublist _).subset hd)
  · rcases h.settled n d hd with hwait | hplaced
    · exact (mem_dropWhile_or hwait).imp_right OrderedMap.contains_iff.1
    · exact .inr hplaced
  · have hnot := List.head?_dropWhile_not p.placed.contains ((p.waiting.get? n).getD [])
    rw [hleft] at hnot
    intro hplaced
    simp [OrderedMap.contains_iff.2 hplaced] at hnot
  · unfold Layering.look
    simp only
    split
    · exact List.nodup_middle.2 (List.nodup_cons.2 ⟨hpending, h.distinct⟩)
    · exact h.distinct
  · unfold Layering.look
    simp only [List.isEmpty_iff]
    split
    · next hleft => simp [hleft, or_assoc, or_comm (a := m = n)]
    · next hleft => simp [hleft]

/-- All users of a node are looked at. -/
theorem Good.lookAll {p : Layering} {queue : List Node}
    (h : Good needs p.placed p.waiting (queue ++ p.ready) unseen) :
    (unseen.foldl Layering.look p).placed = p.placed ∧
      Good needs p.placed (unseen.foldl Layering.look p).waiting
        (queue ++ (unseen.foldl Layering.look p).ready) [] := by
  induction unseen generalizing p with
  | nil => exact ⟨rfl, h⟩
  | cons n rest ih =>
    obtain ⟨hsame, hgood⟩ := h.look
    obtain ⟨hplaced, hlast⟩ := ih hgood
    exact ⟨hplaced.trans hsame, hsame ▸ hlast⟩

/-! ### Placing a node -/

/-- A node that can be placed takes its place. -/
theorem Placed.insert (h : Placed needs placed) (hn : Placeable needs placed n) :
    Placed needs (placed.insert n (needs.heightOver placed n)) := by
  have hold : ∀ m, m ≠ n → (placed.insert n (needs.heightOver placed n)).get? m =
      placed.get? m := fun m hm => OrderedMap.get?_insert_of_ne _ hm _
  have hneeded : ∀ m, m ∈ placed.keys ∨ m = n → ∀ d ∈ needs.known m, d ∈ placed.keys := by
    rintro m (hm | rfl)
    · exact h.needed m hm
    · exact hn.needed
  have hheight : ∀ m, m ∈ placed.keys ∨ m = n →
      needs.heightOver (placed.insert n (needs.heightOver placed n)) m =
        needs.heightOver placed m := fun m hm =>
    Needs.heightOver_congr fun d hd => hold d fun hdn => hn.unplaced (hdn ▸ hneeded m hm d hd)
  refine ⟨fun m hm => ?_, fun m hm d hd => ?_, fun {m k} hget => ?_,
    OrderedMap.nodup_keys_insert h.nodup _ _⟩
  · rcases OrderedMap.mem_keys_insert.1 hm with hm | rfl
    · exact h.key m hm
    · exact hn.key
  · exact OrderedMap.mem_keys_insert.2 (.inl (hneeded m (OrderedMap.mem_keys_insert.1 hm) d hd))
  · rw [OrderedMap.get?_insert] at hget
    split at hget
    · next hm =>
      cases hget
      rw [hm, hheight n (.inr rfl)]
    · rw [hheight m (.inl (OrderedMap.mem_keys_of_get? hget))]
      exact h.height hget

/-- When a node takes its place, its users are still to be looked at. -/
theorem Good.insert (hkeys : needs.keys.Nodup) (hplaced : Placed needs placed)
    (h : Good needs placed waiting (n :: pending) []) (k : Nat) :
    Good needs (placed.insert n k) waiting pending
      (needs.keys.filter fun m => n ∈ needs.known m) := by
  have hn := h.ready n (List.mem_cons_self ..)
  obtain ⟨hnew, hdistinct⟩ := List.nodup_cons.1 h.distinct
  have hmem : ∀ m, m ∈ (placed.insert n k).keys ↔ m ∈ placed.keys ∨ m = n :=
    fun m => OrderedMap.mem_keys_insert
  refine ⟨fun m hm => ?_, hdistinct, h.noted, fun m d hd => ?_, fun m hm => ?_, fun m hm => ?_,
    hkeys.filter _⟩
  · have hready := h.ready m (List.mem_cons_of_mem _ hm)
    refine ⟨hready.key, fun d hd => (hmem d).2 (.inl (hready.needed d hd)), fun hin => ?_⟩
    rcases (hmem m).1 hin with hin | rfl
    · exact hready.unplaced hin
    · exact hnew hm
  · exact (h.settled m d hd).imp_right fun hd => (hmem d).2 (.inl hd)
  · rcases h.cover m hm with hin | hpending | hunseen | ⟨d, rest, hwait, hd⟩
    · exact .inl ((hmem m).2 (.inl hin))
    · rcases List.mem_cons.1 hpending with rfl | hpending
      · exact .inl ((hmem m).2 (.inr rfl))
      · exact .inr (.inl hpending)
    · cases hunseen
    · -- a node that waits for the one that takes its place is a user of it, so it is looked at next
      by_cases hdn : d = n
      · have hknown : d ∈ needs.known m := h.noted m d (by rw [hwait]; exact List.mem_cons_self ..)
        refine .inr (.inr (.inl (List.mem_filter.2 ⟨hm, ?_⟩)))
        rw [← hdn, decide_eq_true hknown]
      · refine .inr (.inr (.inr ⟨d, rest, hwait, fun hin => ?_⟩))
        exact ((hmem d).1 hin).elim hd hdn
  · obtain ⟨hkey, huses⟩ := List.mem_filter.1 hm
    have huses : n ∈ needs.known m := of_decide_eq_true huses
    refine ⟨hkey, fun hin => ?_, fun hin => ?_⟩
    · rcases (hmem m).1 hin with hin | rfl
      · exact hn.unplaced (hplaced.needed m hin n huses)
      · exact hn.unplaced (hn.needed m huses)
    · exact hn.unplaced ((h.ready m (List.mem_cons_of_mem _ hin)).needed n huses)

/-! ### Growing -/

/-- The order between two steps, while the nodes of `queue` are still to be placed in this
round. -/
structure Growing (needs : Needs) (p : Layering) (queue : List Node) : Prop where
  placed : Placed needs p.placed
  good : Good needs p.placed p.waiting (queue ++ p.ready) []

/-- Placing one node. -/
theorem Growing.put (hkeys : needs.keys.Nodup) {p : Layering} {queue : List Node}
    (h : Growing needs p (n :: queue)) :
    Growing needs (Layering.put needs needs.users p n) queue ∧
      (Layering.put needs needs.users p n).placed.keys = p.placed.keys ++ [n] := by
  have hn := h.good.ready n (List.mem_cons_self ..)
  have hgood := (h.good.insert hkeys h.placed (needs.heightOver p.placed n)).lookAll
    (p := { p with placed := p.placed.insert n (needs.heightOver p.placed n) })
  rw [← Needs.users_eq] at hgood
  obtain ⟨hsame, hgood⟩ := hgood
  have hplaced : (Layering.put needs needs.users p n).placed =
      p.placed.insert n (needs.heightOver p.placed n) := hsame
  refine ⟨⟨?_, ?_⟩, ?_⟩
  · rw [hplaced]
    exact h.placed.insert hn
  · rw [hplaced]
    exact hgood
  · rw [hplaced, OrderedMap.keys_insert_of_not_mem hn.unplaced]

/-- Placing the nodes of one round. -/
theorem Growing.round (hkeys : needs.keys.Nodup) {p : Layering} {queue : List Node}
    (h : Growing needs p queue) :
    Growing needs (queue.foldl (Layering.put needs needs.users) p) [] ∧
      (queue.foldl (Layering.put needs needs.users) p).placed.keys = p.placed.keys ++ queue := by
  induction queue generalizing p with
  | nil => exact ⟨h, by simp⟩
  | cons n rest ih =>
    obtain ⟨hput, hplaced⟩ := h.put hkeys
    obtain ⟨hrest, hall⟩ := ih hput
    exact ⟨hrest, by rw [List.foldl_cons, hall, hplaced, List.append_assoc]; rfl⟩

/-- The ready nodes make up the next round. -/
theorem Growing.next {p : Layering} (h : Growing needs p []) :
    Growing needs { p with ready := [] } p.ready.reverse := by
  have hgood := h.good
  refine ⟨h.placed, fun m hm => hgood.ready m ?_, ?_, hgood.noted, hgood.settled, fun m hm => ?_,
    fun _ hm => (nomatch hm), .nil⟩
  · simpa using hm
  · simpa using hgood.distinct
  · simpa using hgood.cover m hm

/-- The order grows until nothing is ready, or by a node each time. -/
theorem Growing.grow (hkeys : needs.keys.Nodup) {p : Layering} (h : Growing needs p [])
    (times : Nat) :
    Growing needs (Layering.grow needs needs.users times p) [] ∧
      ((Layering.grow needs needs.users times p).ready = [] ∨
        p.placed.keys.length + times ≤
          (Layering.grow needs needs.users times p).placed.keys.length) := by
  induction times generalizing p with
  | zero => exact ⟨h, .inr (Nat.le_refl _)⟩
  | succ times ih =>
    by_cases hempty : p.ready = []
    · have hsame : Layering.grow needs needs.users (times + 1) p = p := by
        simp [Layering.grow, hempty]
      rw [hsame]
      exact ⟨h, .inl hempty⟩
    · have hgo : Layering.grow needs needs.users (times + 1) p =
          Layering.grow needs needs.users times
            (p.ready.reverse.foldl (Layering.put needs needs.users) { p with ready := [] }) := by
        simp [Layering.grow, hempty]
      obtain ⟨hround, hkeysRound⟩ := h.next.round hkeys
      obtain ⟨hend, hcount⟩ := ih hround
      rw [hgo]
      refine ⟨hend, hcount.imp_right fun hle => ?_⟩
      have hpos := List.length_pos_iff.2 hempty
      simp only [hkeysRound, List.length_append, List.length_reverse] at hle
      omega

/-- A list that gives every member a value is read so. -/
theorem lookup_map {α β : Type} [DecidableEq α] (f : α → β) (xs : List α) (x : α) :
    (xs.map fun y => (y, f y)).lookup x = if x ∈ xs then some (f x) else none := by
  induction xs with
  | nil => rfl
  | cons y ys ih =>
    rw [List.map_cons, List.lookup_cons]
    by_cases h : x = y
    · simp [h]
    · simp [h, beq_eq_false_iff_ne.2 h, ih]

/-- At the start every node waits for all that it needs. -/
theorem get?_start (needs : Needs) (n : Node) :
    ((Layering.start needs).waiting.get? n).getD [] = needs.known n := by
  have hlookup : (Layering.start needs).waiting.get? n =
      (needs.keys.map fun n => (n, needs.known n)).lookup n := Dict.get?_ofList _ _
  rw [hlookup, lookup_map]
  split
  · rfl
  · next hn =>
    refine (List.eq_nil_iff_forall_not_mem.2 fun d hd => ?_).symm
    exact hn (Needs.mem_keys_of_known hd)

/-- At the start the nodes that need nothing are pending. -/
theorem growing_start (hkeys : needs.keys.Nodup) : Growing needs (.start needs) [] := by
  have hnone : ∀ m, m ∉ (OrderedMap.empty : OrderedMap Node Nat).keys := fun m hm => nomatch hm
  have hmem : ∀ m, m ∈ (Layering.start needs).ready ↔ m ∈ needs.keys ∧ needs.known m = [] := by
    intro m
    simp [Layering.start]
  refine ⟨⟨fun m hm => absurd hm (hnone m), fun m hm => absurd hm (hnone m), fun hget => ?_, .nil⟩,
    ⟨fun m hm => ?_, ?_, fun m d hd => ?_, fun m d hd => ?_, fun m hm => ?_,
      fun _ hm => (nomatch hm), .nil⟩⟩
  · exact absurd (OrderedMap.mem_keys_of_get? hget) (hnone _)
  · obtain ⟨hkey, hempty⟩ := (hmem m).1 hm
    refine ⟨hkey, fun d hd => ?_, hnone m⟩
    rw [hempty] at hd
    cases hd
  · exact List.nodup_reverse.2 (hkeys.filter _)
  · rwa [get?_start] at hd
  · rw [get?_start]
    exact .inl hd
  · rw [get?_start]
    rcases hknown : needs.known m with _ | ⟨d, rest⟩
    · exact .inr (.inl ((hmem m).2 ⟨hm, hknown⟩))
    · exact .inr (.inr (.inr ⟨d, rest, rfl, hnone d⟩))

end Layering

/-! ### The order -/

namespace Needs

variable {needs : Needs}

/-- The order has grown as far as it can when it has grown as often as there are nodes. -/
theorem ready_grow_size (hkeys : needs.keys.Nodup) :
    (Layering.grow needs needs.users needs.size (.start needs)).ready = [] := by
  obtain ⟨⟨hplaced, hgood⟩, hcount⟩ := (Layering.growing_start hkeys).grow hkeys needs.size
  rcases hcount with hdone | hmany
  · exact hdone
  · refine List.eq_nil_iff_forall_not_mem.2 fun n hn => ?_
    have hplaceable := hgood.ready n hn
    have hnodup := List.nodup_cons.2 ⟨hplaceable.unplaced, hplaced.nodup⟩
    have hsub := List.cons_subset.2 ⟨hplaceable.key, fun m hm => hplaced.key m hm⟩
    have hle := (List.subperm_of_subset hnodup hsub).length_le
    have hsize : needs.size = needs.keys.length := by
      simp [OrderedMap.size, OrderedMap.keys, OrderedSet.size, OrderedSet.toList]
    rw [List.length_cons] at hle
    omega

/-- The order as far as it grows: what is placed is right, and nothing is left that could be
placed. -/
theorem layers_spec (hkeys : needs.keys.Nodup) :
    ∃ waiting, Layering.Placed needs needs.layers ∧
      Layering.Good needs needs.layers waiting [] [] := by
  obtain ⟨⟨hplaced, hgood⟩, -⟩ := (Layering.growing_start hkeys).grow hkeys needs.size
  rw [ready_grow_size hkeys] at hgood
  exact ⟨_, hplaced, hgood⟩

/-- A need of a placed node is placed, at a smaller height. -/
theorem height_lt (hkeys : needs.keys.Nodup) {n d : Node} {h : Nat}
    (hn : needs.layers.get? n = some h) (hd : d ∈ needs.known n) :
    ∃ h', needs.layers.get? d = some h' ∧ h' < h := by
  obtain ⟨waiting, hplaced, -⟩ := layers_spec hkeys
  obtain ⟨h', hget⟩ := OrderedMap.exists_of_mem_keys
    (hplaced.needed n (OrderedMap.mem_keys_of_get? hn) d hd)
  refine ⟨h', hget, ?_⟩
  rw [hplaced.height hn]
  exact lt_heightOver hd hget

/-- A node without a place needs one without a place. -/
theorem exists_unplaced (hkeys : needs.keys.Nodup) {n : Node} (hn : n ∈ needs.keys)
    (hunplaced : n ∉ needs.layers.keys) : ∃ d ∈ needs.known n, d ∉ needs.layers.keys := by
  obtain ⟨waiting, -, hgood⟩ := layers_spec hkeys
  rcases hgood.cover n hn with hin | hin | hin | ⟨d, rest, hwait, hd⟩
  · exact absurd hin hunplaced
  · cases hin
  · cases hin
  · exact ⟨d, hgood.noted n d (by rw [hwait]; exact List.mem_cons_self ..), hd⟩

end Needs

end ConstPool
