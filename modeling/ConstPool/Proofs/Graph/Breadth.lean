import Mathlib.Data.List.Perm.Subperm
import Mathlib.Data.Nat.Find
import Mathlib.Logic.Relation
import Mathlib.Order.Bounds.Basic
import ConstPool.Proofs.Graph.Walk

/-!
# A walk measures distances

The level of a walk at a depth is the set of the vertices that are just so many steps away from the
roots. From one level to the next this is kept: what a vertex of the level leads to is one step
further away at most, and if it was not met before then it is no nearer. A vertex at a distance
lies behind others at every smaller distance, so a walk that may go through as many levels as there
are edges finds every vertex that there is.

A search with a queue takes the vertices one by one, where the walk takes them by levels. Both meet
the same vertices in the same order.

* `Graph.mem_met_walk`: the distances that a walk gives.
* `Graph.sweeps_start_iff`: a search with a queue ends, and with what the walk has met.
-/

namespace ConstPool.Graph

open Relation

variable {α : Type} {R : α → α → Prop} {roots : List α}

/-! ### Distances -/

/-- There is a way of so many steps from a vertex to another one. -/
inductive Way (R : α → α → Prop) (u : α) : Nat → α → Prop
  | here : Way R u 0 u
  | onward {n : Nat} {v t : α} : Way R u n v → R v t → Way R u (n + 1) t

/-- There is a way, of whatever length, exactly to what can be reached. -/
theorem exists_way_iff {u v : α} : (∃ n, Way R u n v) ↔ ReflTransGen R u v := by
  constructor
  · rintro ⟨n, h⟩
    induction h with
    | here => exact .refl
    | onward _ hstep ih => exact ih.tail hstep
  · intro h
    induction h with
    | refl => exact ⟨0, .here⟩
    | tail _ hstep ih =>
      obtain ⟨n, hway⟩ := ih
      exact ⟨n + 1, hway.onward hstep⟩

/-- The lengths of the ways from the roots to a vertex. -/
def lengths (R : α → α → Prop) (roots : List α) (v : α) : Set Nat :=
  {n | ∃ r ∈ roots, Way R r n v}

/-- The distance of a vertex from the nearest root is so much. -/
def Distance (R : α → α → Prop) (roots : List α) (v : α) (n : Nat) : Prop :=
  IsLeast (lengths R roots v) n

/-- A vertex has one distance at most. -/
theorem Distance.unique {v : α} {n m : Nat} (h : Distance R roots v n)
    (h' : Distance R roots v m) : n = m := IsLeast.unique h h'

/-- What can be reached has a distance. -/
theorem exists_distance_iff {v : α} :
    (∃ n, Distance R roots v n) ↔ ∃ r ∈ roots, ReflTransGen R r v := by
  classical
  constructor
  · rintro ⟨n, ⟨r, hr, hway⟩, -⟩
    exact ⟨r, hr, exists_way_iff.1 ⟨n, hway⟩⟩
  · rintro ⟨r, hr, hreach⟩
    obtain ⟨n, hway⟩ := exists_way_iff.2 hreach
    have hsome : ∃ n, n ∈ lengths R roots v := ⟨n, r, hr, hway⟩
    exact ⟨Nat.find hsome, Nat.find_spec hsome, fun m hm => Nat.find_min' hsome hm⟩

/-- The vertices at no distance are the roots. -/
theorem distance_zero_iff {v : α} : Distance R roots v 0 ↔ v ∈ roots := by
  constructor
  · rintro ⟨⟨r, hr, hway⟩, -⟩
    cases hway
    exact hr
  · intro hv
    exact ⟨⟨v, hv, .here⟩, fun m _ => Nat.zero_le m⟩

/-- A step leads one further at most. -/
theorem Distance.step {u v : α} {n : Nat} (h : Distance R roots u n) (hstep : R u v) :
    ∃ m ≤ n + 1, Distance R roots v m := by
  obtain ⟨⟨r, hr, hway⟩, -⟩ := h
  have hmem : n + 1 ∈ lengths R roots v := ⟨r, hr, hway.onward hstep⟩
  obtain ⟨m, hm⟩ := exists_distance_iff.2 ⟨r, hr, exists_way_iff.1 ⟨n + 1, hway.onward hstep⟩⟩
  exact ⟨m, hm.2 hmem, hm⟩

/-- A vertex that is no root is one step behind another one. -/
theorem Distance.pred {v : α} {n : Nat} (h : Distance R roots v (n + 1)) :
    ∃ u, Distance R roots u n ∧ R u v := by
  obtain ⟨⟨r, hr, hway⟩, hleast⟩ := h
  cases hway with
  | @onward _ u _ hway hstep =>
    refine ⟨u, ⟨⟨r, hr, hway⟩, ?_⟩, hstep⟩
    rintro m ⟨r', hr', hway'⟩
    have hle : n + 1 ≤ m + 1 := hleast ⟨r', hr', hway'.onward hstep⟩
    exact Nat.le_of_succ_le_succ hle

/-- The vertices at the next distance are those behind the ones at a distance that are no
nearer. -/
theorem distance_succ_iff {v : α} {n : Nat} :
    Distance R roots v (n + 1) ↔
      (∃ u, Distance R roots u n ∧ R u v) ∧ ∀ m ≤ n, ¬ Distance R roots v m := by
  constructor
  · intro h
    refine ⟨h.pred, fun m hm h' => ?_⟩
    have := h.unique h'
    omega
  · rintro ⟨⟨u, hu, hstep⟩, hfar⟩
    obtain ⟨m, hm, h⟩ := hu.step hstep
    have hlt : n < m := Nat.lt_of_not_le fun hle => hfar m hle h
    rwa [Nat.le_antisymm hm hlt] at h

/-- If no vertex is so far away then none is further. -/
theorem not_distance_of_le {d : Nat} (h : ∀ u, ¬ Distance R roots u d) {n : Nat} (hn : d ≤ n)
    (v : α) : ¬ Distance R roots v n := by
  induction n, hn using Nat.le_induction generalizing v with
  | base => exact h v
  | succ n _ ih =>
    intro hv
    obtain ⟨u, hu, -⟩ := hv.pred
    exact ih u hu

/-- Before a vertex at a distance there are as many others that something leads to. -/
theorem Distance.exists_nodup {v : α} {n : Nat} (h : Distance R roots v n) :
    ∃ vs : List α, vs.length = n ∧ vs.Nodup ∧
      ∀ u ∈ vs, (∃ t, R t u) ∧ ∃ m ≤ n, Distance R roots u m := by
  induction n generalizing v with
  | zero => exact ⟨[], rfl, .nil, fun _ hu => absurd hu List.not_mem_nil⟩
  | succ n ih =>
    obtain ⟨u, hu, hstep⟩ := h.pred
    obtain ⟨vs, hlength, hnodup, hvs⟩ := ih hu
    have hnew : v ∉ vs := by
      intro hv
      obtain ⟨-, m, hm, hnear⟩ := hvs v hv
      have := h.unique hnear
      omega
    refine ⟨v :: vs, by rw [List.length_cons, hlength], List.nodup_cons.2 ⟨hnew, hnodup⟩, ?_⟩
    intro t ht
    rcases List.mem_cons.1 ht with rfl | ht
    · exact ⟨⟨u, hstep⟩, n + 1, Nat.le_refl _, h⟩
    · obtain ⟨hled, m, hm, hnear⟩ := hvs t ht
      exact ⟨hled, m, Nat.le_succ_of_le hm, hnear⟩

/-- No distance is greater than the number of vertices that something leads to. -/
theorem Distance.le_length {targets : List α} (htargets : ∀ u v, R u v → v ∈ targets) {v : α}
    {n : Nat} (h : Distance R roots v n) : n ≤ targets.length := by
  obtain ⟨vs, hlength, hnodup, hvs⟩ := h.exists_nodup
  have hsub : vs ⊆ targets := by
    intro u hu
    obtain ⟨⟨t, ht⟩, -⟩ := hvs u hu
    exact htargets t u ht
  exact hlength ▸ (hnodup.subperm hsub).length_le

/-! ### The levels of a walk -/

variable [DecidableEq α] [Key α] {next : α → List α}

namespace Walk

/-- A walk has met what is within a distance, and its level is what is just so far away. -/
structure Levels (next : α → List α) (roots : List α) (depth : Nat) (w : Walk α) : Prop where
  met : ∀ v n, (v, n) ∈ w.met ↔ n ≤ depth ∧ Distance (Leads next) roots v n
  level : ∀ v, v ∈ w.level ↔ Distance (Leads next) roots v depth

variable {w : Walk α} {depth : Nat}

/-- A vertex was met if it was met at some distance. -/
theorem mem_vertices {v : α} : v ∈ w.vertices ↔ ∃ n, (v, n) ∈ w.met := by
  simp [vertices]

/-- What a walk has met is what lies within the distance it has gone. -/
theorem Levels.mem_vertices_iff (h : w.Levels next roots depth) (v : α) :
    v ∈ w.vertices ↔ ∃ n ≤ depth, Distance (Leads next) roots v n := by
  rw [mem_vertices]
  exact exists_congr fun n => h.met v n

/-- The level of the roots. -/
theorem levels_start : (roots.foldl (meet 0) .empty).Levels next roots 0 where
  met v n := by
    rw [mem_met_foldl, Nat.le_zero]
    constructor
    · rintro (h | ⟨rfl, hv, -⟩)
      · exact absurd h List.not_mem_nil
      · exact ⟨rfl, distance_zero_iff.2 hv⟩
    · rintro ⟨rfl, h⟩
      exact .inr ⟨rfl, distance_zero_iff.1 h, List.not_mem_nil⟩
  level v := by
    rw [mem_level_foldl, distance_zero_iff]
    constructor
    · rintro (h | ⟨hv, -⟩)
      · exact absurd h List.not_mem_nil
      · exact hv
    · exact fun hv => .inr ⟨hv, List.not_mem_nil⟩

/-- What is new behind a level is one step further away. -/
theorem Levels.new_iff (h : w.Levels next roots depth) (v : α) :
    v ∈ w.level.reverse.flatMap next ∧ v ∉ w.vertices ↔
      Distance (Leads next) roots v (depth + 1) := by
  rw [distance_succ_iff, h.mem_vertices_iff, List.mem_flatMap]
  simp only [List.mem_reverse, h.level, not_exists, not_and]

/-- One more level. -/
theorem Levels.step (h : w.Levels next roots depth) :
    (w.step next (depth + 1)).Levels next roots (depth + 1) where
  met v n := by
    have hnew := h.new_iff v
    rw [Walk.step, mem_met_foldl]
    constructor
    · rintro (hmet | ⟨rfl, hin, hout⟩)
      · obtain ⟨hn, hdistance⟩ := (h.met v n).1 hmet
        exact ⟨Nat.le_succ_of_le hn, hdistance⟩
      · exact ⟨Nat.le_refl _, hnew.1 ⟨hin, hout⟩⟩
    · rintro ⟨hn, hdistance⟩
      rcases Nat.le_succ_iff.1 hn with hn | rfl
      · exact .inl ((h.met v n).2 ⟨hn, hdistance⟩)
      · obtain ⟨hin, hout⟩ := hnew.2 hdistance
        exact .inr ⟨rfl, hin, hout⟩
  level v := by
    rw [Walk.step, mem_level_foldl, ← h.new_iff v]
    exact or_iff_right List.not_mem_nil

/-- All levels of a walk: it goes on until it may not, or until there is nothing left. -/
theorem Levels.extend (h : w.Levels next roots depth) (levels : Nat) :
    ∃ d, (w.extend next levels depth).Levels next roots d ∧
      (d = depth + levels ∨ (w.extend next levels depth).level = []) := by
  induction levels generalizing w depth with
  | zero => exact ⟨depth, h, .inl rfl⟩
  | succ levels ih =>
    rw [Walk.extend]
    split
    · next hempty => exact ⟨depth, h, .inr (List.isEmpty_iff.1 hempty)⟩
    · obtain ⟨d, hd, hend⟩ := ih h.step
      refine ⟨d, hd, hend.imp_left ?_⟩
      omega

/-- A vertex of which a walk gives the distance was met at that distance. -/
theorem mem_met_of_depth?_eq_some {v : α} {n : Nat} (h : w.depth? v = some n) :
    (v, n) ∈ w.met := by
  rw [depth?_eq] at h
  obtain ⟨before, after, hmet, -⟩ := List.lookup_eq_some_iff.1 h
  simp [hmet]

/-- What a walk has met has the distance with which it was met. -/
theorem Levels.depth?_eq_some_iff (h : w.Levels next roots depth) {v : α} {n : Nat} :
    w.depth? v = some n ↔ n ≤ depth ∧ Distance (Leads next) roots v n := by
  constructor
  · exact fun hn => (h.met v n).1 (mem_met_of_depth?_eq_some hn)
  · intro hn
    have hcontains : w.contains v :=
      contains_iff.2 ((h.mem_vertices_iff v).2 ⟨n, hn.1, hn.2⟩)
    obtain ⟨m, hm⟩ := Option.isSome_iff_exists.1 hcontains
    have hmet := (h.met v m).1 (mem_met_of_depth?_eq_some hm)
    rw [hm, hmet.2.unique hn.2]

end Walk

section Bounded

variable {levels : Nat} {targets : List α}

/-- A walk that may go through as many levels as there are vertices that something leads to goes as
far as there is anything. -/
theorem levels_walk (htargets : ∀ u, ∀ v ∈ next u, v ∈ targets) (hlevels : targets.length ≤ levels)
    (roots : List α) :
    ∃ d, (walk next levels roots).Levels next roots d ∧
      ∀ v n, Distance (Leads next) roots v n → n ≤ d := by
  have hstart : (roots.foldl (Walk.meet 0) .empty).Levels next roots 0 := Walk.levels_start
  obtain ⟨d, hd, hend⟩ := hstart.extend levels
  refine ⟨d, hd, fun v n hn => ?_⟩
  rcases hend with rfl | hempty
  · have := hn.le_length fun u v h => htargets u v h
    omega
  · have hnone : ∀ u, ¬ Distance (Leads next) roots u d := by
      intro u hu
      have hmem := (hd.level u).2 hu
      rw [hempty] at hmem
      cases hmem
    exact Nat.le_of_not_le fun hle => not_distance_of_le hnone hle v hn

/-- Such a walk meets what has a distance, with this distance. -/
theorem mem_met_walk (htargets : ∀ u, ∀ v ∈ next u, v ∈ targets)
    (hlevels : targets.length ≤ levels) {v : α} {n : Nat} :
    (v, n) ∈ (walk next levels roots).met ↔ Distance (Leads next) roots v n := by
  obtain ⟨d, hd, hfar⟩ := levels_walk htargets hlevels roots
  rw [hd.met]
  exact and_iff_right_of_imp (hfar v n)

/-- Such a walk gives a vertex its distance. -/
theorem depth?_walk (htargets : ∀ u, ∀ v ∈ next u, v ∈ targets)
    (hlevels : targets.length ≤ levels) {v : α} {n : Nat} :
    (walk next levels roots).depth? v = some n ↔ Distance (Leads next) roots v n := by
  obtain ⟨d, hd, hfar⟩ := levels_walk htargets hlevels roots
  rw [hd.depth?_eq_some_iff]
  exact and_iff_right_of_imp (hfar v n)

end Bounded

/-! ### Searches with a queue -/

/-- The course of a search with a queue, which is the level of the walk with the front last: the
vertex in front is taken, and what it leads to is met one step further away and put behind. The
search ends when the queue is empty. -/
inductive Sweeps (next : α → List α) : Walk α → Walk α → Prop
  | done {w : Walk α} : w.level = [] → Sweeps next w w
  | take {w w' : Walk α} {rest : List α} {v : α} {depth : Nat} :
    w.level = rest ++ [v] → w.depth? v = some depth →
      Sweeps next ((next v).foldl (Walk.meet (depth + 1)) { w with level := rest }) w' →
        Sweeps next w w'

namespace Walk

variable {w e : Walk α} {depth : Nat}

/-- What was met keeps its distance. -/
theorem depth?_foldl {us : List α} {v : α} {n : Nat} (h : w.depth? v = some n) :
    (us.foldl (meet depth) w).depth? v = some n := by
  induction us generalizing w with
  | nil => exact h
  | cons u us ih =>
    refine ih ?_
    unfold meet
    split
    · exact h
    · next hnew =>
      have hne : v ≠ u := by
        rintro rfl
        exact hnew (Option.isSome_iff_exists.2 ⟨n, h⟩)
      rw [depth?, Dict.get?_insert, if_neg hne]
      exact h

/-- Meeting a vertex puts it behind what is in the queue and leaves the front as it is. -/
theorem meet_append (w : Walk α) (u : α) (front : List α) :
    meet depth { w with level := w.level ++ front } u =
      { w.meet depth u with level := (w.meet depth u).level ++ front } := by
  by_cases hu : w.contains u
  · have hfront : ({ w with level := w.level ++ front } : Walk α).contains u := hu
    rw [meet, if_pos hfront, meet, if_pos hu]
  · have hfront : ¬ ({ w with level := w.level ++ front } : Walk α).contains u := hu
    rw [meet, if_neg hfront, meet, if_neg hu]
    rfl

/-- Meeting vertices does not look at the level, so what stands in front of it stays there. -/
theorem foldl_meet_append (depth : Nat) (us front : List α) (w : Walk α) :
    us.foldl (meet depth) { w with level := w.level ++ front } =
      { us.foldl (meet depth) w with level := (us.foldl (meet depth) w).level ++ front } := by
  induction us generalizing w with
  | nil => rfl
  | cons u us ih => rw [List.foldl_cons, List.foldl_cons, meet_append, ih]

end Walk

variable {w e : Walk α} {depth : Nat}

/-- A search with an empty queue is over. -/
theorem sweeps_empty_iff (h : w.level = []) : Sweeps next w e ↔ e = w := by
  constructor
  · intro hsweeps
    cases hsweeps with
    | done => rfl
    | take hlevel => simp [h] at hlevel
  · rintro rfl
    exact .done h

/-- The vertex in front is taken, and there is no other way to go on. -/
theorem sweeps_take_iff {rest : List α} {v : α} (hlevel : w.level = rest ++ [v])
    (hdepth : w.depth? v = some depth) :
    Sweeps next w e ↔
      Sweeps next ((next v).foldl (Walk.meet (depth + 1)) { w with level := rest }) e := by
  refine ⟨fun h => ?_, .take hlevel hdepth⟩
  cases h with
  | done hempty => simp [hempty] at hlevel
  | take hlevel' hdepth' hsweeps =>
    obtain ⟨rfl, hv⟩ := List.append_inj' (hlevel.symm.trans hlevel') rfl
    cases hv
    cases hdepth.symm.trans hdepth'
    exact hsweeps

/-- The front of the queue is taken vertex by vertex, which meets what all of them lead to. -/
theorem sweeps_front_iff (front : List α) {back : List α} (hlevel : w.level = back ++ front.reverse)
    (hdepth : ∀ v ∈ front, w.depth? v = some depth) :
    Sweeps next w e ↔
      Sweeps next ((front.flatMap next).foldl (Walk.meet (depth + 1)) { w with level := back })
        e := by
  induction front generalizing w back with
  | nil =>
    have hback : w.level = back := by simpa using hlevel
    rw [List.flatMap_nil, List.foldl_nil, ← hback]
  | cons v front ih =>
    rw [List.reverse_cons, ← List.append_assoc] at hlevel
    rw [sweeps_take_iff hlevel (hdepth v (List.mem_cons_self ..)), List.flatMap_cons,
      List.foldl_append]
    rw [Walk.foldl_meet_append (depth + 1) (next v) front.reverse { w with level := back }]
    refine ih rfl fun u hu => ?_
    exact Walk.depth?_foldl (w := { w with level := back })
      (hdepth u (List.mem_cons_of_mem _ hu))

/-- A search goes through the levels of a walk. -/
theorem sweeps_step_iff (h : w.Levels next roots depth) :
    Sweeps next w e ↔ Sweeps next (w.step next (depth + 1)) e := by
  refine sweeps_front_iff w.level.reverse (by simp) fun v hv => ?_
  exact h.depth?_eq_some_iff.2 ⟨Nat.le_refl _, (h.level v).1 (List.mem_reverse.1 hv)⟩

/-- The queue sweeps through the levels in the order in which the walk goes on. -/
theorem sweeps_extend_iff (h : w.Levels next roots depth) (levels : Nat) :
    Sweeps next w e ↔ Sweeps next (w.extend next levels depth) e := by
  induction levels generalizing w depth with
  | zero => exact Iff.rfl
  | succ levels ih =>
    rw [Walk.extend]
    split
    · exact Iff.rfl
    · exact (sweeps_step_iff h).trans (ih h.step)

/-- Behind the last level there is nothing to meet. -/
theorem Walk.Levels.step_eq (h : w.Levels next roots depth)
    (hfar : ∀ v, ¬ Distance (Leads next) roots v (depth + 1)) :
    w.step next (depth + 1) = { w with level := [] } := by
  have hold : ∀ us : List α, (∀ u ∈ us, w.contains u) →
      us.foldl (Walk.meet (depth + 1)) { w with level := [] } = { w with level := [] } := by
    intro us hus
    induction us with
    | nil => rfl
    | cons u us ih =>
      have hu : ({ w with level := [] } : Walk α).contains u := hus u (List.mem_cons_self ..)
      rw [List.foldl_cons, Walk.meet, if_pos hu]
      exact ih fun t ht => hus t (List.mem_cons_of_mem _ ht)
  refine hold _ fun u hu => Walk.contains_iff.2 ?_
  by_contra hnew
  exact hfar u ((h.new_iff u).1 ⟨hu, hnew⟩)

/-- A search with a queue ends, and it has met what the walk has met, in the same order. -/
theorem sweeps_start_iff {levels : Nat} {targets : List α}
    (htargets : ∀ u, ∀ v ∈ next u, v ∈ targets) (hlevels : targets.length ≤ levels) :
    Sweeps next (roots.foldl (Walk.meet 0) .empty) e ↔
      e = { walk next levels roots with level := [] } := by
  obtain ⟨d, hd, hfar⟩ := levels_walk htargets hlevels roots
  have hlast := hd.step_eq fun v hv => Nat.not_succ_le_self d (hfar v _ hv)
  rw [sweeps_extend_iff Walk.levels_start levels, ← hlast]
  refine (sweeps_step_iff hd).trans (sweeps_empty_iff ?_)
  rw [hlast]

end ConstPool.Graph
