import Mathlib.Data.List.Perm.Subperm
import Mathlib.Logic.Relation
import ConstPool.Graph.Reach

/-!
# A walk meets what can be reached

A walk that goes on until it finds nothing new has met every vertex that can be reached from its
roots, and no other. Each level that is not the last one finds a vertex, so a walk through a graph
with so many vertices needs no more levels than that.

A walk that is shown a vertex adds it to what it has met, if it is new, and to its next level. What
it has met after being shown some vertices (`Walk.Shown`) is said once, for one vertex and for
lists of them. The bound on the levels is met because levels are disjoint: each new level takes at
least one vertex of the graph that no earlier level has.

* `Graph.contains_walk`: the vertices that a walk has met.
* `Graph.alike_walk`: the order of the roots makes no difference.
-/

namespace ConstPool.Graph

variable {α : Type} [DecidableEq α] [Key α] {next : α → List α}

/-- A vertex leads to another one in one step. -/
abbrev Leads (next : α → List α) (u v : α) : Prop := v ∈ next u

namespace Walk

/-- The vertices that were met, newest first. -/
def vertices (w : Walk α) : List α := w.met.map Prod.fst

/-- The test for a vertex finds those that were met. -/
theorem contains_iff {w : Walk α} {v : α} : w.contains v ↔ v ∈ w.vertices := by
  rw [contains, depth?_eq, vertices, List.mem_map, List.lookup_isSome_iff]
  simp

/-! ### Meeting vertices -/

/-- After meeting a vertex the walk has met it, whether it was new or not. -/
theorem mem_vertices_meet {w : Walk α} {depth : Nat} {u v : α} :
    v ∈ (w.meet depth u).vertices ↔ v ∈ w.vertices ∨ v = u := by
  unfold meet
  split
  · next h =>
    refine ⟨.inl, ?_⟩
    rintro (hv | rfl)
    · exact hv
    · exact contains_iff.1 h
  · simp [vertices, or_comm]

/-- What a walk has met, and how, after it was shown some vertices. -/
structure Shown (w w' : Walk α) (us : List α) : Prop where
  vertices : ∀ v, v ∈ w'.vertices ↔ v ∈ w.vertices ∨ v ∈ us
  nodup : w.vertices.Nodup → w'.vertices.Nodup
  level : ∀ v ∈ w'.vertices, v ∈ w.vertices ∨ v ∈ w'.level
  sub : w.level ⊆ w'.level
  met : w.level ⊆ w.vertices → w'.level ⊆ w'.vertices
  length : w'.vertices.length + w.level.length = w.vertices.length + w'.level.length

/-- One vertex is shown to the walk. -/
theorem shown_meet (w : Walk α) (depth : Nat) (u : α) : Shown w (w.meet depth u) [u] := by
  by_cases h : w.contains u
  · have hsame : w.meet depth u = w := by simp [meet, h]
    have hu := contains_iff.1 h
    refine ⟨fun v => ?_, ?_, ?_, ?_, ?_, ?_⟩ <;> rw [hsame]
    · rw [List.mem_singleton]
      exact ⟨.inl, fun hv => hv.elim (fun hv => hv) fun hv => hv ▸ hu⟩
    · exact fun hn => hn
    · exact fun v hv => .inl hv
    · exact fun _ hv => hv
    · exact fun hl => hl
  · have hu : u ∉ w.vertices := fun hu => h (contains_iff.2 hu)
    have hnew : (w.meet depth u).vertices = u :: w.vertices := by simp [meet, h, Walk.vertices]
    have hlevel : (w.meet depth u).level = u :: w.level := by simp [meet, h]
    refine ⟨fun v => ?_, ?_, ?_, ?_, ?_, ?_⟩ <;> simp only [hnew, hlevel]
    · simp [or_comm]
    · exact fun hn => List.nodup_cons.2 ⟨hu, hn⟩
    · intro v hv
      rcases List.mem_cons.1 hv with rfl | hv
      · exact .inr (List.mem_cons_self ..)
      · exact .inl hv
    · exact List.subset_cons_self ..
    · exact fun hl => List.cons_subset_cons u hl
    · simp only [List.length_cons]
      omega

/-- Some vertices, and then some more. -/
theorem Shown.trans {w w' w'' : Walk α} {us us' : List α} (h : Shown w w' us)
    (h' : Shown w' w'' us') : Shown w w'' (us ++ us') where
  vertices v := by rw [h'.vertices, h.vertices, List.mem_append, or_assoc]
  nodup hn := h'.nodup (h.nodup hn)
  level v hv := by
    rcases h'.level v hv with hv | hv
    · exact (h.level v hv).imp_right fun hv => h'.sub hv
    · exact .inr hv
  sub := List.Subset.trans h.sub h'.sub
  met hl := h'.met (h.met hl)
  length := by
    have := h.length
    have := h'.length
    omega

/-- A walk is shown vertices one after another. -/
theorem shown_foldl (depth : Nat) (us : List α) (w : Walk α) :
    Shown w (us.foldl (meet depth) w) us := by
  induction us generalizing w with
  | nil => exact ⟨by simp, fun h => h, fun _ h => .inl h, fun _ h => h, fun h => h, rfl⟩
  | cons u us ih => exact (w.shown_meet depth u).trans (ih _)

/-! ### Levels -/

/-- A walk between two levels: what it met before the last level leads to nothing that it has
not met. -/
structure Closed (next : α → List α) (w : Walk α) : Prop where
  nodup : w.vertices.Nodup
  level : w.level ⊆ w.vertices
  closed : ∀ v ∈ w.vertices, v ∉ w.level → ∀ u ∈ next v, u ∈ w.vertices

/-- One more level. -/
theorem Closed.step {w : Walk α} (h : w.Closed next) (depth : Nat) :
    (w.step next depth).Closed next ∧
      (w.step next depth).vertices.length = w.vertices.length + (w.step next depth).level.length ∧
      ∀ v, v ∈ (w.step next depth).vertices ↔
        v ∈ w.vertices ∨ ∃ u ∈ w.level, v ∈ next u := by
  have hshown : Shown { w with level := [] } (w.step next depth)
      (w.level.reverse.flatMap next) := shown_foldl depth _ _
  have hmem : ∀ v, v ∈ (w.step next depth).vertices ↔
      v ∈ w.vertices ∨ ∃ u ∈ w.level, v ∈ next u := by
    intro v
    rw [hshown.vertices v, List.mem_flatMap]
    simp only [List.mem_reverse]
    rfl
  refine ⟨⟨hshown.nodup h.nodup, hshown.met (List.nil_subset _), ?_⟩, ?_, hmem⟩
  · intro v hv hlevel u hu
    rcases hshown.level v hv with hold | hnew
    · by_cases hl : v ∈ w.level
      · exact (hmem u).2 (.inr ⟨v, hl, hu⟩)
      · exact (hmem u).2 (.inl (h.closed v hold hl u hu))
    · exact absurd hnew hlevel
  · exact hshown.length

/-- What the levels of a walk find can be reached, and what was met stays met. -/
theorem Closed.extend {w : Walk α} (h : w.Closed next) (levels depth : Nat) :
    (w.extend next levels depth).Closed next ∧
      ((w.extend next levels depth).level = [] ∨
        w.vertices.length + levels ≤ (w.extend next levels depth).vertices.length) ∧
      (∀ v ∈ w.vertices, v ∈ (w.extend next levels depth).vertices) ∧
      ∀ v ∈ (w.extend next levels depth).vertices,
        ∃ u ∈ w.vertices, Relation.ReflTransGen (Leads next) u v := by
  induction levels generalizing w depth with
  | zero => exact ⟨h, .inr (Nat.le_refl _), fun _ hv => hv, fun v hv => ⟨v, hv, .refl⟩⟩
  | succ levels ih =>
    by_cases hempty : w.level = []
    · have hsame : w.extend next (levels + 1) depth = w := by simp [Walk.extend, hempty]
      rw [hsame]
      exact ⟨h, .inl hempty, fun _ hv => hv, fun v hv => ⟨v, hv, .refl⟩⟩
    · have hgo : w.extend next (levels + 1) depth =
          (w.step next (depth + 1)).extend next levels (depth + 1) := by
        simp [Walk.extend, hempty]
      rw [hgo]
      obtain ⟨hclosed, hlength, hmem⟩ := h.step (depth + 1)
      obtain ⟨hend, hlevels, hmet, hreach⟩ := ih hclosed (depth + 1)
      refine ⟨hend, ?_, fun v hv => hmet v ((hmem v).2 (.inl hv)), ?_⟩
      · rcases hlevels with hdone | hmany
        · exact .inl hdone
        · -- the new level has a vertex that was not met before, or else the walk stays where it is
          by_cases hstep : (w.step next (depth + 1)).level = []
          · refine .inl ?_
            have : (w.step next (depth + 1)).extend next levels (depth + 1) =
                w.step next (depth + 1) := by
              cases levels <;> simp [Walk.extend, hstep]
            rw [this, hstep]
          · have hpos := List.length_pos_iff.2 hstep
            exact .inr (by omega)
      · intro v hv
        obtain ⟨u, hu, huv⟩ := hreach v hv
        rcases (hmem u).1 hu with hu | ⟨t, ht, htu⟩
        · exact ⟨u, hu, huv⟩
        · exact ⟨t, h.level ht, .head htu huv⟩

/-! ### Walks that do not differ -/

/-- The vertices that are met among the given ones, in addition to those before. -/
theorem mem_met_foldl {w : Walk α} {depth : Nat} {us : List α} {e : α × Nat} :
    e ∈ (us.foldl (meet depth) w).met ↔
      e ∈ w.met ∨ e.2 = depth ∧ e.1 ∈ us ∧ e.1 ∉ w.vertices := by
  induction us generalizing w with
  | nil => simp
  | cons u us ih =>
    rw [List.foldl_cons, ih, mem_vertices_meet]
    -- a vertex that was met before is not met again, at whatever depth
    by_cases hu : w.contains u
    · have hsame : w.meet depth u = w := by simp [meet, hu]
      have hmem := contains_iff.1 hu
      rw [hsame, List.mem_cons]
      refine or_congr_right (and_congr_right fun _ => ⟨?_, ?_⟩)
      · exact fun h => ⟨.inr h.1, fun hv => h.2 (.inl hv)⟩
      · rintro ⟨heq | hin, hnew⟩
        · exact absurd (heq ▸ hmem) hnew
        · exact ⟨hin, fun h => h.elim hnew fun heq => hnew (heq ▸ hmem)⟩
    · have hmet : (w.meet depth u).met = (u, depth) :: w.met := by simp [meet, hu]
      have hnot : u ∉ w.vertices := fun h => hu (contains_iff.2 h)
      obtain ⟨v, d⟩ := e
      rw [hmet, List.mem_cons, List.mem_cons, Prod.mk.injEq, not_or]
      constructor
      · rintro ((⟨rfl, rfl⟩ | hin) | ⟨hd, hin, hnew, -⟩)
        · exact .inr ⟨rfl, .inl rfl, hnot⟩
        · exact .inl hin
        · exact .inr ⟨hd, .inr hin, hnew⟩
      · rintro (hin | ⟨hd, hin, hnew⟩)
        · exact .inl (.inr hin)
        · by_cases hv : v = u
          · exact .inl (.inl ⟨hv, hd⟩)
          · exact .inr ⟨hd, hin.resolve_left hv, hnew, hv⟩

/-- The vertices that are new among the given ones make up the level, beside those before. -/
theorem mem_level_foldl {w : Walk α} {depth : Nat} {us : List α} {v : α} :
    v ∈ (us.foldl (meet depth) w).level ↔ v ∈ w.level ∨ v ∈ us ∧ v ∉ w.vertices := by
  induction us generalizing w with
  | nil => simp
  | cons u us ih =>
    rw [List.foldl_cons, ih, mem_vertices_meet]
    by_cases hu : w.contains u
    · have hsame : w.meet depth u = w := by simp [meet, hu]
      have hmem := contains_iff.1 hu
      rw [hsame, List.mem_cons]
      refine or_congr_right ⟨?_, ?_⟩
      · exact fun h => ⟨.inr h.1, fun hv => h.2 (.inl hv)⟩
      · rintro ⟨rfl | hin, hnew⟩
        · exact absurd hmem hnew
        · exact ⟨hin, fun h => h.elim hnew fun heq => hnew (heq ▸ hmem)⟩
    · have hlevel : (w.meet depth u).level = u :: w.level := by simp [meet, hu]
      have hnot : u ∉ w.vertices := fun h => hu (contains_iff.2 h)
      rw [hlevel, List.mem_cons, List.mem_cons, not_or]
      constructor
      · rintro ((rfl | hin) | ⟨hin, hnew, -⟩)
        · exact .inr ⟨.inl rfl, hnot⟩
        · exact .inl hin
        · exact .inr ⟨.inr hin, hnew⟩
      · rintro (hin | ⟨hin, hnew⟩)
        · exact .inl (.inr hin)
        · by_cases hv : v = u
          · exact .inl (.inl hv)
          · exact .inr ⟨hin.resolve_left hv, hnew, hv⟩

/-- Walks that have met the same vertices at the same distances, in whatever order. -/
structure Alike (w w' : Walk α) : Prop where
  met : ∀ e, e ∈ w.met ↔ e ∈ w'.met
  level : ∀ v, v ∈ w.level ↔ v ∈ w'.level

namespace Alike

variable {w w' : Walk α}

/-- Alike walks have met the same vertices. -/
theorem vertices (h : Alike w w') (v : α) : v ∈ w.vertices ↔ v ∈ w'.vertices := by
  simp only [Walk.vertices, List.mem_map, h.met]

/-- They answer alike whether a vertex was met. -/
theorem contains_eq (h : Alike w w') (v : α) : w.contains v = w'.contains v := by
  rw [Bool.eq_iff_iff, contains_iff, contains_iff, h.vertices]

/-- They stay alike when they are shown the same vertices, in whatever order. -/
theorem foldl (h : Alike w w') (depth : Nat) {us us' : List α} (hus : ∀ u, u ∈ us ↔ u ∈ us') :
    Alike (us.foldl (meet depth) w) (us'.foldl (meet depth) w') where
  met e := by rw [mem_met_foldl, mem_met_foldl, h.met, hus, h.vertices]
  level v := by rw [mem_level_foldl, mem_level_foldl, h.level, hus, h.vertices]

/-- They stay alike when both go one level further. -/
theorem step (h : Alike w w') (next : α → List α) (depth : Nat) :
    Alike (w.step next depth) (w'.step next depth) := by
  have hclosed : Alike { w with level := [] } { w' with level := [] } := ⟨h.met, fun _ => .rfl⟩
  refine hclosed.foldl depth fun u => ?_
  simp only [List.mem_flatMap, List.mem_reverse, h.level]

/-- They stay alike however many levels both go on. -/
theorem extend (h : Alike w w') (next : α → List α) (levels depth : Nat) :
    Alike (w.extend next levels depth) (w'.extend next levels depth) := by
  induction levels generalizing w w' depth with
  | zero => exact h
  | succ levels ih =>
    have hempty : w.level.isEmpty = w'.level.isEmpty := by
      rw [Bool.eq_iff_iff, List.isEmpty_iff, List.isEmpty_iff, List.eq_nil_iff_forall_not_mem,
        List.eq_nil_iff_forall_not_mem]
      exact forall_congr' fun v => not_congr (h.level v)
    rw [Walk.extend, Walk.extend, hempty]
    split
    · exact h
    · exact ih (h.step next _) _

end Alike

end Walk

/-! ### Walks -/

/-- A walk depends on its roots as a set. -/
theorem alike_walk {levels : Nat} {roots roots' : List α} (h : ∀ r, r ∈ roots ↔ r ∈ roots') :
    Walk.Alike (walk next levels roots) (walk next levels roots') := by
  have hempty : Walk.Alike (Walk.empty : Walk α) Walk.empty := ⟨fun _ => .rfl, fun _ => .rfl⟩
  exact (hempty.foldl 0 h).extend next levels 0

/-- A walk meets exactly what can be reached from its roots, if it may go through as many levels
as there are vertices. -/
theorem contains_walk {levels : Nat} {roots vs : List α} (hroots : roots ⊆ vs)
    (hnext : ∀ v ∈ vs, next v ⊆ vs) (hlevels : vs.length ≤ levels) (v : α) :
    (walk next levels roots).contains v ↔
      ∃ r ∈ roots, Relation.ReflTransGen (Leads next) r v := by
  have hshown : Walk.Shown .empty (roots.foldl (Walk.meet 0) .empty) roots :=
    Walk.shown_foldl 0 roots .empty
  have hmem : ∀ v, v ∈ (roots.foldl (Walk.meet 0) .empty).vertices ↔ v ∈ roots := by
    intro v
    rw [hshown.vertices v]
    exact ⟨fun h => h.elim (fun h => nomatch h) fun h => h, .inr⟩
  have hstart : (roots.foldl (Walk.meet 0) .empty).Closed next := by
    refine ⟨hshown.nodup .nil, hshown.met (List.nil_subset _), fun u hu hlevel => ?_⟩
    rcases hshown.level u hu with h | h
    · cases h
    · exact absurd h hlevel
  obtain ⟨hend, hlast, hmet, hreach⟩ := hstart.extend levels 0
  rw [Walk.contains_iff]
  have hsub : (walk next levels roots).vertices ⊆ vs := by
    intro u hu
    obtain ⟨r, hr, hru⟩ := hreach u hu
    have hr := hroots ((hmem r).1 hr)
    clear hu
    induction hru with
    | refl => exact hr
    | tail _ hstep ih => exact hnext _ ih hstep
  -- there are no more vertices than levels, so a walk that has not ended began with none
  have hempty : (walk next levels roots).level = [] := by
    rcases hlast with hdone | hmany
    · exact hdone
    · have hle := (hend.nodup.subperm hsub).length_le
      have hnone : (roots.foldl (Walk.meet 0) .empty).vertices = [] :=
        List.eq_nil_of_length_eq_zero (by omega)
      refine List.eq_nil_iff_forall_not_mem.2 fun u hu => ?_
      obtain ⟨r, hr, -⟩ := hreach u (hend.level hu)
      rw [hnone] at hr
      cases hr
  constructor
  · intro hv
    obtain ⟨r, hr, hrv⟩ := hreach v hv
    exact ⟨r, (hmem r).1 hr, hrv⟩
  · rintro ⟨r, hr, hrv⟩
    induction hrv with
    | refl => exact hmet r ((hmem r).2 hr)
    | @tail u v _ hstep ih =>
      refine hend.closed u ih ?_ v hstep
      rw [show ((roots.foldl (Walk.meet 0) .empty).extend next levels 0).level = [] from hempty]
      exact List.not_mem_nil

end ConstPool.Graph
