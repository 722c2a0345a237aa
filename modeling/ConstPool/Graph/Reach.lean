import ConstPool.Dict

/-!
# Breadth-first walks

`walk` goes through a graph level by level from a list of roots and gives every vertex that it
meets its distance from the nearest root. It serves both the search for live constants and the
search for recursive declarations.

The walk is bounded by a number of levels. Each level but the last finds a vertex that was not
met before, so the number of edges is always enough.

* `Walk.depth?_eq`: the distance of a vertex is the one with which it was met.
* `mem_distinct`, `nodup_distinct`: the members of a list, each once.
-/

namespace ConstPool.Graph

variable {α : Type} [DecidableEq α] [Key α]

/-- The members of a list that are not in `seen`, each at its first occurrence. -/
def fresh (seen : Dict α Unit) : List α → List α
  | [] => []
  | x :: rest => if seen.contains x then fresh seen rest else x :: fresh (seen.insert x ()) rest

/-- The members of a list, each at its first occurrence. -/
def distinct (xs : List α) : List α := fresh .empty xs

/-! ### Walks -/

/-- A walk as far as it has come. -/
structure Walk (α : Type) [DecidableEq α] [Key α] where
  /-- The vertices that were met, newest first, with their distances from the nearest root. -/
  met : List (α × Nat)
  /-- The distances by vertex. -/
  depths : Dict α Nat
  /-- The vertices of the last level, newest first. -/
  level : List α
  /-- A vertex has the distance with which it was met. -/
  agrees : ∀ v, depths.get? v = met.lookup v

namespace Walk

/-- The walk that has met nothing. -/
def empty : Walk α where
  met := []
  depths := .empty
  level := []
  agrees _ := rfl

/-- The distance of a vertex from the nearest root, if it was met. -/
def depth? (w : Walk α) (v : α) : Option Nat := w.depths.get? v

/-- Whether a vertex was met. -/
def contains (w : Walk α) (v : α) : Bool := (w.depth? v).isSome

/-- A dictionary that agrees with a list still does when both get an entry for one vertex. -/
theorem agrees_cons {met : List (α × Nat)} {depths : Dict α Nat}
    (agrees : ∀ v, depths.get? v = met.lookup v) (u : α) (depth : Nat) (v : α) :
    (depths.insert u depth).get? v = ((u, depth) :: met).lookup v := by
  by_cases h : v = u
  · simp [h]
  · simp [Dict.get?_insert, List.lookup_cons, h, beq_eq_false_iff_ne.2 h, agrees]

/-- Meets a vertex at the given distance, unless it was met before. -/
def meet (depth : Nat) (w : Walk α) (v : α) : Walk α :=
  if w.contains v then w
  else
    { met := (v, depth) :: w.met
      depths := w.depths.insert v depth
      level := v :: w.level
      agrees := agrees_cons w.agrees v depth }

/-- Goes on by one level, which lies at the given distance. -/
def step (next : α → List α) (depth : Nat) (w : Walk α) : Walk α :=
  (w.level.reverse.flatMap next).foldl (meet depth) { w with level := [] }

/-- Goes on by at most so many levels, after a level at the distance `depth`. -/
def extend (next : α → List α) : (levels depth : Nat) → Walk α → Walk α
  | 0, _, w => w
  | levels + 1, depth, w =>
    if w.level.isEmpty then w else extend next levels (depth + 1) (w.step next (depth + 1))

/-- The depth that is found is that in the list of what was met. -/
theorem depth?_eq (w : Walk α) (v : α) : w.depth? v = w.met.lookup v := w.agrees v

end Walk

/-- The walk from the roots through at most so many levels. -/
def walk (next : α → List α) (levels : Nat) (roots : List α) : Walk α :=
  (roots.foldl (Walk.meet 0) .empty).extend next levels 0

/-! ### Members of `fresh` -/

/-- The fresh vertices are those that were not seen. -/
theorem mem_fresh {seen : Dict α Unit} {xs : List α} {x : α} :
    x ∈ fresh seen xs ↔ x ∈ xs ∧ seen.contains x = false := by
  induction xs generalizing seen with
  | nil => simp [fresh]
  | cons y rest ih =>
    by_cases hy : seen.contains y
    · simp only [fresh, hy, if_true, ih, List.mem_cons]
      constructor
      · rintro ⟨h, hs⟩
        exact ⟨.inr h, hs⟩
      · rintro ⟨rfl | h, hs⟩
        · simp [hy] at hs
        · exact ⟨h, hs⟩
    · simp only [fresh, hy, Bool.false_eq_true, if_false, List.mem_cons, ih,
        Dict.contains_insert, Bool.or_eq_false_iff, decide_eq_false_iff_not]
      constructor
      · rintro (rfl | ⟨h, -, hs⟩)
        · exact ⟨.inl rfl, Bool.eq_false_iff.2 hy⟩
        · exact ⟨.inr h, hs⟩
      · rintro ⟨rfl | h, hs⟩
        · exact .inl rfl
        · by_cases hxy : x = y
          · exact .inl hxy
          · exact .inr ⟨h, hxy, hs⟩

/-- Each fresh vertex is taken once. -/
theorem nodup_fresh (seen : Dict α Unit) (xs : List α) : (fresh seen xs).Nodup := by
  induction xs generalizing seen with
  | nil => simp [fresh]
  | cons y rest ih =>
    by_cases hy : seen.contains y
    · simpa [fresh, hy] using ih seen
    · simp [fresh, hy, ih, mem_fresh, Dict.contains_insert]

/-- No vertex is lost when repetitions are dropped. -/
@[simp] theorem mem_distinct {xs : List α} {x : α} : x ∈ distinct xs ↔ x ∈ xs := by
  rw [distinct, mem_fresh, Dict.contains, Dict.get?_empty]
  simp

/-- No vertex is repeated then. -/
theorem nodup_distinct (xs : List α) : (distinct xs).Nodup := nodup_fresh .empty xs

end ConstPool.Graph
