import ConstPool.Uses.Basic

/-!
# Live constants

A constant is live if it can be reached from one of the roots by following the uses of constants
by constants. `Uses.live` finds the live constants together with their distances from the nearest
root.

The search goes level by level. A constant that is met at several levels counts for the first of
them, so its distance is that of the shortest way. Uses by sites are not followed here: they only
say where the roots are.
-/

namespace ConstPool

/-- The live constants with their distances from the nearest root. -/
structure Live where
  walk : Graph.Walk ValueId

/-- The constants that the roots need, directly or through others. The roots themselves are
among them. -/
def Uses.live (uses : Uses) (roots : List ValueId) : Live :=
  ⟨Graph.walk (fun id => uses.targets (.value id)) uses.edges.size roots⟩

namespace Live

/-- The live constants, each with its distance. -/
def distances (live : Live) : List (ValueId × Nat) := live.walk.met

/-- The distance of a live constant from the nearest root. -/
def depth? (live : Live) (id : ValueId) : Option Nat := live.walk.depth? id

/-- Whether a constant is live. -/
def contains (live : Live) (id : ValueId) : Bool := (live.depth? id).isSome

/-- Whether a constant is a root. -/
def isRoot (live : Live) (id : ValueId) : Bool := live.depth? id == some 0

/-- The number of live constants. -/
def size (live : Live) : Nat := live.distances.length

/-- The live constants in ascending order. -/
def sorted (live : Live) : List ValueId :=
  (live.distances.map Prod.fst).mergeSort fun a b => decide (a.index ≤ b.index)

/-- The greatest distance, if any constant is live. -/
def maxDepth? (live : Live) : Option Nat := (live.distances.map Prod.snd).max?

end Live

end ConstPool
