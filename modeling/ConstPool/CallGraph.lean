import ConstPool.Program.Basic
import ConstPool.Graph.Reach

/-!
# The call graph

Which declarations a declaration needs directly is found when its body is vetted. From that the
call graph is built: an order in which every declaration comes after all that it needs, the
height of every declaration, and the declarations that need themselves.

The order grows from the front. A declaration joins it as soon as the last one that it needs has
been placed; those that become ready together join in the order in which they were declared.
Declarations that need themselves, directly or through others, never become ready, nor do those
that need such a declaration.

The height of a placed declaration is the length of the longest chain of needs below it.
Declarations without a place all stand one above the highest.
-/

namespace ConstPool

/-- For each declaration the ones that it needs directly, each once. -/
abbrev Needs := OrderedMap Node (List Node)

namespace Needs

/-- The direct needs of a node. -/
def direct (needs : Needs) (node : Node) : List Node := (needs.get? node).getD []

/-- The direct needs of a node that are nodes themselves. -/
def known (needs : Needs) (node : Node) : List Node := (needs.direct node).filter needs.contains

/-- For every node those that need it directly, in the order in which they were declared. -/
def users (needs : Needs) : Dict Node (List Node) :=
  .group (needs.keys.flatMap fun n => (Graph.distinct (needs.known n)).map fun d => (d, n))

/-- The height of a node over nodes whose heights are given. -/
def heightOver (needs : Needs) (heights : OrderedMap Node Nat) (node : Node) : Nat :=
  ((needs.known node).filterMap fun d => (heights.get? d).map (· + 1)).max?.getD 0

end Needs

/-! ### The order -/

/-- The order as far as it has grown. -/
structure Layering where
  /-- The nodes that are placed, in order and with their heights. -/
  placed : OrderedMap Node Nat
  /-- For every node what it waits for: the known needs from the first one on that was not placed
  when the node was last looked at. -/
  waiting : Dict Node (List Node)
  /-- The nodes that are ready to be placed, newest first. -/
  ready : List Node

namespace Layering

/-- The beginning: nothing is placed, and the nodes without known needs are ready. -/
def start (needs : Needs) : Layering where
  placed := .empty
  waiting := .ofList (needs.keys.map fun n => (n, needs.known n))
  ready := (needs.keys.filter fun n => (needs.known n).isEmpty).reverse

/-- Looks at a node of which a need was just placed, and takes it among the ready ones if it waits
for nothing any more. -/
def look (p : Layering) (node : Node) : Layering :=
  let left := ((p.waiting.get? node).getD []).dropWhile p.placed.contains
  { p with
    waiting := p.waiting.insert node left
    ready := if left.isEmpty then node :: p.ready else p.ready }

/-- Places a node and looks at those that need it. -/
def put (needs : Needs) (users : Dict Node (List Node)) (p : Layering) (node : Node) :
    Layering :=
  let placed := p.placed.insert node (needs.heightOver p.placed node)
  ((users.get? node).getD []).foldl look { p with placed }

/-- Places the nodes that are ready, then those that thereby became ready, and so on, at most so
many times. -/
def grow (needs : Needs) (users : Dict Node (List Node)) : (times : Nat) → Layering → Layering
  | 0, p => p
  | times + 1, p =>
    if p.ready.isEmpty then p
    else grow needs users times (p.ready.reverse.foldl (put needs users) { p with ready := [] })

end Layering

namespace Needs

/-- The nodes that can be placed, in order and with their heights. Every time but the last a node
is placed, so the number of nodes bounds how often the order grows. -/
def layers (needs : Needs) : OrderedMap Node Nat :=
  (Layering.grow needs needs.users needs.size (.start needs)).placed

end Needs

/-! ### Recursion -/

/-- Needs by number: for every node, in the order of declaration, the numbers of the nodes that it
needs directly. -/
structure NumberedNeeds where
  rows : Array (List Nat)

namespace NumberedNeeds

/-- The needs of the nodes that were not placed among one another. A placed node needs none of
these, so a chain of needs that comes back to a node goes through these alone. -/
def ofUnplaced (needs : Needs) (placed : OrderedMap Node Nat) : NumberedNeeds where
  rows := needs.column.map fun direct =>
    (direct.filter fun n => !placed.contains n).filterMap needs.keySet.indexOf?

/-- The numbers of the nodes that a node needs directly. -/
def next (needs : NumberedNeeds) (node : Nat) : List Nat := needs.rows[node]?.getD []

/-- Whether a node needs itself, directly or through others. -/
def needsItself (needs : NumberedNeeds) (node : Nat) : Bool :=
  (Graph.walk needs.next needs.rows.size (needs.next node)).contains node

end NumberedNeeds

/-- The nodes that need themselves, in the order of declaration. Only a node without a place can
need itself. -/
def Needs.cyclic (needs : Needs) (placed : OrderedMap Node Nat) : List Node :=
  let numbered := NumberedNeeds.ofUnplaced needs placed
  needs.keys.zipIdx.filterMap fun (node, number) =>
    if !placed.contains node && numbered.needsItself number then some node else none

/-! ### The call graph -/

/-- The call graph of a program. -/
structure CallGraph where
  needs : Needs
  /-- The nodes that have a place, in order and with their heights. -/
  layers : OrderedMap Node Nat
  /-- The nodes that need themselves. -/
  cyclic : List Node

namespace CallGraph

/-- The call graph of given needs. -/
def build (needs : Needs) : CallGraph :=
  let layers := needs.layers
  { needs, layers, cyclic := needs.cyclic layers }

/-- The nodes in an order in which each comes after all that it needs. -/
def order (g : CallGraph) : List Node := g.layers.keys

/-- The height of the nodes without a place: one above the highest. -/
def top (g : CallGraph) : Nat := (g.layers.values.max?.map (· + 1)).getD 0

/-- The height of a node; that of an unknown node is zero. -/
def height (g : CallGraph) (node : Node) : Nat :=
  match g.layers.get? node with
  | some h => h
  | none => if g.needs.contains node then g.top else 0

/-- Whether a node needs itself. -/
def isCyclic (g : CallGraph) (node : Node) : Bool := g.cyclic.contains node

end CallGraph

end ConstPool
