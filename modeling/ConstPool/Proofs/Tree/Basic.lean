import ConstPool.Proofs.Layers

/-!
# Constants as trees

What a constant is, apart from where it is kept: a finite tree whose inner nodes are texts, lists,
maps, objects and types. No tree has an identity, and there is nothing to follow from one tree to
another.

The leaves are scalars. Most often a leaf is just that. To speak about every pool, also about those
in which a scalar was put where it is not kept in place, a leaf may say how the scalar is held
(`Holding`); a class `Leaf` covers both.

* `Tree.fold`, `Tree.fold_node`: recursion over trees, by layers.
* `Tree.induct`: induction over trees, by layers.
* `Tree.same_iff`: equality of trees is decided by comparing layers.
-/

namespace ConstPool

/-! ### Leaves -/

/-- What the leaves of trees are: scalars with, perhaps, the way in which they are held. -/
class Leaf (α : Type) where
  /-- The leaf of a scalar that is held in place. -/
  inPlace : Scalar → α
  /-- The leaf of a scalar that is held by its identity, if leaves can tell. -/
  byReference : Scalar → Option α
  /-- The scalar of a leaf that is held in place. -/
  inPlace? : α → Option Scalar
  /-- The scalar of a leaf. -/
  content : α → Scalar
  inPlace?_inPlace : ∀ s, inPlace? (inPlace s) = some s
  content_inPlace : ∀ s, content (inPlace s) = s
  eq_inPlace : ∀ {a s}, inPlace? a = some s → a = inPlace s
  byReference_eq_iff : ∀ {a s}, byReference s = some a ↔ inPlace? a = none ∧ content a = s

/-- Leaves that are scalars and nothing else. -/
instance : Leaf Scalar where
  inPlace := id
  byReference _ := none
  inPlace? := some
  content := id
  inPlace?_inPlace _ := rfl
  content_inPlace _ := rfl
  eq_inPlace h := Option.some.inj h
  byReference_eq_iff := by simp

/-- A scalar that is held in place or by its identity. -/
inductive Holding where
  | inPlace (s : Scalar)
  | byReference (s : Scalar)
  deriving DecidableEq

namespace Holding

/-- The scalar that is held in place. -/
def inPlace? : Holding → Option Scalar
  | .inPlace s => some s
  | .byReference _ => none

/-- The scalar that is held. -/
def content : Holding → Scalar
  | .inPlace s => s
  | .byReference s => s

end Holding

/-- Leaves that tell how a scalar is held. -/
instance : Leaf Holding where
  inPlace := .inPlace
  byReference s := some (.byReference s)
  inPlace? := Holding.inPlace?
  content := Holding.content
  inPlace?_inPlace _ := rfl
  content_inPlace _ := rfl
  eq_inPlace {a s} h := by
    cases a with
    | inPlace t => rw [Option.some.inj h]
    | byReference t => cases h
  byReference_eq_iff {a s} := by
    cases a <;> simp [Holding.inPlace?, Holding.content, eq_comm]

/-! ### Trees -/

/-- A constant as a tree with leaves `α`. -/
inductive Tree (α : Type) where
  | leaf (a : α)
  | node (layer : Shape (Tree α) (Tree α))

namespace Tree

variable {α β : Type}

/-! ### Recursion -/

section Fold

variable (leaf : α → β) (node : Shape β β → β)

mutual

/-- Puts a value in place of every leaf and every node, from the leaves up. -/
def fold : Tree α → β
  | .leaf a => leaf a
  | .node (.text content) => node (.text content)
  | .node (.list ⟨items⟩) => node (.list (foldList items).toArray)
  | .node (.map entries) => node (.map (foldEntries entries))
  | .node (.object className fields) => node (.object className (foldFields fields))
  | .node (.type name args) => node (.type name (foldList args))

/-- Folds every tree of a list. -/
def foldList : List (Tree α) → List β
  | [] => []
  | t :: rest => t.fold :: foldList rest

/-- Folds the keys and the values of the entries of a map. -/
def foldEntries : List (Tree α × Tree α) → List (β × β)
  | [] => []
  | (key, value) :: rest => (key.fold, value.fold) :: foldEntries rest

/-- Folds the values of the fields of an object. -/
def foldFields : List (String × Tree α) → List (String × β)
  | [] => []
  | (name, value) :: rest => (name, value.fold) :: foldFields rest

end

/-- To fold a list of trees is to fold each of them. -/
theorem foldList_eq (ts : List (Tree α)) : foldList leaf node ts = ts.map (fold leaf node) := by
  induction ts with
  | nil => rfl
  | cons t rest ih => rw [foldList, ih, List.map_cons]

/-- To fold entries is to fold their keys and their values. -/
theorem foldEntries_eq (entries : List (Tree α × Tree α)) :
    foldEntries leaf node entries =
      entries.map fun e => (fold leaf node e.1, fold leaf node e.2) := by
  induction entries with
  | nil => rfl
  | cons e rest ih => rw [foldEntries, ih, List.map_cons]

/-- To fold fields is to fold their values under the same names. -/
theorem foldFields_eq (fields : List (String × Tree α)) :
    foldFields leaf node fields = fields.map fun e => (e.1, fold leaf node e.2) := by
  induction fields with
  | nil => rfl
  | cons e rest ih => rw [foldFields, ih, List.map_cons]

/-- The fold of a leaf. -/
@[simp] theorem fold_leaf (a : α) : fold leaf node (.leaf a) = leaf a := by
  rw [fold]

/-- A node is folded once its parts are. -/
@[simp] theorem fold_node (layer : Shape (Tree α) (Tree α)) :
    fold leaf node (.node layer) =
      node (layer.mapParts (fold leaf node) (fold leaf node)) := by
  cases layer with
  | text content => rw [fold, Shape.mapParts]
  | list items =>
    obtain ⟨items⟩ := items
    rw [fold, foldList_eq, Shape.mapParts, List.map_toArray]
  | map entries => rw [fold, foldEntries_eq, Shape.mapParts]
  | object className fields => rw [fold, foldFields_eq, Shape.mapParts]
  | type name args => rw [fold, foldList_eq, Shape.mapParts]

end Fold

/-! ### Induction -/

/-- A part of a node is smaller than the node. -/
theorem sizeOf_lt_of_mem_partList {layer : Shape (Tree α) (Tree α)} {t : Tree α}
    (h : t ∈ layer.partList) : sizeOf t < sizeOf (Tree.node layer) := by
  cases layer with
  | text content => cases h
  | list items =>
    have := Array.sizeOf_lt_of_mem (Array.mem_toList_iff.1 h)
    simp only [node.sizeOf_spec, Shape.list.sizeOf_spec]
    omega
  | map entries =>
    obtain ⟨⟨k, v⟩, he, hp⟩ := List.mem_flatMap.1 h
    have := List.sizeOf_lt_of_mem he
    simp only [Prod.mk.sizeOf_spec] at this
    simp only [node.sizeOf_spec, Shape.map.sizeOf_spec]
    rcases List.mem_cons.1 hp with rfl | hp
    · omega
    · obtain rfl : t = v := List.mem_singleton.1 hp
      omega
  | object className fields =>
    obtain ⟨⟨name, v⟩, he, rfl⟩ := List.mem_map.1 h
    have := List.sizeOf_lt_of_mem he
    simp only [Prod.mk.sizeOf_spec] at this
    simp only [node.sizeOf_spec, Shape.object.sizeOf_spec]
    omega
  | type name args => cases h

/-- So is an argument of its type. -/
theorem sizeOf_lt_of_mem_argList {layer : Shape (Tree α) (Tree α)} {t : Tree α}
    (h : t ∈ layer.argList) : sizeOf t < sizeOf (Tree.node layer) := by
  cases layer with
  | type name args =>
    have hmem : t ∈ args := h
    have := List.sizeOf_lt_of_mem hmem
    simp only [node.sizeOf_spec, Shape.type.sizeOf_spec]
    omega
  | _ => cases h

/-- A property of leaves that nodes inherit from their parts is a property of all trees. -/
theorem induct {motive : Tree α → Prop} (leaf : ∀ a, motive (.leaf a))
    (node : ∀ layer, (∀ t ∈ layer.partList, motive t) → (∀ t ∈ layer.argList, motive t) →
      motive (.node layer)) : (t : Tree α) → motive t
  | .leaf a => leaf a
  | .node layer =>
    node layer (fun t _ => induct leaf node t) fun t _ => induct leaf node t
termination_by t => sizeOf t
decreasing_by
  · exact sizeOf_lt_of_mem_partList ‹_›
  · exact sizeOf_lt_of_mem_argList ‹_›

/-! ### Replacing the leaves -/

/-- The tree with every leaf replaced. -/
def map (f : α → β) : Tree α → Tree β := fold (fun a => .leaf (f a)) .node

/-- To map a leaf is to map what it holds. -/
@[simp] theorem map_leaf (f : α → β) (a : α) : (leaf a).map f = .leaf (f a) := fold_leaf ..

/-- To map a node is to map the trees in it. -/
@[simp] theorem map_node (f : α → β) (layer : Shape (Tree α) (Tree α)) :
    (node layer).map f = .node (layer.mapParts (map f) (map f)) := fold_node ..

/-! ### Equality -/

end Tree

/-- Whether every part of a shape passes the test that stands in its place in another one, which
has the same case, names and length. -/
def Shape.passes {ρ τ : Type} : Shape (ρ → Bool) (τ → Bool) → Shape ρ τ → Bool
  | .text x, .text y => decide (x = y)
  | .list tests, .list items =>
    decide (tests.size = items.size) &&
      (tests.toList.zip items.toList).all fun e => e.1 e.2
  | .map tests, .map entries =>
    decide (tests.length = entries.length) &&
      (tests.zip entries).all fun e => e.1.1 e.2.1 && e.1.2 e.2.2
  | .object c tests, .object d fields =>
    decide (c = d) && decide (tests.length = fields.length) &&
      (tests.zip fields).all fun e => decide (e.1.1 = e.2.1) && e.1.2 e.2.2
  | .type m tests, .type n args =>
    decide (m = n) && decide (tests.length = args.length) &&
      (tests.zip args).all fun e => e.1 e.2
  | _, _ => false

/-- A layer passes the tests exactly if it has their shape and each place passes its own. -/
theorem Shape.passes_iff {ρ τ : Type} {tests : Shape (ρ → Bool) (τ → Bool)} {l : Shape ρ τ} :
    tests.passes l = true ↔
      Rel (fun test x => test x = true) (fun test x => test x = true) tests l := by
  constructor
  · intro h
    cases tests <;> cases l <;>
      simp only [passes, Bool.and_eq_true, decide_eq_true_eq, Bool.false_eq_true,
        List.all_eq_true, Prod.forall] at h
    · rw [h]
      exact .text _
    · exact .list (List.forall₂_iff_zip.2 ⟨by simpa using h.1, fun {a b} => h.2 a b⟩)
    · exact .map (List.forall₂_iff_zip.2 ⟨h.1, fun {a b} hab => h.2 a.1 a.2 b.1 b.2 hab⟩)
    · obtain ⟨⟨rfl, hlen⟩, h⟩ := h
      exact .object _ (List.forall₂_iff_zip.2 ⟨hlen, fun {a b} hab => h a.1 a.2 b.1 b.2 hab⟩)
    · obtain ⟨⟨rfl, hlen⟩, h⟩ := h
      exact .type _ (List.forall₂_iff_zip.2 ⟨hlen, fun {a b} => h a b⟩)
  · intro h
    cases h with
    | text => simp [passes]
    | list h =>
      obtain ⟨hlen, h⟩ := List.forall₂_iff_zip.1 h
      simpa [passes] using ⟨hlen, fun a b => @h a b⟩
    | map h =>
      obtain ⟨hlen, h⟩ := List.forall₂_iff_zip.1 h
      simpa [passes] using ⟨hlen, fun a b c d => @h (a, b) (c, d)⟩
    | object c h =>
      obtain ⟨hlen, h⟩ := List.forall₂_iff_zip.1 h
      simpa [passes] using ⟨hlen, fun a b c d => @h (a, b) (c, d)⟩
    | type n h =>
      obtain ⟨hlen, h⟩ := List.forall₂_iff_zip.1 h
      simpa [passes] using ⟨hlen, fun a b => @h a b⟩

namespace Tree

variable {α : Type} [DecidableEq α]

/-- Whether a tree is a given leaf. -/
def isLeaf (a : α) : Tree α → Bool
  | .leaf b => decide (a = b)
  | .node _ => false

omit [DecidableEq α] in
/-- Whether a tree is a node whose parts pass the given tests. -/
def isNode (tests : Shape (Tree α → Bool) (Tree α → Bool)) : Tree α → Bool
  | .leaf _ => false
  | .node layer => tests.passes layer

/-- Whether a tree is a given one. -/
def same : Tree α → Tree α → Bool := fold isLeaf isNode

/-- Trees are compared layer by layer. -/
theorem same_iff {t u : Tree α} : t.same u = true ↔ t = u := by
  induction t using induct generalizing u with
  | leaf a => cases u <;> simp [same, isLeaf]
  | node l hparts hargs =>
    cases u with
    | leaf b => simp [same, isNode]
    | node m =>
      have hnode : (node l).same (node m) = (l.mapParts same same).passes m := by
        rw [same, fold_node, isNode]
      rw [hnode, Shape.passes_iff, Shape.Rel.mapParts_left_iff]
      constructor
      · intro h
        rw [(h.imp_of_mem (fun t ht _ => (hparts t ht).1) fun t ht _ => (hargs t ht).1).eq]
      · rintro ⟨⟩
        exact .refl_of_mem (fun t ht => (hparts t ht).2 rfl) fun t ht => (hargs t ht).2 rfl

instance : DecidableEq (Tree α) := fun t u => decidable_of_iff (t.same u = true) same_iff

end Tree

end ConstPool
