import ConstPool.Draft.Basic
import ConstPool.Proofs.Pool
import ConstPool.Proofs.Tree.Basic

/-!
# What a draft means

A draft means a tree: the one that results when every identity is followed to its value in the
pool. How much of the draft is pooled makes no difference to the tree, with one exception that
leaves can tell: a scalar that is reached by its identity is not held in place.

* `Draft.Means`: a draft means a tree.
* `Draft.Means.mono`: meaning stays when the pool grows.
* `Draft.Means.functional`: a draft means at most one tree.
* `Draft.Means.atom_unique`: two atoms that mean the same tree are equal.
* `Draft.exists_means`: every constant of a sound pool means a tree.
-/

namespace ConstPool

variable {α : Type} [Leaf α]

namespace Draft

/-- A draft means a tree. A layer and its tree are given as a layer of pairs, of the parts and of
what these mean. Drafts that are not pooled have their fields in order, and no argument of a type
is a scalar that is held in place. -/
inductive Means (pool : Pool) : Draft → Tree α → Prop
  | inPlace (s : Scalar) : Means pool (.atom (.scalar s)) (.leaf (Leaf.inPlace s))
  | byReference {id : ValueId} {s : Scalar} {a : α} :
    pool.get? id = some (.scalar s) → Leaf.byReference s = some a →
      Means pool (.atom (.ref id)) (.leaf a)
  | pooled {id : ValueId} (z : Shape (Atom × Tree α) (ValueId × Tree α)) :
    pool.get? id = some (.shape (z.mapParts Prod.fst Prod.fst)) →
      (∀ e ∈ z.partList, Means pool (.atom e.1) e.2) →
      (∀ e ∈ z.argList, Means pool (.atom (.ref e.1)) e.2) →
      Means pool (.atom (.ref id)) (.node (z.mapParts Prod.snd Prod.snd))
  | fresh (z : Shape (Draft × Tree α) (Draft × Tree α)) :
    (z.mapParts Prod.fst Prod.fst).Ordered →
      (∀ e ∈ z.partList, Means pool e.1 e.2) →
      (∀ e ∈ z.argList, Means pool e.1 e.2) →
      (∀ e ∈ z.argList, e.1.scalar? = none) →
      Means pool (.fresh (z.mapParts Prod.fst Prod.fst)) (.node (z.mapParts Prod.snd Prod.snd))

/-- The pooled layer of a value means a layer of trees. -/
abbrev LayerMeans (pool : Pool) : Shape Atom ValueId → Shape (Tree α) (Tree α) → Prop :=
  Shape.Rel (fun a t => Means pool (.atom a) t) fun id t => Means pool (.atom (.ref id)) t

/-- A layer that is not pooled means a layer of trees. -/
abbrev FreshMeans (pool : Pool) : Shape Draft Draft → Shape (Tree α) (Tree α) → Prop :=
  Shape.Rel (Means pool) fun d t => Means pool d t ∧ d.scalar? = none

namespace Means

variable {pool : Pool} {d : Draft} {t u : Tree α} {id : ValueId}

/-! ### One layer -/

/-- A constant of the pool means the node that its layer means. -/
theorem of_pooled {l : Shape Atom ValueId} {m : Shape (Tree α) (Tree α)}
    (hget : pool.get? id = some (.shape l)) (h : LayerMeans pool l m) :
    Means pool (.atom (.ref id)) (.node m) := by
  obtain ⟨z, rfl, rfl, hparts, hargs⟩ := h.exists_zip
  exact .pooled z hget hparts hargs

/-- A fresh draft means the node that its layer means. -/
theorem of_fresh {l : Shape Draft Draft} {m : Shape (Tree α) (Tree α)} (hl : l.Ordered)
    (h : FreshMeans pool l m) : Means pool (.fresh l) (.node m) := by
  obtain ⟨z, rfl, rfl, hparts, hargs⟩ := h.exists_zip
  exact .fresh z hl hparts (fun e he => (hargs e he).1) fun e he => (hargs e he).2

/-- A scalar in place means its leaf. -/
theorem scalar_iff {s : Scalar} :
    Means pool (.atom (.scalar s)) t ↔ t = .leaf (Leaf.inPlace s) := by
  constructor
  · rintro ⟨⟩
    rfl
  · rintro rfl
    exact .inPlace s

/-- What an identity can mean. -/
theorem of_ref (h : Means pool (.atom (.ref id)) t) :
    (∃ s a, pool.get? id = some (.scalar s) ∧ Leaf.byReference s = some a ∧ t = .leaf a) ∨
      ∃ l m, pool.get? id = some (.shape l) ∧ LayerMeans pool l m ∧ t = .node m := by
  cases h with
  | byReference hget ha => exact .inl ⟨_, _, hget, ha, rfl⟩
  | pooled z hget hparts hargs => exact .inr ⟨_, _, hget, .of_zip hparts hargs, rfl⟩

/-- Only the identity of a layer means a node. -/
theorem node_iff {a : Atom} {m : Shape (Tree α) (Tree α)} : Means pool (.atom a) (.node m) ↔
    ∃ id l, a = .ref id ∧ pool.get? id = some (.shape l) ∧ LayerMeans pool l m := by
  constructor
  · intro h
    cases a with
    | scalar s => cases scalar_iff.1 h
    | ref id =>
      rcases h.of_ref with ⟨_, _, _, _, heq⟩ | ⟨l, m', hget, hl, heq⟩
      · cases heq
      · cases heq
        exact ⟨id, l, rfl, hget, hl⟩
  · rintro ⟨id, l, rfl, hget, hl⟩
    exact .of_pooled hget hl

/-- A leaf is meant by a scalar in place or by the identity of one. -/
theorem leaf_iff {a : Atom} {x : α} : Means pool (.atom a) (.leaf x) ↔
    (∃ s, a = .scalar s ∧ x = Leaf.inPlace s) ∨
      ∃ id s, a = .ref id ∧ pool.get? id = some (.scalar s) ∧ Leaf.byReference s = some x := by
  constructor
  · intro h
    cases h with
    | inPlace s => exact .inl ⟨s, rfl, rfl⟩
    | byReference hget hx => exact .inr ⟨_, _, rfl, hget, hx⟩
  · rintro (⟨s, rfl, rfl⟩ | ⟨id, s, rfl, hget, hx⟩)
    · exact .inPlace s
    · exact .byReference hget hx

/-- An identity that means a tree of scalars is that of a layer. -/
theorem exists_layer {t : Tree Scalar} (h : Means pool (.atom (.ref id)) t) :
    ∃ l m, pool.get? id = some (.shape l) ∧ LayerMeans pool l m ∧ t = .node m := by
  rcases h.of_ref with ⟨_, _, _, hnone, _⟩ | hlayer
  · cases hnone
  · exact hlayer

/-- What a layer that is not pooled can mean. -/
theorem of_layer {l : Shape Draft Draft} (h : Means pool (.fresh l) t) :
    ∃ m, t = .node m ∧ l.Ordered ∧ FreshMeans pool l m := by
  cases h with
  | fresh z hl hparts hargs hscalar =>
    exact ⟨_, rfl, hl, .of_zip hparts fun e he => ⟨hargs e he, hscalar e he⟩⟩

/-- An identity that means something is known. -/
theorem known (h : Means pool (.atom (.ref id)) t) : id.index < pool.size := by
  rcases h.of_ref with ⟨s, a, hget, -, -⟩ | ⟨l, m, hget, -, -⟩
  · exact Pool.lt_size_of_get? hget
  · exact Pool.lt_size_of_get? hget

/-! ### Meaning and time -/

/-- What a draft means it still means when the pool has grown. -/
theorem mono {q : Pool} (hkeeps : pool.Keeps q) (h : Means pool d t) : Means q d t := by
  induction h with
  | inPlace s => exact .inPlace s
  | byReference hget ha => exact .byReference (hkeeps _ _ hget) ha
  | pooled z hget _ _ hparts hargs => exact .pooled z (hkeeps _ _ hget) hparts hargs
  | fresh z hl _ _ hscalar hparts hargs => exact .fresh z hl hparts hargs hscalar

/-- A draft means at most one tree. -/
theorem functional (h : Means pool d t) (h' : Means pool d u) : t = u := by
  induction h generalizing u with
  | inPlace s => exact (scalar_iff.1 h').symm
  | @byReference id s a hget ha =>
    rcases h'.of_ref with ⟨s', a', hget', ha', rfl⟩ | ⟨l, m, hget', -, -⟩
    · cases hget.symm.trans hget'
      rw [Option.some.inj (ha.symm.trans ha')]
    · cases hget.symm.trans hget'
  | @pooled id z hget _ _ hparts hargs =>
    rcases h'.of_ref with ⟨s, a, hget', -, -⟩ | ⟨l, m, hget', hlayer, rfl⟩
    · cases hget.symm.trans hget'
    · cases hget.symm.trans hget'
      have hz : Shape.Rel (fun a t => ∀ u : Tree α, Means pool (.atom a) u → t = u)
          (fun i t => ∀ u : Tree α, Means pool (.atom (.ref i)) u → t = u) _ _ :=
        .of_zip (fun e he _ => hparts e he) fun e he _ => hargs e he
      rw [hz.right_unique hlayer (fun _ _ _ ht hu => ht _ hu) fun _ _ _ ht hu => ht _ hu]
  | fresh z _ _ _ _ hparts hargs =>
    obtain ⟨m, rfl, -, hlayer⟩ := h'.of_layer
    have hz : Shape.Rel (fun d t => ∀ u : Tree α, Means pool d u → t = u)
        (fun d t => ∀ u : Tree α, Means pool d u → t = u) _ _ :=
      .of_zip (fun e he _ => hparts e he) fun e he _ => hargs e he
    rw [hz.right_unique hlayer (fun _ _ _ ht hu => ht _ hu) fun _ _ _ ht hu => ht _ hu.1]

/-! ### Sharing -/

/-- A leaf by reference is not held in place. -/
theorem byReference_ne_inPlace {s s' : Scalar} {a : α} (h : Leaf.byReference s = some a) :
    a ≠ Leaf.inPlace s' := by
  rintro rfl
  have hnone := (Leaf.byReference_eq_iff.1 h).1
  rw [Leaf.inPlace?_inPlace] at hnone
  cases hnone

/-- Scalars in place are equal if their leaves are. -/
theorem inPlace_injective {s s' : Scalar} (h : (Leaf.inPlace s : α) = Leaf.inPlace s') :
    s = s' := by
  have := congrArg Leaf.inPlace? h
  rw [Leaf.inPlace?_inPlace, Leaf.inPlace?_inPlace] at this
  exact Option.some.inj this

/-- Two atoms of a sound pool that mean the same tree are equal. -/
theorem atom_unique (hsound : pool.Sound) {a b : Atom} (h : Means pool (.atom a) t)
    (h' : Means pool (.atom b) t) : a = b := by
  induction t using Tree.induct generalizing a b with
  | leaf x =>
    cases h with
    | inPlace s =>
      generalize hx : (Leaf.inPlace s : α) = x at h'
      cases h' with
      | inPlace s' => rw [inPlace_injective hx]
      | byReference _ ha => exact absurd hx.symm (byReference_ne_inPlace ha)
    | @byReference id s _ hget ha =>
      cases h' with
      | inPlace s' => exact absurd rfl (byReference_ne_inPlace ha)
      | @byReference id' s' _ hget' ha' =>
        have hs : s = s' :=
          (Leaf.byReference_eq_iff.1 ha).2.symm.trans (Leaf.byReference_eq_iff.1 ha').2
        rw [← hs] at hget'
        rw [hsound.unique hget hget']
  | node m hparts hargs =>
    obtain ⟨i, l, rfl, hget, hl⟩ := node_iff.1 h
    obtain ⟨j, l', rfl, hget', hl'⟩ := node_iff.1 h'
    -- the induction says of each part that no second atom means it
    have hl : Shape.Rel (fun a t => ∀ b, Means pool (.atom b) t → a = b)
        (fun i t => ∀ j, Means pool (.atom (.ref j)) t → i = j) l m := by
      refine hl.imp_of_mem_right ?_ ?_
      · intro t ht a ha b hb
        exact hparts t ht ha hb
      · intro t ht i hi j hj
        exact Atom.ref.inj (hargs t ht hi hj)
    have hunique : l = l' :=
      hl.left_unique hl' (fun _ _ _ ha hb => ha _ hb) fun _ _ _ hi hj => hi _ hj
    rw [← hunique] at hget'
    rw [hsound.unique hget hget']

end Means

/-! ### Every constant means a tree -/

/-- A constant with parts in a sound pool means a tree, if leaves can tell every scalar that is
referred to. -/
theorem exists_means {pool : Pool} (hsound : pool.Sound)
    (hleaf : ∀ id layer, pool.get? id = some (.shape layer) →
      ∀ child ∈ (Value.shape layer).children, ∀ s, pool.get? child = some (.scalar s) →
        ∃ a : α, Leaf.byReference s = some a)
    {id : ValueId} {layer : Shape Atom ValueId} (hget : pool.get? id = some (.shape layer)) :
    ∃ t : Tree α, Means pool (.atom (.ref id)) t := by
  -- on the identity: in a sound pool the parts of a constant have smaller ones
  induction h : id.index using Nat.strongRecOn generalizing id layer with
  | ind n ih =>
    subst h
    have hchild : ∀ child ∈ (Value.shape layer).children,
        ∃ t : Tree α, Means pool (.atom (.ref child)) t := by
      intro child hmem
      have hlt := hsound.smaller hget child hmem
      have hknown := Nat.lt_trans hlt (Pool.lt_size_of_get? hget)
      obtain ⟨value, hvalue⟩ := Option.isSome_iff_exists.1 (Pool.get?_isSome_iff.2 hknown)
      cases value with
      | scalar s =>
        obtain ⟨a, ha⟩ := hleaf id layer hget child hmem s hvalue
        exact ⟨_, .byReference hvalue ha⟩
      | shape l => exact ih _ hlt hvalue rfl
    have hlayer : ∃ m, LayerMeans (α := α) pool layer m := by
      refine Shape.Rel.exists_right ?_ ?_
      · intro a ha
        cases a with
        | scalar s => exact ⟨_, .inPlace s⟩
        | ref child => exact hchild child (Value.mem_children_shape.2 (.inl ha))
      · intro child hmem
        exact hchild child (Value.mem_children_shape.2 (.inr hmem))
    obtain ⟨m, hm⟩ := hlayer
    exact ⟨_, .of_pooled hget hm⟩

end Draft

end ConstPool
