import Mathlib.Data.Fintype.Card
import ConstPool.Proofs.Denotation
import ConstPool.Proofs.Record.Steps
import ConstPool.Proofs.Reference
import ConstPool.Proofs.Table.Exact

/-!
# The constants of a pool are those of its trees

Where scalars are kept in place, every constant of a pool is a tree of scalars. What an identity
stands for is the constant of its tree, and what is reached from it by going from a constant to its
parts are the nodes of the tree. So pools with the same trees are pools with the same constants, and
if no tree is there twice they are of one size.

* `Tree.plain`: the constant of a tree of scalars.
* `Pool.Sound.stands_iff`: what an identity stands for.
* `Pool.Sound.size_eq`: pools with the same trees.
* `Pool.Denotes.reached_iff`: what is reached from an identity.
-/

namespace ConstPool

open Draft Relation

/-- The constant of a tree of scalars. -/
def Tree.plain (t : Tree Scalar) : Constant := (t.map Holding.inPlace).constant

/-- An atom that means a tree of scalars stands for its constant. -/
theorem Draft.Means.stands {pool : Pool} {a : Atom} {t : Tree Scalar} (h : Means pool (.atom a) t) :
    pool.Stands a t.plain := ⟨_, Means.map_inPlace_iff.2 h, rfl⟩

/-- What an identity means is its constant, if it is a tree of scalars. -/
theorem Draft.Means.denotes {pool : Pool} {id : ValueId} {t : Tree Scalar}
    (h : Means pool (.atom (.ref id)) t) : pool.Denotes id t := by
  obtain ⟨l, m, hget, -, -⟩ := h.exists_layer
  exact .of_shape hget h

namespace Pool

variable {p q pool : Pool} {id root : ValueId} {t u : Tree Scalar} {c : Constant}

/-! ### What an identity stands for -/

/-- An identity stands for the constant of its tree. -/
theorem Denotes.stands (h : pool.Denotes id t) : pool.Stands (.ref id) t.plain := by
  rcases h.cases with ⟨s, hget, rfl⟩ | ⟨l, -, hmeans⟩
  · rw [Tree.plain, Tree.map_leaf, Tree.constant_leaf]
    exact .of_scalar hget
  · exact hmeans.stands

/-- A tree has one identity at most. -/
theorem Denotes.left_unique {α : Type} [Leaf α] {t : Tree α} (hsound : pool.Sound) {j : ValueId}
    (h : pool.Denotes id t) (h' : pool.Denotes j t) : id = j := by
  have hnode : ∀ {i : ValueId} {l : Shape Atom ValueId} {s : Scalar},
      pool.get? i = some (.shape l) →
        ¬ Means pool (.atom (.ref i)) (.leaf (Leaf.inPlace s) : Tree α) := by
    intro i l s hget hmeans
    rcases hmeans.of_ref with ⟨_, _, hscalar, -, -⟩ | ⟨_, _, -, -, heq⟩
    · cases hget.symm.trans hscalar
    · cases heq
  rcases h.cases with ⟨s, hget, rfl⟩ | ⟨l, hget, hmeans⟩
  · rcases h'.cases with ⟨s', hget', heq⟩ | ⟨l', hget', hmeans'⟩
    · rw [Means.inPlace_injective (Tree.leaf.inj heq)] at hget
      exact hsound.unique hget hget'
    · exact absurd hmeans' (hnode hget')
  · rcases h'.cases with ⟨s', -, rfl⟩ | ⟨l', -, hmeans'⟩
    · exact absurd hmeans (hnode hget)
    · exact Atom.ref.inj (hmeans.atom_unique hsound hmeans')

namespace Sound

/-- Where scalars are kept in place, every constant is a tree of scalars. -/
theorem exists_denotes (hsound : pool.Sound) (hplace : pool.InPlace) (hid : id.index < pool.size) :
    ∃ t : Tree Scalar, pool.Denotes id t := by
  obtain ⟨value, hvalue⟩ := Option.isSome_iff_exists.1 (get?_isSome_iff.2 hid)
  cases value with
  | scalar s => exact ⟨_, .of_scalar hvalue⟩
  | shape layer =>
    obtain ⟨t, ht⟩ : ∃ t : Tree Scalar, Means pool (.atom (.ref id)) t :=
      Atom.InPlace.exists_means hsound hplace ⟨layer, hvalue⟩
    exact ⟨t, ht.denotes⟩

/-- Where scalars are kept in place, what an identity stands for is the constant of its tree. -/
theorem stands_iff (hsound : pool.Sound) (hplace : pool.InPlace) :
    pool.Stands (.ref id) c ↔ ∃ t : Tree Scalar, pool.Denotes id t ∧ t.plain = c := by
  constructor
  · intro h
    have hknown : id.index < pool.size := by
      obtain ⟨t, ht, -⟩ := h
      exact ht.known
    obtain ⟨t, ht⟩ := hsound.exists_denotes hplace hknown
    exact ⟨t, ht, ht.stands.functional h⟩
  · rintro ⟨t, ht, rfl⟩
    exact ht.stands

/-- A pool whose trees are all in another one is not larger. -/
theorem size_le (hp : p.Sound) (hplace : p.InPlace)
    (h : ∀ t : Tree Scalar, (∃ id, p.Denotes id t) → ∃ id, q.Denotes id t) : p.size ≤ q.size := by
  have hchoice : ∀ i : Fin p.size, ∃ j : Fin q.size, ∃ t : Tree Scalar,
      p.Denotes ⟨i⟩ t ∧ q.Denotes ⟨j⟩ t := by
    intro i
    have hi : (⟨i⟩ : ValueId).index < p.size := i.isLt
    obtain ⟨t, ht⟩ := hp.exists_denotes hplace hi
    obtain ⟨j, hj⟩ := h t ⟨_, ht⟩
    exact ⟨⟨j.index, hj.known⟩, t, ht, hj⟩
  choose f hf using hchoice
  have hinjective : Function.Injective f := by
    intro i j hij
    obtain ⟨t, ht, ht'⟩ := hf i
    obtain ⟨u, hu, hu'⟩ := hf j
    rw [hij] at ht'
    obtain rfl := ht'.right_unique hu'
    exact Fin.ext (congrArg ValueId.index (ht.left_unique hp hu))
  simpa using Fintype.card_le_of_injective f hinjective

/-- Pools with the same trees are of one size. -/
theorem size_eq (hp : p.Sound) (hplace : p.InPlace) (hq : q.Sound) (hplace' : q.InPlace)
    (h : ∀ t : Tree Scalar, (∃ id, p.Denotes id t) ↔ ∃ id, q.Denotes id t) : p.size = q.size :=
  Nat.le_antisymm (hp.size_le hplace fun t => (h t).1) (hq.size_le hplace' fun t => (h t).2)

end Sound

/-! ### What is reached from an identity -/

/-- What is reached from the identity of a tree is a node of the tree, or the tree. -/
theorem Denotes.exists_of_reached (h : pool.Denotes root t)
    (hreach : ReflTransGen pool.HasPart root id) :
    ∃ u : Tree Scalar, pool.Denotes id u ∧ (u = t ∨ u.Within t) := by
  induction hreach with
  | refl => exact ⟨t, h, .inl rfl⟩
  | @tail _ part _ hpart ih =>
    obtain ⟨u, hu, hwithin⟩ := ih
    obtain ⟨value, hvalue, hchild⟩ := hpart
    -- an identity that has a part stands for a layer, whose tree has the part at the same place
    have hnode : ∃ m v, u = .node m ∧ (v ∈ m.partList ∨ v ∈ m.argList) ∧
        Means pool (.atom (.ref part)) v := by
      rcases hu.cases with ⟨s, hget, -⟩ | ⟨l, hget, hmeans⟩
      · cases hvalue.symm.trans hget
        cases hchild
      · obtain ⟨l', m, hget', hl, rfl⟩ := hmeans.exists_layer
        cases hvalue.symm.trans hget'
        rcases Value.mem_children_shape.1 hchild with hpart | harg
        · obtain ⟨v, hv, hmeans'⟩ := exists_of_forall₂ hl.partList hpart
          exact ⟨m, v, rfl, .inl hv, hmeans'⟩
        · obtain ⟨v, hv, hmeans'⟩ := exists_of_forall₂ hl.argList harg
          exact ⟨m, v, rfl, .inr hv, hmeans'⟩
    obtain ⟨m, v, rfl, hv, hmeans⟩ := hnode
    obtain ⟨_, m', -, -, rfl⟩ := hmeans.exists_layer
    have hinside : (Tree.node m').Within (.node m) := by
      rcases hv with hv | hv
      · exact .part hv (.self m')
      · exact .arg hv (.self m')
    refine ⟨_, hmeans.denotes, .inr ?_⟩
    rcases hwithin with rfl | hwithin
    · exact hinside
    · exact hwithin.trans hinside

/-- Every node of a tree is reached from the identity of the tree. The induction is on where the
node stands. -/
theorem exists_reached_of_within (hu : u.Within t) (h : Means pool (.atom (.ref root)) t) :
    ∃ id, ReflTransGen pool.HasPart root id ∧ pool.Denotes id u := by
  induction hu generalizing root with
  | self layer => exact ⟨root, .refl, h.denotes⟩
  | part ht hu ih =>
    obtain ⟨l, m, hget, hl, heq⟩ := h.exists_layer
    cases heq
    obtain ⟨a, ha, hmeans⟩ := exists_of_forall₂ hl.partList.flip ht
    cases a with
    | scalar s =>
      rw [Means.scalar_iff.1 hmeans] at hu
      cases hu
    | ref i =>
      obtain ⟨id, hreach, hid⟩ := ih hmeans
      exact ⟨id, .head ⟨_, hget, Value.mem_children_shape.2 (.inl ha)⟩ hreach, hid⟩
  | arg ht hu ih =>
    obtain ⟨l, m, hget, hl, heq⟩ := h.exists_layer
    cases heq
    obtain ⟨i, hi, hmeans⟩ := exists_of_forall₂ hl.argList.flip ht
    obtain ⟨id, hreach, hid⟩ := ih hmeans
    exact ⟨id, .head ⟨_, hget, Value.mem_children_shape.2 (.inr hi)⟩ hreach, hid⟩

/-- The trees that are reached from the identity of a tree are the tree and its nodes. -/
theorem Denotes.reached_iff (h : pool.Denotes root t) :
    (∃ id, ReflTransGen pool.HasPart root id ∧ pool.Denotes id u) ↔ u = t ∨ u.Within t := by
  constructor
  · rintro ⟨id, hreach, hid⟩
    obtain ⟨v, hv, hwithin⟩ := h.exists_of_reached hreach
    rwa [hid.right_unique hv]
  · rintro (rfl | hwithin)
    · exact ⟨root, .refl, h⟩
    · rcases h.cases with ⟨s, -, rfl⟩ | ⟨l, -, hmeans⟩
      · cases hwithin
      · exact exists_reached_of_within hwithin hmeans

/-- What is reached from the identity of a tree stands for the constants of the tree and its
nodes. -/
theorem Sound.reached_stands_iff (hsound : pool.Sound) (hplace : pool.InPlace)
    (h : pool.Denotes root t) :
    (∃ id, ReflTransGen pool.HasPart root id ∧ pool.Stands (.ref id) c) ↔
      ∃ u : Tree Scalar, (u = t ∨ u.Within t) ∧ u.plain = c := by
  simp only [hsound.stands_iff hplace, ← h.reached_iff]
  constructor
  · rintro ⟨id, hreach, u, hu, hc⟩
    exact ⟨u, ⟨id, hreach, hu⟩, hc⟩
  · rintro ⟨u, ⟨id, hreach, hu⟩, hc⟩
    exact ⟨id, hreach, u, hu, hc⟩

end Pool

end ConstPool
