import ConstPool.Proofs.History

/-!
# The constant behind an identity

Follow every identity to its value, forget how the scalars are held, and forget in which order the
fields of objects stand. What is left is the constant itself. Two identities may well have the same
constant: nothing in the pool looks behind the values. They have not if all values in the pool are
in their canonical form.

Trees differ from constants in two ways that the pool can see: how a scalar is held, and how the
fields of an object are ordered. A constant gives fields by their names, so the second is gone, and
it has scalars where a tree has leaves. That the canonical form is enough is shown by recovering a
value from its constant. It is needed as well, which is said where histories are known.

* `Constant`, `Pool.Stands`: constants, and the atoms that stand for them.
* `Pool.Deduplicated`: no two identities stand for the same constant.
* `Pool.SlotsCanonical`: the canonical form.
* `Pool.Sound.deduplicated`: it is enough.
-/

namespace ConstPool

open Draft

/-! ### Constants -/

/-- A constant, apart from any pool. The fields of an object are a map from names. -/
inductive Constant where
  | scalar (s : Scalar)
  | text (content : String)
  | list (items : List Constant)
  | map (entries : List (Constant × Constant))
  | object (className : String) (fields : String → Option Constant)
  | type (name : String) (args : List Constant)

/-- The constant of a layer of constants. -/
def Shape.constant : Shape Constant Constant → Constant
  | .text content => .text content
  | .list items => .list items.toList
  | .map entries => .map entries
  | .object className fields => .object className fun name => field? name fields
  | .type name args => .type name args

/-- The constant of a tree. How a scalar is held is forgotten. -/
def Tree.constant : Tree Holding → Constant :=
  fold (fun h => .scalar h.content) Shape.constant

/-- The constant of a leaf is the scalar that it holds. -/
@[simp] theorem Tree.constant_leaf (h : Holding) :
    (Tree.leaf h).constant = .scalar h.content := fold_leaf ..

/-- The constant of a node is made of the constants of its parts. -/
@[simp] theorem Tree.constant_node (layer : Shape (Tree Holding) (Tree Holding)) :
    (Tree.node layer).constant = (layer.mapParts constant constant).constant := fold_node ..

/-- A constant with parts is no scalar. -/
theorem Shape.constant_ne_scalar (k : Shape Constant Constant) (s : Scalar) :
    k.constant ≠ .scalar s := by
  cases k <;> exact fun h => nomatch h

/-! ### Fields in order -/

namespace Shape

variable {ρ : Type}

/-- The fields that are found are those that are there, if these are in order. -/
theorem field?_eq_some_iff {fields : List (String × ρ)} {name : String} {value : ρ}
    (h : fields.Pairwise fun e e' => e.1 < e'.1) :
    field? name fields = some value ↔ (name, value) ∈ fields := by
  induction h with
  | nil =>
    constructor
    · rintro ⟨⟩
    · rintro ⟨⟩
  | @cons first rest hfirst _ ih =>
    obtain ⟨other, v⟩ := first
    rw [field?, List.lookup_cons, List.mem_cons, Prod.mk.injEq]
    by_cases heq : name = other
    · subst heq
      have hnew : (name, value) ∉ rest := by
        intro hmem
        exact String.lt_irrefl name (hfirst (name, value) hmem)
      simp [hnew, eq_comm]
    · simp only [beq_eq_false_iff_ne.2 heq, heq, false_and, false_or]
      exact ih

/-- Fields in order are determined by what is found under their names. -/
theorem eq_of_field?_eq {xs ys : List (String × ρ)} (hx : xs.Pairwise fun e e' => e.1 < e'.1)
    (hy : ys.Pairwise fun e e' => e.1 < e'.1) (h : ∀ name, field? name xs = field? name ys) :
    xs = ys := by
  have hmem : ∀ e, e ∈ xs ↔ e ∈ ys := by
    rintro ⟨name, value⟩
    rw [← field?_eq_some_iff hx, ← field?_eq_some_iff hy, h name]
  have hnodup : ∀ {zs : List (String × ρ)}, zs.Pairwise (fun e e' => e.1 < e'.1) → zs.Nodup := by
    intro zs hz
    refine hz.imp ?_
    rintro e e' hlt rfl
    exact String.lt_irrefl _ hlt
  have hperm : xs.Perm ys := (List.perm_ext_iff_of_nodup (hnodup hx) (hnodup hy)).2 hmem
  exact hperm.eq_of_pairwise (fun e e' _ _ hlt hgt => absurd hgt (String.lt_asymm hlt)) hx hy

/-- Layers in order are determined by their constant. -/
theorem eq_of_constant_eq {k k' : Shape Constant Constant} (hk : k.Ordered) (hk' : k'.Ordered)
    (h : k.constant = k'.constant) : k = k' := by
  cases k with
  | text content =>
    cases k' <;> cases h
    rfl
  | list items =>
    cases k' with
    | list items' => rw [Array.toList_inj.1 (Constant.list.inj h)]
    | _ => cases h
  | map entries =>
    cases k' <;> cases h
    rfl
  | object className fields =>
    cases k' with
    | object className' fields' =>
      obtain ⟨rfl, hfields⟩ := Constant.object.inj h
      rw [eq_of_field?_eq hk hk' fun name => congrFun hfields name]
    | _ => cases h
  | type name args =>
    cases k' <;> cases h
    rfl

end Shape

/-! ### What an atom stands for -/

namespace Pool

/-- An atom stands for a constant: that of the tree which results when every identity is followed
to its value. -/
def Stands (pool : Pool) (a : Atom) (c : Constant) : Prop :=
  ∃ t : Tree Holding, Means pool (.atom a) t ∧ t.constant = c

/-- A pooled layer stands for a layer of constants. -/
abbrev LayerStands (pool : Pool) : Shape Atom ValueId → Shape Constant Constant → Prop :=
  Shape.Rel pool.Stands fun id c => pool.Stands (.ref id) c

namespace Stands

variable {pool : Pool} {a : Atom} {id : ValueId} {c c' : Constant}

/-- An atom stands for at most one constant. -/
theorem functional (h : pool.Stands a c) (h' : pool.Stands a c') : c = c' := by
  obtain ⟨t, ht, rfl⟩ := h
  obtain ⟨t', ht', rfl⟩ := h'
  rw [ht.functional ht']

/-- A scalar in place stands for itself. -/
theorem scalar_iff {s : Scalar} : pool.Stands (.scalar s) c ↔ c = .scalar s := by
  constructor
  · rintro ⟨t, ht, rfl⟩
    rw [Means.scalar_iff.1 ht, Tree.constant_leaf]
    rfl
  · rintro rfl
    exact ⟨_, .inPlace s, Tree.constant_leaf _⟩

/-- The identity of a scalar stands for it as well. -/
theorem of_scalar {s : Scalar} (hget : pool.get? id = some (.scalar s)) :
    pool.Stands (.ref id) (.scalar s) :=
  ⟨.leaf (.byReference s), .byReference hget rfl, Tree.constant_leaf _⟩

/-- What an identity can stand for. -/
theorem of_ref (h : pool.Stands (.ref id) c) :
    (∃ s, pool.get? id = some (.scalar s) ∧ c = .scalar s) ∨
      ∃ l k, pool.get? id = some (.shape l) ∧ pool.LayerStands l k ∧ c = k.constant := by
  obtain ⟨t, ht, rfl⟩ := h
  rcases ht.of_ref with ⟨s, b, hget, hb, rfl⟩ | ⟨l, m, hget, hl, rfl⟩
  · refine .inl ⟨s, hget, ?_⟩
    rw [Tree.constant_leaf]
    exact congrArg Constant.scalar (Leaf.byReference_eq_iff.1 hb).2
  · refine .inr ⟨l, m.mapParts Tree.constant Tree.constant, hget, ?_, Tree.constant_node m⟩
    rw [LayerStands, Shape.Rel.mapParts_right_iff]
    exact hl.imp (fun _ t ht => ⟨t, ht, rfl⟩) fun _ t ht => ⟨t, ht, rfl⟩

/-- An identity whose layer stands for a layer of constants stands for the constant of the layer. -/
theorem of_layer {l : Shape Atom ValueId} {k : Shape Constant Constant}
    (hget : pool.get? id = some (.shape l)) (h : pool.LayerStands l k) :
    pool.Stands (.ref id) k.constant := by
  have hm : ∃ m, LayerMeans (α := Holding) pool l m := by
    refine Shape.Rel.exists_right (fun a ha => ?_) fun i hi => ?_
    · obtain ⟨c, -, t, ht, -⟩ := exists_of_forall₂ h.partList ha
      exact ⟨t, ht⟩
    · obtain ⟨c, -, t, ht, -⟩ := exists_of_forall₂ h.argList hi
      exact ⟨t, ht⟩
  obtain ⟨m, hm⟩ := hm
  have hk : pool.LayerStands l (m.mapParts Tree.constant Tree.constant) := by
    rw [LayerStands, Shape.Rel.mapParts_right_iff]
    exact hm.imp (fun _ t ht => ⟨t, ht, rfl⟩) fun _ t ht => ⟨t, ht, rfl⟩
  refine ⟨.node m, .of_pooled hget hm, ?_⟩
  rw [Tree.constant_node]
  rw [hk.right_unique h (fun _ _ _ => functional) fun _ _ _ => functional]

/-- What an atom stands for it still stands for when the pool has grown. -/
theorem mono {q : Pool} (hkeeps : pool.Keeps q) (h : pool.Stands a c) : q.Stands a c := by
  obtain ⟨t, ht, hc⟩ := h
  exact ⟨t, ht.mono hkeeps, hc⟩

end Stands

/-- Every known identity stands for a constant. -/
theorem Sound.exists_stands {pool : Pool} (hsound : pool.Sound) {a : Atom} (h : a.Known pool) :
    ∃ c, pool.Stands a c := by
  obtain ⟨t, ht⟩ := h.exists_means hsound
  exact ⟨_, t, ht, rfl⟩

/-- Two identities in the pool are equal exactly if they stand for the same constant. -/
def Deduplicated (pool : Pool) : Prop :=
  ∀ i j : ValueId, i.index < pool.size → j.index < pool.size →
    (i = j ↔ ∃ c, pool.Stands (.ref i) c ∧ pool.Stands (.ref j) c)

end Pool

/-! ### Canonical form -/

/-- The fields of a layer are in order, and no part is the identity of a scalar. -/
structure Shape.SlotsCanonical (pool : Pool) (layer : Shape Atom ValueId) : Prop where
  ordered : layer.Ordered
  inPlace : ∀ id, .ref id ∈ layer.partList → ∀ s, pool.get? id ≠ some (.scalar s)

namespace Pool

/-- All layers in the pool are in canonical form. -/
def SlotsCanonical (pool : Pool) : Prop :=
  ∀ id layer, pool.get? id = some (.shape layer) → layer.SlotsCanonical pool

/-- In canonical form an atom is determined by its constant if the identities in it are. -/
theorem Stands.atom_unique {pool : Pool} {l l' : Shape Atom ValueId} (hl : l.SlotsCanonical pool)
    (hl' : l'.SlotsCanonical pool) {a b : Atom} {c : Constant} (ha : a ∈ l.partList)
    (hb : b ∈ l'.partList) (h : pool.Stands a c) (h' : pool.Stands b c)
    (hrefs : ∀ i j, a = .ref i → b = .ref j → i = j) : a = b := by
  have hscalar : ∀ {l : Shape Atom ValueId} {i : ValueId} {s : Scalar}, l.SlotsCanonical pool →
      .ref i ∈ l.partList → ¬ pool.Stands (.ref i) (.scalar s) := by
    intro l i s hl hi hstands
    rcases hstands.of_ref with ⟨s', hget, -⟩ | ⟨_, k, -, -, hk⟩
    · exact hl.inPlace i hi s' hget
    · exact k.constant_ne_scalar s hk.symm
  cases a with
  | scalar s =>
    obtain rfl := scalar_iff.1 h
    cases b with
    | scalar s' =>
      cases scalar_iff.1 h'
      rfl
    | ref j => exact absurd h' (hscalar hl' hb)
  | ref i =>
    cases b with
    | scalar s' =>
      obtain rfl := scalar_iff.1 h'
      exact absurd h (hscalar hl ha)
    | ref j => rw [hrefs i j rfl rfl]

/-- In a pool in canonical form no two identities stand for the same constant. -/
theorem Sound.eq_of_stands {pool : Pool} (hsound : pool.Sound) (hcanonical : pool.SlotsCanonical)
    {i j : ValueId} {c : Constant} (h : pool.Stands (.ref i) c) (h' : pool.Stands (.ref j) c) :
    i = j := by
  induction hi : i.index using Nat.strongRecOn generalizing i j c with
  | ind n ih =>
    subst hi
    rcases h.of_ref with ⟨s, hget, rfl⟩ | ⟨l, k, hget, hl, rfl⟩
    · rcases h'.of_ref with ⟨s', hget', hs⟩ | ⟨_, k, -, -, hk⟩
      · cases hs
        exact hsound.unique hget hget'
      · exact absurd hk.symm (k.constant_ne_scalar s)
    · rcases h'.of_ref with ⟨s, -, hs⟩ | ⟨l', k', hget', hl', hk⟩
      · exact absurd hs (k.constant_ne_scalar s)
      · have hform := hcanonical i l hget
        have hform' := hcanonical j l' hget'
        have hkk' : k = k' :=
          Shape.eq_of_constant_eq (hl.ordered hform.ordered) (hl'.ordered hform'.ordered) hk
        subst hkk'
        have hchild : ∀ {i' j' : ValueId} {c : Constant}, i' ∈ (Value.shape l).children →
            pool.Stands (.ref i') c → pool.Stands (.ref j') c → i' = j' :=
          fun hmem hi hj => ih _ (hsound.smaller hget _ hmem) hi hj rfl
        -- Parts are compared with the parts of the other layer, so each carries where it stands.
        have hparts : Shape.Rel (fun a c => a ∈ l.partList ∧ pool.Stands a c)
            (fun i c => i ∈ l.argList ∧ pool.Stands (.ref i) c) l k :=
          hl.imp_of_mem (fun a ha c hc => ⟨ha, hc⟩) fun i hi c hc => ⟨hi, hc⟩
        have hparts' : Shape.Rel (fun a c => a ∈ l'.partList ∧ pool.Stands a c)
            (fun i c => pool.Stands (.ref i) c) l' k :=
          hl'.imp_of_mem (fun a ha c hc => ⟨ha, hc⟩) fun i _ c hc => hc
        have hll' : l = l' := by
          refine hparts.left_unique hparts' ?_ ?_
          · rintro a b c ⟨ha, hac⟩ ⟨hb, hbc⟩
            refine Stands.atom_unique hform hform' ha hb hac hbc ?_
            rintro i' j' rfl rfl
            exact hchild (Value.mem_children_shape.2 (.inl ha)) hac hbc
          · rintro i' j' c ⟨hi', hic⟩ hjc
            exact hchild (Value.mem_children_shape.2 (.inr hi')) hic hjc
        subst hll'
        exact hsound.unique hget hget'

/-- A pool in canonical form has no duplicates. -/
theorem Sound.deduplicated {pool : Pool} (hsound : pool.Sound) (h : pool.SlotsCanonical) :
    pool.Deduplicated := by
  intro i j hi hj
  constructor
  · rintro rfl
    obtain ⟨c, hc⟩ := hsound.exists_stands (a := .ref i) hi
    exact ⟨c, hc, hc⟩
  · rintro ⟨c, hc, hc'⟩
    exact hsound.eq_of_stands h hc hc'

end Pool

end ConstPool
