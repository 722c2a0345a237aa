import ConstPool.Draft.Access
import ConstPool.Draft.Text
import ConstPool.Proofs.Agreement
import ConstPool.Proofs.Draft.Same
import ConstPool.Proofs.Tree.Operators

/-!
# Operators respect the meaning

An operator on drafts gives a draft of what the operator on trees gives, or the same fault. So the
result of an operator does not depend on what is pooled: neither the value nor the text of a
message.

* `Draft.Means.shape?`, `Draft.Means.scalar?`, `Draft.Means.typeName`: opening a draft.
* `Draft.Means.describe`, `Draft.Means.message`: the texts of drafts in messages.
* `Draft.Means.binary`, `Draft.Means.index` and so on: the operators.
-/

namespace ConstPool

variable {α : Type} [Leaf α]

namespace Draft

variable {pool : Pool} {d e : Draft} {t u : Tree α}

/-! ### Opening a draft -/

namespace Means

/-- A draft is held in place if its tree is. -/
theorem scalar? (h : Means pool d t) : d.scalar? = t.scalar? := by
  cases h with
  | inPlace s => exact (Leaf.inPlace?_inPlace s).symm
  | byReference _ ha => exact (Leaf.byReference_eq_iff.1 ha).1.symm
  | pooled => rfl
  | fresh => rfl

/-- The shape of a pooled layer means what the layer means. -/
theorem fresh_of_layer {l : Shape Atom ValueId} {m : Shape (Tree α) (Tree α)}
    (h : LayerMeans pool l m) : FreshMeans pool (l.mapParts Draft.atom Draft.pooled) m :=
  Shape.Rel.mapParts_left_iff.2 (h.imp (fun _ _ h => h) fun _ _ h => ⟨h, rfl⟩)

/-- The shape of a draft means the shape of its tree, and it is always found. -/
theorem shape? (h : Means pool d t) :
    ∃ layer, d.shape? pool = .ok layer ∧ Option.Rel (FreshMeans pool) layer t.shape? := by
  rcases d with ⟨s | id⟩ | l
  · rw [scalar_iff.1 h]
    exact ⟨none, rfl, .none⟩
  · rcases h.of_ref with ⟨s, a, hget, -, rfl⟩ | ⟨l, m, hget, hlayer, rfl⟩
    · refine ⟨none, ?_, .none⟩
      simp [Draft.shape?, contents, get_of_get? hget, Value.contents, Contents.shape?]
    · refine ⟨_, ?_, .some (fresh_of_layer hlayer)⟩
      simp [Draft.shape?, contents, get_of_get? hget, Value.contents, Contents.shape?]
  · obtain ⟨m, rfl, -, hlayer⟩ := h.of_layer
    exact ⟨some l, rfl, .some hlayer⟩

/-- The name of the type of a draft is that of its tree. -/
theorem typeName (h : Means pool d t) : d.typeName pool = t.typeName := by
  rcases d with ⟨s | id⟩ | l
  · rw [scalar_iff.1 h]
    show s.typeName = (Leaf.content (Leaf.inPlace s : α)).typeName
    rw [Leaf.content_inPlace]
  · rcases h.of_ref with ⟨s, a, hget, ha, rfl⟩ | ⟨l, m, hget, hlayer, rfl⟩
    · have hcontent := (Leaf.byReference_eq_iff.1 ha).2
      simp [Draft.typeName, contents, get_of_get? hget, Value.contents, Contents.typeName,
        Tree.typeName, hcontent]
    · simp [Draft.typeName, contents, get_of_get? hget, Value.contents, Contents.typeName,
        Tree.typeName, hlayer.typeName]
  · obtain ⟨m, rfl, -, hlayer⟩ := h.of_layer
    exact hlayer.typeName

end Means

/-! ### Texts -/

/-- The text of a node is made of the texts of its parts. -/
theorem describe_node (m : Shape (Tree α) (Tree α)) :
    (Tree.node m).describe = (m.mapParts Tree.describe Tree.describe).render := Tree.fold_node ..

/-- References lead to smaller identities, so the identity bounds how far they lead. -/
theorem describe_atom (hsound : pool.Sound) {a : Atom} (h : Means pool (.atom a) t)
    {bound : Nat} (hbound : ∀ id, a = .ref id → id.index < bound) :
    pool.describe bound a = .ok t.describe := by
  induction t using Tree.induct generalizing a bound with
  | leaf x =>
    have hdescribe : (Tree.leaf x).describe = (Leaf.content x).text := Tree.fold_leaf ..
    cases h with
    | inPlace s =>
      rw [Pool.describe, hdescribe, Leaf.content_inPlace]
    | @byReference id s _ hget ha =>
      obtain ⟨bound, rfl⟩ := Nat.exists_eq_succ_of_ne_zero (Nat.ne_zero_of_lt (hbound id rfl))
      rw [Pool.describe, get_of_get? hget, hdescribe, (Leaf.byReference_eq_iff.1 ha).2]
      rfl
  | node m hparts hargs =>
    obtain ⟨id, l, rfl, hget, hlayer⟩ := Means.node_iff.1 h
    obtain ⟨bound, rfl⟩ := Nat.exists_eq_succ_of_ne_zero (Nat.ne_zero_of_lt (hbound id rfl))
    -- one step of the bound pays for one layer, as the identities of the parts are smaller
    have hchild : ∀ child ∈ (Value.shape l).children, child.index < bound := by
      intro child hmem
      have := hsound.smaller hget child hmem
      have := hbound id rfl
      omega
    have hrel : Shape.Rel (fun a s => pool.describe bound a = .ok s)
        (fun i s => pool.describe bound (.ref i) = .ok s) l
        (m.mapParts Tree.describe Tree.describe) := by
      rw [Shape.Rel.mapParts_right_iff]
      obtain ⟨z, rfl, rfl, hz, hz'⟩ := hlayer.exists_zip
      simp only [Shape.partList_mapParts, Shape.argList_mapParts, List.mem_map] at hparts hargs
      refine .of_zip (fun e he => ?_) fun e he => ?_
      · refine hparts _ ⟨e, he, rfl⟩ (hz e he) fun i hi => hchild i ?_
        rw [Value.mem_children_shape, Shape.partList_mapParts, ← hi]
        exact .inl (List.mem_map_of_mem he)
      · refine hargs _ ⟨e, he, rfl⟩ (hz' e he) fun i hi => hchild i ?_
        rw [Value.mem_children_shape, Shape.argList_mapParts, ← Atom.ref.inj hi]
        exact .inr (List.mem_map_of_mem he)
    rw [Pool.describe, get_of_get? hget, describe_node]
    show (l.traverseParts (pool.describe bound) fun arg => pool.describe bound (.ref arg)) >>=
      (fun s => pure s.render) = _
    rw [hrel.traverseParts]
    rfl

/-- Items that are described as their trees are, in the same order. -/
theorem describeItems_ok {items : List (Draft × Tree α)} {done : Array String}
    (h : ∀ e ∈ items, e.1.describe pool = .ok e.2.describe) :
    describeItems pool (items.map Prod.fst) done =
      .ok (done ++ (items.map fun e => e.2.describe).toArray) := by
  induction items generalizing done with
  | nil => simp [describeItems]
  | cons e rest ih =>
    obtain ⟨he, hrest⟩ := List.forall_mem_cons.1 h
    simp only [List.map_cons, describeItems, he, bind, Except.bind, ih hrest]
    simp

/-- Entries of which key and value are described as their trees are. -/
theorem describeEntries_ok {entries : List ((Draft × Tree α) × (Draft × Tree α))}
    (h : ∀ e ∈ entries, e.1.1.describe pool = .ok e.1.2.describe ∧
      e.2.1.describe pool = .ok e.2.2.describe) :
    describeEntries pool (entries.map fun e => (e.1.1, e.2.1)) =
      .ok (entries.map fun e => (e.1.2.describe, e.2.2.describe)) := by
  induction entries with
  | nil => rfl
  | cons e rest ih =>
    obtain ⟨he, hrest⟩ := List.forall_mem_cons.1 h
    simp only [List.map_cons, describeEntries, he.1, he.2, bind, Except.bind, ih hrest, pure,
      Except.pure]

/-- Fields whose values are described as their trees are, under the same names. -/
theorem describeFields_ok {fields : List (String × (Draft × Tree α))}
    (h : ∀ e ∈ fields, e.2.1.describe pool = .ok e.2.2.describe) :
    describeFields pool (fields.map fun e => (e.1, e.2.1)) =
      .ok (fields.map fun e => (e.1, e.2.2.describe)) := by
  induction fields with
  | nil => rfl
  | cons e rest ih =>
    obtain ⟨he, hrest⟩ := List.forall_mem_cons.1 h
    simp only [List.map_cons, describeFields, he, bind, Except.bind, ih hrest, pure, Except.pure]

namespace Means

/-- A draft is shown as its tree is. -/
theorem describe (hsound : pool.Sound) (h : Means pool d t) :
    d.describe pool = .ok t.describe := by
  induction h with
  | inPlace s =>
    have hdescribe : (Tree.leaf (Leaf.inPlace s : α)).describe = _ := Tree.fold_leaf ..
    rw [Draft.describe, hdescribe, Leaf.content_inPlace]
  | @byReference id s a hget ha =>
    have h : Means pool (.atom (.ref id)) (.leaf a) := .byReference hget ha
    rw [Draft.describe]
    exact describe_atom hsound h fun i hi => by cases hi; exact h.known
  | @pooled id z hget hparts hargs =>
    have h := Means.pooled z hget hparts hargs
    rw [Draft.describe]
    exact describe_atom hsound h fun i hi => by cases hi; exact h.known
  | fresh z _ _ _ _ hparts hargs =>
    rw [describe_node, Shape.mapParts_mapParts]
    -- each kind of layer has its own loop over the parts
    cases z with
    | text content => rfl
    | list items =>
      obtain ⟨items⟩ := items
      have hitems : ∀ e ∈ items, e.1.describe pool = .ok e.2.describe := hparts
      simp [Shape.mapParts, Draft.describe, describeItems_ok hitems]
    | map entries =>
      have hentries : ∀ e ∈ entries, e.1.1.describe pool = .ok e.1.2.describe ∧
          e.2.1.describe pool = .ok e.2.2.describe := fun e he =>
        ⟨hparts _ (Shape.key_mem_partList he), hparts _ (Shape.value_mem_partList he)⟩
      simp [Shape.mapParts, Draft.describe, describeEntries_ok hentries]
    | object c fields =>
      have hfields : ∀ e ∈ fields, e.2.1.describe pool = .ok e.2.2.describe := fun e he =>
        hparts _ (List.mem_map_of_mem he)
      simp [Shape.mapParts, Draft.describe, describeFields_ok hfields]
    | type n args =>
      have hargs : ∀ e ∈ args, e.1.describe pool = .ok e.2.describe := hargs
      simp [Shape.mapParts, Draft.describe, describeItems_ok hargs]

/-- A draft is the message that its tree is. -/
theorem message (hsound : pool.Sound) (h : Means pool d t) :
    d.message pool = .ok t.message := by
  obtain ⟨layer, hlayer, hrel⟩ := h.shape?
  simp only [Draft.message, hlayer, bind, Except.bind, h.describe hsound]
  cases t with
  | leaf a => cases hrel; rfl
  | node m =>
    cases hrel with
    | some h => cases h <;> rfl

end Means

/-! ### Operators -/

/-- The faults of an operator on one scalar can be reported. -/
theorem benign_of_unary? {op : UnaryOperator} {s : Scalar} {f : Fault}
    (h : s.unary? op = .error f) : f.Benign := by
  cases op <;> cases s <;> simp only [Scalar.unary?, reduceCtorEq] at h
  split at h <;> cases h
  rfl

/-- An integer operation without an exact result fails with a fault that may be reported. -/
theorem benign_of_exact {op : BinaryOperator} {a b : Int64} {w : Option Int64} {f : Fault}
    (h : Scalar.exact op a b w = .error f) : f.Benign := by
  cases w <;> cases h
  rfl

/-- So does an operation on two integers that has none for another reason. -/
theorem benign_of_intBinary {op : BinaryOperator} {a b : Int64} {f : Fault}
    (h : Scalar.intBinary op a b = .error f) : f.Benign := by
  unfold Scalar.intBinary at h
  split at h
  case h_1 | h_2 | h_3 => exact benign_of_exact h
  case h_5 =>
    split at h
    · cases h
      rfl
    · exact benign_of_exact h
  case h_6 =>
    split at h
    · cases h
      rfl
    · split at h
      · cases h
        rfl
      · exact benign_of_exact h
  case h_16 | h_17 =>
    split at h <;> cases h
    rfl
  all_goals cases h

/-- So does an operation on two doubles. -/
theorem benign_of_doubleBinary {op : BinaryOperator} {x y : Double} {f : Fault}
    (h : Scalar.doubleBinary op x y = .error f) : f.Benign := by
  cases op
  case intDiv =>
    rcases hq : Scalar.truncatedQuotient x y with f' | q
    · simp only [Scalar.doubleBinary, hq, bind, Except.bind] at h
      cases h
      unfold Scalar.truncatedQuotient at hq
      split at hq <;> cases hq
      rfl
    · simp [Scalar.doubleBinary, hq, bind, Except.bind, pure, Except.pure] at h
  all_goals cases h

/-- The faults of an operator on two scalars can be reported. -/
theorem benign_of_binary? {op : BinaryOperator} {s t : Scalar} {f : Fault}
    (h : s.binary? op t = .error f) : f.Benign := by
  unfold Scalar.binary? at h
  split at h
  · next a b =>
    rcases hr : Scalar.intBinary op a b with f' | r
    · simp only [hr, bind, Except.bind] at h
      cases h
      exact benign_of_intBinary hr
    · simp [hr, bind, Except.bind, pure, Except.pure] at h
  · cases h
  · split at h
    · exact benign_of_doubleBinary h
    · cases h

/-- The result of an operator on two layers means that of the operator on layers of trees. -/
theorem binary?_rel (op : BinaryOperator) {l l' : Shape Draft Draft}
    {m m' : Shape (Tree α) (Tree α)} (h : FreshMeans pool l m) (h' : FreshMeans pool l' m') :
    Option.Rel (fun r r' => Means pool (ofResult r) (Tree.ofResult r')) (l.binary? op l')
      (m.binary? op m') := by
  cases h with
  | text x =>
    cases h' with
    | text y =>
      simp only [Shape.binary?]
      cases op
      case add => exact .some (.of_fresh trivial (.text _))
      case lt | le | gt | ge => exact .some (.inPlace _)
      all_goals exact .none
    | _ => exact .none
  | list h =>
    cases h' with
    | list h' =>
      cases op
      case add =>
        refine .some (.of_fresh trivial (.list ?_))
        simp only [Array.toList_append]
        exact List.rel_append h h'
      all_goals exact .none
    | _ => exact .none
  | map h => cases h' <;> exact .none
  | object c h => cases h' <;> exact .none
  | type n h => cases h' <;> exact .none

namespace Means

/-- Operands without a meaning give the same fault. -/
theorem mismatch (symbol : String) (h : Means pool d t) (h' : Means pool e u) :
    Draft.mismatch pool symbol d e = Tree.mismatch symbol t u := by
  rw [Draft.mismatch, Tree.mismatch, h.typeName, h'.typeName]

/-- A draft of a scalar means the scalar. -/
theorem scalar (s : Scalar) : Means pool (Draft.scalar s) (Tree.scalar s : Tree α) := .inPlace s

/-- A draft of a text means the text. -/
theorem text (content : String) : Means pool (Draft.text content) (Tree.text content : Tree α) :=
  .of_fresh trivial (.text content)

/-- A draft of a list means the list of what its items mean. -/
theorem list {xs : Array Draft} {ts : Array (Tree α)}
    (h : List.Forall₂ (Means pool) xs.toList ts.toList) :
    Means pool (Draft.list xs) (Tree.list ts) := .of_fresh trivial (.list h)

/-- A draft of an object means the object of what its fields mean. -/
theorem object (className : String) {fields : List (String × Draft)}
    {fields' : List (String × Tree α)} (hnodup : (fields.map Prod.fst).Nodup)
    (h : List.Forall₂ (fun e e' => e.1 = e'.1 ∧ Means pool e.2 e'.2) fields fields') :
    Means pool (Draft.object className fields) (Tree.object className fields') :=
  .of_fresh (Shape.pairwise_sortFields hnodup) (.object className (Shape.forall₂_sortFields h))

/-- An operator with one operand. -/
theorem unary (op : UnaryOperator) (h : Means pool d t) :
    Agree Fault.Benign (Means pool) (d.unary pool op) (t.unary op) := by
  rw [Draft.unary, Tree.unary, h.scalar?, h.typeName]
  rcases t.scalar? with _ | s
  · exact .error rfl
  · have hresult : Agree Fault.Benign Eq (s.unary? op) (s.unary? op) :=
      .refl fun _ => benign_of_unary?
    refine hresult.bind ?_
    rintro (_ | r) _ rfl
    · exact .error rfl
    · exact .ok (.scalar r)

/-- An operator on two operands of which at least one is not held in place. -/
theorem shapeBinary (op : BinaryOperator) (h : Means pool d t) (h' : Means pool e u) :
    ∃ r, Draft.shapeBinary pool op d e = .ok r ∧
      Option.Rel (Means pool) r (Tree.shapeBinary op t u) := by
  obtain ⟨l, hl, hrel⟩ := h.shape?
  obtain ⟨l', hl', hrel'⟩ := h'.shape?
  simp only [Draft.shapeBinary, Tree.shapeBinary, hl, hl', bind, Except.bind]
  generalize t.shape? = x at hrel ⊢
  generalize u.shape? = y at hrel' ⊢
  cases hrel with
  | none => exact ⟨none, rfl, .none⟩
  | some hrel =>
    cases hrel' with
    | none => exact ⟨none, rfl, .none⟩
    | some hrel' =>
      refine ⟨_, rfl, ?_⟩
      have hresult := binary?_rel op hrel hrel'
      simp only [Option.bind_some]
      generalize Shape.binary? op _ _ = r at hresult ⊢
      generalize Shape.binary? op _ _ = r' at hresult ⊢
      cases hresult with
      | none => exact .none
      | some hr => exact .some hr

/-- An operator with two operands, other than the equalities. -/
theorem combine (op : BinaryOperator) (h : Means pool d t) (h' : Means pool e u) :
    Agree Fault.Benign (Means pool) (d.combine pool op e) (t.combine op u) := by
  have hmismatch : Agree Fault.Benign (Means (α := α) pool)
      (.error (Draft.mismatch pool op.symbol d e)) (.error (Tree.mismatch op.symbol t u)) := by
    rw [h.mismatch op.symbol h']
    exact .error rfl
  obtain ⟨r, hr, hrel⟩ := h.shapeBinary op h'
  simp only [Draft.combine, Tree.combine, h.scalar?, h'.scalar?]
  -- a pair of scalars goes to the operators of scalars, every other pair to those of layers; a pair
  -- that neither knows is a mismatch
  generalize t.shapeBinary op u = r' at hrel ⊢
  rcases t.scalar? with _ | s
  · rw [hr]
    cases hrel with
    | some hv => exact .ok hv
    | none => exact hmismatch
  · rcases u.scalar? with _ | s'
    · rw [hr]
      cases hrel with
      | some hv => exact .ok hv
      | none => exact hmismatch
    · have hresult : Agree Fault.Benign Eq (s.binary? op s') (s.binary? op s') :=
        .refl fun _ => benign_of_binary?
      refine (hresult.map (W := Option.Rel (Means pool)) ?_).bind fun _ _ hrel => ?_
      · rintro (_ | v) _ rfl
        · exact .none
        · exact .some (.scalar v)
      · cases hrel with
        | some hv => exact .ok hv
        | none => exact hmismatch

variable [DecidableEq α]

/-- Equality of drafts is equality of trees. -/
theorem equals (hsound : pool.Sound) (h : Means pool d t) (h' : Means pool e u) :
    d.equals pool e = .ok (t.equals u) := by
  rw [Draft.equals, Tree.equals, h.scalar?, h'.scalar?]
  rcases t.scalar? with _ | s
  · exact h.same hsound h'
  · rcases u.scalar? with _ | s'
    · exact h.same hsound h'
    · rfl

/-- An operator with two operands. -/
theorem binary (hsound : pool.Sound) (op : BinaryOperator) (h : Means pool d t)
    (h' : Means pool e u) :
    Agree Fault.Benign (Means pool) (d.binary pool op e) (t.binary op u) := by
  have hequals := h.equals hsound h'
  cases op
  case eq =>
    simp only [Draft.binary, hequals]
    exact .ok (.scalar _)
  case ne =>
    simp only [Draft.binary, hequals]
    exact .ok (.scalar _)
  all_goals exact h.combine _ h'

end Means

end Draft

end ConstPool
