import ConstPool.Proofs.Draft.Intern
import ConstPool.Proofs.Tree.Eval
import ConstPool.Proofs.Simulation.Body

/-!
# Trees whose types are well formed

A type has arguments, and these should be types as well. A tree is well formed if all arguments of
types within it are of a kind, for instance types. What the language does to well-formed trees are
well-formed trees: every part of a result is a part of an operand, or it is new and without
arguments.

Only types have arguments, and only a type expression makes a new one. So the property is kept by
every operator without a look at what the arguments are, and it need not be decided which trees are
types.

* `Tree.Formed`: all arguments of types within a tree are of a kind.
* `Tree.Formed.binary`, `Tree.Formed.index`, `Tree.Formed.member`, `Tree.Formed.elements`: operators
  and parts.
* `TypeExpr.formed`: types as values.
-/

namespace ConstPool

namespace Tree

variable {α : Type} {U : Tree α → Prop} {t u v : Tree α} {layer : Shape (Tree α) (Tree α)}

/-- A node of a node of a tree is a node of the tree. -/
theorem Within.trans (h : u.Within t) (h' : v.Within u) : v.Within t := by
  induction h with
  | self => exact h'
  | part hmem _ ih => exact .part hmem (ih h')
  | arg hmem _ ih => exact .arg hmem (ih h')

/-- The nodes of a tree are those of the result of a body that comes to it. -/
theorem Within.settled [Leaf α] (h : u.Within t) : u.Within t.settled := by
  cases t with
  | leaf a => cases h
  | node layer => exact h

/-- All arguments of types within a tree are of the kind `U`. -/
def Formed (U : Tree α → Prop) (t : Tree α) : Prop :=
  ∀ layer, (node layer).Within t → ∀ u ∈ layer.argList, U u

namespace Formed

/-- The nodes of a well-formed tree are well formed. -/
theorem within (h : t.Formed U) (hu : u.Within t) : u.Formed U :=
  fun layer hlayer => h layer (hu.trans hlayer)

/-- A leaf has no arguments. -/
theorem leaf (a : α) : (Tree.leaf a).Formed U := by
  rintro layer ⟨⟩

/-- A node is well formed if its parts are. -/
theorem node_iff : (node layer).Formed U ↔
    (∀ t ∈ layer.partList, t.Formed U) ∧ ∀ t ∈ layer.argList, U t ∧ t.Formed U := by
  constructor
  · intro h
    refine ⟨fun t ht l hl => h l (.part ht hl), fun t ht => ⟨h layer (.self layer) t ht, ?_⟩⟩
    exact fun l hl => h l (.arg ht hl)
  · rintro ⟨hparts, hargs⟩ l hl
    cases hl with
    | self => exact fun u hu => (hargs u hu).1
    | part ht hl => exact hparts _ ht l hl
    | arg ht hl => exact (hargs _ ht).2 l hl

/-- A node is well formed if its parts are, and its arguments are besides of the kind `U`. -/
theorem node (hparts : ∀ t ∈ layer.partList, t.Formed U)
    (hargs : ∀ t ∈ layer.argList, U t ∧ t.Formed U) : (node layer).Formed U :=
  node_iff.2 ⟨hparts, hargs⟩

/-- A part of a well-formed node is well formed. -/
theorem part (h : (Tree.node layer).Formed U) (ht : t ∈ layer.partList) : t.Formed U :=
  (node_iff.1 h).1 t ht

/-- A node of well-formed parts without arguments is well formed. -/
theorem of_parts (hparts : ∀ t ∈ layer.partList, t.Formed U) (hargs : layer.argList = []) :
    (Tree.node layer).Formed U := by
  refine node hparts fun t ht => ?_
  rw [hargs] at ht
  cases ht

/-- A text has neither parts nor arguments. -/
theorem text (content : String) : (Tree.text content : Tree α).Formed U :=
  of_parts (fun _ h => nomatch h) rfl

/-- A list of well-formed trees. -/
theorem list {items : Array (Tree α)} (h : ∀ t ∈ items.toList, t.Formed U) :
    (Tree.list items).Formed U := of_parts h rfl

/-- Everything is well formed if arguments may be anything. -/
theorem anything (h : ∀ t : Tree α, U t) (t : Tree α) : t.Formed U := fun _ _ u _ => h u

/-- The members of a list of parts are well formed. -/
theorem of_forall₂ {β : Type} {R : β → Tree α → Prop} {xs : List β} {ts : List (Tree α)}
    (h : List.Forall₂ R xs ts) (hR : ∀ x t, R x t → t.Formed U) : ∀ t ∈ ts, t.Formed U := by
  intro t ht
  obtain ⟨x, -, hx⟩ := exists_of_forall₂ h.flip ht
  exact hR x t hx

variable [Leaf α]

/-- A scalar is a leaf. -/
theorem scalar (s : Scalar) : (Tree.scalar s : Tree α).Formed U := .leaf _

/-- The result of a body that comes to a well-formed tree is well formed. -/
theorem settled (h : t.Formed U) : t.settled.Formed U := by
  cases t with
  | leaf a => exact .scalar _
  | node layer => exact h

/-! ### Operators -/

/-- An operator with one operand gives a scalar. -/
theorem unary (op : UnaryOperator) (t : Tree α) :
    Results (fun _ => True) (Formed U) (t.unary op) := by
  rw [Tree.unary]
  rcases t.scalar? with _ | s
  · exact .error trivial
  · dsimp only
    rcases s.unary? op with f | _ | r
    · exact .error trivial
    · exact .error trivial
    · exact .ok (.scalar r)

/-- An operator on two layers gives a scalar or a layer of parts of both. -/
theorem shapeBinary (op : BinaryOperator) (ht : t.Formed U) (hu : u.Formed U)
    (h : Tree.shapeBinary op t u = some v) : v.Formed U := by
  cases t with
  | leaf a => cases h
  | node l =>
    cases u with
    | leaf b => cases h
    | node m =>
      obtain ⟨r, hr, rfl⟩ := Option.map_eq_some_iff.1 h
      cases r with
      | inl s => exact .scalar s
      | inr k =>
        cases l with
        | text x =>
          cases m with
          | text y =>
            simp only [Shape.binary?] at hr
            cases op <;> cases hr
            exact .text _
          | _ => cases hr
        | list xs =>
          cases m with
          | list ys =>
            cases op <;> cases hr
            refine .list fun w hw => ?_
            rw [Array.toList_append] at hw
            rcases List.mem_append.1 hw with hw | hw
            · exact ht.part hw
            · exact hu.part hw
          | _ => cases hr
        | _ => cases hr

/-- An operator with two operands, other than the equalities. -/
theorem combine (op : BinaryOperator) (ht : t.Formed U) (hu : u.Formed U) :
    Results (fun _ => True) (Formed U) (t.combine op u) := by
  have hshape : ∀ v, Tree.shapeBinary op t u = some v → v.Formed U := fun v => ht.shapeBinary op hu
  rw [Tree.combine]
  generalize Tree.shapeBinary op t u = r at hshape ⊢
  rcases t.scalar? with _ | s
  · rcases r with _ | v
    · exact .error trivial
    · exact .ok (hshape v rfl)
  · rcases u.scalar? with _ | s'
    · rcases r with _ | v
      · exact .error trivial
      · exact .ok (hshape v rfl)
    · dsimp only
      rcases s.binary? op s' with f | _ | r
      · exact .error trivial
      · exact .error trivial
      · exact .ok (.scalar r)

/-- An operator with two operands. -/
theorem binary [DecidableEq α] (op : BinaryOperator) (ht : t.Formed U) (hu : u.Formed U) :
    Results (fun _ => True) (Formed U) (t.binary op u) := by
  cases op
  case eq | ne => exact .ok (.scalar _)
  all_goals exact ht.combine _ hu

/-! ### Parts -/

/-- What is found under a key is one of the values. -/
theorem valueAt [DecidableEq α] {entries : List (Tree α × Tree α)}
    (h : ∀ e ∈ entries, e.2.Formed U) (key : Tree α) : (Tree.valueAt key entries).Formed U := by
  induction entries with
  | nil => exact .scalar _
  | cons e rest ih =>
    obtain ⟨he, hrest⟩ := List.forall_mem_cons.1 h
    rw [Tree.valueAt]
    split
    · exact he
    · exact ih hrest

/-- The part at an index. -/
theorem index [DecidableEq α] (ht : t.Formed U) (position : Tree α) :
    Results (fun _ => True) (Formed U) (t.index position) := by
  unfold Tree.index
  split
  · next items i _ =>
    unfold Shape.itemAt
    split
    · next item hitem =>
      obtain ⟨n, -, hn⟩ := Option.bind_eq_some_iff.1 hitem
      exact .ok (ht.part (Array.mem_toList_iff.2 (Array.mem_of_getElem? hn)))
    · exact .error trivial
  · next content i _ =>
    rcases Shape.charAt content i with f | c
    · exact .error trivial
    · exact .ok (.text c)
  · next entries _ =>
    exact .ok (valueAt (fun e he => ht.part (Shape.value_mem_partList he)) position)
  · exact .error trivial

/-- The value of a name. -/
theorem member (ht : t.Formed U) (name : String) :
    Results (fun _ => True) (Formed U) (t.member name) := by
  unfold Tree.member
  split
  · next className fields =>
    split
    · next value hvalue =>
      obtain ⟨before, after, rfl, -⟩ := List.lookup_eq_some_iff.1 hvalue
      exact .ok (ht.part (List.mem_map_of_mem (List.mem_append_right _ (List.mem_cons_self ..))))
    · exact .error trivial
  · split
    · exact .ok (.scalar _)
    · exact .error trivial

/-- What a loop runs through. -/
theorem elements (ht : t.Formed U) :
    Results (fun _ => True) (fun ts => ∀ u ∈ ts, u.Formed U) t.elements := by
  unfold Tree.elements
  split
  · exact .ok fun u hu => ht.part hu
  · next entries =>
    refine .ok fun u hu => ?_
    obtain ⟨e, he, rfl⟩ := List.mem_map.1 hu
    exact ht.part (Shape.key_mem_partList he)
  · exact .error trivial

/-! ### Types -/

variable {env : TreeEnv α}

/-- The answer to a question about a type. -/
theorem queryType (q : Query) (t : Tree α) :
    Results (fun _ => True) (Formed U) (env.queryType q t) := by
  unfold TreeEnv.queryType
  split
  · next name _ =>
    have hfields : Results (fun _ => True) (fun _ => True) (env.analysis.fieldsOf name) := by
      rcases env.analysis.fieldsOf name with f | fields
      · exact .error trivial
      · exact .ok trivial
    cases q with
    | typeName => exact .ok (.text _)
    | fieldNames =>
      refine hfields.bind fun fields _ => .ok (.list fun u hu => ?_)
      obtain ⟨field, -, rfl⟩ := List.mem_map.1 hu
      exact .text _
    | fieldTypes =>
      refine hfields.bind fun fields _ => .ok (.list fun u hu => ?_)
      obtain ⟨field, -, rfl⟩ := List.mem_map.1 hu
      exact .of_parts (fun _ h => nomatch h) rfl
  · exact .error trivial

end Formed

end Tree

section Types

variable {α : Type} [Leaf α] {U : Tree α → Prop} {env : TreeEnv α}
  {s : Surroundings}

mutual

/-- A type that passed is a well-formed type, if types may be arguments and type parameters stand
for what may be one. -/
theorem TypeExpr.formed (hU : ∀ name args, U (.type name args))
    (hparams : ∀ name ∈ s.typeParams, ∀ t, env.params.get? name = some t → U t ∧ t.Formed U) :
    (t : TypeExpr) → t.vet s = .ok () →
      Results (fun _ => True) (fun u => U u ∧ u.Formed U) (t.tree env)
  | .named name args, hvet => by
    rw [TypeExpr.vet] at hvet
    rw [TypeExpr.tree]
    cases isKnownType env.analysis.types name
    · exact .error trivial
    · have hargs : vetTypes s args = .ok () := by
        cases hknown : isKnownType s.types name
        · rw [hknown] at hvet
          cases hvet
        · rwa [hknown] at hvet
      refine (typesFormed hU hparams args hargs).bind fun ts hts => .ok ⟨hU _ _, ?_⟩
      exact .node (fun _ h => nomatch h) hts
  | .param name, hvet => by
    rw [TypeExpr.vet] at hvet
    have hname : name ∈ s.typeParams := by
      by_contra hnot
      rw [if_neg (by simpa using hnot)] at hvet
      cases hvet
    rw [TypeExpr.tree]
    rcases hget : env.params.get? name with _ | t
    · exact .error trivial
    · dsimp only
      split
      · exact .ok (hparams name hname t hget)
      · exact .error trivial

/-- A list of types that passed. -/
theorem typesFormed (hU : ∀ name args, U (.type name args))
    (hparams : ∀ name ∈ s.typeParams, ∀ t, env.params.get? name = some t → U t ∧ t.Formed U) :
    (ts : List TypeExpr) → vetTypes s ts = .ok () →
      Results (fun _ => True) (fun us => ∀ u ∈ us, U u ∧ u.Formed U) (typeTrees env ts)
  | [], _ => .ok fun _ h => nomatch h
  | t :: rest, hvet => by
    rw [vetTypes] at hvet
    obtain ⟨_, ht, hrest⟩ := ok_of_bind hvet
    rw [typeTrees]
    exact (TypeExpr.formed hU hparams t ht).bind fun u hu =>
      (typesFormed hU hparams rest hrest).bind fun us hus => .ok (List.forall_mem_cons.2 ⟨hu, hus⟩)

end

end Types

end ConstPool
