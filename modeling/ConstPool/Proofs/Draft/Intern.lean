import ConstPool.Draft.Intern
import ConstPool.Proofs.Draft.Meaning

/-!
# Pooling keeps the meaning

A draft that means a tree can always be pooled, and the atom that comes out means the same tree.
Pooling adds to the pool nothing but constants that have their fields in order and are nodes of the
tree, and it leaves the cache of results alone.

How a draft is pooled is one thing, and what it is to pool a value another. What is proved along the
draft needs a few rules about the latter and nothing else, so it holds wherever these rules do.

* `Tree.Within`: the nodes of a tree.
* `Pool.Extends`, `Stock.Extends`: a pool or a stock has grown by constants of a certain kind.
* `Pool.Grows`, `Stock.Grows`: how pooling may change a stock.
* `Work.Adds`, `Work.Yields`: a computation on the stock that does not fail, grows the stock and
  gives a result of a certain kind.
* `Pooling`: the rules about computations that pool trees.
* `Pooling.interns`: pooling a draft, wherever these rules hold.
* `Draft.Means.pools`: pooling a draft on a stock.
-/

namespace ConstPool

open Draft

/-! ### The nodes of a tree -/

/-- A node of a tree, which may be the whole of it. -/
inductive Tree.Within {α : Type} : Tree α → Tree α → Prop
  | self (layer : Shape (Tree α) (Tree α)) : Within (.node layer) (.node layer)
  | part {layer : Shape (Tree α) (Tree α)} {t u : Tree α} : t ∈ layer.partList → Within u t →
    Within u (.node layer)
  | arg {layer : Shape (Tree α) (Tree α)} {t u : Tree α} : t ∈ layer.argList → Within u t →
    Within u (.node layer)

variable {α : Type} [Leaf α]

/-- A constant of the pool is a tree: the atom that stands for it means the tree. -/
def Pool.Denotes (pool : Pool) (id : ValueId) (t : Tree α) : Prop :=
  ∃ a, pool.atomOf id = .ok a ∧ Means pool (.atom a) t

namespace Pool.Denotes

variable {pool : Pool} {id : ValueId} {t : Tree α}

/-- A constant is the same tree in a pool that keeps it. -/
theorem mono {q : Pool} (h : pool.Denotes id t) (hkeeps : pool.Keeps q) : q.Denotes id t := by
  obtain ⟨a, ha, ht⟩ := h
  exact ⟨a, hkeeps.atomOf ha, ht.mono hkeeps⟩

/-- A constant that is no scalar is what its identity means. -/
theorem of_shape {layer : Shape Atom ValueId} (hget : pool.get? id = some (.shape layer))
    (h : Means pool (.atom (.ref id)) t) : pool.Denotes id t := by
  refine ⟨.ref id, ?_, h⟩
  rw [Pool.atomOf, Pool.get_eq_ok_iff.2 hget]
  rfl

/-- A scalar is held in place. -/
theorem of_scalar {s : Scalar} (hget : pool.get? id = some (.scalar s)) :
    pool.Denotes id (.leaf (Leaf.inPlace s) : Tree α) := by
  refine ⟨.scalar s, ?_, .inPlace s⟩
  rw [Pool.atomOf, Pool.get_eq_ok_iff.2 hget]
  rfl

/-- What the constant of an identity is depends on whether it is a scalar. -/
theorem cases (h : pool.Denotes id t) :
    (∃ s, pool.get? id = some (.scalar s) ∧ t = .leaf (Leaf.inPlace s)) ∨
      ∃ layer, pool.get? id = some (.shape layer) ∧ Means pool (.atom (.ref id)) t := by
  obtain ⟨a, ha, ht⟩ := h
  rw [Pool.atomOf, Pool.get] at ha
  rcases hget : pool.get? id with _ | s | layer
  · rw [hget] at ha
    cases ha
  · rw [hget] at ha
    cases ha
    exact .inl ⟨s, rfl, Means.scalar_iff.1 ht⟩
  · rw [hget] at ha
    cases ha
    exact .inr ⟨layer, rfl, ht⟩

/-- What is a constant lies in the pool. -/
theorem known (h : pool.Denotes id t) : id.index < pool.size := by
  rcases h.cases with ⟨s, hget, -⟩ | ⟨layer, hget, -⟩
  · exact Pool.lt_size_of_get? hget
  · exact Pool.lt_size_of_get? hget

end Pool.Denotes

/-! ### Pools and stocks that grow -/

/-- A later pool: it keeps all constants, and new ones have their fields in order and are trees with
`P`. -/
structure Pool.Extends (P : Tree α → Prop) (p q : Pool) : Prop where
  keeps : p.Keeps q
  ordered : ∀ {id layer}, p.get? id = none → q.get? id = some (.shape layer) → layer.Ordered
  added : ∀ {id value}, p.get? id = none → q.get? id = some value → ∃ t, P t ∧ q.Denotes id t

/-- A later stock: its pool is later and sound, and its cache is the same. -/
structure Stock.Extends (P : Tree α → Prop) (s s' : Stock) : Prop where
  pool : s.pool.Extends P s'.pool
  sound : s'.pool.Sound
  memo : s'.memo = s.memo

/-- A later pool, of which the new constants may be any trees. -/
abbrev Pool.Grows (α : Type) [Leaf α] (p q : Pool) : Prop := p.Extends (fun _ : Tree α => True) q

/-- A later stock, in which the new constants may be any trees. -/
abbrev Stock.Grows (α : Type) [Leaf α] (s s' : Stock) : Prop :=
  s.Extends (fun _ : Tree α => True) s'

variable {P : Tree α → Prop}

namespace Pool.Extends

/-- A pool in which nothing is new. -/
theorem refl (p : Pool) : p.Extends P p where
  keeps := .refl p
  ordered hnone hsome := by
    rw [hnone] at hsome
    cases hsome
  added hnone hsome := by
    rw [hnone] at hsome
    cases hsome

/-- What is new in a later pool of a later one is new in one of the two stretches. -/
theorem trans {p q r : Pool} (h : p.Extends P q) (h' : q.Extends P r) : p.Extends P r where
  keeps := h.keeps.trans h'.keeps
  ordered {id layer} hnone hsome := by
    rcases hq : q.get? id with _ | value
    · exact h'.ordered hq hsome
    · cases hsome.symm.trans (h'.keeps id value hq)
      exact h.ordered hnone hq
  added {id value} hnone hsome := by
    rcases hq : q.get? id with _ | old
    · exact h'.added hq hsome
    · obtain ⟨t, ht, hid⟩ := h.added hnone hq
      exact ⟨t, ht, hid.mono h'.keeps⟩

/-- Less is known about the new constants. -/
theorem imp {Q : Tree α → Prop} {p q : Pool} (h : p.Extends P q) (himp : ∀ t, P t → Q t) :
    p.Extends Q q where
  keeps := h.keeps
  ordered := h.ordered
  added hnone hsome := by
    obtain ⟨t, ht, hid⟩ := h.added hnone hsome
    exact ⟨t, himp t ht, hid⟩

/-- A pool has grown by a scalar. -/
theorem of_interned_scalar {p q : Pool} {s : Scalar} {id : ValueId}
    (h : Pool.Interned p q (.scalar s) id) (hs : P (.leaf (Leaf.inPlace s))) : p.Extends P q where
  keeps := h.keeps
  ordered hnone hsome := by
    rcases h.added hsome with hold | ⟨-, hvalue⟩
    · cases hnone.symm.trans hold
    · cases hvalue
  added hnone hsome := by
    rcases h.added hsome with hold | ⟨rfl, rfl⟩
    · cases hnone.symm.trans hold
    · exact ⟨_, hs, .of_scalar h.get⟩

/-- A pool has grown by a layer that means a layer of trees. -/
theorem of_interned_shape {p q : Pool} {layer : Shape Atom ValueId}
    {m : Shape (Tree α) (Tree α)} {id : ValueId} (h : Pool.Interned p q (.shape layer) id)
    (hordered : layer.Ordered) (hm : Means q (.atom (.ref id)) (.node m)) (hP : P (.node m)) :
    p.Extends P q where
  keeps := h.keeps
  ordered hnone hsome := by
    rcases h.added hsome with hold | ⟨-, hvalue⟩
    · cases hnone.symm.trans hold
    · cases hvalue
      exact hordered
  added hnone hsome := by
    rcases h.added hsome with hold | ⟨rfl, rfl⟩
    · cases hnone.symm.trans hold
    · exact ⟨_, hP, .of_shape h.get hm⟩

end Pool.Extends

namespace Stock.Extends

/-- A stock in which nothing is new. -/
theorem refl {s : Stock} (h : s.pool.Sound) : s.Extends P s := ⟨.refl _, h, rfl⟩

/-- A later stock of a later one. -/
theorem trans {s s' s'' : Stock} (h : s.Extends P s') (h' : s'.Extends P s'') : s.Extends P s'' :=
  ⟨h.pool.trans h'.pool, h'.sound, h'.memo.trans h.memo⟩

/-- Less is known about the new constants. -/
theorem imp {Q : Tree α → Prop} {s s' : Stock} (h : s.Extends P s') (himp : ∀ t, P t → Q t) :
    s.Extends Q s' := ⟨h.pool.imp himp, h.sound, h.memo⟩

end Stock.Extends

/-! ### Computations that do not fail -/

/-- From any stock that has a sound pool later than `p`, the computation does not fail, the stock
grows by trees with `P`, and the result is as wanted. -/
def Work.Adds {β : Type} (P : Tree α → Prop) (p : Pool) (work : Work β) (V : Pool → β → Prop) :
    Prop :=
  ∀ s : Stock, p.Keeps s.pool → s.pool.Sound →
    ∃ b s', work s = .ok b s' ∧ s.Extends P s' ∧ V s'.pool b

/-- The computation does not fail, the stock grows, and the result is as wanted. -/
abbrev Work.Yields {β : Type} (α : Type) [Leaf α] (p : Pool) (work : Work β)
    (V : Pool → β → Prop) : Prop := work.Adds (fun _ : Tree α => True) p V

namespace Work.Adds

variable {β γ : Type} {p : Pool} {V : Pool → β → Prop} {W : Pool → γ → Prop}

/-- Returning a value adds nothing. -/
theorem pure {b : β} (h : ∀ q, p.Keeps q → V q b) : Adds P p (Pure.pure b : Work β) V :=
  fun s hkeeps hsound => ⟨b, s, rfl, .refl hsound, h _ hkeeps⟩

/-- In sequence, the second computation starts from the pool that the first one leaves. -/
theorem bind {work : Work β} {next : β → Work γ} (h : Adds P p work V)
    (hnext : ∀ q b, p.Keeps q → V q b → Adds P q (next b) W) :
    Adds P p (work >>= next) W := by
  intro s hkeeps hsound
  obtain ⟨b, s', hrun, hgrows, hb⟩ := h s hkeeps hsound
  obtain ⟨c, s'', hrun', hgrows', hc⟩ :=
    hnext s'.pool b (hkeeps.trans hgrows.pool.keeps) hb s' (.refl _) hgrows.sound
  refine ⟨c, s'', ?_, hgrows.trans hgrows', hc⟩
  show EStateM.bind work next s = _
  rw [EStateM.bind, hrun]
  exact hrun'

/-- What holds from a pool on holds from any later one. -/
theorem mono {q : Pool} {work : Work β} (h : Adds P p work V) (hkeeps : p.Keeps q) :
    Adds P q work V := fun s hs => h s (hkeeps.trans hs)

/-- Less is known of the result. -/
theorem imp {V' : Pool → β → Prop} {work : Work β} (h : Adds P p work V)
    (himp : ∀ q b, V q b → V' q b) : Adds P p work V' := by
  intro s hkeeps hsound
  obtain ⟨b, s', hrun, hgrows, hb⟩ := h s hkeeps hsound
  exact ⟨b, s', hrun, hgrows, himp _ _ hb⟩

end Work.Adds

/-! ### Layers -/

/-- The constants that a layer refers to are known if the layer means something. -/
theorem known_of_layerMeans {p : Pool} {layer : Shape Atom ValueId}
    {m : Shape (Tree α) (Tree α)} (h : LayerMeans p layer m) :
    ∀ child ∈ (Value.shape layer).children, child.index < p.size := by
  intro child hchild
  rcases Value.mem_children_shape.1 hchild with hpart | harg
  · obtain ⟨t, -, ht⟩ := exists_of_forall₂ h.partList hpart
    exact ht.known
  · obtain ⟨t, -, ht⟩ := exists_of_forall₂ h.argList harg
    exact ht.known

/-- A layer that means a layer of trees is pooled as one that does. -/
theorem Pool.exists_interned {p : Pool} {layer : Shape Atom ValueId} {m : Shape (Tree α) (Tree α)}
    (hordered : layer.Ordered) (h : LayerMeans p layer m) (hP : P (.node m)) :
    ∃ id q, p.intern (.shape layer) = (.ok id, q) ∧ Pool.Interned p q (.shape layer) id ∧
      p.Extends P q ∧ Means q (.atom (.ref id)) (.node m) := by
  obtain ⟨id, q, hintern, hq⟩ := Pool.intern_of_known (known_of_layerMeans h)
  have hmeans : Means q (.atom (.ref id)) (.node m) :=
    .of_pooled hq.get (h.imp (fun _ _ => .mono hq.keeps) fun _ _ => .mono hq.keeps)
  exact ⟨id, q, hintern, hq, .of_interned_shape hq hordered hmeans hP, hmeans⟩

/-- What may be known of computations `m` that pool trees with `P`. A computation `Adds` from a pool
on, with results of a certain kind, if it comes to such a result whatever else is in the pool by
then. That is all that is needed to say what pooling a draft comes to. -/
structure Pooling (m : Type → Type) [Monad m] [MonadExceptOf Fault m] (P : Tree α → Prop) where
  /-- What it is to pool a value. -/
  intern : Value → m ValueId
  Adds : {β : Type} → Pool → m β → (Pool → β → Prop) → Prop
  pure : ∀ {β : Type} {p : Pool} {V : Pool → β → Prop} {b : β}, (∀ q, p.Keeps q → V q b) →
    Adds p (Pure.pure b) V
  bind : ∀ {β γ : Type} {p : Pool} {V : Pool → β → Prop} {W : Pool → γ → Prop} {x : m β}
    {f : β → m γ}, Adds p x V → (∀ q b, p.Keeps q → V q b → Adds q (f b) W) → Adds p (x >>= f) W
  mono : ∀ {β : Type} {p q : Pool} {V : Pool → β → Prop} {x : m β}, Adds p x V → p.Keeps q →
    Adds q x V
  imp : ∀ {β : Type} {p : Pool} {V V' : Pool → β → Prop} {x : m β}, Adds p x V →
    (∀ q b, V q b → V' q b) → Adds p x V'
  layer : ∀ {p : Pool} {layer : Shape Atom ValueId} {l : Shape (Tree α) (Tree α)}, layer.Ordered →
    LayerMeans p layer l → P (.node l) →
      Adds p (intern (.shape layer)) fun q id => Means q (.atom (.ref id)) (.node l)

/-! ### Drafts -/

namespace Pooling

variable {m : Type → Type} [Monad m] [MonadExceptOf Fault m] (L : Pooling m P)

/-- Pooling a draft gives an atom that means the same tree; only a scalar in place stays in
place. -/
abbrev Interns (p : Pool) (d : Draft) (t : Tree α) : Prop :=
  L.Adds p (d.internBy L.intern) fun q a =>
    Means q (.atom a) t ∧ (d.scalar? = none → ∃ id, a = .ref id)

/-- Pooling a layer whose parts are pooled. -/
theorem internLayer {p : Pool} {layer : Shape Atom ValueId} {l : Shape (Tree α) (Tree α)}
    (hordered : layer.Ordered) (h : LayerMeans p layer l) (hP : P (.node l)) :
    L.Adds p (internLayerBy L.intern layer) fun q a =>
      Means q (.atom a) (.node l) ∧ ∃ id, a = .ref id := by
  -- the fields of a layer that is in order are in order already
  have heq : internLayerBy L.intern layer = (do return .ref (← L.intern (.shape layer))) := by
    cases layer with
    | object c fields =>
      show (do return Atom.ref (← L.intern (.object c fields))) = _
      rw [Value.object, Shape.sortFields_of_pairwise hordered]
    | _ => rfl
  rw [heq]
  refine L.bind (L.layer hordered h hP) fun q id _ hid => L.pure fun q' hq' => ?_
  exact ⟨hid.mono hq', id, rfl⟩

/-- Pooling the items of a list. -/
theorem internItems {items : List (Draft × Tree α)} {p : Pool}
    (h : ∀ e ∈ items, L.Interns p e.1 e.2) {done : Array Atom} {ts : List (Tree α)}
    (hdone : List.Forall₂ (fun a t => Means p (.atom a) t) done.toList ts) :
    L.Adds p (internItemsBy L.intern (items.map Prod.fst) done) fun q atoms =>
      List.Forall₂ (fun a t => Means q (.atom a) t) atoms.toList (ts ++ items.map Prod.snd) := by
  induction items generalizing p done ts with
  | nil =>
    refine L.pure fun q hkeeps => ?_
    rw [List.map_nil, List.append_nil]
    exact hdone.imp fun _ _ => .mono hkeeps
  | cons e rest ih =>
    obtain ⟨he, hrest⟩ := List.forall_mem_cons.1 h
    refine L.bind he fun q a hkeeps ha => ?_
    have hdone' : List.Forall₂ (fun a t => Means q (.atom a) t) (done.push a).toList
        (ts ++ [e.2]) := by
      rw [Array.toList_push]
      exact List.rel_append (hdone.imp fun _ _ => .mono hkeeps) (.cons ha.1 .nil)
    have := ih (fun e he => L.mono (hrest e he) hkeeps) hdone'
    rwa [List.append_assoc] at this

/-- Pooling the entries of a map. -/
theorem internEntries {entries : List ((Draft × Tree α) × (Draft × Tree α))} {p : Pool}
    (h : ∀ e ∈ entries, L.Interns p e.1.1 e.1.2 ∧ L.Interns p e.2.1 e.2.2) :
    L.Adds p (internEntriesBy L.intern (entries.map fun e => (e.1.1, e.2.1))) fun q atoms =>
      List.Forall₂ (fun a t => Means q (.atom a.1) t.1 ∧ Means q (.atom a.2) t.2) atoms
        (entries.map fun e => (e.1.2, e.2.2)) := by
  induction entries generalizing p with
  | nil => exact L.pure fun q _ => .nil
  | cons e rest ih =>
    obtain ⟨⟨hkey, hvalue⟩, hrest⟩ := List.forall_mem_cons.1 h
    refine L.bind hkey fun q k hq hk => ?_
    refine L.bind (L.mono hvalue hq) fun q' v hq' hv => ?_
    have hlater := hq.trans hq'
    have hrest' := ih fun e he => ⟨L.mono (hrest e he).1 hlater, L.mono (hrest e he).2 hlater⟩
    refine L.bind hrest' fun r atoms hr hatoms => L.pure fun r' hr' => ?_
    refine .cons ⟨hk.1.mono (hq'.trans (hr.trans hr')), hv.1.mono (hr.trans hr')⟩ ?_
    exact hatoms.imp fun _ _ h => ⟨h.1.mono hr', h.2.mono hr'⟩

/-- Pooling the fields of an object. -/
theorem internFields {fields : List (String × (Draft × Tree α))} {p : Pool}
    (h : ∀ e ∈ fields, L.Interns p e.2.1 e.2.2) :
    L.Adds p (internFieldsBy L.intern (fields.map fun e => (e.1, e.2.1))) fun q atoms =>
      List.Forall₂ (fun a t => a.1 = t.1 ∧ Means q (.atom a.2) t.2) atoms
        (fields.map fun e => (e.1, e.2.2)) := by
  induction fields generalizing p with
  | nil => exact L.pure fun q _ => .nil
  | cons e rest ih =>
    obtain ⟨hvalue, hrest⟩ := List.forall_mem_cons.1 h
    refine L.bind hvalue fun q v hq hv => ?_
    have hrest' := ih fun e he => L.mono (hrest e he) hq
    refine L.bind hrest' fun r atoms hr hatoms => L.pure fun r' hr' => ?_
    refine .cons ⟨rfl, hv.1.mono (hr.trans hr')⟩ ?_
    exact hatoms.imp fun _ _ h => ⟨h.1, h.2.mono hr'⟩

/-- Pooling the arguments of a type. -/
theorem internArgs {args : List (Draft × Tree α)} {p : Pool}
    (h : ∀ e ∈ args, L.Interns p e.1 e.2) (hscalar : ∀ e ∈ args, e.1.scalar? = none) :
    L.Adds p (internArgsBy L.intern (args.map Prod.fst)) fun q ids =>
      List.Forall₂ (fun i t => Means q (.atom (.ref i)) t) ids (args.map Prod.snd) := by
  induction args generalizing p with
  | nil => exact L.pure fun q _ => .nil
  | cons e rest ih =>
    obtain ⟨he, hrest⟩ := List.forall_mem_cons.1 h
    obtain ⟨hs, hscalar⟩ := List.forall_mem_cons.1 hscalar
    refine L.bind he fun q a hq ha => ?_
    obtain ⟨id, rfl⟩ := ha.2 hs
    refine L.bind (L.pure (V := fun q i => i = id ∧ Means q (.atom (.ref id)) e.2) fun q' hq' =>
      ⟨rfl, ha.1.mono hq'⟩) fun q' i hq' hi => ?_
    obtain ⟨rfl, hi⟩ := hi
    refine L.bind (ih (fun e he => L.mono (hrest e he) (hq.trans hq')) hscalar)
      fun r ids hr hids => L.pure fun r' hr' => ?_
    exact .cons (hi.mono (hr.trans hr')) (hids.imp fun _ _ => .mono hr')

/-- A layer that was pooled means the layer of trees that it meant before. -/
theorem interns_of_layer {p : Pool} {layer : Shape Draft Draft} {l : Shape (Tree α) (Tree α)}
    {β : Type} {parts : m β} {build : β → Shape Atom ValueId}
    (hintern : (fresh layer).internBy L.intern = parts >>= fun b =>
      internLayerBy L.intern (build b))
    (hparts : L.Adds p parts fun q b => LayerMeans q (build b) l) (hordered : l.Ordered)
    (hP : P (.node l)) : L.Interns p (.fresh layer) (.node l) := by
  rw [Interns, hintern]
  refine L.bind hparts fun q b hq hb => ?_
  have hlayer : (build b).Ordered := hb.flip.ordered hordered
  exact L.imp (L.internLayer hlayer hb hP) fun q a ha => ⟨ha.1, fun _ => ha.2⟩

/-- A draft that means a tree is pooled as an atom that means the tree. What is new are nodes of the
tree. -/
theorem interns {p : Pool} {d : Draft} {t : Tree α} (h : Means p d t)
    (hP : ∀ u : Tree α, u.Within t → P u) : L.Interns p d t := by
  induction h with
  | inPlace s =>
    rw [Interns, internBy]
    exact L.pure fun q _ => ⟨.inPlace s, by rintro ⟨⟩⟩
  | byReference hget ha =>
    rw [Interns, internBy]
    exact L.pure fun q hq => ⟨.byReference (hq _ _ hget) ha, fun _ => ⟨_, rfl⟩⟩
  | pooled z hget hparts hargs =>
    rw [Interns, internBy]
    exact L.pure fun q hq => ⟨(Means.pooled z hget hparts hargs).mono hq, fun _ => ⟨_, rfl⟩⟩
  | @fresh z hordered hparts hargs hscalar ihparts ihargs =>
    have hm : (z.mapParts Prod.snd Prod.snd).Ordered := by
      have htrivial : Shape.Rel (fun _ _ => True) (fun _ _ => True) (z.mapParts Prod.fst Prod.fst)
          (z.mapParts Prod.snd Prod.snd) := .of_zip (fun _ _ => trivial) fun _ _ => trivial
      exact htrivial.ordered hordered
    have hnode : P (.node (z.mapParts Prod.snd Prod.snd)) := hP _ (.self _)
    have ihparts : ∀ e ∈ z.partList, L.Interns p e.1 e.2 := by
      intro e he
      refine ihparts e he fun u hu => hP u (.part ?_ hu)
      rw [Shape.partList_mapParts]
      exact List.mem_map_of_mem he
    have ihargs : ∀ e ∈ z.argList, L.Interns p e.1 e.2 := by
      intro e he
      refine ihargs e he fun u hu => hP u (.arg ?_ hu)
      rw [Shape.argList_mapParts]
      exact List.mem_map_of_mem he
    -- the parts are pooled first, then the layer over their atoms; how the parts are walked depends
    -- on the kind of layer
    cases z with
    | text content =>
      rw [Shape.mapParts, Interns, internBy]
      exact L.imp (L.internLayer hm (.text content) hnode) fun q a ha => ⟨ha.1, fun _ => ha.2⟩
    | list items =>
      obtain ⟨items⟩ := items
      have hempty : List.Forall₂ (fun a t => Means p (.atom a) t)
          (Array.emptyWithCapacity (items.map Prod.fst).length).toList ([] : List (Tree α)) := .nil
      have hitems : ∀ e ∈ items, L.Interns p e.1 e.2 := ihparts
      have hadds := L.internItems hitems hempty
      have hfst : (Shape.list ⟨items⟩ : Shape (Draft × Tree α) (Draft × Tree α)).mapParts
          Prod.fst Prod.fst = .list ⟨items.map Prod.fst⟩ := by
        rw [Shape.mapParts, List.map_toArray]
      rw [hfst]
      refine L.interns_of_layer (by rw [internBy]) (L.imp hadds fun q atoms h => ?_) hm hnode
      exact .list (by simpa using h)
    | map entries =>
      have hentries : ∀ e ∈ entries, L.Interns p e.1.1 e.1.2 ∧ L.Interns p e.2.1 e.2.2 := by
        intro e he
        exact ⟨ihparts _ (Shape.key_mem_partList he), ihparts _ (Shape.value_mem_partList he)⟩
      rw [Shape.mapParts]
      refine L.interns_of_layer (by rw [internBy]) ?_ hm hnode
      exact L.imp (L.internEntries hentries) fun q atoms h => .map h
    | object c fields =>
      have hfields : ∀ e ∈ fields, L.Interns p e.2.1 e.2.2 :=
        fun e he => ihparts _ (List.mem_map_of_mem he)
      rw [Shape.mapParts]
      refine L.interns_of_layer (by rw [internBy]) ?_ hm hnode
      exact L.imp (L.internFields hfields) fun q atoms h => .object c h
    | type n args =>
      rw [Shape.mapParts]
      refine L.interns_of_layer (by rw [internBy]) ?_ hm hnode
      exact L.imp (L.internArgs ihargs hscalar) fun q ids h => .type n h

/-- A draft that means a type is pooled as the identity of the type. What is new are nodes of the
type. -/
theorem internsType {p : Pool} {d : Draft} {t : Tree α} (h : Means p d t)
    (hscalar : d.scalar? = none) (hP : ∀ u : Tree α, u.Within t → P u) :
    L.Adds p (d.internTypeBy L.intern) fun q id => Means q (.atom (.ref id)) t := by
  rw [internTypeBy]
  refine L.bind (L.interns h hP) fun q a _ ha => ?_
  obtain ⟨id, rfl⟩ := ha.2 hscalar
  exact L.pure fun q hq => ha.1.mono hq

end Pooling

/-! ### Drafts on a stock -/

/-- Computations on a stock that do not fail and pool trees with `P`. -/
def Work.pooling (P : Tree α → Prop) : Pooling Work P where
  intern := Work.intern
  Adds p work V := Work.Adds P p work V
  pure := Work.Adds.pure
  bind := Work.Adds.bind
  mono := Work.Adds.mono
  imp := Work.Adds.imp
  layer {p layer l} hordered h hP s hkeeps hsound := by
    have hlayer : LayerMeans s.pool layer l :=
      h.imp (fun _ _ => .mono hkeeps) fun _ _ => .mono hkeeps
    obtain ⟨id, q, hintern, hq, hextends, hmeans⟩ := Pool.exists_interned hordered hlayer hP
    have hrun : Work.intern (.shape layer) s =
        .ok id ⟨q, s.uses.recordParts id (Value.shape layer).children, s.memo⟩ := by
      obtain ⟨pool, uses, memo⟩ := s
      simp only [Work.intern, Work.onPool, bind, EStateM.bind, hintern]
      rfl
    exact ⟨id, _, hrun, ⟨hextends, hq.sound hsound, rfl⟩, hmeans⟩

namespace Draft

/-- Pooling a draft gives an atom that means the same tree; only a scalar in place stays in
place. -/
abbrev Interns (P : Tree α → Prop) (p : Pool) (d : Draft) (t : Tree α) : Prop :=
  Work.Adds P p d.intern fun q a =>
    Means q (.atom a) t ∧ (d.scalar? = none → ∃ id, a = .ref id)

/-- A draft that means a tree is pooled as an atom that means the tree. What is new are nodes of the
tree. -/
theorem Means.pools {p : Pool} {d : Draft} {t : Tree α} (h : Means p d t)
    (hP : ∀ u : Tree α, u.Within t → P u) : Interns P p d t := by
  have hinterns := (Work.pooling P).interns h hP
  rwa [Pooling.Interns, show (Work.pooling P).intern = Work.intern from rfl, internBy_eq]
    at hinterns

/-- A draft that means a tree is pooled as an atom that means the tree. -/
theorem Means.intern {p : Pool} {d : Draft} {t : Tree α} (h : Means p d t) :
    Interns (fun _ => True) p d t := h.pools fun _ _ => trivial

/-- A draft that means a type is pooled as the identity of the type. What is new are nodes of the
type. -/
theorem Means.poolsType {p : Pool} {d : Draft} {t : Tree α} (h : Means p d t)
    (hscalar : d.scalar? = none) (hP : ∀ u : Tree α, u.Within t → P u) :
    Work.Adds P p d.internType fun q id => Means q (.atom (.ref id)) t := by
  have hinterns := (Work.pooling P).internsType h hscalar hP
  rwa [show (Work.pooling P).intern = Work.intern from rfl, internTypeBy_eq] at hinterns

/-- A draft that means a type is pooled as the identity of the type. -/
theorem Means.internType {p : Pool} {d : Draft} {t : Tree α} (h : Means p d t)
    (hscalar : d.scalar? = none) :
    Work.Yields α p d.internType fun q id => Means q (.atom (.ref id)) t :=
  h.poolsType hscalar fun _ _ => trivial

end Draft

end ConstPool
