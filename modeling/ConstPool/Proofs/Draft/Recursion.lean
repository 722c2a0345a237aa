import ConstPool.Proofs.Draft.Operators
import ConstPool.Eval.Body

/-!
# Recursions that take no step

A type expression is made a value, two drafts are compared, a draft is shown and a draft is pooled
by going down to the parts, and no step is taken for a part. These recursions end because of what
they go down: a type expression and a draft that is not pooled are finite, and the parts of a
constant of a sound pool have smaller identities. So the parts of opened drafts are well-founded,
and each of the recursions calls itself for parts alone. Nothing bounds it: the bound with which a
constant of the pool is shown is never reached.

* `Draft.PartIn`: a part of a draft once the draft is opened.
* `Pool.Sound.wellFounded`: no draft can be opened forever.
* `Draft.describe_of_shape?`, `Draft.same_of_shape?`, `Draft.intern_fresh`, `TypeExpr.draft_named`:
  what the recursions come to at a draft in terms of what they come to at its parts.
-/

namespace ConstPool

/-! ### Traversals -/

namespace Shape

variable {ρ τ ρ' τ' σ υ : Type} {m : Type → Type} [Monad m] [LawfulMonad m]

/-- Parts are replaced before the layer is traversed or while it is. -/
theorem traverseParts_mapParts (f : ρ' → m σ) (g : τ' → m υ) (f' : ρ → ρ') (g' : τ → τ')
    (l : Shape ρ τ) :
    (l.mapParts f' g').traverseParts f g = l.traverseParts (fun x => f (f' x)) fun x => g (g' x) := by
  cases l <;> simp [mapParts, traverseParts, List.mapM_map, Function.comp_def]

/-- Actions that are the same at the members of a list make the same traversal. -/
theorem mapM_congr {α β : Type} {f g : α → m β} {xs : List α} (h : ∀ x ∈ xs, f x = g x) :
    xs.mapM f = xs.mapM g := by
  induction xs with
  | nil => rfl
  | cons x xs ih =>
    obtain ⟨hx, hxs⟩ := List.forall_mem_cons.1 h
    rw [List.mapM_cons, List.mapM_cons, hx, ih hxs]

/-- Actions that are the same at the parts of a layer make the same traversal. -/
theorem traverseParts_congr {f f' : ρ → m σ} {g g' : τ → m υ} {l : Shape ρ τ}
    (hf : ∀ x ∈ l.partList, f x = f' x) (hg : ∀ x ∈ l.argList, g x = g' x) :
    l.traverseParts f g = l.traverseParts f' g' := by
  cases l with
  | text content => rfl
  | list items =>
    have h : items.toList.mapM f = items.toList.mapM f' := mapM_congr hf
    rw [traverseParts, traverseParts, h]
  | map entries =>
    rw [traverseParts, traverseParts, mapM_congr fun e he => ?_]
    rw [hf _ (key_mem_partList he), hf _ (value_mem_partList he)]
  | object className fields =>
    rw [traverseParts, traverseParts, mapM_congr fun e he => ?_]
    rw [hf _ (List.mem_map_of_mem he)]
  | type name args =>
    have h : args.mapM g = args.mapM g' := mapM_congr hg
    rw [traverseParts, traverseParts, h]

/-- Whether two layers are alike, if their parts are compared by a test. -/
def agree (test : ρ → ρ' → Except Fault Bool) : Shape ρ ρ → Shape ρ' ρ' → Except Fault Bool
  | .text x, .text y => .ok (decide (x = y))
  | .list xs, .list ys =>
    if xs.size = ys.size then Draft.agreeAll test xs.toList ys.toList else .ok false
  | .map xs, .map ys =>
    if xs.length = ys.length then
      Draft.agreeAll (fun x y => Draft.both (test x.1 y.1) (test x.2 y.2)) xs ys
    else .ok false
  | .object c xs, .object d ys =>
    if c = d ∧ xs.length = ys.length then
      Draft.agreeAll (fun x y => Draft.both (.ok (decide (x.1 = y.1))) (test x.2 y.2)) xs ys
    else .ok false
  | .type m xs, .type n ys =>
    if m = n ∧ xs.length = ys.length then Draft.agreeAll test xs ys else .ok false
  | _, _ => .ok false

end Shape

/-! ### Opening drafts -/

/-- A part of a draft, or an argument of a type, that is found when the draft is opened. -/
def Draft.PartIn (pool : Pool) (part whole : Draft) : Prop :=
  ∃ layer, whole.shape? pool = .ok (some layer) ∧ (part ∈ layer.partList ∨ part ∈ layer.argList)

namespace Draft

variable {pool : Pool}

/-- The shape of a constant of the pool is that of its value. -/
theorem shape?_pooled {id : ValueId} {layer : Shape Draft Draft}
    (h : (Draft.pooled id).shape? pool = .ok (some layer)) :
    ∃ l, pool.get? id = some (.shape l) ∧ layer = l.mapParts Draft.atom Draft.pooled := by
  simp only [shape?, contents] at h
  rcases hget : pool.get id with f | s | l
  · simp [hget, bind, Except.bind] at h
  · simp [hget, bind, Except.bind, pure, Except.pure, Value.contents, Contents.shape?] at h
  · simp only [hget, bind, Except.bind, pure, Except.pure, Value.contents, Contents.shape?,
      Option.bind_some, Except.ok.injEq, Option.some.injEq] at h
    exact ⟨l, Pool.get_eq_ok_iff.1 hget, h.symm⟩

/-- The parts of a constant of the pool are scalars and the constants that it refers to. -/
theorem PartIn.of_pooled {part : Draft} {id : ValueId} (h : PartIn pool part (.pooled id)) :
    ∃ layer a, pool.get? id = some (.shape layer) ∧ part = .atom a ∧
      ∀ child, a = .ref child → child ∈ (Value.shape layer).children := by
  obtain ⟨layer, hshape, hpart⟩ := h
  obtain ⟨l, hget, rfl⟩ := shape?_pooled hshape
  rw [Shape.partList_mapParts, Shape.argList_mapParts] at hpart
  rcases hpart with hpart | hpart
  · obtain ⟨a, ha, rfl⟩ := List.mem_map.1 hpart
    exact ⟨l, a, hget, rfl, fun child heq => Value.mem_children_shape.2 (.inl (heq ▸ ha))⟩
  · obtain ⟨arg, harg, rfl⟩ := List.mem_map.1 hpart
    refine ⟨l, .ref arg, hget, rfl, fun child heq => ?_⟩
    cases heq
    exact Value.mem_children_shape.2 (.inr harg)

/-- A scalar in place has no parts. -/
theorem acc_scalar (s : Scalar) : Acc (PartIn pool) (.scalar s) := by
  refine ⟨_, fun part h => ?_⟩
  obtain ⟨layer, hshape, -⟩ := h
  cases hshape

/-- A constant of a sound pool cannot be opened forever: identities get smaller. -/
theorem acc_pooled (hsound : pool.Sound) (id : ValueId) : Acc (PartIn pool) (.pooled id) := by
  induction h : id.index using Nat.strongRecOn generalizing id with
  | ind n ih =>
    subst h
    refine ⟨_, fun part hpart => ?_⟩
    obtain ⟨layer, a, hget, rfl, hchild⟩ := hpart.of_pooled
    cases a with
    | scalar s => exact acc_scalar s
    | ref child => exact ih _ (hsound.smaller hget child (hchild child rfl)) child rfl

/-- An atom cannot be opened forever. -/
theorem acc_atom (hsound : pool.Sound) (a : Atom) : Acc (PartIn pool) (.atom a) := by
  cases a with
  | scalar s => exact acc_scalar s
  | ref id => exact acc_pooled hsound id

/-- A layer cannot be opened forever if none of its parts can be. -/
theorem acc_fresh {layer : Shape Draft Draft}
    (hparts : ∀ part ∈ layer.partList, Acc (PartIn pool) part)
    (hargs : ∀ arg ∈ layer.argList, Acc (PartIn pool) arg) : Acc (PartIn pool) (.fresh layer) := by
  refine ⟨_, fun part h => ?_⟩
  obtain ⟨layer', hshape, hpart⟩ := h
  cases hshape
  exact hpart.elim (hparts part) (hargs part)

mutual

/-- A draft cannot be opened forever. -/
theorem acc (hsound : pool.Sound) : (d : Draft) → Acc (PartIn pool) d
  | .atom a => acc_atom hsound a
  | .fresh (.text _) => acc_fresh (fun _ h => nomatch h) fun _ h => nomatch h
  | .fresh (.list ⟨items⟩) => acc_fresh (accItems hsound items) fun _ h => nomatch h
  | .fresh (.map entries) => by
    refine acc_fresh (fun part h => ?_) fun _ h => nomatch h
    obtain ⟨e, he, hpart⟩ := List.mem_flatMap.1 h
    rcases List.mem_pair.1 hpart with rfl | rfl
    · exact (accEntries hsound entries e he).1
    · exact (accEntries hsound entries e he).2
  | .fresh (.object _ fields) => by
    refine acc_fresh (fun part h => ?_) fun _ h => nomatch h
    obtain ⟨e, he, rfl⟩ := List.mem_map.1 h
    exact accFields hsound fields e he
  | .fresh (.type _ args) => acc_fresh (fun _ h => nomatch h) (accItems hsound args)

/-- The items of a list, each of which is smaller than the list. -/
theorem accItems (hsound : pool.Sound) : (items : List Draft) → ∀ d ∈ items, Acc (PartIn pool) d
  | [] => fun _ h => nomatch h
  | item :: rest => List.forall_mem_cons.2 ⟨acc hsound item, accItems hsound rest⟩

/-- The keys and the values of a map. -/
theorem accEntries (hsound : pool.Sound) : (entries : List (Draft × Draft)) →
    ∀ e ∈ entries, Acc (PartIn pool) e.1 ∧ Acc (PartIn pool) e.2
  | [] => fun _ h => nomatch h
  | (key, value) :: rest =>
    List.forall_mem_cons.2 ⟨⟨acc hsound key, acc hsound value⟩, accEntries hsound rest⟩

/-- The values of the fields of an object. -/
theorem accFields (hsound : pool.Sound) : (fields : List (String × Draft)) →
    ∀ e ∈ fields, Acc (PartIn pool) e.2
  | [] => fun _ h => nomatch h
  | (_, value) :: rest => List.forall_mem_cons.2 ⟨acc hsound value, accFields hsound rest⟩

end

end Draft

/-- In a sound pool no draft can be opened forever. -/
theorem Pool.Sound.wellFounded {pool : Pool} (hsound : pool.Sound) :
    WellFounded (Draft.PartIn pool) := ⟨Draft.acc hsound⟩

/-! ### Showing -/

/-- The references in the layer of a constant lead to smaller identities. -/
theorem Pool.Sound.smaller_parts {pool : Pool} (hsound : pool.Sound) {id : ValueId}
    {layer : Shape Atom ValueId} (hget : pool.get? id = some (.shape layer)) :
    (∀ part ∈ layer.partList, ∀ child, part = .ref child → child.index < id.index) ∧
      ∀ arg ∈ layer.argList, ∀ child, Atom.ref arg = .ref child → child.index < id.index := by
  have hsmaller := hsound.smaller hget
  refine ⟨fun part hpart child heq => ?_, fun arg harg child heq => ?_⟩
  · exact hsmaller child (Value.mem_children_shape.2 (.inl (heq ▸ hpart)))
  · cases heq
    exact hsmaller arg (Value.mem_children_shape.2 (.inr harg))

/-- The bound on the references that are followed is never reached: identities get smaller, so any
two bounds that are large enough are as good as each other. -/
theorem Pool.Sound.describe_eq {pool : Pool} (hsound : pool.Sound) {bound bound' : Nat} {a : Atom}
    (h : ∀ id, a = .ref id → id.index < bound) (h' : ∀ id, a = .ref id → id.index < bound') :
    pool.describe bound a = pool.describe bound' a := by
  induction bound generalizing bound' a with
  | zero =>
    cases a with
    | scalar s => rw [Pool.describe, Pool.describe]
    | ref id => exact absurd (h id rfl) (Nat.not_lt_zero _)
  | succ bound ih =>
    cases a with
    | scalar s => rw [Pool.describe, Pool.describe]
    | ref id =>
      have hid := h id rfl
      have hid' := h' id rfl
      obtain ⟨bound', rfl⟩ := Nat.exists_eq_succ_of_ne_zero (Nat.ne_zero_of_lt hid')
      rw [Pool.describe, Pool.describe]
      rcases hget : pool.get id with f | s | layer
      · rfl
      · rfl
      · obtain ⟨hparts, hargs⟩ := hsound.smaller_parts (Pool.get_eq_ok_iff.1 hget)
        -- both bounds go down by one, and so do the identities of the parts
        have hlayer : layer.traverseParts (pool.describe bound)
              (fun arg => pool.describe bound (.ref arg)) =
            layer.traverseParts (pool.describe bound')
              (fun arg => pool.describe bound' (.ref arg)) :=
          Shape.traverseParts_congr
            (fun part hpart => ih
              (fun child heq =>
                Nat.lt_of_lt_of_le (hparts part hpart child heq) (Nat.lt_succ_iff.1 hid))
              fun child heq =>
                Nat.lt_of_lt_of_le (hparts part hpart child heq) (Nat.lt_succ_iff.1 hid'))
            fun arg harg => ih
              (fun child heq =>
                Nat.lt_of_lt_of_le (hargs arg harg child heq) (Nat.lt_succ_iff.1 hid))
              fun child heq =>
                Nat.lt_of_lt_of_le (hargs arg harg child heq) (Nat.lt_succ_iff.1 hid')
        simp only [bind, Except.bind, hlayer]

namespace Draft

variable {pool : Pool}

/-- Items are described from the first to the last. -/
theorem describeItems_eq (items : List Draft) (done : Array String) :
    describeItems pool items done = (do
      return done ++ (← items.mapM (describe pool)).toArray) := by
  induction items generalizing done with
  | nil => rw [describeItems, List.mapM_nil, pure_bind, Array.append_empty]; rfl
  | cons item rest ih =>
    have hcons : ∀ (x : String) (xs : List String),
        done.push x ++ xs.toArray = done ++ (x :: xs).toArray := by simp
    rw [describeItems, List.mapM_cons]
    simp only [ih, bind_assoc, pure_bind, hcons]

/-- Of each entry, the key is described before the value. -/
theorem describeEntries_eq (entries : List (Draft × Draft)) :
    describeEntries pool entries =
      entries.mapM fun e => do return (← e.1.describe pool, ← e.2.describe pool) := by
  induction entries with
  | nil => rfl
  | cons e rest ih =>
    rw [describeEntries, List.mapM_cons, ih]
    simp only [bind_assoc, pure_bind]

/-- Fields keep their names, and their values are described. -/
theorem describeFields_eq (fields : List (String × Draft)) :
    describeFields pool fields =
      fields.mapM fun e => do return (e.1, ← e.2.describe pool) := by
  induction fields with
  | nil => rfl
  | cons e rest ih =>
    rw [describeFields, List.mapM_cons, ih]
    simp only [bind_assoc, pure_bind]

/-- A layer that is not pooled is shown by showing its parts. -/
theorem describe_fresh (layer : Shape Draft Draft) :
    (fresh layer).describe pool = (do
      return (← layer.traverseParts (describe pool) (describe pool)).render) := by
  cases layer with
  | text content => rw [describe]; rfl
  | list items =>
    obtain ⟨items⟩ := items
    rw [describe, describeItems_eq, Shape.traverseParts]
    simp
  | map entries =>
    rw [describe, describeEntries_eq, Shape.traverseParts]
    simp
  | object className fields =>
    rw [describe, describeFields_eq, Shape.traverseParts]
    simp
  | type name args =>
    rw [describe, describeItems_eq, Shape.traverseParts]
    simp

/-- An atom is shown as the pool shows it. -/
theorem describe_atom_eq (a : Atom) :
    (Draft.atom a).describe pool = pool.describe pool.size a := by
  cases a with
  | scalar s => rw [describe, Pool.describe]
  | ref id => rw [describe]

/-- A draft that has a shape is shown by showing its parts. -/
theorem describe_of_shape? (hsound : pool.Sound) {d : Draft} {layer : Shape Draft Draft}
    (h : d.shape? pool = .ok (some layer)) :
    d.describe pool = (do
      return (← layer.traverseParts (describe pool) (describe pool)).render) := by
  rcases d with ⟨s | id⟩ | l
  · cases h
  · obtain ⟨l, hget, rfl⟩ := shape?_pooled h
    obtain ⟨hparts, hargs⟩ := hsound.smaller_parts hget
    have hknown := Pool.lt_size_of_get? hget
    obtain ⟨bound, hbound⟩ := Nat.exists_eq_succ_of_ne_zero (Nat.ne_zero_of_lt hknown)
    have hid : id.index ≤ bound := by omega
    -- the parts are shown under a smaller bound than they would be on their own, which makes no
    -- difference
    have hlayer : l.traverseParts (pool.describe bound) (fun arg => pool.describe bound (.ref arg)) =
        l.traverseParts (fun a => (Draft.atom a).describe pool)
          (fun arg => (Draft.pooled arg).describe pool) := by
      refine Shape.traverseParts_congr (fun part hpart => ?_) fun arg harg => ?_
      · rw [describe_atom_eq]
        exact hsound.describe_eq
          (fun child heq => Nat.lt_of_lt_of_le (hparts part hpart child heq) hid)
          fun child heq => Nat.lt_trans (hparts part hpart child heq) hknown
      · rw [pooled, describe_atom_eq]
        exact hsound.describe_eq
          (fun child heq => Nat.lt_of_lt_of_le (hargs arg harg child heq) hid)
          fun child heq => Nat.lt_trans (hargs arg harg child heq) hknown
    rw [describe_atom_eq, hbound, Pool.describe, Pool.get_eq_ok_iff.2 hget,
      Shape.traverseParts_mapParts, ← hlayer]
    rfl
  · cases h
    exact describe_fresh _

/-! ### Comparing -/

/-- Layers that are not pooled are compared by comparing their parts. -/
theorem same_fresh (l m : Shape Draft Draft) :
    (fresh l).same pool (.fresh m) = l.agree (same pool) m := by
  rcases l with x | ⟨⟨xs⟩⟩ | xs | ⟨c, xs⟩ | ⟨n, xs⟩ <;>
    rcases m with y | ⟨⟨ys⟩⟩ | ys | ⟨d, ys⟩ | ⟨o, ys⟩ <;>
    simp [same, Shape.agree, sameItems_eq, sameEntries_eq, sameFields_eq]

/-- A draft that has a shape means a node whose parts its parts mean. -/
theorem Means.node_of_shape? {α : Type} [Leaf α] {d : Draft} {t : Tree α} (h : Means pool d t)
    {l : Shape Draft Draft} (hl : d.shape? pool = .ok (some l)) :
    ∃ m, t = .node m ∧ FreshMeans pool l m := by
  obtain ⟨layer, hlayer, hrel⟩ := h.shape?
  cases hlayer.symm.trans hl
  generalize hshape : t.shape? = o at hrel
  cases hrel with
  | @some _ m hm =>
    cases t with
    | leaf x => cases hshape
    | node m' =>
      cases hshape
      exact ⟨_, rfl, hm⟩

/-- Drafts that mean trees and have shapes are compared by comparing their parts, whether they are
pooled or not. -/
theorem same_of_shape? (hsound : pool.Sound) {d e : Draft} {t u : Tree Scalar}
    (hd : Means pool d t) (he : Means pool e u) {l m : Shape Draft Draft}
    (hl : d.shape? pool = .ok (some l)) (hm : e.shape? pool = .ok (some m)) :
    d.same pool e = l.agree (same pool) m := by
  obtain ⟨lt, rfl, hlt⟩ := hd.node_of_shape? hl
  obtain ⟨mt, rfl, hmt⟩ := he.node_of_shape? hm
  obtain ⟨z, rfl, rfl, hparts, hargs⟩ := hlt.exists_zip
  have hlayer := same_layer (fun p hp _ _ hmeans => (hparts p hp).same hsound hmeans)
    (fun p hp _ _ hmeans => (hargs p hp).1.same hsound hmeans) hmt
  rw [hd.same hsound he, ← same_fresh, hlayer]

/-! ### Pooling -/

/-- Items are pooled from the first to the last. -/
theorem internItems_eq (items : List Draft) (done : Array Atom) :
    internItems items done = (do return done ++ (← items.mapM intern).toArray) := by
  induction items generalizing done with
  | nil => simp [internItems]
  | cons item rest ih =>
    have hcons : ∀ (x : Atom) (xs : List Atom),
        done.push x ++ xs.toArray = done ++ (x :: xs).toArray := by simp
    rw [internItems, List.mapM_cons]
    simp only [ih, bind_assoc, pure_bind, hcons]

/-- Of each entry, the key is pooled before the value. -/
theorem internEntries_eq (entries : List (Draft × Draft)) :
    internEntries entries = entries.mapM fun e => do return (← e.1.intern, ← e.2.intern) := by
  induction entries with
  | nil => rw [internEntries, List.mapM_nil]
  | cons e rest ih =>
    rw [internEntries, List.mapM_cons, ih]
    simp only [bind_assoc, pure_bind]

/-- Fields keep their names, and their values are pooled. -/
theorem internFields_eq (fields : List (String × Draft)) :
    internFields fields = fields.mapM fun e => do return (e.1, ← e.2.intern) := by
  induction fields with
  | nil => rw [internFields, List.mapM_nil]
  | cons e rest ih =>
    rw [internFields, List.mapM_cons, ih]
    simp only [bind_assoc, pure_bind]

/-- Type arguments are pooled from the first to the last. -/
theorem internArgs_eq (args : List Draft) : internArgs args = args.mapM internType := by
  induction args with
  | nil => rw [internArgs, List.mapM_nil]
  | cons arg rest ih =>
    rw [internArgs, List.mapM_cons, ih]
    simp only [internType, bind_assoc]

/-- A layer that is not pooled is pooled by pooling its parts. -/
theorem intern_fresh (layer : Shape Draft Draft) :
    (fresh layer).intern = (do internLayer (← layer.traverseParts intern internType)) := by
  cases layer with
  | text content =>
    rw [intern, Shape.traverseParts, pure_bind]
  | list items =>
    obtain ⟨items⟩ := items
    rw [intern, internItems_eq, Shape.traverseParts]
    simp
  | map entries =>
    rw [intern, internEntries_eq, Shape.traverseParts]
    simp
  | object className fields =>
    rw [intern, internFields_eq, Shape.traverseParts]
    simp
  | type name args =>
    rw [intern, internArgs_eq, Shape.traverseParts]
    simp

end Draft

/-! ### Types -/

namespace TypeExpr

/-- An argument of a type expression. -/
def ArgOf (arg whole : TypeExpr) : Prop := ∃ name args, whole = .named name args ∧ arg ∈ args

/-- A type expression is finite. -/
theorem wellFounded_argOf : WellFounded ArgOf :=
  Subrelation.wf (fun {arg whole} h => by
    obtain ⟨name, args, rfl, harg⟩ := h
    have := List.sizeOf_lt_of_mem harg
    show sizeOf arg < sizeOf (TypeExpr.named name args)
    simp only [TypeExpr.named.sizeOf_spec]
    omega) (measure (sizeOf : TypeExpr → Nat)).wf

end TypeExpr

/-- Types are drafted from the first to the last. -/
theorem typeDrafts_eq (env : Env) (ts : List TypeExpr) :
    typeDrafts env ts = ts.mapM fun t => t.draft env := by
  induction ts with
  | nil => rw [typeDrafts, List.mapM_nil]; rfl
  | cons t rest ih => rw [typeDrafts, List.mapM_cons, ih]

/-- A type expression is made a value by making values of its arguments. -/
theorem TypeExpr.draft_named (env : Env) (name : String) (args : List TypeExpr) :
    (TypeExpr.named name args).draft env =
      if isKnownType env.analysis.types name then do
        return .type name (← args.mapM fun t => t.draft env)
      else .error (.unresolved name .noSuchType) := by
  rw [TypeExpr.draft, typeDrafts_eq]
  cases isKnownType env.analysis.types name <;> rfl

end ConstPool
