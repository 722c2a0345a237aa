import ConstPool.Proofs.Denotation
import ConstPool.Proofs.Sessions

/-!
# When a pool has no duplicates

A value is handed in as it is: nobody puts its scalars in place or its fields in order. If all
values are handed in in canonical form then no constant ever has two identities, whatever is
evaluated in between, for the evaluation keeps the form. If one of them is not, then the same
constant in canonical form gets another identity.

To hand a value in looks at the value and not at the constants behind its identities. Two values
for one constant may differ in how a scalar is held, in place or as an identity, and in the order
of the fields of an object. A canonical value has its scalars in place and its fields in order. So
the pool is without duplicates as long as what is handed in is canonical, and what an evaluation
pools always is, given a pool that is canonical. The other direction is that the condition is
needed: from a pool with one layer that is not canonical, handing in the canonical form of this
layer gives its constant a second identity.

* `Value.Canonical`: values in canonical form.
* `Shape.exists_canonical`: every layer has a canonical one with the same constant.
* `Stock.canonical_of_steps`: the evaluation keeps the form.
* `Session.deduplicated_iff`: the values that may be handed in.
-/

namespace ConstPool

open Draft Relation

/-! ### Values in canonical form -/

/-- The fields of an object are in order, and no constant that the value refers to is a scalar. -/
def Value.Canonical (pool : Pool) : Value → Prop
  | .scalar _ => True
  | .shape layer =>
    layer.Ordered ∧ ∀ child ∈ (Value.shape layer).children, ∀ s, pool.get? child ≠ some (.scalar s)

/-- The layer of a canonical value is in canonical form. -/
theorem Value.Canonical.slots {pool : Pool} {layer : Shape Atom ValueId}
    (h : (Value.shape layer).Canonical pool) : layer.SlotsCanonical pool where
  ordered := h.1
  inPlace id hid := h.2 id (Value.mem_children_shape.2 (.inl hid))

/-- The atom that keeps a scalar in place. -/
def Atom.inlined (pool : Pool) : Atom → Atom
  | .scalar s => .scalar s
  | .ref id =>
    match pool.get? id with
    | some (.scalar s) => .scalar s
    | _ => .ref id

/-- The identities that are left are those of constants that are no scalars. -/
theorem Atom.eq_ref_of_inlined {pool : Pool} {a : Atom} {id : ValueId}
    (h : a.inlined pool = .ref id) : a = .ref id ∧ ∀ s, pool.get? id ≠ some (.scalar s) := by
  cases a with
  | scalar s => cases h
  | ref i =>
    unfold inlined at h
    dsimp only at h
    split at h
    · cases h
    · next hnone =>
      cases h
      exact ⟨rfl, fun s hs => hnone s hs⟩

/-- Keeping a scalar in place makes no difference to the constant. -/
theorem Pool.Stands.inlined {pool : Pool} {a : Atom} {c : Constant} (h : pool.Stands a c) :
    pool.Stands (a.inlined pool) c := by
  cases a with
  | scalar s => exact h
  | ref id =>
    unfold Atom.inlined
    dsimp only
    split
    · next s hget =>
      rw [h.functional (.of_scalar hget)]
      exact scalar_iff.2 rfl
    · exact h

namespace Shape

/-- Fields can be put in order, and the same is found under every name. -/
theorem exists_pairwise {ρ : Type} (fields : List (String × ρ)) :
    ∃ sorted : List (String × ρ), sorted.Pairwise (fun e e' => e.1 < e'.1) ∧
      (∀ e ∈ sorted, e ∈ fields) ∧ ∀ name, field? name sorted = field? name fields := by
  induction fields with
  | nil => exact ⟨[], .nil, fun _ h => h, fun _ => rfl⟩
  | cons first rest ih =>
    obtain ⟨sorted, hsorted, hmem, hfind⟩ := ih
    -- A later field of the same name is never found.
    have hkept : (sorted.filter fun e => e.1 ≠ first.1).Pairwise fun e e' => e.1 < e'.1 :=
      hsorted.filter _
    have hnew : ∀ e ∈ sorted.filter (fun e => e.1 ≠ first.1), e.1 ≠ first.1 := by
      intro e he
      exact of_decide_eq_true (List.mem_filter.1 he).2
    have hinsert := pairwise_insertField hkept hnew
    have hmem' : ∀ e, e ∈ insertField first (sorted.filter fun e => e.1 ≠ first.1) ↔
        e = first ∨ e ∈ sorted ∧ e.1 ≠ first.1 := by
      intro e
      rw [(insertField_perm first _).mem_iff, List.mem_cons, List.mem_filter, decide_eq_true_iff]
    refine ⟨_, hinsert, fun e he => ?_, fun name => Option.ext fun value => ?_⟩
    · rcases (hmem' e).1 he with rfl | ⟨he, -⟩
      · exact List.mem_cons_self ..
      · exact List.mem_cons_of_mem _ (hmem e he)
    · obtain ⟨other, v⟩ := first
      rw [field?_eq_some_iff hinsert, hmem', field?, List.lookup_cons, Prod.mk.injEq]
      by_cases heq : name = other
      · simp [heq, eq_comm]
      · simp only [beq_eq_false_iff_ne.2 heq, heq, false_and, false_or, ne_eq, not_false_eq_true,
          and_true, ← field?_eq_some_iff hsorted, hfind name]
        rfl

variable {pool : Pool}

/-- Objects whose fields are the same under every name stand for the same constant. -/
theorem constant_eq_of_field?_eq {c : String} {xs ys : List (String × Atom)}
    {k k' : Shape Constant Constant} (hk : pool.LayerStands (.object c xs) k)
    (hk' : pool.LayerStands (.object c ys) k') (h : ∀ name, field? name xs = field? name ys) :
    k.constant = k'.constant := by
  cases hk with
  | object _ hx =>
    cases hk' with
    | object _ hy =>
      refine congrArg (Constant.object c) (funext fun name => ?_)
      have hx := field?_rel hx name
      have hy := field?_rel hy name
      rw [h name] at hx
      generalize field? name ys = z at hx hy
      generalize field? name _ = x at hx ⊢
      generalize field? name _ = y at hy ⊢
      cases hx with
      | none =>
        cases hy
        rfl
      | some hx =>
        cases hy with
        | some hy => rw [hx.functional hy]

/-- A layer whose parts are in place has a layer in order with the same constant. -/
theorem exists_ordered {l : Shape Atom ValueId} {k : Shape Constant Constant}
    (hk : pool.LayerStands l k) :
    ∃ l' k', l'.Ordered ∧ (∀ a ∈ l'.partList, a ∈ l.partList) ∧ l'.argList = l.argList ∧
      pool.LayerStands l' k' ∧ k'.constant = k.constant := by
  cases l with
  | object c fields =>
    obtain ⟨sorted, hsorted, hmem, hfind⟩ := exists_pairwise fields
    have hparts : ∀ a ∈ (.object c sorted : Shape Atom ValueId).partList,
        a ∈ (.object c fields : Shape Atom ValueId).partList := by
      intro a ha
      obtain ⟨e, he, rfl⟩ := List.mem_map.1 ha
      exact List.mem_map_of_mem (hmem e he)
    have hk' : ∃ k', pool.LayerStands (.object c sorted) k' := by
      refine Rel.exists_right (fun a ha => ?_) fun i hi => nomatch hi
      obtain ⟨x, -, hx⟩ := exists_of_forall₂ hk.partList (hparts a ha)
      exact ⟨x, hx⟩
    obtain ⟨k', hk'⟩ := hk'
    exact ⟨.object c sorted, k', hsorted, hparts, rfl, hk', constant_eq_of_field?_eq hk' hk hfind⟩
  | _ =>
    refine ⟨_, k, ?_, fun _ h => h, rfl, hk, rfl⟩
    exact trivial

/-- A layer without type arguments has a canonical one with the same constant. -/
theorem exists_canonical {l : Shape Atom ValueId} {k : Shape Constant Constant}
    (hk : pool.LayerStands l k) (hargs : l.argList = []) :
    ∃ l' k', (Value.shape l').Canonical pool ∧
      (∀ child ∈ (Value.shape l').children, child ∈ (Value.shape l).children) ∧
        pool.LayerStands l' k' ∧ k'.constant = k.constant := by
  have hinlined : pool.LayerStands (l.mapParts (Atom.inlined pool) id) k := by
    rw [Pool.LayerStands, Rel.mapParts_left_iff]
    exact hk.imp (fun _ _ h => h.inlined) fun _ _ h => h
  obtain ⟨l', k', hordered, hparts, hargs', hk', hconstant⟩ := exists_ordered hinlined
  have hchild : ∀ child ∈ (Value.shape l').children,
      child ∈ (Value.shape l).children ∧ ∀ s, pool.get? child ≠ some (.scalar s) := by
    intro child hchild
    rcases Value.mem_children_shape.1 hchild with hpart | harg
    · have hmem := hparts _ hpart
      rw [partList_mapParts] at hmem
      obtain ⟨a, ha, heq⟩ := List.mem_map.1 hmem
      obtain ⟨rfl, hscalar⟩ := Atom.eq_ref_of_inlined heq
      exact ⟨Value.mem_children_shape.2 (.inl ha), hscalar⟩
    · rw [hargs', argList_mapParts, hargs] at harg
      cases harg
  exact ⟨l', k', ⟨hordered, fun child h => (hchild child h).2⟩, fun child h => (hchild child h).1,
    hk', hconstant⟩

end Shape

namespace Pool

/-- If a layer in the pool is not in canonical form then one canonical value that is handed in has
the constant of an identity that is there already. -/
theorem Sound.exists_duplicate {pool : Pool} (hsound : pool.Sound) (h : ¬ pool.SlotsCanonical) :
    ∃ value, value.Canonical pool ∧ ¬ (pool.intern value).2.Deduplicated := by
  have hbad : ∃ id l, pool.get? id = some (.shape l) ∧ ¬ l.SlotsCanonical pool := by
    by_contra hall
    refine h fun id l hget => ?_
    by_contra hl
    exact hall ⟨id, l, hget, hl⟩
  obtain ⟨id, l, hget, hl⟩ := hbad
  -- a type holds no atoms that could be out of place, so the layer is not that of a type
  have hargs : l.argList = [] := by
    cases l with
    | type name args => exact absurd ⟨trivial, fun _ hid => nomatch hid⟩ hl
    | _ => rfl
  obtain ⟨c, hc⟩ := hsound.exists_stands (a := .ref id) (lt_size_of_get? hget)
  rcases hc.of_ref with ⟨s, hget', -⟩ | ⟨_, k, hget', hk, rfl⟩
  · cases hget.symm.trans hget'
  cases hget.symm.trans hget'
  obtain ⟨l', k', hcanonical, hchildren, hk', hconstant⟩ := Shape.exists_canonical hk hargs
  refine ⟨.shape l', hcanonical, fun hdedup => ?_⟩
  have hknown : ∀ child ∈ (Value.shape l').children, child.index < pool.size := by
    intro child hchild
    exact Nat.lt_trans (hsound.smaller hget child (hchildren child hchild)) (lt_size_of_get? hget)
  obtain ⟨id', q, hintern, hq⟩ := intern_of_known hknown
  rw [hintern] at hdedup
  have hstands : q.Stands (.ref id') k.constant := by
    rw [← hconstant]
    refine .of_layer hq.get (hk'.imp (fun _ _ => .mono hq.keeps) fun _ _ => .mono hq.keeps)
  -- both stand for one constant, so without duplicates they are one identity
  have hids : id = id' := by
    refine (hdedup id id' ?_ ?_).2 ⟨_, hc.mono hq.keeps, hstands⟩
    · exact lt_size_of_get? (hq.keeps _ _ hget)
    · exact lt_size_of_get? hq.get
  subst hids
  cases (hq.keeps _ _ hget).symm.trans hq.get
  exact hl hcanonical.slots

/-- A constant that is no scalar is none when the pool has grown. -/
theorem Keeps.ne_scalar {p q : Pool} (hkeeps : p.Keeps q) {id : ValueId} (hid : id.index < p.size)
    (h : ∀ s, p.get? id ≠ some (.scalar s)) (s : Scalar) : q.get? id ≠ some (.scalar s) := by
  intro hs
  obtain ⟨value, hvalue⟩ := Option.isSome_iff_exists.1 (get?_isSome_iff.2 hid)
  cases (hkeeps id value hvalue).symm.trans hs
  exact h s hvalue

end Pool

/-- A canonical value whose parts are known stays so when the pool grows. -/
theorem Value.Canonical.mono {p q : Pool} (hkeeps : p.Keeps q) {value : Value}
    (hknown : ∀ child ∈ value.children, child.index < p.size) (h : value.Canonical p) :
    value.Canonical q := by
  cases value with
  | scalar s => trivial
  | shape layer =>
    exact ⟨h.1, fun child hchild => hkeeps.ne_scalar (hknown child hchild) (h.2 child hchild)⟩

namespace Pool

/-- The parts of a value in the pool are known. -/
theorem Sound.known {pool : Pool} (hsound : pool.Sound) {id : ValueId} {value : Value}
    (hget : pool.get? id = some value) : ∀ child ∈ value.children, child.index < pool.size :=
  fun child hchild => Nat.lt_trans (hsound.smaller hget child hchild) (lt_size_of_get? hget)

variable {p q : Pool}

/-- Handing in a canonical value keeps the form of the layers. -/
theorem SlotsCanonical.intern (h : p.SlotsCanonical) (hsound : p.Sound) {value : Value}
    (hvalue : value.Canonical p) : (p.intern value).2.SlotsCanonical := by
  have hkeeps := (hsound.intern value).2
  intro id layer hget
  rcases hp : p.get? id with _ | old
  · obtain ⟨rfl, hknown⟩ := eq_of_get?_intern hp hget
    exact (hvalue.mono hkeeps hknown).slots
  · obtain rfl : old = .shape layer := Option.some.inj ((hkeeps id old hp).symm.trans hget)
    refine ⟨(h id layer hp).ordered, fun child hchild => ?_⟩
    have hmem := Value.mem_children_shape.2 (.inl hchild)
    exact hkeeps.ne_scalar (hsound.known hp child hmem) ((h id layer hp).inPlace child hchild)

/-- All values in the pool are in canonical form. -/
def Canonical (pool : Pool) : Prop :=
  ∀ id value, pool.get? id = some value → value.Canonical pool

namespace Canonical

/-- A canonical pool holds scalars in place. -/
theorem inPlace (h : p.Canonical) : p.InPlace :=
  fun {id layer} hget => (h id (.shape layer) hget).2

/-- In a canonical pool every slot is. -/
theorem slots (h : p.Canonical) : p.SlotsCanonical :=
  fun id layer hget => (h id (.shape layer) hget).slots

/-- The empty pool is canonical. -/
theorem of_empty : ({} : Pool).Canonical := by
  intro id value hget
  have hnone : ({} : Pool).get? id = none := get?_eq_none_iff.2 (Nat.zero_le _)
  cases hnone.symm.trans hget

/-- A pool stays canonical if what is added is. -/
theorem later (h : p.Canonical) (hsound : p.Sound) (hkeeps : p.Keeps q)
    (hadded : ∀ id value, p.get? id = none → q.get? id = some value → value.Canonical q) :
    q.Canonical := by
  intro id value hget
  rcases hp : p.get? id with _ | old
  · exact hadded id value hp hget
  · obtain rfl : old = value := Option.some.inj ((hkeeps id old hp).symm.trans hget)
    exact (h id old hp).mono hkeeps (hsound.known hp)

/-- Handing in a canonical value keeps a pool canonical. -/
theorem intern (h : p.Canonical) (hsound : p.Sound) {value : Value} (hvalue : value.Canonical p) :
    (p.intern value).2.Canonical := by
  have hkeeps := (hsound.intern value).2
  refine Canonical.later h hsound hkeeps ?_
  intro id v hnone hget
  obtain ⟨rfl, hknown⟩ := eq_of_get?_intern hnone hget
  exact hvalue.mono hkeeps hknown

/-- What means a tree of scalars is no scalar. -/
theorem ne_scalar_of_means {pool : Pool} {id : ValueId} {t : Tree Scalar}
    (h : Means pool (.atom (.ref id)) t) (s : Scalar) : pool.get? id ≠ some (.scalar s) := by
  intro hs
  obtain ⟨l, _, hget, -, -⟩ := h.exists_layer
  cases hs.symm.trans hget

/-- A pool that grows by trees of scalars stays canonical. -/
theorem grows (h : p.Canonical) (hsound : p.Sound) (hgrows : p.Grows Scalar q) : q.Canonical := by
  refine Canonical.later h hsound hgrows.keeps ?_
  intro id value hnone hget
  cases value with
  | scalar s => trivial
  | shape layer =>
    have hordered := hgrows.ordered hnone hget
    obtain ⟨t, -, hdenotes⟩ := hgrows.added hnone hget
    have ht : Means q (.atom (.ref id)) t := by
      rcases hdenotes.cases with ⟨s, hscalar, -⟩ | ⟨l, -, ht⟩
      · cases hget.symm.trans hscalar
      · exact ht
    obtain ⟨l, m, hget', hl, -⟩ := ht.exists_layer
    cases hget.symm.trans hget'
    refine ⟨hordered, fun child hchild => ?_⟩
    rcases Value.mem_children_shape.1 hchild with hpart | harg
    · obtain ⟨u, -, hu⟩ := exists_of_forall₂ hl.partList hpart
      exact ne_scalar_of_means hu
    · obtain ⟨u, -, hu⟩ := exists_of_forall₂ hl.argList harg
      exact ne_scalar_of_means hu

end Canonical

end Pool

/-! ### Histories -/

namespace Stock

variable {a : Analysis} {s s' : Stock}

/-- A stock in canonical form whose cache tells what is so on trees of scalars. -/
structure Canonical (a : Analysis) (s : Stock) : Prop where
  faithful : s.Faithful a (a.Explained Scalar) []
  pool : s.pool.Canonical

/-- What may be done to a stock without leaving the canonical form. -/
abbrev CanonicalStep (a : Analysis) : Stock → Stock → Prop :=
  Step a (fun pool value => value.Canonical pool) fun pool r => r.InPlace pool

/-- One step keeps the form. -/
theorem CanonicalStep.canonical (hs : a.Sound) (h : CanonicalStep a s s') (hc : s.Canonical a) :
    s'.Canonical a := by
  have hsound := hc.faithful.sound
  cases h with
  | @intern value hvalue =>
    obtain ⟨-, hpool, -⟩ := intern_eq value s
    refine ⟨(hc.faithful.intern Analysis.lasting_explained value).1, ?_⟩
    rw [hpool]
    exact hc.pool.intern hsound hvalue
  | request hdeclared hr =>
    obtain ⟨t, ht⟩ := hr.exists_means hsound hc.pool.inPlace
    have hanswered := hs.answered_invoke hdeclared ht hc.faithful
    exact ⟨hanswered.faithful, hc.pool.grows hsound hanswered.grows⟩
  | use user id =>
    exact ⟨hc.faithful.later Analysis.lasting_explained rfl (.refl _) hsound, hc.pool⟩

/-- A history keeps the form. -/
theorem canonical_of_steps (hs : a.Sound) (h : ReflTransGen (CanonicalStep a) {} s) :
    s.Canonical a := by
  induction h with
  | refl => exact ⟨.of_empty Pool.sound_empty rfl, .of_empty⟩
  | tail _ hstep ih => exact CanonicalStep.canonical hs hstep ih

end Stock

namespace Session

/-- If only canonical values are handed in then no constant ever has two identities, whatever is
submitted, evaluated and finished. And once some layer in the pool is not canonical, one canonical
value more is all that it takes to have a constant twice. -/
theorem deduplicated_iff (declarations : List Declaration) (types : Types) (settings : Settings) :
    (∀ s, ReflTransGen (Step fun pool value => value.Canonical pool)
        (start (.declareAll {} declarations) types settings) s → s.stock.pool.Deduplicated) ∧
    ∀ s, Reached (.declareAll {} declarations) types settings s →
      ((∀ value : Value, value.Canonical s.stock.pool →
          (s.perform (Work.intern value)).2.stock.pool.Deduplicated) ↔
        s.stock.pool.SlotsCanonical) := by
  have hp := Program.declared_declareAll declarations
  have hs := Analysis.sound_build hp types settings
  refine ⟨fun s h => ?_, fun s h => ?_⟩
  · obtain ⟨-, hsteps⟩ := stock_of_steps hp h
    have hc := Stock.canonical_of_steps hs hsteps
    exact hc.faithful.sound.deduplicated hc.pool.slots
  · have hsound := ((h.stock hp).2.faithful hs.upholds_explained).sound
    have hpool : ∀ value : Value, (s.perform (Work.intern value)).2.stock.pool =
        (s.stock.pool.intern value).2 := fun value => (Stock.intern_eq value s.stock).2.1
    constructor
    · intro hdedup
      by_contra hslots
      obtain ⟨value, hvalue, hduplicate⟩ := hsound.exists_duplicate hslots
      rw [← hpool] at hduplicate
      exact hduplicate (hdedup value hvalue)
    · intro hslots value hvalue
      rw [hpool]
      exact (hsound.intern value).1.deduplicated (hslots.intern hsound hvalue)

/-- A list of one, handed in with one in place and then with the identity of one. -/
theorem exists_list_twice :
    ∃ s, Reached (.declareAll {} []) .empty {} s ∧
      s.stock.pool.get? ⟨0⟩ = some (.scalar (.int 1)) ∧
      s.stock.pool.get? ⟨1⟩ = some (.shape (.list #[.scalar (.int 1)])) ∧
      s.stock.pool.get? ⟨2⟩ = some (.shape (.list #[.ref ⟨0⟩])) ∧
      ¬ s.stock.pool.Deduplicated := by
  let one := ((start (.declareAll {} []) .empty {}).perform (Work.intern (.scalar (.int 1)))).2
  let inPlace := (one.perform (Work.intern (.shape (.list #[.scalar (.int 1)])))).2
  let s := (inPlace.perform (Work.intern (.shape (.list #[.ref ⟨0⟩])))).2
  have hreached : Reached (.declareAll {} []) .empty {} s :=
    ((ReflTransGen.single (.intern trivial)).tail (.intern trivial)).tail (.intern trivial)
  have hone : s.stock.pool.get? ⟨0⟩ = some (.scalar (.int 1)) := by rfl
  have hinPlace : s.stock.pool.get? ⟨1⟩ = some (.shape (.list #[.scalar (.int 1)])) := by rfl
  have hreference : s.stock.pool.get? ⟨2⟩ = some (.shape (.list #[.ref ⟨0⟩])) := by rfl
  refine ⟨s, hreached, hone, hinPlace, hreference, fun hdedup => ?_⟩
  have hlist : ∀ a, s.stock.pool.Stands a (.scalar (.int 1)) →
      s.stock.pool.LayerStands (.list #[a]) (.list #[.scalar (.int 1)]) :=
    fun a ha => .list (.cons ha .nil)
  have heq : (⟨1⟩ : ValueId) = ⟨2⟩ := by
    refine (hdedup ⟨1⟩ ⟨2⟩ (Pool.lt_size_of_get? hinPlace) (Pool.lt_size_of_get? hreference)).2 ?_
    exact ⟨_, .of_layer hinPlace (hlist _ (Pool.Stands.scalar_iff.2 rfl)),
      .of_layer hreference (hlist _ (.of_scalar hone))⟩
  cases heq

end Session

end ConstPool
