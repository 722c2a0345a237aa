import ConstPool.Proofs.Conduct.Resolve
import ConstPool.Proofs.History

/-!
# Drafts that a body can make

A running body makes drafts of scalars, of constants of the pool and of drafts that it has made
before, in any nesting. Wherever the line between what is pooled and what is not runs in such a
draft, it means one tree, and pooling it gives the atom that means this tree. So two drafts are
pooled as one atom if and only if they mean the same tree.

The pools in question are those that come about by handing in values, whatever else happens on the
way; such a pool is sound, and it keeps its constants. In a draft that a body can make, every
identity is one of the pool, fields stand in their order, and the arguments of a type are constants
and no scalars. That is kept by every operation on drafts, and it is all that is needed to compare
two drafts: they are the same as constants exactly if pooling them, in either order, gives one
atom. Sameness is decided without pooling anything, and it never fails.

* `Pool.Leads`, `Pool.Reached`: pools that come about by handing in values.
* `Draft.Made`: a draft that a body can make.
* `Draft.Alike`: two drafts are pooled as one atom.
* `Draft.same_iff_pooled`: this is what sameness of drafts decides.
-/

namespace ConstPool

open Draft Relation

/-! ### Pools that come about -/

/-- What can follow on a pool: values are handed in, and accepted or refused. -/
abbrev Pool.Leads : Pool → Pool → Prop :=
  ReflTransGen fun p q => ∃ value, q = (p.intern value).2

/-- A pool that has come about by handing in values. -/
abbrev Pool.Reached (pool : Pool) : Prop := Pool.Leads {} pool

namespace Pool.Leads

variable {p q : Pool}

/-- A pool that leads to another one is kept by it. -/
theorem keeps (h : p.Leads q) : p.Keeps q := by
  induction h with
  | refl => exact .refl p
  | @tail q r _ hstep ih =>
    obtain ⟨value, rfl⟩ := hstep
    exact ih.trans (q.keeps_intern value)

/-- A pool that a sound one leads to is sound. -/
theorem sound (h : p.Leads q) (hp : p.Sound) : q.Sound := by
  induction h with
  | refl => exact hp
  | tail _ hstep ih =>
    obtain ⟨value, rfl⟩ := hstep
    exact (ih.intern value).1

end Pool.Leads

/-- A pool that was made by handing values in is sound. -/
theorem Pool.Reached.sound {pool : Pool} (h : pool.Reached) : pool.Sound :=
  Pool.Leads.sound h Pool.sound_empty

/-- Handing in values and changing the cache leads the pool on. -/
theorem Stock.stable_leads (p : Pool) : Stock.Stable fun s => p.Leads s.pool where
  intern value s h := by
    rw [(Stock.intern_eq value s).2.1]
    exact h.tail ⟨value, rfl⟩
  memo _ h := h

/-- Pooling a draft leads the pool on. -/
theorem Draft.leads_intern {d : Draft} {s s' : Stock} {a : Atom} (h : d.intern s = .ok a s') :
    s.pool.Leads s'.pool := by
  have hconforms := (Stock.stable_leads s.pool).fair.draft d
  have houtcome := (Work.conforms_keeping_iff.1 hconforms) s .refl
  rwa [Work.outcome, h] at houtcome

/-! ### Drafts of known constants -/

/-- An atom that is known stays so. -/
theorem Atom.Known.mono {p q : Pool} {a : Atom} (h : a.Known p) (hkeeps : p.Keeps q) :
    a.Known q := by
  cases a with
  | scalar s => trivial
  | ref id => exact hkeeps.size_le h

/-- A request with known arguments stays one. -/
theorem Request.Known.mono {p q : Pool} {r : Request ValueId Atom} (h : r.Known p)
    (hkeeps : p.Keeps q) : r.Known q := by
  cases r with
  | call f types args =>
    exact ⟨fun id hid => hkeeps.size_le (h.1 id hid), fun a ha => (h.2 a ha).mono hkeeps⟩
  | read name => trivial

namespace Draft

/-- A draft that a body can make: an atom that is known, or a shape of such drafts. Its fields are
in order, and no argument of a type is a scalar that is held in place. -/
inductive Made (pool : Pool) : Draft → Prop
  | atom {a : Atom} : a.Known pool → Made pool (.atom a)
  | fresh {layer : Shape Draft Draft} : layer.Ordered → (∀ d ∈ layer.partList, Made pool d) →
    (∀ d ∈ layer.argList, Made pool d) → (∀ d ∈ layer.argList, d.scalar? = none) →
      Made pool (.fresh layer)

variable {pool : Pool} {d e l r : Draft}

/-- A draft that a body can make means a tree whose leaves tell how they are held. -/
theorem Made.exists_means (h : d.Made pool) (hsound : pool.Sound) :
    ∃ t : Tree Holding, Means pool d t := by
  induction h with
  | atom ha => exact ha.exists_means hsound
  | @fresh layer hordered _ _ hscalar hparts hargs =>
    have hlayer : ∃ m, FreshMeans (α := Holding) pool layer m := by
      refine Shape.Rel.exists_right hparts fun d hd => ?_
      obtain ⟨t, ht⟩ := hargs d hd
      exact ⟨t, ht, hscalar d hd⟩
    obtain ⟨m, hm⟩ := hlayer
    exact ⟨_, .of_fresh hordered hm⟩

/-- A draft that means a tree is one that a body can make. -/
theorem Means.made {t : Tree Holding} (h : Means pool d t) : d.Made pool := by
  induction h with
  | inPlace s => exact .atom trivial
  | byReference hget _ => exact .atom (Pool.lt_size_of_get? hget)
  | pooled z hget _ _ _ _ => exact .atom (Pool.lt_size_of_get? hget)
  | fresh z hordered _ _ hscalar hparts hargs =>
    refine .fresh hordered ?_ ?_ ?_
    · rw [Shape.partList_mapParts]
      exact List.forall_mem_map.2 hparts
    · rw [Shape.argList_mapParts]
      exact List.forall_mem_map.2 hargs
    · rw [Shape.argList_mapParts]
      exact List.forall_mem_map.2 hscalar

/-- What a body can make over a pool can be made over one that keeps it. -/
theorem Made.mono {q : Pool} (h : d.Made pool) (hkeeps : pool.Keeps q) : d.Made q := by
  induction h with
  | atom ha => exact .atom (ha.mono hkeeps)
  | fresh hordered _ _ hscalar hparts hargs => exact .fresh hordered hparts hargs hscalar

/-- A text. -/
theorem Made.text (content : String) : (Draft.text content).Made pool :=
  .fresh trivial (List.forall_mem_nil _) (List.forall_mem_nil _) (List.forall_mem_nil _)

/-- A list of drafts that a body can make. -/
theorem Made.list {items : Array Draft} (h : ∀ d ∈ items.toList, d.Made pool) :
    (Draft.list items).Made pool :=
  .fresh trivial h (List.forall_mem_nil _) (List.forall_mem_nil _)

/-- An atom that is a draft which a body can make is known. -/
theorem Made.known {a : Atom} (h : (Draft.atom a).Made pool) : a.Known pool := by
  cases h with
  | atom ha => exact ha

/-! ### Pooled as one atom -/

/-- Pools two drafts, one after the other. -/
def internBoth (l r : Draft) : Work (Atom × Atom) := do return (← l.intern, ← r.intern)

/-- From the pool on, two drafts are pooled as one atom. -/
def Alike (pool : Pool) (l r : Draft) : Prop :=
  ∀ s : Stock, pool.Leads s.pool → ∃ a s', internBoth l r s = .ok (a, a) s'

/-- Two drafts that mean trees are pooled, and as one atom exactly if the trees are the same. -/
theorem Means.internBoth {t u : Tree Holding} (hl : Means pool l t) (hr : Means pool r u)
    {s : Stock} (hkeeps : pool.Keeps s.pool) (hsound : s.pool.Sound) :
    ∃ a b s', l.internBoth r s = .ok (a, b) s' ∧ (a = b ↔ t = u) := by
  have hadds : Work.Yields Holding pool (l.internBoth r) fun q x =>
      Means q (.atom x.1) t ∧ Means q (.atom x.2) u := by
    refine hl.intern.bind fun q a hq ha => (hr.mono hq).intern.bind fun q' b hq' hb => ?_
    exact .pure fun q'' hq'' => ⟨ha.1.mono (hq'.trans hq''), hb.1.mono hq''⟩
  obtain ⟨⟨a, b⟩, s', hrun, hgrows, ha, hb⟩ := hadds s hkeeps hsound
  exact ⟨a, b, s', hrun, ha.atom_eq_iff hgrows.sound hb⟩

/-- Two drafts are pooled as one atom if and only if they mean the same tree. -/
theorem Means.alike_iff {t u : Tree Holding} (hsound : pool.Sound) (hl : Means pool l t)
    (hr : Means pool r u) : Alike pool l r ↔ t = u := by
  constructor
  · intro h
    obtain ⟨a, s', hrun⟩ := h ⟨pool, .empty, {}⟩ .refl
    obtain ⟨b, c, s'', hrun', hiff⟩ :=
      hl.internBoth hr (.refl pool) hsound (s := ⟨pool, .empty, {}⟩)
    cases hrun.symm.trans hrun'
    exact hiff.1 rfl
  · rintro rfl s hleads
    obtain ⟨a, b, s', hrun, hiff⟩ := hl.internBoth hr hleads.keeps (hleads.sound hsound)
    obtain rfl := hiff.2 rfl
    exact ⟨a, s', hrun⟩

/-- Whether two drafts are the same is decided without a fault, and they are if and only if they are
pooled as one atom, in whichever order, in this pool and in every later one. -/
theorem same_iff_pooled (hpool : pool.Reached) (hl : l.Made pool) (hr : r.Made pool) :
    ∃ b, l.same pool r = .ok b ∧ ∀ s : Stock, pool.Leads s.pool →
      (∃ x y s', internBoth l r s = .ok (x, y) s' ∧ (b = true ↔ x = y)) ∧
        ∃ x y s', internBoth r l s = .ok (y, x) s' ∧ (b = true ↔ x = y) := by
  have hsound := hpool.sound
  obtain ⟨t, ht⟩ := hl.exists_means hsound
  obtain ⟨u, hu⟩ := hr.exists_means hsound
  refine ⟨decide (t = u), ht.same hsound hu, fun s hleads => ?_⟩
  have hsound' := hleads.sound hsound
  obtain ⟨x, y, s', hrun, hiff⟩ := ht.internBoth hu hleads.keeps hsound'
  obtain ⟨y', x', s'', hrun', hiff'⟩ := hu.internBoth ht hleads.keeps hsound'
  rw [decide_eq_true_eq]
  have horder : t = u ↔ x' = y' := eq_comm.trans (hiff'.symm.trans eq_comm)
  exact ⟨⟨x, y, s', hrun, hiff.symm⟩, x', y', s'', hrun', horder⟩

/-- The pool of the list of one. -/
def poolOfOne : Pool := (({} : Pool).intern (.shape (.list #[.scalar (.int 1)]))).2

/-- A list that is in the pool but for its outer layer, and the same list of which nothing is. -/
theorem same_iff_pooled_listOfLists :
    (Draft.list #[.pooled ⟨0⟩, .text "one"]).same poolOfOne
        (.list #[.list #[.int 1], .text "one"]) = .ok true ∧
      ∀ s : Stock, poolOfOne.Leads s.pool →
        ∃ x s', internBoth (.list #[.pooled ⟨0⟩, .text "one"])
          (.list #[.list #[.int 1], .text "one"]) s = .ok (x, x) s' := by
  have hpooled : (Draft.pooled ⟨0⟩).Made poolOfOne := .atom Nat.zero_lt_one
  have hone : (Draft.int 1).Made poolOfOne := .atom trivial
  have hpair : ∀ {d : Draft}, d.Made poolOfOne → (Draft.list #[d, .text "one"]).Made poolOfOne :=
    fun h => .list (List.forall_mem_cons.2 ⟨h, List.forall_mem_singleton.2 (.text "one")⟩)
  have hreached : poolOfOne.Reached := .single ⟨_, rfl⟩
  obtain ⟨b, hb, halike⟩ := same_iff_pooled hreached (hpair hpooled)
    (hpair (.list (List.forall_mem_singleton.2 hone)))
  have hsame : (Draft.list #[.pooled ⟨0⟩, .text "one"]).same poolOfOne
      (.list #[.list #[.int 1], .text "one"]) = .ok true := rfl
  obtain rfl : b = true := Except.ok.inj (hb.symm.trans hsame)
  refine ⟨hsame, fun s hs => ?_⟩
  obtain ⟨x, y, s', hrun, hiff⟩ := (halike s hs).1
  obtain rfl := hiff.1 rfl
  exact ⟨x, s', hrun⟩

end Draft

end ConstPool
