import ConstPool.Proofs.Denotation
import ConstPool.Proofs.Table.Encoding

/-!
# The constants of a table

A table can be read without the pool it was made from: follow every position to its entry. What an
entry then stands for is what the identity it comes from stands for in the pool.

* `Table.Stands`: an entry of a table stands for a constant.
* `Table.Encodes.stands_iff`: it is the constant of the pool.
-/

namespace ConstPool

namespace Table

/-- The entry at a position of a table stands for a constant: a scalar for itself, and a layer for
the constant of the layer of what its parts stand for. A layer and what its parts stand for are
given as a layer of pairs. -/
inductive Stands (t : Table) : Nat → Constant → Prop
  | scalar {slot : Nat} {e : TableEntry} {s : Scalar} : t.entries[slot]? = some e →
    e.value = .scalar s → Stands t slot (.scalar s)
  | shape {slot : Nat} {e : TableEntry} (z : Shape (TablePart × Constant) (Nat × Constant)) :
    t.entries[slot]? = some e → e.value = .shape (z.mapParts Prod.fst Prod.fst) →
      (∀ x ∈ z.partList, ∀ s, x.1 = .scalar s → x.2 = .scalar s) →
        (∀ x ∈ z.partList, ∀ n, x.1 = .entry n → Stands t n x.2) →
          (∀ x ∈ z.argList, Stands t x.1 x.2) → Stands t slot (z.mapParts Prod.snd Prod.snd).constant

/-- A part of an entry stands for a constant. -/
def PartStands (t : Table) : TablePart → Constant → Prop
  | .scalar s, c => c = .scalar s
  | .entry n, c => t.Stands n c

/-- An entry whose layer stands for a layer of constants. -/
theorem Stands.of_layer {t : Table} {slot : Nat} {e : TableEntry} {layer : Shape TablePart Nat}
    {k : Shape Constant Constant} (he : t.entries[slot]? = some e) (hvalue : e.value = .shape layer)
    (h : Shape.Rel t.PartStands t.Stands layer k) : t.Stands slot k.constant := by
  obtain ⟨z, rfl, rfl, hparts, hargs⟩ := h.exists_zip
  refine .shape z he hvalue (fun x hx s hs => ?_) (fun x hx n hn => ?_) hargs
  · have hpart := hparts x hx
    rwa [hs] at hpart
  · have hpart := hparts x hx
    rwa [hn] at hpart

namespace Encodes

variable {t : Table} {pool : Pool} {ids : List ValueId} {slot : Nat} {id : ValueId} {c : Constant}

/-- The entry of a constant, and what it is decoded to. -/
theorem exists_entry (h : t.Encodes pool ids) (hid : t.source? slot = some id) :
    ∃ e, t.entries[slot]? = some e ∧ e.value.decode? t.source? = pool.get? id := by
  obtain ⟨e, he, rfl⟩ := Option.map_eq_some_iff.1 hid
  exact ⟨e, he, (h.decode (List.mem_of_getElem? he)).2⟩

/-- What an identity stands for, its entry stands for. The induction is on the position: an entry
refers to earlier ones only. -/
theorem stands_of_source (h : t.Encodes pool ids) (hid : t.source? slot = some id)
    (hstands : pool.Stands (.ref id) c) : t.Stands slot c := by
  induction slot using Nat.strongRecOn generalizing id c with
  | ind slot ih =>
    obtain ⟨e, he, hdecode⟩ := h.exists_entry hid
    have hearlier := h.earlier he
    rcases hvalue : e.value with s | layer
    · rw [hvalue] at hdecode
      rw [hstands.functional (.of_scalar hdecode.symm)]
      exact .scalar he hvalue
    · rw [hvalue] at hdecode hearlier
      -- the entry holds a layer, so the identity does
      obtain ⟨l, hlayer, hget⟩ : ∃ l, layer.traverseParts (TablePart.atom? t.source?) t.source? =
          some l ∧ pool.get? id = some (.shape l) := by
        rcases hstands.of_ref with ⟨s, hget, -⟩ | ⟨l, k, hget, -, -⟩
        · rw [hget] at hdecode
          obtain ⟨_, -, heq⟩ := Option.map_eq_some_iff.1 hdecode
          cases heq
        · rw [hget] at hdecode
          obtain ⟨l', hlayer, heq⟩ := Option.map_eq_some_iff.1 hdecode
          cases heq
          exact ⟨l, hlayer, hget⟩
      rcases hstands.of_ref with ⟨s, hget', -⟩ | ⟨l', k, hget', hl, rfl⟩
      · cases hget.symm.trans hget'
      cases hget.symm.trans hget'
      refine .of_layer he hvalue ((Shape.rel_of_traverseParts hlayer).comp hl ?_ ?_)
      · intro part hpart a d hatom hd
        cases part with
        | scalar s =>
          cases hatom
          exact Pool.Stands.scalar_iff.1 hd
        | entry n =>
          obtain ⟨i, hi, rfl⟩ := Option.map_eq_some_iff.1 hatom
          have hn := mem_slots_shape.2 (.inl ⟨_, hpart, List.mem_singleton_self n⟩)
          exact ih n (hearlier n hn) hi hd
      · intro n hn i d hi hd
        exact ih n (hearlier n (mem_slots_shape.2 (.inr hn))) hi hd

/-- What an entry stands for, the identity it comes from stands for. -/
theorem stands_of_entry (h : t.Encodes pool ids) (hstands : t.Stands slot c) :
    ∃ id, t.source? slot = some id ∧ pool.Stands (.ref id) c := by
  have hsource : ∀ {slot e}, t.entries[slot]? = some e → t.source? slot = some e.source :=
    fun he => congrArg (Option.map _) he
  induction hstands with
  | @scalar slot e s he hvalue =>
    have hdecode := (h.decode (List.mem_of_getElem? he)).2
    rw [hvalue] at hdecode
    exact ⟨_, hsource he, .of_scalar hdecode.symm⟩
  | @shape slot e z he hvalue hscalar _ _ ihparts ihargs =>
    obtain ⟨hknown, hdecode⟩ := h.decode (List.mem_of_getElem? he)
    obtain ⟨value, hget⟩ := Option.isSome_iff_exists.1 hknown
    rw [hvalue, hget] at hdecode
    obtain ⟨l, hlayer, rfl⟩ := Option.map_eq_some_iff.1 hdecode
    have hrel := Shape.Rel.mapParts_left_iff.1 (Shape.rel_of_traverseParts hlayer)
    refine ⟨_, hsource he, .of_layer hget ?_⟩
    rw [Pool.LayerStands, Shape.Rel.mapParts_right_iff]
    refine hrel.flip.imp_of_mem_right (fun x hx a ha => ?_) fun x hx i hi => ?_
    · rcases hpart : x.1 with s | n
      · rw [hpart] at ha
        cases ha
        exact Pool.Stands.scalar_iff.2 (hscalar x hx s hpart)
      · rw [hpart] at ha
        obtain ⟨i, hi, rfl⟩ := Option.map_eq_some_iff.1 ha
        obtain ⟨j, hj, hstands⟩ := ihparts x hx n hpart
        rwa [Option.some.inj (hi.symm.trans hj)]
    · obtain ⟨j, hj, hstands⟩ := ihargs x hx
      rwa [Option.some.inj (hi.symm.trans hj)]

/-- An entry stands for what the identity stands for that it comes from. -/
theorem stands_iff (h : t.Encodes pool ids) :
    t.Stands slot c ↔ ∃ id, t.source? slot = some id ∧ pool.Stands (.ref id) c := by
  constructor
  · exact h.stands_of_entry
  · rintro ⟨id, hid, hstands⟩
    exact h.stands_of_source hid hstands

/-- The entries of a table stand for what the identities stand for that it was made of. -/
theorem exists_stands_iff (h : t.Encodes pool ids) :
    (∃ slot, t.Stands slot c) ↔ ∃ id ∈ ids, pool.Stands (.ref id) c := by
  simp only [h.stands_iff, ← h.sources]
  constructor
  · rintro ⟨slot, id, hid, hstands⟩
    obtain ⟨e, he, rfl⟩ := Option.map_eq_some_iff.1 hid
    exact ⟨_, List.mem_map_of_mem (List.mem_of_getElem? he), hstands⟩
  · rintro ⟨id, hid, hstands⟩
    obtain ⟨slot, hslot⟩ := List.mem_iff_getElem?.1 hid
    rw [List.getElem?_map] at hslot
    exact ⟨slot, id, hslot, hstands⟩

end Encodes

end Table

end ConstPool
