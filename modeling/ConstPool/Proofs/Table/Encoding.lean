import ConstPool.Proofs.Pool
import ConstPool.Table.Basic

/-!
# A table says what the pool says

Every entry of a table refers to entries before it. Put the identity that an entry comes from in the
place of every reference to it, and what is left is the pooled value of the entry.

Slots are given in the order of the identities that are kept, so a part of a value has a slot when
the value is looked at. The search for the slot of a site's result goes through the sources, which
are ascending, and halves them: that it finds the place is proved for every ascending list.

* `Table.Encodes`: a table of certain constants of a pool.
* `Table.results_build`: building a table gives such a table, or ends with a breach.
* `Table.searchFrom_eq`: the search for a constant finds its place.
-/

namespace ConstPool

/-! ### Reading entries back -/

/-- The positions that a part of an entry refers to. -/
def TablePart.slots : TablePart → List Nat
  | .scalar _ => []
  | .entry slot => [slot]

/-- A part of an entry as an atom, with the identities that the entries come from. -/
def TablePart.atom? (source? : Nat → Option ValueId) : TablePart → Option Atom
  | .scalar s => some (.scalar s)
  | .entry slot => (source? slot).map .ref

namespace TableValue

/-- The positions that an entry refers to, as parts or as type arguments. -/
def slots : TableValue → List Nat
  | .scalar _ => []
  | .shape layer => layer.parts TablePart.slots fun slot => [slot]

/-- The pooled value that an entry stands for: every position is replaced by the identity that its
entry comes from. -/
def decode? (source? : Nat → Option ValueId) : TableValue → Option Value
  | .scalar s => some (.scalar s)
  | .shape layer => (layer.traverseParts (TablePart.atom? source?) source?).map .shape

end TableValue

namespace Table

/-- The identity that the entry at a position comes from. -/
def source? (t : Table) (slot : Nat) : Option ValueId := (t.entries[slot]?).map (·.source)

/-- A table whose entries stand for the given constants of a pool, in ascending order. -/
structure Encodes (t : Table) (pool : Pool) (ids : List ValueId) : Prop where
  sources : t.entries.map (·.source) = ids
  ascending : ids.Pairwise fun i j => i.index < j.index
  /-- Every entry knows its position. -/
  slot : ∀ {k : Nat} {e : TableEntry}, t.entries[k]? = some e → e.slot = k
  /-- Every entry refers to earlier ones only. -/
  earlier : ∀ {k : Nat} {e : TableEntry}, t.entries[k]? = some e → ∀ n ∈ e.value.slots, n < k
  /-- Every entry stands for the value of the constant that it comes from. -/
  decode : ∀ {e}, e ∈ t.entries →
    (pool.get? e.source).isSome ∧ e.value.decode? t.source? = pool.get? e.source
  /-- The search for a constant finds the entry that comes from it. -/
  slotOf : ∀ {id k}, t.slotOf? id = some k ↔ t.source? k = some id

/-- The source of a slot stands in its place. -/
theorem source?_eq (t : Table) (slot : Nat) : t.source? slot = t.sources[slot]? := by
  rw [source?, Table.sources, List.getElem?_toArray, List.getElem?_map]

/-! ### Searching -/

/-- Among ascending identities the search finds the place of one that is there. -/
theorem searchFrom_eq {sources : Array ValueId}
    (hsources : sources.toList.Pairwise fun i j => i.index < j.index) {id : ValueId}
    {base size k : Nat} (hk : sources[k]? = some id) (hbase : base ≤ k) (hsize : k < base + size)
    (hend : base + size ≤ sources.size) : searchFrom sources id base size = k := by
  have hlt : ∀ {i j : Nat} {x y : ValueId}, sources[i]? = some x → sources[j]? = some y → i < j →
      x.index < y.index := by
    intro i j x y hx hy hij
    obtain ⟨hi, rfl⟩ := Array.getElem?_eq_some_iff.1 hx
    obtain ⟨hj, rfl⟩ := Array.getElem?_eq_some_iff.1 hy
    exact List.pairwise_iff_getElem.1 hsources i j hi hj hij
  fun_induction searchFrom sources id base size with
  | case1 base size hmany half middle hmiddle ih =>
    -- The place lies before the middle exactly if the identity is smaller than the one there.
    refine ih ?_ ?_ ?_
    · split
      · exact hbase
      · next hle =>
        by_contra hbefore
        exact hle (hlt hk hmiddle (by omega))
    · split
      · next hless =>
        by_contra hbeyond
        rcases Nat.lt_or_eq_of_le (show base + half ≤ k by omega) with hafter | heq
        · exact absurd (hlt hmiddle hk hafter) (by omega)
        · rw [heq, hk] at hmiddle
          cases hmiddle
          exact Nat.lt_irrefl _ hless
      · omega
    · split <;> omega
  | case2 base size hmany half hmiddle =>
    have := Array.getElem?_eq_none_iff.1 hmiddle
    omega
  | case3 base size hone => omega

/-- In a table of ascending identities a constant is found exactly at its place. -/
theorem slotOf?_eq_some_iff {t : Table}
    (h : (t.entries.map (·.source)).Pairwise fun i j => i.index < j.index) {id : ValueId}
    {k : Nat} : t.slotOf? id = some k ↔ t.source? k = some id := by
  rw [source?_eq]
  unfold slotOf?
  constructor
  · intro hfound
    dsimp only at hfound
    split at hfound
    · next hplace =>
      cases hfound
      exact hplace
    · cases hfound
  · intro hk
    have hplace : searchFrom t.sources id 0 t.sources.size = k := by
      have hsources : t.sources.toList.Pairwise fun i j => i.index < j.index := h
      have hlt := (Array.getElem?_eq_some_iff.1 hk).1
      exact searchFrom_eq hsources hk (Nat.zero_le _) (by omega) (by omega)
    simp only [hplace, hk, if_true]

/-! ### Building -/

/-- The first `slot` constants have been placed, and nothing else: a position that was given to a
constant is one where it stands. -/
structure Places (ids : List ValueId) (slot : Nat) (placed : Dict ValueId Nat) : Prop where
  sound : ∀ {part n}, placed.get? part = some n → n < slot ∧ ids[n]? = some part
  complete : ∀ {part}, part ∈ ids.take slot → (placed.get? part).isSome

/-- Before the first slot nothing has a place. -/
theorem Places.empty (ids : List ValueId) : Places ids 0 .empty where
  sound h := by
    rw [Dict.get?_empty] at h
    cases h
  complete h := by
    rw [List.take_zero] at h
    cases h

/-- One more constant is placed. -/
theorem Places.insert {ids : List ValueId} {slot : Nat} {placed : Dict ValueId Nat}
    (h : Places ids slot placed) {id : ValueId} (hid : ids[slot]? = some id) :
    Places ids (slot + 1) (placed.insert id slot) where
  sound {part n} hn := by
    rw [Dict.get?_insert] at hn
    split at hn
    · next heq =>
      cases hn
      exact ⟨Nat.lt_succ_self _, heq ▸ hid⟩
    · exact ⟨Nat.lt_succ_of_lt (h.sound hn).1, (h.sound hn).2⟩
  complete {part} hpart := by
    rw [Dict.get?_insert]
    split
    · rfl
    · next hne =>
      rw [List.take_add_one, hid, List.mem_append] at hpart
      rcases hpart with hpart | hpart
      · exact h.complete hpart
      · exact absurd (List.mem_singleton.1 hpart) hne

section Building

variable {pool : Pool} {live : Live} {ids : List ValueId} {slot : Nat} {placed : Dict ValueId Nat}

/-- A breach, at which a condition is not met. -/
abbrev BreachOf (condition : Prop) (f : Fault) : Prop := f.isFatal ∧ ¬ condition

/-- A part that is live and stands among the first constants. -/
abbrev Available (live : Live) (ids : List ValueId) (slot : Nat) (part : ValueId) : Prop :=
  live.contains part ∧ part ∈ ids.take slot

/-- A part has the position of an earlier constant, unless it is not available. -/
theorem results_slotAmong (h : Places ids slot placed) (id part : ValueId) :
    Results (BreachOf (Available live ids slot part)) (fun n => n < slot ∧ ids[n]? = some part)
      (slotAmong live placed id part) := by
  unfold slotAmong
  split
  · split
    · next n hn => exact .ok (h.sound hn)
    · next hnone =>
      refine .error ⟨rfl, fun havailable => ?_⟩
      have hsome := h.complete havailable.2
      rw [hnone] at hsome
      cases hsome
  · next hdead => exact .error ⟨rfl, fun havailable => hdead havailable.1⟩

/-- An atom becomes a part that stands for it and refers to earlier positions only. -/
theorem results_partAmong (h : Places ids slot placed) (id : ValueId) (a : Atom) :
    Results (BreachOf (∀ part, a = .ref part → Available live ids slot part))
      (fun part => (∀ n ∈ part.slots, n < slot) ∧ part.atom? (ids[·]?) = some a)
      (partAmong live placed id a) := by
  cases a with
  | scalar s => exact .ok ⟨fun _ hn => (nomatch hn), rfl⟩
  | ref part =>
    have hslot : Results (BreachOf (∀ part', Atom.ref part = .ref part' →
        Available live ids slot part')) (fun n => n < slot ∧ ids[n]? = some part)
        (slotAmong live placed id part) :=
      (results_slotAmong h id part).imp (fun f hf => ⟨hf.1, fun hall => hf.2 (hall part rfl)⟩)
        fun _ hn => hn
    refine hslot.bind fun n hn => ?_
    refine .ok ⟨fun n' hn' => ?_, ?_⟩
    · rw [List.mem_singleton.1 hn']
      exact hn.1
    · rw [TablePart.atom?, hn.2]
      rfl

/-- The positions in an entry are those of its parts and its type arguments. -/
theorem mem_slots_shape {layer : Shape TablePart Nat} {n : Nat} :
    n ∈ (TableValue.shape layer).slots ↔
      (∃ part ∈ layer.partList, n ∈ part.slots) ∨ n ∈ layer.argList := by
  rw [TableValue.slots, Shape.mem_parts]
  simp

/-- The entry of a constant stands for its value and refers to earlier positions only. -/
theorem results_encode (h : Places ids slot placed) (id : ValueId) (value : Value) :
    Results (BreachOf (∀ part ∈ value.children, Available live ids slot part))
      (fun content => (∀ n ∈ content.slots, n < slot) ∧ content.decode? (ids[·]?) = some value)
      (encode live placed id value) := by
  cases value with
  | scalar s => exact .ok ⟨fun _ hn => (nomatch hn), rfl⟩
  | shape layer =>
    have hatom : ∀ a ∈ layer.partList,
        Results (BreachOf (∀ part ∈ (Value.shape layer).children, Available live ids slot part))
          (fun part => (∀ n ∈ part.slots, n < slot) ∧ part.atom? (ids[·]?) = some a)
          (partAmong live placed id a) := fun a ha =>
      (results_partAmong h id a).imp (fun f hf => ⟨hf.1, fun hall => hf.2 fun part hpart =>
        hall part (Value.mem_children_shape.2 (.inl (hpart ▸ ha)))⟩) fun _ hpart => hpart
    have harg : ∀ part ∈ layer.argList,
        Results (BreachOf (∀ part ∈ (Value.shape layer).children, Available live ids slot part))
          (fun n => n < slot ∧ ids[n]? = some part) (slotAmong live placed id part) :=
      fun part hpart => (results_slotAmong h id part).imp (fun f hf => ⟨hf.1, fun hall =>
        hf.2 (hall part (Value.mem_children_shape.2 (.inr hpart)))⟩) fun _ hn => hn
    have hlayer := Shape.results_traverseParts hatom harg
    refine hlayer.bind fun layer' hrel => .ok ⟨fun n hn => ?_, ?_⟩
    · rcases mem_slots_shape.1 hn with ⟨part, hpart, hn⟩ | hn
      · obtain ⟨a, -, ha⟩ := exists_of_forall₂ hrel.flip.partList hpart
        exact ha.1 n hn
      · obtain ⟨arg, -, harg⟩ := exists_of_forall₂ hrel.flip.argList hn
        exact harg.1
    · have hback := hrel.flip.imp (fun _ _ ha => ha.2) fun _ _ harg => harg.2
      rw [TableValue.decode?, hback.traverseParts]
      rfl

/-- Every constant is in the pool, and its parts are available when its turn comes. -/
def Buildable (pool : Pool) (live : Live) (ids : List ValueId) : Prop :=
  ∀ k id, ids[k]? = some id →
    ∃ value, pool.get? id = some value ∧ ∀ part ∈ value.children, Available live ids k part

/-- A part of what an entry stands for comes from a position that the entry refers to. -/
theorem exists_slot_of_child {source? : Nat → Option ValueId} {content : TableValue} {value : Value}
    (h : content.decode? source? = some value) {part : ValueId} (hpart : part ∈ value.children) :
    ∃ n ∈ content.slots, source? n = some part := by
  cases content with
  | scalar s =>
    cases h
    cases hpart
  | shape layer =>
    obtain ⟨l, hlayer, rfl⟩ := Option.map_eq_some_iff.1 h
    have hrel := (Shape.rel_of_traverseParts hlayer).flip
    rcases Value.mem_children_shape.1 hpart with hpart | hpart
    · obtain ⟨x, hx, hatom⟩ := exists_of_forall₂ hrel.partList hpart
      cases x with
      | scalar s => cases hatom
      | entry n =>
        obtain ⟨id, hid, heq⟩ := Option.map_eq_some_iff.1 hatom
        cases heq
        exact ⟨n, mem_slots_shape.2 (.inl ⟨_, hx, List.mem_singleton_self n⟩), hid⟩
    · obtain ⟨n, hn, hid⟩ := exists_of_forall₂ hrel.argList hpart
      exact ⟨n, mem_slots_shape.2 (.inr hn), hid⟩

/-- What has a table could be built into one. -/
theorem Encodes.buildable {t : Table} (h : t.Encodes pool ids) (hlive : ∀ id ∈ ids, live.contains id) :
    Buildable pool live ids := by
  have hsource : ∀ n, t.source? n = ids[n]? := by
    intro n
    rw [← h.sources, List.getElem?_map]
    rfl
  intro k id hk
  rw [← hsource] at hk
  obtain ⟨e, he, rfl⟩ := Option.map_eq_some_iff.1 hk
  obtain ⟨hknown, hdecode⟩ := h.decode (List.mem_of_getElem? he)
  obtain ⟨value, hvalue⟩ := Option.isSome_iff_exists.1 hknown
  refine ⟨value, hvalue, fun part hpart => ?_⟩
  obtain ⟨n, hn, hid⟩ := exists_slot_of_child (hdecode.trans hvalue) hpart
  rw [hsource] at hid
  obtain ⟨hlen, rfl⟩ := List.getElem?_eq_some_iff.1 hid
  exact ⟨hlive _ (List.getElem_mem hlen),
    List.mem_take_iff_getElem.2 ⟨n, Nat.lt_min.2 ⟨h.earlier he n hn, hlen⟩, rfl⟩⟩

/-- What is known about an entry at a position of the table of certain constants. -/
structure EntryAt (pool : Pool) (ids : List ValueId) (k : Nat) (e : TableEntry) : Prop where
  slot : e.slot = k
  earlier : ∀ n ∈ e.value.slots, n < k
  known : (pool.get? e.source).isSome
  decode : e.value.decode? (ids[·]?) = pool.get? e.source

/-- The entries of constants that follow on others. -/
theorem results_entriesFrom {done rest : List ValueId} (hids : ids = done ++ rest)
    (h : Places ids done.length placed) :
    Results (BreachOf (Buildable pool live ids)) (fun es => es.map (·.source) = rest ∧
        ∀ e ∈ es.zipIdx done.length, EntryAt pool ids e.2 e.1)
      (entriesFrom pool live done.length placed rest) := by
  induction rest generalizing done placed with
  | nil => exact .ok ⟨rfl, fun _ he => nomatch he⟩
  | cons id rest ih =>
    have hid : ids[done.length]? = some id := by
      rw [hids, List.getElem?_append_right (Nat.le_refl _), Nat.sub_self, List.getElem?_cons_zero]
    have hget : Results (BreachOf (Buildable pool live ids))
        (fun value => pool.get? id = some value) (pool.get id) := by
      rw [Pool.get]
      split
      · next value hvalue => exact .ok hvalue
      · next hnone =>
        refine .error ⟨rfl, fun hbuildable => ?_⟩
        obtain ⟨value, hvalue, -⟩ := hbuildable _ _ hid
        cases hnone.symm.trans hvalue
    rw [entriesFrom]
    refine hget.bind fun value hvalue => ?_
    have hencode : Results (BreachOf (Buildable pool live ids))
        (fun content => (∀ n ∈ content.slots, n < done.length) ∧
          content.decode? (ids[·]?) = some value) (encode live placed id value) := by
      refine (results_encode h id value).imp (fun f hf => ⟨hf.1, fun hbuildable => hf.2 ?_⟩)
        fun _ hcontent => hcontent
      obtain ⟨value', hvalue', hparts⟩ := hbuildable _ _ hid
      cases hvalue.symm.trans hvalue'
      exact hparts
    refine hencode.bind fun content hcontent => ?_
    -- the constant has a position now, to which the entries after it may refer
    have hlater : Places ids (done ++ [id]).length (placed.insert id done.length) := by
      rw [List.length_append, List.length_singleton]
      exact h.insert hid
    have hrest := ih (by simp [hids]) hlater
    rw [List.length_append, List.length_singleton] at hrest
    refine hrest.bind fun es hes => .ok ⟨?_, ?_⟩
    · rw [List.map_cons, hes.1]
    · rw [List.zipIdx_cons]
      refine List.forall_mem_cons.2 ⟨⟨rfl, hcontent.1, ?_, ?_⟩, hes.2⟩
      · rw [hvalue]
        rfl
      · rw [hvalue]
        exact hcontent.2

/-- A table of ascending constants says what the pool says. It is not built only if a part of a
constant is not available. -/
theorem results_build (hids : ids.Pairwise fun i j => i.index < j.index) :
    Results (BreachOf (Buildable pool live ids)) (fun t => t.Encodes pool ids)
      (build pool live ids) := by
  have hnone : ids = [] ++ ids := rfl
  refine (results_entriesFrom hnone (.empty ids)).bind fun es hes => .ok ?_
  obtain ⟨hsources, hentries⟩ := hes
  have hsource : Table.source? ⟨es⟩ = fun n => ids[n]? := by
    funext n
    rw [source?_eq, Table.sources, hsources, List.getElem?_toArray]
  have hat : ∀ {k e}, es[k]? = some e → EntryAt pool ids k e := fun {k e} hk =>
    hentries (e, k) (List.mem_zipIdx_iff_getElem?.2 hk)
  refine ⟨hsources, hids, fun hk => (hat hk).slot, fun hk => (hat hk).earlier, fun he => ?_,
    slotOf?_eq_some_iff (hsources ▸ hids)⟩
  obtain ⟨k, hk⟩ := List.mem_iff_getElem?.1 he
  rw [hsource]
  exact ⟨(hat hk).known, (hat hk).decode⟩

end Building

end Table

end ConstPool
