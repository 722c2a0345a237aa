import ConstPool.Proofs.Graph.Walk
import ConstPool.Proofs.OrderedMap
import ConstPool.Proofs.Table.Encoding
import ConstPool.Table.Select

/-!
# What a selection says

A selection either keeps the live constants and writes them into a table that says what the pool
says about them, or it ends with a breach. That is so for every pool, for uses that have nothing to
do with the pool, and for any outcomes.

Which constants are live is computed by a walk in levels over the recorded uses. What it finds is
said here without the walk: a constant is needed if a retained site that came to a constant uses it,
or if a needed constant does. The site must have come to some constant, but what it uses is read
from the records alone, so a site may need constants that are no part of its result, and its result
may not be needed at all. These are the cases that end with a breach, together with those where the
records lead out of the pool or do not have every part of a needed constant. In all others there is
a selection, and it holds the needed constants and no others.

* `get?_resultsOf`: the results of the retained sites.
* `Uses.Demands`, `contains_liveOf_iff`: what the retained sites need is what is live.
* `Selected`, `Selectable`: what a selection is, and where there is one.
* `results_select`: a selection ends with a breach only where there is none.
* `Uses.Suffice`, `selectable_iff`: where there is one, in terms of what is needed.
* `select_encodes`: the table of a selection.
-/

namespace ConstPool

open Relation

variable {pool : Pool} {uses : Uses} {outcomes : OrderedMap SiteId Outcome}
  {retained : List SiteId} {live : Live}

/-! ### The results of the retained sites -/

/-- One more retained site. -/
theorem resultsOf_append (outcomes : OrderedMap SiteId Outcome) (retained : List SiteId)
    (site : SiteId) : resultsOf outcomes (retained ++ [site]) =
      match outcomes.get? site with
      | some (.ok id) => (resultsOf outcomes retained).insert site id
      | _ => resultsOf outcomes retained := by
  rw [resultsOf, List.foldl_append, ← resultsOf]
  rfl

/-- A site has a result exactly if it is retained and came to a constant. -/
theorem get?_resultsOf {site : SiteId} {id : ValueId} :
    (resultsOf outcomes retained).get? site = some id ↔
      site ∈ retained ∧ outcomes.get? site = some (.ok id) := by
  induction retained using List.reverseRecOn with
  | nil => simp [resultsOf]
  | append_singleton retained last ih =>
    rw [resultsOf_append, List.mem_append, List.mem_singleton]
    split
    · next value hvalue =>
      rw [OrderedMap.get?_insert]
      split
      · next heq => simp [heq, hvalue]
      · next hne => simp [ih, hne]
    · next hnone =>
      rw [ih]
      refine ⟨fun h => ⟨.inl h.1, h.2⟩, ?_⟩
      rintro ⟨hmem | rfl, hok⟩
      · exact ⟨hmem, hok⟩
      · exact absurd hok (hnone id)

/-- A site that is retained several times has one result. -/
theorem nodup_keys_resultsOf (outcomes : OrderedMap SiteId Outcome) (retained : List SiteId) :
    (resultsOf outcomes retained).keys.Nodup := by
  induction retained using List.reverseRecOn with
  | nil => exact .nil
  | append_singleton retained last ih =>
    rw [resultsOf_append]
    split
    · exact OrderedMap.nodup_keys_insert ih _ _
    · exact ih

/-- The results are those of the retained sites that have one. -/
theorem mem_entries_resultsOf {e : SiteId × ValueId} :
    e ∈ (resultsOf outcomes retained).entries ↔
      e.1 ∈ retained ∧ outcomes.get? e.1 = some (.ok e.2) := by
  rw [← get?_resultsOf]
  exact ⟨OrderedMap.get?_of_mem_entries (nodup_keys_resultsOf outcomes retained),
    OrderedMap.mem_entries_of_get?⟩

/-! ### What is live -/

/-- What the results of the retained sites need, according to the uses. -/
def liveOf (uses : Uses) (outcomes : OrderedMap SiteId Outcome) (retained : List SiteId) : Live :=
  uses.live (uses.rootsOf (resultsOf outcomes retained).keys)

/-- A constant is needed: a retained site that came to some constant uses it, or another needed
constant does. -/
def Uses.Demands (uses : Uses) (outcomes : OrderedMap SiteId Outcome) (retained : List SiteId)
    (id : ValueId) : Prop :=
  ∃ site ∈ retained, (∃ result, outcomes.get? site = some (.ok result)) ∧
    ∃ root, (.site site, root) ∈ uses.edges.items ∧
      ReflTransGen (fun user part => (.value user, part) ∈ uses.edges.items) root id

/-- A root is what a retained site uses. -/
theorem mem_rootsOf_resultsOf {root : ValueId} :
    root ∈ uses.rootsOf (resultsOf outcomes retained).keys ↔
      ∃ site ∈ retained, (∃ id, outcomes.get? site = some (.ok id)) ∧
        (.site site, root) ∈ uses.edges.items := by
  rw [Uses.rootsOf, Graph.mem_distinct, List.mem_flatMap]
  simp only [Uses.mem_targets, ← OrderedMap.get?_isSome_iff, Option.isSome_iff_exists,
    get?_resultsOf]
  constructor
  · rintro ⟨site, ⟨id, hretained, hok⟩, hedge⟩
    exact ⟨site, hretained, ⟨id, hok⟩, hedge⟩
  · rintro ⟨site, hretained, ⟨id, hok⟩, hedge⟩
    exact ⟨site, ⟨id, hretained, hok⟩, hedge⟩

/-- What is live is what is needed. -/
theorem contains_liveOf_iff {id : ValueId} :
    (liveOf uses outcomes retained).contains id ↔ uses.Demands outcomes retained id := by
  have hleads : Graph.Leads (fun id => uses.targets (.value id)) =
      fun user part => (.value user, part) ∈ uses.edges.items := by
    funext user part
    exact propext Uses.mem_targets
  have hmem : ∀ {user id}, (user, id) ∈ uses.edges.items →
      id ∈ uses.edges.toList.map Prod.snd := fun hedge =>
    List.mem_map_of_mem (OrderedSet.mem_toList.2 hedge)
  have hroots : uses.rootsOf (resultsOf outcomes retained).keys ⊆
      uses.edges.toList.map Prod.snd := by
    intro root hroot
    obtain ⟨site, -, -, hedge⟩ := mem_rootsOf_resultsOf.1 hroot
    exact hmem hedge
  have hnext : ∀ user ∈ uses.edges.toList.map Prod.snd,
      uses.targets (.value user) ⊆ uses.edges.toList.map Prod.snd :=
    fun user _ part hpart => hmem (Uses.mem_targets.1 hpart)
  -- the walk may go through as many levels as there are uses, and every vertex is the target of one
  have hlevels : (uses.edges.toList.map Prod.snd).length ≤ uses.edges.size := by
    rw [List.length_map]
    exact Nat.le_refl _
  refine (Graph.contains_walk hroots hnext hlevels id).trans ?_
  rw [hleads]
  constructor
  · rintro ⟨root, hroot, hreach⟩
    obtain ⟨site, hretained, hok, hedge⟩ := mem_rootsOf_resultsOf.1 hroot
    exact ⟨site, hretained, hok, root, hedge, hreach⟩
  · rintro ⟨site, hretained, hok, root, hedge, hreach⟩
    exact ⟨root, mem_rootsOf_resultsOf.2 ⟨site, hretained, hok, hedge⟩, hreach⟩

/-! ### The two checks -/

/-- No result is missed exactly if all results are live. -/
theorem unrecorded?_eq_none_iff {results : OrderedMap SiteId ValueId} :
    unrecorded? live results = none ↔ ∀ e ∈ results.entries, live.contains e.2 := by
  simp [unrecorded?, List.find?_eq_none]

/-- What is live is what the walk has met. -/
theorem Live.contains_iff {id : ValueId} : live.contains id ↔ id ∈ live.walk.vertices :=
  Graph.Walk.contains_iff

/-- Nothing live is outside of the pool exactly if all of it has an identity there. -/
theorem outside?_eq_none_iff :
    outside? pool live = none ↔ ∀ id, live.contains id → id.index < pool.size := by
  have hmem : ∀ id, live.contains id ↔ id ∈ live.distances.map Prod.fst :=
    fun _ => Live.contains_iff
  unfold outside?
  split
  · next greatest hmax =>
    obtain ⟨hin, hle⟩ := List.max?_eq_some_iff.1 hmax
    obtain ⟨e, he, rfl⟩ := List.mem_map.1 hin
    rw [ite_eq_right_iff]
    constructor
    · intro hsize id hid
      obtain ⟨e', he', rfl⟩ := List.mem_map.1 ((hmem id).1 hid)
      have := hle _ (List.mem_map_of_mem he')
      by_contra hlt
      cases hsize (by omega)
    · intro hall hsize
      have := hall e.1 ((hmem _).2 (List.mem_map_of_mem he))
      omega
  · next hnone =>
    refine ⟨fun _ id hid => ?_, fun _ => rfl⟩
    rw [hmem, List.map_eq_nil_iff.1 (List.max?_eq_none_iff.1 hnone)] at hid
    cases hid

/-! ### Selections -/

/-- The identities of a pool, ascending. -/
def Pool.ids (pool : Pool) : List ValueId := (List.range pool.size).map ValueId.mk

/-- The identities of a pool are those below its size. -/
theorem Pool.mem_ids {id : ValueId} : id ∈ pool.ids ↔ id.index < pool.size := by
  constructor
  · intro h
    obtain ⟨n, hn, rfl⟩ := List.mem_map.1 h
    exact List.mem_range.1 hn
  · intro h
    exact List.mem_map.2 ⟨id.index, List.mem_range.2 h, rfl⟩

/-- They are listed in ascending order. -/
theorem Pool.pairwise_ids (pool : Pool) : pool.ids.Pairwise fun i j => i.index < j.index :=
  List.pairwise_map.2 List.pairwise_lt_range

/-- Where there is a selection: every result is live, what is live lies in the pool, and the live
constants can be written one after another. -/
structure Selectable (pool : Pool) (uses : Uses) (outcomes : OrderedMap SiteId Outcome)
    (retained : List SiteId) : Prop where
  recorded : ∀ e ∈ (resultsOf outcomes retained).entries,
    (liveOf uses outcomes retained).contains e.2
  inside : ∀ id, (liveOf uses outcomes retained).contains id → id.index < pool.size
  buildable : Table.Buildable pool (liveOf uses outcomes retained)
    (pool.ids.filter (liveOf uses outcomes retained).contains)

/-- What a selection is. -/
structure Selected (pool : Pool) (uses : Uses) (outcomes : OrderedMap SiteId Outcome)
    (retained : List SiteId) (sel : Selection) : Prop where
  selectable : Selectable pool uses outcomes retained
  results : sel.results = resultsOf outcomes retained
  kept : sel.kept = pool.ids.filter (liveOf uses outcomes retained).contains
  dropped : sel.dropped = pool.ids.filter fun id => !(liveOf uses outcomes retained).contains id
  build : Table.build pool (liveOf uses outcomes retained) sel.kept = .ok sel.table
  encodes : sel.table.Encodes pool sel.kept
  stats : sel.stats =
    { total := pool.size
      kept := sel.kept.length
      dropped := sel.dropped.length
      retainedSites := retained.length
      roots := (uses.rootsOf (resultsOf outcomes retained).keys).length
      uses := uses.edges.size
      maxDepth := (liveOf uses outcomes retained).maxDepth? }

/-- There is a selection, or the work ends with a breach. -/
theorem results_select (pool : Pool) (uses : Uses) (outcomes : OrderedMap SiteId Outcome)
    (retained : List SiteId) :
    Results (Table.BreachOf (Selectable pool uses outcomes retained))
      (Selected pool uses outcomes retained) (select pool uses outcomes retained) := by
  have hpairwise := pool.pairwise_ids.filter (liveOf uses outcomes retained).contains
  have hlive : uses.live (uses.rootsOf (resultsOf outcomes retained).keys) =
    liveOf uses outcomes retained := rfl
  have hids : (List.range pool.size).map ValueId.mk = pool.ids := rfl
  simp only [select, hlive, hids]
  rcases hrecorded : unrecorded? (liveOf uses outcomes retained) (resultsOf outcomes retained)
    with _ | ⟨site, id⟩
  · rcases hinside : outside? pool (liveOf uses outcomes retained) with _ | id
    · rw [unrecorded?_eq_none_iff] at hrecorded
      rw [outside?_eq_none_iff] at hinside
      -- with the results recorded and every live constant in the pool, what may still fail is the
      -- table
      have hbuild : Results (Table.BreachOf (Selectable pool uses outcomes retained))
          (fun t => Table.build pool (liveOf uses outcomes retained)
              (pool.ids.filter (liveOf uses outcomes retained).contains) = .ok t ∧
            t.Encodes pool (pool.ids.filter (liveOf uses outcomes retained).contains))
          (Table.build pool (liveOf uses outcomes retained)
            (pool.ids.filter (liveOf uses outcomes retained).contains)) := by
        refine (Table.results_build hpairwise).with_eq.imp
          (fun f hf => ⟨hf.1, fun h => hf.2 h.buildable⟩) fun t ht => ht
      refine hbuild.bind fun t ht => ?_
      have hbuildable := ht.2.buildable fun id hid => (List.mem_filter.1 hid).2
      exact .ok ⟨⟨hrecorded, hinside, hbuildable⟩, rfl, rfl, rfl, ht.1, ht.2, rfl⟩
    · refine .error ⟨rfl, fun h => ?_⟩
      rw [outside?_eq_none_iff.2 h.inside] at hinside
      cases hinside
  · refine .error ⟨rfl, fun h => ?_⟩
    rw [unrecorded?_eq_none_iff.2 h.recorded] at hrecorded
    cases hrecorded

namespace Selected

variable {sel : Selection} (h : Selected pool uses outcomes retained sel)

include h

/-- What is kept is what is live. -/
theorem mem_kept {id : ValueId} :
    id ∈ sel.kept ↔ (liveOf uses outcomes retained).contains id := by
  rw [h.kept, List.mem_filter, Pool.mem_ids]
  exact ⟨fun hid => hid.2, fun hid => ⟨h.selectable.inside id hid, hid⟩⟩

/-- The constant of a retained site is kept. -/
theorem mem_kept_of_result {site : SiteId} {id : ValueId} (hid : sel.results.get? site = some id) :
    id ∈ sel.kept := by
  rw [h.results] at hid
  exact h.mem_kept.2 (h.selectable.recorded _ (OrderedMap.mem_entries_of_get? hid))

end Selected

/-! ### Where there is a selection -/

/-- A constant of a pool has another one for a part. -/
def Pool.HasPart (pool : Pool) (id part : ValueId) : Prop :=
  ∃ value, pool.get? id = some value ∧ part ∈ value.children

/-- The recorded uses suffice for a selection: the result of every retained site is needed, and of a
needed constant the pool has the value, whose parts are needed and come before it. -/
structure Uses.Suffice (uses : Uses) (pool : Pool) (outcomes : OrderedMap SiteId Outcome)
    (retained : List SiteId) : Prop where
  results : ∀ {site id}, site ∈ retained → outcomes.get? site = some (.ok id) →
    uses.Demands outcomes retained id
  known : ∀ {id}, uses.Demands outcomes retained id → id.index < pool.size
  parts : ∀ {id part}, uses.Demands outcomes retained id → pool.HasPart id part →
    uses.Demands outcomes retained part ∧ part.index < id.index

/-- In an ascending list what stands before a place are the smaller members. -/
theorem mem_take_iff_lt {ids : List ValueId} (h : ids.Pairwise fun i j => i.index < j.index)
    {k : Nat} {id part : ValueId} (hk : ids[k]? = some id) :
    part ∈ ids.take k ↔ part ∈ ids ∧ part.index < id.index := by
  obtain ⟨hlen, rfl⟩ := List.getElem?_eq_some_iff.1 hk
  constructor
  · intro hpart
    obtain ⟨n, hn, rfl⟩ := List.mem_take_iff_getElem.1 hpart
    exact ⟨List.getElem_mem _, List.pairwise_iff_getElem.1 h n k (by omega) hlen (by omega)⟩
  · rintro ⟨hpart, hlt⟩
    obtain ⟨n, hn, rfl⟩ := List.mem_iff_getElem.1 hpart
    refine List.mem_take_iff_getElem.2 ⟨n, ?_, rfl⟩
    rcases Nat.lt_trichotomy n k with hbefore | rfl | hafter
    · omega
    · exact absurd hlt (Nat.lt_irrefl _)
    · exact absurd (List.pairwise_iff_getElem.1 h k n hlen hn hafter) (Nat.lt_asymm hlt)

/-- There is a selection exactly where the uses suffice for one. -/
theorem selectable_iff :
    Selectable pool uses outcomes retained ↔ uses.Suffice pool outcomes retained := by
  have hkept : ∀ {id}, (∀ id, (liveOf uses outcomes retained).contains id → id.index < pool.size) →
      (id ∈ pool.ids.filter (liveOf uses outcomes retained).contains ↔
        uses.Demands outcomes retained id) := by
    intro id hinside
    rw [List.mem_filter, Pool.mem_ids, contains_liveOf_iff]
    exact ⟨fun h => h.2, fun h => ⟨hinside id (contains_liveOf_iff.2 h), h⟩⟩
  have hascending := pool.pairwise_ids.filter (liveOf uses outcomes retained).contains
  constructor
  · intro h
    refine ⟨fun {site id} hretained hok => ?_, fun hid => h.inside _ (contains_liveOf_iff.2 hid),
      fun {id part} hid hpart => ?_⟩
    · exact contains_liveOf_iff.1
        (h.recorded (site, id) (mem_entries_resultsOf.2 ⟨hretained, hok⟩))
    · obtain ⟨k, hk⟩ := List.mem_iff_getElem?.1 ((hkept h.inside).2 hid)
      obtain ⟨value, hvalue, hchild⟩ := hpart
      obtain ⟨value', hvalue', hparts⟩ := h.buildable k id hk
      cases hvalue.symm.trans hvalue'
      obtain ⟨hlive, htake⟩ := hparts part hchild
      exact ⟨contains_liveOf_iff.1 hlive, ((mem_take_iff_lt hascending hk).1 htake).2⟩
  · intro h
    have hinside : ∀ id, (liveOf uses outcomes retained).contains id → id.index < pool.size :=
      fun id hid => h.known (contains_liveOf_iff.1 hid)
    refine ⟨fun e he => ?_, hinside, fun k id hk => ?_⟩
    · obtain ⟨hretained, hok⟩ := mem_entries_resultsOf.1 he
      exact contains_liveOf_iff.2 (h.results hretained hok)
    · have hid := (hkept hinside).1 (List.mem_of_getElem? hk)
      obtain ⟨value, hvalue⟩ := Option.isSome_iff_exists.1 (Pool.get?_isSome_iff.2 (h.known hid))
      refine ⟨value, hvalue, fun part hpart => ?_⟩
      obtain ⟨hneeds, hlt⟩ := h.parts hid ⟨value, hvalue, hpart⟩
      exact ⟨contains_liveOf_iff.2 hneeds,
        (mem_take_iff_lt hascending hk).2 ⟨(hkept hinside).2 hneeds, hlt⟩⟩

/-- A selection keeps the constants that the retained sites need, and drops the rest of the pool.
Its results are those of the retained sites. Its table says what the pool says about the constants
that are kept, and every site that has a result finds its constant there. There is a selection
exactly where the uses suffice for one; where they do not, the work ends with a breach. -/
theorem select_encodes (pool : Pool) (uses : Uses) (outcomes : OrderedMap SiteId Outcome)
    (retained : List SiteId) :
    Results (fun f => f.isFatal = true ∧ ¬ uses.Suffice pool outcomes retained)
      (fun sel => uses.Suffice pool outcomes retained ∧
        (∀ id, id ∈ sel.kept ↔ uses.Demands outcomes retained id) ∧
        (∀ id, id ∈ sel.dropped ↔ id.index < pool.size ∧ ¬ uses.Demands outcomes retained id) ∧
        (∀ site id, sel.results.get? site = some id ↔
          site ∈ retained ∧ outcomes.get? site = some (.ok id)) ∧
        sel.table.Encodes pool sel.kept ∧
        ∀ site id, sel.results.get? site = some id → outcomes.get? site = some (.ok id) ∧
          ∃ k e, sel.slotFor? site = some k ∧ sel.table.entries[k]? = some e ∧ e.source = id ∧
            (pool.get? id).isSome ∧ e.value.decode? sel.table.source? = pool.get? id)
      (select pool uses outcomes retained) := by
  refine (results_select pool uses outcomes retained).imp
    (fun f hf => ⟨hf.1, fun h => hf.2 (selectable_iff.2 h)⟩) fun sel h => ?_
  have hkept : ∀ id, id ∈ sel.kept ↔ uses.Demands outcomes retained id :=
    fun id => h.mem_kept.trans contains_liveOf_iff
  have hdropped : ∀ id, id ∈ sel.dropped ↔
      id.index < pool.size ∧ ¬ uses.Demands outcomes retained id := by
    intro id
    rw [h.dropped, List.mem_filter, Pool.mem_ids, Bool.not_eq_true', ← Bool.not_eq_true,
      contains_liveOf_iff]
  have hresults : ∀ site id, sel.results.get? site = some id ↔
      site ∈ retained ∧ outcomes.get? site = some (.ok id) := by
    intro site id
    rw [h.results, get?_resultsOf]
  refine ⟨selectable_iff.1 h.selectable, hkept, hdropped, hresults, h.encodes,
    fun site id hid => ⟨((hresults site id).1 hid).2, ?_⟩⟩
  have hmem := h.mem_kept_of_result hid
  rw [← h.encodes.sources] at hmem
  obtain ⟨k, hk⟩ := List.mem_iff_getElem?.1 hmem
  have hslot : sel.slotFor? site = some k := by
    rw [Selection.slotFor?, hid]
    refine h.encodes.slotOf.2 ?_
    rw [Table.source?, ← List.getElem?_map]
    exact hk
  rw [List.getElem?_map] at hk
  obtain ⟨e, he, rfl⟩ := Option.map_eq_some_iff.1 hk
  have hdecode := h.encodes.decode (List.mem_of_getElem? he)
  exact ⟨k, e, hslot, he, rfl, hdecode.1, hdecode.2⟩

end ConstPool
