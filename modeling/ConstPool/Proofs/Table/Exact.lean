import ConstPool.Proofs.Table.Select

/-!
# A selection keeps what is needed

Where the recorded uses are those of the constants in the pool, a selection keeps exactly what can
be reached from the results of the retained sites by going from a constant to its parts. It then
never ends with a breach. Which sites are retained is all that matters: neither their order nor a
site that is given twice makes a difference.

The roots are found from the sites, and what is reached from them by uses is what is reached by
parts, as the uses trace the pool. Selections for the same sites in another order keep the same
constants and have the same table and the same results. A site that is given twice counts twice
among the retained sites, and this is all that can differ.

* `Uses.Traces`: uses that are those of a pool.
* `Uses.Traces.selectable`: there is a selection.
* `Selection.Exact`: what a selection keeps.
* `Selected.alike`: the selections for the same sites.
-/

namespace ConstPool

open Relation

/-- The recorded uses are those of the constants in a pool, and a site uses what it came to. -/
structure Uses.Traces (uses : Uses) (pool : Pool) (cameTo : SiteId → ValueId → Prop) : Prop where
  parts : ∀ {id part}, (.value id, part) ∈ uses.edges.items ↔ pool.HasPart id part
  results : ∀ {site id}, (.site site, id) ∈ uses.edges.items ↔ cameTo site id

variable {pool : Pool} {uses : Uses} {outcomes : OrderedMap SiteId Outcome}
  {retained retained' : List SiteId}

/-! ### What is live -/

namespace Uses.Traces

variable (h : uses.Traces pool fun site id => outcomes.get? site = some (.ok id))

include h

/-- A constant is needed exactly if it is a part of a result, of a part of a result, and so on. -/
theorem demands_iff {id : ValueId} :
    uses.Demands outcomes retained id ↔
      ∃ site ∈ retained, ∃ root, outcomes.get? site = some (.ok root) ∧
        ReflTransGen pool.HasPart root id := by
  have hsteps : (fun user part => (User.value user, part) ∈ uses.edges.items) = pool.HasPart := by
    funext user part
    exact propext h.parts
  rw [Uses.Demands, hsteps]
  constructor
  · rintro ⟨site, hretained, -, root, hedge, hreach⟩
    exact ⟨site, hretained, root, h.results.1 hedge, hreach⟩
  · rintro ⟨site, hretained, root, hok, hreach⟩
    exact ⟨site, hretained, ⟨root, hok⟩, root, h.results.2 hok, hreach⟩

/-- A constant is live exactly if it is a part of a result, of a part of a result, and so on. -/
theorem contains_liveOf_iff {id : ValueId} :
    (liveOf uses outcomes retained).contains id ↔
      ∃ site ∈ retained, ∃ root, outcomes.get? site = some (.ok root) ∧
        ReflTransGen pool.HasPart root id :=
  ConstPool.contains_liveOf_iff.trans h.demands_iff

/-- What is needed lies in the pool. -/
theorem lt_size_of_needs (hsound : pool.Sound)
    (hknown : ∀ {site id}, outcomes.get? site = some (.ok id) → id.index < pool.size) {id : ValueId}
    (hid : uses.Demands outcomes retained id) : id.index < pool.size := by
  obtain ⟨site, -, root, hok, hreach⟩ := h.demands_iff.1 hid
  clear hid
  induction hreach with
  | refl => exact hknown hok
  | tail _ hpart ih =>
    obtain ⟨value, hvalue, hchild⟩ := hpart
    have := hsound.smaller hvalue _ hchild
    omega

/-- There is a selection for any sites. -/
theorem selectable (hsound : pool.Sound)
    (hknown : ∀ {site id}, outcomes.get? site = some (.ok id) → id.index < pool.size)
    (retained : List SiteId) : Selectable pool uses outcomes retained := by
  refine selectable_iff.2 ⟨fun {site id} hretained hok => ?_, h.lt_size_of_needs hsound hknown,
    fun {id part} hid hpart => ⟨?_, ?_⟩⟩
  · exact h.demands_iff.2 ⟨site, hretained, id, hok, .refl⟩
  · obtain ⟨site, hretained, root, hok, hreach⟩ := h.demands_iff.1 hid
    exact h.demands_iff.2 ⟨site, hretained, root, hok, hreach.tail hpart⟩
  · obtain ⟨value, hvalue, hchild⟩ := hpart
    exact hsound.smaller hvalue part hchild

end Uses.Traces

/-! ### What is selected -/

/-- The selection that there is. -/
theorem Selectable.exists_selected (h : Selectable pool uses outcomes retained) :
    ∃ sel, select pool uses outcomes retained = .ok sel ∧
      Selected pool uses outcomes retained sel := by
  have hresult := results_select pool uses outcomes retained
  generalize select pool uses outcomes retained = r at hresult ⊢
  cases hresult with
  | ok hsel => exact ⟨_, rfl, hsel⟩
  | error hf => exact absurd h hf.2

/-- A selection that keeps exactly the constants that the results of the retained sites need, and
drops the rest of the pool. -/
structure Selection.Exact (sel : Selection) (pool : Pool) (outcomes : OrderedMap SiteId Outcome)
    (retained : List SiteId) : Prop where
  /-- Each retained site that came to a constant has it, once, and no other site has one. -/
  results : ∀ site id, (site, id) ∈ sel.results.entries ↔
    site ∈ retained ∧ outcomes.get? site = some (.ok id)
  once : sel.results.keys.Nodup
  kept : ∀ id, id ∈ sel.kept ↔ ∃ site ∈ retained, ∃ root,
    outcomes.get? site = some (.ok root) ∧ ReflTransGen pool.HasPart root id
  dropped : ∀ id, id ∈ sel.dropped ↔ id.index < pool.size ∧ id ∉ sel.kept
  ascending : sel.kept.Pairwise (fun i j => i.index < j.index) ∧
    sel.dropped.Pairwise fun i j => i.index < j.index
  counts : sel.stats.kept = sel.kept.length ∧ sel.stats.dropped = sel.dropped.length ∧
    sel.stats.total = pool.size ∧ sel.stats.kept + sel.stats.dropped = sel.stats.total

namespace Selected

variable {sel sel' : Selection}

/-- If the uses are those that the pool and the outcomes call for, the selection is exact. -/
theorem exact (h : Selected pool uses outcomes retained sel)
    (htraces : uses.Traces pool fun site id => outcomes.get? site = some (.ok id)) :
    sel.Exact pool outcomes retained where
  results site id := by rw [h.results, mem_entries_resultsOf]
  once := by
    rw [h.results]
    exact nodup_keys_resultsOf outcomes retained
  kept id := h.mem_kept.trans htraces.contains_liveOf_iff
  dropped id := by
    rw [h.mem_kept, h.dropped, List.mem_filter, Pool.mem_ids, Bool.not_eq_true', Bool.not_eq_true]
  ascending := by
    rw [h.kept, h.dropped]
    exact ⟨pool.pairwise_ids.filter _, pool.pairwise_ids.filter _⟩
  counts := by
    have htotal : pool.ids.length = pool.size := by simp [Pool.ids]
    rw [h.stats]
    refine ⟨rfl, rfl, rfl, ?_⟩
    rw [h.kept, h.dropped]
    exact (List.length_eq_length_filter_add _).symm.trans htotal

end Selected

/-! ### The same sites -/

/-- Selections that differ in the order of the results and in the number of sites that were given
at most. -/
structure Selection.Alike (sel sel' : Selection) : Prop where
  kept : sel'.kept = sel.kept
  dropped : sel'.dropped = sel.dropped
  table : sel'.table = sel.table
  results : ∀ site, sel'.results.get? site = sel.results.get? site
  stats : { sel'.stats with retainedSites := sel.stats.retainedSites } = sel.stats

/-- Lists of numbers with the same members have the same maximum. -/
theorem max?_eq_of_mem_iff {xs ys : List Nat} (h : ∀ n, n ∈ xs ↔ n ∈ ys) : xs.max? = ys.max? := by
  refine Option.ext fun n => ?_
  rw [List.max?_eq_some_iff, List.max?_eq_some_iff, h]
  refine and_congr_right fun _ => forall_congr' fun m => ?_
  rw [h]

/-- The table depends on which constants are live alone. -/
theorem Table.build_congr {live live' : Live} (h : ∀ id, live.contains id = live'.contains id)
    (pool : Pool) (ids : List ValueId) :
    Table.build pool live ids = Table.build pool live' ids := by
  have hslot : slotAmong live = slotAmong live' := by
    funext placed id part
    rw [slotAmong, slotAmong, h]
  have hpart : partAmong live = partAmong live' := by
    funext placed id a
    cases a with
    | scalar s => rfl
    | ref part => rw [partAmong, partAmong, hslot]
  have hencode : encode live = encode live' := by
    funext placed id value
    cases value with
    | scalar s => rfl
    | shape layer => rw [encode, encode, hpart, hslot]
  have hentries : ∀ (ids : List ValueId) slot placed,
      entriesFrom pool live slot placed ids = entriesFrom pool live' slot placed ids := by
    intro ids
    induction ids with
    | nil => exact fun _ _ => rfl
    | cons id rest ih =>
      intro slot placed
      simp only [entriesFrom, hencode, ih]
  rw [build, build, hentries]

section SameSites

variable (hsame : ∀ site, site ∈ retained' ↔ site ∈ retained)

include hsame

/-- The results depend on which sites are retained, not on their order. -/
theorem get?_resultsOf_eq (site : SiteId) :
    (resultsOf outcomes retained').get? site = (resultsOf outcomes retained).get? site := by
  refine Option.ext fun id => ?_
  rw [get?_resultsOf, get?_resultsOf, hsame]

/-- So do the roots. -/
theorem mem_rootsOf_iff (root : ValueId) :
    root ∈ uses.rootsOf (resultsOf outcomes retained').keys ↔
      root ∈ uses.rootsOf (resultsOf outcomes retained).keys := by
  rw [mem_rootsOf_resultsOf, mem_rootsOf_resultsOf]
  simp only [hsame]

/-- So does what is live. -/
theorem alike_liveOf :
    (liveOf uses outcomes retained').walk.Alike (liveOf uses outcomes retained).walk :=
  Graph.alike_walk (mem_rootsOf_iff hsame)

/-- The selections for the same sites, however they are given. -/
theorem Selected.alike {sel sel' : Selection} (h : Selected pool uses outcomes retained sel)
    (h' : Selected pool uses outcomes retained' sel') : sel.Alike sel' := by
  have halike : (liveOf uses outcomes retained').walk.Alike (liveOf uses outcomes retained).walk :=
    alike_liveOf hsame
  have hcontains : ∀ id, (liveOf uses outcomes retained').contains id =
      (liveOf uses outcomes retained).contains id := halike.contains_eq
  have hkept : sel'.kept = sel.kept := by
    rw [h.kept, h'.kept]
    exact List.filter_congr fun id _ => hcontains id
  have hdropped : sel'.dropped = sel.dropped := by
    rw [h.dropped, h'.dropped]
    exact List.filter_congr fun id _ => congrArg _ (hcontains id)
  have htable : sel'.table = sel.table := by
    have hbuild := h'.build
    rw [Table.build_congr hcontains, hkept, h.build] at hbuild
    exact (Except.ok.inj hbuild).symm
  have hroots : (uses.rootsOf (resultsOf outcomes retained').keys).length =
      (uses.rootsOf (resultsOf outcomes retained).keys).length :=
    ((List.perm_ext_iff_of_nodup (Graph.nodup_distinct _) (Graph.nodup_distinct _)).2
      (mem_rootsOf_iff hsame)).length_eq
  have hdepth : (liveOf uses outcomes retained').maxDepth? =
      (liveOf uses outcomes retained).maxDepth? := by
    refine max?_eq_of_mem_iff fun n => ?_
    simp only [Live.distances, List.mem_map, halike.met]
  refine ⟨hkept, hdropped, htable, fun site => ?_, ?_⟩
  · rw [h.results, h'.results]
    exact get?_resultsOf_eq hsame site
  · rw [h.stats, h'.stats, hkept, hdropped, hroots, hdepth]

end SameSites

end ConstPool
