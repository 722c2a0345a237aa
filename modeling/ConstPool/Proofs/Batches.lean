import ConstPool.Proofs.Constants
import ConstPool.Proofs.Parallel.Sessions
import ConstPool.Proofs.Settlement
import ConstPool.Proofs.Sharing
import ConstPool.Proofs.Table.Constants

/-!
# Sites in batches

In a program without recursion it makes no difference in which order sites are handed in, nor
between which of them the session evaluates what waits, nor whether the sites of a wave are
evaluated beside each other and who of them comes first. The numbers of the sites and the identities
of the constants are others, and so is who finds a result in the cache, but behind them are the same
constants, the same results, the same counts and the same tables.

Each site poses one inquiry, whatever was evaluated before and whatever is evaluated beside it. So
what two sessions have done is told by records that ask for the same in another order, and these add
up to the same.

* `Session.EvaluatesBatches`: what may come of sites in batches.
* `Session.Alike`: sessions that differ in the order of their sites.
* `Session.Completes`: a session whose sites have all been evaluated.
* `Session.alike_of_perm`: the order makes no difference.
-/

namespace ConstPool

open Relation

/-! ### Sessions that are alike -/

/-- Atoms of two pools stand for the same constant. -/
def Pool.SameConstant (p q : Pool) (a b : Atom) : Prop := ∃ c, p.Stands a c ∧ q.Stands b c

/-- Keys for the same request, whose arguments are the same constants of two pools. -/
inductive MemoKey.Alike (p q : Pool) : MemoKey → MemoKey → Prop
  | call (function : String) {args args' : List Atom} : List.Forall₂ (p.SameConstant q) args args' →
    Alike p q (.call function args) (.call function args')
  | variable (name : String) : Alike p q (.variable name) (.variable name)

/-- Every key of one cache is for the same request as one of another cache. -/
def Stock.KeysAmong (s s' : Stock) : Prop :=
  ∀ key, (s.memo.cells.get? key).isSome → ∃ key', (s'.memo.cells.get? key').isSome ∧
    MemoKey.Alike s.pool s'.pool key key'

/-- What comes of one inquiry in two stocks is the same. -/
theorem Agree.sameConstant {p q : Pool} {o o' : Outcome} {x : Except Fault (Tree Scalar)}
    (h : Agree Fault.Benign p.Denotes o x) (h' : Agree Fault.Benign q.Denotes o' x) :
    Agree Fault.Benign (fun i j => p.SameConstant q (.ref i) (.ref j)) o o' := by
  cases h with
  | ok hi =>
    cases h' with
    | ok hj => exact .ok ⟨_, hi.stands, hj.stands⟩
  | error hf =>
    cases h'
    exact .error hf

/-- The keys of requests for the same trees. -/
theorem Request.Means.alike_key {p q : Pool} {r r' : Request ValueId Atom} {t : Inquiry}
    (h : Request.Means p r t) (h' : Request.Means q r' t) : MemoKey.Alike p q r.key r'.key := by
  cases h with
  | call f htypes hargs =>
    cases h' with
    | call _ htypes' hargs' =>
      refine .call _ (List.rel_append ?_ ?_)
      · rw [List.forall₂_map_left_iff, List.forall₂_map_right_iff]
        exact forall₂_of_right htypes htypes' fun _ _ _ ht ht' => ⟨_, ht.stands, ht'.stands⟩
      · exact forall₂_of_right hargs hargs' fun _ _ _ ha ha' => ⟨_, ha.stands, ha'.stands⟩
  | read name =>
    cases h'
    exact .variable name

/-- Where nothing was in the cache, inquiries that are the same in another order lead to caches with
the same keys. -/
theorem Stock.Tally.keysAmong {a : Analysis} {reply : Inquiry → Except Fault (Tree Scalar)}
    {s s₁ s₂ : Stock} {asked₁ asked₂ new₁ new₂ : List Inquiry}
    (h₁ : Tally a reply s asked₁ s₁ new₁) (h₂ : Tally a reply s asked₂ s₂ new₂)
    (hempty : ∀ t, ¬ s.Done a t) (hasked : asked₁.Perm asked₂) (hkeyed : s₁.Keyed a)
    (hidle : ∀ t, ¬ s₁.Running a t) : s₁.KeysAmong s₂ := by
  intro key hkey
  obtain ⟨cell, hcell⟩ := Option.isSome_iff_exists.1 hkey
  obtain ⟨r, body, t, hpasses, rfl, hmeans⟩ := hkeyed key cell hcell
  have ht : s₁.Cell a t cell := ⟨r, body, hpasses, hmeans, hcell⟩
  cases cell with
  | running => exact absurd ht (hidle t)
  | done o =>
    have hnew : t ∈ new₁ := ((h₁.done t).1 ⟨o, ht⟩).resolve_left (hempty t)
    have hnew' : t ∈ new₂ := (h₁.perm h₂ hempty hasked).mem_iff.1 hnew
    obtain ⟨o', r', _, -, hmeans', hcell'⟩ := (h₂.done t).2 (.inr hnew')
    exact ⟨r'.key, Option.isSome_iff_exists.2 ⟨_, hcell'⟩, hmeans.alike_key hmeans'⟩

namespace Session

/-- Hands in sites one after another. -/
def submitAll (s : Session) (sites : List Site) : Session :=
  sites.foldl (fun s site => (s.submit site).2) s

/-- Hands in sites in batches and evaluates each batch before the next one. -/
def evaluateBatches (s : Session) (batches : List (List Site)) : Session :=
  batches.foldl (fun s batch => (s.submitAll batch).evaluate.2) s

/-- What may come of handing in sites in batches, each of which is evaluated before the next one,
the sites of a wave beside each other or not. -/
inductive EvaluatesBatches (parallel : Bool) : Session → List (List Site) → Session → Prop
  | nil {s : Session} : EvaluatesBatches parallel s [] s
  | cons {s s' s'' : Session} {batch : List Site} {rest : List (List Site)}
    {result : Except Fault EvaluationReport} : (s.submitAll batch).EvaluatesIn parallel result s' →
      EvaluatesBatches parallel s' rest s'' → EvaluatesBatches parallel s (batch :: rest) s''

/-- Where the sites of a wave are evaluated one after another, one thing comes of batches. -/
theorem evaluatesBatches_false_iff {s s' : Session} {batches : List (List Site)} :
    s.EvaluatesBatches false batches s' ↔ s.evaluateBatches batches = s' := by
  constructor
  · intro h
    induction h with
    | nil => rfl
    | cons hbatch _ ih =>
      unfold EvaluatesIn at hbatch
      rw [evaluatesWaves_false_iff] at hbatch
      rw [evaluateBatches, List.foldl_cons, evaluate, hbatch]
      exact ih
  · rintro rfl
    induction batches generalizing s with
    | nil => exact .nil
    | cons batch rest ih => exact .cons (evaluatesWaves_false_iff.2 rfl) ih

/-- Sessions that have evaluated the same sites in different orders. -/
structure Alike (s s' : Session) : Prop where
  sites : s.sites.Perm s'.sites
  /-- A site has come to the same constant, or to the same fault. -/
  outcomes : ∀ id id' site, s.site? id = some site → s'.site? id' = some site →
    ∃ o o', s.outcomes.get? id = some o ∧ s'.outcomes.get? id' = some o' ∧
      Agree Fault.Benign
        (fun i j => s.stock.pool.SameConstant s'.stock.pool (.ref i) (.ref j)) o o'
  constants : ∀ c, (∃ id, s.stock.pool.Stands (.ref id) c) ↔ ∃ id, s'.stock.pool.Stands (.ref id) c
  size : s.stock.pool.size = s'.stock.pool.size
  keys : s.stock.KeysAmong s'.stock ∧ s'.stock.KeysAmong s.stock
  misses : s.stock.memo.misses = s'.stock.memo.misses
  hits : s.stock.memo.hits = s'.stock.memo.hits
  entries : s.stock.memo.size = s'.stock.memo.size
  /-- If the same sites are retained, both end with tables of the same constants. -/
  tables : ∀ retained retained',
    (∀ site, (∃ id ∈ retained, s.site? id = some site) ↔ ∃ id ∈ retained', s'.site? id = some site) →
      ∃ sel sel', (s.finish retained).1 = .ok sel ∧ (s'.finish retained').1 = .ok sel' ∧
        ∀ c, (∃ slot, sel.table.Stands slot c) ↔ ∃ slot, sel'.table.Stands slot c

/-- A session in which nothing has been done but to hand in values in canonical form. -/
inductive Supplied (p : Program) (types : Types) (settings : Settings) : Session → Prop
  | start : Supplied p types settings (start p types settings)
  | intern {s : Session} {value : Value} : Supplied p types settings s →
    value.Canonical s.stock.pool → Supplied p types settings (s.perform (Work.intern value)).2

/-! ### Handing in a batch -/

/-- The sites of a batch are handed in at the end, in their order. -/
theorem submitAll_eq (s : Session) (sites : List Site) :
    s.submitAll sites = { s with sites := s.sites ++ sites } := by
  induction sites generalizing s with
  | nil => rw [submitAll, List.foldl_nil, List.append_nil]
  | cons site rest ih =>
    rw [submitAll, List.foldl_cons, ← submitAll, ih]
    simp only [submit, List.append_assoc, List.singleton_append]

/-- If nothing waited, what waits after a batch is the batch. -/
theorem pending_submitAll {s : Session} (h : s.pending = [])
    (hsites : ∀ id o, s.outcomes.get? id = some o → ∃ site, s.site? id = some site)
    (batch : List Site) : (s.submitAll batch).pending.map Prod.snd = batch := by
  have hsplit : (s.submitAll batch).numbered =
      s.numbered ++ (batch.zipIdx s.sites.length).map fun e => (⟨e.2⟩, e.1) := by
    rw [submitAll_eq, numbered, numbered, List.zipIdx_append, List.map_append, Nat.zero_add]
  have hbefore : s.numbered.filter (fun e => !(s.submitAll batch).outcomes.contains e.1) = [] := by
    rw [submitAll_eq]
    exact h
  have hall : ∀ e ∈ (batch.zipIdx s.sites.length).map fun e => ((⟨e.2⟩ : SiteId), e.1),
      (!(s.submitAll batch).outcomes.contains e.1) = true := by
    intro e he
    obtain ⟨x, hx, rfl⟩ := List.mem_map.1 he
    rw [submitAll_eq, OrderedMap.contains_eq, Bool.not_eq_true', Option.isSome_eq_false_iff,
      Option.isNone_iff_eq_none, Option.eq_none_iff_forall_ne_some]
    intro o ho
    obtain ⟨site, hsite⟩ := hsites _ o ho
    have hlt : x.2 < s.sites.length := (List.getElem?_eq_some_iff.1 hsite).1
    have hle := List.le_snd_of_mem_zipIdx hx
    omega
  rw [pending, hsplit, List.filter_append, hbefore, List.nil_append, List.filter_eq_self.2 hall,
    List.map_map]
  exact List.zipIdx_map_fst _ _

/-! ### What a session has done -/

section Following

variable {reply : Inquiry → Except Fault (Tree Scalar)} {pose : Site → Except Fault Inquiry}
  {s₀ s s' : Session} {sites : List Site}

/-- A session whose sites have all been evaluated. -/
structure Completes (reply : Inquiry → Except Fault (Tree Scalar))
    (pose : Site → Except Fault Inquiry) (s₀ s : Session) (sites : List Site) : Prop where
  follows : ∃ done, Follows reply pose s₀ s done ∧ done.Perm sites
  pending : s.pending = []
  sites : s.sites = sites

namespace Completes

/-- A batch is handed in: nothing waited before, so what waits now is the batch, in the order of the
plan. -/
theorem submitAll (h : Completes reply pose s₀ s sites) {batch : List Site}
    (hstored : ∀ site ∈ batch, site.Stored s₀.stock.pool) :
    (∃ done, Follows reply pose s₀ (s.submitAll batch) done ∧ done.Perm sites) ∧
      (s.submitAll batch).sites = sites ++ batch ∧
        ((s.submitAll batch).plan.map Prod.snd).Perm batch ∧
          (s.submitAll batch).Open s₀.stock.pool (s.submitAll batch).plan := by
  obtain ⟨done, hfollows, hperm⟩ := h.follows
  have hhandedIn : ∀ id o, s.outcomes.get? id = some o → ∃ site, s.site? id = some site := by
    intro id o ho
    obtain ⟨site, hid, -⟩ := hfollows.outcomes id o ho
    exact ⟨site, hid⟩
  have hbatch := pending_submitAll h.pending hhandedIn batch
  have hplan : ((s.submitAll batch).plan.map Prod.snd).Perm batch :=
    .trans ((s.submitAll batch).perm_plan.map Prod.snd) (.of_eq hbatch)
  refine ⟨⟨done, ?_, hperm⟩, ?_, hplan, ?_, fun e he => ?_, fun e he => ?_⟩
  · rw [submitAll_eq]
    refine ⟨hfollows.analysis, hfollows.posed, fun id o ho => ?_, hfollows.traced⟩
    obtain ⟨site, hid, hagree⟩ := hfollows.outcomes id o ho
    exact ⟨site, site?_of_prefix (List.prefix_append s.sites batch) hid, hagree⟩
  · rw [submitAll_eq, ← h.sites]
  · exact ((s.submitAll batch).perm_plan.map Prod.fst).nodup_iff.2 (nodup_pending _)
  · exact mem_pending.1 ((s.submitAll batch).perm_plan.mem_iff.1 he)
  · exact hstored _ (hplan.mem_iff.1 (List.mem_map_of_mem he))

/-- A batch is handed in and evaluated, whatever comes of it. -/
theorem batch (h : Completes reply pose s₀ s sites)
    (hreading : s₀.analysis.Reading s₀.stock.pool reply pose) {batch : List Site}
    (hstored : ∀ site ∈ batch, site.Stored s₀.stock.pool) {parallel : Bool}
    {result : Except Fault EvaluationReport}
    (hevaluates : (s.submitAll batch).EvaluatesIn parallel result s') :
    Completes reply pose s₀ s' (sites ++ batch) := by
  obtain ⟨⟨done, hfollows, hperm⟩, hsites, hplan, hopen⟩ := h.submitAll hstored
  obtain ⟨-, hafter⟩ := hfollows.advances hreading hopen hevaluates
  refine ⟨⟨_, hafter.follows, hperm.append hplan⟩, ?_, hafter.sites.trans hsites⟩
  -- a site that waits in the end has waited from the start, and all of these are settled
  refine List.eq_nil_iff_forall_not_mem.2 fun e he => ?_
  obtain ⟨hsite, hunsettled⟩ := mem_pending.1 he
  obtain ⟨hbefore, hnot⟩ := (hafter.settled e.1).1 hunsettled
  rw [site?, hafter.sites] at hsite
  have hwaited : e ∈ (s.submitAll batch).plan :=
    (s.submitAll batch).perm_plan.mem_iff.2 (mem_pending.2 ⟨hsite, hbefore⟩)
  exact hnot (List.mem_map_of_mem hwaited)

/-- Batches one after another, whatever comes of them. -/
theorem evaluatesBatches (h : Completes reply pose s₀ s sites)
    (hreading : s₀.analysis.Reading s₀.stock.pool reply pose) {parallel : Bool}
    {batches : List (List Site)} (hstored : ∀ site ∈ batches.flatten, site.Stored s₀.stock.pool)
    (hevaluates : s.EvaluatesBatches parallel batches s') :
    Completes reply pose s₀ s' (sites ++ batches.flatten) := by
  induction hevaluates generalizing sites with
  | nil =>
    rw [List.flatten_nil, List.append_nil]
    exact h
  | cons hbatch _ ih =>
    rw [List.flatten_cons, List.forall_mem_append] at hstored
    rw [List.flatten_cons, ← List.append_assoc]
    exact ih (h.batch hreading hstored.1 hbatch) hstored.2

/-- Something comes of all batches. -/
theorem exists_evaluatesBatches (h : Completes reply pose s₀ s sites)
    (hreading : s₀.analysis.Reading s₀.stock.pool reply pose) (parallel : Bool)
    {batches : List (List Site)}
    (hstored : ∀ site ∈ batches.flatten, site.Stored s₀.stock.pool) :
    ∃ s', s.EvaluatesBatches parallel batches s' := by
  induction batches generalizing s sites with
  | nil => exact ⟨s, .nil⟩
  | cons first rest ih =>
    rw [List.flatten_cons, List.forall_mem_append] at hstored
    obtain ⟨⟨done, hfollows, -⟩, -, -, hopen⟩ := h.submitAll hstored.1
    obtain ⟨result, s', hfirst⟩ := hfollows.exists_evaluatesWaves hreading parallel hopen
      { waves := (s.submitAll first).waves.length }
    obtain ⟨s'', hrest⟩ := ih (h.batch hreading hstored.1 hfirst) hstored.2
    exact ⟨s'', .cons hfirst hrest⟩

/-- Every site has the outcome that its inquiry has on trees. -/
theorem exists_outcome (h : Completes reply pose s₀ s sites) {id : SiteId} {site : Site}
    (hid : s.site? id = some site) : ∃ o, s.outcomes.get? id = some o ∧
      Agree Fault.Benign s.stock.pool.Denotes o (pose site >>= reply) := by
  obtain ⟨done, hfollows, -⟩ := h.follows
  have hsome : ∃ o, s.outcomes.get? id = some o := by
    refine Option.ne_none_iff_exists'.1 fun hnone => ?_
    have hwaits : (id, site) ∈ s.pending := mem_pending.2 ⟨hid, hnone⟩
    rw [h.pending] at hwaits
    cases hwaits
  obtain ⟨o, ho⟩ := hsome
  obtain ⟨site', hid', hagree⟩ := hfollows.outcomes id o ho
  cases hid.symm.trans hid'
  exact ⟨o, ho, hagree⟩

end Completes

/-! ### Two orders -/

/-- A session in which nothing has been done but to hand in values: its pool is in canonical form,
its cache is empty, and no site has been handed in. -/
structure Untouched (s : Session) : Prop where
  sound : s.stock.pool.Sound
  canonical : s.stock.pool.Canonical
  memo : s.stock.memo = {}
  sites : s.sites = []
  outcomes : s.outcomes = .empty
  traced : s.stock.Traced fun id value => s.outcomes.get? id = some (.ok value)

/-- A session that was only supplied with constants has settled nothing. -/
theorem Supplied.untouched {p : Program} {types : Types} {settings : Settings}
    (h : Supplied p types settings s) : s.Untouched := by
  induction h with
  | start => exact ⟨Pool.sound_empty, .of_empty, rfl, rfl, rfl, (regular_start ..).traced⟩
  | @intern s value _ hvalue ih =>
    obtain ⟨-, hpool, hmemo⟩ := Stock.intern_eq value s.stock
    have hsound := (ih.sound.intern value).1
    have hcanonical := ih.canonical.intern ih.sound hvalue
    rw [← hpool] at hsound hcanonical
    exact ⟨hsound, hcanonical, hmemo.trans ih.memo, ih.sites, ih.outcomes,
      (Stock.stable_traced _).intern value s.stock ih.traced⟩

/-- It is one that can be reached. -/
theorem Supplied.reached {p : Program} {types : Types} {settings : Settings}
    (h : Supplied p types settings s) : Reached p types settings s := by
  induction h with
  | start => exact .refl
  | intern _ _ ih => exact ih.tail (.intern trivial)

namespace Untouched

/-- Nothing is in the cache. -/
theorem not_cell (h : s.Untouched) (a : Analysis) (t : Inquiry) (cell : MemoCell) :
    ¬ s.stock.Cell a t cell := by
  rintro ⟨r, -, -, -, hcell⟩
  rw [h.memo] at hcell
  exact nomatch (Dict.get?_empty r.key).symm.trans hcell

/-- Without cells there are none but those of inquiries. -/
theorem keyed (h : s.Untouched) (a : Analysis) : s.stock.Keyed a := by
  intro key cell hcell
  rw [h.memo] at hcell
  exact nomatch (Dict.get?_empty key).symm.trans hcell

/-- All sites of the session have been evaluated, for there are none. -/
theorem completes (h : s.Untouched) (reply : Inquiry → Except Fault (Tree Scalar))
    (pose : Site → Except Fault Inquiry) : Completes reply pose s s [] where
  follows := by
    have hgood : s.stock.Good s.analysis reply :=
      ⟨h.sound, h.keyed _, fun t o ht => (h.not_cell _ t _ ht).elim⟩
    refine ⟨[], ⟨rfl, .refl hgood fun t => h.not_cell _ t _, ?_, h.traced⟩, .refl _⟩
    intro id o ho
    rw [h.outcomes, OrderedMap.get?_empty] at ho
    cases ho
  pending := by
    rw [pending, numbered, h.sites]
    rfl
  sites := h.sites

end Untouched

namespace Completes

variable {s₁ s₂ : Session} {sites₁ sites₂ : List Site}

/-- The pool is in canonical form still. -/
theorem canonical (h : Completes reply pose s₀ s sites) (hs₀ : s₀.Untouched) :
    s.stock.pool.Sound ∧ s.stock.pool.Canonical := by
  obtain ⟨done, hfollows, -⟩ := h.follows
  exact ⟨hfollows.posed.good.sound,
    hs₀.canonical.grows hs₀.sound hfollows.posed.later.grows⟩

/-- A session that has nothing to evaluate ends with a table of the constants of the trees that the
retained sites come to. -/
theorem exists_table (h : Completes reply pose s₀ s sites) (hsound : s.stock.pool.Sound)
    (hplace : s.stock.pool.InPlace) (retained : List SiteId) :
    ∃ sel, (s.finish retained).1 = .ok sel ∧ ∀ c, (∃ slot, sel.table.Stands slot c) ↔
      ∃ site t u, (∃ id ∈ retained, s.site? id = some site) ∧ (pose site >>= reply) = .ok t ∧
        (u = t ∨ u.Within t) ∧ u.plain = c := by
  obtain ⟨done, hfollows, -⟩ := h.follows
  have hknown : ∀ {id value}, s.outcomes.get? id = some (.ok value) →
      value.index < s.stock.pool.size := by
    intro id value hvalue
    obtain ⟨site, -, hagree⟩ := hfollows.outcomes id _ hvalue
    generalize pose site >>= reply = y at hagree
    cases hagree with
    | ok hdenotes => exact hdenotes.known
  obtain ⟨sel, hsel, hselected⟩ :=
    (hfollows.traced.selectable hsound hknown retained).exists_selected
  refine ⟨sel, ?_, fun c => ?_⟩
  · rw [finish, h.pending]
    exact hsel
  · rw [hselected.encodes.exists_stands_iff]
    simp only [(hselected.exact hfollows.traced).kept]
    -- in both directions: the constants that a root reaches are the parts of the tree it denotes
    constructor
    · rintro ⟨i, ⟨id, hid, root, hroot, hreach⟩, hstands⟩
      obtain ⟨site, hsite, hagree⟩ := hfollows.outcomes id _ hroot
      generalize hanswer : pose site >>= reply = y at hagree
      cases hagree with
      | @ok _ t hdenotes =>
        obtain ⟨u, hu, hc⟩ :=
          (hsound.reached_stands_iff hplace hdenotes).1 ⟨i, hreach, hstands⟩
        exact ⟨site, t, u, ⟨id, hid, hsite⟩, hanswer, hu, hc⟩
    · rintro ⟨site, t, u, ⟨id, hid, hsite⟩, ht, hu, hc⟩
      obtain ⟨o, ho, hagree⟩ := h.exists_outcome hsite
      rw [ht] at hagree
      cases hagree with
      | @ok root _ hroot =>
        obtain ⟨i, hreach, hstands⟩ := (hsound.reached_stands_iff hplace hroot).2 ⟨u, hu, hc⟩
        exact ⟨i, ⟨id, hid, root, ho, hreach⟩, hstands⟩

/-- Sessions that have evaluated the same sites are alike. -/
theorem alike (h₁ : Completes reply pose s₀ s₁ sites₁) (h₂ : Completes reply pose s₀ s₂ sites₂)
    (hs₀ : s₀.Untouched) (hperm : sites₁.Perm sites₂) : s₁.Alike s₂ := by
  obtain ⟨done₁, hfollows₁, hdone₁⟩ := h₁.follows
  obtain ⟨done₂, hfollows₂, hdone₂⟩ := h₂.follows
  obtain ⟨new₁, htally₁⟩ := hfollows₁.posed.tally
  obtain ⟨new₂, htally₂⟩ := hfollows₂.posed.tally
  obtain ⟨hsound₁, hcanonical₁⟩ := h₁.canonical hs₀
  obtain ⟨hsound₂, hcanonical₂⟩ := h₂.canonical hs₀
  -- both tallies begin with an empty cache, so what they count depends only on what was asked, and
  -- not on its order
  have hsame : done₁.Perm done₂ := hdone₁.trans (hperm.trans hdone₂.symm)
  have hasked := Log.perm_asked_posed (a := s₀.analysis) (hsame.map pose)
  have hempty : ∀ t, ¬ s₀.stock.Done s₀.analysis t := fun t ⟨_, ho⟩ =>
    hs₀.not_cell s₀.analysis t _ ho
  have hhas : ∀ u, (∃ id, s₁.stock.pool.Denotes id u) ↔ ∃ id, s₂.stock.pool.Denotes id u :=
    htally₁.has_iff htally₂ hempty hasked
  obtain ⟨hmisses, hhits, hentries⟩ := htally₁.counts_eq htally₂ hempty hasked
  exact
    { sites := by rwa [h₁.sites, h₂.sites]
      outcomes := fun id id' site hid hid' => by
        obtain ⟨o, ho, hagree⟩ := h₁.exists_outcome hid
        obtain ⟨o', ho', hagree'⟩ := h₂.exists_outcome hid'
        exact ⟨o, o', ho, ho', hagree.sameConstant hagree'⟩
      constants := fun c => by
        simp only [hsound₁.stands_iff hcanonical₁.inPlace, hsound₂.stands_iff hcanonical₂.inPlace]
        rw [exists_comm, exists_comm (α := ValueId)]
        simp only [exists_and_right, hhas]
      size := hsound₁.size_eq hcanonical₁.inPlace hsound₂ hcanonical₂.inPlace hhas
      keys := ⟨htally₁.keysAmong htally₂ hempty hasked hfollows₁.posed.good.keyed hfollows₁.posed.idle,
        htally₂.keysAmong htally₁ hempty hasked.symm hfollows₂.posed.good.keyed
          hfollows₂.posed.idle⟩
      misses := hmisses
      hits := hhits
      entries := hentries
      tables := fun retained retained' hretained => by
        obtain ⟨sel, hsel, htable⟩ := h₁.exists_table hsound₁ hcanonical₁.inPlace retained
        obtain ⟨sel', hsel', htable'⟩ := h₂.exists_table hsound₂ hcanonical₂.inPlace retained'
        refine ⟨sel, sel', hsel, hsel', fun c => ?_⟩
        rw [htable, htable']
        simp only [hretained] }

end Completes

end Following

/-! ### The order of sites and batches -/

/-- In a program without recursion, for sites whose arguments were handed in before in canonical
form: however the sites are ordered and divided into batches, whether the sites of a wave are
evaluated one after another or beside each other, and whoever of them comes first, in the end every
site has come to the same constant or to the same fault, the pool holds the same constants, the
cache has the same keys and the same counts, and the tables for the same retained sites hold the
same constants. And there is an end: the sites beside each other never wait for each other. -/
theorem alike_of_perm (declarations : List Declaration) (types : Types) (settings : Settings)
    (hacyclic : (Analysis.build (.declareAll {} declarations) types settings).graph.cyclic = [])
    {s : Session} (hs : Supplied (.declareAll {} declarations) types settings s)
    {batches batches' : List (List Site)} (hperm : batches.flatten.Perm batches'.flatten)
    (hstored : ∀ site ∈ batches.flatten, site.Stored s.stock.pool) (parallel parallel' : Bool) :
    (∃ s₁, s.EvaluatesBatches parallel batches s₁) ∧
      ∀ s₁ s₂, s.EvaluatesBatches parallel batches s₁ →
        s.EvaluatesBatches parallel' batches' s₂ → s₁.Alike s₂ := by
  have hp := Program.declared_declareAll declarations
  have hreached := hs.reached
  have hsound := hreached.sound hp
  obtain ⟨hanalysis, -⟩ := hreached.stock hp
  have huntouched := hs.untouched
  obtain ⟨reply, hreply⟩ := hsound.exists_replies
  -- a site whose arguments are not stored is never evaluated; any request stands for it
  have hpose : ∀ site : Site,
      ∃ x, site.Stored s.stock.pool → s.analysis.Poses s.stock.pool site x := by
    intro site
    by_cases h : site.Stored s.stock.pool
    · obtain ⟨x, hx⟩ := hsound.exists_poses huntouched.sound huntouched.canonical.inPlace h
      exact ⟨x, fun _ => hx⟩
    · exact ⟨.ok (.read ""), fun h' => absurd h' h⟩
  choose pose hpose using hpose
  have hreading : s.analysis.Reading s.stock.pool reply pose :=
    { sound := hsound
      acyclic := hanalysis ▸ hacyclic
      nodup := by
        rw [hanalysis]
        exact fun hget => Program.nodup_params_declareAll declarations hget
      replies := hreply
      poses := hpose }
  have hcompletes := huntouched.completes reply pose
  have hstored' : ∀ site ∈ batches'.flatten, site.Stored s.stock.pool := fun site hsite =>
    hstored site (hperm.mem_iff.2 hsite)
  refine ⟨hcompletes.exists_evaluatesBatches hreading parallel hstored, fun s₁ s₂ h₁ h₂ => ?_⟩
  exact (hcompletes.evaluatesBatches hreading hstored h₁).alike
    (hcompletes.evaluatesBatches hreading hstored' h₂) huntouched hperm

/-- A session with two texts, which evaluates sites beside each other. -/
def twoTexts : Session :=
  let s := start (.declareAll {} [.function listOf]) .empty { parallel := true }
  let s := (s.perform (Work.intern (.string "first"))).2
  (s.perform (Work.intern (.string "second"))).2

/-- The site that makes a list of a constant. -/
def siteOfList (id : ValueId) : Site := ⟨.function "listOf", [], [.const id], {}⟩

/-- The lists of the texts get their identities in the order in which the sites are evaluated.
Beside each other they get them in one order or the other, and come to the same in the end. -/
theorem alike_of_perm_twoTexts :
    (twoTexts.evaluateBatches [[siteOfList ⟨0⟩, siteOfList ⟨1⟩]]).outcomes.get? ⟨0⟩ = some (.ok ⟨2⟩) ∧
      (twoTexts.evaluateBatches [[siteOfList ⟨1⟩], [siteOfList ⟨0⟩]]).outcomes.get? ⟨1⟩ =
        some (.ok ⟨3⟩) ∧
      (∃ s, twoTexts.EvaluatesBatches twoTexts.analysis.settings.parallel
        [[siteOfList ⟨0⟩, siteOfList ⟨1⟩]] s) ∧
      ∀ s, twoTexts.EvaluatesBatches twoTexts.analysis.settings.parallel
        [[siteOfList ⟨0⟩, siteOfList ⟨1⟩]] s →
          s.Alike (twoTexts.evaluateBatches [[siteOfList ⟨1⟩], [siteOfList ⟨0⟩]]) := by
  have hacyclic : (Analysis.build (.declareAll {} [.function listOf]) .empty
    { parallel := true }).graph.cyclic = [] := rfl
  have htext : ∀ (content : String) (pool : Pool), (Value.string content).Canonical pool :=
    fun _ _ => ⟨trivial, fun _ hchild => nomatch hchild⟩
  have hsupplied : Supplied (.declareAll {} [.function listOf]) .empty { parallel := true } twoTexts :=
    .intern (.intern .start (htext _ _)) (htext _ _)
  have hstored : ∀ site ∈ [[siteOfList ⟨0⟩, siteOfList ⟨1⟩]].flatten,
      site.Stored twoTexts.stock.pool := by
    have hsize : twoTexts.stock.pool.size = 2 := by rfl
    intro site hsite id hid
    rw [hsize]
    rcases List.mem_pair.1 hsite with rfl | rfl
    · rcases hid with hid | hid
      · cases hid
      · cases List.mem_singleton.1 hid
        decide
    · rcases hid with hid | hid
      · cases hid
      · cases List.mem_singleton.1 hid
        decide
  have hperm : [[siteOfList ⟨0⟩, siteOfList ⟨1⟩]].flatten.Perm
      [[siteOfList ⟨1⟩], [siteOfList ⟨0⟩]].flatten := .swap _ _ _
  obtain ⟨hends, halike⟩ := alike_of_perm [.function listOf] .empty { parallel := true } hacyclic
    hsupplied hperm hstored twoTexts.analysis.settings.parallel false
  exact ⟨by rfl, by rfl, hends, fun s hs => halike s _ hs (evaluatesBatches_false_iff.2 rfl)⟩

end Session

end ConstPool
