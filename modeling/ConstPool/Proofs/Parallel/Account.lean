import ConstPool.Proofs.Evaluation
import ConstPool.Proofs.Parallel.Deeds

/-!
# What the deeds of threads amount to

Where several threads share a stock, what the stock has become is the sum of what they have done, in
whatever order they came. The pool holds what it held and what was pooled. The cache has the results
that it had and those that were computed, each of them once, and every lookup has been counted. What
is being computed is what some thread has begun and not yet ended.

An account says this of the deeds of all threads, one after another in any order. It is kept by
every deed, and it does not depend on the order.

* `Stock.Stored`: the constants and the uses that deeds amount to.
* `Stock.Cached`: the results that they amount to.
* `Stock.Account`: both.
* `Stock.Account.does`: one more deed.
* `Stock.Account.perm`: another order.
-/

namespace ConstPool

open Draft Relation

namespace Stock

variable {a : Analysis} {reply : Inquiry → Except Fault (Tree Scalar)}

/-- A constant that is pooled is the only one that is new. -/
theorem has_iff_of_extends {s : Stock} {q : Pool} {id : ValueId} {t : Tree Scalar}
    (hsound : s.pool.Sound) (hextends : s.pool.Extends (· = t) q) (hid : q.Denotes id t)
    (u : Tree Scalar) : Has { s with pool := q } u ↔ s.Has u ∨ u = t := by
  constructor
  · rintro ⟨i, hi⟩
    by_cases hknown : i.index < s.pool.size
    · exact .inl ⟨i, hi.earlier hsound hextends.keeps hknown⟩
    · obtain ⟨value, hvalue⟩ := Option.isSome_iff_exists.1 (Pool.get?_isSome_iff.2 hi.known)
      obtain ⟨v, rfl, hv⟩ :=
        hextends.added (Pool.get?_eq_none_iff.2 (Nat.le_of_not_lt hknown)) hvalue
      exact .inr (hi.right_unique hv)
  · rintro (⟨i, hi⟩ | rfl)
    · exact ⟨i, hi.mono hextends.keeps⟩
    · exact ⟨id, hid⟩

/-! ### Constants and uses -/

/-- The pool and the uses hold what they held in `s₀`, and what deeds have pooled and recorded. -/
structure Stored (s₀ : Stock) (deeds : List Deed) (s : Stock) : Prop where
  has : ∀ u, s.Has u ↔ s₀.Has u ∨ ∃ id value, .pooled id value u ∈ deeds
  values : ∀ id value, s.pool.get? id = some value →
    s₀.pool.get? id = some value ∨ ∃ t, .pooled id value t ∈ deeds
  uses : ∀ e, e ∈ s.uses.edges.items ↔
    e ∈ s₀.uses.edges.items ∨ ∃ id part, e = (.value id, part) ∧ .linked id part ∈ deeds
  parts : ∀ id part, .linked id part ∈ deeds → s.pool.HasPart id part

namespace Stored

variable {s₀ s s' : Stock} {deeds deeds' more : List Deed}

/-- Before the first deed the pool is the one at the start. -/
theorem start (s₀ : Stock) : Stored s₀ [] s₀ where
  has u := by simp
  values id value h := .inl h
  uses e := by simp
  parts id part h := nomatch h

/-- It does not matter in which order things were done. -/
theorem perm (h : Stored s₀ deeds s) (hperm : deeds.Perm deeds') : Stored s₀ deeds' s where
  has u := by simp only [h.has, hperm.mem_iff]
  values id value hvalue := by simpa only [hperm.mem_iff] using h.values id value hvalue
  uses e := by simp only [h.uses, hperm.mem_iff]
  parts id part hpart := h.parts id part (hperm.mem_iff.2 hpart)

/-- Deeds that concern the cache change neither the pool nor the uses. -/
theorem other (h : Stored s₀ deeds s) (hpool : s'.pool = s.pool) (huses : s'.uses = s.uses)
    {deed : Deed} (hpooled : ∀ id value t, deed ≠ .pooled id value t)
    (hlinked : ∀ id part, deed ≠ .linked id part) : Stored s₀ (deeds ++ [deed]) s' := by
  have hmem : ∀ d, (d ∈ deeds ++ [deed]) ↔ d ∈ deeds ∨ d = deed := by simp
  obtain ⟨pool, uses, memo⟩ := s
  obtain ⟨pool', uses', memo'⟩ := s'
  cases hpool
  cases huses
  refine ⟨fun u => ?_, fun id value hvalue => ?_, fun e => ?_, fun id part hpart => ?_⟩
  · simp only [hmem, Ne.symm (hpooled _ _ _), or_false]
    exact h.has u
  · simp only [hmem, Ne.symm (hpooled _ _ _), or_false]
    exact h.values id value hvalue
  · simp only [hmem, Ne.symm (hlinked _ _), or_false]
    exact h.uses e
  · rcases (hmem _).1 hpart with hpart | heq
    · exact h.parts id part hpart
    · exact absurd heq.symm (hlinked id part)

/-- A constant is pooled. -/
theorem pool (h : Stored s₀ deeds s) (hsound : s.pool.Sound) {q : Pool} {id : ValueId} {value : Value}
    {t : Tree Scalar} (hinterned : Pool.Interned s.pool q value id)
    (hextends : s.pool.Extends (· = t) q) (hid : q.Denotes id t) :
    Stored s₀ (deeds ++ [.pooled id value t]) { s with pool := q } where
  has u := by
    rw [has_iff_of_extends hsound hextends hid, h.has, or_assoc]
    refine or_congr_right ⟨?_, ?_⟩
    · rintro (⟨i, v, hi⟩ | rfl)
      · exact ⟨i, v, List.mem_append_left _ hi⟩
      · exact ⟨id, value, List.mem_append_right _ (List.mem_singleton_self _)⟩
    · rintro ⟨i, v, hi⟩
      rcases List.mem_append.1 hi with hi | hi
      · exact .inl ⟨i, v, hi⟩
      · cases List.mem_singleton.1 hi
        exact .inr rfl
  values i v hv := by
    rcases hinterned.added hv with hold | ⟨rfl, rfl⟩
    · exact (h.values i v hold).imp_right fun ⟨u, hu⟩ => ⟨u, List.mem_append_left _ hu⟩
    · exact .inr ⟨t, List.mem_append_right _ (List.mem_singleton_self _)⟩
  uses e := by
    rw [h.uses]
    simp
  parts i part hpart := by
    rcases List.mem_append.1 hpart with hpart | hpart
    · exact (h.parts i part hpart).imp fun _ hv => ⟨hextends.keeps _ _ hv.1, hv.2⟩
    · cases List.mem_singleton.1 hpart

/-- A use is recorded. -/
theorem link (h : Stored s₀ deeds s) {id part : ValueId} (hpart : s.pool.HasPart id part) :
    Stored s₀ (deeds ++ [.linked id part])
      { s with uses := s.uses.record (.value id) part } where
  has u := (h.has u).trans (by simp)
  values i v hv := by simpa using h.values i v hv
  uses e := by
    rw [Uses.mem_record, h.uses, or_assoc]
    refine or_congr_right ⟨?_, ?_⟩
    · rintro (⟨i, p, rfl, hi⟩ | rfl)
      · exact ⟨i, p, rfl, List.mem_append_left _ hi⟩
      · exact ⟨id, part, rfl, List.mem_append_right _ (List.mem_singleton_self _)⟩
    · rintro ⟨i, p, rfl, hi⟩
      rcases List.mem_append.1 hi with hi | hi
      · exact .inl ⟨i, p, rfl, hi⟩
      · cases List.mem_singleton.1 hi
        exact .inr rfl
  parts i p hp := by
    rcases List.mem_append.1 hp with hp | hp
    · exact h.parts i p hp
    · cases List.mem_singleton.1 hp
      exact hpart

/-- One more deed. -/
theorem does (h : Stored s₀ deeds s) (hgood : s.Good a reply) (hdoes : s.Does a reply more s') :
    Stored s₀ (deeds ++ more) s' := by
  cases hdoes with
  | nothing => exact (List.append_nil deeds).symm ▸ h
  | pool hinterned hextends hid => exact h.pool hgood.sound hinterned hextends hid
  | link hpart => exact h.link hpart
  | start _ _ _ => refine h.other ?_ ?_ ?_ ?_ <;> simp
  | find _ _ _ => refine h.other ?_ ?_ ?_ ?_ <;> simp
  | finish _ _ _ _ _ => refine h.other ?_ ?_ ?_ ?_ <;> simp

/-- Where every constant that was pooled has its parts recorded, the uses are those of the constants
again. -/
theorem records (h : Stored s₀ deeds s) (hkeeps : s₀.pool.Keeps s.pool)
    (hlinked : ∀ id value u, .pooled id value u ∈ deeds → ∀ part ∈ value.children,
      .linked id part ∈ deeds) {others : User × ValueId → Prop} (hrecords : s₀.Records others) :
    s.Records others := by
  intro e
  rw [h.uses, hrecords]
  constructor
  · rintro ((hothers | ⟨id, he, value, hvalue, hin⟩) | ⟨id, part, rfl, hpart⟩)
    · exact .inl hothers
    · exact .inr ⟨id, he, value, hkeeps _ _ hvalue, hin⟩
    · exact .inr ⟨id, rfl, h.parts id part hpart⟩
  · obtain ⟨user, part⟩ := e
    rintro (hothers | ⟨id, he, value, hvalue, hin⟩)
    · exact .inl (.inl hothers)
    · cases he
      rcases h.values id value hvalue with hold | ⟨t, ht⟩
      · exact .inl (.inr ⟨id, rfl, value, hold, hin⟩)
      · exact .inr ⟨id, part, rfl, hlinked id value t ht part hin⟩

end Stored

/-! ### Results -/

/-- The cache holds the results that it held in `s₀` and those that deeds have computed, and
`running` are the inquiries that are being computed. -/
structure Cached (a : Analysis) (reply : Inquiry → Except Fault (Tree Scalar)) (s₀ : Stock)
    (deeds : List Deed) (running : List Inquiry) (s : Stock) : Prop where
  done : ∀ t, s.Done a t ↔ s₀.Done a t ∨ t ∈ Deed.computed deeds
  busy : ∀ t, s.Running a t ↔ t ∈ running
  fresh : ∀ t ∈ Deed.computed deeds, ¬ s₀.Done a t
  once : (Deed.computed deeds).Nodup
  single : running.Nodup
  closed : ∀ t ∈ Deed.computed deeds, ∀ t', a.Asks reply t t' → s.Done a t'
  adds : ∀ t ∈ Deed.computed deeds, ∀ u, a.Adds reply t u → s.Has u
  misses : s.memo.misses = s₀.memo.misses + (Deed.computed deeds).length
  hits : s.memo.hits = s₀.memo.hits + (Deed.hits deeds).length
  size : s.memo.size = s₀.memo.size + (Deed.computed deeds).length + running.length

namespace Cached

variable {s₀ s s' : Stock} {deeds deeds' more : List Deed} {running running' own others : List Inquiry}

/-- Before the first deed the cache is the one at the start, and nothing is being computed. -/
theorem start (hidle : ∀ t, ¬ s₀.Running a t) : Cached a reply s₀ [] [] s₀ where
  done t := by simp
  busy t := by simp [hidle]
  fresh t h := nomatch h
  once := .nil
  single := .nil
  closed t h := nomatch h
  adds t h := nomatch h
  misses := rfl
  hits := rfl
  size := rfl

/-- It does not matter in which order things were done. -/
theorem perm (h : Cached a reply s₀ deeds running s) (hperm : deeds.Perm deeds')
    (hrunning : running.Perm running') : Cached a reply s₀ deeds' running' s := by
  have hcomputed : (Deed.computed deeds).Perm (Deed.computed deeds') := hperm.filterMap _
  have hhits : (Deed.hits deeds).Perm (Deed.hits deeds') := hperm.filterMap _
  exact
    { done := fun t => by rw [h.done, hcomputed.mem_iff]
      busy := fun t => by rw [h.busy, hrunning.mem_iff]
      fresh := fun t ht => h.fresh t (hcomputed.mem_iff.2 ht)
      once := hcomputed.nodup_iff.1 h.once
      single := hrunning.nodup_iff.1 h.single
      closed := fun t ht => h.closed t (hcomputed.mem_iff.2 ht)
      adds := fun t ht => h.adds t (hcomputed.mem_iff.2 ht)
      misses := by rw [h.misses, hcomputed.length_eq]
      hits := by rw [h.hits, hhits.length_eq]
      size := by rw [h.size, hcomputed.length_eq, hrunning.length_eq] }

/-- Deeds that concern the pool leave the cache as it is. -/
theorem other (h : Cached a reply s₀ deeds running s) (hkeyed : s.Keyed a)
    (hkeeps : s.pool.Keeps s'.pool) (hmemo : s'.memo = s.memo)
    (hcomputed : Deed.computed more = []) (hhits : Deed.hits more = []) :
    Cached a reply s₀ (deeds ++ more) running s' := by
  have hcells : s'.memo.cells = s.memo.cells := congrArg Memo.cells hmemo
  have heq : Deed.computed (deeds ++ more) = Deed.computed deeds := by
    rw [Deed.computed_append, hcomputed, List.append_nil]
  exact
    { done := fun t => by rw [hkeyed.done_iff hkeeps hcells, h.done, heq]
      busy := fun t => (hkeyed.cell_iff hkeeps hcells).trans (h.busy t)
      fresh := heq ▸ h.fresh
      once := heq ▸ h.once
      single := h.single
      closed := fun t ht t' ht' => (hkeyed.done_iff hkeeps hcells).2 (h.closed t (heq ▸ ht) t' ht')
      adds := fun t ht u hu => (h.adds t (heq ▸ ht) u hu).imp fun _ hid => hid.mono hkeeps
      misses := by rw [hmemo, h.misses, heq]
      hits := by rw [hmemo, h.hits, Deed.hits_append, hhits, List.append_nil]
      size := by rw [hmemo, h.size, heq] }

section Memo

variable {r : Request ValueId Atom} {body : Expr} {t : Inquiry} (hsound : s.pool.Sound)
  (hpasses : r.Passes a body) (hmeans : Request.Means s.pool r t)

include hsound hpasses hmeans

/-- A thread begins to compute a result. -/
theorem begin (h : Cached a reply s₀ deeds running s) (hmiss : s.memo.cells.get? r.key = none) :
    Cached a reply s₀ (deeds ++ [.started t]) (t :: running)
      { s with memo := s.memo.start r.key } := by
  have hdone := fun u => done_start_iff (u := u) hsound hmeans hpasses hmiss
  have heq : Deed.computed (deeds ++ [.started t]) = Deed.computed deeds :=
    (Deed.computed_append ..).trans (List.append_nil _)
  exact
    { done := fun u => by rw [hdone, h.done, heq]
      busy := fun u => by
        rw [running_start_iff hsound hmeans hpasses, h.busy, List.mem_cons]
      fresh := heq ▸ h.fresh
      once := heq ▸ h.once
      single := List.nodup_cons.2
        ⟨fun hin => not_cell hsound hmeans hmiss ((h.busy t).2 hin), h.single⟩
      closed := fun u hu u' hu' => (hdone u').2 (h.closed u (heq ▸ hu) u' hu')
      adds := fun u hu => h.adds u (heq ▸ hu)
      misses := by rw [heq]; exact h.misses
      hits := by
        rw [Deed.hits_append]
        exact h.hits.trans (by rw [show Deed.hits [.started t] = [] from rfl, List.append_nil])
      size := by
        rw [heq]
        show (s.memo.start r.key).size = _
        rw [Memo.size_start hmiss, h.size, List.length_cons]
        omega }

/-- A thread ends to compute a result. -/
theorem finish (h : Cached a reply s₀ deeds (t :: running) s) {o : Outcome}
    (hadds : ∀ u, a.Adds reply t u → s.Has u) (hasks : ∀ t', a.Asks reply t t' → s.Done a t') :
    Cached a reply s₀ (deeds ++ [.finished t]) running
      { s with memo := s.memo.finish r.key o } := by
  have hdone := fun u => done_finish_iff (u := u) (o := o) hsound hmeans hpasses
  have hrunning : s.Running a t := (h.busy t).2 (List.mem_cons_self ..)
  have heq : Deed.computed (deeds ++ [.finished t]) = Deed.computed deeds ++ [t] :=
    Deed.computed_append ..
  have hmem : ∀ u, u ∈ Deed.computed deeds ++ [t] ↔ u ∈ Deed.computed deeds ∨ u = t := by simp
  -- the result was not there before: neither from the start, nor computed by another thread
  have hnew : ¬ s.Done a t := fun ⟨o, ho⟩ => nomatch ho.unique hsound hrunning
  have hold := fun ht => hnew ((h.done t).2 ht)
  have hlater : ∀ u, s.Done a u → Stock.Done a { s with memo := s.memo.finish r.key o } u :=
    fun u hu => (hdone u).2 (.inl hu)
  exact
    { done := fun u => by rw [hdone, h.done, heq, hmem, or_assoc]
      busy := fun u => by
        have hsingle : t ∉ running := (List.nodup_cons.1 h.single).1
        rw [running_finish_iff hsound hmeans hpasses, h.busy, List.mem_cons]
        constructor
        · rintro ⟨hne, hu⟩
          exact hu.resolve_left hne
        · exact fun hu => ⟨fun heq => hsingle (heq ▸ hu), .inr hu⟩
      fresh := by
        rw [heq]
        intro u hu
        rcases (hmem u).1 hu with hu | rfl
        · exact h.fresh u hu
        · exact fun h' => hold (.inl h')
      once := by
        rw [heq, ← List.concat_eq_append]
        exact .concat (fun ht => hold (.inr ht)) h.once
      single := (List.nodup_cons.1 h.single).2
      closed := by
        rw [heq]
        intro u hu u' hu'
        rcases (hmem u).1 hu with hu | rfl
        · exact hlater u' (h.closed u hu u' hu')
        · exact hlater u' (hasks u' hu')
      adds := by
        rw [heq]
        intro u hu
        rcases (hmem u).1 hu with hu | rfl
        · exact h.adds u hu
        · exact hadds
      misses := by
        have hmisses := h.misses
        rw [heq, List.length_append]
        show s.memo.misses + 1 = _
        rw [hmisses]
        rfl
      hits := by
        rw [Deed.hits_append]
        exact h.hits.trans (by rw [show Deed.hits [.finished t] = [] from rfl, List.append_nil])
      size := by
        have hcell := hrunning.get? hsound hmeans
        have hbefore := h.size
        rw [heq, List.length_append]
        show (s.memo.finish r.key o).size = _
        rw [Memo.size_finish hcell, hbefore, List.length_cons, List.length_singleton]
        omega }

end Memo

/-- A thread finds a result. -/
theorem find (h : Cached a reply s₀ deeds running s) (t : Inquiry) :
    Cached a reply s₀ (deeds ++ [.found t]) running { s with memo := s.memo.hit } := by
  have heq : Deed.computed (deeds ++ [.found t]) = Deed.computed deeds :=
    (Deed.computed_append ..).trans (List.append_nil _)
  exact
    { done := fun u => by
        rw [heq]
        exact h.done u
      busy := h.busy
      fresh := heq ▸ h.fresh
      once := heq ▸ h.once
      single := h.single
      closed := heq ▸ h.closed
      adds := heq ▸ h.adds
      misses := heq ▸ h.misses
      hits := by
        rw [Deed.hits_append, List.length_append, ← Nat.add_assoc, ← h.hits]
        rfl
      size := heq ▸ h.size }

/-- One more deed of a thread that computes `own`, while other threads compute `others`. -/
theorem does (h : Cached a reply s₀ deeds (own ++ others) s) (hgood : s.Good a reply)
    (hdoes : s.Does a reply more s')
    (hfits : ∀ t, .finished t ∈ more → ∃ rest, own = t :: rest) :
    Cached a reply s₀ (deeds ++ more) (more.foldl Deed.next own ++ others) s' := by
  cases hdoes with
  | nothing => exact (List.append_nil deeds).symm ▸ h
  | pool hinterned hextends hid => exact h.other hgood.keyed hextends.keeps rfl rfl rfl
  | link hpart => exact h.other hgood.keyed (.refl _) rfl rfl rfl
  | start hpasses hmeans hmiss => exact h.begin hgood.sound hpasses hmeans hmiss
  | find _ _ _ => exact h.find _
  | @finish _ _ t _ hpasses hmeans _ hadds hasks =>
    obtain ⟨rest, rfl⟩ := hfits t (List.mem_singleton_self _)
    exact h.finish hgood.sound hpasses hmeans hadds hasks

end Cached

/-! ### Accounts -/

/-- What a stock has become from `s₀` by the deeds of all threads, in whatever order they came,
while `running` is being computed. -/
structure Account (a : Analysis) (reply : Inquiry → Except Fault (Tree Scalar)) (s₀ : Stock)
    (deeds : List Deed) (running : List Inquiry) (s : Stock) : Prop where
  good : s.Good a reply
  later : s₀.Later a s
  stored : Stored s₀ deeds s
  cached : Cached a reply s₀ deeds running s

namespace Account

variable {s₀ s s' : Stock} {deeds deeds' more : List Deed} {running running' own others : List Inquiry}

/-- Nothing has been done. -/
theorem start (hgood : s₀.Good a reply) (hidle : ∀ t, ¬ s₀.Running a t) :
    Account a reply s₀ [] [] s₀ := ⟨hgood, .refl s₀, .start s₀, .start hidle⟩

/-- It does not matter in which order things were done. -/
theorem perm (h : Account a reply s₀ deeds running s) (hperm : deeds.Perm deeds')
    (hrunning : running.Perm running') : Account a reply s₀ deeds' running' s :=
  ⟨h.good, h.later, h.stored.perm hperm, h.cached.perm hperm hrunning⟩

/-- One more deed of a thread that computes `own`, while other threads compute `others`. -/
theorem does (h : Account a reply s₀ deeds (own ++ others) s) (hdoes : s.Does a reply more s')
    (hfits : ∀ t, .finished t ∈ more → ∃ rest, own = t :: rest) :
    Account a reply s₀ (deeds ++ more) (more.foldl Deed.next own ++ others) s' where
  good := hdoes.good h.good
  later := h.later.trans (hdoes.later h.good)
  stored := h.stored.does h.good hdoes
  cached := h.cached.does h.good hdoes hfits

end Account

end Stock

end ConstPool
