import ConstPool.Proofs.Record.Tally
import ConstPool.Proofs.Table.Exact

/-!
# What threads do

Where several threads compute constants over one stock, what the stock has become is not the work of
any one of them. It is told by what each of them has done: which constants it has pooled, which uses
it has recorded, which results it has found in the cache, and which it has begun and ended to
compute. In which order the deeds of different threads come is another matter. What they add up to
does not depend on it.

Two things are said here, and they have little to do with each other. What a single deed does to a
stock is said once (`Stock.Does`), and from it follows what a thread may rely on while the others go
on: constants stay, results stay, and what is in the cache is true (`Stock.Later`, `Stock.Good`).
What the deeds of one thread amount to is said by the records of the bodies that it has run
(`Deed.Tells`). A record says in which order a body pools and asks. The deeds tell a record if,
where it asks, they find the result or compute it, and if what they compute they tell again.

* `Deed`: what a thread does to the stock in one action.
* `Stock.Good`, `Stock.Later`: what is kept, and what grows.
* `Stock.Does`: what a deed does to a stock.
* `Deed.Tells`: the deeds of a thread tell what is in a record.
-/

namespace ConstPool

open Draft Relation

/-- What a thread does to the stock in one action, if it does more than to look. -/
inductive Deed where
  /-- The value is pooled, and the constant is the tree. -/
  | pooled (id : ValueId) (value : Value) (t : Tree Scalar)
  /-- The use of a part is recorded. -/
  | linked (id part : ValueId)
  /-- The thread begins to compute the result of an inquiry. -/
  | started (t : Inquiry)
  /-- The result of an inquiry is found in the cache. -/
  | found (t : Inquiry)
  /-- The result of an inquiry is computed, and is kept. -/
  | finished (t : Inquiry)

namespace Deed

/-- The inquiries whose results are computed. -/
def computed (deeds : List Deed) : List Inquiry :=
  deeds.filterMap fun
    | .finished t => some t
    | _ => none

/-- The inquiries whose results are found. -/
def hits (deeds : List Deed) : List Inquiry :=
  deeds.filterMap fun
    | .found t => some t
    | _ => none

/-- The inquiries that a thread computes after one more deed, innermost first. -/
def next (running : List Inquiry) : Deed → List Inquiry
  | .started t => t :: running
  | .finished _ => running.tail
  | _ => running

/-- The inquiries that a thread computes after certain deeds, innermost first. -/
def running (deeds : List Deed) : List Inquiry := deeds.foldl next []

/-- No deeds, no computations. -/
@[simp] theorem computed_nil : computed [] = [] := rfl

/-- What is computed in two stretches is computed in one and then in the other. -/
@[simp] theorem computed_append (deeds deeds' : List Deed) :
    computed (deeds ++ deeds') = computed deeds ++ computed deeds' := List.filterMap_append

/-- No deeds, no hits. -/
@[simp] theorem hits_nil : hits [] = [] := rfl

/-- The hits of two stretches are those of one and then those of the other. -/
@[simp] theorem hits_append (deeds deeds' : List Deed) :
    hits (deeds ++ deeds') = hits deeds ++ hits deeds' := List.filterMap_append

/-- Before the first deed no computation is open. -/
@[simp] theorem running_nil : running [] = [] := rfl

/-- The computed inquiries are those that were finished. -/
theorem mem_computed {deeds : List Deed} {t : Inquiry} :
    t ∈ computed deeds ↔ .finished t ∈ deeds := by
  unfold computed
  rw [List.mem_filterMap]
  constructor
  · rintro ⟨deed, hdeed, hsome⟩
    cases deed <;> cases hsome
    exact hdeed
  · exact fun h => ⟨_, h, rfl⟩

/-- The hits are the inquiries that were found answered. -/
theorem mem_hits {deeds : List Deed} {t : Inquiry} : t ∈ hits deeds ↔ .found t ∈ deeds := by
  unfold hits
  rw [List.mem_filterMap]
  constructor
  · rintro ⟨deed, hdeed, hsome⟩
    cases deed <;> cases hsome
    exact hdeed
  · exact fun h => ⟨_, h, rfl⟩

end Deed

namespace Stock

variable (a : Analysis) (reply : Inquiry → Except Fault (Tree Scalar))

/-! ### What is kept -/

/-- A stock in order: its pool is sound, every cell is that of an inquiry, and a result in the cache
is that of its inquiry. -/
structure Good (s : Stock) : Prop where
  sound : s.pool.Sound
  keyed : s.Keyed a
  truthful : ∀ t o, s.Cell a t (.done o) → Agree Fault.Benign s.pool.Denotes o (reply t)

/-- What a thread may rely on when others go on: constants stay, and so do results. -/
structure Later (s s' : Stock) : Prop where
  grows : s.pool.Grows Scalar s'.pool
  done : ∀ t, s.Done a t → s'.Done a t

variable {a reply} {s s' s'' : Stock}

/-- A stock is later than itself. -/
theorem Later.refl (s : Stock) : s.Later a s := ⟨.refl _, fun _ h => h⟩

/-- A later stock of a later one is later. -/
theorem Later.trans (h : s.Later a s') (h' : s'.Later a s'') : s.Later a s'' :=
  ⟨h.grows.trans h'.grows, fun t ht => h'.done t (h.done t ht)⟩

/-- Constants of an earlier stock are there still. -/
theorem Later.has (h : s.Later a s') {u : Tree Scalar} (hu : s.Has u) : s'.Has u :=
  Exists.imp (fun _ hid => hid.mono h.grows.keeps) hu

/-! ### Deeds -/

variable (a reply) in
/-- What an action does to a stock, and the deeds that it consists of. Who ends to compute a result
has pooled all that the record says and all that the result consists of, and what the record asks
for is in the cache. -/
inductive Does : Stock → List Deed → Stock → Prop
  | nothing {s : Stock} : Does s [] s
  | pool {s : Stock} {q : Pool} {id : ValueId} {value : Value} {t : Tree Scalar} :
    Pool.Interned s.pool q value id → s.pool.Extends (· = t) q → q.Denotes id t →
      Does s [.pooled id value t] { s with pool := q }
  | link {s : Stock} {id part : ValueId} : s.pool.HasPart id part →
    Does s [.linked id part] { s with uses := s.uses.record (.value id) part }
  | start {s : Stock} {r : Request ValueId Atom} {body : Expr} {t : Inquiry} :
    r.Passes a body → Request.Means s.pool r t → s.memo.cells.get? r.key = none →
      Does s [.started t] { s with memo := s.memo.start r.key }
  | find {s : Stock} {r : Request ValueId Atom} {body : Expr} {t : Inquiry} {o : Outcome} :
    r.Passes a body → Request.Means s.pool r t → s.memo.cells.get? r.key = some (.done o) →
      Does s [.found t] { s with memo := s.memo.hit }
  | finish {s : Stock} {r : Request ValueId Atom} {body : Expr} {t : Inquiry} {o : Outcome} :
    r.Passes a body → Request.Means s.pool r t →
      Agree Fault.Benign s.pool.Denotes o (reply t) → (∀ u, a.Adds reply t u → s.Has u) →
        (∀ t', a.Asks reply t t' → s.Done a t') →
          Does s [.finished t] { s with memo := s.memo.finish r.key o }

namespace Does

variable {deeds : List Deed}

/-- What an action does is kept by all that come after it. -/
theorem later (h : s.Does a reply deeds s') (hgood : s.Good a reply) : s.Later a s' := by
  cases h with
  | nothing => exact .refl s
  | @pool q id value t hinterned hextends hid =>
    have hcells : ({ s with pool := q } : Stock).memo.cells = s.memo.cells := rfl
    exact ⟨hextends.imp fun _ _ => trivial, fun t ht =>
      (hgood.keyed.done_iff hextends.keeps hcells).2 ht⟩
  | link hpart => exact ⟨.refl _, fun t ht => ht⟩
  | start hpasses hmeans hmiss =>
    exact ⟨.refl _, fun t ht => (done_start_iff hgood.sound hmeans hpasses hmiss).2 ht⟩
  | find hpasses hmeans hcell => exact ⟨.refl _, fun t ht => ht⟩
  | finish hpasses hmeans hagree hhas hdone =>
    exact ⟨.refl _, fun t ht => (done_finish_iff hgood.sound hmeans hpasses).2 (.inl ht)⟩

/-- The stock stays in order. -/
theorem good (h : s.Does a reply deeds s') (hgood : s.Good a reply) : s'.Good a reply := by
  cases h with
  | nothing => exact hgood
  | @pool q id value t hinterned hextends hid =>
    have hcells : ({ s with pool := q } : Stock).memo.cells = s.memo.cells := rfl
    refine ⟨hinterned.sound hgood.sound, hgood.keyed.later hextends.keeps hcells, fun t o ht => ?_⟩
    have hcell := (hgood.keyed.cell_iff hextends.keeps hcells).1 ht
    exact (hgood.truthful t o hcell).imp_value fun _ _ hdenotes => hdenotes.mono hextends.keeps
  | link hpart => exact ⟨hgood.sound, hgood.keyed, hgood.truthful⟩
  | start hpasses hmeans hmiss =>
    refine ⟨hgood.sound, hgood.keyed.insert hpasses hmeans rfl rfl, fun t o ht => ?_⟩
    rcases (cell_start_iff hgood.sound hmeans hpasses).1 ht with ⟨-, heq⟩ | ⟨-, hcell⟩
    · cases heq
    · exact hgood.truthful t o hcell
  | find hpasses hmeans hcell => exact ⟨hgood.sound, hgood.keyed, hgood.truthful⟩
  | finish hpasses hmeans hagree hhas hdone =>
    refine ⟨hgood.sound, hgood.keyed.insert hpasses hmeans rfl rfl, fun t o ht => ?_⟩
    rcases (cell_finish_iff hgood.sound hmeans hpasses).1 ht with ⟨rfl, heq⟩ | ⟨-, hcell⟩
    · cases heq
      exact hagree
    · exact hgood.truthful t o hcell

end Does

end Stock

/-! ### What the deeds of a thread tell -/

namespace Deed

/-- Deeds by which values are pooled whose trees have `P`. The uses of the parts of every value are
recorded too. -/
structure Pools (P : Tree Scalar → Prop) (deeds : List Deed) : Prop where
  only : ∀ deed ∈ deeds, (∃ id value t, deed = .pooled id value t ∧ P t) ∨
    ∃ id part, deed = .linked id part
  linked : ∀ id value t, .pooled id value t ∈ deeds → ∀ part ∈ value.children,
    .linked id part ∈ deeds

namespace Pools

variable {P Q : Tree Scalar → Prop} {deeds deeds' : List Deed}

/-- No deeds pool nothing. -/
theorem nil : Pools P [] := ⟨fun _ h => (nomatch h), fun _ _ _ h => (nomatch h)⟩

/-- Two stretches that pool only such constants are one that does. -/
theorem append (h : Pools P deeds) (h' : Pools P deeds') : Pools P (deeds ++ deeds') where
  only deed hdeed := (List.mem_append.1 hdeed).elim (h.only deed) (h'.only deed)
  linked id value t ht part hpart := by
    rcases List.mem_append.1 ht with ht | ht
    · exact List.mem_append_left _ (h.linked id value t ht part hpart)
    · exact List.mem_append_right _ (h'.linked id value t ht part hpart)

/-- One value and the uses of its parts. -/
theorem value {id : ValueId} {value : Value} {t : Tree Scalar} (h : P t) :
    Pools P (.pooled id value t :: value.children.map (.linked id)) where
  only deed hdeed := by
    rcases List.mem_cons.1 hdeed with rfl | hdeed
    · exact .inl ⟨id, value, t, rfl, h⟩
    · obtain ⟨part, -, rfl⟩ := List.mem_map.1 hdeed
      exact .inr ⟨id, part, rfl⟩
  linked id' value' t' ht part hpart := by
    rcases List.mem_cons.1 ht with heq | hin
    · cases heq
      exact List.mem_cons_of_mem _ (List.mem_map_of_mem hpart)
    · obtain ⟨_, -, heq⟩ := List.mem_map.1 hin
      cases heq

/-- Deeds that only pool constants compute nothing. -/
theorem computed_eq (h : Pools P deeds) : computed deeds = [] := by
  refine List.eq_nil_iff_forall_not_mem.2 fun t ht => ?_
  rcases h.only _ (mem_computed.1 ht) with ⟨_, _, _, heq, -⟩ | ⟨_, _, heq⟩ <;> cases heq

/-- Neither do they find an answer. -/
theorem hits_eq (h : Pools P deeds) : hits deeds = [] := by
  refine List.eq_nil_iff_forall_not_mem.2 fun t ht => ?_
  rcases h.only _ (mem_hits.1 ht) with ⟨_, _, _, heq, -⟩ | ⟨_, _, heq⟩ <;> cases heq

/-- What is pooled is of the kind that the stretch pools. -/
theorem of_mem (h : Pools P deeds) {id : ValueId} {value : Value} {t : Tree Scalar}
    (ht : .pooled id value t ∈ deeds) : P t := by
  rcases h.only _ ht with ⟨_, _, _, heq, hP⟩ | ⟨_, _, heq⟩ <;> cases heq
  exact hP

/-- Deeds that only pool constants leave the open computations as they are. -/
theorem balanced (h : Pools P deeds) (running : List Inquiry) :
    deeds.foldl next running = running := by
  have honly := h.only
  clear h
  induction deeds with
  | nil => rfl
  | cons deed rest ih =>
    rw [List.forall_mem_cons] at honly
    rw [List.foldl_cons]
    rcases honly.1 with ⟨_, _, _, rfl, -⟩ | ⟨_, _, rfl⟩
    · exact ih honly.2
    · exact ih honly.2

end Pools

/-- The deeds of a thread tell what is in a record. The inquiries that it has computed are such to
which those of the record lead; as often as it has looked a result up, the record or the record of
an inquiry that it has computed asks for one; and what it has pooled is in one of them, with the
uses recorded. It computes nothing that it does not end to compute. -/
structure Tells (a : Analysis) (reply : Inquiry → Except Fault (Tree Scalar)) (log : Log)
    (deeds : List Deed) : Prop where
  balanced : ∀ running, deeds.foldl next running = running
  reached : ∀ t ∈ computed deeds, ∃ t₀ ∈ log.asked, ReflTransGen (a.Asks reply) t₀ t
  lookups : (hits deeds).length + (computed deeds).length = log.asked.length +
    ((computed deeds).flatMap fun t => (a.record reply t).asked).length
  pooled : ∀ id value u, .pooled id value u ∈ deeds →
    log.Pooled u ∨ ∃ t ∈ computed deeds, a.Adds reply t u
  linked : ∀ id value u, .pooled id value u ∈ deeds → ∀ part ∈ value.children,
    .linked id part ∈ deeds

namespace Tells

variable {a : Analysis} {reply : Inquiry → Except Fault (Tree Scalar)} {log log' : Log}
  {deeds deeds' : List Deed} {t : Inquiry}

/-- Nothing has been done. -/
theorem nil : Tells a reply {} [] where
  balanced _ := rfl
  reached _ ht := nomatch ht
  lookups := rfl
  pooled _ _ _ hu := nomatch hu
  linked _ _ _ hu := nomatch hu

/-- What has been done for one record and then for another one. -/
theorem append (h : Tells a reply log deeds) (h' : Tells a reply log' deeds') :
    Tells a reply (log ++ log') (deeds ++ deeds') where
  balanced running := by rw [List.foldl_append, h.balanced, h'.balanced]
  reached t ht := by
    rw [computed_append, List.mem_append] at ht
    rw [Log.asked_append]
    rcases ht with ht | ht
    · exact (h.reached t ht).imp fun _ h => ⟨List.mem_append_left _ h.1, h.2⟩
    · exact (h'.reached t ht).imp fun _ h => ⟨List.mem_append_right _ h.1, h.2⟩
  lookups := by
    have hlookups := h.lookups
    have hlookups' := h'.lookups
    simp only [hits_append, computed_append, Log.asked_append, List.flatMap_append,
      List.length_append]
    omega
  pooled id value u hu := by
    rw [Log.pooled_append, computed_append]
    rcases List.mem_append.1 hu with hu | hu
    · rcases h.pooled id value u hu with hlog | ⟨t, ht, hadds⟩
      · exact .inl (.inl hlog)
      · exact .inr ⟨t, List.mem_append_left _ ht, hadds⟩
    · rcases h'.pooled id value u hu with hlog | ⟨t, ht, hadds⟩
      · exact .inl (.inr hlog)
      · exact .inr ⟨t, List.mem_append_right _ ht, hadds⟩
  linked id value u hu part hpart := by
    rcases List.mem_append.1 hu with hu | hu
    · exact List.mem_append_left _ (h.linked id value u hu part hpart)
    · exact List.mem_append_right _ (h'.linked id value u hu part hpart)

/-- A constant has been pooled. -/
theorem pool {u : Tree Scalar} (h : Pools (·.Within u) deeds) :
    Tells a reply (({} : Log).pool u) deeds where
  balanced := h.balanced
  reached t ht := by
    rw [h.computed_eq] at ht
    cases ht
  lookups := by
    rw [h.computed_eq, h.hits_eq]
    rfl
  pooled id value v hv := .inl (Log.pooled_pool.2 (h.of_mem hv))
  linked := h.linked

/-- A result has been found. -/
theorem find (t : Inquiry) : Tells a reply (({} : Log).ask t) [.found t] where
  balanced _ := rfl
  reached _ ht := nomatch ht
  lookups := rfl
  pooled id value u hu := by
    cases List.mem_singleton.1 hu
  linked id value u hu := by
    cases List.mem_singleton.1 hu

/-- A result has been computed: the body has done what is in its record, and its result has been
pooled. -/
theorem compute {result : List Deed} (hinner : Tells a reply (a.record reply t) deeds)
    (hresult : Pools (Analysis.Result reply t) result) :
    Tells a reply (({} : Log).ask t)
      (.started t :: (deeds ++ (result ++ [.finished t]))) := by
  have hcomputed : computed (.started t :: (deeds ++ (result ++ [.finished t]))) =
      computed deeds ++ [t] := by
    show computed (deeds ++ (result ++ [.finished t])) = _
    rw [computed_append, computed_append, hresult.computed_eq]
    rfl
  have hhits : hits (.started t :: (deeds ++ (result ++ [.finished t]))) = hits deeds := by
    show hits (deeds ++ (result ++ [.finished t])) = _
    rw [hits_append, hits_append, hresult.hits_eq]
    exact List.append_nil _
  have hasked : (({} : Log).ask t).asked = [t] := rfl
  refine ⟨fun running => ?_, fun u hu => ?_, ?_, fun id value u hu => ?_, fun id value u hu => ?_⟩
  · show (deeds ++ (result ++ [finished t])).foldl next (t :: running) = running
    rw [List.foldl_append, hinner.balanced, List.foldl_append, hresult.balanced]
    rfl
  · rw [hcomputed, List.mem_append, List.mem_singleton] at hu
    refine ⟨t, List.mem_singleton_self t, ?_⟩
    rcases hu with hu | rfl
    · obtain ⟨t₁, ht₁, hreach⟩ := hinner.reached u hu
      exact .head ht₁ hreach
    · exact .refl
  · -- the body looks results up as often as its record asks for one, and this is one more lookup
    have hlookups := hinner.lookups
    rw [hcomputed, hhits, hasked]
    simp only [List.flatMap_append, List.flatMap_singleton, List.length_append,
      List.length_singleton]
    omega
  · rw [hcomputed]
    refine .inr ?_
    rcases List.mem_cons.1 hu with heq | hu
    · cases heq
    · rcases List.mem_append.1 hu with hu | hu
      · rcases hinner.pooled id value u hu with hlog | ⟨t', ht', hadds⟩
        · exact ⟨t, List.mem_append_right _ (List.mem_singleton_self t), .inl hlog⟩
        · exact ⟨t', List.mem_append_left _ ht', hadds⟩
      · rcases List.mem_append.1 hu with hu | hu
        · exact ⟨t, List.mem_append_right _ (List.mem_singleton_self t),
            .inr (hresult.of_mem hu)⟩
        · cases List.mem_singleton.1 hu
  · intro part hpart
    refine List.mem_cons_of_mem _ ?_
    rcases List.mem_cons.1 hu with heq | hu
    · cases heq
    · rcases List.mem_append.1 hu with hu | hu
      · exact List.mem_append_left _ (hinner.linked id value u hu part hpart)
      · refine List.mem_append_right _ ?_
        rcases List.mem_append.1 hu with hu | hu
        · exact List.mem_append_left _ (hresult.linked id value u hu part hpart)
        · cases List.mem_singleton.1 hu

end Tells

end Deed

end ConstPool
