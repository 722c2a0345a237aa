import ConstPool.Proofs.Record.Requests

/-!
# What a log adds up to

However a log came about, the inquiries that were computed for the first time are those to which the
ones in the log lead and that were not in the cache before. Each of them was computed once, and what
it pools and asks for is in its record. So the constants in the pool, the keys in the cache and the
counts of the cache follow from these inquiries alone, whatever their order.

A tally says this of a stock and of the log of what was asked for. It does not say who has computed
which inquiry, nor in which order. Two tallies that begin with one stock and an empty cache, and
whose logs ask for the same in different orders, agree in all that can be counted.

* `Stock.Cell`: the cell of an inquiry in the cache.
* `Stock.Tally`: the inquiries that were computed, and what follows from them.
* `Stock.Tally.trans`: one log after the other.
* `Stock.Tally.perm`, `Stock.Tally.counts_eq`, `Stock.Tally.has_iff`: two logs in different orders.
-/

namespace ConstPool

open Draft Relation

variable {a : Analysis} {reply : Inquiry → Except Fault (Tree Scalar)}

/-! ### The cells of inquiries -/

/-- In a sound pool at most one request means an inquiry. -/
theorem Request.Means.unique {pool : Pool} (hsound : pool.Sound) {r r' : Request ValueId Atom}
    {t : Inquiry} (h : Request.Means pool r t) (h' : Request.Means pool r' t) : r = r' := by
  cases h with
  | call f htypes hargs =>
    cases h' with
    | call _ htypes' hargs' =>
      rw [forall₂_left_unique htypes htypes' fun _ _ _ ht ht' =>
          Atom.ref.inj (ht.atom_unique hsound ht'),
        forall₂_left_unique hargs hargs' fun _ _ _ ha ha' => ha.atom_unique hsound ha']
  | read name =>
    cases h'
    rfl

namespace Stock

/-- Every cell of the cache is that of a request which passes and means an inquiry. -/
def Keyed (a : Analysis) (s : Stock) : Prop :=
  ∀ key cell, s.memo.cells.get? key = some cell → ∃ r body, ∃ t : Inquiry,
    Request.Passes a r body ∧ r.key = key ∧ Request.Means s.pool r t

/-- The cell of an inquiry. -/
def Cell (a : Analysis) (s : Stock) (t : Inquiry) (cell : MemoCell) : Prop :=
  ∃ r body, Request.Passes a r body ∧ Request.Means s.pool r t ∧
    s.memo.cells.get? r.key = some cell

/-- The result of an inquiry is in the cache. -/
def Done (a : Analysis) (s : Stock) (t : Inquiry) : Prop := ∃ o, s.Cell a t (.done o)

/-- The result of an inquiry is being computed. -/
def Running (a : Analysis) (s : Stock) (t : Inquiry) : Prop := s.Cell a t .running

variable {s s' s'' : Stock} {t u : Inquiry} {cell cell' : MemoCell}

/-- An inquiry has at most one cell. -/
theorem Cell.unique (hsound : s.pool.Sound) (h : s.Cell a t cell) (h' : s.Cell a t cell') :
    cell = cell' := by
  obtain ⟨r, _, -, hr, hcell⟩ := h
  obtain ⟨r', _, -, hr', hcell'⟩ := h'
  obtain rfl := hr.unique hsound hr'
  exact Option.some.inj (hcell.symm.trans hcell')

/-- Cells are not lost when the pool grows, and no inquiry gets one. -/
theorem Keyed.cell_iff (h : s.Keyed a) (hkeeps : s.pool.Keeps s'.pool)
    (hcells : s'.memo.cells = s.memo.cells) : s'.Cell a t cell ↔ s.Cell a t cell := by
  constructor
  · rintro ⟨r, body, hpasses, hr, hcell⟩
    rw [hcells] at hcell
    obtain ⟨r', body', t', hpasses', hkey, hr'⟩ := h _ _ hcell
    obtain rfl := Request.eq_of_key_eq hpasses' hpasses hkey
    obtain rfl := (hr'.mono hkeeps).functional hr
    exact ⟨_, body, hpasses, hr', hcell⟩
  · rintro ⟨r, body, hpasses, hr, hcell⟩
    exact ⟨r, body, hpasses, hr.mono hkeeps, hcells ▸ hcell⟩

/-- The same inquiries are done if the pool grows and no cell changes. -/
theorem Keyed.done_iff (h : s.Keyed a) (hkeeps : s.pool.Keeps s'.pool)
    (hcells : s'.memo.cells = s.memo.cells) : s'.Done a t ↔ s.Done a t :=
  exists_congr fun _ => h.cell_iff hkeeps hcells

/-- The cells are those of inquiries still. -/
theorem Keyed.later (h : s.Keyed a) (hkeeps : s.pool.Keeps s'.pool)
    (hcells : s'.memo.cells = s.memo.cells) : s'.Keyed a := by
  intro key cell hcell
  rw [hcells] at hcell
  obtain ⟨r, body, t, hpasses, hkey, hr⟩ := h key cell hcell
  exact ⟨r, body, t, hpasses, hkey, hr.mono hkeeps⟩

section Insert

variable {r : Request ValueId Atom} {body : Expr} (hpasses : r.Passes a body)
  (hr : Request.Means s.pool r t) (hpool : s'.pool = s.pool)
  (hcells : s'.memo.cells = s.memo.cells.insert r.key cell)

include hpasses hr hpool hcells

/-- The cell of one inquiry is written. -/
theorem cell_insert_iff (hsound : s.pool.Sound) :
    s'.Cell a u cell' ↔ u = t ∧ cell' = cell ∨ u ≠ t ∧ s.Cell a u cell' := by
  constructor
  · rintro ⟨r', body', hpasses', hr', hcell⟩
    rw [hpool] at hr'
    rw [hcells, Dict.get?_insert] at hcell
    split at hcell
    · next hkey =>
      obtain rfl := Request.eq_of_key_eq hpasses' hpasses hkey
      exact .inl ⟨hr'.functional hr, (Option.some.inj hcell).symm⟩
    · next hkey =>
      refine .inr ⟨?_, r', body', hpasses', hr', hcell⟩
      rintro rfl
      exact hkey (by rw [hr'.unique hsound hr])
  · rintro (⟨rfl, rfl⟩ | ⟨hne, r', body', hpasses', hr', hcell⟩)
    · exact ⟨r, body, hpasses, hpool ▸ hr, by rw [hcells, Dict.get?_insert_self]⟩
    · refine ⟨r', body', hpasses', hpool ▸ hr', ?_⟩
      have hkey : r'.key ≠ r.key := by
        intro hkey
        obtain rfl := Request.eq_of_key_eq hpasses' hpasses hkey
        exact hne (hr'.functional hr)
      rw [hcells, Dict.get?_insert_of_ne _ hkey, hcell]

/-- With the cell of an inquiry filled, the cells are those of inquiries still. -/
theorem Keyed.insert (h : s.Keyed a) : s'.Keyed a := by
  intro key cell hcell
  rw [hcells, Dict.get?_insert] at hcell
  rw [hpool]
  split at hcell
  · next hkey => exact ⟨r, body, t, hpasses, hkey.symm, hr⟩
  · exact h key cell hcell

end Insert

/-! ### The cell of a body that runs -/

section Body

variable {r : Request ValueId Atom} {body : Expr} {o : Outcome} (hsound : s.pool.Sound)
  (hr : Request.Means s.pool r t)

include hsound hr

/-- The cell of an inquiry is that of the request that means it. -/
theorem Cell.get? (h : s.Cell a t cell) : s.memo.cells.get? r.key = some cell := by
  obtain ⟨r', _, -, hr', hcell⟩ := h
  rwa [hr.unique hsound hr']

/-- What is not in the cache has no cell. -/
theorem not_cell (hmiss : s.memo.cells.get? r.key = none) : ¬ s.Cell a t cell :=
  fun h => nomatch hmiss.symm.trans (h.get? hsound hr)

variable (hpasses : r.Passes a body)

include hpasses

/-- When a body starts to run, its inquiry gets a cell. -/
theorem cell_start_iff : Stock.Cell a { s with memo := s.memo.start r.key } u cell ↔
    u = t ∧ cell = .running ∨ u ≠ t ∧ s.Cell a u cell :=
  cell_insert_iff hpasses hr rfl rfl hsound

/-- When a body has run, the cell of its inquiry holds the result. -/
theorem cell_finish_iff : Stock.Cell a { s with memo := s.memo.finish r.key o } u cell ↔
    u = t ∧ cell = .done o ∨ u ≠ t ∧ s.Cell a u cell :=
  cell_insert_iff hpasses hr rfl rfl hsound

/-- When a body starts to run, no result is gained or lost. -/
theorem done_start_iff (hmiss : s.memo.cells.get? r.key = none) :
    Stock.Done a { s with memo := s.memo.start r.key } u ↔ s.Done a u := by
  refine exists_congr fun o => (cell_start_iff hsound hr hpasses).trans ⟨?_, fun h => .inr ⟨?_, h⟩⟩
  · rintro (⟨-, heq⟩ | ⟨-, h⟩)
    · cases heq
    · exact h
  · rintro rfl
    exact not_cell hsound hr hmiss h

/-- When a body starts to run, its inquiry is being computed. -/
theorem running_start_iff :
    Stock.Running a { s with memo := s.memo.start r.key } u ↔ u = t ∨ s.Running a u := by
  refine (cell_start_iff hsound hr hpasses).trans ?_
  by_cases hu : u = t <;> simp [hu, Running]

/-- When a body has run, the result of its inquiry is gained. -/
theorem done_finish_iff :
    Stock.Done a { s with memo := s.memo.finish r.key o } u ↔ s.Done a u ∨ u = t := by
  by_cases hu : u = t
  · exact iff_of_true ⟨o, (cell_finish_iff hsound hr hpasses).2 (.inl ⟨hu, rfl⟩)⟩ (.inr hu)
  · simp [Done, cell_finish_iff hsound hr hpasses, hu]

/-- When a body has run, its inquiry is no longer being computed. -/
theorem running_finish_iff :
    Stock.Running a { s with memo := s.memo.finish r.key o } u ↔ u ≠ t ∧ s.Running a u := by
  refine (cell_finish_iff hsound hr hpasses).trans ?_
  by_cases hu : u = t <;> simp [hu, Running]

end Body

end Stock

/-! ### The tally -/

namespace Log

/-- A record that is followed by another one. -/
def append (log log' : Log) : Log := ⟨log.pooled ++ log'.pooled, log.asked ++ log'.asked⟩

instance : Append Log := ⟨append⟩

/-- What is asked in two stretches. -/
theorem asked_append (log log' : Log) : (log ++ log').asked = log.asked ++ log'.asked := rfl

/-- Nothing follows. -/
theorem append_empty (log : Log) : log ++ ({} : Log) = log :=
  congrArg₂ Log.mk (List.append_nil _) (List.append_nil _)

/-- One tree is pooled afterwards. -/
theorem append_pool (log : Log) (t : Tree Scalar) : log ++ ({} : Log).pool t = log.pool t :=
  congrArg₂ Log.mk rfl (List.append_nil _)

/-- One inquiry is made afterwards. -/
theorem append_ask (log : Log) (t : Inquiry) : log ++ ({} : Log).ask t = log.ask t :=
  congrArg₂ Log.mk (List.append_nil _) rfl

/-- One inquiry is noted afterwards, if the analysis says that it is one. -/
theorem append_note (log : Log) (a : Analysis) (t : Inquiry) :
    log ++ ({} : Log).note a t = log.note a t := by
  unfold note
  split
  · exact append_ask log t
  · exact append_empty log

/-- The nodes of what a log has pooled. -/
def Pooled (log : Log) (u : Tree Scalar) : Prop := ∃ t ∈ log.pooled, u.Within t

/-- A node is pooled in two stretches if it is in one of them. -/
theorem pooled_append {log log' : Log} {u : Tree Scalar} :
    (log ++ log').Pooled u ↔ log.Pooled u ∨ log'.Pooled u := by
  simp only [Pooled, HAppend.hAppend, Append.append, append]
  simp [or_and_right, exists_or]

/-- To pool a tree is to pool its nodes. -/
theorem pooled_pool {t u : Tree Scalar} : (({} : Log).pool t).Pooled u ↔ u.Within t := by
  simp [Pooled, pool]

end Log

namespace Analysis

/-- The body of one inquiry asks for another one. -/
def Asks (a : Analysis) (reply : Inquiry → Except Fault (Tree Scalar)) (t t' : Inquiry) : Prop :=
  t' ∈ (a.record reply t).asked

/-- The constants that the result of an inquiry adds to a pool. -/
def Result (reply : Inquiry → Except Fault (Tree Scalar)) (t : Inquiry) (u : Tree Scalar) : Prop :=
  ∃ v, reply t = .ok v ∧ (u = v ∨ u.Within v)

/-- The constants that computing an inquiry adds to a pool. -/
def Adds (a : Analysis) (reply : Inquiry → Except Fault (Tree Scalar)) (t : Inquiry)
    (u : Tree Scalar) : Prop :=
  (a.record reply t).Pooled u ∨ Result reply t u

end Analysis

namespace Stock

variable {s s' s'' : Stock} {asked new : List Inquiry}

/-- A tree is a constant of the pool. -/
def Has (s : Stock) (u : Tree Scalar) : Prop := ∃ id, s.pool.Denotes id u

/-- What it adds up to that a stock has come about from the stock `s` when certain inquiries were
asked: the inquiries `new` were computed. They are those to which the ones that were asked lead and
that were not in the cache. -/
structure Tally (a : Analysis) (reply : Inquiry → Except Fault (Tree Scalar)) (s : Stock)
    (asked : List Inquiry) (s' : Stock) (new : List Inquiry) : Prop where
  has : ∀ u, s'.Has u ↔ s.Has u ∨ ∃ t ∈ new, a.Adds reply t u
  done : ∀ t, s'.Done a t ↔ s.Done a t ∨ t ∈ new
  fresh : ∀ t ∈ new, ¬ s.Done a t
  once : new.Nodup
  answered : ∀ t ∈ asked, s'.Done a t
  closed : ∀ t ∈ new, ∀ t', a.Asks reply t t' → s'.Done a t'
  reached : ∀ t ∈ new, ∃ t₀ ∈ asked, ReflTransGen (a.Asks reply) t₀ t
  misses : s'.memo.misses = s.memo.misses + new.length
  lookups : s'.memo.hits + s'.memo.misses = s.memo.hits + s.memo.misses + asked.length +
    (new.flatMap fun t => (a.record reply t).asked).length
  size : s'.memo.size = s.memo.size + new.length

namespace Tally

/-- Nothing has been done. -/
theorem refl (s : Stock) : Tally a reply s [] s [] where
  has u := by simp
  done t := by simp
  fresh t ht := nomatch ht
  once := .nil
  answered t ht := nomatch ht
  closed t ht := nomatch ht
  reached t ht := nomatch ht
  misses := rfl
  lookups := rfl
  size := rfl

/-- What it adds up to that something was asked, and then something else. -/
theorem trans {asked' new' : List Inquiry} (h : Tally a reply s asked s' new)
    (h' : Tally a reply s' asked' s'' new') :
    Tally a reply s (asked ++ asked') s'' (new ++ new') where
  has u := by
    simp only [h'.has, h.has, List.mem_append, or_and_right, exists_or, or_assoc]
  done t := by rw [h'.done, h.done, List.mem_append, or_assoc]
  fresh t ht hdone := by
    rcases List.mem_append.1 ht with ht | ht
    · exact h.fresh t ht hdone
    · exact h'.fresh t ht ((h.done t).2 (.inl hdone))
  -- what is new the second time is fresh after the first one
  once := by
    refine List.nodup_append.2 ⟨h.once, h'.once, ?_⟩
    rintro t ht _ ht' rfl
    exact h'.fresh t ht' ((h.done t).2 (.inr ht))
  answered t ht := by
    rcases List.mem_append.1 ht with ht | ht
    · exact (h'.done t).2 (.inl (h.answered t ht))
    · exact h'.answered t ht
  closed t ht t' ht' := by
    rcases List.mem_append.1 ht with ht | ht
    · exact (h'.done t').2 (.inl (h.closed t ht t' ht'))
    · exact h'.closed t ht t' ht'
  reached t ht := by
    rcases List.mem_append.1 ht with ht | ht
    · obtain ⟨t₀, ht₀, hreach⟩ := h.reached t ht
      exact ⟨t₀, List.mem_append_left _ ht₀, hreach⟩
    · obtain ⟨t₀, ht₀, hreach⟩ := h'.reached t ht
      exact ⟨t₀, List.mem_append_right _ ht₀, hreach⟩
  misses := by rw [h'.misses, h.misses, List.length_append, Nat.add_assoc]
  lookups := by
    rw [h'.lookups, h.lookups, List.flatMap_append, List.length_append, List.length_append]
    omega
  size := by rw [h'.size, h.size, List.length_append, Nat.add_assoc]

/-- Uses make no difference. -/
theorem uses (h : Tally a reply s asked s' new) (hpool : s''.pool = s'.pool)
    (hmemo : s''.memo = s'.memo) : Tally a reply s asked s'' new := by
  obtain ⟨pool, uses, memo⟩ := s'
  obtain ⟨pool', uses', memo'⟩ := s''
  cases hpool
  cases hmemo
  exact ⟨h.has, h.done, h.fresh, h.once, h.answered, h.closed, h.reached, h.misses, h.lookups, h.size⟩

/-! ### Two orders -/

/-- Where nothing was in the cache, the inquiries that were computed are those to which the ones
that were asked lead. -/
theorem mem_iff (h : Tally a reply s asked s' new) (hempty : ∀ t, ¬ s.Done a t) (t : Inquiry) :
    t ∈ new ↔ ∃ t₀ ∈ asked, ReflTransGen (a.Asks reply) t₀ t := by
  have hnew : ∀ t, s'.Done a t → t ∈ new := fun t ht => ((h.done t).1 ht).resolve_left (hempty t)
  refine ⟨h.reached t, ?_⟩
  rintro ⟨t₀, ht₀, hreach⟩
  induction hreach with
  | refl => exact hnew t₀ (h.answered t₀ ht₀)
  | tail _ hstep ih => exact hnew _ (h.closed _ ih _ hstep)

variable {s₁ s₂ : Stock} {asked₁ asked₂ new₁ new₂ : List Inquiry}

section Empty

variable (h₁ : Tally a reply s asked₁ s₁ new₁) (h₂ : Tally a reply s asked₂ s₂ new₂)
  (hempty : ∀ t, ¬ s.Done a t) (hasked : asked₁.Perm asked₂)

include h₁ h₂ hempty hasked

/-- Where nothing was in the cache, it does not matter in which order inquiries are made. -/
theorem perm : new₁.Perm new₂ := by
  refine (List.perm_ext_iff_of_nodup h₁.once h₂.once).2 fun t => ?_
  rw [h₁.mem_iff hempty, h₂.mem_iff hempty]
  exact exists_congr fun t₀ => and_congr_left fun _ => hasked.mem_iff

/-- The counts of the cache do not depend on the order. -/
theorem counts_eq : s₁.memo.misses = s₂.memo.misses ∧ s₁.memo.hits = s₂.memo.hits ∧
    s₁.memo.size = s₂.memo.size := by
  have hperm := h₁.perm h₂ hempty hasked
  have hlength := hperm.length_eq
  have hmisses : s₁.memo.misses = s₂.memo.misses := by rw [h₁.misses, h₂.misses, hlength]
  have hlookups : s₁.memo.hits + s₁.memo.misses = s₂.memo.hits + s₂.memo.misses := by
    rw [h₁.lookups, h₂.lookups, hasked.length_eq, (hperm.flatMap_right _).length_eq]
  refine ⟨hmisses, ?_, ?_⟩
  · omega
  · rw [h₁.size, h₂.size, hlength]

/-- The constants do not depend on the order. -/
theorem has_iff (u : Tree Scalar) : s₁.Has u ↔ s₂.Has u := by
  have hmem : ∀ t, t ∈ new₁ ↔ t ∈ new₂ := fun t => (h₁.perm h₂ hempty hasked).mem_iff
  rw [h₁.has, h₂.has]
  simp only [hmem]

end Empty

end Tally

end Stock

end ConstPool
