import ConstPool.Proofs.Requests

/-!
# What the cache holds

A result is kept under the key of its request, and the key tells which request it was. So what is
known about the result when it is kept is known when it is looked up. It has to be something that
stays true while the pool grows. Results that are being computed are those of the bodies that run.

A request for a key is answered in one of three ways: from its cell, with a breach if its
computation is under way, or by computing it. The lemma about the cache treats them once, for any
property of outcomes that lasts while the pool grows, and every result about requests goes through
it.

* `Stock.Faithful`: every result in the cache is one of a request that passes.
* `Work.Answered`: what a request leaves behind.
* `Stock.Faithful.remember`: looking a result up, or computing and keeping it.
-/

namespace ConstPool

open Draft

/-- What may be known about the outcome of a request in a pool. -/
abbrev Account := Pool → Request ValueId Atom → Outcome → Prop

/-- Something about an outcome that stays true while the pool grows. -/
def Account.Lasting (P : Account) : Prop :=
  ∀ (p q : Pool) r o, p.Keeps q → P p r o → P q r o

/-- Every result in the cache is one of a request that passes, of which `P` is known. The results
that are being computed have their keys in a list. -/
structure Stock.Faithful (a : Analysis) (P : Account) (keys : List MemoKey) (s : Stock) : Prop where
  sound : s.pool.Sound
  done : ∀ {key o}, s.memo.cells.get? key = some (.done o) →
    ∃ r body, r.Passes a body ∧ r.key = key ∧ P s.pool r o
  running : ∀ {key}, s.memo.cells.get? key = some .running → key ∈ keys

/-- What a request leaves behind: a later stock with a faithful cache, and an outcome of which `P`
is known. -/
structure Work.Answered (α : Type) [Leaf α] (a : Analysis) (P : Account) (keys : List MemoKey)
    (s : Stock) (r : Request ValueId Atom) (x : Outcome × Stock) : Prop where
  grows : s.pool.Grows α x.2.pool
  faithful : x.2.Faithful a P keys
  explained : P x.2.pool r x.1

namespace Work

/-- A computation whose outcome is a fault fails with it. -/
theorem eq_error_of_outcome {β : Type} {work : Work β} {s s' : Stock} {f : Fault}
    (h : work.outcome s = (.error f, s')) : work s = .error f s' := by
  unfold outcome at h
  generalize work s = x at h ⊢
  cases x with
  | ok b after => cases h
  | error g after =>
    cases h
    rfl

variable {key : MemoKey} {compute : Work ValueId} {s : Stock}

/-- A result that is not in the cache is computed and kept. -/
theorem outcome_remember_of_none (h : s.memo.cells.get? key = none) :
    (remember key compute).outcome s =
      ((compute.outcome { s with memo := s.memo.start key }).1,
        { (compute.outcome { s with memo := s.memo.start key }).2 with
          memo := (compute.outcome { s with memo := s.memo.start key }).2.memo.finish key
            (compute.outcome { s with memo := s.memo.start key }).1 }) := by
  unfold outcome remember
  rw [h]
  dsimp only
  generalize compute { s with memo := s.memo.start key } = x
  cases x <;> rfl

/-- A result that is being computed is no answer. -/
theorem outcome_remember_of_running (h : s.memo.cells.get? key = some .running) :
    (remember key compute).outcome s = (.error (.breach (.computedTwice key.name)), s) := by
  unfold outcome remember
  rw [h]

/-- A result in the cache is the answer. -/
theorem outcome_remember_of_done {o : Outcome} (h : s.memo.cells.get? key = some (.done o)) :
    (remember key compute).outcome s = (o, { s with memo := s.memo.hit }) := by
  unfold outcome remember
  rw [h]
  cases o <;> rfl

end Work

namespace Stock.Faithful

variable {a : Analysis} {P : Account} {keys : List MemoKey} {s : Stock}

/-- An empty cache is faithful. -/
theorem of_empty (hsound : s.pool.Sound) (h : s.memo.cells = .empty) : s.Faithful a P keys where
  sound := hsound
  done hget := by
    rw [h, Dict.get?_empty] at hget
    cases hget
  running hget := by
    rw [h, Dict.get?_empty] at hget
    cases hget

/-- A cache is faithful to its cells alone, in any pool that is later. -/
theorem later (hP : P.Lasting) (h : s.Faithful a P keys) {s' : Stock}
    (hcells : s'.memo.cells = s.memo.cells) (hkeeps : s.pool.Keeps s'.pool)
    (hsound : s'.pool.Sound) : s'.Faithful a P keys where
  sound := hsound
  done hget := by
    rw [hcells] at hget
    obtain ⟨r, body, hpasses, hkey, ho⟩ := h.done hget
    exact ⟨r, body, hpasses, hkey, hP _ _ _ _ hkeeps ho⟩
  running hget := by
    rw [hcells] at hget
    exact h.running hget

/-- Pooling leaves the cache faithful. -/
theorem invariant (α : Type) [Leaf α] (hP : P.Lasting) (keys : List MemoKey) :
    Stock.Invariant α (Faithful a P keys) where
  sound h := h.sound
  grows h hgrows :=
    h.later hP (congrArg Memo.cells hgrows.memo) hgrows.pool.keeps hgrows.sound

/-- The computation of a key begins. -/
theorem start (h : s.Faithful a P keys) (key : MemoKey) :
    Stock.Faithful a P (key :: keys) { s with memo := s.memo.start key } where
  sound := h.sound
  done {key' o} hget := by
    rw [Memo.start, Dict.get?_insert] at hget
    split at hget
    · cases hget
    · exact h.done hget
  running {key'} hget := by
    rw [Memo.start, Dict.get?_insert] at hget
    split at hget
    · next heq => rw [heq]; exact List.mem_cons_self ..
    · exact List.mem_cons_of_mem _ (h.running hget)

/-- The computation of a key ends. -/
theorem finish {r : Request ValueId Atom} {body : Expr} {o : Outcome}
    (h : s.Faithful a P (r.key :: keys)) (hpasses : r.Passes a body) (ho : P s.pool r o) :
    Stock.Faithful a P keys { s with memo := s.memo.finish r.key o } where
  sound := h.sound
  done {key' o'} hget := by
    rw [Memo.finish, Dict.get?_insert] at hget
    split at hget
    · next heq =>
      cases hget
      exact ⟨r, body, hpasses, heq.symm, ho⟩
    · exact h.done hget
  running {key'} hget := by
    rw [Memo.finish, Dict.get?_insert] at hget
    split at hget
    · cases hget
    · next hne =>
      rcases List.mem_cons.1 (h.running hget) with heq | hmem
      · exact absurd heq hne
      · exact hmem

/-- A result is looked up, or it is computed and kept. Whatever is known about the outcome of the
computation is known about the outcome of the request. -/
theorem remember {α : Type} [Leaf α] (hP : P.Lasting) {r : Request ValueId Atom} {body : Expr}
    {compute : Work ValueId} (h : s.Faithful a P keys) (hpasses : r.Passes a body)
    (hkey : r.key ∉ keys)
    (hcompute : ∀ s' : Stock, s'.pool = s.pool → s'.Faithful a P (r.key :: keys) →
      Work.Answered α a P (r.key :: keys) s' r (compute.outcome s')) :
    Work.Answered α a P keys s r ((Work.remember r.key compute).outcome s) := by
  rcases hcell : s.memo.cells.get? r.key with _ | cell
  · have hanswered := hcompute { s with memo := s.memo.start r.key } rfl (h.start r.key)
    rw [Work.outcome_remember_of_none hcell]
    exact ⟨hanswered.grows, hanswered.faithful.finish hpasses hanswered.explained,
      hanswered.explained⟩
  · cases cell with
    | running => exact absurd (h.running hcell) hkey
    | done o =>
      obtain ⟨r', body', hpasses', heq, ho⟩ := h.done hcell
      obtain rfl := Request.eq_of_key_eq hpasses' hpasses heq
      have hafter : Stock.Faithful a P keys { s with memo := s.memo.hit } :=
        h.later hP rfl (.refl _) h.sound
      rw [Work.outcome_remember_of_done hcell]
      exact ⟨.refl _, hafter, ho⟩

end Stock.Faithful

end ConstPool
