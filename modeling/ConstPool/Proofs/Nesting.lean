import ConstPool.Proofs.Analysis

/-!
# How deeply calls nest

The bodies that run at one time form a chain in which each needs the next one directly, and all
of them belong to declarations that the analysis accepts. Such a chain always ends. Below a
declaration that has a place in the order it is no longer than the settings allow. A declaration
without a place, which depends on a recursive one, may lead a longer chain.

The length of a chain is bounded by heights where there are any: they fall by at least one from
each member to the next. Elsewhere a chain runs through declarations that are not recursive
themselves, and no declaration comes in it twice, so it ends for want of declarations.

* `Analysis.Stacked`: a chain of so many accepted declarations ends at a declaration.
* `Analysis.Shallow`: no chain from a declaration has more than so many accepted ones.
* `Analysis.Exposed`: a declaration leads to the end of a chain that is too long.
-/

namespace ConstPool.Analysis

open Relation

variable {a : Analysis} {n m : Node} {k : Nat}

/-- An accepted declaration needs another one directly. -/
structure Invokes (a : Analysis) (n m : Node) : Prop where
  accepts : a.Accepts n
  needs : m ∈ a.graph.needs.direct n
  accepts' : a.Accepts m

/-- A chain of so many accepted declarations, each of which needs the next one, ends at `n`. -/
inductive Stacked (a : Analysis) : Nat → Node → Prop
  | one {n : Node} : a.Accepts n → Stacked a 1 n
  | next {k : Nat} {n m : Node} : Stacked a k n → a.Invokes n m → Stacked a (k + 1) m

/-- Chains of accepted declarations that begin with `n` have at most so many members. -/
def Shallow (a : Analysis) : Nat → Node → Prop
  | 0, n => ¬ a.Accepts n
  | k + 1, n => ∀ m, a.Invokes n m → a.Shallow k m

/-- From `n` the end `m` of a chain is reached that has one member more than the settings allow. -/
structure Exposed (a : Analysis) (n m : Node) : Prop where
  reaches : ReflTransGen a.Invokes n m
  stacked : a.Stacked (a.settings.maxCallDepth + 1) m

namespace Shallow

/-- A declaration that is not accepted leads no chain. -/
theorem of_not_accepts (h : ¬ a.Accepts n) (k : Nat) : a.Shallow k n := by
  cases k with
  | zero => exact h
  | succ k => exact fun m hm => absurd hm.accepts h

/-- A bound on the members of the chains may be raised by one. -/
theorem succ (h : a.Shallow k n) : a.Shallow (k + 1) n := by
  induction k generalizing n with
  | zero => exact of_not_accepts h 1
  | succ k ih => exact fun m hm => ih (h m hm)

/-- A bound on the members of the chains may be raised. -/
theorem mono {k' : Nat} (h : a.Shallow k n) (hle : k ≤ k') : a.Shallow k' n := by
  induction hle with
  | refl => exact h
  | step _ ih => exact ih.succ

/-- Where a chain has led on, what is left of it is shorter. -/
theorem of_transGen (h : a.Shallow (k + 1) n) (hleads : TransGen a.Invokes n m) : a.Shallow k m := by
  induction hleads with
  | single hinvokes => exact h _ hinvokes
  | tail _ hinvokes ih =>
    cases k with
    | zero => exact absurd hinvokes.accepts ih
    | succ k => exact (ih _ hinvokes).succ

end Shallow

/-- The last declaration of a chain is accepted. -/
theorem Stacked.accepts (h : a.Stacked k n) : a.Accepts n := by
  cases h with
  | one h => exact h
  | next _ h => exact h.accepts'

/-- What can be invoked is a need in the sense of the call graph. -/
theorem Invokes.uses (hs : a.Sound) (h : a.Invokes n m) : a.graph.needs.Uses n m :=
  Needs.mem_known.2 ⟨h.needs, hs.key h.accepts'⟩

/-- A chain of accepted declarations does not come back. -/
theorem Sound.not_transGen (hs : a.Sound) (n : Node) : ¬ TransGen a.Invokes n n := by
  intro h
  obtain ⟨m, hm, -⟩ := TransGen.head'_iff.1 h
  refine hs.acyclic hm.accepts ?_
  rw [hs.cyclic, Needs.mem_cyclic_iff hs.keys]
  have huses : a.Invokes ≤ a.graph.needs.Uses := fun _ _ h => Invokes.uses hs h
  exact TransGen.mono huses n n h

/-- The members of a list have a common bound if each has one. -/
theorem exists_shallow_of_forall {ms : List Node} (h : ∀ m ∈ ms, ∃ k, a.Shallow k m) :
    ∃ k, ∀ m ∈ ms, a.Shallow k m := by
  induction ms with
  | nil => exact ⟨0, fun _ hm => nomatch hm⟩
  | cons m ms ih =>
    obtain ⟨hm, hms⟩ := List.forall_mem_cons.1 h
    obtain ⟨k, hk⟩ := hm
    obtain ⟨k', hk'⟩ := ih hms
    refine ⟨max k k', List.forall_mem_cons.2 ⟨hk.mono (Nat.le_max_left ..), fun m hm => ?_⟩⟩
    exact (hk' m hm).mono (Nat.le_max_right ..)

/-- The chains from a declaration have a longest one. -/
theorem Sound.exists_shallow (hs : a.Sound) (n : Node) : ∃ k, a.Shallow k n := by
  refine Needs.induct (motive := fun n => ∃ k, a.Shallow k n) (fun h => h.uses hs)
    (fun n ih => ?_) fun m _ => hs.not_transGen m
  by_cases hn : a.Accepts n
  · have hall : ∀ m ∈ a.graph.needs.direct n, ∃ k, a.Shallow k m := by
      intro m hneeds
      by_cases hm : a.Accepts m
      · exact ih m ⟨hn, hneeds, hm⟩
      · exact ⟨0, hm⟩
    obtain ⟨k, hk⟩ := exists_shallow_of_forall hall
    exact ⟨k + 1, fun m hm => hk m hm.needs⟩
  · exact ⟨0, hn⟩

/-! ### Declarations that have a place -/

/-- Below a declaration with a place chains are no longer than its height allows. -/
theorem Sound.shallow_of_placed (hs : a.Sound) {h : Nat} (hn : a.graph.layers.get? n = some h) :
    a.Shallow (h + 1) n := by
  induction h using Nat.strongRecOn generalizing n with
  | ind h ih =>
    intro m hm
    rw [hs.layers] at hn
    obtain ⟨h', hm', hlt⟩ := Needs.height_lt hs.keys hn (hm.uses hs)
    rw [← hs.layers] at hm'
    exact (ih h' hlt hm').mono hlt

/-- Below an accepted declaration with a place chains are no longer than the settings allow. -/
theorem Sound.shallow_of_accepts (hs : a.Sound) (hn : a.Accepts n)
    (hplaced : n ∈ a.graph.layers.keys) : a.Shallow a.settings.maxCallDepth n := by
  obtain ⟨h, hget⟩ := OrderedMap.exists_of_mem_keys hplaced
  exact (hs.shallow_of_placed hget).mono (hs.low hn hget)

/-- Without recursive declarations no chain is longer than the settings allow. -/
theorem Sound.shallow_of_acyclic (hs : a.Sound) (hacyclic : a.graph.cyclic = []) (n : Node) :
    a.Shallow a.settings.maxCallDepth n := by
  by_cases hn : a.Accepts n
  · refine hs.shallow_of_accepts hn ?_
    by_contra hplaced
    rw [hs.layers] at hplaced
    obtain ⟨m, -, hm⟩ := Needs.exists_cyclic hs.keys (hs.key hn) hplaced
    rw [← hs.cyclic, hacyclic] at hm
    cases hm
  · exact .of_not_accepts hn _

/-- A chain that begins where chains are short is short. -/
theorem Stacked.le_of_shallow (h : a.Stacked k n) {d : Nat} (hall : ∀ m, a.Shallow d m) :
    k ≤ d ∧ a.Shallow (d - k + 1) n := by
  induction h with
  | @one n hn =>
    have hd := hall n
    cases d with
    | zero => exact absurd hn hd
    | succ d => exact ⟨by omega, by simpa using hd⟩
  | @next k n m _ hm ih =>
    obtain ⟨hle, hshallow⟩ := ih
    have hnext := hshallow m hm
    rcases hzero : d - k with _ | j
    · rw [hzero] at hnext
      exact absurd hm.accepts' hnext
    · rw [hzero] at hnext
      refine ⟨by omega, ?_⟩
      rwa [show d - (k + 1) + 1 = j + 1 by omega]

/-- Without recursive declarations none is exposed. -/
theorem Sound.not_exposed_of_acyclic (hs : a.Sound) (hacyclic : a.graph.cyclic = []) :
    ¬ a.Exposed n m := by
  intro h
  have := (h.stacked.le_of_shallow (hs.shallow_of_acyclic hacyclic)).1
  omega

end ConstPool.Analysis
