import Mathlib.Data.List.Perm.Subperm
import Mathlib.Logic.Relation
import ConstPool.Proofs.Graph.Walk

/-!
# Depth-first search

A search for a vertex keeps a stack of vertices that it still has to look at and a list of those
that it has seen. It ends when the vertex comes to the top of the stack, or when the stack is empty.

In a finite graph every search ends: a vertex of which the successors are put on the stack was not
seen before, and between two of these the stack gets shorter. The vertices seen lead to nothing that
was neither seen nor put on the stack, so no way to the vertex is lost.

* `Graph.exists_searches`: a search in a finite graph ends.
* `Graph.Searches.found_iff`: it finds what can be reached.
-/

namespace ConstPool.Graph

open Relation

variable {α : Type} {next : α → List α} {target : α} {stack seen : List α} {found : Bool}

/-- The course of a depth-first search for a vertex, from a stack, the top first, and the vertices
seen so far, to whether the vertex was found. -/
inductive Searches (next : α → List α) (target : α) : List α → List α → Bool → Prop
  | exhausted (seen : List α) : Searches next target [] seen false
  | found (rest seen : List α) : Searches next target (target :: rest) seen true
  | again {v : α} {rest seen : List α} {found : Bool} : v ≠ target → v ∈ seen →
    Searches next target rest seen found → Searches next target (v :: rest) seen found
  | new {v : α} {rest seen : List α} {found : Bool} : v ≠ target → v ∉ seen →
    Searches next target ((next v).reverse ++ rest) (v :: seen) found →
      Searches next target (v :: rest) seen found

/-! ### The end of a search -/

variable [DecidableEq α]

/-- The vertices of a list that were not seen. -/
def unseen (vs seen : List α) : List α := vs.filter fun v => v ∉ seen

/-- Seeing a vertex of the list for the first time leaves fewer. -/
theorem length_unseen_cons_lt {vs : List α} {v : α} (hv : v ∈ vs) (hnew : v ∉ seen) :
    (unseen vs (v :: seen)).length < (unseen vs seen).length := by
  have hsub : unseen vs (v :: seen) = (unseen vs seen).filter fun u => u ≠ v := by
    rw [unseen, unseen, List.filter_filter]
    refine List.filter_congr fun u _ => ?_
    simp [not_or]
  rw [hsub]
  refine List.length_filter_lt_length_iff_exists.2 ⟨v, ?_, by simp⟩
  exact List.mem_filter.2 ⟨hv, decide_eq_true hnew⟩

/-- A search in a finite graph ends. -/
theorem exists_searches {vs : List α} (hnext : ∀ v ∈ vs, next v ⊆ vs) (target : α)
    (hstack : stack ⊆ vs) (seen : List α) : ∃ found, Searches next target stack seen found := by
  -- the outer induction is on the vertices not seen, the inner one on the stack
  generalize hcount : (unseen vs seen).length = count
  induction count using Nat.strongRecOn generalizing stack seen with
  | ind count ih =>
    induction stack with
    | nil => exact ⟨false, .exhausted seen⟩
    | cons v rest ihrest =>
      obtain ⟨hv, hrest⟩ := List.cons_subset.1 hstack
      by_cases htarget : v = target
      · subst htarget
        exact ⟨true, .found rest seen⟩
      · by_cases hseen : v ∈ seen
        · obtain ⟨found, h⟩ := ihrest hrest
          exact ⟨found, .again htarget hseen h⟩
        · have hlt := length_unseen_cons_lt hv hseen
          rw [hcount] at hlt
          have hpushed : (next v).reverse ++ rest ⊆ vs :=
            List.append_subset.2 ⟨List.reverse_subset.2 (hnext v hv), hrest⟩
          obtain ⟨found, h⟩ := ih _ hlt hpushed (v :: seen) rfl
          exact ⟨found, .new htarget hseen h⟩

/-! ### What a search finds -/

omit [DecidableEq α] in
/-- What is found can be reached from the stack. -/
theorem Searches.reached (h : Searches next target stack seen true) :
    ∃ r ∈ stack, ReflTransGen (Leads next) r target := by
  generalize hfound : true = found at h
  induction h with
  | exhausted => cases hfound
  | found rest seen => exact ⟨target, List.mem_cons_self .., .refl⟩
  | again _ _ _ ih =>
    obtain ⟨r, hr, hreach⟩ := ih hfound
    exact ⟨r, List.mem_cons_of_mem _ hr, hreach⟩
  | new _ _ _ ih =>
    obtain ⟨r, hr, hreach⟩ := ih hfound
    rcases List.mem_append.1 hr with hr | hr
    · exact ⟨_, List.mem_cons_self .., .head (List.mem_reverse.1 hr) hreach⟩
    · exact ⟨r, List.mem_cons_of_mem _ hr, hreach⟩

/-- The vertices seen so far are not the one that is searched, and lead to what was seen or waits
on the stack. -/
structure Explored (next : α → List α) (target : α) (stack seen : List α) : Prop where
  missed : target ∉ seen
  closed : ∀ v ∈ seen, ∀ u ∈ next v, u ∈ seen ∨ u ∈ stack

omit [DecidableEq α] in
/-- What is not found cannot be reached. -/
theorem Searches.unreached (h : Searches next target stack seen false)
    (hexplored : Explored next target stack seen) :
    ∀ r, r ∈ seen ∨ r ∈ stack → ¬ ReflTransGen (Leads next) r target := by
  generalize hfound : false = found at h
  induction h with
  | exhausted seen =>
    obtain ⟨hmissed, hclosed⟩ := hexplored
    intro r hr hreach
    -- nothing is left on the stack, so what was seen is closed under the edges
    have hall : target ∈ seen := by
      clear hmissed
      induction hreach with
      | refl => exact hr.resolve_right List.not_mem_nil
      | tail _ hstep ih => exact (hclosed _ ih _ hstep).resolve_right List.not_mem_nil
    exact hmissed hall
  | found => cases hfound
  | again _ hseen _ ih =>
    refine fun r hr => ih ⟨hexplored.missed, fun v hv u hu => ?_⟩ hfound r
      (hr.elim .inl fun hr => ?_)
    · rcases hexplored.closed v hv u hu with hu | hu
      · exact .inl hu
      · rcases List.mem_cons.1 hu with rfl | hu
        · exact .inl hseen
        · exact .inr hu
    · rcases List.mem_cons.1 hr with rfl | hr
      · exact .inl hseen
      · exact .inr hr
  | @new v rest seen _ htarget _ _ ih =>
    -- the neighbours of the vertex are on the stack, so it counts as explored
    have hnext : Explored next target ((next v).reverse ++ rest) (v :: seen) := by
      refine ⟨fun hin => ?_, fun u hu w hw => ?_⟩
      · rcases List.mem_cons.1 hin with heq | hin
        · exact htarget heq.symm
        · exact hexplored.missed hin
      · rcases List.mem_cons.1 hu with rfl | hu
        · exact .inr (List.mem_append_left _ (List.mem_reverse.2 hw))
        · rcases hexplored.closed u hu w hw with hw | hw
          · exact .inl (List.mem_cons_of_mem _ hw)
          · rcases List.mem_cons.1 hw with rfl | hw
            · exact .inl (List.mem_cons_self ..)
            · exact .inr (List.mem_append_right _ hw)
    intro r hr
    refine ih hnext hfound r ?_
    rcases hr with hr | hr
    · exact .inl (List.mem_cons_of_mem _ hr)
    · rcases List.mem_cons.1 hr with rfl | hr
      · exact .inl (List.mem_cons_self ..)
      · exact .inr (List.mem_append_right _ hr)

omit [DecidableEq α] in
/-- A search that starts with nothing seen finds the vertex exactly if it can be reached from the
stack. -/
theorem Searches.found_iff (h : Searches next target stack [] found) :
    found = true ↔ ∃ r ∈ stack, ReflTransGen (Leads next) r target := by
  cases found with
  | true => exact ⟨fun _ => h.reached, fun _ => rfl⟩
  | false =>
    have hnone := h.unreached ⟨List.not_mem_nil, fun v hv => (List.not_mem_nil hv).elim⟩
    refine ⟨fun h => (Bool.false_ne_true h).elim, ?_⟩
    rintro ⟨r, hr, hreach⟩
    exact absurd hreach (hnone r (.inr hr))

end ConstPool.Graph
