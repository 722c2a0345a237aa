import ConstPool.Draft.Same
import ConstPool.Proofs.Draft.Meaning

/-!
# Sameness is equality of meaning

Drafts are compared by identity where they are pooled and part by part where they are not. In a
sound pool both come to the same: two drafts are the same exactly if they mean the same tree. The
comparison never fails.

The lists that are compared may be of different lengths, and the comparison stops at the first
difference. `agreeAll` is the one traversal that all these comparisons are: of items, of arguments,
of entries and of fields, against the pool or against each other.

* `Draft.Means.agrees`: a draft against an atom.
* `Draft.Means.same`: two drafts.
-/

namespace ConstPool

namespace Draft

/-! ### Comparing lists -/

/-- Whether two lists have the same length and their members pass a test one by one. -/
def agreeAll {A B : Type} (test : A → B → Except Fault Bool) : List A → List B → Except Fault Bool
  | [], [] => .ok true
  | x :: xs, y :: ys => do if ← test x y then agreeAll test xs ys else return false
  | _, _ => .ok false

/-- The test of a pair: the first components, and then the second ones. -/
def both (first second : Except Fault Bool) : Except Fault Bool := do
  if ← first then second else return false

/-- If the tests of the components tell whether these are equal, the test of the pair does. -/
theorem both_ok {S T : Type} [DecidableEq S] [DecidableEq T] {first second : Except Fault Bool}
    {x y : S × T} (hfirst : first = .ok (decide (x.1 = y.1)))
    (hsecond : second = .ok (decide (x.2 = y.2))) : both first second = .ok (decide (x = y)) := by
  subst hfirst hsecond
  by_cases h : x.1 = y.1 <;>
    simp [both, h, Prod.ext_iff, pure, Except.pure, bind, Except.bind]

section Lists

variable {pool : Pool}

/-- Items agree with those in the same places. -/
theorem agreeItems_eq (xs : List Draft) (ys : List Atom) :
    agreeItems pool xs ys = agreeAll (fun x y => x.agrees pool y) xs ys := by
  induction xs generalizing ys with
  | nil => cases ys <;> simp [agreeItems, agreeAll]
  | cons x xs ih => cases ys <;> simp [agreeItems, agreeAll, ih]

/-- Type arguments agree with the constants in the same places. -/
theorem agreeArgs_eq (xs : List Draft) (ys : List ValueId) :
    agreeArgs pool xs ys = agreeAll (fun x y => x.agrees pool (.ref y)) xs ys := by
  induction xs generalizing ys with
  | nil => cases ys <;> simp [agreeArgs, agreeAll]
  | cons x xs ih => cases ys <;> simp [agreeArgs, agreeAll, ih]

/-- Entries agree in their keys and then in their values. -/
theorem agreeEntries_eq (xs : List (Draft × Draft)) (ys : List (Atom × Atom)) :
    agreeEntries pool xs ys =
      agreeAll (fun x y => both (x.1.agrees pool y.1) (x.2.agrees pool y.2)) xs ys := by
  induction xs generalizing ys with
  | nil => cases ys <;> simp [agreeEntries, agreeAll]
  | cons x xs ih =>
    cases ys with
    | nil => simp [agreeEntries, agreeAll]
    | cons y ys =>
      simp only [agreeEntries, agreeAll, both, ih]
      rcases x.1.agrees pool y.1 with _ | _ | _ <;> rfl

/-- Fields agree in their names and then in their values. -/
theorem agreeFields_eq (xs : List (String × Draft)) (ys : List (String × Atom)) :
    agreeFields pool xs ys =
      agreeAll (fun x y => both (.ok (decide (x.1 = y.1))) (x.2.agrees pool y.2)) xs ys := by
  induction xs generalizing ys with
  | nil => cases ys <;> simp [agreeFields, agreeAll]
  | cons x xs ih =>
    cases ys with
    | nil => simp [agreeFields, agreeAll]
    | cons y ys =>
      simp only [agreeFields, agreeAll, both, ih]
      by_cases h : x.1 = y.1 <;> simp [h, bind, Except.bind, pure, Except.pure]

/-- Items are the same as those in the same places. -/
theorem sameItems_eq (xs ys : List Draft) :
    sameItems pool xs ys = agreeAll (fun x y => x.same pool y) xs ys := by
  induction xs generalizing ys with
  | nil => cases ys <;> simp [sameItems, agreeAll]
  | cons x xs ih => cases ys <;> simp [sameItems, agreeAll, ih]

/-- Entries are the same in their keys and then in their values. -/
theorem sameEntries_eq (xs ys : List (Draft × Draft)) :
    sameEntries pool xs ys =
      agreeAll (fun x y => both (x.1.same pool y.1) (x.2.same pool y.2)) xs ys := by
  induction xs generalizing ys with
  | nil => cases ys <;> simp [sameEntries, agreeAll]
  | cons x xs ih =>
    cases ys with
    | nil => simp [sameEntries, agreeAll]
    | cons y ys =>
      simp only [sameEntries, agreeAll, both, ih]
      rcases x.1.same pool y.1 with _ | _ | _ <;> rfl

/-- Fields are the same in their names and then in their values. -/
theorem sameFields_eq (xs ys : List (String × Draft)) :
    sameFields pool xs ys =
      agreeAll (fun x y => both (.ok (decide (x.1 = y.1))) (x.2.same pool y.2)) xs ys := by
  induction xs generalizing ys with
  | nil => cases ys <;> simp [sameFields, agreeAll]
  | cons x xs ih =>
    cases ys with
    | nil => simp [sameFields, agreeAll]
    | cons y ys =>
      simp only [sameFields, agreeAll, both, ih]
      by_cases h : x.1 = y.1 <;> simp [h, bind, Except.bind, pure, Except.pure]

end Lists

/-- If the test of a member tells whether what the members mean is equal, the test of a list tells
whether what the lists mean is equal. -/
theorem agreeAll_ok {A B T : Type} [DecidableEq T] {test : A → B → Except Fault Bool}
    {V : B → T → Prop} {f : A → T} {xs : List A}
    (h : ∀ x ∈ xs, ∀ y u, V y u → test x y = .ok (decide (f x = u)))
    {ys : List B} {us : List T} (hys : List.Forall₂ V ys us) :
    agreeAll test xs ys = .ok (decide (xs.map f = us)) := by
  induction hys generalizing xs with
  | nil => cases xs <;> simp [agreeAll]
  | @cons y u ys us hyu _ ih =>
    cases xs with
    | nil => simp [agreeAll]
    | cons x xs =>
      obtain ⟨hx, hxs⟩ := List.forall_mem_cons.1 h
      rw [agreeAll, hx y u hyu, ih hxs]
      by_cases hu : f x = u <;> simp [hu, bind, Except.bind, pure, Except.pure]

/-- To test what is made of the members is a test of the members. -/
theorem agreeAll_map {A A' B : Type} {test : A → B → Except Fault Bool} {g : A' → A}
    {xs : List A'} {ys : List B} :
    agreeAll test (xs.map g) ys = agreeAll (fun x y => test (g x) y) xs ys := by
  induction xs generalizing ys with
  | nil => cases ys <;> simp [agreeAll]
  | cons x xs ih => cases ys <;> simp [agreeAll, ih]

/-- A test that is made only if the lengths are equal, of lists whose equality it decides. -/
theorem ite_length_ok {T : Type} [DecidableEq T] {x y : Nat} {xs ys : List T}
    {test : Except Fault Bool} (hx : x = xs.length) (hy : y = ys.length)
    (h : test = .ok (decide (xs = ys))) :
    (if x = y then test else .ok false) = .ok (decide (xs = ys)) := by
  split
  · exact h
  · next hne =>
    have : xs ≠ ys := by
      rintro rfl
      exact hne (hx.trans hy.symm)
    simp [this]

/-- A test that is made only if a condition holds and the lengths are equal. -/
theorem ite_and_length_ok {P : Prop} [Decidable P] {T : Type} [DecidableEq T] {x y : Nat}
    {xs ys : List T} {test : Except Fault Bool} (hx : x = xs.length) (hy : y = ys.length)
    (h : test = .ok (decide (xs = ys))) :
    (if P ∧ x = y then test else .ok false) = .ok (decide (P ∧ xs = ys)) := by
  by_cases hP : P
  · simpa [hP] using ite_length_ok hx hy h
  · simp [hP]

/-- A test that is made only if a condition holds. -/
theorem ite_ok {P Q : Prop} [Decidable P] [Decidable Q] {test : Except Fault Bool}
    (h : test = .ok (decide Q)) :
    (if P then test else .ok false) = .ok (decide (P ∧ Q)) := by
  split <;> simp_all

variable {α : Type} [Leaf α] [DecidableEq α] {pool : Pool} {d e : Draft} {t u : Tree α}

/-! ### A draft against the pool -/

/-- The test of a draft against atoms decides whether they mean the same tree. -/
def Discerns (pool : Pool) (d : Draft) (t : Tree α) : Prop :=
  ∀ a u, Means pool (.atom a) u → d.agrees pool a = .ok (decide (t = u))

/-- A constant that is there can be read. -/
theorem get_of_get? {id : ValueId} {value : Value} (h : pool.get? id = some value) :
    pool.get id = .ok value := Pool.get_eq_ok_iff.2 h

/-- A shape is no scalar of the pool. -/
theorem agrees_scalar {l : Shape Draft Draft} {id : ValueId} {s : Scalar}
    (hget : pool.get? id = some (.scalar s)) :
    (fresh l).agrees pool (.ref id) = .ok false := by
  rcases l with _ | ⟨⟨items⟩⟩ | _ | _ | _ <;>
    simp [Draft.agrees, get_of_get? hget, bind, Except.bind, pure, Except.pure]

/-- Two layers are compared part by part. -/
theorem agrees_layer {z : Shape (Draft × Tree α) (Draft × Tree α)} {id : ValueId}
    {l : Shape Atom ValueId} {m : Shape (Tree α) (Tree α)}
    (hparts : ∀ e ∈ z.partList, Discerns pool e.1 e.2)
    (hargs : ∀ e ∈ z.argList, Discerns pool e.1 e.2)
    (hget : pool.get? id = some (.shape l)) (hlayer : LayerMeans pool l m) :
    (fresh (z.mapParts Prod.fst Prod.fst)).agrees pool (.ref id) =
      .ok (decide (Tree.node (z.mapParts Prod.snd Prod.snd) = .node m)) := by
  have hget := get_of_get? hget
  simp only [Tree.node.injEq]
  -- layers of different kinds disagree at once; of one kind they are compared with the loop over
  -- its parts
  cases z with
  | text x =>
    cases hlayer <;> simp [Draft.agrees, Shape.mapParts, hget, bind, Except.bind, pure, Except.pure]
  | list items =>
    obtain ⟨items⟩ := items
    cases hlayer with
    | @list xs ys h =>
      have hall := agreeAll_ok (fun e he => hparts e he) h
      simp only [Draft.agrees, Shape.mapParts, List.map_toArray, hget, bind, Except.bind, pure,
        Except.pure, agreeItems_eq, agreeAll_map, Shape.list.injEq, ← Array.toList_inj]
      exact ite_length_ok (by simp) (by simpa using h.length_eq) hall
    | _ => simp [Draft.agrees, Shape.mapParts, hget, bind, Except.bind, pure, Except.pure]
  | map entries =>
    cases hlayer with
    | @map xs ys h =>
      have htest : ∀ e ∈ entries, ∀ (y : Atom × Atom) (u : Tree α × Tree α),
          Means pool (.atom y.1) u.1 ∧ Means pool (.atom y.2) u.2 →
          both (e.1.1.agrees pool y.1) (e.2.1.agrees pool y.2) =
            .ok (decide ((e.1.2, e.2.2) = u)) := by
        intro e he y u hyu
        have hkey := hparts _ (Shape.key_mem_partList he) _ _ hyu.1
        have hvalue := hparts _ (Shape.value_mem_partList he) _ _ hyu.2
        exact both_ok hkey hvalue
      have hall := agreeAll_ok htest h
      simpa only [Draft.agrees, Shape.mapParts, hget, bind, Except.bind, agreeEntries_eq,
        agreeAll_map, Shape.map.injEq] using hall
    | _ => simp [Draft.agrees, Shape.mapParts, hget, bind, Except.bind, pure, Except.pure]
  | object c fields =>
    cases hlayer with
    | @object c' xs ys h =>
      have htest : ∀ e ∈ fields, ∀ (y : String × Atom) (u : String × Tree α),
          y.1 = u.1 ∧ Means pool (.atom y.2) u.2 →
          both (.ok (decide (e.1 = y.1))) (e.2.1.agrees pool y.2) =
            .ok (decide ((e.1, e.2.2) = u)) := by
        intro e he y u hyu
        have hvalue := hparts _ (List.mem_map_of_mem he) _ _ hyu.2
        refine both_ok ?_ hvalue
        rw [hyu.1]
      have hall := agreeAll_ok htest h
      simp only [Draft.agrees, Shape.mapParts, hget, bind, Except.bind, pure, Except.pure,
        agreeFields_eq, agreeAll_map, Shape.object.injEq]
      exact ite_ok hall
    | _ => simp [Draft.agrees, Shape.mapParts, hget, bind, Except.bind, pure, Except.pure]
  | type n args =>
    cases hlayer with
    | @type n' xs ys h =>
      have hall := agreeAll_ok (fun e he y u hyu => hargs e he (.ref y) u hyu) h
      simp only [Draft.agrees, Shape.mapParts, hget, bind, Except.bind, pure, Except.pure,
        agreeArgs_eq, agreeAll_map, Shape.type.injEq]
      exact ite_ok hall
    | _ => simp [Draft.agrees, Shape.mapParts, hget, bind, Except.bind, pure, Except.pure]

/-! ### Atoms -/

namespace Means

omit [DecidableEq α] in
/-- Atoms of a sound pool are equal exactly if they mean the same tree. -/
theorem atom_eq_iff (hsound : pool.Sound) {a b : Atom} (ha : Means pool (.atom a) t)
    (hb : Means pool (.atom b) u) : a = b ↔ t = u := by
  constructor
  · rintro rfl
    exact ha.functional hb
  · rintro rfl
    exact ha.atom_unique hsound hb

omit [DecidableEq α] in
/-- A shape never means a leaf, so it is no scalar. -/
theorem not_scalar {l : Shape Draft Draft} {s : Scalar} (h : Means pool (.fresh l) t)
    (h' : Means pool (.atom (.scalar s)) u) : t ≠ u := by
  obtain ⟨m, rfl, -, -⟩ := h.of_layer
  rw [scalar_iff.1 h']
  rintro ⟨⟩

/-! ### A draft against the pool -/

/-- A draft agrees with an atom exactly if both mean the same tree. -/
theorem agrees (hsound : pool.Sound) (h : Means pool d t) {a : Atom}
    (ha : Means pool (.atom a) u) : d.agrees pool a = .ok (decide (t = u)) := by
  induction h generalizing a u with
  | inPlace s =>
    have h : Means pool (.atom (.scalar s)) (.leaf (Leaf.inPlace s) : Tree α) := .inPlace s
    have hiff := h.atom_eq_iff hsound ha
    cases a <;> simp [Draft.agrees, ← hiff]
  | @byReference id s x hget hx =>
    have h : Means pool (.atom (.ref id)) (.leaf x) := .byReference hget hx
    have hiff := h.atom_eq_iff hsound ha
    cases a <;> simp [Draft.agrees, ← hiff]
  | @pooled id z hget hparts hargs =>
    have hiff := (Means.pooled z hget hparts hargs).atom_eq_iff hsound ha
    cases a <;> simp [Draft.agrees, ← hiff]
  | fresh z hordered hparts hargs hscalar ihparts ihargs =>
    cases a with
    | scalar s =>
      have hne := (Means.fresh z hordered hparts hargs hscalar).not_scalar ha
      simp [Draft.agrees, hne]
    | ref id =>
      rcases ha.of_ref with ⟨s, x, hget, -, rfl⟩ | ⟨l, m, hget, hlayer, rfl⟩
      · simp [agrees_scalar hget]
      · exact agrees_layer (fun e he _ _ => ihparts e he) (fun e he _ _ => ihargs e he) hget hlayer

end Means

/-! ### Two drafts -/

/-- The test of a draft against drafts decides whether they mean the same tree. -/
def Decides (pool : Pool) (d : Draft) (t : Tree α) : Prop :=
  ∀ e u, Means pool e u → d.same pool e = .ok (decide (t = u))

/-- Two layers that are not pooled are compared part by part. -/
theorem same_layer {z : Shape (Draft × Tree α) (Draft × Tree α)} {l : Shape Draft Draft}
    {m : Shape (Tree α) (Tree α)} (hparts : ∀ e ∈ z.partList, Decides pool e.1 e.2)
    (hargs : ∀ e ∈ z.argList, Decides pool e.1 e.2) (hlayer : FreshMeans pool l m) :
    (fresh (z.mapParts Prod.fst Prod.fst)).same pool (.fresh l) =
      .ok (decide (Tree.node (z.mapParts Prod.snd Prod.snd) = .node m)) := by
  simp only [Tree.node.injEq]
  cases z with
  | text x =>
    rcases hlayer with _ | @⟨⟨xs⟩, ys, h⟩ | _ | _ | _ <;> simp [Draft.same, Shape.mapParts]
  | list items =>
    obtain ⟨items⟩ := items
    cases hlayer with
    | @list xs ys h =>
      obtain ⟨xs⟩ := xs
      have hall := agreeAll_ok (fun e he => hparts e he) h
      simp only [Draft.same, Shape.mapParts, List.map_toArray, sameItems_eq, agreeAll_map,
        Shape.list.injEq, ← Array.toList_inj]
      exact ite_length_ok (by simp) h.length_eq hall
    | _ => simp [Draft.same, Shape.mapParts]
  | map entries =>
    rcases hlayer with _ | @⟨⟨xs⟩, ys, h⟩ | @⟨xs, ys, h⟩ | _ | _
    case map =>
      have htest : ∀ e ∈ entries, ∀ (y : Draft × Draft) (u : Tree α × Tree α),
          Means pool y.1 u.1 ∧ Means pool y.2 u.2 →
          both (e.1.1.same pool y.1) (e.2.1.same pool y.2) =
            .ok (decide ((e.1.2, e.2.2) = u)) := by
        intro e he y u hyu
        have hkey := hparts _ (Shape.key_mem_partList he) _ _ hyu.1
        have hvalue := hparts _ (Shape.value_mem_partList he) _ _ hyu.2
        exact both_ok hkey hvalue
      have hall := agreeAll_ok htest h
      simp only [Draft.same, Shape.mapParts, sameEntries_eq, agreeAll_map, Shape.map.injEq]
      exact ite_length_ok (by simp) h.length_eq hall
    all_goals simp [Draft.same, Shape.mapParts]
  | object c fields =>
    rcases hlayer with _ | @⟨⟨xs⟩, ys, h⟩ | _ | @⟨c', xs, ys, h⟩ | _
    case object =>
      have htest : ∀ e ∈ fields, ∀ (y : String × Draft) (u : String × Tree α),
          y.1 = u.1 ∧ Means pool y.2 u.2 →
          both (.ok (decide (e.1 = y.1))) (e.2.1.same pool y.2) =
            .ok (decide ((e.1, e.2.2) = u)) := by
        intro e he y u hyu
        have hvalue := hparts _ (List.mem_map_of_mem he) _ _ hyu.2
        refine both_ok ?_ hvalue
        rw [hyu.1]
      have hall := agreeAll_ok htest h
      simp only [Draft.same, Shape.mapParts, sameFields_eq, agreeAll_map, Shape.object.injEq]
      exact ite_and_length_ok (by simp) h.length_eq hall
    all_goals simp [Draft.same, Shape.mapParts]
  | type n args =>
    rcases hlayer with _ | @⟨⟨xs⟩, ys, h⟩ | _ | _ | @⟨n', xs, ys, h⟩
    case type =>
      have hall := agreeAll_ok (fun e he y u hyu => hargs e he y u hyu.1) h
      simp only [Draft.same, Shape.mapParts, sameItems_eq, agreeAll_map, Shape.type.injEq]
      exact ite_and_length_ok (by simp) h.length_eq hall
    all_goals simp [Draft.same, Shape.mapParts]

/-- Two drafts are the same exactly if they mean the same tree. -/
theorem Means.same (hsound : pool.Sound) (h : Means pool d t) (h' : Means pool e u) :
    d.same pool e = .ok (decide (t = u)) := by
  -- on what the first draft means; a pooled one is compared by identity, or read against the layer
  -- of the other
  induction h generalizing e u with
  | inPlace s =>
    have h : Means pool (.atom (.scalar s)) (.leaf (Leaf.inPlace s) : Tree α) := .inPlace s
    rcases e with ⟨s' | j⟩ | l
    · simp [Draft.same, ← h.atom_eq_iff hsound h']
    · simp [Draft.same, ← h.atom_eq_iff hsound h']
    · simp [Draft.same, (h'.not_scalar h).symm]
  | @byReference id s x hget hx =>
    have h : Means pool (.atom (.ref id)) (.leaf x) := .byReference hget hx
    rcases e with ⟨s' | j⟩ | l
    · simp [Draft.same, ← h.atom_eq_iff hsound h']
    · simp [Draft.same, ← h.atom_eq_iff hsound h']
    · rw [Draft.same, h'.agrees hsound h]
      simp [eq_comm]
  | @pooled id z hget hparts hargs =>
    have h := Means.pooled z hget hparts hargs
    rcases e with ⟨s' | j⟩ | l
    · simp [Draft.same, ← h.atom_eq_iff hsound h']
    · simp [Draft.same, ← h.atom_eq_iff hsound h']
    · rw [Draft.same, h'.agrees hsound h]
      simp [eq_comm]
  | fresh z hordered hparts hargs hscalar ihparts ihargs =>
    have h := Means.fresh z hordered hparts hargs hscalar
    rcases e with ⟨s' | j⟩ | l
    · have hsame : ∀ l, (Draft.fresh l).same pool (.atom (.scalar s')) = .ok false := by
        intro l
        rcases l with _ | ⟨⟨items⟩⟩ | _ | _ | _ <;> rfl
      simp [hsame, h.not_scalar h']
    · have hsame : ∀ l, (Draft.fresh l).same pool (.atom (.ref j)) =
          (Draft.fresh l).agrees pool (.ref j) := by
        intro l
        rcases l with _ | ⟨⟨items⟩⟩ | _ | _ | _ <;> rfl
      rw [hsame, h.agrees hsound h']
    · obtain ⟨m, rfl, -, hlayer⟩ := h'.of_layer
      exact same_layer (fun e he _ _ => ihparts e he) (fun e he _ _ => ihargs e he) hlayer

end Draft

end ConstPool
