import Mathlib.Data.List.Forall2
import ConstPool.Constant.Operators
import ConstPool.Proofs.Agreement

/-!
# Layers that correspond

Two shapes correspond if they are of the same case, have the same names and lengths, and their
parts correspond in order. A constant of the pool, a draft and a tree are compared in this way, one
layer at a time.

Whatever is proved about shapes is proved for all kinds of constants at once. The parts of a layer
are listed from left to right, the key of an entry before its value, and arguments of types apart
from them. So a lemma about a layer is one about two lists, and its five cases are looked at here.

* `Shape.Rel`: the correspondence.
* `Shape.Rel.of_zip`, `Shape.Rel.exists_zip`: a pair of layers that correspond is a layer of pairs.
* `Shape.Rel.left_unique`, `Shape.Rel.right_unique`: a layer is determined by the other one if the
  parts are.
* `Shape.Rel.traverseParts`, `Shape.results_traverseParts`: what a traversal comes to.
* `Shape.Ordered`: the fields of an object stand in the strict order of their names.
-/

namespace ConstPool

/-! ### Lists whose members correspond -/

section Lists

variable {α β : Type} {R : α → β → Prop}

/-- Lists of pairs are lists that correspond. -/
theorem forall₂_unzip {zs : List (α × β)} (h : ∀ z ∈ zs, R z.1 z.2) :
    List.Forall₂ R (zs.map Prod.fst) (zs.map Prod.snd) := by
  rw [List.forall₂_map_left_iff, List.forall₂_map_right_iff]
  exact List.forall₂_same.2 h

/-- Lists that correspond are a list of pairs. -/
theorem exists_unzip {xs : List α} {ys : List β} (h : List.Forall₂ R xs ys) :
    ∃ zs : List (α × β), xs = zs.map Prod.fst ∧ ys = zs.map Prod.snd ∧ ∀ z ∈ zs, R z.1 z.2 := by
  induction h with
  | nil => exact ⟨[], rfl, rfl, by simp⟩
  | @cons x y _ _ hxy _ ih =>
    obtain ⟨zs, rfl, rfl, hzs⟩ := ih
    exact ⟨(x, y) :: zs, rfl, rfl, List.forall_mem_cons.2 ⟨hxy, hzs⟩⟩

/-- If every member of a list has a partner, the list has one. -/
theorem exists_forall₂ {xs : List α} (h : ∀ x ∈ xs, ∃ y, R x y) : ∃ ys, List.Forall₂ R xs ys := by
  induction xs with
  | nil => exact ⟨[], .nil⟩
  | cons x xs ih =>
    obtain ⟨hx, hxs⟩ := List.forall_mem_cons.1 h
    obtain ⟨y, hy⟩ := hx
    obtain ⟨ys, hys⟩ := ih hxs
    exact ⟨y :: ys, .cons hy hys⟩

/-- Every member of a list has a partner in a list that corresponds. -/
theorem exists_of_forall₂ {xs : List α} {ys : List β} (h : List.Forall₂ R xs ys) {x : α}
    (hx : x ∈ xs) : ∃ y ∈ ys, R x y := by
  induction h with
  | nil => cases hx
  | @cons x' y' _ _ hxy _ ih =>
    rcases List.mem_cons.1 hx with rfl | hx
    · exact ⟨y', List.mem_cons_self .., hxy⟩
    · obtain ⟨y, hy, hxy⟩ := ih hx
      exact ⟨y, List.mem_cons_of_mem _ hy, hxy⟩

/-- Members that correspond to members related in pairs are so related. -/
theorem pairwise_of_forall₂ {S : α → α → Prop} {T : β → β → Prop} {xs : List α} {ys : List β}
    (h : List.Forall₂ R xs ys) (hys : ys.Pairwise T)
    (both : ∀ {x x' y y'}, R x y → R x' y' → T y y' → S x x') : xs.Pairwise S := by
  induction h with
  | nil => exact .nil
  | cons hxy hrest ih =>
    obtain ⟨hhead, htail⟩ := List.pairwise_cons.1 hys
    refine .cons (fun x' hx' => ?_) (ih htail)
    obtain ⟨y', hy', hxy'⟩ := exists_of_forall₂ hrest hx'
    exact both hxy hxy' (hhead y' hy')

/-- Lists that correspond to one list correspond. -/
theorem forall₂_of_right {γ : Type} {R' : γ → β → Prop} {T : α → γ → Prop} {xs : List α}
    {zs : List γ} {ys : List β} (h : List.Forall₂ R xs ys) (h' : List.Forall₂ R' zs ys)
    (both : ∀ x y z, R x y → R' z y → T x z) : List.Forall₂ T xs zs := by
  induction h generalizing zs with
  | nil =>
    cases h'
    exact .nil
  | cons hxy _ ih =>
    cases h' with
    | cons hzy h' => exact .cons (both _ _ _ hxy hzy) (ih h')

/-- Lists that correspond to one list are equal if their members are determined. -/
theorem forall₂_left_unique {R' : α → β → Prop} {xs xs' : List α} {ys : List β}
    (h : List.Forall₂ R xs ys) (h' : List.Forall₂ R' xs' ys)
    (unique : ∀ x x' y, R x y → R' x' y → x = x') : xs = xs' := by
  induction h generalizing xs' with
  | nil =>
    cases h'
    rfl
  | cons hxy _ ih =>
    cases h' with
    | cons hxy' h' => rw [unique _ _ _ hxy hxy', ih h']

end Lists

namespace Shape

variable {ρ τ σ υ : Type}

/-! ### Parts and arguments -/

/-- The parts that are no type arguments, from left to right. -/
def partList : Shape ρ τ → List ρ
  | .text _ => []
  | .list items => items.toList
  | .map entries => entries.flatMap fun e => [e.1, e.2]
  | .object _ fields => fields.map Prod.snd
  | .type _ _ => []

/-- The type arguments, from left to right. -/
def argList : Shape ρ τ → List τ
  | .type _ args => args
  | _ => []

/-- The key of an entry is a part of the map. -/
theorem key_mem_partList {entries : List (ρ × ρ)} {e : ρ × ρ} (h : e ∈ entries) :
    e.1 ∈ (.map entries : Shape ρ τ).partList :=
  List.mem_flatMap.2 ⟨e, h, List.mem_cons_self ..⟩

/-- So is the value of an entry. -/
theorem value_mem_partList {entries : List (ρ × ρ)} {e : ρ × ρ} (h : e ∈ entries) :
    e.2 ∈ (.map entries : Shape ρ τ).partList :=
  List.mem_flatMap.2 ⟨e, h, List.mem_cons_of_mem _ (List.mem_cons_self ..)⟩

/-- The parts of a mapped layer are the mapped parts, in the same order. -/
@[simp] theorem partList_mapParts (f : ρ → σ) (g : τ → υ) (l : Shape ρ τ) :
    (l.mapParts f g).partList = l.partList.map f := by
  cases l <;> simp [mapParts, partList, List.flatMap_map, List.map_flatMap]

/-- So are its type arguments. -/
@[simp] theorem argList_mapParts (f : ρ → σ) (g : τ → υ) (l : Shape ρ τ) :
    (l.mapParts f g).argList = l.argList.map g := by
  cases l <;> simp [mapParts, argList]

/-- To map a layer twice is to map it once, by both functions in a row. -/
theorem mapParts_mapParts {ρ' τ' : Type} (f : ρ → σ) (g : τ → υ) (f' : σ → ρ') (g' : υ → τ')
    (l : Shape ρ τ) :
    (l.mapParts f g).mapParts f' g' = l.mapParts (fun x => f' (f x)) fun x => g' (g x) := by
  cases l <;> simp [mapParts, Function.comp_def]

/-- What the parts contribute is contributed by one of the parts or the type arguments. -/
theorem mem_parts {f : ρ → List σ} {g : τ → List σ} {l : Shape ρ τ} {x : σ} :
    x ∈ l.parts f g ↔ (∃ y ∈ l.partList, x ∈ f y) ∨ ∃ y ∈ l.argList, x ∈ g y := by
  cases l with
  | text content => simp [parts, partList, argList]
  | list items =>
    have hfold : items.foldr (fun item rest => f item ++ rest) [] = items.toList.flatMap f := by
      rw [← Array.foldr_toList]
      induction items.toList with
      | nil => rfl
      | cons a rest ih => rw [List.foldr_cons, ih, List.flatMap_cons]
    simp [parts, partList, argList, hfold]
  | map entries =>
    -- the parts of a map are its keys and its values
    have hpart : (∃ y ∈ (.map entries : Shape ρ τ).partList, x ∈ f y) ↔
        ∃ e ∈ entries, x ∈ f e.1 ∨ x ∈ f e.2 := by
      constructor
      · rintro ⟨y, hy, hx⟩
        obtain ⟨e, he, hy⟩ := List.mem_flatMap.1 hy
        rcases List.mem_pair.1 hy with rfl | rfl
        · exact ⟨e, he, .inl hx⟩
        · exact ⟨e, he, .inr hx⟩
      · rintro ⟨e, he, hx | hx⟩
        · exact ⟨_, key_mem_partList he, hx⟩
        · exact ⟨_, value_mem_partList he, hx⟩
    rw [hpart]
    simp [parts, argList]
  | object c fields =>
    simp only [parts, partList, argList, List.mem_flatMap, List.mem_map, List.not_mem_nil,
      false_and, exists_false, or_false]
    constructor
    · rintro ⟨e, he, hx⟩
      exact ⟨_, ⟨e, he, rfl⟩, hx⟩
    · rintro ⟨_, ⟨e, he, rfl⟩, hx⟩
      exact ⟨e, he, hx⟩
  | type n args => simp [parts, partList, argList]

/-! ### The correspondence -/

/-- Two shapes of the same case with the same names and lengths, whose parts correspond. -/
inductive Rel (R : ρ → σ → Prop) (S : τ → υ → Prop) : Shape ρ τ → Shape σ υ → Prop
  | text (content : String) : Rel R S (.text content) (.text content)
  | list {xs : Array ρ} {ys : Array σ} :
    List.Forall₂ R xs.toList ys.toList → Rel R S (.list xs) (.list ys)
  | map {xs : List (ρ × ρ)} {ys : List (σ × σ)} :
    List.Forall₂ (fun e e' => R e.1 e'.1 ∧ R e.2 e'.2) xs ys → Rel R S (.map xs) (.map ys)
  | object (className : String) {xs : List (String × ρ)} {ys : List (String × σ)} :
    List.Forall₂ (fun e e' => e.1 = e'.1 ∧ R e.2 e'.2) xs ys →
      Rel R S (.object className xs) (.object className ys)
  | type (name : String) {xs : List τ} {ys : List υ} :
    List.Forall₂ S xs ys → Rel R S (.type name xs) (.type name ys)

namespace Rel

variable {R R' : ρ → σ → Prop} {S S' : τ → υ → Prop}

/-- A layer of pairs is a pair of layers that correspond. -/
theorem of_zip {z : Shape (ρ × σ) (τ × υ)} (hR : ∀ e ∈ z.partList, R e.1 e.2)
    (hS : ∀ e ∈ z.argList, S e.1 e.2) :
    Rel R S (z.mapParts Prod.fst Prod.fst) (z.mapParts Prod.snd Prod.snd) := by
  cases z with
  | text content => exact .text content
  | list items =>
    refine .list ?_
    simp only [Array.toList_map]
    exact forall₂_unzip hR
  | map entries =>
    refine .map ?_
    rw [List.forall₂_map_left_iff, List.forall₂_map_right_iff, List.forall₂_same]
    intro e he
    exact ⟨hR _ (key_mem_partList he), hR _ (value_mem_partList he)⟩
  | object c fields =>
    refine .object c ?_
    rw [List.forall₂_map_left_iff, List.forall₂_map_right_iff, List.forall₂_same]
    intro e he
    exact ⟨rfl, hR _ (List.mem_map_of_mem he)⟩
  | type n args => exact .type n (forall₂_unzip hS)

/-- Two layers that correspond are a layer of pairs. -/
theorem exists_zip {l : Shape ρ τ} {m : Shape σ υ} (h : Rel R S l m) :
    ∃ z : Shape (ρ × σ) (τ × υ), l = z.mapParts Prod.fst Prod.fst ∧
      m = z.mapParts Prod.snd Prod.snd ∧ (∀ e ∈ z.partList, R e.1 e.2) ∧
        ∀ e ∈ z.argList, S e.1 e.2 := by
  cases h with
  | text content => exact ⟨.text content, rfl, rfl, by simp [partList], by simp [argList]⟩
  | @list xs ys h =>
    obtain ⟨zs, hx, hy, hz⟩ := exists_unzip h
    refine ⟨.list zs.toArray, ?_, ?_, by simpa [partList] using hz, by simp [argList]⟩
    · simp [mapParts, ← hx]
    · simp [mapParts, ← hy]
  | map h =>
    obtain ⟨zs, rfl, rfl, hz⟩ := exists_unzip h
    refine ⟨.map (zs.map fun z => ((z.1.1, z.2.1), (z.1.2, z.2.2))), ?_, ?_, ?_, by simp [argList]⟩
    · simp [mapParts]
    · simp [mapParts]
    · intro e he
      simp only [partList, List.flatMap_map, List.mem_flatMap, List.mem_cons,
        List.not_mem_nil, or_false] at he
      obtain ⟨z, hzs, rfl | rfl⟩ := he
      · exact (hz z hzs).1
      · exact (hz z hzs).2
  | object c h =>
    obtain ⟨zs, rfl, rfl, hz⟩ := exists_unzip h
    refine ⟨.object c (zs.map fun z => (z.1.1, (z.1.2, z.2.2))), ?_, ?_, ?_, by simp [argList]⟩
    · simp [mapParts]
    · simp only [mapParts, List.map_map]
      congr 1
      refine List.map_congr_left fun z hzs => ?_
      exact Prod.ext (hz z hzs).1.symm rfl
    · intro e he
      simp only [partList, List.map_map, List.mem_map, Function.comp_apply] at he
      obtain ⟨z, hzs, rfl⟩ := he
      exact (hz z hzs).2
  | type n h =>
    obtain ⟨zs, rfl, rfl, hz⟩ := exists_unzip h
    exact ⟨.type n zs, rfl, rfl, by simp [partList], hz⟩

/-- A correspondence of the parts that follows for the parts of the left layer. -/
theorem imp_of_mem {l : Shape ρ τ} {m : Shape σ υ} (h : Rel R S l m)
    (hR : ∀ x ∈ l.partList, ∀ y, R x y → R' x y) (hS : ∀ x ∈ l.argList, ∀ y, S x y → S' x y) :
    Rel R' S' l m := by
  obtain ⟨z, rfl, rfl, hparts, hargs⟩ := h.exists_zip
  rw [partList_mapParts] at hR
  rw [argList_mapParts] at hS
  exact of_zip (fun e he => hR e.1 (List.mem_map_of_mem he) e.2 (hparts e he))
    fun e he => hS e.1 (List.mem_map_of_mem he) e.2 (hargs e he)

/-- A weaker correspondence of the parts. -/
theorem imp {l : Shape ρ τ} {m : Shape σ υ} (h : Rel R S l m) (hR : ∀ x y, R x y → R' x y)
    (hS : ∀ x y, S x y → S' x y) : Rel R' S' l m :=
  h.imp_of_mem (fun x _ => hR x) fun x _ => hS x

/-- Read from right to left. -/
theorem flip {l : Shape ρ τ} {m : Shape σ υ} :
    Rel R S l m → Rel (fun y x => R x y) (fun y x => S x y) m l
  | .text content => .text content
  | .list h => .list h.flip
  | .map h => .map h.flip
  | .object c h => .object c ((h.imp fun _ _ h => ⟨h.1.symm, h.2⟩).flip)
  | .type n h => .type n h.flip

/-- A correspondence of the parts that follows for the parts of the right layer. -/
theorem imp_of_mem_right {l : Shape ρ τ} {m : Shape σ υ} (h : Rel R S l m)
    (hR : ∀ y ∈ m.partList, ∀ x, R x y → R' x y) (hS : ∀ y ∈ m.argList, ∀ x, S x y → S' x y) :
    Rel R' S' l m := by
  obtain ⟨z, rfl, rfl, hparts, hargs⟩ := h.exists_zip
  rw [partList_mapParts] at hR
  rw [argList_mapParts] at hS
  exact of_zip (fun e he => hR e.2 (List.mem_map_of_mem he) e.1 (hparts e he))
    fun e he => hS e.2 (List.mem_map_of_mem he) e.1 (hargs e he)

/-- Layers that correspond to one layer are equal if the parts are determined. -/
theorem left_unique {l l' : Shape ρ τ} {m : Shape σ υ} (h : Rel R S l m) (h' : Rel R' S' l' m)
    (hR : ∀ x x' y, R x y → R' x' y → x = x') (hS : ∀ x x' y, S x y → S' x' y → x = x') :
    l = l' := by
  cases h with
  | text => cases h'; rfl
  | list h =>
    cases h' with
    | list h' => rw [Array.toList_inj.1 (forall₂_left_unique h h' hR)]
  | map h =>
    cases h' with
    | map h' =>
      rw [forall₂_left_unique h h' fun x x' y hx hx' =>
        Prod.ext (hR _ _ _ hx.1 hx'.1) (hR _ _ _ hx.2 hx'.2)]
  | object c h =>
    cases h' with
    | object _ h' =>
      rw [forall₂_left_unique h h' fun x x' y hx hx' =>
        Prod.ext (hx.1.trans hx'.1.symm) (hR _ _ _ hx.2 hx'.2)]
  | type n h =>
    cases h' with
    | type _ h' => rw [forall₂_left_unique h h' hS]

/-- A layer corresponds to at most one layer if the parts do. -/
theorem right_unique {l : Shape ρ τ} {m m' : Shape σ υ} (h : Rel R S l m) (h' : Rel R' S' l m')
    (hR : ∀ x y y', R x y → R' x y' → y = y') (hS : ∀ x y y', S x y → S' x y' → y = y') :
    m = m' :=
  h.flip.left_unique h'.flip (fun y y' x => hR x y y') fun y y' x => hS x y y'

/-- If every part of a layer has a partner, the layer has one. -/
theorem exists_right {l : Shape ρ τ} (hR : ∀ x ∈ l.partList, ∃ y, R x y)
    (hS : ∀ x ∈ l.argList, ∃ y, S x y) : ∃ m, Rel R S l m := by
  cases l with
  | text content => exact ⟨_, .text content⟩
  | list items =>
    obtain ⟨ys, hys⟩ := exists_forall₂ hR
    exact ⟨.list ys.toArray, .list hys⟩
  | map entries =>
    have h : ∀ e ∈ entries, ∃ e' : σ × σ, R e.1 e'.1 ∧ R e.2 e'.2 := by
      intro e he
      obtain ⟨k, hk⟩ := hR _ (key_mem_partList he)
      obtain ⟨v, hv⟩ := hR _ (value_mem_partList he)
      exact ⟨(k, v), hk, hv⟩
    obtain ⟨ys, hys⟩ := exists_forall₂ h
    exact ⟨.map ys, .map hys⟩
  | object c fields =>
    have h : ∀ e ∈ fields, ∃ e' : String × σ, e.1 = e'.1 ∧ R e.2 e'.2 := by
      intro e he
      obtain ⟨v, hv⟩ := hR e.2 (List.mem_map_of_mem he)
      exact ⟨(e.1, v), rfl, hv⟩
    obtain ⟨ys, hys⟩ := exists_forall₂ h
    exact ⟨.object c ys, .object c hys⟩
  | type n args =>
    obtain ⟨ys, hys⟩ := exists_forall₂ hS
    exact ⟨.type n ys, .type n hys⟩

/-- The parts of layers that correspond do so. -/
theorem partList {l : Shape ρ τ} {m : Shape σ υ} (h : Rel R S l m) :
    List.Forall₂ R l.partList m.partList := by
  cases h with
  | text => exact .nil
  | list h => exact h
  | map h =>
    induction h with
    | nil => exact .nil
    | cons h _ ih => exact .cons h.1 (.cons h.2 ih)
  | object c h =>
    simp only [Shape.partList]
    rw [List.forall₂_map_left_iff, List.forall₂_map_right_iff]
    exact h.imp fun _ _ h => h.2
  | type => exact .nil

/-- The type arguments of layers that correspond do so. -/
theorem argList {l : Shape ρ τ} {m : Shape σ υ} (h : Rel R S l m) :
    List.Forall₂ S l.argList m.argList := by
  cases h with
  | type n h => exact h
  | _ => exact .nil

/-- A layer corresponds to the one in which its parts are replaced. -/
theorem mapParts_right {f : ρ → σ} {g : τ → υ} {l : Shape ρ τ}
    (hR : ∀ x ∈ l.partList, R x (f x)) (hS : ∀ x ∈ l.argList, S x (g x)) :
    Rel R S l (l.mapParts f g) := by
  cases l with
  | text content => exact .text content
  | list items =>
    refine .list ?_
    rw [Array.toList_map, List.forall₂_map_right_iff, List.forall₂_same]
    exact hR
  | map entries =>
    refine .map ?_
    rw [List.forall₂_map_right_iff, List.forall₂_same]
    intro e he
    exact ⟨hR _ (key_mem_partList he), hR _ (value_mem_partList he)⟩
  | object c fields =>
    refine .object c ?_
    rw [List.forall₂_map_right_iff, List.forall₂_same]
    intro e he
    exact ⟨rfl, hR _ (List.mem_map_of_mem he)⟩
  | type n args =>
    refine .type n ?_
    rw [List.forall₂_map_right_iff, List.forall₂_same]
    exact hS

/-- Replacing the parts on the left. -/
theorem mapParts_left_iff {ρ' τ' : Type} {f : ρ' → ρ} {g : τ' → τ} {l : Shape ρ' τ'}
    {m : Shape σ υ} :
    Rel R S (l.mapParts f g) m ↔ Rel (fun x y => R (f x) y) (fun x y => S (g x) y) l m := by
  constructor
  · intro h
    cases l with
    | text content =>
      cases h
      exact .text content
    | list items =>
      cases h with
      | list h => exact .list (by simpa using h)
    | map entries =>
      cases h with
      | map h => exact .map (List.forall₂_map_left_iff.1 h)
    | object c fields =>
      cases h with
      | object _ h => exact .object c (List.forall₂_map_left_iff.1 h)
    | type n args =>
      cases h with
      | type _ h => exact .type n (List.forall₂_map_left_iff.1 h)
  · intro h
    cases h with
    | text content => exact .text content
    | list h => exact .list (by simpa using h)
    | map h => exact .map (List.forall₂_map_left_iff.2 h)
    | object c h => exact .object c (List.forall₂_map_left_iff.2 h)
    | type n h => exact .type n (List.forall₂_map_left_iff.2 h)

/-- Replacing the parts on the right. -/
theorem mapParts_right_iff {σ' υ' : Type} {f : σ' → σ} {g : υ' → υ} {l : Shape ρ τ}
    {m : Shape σ' υ'} :
    Rel R S l (m.mapParts f g) ↔ Rel (fun x y => R x (f y)) (fun x y => S x (g y)) l m :=
  ⟨fun h => (mapParts_left_iff.1 h.flip).flip, fun h => (mapParts_left_iff.2 h.flip).flip⟩

/-- Two correspondences of layers, one after the other. -/
theorem comp {ρ' τ' : Type} {P : σ → ρ' → Prop} {Q : υ → τ' → Prop} {T : ρ → ρ' → Prop}
    {U : τ → τ' → Prop} {l : Shape ρ τ} {m : Shape σ υ} {k : Shape ρ' τ'} (h : Rel R S l m)
    (h' : Rel P Q m k) (hparts : ∀ x ∈ l.partList, ∀ y z, R x y → P y z → T x z)
    (hargs : ∀ x ∈ l.argList, ∀ y z, S x y → Q y z → U x z) : Rel T U l k := by
  obtain ⟨w, rfl, rfl, hP, hQ⟩ := h'.exists_zip
  rw [mapParts_right_iff] at h ⊢
  have hmem : Rel (fun x e => x ∈ l.partList ∧ R x e.1) (fun x e => x ∈ l.argList ∧ S x e.1) l w :=
    h.imp_of_mem (fun x hx _ hR => ⟨hx, hR⟩) fun x hx _ hS => ⟨hx, hS⟩
  exact hmem.imp_of_mem_right (fun e he x hx => hparts x hx.1 _ _ hx.2 (hP e he))
    fun e he x hx => hargs x hx.1 _ _ hx.2 (hQ e he)

/-- A layer corresponds to itself if its parts do. -/
theorem refl_of_mem {R : ρ → ρ → Prop} {S : τ → τ → Prop} {l : Shape ρ τ}
    (hR : ∀ x ∈ l.partList, R x x) (hS : ∀ x ∈ l.argList, S x x) : Rel R S l l := by
  have h : l.mapParts id id = l := by cases l <;> simp [mapParts]
  have hrel : Rel R S l (l.mapParts id id) := mapParts_right hR hS
  rwa [h] at hrel

/-- Layers whose parts correspond by equality are equal. -/
theorem eq {l m : Shape ρ τ} (h : Rel Eq Eq l m) : l = m :=
  have hm : Rel Eq Eq m m := refl_of_mem (fun _ _ => rfl) fun _ _ => rfl
  h.left_unique hm (fun _ _ _ h h' => h.trans h'.symm) fun _ _ _ h h' => h.trans h'.symm

/-- Layers without type arguments whose parts correspond by equality are equal. -/
theorem eq_of_parts {l m : Shape ρ τ} (h : Rel Eq (fun _ _ => False) l m) : l = m :=
  eq (h.imp (fun _ _ h => h) fun _ _ h => h.elim)

/-! ### What corresponding layers have in common -/

/-- Corresponding layers are called the same. -/
theorem typeName {l : Shape ρ τ} {m : Shape σ υ} (h : Rel R S l m) : l.typeName = m.typeName := by
  cases h <;> rfl

/-- Corresponding layers have the same length. -/
theorem length? {l : Shape ρ τ} {m : Shape σ υ} (h : Rel R S l m) : l.length? = m.length? := by
  cases h with
  | list h =>
    have := h.length_eq
    simpa [Shape.length?] using this
  | map h =>
    have := h.length_eq
    simpa [Shape.length?] using this
  | _ => rfl

end Rel

/-! ### Traversals -/

/-- A list of which every member has a known result has a list of results. -/
theorem mapM_eq_pure {m : Type → Type} [Monad m] [LawfulMonad m] {α β : Type} {k : α → m β}
    {xs : List α} {ys : List β} (h : List.Forall₂ (fun x y => k x = pure y) xs ys) :
    xs.mapM k = pure ys := by
  induction h with
  | nil => rw [List.mapM_nil]
  | cons hxy _ ih => rw [List.mapM_cons, hxy, ih, pure_bind, pure_bind]

/-- A layer of which every part has a known result has a layer of results. -/
theorem Rel.traverseParts {m : Type → Type} [Monad m] [LawfulMonad m] {f : ρ → m σ} {g : τ → m υ}
    {l : Shape ρ τ} {k : Shape σ υ}
    (h : Rel (fun x y => f x = pure y) (fun x y => g x = pure y) l k) :
    l.traverseParts f g = pure k := by
  cases h with
  | text => rfl
  | list h => rw [Shape.traverseParts, mapM_eq_pure h, pure_bind]
  | map h =>
    rw [Shape.traverseParts, mapM_eq_pure (h.imp fun e e' he => ?_), pure_bind]
    rw [he.1, he.2, pure_bind, pure_bind]
  | object c h =>
    rw [Shape.traverseParts, mapM_eq_pure (h.imp fun e e' he => ?_), pure_bind]
    rw [he.1, he.2, pure_bind]
  | type n h => rw [Shape.traverseParts, mapM_eq_pure h, pure_bind]

/-- A list of results has the result of every member. -/
theorem forall₂_of_mapM {α β : Type} {k : α → Option β} {xs : List α} {ys : List β}
    (h : xs.mapM k = some ys) : List.Forall₂ (fun x y => k x = some y) xs ys := by
  induction xs generalizing ys with
  | nil =>
    cases h
    exact .nil
  | cons x xs ih =>
    rw [List.mapM_cons] at h
    obtain ⟨y, hy, h⟩ := Option.bind_eq_some_iff.1 h
    obtain ⟨ys', hys, h⟩ := Option.bind_eq_some_iff.1 h
    cases h
    exact .cons hy (ih hys)

/-- A layer of results has the result of every part. -/
theorem rel_of_traverseParts {f : ρ → Option σ} {g : τ → Option υ} {l : Shape ρ τ} {k : Shape σ υ}
    (h : l.traverseParts f g = some k) :
    Rel (fun x y => f x = some y) (fun x y => g x = some y) l k := by
  cases l with
  | text content =>
    cases h
    exact .text content
  | list items =>
    obtain ⟨ys, hys, h⟩ := Option.bind_eq_some_iff.1 h
    cases h
    exact .list (forall₂_of_mapM hys)
  | map entries =>
    obtain ⟨ys, hys, h⟩ := Option.bind_eq_some_iff.1 h
    cases h
    refine .map ((forall₂_of_mapM hys).imp fun e e' he => ?_)
    obtain ⟨key, hkey, he⟩ := Option.bind_eq_some_iff.1 he
    obtain ⟨value, hvalue, he⟩ := Option.bind_eq_some_iff.1 he
    cases he
    exact ⟨hkey, hvalue⟩
  | object c fields =>
    obtain ⟨ys, hys, h⟩ := Option.bind_eq_some_iff.1 h
    cases h
    refine .object c ((forall₂_of_mapM hys).imp fun e e' he => ?_)
    obtain ⟨value, hvalue, he⟩ := Option.bind_eq_some_iff.1 he
    cases he
    exact ⟨rfl, hvalue⟩
  | type n args =>
    obtain ⟨ys, hys, h⟩ := Option.bind_eq_some_iff.1 h
    cases h
    exact .type n (forall₂_of_mapM hys)

/-- What a traversal of a layer comes to, if it is known what comes of the parts. -/
theorem results_traverseParts {E : Fault → Prop} {R : ρ → σ → Prop} {S : τ → υ → Prop}
    {f : ρ → Except Fault σ} {g : τ → Except Fault υ} {l : Shape ρ τ}
    (hf : ∀ x ∈ l.partList, Results E (R x) (f x)) (hg : ∀ x ∈ l.argList, Results E (S x) (g x)) :
    Results E (Rel R S l) (l.traverseParts f g) := by
  cases l with
  | text content => exact .ok (.text content)
  | list items => exact (Results.mapM hf).bind fun ys hys => .ok (.list hys)
  | map entries =>
    have hentries : ∀ e ∈ entries, Results E (fun e' => R e.1 e'.1 ∧ R e.2 e'.2)
        (do return (← f e.1, ← f e.2)) := by
      intro e he
      exact (hf _ (key_mem_partList he)).bind fun k hk =>
        (hf _ (value_mem_partList he)).bind fun v hv => .ok ⟨hk, hv⟩
    exact (Results.mapM hentries).bind fun ys hys => .ok (.map hys)
  | object c fields =>
    have hfields : ∀ e ∈ fields, Results E (fun e' : String × σ => e.1 = e'.1 ∧ R e.2 e'.2)
        (do return (e.1, ← f e.2)) := by
      intro e he
      exact (hf e.2 (List.mem_map_of_mem he)).bind fun v hv => .ok ⟨rfl, hv⟩
    exact (Results.mapM hfields).bind fun ys hys => .ok (.object c hys)
  | type n args => exact (Results.mapM hg).bind fun ys hys => .ok (.type n hys)

/-! ### Fields in order -/

/-- The fields of an object stand in the strict order of their names, so none is named twice. -/
def Ordered : Shape ρ τ → Prop
  | .object _ fields => fields.Pairwise fun e e' => e.1 < e'.1
  | _ => True

/-- Corresponding layers are both in order or neither is. -/
theorem Rel.ordered {R : ρ → σ → Prop} {S : τ → υ → Prop} {l : Shape ρ τ} {m : Shape σ υ}
    (h : Rel R S l m) (hl : l.Ordered) : m.Ordered := by
  cases h with
  | object c h =>
    simp only [Ordered] at hl ⊢
    induction h with
    | nil => exact .nil
    | @cons x y xs ys hxy hrest ih =>
      obtain ⟨hfirst, hl⟩ := List.pairwise_cons.1 hl
      refine List.pairwise_cons.2 ⟨fun y' hy' => ?_, ih hl⟩
      obtain ⟨x', hx', hxy'⟩ := exists_of_forall₂ hrest.flip hy'
      rw [← hxy.1, ← hxy'.1]
      exact hfirst x' hx'
  | _ => trivial

/-- A field whose name is smaller than all others is put first. -/
theorem insertField_of_forall_lt {field : String × ρ} {fields : List (String × ρ)}
    (h : ∀ e ∈ fields, field.1 < e.1) : insertField field fields = field :: fields := by
  cases fields with
  | nil => rfl
  | cons e rest =>
    have hlt : ¬ e.1 < field.1 := String.lt_asymm (h e (List.mem_cons_self ..))
    simp only [insertField, hlt, if_false]

/-- Fields that are in order stay as they are. -/
theorem sortFields_of_pairwise {fields : List (String × ρ)}
    (h : fields.Pairwise fun e e' => e.1 < e'.1) : sortFields fields = fields := by
  induction h with
  | nil => rfl
  | @cons field rest hfirst _ ih =>
    have hsort : sortFields (field :: rest) = insertField field (sortFields rest) := rfl
    rw [hsort, ih, insertField_of_forall_lt hfirst]

/-- Putting a field of a new name into ordered fields keeps them in order. -/
theorem pairwise_insertField {field : String × ρ} {fields : List (String × ρ)}
    (h : fields.Pairwise fun e e' => e.1 < e'.1) (hnew : ∀ e ∈ fields, e.1 ≠ field.1) :
    (insertField field fields).Pairwise fun e e' => e.1 < e'.1 := by
  induction h with
  | nil => exact List.pairwise_singleton ..
  | @cons other rest hfirst hrest ih =>
    obtain ⟨hother, hnew⟩ := List.forall_mem_cons.1 hnew
    unfold insertField
    split
    · next hlt =>
      refine List.pairwise_cons.2 ⟨fun e he => ?_, ih hnew⟩
      rcases List.mem_cons.1 ((insertField_perm field rest).mem_iff.1 he) with rfl | he
      · exact hlt
      · exact hfirst e he
    · next hlt =>
      have hlt : field.1 < other.1 := by
        have hle : field.1 ≤ other.1 := String.not_lt.1 hlt
        by_contra hge
        exact hother (String.le_antisymm (String.not_lt.1 hge) hle)
      refine List.pairwise_cons.2 ⟨fun e he => ?_, List.pairwise_cons.2 ⟨hfirst, hrest⟩⟩
      rcases List.mem_cons.1 he with rfl | he
      · exact hlt
      · exact String.lt_trans hlt (hfirst e he)

/-- Fields of different names are in order once they are sorted. -/
theorem pairwise_sortFields {fields : List (String × ρ)} (h : (fields.map Prod.fst).Nodup) :
    (sortFields fields).Pairwise fun e e' => e.1 < e'.1 := by
  induction fields with
  | nil => exact .nil
  | cons field rest ih =>
    obtain ⟨hnew, h⟩ := List.nodup_cons.1 h
    refine pairwise_insertField (ih h) fun e he heq => hnew ?_
    rw [← heq]
    exact List.mem_map_of_mem ((sortFields_perm rest).mem_iff.1 he)

/-- Related fields are put into related lists at the same place. -/
theorem forall₂_insertField {R : ρ → σ → Prop} {x : String × ρ} {y : String × σ}
    {xs : List (String × ρ)} {ys : List (String × σ)} (hxy : x.1 = y.1 ∧ R x.2 y.2)
    (h : List.Forall₂ (fun e e' => e.1 = e'.1 ∧ R e.2 e'.2) xs ys) :
    List.Forall₂ (fun e e' => e.1 = e'.1 ∧ R e.2 e'.2) (insertField x xs) (insertField y ys) := by
  induction h with
  | nil => exact .cons hxy .nil
  | cons h hrest ih =>
    simp only [insertField, ← h.1, ← hxy.1]
    split
    · exact .cons h ih
    · exact .cons hxy (.cons h hrest)

/-- Sorting looks at names alone. -/
theorem forall₂_sortFields {R : ρ → σ → Prop} {xs : List (String × ρ)} {ys : List (String × σ)}
    (h : List.Forall₂ (fun e e' => e.1 = e'.1 ∧ R e.2 e'.2) xs ys) :
    List.Forall₂ (fun e e' => e.1 = e'.1 ∧ R e.2 e'.2) (sortFields xs) (sortFields ys) := by
  induction h with
  | nil => exact .nil
  | cons hxy _ ih => exact forall₂_insertField hxy ih

end Shape

end ConstPool
