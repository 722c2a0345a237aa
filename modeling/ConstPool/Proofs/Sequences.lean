import ConstPool.Proofs.Draft.Interchange
import ConstPool.Proofs.Draft.Recursion

/-!
# Lists and texts as sequences

Lists and texts are sequences: of their items, and of their characters, each of which is a text. The
length, the element at an index and the sum of two sequences are read from the way in which each of
them is held, in the pool or not, but they all speak of one list of elements. So an index has an
element exactly from 0 up to the length, the sum has the elements of both, and how sums are grouped
makes no difference to the constant that results.

A sequence may be a constant of the pool, a list that is made of drafts, or a list with some of its
members pooled. What it spells is a list of elements, each of which means a tree, and the length of
that list is the length that the language gives. A text spells its characters, counted as Unicode
scalars whatever their width in bytes. The laws are those of lists: an element is found at the
positions from zero up to the length and at no other, the elements of a sum are those of both, and
grouping a sum differently or adding nothing gives one constant, wherever the parts of it are held.

* `Draft.Spells`: a draft is a sequence of these elements.
* `Draft.Spells.length`, `Draft.Spells.index`, `Draft.Spells.add`: what is asked of sequences.
* `Draft.Spells.alike_iff`: sequences are one constant if and only if their elements are.
* `Draft.Spells.sequence_laws`: the laws of sequences.
-/

namespace ConstPool

open Relation

/-- The kinds of sequences. -/
inductive SequenceKind where
  | list | text

/-- Why a sequence of so many elements has none at an index. -/
def SequenceKind.noElement (kind : SequenceKind) (index : Int64) (size : Nat) : RuntimeCause :=
  match kind with
  | .list => .listIndex index size
  | .text => .textIndex index size

/-- The place that an index stands for. -/
theorem Shape.place?_eq_some_iff {i : Int64} {place : Nat} :
    place? i = some place ↔ i.toInt = place := by
  unfold place?
  split
  · rw [Option.some.injEq]
    omega
  · simp only [reduceCtorEq, false_iff]
    omega

namespace Draft

/-- A character, as a text. -/
def character (c : Char) : Draft := .text (String.ofList [c])

/-- A draft is a sequence of these elements: a list of its items, and a text of its characters. -/
inductive Spells (pool : Pool) (d : Draft) : SequenceKind → List Draft → Prop
  | list {items : Array Draft} : d.shape? pool = .ok (some (.list items)) →
      Spells pool d .list items.toList
  | text {content : String} : d.shape? pool = .ok (some (.text content)) →
      Spells pool d .text (content.toList.map character)

/-- The element at an index, which is counted from 0. -/
def at? (elements : List Draft) (i : Int64) : Option Draft :=
  (Shape.place? i).bind fun place => elements[place]?

/-- What is asked of a sequence of these elements: its length, the element that stands at an index,
and the fault at an index where there is none. -/
structure Sequential (pool : Pool) (d : Draft) (kind : SequenceKind) (elements : List Draft) :
    Prop where
  length : d.member pool "length" = .ok (int (Int64.ofNat elements.length))
  element : ∀ i : Int64, 0 ≤ i.toInt → i.toInt < elements.length →
    ∃ e, elements[i.toInt.toNat]? = some e ∧ d.index pool (int i) = .ok e
  noElement : ∀ i : Int64, ¬(0 ≤ i.toInt ∧ i.toInt < elements.length) →
    d.index pool (int i) = .error (.runtime (kind.noElement i elements.length))

/-- What is asked of the sum of two sequences: to be the sequence of the elements of both, each of
which is found in one of the two. -/
structure SumOf (pool : Pool) (x y : Draft) (kind : SequenceKind) (xs ys : List Draft)
    (sum : Draft) : Prop extends Sequential pool sum kind (xs ++ ys) where
  front : ∀ i : Int64, 0 ≤ i.toInt → i.toInt < xs.length →
    sum.index pool (int i) = x.index pool (int i)
  back : ∀ i : Int64, xs.length ≤ i.toInt → i.toInt < xs.length + ys.length →
    sum.index pool (int i) = y.index pool (int (i - Int64.ofNat xs.length))

/-- From the pool on, a draft is one constant with the sequences of these elements, in whichever
form they are held, and with no other sequence of the kind. -/
def Amounts (pool : Pool) (d : Draft) (kind : SequenceKind) (elements : List Draft) : Prop :=
  ∀ {e es}, Made pool e → Spells pool e kind es →
    (Alike pool d e ↔ List.Forall₂ (Alike pool) elements es)

variable {pool p q : Pool} {kind : SequenceKind} {x y z d e : Draft} {xs ys zs : List Draft}

/-! ### Elements by their index -/

/-- An element is found exactly at a position that is the number of its place. -/
theorem at?_eq_some_iff {i : Int64} :
    at? xs i = some e ↔ ∃ place : Nat, i.toInt = place ∧ xs[place]? = some e := by
  simp only [at?, Option.bind_eq_some_iff, Shape.place?_eq_some_iff]

/-- There is an element at the indices from 0 up to the length. -/
theorem exists_at?_iff {i : Int64} :
    (∃ e, at? xs i = some e) ↔ 0 ≤ i.toInt ∧ i.toInt < xs.length := by
  constructor
  · rintro ⟨e, h⟩
    obtain ⟨place, hi, he⟩ := at?_eq_some_iff.1 h
    have hlt : place < xs.length := (List.getElem?_eq_some_iff.1 he).1
    omega
  · rintro ⟨hnonneg, hlt⟩
    have hplace : i.toInt.toNat < xs.length := by omega
    exact ⟨_, at?_eq_some_iff.2
      ⟨i.toInt.toNat, (Int.toNat_of_nonneg hnonneg).symm, List.getElem?_eq_getElem hplace⟩⟩

/-- Positions before the end of the first sequence are positions in it. -/
theorem at?_append_left {i : Int64} (h : i.toInt < xs.length) : at? (xs ++ ys) i = at? xs i := by
  refine Option.bind_congr fun place hplace => ?_
  rw [Shape.place?_eq_some_iff] at hplace
  exact List.getElem?_append_left (by omega)

/-- Positions behind it are counted from its end. -/
theorem at?_append_right {i : Int64} (h : xs.length ≤ i.toInt) :
    at? (xs ++ ys) i = at? ys (i - Int64.ofNat xs.length) := by
  have hbound := i.toInt_lt
  have hlength : (Int64.ofNat xs.length).toInt = xs.length :=
    Int64.toInt_ofNat_of_lt (by omega)
  have hindex : (i - Int64.ofNat xs.length).toInt = i.toInt - xs.length := by
    rw [Int64.toInt_sub, hlength]
    exact Int.bmod_eq_of_le (by omega) (by omega)
  have hplace : Shape.place? i = some i.toInt.toNat := Shape.place?_eq_some_iff.2 (by omega)
  have hplace' : Shape.place? (i - Int64.ofNat xs.length) = some (i.toInt.toNat - xs.length) :=
    Shape.place?_eq_some_iff.2 (by omega)
  rw [at?, at?, hplace, hplace']
  exact List.getElem?_append_right (by omega)

/-! ### Drafts that have shapes -/

/-- The shape of a draft stays when the pool grows. -/
theorem shape?_mono {layer : Shape Draft Draft} (h : d.shape? p = .ok (some layer))
    (hkeeps : p.Keeps q) : d.shape? q = .ok (some layer) := by
  rcases d with ⟨s | id⟩ | l
  · cases h
  · obtain ⟨l, hget, rfl⟩ := shape?_pooled h
    simp [shape?, contents, Pool.get_eq_ok_iff.2 (hkeeps _ _ hget), bind, Except.bind, pure,
      Except.pure, Value.contents, Contents.shape?]
  · exact h

/-- A draft that has a shape is no scalar that is held in place. -/
theorem scalar?_of_shape? {layer : Shape Draft Draft} (h : d.shape? pool = .ok (some layer)) :
    d.scalar? = none := by
  rcases d with ⟨s | id⟩ | l
  · cases h
  · rfl
  · rfl

/-- An operator on drafts that have shapes is that on the shapes. -/
theorem combine_of_shape? {op : BinaryOperator} {l m : Shape Draft Draft}
    {r : Scalar ⊕ Shape Draft Draft} (hx : x.shape? pool = .ok (some l))
    (hy : y.shape? pool = .ok (some m)) (h : l.binary? op m = some r) :
    combine pool op x y = .ok (ofResult r) := by
  simp only [combine, scalar?_of_shape? hx, shapeBinary, hx, hy, h, bind, Except.bind, pure,
    Except.pure, Option.map_some]

namespace Spells

/-- What a draft spells it spells over a pool that keeps it. -/
theorem mono (h : x.Spells p kind xs) (hkeeps : p.Keeps q) : x.Spells q kind xs := by
  cases h with
  | list h => exact .list (shape?_mono h hkeeps)
  | text h => exact .text (shape?_mono h hkeeps)

/-- The length of a sequence is the number of its elements. -/
theorem length (h : x.Spells pool kind xs) :
    x.member pool "length" = .ok (int (Int64.ofNat xs.length)) := by
  cases h with
  | list h =>
    rw [member_eq h]
    rfl
  | @text content h =>
    rw [member_eq h, List.length_map, String.length_toList]
    rfl

/-- The element of a sequence at an index. -/
theorem index (h : x.Spells pool kind xs) (i : Int64) :
    x.index pool (int i) =
      match at? xs i with
      | some e => .ok e
      | none => .error (.runtime (kind.noElement i xs.length)) := by
  cases h with
  | @list items h =>
    rw [index_eq h]
    simp only [Option.bind_some, elementAt, int, scalar?, Shape.itemAt, at?]
    rcases Shape.place? i with _ | place
    · rfl
    · simp only [Option.bind_some, Array.getElem?_toList]
      rcases items[place]? with _ | e
      · rfl
      · rfl
  | @text content h =>
    rw [index_eq h]
    simp only [Option.bind_some, elementAt, int, scalar?, Shape.charAt, Text.charAt?_eq, at?,
      List.length_map, String.length_toList]
    rcases Shape.place? i with _ | place
    · rfl
    · simp only [Option.bind_some, List.getElem?_map]
      rcases content.toList[place]? with _ | c
      · rfl
      · rfl

/-- The sum of two sequences of a kind has the elements of both, in every pool. -/
theorem add (hx : x.Spells pool kind xs) (hy : y.Spells pool kind ys) :
    ∃ s, binary pool .add x y = .ok s ∧ ∀ q, s.Spells q kind (xs ++ ys) ∧
      ((∀ e ∈ xs ++ ys, e.Made q) → s.Made q) := by
  cases hx with
  | @list items hx =>
    cases hy with
    | @list items' hy =>
      refine ⟨_, combine_of_shape? hx hy rfl, fun q => ?_⟩
      rw [← Array.toList_append]
      exact ⟨.list rfl, .list⟩
  | @text content hx =>
    cases hy with
    | @text content' hy =>
      refine ⟨_, combine_of_shape? hx hy rfl, fun q => ?_⟩
      rw [← List.map_append, ← String.toList_append]
      exact ⟨.text rfl, fun _ => .text _⟩

/-- A sequence is asked what it is asked of its elements. -/
theorem sequential (h : x.Spells pool kind xs) : Sequential pool x kind xs where
  length := h.length
  element i hnonneg hlt := by
    obtain ⟨e, he⟩ := exists_at?_iff.2 ⟨hnonneg, hlt⟩
    obtain ⟨place, hplace, hget⟩ := at?_eq_some_iff.1 he
    refine ⟨e, ?_, ?_⟩
    · rw [hplace, Int.toNat_natCast]
      exact hget
    · rw [h.index, he]
  noElement i hout := by
    have hnone : at? xs i = none :=
      Option.eq_none_iff_forall_ne_some.2 fun e he => hout (exists_at?_iff.1 ⟨e, he⟩)
    rw [h.index, hnone]

/-- A sequence that has the elements of two sequences is their sum. -/
theorem sumOf (hx : x.Spells pool kind xs) (hy : y.Spells pool kind ys)
    (hd : d.Spells pool kind (xs ++ ys)) : SumOf pool x y kind xs ys d where
  toSequential := hd.sequential
  front i hnonneg hlt := by
    obtain ⟨e, he⟩ := exists_at?_iff.2 ⟨hnonneg, hlt⟩
    rw [hd.index, hx.index, at?_append_left hlt, he]
  back i hle hlt := by
    have hinside : 0 ≤ i.toInt ∧ i.toInt < (xs ++ ys).length := by
      rw [List.length_append]
      omega
    obtain ⟨e, he⟩ := exists_at?_iff.2 hinside
    rw [hd.index, hy.index, ← at?_append_right hle, he]

end Spells

end Draft

/-! ### Sequences that are one constant -/

/-- A tree is a sequence of these trees. -/
inductive Tree.Spells {α : Type} [Leaf α] (t : Tree α) : SequenceKind → List (Tree α) → Prop
  | list {items : Array (Tree α)} : t = .node (.list items) → Spells t .list items.toList
  | text {content : String} : t = .node (.text content) →
      Spells t .text (content.toList.map fun c => .node (.text (String.ofList [c])))

/-- Sequences of trees are the same if their elements are. -/
theorem Tree.Spells.eq_iff {α : Type} [Leaf α] {kind : SequenceKind} {t u : Tree α}
    {ts us : List (Tree α)} (ht : t.Spells kind ts) (hu : u.Spells kind us) :
    t = u ↔ ts = us := by
  cases ht with
  | list ht =>
    cases hu with
    | list hu => simp [ht, hu]
  | @text content ht =>
    cases hu with
    | @text content' hu =>
      have hinj : Function.Injective fun c : Char =>
          (Tree.node (.text (String.ofList [c])) : Tree α) := by
        intro c c' h
        simpa using h
      rw [hinj.list_map.eq_iff, String.toList_inj, ht, hu]
      simp

namespace Draft

variable {pool p q : Pool} {kind : SequenceKind} {x y z d e : Draft} {xs ys zs : List Draft}

/-- The elements of two lists are one by one the same constants if they mean the same trees. -/
theorem forall₂_alike_iff (hsound : pool.Sound) {ts us : List (Tree Holding)}
    (hxs : List.Forall₂ (Means pool) xs ts) (hys : List.Forall₂ (Means pool) ys us) :
    List.Forall₂ (Alike pool) xs ys ↔ ts = us := by
  induction hxs generalizing ys us with
  | nil => cases hys <;> simp
  | cons hx _ ih =>
    cases hys with
    | nil => simp
    | cons hy hys => rw [List.forall₂_cons, hx.alike_iff hsound hy, ih hys, List.cons.injEq]

namespace Spells

/-- A sequence means a sequence of what its elements mean. -/
theorem exists_means (h : x.Spells pool kind xs) (hx : x.Made pool) (hsound : pool.Sound) :
    ∃ (t : Tree Holding) (ts : List (Tree Holding)),
      Means pool x t ∧ t.Spells kind ts ∧ List.Forall₂ (Means pool) xs ts := by
  obtain ⟨t, ht⟩ := hx.exists_means hsound
  cases h with
  | list h =>
    obtain ⟨m, rfl, hm⟩ := ht.node_of_shape? h
    cases hm with
    | list hitems => exact ⟨_, _, ht, .list rfl, hitems⟩
  | @text content h =>
    obtain ⟨m, rfl, hm⟩ := ht.node_of_shape? h
    cases hm
    refine ⟨_, _, ht, .text rfl, ?_⟩
    rw [List.forall₂_map_left_iff, List.forall₂_map_right_iff, List.forall₂_same]
    exact fun c _ => .text _

/-- The elements of a sequence that a body can make are drafts that it can make. -/
theorem made (h : x.Spells pool kind xs) (hx : x.Made pool) (hsound : pool.Sound) :
    ∀ e ∈ xs, e.Made pool := by
  obtain ⟨t, ts, -, -, hmeans⟩ := h.exists_means hx hsound
  intro e he
  obtain ⟨t, -, ht⟩ := exists_of_forall₂ hmeans he
  exact ht.made

/-- Two sequences of a kind are one constant if and only if their elements are, one by one. -/
theorem alike_iff (hx : x.Spells pool kind xs) (hmadex : x.Made pool)
    (hy : y.Spells pool kind ys) (hmadey : y.Made pool) (hsound : pool.Sound) :
    Alike pool x y ↔ List.Forall₂ (Alike pool) xs ys := by
  obtain ⟨t, ts, ht, hts, hmeans⟩ := hx.exists_means hmadex hsound
  obtain ⟨u, us, hu, hus, hmeans'⟩ := hy.exists_means hmadey hsound
  rw [ht.alike_iff hsound hu, hts.eq_iff hus, forall₂_alike_iff hsound hmeans hmeans']

/-- The sum of two sequences of a kind, which a body can make if it can make these. -/
theorem exists_sum (hx : x.Spells pool kind xs) (hmadex : x.Made pool)
    (hy : y.Spells pool kind ys) (hmadey : y.Made pool) (hsound : pool.Sound) :
    ∃ s, binary pool .add x y = .ok s ∧ s.Made pool ∧ ∀ q, s.Spells q kind (xs ++ ys) := by
  obtain ⟨s, hs, hspells⟩ := hx.add hy
  have helements : ∀ e ∈ xs ++ ys, e.Made pool :=
    List.forall_mem_append.2 ⟨hx.made hmadex hsound, hy.made hmadey hsound⟩
  exact ⟨s, hs, (hspells pool).2 helements, fun q => (hspells q).1⟩

/-- A sequence is one constant with every sequence of the same elements. -/
theorem amounts (h : x.Spells pool kind xs) (hmade : x.Made pool) (hsound : pool.Sound) :
    Amounts pool x kind xs :=
  fun hmade' h' => h.alike_iff hmade h' hmade' hsound

/-- Two sequences of the same elements are one constant. -/
theorem alike (hx : x.Spells pool kind xs) (hmadex : x.Made pool) (hy : y.Spells pool kind xs)
    (hmadey : y.Made pool) (hsound : pool.Sound) : Alike pool x y := by
  obtain ⟨t, ts, -, -, hmeans⟩ := hx.exists_means hmadex hsound
  exact (hx.alike_iff hmadex hy hmadey hsound).2
    ((forall₂_alike_iff hsound hmeans hmeans).2 rfl)

/-- The laws of sequences, for lists and for texts, in whichever form each of them is held: which
indices have an element and which element that is, what the sum of two sequences is asked, that it
makes no difference to the constant how a sum is grouped, and that an empty sequence adds nothing.
The third sequence may have been made later than the sum of the first two. -/
theorem sequence_laws (hp : p.Reached) (hleads : p.Leads q) (hx : x.Spells p kind xs)
    (hy : y.Spells p kind ys) (hz : z.Spells q kind zs) (hmadex : x.Made p) (hmadey : y.Made p)
    (hmadez : z.Made q) :
    Sequential q x kind xs ∧
      (∃ s t u v, binary p .add x y = .ok s ∧ binary q .add s z = .ok t ∧
        binary q .add y z = .ok u ∧ binary q .add x u = .ok v ∧
        SumOf q x y kind xs ys s ∧
        Amounts q t kind (xs ++ ys ++ zs) ∧ Amounts q v kind (xs ++ ys ++ zs) ∧ Alike q t v) ∧
      ∀ e, e.Made q → e.Spells q kind [] →
        ∃ a b, binary q .add x e = .ok a ∧ binary q .add e x = .ok b ∧
          Alike q a x ∧ Alike q b x := by
  have hsound := hp.sound
  have hsound' := hleads.sound hsound
  have hkeeps := hleads.keeps
  have hx' := hx.mono hkeeps
  have hy' := hy.mono hkeeps
  have hmadex' := hmadex.mono hkeeps
  refine ⟨hx'.sequential, ?_, fun e hmade he => ?_⟩
  · -- each sum spells the elements of both operands, and what is spelled decides the constant
    obtain ⟨s, hs, hmades, hspells⟩ := hx.exists_sum hmadex hy hmadey hsound
    obtain ⟨t, ht, hmadet, hspellt⟩ :=
      (hspells q).exists_sum (hmades.mono hkeeps) hz hmadez hsound'
    obtain ⟨u, hu, hmadeu, hspellu⟩ :=
      hy'.exists_sum (hmadey.mono hkeeps) hz hmadez hsound'
    obtain ⟨v, hv, hmadev, hspellv⟩ := hx'.exists_sum hmadex' (hspellu q) hmadeu hsound'
    have hspellv' := hspellv q
    rw [← List.append_assoc] at hspellv'
    exact ⟨s, t, u, v, hs, ht, hu, hv, hx'.sumOf hy' (hspells q),
      (hspellt q).amounts hmadet hsound', hspellv'.amounts hmadev hsound',
      (hspellt q).alike hmadet hspellv' hmadev hsound'⟩
  · obtain ⟨a, ha, hmadea, hspella⟩ := hx'.exists_sum hmadex' he hmade hsound'
    obtain ⟨b, hb, hmadeb, hspellb⟩ := he.exists_sum hmade hx' hmadex' hsound'
    have hspella' := hspella q
    rw [List.append_nil] at hspella'
    exact ⟨a, b, ha, hb, hspella'.alike hmadea hx' hmadex' hsound',
      (hspellb q).alike hmadeb hx' hmadex' hsound'⟩

/-- The pool of one text, of two characters and three bytes. -/
def poolOfText : Pool := (({} : Pool).intern (.shape (.text "né"))).2

/-- A text of the pool and texts that are not pooled. -/
theorem sequence_laws_ofText :
    ∃ s t, binary poolOfText .add (.pooled ⟨0⟩) (.text "e") = .ok s ∧
      binary poolOfText .add s (.text "s") = .ok t ∧
      s.member poolOfText "length" = .ok (int 3) ∧
      s.index poolOfText (int 2) = (Draft.text "e").index poolOfText (int 0) ∧
      (∃ cause, s.index poolOfText (int 3) = .error (.runtime cause)) ∧
      Alike poolOfText t (.text "nées") := by
  have hreached : poolOfText.Reached := .single ⟨_, rfl⟩
  have hpooled : (Draft.pooled ⟨0⟩).Spells poolOfText .text ("né".toList.map character) :=
    .text rfl
  have htext : ∀ content : String,
      (Draft.text content).Spells poolOfText .text (content.toList.map character) :=
    fun _ => .text rfl
  have hmade : ∀ {content : String}, (Draft.text content).Made poolOfText := .text _
  obtain ⟨-, ⟨s, t, u, v, hs, ht, -, -, hsum, hamounts, -, -⟩, -⟩ :=
    sequence_laws hreached .refl hpooled (htext "e") (htext "s") (.atom Nat.zero_lt_one) hmade hmade
  refine ⟨s, t, hs, ht, hsum.length, hsum.back 2 (by decide) (by decide), ?_, ?_⟩
  · exact ⟨_, hsum.noElement 3 (by decide)⟩
  · refine (hamounts hmade (htext "nées")).2 ?_
    have hsame : ∀ cs : List Char,
        List.Forall₂ (Alike poolOfText) (cs.map character) (cs.map character) :=
      fun cs => List.forall₂_same.2 (List.forall_mem_map.2 fun c _ =>
        (htext _).alike hmade (htext _) hmade hreached.sound)
    exact hsame "nées".toList

end Spells

end Draft

end ConstPool
