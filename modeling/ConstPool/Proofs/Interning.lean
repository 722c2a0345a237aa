import ConstPool.Stock
import ConstPool.Proofs.Pool

/-!
# What can be handed in

Whoever holds a stock may hand in any value: one that refers to itself, to constants that are not
there yet, or to none at all. It may be handed in together with its uses, to the pool alone, or as
an atom. Nothing of that makes the pool unsound. A value is refused exactly if it is new and one of
its parts is unknown, and then nothing but the number of requests changes; all other values get an
identity and keep it.

There are three ways in. A constant of the pool is handed in with its parts, and the uses of the
parts are recorded; a value is given to the pool alone; an atom is pooled if it is a scalar and
answered with itself if it is an identity. All of them come down to one step on the pool, which has
three outcomes, and the invariant is proved for this step. It says that the pool is sound and that
the requests are the constants, the shared values and the refusals together. A run is a list of
offers, and the induction is on the list.

* `Pool.Handled`: the outcomes of handing in a value.
* `Offer`: what can be handed in, and how.
* `Stock.Accounted`: what holds of a stock, whatever was handed in.
* `Stock.Takes`: what it answers to a value.
* `Stock.interning_exact`: both, whatever was handed in.
-/

namespace ConstPool

namespace Pool

/-- The outcomes of handing in a value: it is there already, it refers to an unknown constant, or
it is put at the end. -/
inductive Handled (pool : Pool) (value : Value) : Except Fault ValueId → Pool → Prop
  | shared {id : ValueId} : pool.get? id = some value →
    Handled pool value (.ok id)
      { pool with requests := pool.requests + 1, shared := pool.shared + 1 }
  | refused {missing : ValueId} : (∀ id, pool.get? id ≠ some value) →
    missing ∈ value.children → pool.get? missing = none →
      Handled pool value (.error (.breach (.danglingReference value missing)))
        { pool with requests := pool.requests + 1 }
  | added : (∀ id, pool.get? id ≠ some value) →
    (∀ child ∈ value.children, pool.get? child ≠ none) →
      Handled pool value (.ok ⟨pool.size⟩)
        { pool with requests := pool.requests + 1, values := pool.values.insert value }

/-- Handing a value in to the pool has one of the three outcomes. -/
theorem handled_intern (pool : Pool) (value : Value) :
    Handled pool value (pool.intern value).1 (pool.intern value).2 := by
  rcases hid : pool.idOf? value with _ | id
  · have hnew : ∀ id, pool.get? id ≠ some value := fun id hget => idOf?_ne_none_of_get? hget hid
    rcases hdangling : pool.dangling? value with _ | missing
    · rw [intern_of_new hid hdangling]
      refine .added hnew fun child hchild => ?_
      have hlt := List.find?_eq_none.1 hdangling child hchild
      rw [ne_eq, get?_eq_none_iff]
      simpa using hlt
    · rw [intern_of_dangling hid hdangling]
      have hout := List.find?_some hdangling
      exact .refused hnew (List.mem_of_find?_eq_some hdangling)
        (get?_eq_none_iff.2 (of_decide_eq_true hout))
  · rw [intern_of_mem hid]
    exact .shared (get?_of_idOf? hid)

/-- A value without an identity is not in the pool. -/
theorem idOf?_eq_none_of_forall {pool : Pool} {value : Value}
    (h : ∀ id, pool.get? id ≠ some value) : pool.idOf? value = none := by
  rw [idOf?_eq_none_iff]
  intro hmem
  obtain ⟨i, hi⟩ := Array.mem_iff_getElem?.1 hmem
  exact h ⟨i⟩ hi

/-- In a sound pool no value stands twice. -/
theorem Sound.nodup {pool : Pool} (h : pool.Sound) : pool.values.toList.Nodup := by
  rw [List.Nodup, List.pairwise_iff_getElem]
  intro i j hi hj hij heq
  have hget : pool.get? ⟨j⟩ = some pool.values.toList[j] := by
    simp [get?, OrderedSet.toList]
  have hget' : pool.get? ⟨i⟩ = some pool.values.toList[j] := by
    rw [← heq]
    simp [get?, OrderedSet.toList]
  have hsame := h.unique hget' hget
  exact Nat.ne_of_lt hij (congrArg ValueId.index hsame)

namespace Handled

variable {pool after : Pool} {value : Value} {res : Except Fault ValueId}

/-- The identity that is given has the value. -/
theorem get {id : ValueId} (h : Handled pool value (.ok id) after) :
    after.get? id = some value := by
  cases h with
  | shared hget => exact hget
  | added hnew => rw [get?_insert_values (idOf?_eq_none_of_forall hnew), if_pos rfl]

/-- A value is refused exactly if it is new and has a part that is unknown. -/
theorem refused_iff (h : Handled pool value res after) :
    (∃ f, res = .error f) ↔
      (∀ id, pool.get? id ≠ some value) ∧ ∃ child ∈ value.children, pool.get? child = none := by
  cases h with
  | shared hget => exact iff_of_false (by simp) fun hnew => hnew.1 _ hget
  | refused hnew hchild hnone => exact iff_of_true ⟨_, rfl⟩ ⟨hnew, _, hchild, hnone⟩
  | added _ hknown =>
    refine iff_of_false (by simp) ?_
    rintro ⟨-, child, hchild, hnone⟩
    exact hknown child hchild hnone

/-- A value that is in a sound pool gets its identity there. -/
theorem of_get (hsound : pool.Sound) {id : ValueId} (hget : pool.get? id = some value)
    (h : Handled pool value res after) : res = .ok id := by
  cases h with
  | shared hget' => rw [hsound.unique hget hget']
  | refused hnew => exact absurd hget (hnew id)
  | added hnew => exact absurd hget (hnew id)

/-- The pool stays sound and keeps its constants, and the request is counted as what it comes to. -/
theorem accounted (h : Handled pool value res after) (hsound : pool.Sound) {n : Nat}
    (hcounted : pool.requests = pool.size + pool.shared + n) :
    after.Sound ∧ pool.Keeps after ∧
      after.requests = after.size + after.shared + (n + (!res.isOk).toNat) := by
  cases h with
  | shared =>
    refine ⟨⟨hsound.unique, hsound.smaller⟩, fun _ _ hget => hget, ?_⟩
    show pool.requests + 1 = pool.size + (pool.shared + 1) + (n + 0)
    omega
  | refused =>
    refine ⟨⟨hsound.unique, hsound.smaller⟩, fun _ _ hget => hget, ?_⟩
    show pool.requests + 1 = pool.size + pool.shared + (n + 1)
    omega
  | added hnew hknown =>
    have hid := idOf?_eq_none_of_forall hnew
    have hmem : value ∉ pool.values.items := idOf?_eq_none_iff.1 hid
    refine ⟨hsound.insert_values hid fun child hchild => ?_, fun id v hget => ?_, ?_⟩
    · exact Nat.lt_of_not_le fun hle => hknown child hchild (get?_eq_none_iff.2 hle)
    · have hlt := lt_size_of_get? hget
      rw [get?_insert_values hid, if_neg (Nat.ne_of_lt hlt), hget]
    · have hsize : (pool.values.insert value).size = pool.size + 1 := by
        rw [OrderedSet.size, OrderedSet.items_insert_of_not_mem hmem, Array.size_push, size,
          OrderedSet.size]
      show pool.requests + 1 = (pool.values.insert value).size + pool.shared + (n + 0)
      omega

/-- What is refused counts as a request and leaves no other trace. -/
theorem of_error {f : Fault} (h : Handled pool value (.error f) after) :
    after = { pool with requests := pool.requests + 1 } := by
  cases h
  rfl

end Handled

end Pool

/-! ### Handing in -/

namespace Work

/-- A step on the pool changes nothing else of the stock. -/
theorem outcome_onPool {α : Type} (step : Pool → Except Fault α × Pool) (s : Stock) :
    (onPool step).outcome s = ((step s.pool).1, { s with pool := (step s.pool).2 }) := by
  simp only [outcome, onPool]
  rcases step s.pool with ⟨f | a, q⟩ <;> rfl

variable {s : Stock} {value : Value} {q : Pool}

/-- A value that gets an identity is pooled, and its uses are recorded. -/
theorem outcome_intern_of_ok {id : ValueId} (h : s.pool.intern value = (.ok id, q)) :
    (intern value).outcome s =
      (.ok id, { s with pool := q, uses := s.uses.recordParts id value.children }) := by
  simp only [outcome, intern, onPool, bind, EStateM.bind, h]
  rfl

/-- A value that is refused leaves no uses. -/
theorem outcome_intern_of_error {f : Fault} (h : s.pool.intern value = (.error f, q)) :
    (intern value).outcome s = (.error f, { s with pool := q }) := by
  simp only [outcome, intern, onPool, bind, EStateM.bind, h]

end Work

/-- What can be handed in to a stock: a value together with its uses, a value to the pool alone,
or an atom. -/
inductive Offer where
  | value (v : Value)
  | bare (v : Value)
  | atom (a : Atom)

namespace Offer

/-- Handing in. -/
def work : Offer → Work ValueId
  | .value v => Work.intern v
  | .bare v => Work.onPool (Pool.intern v)
  | .atom a => Work.onPool (Pool.internAtom a)

/-- The value that the pool is asked to take, unless a known identity is asked for. -/
def interned? : Offer → Option Value
  | .value v => some v
  | .bare v => some v
  | .atom (.scalar s) => some (.scalar s)
  | .atom (.ref _) => none

/-- The answer of a stock. -/
def answer (o : Offer) (s : Stock) : Except Fault ValueId := (o.work.outcome s).1

/-- The stock afterwards. -/
def after (o : Offer) (s : Stock) : Stock := (o.work.outcome s).2

/-- Whether a value is refused. -/
def refused (o : Offer) (s : Stock) : Bool := o.interned?.isSome && !(o.answer s).isOk

/-- An offer is a value that the pool is asked to take, or an identity. -/
theorem interned?_cases (o : Offer) :
    (∃ v, o.interned? = some v) ∨ ∃ id, o = .atom (.ref id) := by
  cases o with
  | value v => exact .inl ⟨v, rfl⟩
  | bare v => exact .inl ⟨v, rfl⟩
  | atom a =>
    cases a with
    | scalar s => exact .inl ⟨_, rfl⟩
    | ref id => exact .inr ⟨id, rfl⟩

/-- The pool takes a value however it is handed in, and a fault leaves the uses and the cache. -/
theorem handled {o : Offer} {v : Value} (h : o.interned? = some v) (s : Stock) :
    s.pool.Handled v (o.answer s) (o.after s).pool ∧
      ∀ f, o.answer s = .error f → o.after s = { s with pool := (o.after s).pool } := by
  have hhandled := s.pool.handled_intern v
  cases o with
  | value w =>
    cases h
    rcases hintern : s.pool.intern v with ⟨f | id, q⟩
    · rw [hintern] at hhandled
      rw [answer, after, work, Work.outcome_intern_of_error hintern]
      exact ⟨hhandled, fun _ _ => rfl⟩
    · rw [hintern] at hhandled
      rw [answer, after, work, Work.outcome_intern_of_ok hintern]
      exact ⟨hhandled, fun _ hf => nomatch hf⟩
  | bare w =>
    cases h
    rw [answer, after, work, Work.outcome_onPool]
    exact ⟨hhandled, fun _ _ => rfl⟩
  | atom a =>
    cases a with
    | ref id => cases h
    | scalar c =>
      cases h
      rw [answer, after, work, Work.outcome_onPool]
      exact ⟨hhandled, fun _ _ => rfl⟩

/-- An identity is the answer to itself if it is known, and nothing changes. -/
theorem outcome_ref (id : ValueId) (s : Stock) :
    (Offer.atom (.ref id)).work.outcome s =
      (if (s.pool.get? id).isSome then .ok id else .error (.breach (.unknownValue id)), s) := by
  rw [work, Work.outcome_onPool, Pool.internAtom, Pool.get]
  rcases s.pool.get? id with _ | value <;> rfl

end Offer

namespace Stock

/-- The stock after all of that was handed in. -/
def accept (s : Stock) (offers : List Offer) : Stock := offers.foldl (fun s o => o.after s) s

/-- How many of the values were refused. -/
def refusals (s : Stock) : List Offer → Nat
  | [] => 0
  | o :: offers => (o.refused s).toNat + refusals (o.after s) offers

/-- A stock of which the pool is sound, where every request found a value, added one or was one of
so many that were refused. -/
structure Accounted (s : Stock) (refused : Nat) : Prop where
  sound : s.pool.Sound
  counted : s.pool.requests = s.pool.size + s.pool.shared + refused

variable {s : Stock} {n : Nat}

/-- One offer: the pool stays sound and keeps its constants, and the request is counted as what it
comes to. -/
theorem Accounted.after (h : s.Accounted n) (o : Offer) :
    (o.after s).Accounted (n + (o.refused s).toNat) ∧ s.pool.Keeps (o.after s).pool := by
  rcases o.interned?_cases with ⟨v, hv⟩ | ⟨id, rfl⟩
  · obtain ⟨hhandled, -⟩ := Offer.handled hv s
    obtain ⟨hsound, hkeeps, hcounted⟩ := hhandled.accounted h.sound h.counted
    rw [Offer.refused, hv]
    exact ⟨⟨hsound, hcounted⟩, hkeeps⟩
  · rw [Offer.after, Offer.refused, Offer.interned?, Offer.outcome_ref]
    exact ⟨h, .refl _⟩

/-- Whatever is handed in, in whatever order. -/
theorem Accounted.accept (h : s.Accounted n) (offers : List Offer) :
    (s.accept offers).Accounted (n + s.refusals offers) ∧ s.pool.Keeps (s.accept offers).pool := by
  induction offers generalizing s n with
  | nil => exact ⟨h, .refl _⟩
  | cons o offers ih =>
    obtain ⟨hstep, hkeeps⟩ := h.after o
    obtain ⟨hrest, hkeeps'⟩ := ih hstep
    rw [Nat.add_assoc] at hrest
    exact ⟨hrest, hkeeps.trans hkeeps'⟩

/-- The empty stock has been handed nothing. -/
theorem accounted_empty : Accounted {} 0 := ⟨Pool.sound_empty, rfl⟩

/-- A value that has an identity is given it, however and whenever it is handed in. -/
theorem Accounted.answer_of_get? (h : s.Accounted n) {o : Offer} {v : Value}
    (hv : o.interned? = some v) {id : ValueId} (hget : s.pool.get? id = some v) :
    o.answer s = .ok id :=
  (Offer.handled hv s).1.of_get h.sound hget

/-- What a stock answers to a value, however it is handed in. -/
structure Takes (s : Stock) (o : Offer) (v : Value) : Prop where
  /-- A value that is taken has the identity that is given. -/
  get : ∀ id, o.answer s = .ok id → (o.after s).pool.get? id = some v
  /-- It is given the same identity ever after. -/
  again : ∀ id, o.answer s = .ok id → ∀ (later : List Offer) (o' : Offer),
    o'.interned? = some v → o'.answer ((o.after s).accept later) = .ok id
  /-- Only a new value with an unknown part is refused. -/
  refused : (∃ f, o.answer s = .error f) ↔
    (∀ id, s.pool.get? id ≠ some v) ∧ ∃ child ∈ v.children, s.pool.get? child = none
  /-- The request is the only trace of a value that is refused. -/
  trace : ∀ f, o.answer s = .error f →
    o.after s = { s with pool := { s.pool with requests := s.pool.requests + 1 } }

/-- A stock whose books are right answers as described. -/
theorem Accounted.takes (h : s.Accounted n) {o : Offer} {v : Value} (hv : o.interned? = some v) :
    s.Takes o v := by
  obtain ⟨hhandled, hframe⟩ := Offer.handled hv s
  refine ⟨fun id hid => ?_, fun id hid later o' hv' => ?_, hhandled.refused_iff, fun f hf => ?_⟩
  · rw [hid] at hhandled
    exact hhandled.get
  · rw [hid] at hhandled
    obtain ⟨hlater, hkeeps⟩ := (h.after o).1.accept later
    exact hlater.answer_of_get? hv' (hkeeps id v hhandled.get)
  · rw [hf] at hhandled
    rw [hframe f hf, hhandled.of_error]

/-- Whatever was handed in to an empty stock: no value is in the pool twice, references lead to
smaller identities, what is known stays known, whatever else is handed in, a value is taken or
refused as it should be, an identity is answered with itself, and every request is accounted
for. -/
theorem interning_exact (offers : List Offer) :
    (accept {} offers).pool.values.toList.Nodup ∧
      (∀ id v, (accept {} offers).pool.get? id = some v →
        ∀ child ∈ v.children, child.index < id.index) ∧
      (∀ later id v, (accept {} offers).pool.get? id = some v →
        ((accept {} offers).accept later).pool.get? id = some v) ∧
      (∀ o v, Offer.interned? o = some v → (accept {} offers).Takes o v) ∧
      (∀ id, (Offer.atom (.ref id)).after (accept {} offers) = accept {} offers ∧
        ∀ i, (Offer.atom (.ref id)).answer (accept {} offers) = .ok i ↔
          i = id ∧ (accept {} offers).pool.get? id ≠ none) ∧
      (accept {} offers).pool.requests =
        (accept {} offers).pool.size + (accept {} offers).pool.shared + refusals {} offers := by
  obtain ⟨haccounted, -⟩ := accounted_empty.accept offers
  rw [Nat.zero_add] at haccounted
  refine ⟨haccounted.sound.nodup, fun id v hget => haccounted.sound.smaller hget,
    fun later id v hget => (haccounted.accept later).2 id v hget, fun o v hv => haccounted.takes hv,
    fun id => ?_, haccounted.counted⟩
  rw [Offer.after, Offer.answer, Offer.outcome_ref]
  refine ⟨rfl, fun i => ?_⟩
  rcases (accept {} offers).pool.get? id with _ | value
  · simp
  · simp [eq_comm]

end Stock

end ConstPool
