import ConstPool.Proofs.Draft.Interchange
import ConstPool.Proofs.Making

/-!
# Maps and their keys

A map literal fails if a key equals an earlier one, and a map gives for a key the value of the first
entry whose key equals it. Both compare numbers as numbers, where the pool compares patterns and
structure. So a map has different keys and gives for each of them its value, in every form in which
it and the key may be held, but for what is no number: it equals nothing, so it may be a key more
than once, and a map gives null for it.

There are two relations between keys. The equality of the language says that numbers are equal if
they are so as numbers, and otherwise compares constants. The pool compares patterns: what is no
number is the same constant as itself. They differ in nothing but this, which is why a map can be
read back exactly if no key of it is such a double, or each that is one stands there once with null
for its value. Whether the map, a key or a value is pooled makes no difference, and neither does it
when the map is read: now, or later on, from what it was pooled as.

* `Tree.Keyed`, `Draft.Keyed`: entries of which no key equals a later one.
* `Draft.ReadsBack`: no two keys are one constant of the pool, and each is read back.
* `Env.Supplied.map`: the entries of a map literal are keyed.
* `Analysis.map_readsBack_iff`: which map literals can be read back.
-/

namespace ConstPool

open Draft Relation

/-! ### Numbers that do not equal themselves -/

/-- A pattern that stands for no number. -/
def Double.IsNaN (x : Double) : Prop := x.read = .nan

namespace Double

variable {x y : Double}

/-- A pattern has no place on the number line if and only if it stands for no number. -/
theorem position?_eq_none_iff : x.position? = none ↔ x.IsNaN := by
  have hexponent : (x.bits >>> 52 &&& 0x7ff).toNat = x.bits.toNat >>> 52 % 2 ^ 11 := by
    rw [UInt64.toNat_and, UInt64.toNat_shiftRight]
    exact Nat.and_two_pow_sub_one_eq_mod _ 11
  have hfraction : (x.bits &&& 0xfffffffffffff).toNat = x.bits.toNat % 2 ^ 52 := by
    rw [UInt64.toNat_and]
    exact Nat.and_two_pow_sub_one_eq_mod _ 52
  have hcode : (x.bits &&& 0x7fffffffffffffff).toNat = x.bits.toNat % 2 ^ 63 := by
    rw [UInt64.toNat_and]
    exact Nat.and_two_pow_sub_one_eq_mod _ 63
  have hbeyond : infinityCode < x.bits.toNat % 2 ^ 63 ↔
      x.bits.toNat >>> 52 % 2 ^ 11 = 2047 ∧ x.bits.toNat % 2 ^ 52 ≠ 0 := by
    rw [infinityCode, leadingBit, Nat.shiftRight_eq_div_pow]
    omega
  simp only [position?, IsNaN, read, hexponent, hfraction, hcode, hbeyond]
  generalize x.bits.toNat >>> 52 % 2 ^ 11 = e
  generalize x.bits.toNat % 2 ^ 52 = f
  by_cases he : e = 2047
  · by_cases hf : f = 0
    · simp [he, hf]
    · simp [he, hf]
  · by_cases hzero : e = 0
    · simp [hzero]
    · simp [he, hzero]

/-- A double equals itself exactly if it is a number. -/
theorem numEq_self_iff : x.numEq x = true ↔ ¬ x.IsNaN := by
  rw [← position?_eq_none_iff, numEq, compareWith]
  cases x.position? <;> simp

/-- Nothing equals what is no number. -/
theorem numEq_of_isNaN (h : y.IsNaN) : x.numEq y = false := by
  rw [numEq, compareWith, position?_eq_none_iff.2 h]
  cases x.position? <;> rfl

end Double

/-- A double that is no number. -/
def Scalar.IsNaN (s : Scalar) : Prop := ∃ x : Double, s = .double x ∧ x.IsNaN

namespace Scalar

variable {s s' : Scalar}

/-- Every scalar equals itself but for a double that is no number. -/
theorem equals_self_iff : s.equals s = true ↔ ¬ s.IsNaN := by
  rcases s with _ | b | i | x
  case double =>
    refine Double.numEq_self_iff.trans (not_congr ⟨fun h => ⟨x, rfl, h⟩, ?_⟩)
    rintro ⟨y, ⟨⟩, h⟩
    exact h
  all_goals
    refine iff_of_true (by simp [equals, number?]) ?_
    rintro ⟨x, ⟨⟩, -⟩

/-- No scalar equals what is no number. -/
theorem equals_of_isNaN (h : s'.IsNaN) : s.equals s' = false := by
  obtain ⟨y, rfl, hy⟩ := h
  rcases s with _ | b | i | x
  · rfl
  · rfl
  · exact Double.numEq_of_isNaN hy
  · exact Double.numEq_of_isNaN hy

end Scalar

/-! ### Entries of trees -/

namespace Tree

variable {α : Type} [Leaf α]

/-- A tree that is no number though it is a double, held in place. -/
def IsNaN (t : Tree α) : Prop := ∃ s, t.scalar? = some s ∧ s.IsNaN

variable [DecidableEq α] {t key : Tree α} {e : Tree α × Tree α} {entries : List (Tree α × Tree α)}

/-- Every tree equals itself but for what is no number. -/
theorem equals_self_iff : t.equals t = true ↔ ¬ t.IsNaN := by
  rw [equals, IsNaN]
  rcases t.scalar? with _ | s
  · simp
  · simp [Scalar.equals_self_iff]

/-- No tree does either. -/
theorem equals_of_isNaN (h : key.IsNaN) : t.equals key = false := by
  obtain ⟨s, hs, hnan⟩ := h
  rw [equals, hs]
  rcases ht : t.scalar? with _ | s'
  · refine decide_eq_false ?_
    rintro rfl
    cases ht.symm.trans hs
  · exact Scalar.equals_of_isNaN hnan

/-- Entries of which no key equals a later one. -/
abbrev Keyed (entries : List (Tree α × Tree α)) : Prop :=
  entries.Pairwise fun e e' => e.1.equals e'.1 = false

/-- A key that is new comes after entries of which no key equals another one. -/
theorem Keyed.push (h : Keyed entries) {value : Tree α}
    (hnew : key.ensureNewKey entries.toArray = .ok ()) : Keyed (entries ++ [(key, value)]) := by
  rw [ensureNewKey, List.any_toArray] at hnew
  have hany : ¬ entries.any (fun e => e.1.equals key) = true := by
    intro hany
    rw [if_pos hany] at hnew
    cases hnew
  refine List.pairwise_append.2 ⟨h, List.pairwise_singleton .., fun e he e' he' => ?_⟩
  obtain rfl := List.mem_singleton.1 he'
  exact Bool.eq_false_iff.2 fun heq => hany (List.any_eq_true.2 ⟨e, he, heq⟩)

/-- A key that equals itself has its own value. -/
theorem Keyed.valueAt_of_mem (h : Keyed entries) (hmem : e ∈ entries) (hnan : ¬ e.1.IsNaN) :
    valueAt e.1 entries = e.2 := by
  induction entries with
  | nil => cases hmem
  | cons e' rest ih =>
    obtain ⟨hhead, hrest⟩ := List.pairwise_cons.1 h
    rw [valueAt]
    rcases List.mem_cons.1 hmem with rfl | hmem
    · rw [if_pos (equals_self_iff.2 hnan)]
    · rw [hhead e hmem, if_neg Bool.false_ne_true]
      exact ih hrest hmem

/-- What is no number has no value, whichever keys there are. -/
theorem valueAt_of_isNaN (h : key.IsNaN) : valueAt key entries = scalar .null := by
  induction entries with
  | nil => rfl
  | cons e rest ih => rw [valueAt, equals_of_isNaN h, if_neg Bool.false_ne_true, ih]

/-- Two keys are the same only if they are no number. -/
theorem Keyed.isNaN_of_eq (h : Keyed entries) :
    entries.Pairwise fun e e' => e.1 = e'.1 → e.1.IsNaN := by
  refine h.imp fun {e e'} hne heq => ?_
  rw [← heq] at hne
  by_contra hnan
  rw [equals_self_iff.2 hnan] at hne
  cases hne

end Tree

/-! ### Entries of drafts -/

namespace Draft

/-- A draft that is no number though it is a double, held in place. -/
def IsNaN (d : Draft) : Prop := ∃ s, d = .scalar s ∧ s.IsNaN

/-- From the pool on, a map gives a value for a key, whatever of the map and of the key has been
pooled in the meantime. What it gives is pooled as the value is. -/
def Reads (pool : Pool) (map key value : Draft) : Prop :=
  ∀ q map' key', pool.Leads q → Since pool q map map' → Since pool q key key' →
    ∃ r, map'.index q key' = .ok r ∧ Alike q r value

/-- No two keys of a map are pooled as one atom, and the map gives for each of them its value. -/
structure ReadsBack (pool : Pool) (entries : List (Draft × Draft)) : Prop where
  distinct : entries.Pairwise fun e e' => ¬ Alike pool e.1 e'.1
  reads : ∀ e ∈ entries, Reads pool (.fresh (.map entries)) e.1 e.2

/-- Entries that mean entries of trees of which no key equals a later one. -/
def Keyed (pool : Pool) (entries : List (Draft × Draft)) : Prop :=
  ∃ ts : List (Tree Holding × Tree Holding),
    List.Forall₂ (fun e t => Means pool e.1 t.1 ∧ Means pool e.2 t.2) entries ts ∧ Tree.Keyed ts

variable {pool q : Pool} {d key map value : Draft} {t k : Tree Holding}
  {entries : List (Draft × Draft)} {ts : List (Tree Holding × Tree Holding)}

/-- The drafts that are scalars are those held in place. -/
theorem scalar?_eq_some_iff {s : Scalar} : d.scalar? = some s ↔ d = .scalar s := by
  constructor
  · rcases d with ⟨s' | id⟩ | layer
    · rintro ⟨⟩
      rfl
    · rintro ⟨⟩
    · rintro ⟨⟩
  · rintro rfl
    rfl

/-- A draft is no number if the tree that it means is none. -/
theorem Means.isNaN_iff (h : Means pool d t) : d.IsNaN ↔ t.IsNaN := by
  simp only [IsNaN, Tree.IsNaN, ← scalar?_eq_some_iff, h.scalar?]

/-- A draft is a scalar if the tree that it means is. -/
theorem Means.scalar_eq_iff {s : Scalar} (h : Means pool d t) :
    Tree.scalar s = t ↔ d = .scalar s := by
  constructor
  · rintro rfl
    exact scalar?_eq_some_iff.1 h.scalar?
  · rintro rfl
    exact (scalar_iff.1 h).symm

/-- A map gives for a key what its tree gives. -/
theorem Means.reads_iff (hsound : pool.Sound) (hmap : Means pool map (.node (.map ts)))
    (hkey : Means pool key k) (hvalue : Means pool value t) :
    Reads pool map key value ↔ Tree.valueAt k ts = t := by
  have hindex : ∀ {q map' key'}, q.Sound → Means q map' (.node (.map ts)) → Means q key' k →
      ∃ r, map'.index q key' = .ok r ∧ Means q r (Tree.valueAt k ts) := by
    intro q map' key' hq hm hk
    have hagree : Agree Fault.Benign (Means q) (map'.index q key') (.ok (Tree.valueAt k ts)) :=
      hm.index hq hk
    generalize map'.index q key' = r at hagree ⊢
    cases hagree with
    | ok hr => exact ⟨_, rfl, hr⟩
  constructor
  · intro h
    obtain ⟨r, hr, halike⟩ := h _ _ _ .refl (.kept hmap.made) (.kept hkey.made)
    obtain ⟨r', hr', hmeans⟩ := hindex hsound hmap hkey
    cases hr.symm.trans hr'
    exact (hmeans.alike_iff hsound hvalue).1 halike
  · rintro rfl q map' key' hleads hm hk
    obtain ⟨m, hm, hm'⟩ := hm.exists_means hsound hleads
    obtain ⟨k', hk, hk'⟩ := hk.exists_means hsound hleads
    obtain rfl := hm.functional hmap
    obtain rfl := hk.functional hkey
    have hsound' := hleads.sound hsound
    obtain ⟨r, hr, hmeans⟩ := hindex hsound' hm' hk'
    exact ⟨r, hr, (hmeans.alike_iff hsound' (hvalue.mono hleads.keeps)).2 rfl⟩

/-- Entries with different keys are so in a pool that keeps them. -/
theorem Keyed.mono (h : Keyed pool entries) (hkeeps : pool.Keeps q) : Keyed q entries := by
  obtain ⟨ts, hmeans, hts⟩ := h
  exact ⟨ts, hmeans.imp fun _ _ h => ⟨h.1.mono hkeeps, h.2.mono hkeeps⟩, hts⟩

/-- A key that is new comes after entries of which no key equals a later one. -/
theorem Keyed.ensureNewKey {given : Array (Draft × Draft)} (h : Keyed pool given.toList)
    (hsound : pool.Sound) (hkey : Means pool key k) (hvalue : Means pool value t) :
    Results (fun _ => True) (fun _ => Keyed pool (given.push (key, value)).toList)
      (key.ensureNewKey given pool) := by
  obtain ⟨ts, hmeans, hts⟩ := h
  have hnew : Agree Fault.Benign Eq (key.ensureNewKey given pool) (k.ensureNewKey ts.toArray) :=
    hkey.ensureNewKey hsound hmeans
  rw [hnew.eq]
  rcases htree : k.ensureNewKey ts.toArray with f | _
  · exact .error trivial
  · refine .ok ⟨ts ++ [(k, t)], ?_, hts.push htree⟩
    rw [Array.toList_push]
    exact List.rel_append hmeans (.cons ⟨hkey, hvalue⟩ .nil)

/-- Two keys are one constant if and only if they are the same, and no number. -/
theorem Keyed.alike_iff (h : Keyed pool entries) (hsound : pool.Sound) :
    entries.Pairwise fun e e' => Alike pool e.1 e'.1 ↔ e.1.IsNaN ∧ e.1 = e'.1 := by
  obtain ⟨ts, hmeans, hts⟩ := h
  refine pairwise_of_forall₂ hmeans hts.isNaN_of_eq fun {e e' t t'} he he' hnan => ?_
  rw [he.1.alike_iff hsound he'.1]
  constructor
  · intro heq
    obtain ⟨s, hs, hnumber⟩ := he.1.isNaN_iff.2 (hnan heq)
    have hs' : e'.1 = .scalar s := by rw [← he'.1.scalar_eq_iff, ← heq, he.1.scalar_eq_iff, hs]
    exact ⟨⟨s, hs, hnumber⟩, hs.trans hs'.symm⟩
  · rintro ⟨-, heq⟩
    exact he.1.functional (heq ▸ he'.1)

/-- A key is read back if it is a number where it is a double. For what is no number a map gives
null. -/
theorem Keyed.reads_iff (h : Keyed pool entries) (hsound : pool.Sound) {e : Draft × Draft}
    (he : e ∈ entries) :
    Reads pool (.fresh (.map entries)) e.1 e.2 ↔ (e.1.IsNaN → e.2 = .null) := by
  obtain ⟨ts, hmeans, hts⟩ := h
  have hmap : Means pool (.fresh (.map entries)) (.node (.map ts)) :=
    .of_fresh trivial (.map hmeans)
  obtain ⟨t, ht, hkey, hvalue⟩ := exists_of_forall₂ hmeans he
  rw [hmap.reads_iff hsound hkey hvalue, hkey.isNaN_iff]
  by_cases hnan : t.1.IsNaN
  · rw [Tree.valueAt_of_isNaN hnan, hvalue.scalar_eq_iff]
    exact ⟨fun hnull _ => hnull, fun h => h hnan⟩
  · exact iff_of_true (hts.valueAt_of_mem ht hnan) fun h => absurd h hnan

/-- Entries of which no key equals a later one are read back but for keys that are no number. -/
theorem Keyed.readsBack_iff (h : Keyed pool entries) (hsound : pool.Sound) :
    ReadsBack pool entries ↔ (entries.Pairwise fun e e' => e.1.IsNaN → e.1 ≠ e'.1) ∧
      ∀ e ∈ entries, e.1.IsNaN → e.2 = .null := by
  have halike := h.alike_iff hsound
  constructor
  · intro hreads
    have honce := (halike.and hreads.distinct).imp fun {e e'} h hnan heq => h.2 (h.1.2 ⟨hnan, heq⟩)
    exact ⟨honce, fun e he => (h.reads_iff hsound he).1 (hreads.reads e he)⟩
  · rintro ⟨honce, hnull⟩
    have hdistinct : entries.Pairwise fun e e' => ¬ Alike pool e.1 e'.1 := by
      refine (halike.and honce).imp fun {e e'} h hsame => ?_
      obtain ⟨hnan, heq⟩ := h.1.1 hsame
      exact h.2 hnan heq
    exact ⟨hdistinct, fun e he => (h.reads_iff hsound he).2 (hnull e he)⟩

end Draft

/-! ### Map literals -/

namespace Env.Supplied

variable {env : Env} {w : Pool}

/-- The entries of a map, after entries of which no key equals a later one. -/
theorem entries (h : env.Supplied w) (entries : List (Expr × Expr)) {done : Array (Draft × Draft)}
    (hdone : Keyed w done.toList) :
    Makes w (fun q es => Keyed q es.toList ∧ es.size = done.size + entries.length)
      (evalEntries env entries done) := by
  induction entries generalizing w done with
  | nil =>
    rw [evalEntries]
    exact .pure fun q hq => ⟨⟨hdone.mono (Pool.Leads.keeps hq), rfl⟩, rfl⟩
  | cons entry rest ih =>
    obtain ⟨key, value⟩ := entry
    rw [evalEntries]
    refine (h.eval key).bind fun q k _ hq hk => ?_
    obtain ⟨hk, rfl⟩ := hk
    refine ((h.later hq).eval value).bind fun q' v _ hq' hv => ?_
    obtain ⟨hv, rfl⟩ := hv
    have hleads : w.Leads q' := ReflTransGen.trans hq hq'
    -- the new key was compared with all that are there, so the keys are still different
    have hask : Makes q' (fun q _ => Keyed q (done.push (k, v)).toList)
        (Eval.ask (Draft.ensureNewKey k done)) := by
      refine .ask fun q'' hq'' hreached => ?_
      have hlater : q.Leads q'' := ReflTransGen.trans hq' hq''
      have hsound := hreached.sound
      obtain ⟨t, ht⟩ := (hk.mono hlater.keeps).exists_means hsound
      obtain ⟨u, hu⟩ := (hv.mono hq''.keeps).exists_means hsound
      have hkeyed : Keyed q'' done.toList := hdone.mono (Pool.Leads.keeps (hleads.trans hq''))
      exact hkeyed.ensureNewKey hsound ht hu
    refine hask.bind fun q'' _ _ hq'' hdone' => ?_
    obtain ⟨hdone', rfl⟩ := hdone'
    refine (ih (h.later (hleads.trans hq'')) hdone').imp fun _ es _ hes => ?_
    obtain ⟨⟨hes, hsize⟩, rfl⟩ := hes
    refine ⟨⟨hes, ?_⟩, rfl⟩
    rw [hsize, Array.size_push, List.length_cons, Nat.add_right_comm, Nat.add_assoc]

/-- A map. -/
theorem map (h : env.Supplied w) (entries : List (Expr × Expr)) :
    Makes w (fun q d => ∃ es : List (Draft × Draft),
      d = .fresh (.map es) ∧ es.length = entries.length ∧ Keyed q es)
      ((Expr.map entries).eval env) := by
  rw [Expr.eval]
  refine (Sim.spend trivial 1).bind fun q _ _ hq _ => ?_
  have hnone : Keyed q (#[] : Array (Draft × Draft)).toList := ⟨[], .nil, .nil⟩
  refine ((h.later hq).entries entries hnone).bind fun q' es _ _ hes => ?_
  obtain ⟨⟨hkeyed, hsize⟩, rfl⟩ := hes
  rw [Array.size_empty, Nat.zero_add] at hsize
  exact .pure fun q'' hq'' => ⟨⟨_, rfl, hsize, hkeyed.mono (Pool.Leads.keeps hq'')⟩, rfl⟩

end Env.Supplied

/-- A map literal that has a value, in the body of a function or variable whose parameters are
known: no two keys are one constant of the pool and each is read back if and only if every key that
is no number is there once and with null for its value. So this holds of every map whose keys are
numbers where they are doubles. -/
theorem Analysis.map_readsBack_iff (a : Analysis) (callsLeft : Nat) (chain : Chain)
    {params : Dict String Atom} {entries : List (Expr × Expr)} {m m' : Machine Stock Draft}
    {d : Draft} (hm : m.Orderly)
    (hparams : ∀ {name x}, params.get? name = some x → x.Known m.stock.pool)
    (hrun : (Expr.map entries).eval
      ⟨a, chain, params, a.resolve callsLeft (some chain)⟩ m = .ok d m') :
    ∃ es : List (Draft × Draft), d = .fresh (.map es) ∧ es.length = entries.length ∧
      (ReadsBack m'.stock.pool es ↔ (es.Pairwise fun e e' => e.1.IsNaN → e.1 ≠ e'.1) ∧
        ∀ e ∈ es, e.1.IsNaN → e.2 = .null) := by
  have hsupplied : Env.Supplied m.stock.pool ⟨a, chain, params, a.resolve callsLeft (some chain)⟩ :=
    Analysis.supplied callsLeft chain hparams
  obtain ⟨hm', -, es, hd, hlength, hkeyed⟩ := (hsupplied.map entries).of_ok hm .refl hrun
  exact ⟨es, hd, hlength, hkeyed.readsBack_iff hm'.stock.reached.sound⟩

/-- The surroundings of the body of a variable, in a program without declarations. -/
def Env.bare : Env :=
  ⟨.build {} .empty {}, ⟨"body", [], 0⟩, .empty,
    (Analysis.build {} .empty {}).resolve 1 (some ⟨"body", [], 0⟩)⟩

namespace Analysis

/-- A map with an integer and a text for keys. -/
theorem map_readsBack_ofTwo :
    ∃ m', (Expr.map [(.scalar (.int 1), .text "one"), (.text "two", .scalar (.int 2))]).eval .bare
        ⟨{}, [.empty], 9⟩ = .ok (.fresh (.map [(.int 1, .text "one"), (.text "two", .int 2)])) m' ∧
      ReadsBack m'.stock.pool [(.int 1, .text "one"), (.text "two", .int 2)] := by
  have hrun : (Expr.map [(.scalar (.int 1), .text "one"), (.text "two", .scalar (.int 2))]).eval
      .bare ⟨{}, [.empty], 9⟩ = .ok (.fresh (.map [(.int 1, .text "one"), (.text "two", .int 2)]))
        ⟨{}, [.empty], 4⟩ := by with_unfolding_all rfl
  have hstock : Stock.Orderly {} := ⟨.refl, by rintro key id ⟨⟩⟩
  have hparams : ∀ {name x}, (Dict.empty : Dict String Atom).get? name = some x → x.Known {} := by
    rintro name x ⟨⟩
  obtain ⟨es, hes, -, hiff⟩ := map_readsBack_iff _ _ _ (.start hstock 9) hparams hrun
  obtain rfl := Shape.map.inj (Draft.fresh.inj hes)
  have hint : ¬ (Draft.int 1).IsNaN := by
    rintro ⟨s, ⟨⟩, x, ⟨⟩, -⟩
  have htext : ¬ (Draft.text "two").IsNaN := by
    rintro ⟨s, ⟨⟩, -⟩
  refine ⟨_, hrun, hiff.2 ⟨?_, ?_⟩⟩
  · exact .cons (fun _ _ h => (hint h).elim) (List.pairwise_singleton ..)
  · exact List.forall_mem_cons.2 ⟨fun h => (hint h).elim,
      List.forall_mem_singleton.2 fun h => (htext h).elim⟩

/-- A map with the result of an operation without a meaning for a key, twice: the keys are one
constant, and the map gives null for it. -/
theorem map_repeats_invalid :
    ∃ m', (Expr.map [(.scalar (.double .invalid), .scalar (.int 1)),
        (.scalar (.double .invalid), .scalar (.int 2))]).eval .bare ⟨{}, [.empty], 9⟩ =
          .ok (.fresh (.map [(.double .invalid, .int 1), (.double .invalid, .int 2)])) m' ∧
      Alike m'.stock.pool (.double .invalid) (.double .invalid) ∧
      Draft.index m'.stock.pool
        (.fresh (.map [(.double .invalid, .int 1), (.double .invalid, .int 2)]))
        (.double .invalid) = .ok .null ∧
      ¬ ReadsBack m'.stock.pool [(.double .invalid, .int 1), (.double .invalid, .int 2)] := by
  have halike : Alike {} (.double .invalid) (.double .invalid) :=
    (Means.alike_iff Pool.sound_empty (.inPlace _) (.inPlace _)).2 rfl
  refine ⟨⟨{}, [.empty], 4⟩, by with_unfolding_all rfl, halike, by with_unfolding_all rfl, ?_⟩
  intro h
  exact (List.pairwise_cons.1 h.distinct).1 _ (List.mem_singleton.2 rfl) halike

end Analysis

end ConstPool
