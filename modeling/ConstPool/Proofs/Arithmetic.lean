import Mathlib.Data.Int.Lemmas
import Mathlib.Tactic.Linarith
import ConstPool.Draft.Operators

/-!
# Arithmetic on integers is exact

The integers of the language are words, and their arithmetic is that of the integers themselves: an
operator gives the exact result if there is one and there is a word for it, and it fails otherwise.
So nothing wraps around. There is one exception. The remainder of the least word by `-1` is zero,
but the quotient that belongs to it is no word, and the operator `%` fails there.

What an exact result is, is said for the integers of mathematics and without a word about words: a
quotient and a remainder are told by the equation that they solve and by the size of what remains.
The operators `//` and `%` differ in how they round, so each of them has an equation of its own.
That the equations have one solution each is proved once, from the division of integers, and
compared with what the operators do on words. The least word is the only one whose opposite is
none, and `-1` the only divisor that leads to it. That a draft holds a constant in place or in the
pool makes no difference, since an operator opens its operands first.

* `BinaryOperator.Exact`: the exact results of the arithmetic operators.
* `Draft.Exactly`: a computation that gives the exact result, if there is a word for it.
* `Draft.arithmetic_exact_iff`: where the operators do so.
-/

namespace ConstPool

open Integer

/-! ### Exact results -/

/-- The arithmetic operators on two integers. The operator `/` divides as doubles. -/
def BinaryOperator.arithmetic : List BinaryOperator := [.add, .sub, .mul, .intDiv, .mod]

/-- The exact result of an arithmetic operator on two integers. The quotient is rounded toward zero,
so what remains has the sign of the dividend; the remainder of `%` is not negative. Both are smaller
than the divisor, which is not zero then. -/
inductive BinaryOperator.Exact : BinaryOperator → Int → Int → Int → Prop
  | add (a b : Int) : Exact .add a b (a + b)
  | sub (a b : Int) : Exact .sub a b (a - b)
  | mul (a b : Int) : Exact .mul a b (a * b)
  | quotient {a b q : Int} (r : Int) : r + b * q = a → r.natAbs < b.natAbs → 0 ≤ a * r →
    Exact .intDiv a b q
  | remainder {a b r : Int} (q : Int) : r + b * q = a → 0 ≤ r → r < b.natAbs → Exact .mod a b r

namespace BinaryOperator

variable {a b n : Int}

/-- The exact sum. -/
theorem exact_add_iff : Exact .add a b n ↔ n = a + b :=
  ⟨fun h => by cases h; rfl, fun h => h ▸ .add a b⟩

/-- The exact difference. -/
theorem exact_sub_iff : Exact .sub a b n ↔ n = a - b :=
  ⟨fun h => by cases h; rfl, fun h => h ▸ .sub a b⟩

/-- The exact product. -/
theorem exact_mul_iff : Exact .mul a b n ↔ n = a * b :=
  ⟨fun h => by cases h; rfl, fun h => h ▸ .mul a b⟩

/-- There is a quotient unless the divisor is zero. -/
theorem exact_intDiv_iff : Exact .intDiv a b n ↔ b ≠ 0 ∧ n = a.tdiv b := by
  constructor
  · intro h
    cases h with
    | quotient r hsum hlt hsign =>
      have hb : b ≠ 0 := by omega
      rcases mul_nonneg_iff.1 hsign with ⟨ha, hr⟩ | ⟨ha, hr⟩
      · exact ⟨hb, ((Int.tdiv_tmod_unique ha hb).2 ⟨hsum, hr, by omega⟩).1.symm⟩
      · exact ⟨hb, ((Int.tdiv_tmod_unique' ha hb).2 ⟨hsum, by omega, hr⟩).1.symm⟩
  · rintro ⟨hb, rfl⟩
    have hsum : a.tmod b + b * a.tdiv b = a := by rw [add_comm, Int.mul_tdiv_add_tmod]
    have hlt : (a.tmod b).natAbs < b.natAbs := by
      rw [Int.natAbs_tmod]
      exact Nat.mod_lt _ (Int.natAbs_pos.2 hb)
    refine .quotient (a.tmod b) hsum hlt ?_
    rcases le_total 0 a with ha | ha
    · exact mul_nonneg ha (Int.tmod_nonneg b ha)
    · have hneg := Int.tmod_nonneg b (Int.neg_nonneg_of_nonpos ha)
      rw [Int.neg_tmod] at hneg
      exact mul_nonneg_of_nonpos_of_nonpos ha (by omega)

/-- There is a remainder unless the divisor is zero. -/
theorem exact_mod_iff : Exact .mod a b n ↔ b ≠ 0 ∧ n = a % b := by
  constructor
  · intro h
    cases h with
    | remainder q hsum hnonneg hlt =>
      have hb : b ≠ 0 := by omega
      rw [Int.natCast_natAbs] at hlt
      exact ⟨hb, ((Int.ediv_emod_unique'' hb).2 ⟨hsum, hnonneg, hlt⟩).2.symm⟩
  · rintro ⟨hb, rfl⟩
    exact .remainder (a / b) (Int.emod_add_mul_ediv a b) (Int.emod_nonneg a hb) (Int.emod_lt a hb)

end BinaryOperator

/-! ### Quotients and remainders of words -/

namespace Integer

variable {a b : Int64}

/-- A word that is not zero stands for an integer that is not. -/
theorem toInt_ne_zero (hb : b ≠ 0) : b.toInt ≠ 0 := by
  rintro h
  exact hb (Int64.toInt_inj.1 h)

/-- A quotient with a remainder that is not negative is as large as the least word only where that
word is divided by `-1`. -/
theorem eq_neg_one_of_le_ediv {m n : Int} (hn : n ≠ 0) (hlow : -limit ≤ m) (hhigh : m < limit)
    (hquotient : limit ≤ m / n) : m = -limit ∧ n = -1 := by
  have hsum := Int.emod_add_mul_ediv m n
  have hnonneg := Int.emod_nonneg m hn
  have hlt := Int.emod_lt m hn
  unfold limit at *
  rcases lt_trichotomy n (-1) with h | rfl | h
  · have hscaled : n * (m / n - 1) ≤ -2 * (m / n - 1) :=
      mul_le_mul_of_nonneg_right (by omega) (by omega)
    rw [mul_sub, mul_one] at hscaled
    omega
  · omega
  · have hscaled : 1 * (m / n) ≤ n * (m / n) := mul_le_mul_of_nonneg_right (by omega) (by omega)
    omega

/-- The quotient that belongs to a remainder is a word, except that of the least word by `-1`. -/
theorem narrow?_ediv_eq_none_iff (hb : b ≠ 0) :
    narrow? (a.toInt / b.toInt) = none ↔ a = Int64.minValue ∧ b = -1 := by
  have hlow : -limit ≤ a.toInt := Int64.le_toInt a
  have hhigh : a.toInt < limit := Int64.toInt_lt a
  constructor
  · intro h
    have habs := Int.natAbs_ediv_le_natAbs a.toInt b.toInt
    have hout : ¬ (-limit ≤ a.toInt / b.toInt ∧ a.toInt / b.toInt < limit) := by
      rw [← isSome_narrow?_iff, h]
      exact Bool.false_ne_true
    have hquotient : limit ≤ a.toInt / b.toInt ∨ a.toInt / b.toInt < -limit := by omega
    have hleast : limit ≤ a.toInt / b.toInt := by
      unfold limit at *
      omega
    obtain ⟨ha, hb'⟩ := eq_neg_one_of_le_ediv (toInt_ne_zero hb) hlow hhigh hleast
    exact ⟨Int64.toInt_inj.1 ha, Int64.toInt_inj.1 hb'⟩
  · rintro ⟨rfl, rfl⟩
    rfl

/-- A remainder is a word. -/
theorem isSome_narrow?_emod (hb : b ≠ 0) : (narrow? (a.toInt % b.toInt)).isSome := by
  have hne := toInt_ne_zero hb
  have hnonneg := Int.emod_nonneg a.toInt hne
  have hlt := Int.emod_lt a.toInt hne
  have hlow : -limit ≤ b.toInt := Int64.le_toInt b
  have hhigh : b.toInt < limit := Int64.toInt_lt b
  rw [isSome_narrow?_iff]
  unfold limit at *
  omega

end Integer

/-! ### Operators on drafts -/

namespace Draft

/-- A computation that gives the exact integer, if there is one and there is a word for it, and that
fails otherwise. -/
structure Exactly (exact : Int → Prop) (x : Except Fault Draft) : Prop where
  result : ∀ n, exact n → -limit ≤ n → n < limit → ∃ w : Int64, w.toInt = n ∧ x = .ok (.int w)
  fault : (∀ n, exact n → ¬ (-limit ≤ n ∧ n < limit)) → ∃ cause, x = .error (.runtime cause)

variable {exact : Int → Prop} {n : Int} {a b : Int64} {op : BinaryOperator}

/-- A result that is brought back to a word, if it is the exact one. -/
theorem exactly_narrow? (cause : RuntimeCause) (hexact : ∀ m, exact m ↔ m = n)
    {x : Except Fault Draft} (hsome : ∀ w, narrow? n = some w → x = .ok (.int w))
    (hnone : narrow? n = none → x = .error (.runtime cause)) : Exactly exact x where
  result m hm hlow hhigh := by
    obtain rfl := (hexact m).1 hm
    obtain ⟨w, hw⟩ := Option.isSome_iff_exists.1 (isSome_narrow?_iff.2 ⟨hlow, hhigh⟩)
    exact ⟨w, toInt_of_narrow? hw, hsome w hw⟩
  fault h := by
    have hout := h n ((hexact n).2 rfl)
    rw [← isSome_narrow?_iff, Option.not_isSome_iff_eq_none] at hout
    exact ⟨cause, hnone hout⟩

/-- There is no exact result, and the computation fails. -/
theorem exactly_fault (cause : RuntimeCause) (hexact : ∀ m, ¬ exact m) :
    Exactly exact (.error (.runtime cause)) where
  result m hm := absurd hm (hexact m)
  fault _ := ⟨cause, rfl⟩

/-- An arithmetic operator on two integers is computed on words. -/
theorem binary_int (pool : Pool) (hop : op ∈ BinaryOperator.arithmetic) (a b : Int64) :
    Draft.binary pool op (.int a) (.int b) = (Scalar.intBinary op a b).map .scalar := by
  have hcombine : combine pool op (.int a) (.int b) = (Scalar.intBinary op a b).map .scalar := by
    simp only [combine, Draft.int, Draft.scalar?, Scalar.binary?]
    cases Scalar.intBinary op a b <;> rfl
  simp only [BinaryOperator.arithmetic, List.mem_cons, List.not_mem_nil, or_false] at hop
  rcases hop with rfl | rfl | rfl | rfl | rfl <;> exact hcombine

/-- A result of a word operator that is brought back to a word. -/
theorem exactly_exact (hexact : ∀ m, exact m ↔ m = n) :
    Exactly exact ((Scalar.exact op a b (narrow? n)).map .scalar) := by
  refine exactly_narrow? (.overflow op a b) hexact (fun w hw => ?_) fun hn => ?_
  · rw [hw]
    rfl
  · rw [hn]
    rfl

/-- The operator `+` is exact, or its sum does not fit. -/
theorem exactly_add (a b : Int64) :
    Exactly (BinaryOperator.Exact .add a.toInt b.toInt)
      ((Scalar.intBinary .add a b).map .scalar) := by
  rw [Scalar.intBinary, add?_eq]
  exact exactly_exact fun _ => BinaryOperator.exact_add_iff

/-- The operator `-` is exact, or its difference does not fit. -/
theorem exactly_sub (a b : Int64) :
    Exactly (BinaryOperator.Exact .sub a.toInt b.toInt)
      ((Scalar.intBinary .sub a b).map .scalar) := by
  rw [Scalar.intBinary, sub?_eq]
  exact exactly_exact fun _ => BinaryOperator.exact_sub_iff

/-- The operator `*` is exact, or its product does not fit. -/
theorem exactly_mul (a b : Int64) :
    Exactly (BinaryOperator.Exact .mul a.toInt b.toInt)
      ((Scalar.intBinary .mul a b).map .scalar) := by
  rw [Scalar.intBinary, mul?_eq]
  exact exactly_exact fun _ => BinaryOperator.exact_mul_iff

/-- Division by zero has no exact result and fails. -/
theorem exactly_zero {op : BinaryOperator} (hop : op = .intDiv ∨ op = .mod) (a : Int64) :
    Exactly (op.Exact a.toInt (0 : Int64).toInt) ((Scalar.intBinary op a 0).map .scalar) := by
  rcases hop with rfl | rfl
  · exact exactly_fault (.divisionByZero .intDiv a) fun m hm =>
      (BinaryOperator.exact_intDiv_iff.1 hm).1 rfl
  · exact exactly_fault (.divisionByZero .mod a) fun m hm =>
      (BinaryOperator.exact_mod_iff.1 hm).1 rfl

/-- A quotient is exact. -/
theorem exactly_intDiv (a b : Int64) :
    Exactly (BinaryOperator.Exact .intDiv a.toInt b.toInt)
      ((Scalar.intBinary .intDiv a b).map .scalar) := by
  by_cases hb : b = 0
  · subst hb
    exact exactly_zero (.inl rfl) a
  · have hexact : ∀ m, BinaryOperator.Exact .intDiv a.toInt b.toInt m ↔ m = a.toInt.tdiv b.toInt :=
      fun m => BinaryOperator.exact_intDiv_iff.trans (and_iff_right (toInt_ne_zero hb))
    rw [Scalar.intBinary, if_neg hb]
    exact exactly_exact hexact

/-- A remainder is exact, except that of the least word by `-1`, of which there is none. -/
theorem exactly_mod_iff (a b : Int64) :
    Exactly (BinaryOperator.Exact .mod a.toInt b.toInt)
      ((Scalar.intBinary .mod a b).map .scalar) ↔ ¬ (a = Int64.minValue ∧ b = -1) := by
  by_cases hb : b = 0
  · subst hb
    exact iff_of_true (exactly_zero (.inr rfl) a) fun h => absurd h.2 (by decide)
  have hexact : ∀ m, BinaryOperator.Exact .mod a.toInt b.toInt m ↔ m = a.toInt % b.toInt :=
    fun m => BinaryOperator.exact_mod_iff.trans (and_iff_right (toInt_ne_zero hb))
  rw [Scalar.intBinary, if_neg hb, ← narrow?_ediv_eq_none_iff hb, ← Option.isNone_iff_eq_none]
  split
  · next hnone =>
    refine iff_of_false (fun h => ?_) (not_not_intro hnone)
    obtain ⟨hlow, hhigh⟩ := isSome_narrow?_iff.1 (isSome_narrow?_emod (a := a) hb)
    obtain ⟨w, -, hw⟩ := h.result _ ((hexact _).2 rfl) hlow hhigh
    cases hw
  · next hsome => exact iff_of_true (exactly_exact hexact) hsome

/-- The opposite of an integer is exact. -/
theorem exactly_negate (pool : Pool) (a : Int64) :
    Exactly (fun n => n = -a.toInt) (Draft.unary pool .negate (.int a)) := by
  refine exactly_narrow? (.negateOverflow a) (fun m => Iff.rfl) (fun w hw => ?_) fun hn => ?_
  · simp only [Draft.unary, Draft.int, Draft.scalar?, Scalar.unary?, hw]
    rfl
  · simp only [Draft.unary, Draft.int, Draft.scalar?, Scalar.unary?, hn]
    rfl

/-- An arithmetic operator gives the exact result if there is one and there is a word for it, and
fails otherwise, except that there is no remainder of the least word by `-1`. The opposite of an
integer is exact without exception. -/
theorem arithmetic_exact_iff (pool : Pool) (a b : Int64) :
    (∀ op ∈ BinaryOperator.arithmetic,
      (Exactly (op.Exact a.toInt b.toInt) (Draft.binary pool op (.int a) (.int b)) ↔
        ¬ (op = .mod ∧ a = Int64.minValue ∧ b = -1))) ∧
      Exactly (fun n => n = -a.toInt) (Draft.unary pool .negate (.int a)) := by
  refine ⟨fun op hop => ?_, exactly_negate pool a⟩
  rw [binary_int pool hop]
  simp only [BinaryOperator.arithmetic, List.mem_cons, List.not_mem_nil, or_false] at hop
  have hne : ∀ {op : BinaryOperator}, op ≠ .mod → ¬ (op = .mod ∧ a = Int64.minValue ∧ b = -1) :=
    fun h h' => h h'.1
  rcases hop with rfl | rfl | rfl | rfl | rfl
  · exact iff_of_true (exactly_add a b) (hne (by decide))
  · exact iff_of_true (exactly_sub a b) (hne (by decide))
  · exact iff_of_true (exactly_mul a b) (hne (by decide))
  · exact iff_of_true (exactly_intDiv a b) (hne (by decide))
  · exact (exactly_mod_iff a b).trans (not_congr (and_iff_right rfl).symm)

/-- The remainder of the least word by `-1` is zero, and the operator fails. -/
theorem mod_minValue_neg_one :
    BinaryOperator.Exact .mod Int64.minValue.toInt (-1 : Int64).toInt 0 ∧
      Draft.binary {} .mod (.int Int64.minValue) (.int (-1)) =
        .error (.runtime (.overflow .mod Int64.minValue (-1))) ∧
      ¬ Exactly (BinaryOperator.Exact .mod Int64.minValue.toInt (-1 : Int64).toInt)
        (Draft.binary {} .mod (.int Int64.minValue) (.int (-1))) := by
  have hzero : BinaryOperator.Exact .mod Int64.minValue.toInt (-1 : Int64).toInt 0 :=
    BinaryOperator.exact_mod_iff.2 ⟨by decide, by decide⟩
  have hfault : Draft.binary {} .mod (.int Int64.minValue) (.int (-1)) =
      .error (.runtime (.overflow .mod Int64.minValue (-1))) := rfl
  refine ⟨hzero, hfault, fun h => ?_⟩
  obtain ⟨w, -, hw⟩ := h.result 0 hzero (by decide) (by decide)
  cases hfault.symm.trans hw

end Draft

end ConstPool
