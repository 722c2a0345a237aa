/-!
# Integers of sixty-four bits

The integers of the language are signed and have sixty-four bits. The result of an arithmetic
operator is the exact one, brought back from `Int` by `narrow?`, which fails outside the range. So
no operator wraps around. Sums, differences and products are computed on the words themselves.

* `narrow?_eq_some_iff`: narrowing gives the word that stands for the integer.
* `isSome_narrow?_iff`: it succeeds exactly on the range.
* `add?_eq`, `sub?_eq`, `mul?_eq`: arithmetic on words narrows the exact result.
-/

namespace ConstPool.Integer

/-- The first integer that is too large for a signed word, `2 ^ 63`. -/
def limit : Int := 9223372036854775808

/-- The integer as a signed word, if there is a word for it. -/
@[inline] def narrow? (n : Int) : Option Int64 :=
  let word := Int64.ofInt n
  if word.toInt = n then some word else none

/-- Narrowing keeps the integer. -/
theorem toInt_of_narrow? {n : Int} {w : Int64} (h : narrow? n = some w) : w.toInt = n := by
  unfold narrow? at h
  dsimp only at h
  split at h
  · next hn =>
    obtain rfl := Option.some.inj h
    exact hn
  · cases h

/-- Narrowing succeeds exactly with the word that stands for the integer. -/
theorem narrow?_eq_some_iff {n : Int} {w : Int64} : narrow? n = some w ↔ w.toInt = n := by
  refine ⟨toInt_of_narrow?, ?_⟩
  rintro rfl
  simp only [narrow?, Int64.ofInt_toInt, if_true]

/-- Narrowing succeeds exactly on the range of the words. -/
theorem isSome_narrow?_iff {n : Int} :
    (narrow? n).isSome ↔ -limit ≤ n ∧ n < limit := by
  rw [Option.isSome_iff_exists]
  constructor
  · rintro ⟨w, h⟩
    rw [← toInt_of_narrow? h]
    exact ⟨Int64.le_toInt w, Int64.toInt_lt w⟩
  · rintro ⟨hlow, hhigh⟩
    exact ⟨Int64.ofInt n, narrow?_eq_some_iff.2 (Int64.toInt_ofInt_of_le hlow hhigh)⟩

/-! ### Arithmetic on words

The same results without an integer in between. -/

/-- The sum of two words, if it is a word. Adding wraps around exactly if the result lies on the
wrong side of the first word. -/
@[inline] def add? (a b : Int64) : Option Int64 :=
  let sum := a + b
  if a ≤ sum ↔ 0 ≤ b then some sum else none

/-- The difference of two words, if it is a word. -/
@[inline] def sub? (a b : Int64) : Option Int64 :=
  let difference := a - b
  if difference ≤ a ↔ 0 ≤ b then some difference else none

/-- The product of two words, if it is a word, as it always is for halves of words. -/
@[inline] def mul? (a b : Int64) : Option Int64 :=
  if a.toInt32.toInt64 = a ∧ b.toInt32.toInt64 = b then some (a * b)
  else narrow? (a.toInt * b.toInt)

/-- The number of words, `2 ^ 64`. -/
def words : Nat := 18446744073709551616

/-- An integer that is too large or too small by less than all words comes out on the other
side. -/
theorem bmod_cases {n : Int} (hlow : -2 * limit ≤ n) (hhigh : n < 2 * limit) :
    (-limit ≤ n ∧ n < limit ∧ n.bmod words = n) ∨
      (limit ≤ n ∧ n.bmod words = n - 2 * limit) ∨
      (n < -limit ∧ n.bmod words = n + 2 * limit) := by
  unfold limit words at *
  rw [Int.bmod_def]
  split <;> omega

/-- A word is the narrowed integer that it stands for, and there is none outside the range. -/
theorem eq_narrow?_of {n : Int} {result : Option Int64}
    (hsome : ∀ w, result = some w → w.toInt = n)
    (hnone : result = none → n < -limit ∨ limit ≤ n) :
    result = narrow? n := by
  cases result with
  | some w => exact (narrow?_eq_some_iff.2 (hsome w rfl)).symm
  | none =>
    have h := isSome_narrow?_iff (n := n)
    cases hn : narrow? n with
    | none => rfl
    | some w =>
      have hout := hnone rfl
      rw [hn] at h
      have hin := h.1 rfl
      omega

/-- A sum is exact. -/
theorem add?_eq (a b : Int64) : add? a b = narrow? (a.toInt + b.toInt) := by
  have ha : -limit ≤ a.toInt := Int64.le_toInt a
  have ha' : a.toInt < limit := Int64.toInt_lt a
  have hb : -limit ≤ b.toInt := Int64.le_toInt b
  have hb' : b.toInt < limit := Int64.toInt_lt b
  have hs := bmod_cases (n := a.toInt + b.toInt) (by omega) (by omega)
  have hsum : (a + b).toInt = (a.toInt + b.toInt).bmod words := Int64.toInt_add a b
  rw [← hsum] at hs
  refine eq_narrow?_of (fun w h => ?_) (fun h => ?_) <;>
    simp only [add?, Option.ite_none_right_eq_some, Option.some.injEq, ite_eq_right_iff,
      reduceCtorEq, imp_false, Int64.le_iff_toInt_le, Int64.toInt_zero] at h
  · obtain ⟨h, rfl⟩ := h
    omega
  · omega

/-- A difference is exact. -/
theorem sub?_eq (a b : Int64) : sub? a b = narrow? (a.toInt - b.toInt) := by
  have ha : -limit ≤ a.toInt := Int64.le_toInt a
  have ha' : a.toInt < limit := Int64.toInt_lt a
  have hb : -limit ≤ b.toInt := Int64.le_toInt b
  have hb' : b.toInt < limit := Int64.toInt_lt b
  have hs := bmod_cases (n := a.toInt - b.toInt) (by omega) (by omega)
  have hdifference : (a - b).toInt = (a.toInt - b.toInt).bmod words := Int64.toInt_sub a b
  rw [← hdifference] at hs
  refine eq_narrow?_of (fun w h => ?_) (fun h => ?_) <;>
    simp only [sub?, Option.ite_none_right_eq_some, Option.some.injEq, ite_eq_right_iff,
      reduceCtorEq, imp_false, Int64.le_iff_toInt_le, Int64.toInt_zero] at h
  · obtain ⟨h, rfl⟩ := h
    omega
  · omega

/-- The half of a word is no further from zero than the least half. -/
theorem natAbs_toInt_le {a : Int64} (h : a.toInt32.toInt64 = a) :
    a.toInt.natAbs ≤ 2147483648 := by
  have hlow := Int32.le_toInt a.toInt32
  have hhigh := Int32.toInt_lt a.toInt32
  rw [← h, Int32.toInt_toInt64]
  omega

/-- A product is exact. -/
theorem mul?_eq (a b : Int64) : mul? a b = narrow? (a.toInt * b.toInt) := by
  unfold mul?
  split
  · next h =>
    have hab := Nat.mul_le_mul (natAbs_toInt_le h.1) (natAbs_toInt_le h.2)
    rw [← Int.natAbs_mul] at hab
    rw [eq_comm, narrow?_eq_some_iff, Int64.toInt_mul]
    exact Int.bmod_eq_of_le (by omega) (by omega)
  · rfl

end ConstPool.Integer
