import Mathlib.Data.List.Basic
import ConstPool.Toml.Token

/-!
# Runs of readers

What the readers of settings files do on a text of which the front is known.

* `Reader.bind_of_some`, `Reader.bind_eq_none`: readers one after another.
* `Reader.takeWhile_append`: the characters up to the first that fails a test.
* `integer_numeral`: a numeral is read as the number it was written for.
* `time_numeral`, `float_numeral`: it is neither a time nor a float.
-/

namespace ConstPool.Toml

/-! ### Readers in general -/

/-- Characters differ if a test tells them apart. -/
theorem ne_of_test {test : Char → Bool} {c d : Char} (hc : test c = true) (hd : test d = false) :
    c ≠ d := by
  rintro rfl
  rw [hc] at hd
  cases hd

namespace Reader

variable {α β : Type} {reader other : Reader α} {next : α → Reader β} {test : Char → Bool}
  {cs rest : List Char} {a : α} {c d : Char}

/-- A reader that succeeds hands its result and the rest to the next one. -/
theorem bind_of_some (h : reader cs = some (a, rest)) : (reader >>= next) cs = next a rest := by
  show (reader cs).bind (fun e => next e.1 e.2) = _
  rw [h, Option.bind_some]

/-- Two readers in sequence fail if the second fails on whatever the first leaves. -/
theorem bind_eq_none (h : ∀ a rest, reader cs = some (a, rest) → next a rest = none) :
    (reader >>= next) cs = none := by
  show (reader cs).bind (fun e => next e.1 e.2) = none
  cases heq : reader cs with
  | none => rfl
  | some e => exact h e.1 e.2 heq

/-- Two readers in sequence fail with the first. -/
theorem bind_of_none (h : reader cs = none) : (reader >>= next) cs = none :=
  bind_eq_none fun a rest heq => by
    rw [h] at heq
    cases heq

/-- If the first reader fails, the second one reads from the same place. -/
theorem orElse_of_none (h : reader cs = none) : (reader <|> other) cs = other cs := by
  show (reader cs).orElse (fun _ => other cs) = _
  rw [h]
  rfl

/-- A failed attempt consumes nothing. -/
theorem attempt_of_none (h : reader cs = none) : attempt reader cs = some (none, cs) := by
  rw [attempt, h]

/-- Where no separator follows the first result there is no other. -/
theorem separated_of_none {separator : Reader Unit} (h : reader cs = some (a, rest))
    (hseparator : separator rest = none) (bound : Nat) :
    separated reader separator bound cs = some ([a], rest) := by
  cases bound with
  | zero => exact bind_of_some h
  | succ bound =>
    rw [separated, bind_of_some h, bind_of_some (attempt_of_none hseparator)]
    rfl

/-- A character of the kind asked for is read. -/
theorem satisfy_of_pos (h : test c = true) : satisfy test (c :: cs) = some (c, cs) := if_pos h

/-- Any other character is not. -/
theorem satisfy_of_neg (h : test c = false) : satisfy test (c :: cs) = none := by
  rw [satisfy, h]
  rfl

/-- The character asked for is read. -/
theorem symbol_cons : symbol c (c :: cs) = some ((), cs) :=
  bind_of_some (satisfy_of_pos (beq_self_eq_true c))

/-- Any other character is not. -/
theorem symbol_of_ne (h : d ≠ c) : symbol c (d :: cs) = none :=
  bind_of_none (satisfy_of_neg (beq_eq_false_iff_ne.2 h))

/-- All characters are taken up to the first that fails the test. -/
theorem takeWhile_append {front : List Char} (hfront : ∀ c ∈ front, test c = true)
    (hrest : ∀ c ∈ rest.head?, test c = false) :
    takeWhile test (front ++ rest) = some (front, rest) := by
  have hnone : takeWhile test rest = some ([], rest) := by
    cases rest with
    | nil => rfl
    | cons c rest =>
      have hc : ¬test c = true := by
        rw [hrest c rfl]
        exact Bool.false_ne_true
      rw [takeWhile, List.takeWhile_cons_of_neg hc, List.dropWhile_cons_of_neg hc]
  rw [takeWhile, Option.some.injEq, Prod.mk.injEq] at hnone
  rw [takeWhile, List.takeWhile_append_of_pos hfront, List.dropWhile_append_of_pos hfront,
    hnone.1, hnone.2, List.append_nil]

end Reader

open Reader

/-! ### Numerals -/

/-- The decimal digits of a number are digits to the reader. -/
theorem isDigit_of_mem_toDigits {n : Nat} {c : Char} (h : c ∈ Nat.toDigits 10 n) :
    isDigit c = true := Nat.isDigit_of_mem_toDigits (by decide) (by decide) h

/-- A numeral begins with a digit. -/
theorem exists_digit (n : Nat) : ∃ c cs, Nat.toDigits 10 n = c :: cs ∧ isDigit c = true := by
  obtain ⟨c, cs, heq⟩ := List.exists_cons_of_ne_nil (Nat.toDigits_ne_nil (n := n) (b := 10))
  exact ⟨c, cs, heq, isDigit_of_mem_toDigits (heq ▸ List.mem_cons_self ..)⟩

/-- The numeral of a positive number does not begin with a zero. -/
theorem exists_toDigits {n : Nat} (h : n ≠ 0) :
    ∃ c cs, Nat.toDigits 10 n = c :: cs ∧ c ≠ '0' := by
  induction n using Nat.strongRecOn with
  | ind n ih =>
    by_cases hlt : n < 10
    · refine ⟨_, [], Nat.toDigits_of_lt_base hlt, ?_⟩
      rwa [Ne, Nat.digitChar_eq_zero]
    · obtain ⟨c, cs, heq, hc⟩ := ih (n / 10) (by omega) (by omega)
      refine ⟨c, cs ++ [(n % 10).digitChar], ?_, hc⟩
      rw [Nat.toDigits_of_base_le (by decide) (by omega), heq, List.cons_append]

/-- Digits up to the end of the line. -/
def NumeralAhead (cs : List Char) : Prop :=
  ∃ ds rest, (∀ c ∈ ds, isDigit c = true) ∧ cs = ds ++ '\n' :: rest

/-- A number written out and ended by a line break is such a numeral. -/
theorem numeralAhead_toDigits (n : Nat) (rest : List Char) :
    NumeralAhead (Nat.toDigits 10 n ++ '\n' :: rest) :=
  ⟨_, rest, fun _ h => isDigit_of_mem_toDigits h, rfl⟩

namespace NumeralAhead

variable {cs : List Char}

/-- A numeral begins with a digit, or the line ends. -/
theorem head (h : NumeralAhead cs) : ∃ c rest, cs = c :: rest ∧ (isDigit c = true ∨ c = '\n') := by
  obtain ⟨ds, rest, hds, rfl⟩ := h
  cases ds with
  | nil => exact ⟨_, _, rfl, .inr rfl⟩
  | cons c ds => exact ⟨_, _, rfl, .inl (hds c (List.mem_cons_self ..))⟩

/-- Behind a digit of a numeral there is the rest of the numeral. -/
theorem tail {c : Char} {rest : List Char} (h : NumeralAhead (c :: rest))
    (hc : isDigit c = true) : NumeralAhead rest := by
  obtain ⟨ds, rest', hds, heq⟩ := h
  cases ds with
  | nil =>
    cases heq
    cases hc
  | cons c' ds =>
    cases heq
    exact ⟨ds, rest', fun c hc => hds c (List.mem_cons_of_mem _ hc), rfl⟩

/-- A character of another kind is not found in a numeral. -/
theorem satisfy_eq_none {test : Char → Bool} (h : NumeralAhead cs)
    (htest : ∀ c, isDigit c = true → test c = false) (hline : test '\n' = false) :
    satisfy test cs = none := by
  obtain ⟨c, rest, rfl, hc | rfl⟩ := h.head
  · exact satisfy_of_neg (htest c hc)
  · exact satisfy_of_neg hline

/-- Where a numeral is ahead, no symbol is read that is neither a digit nor the line break. -/
theorem symbol_eq_none {d : Char} (h : NumeralAhead cs) (hd : isDigit d = false)
    (hline : '\n' ≠ d) : symbol d cs = none :=
  bind_of_none (h.satisfy_eq_none (fun _ hc => beq_eq_false_iff_ne.2 (ne_of_test hc hd))
    (beq_eq_false_iff_ne.2 hline))

/-- A text that is no numeral does not begin one. -/
theorem not_isPrefixOf (h : NumeralAhead cs) {expected : List Char} (hline : '\n' ∉ expected)
    (hkind : expected.all isDigit = false) : expected.isPrefixOf cs = false := by
  induction expected generalizing cs with
  | nil => cases hkind
  | cons d expected ih =>
    obtain ⟨c, rest, rfl, hc⟩ := h.head
    rw [List.isPrefixOf_cons_cons]
    by_cases heq : d = c
    · subst heq
      rcases hc with hc | rfl
      · rw [List.all_cons, hc, Bool.true_and] at hkind
        rw [ih (h.tail hc) (fun hmem => hline (List.mem_cons_of_mem _ hmem)) hkind, Bool.and_false]
      · exact absurd (List.mem_cons_self ..) hline
    · rw [beq_eq_false_iff_ne.2 heq, Bool.false_and]

/-- Where a numeral is ahead, no word of letters and marks is. -/
theorem word_eq_none (h : NumeralAhead cs) {expected : String} (hline : '\n' ∉ expected.toList)
    (hkind : expected.toList.all isDigit = false) : word expected cs = none := by
  rw [word, h.not_isPrefixOf hline hkind]
  rfl

/-- Behind some digits of a numeral there is the rest of the numeral. -/
theorem of_fixedDigits {count value n : Nat} {rest : List Char} (h : NumeralAhead cs)
    (hread : fixedDigits count value cs = some (n, rest)) : NumeralAhead rest := by
  induction count generalizing value cs with
  | zero =>
    cases hread
    exact h
  | succ count ih =>
    obtain ⟨c, cs, rfl, hc | rfl⟩ := h.head
    · rw [fixedDigits, bind_of_some (satisfy_of_pos hc)] at hread
      exact ih (h.tail hc) hread
    · rw [fixedDigits, bind_of_none (satisfy_of_neg rfl)] at hread
      cases hread

end NumeralAhead

/-- A numeral is not the start of a date. -/
theorem date_numeral {cs : List Char} (h : NumeralAhead cs) : date cs = none :=
  bind_eq_none fun _ _ hyear => bind_of_none <|
    (h.of_fixedDigits hyear).symbol_eq_none rfl (by decide)

/-- A numeral is not the start of a time of the day. -/
theorem timeOfDay_numeral {cs : List Char} (h : NumeralAhead cs) : timeOfDay cs = none := by
  refine bind_eq_none fun hour rest hhour => bind_of_none ?_
  cases hread : fixedDigits 2 0 cs with
  | none =>
    rw [boundedDigits, bind_of_none hread] at hhour
    cases hhour
  | some e =>
    rw [boundedDigits, bind_of_some hread] at hhour
    split at hhour
    · cases hhour
      exact (h.of_fixedDigits hread).symbol_eq_none rfl (by decide)
    · cases hhour

/-- A numeral is not the beginning of a time of day: there is no colon behind its digits. -/
theorem time_numeral {cs : List Char} (h : NumeralAhead cs) : time cs = none :=
  (orElse_of_none (bind_of_none (date_numeral h))).trans (timeOfDay_numeral h)

/-- Further digits of a numeral are read up to the end of the line. -/
theorem moreDigits_numeral {ds : List Char} (hds : ∀ c ∈ ds, isDigit c = true)
    (rest : List Char) :
    moreDigits isDigit (ds ++ '\n' :: rest) = some (ds, '\n' :: rest) := by
  induction ds with
  | nil => rfl
  | cons c ds ih =>
    have hc := hds c (List.mem_cons_self ..)
    have hne : c ≠ '_' := ne_of_test hc rfl
    rw [List.cons_append, moreDigits, if_pos hc, ih fun c hc => hds c (List.mem_cons_of_mem _ hc)]
    · rfl
    · exact fun _ _ h _ => hne h
    · exact fun h _ => hne h

/-- The digits of a numeral are read up to the end of the line. -/
theorem wholeDigits_numeral (n : Nat) (rest : List Char) :
    wholeDigits (Nat.toDigits 10 n ++ '\n' :: rest) =
      some (Nat.toDigits 10 n, '\n' :: rest) := by
  by_cases hn : n = 0
  · rw [hn]
    rfl
  · obtain ⟨c, cs, heq, hne⟩ := exists_toDigits hn
    have hdigits : ∀ c' ∈ c :: cs, isDigit c' = true := fun c' h =>
      isDigit_of_mem_toDigits (heq ▸ h)
    have hread : digits isDigit (c :: cs ++ '\n' :: rest) = some (c :: cs, '\n' :: rest) := by
      have hmore := moreDigits_numeral (fun c' h => hdigits c' (List.mem_cons_of_mem _ h)) rest
      rw [digits, List.cons_append,
        bind_of_some (satisfy_of_pos (hdigits c (List.mem_cons_self ..))), bind_of_some hmore]
      rfl
    rw [heq, wholeDigits, bind_of_some rfl, List.cons_append, List.head?_cons]
    refine (congrFun (g := digits isDigit) ?_ _).trans hread
    split
    · next hzero => exact absurd (Option.some.inj hzero) hne
    · rfl

/-- A numeral has no sign. -/
theorem sign_numeral {cs : List Char} (h : NumeralAhead cs) : sign cs = some (false, cs) := by
  have hnone : satisfy (fun c => c == '+' || c == '-') cs = none :=
    h.satisfy_eq_none (fun c hc => by
      rw [beq_eq_false_iff_ne.2 (ne_of_test hc rfl), beq_eq_false_iff_ne.2 (ne_of_test hc rfl)]
      rfl) rfl
  rw [sign, bind_of_some (attempt_of_none hnone)]
  rfl

/-- A float has a point or an exponent, and a numeral has none. -/
theorem float_numeral (n : Nat) (rest : List Char) :
    float (Nat.toDigits 10 n ++ '\n' :: rest) = none := by
  have h := numeralAhead_toDigits n rest
  rw [float, bind_of_some (sign_numeral h)]
  refine (orElse_of_none ?_).trans ?_
  · exact (orElse_of_none (h.word_eq_none (by decide) (by decide))).trans
      (h.word_eq_none (by decide) (by decide))
  · rw [bind_of_some (wholeDigits_numeral n rest), bind_of_some (attempt_of_none rfl)]
    rfl

/-- As a hexadecimal digit, a decimal digit has the value it has. -/
theorem hexValue?_digit {c : Char} (h : isDigit c = true) :
    hexValue? c = some (c.toNat - '0'.toNat) := by
  rw [isDigit, Bool.and_eq_true, decide_eq_true_iff, decide_eq_true_iff] at h
  exact if_pos h

/-- A numeral has the value that it was written for. -/
theorem valueOf_toDigits (n : Nat) : valueOf 10 (Nat.toDigits 10 n) = n := by
  have heq : valueOf 10 (Nat.toDigits 10 n) = Nat.ofDigitChars 10 (Nat.toDigits 10 n) 0 := by
    refine List.foldl_ext _ _ _ fun acc c hc => ?_
    rw [hexValue?_digit (isDigit_of_mem_toDigits hc), Option.getD_some]
  rw [heq, Nat.ofDigitChars_ten_toDigits]

/-- A numeral is read as the number it was written for, if that is an integer of sixty-four bits. -/
theorem integer_numeral {n : Nat} (hn : n < Integer.limit) (rest : List Char) :
    integer (Nat.toDigits 10 n ++ '\n' :: rest) = some ((n : Int), '\n' :: rest) := by
  have h := numeralAhead_toDigits n rest
  have hbased (expected : String) {read : Reader Int} (hline : '\n' ∉ expected.toList)
      (hkind : expected.toList.all isDigit = false) :
      (do word expected; read) (Nat.toDigits 10 n ++ '\n' :: rest) = none :=
    bind_of_none (h.word_eq_none hline hkind)
  have hdecimal : (do
      let negative ← sign
      let n := (valueOf 10 (← wholeDigits) : Int)
      return if negative then -n else n : Reader Int) (Nat.toDigits 10 n ++ '\n' :: rest) =
        some ((n : Int), '\n' :: rest) := by
    rw [bind_of_some (sign_numeral h), bind_of_some (wholeDigits_numeral n rest),
      valueOf_toDigits]
    rfl
  have hfits : (Integer.narrow? n).isSome = true :=
    Integer.isSome_narrow?_iff.2 ⟨by unfold Integer.limit; omega, hn⟩
  rw [integer]
  refine (bind_of_some <| (orElse_of_none (hbased "0x" (by decide) (by decide))).trans <|
    (orElse_of_none (hbased "0o" (by decide) (by decide))).trans <|
    (orElse_of_none (hbased "0b" (by decide) (by decide))).trans hdecimal).trans ?_
  rw [if_pos hfits]
  rfl

end ConstPool.Toml
