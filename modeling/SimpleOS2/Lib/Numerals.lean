/-
  File:      SimpleOS2/Lib/Numerals.lean
  Subject:   NUMBERS WRITTEN WITH THE DIGITS OF AN ALPHABET. Nothing here names the kernel.

  * `Alphabet` -- a list of distinct characters, none of them a sign or a space;
  * `numeral` -- a number without superfluous zeroes, `numeral_step`, `numeral_length`;
  * `readNumber` -- spaces, a sign and digits read back up to the first other character;
    `readNumber_minus`, `readNumber_plus`, `readNumber_plain`, `readNumber_zeroes`.
-/
import Mathlib.Data.Nat.Digits.Lemmas

namespace SimpleOS2.Lib

/-! ## 1. Numerals -/

/-- The characters of a positional system, the character of 0 first. -/
structure Alphabet (digits : List Char) : Prop where
  two : 2 ≤ digits.length
  nodup : digits.Nodup
  noSpace : ' ' ∉ digits
  noMinus : '-' ∉ digits
  noPlus : '+' ∉ digits

/-- The number `n` in the base that the alphabet has, the highest digit first. -/
def numeral (digits : List Char) (n : Nat) : List Char :=
  (if n = 0 then [0] else (Nat.digits digits.length n).reverse).map fun d => digits.getD d ' '

/-- The value of a string of digits. -/
def value (digits : List Char) (text : List Char) : Nat :=
  text.foldl (fun acc c => acc * digits.length + digits.idxOf c) 0

section Numeral

variable {digits : List Char}

theorem numeral_small {n : Nat} (h : n < digits.length) : numeral digits n = [digits[n]] := by
  have hd : (if n = 0 then [0] else (Nat.digits digits.length n).reverse) = [n] := by
    split_ifs with h0
    · rw [h0]
    · rw [Nat.digits_of_lt _ _ h0 h, List.reverse_singleton]
  rw [numeral, hd, List.map_singleton, List.getD_eq_getElem?_getD, List.getElem?_eq_getElem h, Option.getD_some]

theorem Alphabet.mod_lt (ha : Alphabet digits) (n : Nat) : n % digits.length < digits.length :=
  Nat.mod_lt n (Nat.zero_lt_of_lt ha.two)

/-- The last digit and the rest. -/
theorem numeral_step (ha : Alphabet digits) {n : Nat} (h : digits.length ≤ n) :
    numeral digits n = numeral digits (n / digits.length) ++ [digits.get ⟨n % digits.length, ha.mod_lt n⟩] := by
  have h2 := ha.two
  have hn : n ≠ 0 := by omega
  have hq : n / digits.length ≠ 0 := (Nat.div_pos h (by omega)).ne'
  rw [numeral, numeral, if_neg hn, if_neg hq, Nat.digits_def' (by omega) (by omega), List.reverse_cons,
    List.map_append, List.map_singleton, List.getD_eq_getElem?_getD, List.getElem?_eq_getElem (ha.mod_lt n),
    Option.getD_some, List.get_eq_getElem]

/-- **Induction on the digits.** -/
theorem numeral_induction (ha : Alphabet digits) {P : Nat → Prop} (small : ∀ n, n < digits.length → P n)
    (step : ∀ n, digits.length ≤ n → P (n / digits.length) → P n) (n : Nat) : P n := by
  induction n using Nat.strong_induction_on with
  | h n ih =>
      by_cases hn : n < digits.length
      · exact small n hn
      · have h2 := ha.two
        exact step n (by omega) (ih _ (Nat.div_lt_self (by omega) (by omega)))

theorem numeral_mem (ha : Alphabet digits) (n : Nat) : ∀ c ∈ numeral digits n, c ∈ digits := by
  induction n using numeral_induction ha with
  | small n h =>
      rw [numeral_small h]
      intro c hc
      rw [List.mem_singleton.mp hc]
      exact List.getElem_mem h
  | step n h ih =>
      rw [numeral_step ha h]
      intro c hc
      rcases List.mem_append.mp hc with hc | hc
      · exact ih c hc
      · rw [List.mem_singleton.mp hc]
        exact List.getElem_mem _

theorem numeral_length_pos (digits : List Char) (n : Nat) : 0 < (numeral digits n).length := by
  unfold numeral
  rw [List.length_map]
  split_ifs with h
  · exact Nat.one_pos
  · rw [List.length_reverse]
    exact List.length_pos_of_ne_nil (Nat.digits_ne_nil_iff_ne_zero.mpr h)

/-- A number below `base ^ (k + 1)` has at most `k + 1` digits. -/
theorem numeral_length (ha : Alphabet digits) {n k : Nat} (h : n < digits.length ^ (k + 1)) :
    (numeral digits n).length ≤ k + 1 := by
  have h2 := ha.two
  unfold numeral
  rw [List.length_map]
  split_ifs
  · exact Nat.le_add_left 1 k
  · rw [List.length_reverse]
    exact (Nat.digits_length_le_iff (by omega) n).mpr h

theorem value_append (digits : List Char) (text : List Char) (c : Char) :
    value digits (text ++ [c]) = value digits text * digits.length + digits.idxOf c := by
  rw [value, List.foldl_append]
  rfl

/-- **Reading the digits back.** -/
theorem value_numeral (ha : Alphabet digits) (n : Nat) : value digits (numeral digits n) = n := by
  induction n using numeral_induction ha with
  | small n h =>
      rw [numeral_small h, ← List.nil_append [_], value_append, ha.nodup.idxOf_getElem]
      exact (congrArg (· + n) (Nat.zero_mul _)).trans (Nat.zero_add n)
  | step n h ih =>
      rw [numeral_step ha h, value_append, ih, List.get_eq_getElem, ha.nodup.idxOf_getElem]
      exact Nat.div_add_mod' n digits.length

/-- Zeroes in front do not count. -/
theorem value_zeroes {zero : Char} (hz : digits[0]? = some zero) (k : Nat) (text : List Char) :
    value digits (List.replicate k zero ++ text) = value digits text := by
  have h0 : digits.idxOf zero = 0 := by
    cases digits with
    | nil => cases hz
    | cons c digits =>
        obtain rfl : c = zero := Option.some.inj hz
        exact List.idxOf_cons_self
  induction k with
  | zero => rfl
  | succ k ih =>
      rw [List.replicate_succ, List.cons_append, value, List.foldl_cons, h0, Nat.zero_mul]
      exact ih

end Numeral

/-! ## 2. Reading a number -/

/-- Spaces, a sign and digits up to the first other character, as `strtol` reads them. -/
def readNumber (digits : List Char) (text : List Char) : Int :=
  match text.dropWhile (· = ' ') with
  | '-' :: text => -(value digits (text.takeWhile (· ∈ digits)) : Int)
  | '+' :: text => value digits (text.takeWhile (· ∈ digits))
  | text => value digits (text.takeWhile (· ∈ digits))

section Read

variable {digits : List Char}

/-- The digits of a text that has spaces or nothing behind them. -/
theorem takeWhile_digits (ha : Alphabet digits) {text : List Char} (h : ∀ c ∈ text, c ∈ digits) (k : Nat) :
    (text ++ List.replicate k ' ').takeWhile (· ∈ digits) = text := by
  have hs : (List.replicate k ' ').takeWhile (fun c => decide (c ∈ digits)) = [] := by
    cases k with
    | zero => rfl
    | succ k =>
        rw [List.replicate_succ, List.takeWhile_cons_of_neg]
        simpa using ha.noSpace
  rw [List.takeWhile_append_of_pos (by simpa using h), hs, List.append_nil]

theorem dropWhile_spaces (k : Nat) (text : List Char) :
    (List.replicate k ' ' ++ text).dropWhile (· = ' ') = text.dropWhile (· = ' ') := by
  induction k with
  | zero => rfl
  | succ k ih =>
      rw [List.replicate_succ, List.cons_append, List.dropWhile_cons_of_pos (by decide)]
      exact ih

/-- A text that begins with a digit, behind spaces. -/
theorem readNumber_digits (ha : Alphabet digits) {c : Char} (hc : c ∈ digits) (j : Nat) (text : List Char) :
    readNumber digits (List.replicate j ' ' ++ c :: text) =
      value digits ((c :: text).takeWhile (· ∈ digits)) := by
  have hs : c ≠ ' ' := fun h => ha.noSpace (h ▸ hc)
  have hm : c ≠ '-' := fun h => ha.noMinus (h ▸ hc)
  have hp : c ≠ '+' := fun h => ha.noPlus (h ▸ hc)
  rw [readNumber, dropWhile_spaces, List.dropWhile_cons_of_neg (by simpa using hs)]
  split
  · next h => exact absurd (List.cons.inj h).1 hm
  · next h => exact absurd (List.cons.inj h).1 hp
  · rfl

/-- A sign and a text of digits, between spaces. -/
theorem readNumber_minus (ha : Alphabet digits) {text : List Char} (h : ∀ c ∈ text, c ∈ digits) (j k : Nat) :
    readNumber digits (List.replicate j ' ' ++ '-' :: (text ++ List.replicate k ' ')) =
      -(value digits text : Int) := by
  rw [readNumber, dropWhile_spaces, List.dropWhile_cons_of_neg (by decide)]
  simp only [takeWhile_digits ha h]

theorem readNumber_plus (ha : Alphabet digits) {text : List Char} (h : ∀ c ∈ text, c ∈ digits) (j k : Nat) :
    readNumber digits (List.replicate j ' ' ++ '+' :: (text ++ List.replicate k ' ')) = value digits text := by
  rw [readNumber, dropWhile_spaces, List.dropWhile_cons_of_neg (by decide)]
  simp only [takeWhile_digits ha h]

/-- No sign. -/
theorem readNumber_plain (ha : Alphabet digits) {text : List Char} (h : ∀ c ∈ text, c ∈ digits)
    (hn : text ≠ []) (j k : Nat) :
    readNumber digits (List.replicate j ' ' ++ (text ++ List.replicate k ' ')) = value digits text := by
  obtain ⟨c, rest, rfl⟩ := List.exists_cons_of_ne_nil hn
  rw [List.cons_append, readNumber_digits ha (h c List.mem_cons_self), ← List.cons_append, takeWhile_digits ha h]

/-- **A sign behind a zero is not read.** -/
theorem readNumber_zeroes (ha : Alphabet digits) {zero s : Char} (hz : digits[0]? = some zero) (hs : s ∉ digits)
    (k : Nat) (text : List Char) : readNumber digits (List.replicate (k + 1) zero ++ s :: text) = 0 := by
  have hm : zero ∈ digits := List.mem_of_getElem? hz
  have h := readNumber_digits ha hm 0 (List.replicate k zero ++ s :: text)
  rw [List.replicate_zero, List.nil_append, ← List.cons_append, ← List.replicate_succ,
    List.takeWhile_append_of_pos (by simpa using hm), List.takeWhile_cons_of_neg (by simpa using hs),
    value_zeroes hz] at h
  exact h

end Read

end SimpleOS2.Lib
