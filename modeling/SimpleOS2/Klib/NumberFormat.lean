/-
  File:      SimpleOS2/Klib/NumberFormat.lean
  Subject:   WHAT A NUMBER LOOKS LIKE (PrintInt64Base, PrintUInt64Base of both printf engines).

  * `spelled`, `inField` -- sign, zeroes up to the precision and digits; the field they stand in;
  * `numberText_eq` -- the buffer holds what `spelled` says;
  * `ZeroesBeforeSign` -- the field is filled with zeroes in front of a sign;
  * `print_int64`, `print_uint64` -- both engines print this for every number but `INT64_MIN`, and it reads
    back as the number exactly if no such zeroes are there.
-/
import SimpleOS2.Klib.Printf
import SimpleOS2.Lib.Numerals

namespace SimpleOS2

open Lib

namespace Printf

/-! ## 1. What should be printed -/

/-- The sign in front of the digits. -/
def signText (neg : Bool) (fmt : Format) : List Char :=
  if neg then ['-'] else if fmt.forceSign then ['+'] else if fmt.spaceIfNoSign then [' '] else []

/-- Sign, zeroes up to the precision, digits. -/
def spelled (digits : List Char) (n : Nat) (neg : Bool) (fmt : Format) : List Char :=
  signText neg fmt ++
    (List.replicate (fmt.precision.toNat - (numeral digits n).length) '0' ++ numeral digits n)

/-- A text in a field of the minimal width. -/
def inField (fmt : Format) (text : List Char) : List Char :=
  if fmt.leftJustify then text ++ List.replicate (fmt.minWidth.toNat - text.length) ' '
  else
    List.replicate (fmt.minWidth.toNat - text.length) (if fmt.leftPadWithZeroes then '0' else ' ') ++ text

/-- Both engines print the text. -/
structure Prints (ops : Option (List TermOp)) (out : Option (List Char)) (text : List Char) : Prop where
  terminal : ops.map (·.map TermOp.seen) = some text
  descriptor : out = some text

/-- The field is filled with zeroes, and the sign stands behind them. -/
def ZeroesBeforeSign (digits : List Char) (n : Nat) (neg : Bool) (fmt : Format) : Prop :=
  fmt.leftPadWithZeroes = true ∧ fmt.leftJustify = false ∧ signText neg fmt ≠ [] ∧
    (spelled digits n neg fmt).length < fmt.minWidth

/-- The tables that the engines hand to `PrintInt64Base` and to `PrintUInt64Base`, with the base. -/
def int64Tables : List (List Char × Int) := [(decimalDigits, 10), (octalDigits, 8)]
def uint64Tables : List (List Char × Int) := [(decimalDigits, 10), (hexDigitsLower, 16), (hexDigitsUpper, 16)]

/-- A table that is an alphabet with the character `0` for zero. -/
structure Digits (digits : List Char) (base : Int) : Prop extends Table digits base where
  alphabet : Alphabet digits
  zero : digits[0]? = some '0'

theorem digits_of_int64 {t : List Char × Int} (h : t ∈ int64Tables) : Digits t.1 t.2 := by
  simp only [int64Tables, List.mem_cons, List.not_mem_nil, or_false] at h
  rcases h with rfl | rfl
  · exact ⟨decimal_table, ⟨by decide, by decide, by decide, by decide, by decide⟩, rfl⟩
  · exact ⟨octal_table, ⟨by decide, by decide, by decide, by decide, by decide⟩, rfl⟩

theorem digits_of_uint64 {t : List Char × Int} (h : t ∈ uint64Tables) : Digits t.1 t.2 := by
  simp only [uint64Tables, List.mem_cons, List.not_mem_nil, or_false] at h
  rcases h with rfl | rfl | rfl
  · exact ⟨decimal_table, ⟨by decide, by decide, by decide, by decide, by decide⟩, rfl⟩
  · exact ⟨hexLower_table, ⟨by decide, by decide, by decide, by decide, by decide⟩, rfl⟩
  · exact ⟨hexUpper_table, ⟨by decide, by decide, by decide, by decide, by decide⟩, rfl⟩

/-! ## 2. What stands in the buffer -/

section Buffer

variable {digits : List Char} {base : Int} {buffer : List Char} {fmt : Format} {neg : Bool}

theorem digitAt_nat {i : Nat} (h : i < digits.length) : digitAt digits i = some digits[i] := by
  rw [digitAt, if_pos (Int.natCast_nonneg i), Int.toNat_natCast, List.getElem?_eq_getElem h]

theorem digitAt_mod (ha : Alphabet digits) (n : Nat) :
    digitAt digits ((n : Int).tmod digits.length) =
      some (digits.get ⟨n % digits.length, ha.mod_lt n⟩) := digitAt_nat (ha.mod_lt n)

/-- **The loop writes the digits of the number.** -/
theorem digitLoop_numeral (ha : Alphabet digits) (n : Nat)
    (hb : buffer.length + (numeral digits n).length ≤ 127) :
    digitLoop digits digits.length n buffer = some (numeral digits n ++ buffer) := by
  have h2 := ha.two
  have hq : ∀ n : Nat, (n : Int).tdiv digits.length = (n / digits.length : Nat) := fun n => rfl
  induction n using numeral_induction ha generalizing buffer with
  | small n h =>
      have hm : n % digits.length = n := Nat.mod_eq_of_lt h
      rw [numeral_small h] at hb ⊢
      rw [digitLoop_last (digitAt_mod ha n) (by simpa using hb) (by rw [hq, Nat.div_eq_of_lt h]; rfl)]
      simp only [hm, List.get_eq_getElem, List.singleton_append]
  | step n h ih =>
      rw [numeral_step ha h, List.length_append, List.length_singleton] at hb
      have hne : (n : Int).tdiv digits.length ≠ 0 := by
        rw [hq]
        exact_mod_cast (Nat.div_pos h (by omega)).ne'
      rw [digitLoop_next (digitAt_mod ha n) (by omega) hne, hq, ih (by rw [List.length_cons]; omega), numeral_step ha h,
        List.append_assoc, List.singleton_append]

theorem fillLoop_eq (hz : digits[0]? = some '0') (n : Nat) (hb : buffer.length + n ≤ 127) :
    fillLoop digits n buffer = some (List.replicate n '0' ++ buffer) := by
  induction n generalizing buffer with
  | zero => rfl
  | succ n ih =>
      have hd : digitAt digits 0 = some '0' := hz
      rw [fillLoop, hd, Option.bind_some, push_some (by omega), Option.bind_some,
        ih (by rw [List.length_cons]; omega), List.replicate_succ', List.append_assoc, List.singleton_append]

theorem pushSign_eq (hb : buffer.length + signs neg fmt ≤ 127) :
    pushSign neg fmt buffer = some (signText neg fmt ++ buffer) := by
  unfold pushSign signText
  unfold signs at hb
  split_ifs at hb ⊢
  · exact push_some (by omega)
  · exact push_some (by omega)
  · exact push_some (by omega)
  · rfl

theorem signs_nonneg (neg : Bool) (fmt : Format) : 0 ≤ signs neg fmt ∧ signs neg fmt ≤ 1 := by
  unfold signs
  split_ifs <;> omega

/-- A number below `2 ^ 64` takes at most 64 characters. -/
theorem numeral_length_64 (ha : Alphabet digits) {n : Nat} (h : n < 2 ^ 64) : (numeral digits n).length ≤ 64 :=
  numeral_length (k := 63) ha (lt_of_lt_of_le h (Nat.pow_le_pow_left ha.two 64))

/-- **The buffer holds what the number looks like.** -/
theorem numberText_eq (hd : Digits digits base) {n : Nat} (hn : n < 2 ^ 64)
    (hp : fmt.precision + signs neg fmt ≤ 127) :
    numberText digits base n neg fmt = some (spelled digits n neg fmt) := by
  have h64 := numeral_length_64 hd.alphabet hn
  have hs := signs_nonneg neg fmt
  have hfill : (fmt.precision - ((numeral digits n).length : Int)).toNat =
      fmt.precision.toNat - (numeral digits n).length := by omega
  have hfit : (numeral digits n).length + (fmt.precision.toNat - (numeral digits n).length) +
      signs neg fmt ≤ 127 := by omega
  rw [numberText, ← hd.length, digitLoop_numeral hd.alphabet n (by simp; omega), List.append_nil,
    Option.bind_some, hfill, fillLoop_eq hd.zero _ (by omega), Option.bind_some, pushSign_eq]
  · rfl
  · rw [List.length_append, List.length_replicate]
    omega

theorem spelled_noNul (hd : Digits digits base) (n : Nat) : '\x00' ∉ spelled digits n neg fmt := by
  intro h
  rcases List.mem_append.mp h with h | h
  · unfold signText at h
    split_ifs at h <;> simp at h
  · rcases List.mem_append.mp h with h | h
    · exact absurd (List.eq_of_mem_replicate h) (by decide)
    · exact hd.noNul (numeral_mem hd.alphabet n _ h)

end Buffer

/-! ## 3. What is printed -/

section Field

variable {digits : List Char} {base : Int} {fmt : Format} {neg : Bool} {text : List Char}

theorem toInt_of_lt {n : Int} (h0 : 0 ≤ n) (h1 : n < 2 ^ 31) : toInt n = n := by
  unfold toInt
  rw [Int.bmod_eq_of_le] <;> omega

theorem printString_whole (text : List Char) : Kfvprintf.printString text text.length = some text := by
  have hl : (0 : Int) ≤ text.length ∧ (text.length : Int) ≤ (text ++ ['\x00']).length := by simp
  rw [Kfvprintf.printString, Kfvprintf.write, if_pos hl, Int.toNat_natCast, List.take_left]

/-- The second engine writes the field. -/
theorem printStringPadded_eq (hw : fmt.minWidth < 2 ^ 31) (text : List Char) :
    Kfvprintf.printStringPadded text text.length fmt = some (inField fmt text) := by
  unfold Kfvprintf.printStringPadded inField
  rw [printString_whole]
  by_cases hl : (text.length : Int) < fmt.minWidth
  · have hpad : (toInt (fmt.minWidth - text.length)).toNat = fmt.minWidth.toNat - text.length := by
      rw [toInt_of_lt (by omega) (by omega)]
      omega
    rw [if_pos hl, Kfvprintf.printPadding, Kfvprintf.printPadding, hpad]
    by_cases hj : fmt.leftJustify = true
    · rw [if_pos hj, if_pos hj]
      rfl
    · rw [if_neg hj, if_neg hj]
      rfl
  · have hpad : fmt.minWidth.toNat - text.length = 0 := by omega
    rw [if_neg hl, hpad]
    split_ifs <;> simp

/-- And so does the first. -/
theorem prints_field (hw : fmt.minWidth < 2 ^ 31) (hn : '\x00' ∉ text) (color : Nat) :
    Prints (some (Kvprintf.printStringPadded text text.length fmt color))
      (Kfvprintf.printStringPadded text text.length fmt) (inField fmt text) := by
  have h : Same (Kvprintf.printStringPadded text text.length fmt color)
      (Kfvprintf.printStringPadded text text.length fmt) := same_padded hn color
  rw [Same, printStringPadded_eq hw] at h
  exact ⟨h.symm, printStringPadded_eq hw text⟩

/-! ## 4. Reading it back -/

/-- The number that the text stands for. -/
def signed (neg : Bool) (n : Nat) : Int := if neg then -(n : Int) else n

/-- What stands behind the sign. -/
def body (digits : List Char) (n : Nat) (fmt : Format) : List Char :=
  List.replicate (fmt.precision.toNat - (numeral digits n).length) '0' ++ numeral digits n

theorem body_digits (hd : Digits digits base) (n : Nat) (fmt : Format) : ∀ c ∈ body digits n fmt, c ∈ digits := by
  intro c hc
  rcases List.mem_append.mp hc with hc | hc
  · rw [List.eq_of_mem_replicate hc]
    exact List.mem_of_getElem? hd.zero
  · exact numeral_mem hd.alphabet n c hc

theorem value_body (hd : Digits digits base) (n : Nat) (fmt : Format) : value digits (body digits n fmt) = n := by
  rw [body, value_zeroes hd.zero, value_numeral hd.alphabet]

theorem body_ne_nil (digits : List Char) (n : Nat) (fmt : Format) : body digits n fmt ≠ [] := by
  intro h
  have h1 := congrArg List.length h
  have h2 := numeral_length_pos digits n
  rw [body, List.length_append, List.length_nil] at h1
  omega

/-- **Spaces around the text do not matter.** -/
theorem readNumber_spelled (hd : Digits digits base) (neg : Bool) (n : Nat) (fmt : Format) (j k : Nat) :
    readNumber digits (List.replicate j ' ' ++ (spelled digits n neg fmt ++ List.replicate k ' ')) =
      signed neg n := by
  have hb := body_digits hd n fmt
  have hv := value_body hd n fmt
  rw [show spelled digits n neg fmt = signText neg fmt ++ body digits n fmt from rfl, List.append_assoc]
  unfold signText signed
  split_ifs
  · rw [List.singleton_append, readNumber_minus hd.alphabet hb, hv]
  · rw [List.singleton_append, readNumber_plus hd.alphabet hb, hv]
  · rw [← List.append_assoc, ← List.replicate_succ' (a := ' '),
      readNumber_plain hd.alphabet hb (body_ne_nil digits n fmt), hv]
  · rw [List.nil_append, readNumber_plain hd.alphabet hb (body_ne_nil digits n fmt), hv]

/-- With zeroes in front of it a sign is not read. -/
theorem readNumber_zeroPadded (hd : Digits digits base) (n k : Nat) :
    readNumber digits (List.replicate (k + 1) '0' ++ spelled digits n neg fmt) = signed neg n ↔
      (signText neg fmt ≠ [] → n = 0) := by
  rw [show spelled digits n neg fmt = signText neg fmt ++ body digits n fmt from rfl]
  have hsign : ∀ s, s ∉ digits →
      (readNumber digits (List.replicate (k + 1) '0' ++ ([s] ++ body digits n fmt)) = signed neg n ↔ n = 0) := by
    intro s hs
    rw [List.singleton_append, readNumber_zeroes hd.alphabet hd.zero hs]
    unfold signed
    split_ifs <;> omega
  unfold signText
  split_ifs with hneg
  · rw [hsign '-' hd.alphabet.noMinus]
    simp
  · rw [hsign '+' hd.alphabet.noPlus]
    simp
  · rw [hsign ' ' hd.alphabet.noSpace]
    simp
  · refine iff_of_true ?_ fun h => absurd rfl h
    have hz : ∀ c ∈ List.replicate (k + 1) '0' ++ body digits n fmt, c ∈ digits := by
      intro c hc
      rcases List.mem_append.mp hc with hc | hc
      · rw [List.eq_of_mem_replicate hc]
        exact List.mem_of_getElem? hd.zero
      · exact body_digits hd n fmt c hc
    have h := readNumber_plain hd.alphabet hz (List.append_ne_nil_of_right_ne_nil _ (body_ne_nil digits n fmt)) 0 0
    simp only [value_zeroes hd.zero, value_body hd, List.replicate_zero, List.nil_append, List.append_nil] at h
    rw [List.nil_append, h, signed, if_neg hneg]

/-- **The field reads back as the number exactly if no sign stands behind zeroes.** -/
theorem readNumber_inField (hd : Digits digits base) (neg : Bool) (n : Nat) (fmt : Format) :
    readNumber digits (inField fmt (spelled digits n neg fmt)) = signed neg n ↔
      (ZeroesBeforeSign digits n neg fmt → n = 0) := by
  by_cases hj : fmt.leftJustify = true
  · refine iff_of_true ?_ fun h => absurd hj (by rw [h.2.1]; decide)
    rw [inField, if_pos hj]
    exact readNumber_spelled hd neg n fmt 0 _
  · by_cases hz : fmt.leftPadWithZeroes = true
    · rw [inField, if_neg hj, if_pos hz]
      rcases hk : fmt.minWidth.toNat - (spelled digits n neg fmt).length with _ | k
      · refine iff_of_true ?_ fun h => ?_
        · have h := readNumber_spelled hd neg n fmt 0 0
          rw [List.replicate_zero, List.append_nil] at h
          exact h
        · have := h.2.2.2
          omega
      · rw [readNumber_zeroPadded hd]
        refine ⟨fun h hzb => h hzb.2.2.1, fun h hs => h ⟨hz, by simpa using hj, hs, by omega⟩⟩
    · refine iff_of_true ?_ fun h => absurd h.1 hz
      rw [inField, if_neg hj, if_neg hz]
      have h := readNumber_spelled hd neg n fmt
        (fmt.minWidth.toNat - (spelled digits n neg fmt).length) 0
      rw [List.replicate_zero, List.append_nil] at h
      exact h

end Field

/-! ## 5. The printing functions -/

/-- `PrintInt64Base` of both engines prints the sign and the digits of the magnitude in their field. -/
def PrintsInt64 (t : List Char × Int) (w : BitVec 64) (fmt : Format) : Prop :=
  ∀ color, Prints (Kvprintf.printInt64Base w t.1 t.2 fmt color) (Kfvprintf.printInt64Base w t.1 t.2 fmt)
    (inField fmt (spelled t.1 w.toInt.natAbs (decide (w.toInt < 0)) fmt))

def PrintsUInt64 (t : List Char × Int) (w : BitVec 64) (fmt : Format) : Prop :=
  ∀ color, Prints (Kvprintf.printUInt64Base w t.1 t.2 fmt color) (Kfvprintf.printUInt64Base w t.1 t.2 fmt)
    (inField fmt (spelled t.1 w.toNat false fmt))

/-- What is printed reads back as the number. -/
def ReadsBack (t : List Char × Int) (n : Nat) (neg : Bool) (fmt : Format) (v : Int) : Prop :=
  readNumber t.1 (inField fmt (spelled t.1 n neg fmt)) = v

theorem int64Text_eq {digits : List Char} {base : Int} {fmt : Format} (hd : Digits digits base) {w : BitVec 64}
    (hw : w ≠ BitVec.intMin 64) (hp : fmt.precision + signs (decide (w.toInt < 0)) fmt ≤ 127) :
    int64Text w digits base fmt = some (spelled digits w.toInt.natAbs (decide (w.toInt < 0)) fmt) := by
  have hm := magnitude w hw
  have habs : (if decide (w.toInt < 0) then (-w).toInt else w.toInt) = (w.toInt.natAbs : Int) := by
    rw [BitVec.toInt_neg_of_ne_intMin hw]
    split_ifs with hn
    · have := of_decide_eq_true hn
      omega
    · have : ¬ w.toInt < 0 := fun h => hn (decide_eq_true h)
      omega
  rw [int64Text, habs]
  exact numberText_eq hd (by rw [habs] at hm; omega) hp

theorem printsInt64_iff {t : List Char × Int} (ht : t ∈ int64Tables) {w : BitVec 64} {fmt : Format}
    (hw : fmt.minWidth < 2 ^ 31) (hp : fmt.precision + signs (decide (w.toInt < 0)) fmt ≤ 127) :
    PrintsInt64 t w fmt ↔ w ≠ BitVec.intMin 64 := by
  have hd := digits_of_int64 ht
  constructor
  · intro h hmin
    have hn := (h 0).descriptor
    rw [Kfvprintf.printInt64Base, int64Text_none hd.toTable fun hx => hx.1 hmin] at hn
    cases hn
  · intro hmin color
    have he := int64Text_eq hd hmin hp
    rw [Kvprintf.printInt64Base, Kfvprintf.printInt64Base, he]
    exact prints_field hw (spelled_noNul hd _) color

theorem printsUInt64 {t : List Char × Int} (ht : t ∈ uint64Tables) {w : BitVec 64} {fmt : Format}
    (hw : fmt.minWidth < 2 ^ 31) (hp : fmt.precision + signs false fmt ≤ 127) : PrintsUInt64 t w fmt := by
  intro color
  have hd := digits_of_uint64 ht
  have he : uint64Text w t.1 t.2 fmt = some (spelled t.1 w.toNat false fmt) := numberText_eq hd w.isLt hp
  rw [Kvprintf.printUInt64Base, Kfvprintf.printUInt64Base, he]
  exact prints_field hw (spelled_noNul hd _) color

theorem signed_natAbs (v : Int) : signed (decide (v < 0)) v.natAbs = v := by
  unfold signed
  split_ifs with h
  · have := of_decide_eq_true h
    omega
  · have : ¬ v < 0 := fun h' => h (decide_eq_true h')
    omega

/-- **Numbers**: for a signed one every index into the table is inside of it and both engines print the
    field exactly if it is not `INT64_MIN`, for an unsigned one always; the field reads back as the number
    exactly if no sign stands behind zeroes that fill it. -/
theorem print_numbers (w : BitVec 64) (fmt : Format) (hw : fmt.minWidth < 2 ^ 31) :
    (∀ t ∈ int64Tables, fmt.precision + signs (decide (w.toInt < 0)) fmt ≤ 127 →
      (PrintsInt64 t w fmt ↔ w ≠ BitVec.intMin 64) ∧
      (PrintsInt64 t w fmt ∧ ReadsBack t w.toInt.natAbs (decide (w.toInt < 0)) fmt w.toInt ↔
        w ≠ BitVec.intMin 64 ∧
          (ZeroesBeforeSign t.1 w.toInt.natAbs (decide (w.toInt < 0)) fmt → w.toInt = 0))) ∧
    (∀ t ∈ uint64Tables, fmt.precision + signs false fmt ≤ 127 →
      PrintsUInt64 t w fmt ∧
      (ReadsBack t w.toNat false fmt w.toNat ↔ (ZeroesBeforeSign t.1 w.toNat false fmt → w.toNat = 0))) := by
  constructor
  · intro t ht hp
    have hread := readNumber_inField (digits_of_int64 ht) (decide (w.toInt < 0)) w.toInt.natAbs fmt
    rw [signed_natAbs, Int.natAbs_eq_zero] at hread
    exact ⟨printsInt64_iff ht hw hp, and_congr (printsInt64_iff ht hw hp) hread⟩
  · intro t ht hp
    exact ⟨printsUInt64 ht hw hp, readNumber_inField (digits_of_uint64 ht) false w.toNat fmt⟩

/-- `"%+8d"` of -42, `"%04X"` of 255. -/
theorem print_numbers_plain :
    (PrintsInt64 (decimalDigits, 10) (-42) { Format.zero with forceSign := true, minWidth := 8 } ∧
      ReadsBack (decimalDigits, 10) 42 true { Format.zero with forceSign := true, minWidth := 8 } (-42)) ∧
    PrintsUInt64 (hexDigitsUpper, 16) 255 { Format.zero with leftPadWithZeroes := true, minWidth := 4 } :=
  ⟨(((print_numbers (-42) { Format.zero with forceSign := true, minWidth := 8 } (by decide)).1
      (decimalDigits, 10) (by decide) (by decide)).2).mpr ⟨by decide, fun h => absurd h.1 (by decide)⟩,
    ((print_numbers 255 { Format.zero with leftPadWithZeroes := true, minWidth := 4 } (by decide)).2
      (hexDigitsUpper, 16) (by decide) (by decide)).1⟩

/-- `-INT64_MIN` wraps, and the first index is -8. -/
theorem int64_min_not_printed : ¬ ∀ w : BitVec 64, PrintsInt64 (decimalDigits, 10) w Format.zero := by
  intro h
  exact (printsInt64_iff (by decide) (by decide) (by decide)).mp (h (BitVec.intMin 64)) rfl

end Printf

end SimpleOS2
