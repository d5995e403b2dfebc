/-
  File:      SimpleOS2/Lib/ByteString.lean
  Subject:   STRINGS OF BYTES IN A MEMORY. Nothing here names the kernel.

  * `BytesAt` -- a list stands in memory from an address on; `bytesAt_cons`, `bytesAt_append`, `BytesAt.congr`;
  * `bytesAt_flatMap` -- parts of the same length, one behind the other;
  * `leNumber` -- a number that is read with its lowest byte first, `leNumber_eq`.
-/
import Mathlib.Data.Nat.Digits.Lemmas

namespace SimpleOS2.Lib

variable {β : Type} {read read' : Nat → Option β} {a : Nat} {bs cs : List β}

/-! ## 1. Lists -/

/-- The list stands from `a` on. `read` is `none` where nothing can be read. -/
def BytesAt (read : Nat → Option β) (a : Nat) (bs : List β) : Prop := ∀ i, i < bs.length → read (a + i) = bs[i]?

theorem bytesAt_nil (read : Nat → Option β) (a : Nat) : BytesAt read a [] := fun i hi => absurd hi (Nat.not_lt_zero i)

theorem bytesAt_cons (b : β) : BytesAt read a (b :: bs) ↔ read a = some b ∧ BytesAt read (a + 1) bs := by
  constructor
  · intro h
    refine ⟨h 0 (Nat.succ_pos _), fun i hi => ?_⟩
    rw [Nat.add_assoc, Nat.add_comm 1 i]
    exact h (i + 1) (Nat.succ_lt_succ hi)
  · intro h i hi
    cases i with
    | zero => exact h.1
    | succ i =>
        rw [Nat.add_comm i 1, ← Nat.add_assoc, Nat.add_comm 1 i]
        exact h.2 i (Nat.lt_of_succ_lt_succ hi)

/-- **Two lists, one behind the other.** -/
theorem bytesAt_append : BytesAt read a (bs ++ cs) ↔ BytesAt read a bs ∧ BytesAt read (a + bs.length) cs := by
  induction bs generalizing a with
  | nil => exact (and_iff_right (bytesAt_nil read a)).symm
  | cons b bs ih =>
      rw [List.cons_append, bytesAt_cons, bytesAt_cons, ih, and_assoc, List.length_cons, Nat.add_assoc,
        Nat.add_comm 1 bs.length]

theorem BytesAt.congr (h : BytesAt read a bs) (hsame : ∀ c, a ≤ c → c < a + bs.length → read' c = read c) :
    BytesAt read' a bs := fun i hi => (hsame (a + i) (by omega) (by omega)).trans (h i hi)

/-- **Parts of the same length.** -/
theorem bytesAt_flatMap {γ : Type} {f : γ → List β} {k : Nat} (hf : ∀ c, (f c).length = k) {l : List γ}
    (h : BytesAt read a (l.flatMap f)) {i : Nat} {c : γ} (hc : l[i]? = some c) : BytesAt read (a + k * i) (f c) := by
  induction l generalizing a i with
  | nil => cases hc
  | cons d l ih =>
      rw [List.flatMap_cons, bytesAt_append, hf d] at h
      cases i with
      | zero =>
          obtain rfl := Option.some.inj hc
          exact h.1
      | succ i =>
          have hrest := ih h.2 (i := i) hc
          rwa [Nat.add_assoc, Nat.add_comm k, ← Nat.mul_succ] at hrest

/-! ## 2. Numbers -/

/-- A number of `n` bytes. -/
def leNumber (read : Nat → Option Nat) : (n a : Nat) → Option Nat
  | 0, _ => some 0
  | n + 1, a => (read a).bind fun b => (leNumber read n (a + 1)).map fun v => b + 256 * v

theorem leNumber_eq {read : Nat → Option Nat} {bs : List Nat} (h : BytesAt read a bs) :
    leNumber read bs.length a = some (Nat.ofDigits 256 bs) := by
  induction bs generalizing a with
  | nil => rfl
  | cons b bs ih =>
      obtain ⟨hb, hbs⟩ := (bytesAt_cons b).mp h
      rw [List.length_cons, leNumber, hb, Option.bind_some, ih hbs, Option.map_some, Nat.ofDigits_cons]

end SimpleOS2.Lib
