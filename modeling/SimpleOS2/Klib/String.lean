/-
  File:      SimpleOS2/Klib/String.lean
  Subject:   STRINGS IN MEMORY (klib/string.cpp).

  Memory is a number for each byte; a character stands for its code, and 0 ends a string.

  * `Str` -- a string stands at an address;
  * `kstrcpy` -- the copy, with the 0 behind it; `kstrcpy_str`, `kstrcpy_frame` -- what it writes;
  * `readU64`, `writeU64` -- a `uint64` in memory.
-/
import Mathlib.Algebra.Group.Nat.Defs
import Mathlib.Logic.Function.Basic
import Mathlib.Data.Nat.Basic

namespace SimpleOS2

/-! ## 1. Strings -/

/-- The string `s` stands at the address. -/
def Str (mem : Nat → Nat) : (addr : Nat) → (s : List Char) → Prop
  | addr, [] => mem addr = 0
  | addr, c :: s => mem addr = c.toNat ∧ Str mem (addr + 1) s

/-- `kstrcpy`. -/
def kstrcpy : (src : List Char) → (mem : Nat → Nat) → (dest : Nat) → Nat → Nat
  | [], mem, dest => Function.update mem dest 0
  | c :: src, mem, dest => kstrcpy src (Function.update mem dest c.toNat) (dest + 1)

section Strings

variable {mem mem' : Nat → Nat} {addr dest x : Nat} {s src : List Char}

theorem Str.congr (h : Str mem addr s) (he : ∀ x, addr ≤ x → x ≤ addr + s.length → mem' x = mem x) :
    Str mem' addr s := by
  induction s generalizing addr with
  | nil => exact (he addr (Nat.le_refl _) (Nat.le_refl _)).trans h
  | cons c s ih =>
      refine ⟨(he addr (Nat.le_refl _) (Nat.le_add_right _ _)).trans h.1, ih h.2 fun x h1 h2 => he x (by omega) ?_⟩
      rw [List.length_cons]
      omega

/-- The copy writes the characters and the 0, and nothing else. -/
theorem kstrcpy_frame (h : x < dest ∨ dest + src.length < x) : kstrcpy src mem dest x = mem x := by
  induction src generalizing mem dest with
  | nil =>
      rw [List.length_nil] at h
      exact Function.update_of_ne (by omega) _ _
  | cons c src ih =>
      rw [List.length_cons] at h
      exact (ih (by omega)).trans (Function.update_of_ne (by omega) _ _)

theorem kstrcpy_str (src : List Char) (mem : Nat → Nat) (dest : Nat) : Str (kstrcpy src mem dest) dest src := by
  induction src generalizing mem dest with
  | nil => exact Function.update_self _ _ _
  | cons c src ih =>
      refine ⟨?_, ih _ _⟩
      show kstrcpy src (Function.update mem dest c.toNat) (dest + 1) dest = c.toNat
      rw [kstrcpy_frame (Or.inl (Nat.lt_succ_self dest)), Function.update_self]

/-- The 0 behind the copy. -/
theorem kstrcpy_end (src : List Char) (mem : Nat → Nat) (dest : Nat) :
    kstrcpy src mem dest (dest + src.length) = 0 := by
  induction src generalizing mem dest with
  | nil => exact Function.update_self _ _ _
  | cons c src ih =>
      have h : dest + (c :: src).length = dest + 1 + src.length := by
        rw [List.length_cons]
        omega
      rw [h]
      exact ih _ _

end Strings

/-! ## 2. Numbers -/

/-- A `uint64`, its lowest byte first. -/
def readU64 (mem : Nat → Nat) (addr : Nat) : Nat :=
  mem addr + 256 * (mem (addr + 1) + 256 * (mem (addr + 2) + 256 * (mem (addr + 3) + 256 * (mem (addr + 4) +
    256 * (mem (addr + 5) + 256 * (mem (addr + 6) + 256 * mem (addr + 7)))))))

def writeU64 (mem : Nat → Nat) (addr n : Nat) : Nat → Nat := fun x =>
  if addr ≤ x ∧ x < addr + 8 then n / 256 ^ (x - addr) % 256 else mem x

theorem readU64_congr {mem mem' : Nat → Nat} {addr : Nat} (h : ∀ x, addr ≤ x → x < addr + 8 → mem' x = mem x) :
    readU64 mem' addr = readU64 mem addr := by
  unfold readU64
  rw [h addr (by omega) (by omega), h (addr + 1) (by omega) (by omega), h (addr + 2) (by omega) (by omega),
    h (addr + 3) (by omega) (by omega), h (addr + 4) (by omega) (by omega), h (addr + 5) (by omega) (by omega),
    h (addr + 6) (by omega) (by omega), h (addr + 7) (by omega) (by omega)]

theorem readU64_write (mem : Nat → Nat) (addr : Nat) {n : Nat} (h : n < 2 ^ 64) :
    readU64 (writeU64 mem addr n) addr = n := by
  have hk : ∀ k < 8, writeU64 mem addr n (addr + k) = n / 256 ^ k % 256 := by
    intro k hk
    unfold writeU64
    rw [if_pos (by omega), Nat.add_sub_cancel_left]
  have h0 := hk 0 (by decide)
  rw [Nat.add_zero] at h0
  unfold readU64
  rw [h0, hk 1 (by decide), hk 2 (by decide), hk 3 (by decide), hk 4 (by decide), hk 5 (by decide),
    hk 6 (by decide), hk 7 (by decide)]
  omega

end SimpleOS2
