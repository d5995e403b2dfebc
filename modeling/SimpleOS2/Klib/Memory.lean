/-
  File:      SimpleOS2/Klib/Memory.lean
  Subject:   ERROR CODES, 64-BIT RESULTS AND THE FAULT-TOLERANT COPY (errno.h, klib/memory.asm).

  * `Error*` -- the codes of errno.h, `int64` values;
  * `u64` -- reduction of a mathematical integer to the `uint64` it is stored as; a function that
    returns `uint64` and answers an error returns the code in two's complement (`asU64`);
  * `UserBuffer` -- a user-space buffer as the kernel meets it: bytes at offsets, and which
    offsets are mapped. `rep movsb` over an offset that is not mapped faults, and the page-fault
    handler resumes `_kmemcpy_usersafe` at its `.error` label;
  * `kmemcpyUsersafe` -- the copy itself, byte by byte: it answers `false` at the first byte that
    faults and keeps the bytes copied before it.
-/
import Mathlib.Algebra.Group.Int.Defs
import Mathlib.Algebra.GroupWithZero.Nat
import Mathlib.Logic.Function.Basic
import Mathlib.Data.Nat.Basic

namespace SimpleOS2

/-! ## 1. Error codes -/

def OK : Int := 0
def ErrorFileNotFound : Int := -4
def ErrorPermissionDenied : Int := -5
def ErrorInvalidFD : Int := -6
def ErrorInvalidBuffer : Int := -7
def ErrorFileExists : Int := -11
def ErrorSeekOffsetOOB : Int := -12
def ErrorEncounteredSymlink : Int := -13
def ErrorAddressNotPageAligned : Int := -14
def ErrorPathTooLong : Int := -15
def ErrorHardlinkToFolder : Int := -16
def ErrorHardlinkToDifferentFS : Int := -17
def ErrorDeleteMountPoint : Int := -18
def ErrorFolderNotEmpty : Int := -19
def ErrorNotAFolder : Int := -20
def ErrorFolderAlreadyMounted : Int := -21
def ErrorNotAMountPoint : Int := -23
def ErrorUnmountRoot : Int := -24
def ErrorMountPointBusy : Int := -25
def ErrorOpenFolder : Int := -26
def ErrorThreadNotFound : Int := -100
def ErrorInterrupted : Int := -200

/-- The `uint64` a mathematical natural number is stored as. -/
def u64 (n : Nat) : Nat := n % 2 ^ 64

theorem u64_of_lt {n : Nat} (h : n < 2 ^ 64) : u64 n = n := Nat.mod_eq_of_lt h

/-- A difference of `uint64` values that is not negative. -/
theorem u64_sub {m n : Nat} (h : n ≤ m) (hm : m < 2 ^ 64) : u64 (m + 2 ^ 64 - n) = m - n := by
  unfold u64
  omega

/-- An `int64` code, read as the `uint64` it is returned as. -/
def asU64 (e : Int) : Nat := (e % (2 ^ 64 : Int)).toNat

/-! ## 2. The fault-tolerant copy -/

/-- A user buffer: the bytes at its offsets, and the offsets that are mapped. -/
structure UserBuffer where
  mem : Nat → UInt8
  mapped : Nat → Bool

/-- `rep movsb`: the bytes from the `i`th on, `count` of them, from `src + s` to `dst + d`. `ok i`
    says whether the `i`th byte is accessible; the copy stops at the first one that is not. -/
def repMovsb (ok : Nat → Bool) (src : Nat → UInt8) (s : Nat) (dst : Nat → UInt8) (d : Nat) :
    (count i : Nat) → Bool × (Nat → UInt8)
  | 0, _ => (true, dst)
  | n + 1, i =>
      if ok i then repMovsb ok src s (Function.update dst (d + i) (src (s + i))) d n (i + 1)
      else (false, dst)

/-- `_kmemcpy_usersafe`. -/
def kmemcpyUsersafe (ok : Nat → Bool) (src : Nat → UInt8) (s : Nat) (dst : Nat → UInt8) (d : Nat)
    (count : Nat) : Bool × (Nat → UInt8) :=
  repMovsb ok src s dst d count 0

section Copy

variable {ok : Nat → Bool} {src : Nat → UInt8} {s d : Nat}

theorem repMovsb_ok (dst : Nat → UInt8) (n i : Nat) :
    (repMovsb ok src s dst d n i).1 = true ↔ ∀ j, i ≤ j → j < i + n → ok j = true := by
  induction n generalizing dst i with
  | zero => simp [repMovsb]; omega
  | succ n ih =>
      by_cases h : ok i = true
      · simp only [repMovsb, h, if_true, ih]
        constructor
        · intro H j h1 h2
          by_cases hj : j = i
          · rw [hj]; exact h
          · exact H j (by omega) (by omega)
        · intro H j h1 h2
          exact H j (by omega) (by omega)
      · simp only [repMovsb, h, Bool.false_eq_true, if_false, false_iff]
        exact fun H => h (H i (by omega) (by omega))

/-- Whatever its outcome, the copy writes inside its destination range only. -/
theorem repMovsb_frame (dst : Nat → UInt8) (n i x : Nat)
    (hx : x < d + i ∨ d + i + n ≤ x) : (repMovsb ok src s dst d n i).2 x = dst x := by
  induction n generalizing dst i with
  | zero => rfl
  | succ n ih =>
      by_cases h : ok i = true
      · simp only [repMovsb, h, if_true]
        rw [ih _ _ (by omega)]
        exact Function.update_of_ne (by omega) _ _
      · simp [repMovsb, h]

/-- After a copy that succeeded the destination range holds the source range. -/
theorem repMovsb_copied (dst : Nat → UInt8) (n i j : Nat)
    (h : (repMovsb ok src s dst d n i).1 = true) (h1 : i ≤ j) (h2 : j < i + n) :
    (repMovsb ok src s dst d n i).2 (d + j) = src (s + j) := by
  induction n generalizing dst i with
  | zero => omega
  | succ n ih =>
      have hi : ok i = true := (repMovsb_ok dst (n + 1) i).mp h i (by omega) (by omega)
      simp only [repMovsb, hi, if_true] at h ⊢
      by_cases hj : j = i
      · subst hj
        rw [repMovsb_frame _ _ _ _ (by omega)]
        exact Function.update_self _ _ _
      · exact ih _ (i + 1) h (by omega) (by omega)

/-- The copy succeeds exactly when every byte of the range is accessible. -/
theorem kmemcpyUsersafe_ok (dst : Nat → UInt8) (n : Nat) :
    (kmemcpyUsersafe ok src s dst d n).1 = true ↔ ∀ j < n, ok j = true := by
  unfold kmemcpyUsersafe
  rw [repMovsb_ok]
  exact ⟨fun h j hj => h j (by omega) (by omega), fun h j _ hj => h j (by omega)⟩

theorem kmemcpyUsersafe_frame (dst : Nat → UInt8) (n x : Nat) (hx : x < d ∨ d + n ≤ x) :
    (kmemcpyUsersafe ok src s dst d n).2 x = dst x :=
  repMovsb_frame dst n 0 x (by omega)

theorem kmemcpyUsersafe_copied (dst : Nat → UInt8) (n j : Nat)
    (h : (kmemcpyUsersafe ok src s dst d n).1 = true) (hj : j < n) :
    (kmemcpyUsersafe ok src s dst d n).2 (d + j) = src (s + j) :=
  repMovsb_copied dst n 0 j h (by omega) (by omega)

/-- Whatever its outcome, a byte afterwards is the old one or one that was copied there. -/
theorem kmemcpyUsersafe_byte (ok : Nat → Bool) (src : Nat → UInt8) (s : Nat) (dst : Nat → UInt8) (d n x : Nat) :
    (kmemcpyUsersafe ok src s dst d n).2 x = dst x ∨
      ∃ j < n, x = d + j ∧ (kmemcpyUsersafe ok src s dst d n).2 x = src (s + j) := by
  unfold kmemcpyUsersafe
  suffices h : ∀ n i (dst : Nat → UInt8), (repMovsb ok src s dst d n i).2 x = dst x ∨
      ∃ j, i ≤ j ∧ j < i + n ∧ x = d + j ∧ (repMovsb ok src s dst d n i).2 x = src (s + j) by
    rcases h n 0 dst with h | ⟨j, -, hj, hx, h⟩
    · exact Or.inl h
    · exact Or.inr ⟨j, by omega, hx, h⟩
  intro n
  induction n with
  | zero => exact fun i dst => Or.inl rfl
  | succ n ih =>
      intro i dst
      simp only [repMovsb]
      split_ifs
      · rcases ih (i + 1) (Function.update dst (d + i) (src (s + i))) with h | ⟨j, h1, h2, hx, h⟩
        · by_cases hxi : x = d + i
          · rw [hxi, Function.update_self] at h
            exact Or.inr ⟨i, Nat.le_refl i, by omega, hxi, hxi ▸ h⟩
          · rw [Function.update_of_ne hxi] at h
            exact Or.inl h
        · exact Or.inr ⟨j, by omega, by omega, hx, h⟩
      · exact Or.inl rfl

/-- A copy over accessible bytes, as a whole. -/
theorem kmemcpyUsersafe_eq (dst : Nat → UInt8) (n : Nat) (h : ∀ j < n, ok j = true) :
    kmemcpyUsersafe ok src s dst d n =
      (true, fun x => if d ≤ x ∧ x < d + n then src (s + (x - d)) else dst x) := by
  have hok : (kmemcpyUsersafe ok src s dst d n).1 = true := (kmemcpyUsersafe_ok dst n).mpr h
  refine Prod.ext hok (funext fun x => ?_)
  dsimp only
  split_ifs with hx
  · have hc := kmemcpyUsersafe_copied dst n (x - d) hok (by omega)
    rwa [Nat.add_sub_cancel' hx.1] at hc
  · exact kmemcpyUsersafe_frame dst n x (by omega)

end Copy

end SimpleOS2
