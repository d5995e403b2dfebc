/-
  File:      SimpleOS2/Klib/Memmove.lean
  Subject:   COPIES IN THE WHOLE ADDRESS SPACE (klib/memory.cpp): the two ranges may overlap.

  `kmemmove` hands a move towards the front to `kmemcpy`, which copies eight bytes at a time and the last few one by
  one. Each unit is read before it is written and what is still to be read stands behind it, so the distance of the
  two ranges does not matter.

  * `kmemcpyq`, `kmemcpyb`, `kmemcpy`, `kmemmove` -- the functions of the source;
  * `kmemcpy_copied` -- a copy towards the front; `kmemmove_copied` -- a move;
  * **`kmemmove_overlap`** -- the target holds what the source held, and every other byte is as before;
  * `kmemmove_buffer` -- inside a buffer of the kernel it is the move of BoundedMemory, which the path functions are
    proved with.
-/
import SimpleOS2.Klib.BoundedMemory
import SimpleOS2.Lib.WordMemory

namespace SimpleOS2

namespace AddressSpace

open Lib

abbrev Memory := BitVec 64 → BitVec 8

/-- `kmemcpyq`: `rep movsq`, a load and a store of eight bytes at a time. -/
def kmemcpyq (mem : Memory) (dest src count : BitVec 64) : Memory := copyUnits 8 count.toNat mem dest src

/-- `kmemcpyb`: `rep movsb`. -/
def kmemcpyb (mem : Memory) (dest src size : BitVec 64) : Memory := copyUnits 1 size.toNat mem dest src

def kmemcpy (mem : Memory) (dest src size : BitVec 64) : Memory :=
  let numq := size >>> 3
  let mem := kmemcpyq mem dest src numq
  let rem := size &&& 0x7
  kmemcpyb mem (dest + (numq <<< 3)) (src + (numq <<< 3)) rem

/-- `kmemmove`. The loop of the last branch runs `i` from `size` down to 1 and copies the byte `i - 1`. -/
def kmemmove (mem : Memory) (dest src size : BitVec 64) : Memory :=
  if dest = src then mem
  else if dest < src then kmemcpy mem dest src size
  else copyBack size.toNat mem dest src

variable {mem : Memory} {dest src size : BitVec 64}

/-- The words and the tail are all of it. -/
theorem kmemcpy_parts (size : BitVec 64) :
    8 * (size >>> 3).toNat + (size &&& 0x7).toNat = size.toNat ∧
      (size >>> 3) <<< 3 = BitVec.ofNat 64 (8 * (size >>> 3).toNat) := by
  have hsize := size.isLt
  have hnumq : (size >>> 3).toNat = size.toNat / 8 := by
    rw [BitVec.toNat_ushiftRight, Nat.shiftRight_eq_div_pow]
  have hrem : (size &&& 0x7).toNat = size.toNat % 8 := by
    rw [BitVec.toNat_and]
    exact Nat.and_two_pow_sub_one_eq_mod size.toNat 3
  refine ⟨by rw [hnumq, hrem, Nat.div_add_mod], BitVec.eq_of_toNat_eq ?_⟩
  rw [BitVec.toNat_shiftLeft, BitVec.toNat_ofNat, Nat.shiftLeft_eq, hnumq, Nat.mul_comm]

/-- **A copy towards the front is right for every overlap**: the units first, then the tail behind them. -/
theorem kmemcpy_copied (h : dest.toNat ≤ src.toNat) (hs : src.toNat + size.toNat ≤ 2 ^ 64) :
    Copied mem (kmemcpy mem dest src size) dest src size.toNat := by
  obtain ⟨hsum, hshift⟩ := kmemcpy_parts size
  have hahead := ahead_of_le h hs
  unfold kmemcpy kmemcpyq kmemcpyb
  dsimp only
  rw [← hsum] at hs hahead ⊢
  have hwords : Copied mem (copyUnits 8 (size >>> 3).toNat mem dest src) dest src (8 * (size >>> 3).toNat) :=
    copyUnits_copied (by omega) (ahead_of_le h (by omega))
  rw [hshift]
  -- the tail starts where the units end, so nothing it reads has been written
  exact hwords.append_ahead (copyUnits_one (by omega) (hahead.drop (by omega))) (by omega) hahead

theorem kmemmove_copied (hd : dest.toNat + size.toNat ≤ 2 ^ 64) (hs : src.toNat + size.toNat ≤ 2 ^ 64) :
    Copied mem (kmemmove mem dest src size) dest src size.toNat := by
  unfold kmemmove
  split
  · next heq => exact heq ▸ Copied.same mem dest size.toNat
  · split
    · next hlt => exact kmemcpy_copied (Nat.le_of_lt (BitVec.lt_def.mp hlt)) hs
    · next hge => exact copyBack_copied (BitVec.le_def.mp (BitVec.not_lt.mp hge)) hd

/-- **A move for every overlap.** -/
theorem kmemmove_overlap (mem : Memory) (dest src size : BitVec 64) (hd : dest.toNat + size.toNat ≤ 2 ^ 64)
    (hs : src.toNat + size.toNat ≤ 2 ^ 64) :
    (∀ i, i < size → kmemmove mem dest src size (dest + i) = mem (src + i)) ∧
      ∀ x, ¬ (dest.toNat ≤ x.toNat ∧ x.toNat < dest.toNat + size.toNat) →
        kmemmove mem dest src size x = mem x := by
  have h : Copied mem (kmemmove mem dest src size) dest src size.toNat := kmemmove_copied hd hs
  refine ⟨fun i hi => ?_, fun x hx => h.frame x fun hin => hx ((inside_iff hd).mp hin)⟩
  have hb := h.bytes i.toNat (BitVec.lt_def.mp hi)
  rw [BitVec.ofNat_toNat, BitVec.setWidth_eq] at hb
  exact hb

/-- Three bytes apart: less than a unit, and with a tail of four bytes. -/
theorem kmemmove_overlap_three :
    (∀ i, i < 12 → kmemmove (fun x => x.setWidth 8) 100 103 12 (100 + i) = (103 + i).setWidth 8) ∧
      ∀ x, ¬ (100 ≤ x.toNat ∧ x.toNat < 112) → kmemmove (fun x => x.setWidth 8) 100 103 12 x = x.setWidth 8 :=
  kmemmove_overlap (fun x => x.setWidth 8) 100 103 12 (by decide) (by decide)

/-! ## The buffers of the kernel -/

/-- A buffer of `n` bytes stands at `base`. -/
def Stands (mem : Memory) (base : BitVec 64) (n : Nat) (b : Nat → Char) : Prop :=
  ∀ i, i < n → mem (base + BitVec.ofNat 64 i) = BitVec.ofNat 8 (b i).toNat

variable {base : BitVec 64} {n d s k : Nat} {b : Nat → Char}

/-- A copied range of the address space is a moved range of the buffer. -/
theorem Stands.copied {mem' : Memory} (hb : Stands mem base n b) (hbase : base.toNat + n < 2 ^ 64) (hd : d + k ≤ n)
    (hs : s + k ≤ n) (hc : Copied mem mem' (base + BitVec.ofNat 64 d) (base + BitVec.ofNat 64 s) k) :
    Stands mem' base n (moved b d s k) := by
  intro i hi
  have hat : ∀ {m}, m ≤ n → (base + BitVec.ofNat 64 m).toNat = base.toNat + m := fun hm => toNat_add_ofNat (by omega)
  by_cases hin : d ≤ i ∧ i < d + k
  · obtain ⟨m, rfl⟩ := Nat.exists_eq_add_of_le hin.1
    have hm := hc.bytes m (by omega)
    rw [BitVec.add_assoc, BitVec.add_assoc, ← BitVec.ofNat_add, ← BitVec.ofNat_add, hb _ (by omega)] at hm
    rw [hm, moved, if_pos hin, Nat.add_sub_cancel_left]
  · rw [moved, if_neg hin, ← hb i hi]
    refine hc.frame _ fun h => hin ?_
    have hr := (inside_iff (by rw [hat (by omega)]; omega)).mp h
    rw [hat (by omega), hat (by omega)] at hr
    omega

/-- **Inside a buffer `kmemmove` is the move that knows its bounds.** -/
theorem kmemmove_buffer (hb : Stands mem base n b) (hbase : base.toNat + n < 2 ^ 64) (hd : d + k ≤ n)
    (hs : s + k ≤ n) :
    ∃ b', Bounded.kmemmove n b d s k = some b' ∧
      Stands (kmemmove mem (base + BitVec.ofNat 64 d) (base + BitVec.ofNat 64 s) (BitVec.ofNat 64 k)) base n b' := by
  have hat : ∀ {m}, m ≤ n → (base + BitVec.ofNat 64 m).toNat = base.toNat + m := fun hm => toNat_add_ofNat (by omega)
  have hk : (BitVec.ofNat 64 k).toNat = k := by rw [BitVec.toNat_ofNat, Nat.mod_eq_of_lt (by omega)]
  have hc : Copied mem (kmemmove mem (base + BitVec.ofNat 64 d) (base + BitVec.ofNat 64 s) (BitVec.ofNat 64 k))
      (base + BitVec.ofNat 64 d) (base + BitVec.ofNat 64 s) (BitVec.ofNat 64 k).toNat :=
    kmemmove_copied (by rw [hat (by omega), hk]; omega) (by rw [hat (by omega), hk]; omega)
  rw [hk] at hc
  refine ⟨moved b d s k, ?_, hb.copied hbase hd hs hc⟩
  rcases Nat.lt_trichotomy d s with hlt | rfl | hgt
  · unfold Bounded.kmemmove
    rw [if_neg (Nat.ne_of_lt hlt), if_pos hlt]
    exact Bounded.kmemcpy_eq (Nat.le_of_lt hlt) hs
  · unfold Bounded.kmemmove
    rw [if_pos rfl]
    refine congrArg some (funext fun i => ?_)
    unfold moved
    split
    · next hin => exact congrArg b (by omega)
    · rfl
  · exact Bounded.kmemmove_eq hgt hd

end AddressSpace

end SimpleOS2
