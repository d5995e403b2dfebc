/-
  File:      SimpleOS2/Bootloader/Paging.lean
  Subject:   THE FIRST PAGE TABLES (Bootloader/paging.cpp), read the way the processor reads them.

  `Paging::Init` fills one PML4, one PML3 and 512 PML2s; two entries of the PML4 point to the same PML3, and the PML2s
  hold pages of 2 MB. So the first 512 GB of physical memory stand at 0 and a second time at `g_HighMemBase`.

  * `pageWalk` -- what the processor makes of an address: four levels, large pages of 1 GB and 2 MB;
  * `fill`, `init` -- the loops of `Paging::Init`; `convertPtr`;
  * `LargePage`, `DirectTables` -- an entry of the PML2s, and the PML3 with all of them;
  * `pageWalk_direct` -- where the tables stand behind an entry of a PML4, each address is its own copy;
  * `boot_maps` -- the tables of `Paging::Init` do that at both places, for each address below 512 GB.
-/
import Mathlib.Data.Nat.Bitwise
import SimpleOS2.Memory.OutOfMemory

namespace SimpleOS2

open Lib

namespace Paging

open MemoryManager

/-! ## 1. The processor's walk -/

/-- Words of the physical memory, by their addresses. -/
abbrev Words := Nat → Nat

/-- The entry `i` of the table at `t`, where it is present. -/
def present (m : Words) (t i : Nat) : Option Nat := if pmlGetP (m (t + 8 * i)) then some (m (t + 8 * i)) else none

/-- Bit 7 of an entry of a PML3 or a PML2: it is a page. -/
def isLarge (e : Nat) : Bool := e &&& 0x80 ≠ 0

/-- The walk behind the entry `e4` of a PML4. -/
def walkFrom (m : Words) (e4 virt : Nat) : Option Nat :=
  (present m (pmlGetAddr e4) (getPml3Index virt)).bind fun e3 =>
    if isLarge e3 then some ((e3 &&& 0x000FFFFFC0000000) + virt % 2 ^ 30)
    else
      (present m (pmlGetAddr e3) (getPml2Index virt)).bind fun e2 =>
        if isLarge e2 then some ((e2 &&& 0x000FFFFFFFE00000) + virt % 2 ^ 21)
        else (present m (pmlGetAddr e2) (getPml1Index virt)).map fun e1 => pmlGetAddr e1 + virt % 4096

/-- The physical address of `virt`, with the tables that `cr3` points to. -/
def pageWalk (m : Words) (cr3 virt : Nat) : Option Nat :=
  (present m cr3 (getPml4Index virt)).bind fun e4 => walkFrom m e4 virt

/-! ## 2. `Paging::Init` -/

/-- The first `n` words of an array at `base`. -/
def fill (m : Words) (base : Nat) (f : Nat → Nat) : (n : Nat) → Words
  | 0 => m
  | n + 1 => Function.update (fill m base f n) (base + 8 * n) (f n)

/-- `PML_SET_ADDR(i << 21) | PML_SET_P(1) | PML_SET_RW(1) | PML1_SET_PAT(1)`. -/
def largeEntry (i : Nat) : Nat := (i <<< 21) ||| 0x3 ||| 0x80

/-- `Paging::Init` on the pages at `b`. -/
def init (b : Nat) (m : Words) : Words :=
  let m := fill m b (fun _ => 0) 512
  let m := Function.update m (b + 8 * 511) (pmlKernelEntry (b + 8 * 512))
  let m := Function.update m b (pmlKernelEntry (b + 8 * 512))
  let m := fill m (b + 8 * 512) (fun i => pmlKernelEntry (b + 8 * (1024 + 512 * i))) 512
  fill m (b + 8 * 1024) largeEntry (512 * 512)

/-- `header->pageBufferPages`. -/
def bufferPages : Nat := 1 + 1 + 512

/-- `Paging::ConvertPtr`, the same as the kernel's `PhysToKernelPtr`. -/
def convertPtr (ptr : Nat) : Nat := ptr + highMemBase

section Filling

variable {m : Words} {base n : Nat} {f : Nat → Nat}

theorem fill_in {i : Nat} (h : i < n) : fill m base f n (base + 8 * i) = f i := by
  induction n with
  | zero => cases h
  | succ n ih =>
      unfold fill
      by_cases hi : i = n
      · subst hi
        exact Function.update_self _ _ _
      · rw [Function.update_of_ne (by omega)]
        exact ih (by omega)

theorem fill_out {a : Nat} (h : a < base ∨ base + 8 * n ≤ a) : fill m base f n a = m a := by
  induction n with
  | zero => rfl
  | succ n ih =>
      unfold fill
      rw [Function.update_of_ne (by omega)]
      exact ih (by omega)

end Filling

/-! ## 3. Entries -/

/-- A present entry for the large page `k`. -/
structure LargePage (k e : Nat) : Prop where
  present : pmlGetP e = true
  large : isLarge e = true
  addr : e &&& 0x000FFFFFFFE00000 = k * 2 ^ 21

section Entries

variable {k e : Nat}

theorem isLarge_iff (e : Nat) : isLarge e = e.testBit 7 := by
  unfold isLarge
  rw [show (0x80 : Nat) = 2 ^ 7 from rfl, Nat.and_two_pow]
  cases e.testBit 7 <;> rfl

/-- An entry that points to a table is no large page. -/
theorem isLarge_table {p : Nat} (hd : 4096 ∣ p) : isLarge (pmlKernelEntry p) = false := by
  obtain ⟨q, rfl⟩ := hd
  have hbit : (4096 * q).testBit 7 = false := by
    rw [Nat.testBit_eq_decide_div_mod_eq]
    exact decide_eq_false (by omega)
  rw [isLarge_iff]
  unfold pmlKernelEntry
  rw [Nat.testBit_or, hbit]
  rfl

theorem largeEntry_largePage (hk : k < 2 ^ 18) : LargePage k (largeEntry k) := by
  have hshift : (k <<< 21) = 4096 * (512 * k) := by
    rw [Nat.shiftLeft_eq]
    omega
  refine ⟨?_, ?_, ?_⟩
  · have hbit : (k <<< 21).testBit 0 = false := by
      rw [hshift, Nat.testBit_eq_decide_div_mod_eq]
      exact decide_eq_false (by omega)
    rw [pmlGetP_eq]
    have h0 : (largeEntry k).testBit 0 = true := by
      unfold largeEntry
      rw [Nat.testBit_or, Nat.testBit_or, hbit]
      rfl
    rw [Nat.testBit_eq_decide_div_mod_eq] at h0
    exact decide_eq_true (by simpa using of_decide_eq_true h0)
  · rw [isLarge_iff]
    unfold largeEntry
    rw [Nat.testBit_or, Nat.testBit_or, show (0x80 : Nat).testBit 7 = true from rfl, Bool.or_true]
  · unfold largeEntry
    rw [Nat.and_or_distrib_right, Nat.and_or_distrib_right,
      show (0x000FFFFFFFE00000 : Nat) = (2 ^ 31 - 1) <<< 21 from by decide, ← Nat.shiftLeft_and_distrib,
      Nat.and_two_pow_sub_one_of_lt_two_pow (by omega)]
    rw [show (0x3 : Nat) &&& (2 ^ 31 - 1) <<< 21 = 0 from by decide,
      show (0x80 : Nat) &&& (2 ^ 31 - 1) <<< 21 = 0 from by decide, Nat.or_zero, Nat.or_zero, Nat.shiftLeft_eq]

/-- Flags outside of the address keep a large page what it is. -/
theorem LargePage.or (h : LargePage k e) {flags : Nat} (hf : flags &&& 0x000FFFFFFFE00000 = 0) :
    LargePage k (e ||| flags) := by
  refine ⟨?_, ?_, ?_⟩
  · have hp := h.present
    rw [pmlGetP_eq] at hp ⊢
    have h0 : e.testBit 0 = true := by
      rw [Nat.testBit_eq_decide_div_mod_eq]
      exact decide_eq_true (by simpa using of_decide_eq_true hp)
    have h1 : (e ||| flags).testBit 0 = true := by rw [Nat.testBit_or, h0, Bool.true_or]
    rw [Nat.testBit_eq_decide_div_mod_eq] at h1
    exact decide_eq_true (by simpa using of_decide_eq_true h1)
  · have hl := h.large
    rw [isLarge_iff] at hl ⊢
    rw [Nat.testBit_or, hl, Bool.true_or]
  · rw [Nat.and_or_distrib_right, hf, Nat.or_zero]
    exact h.addr

end Entries

/-! ## 4. The tables of all the memory -/

/-- The pages at `b` can be the tables: they are pages, and below 512 GB. -/
structure Buffer (b : Nat) : Prop where
  aligned : 4096 ∣ b
  below : b + bufferPages * 4096 ≤ 2 ^ 39

/-- The PML3 and the PML2s: all physical memory, in pages of 2 MB. -/
structure DirectTables (b : Nat) (m : Words) : Prop where
  pml3 : ∀ i, i < 512 → m (b + 8 * (512 + i)) = pmlKernelEntry (b + 8 * (1024 + 512 * i))
  pml2 : ∀ i, i < 512 * 512 → LargePage i (m (b + 8 * (1024 + i)))

section Walk

variable {b cr3 e p virt : Nat} {m : Words}

theorem present_of {t i : Nat} (h : m (t + 8 * i) = e) (hp : pmlGetP e = true) : present m t i = some e := by
  unfold present
  rw [h, if_pos hp]

/-- **Behind an entry with the PML3, each address is its own copy.** -/
theorem pageWalk_direct (hb : Buffer b) (h : DirectTables b m)
    (h4 : m (cr3 + 8 * getPml4Index virt) = pmlKernelEntry (b + 8 * 512)) (hp : p < 2 ^ 39)
    (hv : virt % 2 ^ 39 = p) : pageWalk m cr3 virt = some p := by
  obtain ⟨q, rfl⟩ := hb.aligned
  have hbelow : 4096 * q + 514 * 4096 ≤ 2 ^ 39 := hb.below
  have hi3 : getPml3Index virt = p / 2 ^ 30 := by
    unfold getPml3Index
    rw [getPmlIndex_eq]
    omega
  have hi2 : getPml2Index virt = p / 2 ^ 21 % 512 := by
    unfold getPml2Index
    rw [getPmlIndex_eq]
    omega
  obtain ⟨hp4, ha4⟩ := pmlKernelEntry_pointsTo (4096 * q + 8 * 512) (by omega) (by omega)
  obtain ⟨hp3, ha3⟩ := pmlKernelEntry_pointsTo (4096 * q + 8 * (1024 + 512 * (p / 2 ^ 30))) (by omega) (by omega)
  have h3 := h.pml3 (p / 2 ^ 30) (by omega)
  have hL := h.pml2 (p / 2 ^ 21) (by omega)
  unfold pageWalk walkFrom
  rw [present_of h4 hp4, Option.bind_some, ha4, hi3, present_of (by rw [← h3]; congr 1; omega) hp3, Option.bind_some,
    if_neg (by rw [isLarge_table (by omega)]; exact Bool.false_ne_true), ha3, hi2]
  have hcell : 4096 * q + 8 * (1024 + 512 * (p / 2 ^ 30)) + 8 * (p / 2 ^ 21 % 512) =
      4096 * q + 8 * (1024 + p / 2 ^ 21) := by omega
  rw [present_of (by rw [hcell]) hL.present, Option.bind_some, if_pos hL.large, hL.addr]
  congr 1
  omega

theorem init_tables (b : Nat) (m : Words) : DirectTables b (init b m) := by
  refine ⟨fun i hi => ?_, fun i hi => ?_⟩
  · unfold init
    rw [fill_out (by omega), show b + 8 * (512 + i) = b + 8 * 512 + 8 * i from by omega, fill_in hi]
  · unfold init
    rw [show b + 8 * (1024 + i) = b + 8 * 1024 + 8 * i from by omega, fill_in hi]
    exact largeEntry_largePage hi

theorem init_pml4 (b : Nat) (m : Words) : init b m b = pmlKernelEntry (b + 8 * 512) ∧
    init b m (b + 8 * 511) = pmlKernelEntry (b + 8 * 512) := by
  unfold init
  constructor
  · rw [fill_out (by omega), fill_out (by omega), Function.update_self]
  · rw [fill_out (by omega), fill_out (by omega), Function.update_of_ne (by omega), Function.update_self]

/-- **All of the first 512 GB, at both places**: the boot loader's tables map each address to itself, and its
    `ConvertPtr` to it. -/
theorem boot_maps (hb : Buffer b) (m : Words) (hp : p < 2 ^ 39) :
    pageWalk (init b m) b p = some p ∧ pageWalk (init b m) b (convertPtr p) = some p := by
  have hbase := highMemBase_eq
  obtain ⟨h0, h511⟩ := init_pml4 b m
  refine ⟨pageWalk_direct hb (init_tables b m) ?_ hp (Nat.mod_eq_of_lt hp),
    pageWalk_direct hb (init_tables b m) ?_ hp ?_⟩
  · have hi : getPml4Index p = 0 := by
      unfold getPml4Index
      rw [getPmlIndex_eq]
      omega
    rw [hi]
    exact h0
  · have hi : getPml4Index (convertPtr p) = 511 := by
      unfold getPml4Index convertPtr
      rw [getPmlIndex_eq, hbase]
      omega
    rw [hi]
    exact h511
  · unfold convertPtr
    rw [hbase]
    omega

/-- The tables at 1 MB: the last byte of the 512 GB. -/
theorem boot_maps_last : pageWalk (init 0x100000 fun _ => 0) 0x100000 0x7FFFFFFFFF = some 0x7FFFFFFFFF ∧
    pageWalk (init 0x100000 fun _ => 0) 0x100000 (convertPtr 0x7FFFFFFFFF) = some 0x7FFFFFFFFF :=
  boot_maps ⟨by decide, by decide⟩ _ (by decide)

end Walk

end Paging

end SimpleOS2
