/-
  File:      SimpleOS2/Memory/MemoryManager.lean
  Subject:   THE PAGE ALLOCATOR AND PROCESS MAPS (memory/MemoryManager.cpp).

  Physical memory is reached through the kernel's window at `highMemBase`; the free list of
  ktl/FreeList.h keeps kernel pointers, page-table entries keep physical addresses. A process map
  is a tree of table pages of 512 entries: PML3, PML2, PML1, and the mapped frames under it.

  * `allocatePages`, `freePages` -- the allocator; a call that finds nothing answers `nullptr`, as
    the source's does, and sets `failed`;
  * `createProcessMap`, `forkProcessMap`, `freeProcessMap`, `mapProcessPage`, `mapAnyPage`,
    `unmapProcessPage`, `syscallAlloc`, `syscallFree` -- the functions on process maps;
  * `uses` -- in how many places of a tree a page stands; `uses_congr` and `uses_link` -- a tree is
    read from its table pages, and what one new entry adds to it.
-/
import Mathlib.Tactic.Ring
import Mathlib.Tactic.NormNum
import SimpleOS2.Ktl.FreeList
import SimpleOS2.Lib.Tally

namespace SimpleOS2

open Lib FreeList

namespace MemoryManager

/-! ## 1. Addresses and entries -/

/-- `g_HighMemBase`, as the boot loader hands it over. -/
def highMemBase : Nat := (511 <<< 39) ||| 0xFFFF000000000000

theorem highMemBase_eq : highMemBase = 2 ^ 64 - 2 ^ 39 := by decide

/-- `PhysToKernelPtr`, `KernelToPhysPtr`. -/
def physToKernelPtr (p : Nat) : Nat := p + highMemBase

def kernelToPhysPtr (k : Nat) : Nat := k - highMemBase

/-- `PML_GET_ADDR`, `PML_GET_P`. -/
def pmlGetAddr (entry : Nat) : Nat := entry &&& 0x000FFFFFFFFFF000

def pmlGetP (entry : Nat) : Bool := entry &&& 1 ≠ 0

/-- `PML_SET_ADDR(addr) | PML_SET_P(1) | PML_SET_RW(1) | PML_SET_US(1)`. -/
def pmlEntry (addr : Nat) : Nat := addr ||| 0x7

/-- `GET_PML1_INDEX`, `GET_PML2_INDEX`, `GET_PML3_INDEX`, `GET_PML4_INDEX`. -/
def getPmlIndex (level virt : Nat) : Nat := (virt >>> (12 + level * 9)) &&& 0x1FF

def getPml1Index (virt : Nat) : Nat := getPmlIndex 0 virt
def getPml2Index (virt : Nat) : Nat := getPmlIndex 1 virt
def getPml3Index (virt : Nat) : Nat := getPmlIndex 2 virt
def getPml4Index (virt : Nat) : Nat := getPmlIndex 3 virt

/-- `IsUserPtr`. -/
def isUserPtr (ptr : Nat) : Bool := getPml4Index ptr = 0

/-- The cell of entry `i` of the table page at physical address `t`. -/
def cell (t i : Nat) : Nat := physToKernelPtr t + 8 * i

def entry (m : Mem) (t i : Nat) : Nat := m (cell t i)

/-! ## 2. The functions -/

/-- Memory, the allocator's list, entry 0 of the core's PML4, and whether an allocation has
    answered `nullptr`. -/
structure Mm where
  mem : Mem
  freeList : Ends Nat
  pml4 : Nat
  failed : Bool

/-- `AllocatePages`: the physical address of the first page. -/
def allocatePages (fuel : Nat) (s : Mm) (numPages : Nat) : Option (Mm × Nat) :=
  let n := u64 (numPages * 4096)
  (findFree fuel s.mem s.freeList n).bind fun p =>
    if p = 0 then some ({ s with failed := true }, 0)
    else (markUsed fuel s.mem s.freeList p n).map fun r =>
      ({ s with mem := r.1, freeList := r.2 }, kernelToPhysPtr p)

/-- `FreePages`. -/
def freePages (fuel : Nat) (s : Mm) (pages numPages : Nat) : Option Mm :=
  (markFree fuel s.mem s.freeList (physToKernelPtr pages) (u64 (numPages * 4096))).map fun r =>
    { s with mem := r.1, freeList := r.2 }

/-- `for(int i = 0; i < 512; i++) table[i] = 0;` -/
def zeroTable (s : Mm) (t : Nat) : Mm :=
  { s with mem := fun a =>
      if physToKernelPtr t ≤ a ∧ a < physToKernelPtr t + 4096 then 0 else s.mem a }

/-- `kmemcpy(dest, src, 4096)` between two pages. -/
def copyPage (s : Mm) (dest src : Nat) : Mm :=
  { s with mem := fun a =>
      if physToKernelPtr dest ≤ a ∧ a < physToKernelPtr dest + 4096 then
        s.mem (a - physToKernelPtr dest + physToKernelPtr src)
      else s.mem a }

def setEntry (s : Mm) (t i v : Nat) : Mm := { s with mem := Function.update s.mem (cell t i) v }

/-- The child table behind entry `i` of the table `t`, allocated and cleared if there is none. -/
def nextTable (fuel : Nat) (s : Mm) (t i : Nat) : Option (Mm × Nat) :=
  if pmlGetP (entry s.mem t i) then some (s, pmlGetAddr (entry s.mem t i))
  else (allocatePages fuel s 1).map fun r =>
    (setEntry (zeroTable r.1 r.2) t i (pmlEntry r.2), r.2)

/-- The walk of `MapProcessPage` down to the PML1. -/
def walkTables (fuel : Nat) (s : Mm) (pml4Entry virt : Nat) : Option (Mm × Nat) :=
  (nextTable fuel s (pmlGetAddr pml4Entry) (getPml3Index virt)).bind fun r =>
    nextTable fuel r.1 r.2 (getPml2Index virt)

/-- `MapProcessPage(pml4Entry, phys, virt, invalidate)`. -/
def mapProcessPage (fuel : Nat) (s : Mm) (pml4Entry phys virt : Nat) : Option Mm :=
  (walkTables fuel s pml4Entry virt).map fun r =>
    setEntry r.1 r.2 (getPml1Index virt) (pmlEntry phys)

/-- `MapProcessPage(pml4Entry, virt, invalidate)`: the kernel pointer of the page at `virt`. -/
def mapAnyPage (fuel : Nat) (s : Mm) (pml4Entry virt : Nat) : Option (Mm × Nat) :=
  (walkTables fuel s pml4Entry virt).bind fun r =>
    let e := entry r.1.mem r.2 (getPml1Index virt)
    if pmlGetP e then some (r.1, physToKernelPtr (pmlGetAddr e))
    else (allocatePages fuel r.1 1).map fun q =>
      (setEntry q.1 r.2 (getPml1Index virt) (pmlEntry q.2), physToKernelPtr q.2)

/-- `UnmapProcessPage(pml4Entry, virt)`: the tables on the way are taken as present. -/
def unmapProcessPage (s : Mm) (pml4Entry virt : Nat) : Mm :=
  let pml3 := pmlGetAddr pml4Entry
  let pml2 := pmlGetAddr (entry s.mem pml3 (getPml3Index virt))
  let pml1 := pmlGetAddr (entry s.mem pml2 (getPml2Index virt))
  setEntry s pml1 (getPml1Index virt) 0

/-- `CreateProcessMap`: the PML4 entry of the new map. -/
def createProcessMap (fuel : Nat) (s : Mm) : Option (Mm × Nat) :=
  (allocatePages fuel s 1).map fun r => (zeroTable r.1 r.2, pmlEntry r.2)

/-- `FreeProcessPML1`, `FreeProcessPML2`, `FreeProcessPML3` by the height of the table; at height 0
    the frame behind a leaf entry. -/
def freeTable (fuel : Nat) : (height : Nat) → (t : Nat) → Mm → Option Mm
  | 0, t, s => freePages fuel s t 1
  | height + 1, t, s =>
      (forLoop (fun i s =>
          if pmlGetP (entry s.mem t i) then freeTable fuel height (pmlGetAddr (entry s.mem t i)) s
          else some s) 512 0 s).bind fun s => freePages fuel s t 1

def freeProcessPML1 (fuel : Nat) (t : Nat) (s : Mm) : Option Mm := freeTable fuel 1 t s
def freeProcessPML2 (fuel : Nat) (t : Nat) (s : Mm) : Option Mm := freeTable fuel 2 t s
def freeProcessPML3 (fuel : Nat) (t : Nat) (s : Mm) : Option Mm := freeTable fuel 3 t s

/-- `FreeProcessMap`. -/
def freeProcessMap (fuel : Nat) (s : Mm) (pml4Entry : Nat) : Option Mm :=
  freeProcessPML3 fuel (pmlGetAddr pml4Entry) s

/-- The innermost body of `ForkProcessMap`: one page is copied and mapped. -/
def forkPage (fuel : Nat) (new i j pml1 k : Nat) (s : Mm) : Option Mm :=
  let e := entry s.mem pml1 k
  if pmlGetP e then
    let virt := (k <<< 12) ||| (j <<< 21) ||| (i <<< 30)
    (allocatePages fuel s 1).bind fun r =>
      mapProcessPage fuel (copyPage r.1 r.2 (pmlGetAddr e)) new r.2 virt
  else some s

/-- `ForkProcessMap`. -/
def forkProcessMap (fuel : Nat) (s : Mm) : Option (Mm × Nat) :=
  (createProcessMap fuel s).bind fun r =>
    let new := r.2
    let pml3 := pmlGetAddr r.1.pml4
    (forLoop (fun i s =>
        let e := entry s.mem pml3 i
        if pmlGetP e then
          let pml2 := pmlGetAddr e
          forLoop (fun j s =>
            let e := entry s.mem pml2 j
            if pmlGetP e then forLoop (forkPage fuel new i j (pmlGetAddr e)) 512 0 s
            else some s) 512 0 s
        else some s) 512 0 r.1).map fun s => (s, new)

/-- The outcome of a syscall: it returns a value, or the thread leaves through `ThreadExit(1)`. -/
inductive Outcome where
  | ret (v : Int)
  | exit
  deriving DecidableEq

/-- `syscall_alloc`. The alignment test reads `base & (0xFFF != 0)`, the lowest bit. -/
def syscallAlloc (fuel : Nat) (s : Mm) (base numPages : Nat) : Option (Mm × Outcome) :=
  if base &&& 1 ≠ 0 then some (s, .ret ErrorAddressNotPageAligned)
  else
    forLoop (fun i r =>
      match r.2 with
      | .exit => some r
      | .ret _ =>
          let virt := u64 (base + i * 4096)
          if isUserPtr virt then (mapAnyPage fuel r.1 r.1.pml4 virt).map fun q => (q.1, r.2)
          else some (r.1, .exit)) numPages 0 (s, .ret 0)

/-- `syscall_free`. -/
def syscallFree (s : Mm) (base numPages : Nat) : Option (Mm × Outcome) :=
  if base &&& 1 ≠ 0 then some (s, .ret ErrorAddressNotPageAligned)
  else
    forLoop (fun i r =>
      match r.2 with
      | .exit => some r
      | .ret _ =>
          let virt := u64 (base + i * 4096)
          if isUserPtr virt then some (unmapProcessPage r.1 r.1.pml4 virt, r.2)
          else some (r.1, .exit)) numPages 0 (s, .ret 0)

/-- The turns of `syscall_alloc`. -/
def allocTurn (fuel base i : Nat) (r : Mm × Outcome) : Option (Mm × Outcome) :=
  match r.2 with
  | .exit => some r
  | .ret _ =>
      let virt := u64 (base + i * 4096)
      if isUserPtr virt then (mapAnyPage fuel r.1 r.1.pml4 virt).map fun q => (q.1, r.2) else some (r.1, .exit)

theorem syscallAlloc_turns (fuel : Nat) (s : Mm) (base n : Nat) : syscallAlloc fuel s base n =
    if base &&& 1 ≠ 0 then some (s, .ret ErrorAddressNotPageAligned)
    else forLoop (allocTurn fuel base) n 0 (s, .ret 0) := rfl

/-- Those of `syscall_free`. -/
def freeTurn (base i : Nat) (r : Mm × Outcome) : Option (Mm × Outcome) :=
  match r.2 with
  | .exit => some r
  | .ret _ =>
      let virt := u64 (base + i * 4096)
      if isUserPtr virt then some (unmapProcessPage r.1 r.1.pml4 virt, r.2) else some (r.1, .exit)

theorem syscallFree_turns (s : Mm) (base n : Nat) : syscallFree s base n =
    if base &&& 1 ≠ 0 then some (s, .ret ErrorAddressNotPageAligned)
    else forLoop (freeTurn base) n 0 (s, .ret 0) := rfl

/-! Fuel that is left over changes nothing. -/

theorem allocatePages_steady (s : Mm) (n : Nat) : Steady fun k => allocatePages k s n := by
  refine (findFree_steady s.mem s.freeList (u64 (n * 4096))).bind fun p => ?_
  by_cases hp : p = 0
  · simp only [if_pos hp]
    exact Steady.const _
  · simp only [if_neg hp]
    exact (markUsed_steady s.mem s.freeList p (u64 (n * 4096))).map _

theorem nextTable_steady (s : Mm) (t i : Nat) : Steady fun k => nextTable k s t i := by
  unfold nextTable
  by_cases h : pmlGetP (entry s.mem t i) = true
  · simp only [if_pos h]
    exact Steady.const _
  · simp only [if_neg h]
    exact (allocatePages_steady s 1).map _

theorem walkTables_steady (s : Mm) (e virt : Nat) : Steady fun k => walkTables k s e virt :=
  (nextTable_steady s _ _).bind fun r => nextTable_steady r.1 r.2 _

theorem mapProcessPage_steady (s : Mm) (e phys virt : Nat) : Steady fun k => mapProcessPage k s e phys virt :=
  (walkTables_steady s e virt).map _

theorem mapAnyPage_steady (s : Mm) (e virt : Nat) : Steady fun k => mapAnyPage k s e virt := by
  refine (walkTables_steady s e virt).bind fun r => ?_
  by_cases h : pmlGetP (entry r.1.mem r.2 (getPml1Index virt)) = true
  · simp only [if_pos h]
    exact Steady.const _
  · simp only [if_neg h]
    exact (allocatePages_steady r.1 1).map _

theorem createProcessMap_steady (s : Mm) : Steady fun k => createProcessMap k s := (allocatePages_steady s 1).map _

/-! ## 3. Entries and indices -/

theorem pmlGetAddr_eq (e : Nat) : pmlGetAddr e = e / 4096 % 2 ^ 40 * 4096 := by
  have hmask : (0x000FFFFFFFFFF000 : Nat) = (2 ^ 40 - 1) <<< 12 := by decide
  unfold pmlGetAddr
  rw [hmask]
  apply Nat.eq_of_testBit_eq
  intro i
  have hmul : e / 4096 % 2 ^ 40 * 4096 = (e / 2 ^ 12 % 2 ^ 40) * 2 ^ 12 := by norm_num
  rw [hmul, Nat.testBit_and, Nat.testBit_shiftLeft, Nat.testBit_mul_two_pow, Nat.testBit_mod_two_pow,
    Nat.testBit_div_two_pow, Nat.testBit_two_pow_sub_one]
  by_cases h : 12 ≤ i
  · have : i - 12 + 12 = i := by omega
    simp [h, this, Bool.and_comm]
  · simp [h]

theorem pmlGetP_eq (e : Nat) : pmlGetP e = decide (e % 2 = 1) := by
  unfold pmlGetP
  rw [Nat.and_one_is_mod]
  rcases Nat.mod_two_eq_zero_or_one e with h | h <;> simp [h]

/-- What an entry holds: the page it was made for. -/
theorem pmlEntry_facts {p : Nat} (hd : 4096 ∣ p) (hp : p < 2 ^ 52) :
    pmlGetP (pmlEntry p) = true ∧ pmlGetAddr (pmlEntry p) = p := by
  obtain ⟨q, rfl⟩ := hd
  have hor : pmlEntry (4096 * q) = 4096 * q + 7 := by
    have h := Nat.shiftLeft_add_eq_or_of_lt (i := 12) (b := 7) (by norm_num) q
    rw [Nat.shiftLeft_eq] at h
    unfold pmlEntry
    rw [show 4096 * q = q * 2 ^ 12 from by ring, ← h]
  rw [hor, pmlGetP_eq, pmlGetAddr_eq]
  constructor
  · simp
    omega
  · omega

theorem pmlGetAddr_facts (e : Nat) : 4096 ∣ pmlGetAddr e ∧ pmlGetAddr e < 2 ^ 52 := by
  rw [pmlGetAddr_eq]
  omega

theorem getPmlIndex_eq (level virt : Nat) : getPmlIndex level virt = virt / 2 ^ (12 + level * 9) % 512 := by
  unfold getPmlIndex
  rw [Nat.shiftRight_eq_div_pow, show (0x1FF : Nat) = 2 ^ 9 - 1 from rfl, Nat.and_two_pow_sub_one_eq_mod]

theorem getPmlIndex_lt (level virt : Nat) : getPmlIndex level virt < 512 := by
  rw [getPmlIndex_eq]
  exact Nat.mod_lt _ (by norm_num)

/-- The address `ForkProcessMap` builds has the indices it is built from. -/
theorem forkVirt_indices {i j k : Nat} (hi : i < 512) (hj : j < 512) (hk : k < 512) :
    getPml3Index ((k <<< 12) ||| (j <<< 21) ||| (i <<< 30)) = i ∧
      getPml2Index ((k <<< 12) ||| (j <<< 21) ||| (i <<< 30)) = j ∧
      getPml1Index ((k <<< 12) ||| (j <<< 21) ||| (i <<< 30)) = k := by
  have h1 : (k <<< 12) ||| (j <<< 21) = j * 2 ^ 21 + k * 2 ^ 12 := by
    have h := Nat.shiftLeft_add_eq_or_of_lt (i := 21) (b := k * 2 ^ 12) (by omega) j
    rw [Nat.shiftLeft_eq k, Nat.or_comm, ← h, Nat.shiftLeft_eq]
  have h2 : (k <<< 12) ||| (j <<< 21) ||| (i <<< 30) = i * 2 ^ 30 + (j * 2 ^ 21 + k * 2 ^ 12) := by
    have h := Nat.shiftLeft_add_eq_or_of_lt (i := 30) (b := j * 2 ^ 21 + k * 2 ^ 12) (by omega) i
    rw [h1, Nat.or_comm, ← h, Nat.shiftLeft_eq]
  rw [h2]
  unfold getPml3Index getPml2Index getPml1Index
  rw [getPmlIndex_eq, getPmlIndex_eq, getPmlIndex_eq]
  norm_num
  omega

/-! ## 4. The tree of a map -/

/-- In how many places of the tree of height `n` at `t` the page `p` stands: as a table page, or as
    the frame behind a leaf entry. -/
def uses (m : Mem) : (n t p : Nat) → Nat
  | 0, t, p => if p = t then 1 else 0
  | n + 1, t, p =>
      (if p = t then 1 else 0) +
        ∑ i ∈ Finset.range 512,
          if pmlGetP (entry m t i) then uses m n (pmlGetAddr (entry m t i)) p else 0

/-- The same for the table pages alone. -/
def tables (m : Mem) : (n t p : Nat) → Nat
  | 0, _, _ => 0
  | n + 1, t, p =>
      (if p = t then 1 else 0) +
        ∑ i ∈ Finset.range 512,
          if pmlGetP (entry m t i) then tables m n (pmlGetAddr (entry m t i)) p else 0

/-- Through one entry of a table whose children have height `n`. -/
def usesVia (m : Mem) (n e p : Nat) : Nat := if pmlGetP e then uses m n (pmlGetAddr e) p else 0

def tablesVia (m : Mem) (n e p : Nat) : Nat :=
  if pmlGetP e then tables m n (pmlGetAddr e) p else 0

theorem uses_succ (m : Mem) (n t p : Nat) : uses m (n + 1) t p =
    (if p = t then 1 else 0) + ∑ i ∈ Finset.range 512, usesVia m n (entry m t i) p := rfl

theorem tables_succ (m : Mem) (n t p : Nat) : tables m (n + 1) t p =
    (if p = t then 1 else 0) + ∑ i ∈ Finset.range 512, tablesVia m n (entry m t i) p := rfl

/-- The node a path of indices leads to. -/
def follow (m : Mem) : (path : List Nat) → (t : Nat) → Option Nat
  | [], t => some t
  | i :: path, t =>
      if pmlGetP (entry m t i) then follow m path (pmlGetAddr (entry m t i)) else none

/-- The cells of page `q` are the same. -/
def SamePage (m m' : Mem) (q : Nat) : Prop :=
  ∀ a, physToKernelPtr q ≤ a → a < physToKernelPtr q + 4096 → m' a = m a

section Tree

variable {m m' : Mem}

theorem SamePage.entry {q i : Nat} (h : SamePage m m' q) (hi : i < 512) :
    entry m' q i = entry m q i :=
  h _ (by unfold cell; omega) (by unfold cell; omega)

theorem tables_le_uses (n t p : Nat) : tables m n t p ≤ uses m n t p := by
  induction n generalizing t with
  | zero => exact Nat.zero_le _
  | succ n ih =>
      rw [tables_succ, uses_succ]
      refine Nat.add_le_add_left (Finset.sum_le_sum fun i _ => ?_) _
      unfold tablesVia usesVia
      split_ifs
      · exact ih _
      · exact le_rfl

/-- The part of a tree under one entry. -/
theorem usesVia_le {n t i : Nat} (hi : i < 512) (p : Nat) :
    (if p = t then 1 else 0) + usesVia m n (entry m t i) p ≤ uses m (n + 1) t p := by
  rw [uses_succ]
  refine Nat.add_le_add_left ?_ _
  exact Finset.single_le_sum (f := fun j => usesVia m n (entry m t j) p) (fun _ _ => Nat.zero_le _)
    (Finset.mem_range.mpr hi)

/-- **A tree is read from its table pages.** -/
theorem uses_congr {n t : Nat} (h : ∀ q, 0 < tables m n t q → SamePage m m' q) :
    (∀ p, uses m' n t p = uses m n t p) ∧ (∀ p, tables m' n t p = tables m n t p) ∧
      ∀ path, (∀ i ∈ path, i < 512) → path.length ≤ n → follow m' path t = follow m path t := by
  induction n generalizing t with
  | zero =>
      refine ⟨fun _ => rfl, fun _ => rfl, fun path _ hl => ?_⟩
      rw [List.length_eq_zero_iff.mp (Nat.le_zero.mp hl)]
      rfl
  | succ n ih =>
      have ht : SamePage m m' t := h t (by rw [tables_succ, if_pos rfl]; omega)
      have hent : ∀ i, i < 512 → entry m' t i = entry m t i := fun i hi => ht.entry hi
      have hsub : ∀ i, i < 512 → pmlGetP (entry m t i) = true →
          ∀ q, 0 < tables m n (pmlGetAddr (entry m t i)) q → SamePage m m' q := by
        intro i hi hp q hq
        have hle := Finset.single_le_sum (f := fun j => tablesVia m n (entry m t j) q)
          (fun _ _ => Nat.zero_le _) (Finset.mem_range.mpr hi)
        simp only [tablesVia, hp, if_true] at hle
        refine h q ?_
        rw [tables_succ]
        simp only [tablesVia]
        omega
      refine ⟨fun p => ?_, fun p => ?_, fun path hpath hl => ?_⟩
      · have hsum : ∀ i ∈ Finset.range 512,
            usesVia m' n (entry m' t i) p = usesVia m n (entry m t i) p := fun i hi => by
          have hi := Finset.mem_range.mp hi
          unfold usesVia
          rw [hent i hi]
          split_ifs with hp
          · exact (ih (hsub i hi hp)).1 p
          · rfl
        rw [uses_succ, uses_succ, Finset.sum_congr rfl hsum]
      · have hsum : ∀ i ∈ Finset.range 512,
            tablesVia m' n (entry m' t i) p = tablesVia m n (entry m t i) p := fun i hi => by
          have hi := Finset.mem_range.mp hi
          unfold tablesVia
          rw [hent i hi]
          split_ifs with hp
          · exact (ih (hsub i hi hp)).2.1 p
          · rfl
        rw [tables_succ, tables_succ, Finset.sum_congr rfl hsum]
      · cases path with
        | nil => rfl
        | cons i path =>
            have hi := hpath i List.mem_cons_self
            unfold follow
            rw [hent i hi]
            split_ifs with hp
            · exact (ih (hsub i hi hp)).2.2 path
                (fun j hj => hpath j (List.mem_cons_of_mem _ hj)) (by simpa using hl)
            · rfl

theorem follow_append (m : Mem) (a b : List Nat) (t : Nat) :
    follow m (a ++ b) t = (follow m a t).bind (follow m b) := by
  induction a generalizing t with
  | nil => rfl
  | cons i a ih =>
      simp only [List.cons_append, follow]
      split_ifs
      · exact ih _
      · rfl

/-- Every page of a tree is aligned, if its root is. -/
theorem uses_aligned {n t q : Nat} (ht : 4096 ∣ t) (h : 0 < uses m n t q) : 4096 ∣ q := by
  induction n generalizing t with
  | zero =>
      unfold uses at h
      split_ifs at h with hq
      · exact hq ▸ ht
      · exact absurd h (lt_irrefl 0)
  | succ n ih =>
      rw [uses_succ] at h
      by_cases hq : q = t
      · exact hq ▸ ht
      · rw [if_neg hq, zero_add] at h
        obtain ⟨i, -, hi⟩ := Finset.exists_ne_zero_of_sum_ne_zero (Nat.pos_iff_ne_zero.mp h)
        unfold usesVia at hi
        split_ifs at hi with hp
        · exact ih (pmlGetAddr_facts _).1 (Nat.pos_of_ne_zero hi)
        · exact absurd rfl hi

/-- A path of tables ends in a table of the tree. -/
theorem follow_tables {path : List Nat} {n t c : Nat} (hpath : ∀ i ∈ path, i < 512)
    (h : follow m path t = some c) : 0 < tables m (path.length + n + 1) t c := by
  induction path generalizing t with
  | nil =>
      cases h
      rw [List.length_nil, Nat.zero_add, tables_succ, if_pos rfl]
      omega
  | cons i path ih =>
      unfold follow at h
      split_ifs at h with hp
      have hrec := ih (fun j hj => hpath j (List.mem_cons_of_mem _ hj)) h
      have hle := Finset.single_le_sum
        (f := fun j => tablesVia m (path.length + n + 1) (entry m t j) c)
        (fun _ _ => Nat.zero_le _) (Finset.mem_range.mpr (hpath i List.mem_cons_self))
      simp only [tablesVia, hp, if_true] at hle
      rw [List.length_cons, show path.length + 1 + n + 1 = path.length + n + 1 + 1 from by omega,
        tables_succ]
      simp only [tablesVia]
      omega

/-- A write to an entry of one table is no write to another page. -/
theorem samePage_set {c i q v : Nat} (hc : 4096 ∣ c) (hq : 4096 ∣ q) (hne : q ≠ c) (hi : i < 512) :
    SamePage m (Function.update m (cell c i) v) q := by
  intro a h1 h2
  refine Function.update_of_ne ?_ _ _
  unfold cell physToKernelPtr at *
  omega

/-- A sum in which one term grows by `d`. -/
theorem sum_bump {f g : Nat → Nat} {i d : Nat} (hi : i < 512) (hd : g i = f i + d)
    (h : ∀ j, j < 512 → j ≠ i → g j = f j) :
    ∑ j ∈ Finset.range 512, g j = ∑ j ∈ Finset.range 512, f j + d := by
  have hsum := sum_range_update f g hi h
  omega

/-- A tree without sharing has the part under one entry to itself. -/
theorem usesVia_once {n t i j q : Nat} (hone : uses m (n + 1) t q ≤ 1) (hi : i < 512) (hj : j < 512)
    (hne : i ≠ j) (h : 0 < usesVia m n (entry m t i) q) :
    q ≠ t ∧ usesVia m n (entry m t j) q = 0 := by
  rw [uses_succ] at hone
  have hsum := Finset.add_sum_erase (Finset.range 512) (fun j => usesVia m n (entry m t j) q)
    (Finset.mem_range.mpr hi)
  have hle := Finset.single_le_sum (f := fun j => usesVia m n (entry m t j) q)
    (fun _ _ => Nat.zero_le _) (Finset.mem_erase.mpr ⟨Ne.symm hne, Finset.mem_range.mpr hj⟩)
  refine ⟨fun e => ?_, ?_⟩
  · rw [if_pos e] at hone
    omega
  · omega

/-- Between the two memories only what stands under entry `i` of the table `t` differs. -/
structure Elsewhere (m m' : Mem) (n t i : Nat) : Prop where
  entry : ∀ j, j < 512 → j ≠ i → entry m' t j = entry m t j
  tables : ∀ j, j < 512 → j ≠ i → pmlGetP (MemoryManager.entry m t j) = true →
    ∀ q, 0 < MemoryManager.tables m n (pmlGetAddr (MemoryManager.entry m t j)) q → SamePage m m' q

/-- The table uses what it used, and what its entry `i` has got. -/
theorem Elsewhere.uses {n t i p d : Nat} (h : Elsewhere m m' n t i) (hi : i < 512)
    (hd : usesVia m' n (MemoryManager.entry m' t i) p = usesVia m n (MemoryManager.entry m t i) p + d) :
    MemoryManager.uses m' (n + 1) t p = MemoryManager.uses m (n + 1) t p + d := by
  have hbump := sum_bump (f := fun j => usesVia m n (MemoryManager.entry m t j) p)
    (g := fun j => usesVia m' n (MemoryManager.entry m' t j) p) (d := d) hi hd fun j hj hji => by
      simp only [h.entry j hj hji, usesVia]
      split_ifs with hp
      · exact (uses_congr (h.tables j hj hji hp)).1 p
      · rfl
  rw [uses_succ, uses_succ, hbump]
  exact (Nat.add_assoc _ _ _).symm

/-- A path through another entry leads where it led. -/
theorem Elsewhere.follow {n t i k : Nat} {π : List Nat} (h : Elsewhere m m' n t i) (hk : k < 512) (hki : k ≠ i)
    (hπ : ∀ j ∈ π, j < 512) (hl : π.length ≤ n) :
    MemoryManager.follow m' (k :: π) t = MemoryManager.follow m (k :: π) t := by
  unfold MemoryManager.follow
  rw [h.entry k hk hki]
  split_ifs with hp
  · exact (uses_congr (h.tables k hk hki hp)).2.2 π hπ hl
  · rfl

/-- A write to the table itself, -/
theorem elsewhere_self {n t i v : Nat} (ht : 4096 ∣ t) (hi : i < 512) (hone : ∀ q, uses m (n + 1) t q ≤ 1) :
    Elsewhere m (Function.update m (cell t i) v) n t i := by
  refine ⟨fun j _ hji => Function.update_of_ne (by unfold cell; omega) _ _, fun j hj _ hp q hq => ?_⟩
  have hu := lt_of_lt_of_le hq (tables_le_uses n _ q)
  have hqt : q ≠ t := by
    rintro rfl
    have hle := usesVia_le (m := m) (n := n) (t := q) hj q
    have := hone q
    simp only [usesVia, hp, if_true] at hle
    omega
  exact samePage_set ht (uses_aligned (pmlGetAddr_facts _).1 hu) hqt hi

/-- and one to a table that is used under entry `j`, hence not at `t` and under no other entry. -/
theorem elsewhere_under {n t c i j v : Nat} (ht : 4096 ∣ t) (hi : i < 512) (hj : j < 512)
    (hone : ∀ q, uses m (n + 1) t q ≤ 1) (hc : 0 < usesVia m n (entry m t j) c) :
    Elsewhere m (Function.update m (cell c i) v) n t j ∧
      entry (Function.update m (cell c i) v) t j = entry m t j := by
  have hcal : 4096 ∣ c := by
    unfold usesVia at hc
    split_ifs at hc with hp
    · exact uses_aligned (pmlGetAddr_facts _).1 hc
    · cases hc
  have hct : t ≠ c := by
    rintro rfl
    have hle := usesVia_le (m := m) (n := n) (t := t) hj t
    rw [if_pos rfl] at hle
    have := hone t
    omega
  have hent : ∀ k, k < 512 → entry (Function.update m (cell c i) v) t k = entry m t k := fun k hk =>
    (samePage_set hcal ht hct hi).entry hk
  refine ⟨⟨fun k hk _ => hent k hk, fun k hk hkj hp q hq => ?_⟩, hent j hj⟩
  have hu := lt_of_lt_of_le hq (tables_le_uses _ _ q)
  have hqc : q ≠ c := by
    rintro rfl
    have := (usesVia_once (hone q) hj hk (Ne.symm hkj) hc).2
    unfold usesVia at this
    rw [if_pos hp] at this
    omega
  exact samePage_set hcal (uses_aligned (pmlGetAddr_facts _).1 hu) hqc hi

/-- **One new entry.** In a tree without sharing, `path` leads from `t` to a table `c` whose entry
    `i` is not present; writing `v` there adds what stands under `v`, and changes nothing on the
    paths that do not run through the new entry. -/
theorem uses_link {path : List Nat} {n t c i v : Nat} (ht : 4096 ∣ t)
    (hpath : ∀ j ∈ path, j < 512) (hi : i < 512)
    (hone : ∀ q, uses m (path.length + n + 1) t q ≤ 1) (hf : follow m path t = some c)
    (habs : pmlGetP (entry m c i) = false) (hm : m' = Function.update m (cell c i) v) :
    (∀ p, uses m' (path.length + n + 1) t p =
        uses m (path.length + n + 1) t p + usesVia m' n v p) ∧
      ∀ π, (∀ j ∈ π, j < 512) → π.length ≤ path.length + n + 1 → ¬ path ++ [i] <+: π →
        follow m' π t = follow m π t := by
  induction path generalizing t with
  | nil =>
      obtain rfl : t = c := Option.some.inj hf
      simp only [List.length_nil, Nat.zero_add] at hone ⊢
      have hti : entry m' t i = v := by rw [hm]; exact Function.update_self _ _ _
      have helse : Elsewhere m m' n t i := hm ▸ elsewhere_self ht hi hone
      refine ⟨fun p => helse.uses hi (by simp [hti, usesVia, habs]), fun π hπ hl hno => ?_⟩
      cases π with
      | nil => rfl
      | cons k π =>
          have hki : k ≠ i := by
            rintro rfl
            exact hno (by simp)
          exact helse.follow (hπ k List.mem_cons_self) hki (fun j hj => hπ j (List.mem_cons_of_mem _ hj))
            (by simpa using hl)
  | cons j path ih =>
      have hj := hpath j List.mem_cons_self
      have hpath' : ∀ k ∈ path, k < 512 := fun k hk => hpath k (List.mem_cons_of_mem _ hk)
      unfold follow at hf
      split_ifs at hf with hpj
      have hlen : (j :: path).length + n + 1 = path.length + n + 1 + 1 := by
        rw [List.length_cons]
        omega
      rw [hlen] at hone ⊢
      have hcu : 0 < usesVia m (path.length + n + 1) (entry m t j) c := by
        unfold usesVia
        rw [if_pos hpj]
        exact lt_of_lt_of_le (follow_tables (n := n) hpath' hf) (tables_le_uses _ _ _)
      obtain ⟨helse, hent⟩ : Elsewhere m m' (path.length + n + 1) t j ∧ entry m' t j = entry m t j :=
        hm ▸ elsewhere_under ht hi hj hone hcu
      have honej : ∀ q, uses m (path.length + n + 1) (pmlGetAddr (entry m t j)) q ≤ 1 := fun q => by
        have hle := usesVia_le (m := m) (n := path.length + n + 1) (t := t) hj q
        have := hone q
        unfold usesVia at hle
        rw [if_pos hpj] at hle
        omega
      obtain ⟨ih1, ih2⟩ := ih (pmlGetAddr_facts _).1 hpath' honej hf
      refine ⟨fun p => helse.uses hj ?_, fun π hπ hl hno => ?_⟩
      · rw [hent, usesVia, usesVia, if_pos hpj, if_pos hpj]
        exact ih1 p
      · cases π with
        | nil => rfl
        | cons k π =>
            have hπ' : ∀ j ∈ π, j < 512 := fun j hj => hπ j (List.mem_cons_of_mem _ hj)
            have hl' : π.length ≤ path.length + n + 1 := by simpa using hl
            by_cases hkj : k = j
            · subst hkj
              unfold follow
              rw [hent, if_pos hpj, if_pos hpj]
              refine ih2 π hπ' hl' fun hpre => hno ?_
              rw [List.cons_append]
              exact List.cons_prefix_cons.mpr ⟨rfl, hpre⟩
            · exact helse.follow (hπ k List.mem_cons_self) hkj hπ' hl'

end Tree

end MemoryManager

end SimpleOS2
