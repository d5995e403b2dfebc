/-
  File:      SimpleOS2/Memory/KernelSpace.lean
  Subject:   THE KERNEL'S HALF OF EVERY ADDRESS SPACE (memory/MemoryManager.cpp: Init, InitCore, SwitchProcessMap,
             MapKernelPage, DisableChacheOnLargePage, EnableWriteCombineOnLargePage).

  Each core has a PML4 of its own. Entry 511 points to the tables of the boot loader, entry 510 to the tables of the
  heap, which all cores share, and entry 0 to the process. The kernel reaches the tables through the tables: a pointer
  is a physical address above `g_HighMemBase`, and the core walks its own PML4 for it.

  * `load`, `store` -- an access of a core, through its own tables; `exec` -- the functions, in these accesses;
  * `Role` -- what a page is a table for; `SpaceInv` -- each table holds what its role says, and roles share no page;
  * `SpaceInv.load`, `SpaceInv.write` -- a kernel pointer leads to its page, a store elsewhere harms no table;
  * `kernel_space` -- in every run, on every core: all memory at its place, the heap as it was mapped on any core, and
    the process that the core has switched to; and none of the functions ever touches a page that is not there.
-/
import SimpleOS2.Bootloader.Paging

namespace SimpleOS2

open Lib

namespace KernelSpace

open MemoryManager Paging

/-! ## 1. Accesses and functions -/

/-- What a page of the kernel is a table for: the PML4 of a core, or a table of the heap, by the indices that lead
    to it. -/
inductive Role (n : Nat)
  | pml4 (c : Fin n)
  | heap (path : List Nat)
  deriving DecidableEq

/-- The kernel. `page` is history: the pages that were made tables. So are `mapped`, the calls of `MapKernelPage` by
    the indices of their addresses, and `process`, the last map that a core switched to. -/
structure Sys (n : Nat) where
  words : Words
  cr3 : Fin n → Nat
  corePageTables : Fin n → Nat
  /-- `g_KernelPages` and `g_KernelVPages`, behind `Init` -/
  kernel : Option (Nat × Nat)
  page : Role n → Option Nat
  mapped : List Nat → Option Nat
  process : Fin n → Nat

section Accesses

variable {n : Nat}

/-- A core reads and writes a word through its own tables; `none` is a page fault. -/
def load (s : Sys n) (c : Fin n) (virt : Nat) : Option Nat := (pageWalk s.words (s.cr3 c) virt).map s.words

def store (s : Sys n) (c : Fin n) (virt x : Nat) : Option (Sys n) :=
  (pageWalk s.words (s.cr3 c) virt).map fun a => { s with words := Function.update s.words a x }

/-- `for(int i = 0; i < 512; i++) table[i] = 0`. -/
def clear (c : Fin n) (table : Nat) (s : Sys n) : Option (Sys n) :=
  forLoop (fun i s => store s c (table + 8 * i) 0) 512 0 s

def Sys.setPage (s : Sys n) (r : Role n) (p : Nat) : Sys n := { s with page := Function.update s.page r (some p) }

/-- The page is free for a table: no table is there, nor are the boot loader's. -/
def Fresh (b : Nat) (s : Sys n) (p : Nat) : Prop :=
  4096 ∣ p ∧ p + 4096 ≤ 2 ^ 39 ∧ (p + 4096 ≤ b ∨ b + bufferPages * 4096 ≤ p) ∧ ∀ r, s.page r ≠ some p

/-- `Init`, once the allocator works; `p` is the page it gets. -/
def init (b : Nat) (s : Sys n) (c : Fin n) (p : Nat) : Option (Sys n) :=
  (load s c (convertPtr b + 8 * 511)).bind fun e =>
    (clear c (physToKernelPtr p) s).map fun s =>
      { s.setPage (.heap []) p with kernel := some (physToKernelPtr (pmlGetAddr e), physToKernelPtr p) }

/-- `InitCore`. -/
def initCore (s : Sys n) (c : Fin n) (p : Nat) : Option (Sys n) :=
  s.kernel.bind fun k =>
    let pml4 := physToKernelPtr p
    (clear c pml4 s).bind fun s =>
      (store s c (pml4 + 8 * 511) (pmlKernelEntry (kernelToPhysPtr k.1))).bind fun s =>
        (store s c (pml4 + 8 * 510) (pmlKernelEntry (kernelToPhysPtr k.2))).map fun s =>
          { s.setPage (.pml4 c) p with
            corePageTables := Function.update s.corePageTables c pml4
            cr3 := Function.update s.cr3 c (kernelToPhysPtr pml4)
            process := Function.update s.process c 0 }

def switchProcessMap (s : Sys n) (c : Fin n) (pml4Entry : Nat) : Option (Sys n) :=
  let myPML4 := s.corePageTables c
  (store s c myPML4 pml4Entry).map fun s =>
    { s with
      cr3 := Function.update s.cr3 c (kernelToPhysPtr myPML4)
      process := Function.update s.process c pml4Entry }

/-- The table behind an entry, or a new one on the page `p`; `path` leads to it. -/
def nextTable (s : Sys n) (c : Fin n) (table i p : Nat) (path : List Nat) : Option (Sys n × Nat) :=
  (load s c (table + 8 * i)).bind fun e =>
    if pmlGetP e then some (s, physToKernelPtr (pmlGetAddr e))
    else
      (clear c (physToKernelPtr p) s).bind fun s =>
        (store s c (table + 8 * i) (pmlKernelEntry (kernelToPhysPtr (physToKernelPtr p)))).map fun s =>
          (s.setPage (.heap path) p, physToKernelPtr p)

/-- `MapKernelPage`; `p` and `q` are the pages the allocator has for new tables. -/
def mapKernelPage (s : Sys n) (c : Fin n) (phys virt p q : Nat) : Option (Sys n) :=
  (load s c (s.corePageTables c + 8 * getPml4Index virt)).bind fun e4 =>
    let pml3 := physToKernelPtr (pmlGetAddr e4)
    (nextTable s c pml3 (getPml3Index virt) p [getPml3Index virt]).bind fun r =>
      (nextTable r.1 c r.2 (getPml2Index virt) q (walkPath virt)).bind fun r =>
        (store r.1 c (r.2 + 8 * getPml1Index virt) (pmlKernelEntry phys)).map fun s =>
          { s with mapped := Function.update s.mapped (leafPath virt) (some phys) }

/-- `DisableChacheOnLargePage` and `EnableWriteCombineOnLargePage`: flags into the entry of a large page. -/
def setFlags (s : Sys n) (c : Fin n) (virt flags : Nat) : Option (Sys n) :=
  (load s c (s.corePageTables c + 8 * getPml4Index virt)).bind fun e4 =>
    (load s c (physToKernelPtr (pmlGetAddr e4) + 8 * getPml3Index virt)).bind fun e3 =>
      let pml2 := physToKernelPtr (pmlGetAddr e3)
      (load s c (pml2 + 8 * getPml2Index virt)).bind fun e2 =>
        store s c (pml2 + 8 * getPml2Index virt) (e2 ||| flags)

def disableChacheOnLargePage (s : Sys n) (c : Fin n) (virt : Nat) : Option (Sys n) := setFlags s c virt 0x10

def enableWriteCombineOnLargePage (s : Sys n) (c : Fin n) (virt : Nat) : Option (Sys n) := setFlags s c virt (1 <<< 12)

end Accesses

/-! ## 2. Runs -/

inductive Event (n : Nat)
  | init (c : Fin n) (p : Nat)
  | initCore (c : Fin n) (p : Nat)
  | switchProcessMap (c : Fin n) (pml4Entry : Nat)
  | mapKernelPage (c : Fin n) (phys virt p q : Nat)
  | disableChache (c : Fin n) (virt : Nat)
  | enableWriteCombine (c : Fin n) (virt : Nat)
  /-- any other store of the kernel, at the physical address `a` -/
  | write (c : Fin n) (a x : Nat)

section Runs

variable {n : Nat}

def exec (b : Nat) (s : Sys n) : Event n → Option (Sys n)
  | .init c p => init b s c p
  | .initCore c p => initCore s c p
  | .switchProcessMap c pml4Entry => switchProcessMap s c pml4Entry
  | .mapKernelPage c phys virt p q => mapKernelPage s c phys virt p q
  | .disableChache c virt => disableChacheOnLargePage s c virt
  | .enableWriteCombine c virt => enableWriteCombineOnLargePage s c virt
  | .write c a x => store s c (physToKernelPtr a) x

/-- `InitCore` has run on the core. -/
def Ready (s : Sys n) (c : Fin n) : Prop := s.page (.pml4 c) ≠ none

/-- The address is in no table. -/
def Free (b : Nat) (s : Sys n) (a : Nat) : Prop :=
  (a < b ∨ b + bufferPages * 4096 ≤ a) ∧ ∀ r p, s.page r = some p → a < p ∨ p + 4096 ≤ a

/-- Where the functions are called: `Init` first, `InitCore` before the others on a core, heap addresses for
    `MapKernelPage`, addresses of the direct map for the flags; the pages given to tables are fresh, and what else the
    kernel writes is no table. -/
def Called (b : Nat) (s : Sys n) : Event n → Prop
  | .init _ p => s.kernel = none ∧ Fresh b s p
  | .initCore c p => s.kernel ≠ none ∧ ¬ Ready s c ∧ Fresh b s p
  | .switchProcessMap c _ => Ready s c
  | .mapKernelPage c phys virt p q =>
      Ready s c ∧ getPml4Index virt = 510 ∧ (4096 ∣ phys ∧ phys < 2 ^ 52) ∧ Fresh b s p ∧ Fresh b s q ∧ p ≠ q
  | .disableChache c virt | .enableWriteCombine c virt => Ready s c ∧ getPml4Index virt = 511
  | .write _ a _ => a < 2 ^ 39 ∧ Free b s a

def spaceStep (b : Nat) (s : Sys n) (e : Event n) (s' : Sys n) : Prop := Called b s e ∧ exec b s e = some s'

/-- What the boot loader hands over: its tables at `b`, which all cores start with. -/
structure Start (b : Nat) (s : Sys n) : Prop where
  words : ∃ m, s.words = Paging.init b m
  cr3 : ∀ c, s.cr3 c = b
  kernel : s.kernel = none
  page : ∀ r, s.page r = none
  mapped : ∀ x, s.mapped x = none

end Runs

/-! ## 3. The invariant -/

section Invariant

variable {n : Nat}

/-- A table or, behind three indices, the frame of a page. -/
def Sys.node (s : Sys n) (path : List Nat) : Option Nat :=
  if path.length < 3 then s.page (.heap path) else s.mapped path

/-- The entry for a node, or none. -/
def link : Option Nat → Nat
  | none => 0
  | some p => pmlKernelEntry p

/-- A page below 512 GB that is none of the boot loader's. -/
structure TablePage (b p : Nat) : Prop where
  aligned : 4096 ∣ p
  below : p + 4096 ≤ 2 ^ 39
  apart : p + 4096 ≤ b ∨ b + bufferPages * 4096 ≤ p

/-- What a core has that `InitCore` has run on; `p` is its PML4. -/
structure CoreTables (b : Nat) (s : Sys n) (c : Fin n) (p : Nat) : Prop where
  cr3 : s.cr3 c = p
  pointer : s.corePageTables c = physToKernelPtr p
  direct : s.words (p + 8 * 511) = pmlKernelEntry (b + 8 * 512)
  heap : ∃ h, s.page (.heap []) = some h ∧ s.words (p + 8 * 510) = pmlKernelEntry h
  process : s.words p = s.process c

structure SpaceInv (b : Nat) (s : Sys n) : Prop where
  tables : DirectTables b s.words
  boot : s.words (b + 8 * 511) = pmlKernelEntry (b + 8 * 512)
  pages : ∀ r p, s.page r = some p → TablePage b p
  distinct : ∀ r r' p, s.page r = some p → s.page r' = some p → r = r'
  kernel : s.kernel = (s.page (.heap [])).map fun h => (physToKernelPtr (b + 8 * 512), physToKernelPtr h)
  boots : ∀ c, s.page (.pml4 c) = none → s.cr3 c = b
  cores : ∀ c p, s.page (.pml4 c) = some p → CoreTables b s c p
  links : ∀ path t, s.page (.heap path) = some t → ∀ i, i < 512 → s.words (t + 8 * i) = link (s.node (path ++ [i]))
  up : ∀ path i, s.node (path ++ [i]) ≠ none → s.page (.heap path) ≠ none
  short : ∀ path, s.page (.heap path) ≠ none → path.length < 3
  frames : ∀ path f, s.mapped path = some f → 4096 ∣ f ∧ f < 2 ^ 52

variable {b : Nat} {s s' : Sys n} {c : Fin n} {m' : Words}

/-! Cells of different tables. -/

theorem not_free_table {r : Role n} {p i : Nat} (hp : s.page r = some p) (hi : i < 512) :
    ¬ Free b s (p + 8 * i) := by
  intro hf
  have := hf.2 r p hp
  omega

theorem not_free_buffer {i : Nat} (hi : i < bufferPages * 512) : ¬ Free b s (b + 8 * i) := by
  intro hf
  have := hf.1
  unfold bufferPages at *
  omega

theorem SpaceInv.cell_ne (h : SpaceInv b s) {r r' : Role n} {p t i j : Nat} (hp : s.page r = some p)
    (ht : s.page r' = some t) (hne : r ≠ r') (hi : i < 512) (hj : j < 512) : p + 8 * i ≠ t + 8 * j := by
  obtain ⟨x, rfl⟩ := (h.pages r p hp).aligned
  obtain ⟨y, rfl⟩ := (h.pages r' t ht).aligned
  have hxy : x ≠ y := fun hxy => hne (h.distinct r r' _ hp (hxy ▸ ht))
  omega

/-- A fresh page holds no cell of a table. -/
theorem Fresh.free (h : SpaceInv b s) {p a : Nat} (hp : Fresh b s p) (h1 : p ≤ a) (h2 : a < p + 4096) : Free b s a := by
  obtain ⟨⟨x, rfl⟩, -, hb, hr⟩ := hp
  refine ⟨by omega, fun r q hq => ?_⟩
  obtain ⟨y, rfl⟩ := (h.pages r q hq).aligned
  have hxy : x ≠ y := fun hxy => hr r (hxy ▸ hq)
  omega

theorem Fresh.page {p : Nat} (hp : Fresh b s p) : TablePage b p := ⟨hp.1, hp.2.1, hp.2.2.1⟩

/-- **A store that is in no table harms none.** -/
theorem SpaceInv.write (h : SpaceInv b s) (hm : ∀ a, ¬ Free b s a → m' a = s.words a) :
    SpaceInv b { s with words := m' } := by
  have hbuf : ∀ i, i < bufferPages * 512 → m' (b + 8 * i) = s.words (b + 8 * i) := fun i hi => hm _ (not_free_buffer hi)
  unfold bufferPages at hbuf
  have hcell : ∀ r p i, s.page r = some p → i < 512 → m' (p + 8 * i) = s.words (p + 8 * i) :=
    fun r p i hp hi => hm _ (not_free_table hp hi)
  refine ⟨⟨fun i hi => ?_, fun i hi => ?_⟩, ?_, h.pages, h.distinct, h.kernel, h.boots, fun c p hp => ?_,
    fun path t ht i hi => ?_, h.up, h.short, h.frames⟩
  · exact (hbuf _ (by omega)).trans (h.tables.pml3 i hi)
  · show LargePage i (m' (b + 8 * (1024 + i)))
    rw [hbuf _ (by omega)]
    exact h.tables.pml2 i hi
  · exact (hbuf 511 (by omega)).trans h.boot
  · have hc := h.cores c p hp
    obtain ⟨t, ht, hw⟩ := hc.heap
    exact ⟨hc.cr3, hc.pointer, (hcell _ p 511 hp (by omega)).trans hc.direct,
      ⟨t, ht, (hcell _ p 510 hp (by omega)).trans hw⟩, (hcell _ p 0 hp (by omega)).trans hc.process⟩
  · exact (hcell _ t i ht hi).trans (h.links path t ht i hi)

/-! Accesses. -/

theorem physToKernelPtr_add (a x : Nat) : physToKernelPtr a + x = physToKernelPtr (a + x) := by
  unfold physToKernelPtr
  omega

theorem kernelToPhysPtr_physToKernelPtr (a : Nat) : kernelToPhysPtr (physToKernelPtr a) = a := Nat.add_sub_cancel _ _

/-- The PML4 that a core uses has the tables of all the memory. -/
theorem SpaceInv.cr3_direct (h : SpaceInv b s) (c : Fin n) :
    s.words (s.cr3 c + 8 * 511) = pmlKernelEntry (b + 8 * 512) := by
  cases hp : s.page (.pml4 c) with
  | none => rw [h.boots c hp, h.boot]
  | some p =>
      have hc := h.cores c p hp
      rw [hc.cr3, hc.direct]

/-- **A kernel pointer leads to its address**, on every core. -/
theorem SpaceInv.walk (hb : Buffer b) (h : SpaceInv b s) (c : Fin n) {a : Nat} (ha : a < 2 ^ 39) :
    pageWalk s.words (s.cr3 c) (physToKernelPtr a) = some a := by
  have hbase := highMemBase_eq
  have hi : getPml4Index (physToKernelPtr a) = 511 := by
    unfold getPml4Index physToKernelPtr
    rw [getPmlIndex_eq, hbase]
    omega
  refine pageWalk_direct hb h.tables (by rw [hi]; exact h.cr3_direct c) ha ?_
  unfold physToKernelPtr
  rw [hbase]
  omega

theorem SpaceInv.load (hb : Buffer b) (h : SpaceInv b s) (c : Fin n) {a : Nat} (ha : a < 2 ^ 39) :
    load s c (physToKernelPtr a) = some (s.words a) := by
  unfold KernelSpace.load
  rw [h.walk hb c ha]
  rfl

theorem SpaceInv.store (hb : Buffer b) (h : SpaceInv b s) (c : Fin n) {a : Nat} (ha : a < 2 ^ 39) (x : Nat) :
    store s c (physToKernelPtr a) x = some { s with words := Function.update s.words a x } := by
  unfold KernelSpace.store
  rw [h.walk hb c ha]
  rfl

/-- A fresh page is cleared, and no table is touched. -/
theorem SpaceInv.clear (hb : Buffer b) (h : SpaceInv b s) (c : Fin n) {p : Nat} (hp : Fresh b s p) :
    ∃ m', clear c (physToKernelPtr p) s = some { s with words := m' } ∧ SpaceInv b { s with words := m' } ∧
      (∀ a, ¬ Free b s a → m' a = s.words a) ∧ ∀ i, i < 512 → m' (p + 8 * i) = 0 := by
  have hpage := hp.page
  obtain ⟨s', hs, m', rfl, hzero, hout⟩ := forLoop_ends (e := 512)
    (J := fun k s' => ∃ m', s' = { s with words := m' } ∧ (∀ i, i < k → m' (p + 8 * i) = 0) ∧
      ∀ a, ¬ Free b s a → m' a = s.words a)
    (f := fun i s => KernelSpace.store s c (physToKernelPtr p + 8 * i) 0)
    (fun i s' hi hJ => by
      obtain ⟨m', rfl, hzero, hout⟩ := hJ
      have hbelow := hpage.below
      refine ⟨_, ?_, Function.update m' (p + 8 * i) 0, rfl, fun j hj => ?_, fun a ha => ?_⟩
      · rw [physToKernelPtr_add]
        exact (h.write hout).store hb c (by omega) 0
      · by_cases hji : j = i
        · rw [hji, Function.update_self]
        · rw [Function.update_of_ne (by omega), hzero j (by omega)]
      · rw [Function.update_of_ne, hout a ha]
        rintro rfl
        exact ha (Fresh.free h hp (by omega) (by omega)))
    512 0 s rfl ⟨s.words, rfl, fun i hi => absurd hi (Nat.not_lt_zero i), fun _ _ => rfl⟩
  exact ⟨m', hs, h.write hout, hout, hzero⟩

/-! A new entry. -/

/-- What the entry `i` of the table at the end of `path` does not touch. -/
structure CellSet (b : Nat) (s : Sys n) (path : List Nat) (i : Nat) (m' : Words) : Prop where
  tables : DirectTables b m'
  boot : m' (b + 8 * 511) = pmlKernelEntry (b + 8 * 512)
  cores : ∀ c p j, s.page (.pml4 c) = some p → j < 512 → m' (p + 8 * j) = s.words (p + 8 * j)
  heap : ∀ path' t j, s.page (.heap path') = some t → j < 512 → path' ++ [j] ≠ path ++ [i] →
    m' (t + 8 * j) = s.words (t + 8 * j)

theorem SpaceInv.set_cell (h : SpaceInv b s) {path : List Nat} {t i : Nat} (ht : s.page (.heap path) = some t)
    (hi : i < 512) (x : Nat) : CellSet b s path i (Function.update s.words (t + 8 * i) x) := by
  have hpage := h.pages _ t ht
  have hbuf : ∀ j, j < 514 * 512 → Function.update s.words (t + 8 * i) x (b + 8 * j) = s.words (b + 8 * j) := by
    intro j hj
    have := hpage.apart
    unfold bufferPages at this
    exact Function.update_of_ne (by omega) _ _
  refine ⟨⟨fun j hj => (hbuf _ (by omega)).trans (h.tables.pml3 j hj), fun j hj => ?_⟩,
    (hbuf 511 (by omega)).trans h.boot, fun c p j hp hj => ?_, fun path' t' j ht' hj hne => ?_⟩
  · rw [hbuf _ (by omega)]
    exact h.tables.pml2 j hj
  · exact Function.update_of_ne (h.cell_ne hp ht (fun hr => by cases hr) hj hi) _ _
  · by_cases hpath : path' = path
    · subst hpath
      obtain rfl := Option.some.inj (ht'.symm.trans ht)
      have hji : j ≠ i := fun hji => hne (by rw [hji])
      exact Function.update_of_ne (by omega) _ _
    · exact Function.update_of_ne (h.cell_ne ht' ht (fun hr => hpath (Role.heap.inj hr)) hj hi) _ _

/-- The tables of the cores are as before. -/
theorem SpaceInv.cores_kept (h : SpaceInv b s) (hc3 : s'.cr3 = s.cr3) (hcp : s'.corePageTables = s.corePageTables)
    (hpr : s'.process = s.process) (hheap : ∀ t, s.page (.heap []) = some t → s'.page (.heap []) = some t)
    (hpml4 : ∀ c, s'.page (.pml4 c) = s.page (.pml4 c))
    (hw : ∀ c p j, s.page (.pml4 c) = some p → j < 512 → s'.words (p + 8 * j) = s.words (p + 8 * j)) (c : Fin n)
    (p : Nat) (hp : s'.page (.pml4 c) = some p) : CoreTables b s' c p := by
  rw [hpml4] at hp
  have hc := h.cores c p hp
  obtain ⟨t, ht, hte⟩ := hc.heap
  refine ⟨(congrFun hc3 c).trans hc.cr3, (congrFun hcp c).trans hc.pointer, (hw c p 511 hp (by omega)).trans hc.direct,
    ⟨t, hheap t ht, (hw c p 510 hp (by omega)).trans hte⟩, ?_⟩
  rw [hpr]
  exact (hw c p 0 hp (by omega)).trans hc.process

/-- A frame behind an entry of a PML1. -/
theorem SpaceInv.link_frame (h : SpaceInv b s) {path : List Nat} {t i phys : Nat} (ht : s.page (.heap path) = some t)
    (hlen : path.length = 2) (hi : i < 512) (hd : 4096 ∣ phys ∧ phys < 2 ^ 52) :
    SpaceInv b { s with
      words := Function.update s.words (t + 8 * i) (pmlKernelEntry phys)
      mapped := Function.update s.mapped (path ++ [i]) (some phys) } := by
  have hset := h.set_cell ht hi (pmlKernelEntry phys)
  have hplus : ∀ j, ¬ (path ++ [j]).length < 3 := fun j => by
    rw [List.length_append, List.length_singleton]
    omega
  have hnode : ∀ path', path' ≠ path ++ [i] → Sys.node { s with
      words := Function.update s.words (t + 8 * i) (pmlKernelEntry phys)
      mapped := Function.update s.mapped (path ++ [i]) (some phys) } path' = s.node path' := by
    intro path' hne
    unfold Sys.node
    dsimp only
    rw [Function.update_of_ne hne]
  refine ⟨hset.tables, hset.boot, h.pages, h.distinct, h.kernel, h.boots,
    h.cores_kept rfl rfl rfl (fun _ ht => ht) (fun _ => rfl) hset.cores, fun path' t' ht' j hj => ?_,
    fun path' j hup => ?_, h.short, fun path' f hf => ?_⟩
  · by_cases hne : path' ++ [j] = path ++ [i]
    · obtain ⟨rfl, hji⟩ := List.append_inj' hne rfl
      obtain rfl := List.singleton_inj.mp hji
      obtain rfl := Option.some.inj (ht'.symm.trans ht)
      unfold Sys.node
      dsimp only
      rw [if_neg (hplus j), Function.update_self, Function.update_self]
      rfl
    · rw [hnode _ hne, ← h.links path' t' ht' j hj]
      exact hset.heap path' t' j ht' hj hne
  · by_cases hne : path' ++ [j] = path ++ [i]
    · obtain ⟨rfl, -⟩ := List.append_inj' hne rfl
      show s.page (.heap path') ≠ none
      rw [ht]
      exact Option.some_ne_none t
    · rw [hnode _ hne] at hup
      exact h.up path' j hup
  · change Function.update s.mapped (path ++ [i]) (some phys) path' = some f at hf
    by_cases hne : path' = path ++ [i]
    · subst hne
      rw [Function.update_self] at hf
      exact Option.some.inj hf ▸ hd
    · rw [Function.update_of_ne hne] at hf
      exact h.frames path' f hf

/-- A page taken for the role `r` that no page had. -/
structure Taken (s : Sys n) (r : Role n) (p : Nat) : Prop where
  pages : ∀ r' q, Function.update s.page r (some p) r' = some q → s.page r' = some q ∧ r' ≠ r ∨ r' = r ∧ q = p
  keeps : ∀ r' q, s.page r' = some q → Function.update s.page r (some p) r' = some q
  others : ∀ r', r' ≠ r → Function.update s.page r (some p) r' = s.page r'

theorem taken {r : Role n} (hr : s.page r = none) (p : Nat) : Taken s r p := by
  refine ⟨fun r' q hq => ?_, fun r' q hq => ?_, fun r' hr' => Function.update_of_ne hr' _ _⟩
  · by_cases hr' : r' = r
    · rw [hr', Function.update_self] at hq
      exact Or.inr ⟨hr', (Option.some.inj hq).symm⟩
    · rw [Function.update_of_ne hr'] at hq
      exact Or.inl ⟨hq, hr'⟩
  · rw [Function.update_of_ne, hq]
    rintro rfl
    rw [hr] at hq
    cases hq

theorem Taken.page {r : Role n} {p : Nat} (ht : Taken s r p) (h : SpaceInv b s) (hp : Fresh b s p) (r' : Role n)
    (q : Nat) (hq : Function.update s.page r (some p) r' = some q) : TablePage b q := by
  rcases ht.pages r' q hq with ⟨hold, -⟩ | ⟨-, rfl⟩
  · exact h.pages r' q hold
  · exact hp.page

theorem Taken.distinct {r : Role n} {p : Nat} (ht : Taken s r p) (h : SpaceInv b s) (hp : Fresh b s p) (r₁ r₂ : Role n)
    (q : Nat) (hq : Function.update s.page r (some p) r₁ = some q)
    (hq' : Function.update s.page r (some p) r₂ = some q) : r₁ = r₂ := by
  rcases ht.pages r₁ q hq with ⟨hold, -⟩ | ⟨hr, hqp⟩
  · rcases ht.pages r₂ q hq' with ⟨hold', -⟩ | ⟨-, hqp⟩
    · exact h.distinct r₁ r₂ q hold hold'
    · exact absurd (hqp ▸ hold) (hp.2.2.2 r₁)
  · rcases ht.pages r₂ q hq' with ⟨hold', -⟩ | ⟨hr', -⟩
    · exact absurd (hqp ▸ hold') (hp.2.2.2 r₂)
    · exact hr.trans hr'.symm

/-- A new table on a fresh page that has been cleared, behind an entry that was empty. -/
theorem SpaceInv.link_table (h : SpaceInv b s) {path : List Nat} {t i p : Nat} (ht : s.page (.heap path) = some t)
    (hlen : path.length < 2) (hi : i < 512) (hp : Fresh b s p) (hzero : ∀ j, j < 512 → s.words (p + 8 * j) = 0)
    (habs : s.node (path ++ [i]) = none) :
    SpaceInv b ({ s with words := Function.update s.words (t + 8 * i) (pmlKernelEntry p) }.setPage
      (.heap (path ++ [i])) p) := by
  have hset := h.set_cell ht hi (pmlKernelEntry p)
  have hlt : (path ++ [i]).length < 3 := by
    rw [List.length_append, List.length_singleton]
    omega
  have hnone : s.page (.heap (path ++ [i])) = none := by
    unfold Sys.node at habs
    rwa [if_pos hlt] at habs
  have htaken := taken hnone p
  have hroot : Function.update s.page (.heap (path ++ [i])) (some p) (.heap []) = s.page (.heap []) :=
    Function.update_of_ne (fun hr => by
      have := congrArg List.length (Role.heap.inj hr)
      rw [List.length_append, List.length_singleton, List.length_nil] at this
      omega) _ _
  have hpml4 : ∀ c, Function.update s.page (.heap (path ++ [i])) (some p) (.pml4 c) = s.page (.pml4 c) :=
    fun c => htaken.others _ (fun hr => by cases hr)
  have hnode : ∀ path', path' ≠ path ++ [i] → Sys.node ({ s with
      words := Function.update s.words (t + 8 * i) (pmlKernelEntry p) }.setPage (.heap (path ++ [i])) p) path' =
        s.node path' := by
    intro path' hne
    unfold Sys.node Sys.setPage
    dsimp only
    rw [Function.update_of_ne (fun hr => hne (Role.heap.inj hr))]
  refine ⟨hset.tables, hset.boot, htaken.page h hp, htaken.distinct h hp, ?_, fun c hc => ?_,
    h.cores_kept rfl rfl rfl (fun q hq => htaken.keeps _ q hq) hpml4 hset.cores, fun path' t' ht' j hj => ?_,
    fun path' j hup => ?_, fun path' hpa => ?_, h.frames⟩
  · exact h.kernel.trans (congrArg (Option.map _) hroot.symm)
  · exact h.boots c ((hpml4 c).symm.trans hc)
  · rcases htaken.pages _ t' ht' with ⟨hold, -⟩ | ⟨hnew, rfl⟩
    · by_cases hne : path' ++ [j] = path ++ [i]
      · obtain ⟨rfl, hji⟩ := List.append_inj' hne rfl
        obtain rfl := List.singleton_inj.mp hji
        obtain rfl := Option.some.inj (hold.symm.trans ht)
        unfold Sys.node Sys.setPage
        dsimp only
        rw [if_pos hlt, Function.update_self, Function.update_self]
        rfl
      · rw [hnode _ hne, ← h.links path' t' hold j hj]
        exact hset.heap path' t' j hold hj hne
    · -- the new table is empty, and nothing was behind it
      obtain rfl := Role.heap.inj hnew
      have hne : path ++ [i] ++ [j] ≠ path ++ [i] := fun hc => by
        have := congrArg List.length hc
        rw [List.length_append, List.length_singleton] at this
        omega
      have hbelow : s.node (path ++ [i] ++ [j]) = none := by
        by_contra hc
        exact h.up _ j hc hnone
      rw [hnode _ hne, hbelow]
      refine (Function.update_of_ne ?_ _ _).trans (hzero j hj)
      intro hc
      exact not_free_table ht hi (hc ▸ Fresh.free h hp (Nat.le_add_right t' (8 * j)) (by omega))
  · by_cases hne : path' ++ [j] = path ++ [i]
    · obtain ⟨rfl, -⟩ := List.append_inj' hne rfl
      show Function.update s.page _ _ _ ≠ none
      rw [htaken.keeps _ t ht]
      exact Option.some_ne_none t
    · rw [hnode _ hne] at hup
      obtain ⟨q, hq⟩ := Option.ne_none_iff_exists'.mp (h.up path' j hup)
      show Function.update s.page _ _ _ ≠ none
      rw [htaken.keeps _ q hq]
      exact Option.some_ne_none q
  · obtain ⟨q, hq⟩ := Option.ne_none_iff_exists'.mp hpa
    rcases htaken.pages _ q hq with ⟨hold, -⟩ | ⟨hnew, -⟩
    · exact h.short path' (by rw [hold]; exact Option.some_ne_none q)
    · exact Role.heap.inj hnew ▸ hlt

/-- Flags in an entry of the boot loader's PML2s. -/
theorem SpaceInv.set_large (h : SpaceInv b s) {k x : Nat} (hk : k < 512 * 512) (hx : LargePage k x) :
    SpaceInv b { s with words := Function.update s.words (b + 8 * (1024 + k)) x } := by
  have hcell : ∀ r p j, s.page r = some p → j < 512 →
      Function.update s.words (b + 8 * (1024 + k)) x (p + 8 * j) = s.words (p + 8 * j) := by
    intro r p j hp hj
    have := (h.pages r p hp).apart
    unfold bufferPages at this
    exact Function.update_of_ne (by omega) _ _
  refine ⟨⟨fun i hi => ?_, fun i hi => ?_⟩, ?_, h.pages, h.distinct, h.kernel, h.boots,
    h.cores_kept rfl rfl rfl (fun _ ht => ht) (fun _ => rfl) (fun c p j hp hj => hcell _ p j hp hj),
    fun path t ht i hi => ?_, h.up, h.short, h.frames⟩
  · exact (Function.update_of_ne (by omega) _ _).trans (h.tables.pml3 i hi)
  · dsimp only
    by_cases hik : i = k
    · rw [hik, Function.update_self]
      exact hx
    · rw [Function.update_of_ne (by omega)]
      exact h.tables.pml2 i hi
  · exact (Function.update_of_ne (by omega) _ _).trans h.boot
  · exact (hcell _ t i ht hi).trans (h.links path t ht i hi)

/-- Entry 0 of the PML4 of a core. -/
theorem SpaceInv.set_process (h : SpaceInv b s) {p : Nat} (hp : s.page (.pml4 c) = some p) (x : Nat) :
    SpaceInv b { s with
      words := Function.update s.words p x
      cr3 := Function.update s.cr3 c p
      process := Function.update s.process c x } := by
  have hpage := h.pages _ p hp
  have hcr3 : Function.update s.cr3 c p = s.cr3 := by
    rw [← (h.cores c p hp).cr3]
    exact Function.update_eq_self _ _
  have hbuf : ∀ j, j < 514 * 512 → Function.update s.words p x (b + 8 * j) = s.words (b + 8 * j) := by
    intro j hj
    have := hpage.apart
    unfold bufferPages at this
    exact Function.update_of_ne (by omega) _ _
  have hcell : ∀ r q j, s.page r = some q → r ≠ .pml4 c → j < 512 →
      Function.update s.words p x (q + 8 * j) = s.words (q + 8 * j) :=
    fun r q j hq hr hj => Function.update_of_ne (h.cell_ne hq hp hr hj (Nat.zero_lt_succ 511)) _ _
  refine ⟨⟨fun i hi => (hbuf _ (by omega)).trans (h.tables.pml3 i hi), fun i hi => ?_⟩,
    (hbuf 511 (by omega)).trans h.boot, h.pages, h.distinct, h.kernel, fun c' hc' => ?_, fun c' q hq => ?_,
    fun path t ht i hi => (hcell _ t i ht (fun hr => by cases hr) hi).trans (h.links path t ht i hi),
    h.up, h.short, h.frames⟩
  · dsimp only
    rw [hbuf _ (by omega)]
    exact h.tables.pml2 i hi
  · exact (congrFun hcr3 c').trans (h.boots c' hc')
  · have hc := h.cores c' q hq
    obtain ⟨t, ht, hte⟩ := hc.heap
    by_cases hcc : c' = c
    · subst hcc
      obtain rfl := Option.some.inj (hq.symm.trans hp)
      refine ⟨(congrFun hcr3 c').trans hc.cr3, hc.pointer, (Function.update_of_ne (by omega) _ _).trans hc.direct,
        ⟨t, ht, (Function.update_of_ne (by omega) _ _).trans hte⟩, ?_⟩
      show Function.update s.words q x q = Function.update s.process c' x c'
      rw [Function.update_self, Function.update_self]
    · have hr : Role.pml4 c' ≠ .pml4 c := fun hr => hcc (Role.pml4.inj hr)
      exact ⟨(congrFun hcr3 c').trans hc.cr3, hc.pointer, (hcell _ q 511 hq hr (by omega)).trans hc.direct,
        ⟨t, ht, (hcell _ q 510 hq hr (by omega)).trans hte⟩,
        ((hcell _ q 0 hq hr (by omega)).trans hc.process).trans (Function.update_of_ne hcc _ _).symm⟩

/-- The PML3 of the heap, cleared. -/
theorem SpaceInv.add_heap (h : SpaceInv b s) {p : Nat} (hnone : s.page (.heap []) = none) (hp : Fresh b s p)
    (hzero : ∀ j, j < 512 → s.words (p + 8 * j) = 0) :
    SpaceInv b { s.setPage (.heap []) p with
      kernel := some (physToKernelPtr (b + 8 * 512), physToKernelPtr p) } := by
  have htaken := taken hnone p
  have hpml4 : ∀ c, Function.update s.page (.heap []) (some p) (.pml4 c) = s.page (.pml4 c) :=
    fun c => htaken.others _ (fun hr => by cases hr)
  have hnode : ∀ path', path' ≠ [] →
      Sys.node { s.setPage (.heap []) p with
        kernel := some (physToKernelPtr (b + 8 * 512), physToKernelPtr p) } path' = s.node path' := by
    intro path' hne
    unfold Sys.node Sys.setPage
    dsimp only
    rw [Function.update_of_ne (fun hr => hne (Role.heap.inj hr))]
  refine ⟨h.tables, h.boot, htaken.page h hp, htaken.distinct h hp, ?_, fun c hc => h.boots c ((hpml4 c).symm.trans hc),
    h.cores_kept rfl rfl rfl (fun q hq => htaken.keeps _ q hq) hpml4 (fun _ _ _ _ _ => rfl),
    fun path' t' ht' j hj => ?_, fun path' j hup => ?_, fun path' hpa => ?_, h.frames⟩
  · show _ = (Function.update s.page (.heap []) (some p) (.heap [])).map _
    rw [Function.update_self]
    rfl
  · rw [hnode _ (List.append_ne_nil_of_right_ne_nil _ (List.cons_ne_nil j []))]
    rcases htaken.pages _ t' ht' with ⟨hold, -⟩ | ⟨hnew, rfl⟩
    · exact h.links path' t' hold j hj
    · obtain rfl := Role.heap.inj hnew
      have hbelow : s.node ([] ++ [j]) = none := by
        by_contra hc
        exact h.up _ j hc hnone
      rw [hbelow]
      exact hzero j hj
  · rw [hnode _ (List.append_ne_nil_of_right_ne_nil _ (List.cons_ne_nil j []))] at hup
    obtain ⟨q, hq⟩ := Option.ne_none_iff_exists'.mp (h.up path' j hup)
    show Function.update s.page _ _ _ ≠ none
    rw [htaken.keeps _ q hq]
    exact Option.some_ne_none q
  · obtain ⟨q, hq⟩ := Option.ne_none_iff_exists'.mp hpa
    rcases htaken.pages _ q hq with ⟨hold, -⟩ | ⟨hnew, -⟩
    · exact h.short path' (by rw [hold]; exact Option.some_ne_none q)
    · exact Role.heap.inj hnew ▸ Nat.zero_lt_succ 2

/-- The PML4 of a core, as `InitCore` has filled it. -/
theorem SpaceInv.add_core (h : SpaceInv b s) {p t : Nat} (hnone : s.page (.pml4 c) = none) (hp : Fresh b s p)
    (ht : s.page (.heap []) = some t) (h511 : s.words (p + 8 * 511) = pmlKernelEntry (b + 8 * 512))
    (h510 : s.words (p + 8 * 510) = pmlKernelEntry t) (h0 : s.words p = 0) :
    SpaceInv b { s.setPage (.pml4 c) p with
      corePageTables := Function.update s.corePageTables c (physToKernelPtr p)
      cr3 := Function.update s.cr3 c p
      process := Function.update s.process c 0 } := by
  have htaken := taken hnone p
  have hheap : ∀ path, Function.update s.page (.pml4 c) (some p) (.heap path) = s.page (.heap path) :=
    fun path => htaken.others _ (fun hr => by cases hr)
  have hnode : ∀ path, Sys.node { s.setPage (.pml4 c) p with
      corePageTables := Function.update s.corePageTables c (physToKernelPtr p)
      cr3 := Function.update s.cr3 c p
      process := Function.update s.process c 0 } path = s.node path := by
    intro path
    unfold Sys.node Sys.setPage
    dsimp only
    rw [hheap]
  refine ⟨h.tables, h.boot, htaken.page h hp, htaken.distinct h hp, h.kernel.trans (congrArg _ (hheap []).symm),
    fun c' hc' => ?_, fun c' q hq => ?_, fun path t' ht' i hi => ?_, fun path i hup => ?_,
    fun path hpa => h.short path (by rwa [← hheap path]), h.frames⟩
  · have hcc : c' ≠ c := by
      rintro rfl
      change Function.update s.page _ _ _ = none at hc'
      rw [Function.update_self] at hc'
      cases hc'
    refine (Function.update_of_ne hcc _ _).trans (h.boots c' ?_)
    exact (htaken.others _ (fun hr => hcc (Role.pml4.inj hr))).symm.trans hc'
  · by_cases hcc : c' = c
    · subst hcc
      change Function.update s.page (.pml4 c') (some p) (.pml4 c') = some q at hq
      rw [Function.update_self] at hq
      obtain rfl := Option.some.inj hq
      refine ⟨Function.update_self _ _ _, Function.update_self _ _ _, h511, ⟨t, (hheap []).trans ht, h510⟩, ?_⟩
      show s.words p = Function.update s.process c' 0 c'
      rw [Function.update_self, h0]
    · have hold : s.page (.pml4 c') = some q :=
        (htaken.others _ (fun hr => hcc (Role.pml4.inj hr))).symm.trans hq
      have hc := h.cores c' q hold
      obtain ⟨t', ht', hte⟩ := hc.heap
      exact ⟨(Function.update_of_ne hcc _ _).trans hc.cr3, (Function.update_of_ne hcc _ _).trans hc.pointer, hc.direct,
        ⟨t', (hheap []).trans ht', hte⟩, hc.process.trans (Function.update_of_ne hcc _ _).symm⟩
  · rw [hnode]
    exact h.links path t' ((hheap path).symm.trans ht') i hi
  · rw [hnode] at hup
    exact fun hc => h.up path i hup ((hheap path).symm.trans hc)

end Invariant

/-! ## 4. Steps -/

section Steps

variable {n b : Nat} {s s' : Sys n} {c : Fin n} {e : Event n}

theorem pmlKernelEntry_page {p : Nat} (hp : TablePage b p) :
    pmlGetP (pmlKernelEntry p) = true ∧ pmlGetAddr (pmlKernelEntry p) = p :=
  pmlKernelEntry_pointsTo p hp.aligned (by have := hp.below; omega)

theorem SpaceInv.init (hb : Buffer b) (h : SpaceInv b s) {p : Nat} (hk : s.kernel = none) (hp : Fresh b s p) :
    ∃ s', init b s c p = some s' ∧ SpaceInv b s' := by
  obtain ⟨q, hq⟩ := hb.aligned
  have hbelow := hb.below
  unfold bufferPages at hbelow
  have hnone : s.page (.heap []) = none := by
    have hke := h.kernel
    rw [hk] at hke
    cases hh : s.page (.heap []) with
    | none => rfl
    | some t =>
        rw [hh] at hke
        cases hke
  obtain ⟨m', hclear, hI, -, hzero⟩ := h.clear hb c hp
  have hload : KernelSpace.load s c (convertPtr b + 8 * 511) = some (pmlKernelEntry (b + 8 * 512)) := by
    rw [show convertPtr b + 8 * 511 = physToKernelPtr (b + 8 * 511) from physToKernelPtr_add b _,
      h.load hb c (by omega), h.boot]
  have haddr := (pmlKernelEntry_pointsTo (b + 8 * 512) (by omega) (by omega)).2
  refine ⟨_, ?_, hI.add_heap hnone hp hzero⟩
  unfold KernelSpace.init
  rw [hload, Option.bind_some, hclear, haddr]
  rfl

theorem SpaceInv.initCore (hb : Buffer b) (h : SpaceInv b s) {p : Nat} (hk : s.kernel ≠ none) (hr : ¬ Ready s c)
    (hp : Fresh b s p) : ∃ s', initCore s c p = some s' ∧ SpaceInv b s' := by
  have hke := h.kernel
  cases hh : s.page (.heap []) with
  | none =>
      rw [hh] at hke
      exact absurd hke hk
  | some t =>
      rw [hh] at hke
      have hbelow := hp.page.below
      obtain ⟨m', hclear, hI, hout, hzero⟩ := h.clear hb c hp
      have hp' : Fresh b { s with words := m' } p := hp
      -- the two stores go into the fresh page
      have hstore : ∀ i x, i < 512 → ∀ m₁, SpaceInv b { s with words := m₁ } →
          KernelSpace.store { s with words := m₁ } c (physToKernelPtr p + 8 * i) x =
            some { s with words := Function.update m₁ (p + 8 * i) x } ∧
          SpaceInv b { s with words := Function.update m₁ (p + 8 * i) x } := by
        intro i x hi m₁ h₁
        refine ⟨?_, h₁.write fun a ha => Function.update_of_ne ?_ _ _⟩
        · rw [physToKernelPtr_add]
          exact h₁.store hb c (by omega) x
        · rintro rfl
          exact ha (Fresh.free (s := { s with words := m₁ }) h₁ hp (Nat.le_add_right p (8 * i)) (by omega))
      obtain ⟨hs1, hI1⟩ := hstore 511 (pmlKernelEntry (b + 8 * 512)) (by omega) m' hI
      obtain ⟨hs2, hI2⟩ := hstore 510 (pmlKernelEntry t) (by omega) _ hI1
      obtain ⟨m₂, hm⟩ : ∃ m₂, m₂ = Function.update (Function.update m' (p + 8 * 511) (pmlKernelEntry (b + 8 * 512)))
          (p + 8 * 510) (pmlKernelEntry t) := ⟨_, rfl⟩
      have h511 : m₂ (p + 8 * 511) = pmlKernelEntry (b + 8 * 512) := by
        rw [hm, Function.update_of_ne (by omega), Function.update_self]
      have h510 : m₂ (p + 8 * 510) = pmlKernelEntry t := by rw [hm, Function.update_self]
      have h0 : m₂ p = 0 := by
        rw [hm, Function.update_of_ne (by omega), Function.update_of_ne (by omega)]
        exact hzero 0 (by omega)
      rw [← hm] at hs2 hI2
      refine ⟨_, ?_, hI2.add_core (not_not.mp hr) hp hh h511 h510 h0⟩
      unfold KernelSpace.initCore
      conv_lhs => rw [hke]
      simp only [Option.map_some, Option.bind_some, kernelToPhysPtr_physToKernelPtr]
      rw [hclear, Option.bind_some, hs1, Option.bind_some, hs2]
      rfl

theorem SpaceInv.switchProcessMap (hb : Buffer b) (h : SpaceInv b s) (hr : Ready s c) (pml4Entry : Nat) :
    ∃ s', switchProcessMap s c pml4Entry = some s' ∧ SpaceInv b s' := by
  obtain ⟨p, hp⟩ := Option.ne_none_iff_exists'.mp hr
  have hbelow := (h.pages _ p hp).below
  refine ⟨_, ?_, h.set_process hp pml4Entry⟩
  unfold KernelSpace.switchProcessMap
  dsimp only
  rw [(h.cores c p hp).pointer, h.store hb c (by omega) pml4Entry, kernelToPhysPtr_physToKernelPtr]
  rfl

/-- What a call that makes new tables leaves as it is, but for the page `p`. -/
structure Grown (b p : Nat) (s s' : Sys n) : Prop where
  cr3 : s'.cr3 = s.cr3
  corePageTables : s'.corePageTables = s.corePageTables
  mapped : s'.mapped = s.mapped
  fresh : ∀ q, q ≠ p → Fresh b s q → Fresh b s' q

theorem SpaceInv.nextTable (hb : Buffer b) (h : SpaceInv b s) (c : Fin n) {path : List Nat} {t i p : Nat}
    (ht : s.page (.heap path) = some t) (hlen : path.length < 2) (hi : i < 512) (hp : Fresh b s p) :
    ∃ s' t', nextTable s c (physToKernelPtr t) i p (path ++ [i]) = some (s', physToKernelPtr t') ∧ SpaceInv b s' ∧
      s'.page (.heap (path ++ [i])) = some t' ∧ Grown b p s s' := by
  have hbelow := (h.pages _ t ht).below
  have hlt : (path ++ [i]).length < 3 := by
    rw [List.length_append, List.length_singleton]
    omega
  have hnode : s.node (path ++ [i]) = s.page (.heap (path ++ [i])) := if_pos hlt
  have hload : KernelSpace.load s c (physToKernelPtr t + 8 * i) = some (link (s.page (.heap (path ++ [i])))) := by
    rw [physToKernelPtr_add, h.load hb c (by omega), h.links path t ht i hi, hnode]
  unfold KernelSpace.nextTable
  rw [hload, Option.bind_some]
  cases hpage : s.page (.heap (path ++ [i])) with
  | some t' =>
      obtain ⟨hP, ha⟩ := pmlKernelEntry_page (h.pages _ t' hpage)
      refine ⟨s, t', ?_, h, hpage, ⟨rfl, rfl, rfl, fun _ _ hq => hq⟩⟩
      show (if pmlGetP (pmlKernelEntry t') = true then _ else _) = _
      rw [if_pos hP]
      show some (s, physToKernelPtr (pmlGetAddr (pmlKernelEntry t'))) = _
      rw [ha]
  | none =>
      obtain ⟨m', hclear, hI, -, hzero⟩ := h.clear hb c hp
      have hnew := hI.link_table (t := t) (p := p) ht hlen hi hp hzero (hnode.trans hpage)
      refine ⟨_, p, ?_, hnew, Function.update_self _ _ _, ⟨rfl, rfl, rfl, fun q hqp hq => ?_⟩⟩
      · show (if pmlGetP 0 = true then _ else _) = _
        rw [if_neg (show ¬ pmlGetP 0 = true from Bool.false_ne_true), hclear, Option.bind_some, physToKernelPtr_add,
          hI.store hb c (by omega), kernelToPhysPtr_physToKernelPtr]
        rfl
      · refine ⟨hq.1, hq.2.1, hq.2.2.1, fun r => ?_⟩
        show Function.update s.page _ _ r ≠ _
        by_cases hr : r = .heap (path ++ [i])
        · rw [hr, Function.update_self]
          exact fun hc => hqp (Option.some.inj hc).symm
        · rw [Function.update_of_ne hr]
          exact hq.2.2.2 r

theorem SpaceInv.mapKernelPage (hb : Buffer b) (h : SpaceInv b s) {phys virt p q : Nat} (hr : Ready s c)
    (hv : getPml4Index virt = 510) (hd : 4096 ∣ phys ∧ phys < 2 ^ 52) (hp : Fresh b s p) (hq : Fresh b s q)
    (hpq : p ≠ q) : ∃ s', mapKernelPage s c phys virt p q = some s' ∧ SpaceInv b s' := by
  obtain ⟨x, hx⟩ := Option.ne_none_iff_exists'.mp hr
  have hcore := h.cores c x hx
  have hbelow := (h.pages _ x hx).below
  obtain ⟨t, ht, hte⟩ := hcore.heap
  have hload : KernelSpace.load s c (s.corePageTables c + 8 * getPml4Index virt) = some (pmlKernelEntry t) := by
    rw [hcore.pointer, hv, physToKernelPtr_add, h.load hb c (by omega), hte]
  obtain ⟨s₁, t₁, h1, hI1, ht1, hg1⟩ := h.nextTable hb c ht (Nat.zero_lt_succ 1) (getPmlIndex_lt 2 virt) hp
  obtain ⟨s₂, t₂, h2, hI2, ht2, -⟩ := hI1.nextTable hb c ht1 (Nat.lt_succ_self 1) (getPmlIndex_lt 1 virt)
    (hg1.fresh q hpq.symm hq)
  have hbelow2 := (hI2.pages _ t₂ ht2).below
  have hi1 := getPmlIndex_lt 0 virt
  have hnew := hI2.link_frame ht2 rfl hi1 hd
  refine ⟨_, ?_, hnew⟩
  unfold KernelSpace.mapKernelPage
  rw [hload, Option.bind_some, (pmlKernelEntry_page (h.pages _ t ht)).2]
  dsimp only
  rw [show KernelSpace.nextTable s c (physToKernelPtr t) (getPml3Index virt) p [getPml3Index virt] = _ from h1,
    Option.bind_some]
  dsimp only
  rw [show KernelSpace.nextTable s₁ c (physToKernelPtr t₁) (getPml2Index virt) q (walkPath virt) = _ from h2,
    Option.bind_some]
  dsimp only
  rw [physToKernelPtr_add, hI2.store hb c (show t₂ + 8 * getPml1Index virt < 2 ^ 39 from by
    unfold getPml1Index
    omega)]
  rfl

theorem SpaceInv.setFlags (hb : Buffer b) (h : SpaceInv b s) {virt flags : Nat} (hr : Ready s c)
    (hv : getPml4Index virt = 511) (hf : flags &&& 0x000FFFFFFFE00000 = 0) :
    ∃ s', setFlags s c virt flags = some s' ∧ SpaceInv b s' := by
  obtain ⟨q, hq⟩ := hb.aligned
  have hbuf := hb.below
  unfold bufferPages at hbuf
  obtain ⟨x, hx⟩ := Option.ne_none_iff_exists'.mp hr
  have hcore := h.cores c x hx
  have hbelow := (h.pages _ x hx).below
  have hi3 : getPml3Index virt < 512 := getPmlIndex_lt 2 virt
  have hi2 : getPml2Index virt < 512 := getPmlIndex_lt 1 virt
  have hload4 : KernelSpace.load s c (s.corePageTables c + 8 * getPml4Index virt) =
      some (pmlKernelEntry (b + 8 * 512)) := by
    rw [hcore.pointer, hv, physToKernelPtr_add, h.load hb c (by omega), hcore.direct]
  have hload3 : KernelSpace.load s c (physToKernelPtr (b + 8 * 512) + 8 * getPml3Index virt) =
      some (pmlKernelEntry (b + 8 * (1024 + 512 * getPml3Index virt))) := by
    rw [physToKernelPtr_add, h.load hb c (by omega), ← h.tables.pml3 _ hi3]
    congr 2
    omega
  have hcell : physToKernelPtr (b + 8 * (1024 + 512 * getPml3Index virt)) + 8 * getPml2Index virt =
      physToKernelPtr (b + 8 * (1024 + (512 * getPml3Index virt + getPml2Index virt))) := by
    rw [physToKernelPtr_add]
    congr 1
    omega
  have hL := h.tables.pml2 (512 * getPml3Index virt + getPml2Index virt) (by omega)
  refine ⟨_, ?_, h.set_large (by omega) (hL.or hf)⟩
  unfold KernelSpace.setFlags
  rw [hload4, Option.bind_some, (pmlKernelEntry_pointsTo (b + 8 * 512) (by omega) (by omega)).2, hload3,
    Option.bind_some]
  dsimp only
  rw [(pmlKernelEntry_pointsTo (b + 8 * (1024 + 512 * getPml3Index virt)) (by omega) (by omega)).2, hcell,
    h.load hb c (by omega), Option.bind_some, h.store hb c (by omega)]

/-- **Each call ends without a page fault**, and the invariant holds behind it. -/
theorem SpaceInv.exec (hb : Buffer b) (h : SpaceInv b s) (hc : Called b s e) :
    ∃ s', exec b s e = some s' ∧ SpaceInv b s' := by
  cases e with
  | init c p => exact h.init hb hc.1 hc.2
  | initCore c p => exact h.initCore hb hc.1 hc.2.1 hc.2.2
  | switchProcessMap c pml4Entry => exact h.switchProcessMap hb hc pml4Entry
  | mapKernelPage c phys virt p q => exact h.mapKernelPage hb hc.1 hc.2.1 hc.2.2.1 hc.2.2.2.1 hc.2.2.2.2.1 hc.2.2.2.2.2
  | disableChache c virt => exact h.setFlags hb hc.1 hc.2 (by decide)
  | enableWriteCombine c virt => exact h.setFlags hb hc.1 hc.2 (by decide)
  | write c a x =>
      refine ⟨_, h.store hb c hc.1 x, h.write fun a' ha' => Function.update_of_ne ?_ _ _⟩
      rintro rfl
      exact ha' hc.2

theorem spaceInv_step (hb : Buffer b) (h : SpaceInv b s) (hs : spaceStep b s e s') : SpaceInv b s' := by
  obtain ⟨s₁, h1, hI⟩ := h.exec hb hs.1
  exact Option.some.inj (h1.symm.trans hs.2) ▸ hI

theorem spaceInv_start (h : Start b s) : SpaceInv b s := by
  obtain ⟨m, hm⟩ := h.words
  have hnode : ∀ path, s.node path = none := by
    intro path
    unfold Sys.node
    split_ifs
    · exact h.page _
    · exact h.mapped _
  have hno : ∀ {P : Prop} {r : Role n} {p : Nat}, s.page r = some p → P := fun hp => by
    rw [h.page] at hp
    cases hp
  refine ⟨hm ▸ init_tables b m, hm ▸ (init_pml4 b m).2, fun _ _ hp => hno hp, fun _ _ _ hp _ => hno hp, ?_,
    fun c _ => h.cr3 c, fun _ _ hp => hno hp, fun _ _ hp => hno hp, fun path i hup => absurd (hnode _) hup,
    fun path hp => absurd (h.page _) hp, fun path f hf => ?_⟩
  · rw [h.page, h.kernel]
    rfl
  · rw [h.mapped] at hf
    cases hf

theorem spaceInv_reach (hb : Buffer b) (h : Reach (spaceStep b) (Start b) s) : SpaceInv b s :=
  Reach.inv (I := SpaceInv b) (fun _ => spaceInv_start) (fun _ _ _ hI hs => spaceInv_step hb hI hs) h

end Steps

/-! ## 5. The address spaces -/

/-- The address spaces, as the processor walks them. -/
structure Space {n : Nat} (b : Nat) (s : Sys n) : Prop where
  /-- all memory at its place, on every core -/
  direct : ∀ c a, a < 2 ^ 39 → pageWalk s.words (s.cr3 c) (physToKernelPtr a) = some a
  /-- so the cells of the tables of MemoryManager.lean are words of the memory, the same for each core -/
  cells : ∀ c t i, t + 8 * i < 2 ^ 39 → load s c (cell t i) = some (s.words (t + 8 * i))
  /-- the heap as `MapKernelPage` was called, on whichever core that was -/
  heap : ∀ c virt, Ready s c → getPml4Index virt = 510 →
    pageWalk s.words (s.cr3 c) virt = (s.mapped (leafPath virt)).map (· + virt % 4096)
  /-- the process that the core has switched to -/
  user : ∀ c virt, Ready s c → getPml4Index virt = 0 →
    pageWalk s.words (s.cr3 c) virt = if pmlGetP (s.process c) then walkFrom s.words (s.process c) virt else none
  /-- no call meets a page that is not there -/
  noFault : ∀ e, Called b s e → ∃ s', exec b s e = some s'

section Results

variable {n b : Nat} {s : Sys n}

theorem present_link {m : Words} {t i : Nat} {o : Option Nat} (h : m (t + 8 * i) = link o)
    (ho : ∀ p, o = some p → 4096 ∣ p ∧ p < 2 ^ 52) : present m t i = o.map pmlKernelEntry := by
  cases o with
  | none =>
      unfold present
      rw [h]
      rfl
  | some p =>
      obtain ⟨hd, hp⟩ := ho p rfl
      exact present_of h (pmlKernelEntry_pointsTo p hd hp).1

/-- A node of the tree of the heap is a page. -/
theorem SpaceInv.node_page (h : SpaceInv b s) {path : List Nat} {p : Nat} (hp : s.node path = some p) :
    4096 ∣ p ∧ p < 2 ^ 52 := by
  unfold Sys.node at hp
  split_ifs at hp
  · have := (h.pages _ p hp).below
    exact ⟨(h.pages _ p hp).aligned, by omega⟩
  · exact h.frames path p hp

theorem SpaceInv.present_table (h : SpaceInv b s) {path : List Nat} {t i : Nat} (ht : s.page (.heap path) = some t)
    (hi : i < 512) : present s.words t i = (s.node (path ++ [i])).map pmlKernelEntry :=
  present_link (h.links path t ht i hi) fun _ hp => h.node_page hp

theorem SpaceInv.heap_walk (h : SpaceInv b s) (c : Fin n) {virt : Nat} (hr : Ready s c)
    (hv : getPml4Index virt = 510) :
    pageWalk s.words (s.cr3 c) virt = (s.mapped (leafPath virt)).map (· + virt % 4096) := by
  obtain ⟨x, hx⟩ := Option.ne_none_iff_exists'.mp hr
  have hcore := h.cores c x hx
  obtain ⟨t, ht, hte⟩ := hcore.heap
  have hi3 : getPml3Index virt < 512 := getPmlIndex_lt 2 virt
  have hi2 : getPml2Index virt < 512 := getPmlIndex_lt 1 virt
  have hi1 : getPml1Index virt < 512 := getPmlIndex_lt 0 virt
  have hmapped : s.node (leafPath virt) = s.mapped (leafPath virt) := rfl
  -- an entry that is missing has nothing behind it
  have hbelow : ∀ path i, s.page (.heap path) = none → s.node (path ++ [i]) = none := fun path i hp => by
    by_contra hc
    exact h.up path i hc hp
  have ht4 := pmlKernelEntry_page (h.pages _ t ht)
  unfold pageWalk walkFrom
  rw [hcore.cr3, hv, present_of hte ht4.1, Option.bind_some, ht4.2, h.present_table ht hi3]
  show ((s.page (.heap [getPml3Index virt])).map pmlKernelEntry).bind _ = _
  cases h3 : s.page (.heap [getPml3Index virt]) with
  | none =>
      have h2 : s.page (.heap (walkPath virt)) = none := hbelow _ _ h3
      rw [← hmapped, show s.node (leafPath virt) = none from hbelow _ _ h2]
      rfl
  | some p =>
      have hp := pmlKernelEntry_page (h.pages _ p h3)
      rw [Option.map_some, Option.bind_some,
        if_neg (by rw [isLarge_table (h.pages _ p h3).aligned]; exact Bool.false_ne_true), hp.2,
        h.present_table h3 hi2]
      show ((s.page (.heap (walkPath virt))).map pmlKernelEntry).bind _ = _
      cases h2 : s.page (.heap (walkPath virt)) with
      | none =>
          rw [← hmapped, show s.node (leafPath virt) = none from hbelow _ _ h2]
          rfl
      | some q =>
          have hq := pmlKernelEntry_page (h.pages _ q h2)
          rw [Option.map_some, Option.bind_some,
            if_neg (by rw [isLarge_table (h.pages _ q h2).aligned]; exact Bool.false_ne_true), hq.2,
            h.present_table h2 hi1]
          show ((s.mapped (leafPath virt)).map pmlKernelEntry).map _ = _
          cases h1 : s.mapped (leafPath virt) with
          | none => rfl
          | some f =>
              obtain ⟨hd, hf⟩ := h.frames _ f h1
              show some (pmlGetAddr (pmlKernelEntry f) + virt % 4096) = some (f + virt % 4096)
              rw [(pmlKernelEntry_pointsTo f hd hf).2]

/-- **The kernel's half is the same on all cores, in every run**: every physical address below 512 GB at its kernel
    pointer, each heap page where it was mapped, and beside them the process of the core; no call ever faults. -/
theorem kernel_space (hb : Buffer b) (h : Reach (spaceStep b) (Start b) s) : Space b s := by
  have hI := spaceInv_reach hb h
  refine ⟨fun c a ha => hI.walk hb c ha, fun c t i ha => ?_, fun c virt hr hv => hI.heap_walk c hr hv,
    fun c virt hr hv => ?_, fun e he => ?_⟩
  · unfold cell
    rw [physToKernelPtr_add]
    exact hI.load hb c ha
  · obtain ⟨x, hx⟩ := Option.ne_none_iff_exists'.mp hr
    have hcore := hI.cores c x hx
    unfold pageWalk present
    rw [hv, hcore.cr3, show x + 8 * 0 = x from rfl, hcore.process]
    split_ifs <;> rfl
  · obtain ⟨s', hs, -⟩ := hI.exec hb he
    exact ⟨s', hs⟩

/-- Two cores on the tables of the boot loader, which stand at 1 MB. -/
def booted : Sys 2 where
  words := Paging.init 0x100000 fun _ => 0
  cr3 _ := 0x100000
  corePageTables _ := 0
  kernel := none
  page _ := none
  mapped _ := none
  process _ := 0

/-- `Init` on the first core gets the page at 4 MB. -/
theorem kernel_space_booted : ∃ s, spaceStep 0x100000 booted (.init 0 0x400000) s ∧ Space 0x100000 s := by
  have hb : Buffer 0x100000 := ⟨by decide, by decide⟩
  have hstart : Start 0x100000 booted := ⟨⟨_, rfl⟩, fun _ => rfl, rfl, fun _ => rfl, fun _ => rfl⟩
  have hcall : Called 0x100000 booted (.init 0 0x400000) :=
    ⟨rfl, by decide, by decide, Or.inr (by decide), fun _ h => by cases h⟩
  obtain ⟨s, hs, -⟩ := (spaceInv_start hstart).exec hb hcall
  exact ⟨s, ⟨hcall, hs⟩, kernel_space hb (.next booted _ s (.start booted hstart) ⟨hcall, hs⟩)⟩

end Results

end KernelSpace

end SimpleOS2
