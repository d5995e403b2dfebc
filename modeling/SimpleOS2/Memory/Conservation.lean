/-
  File:      SimpleOS2/Memory/Conservation.lean
  Subject:   PAGE CONSERVATION. Every page the allocator manages is in one place.

  `own p` counts the places outside the free list in which the page `p` stands. The file goes up in
  three layers, each with its own frame rule ("pages of other owners keep their contents"):

  * `AllocInv` -- the free list covers exactly the managed pages with `own p = 0`;
    `allocatePages_spec`, `freePages_spec`, `AllocInv.write`;
  * `TreeInv` -- `own` is the tree of one map and a rest; `nextTable_spec`, `link_spec`,
    `mapProcessPage_spec`, `mapAnyPage_spec`, `freeTable_spec`, `forkProcessMap_spec`;
  * `sysStep` -- the calls of all processes; `conserved_reach`.

  WHAT DOES NOT HOLD: `UnmapProcessPage` clears the leaf entry and drops the frame behind it,
  `FreeProcessPML1` frees it. `MapProcessPage` over a mapped page drops the frame in the same way.
-/
import Mathlib.Algebra.BigOperators.Intervals
import SimpleOS2.Memory.MemoryManager

namespace SimpleOS2

open Lib FreeList

namespace MemoryManager

/-! ## 1. The allocator -/

/-- The pages the allocator manages are whole pages inside the kernel's window. -/
def Managed (pool : Nat → Prop) : Prop := ∀ p, pool p → 4096 ∣ p ∧ p + 4096 < 2 ^ 39

/-- The address `a` lies in the page `p`. -/
def InPage (p a : Nat) : Prop := physToKernelPtr p ≤ a ∧ a < physToKernelPtr p + 4096

/-- The page `p` is one of the `n` pages from `b` on. -/
def InRun (b n p : Nat) : Prop := 4096 ∣ p ∧ b ≤ p ∧ p < b + n * 4096

instance (b n p : Nat) : Decidable (InRun b n p) := by unfold InRun; infer_instance

/-- **The free list is what nobody owns**: its segments cover the managed pages with `own p = 0`,
    and no page is owned twice. -/
structure AllocInv (pool : Nat → Prop) (s : Mm) (own : Nat → Nat) (ps : List Nat)
    (z : Nat → Nat) : Prop where
  free : Free s.mem s.freeList ps z
  geo : Geo 4096 ps z
  cover : ∀ a, Cover ps z a ↔ ∃ p, pool p ∧ own p = 0 ∧ InPage p a
  once : ∀ p, own p ≤ 1
  managed : ∀ p, 0 < own p → pool p

/-- At least `k` managed pages are free. -/
def Spare (pool : Nat → Prop) (own : Nat → Nat) (k : Nat) : Prop :=
  ∃ S : Finset Nat, k ≤ S.card ∧ ∀ p ∈ S, pool p ∧ own p = 0

/-- The pages with an owner keep their contents. -/
def Keeps (own : Nat → Nat) (m m' : Mem) : Prop := ∀ q, 0 < own q → SamePage m m' q

/-! The writes to memory leave the rest of the state. The written memory is generalised first, so
that no step has to compare it with the old one. -/

@[simp] theorem setEntry_fields (s : Mm) (t i v : Nat) :
    (setEntry s t i v).freeList = s.freeList ∧ (setEntry s t i v).pml4 = s.pml4 ∧
      (setEntry s t i v).failed = s.failed := by
  unfold setEntry
  generalize Function.update s.mem (cell t i) v = m
  exact ⟨rfl, rfl, rfl⟩

@[simp] theorem zeroTable_fields (s : Mm) (t : Nat) :
    (zeroTable s t).freeList = s.freeList ∧ (zeroTable s t).pml4 = s.pml4 ∧
      (zeroTable s t).failed = s.failed := by
  unfold zeroTable
  generalize (fun a => if physToKernelPtr t ≤ a ∧ a < physToKernelPtr t + 4096 then 0
    else s.mem a) = m
  exact ⟨rfl, rfl, rfl⟩

@[simp] theorem copyPage_fields (s : Mm) (d t : Nat) :
    (copyPage s d t).freeList = s.freeList ∧ (copyPage s d t).pml4 = s.pml4 ∧
      (copyPage s d t).failed = s.failed := by
  unfold copyPage
  generalize (fun a => if physToKernelPtr d ≤ a ∧ a < physToKernelPtr d + 4096 then
    s.mem (a - physToKernelPtr d + physToKernelPtr t) else s.mem a) = m
  exact ⟨rfl, rfl, rfl⟩

section Alloc

variable {pool : Nat → Prop} {s : Mm} {own own' : Nat → Nat} {ps : List Nat} {z : Nat → Nat}

theorem inRun_one {b p : Nat} (hb : 4096 ∣ b) : InRun b 1 p ↔ p = b := by
  unfold InRun
  omega

theorem InPage.inj {p q a : Nat} (hp : 4096 ∣ p) (hq : 4096 ∣ q) (h1 : InPage p a)
    (h2 : InPage q a) : p = q := by
  unfold InPage physToKernelPtr at *
  omega

theorem Spare.less {k f : Nat} (h : Spare pool own (k + 1))
    (hle : ∀ p, own' p ≤ own p + if p = f then 1 else 0) : Spare pool own' k := by
  obtain ⟨S, hc, hS⟩ := h
  refine ⟨S.erase f, by have := Finset.pred_card_le_card_erase (s := S) (a := f); omega,
    fun p hp => ?_⟩
  obtain ⟨hne, hp⟩ := Finset.mem_erase.mp hp
  have h1 := hle p
  rw [if_neg hne, (hS p hp).2] at h1
  exact ⟨(hS p hp).1, by omega⟩

theorem Spare.mono {k j : Nat} (h : Spare pool own k) (hle : j ≤ k) : Spare pool own j := by
  obtain ⟨S, hc, hS⟩ := h
  exact ⟨S, by omega, hS⟩

theorem Keeps.trans {m m' m'' : Mem} (h1 : Keeps own m m') (h2 : Keeps own m' m'') :
    Keeps own m m'' := fun q hq a ha hb => (h2 q hq a ha hb).trans (h1 q hq a ha hb)

theorem Keeps.mono {m m' : Mem} (h : Keeps own m m') (hle : ∀ p, own' p ≤ own p) :
    Keeps own' m m' := fun q hq => h q (lt_of_lt_of_le hq (hle q))

theorem AllocInv.congr (hI : AllocInv pool s own ps z) (h : ∀ p, own' p = own p) :
    AllocInv pool s own' ps z := by
  obtain rfl : own' = own := funext h
  exact hI

/-- A page with an owner is not in the free list. -/
theorem AllocInv.not_cover (hp : Managed pool) (hI : AllocInv pool s own ps z) {q a : Nat}
    (hq : 0 < own q) (ha : InPage q a) : ¬ Cover ps z a := by
  intro hc
  obtain ⟨p, hp1, hp0, hpa⟩ := (hI.cover a).mp hc
  have := hpa.inj (hp p hp1).1 (hp q (hI.managed q hq)).1 ha
  subst this
  omega

theorem AllocInv.segment_high (hI : AllocInv pool s own ps z) {c : Nat} (hc : c ∈ ps) :
    highMemBase ≤ c := by
  obtain ⟨p, -, -, h1, h2⟩ := (hI.cover c).mp ⟨c, hc, le_rfl, by have := (hI.geo.pos c hc).2; omega⟩
  have hd := (hI.geo.aligned c hc).1
  have hh := highMemBase_eq
  unfold physToKernelPtr at *
  omega

/-- **`AllocatePages`** hands out pages nobody owns, or finds no segment that holds them. -/
theorem allocatePages_spec (hp : Managed pool) (hI : AllocInv pool s own ps z) {n : Nat}
    (h0 : 0 < n) (hn : n * 4096 < 2 ^ 64) :
    Settles (∀ p ∈ ps, z p < n * 4096) (fun k => allocatePages k s n) (fun r => r.1.failed = true)
      fun r => (∃ ps' z', AllocInv pool r.1 (fun p => own p + if InRun r.2 n p then 1 else 0) ps' z') ∧
        r.1.pml4 = s.pml4 ∧ r.1.failed = s.failed ∧ 4096 ∣ r.2 ∧
        (∀ p, InRun r.2 n p → pool p ∧ own p = 0) ∧ Keeps own s.mem r.1.mem := by
  have hu : u64 (n * 4096) = n * 4096 := u64_of_lt hn
  obtain ⟨c, hc, hcase⟩ := findFree_spec hI.free (n * 4096) (Nat.lt_succ_self _)
  have hcH := (findFree_steady s.mem s.freeList (n * 4096)).halts hc
  rcases hcase with ⟨rfl, hsmall⟩ | ⟨hmem, hle⟩
  · obtain ⟨N, hN⟩ := hcH
    refine Or.inr ⟨hsmall, N, fun k hk r hr => ?_⟩
    have hk0 : findFree k s.mem s.freeList (n * 4096) = some 0 := hN k hk
    unfold allocatePages at hr
    dsimp only at hr
    rw [hu, hk0, Option.bind_some, if_pos rfl] at hr
    rw [← Option.some.inj hr]
  · obtain ⟨r, ps', z', hr, hD⟩ := markUsed_spec (by omega) hI.free hI.geo hmem
      (n := n * 4096) (by omega) (by omega) hle (Nat.lt_succ_self _)
    have hrH := (markUsed_steady s.mem s.freeList c (n * 4096)).halts hr
    have hc0 : c ≠ 0 := by have := (hI.geo.pos c hmem).1; omega
    have hhigh := hI.segment_high hmem
    have hcd := (hI.geo.aligned c hmem).1
    have hh := highMemBase_eq
    have hphys : 4096 ∣ kernelToPhysPtr c := by
      unfold kernelToPhysPtr
      omega
    -- the pages of the run are the pages of the piece `[c, c + n * 4096)` of the segment at `c`
    have hrun : ∀ p, InRun (kernelToPhysPtr c) n p ↔ 4096 ∣ p ∧ c ≤ physToKernelPtr p ∧
        physToKernelPtr p < c + n * 4096 := fun p => by
      unfold InRun kernelToPhysPtr physToKernelPtr
      omega
    have hfree : ∀ p, InRun (kernelToPhysPtr c) n p → pool p ∧ own p = 0 := fun p hr => by
      obtain ⟨hd, h1, h2⟩ := (hrun p).mp hr
      obtain ⟨q, hq, hq0, hqa⟩ := (hI.cover (physToKernelPtr p)).mp ⟨c, hmem, h1, by omega⟩
      have : p = q := InPage.inj hd (hp q hq).1 ⟨le_rfl, by omega⟩ hqa
      subst this
      exact ⟨hq, hq0⟩
    refine Or.inl ⟨({ s with mem := r.1, freeList := r.2 }, kernelToPhysPtr c), ?_,
      ⟨ps', z', hD.free, hD.geo, fun a => ?_, fun p => ?_, fun p h => ?_⟩, rfl, rfl, hphys, hfree,
      fun q hq a h1 h2 => hD.frame a (hI.not_cover hp hq ⟨h1, h2⟩)⟩
    · unfold allocatePages
      dsimp only
      rw [hu]
      refine hcH.bind ?_
      simp only [hc0, if_false]
      exact hrH.map _
    · rw [hD.cover a, hI.cover a]
      constructor
      · intro hx
        obtain ⟨⟨p, h1, h2, h3⟩, hno⟩ := hx
        refine ⟨p, h1, ?_, h3⟩
        rw [h2, if_neg]
        intro hr
        obtain ⟨hd, h4, h5⟩ := (hrun p).mp hr
        unfold InPage physToKernelPtr at *
        omega
      · intro hx
        obtain ⟨p, h1, h2, h3⟩ := hx
        have hno : ¬ InRun (kernelToPhysPtr c) n p := fun hr => by
          rw [if_pos hr] at h2
          omega
        refine ⟨⟨p, h1, by omega, h3⟩, fun h4 => hno ((hrun p).mpr ⟨(hp p h1).1, ?_⟩)⟩
        have := (hp p h1).1
        unfold InPage physToKernelPtr at *
        omega
    · dsimp only
      split_ifs with hr
      · rw [(hfree p hr).2]
      · exact hI.once p
    · by_cases hr : InRun (kernelToPhysPtr c) n p
      · exact (hfree p hr).1
      · dsimp only at h
        rw [if_neg hr, Nat.add_zero] at h
        exact hI.managed p h

/-- A free page lies in a segment, and every segment holds a page. -/
theorem AllocInv.segment_of_spare (hI : AllocInv pool s own ps z) (h : Spare pool own 1) : ∃ c ∈ ps, 4096 ≤ z c := by
  obtain ⟨S, hc, hS⟩ := h
  obtain ⟨p, hpS⟩ := Finset.card_pos.mp (by omega : 0 < S.card)
  obtain ⟨c, hcp, -⟩ := (hI.cover (physToKernelPtr p)).mpr
    ⟨p, (hS p hpS).1, (hS p hpS).2, le_rfl, by omega⟩
  exact ⟨c, hcp, hI.geo.unit_le hcp⟩

/-- One page. -/
theorem allocatePage_spec (hp : Managed pool) (hI : AllocInv pool s own ps z) :
    Settles (¬ Spare pool own 1) (fun k => allocatePages k s 1) (fun r => r.1.failed = true)
      fun r => (∃ ps' z', AllocInv pool r.1 (fun p => own p + if p = r.2 then 1 else 0) ps' z') ∧
        r.1.pml4 = s.pml4 ∧ r.1.failed = s.failed ∧ pool r.2 ∧ own r.2 = 0 ∧
        Keeps own s.mem r.1.mem := by
  refine (allocatePages_spec hp hI (n := 1) (by omega) (by omega)).mono (fun hsmall hS => ?_) ?_
  · obtain ⟨c, hcp, h1⟩ := hI.segment_of_spare hS
    have h2 := hsmall c hcp
    omega
  · intro r hx
    obtain ⟨⟨ps', z', hI'⟩, h1, h2, h3, h4, h5⟩ := hx
    have hr := h4 r.2 ((inRun_one h3).mpr rfl)
    refine ⟨⟨ps', z', hI'.congr fun p => ?_⟩, h1, h2, hr.1, hr.2, h5⟩
    simp only [inRun_one h3]

/-- **`FreePages`** of owned pages returns and gives them back. No two segments touch if none did before. -/
theorem freePages_apart (hp : Managed pool) (hI : AllocInv pool s own ps z) {b n : Nat}
    (h0 : 0 < n) (hb : 4096 ∣ b) (hown : ∀ p, own p = own' p + if InRun b n p then 1 else 0) :
    ∃ r, Halts (fun k => freePages k s b n) r ∧
      (∃ ps' z', AllocInv pool r own' ps' z' ∧ (Apart ps z → Apart ps' z')) ∧
      r.pml4 = s.pml4 ∧ r.failed = s.failed ∧ Keeps own' s.mem r.mem := by
  have hh := highMemBase_eq
  have hrun : ∀ p, InRun b n p → pool p ∧ own' p = 0 := fun p hr => by
    have h1 := hown p
    have h2 := hI.once p
    rw [if_pos hr] at h1
    exact ⟨hI.managed p (by omega), by omega⟩
  have hlast : b + n * 4096 < 2 ^ 39 := by
    have := (hp _ (hrun (b + (n - 1) * 4096) ⟨by omega, by omega, by omega⟩).1).2
    omega
  have hu : u64 (n * 4096) = n * 4096 := u64_of_lt (by omega)
  have hdis : ∀ p ∈ ps, p + z p ≤ physToKernelPtr b ∨ physToKernelPtr b + n * 4096 ≤ p := by
    intro c hc
    by_contra hno
    have hz := (hI.geo.pos c hc).2
    have hal := hI.geo.aligned c hc
    obtain ⟨q, hq, hq0, hqa⟩ := (hI.cover (max c (physToKernelPtr b))).mp
      ⟨c, hc, by omega, by omega⟩
    have hr : InRun b n q := by
      have := (hp q hq).1
      unfold InRun InPage physToKernelPtr at *
      omega
    have := hown q
    rw [if_pos hr] at this
    omega
  obtain ⟨r, ps', z', hr, hD⟩ := markFree_spec (by omega) hI.free hI.geo
    (b := physToKernelPtr b) (n := n * 4096) (by unfold physToKernelPtr; omega)
    (by unfold physToKernelPtr; omega) (by omega) (by unfold physToKernelPtr; omega) hdis
    (Nat.lt_succ_self _)
  have hrH := (markFree_steady s.mem s.freeList (physToKernelPtr b) (n * 4096)).halts hr
  refine ⟨{ s with mem := r.1, freeList := r.2 }, ?_,
    ⟨ps', z', ⟨hD.free, hD.geo, fun a => ?_, fun p => ?_, fun p h => ?_⟩, hD.apart⟩, rfl, rfl,
    fun q hq a h1 h2 => hD.frame a ?_⟩
  · unfold freePages
    rw [hu]
    exact hrH.map _
  · rw [hD.cover a, hI.cover a]
    constructor
    · intro hx
      rcases hx with ⟨p, h1, h2, h3⟩ | h
      · exact ⟨p, h1, by have := hown p; omega, h3⟩
      · have hr : InRun b n (b + (a - physToKernelPtr b) / 4096 * 4096) := by
          unfold InRun
          omega
        exact ⟨_, (hrun _ hr).1, (hrun _ hr).2, by unfold InPage physToKernelPtr at *; omega⟩
    · intro hx
      obtain ⟨p, h1, h2, h3⟩ := hx
      by_cases hr : InRun b n p
      · refine Or.inr ?_
        unfold InRun InPage physToKernelPtr at *
        omega
      · have h4 := hown p
        rw [if_neg hr] at h4
        exact Or.inl ⟨p, h1, by omega, h3⟩
  · have h1 := hown p
    have h2 := hI.once p
    omega
  · have h1 := hown p
    exact hI.managed p (by omega)
  · have h3 := hown q
    intro hx
    rcases hx with h | h
    · exact hI.not_cover hp (q := q) (by omega) ⟨h1, h2⟩ h
    · have hd := (hp q (hI.managed q (by omega))).1
      have hr : InRun b n q := by
        unfold InRun physToKernelPtr at *
        omega
      rw [(hrun q hr).2] at hq
      omega

theorem freePages_spec (hp : Managed pool) (hI : AllocInv pool s own ps z) {b n : Nat}
    (h0 : 0 < n) (hb : 4096 ∣ b) (hown : ∀ p, own p = own' p + if InRun b n p then 1 else 0) :
    ∃ r, Halts (fun k => freePages k s b n) r ∧ (∃ ps' z', AllocInv pool r own' ps' z') ∧
      r.pml4 = s.pml4 ∧ r.failed = s.failed ∧ Keeps own' s.mem r.mem := by
  obtain ⟨r, hr, ⟨ps', z', hI', -⟩, h⟩ := freePages_apart hp hI h0 hb hown
  exact ⟨r, hr, ⟨ps', z', hI'⟩, h⟩

/-- **A write into an owned page** does not disturb the allocator. -/
theorem AllocInv.write (hp : Managed pool) (hI : AllocInv pool s own ps z) {q : Nat}
    (hq : 0 < own q) {s' : Mm} (hl : s'.freeList = s.freeList)
    (hw : ∀ a, ¬ InPage q a → s'.mem a = s.mem a) : AllocInv pool s' own ps z := by
  refine ⟨?_, hI.geo, hI.cover, hI.once, hI.managed⟩
  rw [hl]
  refine free_congr hI.free fun p hpp d hd => hw _ fun ha => ?_
  have := hI.geo.unit_le hpp
  exact hI.not_cover hp hq ha ⟨p, hpp, by omega, by omega⟩

end Alloc

/-! ## 2. One map -/

/-- The pages of one map, and the rest. -/
def treeOwn (rest : Nat → Nat) (m : Mem) (root p : Nat) : Nat := rest p + uses m 3 root p

/-- A step inside one map: the allocator stays in order, the rest keeps its pages. -/
structure Grown (pool : Nat → Prop) (rest : Nat → Nat) (root : Nat) (s s' : Mm) : Prop where
  alloc : ∃ ps z, AllocInv pool s' (treeOwn rest s'.mem root) ps z
  pml4 : s'.pml4 = s.pml4
  failed : s'.failed = s.failed
  keeps : Keeps rest s.mem s'.mem

/-- The indices that lead to the PML1 and to the leaf of an address. -/
def walkPath (virt : Nat) : List Nat := [getPml3Index virt, getPml2Index virt]

def leafPath (virt : Nat) : List Nat := walkPath virt ++ [getPml1Index virt]

/-- A list of indices. -/
def Path (π : List Nat) : Prop := ∀ i ∈ π, i < 512

/-- The frames of the map are the same. -/
def SameLeaves (m m' : Mem) (root : Nat) : Prop :=
  ∀ π, Path π → π.length = 3 → follow m' π root = follow m π root

section Map

variable {pool : Nat → Prop} {s : Mm} {rest extra : Nat → Nat} {root : Nat} {ps : List Nat}
  {z : Nat → Nat}

theorem leafPath_path (virt : Nat) : Path (leafPath virt) := by
  intro i hi
  simp only [leafPath, walkPath, List.cons_append, List.nil_append, List.mem_cons, List.not_mem_nil,
    or_false] at hi
  rcases hi with rfl | rfl | rfl <;> exact getPmlIndex_lt _ _

theorem walkPath_path (virt : Nat) : Path (walkPath virt) := fun i hi =>
  leafPath_path virt i (List.mem_append_left _ hi)

theorem Grown.trans {s' s'' : Mm} (h1 : Grown pool rest root s s') (h2 : Grown pool rest root s' s'') :
    Grown pool rest root s s'' :=
  ⟨h2.alloc, h2.pml4.trans h1.pml4, h2.failed.trans h1.failed, h1.keeps.trans h2.keeps⟩

@[simp] theorem entry_setEntry (s : Mm) (c i v : Nat) : entry (setEntry s c i v).mem c i = v := by
  unfold entry setEntry
  dsimp only
  rw [Function.update_self]

theorem follow_through {m : Mem} {path ρ : List Nat} {c i : Nat} (h : follow m path root = some c) :
    follow m (path ++ i :: ρ) root =
      if pmlGetP (entry m c i) then follow m ρ (pmlGetAddr (entry m c i)) else none := by
  rw [follow_append, h]
  rfl

theorem uses_le_treeOwn (rest : Nat → Nat) (m : Mem) (root p : Nat) :
    uses m 3 root p ≤ treeOwn rest m root p := Nat.le_add_left _ _

theorem uses_root (m : Mem) (n t : Nat) : 0 < uses m (n + 1) t t := by
  rw [uses_succ, if_pos rfl]
  omega

/-- A cleared table has nothing under it. -/
theorem uses_cleared {m : Mem} {t n p : Nat} (h : ∀ i, i < 512 → entry m t i = 0) :
    uses m (n + 1) t p = if p = t then 1 else 0 := by
  have hsum : ∀ i ∈ Finset.range 512, usesVia m n (entry m t i) p = 0 := fun i hi => by
    rw [h i (Finset.mem_range.mp hi)]
    rfl
  rw [uses_succ, Finset.sum_eq_zero hsum, Nat.add_zero]

/-- The pages of a map stand under its owner, so a tree all of whose pages are kept is the same. -/
theorem Keeps.uses {own : Nat → Nat} {m m' : Mem} {n t : Nat} (h : Keeps own m m')
    (hle : ∀ p, MemoryManager.uses m n t p ≤ own p) :
    (∀ p, MemoryManager.uses m' n t p = MemoryManager.uses m n t p) ∧
      ∀ π, Path π → π.length ≤ n → follow m' π t = follow m π t := by
  have hsame : ∀ q, 0 < tables m n t q → SamePage m m' q := fun q hq =>
    h q (lt_of_lt_of_le hq ((tables_le_uses n t q).trans (hle q)))
  exact ⟨(uses_congr hsame).1, (uses_congr hsame).2.2⟩

/-- **Hanging a part into the tree.** `path` leads to the table `c`, whose entry `i` is not present;
    `v` is the entry of a part that so far hangs nowhere (`extra`), or is not present itself. -/
theorem link_spec (hp : Managed pool) {path : List Nat} {n c i v : Nat}
    (hlen : path.length + n + 1 = 3) (hpath : Path path) (hi : i < 512)
    (hf : follow s.mem path root = some c) (habs : pmlGetP (entry s.mem c i) = false)
    (hv : ∀ p, usesVia s.mem n v p = extra p)
    (hI : AllocInv pool s (fun p => treeOwn rest s.mem root p + extra p) ps z) :
    Grown pool rest root s (setEntry s c i v) ∧
      (∀ p, uses (setEntry s c i v).mem 3 root p = uses s.mem 3 root p + extra p) ∧
      (∀ π, Path π → π.length ≤ 3 → ¬ path ++ [i] <+: π →
        follow (setEntry s c i v).mem π root = follow s.mem π root) ∧
      ∀ ρ, Path ρ → ρ.length ≤ n → follow (setEntry s c i v).mem (path ++ i :: ρ) root =
        if pmlGetP v then follow s.mem ρ (pmlGetAddr v) else none := by
  have hone : ∀ q, uses s.mem (path.length + n + 1) root q ≤ 1 := fun q => by
    have := hI.once q
    rw [hlen]
    unfold treeOwn at this
    omega
  have hroot : 4096 ∣ root := by
    have h1 : 0 < uses s.mem 3 root root := uses_root s.mem 2 root
    exact (hp root (hI.managed root (by unfold treeOwn; omega))).1
  have hcu : 0 < uses s.mem 3 root c := by
    have h1 := follow_tables (n := n) hpath hf
    rw [hlen] at h1
    exact lt_of_lt_of_le h1 (tables_le_uses 3 root c)
  have hcd : 4096 ∣ c := (hp c (hI.managed c (by unfold treeOwn; omega))).1
  have hm : (setEntry s c i v).mem = Function.update s.mem (cell c i) v := rfl
  obtain ⟨hu, hfol⟩ := uses_link hroot hpath hi hone hf habs hm
  rw [hlen] at hu hfol
  -- the part does not hold the table that is written
  have hout : ∀ q, q ≠ c → 4096 ∣ q → SamePage s.mem (setEntry s c i v).mem q := fun q hq hd =>
    samePage_set hcd hd hq hi
  have hsub : pmlGetP v = true →
      (∀ p, uses (setEntry s c i v).mem n (pmlGetAddr v) p = uses s.mem n (pmlGetAddr v) p) ∧
        ∀ π, Path π → π.length ≤ n →
          follow (setEntry s c i v).mem π (pmlGetAddr v) = follow s.mem π (pmlGetAddr v) := by
    intro hpv
    have hke : Keeps extra s.mem (setEntry s c i v).mem := fun q hq => by
      have h1 := hI.once q
      refine hout q ?_ (hp q (hI.managed q (by omega))).1
      rintro rfl
      unfold treeOwn at h1
      omega
    refine hke.uses fun p => ?_
    have := hv p
    unfold usesVia at this
    rw [if_pos hpv] at this
    omega
  have hvia : ∀ p, usesVia (setEntry s c i v).mem n v p = extra p := fun p => by
    rw [← hv p]
    unfold usesVia
    split_ifs with hpv
    · exact (hsub hpv).1 p
    · rfl
  have hun : ∀ p, uses (setEntry s c i v).mem 3 root p = uses s.mem 3 root p + extra p := fun p => by
    rw [hu p, hvia p]
  have hfields := setEntry_fields s c i v
  refine ⟨⟨⟨ps, z, ?_⟩, hfields.2.1, hfields.2.2, fun q hq => ?_⟩, hun,
    fun π h1 h2 h3 => hfol π h1 h2 h3, fun ρ hρ hl => ?_⟩
  · have hw : AllocInv pool (setEntry s c i v) _ ps z :=
      hI.write hp (q := c) (by unfold treeOwn; omega) hfields.1 fun a ha => ?_
    · refine hw.congr fun p => ?_
      unfold treeOwn
      rw [hun p, Nat.add_assoc]
    · refine Function.update_of_ne ?_ _ _
      rintro rfl
      exact ha (by unfold InPage cell; omega)
  · have h1 := hI.once q
    refine hout q ?_ (hp q (hI.managed q (by unfold treeOwn; omega))).1
    rintro rfl
    unfold treeOwn at h1
    omega
  · have hc : follow (setEntry s c i v).mem path root = some c := by
      rw [hfol path hpath (by omega) fun hpre => by
        have := hpre.length_le
        simp at this, hf]
    rw [follow_through hc, entry_setEntry]
    split_ifs with hpv
    · exact (hsub hpv).2 ρ hρ hl
    · rfl

theorem entry_zeroTable (s : Mm) {t i : Nat} (hi : i < 512) : entry (zeroTable s t).mem t i = 0 := by
  have hin : physToKernelPtr t ≤ cell t i ∧ cell t i < physToKernelPtr t + 4096 := by
    unfold cell
    omega
  unfold entry zeroTable
  dsimp only
  rw [if_pos hin]

/-- A write inside the page `f`, which has an owner outside the rest and outside the tree. -/
theorem treeOwn_write (hp : Managed pool) {f : Nat}
    (hI : AllocInv pool s (fun p => treeOwn rest s.mem root p + if p = f then 1 else 0) ps z)
    (s' : Mm) (hl : s'.freeList = s.freeList) (hw : ∀ a, ¬ InPage f a → s'.mem a = s.mem a) :
    AllocInv pool s' (fun p => treeOwn rest s'.mem root p + if p = f then 1 else 0) ps z ∧
      Keeps (treeOwn rest s.mem root) s.mem s'.mem := by
  have hk : Keeps (treeOwn rest s.mem root) s.mem s'.mem := by
    intro q hq a h1 h2
    refine hw a fun ha => ?_
    have hqf : q ≠ f := by
      rintro rfl
      have := hI.once q
      rw [if_pos rfl] at this
      omega
    have hfd := (hp f (hI.managed f (by rw [if_pos rfl]; omega))).1
    have hqd := (hp q (hI.managed q (by omega))).1
    exact hqf (InPage.inj hqd hfd ⟨h1, h2⟩ ha)
  refine ⟨(hI.write hp (q := f) (by rw [if_pos rfl]; omega) hl hw).congr fun p => ?_, hk⟩
  unfold treeOwn
  rw [(hk.uses (uses_le_treeOwn rest s.mem root)).1 p]

/-- **A page for the map** that is not hung in yet. -/
theorem freshPage_spec (hp : Managed pool) (hI : AllocInv pool s (treeOwn rest s.mem root) ps z) :
    Settles (¬ Spare pool (treeOwn rest s.mem root) 1) (fun k => allocatePages k s 1)
      (fun r => r.1.failed = true)
      fun r => (∃ ps' z', AllocInv pool r.1
          (fun p => treeOwn rest r.1.mem root p + if p = r.2 then 1 else 0) ps' z') ∧
        r.1.pml4 = s.pml4 ∧ r.1.failed = s.failed ∧ pool r.2 ∧
        Keeps (treeOwn rest s.mem root) s.mem r.1.mem := by
  refine (allocatePage_spec hp hI).mono id ?_
  intro r hx
  obtain ⟨⟨ps', z', hI'⟩, h1, h2, h3, -, h5⟩ := hx
  refine ⟨⟨ps', z', hI'.congr fun p => ?_⟩, h1, h2, h3, h5⟩
  unfold treeOwn
  rw [(h5.uses (uses_le_treeOwn rest s.mem root)).1 p]

theorem pmlEntry_pool (hp : Managed pool) {f : Nat} (hf : pool f) :
    pmlGetP (pmlEntry f) = true ∧ pmlGetAddr (pmlEntry f) = f :=
  pmlEntry_facts (hp f hf).1 (by have := (hp f hf).2; omega)

/-- What a walk of tables leaves: the map with at most a few more table pages. -/
structure Walked (pool : Nat → Prop) (rest : Nat → Nat) (root : Nat) (s s' : Mm) (path : List Nat)
    (t k : Nat) : Prop where
  grown : Grown pool rest root s s'
  leads : follow s'.mem path root = some t
  leaves : SameLeaves s.mem s'.mem root
  spare : ∀ j, Spare pool (treeOwn rest s.mem root) (j + k) →
    Spare pool (treeOwn rest s'.mem root) j

/-- **One level of `MapProcessPage`.** -/
theorem nextTable_spec (hp : Managed pool) (path : List Nat) {n t i : Nat}
    (hlen : path.length + n + 2 = 3) (hpath : Path path) (hi : i < 512)
    (hf : follow s.mem path root = some t)
    (hI : AllocInv pool s (treeOwn rest s.mem root) ps z) :
    Settles (¬ Spare pool (treeOwn rest s.mem root) 1) (fun k => nextTable k s t i)
      (fun r => r.1.failed = true)
      fun r => Walked pool rest root s r.1 (path ++ [i]) r.2 1 := by
  by_cases hP : pmlGetP (entry s.mem t i) = true
  · refine Or.inl ⟨(s, pmlGetAddr (entry s.mem t i)), ?_, ⟨⟨ps, z, hI⟩, rfl, rfl, fun _ _ _ _ _ => rfl⟩,
      ?_, fun _ _ _ => rfl, fun j h => h.mono (by omega)⟩
    · unfold nextTable
      simp only [hP, if_true]
      exact Halts.const _
    · rw [follow_through hf, if_pos hP]
      rfl
  · have hP : pmlGetP (entry s.mem t i) = false := by simpa using hP
    unfold nextTable
    simp only [hP, Bool.false_eq_true, if_false]
    refine (freshPage_spec hp hI).map ?_ fun a ha => by simpa using ha
    intro x hx
    obtain ⟨s1, f⟩ := x
    obtain ⟨⟨ps1, z1, hI1⟩, hpml, hfail, hpool, hk1⟩ := hx
    dsimp only at *
    -- the new page is cleared, then hung into `t`
    obtain ⟨hfl, hzp, hzf⟩ := zeroTable_fields s1 f
    obtain ⟨hI2, hk2⟩ := treeOwn_write hp hI1 (zeroTable s1 f) hfl fun a ha => if_neg ha
    have hle := uses_le_treeOwn rest s.mem root
    have hle1 := uses_le_treeOwn rest s1.mem root
    have hpath3 : path.length ≤ 3 := by omega
    have hsame : ∀ π, Path π → π.length ≤ 3 →
        follow (zeroTable s1 f).mem π root = follow s.mem π root := fun π h1 h2 => by
      rw [(hk2.uses hle1).2 π h1 h2, (hk1.uses hle).2 π h1 h2]
    have hkr : Keeps rest s.mem (zeroTable s1 f).mem :=
      (hk1.mono fun p => by unfold treeOwn; omega).trans (hk2.mono fun p => by unfold treeOwn; omega)
    have habs : pmlGetP (entry (zeroTable s1 f).mem t i) = false := by
      have h1 := hsame (path ++ [i]) (fun j hj => ?_) (by simp; omega)
      · rw [follow_through ((hsame path hpath hpath3).trans hf), follow_through hf, hP] at h1
        by_contra hc
        rw [if_pos (by simpa using hc)] at h1
        exact absurd h1 (by simp [follow])
      · rcases List.mem_append.mp hj with h | h
        · exact hpath j h
        · exact List.mem_singleton.mp h ▸ hi
    obtain ⟨hPf, hAf⟩ := pmlEntry_pool hp hpool
    have hclear : ∀ j, j < 512 → entry (zeroTable s1 f).mem f j = 0 := fun j hj => entry_zeroTable s1 hj
    have hvia : ∀ p, usesVia (zeroTable s1 f).mem (n + 1) (pmlEntry f) p = if p = f then 1 else 0 := by
      intro p
      unfold usesVia
      rw [if_pos hPf, hAf, uses_cleared hclear]
    obtain ⟨hg, hu, hfol, hthru⟩ := link_spec hp (n := n + 1) (by omega) hpath hi
      ((hsame path hpath hpath3).trans hf) habs hvia hI2
    refine ⟨⟨hg.alloc, hg.pml4.trans (hzp.trans hpml), hg.failed.trans (hzf.trans hfail),
      hkr.trans hg.keeps⟩, ?_, ?_, ?_⟩
    · rw [hthru [] (fun j hj => absurd hj List.not_mem_nil) (by simp), if_pos hPf, hAf]
      rfl
    · -- the new table is empty, and there was none before
      intro π hπ hl
      by_cases hpre : path ++ [i] <+: π
      · obtain ⟨ρ, rfl⟩ := hpre
        rw [List.append_assoc] at hπ hl ⊢
        have hρ : Path ρ := fun j hj => hπ j (by simp [hj])
        have hρl : ρ.length = n + 1 := by
          simp at hl
          omega
        rw [List.singleton_append, hthru ρ hρ (by omega), follow_through hf, hP, if_pos hPf, hAf]
        cases ρ with
        | nil => simp at hρl
        | cons j ρ =>
            have hj : j < 512 := hρ j List.mem_cons_self
            simp [follow, hclear j hj, pmlGetP]
      · rw [hfol π hπ (by omega) hpre, hsame π hπ (by omega)]
    · intro j hS
      refine hS.less (f := f) fun p => ?_
      unfold treeOwn
      rw [hu p, (hk2.uses hle1).1 p, (hk1.uses hle).1 p]
      omega

/-! A failed allocation is remembered. -/

theorem allocatePages_failed {k n : Nat} {r : Mm × Nat} (h : s.failed = true)
    (hr : allocatePages k s n = some r) : r.1.failed = true := by
  obtain ⟨p, -, hr⟩ := Option.bind_eq_some_iff.mp hr
  split_ifs at hr
  · rw [← Option.some.inj hr]
  · obtain ⟨q, -, rfl⟩ := Option.map_eq_some_iff.mp hr
    exact h

theorem nextTable_failed {k t i : Nat} {r : Mm × Nat} (h : s.failed = true)
    (hr : nextTable k s t i = some r) : r.1.failed = true := by
  unfold nextTable at hr
  split_ifs at hr
  · rw [← Option.some.inj hr]
    exact h
  · obtain ⟨q, hq, rfl⟩ := Option.map_eq_some_iff.mp hr
    have h1 := allocatePages_failed h hq
    simpa using h1

theorem walkTables_failed {k e virt : Nat} {r : Mm × Nat} (h : s.failed = true)
    (hr : walkTables k s e virt = some r) : r.1.failed = true := by
  obtain ⟨q, hq, hr⟩ := Option.bind_eq_some_iff.mp hr
  exact nextTable_failed (nextTable_failed h hq) hr

theorem mapProcessPage_failed {k e phys virt : Nat} {r : Mm} (h : s.failed = true)
    (hr : mapProcessPage k s e phys virt = some r) : r.failed = true := by
  obtain ⟨q, hq, rfl⟩ := Option.map_eq_some_iff.mp hr
  have h1 := walkTables_failed h hq
  simpa using h1

theorem mapAnyPage_failed {k e virt : Nat} {r : Mm × Nat} (h : s.failed = true)
    (hr : mapAnyPage k s e virt = some r) : r.1.failed = true := by
  obtain ⟨q, hq, hr⟩ := Option.bind_eq_some_iff.mp hr
  dsimp only at hr
  have h1 := walkTables_failed h hq
  split_ifs at hr
  · rw [← Option.some.inj hr]
    exact h1
  · obtain ⟨q', hq', rfl⟩ := Option.map_eq_some_iff.mp hr
    have h2 := allocatePages_failed h1 hq'
    simpa using h2

theorem forkPage_failed {k new i j pml1 x : Nat} {r : Mm} (h : s.failed = true)
    (hr : forkPage k new i j pml1 x s = some r) : r.failed = true := by
  unfold forkPage at hr
  dsimp only at hr
  split_ifs at hr
  · obtain ⟨q, hq, hr⟩ := Option.bind_eq_some_iff.mp hr
    have h1 := allocatePages_failed h hq
    exact mapProcessPage_failed (by simpa using h1) hr
  · rw [← Option.some.inj hr]
    exact h

/-- **The walk of `MapProcessPage`** ends at the PML1 of the address. -/
theorem walkTables_spec (hp : Managed pool) {e : Nat} (virt : Nat) (he : pmlGetAddr e = root)
    (hI : AllocInv pool s (treeOwn rest s.mem root) ps z) :
    Settles (¬ Spare pool (treeOwn rest s.mem root) 2) (fun k => walkTables k s e virt)
      (fun r => r.1.failed = true)
      fun r => Walked pool rest root s r.1 (walkPath virt) r.2 2 := by
  unfold walkTables
  rw [he]
  refine Settles.bind ((nextTable_spec hp [] (n := 1) rfl (fun j hj => absurd hj List.not_mem_nil)
    (getPmlIndex_lt _ _) rfl hI).mono (fun h hS => h (hS.mono (by omega))) fun r hr => hr) ?_
    fun a n r ha hr => nextTable_failed ha hr
  intro x hx
  obtain ⟨s1, t⟩ := x
  obtain ⟨hg, hlead, hsame, hsp⟩ := hx
  dsimp only at *
  obtain ⟨ps1, z1, hI1⟩ := hg.alloc
  refine (nextTable_spec hp [getPml3Index virt] (n := 0) rfl
    (fun j hj => List.mem_singleton.mp hj ▸ getPmlIndex_lt _ _) (getPmlIndex_lt _ _) hlead hI1).mono
    (fun h hS => h (hsp 1 hS)) ?_
  intro r hx
  obtain ⟨hg2, hlead2, hsame2, hsp2⟩ := hx
  exact ⟨hg.trans hg2, hlead2, fun π h1 h2 => (hsame2 π h1 h2).trans (hsame π h1 h2),
    fun j hS => hsp2 j (hsp (j + 1) hS)⟩

/-- The entry at the end of a walk, by the leaf it stands for. -/
theorem leaf_entry {m : Mem} {virt c : Nat} (h : follow m (walkPath virt) root = some c) :
    follow m (leafPath virt) root = if pmlGetP (entry m c (getPml1Index virt)) then
      some (pmlGetAddr (entry m c (getPml1Index virt))) else none :=
  follow_through h

/-- A path of three indices is the leaf path or does not run through it. -/
theorem leafPath_of_length {virt : Nat} {π : List Nat} (hl : π.length = 3)
    (hpre : walkPath virt ++ [getPml1Index virt] <+: π) : π = leafPath virt := by
  obtain ⟨ρ, rfl⟩ := hpre
  have : ρ = [] := by simpa [walkPath] using hl
  rw [this, List.append_nil]
  rfl

/-- **Hanging a frame into the leaf** of an address, where there is none. -/
theorem leaf_spec (hp : Managed pool) {virt c f : Nat} (hlead : follow s.mem (walkPath virt) root = some c)
    (habs : follow s.mem (leafPath virt) root = none) (hf : pool f)
    (hI : AllocInv pool s (fun p => treeOwn rest s.mem root p + if p = f then 1 else 0) ps z) :
    Grown pool rest root s (setEntry s c (getPml1Index virt) (pmlEntry f)) ∧
      follow (setEntry s c (getPml1Index virt) (pmlEntry f)).mem (leafPath virt) root = some f ∧
      ∀ π, Path π → π.length = 3 → π ≠ leafPath virt →
        follow (setEntry s c (getPml1Index virt) (pmlEntry f)).mem π root = follow s.mem π root := by
  obtain ⟨hPf, hAf⟩ := pmlEntry_pool hp hf
  have habsP : pmlGetP (entry s.mem c (getPml1Index virt)) = false := by
    by_contra hc
    rw [leaf_entry hlead, if_pos (by simpa using hc)] at habs
    exact absurd habs (by simp)
  obtain ⟨hg, -, hfol, hthru⟩ := link_spec hp (n := 0) (v := pmlEntry f) (by simp [walkPath])
    (walkPath_path virt) (getPmlIndex_lt 0 virt) hlead habsP
    (fun p => by unfold usesVia; rw [if_pos hPf, hAf]; rfl) hI
  refine ⟨hg, ?_, fun π h1 h2 h3 => hfol π h1 (by omega) fun hpre => h3 (leafPath_of_length h2 hpre)⟩
  have h1 := hthru [] (fun j hj => absurd hj List.not_mem_nil) le_rfl
  rw [if_pos hPf, hAf] at h1
  exact h1

/-- **`MapProcessPage` with a page of the caller**, at an address that is not mapped. -/
theorem mapProcessPage_spec (hp : Managed pool) {e phys : Nat} (virt : Nat) (he : pmlGetAddr e = root)
    (habs : follow s.mem (leafPath virt) root = none)
    (hI : AllocInv pool s (fun p => treeOwn rest s.mem root p + if p = phys then 1 else 0) ps z) :
    Settles True (fun k => mapProcessPage k s e phys virt) (fun r => r.failed = true)
      fun r => Grown pool rest root s r ∧ follow r.mem (leafPath virt) root = some phys ∧
        ∀ π, Path π → π.length = 3 → π ≠ leafPath virt →
          follow r.mem π root = follow s.mem π root := by
  have hphys : pool phys := hI.managed phys (by rw [if_pos rfl]; omega)
  -- for the walk the page belongs to the rest
  have hI1 : AllocInv pool s (treeOwn (fun p => rest p + if p = phys then 1 else 0) s.mem root) ps z :=
    hI.congr fun p => by unfold treeOwn; exact Nat.add_right_comm _ _ _
  refine ((walkTables_spec hp virt he hI1).mono (fun _ => trivial) fun r hr => hr).map ?_
    fun a ha => by simpa using ha
  intro x hx
  obtain ⟨s1, c⟩ := x
  obtain ⟨hg, hlead, hsame, -⟩ := hx
  dsimp only at *
  obtain ⟨ps1, z1, hI2⟩ := hg.alloc
  have hI3 : AllocInv pool s1 (fun p => treeOwn rest s1.mem root p + if p = phys then 1 else 0) ps1 z1 :=
    hI2.congr fun p => by unfold treeOwn; exact Nat.add_right_comm _ _ _
  have hleaf := leafPath_path virt
  obtain ⟨hg2, hfol, hother⟩ := leaf_spec hp hlead ((hsame _ hleaf rfl).trans habs) hphys hI3
  refine ⟨⟨hg2.alloc, hg2.pml4.trans hg.pml4, hg2.failed.trans hg.failed, ?_⟩, hfol,
    fun π h1 h2 h3 => (hother π h1 h2 h3).trans (hsame π h1 h2)⟩
  exact (hg.keeps.mono fun p => Nat.le_add_right _ _).trans hg2.keeps

/-- **`MapProcessPage`** maps the address and loses no leaf. -/
theorem mapAnyPage_spec (hp : Managed pool) {e : Nat} (virt : Nat) (he : pmlGetAddr e = root)
    (hI : AllocInv pool s (treeOwn rest s.mem root) ps z) :
    Settles True (fun k => mapAnyPage k s e virt) (fun r => r.1.failed = true)
      fun r => Grown pool rest root s r.1 ∧ (∃ f, follow r.1.mem (leafPath virt) root = some f) ∧
        ∀ π f, Path π → π.length = 3 → follow s.mem π root = some f →
          follow r.1.mem π root = some f := by
  refine Settles.bind ((walkTables_spec hp virt he hI).mono (fun _ => trivial) fun r hr => hr) ?_ ?_
  · intro x hx
    obtain ⟨s1, c⟩ := x
    obtain ⟨hg, hlead, hsame, -⟩ := hx
    dsimp only at *
    obtain ⟨ps1, z1, hI1⟩ := hg.alloc
    have hle := leaf_entry hlead
    by_cases hP : pmlGetP (entry s1.mem c (getPml1Index virt)) = true
    · rw [if_pos hP] at hle
      simp only [hP, if_true]
      exact Or.inl ⟨_, Halts.const _, hg, ⟨_, hle⟩, fun π f h1 h2 h3 => (hsame π h1 h2).trans h3⟩
    · rw [if_neg hP] at hle
      simp only [hP]
      refine ((freshPage_spec hp hI1).mono (fun _ => trivial) fun r hr => hr).map ?_
        fun a ha => by simpa using ha
      intro x hx
      obtain ⟨s2, f⟩ := x
      obtain ⟨⟨ps2, z2, hI2⟩, hpml, hfail, hpool, hk⟩ := hx
      dsimp only at *
      have hsame2 := (hk.uses (uses_le_treeOwn rest s1.mem root)).2
      have hleaf := leafPath_path virt
      obtain ⟨hg3, hfol, hother⟩ := leaf_spec hp
        ((hsame2 _ (walkPath_path virt) (by simp [walkPath])).trans hlead)
        ((hsame2 _ hleaf le_rfl).trans hle) hpool hI2
      refine ⟨⟨hg3.alloc, hg3.pml4.trans (hpml.trans hg.pml4), hg3.failed.trans (hfail.trans hg.failed),
        hg.keeps.trans ((hk.mono fun p => by unfold treeOwn; omega).trans hg3.keeps)⟩, ⟨f, hfol⟩,
        fun π g h1 h2 h3 => ?_⟩
      by_cases hπ : π = leafPath virt
      · have h4 := (hsame π h1 h2).trans h3
        rw [hπ, hle] at h4
        exact absurd h4 (by simp)
      · rw [hother π h1 h2 hπ, hsame2 π h1 (by omega), hsame π h1 h2, h3]
  · intro a n r ha hr
    dsimp only at hr
    split_ifs at hr
    · rw [← Option.some.inj hr]
      exact ha
    · obtain ⟨q, hq, rfl⟩ := Option.map_eq_some_iff.mp hr
      have h1 := allocatePages_failed ha hq
      simpa using h1

/-- The address has its tables and is not mapped. -/
def Unmapped (m : Mem) (root virt : Nat) : Prop :=
  (∃ c, follow m (walkPath virt) root = some c) ∧ follow m (leafPath virt) root = none

theorem follow_step {m : Mem} {i t c : Nat} {π : List Nat} (h : follow m (i :: π) t = some c) :
    pmlGetP (entry m t i) = true ∧ follow m π (pmlGetAddr (entry m t i)) = some c := by
  unfold follow at h
  split_ifs at h with hp
  exact ⟨hp, h⟩

/-- **`UnmapProcessPage` of an address that is not mapped** changes no tree. -/
theorem unmapProcessPage_spec (hp : Managed pool) {e virt : Nat} (he : pmlGetAddr e = root)
    (hu : Unmapped s.mem root virt) (hI : AllocInv pool s (treeOwn rest s.mem root) ps z) :
    Grown pool rest root s (unmapProcessPage s e virt) ∧
      ∀ π, Path π → π.length ≤ 3 →
        follow (unmapProcessPage s e virt).mem π root = follow s.mem π root := by
  obtain ⟨⟨c, hc⟩, habs⟩ := hu
  have hc1 := follow_step hc
  have hc2 := (follow_step hc1.2).2
  have heq : unmapProcessPage s e virt = setEntry s c (getPml1Index virt) 0 := by
    have : pmlGetAddr (entry s.mem (pmlGetAddr (entry s.mem root (getPml3Index virt)))
        (getPml2Index virt)) = c := Option.some.inj hc2
    unfold unmapProcessPage
    dsimp only
    rw [he, this]
  have habsP : pmlGetP (entry s.mem c (getPml1Index virt)) = false := by
    by_contra hcon
    rw [leaf_entry hc, if_pos (by simpa using hcon)] at habs
    exact absurd habs (by simp)
  have hv : ∀ p, usesVia s.mem 0 0 p = (fun _ : Nat => 0) p := fun p => rfl
  obtain ⟨hg, -, hfol, hthru⟩ := link_spec hp (by simp [walkPath]) (walkPath_path virt)
    (getPmlIndex_lt 0 virt) hc habsP hv (hI.congr fun p => Nat.add_zero _)
  rw [heq]
  refine ⟨hg, fun π h1 h2 => ?_⟩
  by_cases hpre : walkPath virt ++ [getPml1Index virt] <+: π
  · have hl : π.length = 3 := le_antisymm h2 (by simpa [walkPath] using hpre.length_le)
    rw [leafPath_of_length hl hpre, habs]
    exact hthru [] (fun j hj => absurd hj List.not_mem_nil) le_rfl
  · exact hfol π h1 h2 hpre

/-- **`CreateProcessMap`** makes a map of one page. -/
theorem createProcessMap_spec (hp : Managed pool) {own : Nat → Nat} (hI : AllocInv pool s own ps z) :
    Settles (¬ Spare pool own 1) (fun k => createProcessMap k s) (fun r => r.1.failed = true)
      fun r => pmlGetP r.2 = true ∧ Grown pool own (pmlGetAddr r.2) s r.1 ∧
        (∀ π, follow r.1.mem π (pmlGetAddr r.2) ≠ none → π = [] ∨ ∃ i ∈ π, 512 ≤ i) ∧
        ∀ p, uses r.1.mem 3 (pmlGetAddr r.2) p = if p = pmlGetAddr r.2 then 1 else 0 := by
  refine (allocatePage_spec hp hI).map ?_ fun a ha => by simpa using ha
  intro x hx
  obtain ⟨s1, f⟩ := x
  obtain ⟨⟨ps1, z1, hI1⟩, hpml, hfail, hpool, h0, hk⟩ := hx
  dsimp only at *
  obtain ⟨hPf, hAf⟩ := pmlEntry_pool hp hpool
  obtain ⟨hfl, hzp, hzf⟩ := zeroTable_fields s1 f
  have hclear : ∀ j, j < 512 → entry (zeroTable s1 f).mem f j = 0 := fun j hj => entry_zeroTable s1 hj
  have hu : ∀ p, uses (zeroTable s1 f).mem 3 f p = if p = f then 1 else 0 := fun p =>
    uses_cleared hclear
  rw [hAf]
  refine ⟨hPf, ⟨⟨ps1, z1, ?_⟩, hzp.trans hpml, hzf.trans hfail, fun q hq a h1 h2 => ?_⟩, ?_, hu⟩
  · refine (hI1.write hp (q := f) (by rw [if_pos rfl]; omega) hfl fun a ha => if_neg ha).congr fun p => ?_
    unfold treeOwn
    rw [hu p]
  · have hqf : q ≠ f := by
      rintro rfl
      omega
    have hd := (hp q (hI.managed q hq)).1
    have hout : ¬ InPage f a := fun ha => hqf (InPage.inj hd (hp f hpool).1 ⟨h1, h2⟩ ha)
    exact (if_neg hout).trans (hk q hq a h1 h2)
  · intro π hπ
    cases π with
    | nil => exact Or.inl rfl
    | cons i π =>
        refine Or.inr ⟨i, List.mem_cons_self, ?_⟩
        by_contra hlt
        refine hπ ?_
        simp [follow, hclear i (by omega), pmlGetP]

/-- **`FreeProcessPML1` .. `FreeProcessPML3`** return and give back the pages of the tree, each once. -/
theorem freeTable_spec (hp : Managed pool) {own rest : Nat → Nat} {n t : Nat}
    (hI : AllocInv pool s own ps z) (hown : ∀ p, own p = rest p + uses s.mem n t p) :
    ∃ r, Halts (fun k => freeTable k n t s) r ∧ (∃ ps' z', AllocInv pool r rest ps' z') ∧
      r.pml4 = s.pml4 ∧ r.failed = s.failed ∧ Keeps rest s.mem r.mem := by
  induction n generalizing s own rest t ps z with
  | zero =>
      have ht : 4096 ∣ t := (hp t (hI.managed t (by rw [hown t]; unfold uses; rw [if_pos rfl]; omega))).1
      exact freePages_spec hp hI Nat.one_pos ht fun p => by
        rw [hown p]
        simp only [uses, inRun_one ht]
  | succ n ih =>
      have ht : 4096 ∣ t := (hp t (hI.managed t (by have := uses_root s.mem n t; rw [hown t]; omega))).1
      -- before turn `i` the children from `i` on are still there, as they were at the start
      let left := fun i p => rest p + (if p = t then 1 else 0) +
        ∑ j ∈ Finset.Ico i 512, usesVia s.mem n (entry s.mem t j) p
      let J := fun i (s' : Mm) => (∃ ps' z', AllocInv pool s' (left i) ps' z') ∧
        s'.pml4 = s.pml4 ∧ s'.failed = s.failed ∧ Keeps (left i) s.mem s'.mem
      have hstart : J 0 s := by
        refine ⟨⟨ps, z, hI.congr fun p => ?_⟩, rfl, rfl, fun _ _ _ _ _ => rfl⟩
        have h1 := hown p
        rw [uses_succ, Finset.range_eq_Ico] at h1
        rw [h1]
        exact Nat.add_assoc _ _ _
      have hturn : ∀ i s', i < 512 → J i s' → Settles False
          (fun k => if pmlGetP (entry s'.mem t i) then
            freeTable k n (pmlGetAddr (entry s'.mem t i)) s' else some s')
          (fun _ => False) (J (i + 1)) := by
        intro i s' hi hx
        obtain ⟨⟨ps', z', hI'⟩, h1, h2, h3⟩ := hx
        have hleft : ∀ p, left i p = left (i + 1) p + usesVia s.mem n (entry s.mem t i) p := fun p => by
          have := Finset.sum_eq_sum_Ico_succ_bot hi fun j => usesVia s.mem n (entry s.mem t j) p
          simp only [left]
          rw [this]
          omega
        have hent : entry s'.mem t i = entry s.mem t i :=
          (h3 t (by simp only [left, if_true]; omega)).entry hi
        simp only [hent]
        by_cases hP : pmlGetP (entry s.mem t i) = true
        · simp only [hP, if_true]
          have hvia : ∀ p, usesVia s.mem n (entry s.mem t i) p =
              uses s.mem n (pmlGetAddr (entry s.mem t i)) p := fun p => by
            unfold usesVia
            rw [if_pos hP]
          have hsame := (h3.uses (n := n) (t := pmlGetAddr (entry s.mem t i)) fun p => by
            rw [hleft p, hvia p]
            omega).1
          have hown2 : ∀ p, left i p = left (i + 1) p +
              uses s'.mem n (pmlGetAddr (entry s.mem t i)) p := fun p => by
            rw [hsame p, hleft p, hvia p]
          obtain ⟨r, hr, hI2, h4, h5, h6⟩ := ih hI' hown2
          exact Or.inl ⟨r, hr, hI2, h4.trans h1, h5.trans h2,
            (h3.mono fun p => by rw [hleft p]; omega).trans h6⟩
        · have hz : ∀ p, usesVia s.mem n (entry s.mem t i) p = 0 := fun p => by
            unfold usesVia
            rw [if_neg hP]
          have hP : pmlGetP (entry s.mem t i) = false := by simpa using hP
          simp only [hP, Bool.false_eq_true, if_false]
          refine Or.inl ⟨s', Halts.const _, ⟨ps', z', hI'.congr fun p => ?_⟩, h1, h2, h3.mono fun p => ?_⟩
          · have h4 := hleft p
            rw [hz p, Nat.add_zero] at h4
            exact h4.symm
          · rw [hleft p]
            omega
      obtain ⟨s', hs', ⟨ps', z', hI'⟩, h1, h2, h3⟩ := (Settles.forLoop hturn (fun _ _ _ _ h _ => h)
        512 0 s rfl hstart).halts id
      have hend : ∀ p, left 512 p = rest p + if p = t then 1 else 0 := fun p => by
        simp only [left, Finset.Ico_self, Finset.sum_empty, Nat.add_zero]
      have hown2 : ∀ p, left 512 p = rest p + if InRun t 1 p then 1 else 0 := fun p => by
        rw [hend p]
        simp only [inRun_one ht]
      obtain ⟨r, hr, hI2, h4, h5, h6⟩ := freePages_spec hp hI' Nat.one_pos ht hown2
      refine ⟨r, hs'.bind hr, hI2, h4.trans h1, h5.trans h2, (h3.mono fun p => ?_).trans h6⟩
      rw [hend p]
      omega

/-- The order in which `ForkProcessMap` visits the leaves. -/
def leafPos (i j k : Nat) : Nat := (i * 512 + j) * 512 + k

/-- Only leaves before the position `n` are there. -/
def LeavesBelow (m : Mem) (root n : Nat) : Prop :=
  ∀ i j k, i < 512 → j < 512 → k < 512 → follow m [i, j, k] root ≠ none → leafPos i j k < n

theorem LeavesBelow.mono {m : Mem} {n n' : Nat} (h : LeavesBelow m root n) (hle : n ≤ n') :
    LeavesBelow m root n' := fun i j k hi hj hk hne => lt_of_lt_of_le (h i j k hi hj hk hne) hle

theorem leafPos_row (i j : Nat) : leafPos i j 512 = leafPos i (j + 1) 0 := by
  unfold leafPos
  omega

theorem leafPos_plane (i : Nat) : leafPos i 512 0 = leafPos (i + 1) 0 0 := by
  unfold leafPos
  omega

/-- **The innermost body of `ForkProcessMap`** at position `(i, j, k)`. -/
theorem forkPage_spec (hp : Managed pool) {s0 : Mm} {new i j k pml1 : Nat} (hn : pmlGetAddr new = root)
    (hi : i < 512) (hj : j < 512) (hk : k < 512)
    (h : Grown pool rest root s0 s ∧ LeavesBelow s.mem root (leafPos i j k)) :
    Settles True (fun f => forkPage f new i j pml1 k s) (fun r => r.failed = true)
      fun r => Grown pool rest root s0 r ∧ LeavesBelow r.mem root (leafPos i j (k + 1)) := by
  obtain ⟨hg, hb⟩ := h
  unfold forkPage
  dsimp only
  by_cases hP : pmlGetP (entry s.mem pml1 k) = true
  · simp only [hP, if_true]
    obtain ⟨ps1, z1, hI1⟩ := hg.alloc
    refine Settles.bind ((freshPage_spec hp hI1).mono (fun _ => trivial) fun r hr => hr) ?_
      fun a n r ha hr => mapProcessPage_failed (by simpa using ha) hr
    intro x hx
    obtain ⟨s2, d⟩ := x
    obtain ⟨⟨ps2, z2, hI2⟩, hpml, hfail, hpool, hk2⟩ := hx
    dsimp only at *
    obtain ⟨hcl, hcp, hcf⟩ := copyPage_fields s2 d (pmlGetAddr (entry s.mem pml1 k))
    obtain ⟨hI3, hk3⟩ := treeOwn_write hp hI2 (copyPage s2 d (pmlGetAddr (entry s.mem pml1 k))) hcl
      fun a ha => if_neg ha
    have hsame : ∀ π, Path π → π.length ≤ 3 → follow (copyPage s2 d
        (pmlGetAddr (entry s.mem pml1 k))).mem π root = follow s.mem π root := fun π h1 h2 => by
      rw [(hk3.uses (uses_le_treeOwn rest s2.mem root)).2 π h1 h2,
        (hk2.uses (uses_le_treeOwn rest s.mem root)).2 π h1 h2]
    obtain ⟨e1, e2, e3⟩ := forkVirt_indices hi hj hk
    have hleaf : leafPath ((k <<< 12) ||| (j <<< 21) ||| (i <<< 30)) = [i, j, k] := by
      unfold leafPath walkPath
      rw [e1, e2, e3]
      rfl
    have habs : follow (copyPage s2 d (pmlGetAddr (entry s.mem pml1 k))).mem
        (leafPath ((k <<< 12) ||| (j <<< 21) ||| (i <<< 30))) root = none := by
      rw [hsame _ (leafPath_path _) le_rfl, hleaf]
      by_contra hne
      exact lt_irrefl _ (hb i j k hi hj hk hne)
    refine (mapProcessPage_spec hp _ hn habs hI3).mono id ?_
    intro r hx
    obtain ⟨hg4, -, hother⟩ := hx
    refine ⟨⟨hg4.alloc, hg4.pml4.trans (hcp.trans (hpml.trans hg.pml4)),
      hg4.failed.trans (hcf.trans (hfail.trans hg.failed)), ?_⟩, fun i' j' k' hi' hj' hk' hne => ?_⟩
    · have hle : ∀ p, rest p ≤ treeOwn rest s.mem root p := fun p => Nat.le_add_right _ _
      have hle2 : ∀ p, rest p ≤ treeOwn rest s2.mem root p := fun p => Nat.le_add_right _ _
      exact hg.keeps.trans ((hk2.mono hle).trans ((hk3.mono hle2).trans hg4.keeps))
    · by_cases heq : [i', j', k'] = [i, j, k]
      · simp only [List.cons.injEq, and_true] at heq
        unfold leafPos
        omega
      · have hpath : Path [i', j', k'] := by simp [Path, hi', hj', hk']
        rw [hother _ hpath rfl (hleaf ▸ heq), hsame _ hpath le_rfl] at hne
        exact lt_of_lt_of_le (hb i' j' k' hi' hj' hk' hne) (Nat.le_succ _)
  · have hP : pmlGetP (entry s.mem pml1 k) = false := by simpa using hP
    simp only [hP, Bool.false_eq_true, if_false]
    exact Or.inl ⟨s, Halts.const _, hg, hb.mono (Nat.le_succ _)⟩

/-- **`ForkProcessMap`** makes a map of its own pages, whatever stands in the tables it reads. -/
theorem forkProcessMap_spec (hp : Managed pool) {own : Nat → Nat} (hI : AllocInv pool s own ps z) :
    Settles True (fun k => forkProcessMap k s) (fun r => r.1.failed = true)
      fun r => pmlGetP r.2 = true ∧ Grown pool own (pmlGetAddr r.2) s r.1 := by
  have hkeep1 : ∀ f new i j pml1 (s' r : Mm), s'.failed = true →
      forLoop (forkPage f new i j pml1) 512 0 s' = some r → r.failed = true :=
    fun f new i j pml1 s' r ha hr => forLoop_keeps (B := fun s : Mm => s.failed = true)
      (fun _ _ _ h1 h2 => forkPage_failed h1 h2) ha hr
  have hkeep2 : ∀ f new i pml2 (s' r : Mm), s'.failed = true →
      forLoop (fun j s => if pmlGetP (entry s.mem pml2 j) then
          forLoop (forkPage f new i j (pmlGetAddr (entry s.mem pml2 j))) 512 0 s
        else some s) 512 0 s' = some r → r.failed = true := by
    intro f new i pml2 s' r ha hr
    refine forLoop_keeps (B := fun s : Mm => s.failed = true) (fun j s1 r1 h1 h2 => ?_) ha hr
    split_ifs at h2
    · exact hkeep1 f new i j _ s1 r1 h1 h2
    · exact Option.some.inj h2 ▸ h1
  have hkeep3 : ∀ f new pml3 i (s' r : Mm), s'.failed = true →
      (if pmlGetP (entry s'.mem pml3 i) then
        forLoop (fun j s => if pmlGetP (entry s.mem (pmlGetAddr (entry s'.mem pml3 i)) j) then
            forLoop (forkPage f new i j (pmlGetAddr (entry s.mem (pmlGetAddr (entry s'.mem pml3 i)) j)))
              512 0 s
          else some s) 512 0 s'
      else some s') = some r → r.failed = true := by
    intro f new pml3 i s' r ha hr
    split_ifs at hr
    · exact hkeep2 f new i _ s' r ha hr
    · exact Option.some.inj hr ▸ ha
  refine Settles.bind ((createProcessMap_spec hp hI).mono (fun _ => trivial) fun r hr => hr) ?_ ?_
  · intro x hx
    obtain ⟨s1, new⟩ := x
    obtain ⟨hPn, hg, hempty, -⟩ := hx
    dsimp only at *
    -- the invariant of the three loops, by the position they stand at
    let G := fun n (r : Mm) =>
      Grown pool own (pmlGetAddr new) s r ∧ LeavesBelow r.mem (pmlGetAddr new) n
    have hlate : ∀ {n n' r}, n ≤ n' → G n r → G n' r := fun hle h => ⟨h.1, h.2.mono hle⟩
    have hmid : ∀ i j pml1 s', i < 512 → j < 512 → G (leafPos i j 0) s' →
        Settles True (fun f => forLoop (forkPage f new i j pml1) 512 0 s') (fun r => r.failed = true)
          (G (leafPos i j 512)) := fun i j pml1 s' hi hj h =>
      Settles.forLoop (J := fun k => G (leafPos i j k))
        (fun k s'' hk h => forkPage_spec hp rfl hi hj hk h)
        (fun n k s'' r ha hr => forkPage_failed ha hr) 512 0 s' rfl h
    have hrow : ∀ i pml2 s', i < 512 → G (leafPos i 0 0) s' →
        Settles True (fun f => forLoop (fun j s => if pmlGetP (entry s.mem pml2 j) then
            forLoop (forkPage f new i j (pmlGetAddr (entry s.mem pml2 j))) 512 0 s
          else some s) 512 0 s') (fun r => r.failed = true) (G (leafPos i 512 0)) := by
      intro i pml2 s' hi h
      refine Settles.forLoop (J := fun j => G (leafPos i j 0)) (fun j s'' hj h => ?_) ?_ 512 0 s' rfl h
      · by_cases hP : pmlGetP (entry s''.mem pml2 j) = true
        · simp only [hP, if_true]
          rw [← leafPos_row]
          exact hmid i j _ s'' hi hj h
        · have hP : pmlGetP (entry s''.mem pml2 j) = false := by simpa using hP
          simp only [hP, Bool.false_eq_true, if_false]
          exact Or.inl ⟨s'', Halts.const _, hlate (by unfold leafPos; omega) h⟩
      · intro n j s'' r ha hr
        split_ifs at hr
        · exact hkeep1 n new i j _ s'' r ha hr
        · exact Option.some.inj hr ▸ ha
    have hstart : G (leafPos 0 0 0) s1 := by
      refine ⟨hg, fun i j k hi hj hk hne => ?_⟩
      rcases hempty [i, j, k] hne with h | ⟨x, hx, hlt⟩
      · exact absurd h (by simp)
      · simp only [List.mem_cons, List.not_mem_nil, or_false] at hx
        omega
    refine Settles.map (Q := G (leafPos 512 0 0)) (B := fun r => r.failed = true) ?_
      (fun a ha => ⟨hPn, ha.1⟩) fun a ha => ha
    refine Settles.forLoop (J := fun i => G (leafPos i 0 0)) (fun i s'' hi h => ?_)
      (fun n i s'' r ha hr => hkeep3 n new _ i s'' r ha hr) 512 0 s1 rfl hstart
    by_cases hP : pmlGetP (entry s''.mem (pmlGetAddr s1.pml4) i) = true
    · simp only [hP, if_true]
      rw [← leafPos_plane]
      exact hrow i _ s'' hi h
    · have hP : pmlGetP (entry s''.mem (pmlGetAddr s1.pml4) i) = false := by simpa using hP
      simp only [hP, Bool.false_eq_true, if_false]
      exact Or.inl ⟨s'', Halts.const _, hlate (by unfold leafPos; omega) h⟩
  · intro a n r ha hr
    obtain ⟨q, hq, rfl⟩ := Option.map_eq_some_iff.mp hr
    exact forLoop_keeps (B := fun s : Mm => s.failed = true)
      (fun i s1 r1 h1 h2 => hkeep3 n a.2 _ i s1 r1 h1 h2) ha hq

/-! ## 3. The two syscalls -/

/-- The page with number `i` of a syscall. -/
def pageAt (base i : Nat) : Nat := u64 (base + i * 4096)

/-- **`syscall_alloc`** maps pages into the current map; the first one, if it is a user page. -/
theorem syscallAlloc_spec (hp : Managed pool) (base n : Nat) (he : pmlGetAddr s.pml4 = root)
    (hI : AllocInv pool s (treeOwn rest s.mem root) ps z) :
    Settles True (fun k => syscallAlloc k s base n) (fun r => r.1.failed = true)
      fun r => Grown pool rest root s r.1 ∧
        (base &&& 1 = 0 → 0 < n → isUserPtr (pageAt base 0) = true →
          ∃ f, follow r.1.mem (leafPath (pageAt base 0)) root = some f) := by
  unfold syscallAlloc
  by_cases hb : base &&& 1 ≠ 0
  · simp only [if_pos hb]
    exact Or.inl ⟨_, Halts.const _, ⟨⟨ps, z, hI⟩, rfl, rfl, fun _ _ _ _ _ => rfl⟩,
      fun h => absurd h hb⟩
  · simp only [if_neg hb]
    let J := fun i (r : Mm × Outcome) => Grown pool rest root s r.1 ∧ (i = 0 → r.2 = .ret 0) ∧
      (0 < i → isUserPtr (pageAt base 0) = true →
        ∃ f, follow r.1.mem (leafPath (pageAt base 0)) root = some f)
    refine (Settles.forLoop (J := J) ?_ ?_ n 0 (s, .ret 0) (Nat.zero_add n) ?_).mono id
      fun r hr => ⟨hr.1, fun _ => hr.2.2⟩
    · intro i x hi hx
      obtain ⟨s1, o⟩ := x
      obtain ⟨hg, h0, hm⟩ := hx
      cases o with
      | exit =>
          refine Or.inl ⟨_, Halts.const _, hg, fun h => absurd h (Nat.succ_ne_zero i), fun _ => ?_⟩
          refine hm (Nat.pos_of_ne_zero fun h => ?_)
          exact absurd (h0 h) (by simp)
      | ret v =>
          dsimp only
          by_cases hu : isUserPtr (u64 (base + i * 4096)) = true
          · simp only [hu, if_true]
            obtain ⟨ps1, z1, hI1⟩ := hg.alloc
            have he1 : pmlGetAddr s1.pml4 = root := by rw [hg.pml4, he]
            refine (mapAnyPage_spec hp _ he1 hI1).map ?_ fun a ha => ha
            intro a hx
            obtain ⟨hg2, hnew, hold⟩ := hx
            refine ⟨hg.trans hg2, fun h => absurd h (Nat.succ_ne_zero i), fun _ hu0 => ?_⟩
            rcases Nat.eq_zero_or_pos i with rfl | hpos
            · exact hnew
            · obtain ⟨f, hf⟩ := hm hpos hu0
              exact ⟨f, hold _ f (leafPath_path _) rfl hf⟩
          · have hu : isUserPtr (u64 (base + i * 4096)) = false := by simpa using hu
            simp only [hu, Bool.false_eq_true, if_false]
            refine Or.inl ⟨_, Halts.const _, hg, fun h => absurd h (Nat.succ_ne_zero i),
              fun _ hu0 => ?_⟩
            rcases Nat.eq_zero_or_pos i with rfl | hpos
            · exact absurd (hu0.symm.trans hu) (by simp)
            · exact hm hpos hu0
    · intro k i x r ha hr
      obtain ⟨s1, o⟩ := x
      cases o with
      | exit =>
          rw [← Option.some.inj hr]
          exact ha
      | ret v =>
          dsimp only at hr
          split_ifs at hr
          · obtain ⟨q, hq, rfl⟩ := Option.map_eq_some_iff.mp hr
            have h1 := mapAnyPage_failed (s := s1) ha hq
            exact h1
          · rw [← Option.some.inj hr]
            exact ha
    · exact ⟨⟨⟨ps, z, hI⟩, rfl, rfl, fun _ _ _ _ _ => rfl⟩, fun _ => rfl,
        fun h => absurd h (lt_irrefl 0)⟩

/-- `syscall_free` visits the pages up to the first one that is not a user page. -/
def FreesOnlyUnmapped (m : Mem) (root base n : Nat) : Prop :=
  base &&& 1 = 0 → ∀ i, i < n → (∀ j, j ≤ i → isUserPtr (pageAt base j) = true) →
    Unmapped m root (pageAt base i)

/-- **`syscall_free` of pages that are not mapped** returns and changes no tree. -/
theorem syscallFree_spec (hp : Managed pool) (base n : Nat) (he : pmlGetAddr s.pml4 = root)
    (hu : FreesOnlyUnmapped s.mem root base n)
    (hI : AllocInv pool s (treeOwn rest s.mem root) ps z) :
    ∃ r, syscallFree s base n = some r ∧ Grown pool rest root s r.1 := by
  have h0 : Grown pool rest root s s := ⟨⟨ps, z, hI⟩, rfl, rfl, fun _ _ _ _ _ => rfl⟩
  by_cases hb : base &&& 1 ≠ 0
  · exact ⟨_, if_pos hb, h0⟩
  · let J := fun i (r : Mm × Outcome) => Grown pool rest root s r.1 ∧
      (∀ π, Path π → π.length ≤ 3 → follow r.1.mem π root = follow s.mem π root) ∧
      (r.2 ≠ .exit → ∀ j, j < i → isUserPtr (pageAt base j) = true)
    have hturns := (syscallFree_turns s base n).trans (if_neg hb)
    have hloop := Settles.forLoop (E := False) (B := fun _ => False) (J := J) (e := n) (g := fun _ => freeTurn base) ?_
      (fun _ _ _ _ h _ => h) n 0 (s, .ret 0) (Nat.zero_add n)
      ⟨h0, fun _ _ _ => rfl, fun _ j hj => absurd hj (Nat.not_lt_zero j)⟩
    · obtain ⟨r, ⟨N, hN⟩, hJ⟩ := hloop.halts id
      exact ⟨r, hturns.trans (hN N le_rfl), hJ.1⟩
    · intro i x hi hx
      obtain ⟨s1, o⟩ := x
      obtain ⟨hg, hsame, hj⟩ := hx
      cases o with
      | exit => exact Or.inl ⟨_, Halts.const _, hg, hsame, fun h => absurd rfl h⟩
      | ret v =>
          unfold freeTurn
          dsimp only at *
          have hj := hj (by simp)
          by_cases hus : isUserPtr (u64 (base + i * 4096)) = true
          · simp only [hus, if_true]
            have hall : ∀ j, j ≤ i → isUserPtr (pageAt base j) = true := fun j hle => by
              rcases Nat.lt_or_eq_of_le hle with h | rfl
              · exact hj j h
              · exact hus
            obtain ⟨⟨c, hc⟩, habs⟩ := hu (by simpa using hb) i hi hall
            obtain ⟨ps1, z1, hI1⟩ := hg.alloc
            have he1 : pmlGetAddr s1.pml4 = root := by rw [hg.pml4, he]
            have hun : Unmapped s1.mem root (pageAt base i) :=
              ⟨⟨c, (hsame _ (walkPath_path _) (by simp [walkPath])).trans hc⟩,
                (hsame _ (leafPath_path _) le_rfl).trans habs⟩
            obtain ⟨hg2, hsame2⟩ := unmapProcessPage_spec hp he1 hun hI1
            exact Or.inl ⟨_, Halts.const _, hg.trans hg2,
              fun π h1 h2 => (hsame2 π h1 h2).trans (hsame π h1 h2),
              fun _ j hlt => hall j (Nat.lt_succ_iff.mp hlt)⟩
          · have hus : isUserPtr (u64 (base + i * 4096)) = false := by simpa using hus
            simp only [hus, Bool.false_eq_true, if_false]
            exact Or.inl ⟨_, Halts.const _, hg, hsame, fun h => absurd rfl h⟩

end Map

end MemoryManager

end SimpleOS2
