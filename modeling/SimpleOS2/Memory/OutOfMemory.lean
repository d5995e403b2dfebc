/-
  File:      SimpleOS2/Memory/OutOfMemory.lean
  Subject:   RUNNING OUT OF PAGES (memory/MemoryManager.cpp, `ReserveNew` of memory/KernelHeap.cpp).

  No caller of `AllocatePages` looks at the answer: `nullptr` goes through `PhysToKernelPtr` and into an entry like any
  page, so a call for which there are not enough pages makes tables of physical page 0, maps it, and answers as if
  nothing had happened.

  * `mapKernelPage`, `reserveNew` -- the kernel's side;
  * `PagesFree` -- at least so many pages are free; `Contained`, `ContainedNew` -- what a call may write and map;
  * `NewMap`, `createProcessMap_newMap`, `forkProcessMap_newMap` -- the calls that make a map;
  * `mapProcessPage_broken` -- what becomes of the tables of a map;
  * `out_of_memory` -- each call is contained if and only if there are as many free pages as it needs; `no_page_left`.
-/
import SimpleOS2.Memory.KernelHeap
import SimpleOS2.Memory.NewNodes

namespace SimpleOS2

open Lib FreeList

namespace MemoryManager

/-! ## 1. The kernel's side -/

/-- `PML_SET_ADDR(addr) | PML_SET_P(1) | PML_SET_RW(1)`. -/
def pmlKernelEntry (addr : Nat) : Nat := addr ||| 0x3

/-- `MapKernelPage`. The PML4 of the core is only read. -/
def mapKernelPage (fuel : Nat) (s : Mm) (pml4 : Nat → Nat) (phys virt : Nat) : Option Mm :=
  mapPageBy pmlKernelEntry fuel s (pml4 (getPml4Index virt)) phys virt

/-- `KernelHeap::ReserveNew`: its pages, and the heap. -/
def reserveNew (fuel : Nat) (pml4 : Nat → Nat) (fresh : Mem) (s : Mm) (h : KernelHeap.Heap) (size : Nat) :
    Option (Mm × KernelHeap.Heap) :=
  let n := u64 (size + 4095) / 4096
  (allocatePages fuel s n).bind fun r =>
    (forLoop (fun i s =>
        mapKernelPage fuel s pml4 (u64 (r.2 + 4096 * i)) (u64 (h.heapPos + 4096 * i))) n 0 r.1).bind fun s =>
      (KernelHeap.reserveNew fuel fresh h size).map fun h => (s, h)

theorem pmlKernelEntry_pointsTo : PointsTo pmlKernelEntry := by
  intro p hx hp
  obtain ⟨q, rfl⟩ := hx
  have hor : pmlKernelEntry (4096 * q) = 4096 * q + 3 := by
    have h := Nat.shiftLeft_add_eq_or_of_lt (i := 12) (b := 3) (by norm_num) q
    rw [Nat.shiftLeft_eq] at h
    unfold pmlKernelEntry
    rw [show 4096 * q = q * 2 ^ 12 from by ring, ← h]
  rw [hor, pmlGetP_eq, pmlGetAddr_eq]
  constructor
  · simp
    omega
  · omega

/-! ## 2. What a call may do -/

/-- At least `k` pages are free. -/
def PagesFree (s : Mm) (k : Nat) : Prop := ∃ S : Finset Nat, k ≤ S.card ∧ ∀ p ∈ S, FreePage s p

/-- Only pages that were free are written to, and the tables of the map; only pages that were handed out are mapped, and
    the ones that are given. -/
structure Contained (root : Nat) (given : Nat → Prop) (s s' : Mm) : Prop where
  writes : ∀ a, s'.mem a ≠ s.mem a → ∃ q, InPage q a ∧ (FreePage s q ∨ IsTable s.mem root q)
  pages : ∀ q, IsPage s'.mem root q → IsPage s.mem root q ∨ (FreePage s q ∧ ¬ FreePage s' q) ∨ given q

/-- The same for a call that answers a new map, if it does. -/
structure ContainedNew (s : Mm) (r : Mm × Nat) : Prop where
  writes : ∀ a, r.1.mem a ≠ s.mem a → ∃ q, InPage q a ∧ FreePage s q
  pages : pmlGetP r.2 = true → ∀ q, IsPage r.1.mem (pmlGetAddr r.2) q → FreePage s q ∧ ¬ FreePage r.1 q

/-- The tables of the map are as they were. -/
def TablesKept (root : Nat) (s s' : Mm) : Prop := ∀ t, IsTable s.mem root t → SamePage s.mem s'.mem t

section Free

variable {pool : Nat → Prop} {root : Nat} {own rest rest' : Nat → Nat} {W : Finset (List Nat)} {k : Nat}
  {s s' s'' : Mm} {ps : List Nat} {z : Nat → Nat}

theorem pagesFree_iff (hp : Managed pool) (hI : AllocInv pool s own ps z) : PagesFree s k ↔ Spare pool own k := by
  unfold PagesFree Spare
  simp only [freePage_iff hp hI]

/-- A page of a tree is used in it. -/
theorem uses_of_follow {m : Mem} {n t c : Nat} {π : List Nat} (hπ : Path π) (hl : π.length ≤ n)
    (h : follow m π t = some c) : 0 < uses m n t c := by
  induction π generalizing n t with
  | nil =>
      obtain rfl : t = c := Option.some.inj h
      cases n with
      | zero =>
          unfold uses
          rw [if_pos rfl]
          exact Nat.one_pos
      | succ n => exact uses_root m n t
  | cons i π ih =>
      obtain ⟨n, rfl⟩ : ∃ j, n = j + 1 := ⟨n - 1, by rw [List.length_cons] at hl; omega⟩
      obtain ⟨hP, hf⟩ := follow_step h
      have h1 := ih (fun j hj => hπ j (List.mem_cons_of_mem _ hj)) (by simpa using hl) hf
      have h2 := usesVia_le (m := m) (n := n) (t := t) (hπ i List.mem_cons_self) c
      unfold usesVia at h2
      rw [if_pos hP] at h2
      omega

/-- A step away from the root to a page is a use of its own. -/
theorem usesVia_of_follow {m : Mem} {n t c i : Nat} {π : List Nat} (hπ : Path (i :: π)) (hl : (i :: π).length ≤ n + 1)
    (h : follow m (i :: π) t = some c) : 0 < usesVia m n (entry m t i) c := by
  obtain ⟨hP, hf⟩ := follow_step h
  unfold usesVia
  rw [if_pos hP]
  exact uses_of_follow (fun j hj => hπ j (List.mem_cons_of_mem _ hj)) (by simpa using hl) hf

theorem follow_root_once {m : Mem} {n t i : Nat} {π : List Nat} (hπ : Path (i :: π)) (hl : (i :: π).length ≤ n)
    (hone : uses m n t t ≤ 1) : follow m (i :: π) t ≠ some t := by
  intro h
  obtain ⟨n, rfl⟩ : ∃ k, n = k + 1 := ⟨n - 1, by rw [List.length_cons] at hl; omega⟩
  have h1 := usesVia_le (m := m) (n := n) (t := t) (hπ i List.mem_cons_self) t
  have h2 := usesVia_of_follow hπ hl h
  rw [if_pos rfl] at h1
  omega

/-- **One path to a page that is used once.** -/
theorem follow_once {m : Mem} {n t c : Nat} {π π' : List Nat} (hπ : Path π) (hπ' : Path π') (hl : π.length ≤ n)
    (hl' : π'.length ≤ n) (hone : uses m n t c ≤ 1) (h : follow m π t = some c) (h' : follow m π' t = some c) :
    π = π' := by
  induction π generalizing n t π' with
  | nil =>
      obtain rfl : t = c := Option.some.inj h
      cases π' with
      | nil => rfl
      | cons j π' => exact absurd h' (follow_root_once hπ' hl' hone)
  | cons i π ih =>
      cases π' with
      | nil =>
          obtain rfl : t = c := Option.some.inj h'
          exact absurd h (follow_root_once hπ hl hone)
      | cons j π' =>
          obtain ⟨n, rfl⟩ : ∃ k, n = k + 1 := ⟨n - 1, by rw [List.length_cons] at hl; omega⟩
          have hi : i < 512 := hπ i List.mem_cons_self
          have h2 := usesVia_of_follow hπ hl h
          obtain rfl : i = j := by
            by_contra hne
            have h3 := (usesVia_once hone hi (hπ' j List.mem_cons_self) hne h2).2
            have h4 := usesVia_of_follow hπ' hl' h'
            omega
          obtain ⟨hP, hf⟩ := follow_step h
          have h3 := usesVia_le (m := m) (n := n) (t := t) hi c
          unfold usesVia at h3
          rw [if_pos hP] at h3
          exact congrArg _ (ih (fun k hk => hπ k (List.mem_cons_of_mem _ hk))
            (fun k hk => hπ' k (List.mem_cons_of_mem _ hk)) (by simpa using hl) (by simpa using hl')
            (le_trans (Nat.le_add_left _ _) (h3.trans hone)) hf (follow_step h').2)

/-- **A map whose pages have one owner each is in order.** -/
theorem wellFormed_owned (hp : Managed pool) (hI : AllocInv pool s (treeOwn rest s.mem root) ps z) :
    WellFormed s.mem root := by
  have hone : ∀ q, uses s.mem 3 root q ≤ 1 := fun q => (uses_le_treeOwn rest s.mem root q).trans (hI.once q)
  have hroot : pool root := hI.managed root (Nat.lt_of_lt_of_le (uses_root s.mem 2 root)
    (uses_le_treeOwn rest s.mem root root))
  refine ⟨(hp root hroot).1, fun π π' c hπ hπ' hl hl' h h' => ?_, fun π π' c hπ hπ' hl hl' h h' => ?_⟩
  · exact follow_once hπ hπ' (by omega) (by omega) (hone c) h h'
  · have heq := follow_once hπ hπ' (by omega) (by omega) (hone c) h h'
    rw [heq] at hl
    omega

/-- **What makes nodes is contained.** -/
theorem Made.contained (hp : Managed pool) (hI : AllocInv pool s (treeOwn rest s.mem root) ps z)
    (h : Made pool root rest rest' W k s s') : Contained root (fun q => 0 < rest q ∧ rest' q = 0) s s' := by
  obtain ⟨ps', z', hI'⟩ := h.alloc
  refine ⟨fun a ha => ?_, fun q hq => ?_⟩
  · obtain ⟨q, h1, h2 | h2⟩ := h.writes a ha
    · exact ⟨q, h1, Or.inl ((freePage_iff hp hI).mpr h2)⟩
    · exact ⟨q, h1, Or.inr h2⟩
  · obtain ⟨π, hπ, hl, hf⟩ := hq
    rcases h.fresh π q hπ hl hf with h1 | h1 | h1
    · exact Or.inl ⟨π, hπ, hl, h1⟩
    · exact Or.inr (Or.inr ⟨h1.1, h1.2.1⟩)
    · refine Or.inr (Or.inl ⟨(freePage_iff hp hI).mpr h1, fun h2 => ?_⟩)
      have h3 := ((freePage_iff hp hI').mp h2).2
      have h4 := uses_of_follow hπ hl hf
      unfold treeOwn at h3
      omega

theorem Contained.mono {given given' : Nat → Prop} (h : Contained root given s s') (hg : ∀ q, given q → given' q) :
    Contained root given' s s' :=
  ⟨h.writes, fun q hq => (h.pages q hq).imp_right fun h => h.imp_right (hg q)⟩

end Free

/-! ## 3. New maps -/

/-- **A new map at `root`**, with the nodes `W`, on `k` pages that nobody had. -/
structure NewMap (pool : Nat → Prop) (own : Nat → Nat) (root : Nat) (W : Finset (List Nat)) (k : Nat)
    (s s' : Mm) : Prop where
  alloc : ∃ ps z, AllocInv pool s' (treeOwn own s'.mem root) ps z
  pml4 : s'.pml4 = s.pml4
  failed : s'.failed = s.failed
  keeps : Keeps own s.mem s'.mem
  nodes : ∀ π, Path π → π.length ≤ 3 → (follow s'.mem π root ≠ none ↔ π = [] ∨ π ∈ W)
  fresh : ∀ π c, Path π → π.length ≤ 3 → follow s'.mem π root = some c → pool c ∧ own c = 0
  spare : ∀ j, Spare pool (treeOwn own s'.mem root) j ↔ Spare pool own (j + k)
  writes : ∀ a, s'.mem a ≠ s.mem a → ∃ q, InPage q a ∧ pool q ∧ own q = 0

/-- The nodes of one leaf that is copied. -/
def leafAt (m : Mem) (src i j k : Nat) : Finset (List Nat) :=
  if follow m [i, j, k] src = none then ∅ else {[i]} ∪ {[i, j]} ∪ {[i, j, k]}

/-- The nodes of all leaves under one entry of the PML2, of the PML3, of the map. -/
def leavesAt1 (m : Mem) (src i j : Nat) : Finset (List Nat) := upto (leafAt m src i j) 512
def leavesAt2 (m : Mem) (src i : Nat) : Finset (List Nat) := upto (leavesAt1 m src i) 512
def leavesOf (m : Mem) (src : Nat) : Finset (List Nat) := upto (leavesAt2 m src) 512

section New

variable {pool : Nat → Prop} {root src : Nat} {own : Nat → Nat} {W W' : Finset (List Nat)} {k k' : Nat}
  {s s' s'' : Mm} {ps : List Nat} {z : Nat → Nat}

theorem NewMap.made (h : NewMap pool own root W k s s') (h' : Made pool root own own W' k' s' s'') :
    NewMap pool own root (W ∪ W') (k + k') s s'' where
  alloc := h'.alloc
  pml4 := h'.pml4.trans h.pml4
  failed := h'.failed.trans h.failed
  keeps := h.keeps.trans fun q hq => h'.keeps q hq hq
  nodes π hπ hl := by rw [h'.nodes π hπ hl, h.nodes π hπ hl, Finset.mem_union, or_assoc]
  fresh π c hπ hl hf := by
    rcases h'.fresh π c hπ hl hf with h1 | h1 | h1
    · exact h.fresh π c hπ hl h1
    · omega
    · have := h1.2
      unfold treeOwn at this
      exact ⟨h1.1, by omega⟩
  spare j := by rw [h'.spare j, h.spare (j + k'), Nat.add_assoc, Nat.add_comm k' k]
  writes a ha := by
    by_cases h1 : s'.mem a = s.mem a
    · obtain ⟨q, hq, h2 | h2⟩ := h'.writes a fun h3 => ha (h3.trans h1)
      · have := h2.2
        unfold treeOwn at this
        exact ⟨q, hq, h2.1, by omega⟩
      · obtain ⟨π, hπ, hl, hf⟩ := h2
        exact ⟨q, hq, h.fresh π q hπ (by omega) hf⟩
    · exact h.writes a h1

/-- **`CreateProcessMap`** makes a map of one page. -/
theorem createProcessMap_newMap (hp : Managed pool) (hI : AllocInv pool s own ps z) :
    Settles (¬ Spare pool own 1) (fun k => createProcessMap k s) (fun r => r.1.failed = true)
      fun r => pmlGetP r.2 = true ∧ NewMap pool own (pmlGetAddr r.2) ∅ 1 s r.1 := by
  rcases allocatePage_spec hp hI with ⟨⟨s1, f⟩, hr, ⟨ps1, z1, hI1⟩, hpml, hfail, hpool, h0, hk⟩ | ⟨hE, N, hbad⟩
  · dsimp only at *
    obtain ⟨hPf, hAf⟩ := pmlEntry_pool hp hpool
    obtain ⟨hfl, hzp, hzf⟩ := zeroTable_fields s1 f
    have hclear : ∀ j, j < 512 → entry (zeroTable s1 f).mem f j = 0 := fun j hj => entry_zeroTable s1 hj
    have hown : ∀ p, treeOwn own (zeroTable s1 f).mem f p = own p + if p = f then 1 else 0 := fun p => by
      unfold treeOwn
      rw [uses_cleared hclear]
    have hcleared := fun π hπ hne => follow_cleared (π := π) hclear hπ hne
    refine Or.inl ⟨(zeroTable s1 f, pmlEntry f), hr.map _, hPf, ?_⟩
    dsimp only
    rw [hAf]
    refine ⟨⟨ps1, z1, ?_⟩, hzp.trans hpml, hzf.trans hfail, fun q hq a h1 h2 => ?_, fun π hπ hl => ?_,
      fun π c hπ hl hf => ?_, fun j => ?_, fun a ha => ?_⟩
    · exact (hI1.write hp (q := f) (by rw [if_pos rfl]; omega) hfl fun a ha => if_neg ha).congr hown
    · have hqf : q ≠ f := by
        rintro rfl
        omega
      have hqd := (hp q (hI.managed q hq)).1
      have hout : ¬ InPage f a := fun ha => hqf (InPage.inj hqd (hp f hpool).1 ⟨h1, h2⟩ ha)
      exact (if_neg hout).trans (hk q hq a h1 h2)
    · by_cases hne : π = []
      · subst hne
        exact iff_of_true (Option.some_ne_none f) (Or.inl rfl)
      · rw [hcleared π hπ hne]
        exact iff_of_false (fun h => h rfl) fun h => h.elim hne (Finset.notMem_empty π)
    · by_cases hne : π = []
      · subst hne
        obtain rfl : f = c := Option.some.inj hf
        exact ⟨hpool, h0⟩
      · rw [hcleared π hπ hne] at hf
        cases hf
    · have hR : ∀ p ∈ ({f} : Finset Nat), pool p ∧ own p = 0 := fun p hp => by
        rw [Finset.mem_singleton.mp hp]
        exact ⟨hpool, h0⟩
      refine (spare_take hR (fun p => ?_) j).trans (by rw [Finset.card_singleton])
      rw [hown p]
      simp only [Finset.mem_singleton]
    · by_cases hin : InPage f a
      · exact ⟨f, hin, hpool, h0⟩
      · have hz : (zeroTable s1 f).mem a = s1.mem a := if_neg hin
        rw [hz] at ha
        exact allocatePages_frame hI Nat.one_pos (by decide) hr a ha
  · refine Or.inr ⟨hE, N, fun n hn r hr => ?_⟩
    obtain ⟨q, hq, rfl⟩ := Option.map_eq_some_iff.mp hr
    have h1 := hbad n hn q hq
    simpa using h1

theorem upto_empty {V : Nat → Finset (List Nat)} {e : Nat} (h : ∀ i, i < e → V i = ∅) : upto V e = ∅ := by
  refine Finset.eq_empty_of_forall_notMem fun π hπ => ?_
  obtain ⟨j, hj, h1⟩ := mem_upto.mp hπ
  rw [h j hj] at h1
  exact Finset.notMem_empty π h1

/-- What stands in the sets: paths with the indices of the leaf. -/
theorem mem_leafAt {m : Mem} {i j k : Nat} {π : List Nat} (h : π ∈ leafAt m src i j k) :
    π = [i] ∨ π = [i, j] ∨ π = [i, j, k] := by
  unfold leafAt at h
  split_ifs at h
  · exact absurd h (Finset.notMem_empty π)
  · simpa [or_assoc] using h

theorem path_of_mem_leafAt {m : Mem} {i j k : Nat} {π : List Nat} (hi : i < 512) (hj : j < 512) (hk : k < 512)
    (h : π ∈ leafAt m src i j k) : Path π ∧ π.length ≤ 3 := by
  rcases mem_leafAt h with rfl | rfl | rfl <;> simp [Path, hi, hj, hk]

/-- A leaf is not there without its nodes: what is read of a tree. -/
theorem follow_entry {m : Mem} {π : List Nat} {i c t : Nat} (hf : follow m π t = some c) :
    (pmlGetP (entry m c i) = true ∧ follow m (π ++ [i]) t = some (pmlGetAddr (entry m c i))) ∨
      (pmlGetP (entry m c i) = false ∧ follow m (π ++ [i]) t = none) := by
  rw [follow_snoc m π i t c hf]
  cases pmlGetP (entry m c i) with
  | true => exact Or.inl ⟨rfl, if_pos rfl⟩
  | false => exact Or.inr ⟨rfl, if_neg (by decide)⟩

theorem missing_leafNodes {m : Mem} {virt : Nat} (h : follow m (leafPath virt) root = none) :
    missing m root (leafNodes virt) = missing m root (walkNodes virt) + 1 := by
  unfold missing leafNodes
  rw [Finset.filter_union, Finset.card_union_of_disjoint, Finset.filter_singleton, if_pos h, Finset.card_singleton]
  refine Finset.disjoint_left.mpr fun π h1 h2 => ?_
  have h3 := (walkNodes_path π (Finset.mem_filter.mp h1).1).2
  rw [Finset.mem_singleton.mp (Finset.mem_filter.mp h2).1, length_leafPath] at h3
  exact absurd h3 (by decide)

/-- **The innermost body of `ForkProcessMap`.** -/
theorem forkPage_made (hp : Managed pool) {m : Mem} {new i j k pml1 : Nat} (hn : pmlGetAddr new = root)
    (hi : i < 512) (hj : j < 512) (hk : k < 512)
    (hread : pmlGetP (entry s.mem pml1 k) = true ↔ follow m [i, j, k] src ≠ none)
    (habs : follow s.mem [i, j, k] root = none) (hI : AllocInv pool s (treeOwn own s.mem root) ps z) :
    Settles (¬ Spare pool (treeOwn own s.mem root) (missing s.mem root (leafAt m src i j k)))
      (fun f => forkPage f new i j pml1 k s) (fun r => r.failed = true)
      fun r => Made pool root own own (leafAt m src i j k) (missing s.mem root (leafAt m src i j k)) s r ∧ True := by
  unfold forkPage
  dsimp only
  by_cases hP : pmlGetP (entry s.mem pml1 k) = true
  · obtain ⟨virt, hv⟩ : ∃ virt, (k <<< 12) ||| (j <<< 21) ||| (i <<< 30) = virt := ⟨_, rfl⟩
    obtain ⟨e1, e2, e3⟩ := forkVirt_indices hi hj hk
    rw [hv] at e1 e2 e3
    have hleaf : leafPath virt = [i, j, k] := by
      unfold leafPath walkPath
      rw [e1, e2, e3]
      rfl
    have hset : leafAt m src i j k = leafNodes virt := by
      unfold leafAt leafNodes walkNodes
      rw [if_neg (hread.mp hP), hleaf]
      unfold walkPath
      rw [e1, e2]
    rw [hset, missing_leafNodes (hleaf ▸ habs)]
    simp only [hP, if_true, hv]
    refine Settles.bind ((page_made hp hI).mono (fun h hS => h (hS.mono (Nat.le_add_left 1 _))) fun r hr => hr) ?_
      fun a n r ha hr => mapProcessPage_failed (by simpa using ha) hr
    intro x hx
    obtain ⟨s2, d⟩ := x
    obtain ⟨hd, hm⟩ := hx
    dsimp only at *
    obtain ⟨hcl, hcp, hcf⟩ := copyPage_fields s2 d (pmlGetAddr (entry s.mem pml1 k))
    have hm2 := hm.into hp hd
      (by rw [if_pos rfl]; exact Nat.succ_pos _) hcl hcp hcf fun a ha => if_neg ha
    obtain ⟨ps2, z2, hI2⟩ := hm2.alloc
    have hadd := missing_add hm2 (A := ∅) (B := walkNodes virt) Finset.Subset.rfl fun π hπ =>
      ⟨(walkNodes_path π hπ).1, by have := (walkNodes_path π hπ).2; omega, fun h => h⟩
    rw [Finset.empty_union, missing_empty, Nat.zero_add] at hadd
    have habs2 : follow (copyPage s2 d (pmlGetAddr (entry s.mem pml1 k))).mem (leafPath virt) root = none := by
      by_contra hne
      rcases (hm2.nodes _ (leafPath_path virt) (length_leafPath virt).le).mp hne with h | h
      · exact h (hleaf ▸ habs)
      · exact Finset.notMem_empty _ h
    simp only [mapProcessPage_by]
    refine (mapPageBy_made hp pmlEntry_pointsTo virt hn (fun p => rfl) habs2 hI2).mono (fun h hS => h ?_) ?_
    · rw [hm2.spare, ← hadd]
      exact hS
    · intro r hx
      obtain ⟨hm3, -⟩ := hx
      have h4 := hm2.trans hm3
      rw [Finset.empty_union, ← hadd, Nat.add_comm] at h4
      exact ⟨h4, trivial⟩
  · have hset : leafAt m src i j k = ∅ := if_pos (not_not.mp fun h => hP (hread.mpr h))
    have hP : pmlGetP (entry s.mem pml1 k) = false := by simpa using hP
    simp only [hP, Bool.false_eq_true, if_false]
    rw [hset, missing_empty]
    exact Or.inl ⟨s, Halts.const _, Made.refl hI fun π hπ => absurd hπ (Finset.notMem_empty π), trivial⟩

/-- In the middle of `ForkProcessMap`: what had owners at its start is as it was. -/
structure Forking (pool : Nat → Prop) (own : Nat → Nat) (root : Nat) (m : Mem) (s : Mm) : Prop where
  alloc : ∃ ps z, AllocInv pool s (treeOwn own s.mem root) ps z
  keeps : Keeps own m s.mem

theorem Forking.made {m : Mem} (h : Forking pool own root m s) (hm : Made pool root own own W k s s') :
    Forking pool own root m s' :=
  ⟨hm.alloc, h.keeps.trans fun q hq => hm.keeps q hq hq⟩

/-- What is read of the map that is copied. -/
theorem Forking.reads {m : Mem} (h : Forking pool own root m s) (hsrc : ∀ p, uses m 3 src p ≤ own p) {π : List Nat}
    {i c : Nat} (hπ : Path (π ++ [i])) (hl : π.length < 3) (hf : follow m π src = some c) :
    (pmlGetP (entry s.mem c i) = true ∧ follow m (π ++ [i]) src = some (pmlGetAddr (entry s.mem c i))) ∨
      (pmlGetP (entry s.mem c i) = false ∧ follow m (π ++ [i]) src = none) := by
  have hsame := (h.keeps.uses hsrc).2
  have hπ' : Path π := fun j hj => hπ j (List.mem_append_left _ hj)
  rw [← hsame (π ++ [i]) hπ (by rw [List.length_append, List.length_singleton]; omega)]
  exact follow_entry ((hsame π hπ' (by omega)).trans hf)

/-- A leaf of the new map is not there before its turn. -/
theorem leaf_absent (hm : Made pool root own own W k s s') {i j l : Nat} (hi : i < 512) (hj : j < 512) (hl : l < 512)
    (habs : follow s.mem [i, j, l] root = none) (hW : [i, j, l] ∉ W) : follow s'.mem [i, j, l] root = none := by
  by_contra hne
  rcases (hm.nodes [i, j, l] (by simp [Path, hi, hj, hl]) (by simp)).mp hne with h | h
  · exact h habs
  · exact hW h

theorem mem_leavesAt1 {m : Mem} {i j : Nat} {π : List Nat} :
    π ∈ leavesAt1 m src i j ↔ ∃ l, l < 512 ∧ π ∈ leafAt m src i j l := by
  rw [leavesAt1, mem_upto]

theorem mem_leavesAt2 {m : Mem} {i : Nat} {π : List Nat} :
    π ∈ leavesAt2 m src i ↔ ∃ j, j < 512 ∧ π ∈ leavesAt1 m src i j := by
  rw [leavesAt2, mem_upto]

theorem mem_leavesOf {m : Mem} {π : List Nat} : π ∈ leavesOf m src ↔ ∃ i, i < 512 ∧ π ∈ leavesAt2 m src i := by
  rw [leavesOf, mem_upto]

/-- A leaf stands only in the set of its own turn. -/
theorem leaf_of_mem {m : Mem} {i j l i' j' l' : Nat} (h : [i, j, l] ∈ leafAt m src i' j' l') :
    i = i' ∧ j = j' ∧ l = l' := by
  have h1 := mem_leafAt h
  simp only [List.cons.injEq, reduceCtorEq, and_false, and_true, false_or] at h1
  exact h1

theorem leaf_notMem_1 {m : Mem} {i j l : Nat} : [i, j, l] ∉ upto (leafAt m src i j) l := fun h => by
  obtain ⟨x, hx, h1⟩ := mem_upto.mp h
  have h2 := leaf_of_mem h1
  omega

theorem leaf_notMem_2 {m : Mem} {i j l : Nat} : [i, j, l] ∉ upto (leavesAt1 m src i) j := fun h => by
  obtain ⟨x, hx, h1⟩ := mem_upto.mp h
  obtain ⟨y, -, h2⟩ := mem_leavesAt1.mp h1
  have h3 := leaf_of_mem h2
  omega

theorem leaf_notMem_3 {m : Mem} {i j l : Nat} : [i, j, l] ∉ upto (leavesAt2 m src) i := fun h => by
  obtain ⟨x, hx, h1⟩ := mem_upto.mp h
  obtain ⟨y, -, h2⟩ := mem_leavesAt2.mp h1
  obtain ⟨w, -, h3⟩ := mem_leavesAt1.mp h2
  have h4 := leaf_of_mem h3
  omega

theorem path_of_mem_leavesAt1 {m : Mem} {i j : Nat} {π : List Nat} (hi : i < 512) (hj : j < 512)
    (h : π ∈ leavesAt1 m src i j) : Path π ∧ π.length ≤ 3 := by
  obtain ⟨l, hl, h1⟩ := mem_leavesAt1.mp h
  exact path_of_mem_leafAt hi hj hl h1

theorem path_of_mem_leavesAt2 {m : Mem} {i : Nat} {π : List Nat} (hi : i < 512) (h : π ∈ leavesAt2 m src i) :
    Path π ∧ π.length ≤ 3 := by
  obtain ⟨j, hj, h1⟩ := mem_leavesAt2.mp h
  exact path_of_mem_leavesAt1 hi hj h1

/-- Nothing is copied below an entry that is not present. -/
theorem leavesAt1_absent {m : Mem} {i j : Nat} (h : follow m [i, j] src = none) : leavesAt1 m src i j = ∅ := by
  rw [leavesAt1]
  refine upto_empty fun l _ => if_pos ?_
  rw [show [i, j, l] = [i, j] ++ [l] from rfl, follow_append, h]
  rfl

theorem leavesAt2_absent {m : Mem} {i : Nat} (h : follow m [i] src = none) : leavesAt2 m src i = ∅ := by
  rw [leavesAt2]
  refine upto_empty fun j _ => leavesAt1_absent ?_
  rw [show [i, j] = [i] ++ [j] from rfl, follow_append, h]
  rfl

/-- **The loop over a PML1.** -/
theorem forkLoop1_made (hp : Managed pool) {m : Mem} {new i j pml1 : Nat} (hn : pmlGetAddr new = root)
    (hi : i < 512) (hj : j < 512) (hsrc : ∀ p, uses m 3 src p ≤ own p) (h : Forking pool own root m s)
    (hf : follow m [i, j] src = some pml1) (habs : ∀ l, l < 512 → follow s.mem [i, j, l] root = none) :
    Settles (¬ Spare pool (treeOwn own s.mem root) (missing s.mem root (leavesAt1 m src i j)))
      (fun f => forLoop (forkPage f new i j pml1) 512 0 s) (fun r => r.failed = true)
      fun r => Made pool root own own (leavesAt1 m src i j) (missing s.mem root (leavesAt1 m src i j)) s r ∧ True := by
  obtain ⟨ps, z, hI⟩ := h.alloc
  rw [leavesAt1]
  refine made_forLoop (F := id) (g := fun f => forkPage f new i j pml1) (V := leafAt m src i j) (R := fun _ => own)
    (J := fun _ _ => True) (fun _ => Finset.Subset.rfl) (fun l hl π hπ => ?_) (fun l a hl _ hm => ?_)
    (fun f l a b ha hb => forkPage_failed ha hb) hI trivial
  · obtain ⟨h1, h2⟩ := path_of_mem_leafAt hi hj hl hπ
    exact ⟨h1, h2, fun _ h => h⟩
  · obtain ⟨ps', z', hI'⟩ := hm.alloc
    have hread := (h.made hm).reads hsrc (π := [i, j]) (i := l) (by simp [Path, hi, hj, hl]) (by simp) hf
    refine forkPage_made hp hn hi hj hl ?_ (leaf_absent hm hi hj hl (habs l hl) leaf_notMem_1) hI'
    rcases hread with ⟨h1, h2⟩ | ⟨h1, h2⟩
    · exact iff_of_true h1 (by rw [show [i, j, l] = [i, j] ++ [l] from rfl, h2]; exact Option.some_ne_none _)
    · exact iff_of_false (Bool.eq_false_iff.mp h1) fun h => h h2

/-- The loops over a PML2, and over the PML3. -/
def forkLoop2 (f new i pml2 : Nat) (s : Mm) : Option Mm :=
  forLoop (fun j s =>
    if pmlGetP (entry s.mem pml2 j) then forLoop (forkPage f new i j (pmlGetAddr (entry s.mem pml2 j))) 512 0 s
    else some s) 512 0 s

def forkLoop3 (f new pml3 : Nat) (s : Mm) : Option Mm :=
  forLoop (fun i s =>
    if pmlGetP (entry s.mem pml3 i) then forkLoop2 f new i (pmlGetAddr (entry s.mem pml3 i)) s else some s) 512 0 s

theorem forkProcessMap_loops (f : Nat) (s : Mm) : forkProcessMap f s =
    (createProcessMap f s).bind fun r => (forkLoop3 f r.2 (pmlGetAddr r.1.pml4) r.1).map fun s => (s, r.2) := rfl

theorem forkLoop1_failed {f new i j pml1 : Nat} {r : Mm} (h : s.failed = true)
    (hr : forLoop (forkPage f new i j pml1) 512 0 s = some r) : r.failed = true :=
  forLoop_keeps (B := fun s : Mm => s.failed = true) (fun _ _ _ h1 h2 => forkPage_failed h1 h2) h hr

theorem forkLoop2_failed {f new i pml2 : Nat} {r : Mm} (h : s.failed = true)
    (hr : forkLoop2 f new i pml2 s = some r) : r.failed = true := by
  refine forLoop_keeps (B := fun s : Mm => s.failed = true) (fun j s1 r1 h1 h2 => ?_) h hr
  split_ifs at h2
  · exact forkLoop1_failed h1 h2
  · exact Option.some.inj h2 ▸ h1

theorem forkLoop3_failed {f new pml3 : Nat} {r : Mm} (h : s.failed = true)
    (hr : forkLoop3 f new pml3 s = some r) : r.failed = true := by
  refine forLoop_keeps (B := fun s : Mm => s.failed = true) (fun j s1 r1 h1 h2 => ?_) h hr
  split_ifs at h2
  · exact forkLoop2_failed h1 h2
  · exact Option.some.inj h2 ▸ h1

theorem forkLoop2_made (hp : Managed pool) {m : Mem} {new i pml2 : Nat} (hn : pmlGetAddr new = root)
    (hi : i < 512) (hsrc : ∀ p, uses m 3 src p ≤ own p) (h : Forking pool own root m s)
    (hf : follow m [i] src = some pml2)
    (habs : ∀ j l, j < 512 → l < 512 → follow s.mem [i, j, l] root = none) :
    Settles (¬ Spare pool (treeOwn own s.mem root) (missing s.mem root (leavesAt2 m src i)))
      (fun f => forkLoop2 f new i pml2 s) (fun r => r.failed = true)
      fun r => Made pool root own own (leavesAt2 m src i) (missing s.mem root (leavesAt2 m src i)) s r ∧ True := by
  obtain ⟨ps, z, hI⟩ := h.alloc
  rw [leavesAt2]
  refine made_forLoop (F := id) (V := leavesAt1 m src i) (R := fun _ => own)
    (J := fun _ _ => True) (fun _ => Finset.Subset.rfl) (fun j hj π hπ => ?_) (fun j a hj _ hm => ?_)
    (fun f j a b ha hb => ?_) hI trivial
  · obtain ⟨h1, h2⟩ := path_of_mem_leavesAt1 hi hj hπ
    exact ⟨h1, h2, fun _ h => h⟩
  · obtain ⟨ps', z', hI'⟩ := hm.alloc
    have hfork := h.made hm
    rcases hfork.reads hsrc (π := [i]) (i := j) (by simp [Path, hi, hj]) (by simp) hf with ⟨h1, h2⟩ | ⟨h1, h2⟩
    · have h1 : pmlGetP (entry a.mem pml2 j) = true := h1
      simp only [h1, if_true]
      exact forkLoop1_made hp hn hi hj hsrc hfork h2 fun l hl =>
        leaf_absent hm hi hj hl (habs j l hj hl) leaf_notMem_2
    · have h1 : pmlGetP (entry a.mem pml2 j) = false := h1
      simp only [h1, Bool.false_eq_true, if_false]
      rw [leavesAt1_absent h2, missing_empty]
      exact Or.inl ⟨a, Halts.const _, Made.refl hI' fun π hπ => absurd hπ (Finset.notMem_empty π), trivial⟩
  · split_ifs at hb
    · exact forkLoop1_failed ha hb
    · exact Option.some.inj hb ▸ ha

theorem forkLoop3_made (hp : Managed pool) {m : Mem} {new : Nat} (hn : pmlGetAddr new = root)
    (hsrc : ∀ p, uses m 3 src p ≤ own p) (h : Forking pool own root m s)
    (habs : ∀ i j l, i < 512 → j < 512 → l < 512 → follow s.mem [i, j, l] root = none) :
    Settles (¬ Spare pool (treeOwn own s.mem root) (missing s.mem root (leavesOf m src)))
      (fun f => forkLoop3 f new src s) (fun r => r.failed = true)
      fun r => Made pool root own own (leavesOf m src) (missing s.mem root (leavesOf m src)) s r ∧ True := by
  obtain ⟨ps, z, hI⟩ := h.alloc
  rw [leavesOf]
  refine made_forLoop (F := id) (V := leavesAt2 m src) (R := fun _ => own)
    (J := fun _ _ => True) (fun _ => Finset.Subset.rfl) (fun i hi π hπ => ?_) (fun i a hi _ hm => ?_)
    (fun f i a b ha hb => ?_) hI trivial
  · obtain ⟨h1, h2⟩ := path_of_mem_leavesAt2 hi hπ
    exact ⟨h1, h2, fun _ h => h⟩
  · obtain ⟨ps', z', hI'⟩ := hm.alloc
    have hfork := h.made hm
    rcases hfork.reads hsrc (π := []) (i := i) (by simp [Path, hi]) (by simp) rfl with ⟨h1, h2⟩ | ⟨h1, h2⟩
    · have h1 : pmlGetP (entry a.mem src i) = true := h1
      simp only [h1, if_true]
      exact forkLoop2_made hp hn hi hsrc hfork h2 fun j l hj hl =>
        leaf_absent hm hi hj hl (habs i j l hi hj hl) leaf_notMem_3
    · have h1 : pmlGetP (entry a.mem src i) = false := h1
      simp only [h1, Bool.false_eq_true, if_false]
      rw [leavesAt2_absent h2, missing_empty]
      exact Or.inl ⟨a, Halts.const _, Made.refl hI' fun π hπ => absurd hπ (Finset.notMem_empty π), trivial⟩
  · split_ifs at hb
    · exact forkLoop2_failed ha hb
    · exact Option.some.inj hb ▸ ha

/-- **`ForkProcessMap`** makes one page for itself, and one for each node above a leaf that it copies. -/
theorem forkProcessMap_newMap (hp : Managed pool) (hI : AllocInv pool s own ps z)
    (hsrc : ∀ p, uses s.mem 3 (pmlGetAddr s.pml4) p ≤ own p) :
    Settles (¬ Spare pool own (1 + (leavesOf s.mem (pmlGetAddr s.pml4)).card)) (fun k => forkProcessMap k s)
      (fun r => r.1.failed = true)
      fun r => pmlGetP r.2 = true ∧ NewMap pool own (pmlGetAddr r.2) (leavesOf s.mem (pmlGetAddr s.pml4))
        (1 + (leavesOf s.mem (pmlGetAddr s.pml4)).card) s r.1 := by
  simp only [forkProcessMap_loops]
  refine Settles.bind ((createProcessMap_newMap hp hI).mono (fun h hS => h (hS.mono (Nat.le_add_right 1 _)))
    fun r hr => hr) ?_ fun a n r ha hr => ?_
  · intro x hx
    obtain ⟨s1, new⟩ := x
    obtain ⟨hP, hnew⟩ := hx
    dsimp only at *
    obtain ⟨ps1, z1, hI1⟩ := hnew.alloc
    have hpml : pmlGetAddr s1.pml4 = pmlGetAddr s.pml4 := by rw [hnew.pml4]
    have hnone : ∀ π, Path π → π.length ≤ 3 → π ≠ [] → follow s1.mem π (pmlGetAddr new) = none := fun π hπ hl hne => by
      by_contra h
      exact ((hnew.nodes π hπ hl).mp h).elim hne (Finset.notMem_empty π)
    -- no node of the copy is there yet
    have hmiss : missing s1.mem (pmlGetAddr new) (leavesOf s.mem (pmlGetAddr s.pml4)) =
        (leavesOf s.mem (pmlGetAddr s.pml4)).card := by
      unfold missing
      rw [Finset.filter_true_of_mem fun π hπ => ?_]
      obtain ⟨i, hi, h1⟩ := mem_leavesOf.mp hπ
      obtain ⟨j, hj, h2⟩ := mem_leavesAt2.mp h1
      obtain ⟨l, hl, h3⟩ := mem_leavesAt1.mp h2
      obtain ⟨h4, h5⟩ := path_of_mem_leafAt hi hj hl h3
      refine hnone π h4 h5 ?_
      rcases mem_leafAt h3 with rfl | rfl | rfl <;> simp
    have hloop := forkLoop3_made hp rfl hsrc (s := s1) ⟨⟨ps1, z1, hI1⟩, hnew.keeps⟩
      fun i j l hi hj hl => hnone [i, j, l] (by simp [Path, hi, hj, hl]) (by simp) (by simp)
    rw [hmiss] at hloop
    rw [hpml]
    refine Settles.map (hloop.mono (fun h hS => h ?_) fun r hr => hr) (fun r hr => ⟨hP, ?_⟩) fun a ha => ha
    · rw [hnew.spare, Nat.add_comm]
      exact hS
    · have h2 := hnew.made hr.1
      rw [Finset.empty_union] at h2
      exact h2
  · obtain ⟨q, hq, rfl⟩ := Option.map_eq_some_iff.mp hr
    exact forkLoop3_failed ha hq

end New

/-! ## 4. The calls -/

/-- The pages that `syscall_alloc` comes to: those before the first one that is not a user page. -/
def rangeNodes (base n : Nat) : Finset (List Nat) :=
  upto (fun i => if ∀ j, j ≤ i → isUserPtr (pageAt base j) = true then leafNodes (pageAt base i) else ∅) n

/-- `CreateProcessMap`: a failure would show in the answer, an entry that is not present. -/
def CreateContained (s : Mm) : Prop :=
  ∃ r, Halts (fun k => createProcessMap k s) r ∧ ContainedNew s r ∧ (r.1.failed = true → pmlGetP r.2 = false)

/-- `ForkProcessMap`. -/
def ForkContained (s : Mm) : Prop :=
  ∃ r, Halts (fun k => forkProcessMap k s) r ∧ ContainedNew s r ∧ (r.1.failed = true → pmlGetP r.2 = false)

/-- `MapProcessPage(pml4Entry, phys, virt)`, which answers nothing. -/
def MapContained (s : Mm) (e phys virt : Nat) : Prop :=
  ∃ s', Halts (fun k => mapProcessPage k s e phys virt) s' ∧ Contained (pmlGetAddr e) (fun q => q = phys) s s' ∧
    (s'.failed = true → TablesKept (pmlGetAddr e) s s')

/-- `MapProcessPage(pml4Entry, virt)`, which answers a pointer. -/
def AnyContained (s : Mm) (e virt : Nat) : Prop :=
  ∃ r, Halts (fun k => mapAnyPage k s e virt) r ∧ Contained (pmlGetAddr e) (fun _ => False) s r.1 ∧
    (r.1.failed = true → r.2 = 0 ∧ TablesKept (pmlGetAddr e) s r.1)

/-- `syscall_alloc`: a failure would be an error, and no page that was mapped would be another one. -/
def AllocContained (s : Mm) (base n : Nat) : Prop :=
  ∃ r, Halts (fun k => syscallAlloc k s base n) r ∧ Contained (pmlGetAddr s.pml4) (fun _ => False) s r.1 ∧
    (r.1.failed = true → (∃ v, r.2 = .ret v ∧ v ≠ 0) ∧
      ∀ virt f, translate s.mem (pmlGetAddr s.pml4) virt = some f → translate r.1.mem (pmlGetAddr s.pml4) virt = some f)

section Calls

variable {pool : Nat → Prop} {root : Nat} {own rest : Nat → Nat} {W : Finset (List Nat)} {k : Nat} {s : Mm}
  {ps : List Nat} {z : Nat → Nat}

theorem NewMap.contained (hp : Managed pool) (hI : AllocInv pool s own ps z) {r : Mm × Nat}
    (h : NewMap pool own (pmlGetAddr r.2) W k s r.1) : ContainedNew s r := by
  obtain ⟨ps', z', hI'⟩ := h.alloc
  refine ⟨fun a ha => ?_, fun _ q hq => ?_⟩
  · obtain ⟨q, h1, h2⟩ := h.writes a ha
    exact ⟨q, h1, (freePage_iff hp hI).mpr h2⟩
  · obtain ⟨π, hπ, hl, hf⟩ := hq
    refine ⟨(freePage_iff hp hI).mpr (h.fresh π q hπ hl hf), fun h2 => ?_⟩
    have h3 := ((freePage_iff hp hI').mp h2).2
    have h4 := uses_of_follow hπ hl hf
    unfold treeOwn at h3
    omega

/-- An entry that is made is present, whatever stands in it. -/
theorem pmlEntry_present (p : Nat) : pmlGetP (pmlEntry p) = true := by
  unfold pmlEntry
  rw [pmlGetP_eq]
  exact decide_eq_true (Nat.or_mod_two_eq_one.mpr (Or.inr rfl))

theorem createProcessMap_present {r : Mm × Nat} (hr : createProcessMap k s = some r) : pmlGetP r.2 = true := by
  obtain ⟨q, -, rfl⟩ := Option.map_eq_some_iff.mp hr
  exact pmlEntry_present q.2

theorem forkProcessMap_present {r : Mm × Nat} (hr : forkProcessMap k s = some r) : pmlGetP r.2 = true := by
  rw [forkProcessMap_loops] at hr
  obtain ⟨q, hq, hr⟩ := Option.bind_eq_some_iff.mp hr
  obtain ⟨s', -, rfl⟩ := Option.map_eq_some_iff.mp hr
  have h := createProcessMap_present hq
  exact h

theorem createContained_iff (hp : Managed pool) (hs : s.failed = false) (hI : AllocInv pool s own ps z) :
    CreateContained s ↔ PagesFree s 1 := by
  rw [pagesFree_iff hp hI]
  refine (createProcessMap_newMap hp hI).ends_iff (fun r hr => ⟨?_, hr.2.contained hp hI, fun h => ?_⟩)
    fun r hr hb hP => ?_
  · have h1 := (hr.2.spare 0).mp spare_zero
    exact h1
  · rw [hr.2.failed, hs] at h
    cases h
  · obtain ⟨N, hN⟩ := hr
    rw [createProcessMap_present (hN N le_rfl)] at hP
    cases hP.2 hb

theorem forkContained_iff (hp : Managed pool) (hs : s.failed = false) (hI : AllocInv pool s own ps z)
    (hsrc : ∀ p, uses s.mem 3 (pmlGetAddr s.pml4) p ≤ own p) :
    ForkContained s ↔ PagesFree s (1 + (leavesOf s.mem (pmlGetAddr s.pml4)).card) := by
  rw [pagesFree_iff hp hI]
  refine (forkProcessMap_newMap hp hI hsrc).ends_iff (fun r hr => ⟨?_, hr.2.contained hp hI, fun h => ?_⟩)
    fun r hr hb hP => ?_
  · have h1 := (hr.2.spare 0).mp spare_zero
    rwa [Nat.zero_add] at h1
  · rw [hr.2.failed, hs] at h
    cases h
  · obtain ⟨N, hN⟩ := hr
    rw [forkProcessMap_present (hN N le_rfl)] at hP
    cases hP.2 hb

theorem mapAnyPage_ptr {e virt : Nat} {r : Mm × Nat} (hr : mapAnyPage k s e virt = some r) : r.2 ≠ 0 := by
  have hh := highMemBase_eq
  have hptr : ∀ p, physToKernelPtr p ≠ 0 := fun p => by
    unfold physToKernelPtr
    omega
  obtain ⟨q, -, hr⟩ := Option.bind_eq_some_iff.mp hr
  dsimp only at hr
  split_ifs at hr
  · rw [← Option.some.inj hr]
    exact hptr _
  · obtain ⟨q', -, rfl⟩ := Option.map_eq_some_iff.mp hr
    exact hptr _

theorem anyContained_iff (hp : Managed pool) (hs : s.failed = false) (e virt : Nat)
    (hI : AllocInv pool s (treeOwn rest s.mem (pmlGetAddr e)) ps z) :
    AnyContained s e virt ↔ PagesFree s (missing s.mem (pmlGetAddr e) (leafNodes virt)) := by
  rw [pagesFree_iff hp hI]
  refine (mapAnyPage_made hp virt rfl hI).ends_iff (fun r hr => ⟨?_, ?_, fun h => ?_⟩) fun r hr hb hP => ?_
  · have h1 := (hr.1.spare 0).mp spare_zero
    rwa [Nat.zero_add] at h1
  · exact (hr.1.contained hp hI).mono fun q hq => by omega
  · rw [hr.1.failed, hs] at h
    cases h
  · obtain ⟨N, hN⟩ := hr
    exact mapAnyPage_ptr (hN N le_rfl) (hP.2 hb).1

/-- The answer is no error. -/
theorem allocTurn_answer {base i : Nat} {a b : Mm × Outcome} (ha : a.2 = .ret 0 ∨ a.2 = .exit)
    (hb : allocTurn k base i a = some b) : b.2 = .ret 0 ∨ b.2 = .exit := by
  obtain ⟨s1, o⟩ := a
  unfold allocTurn at hb
  cases o with
  | exit =>
      rw [← Option.some.inj hb]
      exact ha
  | ret v =>
      dsimp only at hb
      split_ifs at hb
      · obtain ⟨q, -, rfl⟩ := Option.map_eq_some_iff.mp hb
        exact ha
      · rw [← Option.some.inj hb]
        exact Or.inr rfl

theorem allocTurn_failed {base i : Nat} {a b : Mm × Outcome} (ha : a.1.failed = true)
    (hb : allocTurn k base i a = some b) : b.1.failed = true := by
  obtain ⟨s1, o⟩ := a
  unfold allocTurn at hb
  cases o with
  | exit =>
      rw [← Option.some.inj hb]
      exact ha
  | ret v =>
      dsimp only at hb
      split_ifs at hb
      · obtain ⟨q, hq, rfl⟩ := Option.map_eq_some_iff.mp hb
        have h1 := mapAnyPage_failed (s := s1) ha hq
        exact h1
      · rw [← Option.some.inj hb]
        exact ha

theorem path_of_mem_leafNodes {virt : Nat} {π : List Nat} (h : π ∈ leafNodes virt) : Path π ∧ π.length ≤ 3 := by
  rcases Finset.mem_union.mp h with h | h
  · exact ⟨(walkNodes_path π h).1, (walkNodes_path π h).2.trans (Nat.le_succ 2)⟩
  · rw [Finset.mem_singleton.mp h]
    exact ⟨leafPath_path virt, (length_leafPath virt).le⟩

/-- **The loop of `syscall_alloc`** makes the nodes of its pages. -/
theorem allocTurns_made (hp : Managed pool) (base n : Nat) (he : pmlGetAddr s.pml4 = root)
    (hI : AllocInv pool s (treeOwn rest s.mem root) ps z) :
    Settles (¬ Spare pool (treeOwn rest s.mem root) (missing s.mem root (rangeNodes base n)))
      (fun k => forLoop (allocTurn k base) n 0 (s, .ret 0)) (fun r => r.1.failed = true)
      fun r => Made pool root rest rest (rangeNodes base n) (missing s.mem root (rangeNodes base n)) s r.1 ∧
        ((r.2 = .ret 0 ∧ ∀ j, j < n → isUserPtr (pageAt base j) = true) ∨
          (r.2 = .exit ∧ ∃ j, j < n ∧ isUserPtr (pageAt base j) = false)) := by
  unfold rangeNodes
  obtain ⟨V, hV⟩ : ∃ V : Nat → Finset (List Nat), (fun i =>
    if ∀ j, j ≤ i → isUserPtr (pageAt base j) = true then leafNodes (pageAt base i) else ∅) = V := ⟨_, rfl⟩
  have hin : ∀ i, (∀ j, j ≤ i → isUserPtr (pageAt base j) = true) → V i = leafNodes (pageAt base i) := fun i h => by
    rw [← hV]
    exact if_pos h
  have hout : ∀ i j, j ≤ i → isUserPtr (pageAt base j) = false → V i = ∅ := fun i j hj h => by
    rw [← hV]
    exact if_neg fun h' => by
      rw [h' j hj] at h
      cases h
  rw [hV]
  refine made_forLoop (F := Prod.fst) (x := (s, Outcome.ret 0)) (V := V) (R := fun _ => rest)
    (J := fun i r => (r.2 = .ret 0 ∧ ∀ j, j < i → isUserPtr (pageAt base j) = true) ∨
      (r.2 = .exit ∧ ∃ j, j < i ∧ isUserPtr (pageAt base j) = false)) (fun _ => Finset.Subset.rfl)
    (fun i hi π hπ => ?_) (fun i a hi hJ hm => ?_) (fun f i a b ha hb => allocTurn_failed ha hb) hI
    (Or.inl ⟨rfl, fun j hj => absurd hj (Nat.not_lt_zero j)⟩)
  · by_cases hall : ∀ j, j ≤ i → isUserPtr (pageAt base j) = true
    · rw [hin i hall] at hπ
      exact ⟨(path_of_mem_leafNodes hπ).1, (path_of_mem_leafNodes hπ).2, fun _ h => h⟩
    · rw [← hV] at hπ
      dsimp only at hπ
      rw [if_neg hall] at hπ
      exact absurd hπ (Finset.notMem_empty π)
  · obtain ⟨s1, o⟩ := a
    obtain ⟨ps', z', hI'⟩ := hm.alloc
    have hskip : V i = ∅ → Made pool root rest rest (V i) (missing s1.mem root (V i)) s1 s1 := fun h => by
      rw [h, missing_empty]
      exact Made.refl hI' fun π hπ => absurd hπ (Finset.notMem_empty π)
    rcases hJ with ⟨rfl, hu⟩ | ⟨rfl, j, hj, hu⟩
    · unfold allocTurn
      dsimp only
      by_cases hus : isUserPtr (pageAt base i) = true
      · have hall : ∀ j, j ≤ i → isUserPtr (pageAt base j) = true := fun j hj => by
          by_cases heq : j = i
          · exact heq ▸ hus
          · exact hu j (by omega)
        have hus' : isUserPtr (u64 (base + i * 4096)) = true := hus
        simp only [hus', if_true]
        rw [hin i hall]
        refine (mapAnyPage_made hp (pageAt base i) ?_ hI').map (fun r hr => ⟨hr.1, Or.inl ⟨rfl, fun j hj => ?_⟩⟩)
          fun a ha => ha
        · rw [hm.pml4]
          exact he
        · exact hall j (by omega)
      · have hus : isUserPtr (pageAt base i) = false := by simpa using hus
        have hus' : isUserPtr (u64 (base + i * 4096)) = false := hus
        simp only [hus', Bool.false_eq_true, if_false]
        exact Or.inl ⟨_, Halts.const _, hskip (hout i i le_rfl hus), Or.inr ⟨rfl, i, Nat.lt_succ_self i, hus⟩⟩
    · exact Or.inl ⟨_, Halts.const _, hskip (hout i j hj.le hu), Or.inr ⟨rfl, j, by omega, hu⟩⟩

theorem allocContained_iff (hp : Managed pool) (hs : s.failed = false) (base n : Nat)
    (hI : AllocInv pool s (treeOwn rest s.mem (pmlGetAddr s.pml4)) ps z) :
    AllocContained s base n ↔ base &&& 1 ≠ 0 ∨
      PagesFree s (missing s.mem (pmlGetAddr s.pml4) (rangeNodes base n)) := by
  unfold AllocContained
  simp only [syscallAlloc_turns]
  by_cases hb : base &&& 1 ≠ 0
  · simp only [if_pos hb]
    refine iff_of_true ⟨_, Halts.const _, ⟨fun a ha => absurd rfl ha, fun q hq => Or.inl hq⟩, fun h => ?_⟩ (Or.inl hb)
    rw [hs] at h
    cases h
  · simp only [if_neg hb]
    rw [or_iff_right hb, pagesFree_iff hp hI]
    refine (allocTurns_made hp base n rfl hI).ends_iff (fun r hr => ⟨?_, ?_, fun h => ?_⟩) fun r hr hbad hP => ?_
    · have h1 := (hr.1.spare 0).mp spare_zero
      rwa [Nat.zero_add] at h1
    · exact (hr.1.contained hp hI).mono fun q hq => by omega
    · rw [hr.1.failed, hs] at h
      cases h
    · obtain ⟨N, hN⟩ := hr
      have hans : r.2 = .ret 0 ∨ r.2 = .exit :=
        forLoop_keeps (B := fun a : Mm × Outcome => a.2 = .ret 0 ∨ a.2 = .exit)
          (fun i a b ha hb => allocTurn_answer ha hb) (Or.inl rfl) (hN N le_rfl)
      obtain ⟨⟨v, hv, hv0⟩, -⟩ := hP.2 hbad
      rcases hans with h | h
      · rw [h] at hv
        exact hv0 (Outcome.ret.inj hv).symm
      · rw [h] at hv
        cases hv

/-! ### `MapProcessPage(pml4Entry, phys, virt)`: what becomes of the tables -/

/-- Without a free page the list is empty, whatever is written to memory. -/
theorem exhausted (hI : AllocInv pool s own ps z) (hno : ¬ Spare pool own 1) : s.freeList.head = 0 := by
  cases ps with
  | nil => exact hI.free.rep.head
  | cons c ps =>
      have hc : c ∈ c :: ps := List.mem_cons_self
      obtain ⟨p, h1, h2, -⟩ := (hI.cover c).mp ⟨c, hc, le_rfl, by have := (hI.geo.pos c hc).2; omega⟩
      exact absurd ⟨{p}, le_rfl, fun q hq => by rw [Finset.mem_singleton.mp hq]; exact ⟨h1, h2⟩⟩ hno

theorem allocatePages_exhausted (h : s.freeList.head = 0) (n : Nat) :
    allocatePages (k + 1) s n = some ({ s with failed := true }, 0) := by
  unfold allocatePages findFree
  rw [h]
  rfl

/-- The state after a table was made of page 0. -/
def zeroed (s : Mm) (t i : Nat) : Mm := setEntry (zeroTable { s with failed := true } 0) t i (pmlEntry 0)

theorem nextTable_exhausted (h : s.freeList.head = 0) {t i : Nat} (habs : pmlGetP (entry s.mem t i) = false) :
    nextTable (k + 1) s t i = some (zeroed s t i, 0) := by
  unfold nextTable zeroed
  rw [habs, allocatePages_exhausted h]
  rfl

/-- An entry that is present stays so when an entry that is present is written. -/
theorem present_setEntry {t i c j v : Nat} (hv : pmlGetP v = true) (h : pmlGetP (entry s.mem t i) = true) :
    pmlGetP (entry (setEntry s c j v).mem t i) = true := by
  unfold entry setEntry at *
  dsimp only
  by_cases heq : cell t i = cell c j
  · rw [heq, Function.update_self]
    exact hv
  · rw [Function.update_of_ne heq]
    exact h

/-- An entry of the map has come to be present. -/
def Spoiled (root : Nat) (s s' : Mm) : Prop :=
  ∃ t i, IsTable s.mem root t ∧ i < 512 ∧ pmlGetP (entry s.mem t i) = false ∧ pmlGetP (entry s'.mem t i) = true

/-- What is written to page 0 leaves the entries of another page present. -/
theorem present_zeroed {t i c j : Nat} (ht : t ≠ 0) (hd : 4096 ∣ t) (hi : i < 512)
    (h : pmlGetP (entry s.mem t i) = true) : pmlGetP (entry (zeroed s c j).mem t i) = true := by
  refine present_setEntry (pmlEntry_present 0) ?_
  rw [(samePage_zero { s with failed := true } (Nat.dvd_zero 4096) hd ht).entry hi]
  exact h

/-- Where not even one node can be had, it is missing, and the entry it would hang on is absent. -/
theorem absent_of_noSpare {own : Nat → Nat} {m : Mem} {π : List Nat} {t i : Nat} (hf : follow m π root = some t)
    (hno : ¬ Spare pool own (missing m root {π ++ [i]})) : pmlGetP (entry m t i) = false ∧ ¬ Spare pool own 1 := by
  have hsnoc := follow_snoc m π i root t hf
  have habs : pmlGetP (entry m t i) = false := by
    by_contra h
    rw [if_pos (Bool.not_eq_false _ ▸ h)] at hsnoc
    rw [missing_singleton, hsnoc] at hno
    exact hno spare_zero
  rw [habs] at hsnoc
  rw [missing_singleton, hsnoc] at hno
  exact ⟨habs, hno⟩

/-- The second step, after the first one came to the table `t`. -/
theorem walkTables_exhausted {e virt t : Nat} {s1 : Mm} (he : pmlGetAddr e = root) (hl : s1.freeList.head = 0)
    (habs : pmlGetP (entry s1.mem t (getPml2Index virt)) = false)
    (h : Halts (fun k => nextTable k s root (getPml3Index virt)) (s1, t)) :
    Halts (fun k => walkTables k s e virt) (zeroed s1 t (getPml2Index virt), 0) := by
  unfold walkTables
  rw [he]
  refine h.bind ⟨1, fun k hk => ?_⟩
  obtain ⟨k, rfl⟩ : ∃ j, k = j + 1 := ⟨k - 1, by omega⟩
  exact nextTable_exhausted hl habs

/-- The first step is as it should be, the second one is not. -/
theorem walkTables_broken_second (hp : Managed pool) {e : Nat} (virt : Nat) (he : pmlGetAddr e = root)
    (hI : AllocInv pool s (treeOwn rest s.mem root) ps z)
    (hno : ¬ Spare pool (treeOwn rest s.mem root) (missing s.mem root (walkNodes virt)))
    (hsp : Spare pool (treeOwn rest s.mem root) (missing s.mem root {[getPml3Index virt]})) :
    ∃ s', Halts (fun k => walkTables k s e virt) (s', 0) ∧ (¬ IsTable s.mem root 0 → Spoiled root s s') := by
  have h3 : getPml3Index virt < 512 := getPmlIndex_lt 2 virt
  have h2 : getPml2Index virt < 512 := getPmlIndex_lt 1 virt
  have hpath : Path [getPml3Index virt] := fun j hj => List.mem_singleton.mp hj ▸ h3
  have hroot : IsTable s.mem root root := ⟨[], fun j hj => absurd hj List.not_mem_nil, by decide, rfl⟩
  have hrd : 4096 ∣ root := (hp root (hI.managed root (Nat.lt_of_lt_of_le (uses_root s.mem 2 root)
    (uses_le_treeOwn rest s.mem root root)))).1
  have hfirst := nextTableBy_made hp pmlEntry_pointsTo [] (Nat.succ_pos 1)
    (fun j hj => absurd hj List.not_mem_nil) h3 rfl hI
  rw [List.nil_append] at hfirst
  obtain ⟨⟨s1, t⟩, hr, hm, ht⟩ := hfirst.halts (not_not.mpr hsp)
  dsimp only at hm ht
  obtain ⟨ps1, z1, hI1⟩ := hm.alloc
  have hadd := missing_add hm (B := {walkPath virt}) Finset.Subset.rfl fun π hπ => by
    rw [Finset.mem_singleton.mp hπ]
    exact ⟨walkPath_path virt, Nat.le_succ 2, fun h => h⟩
  have hno1 : ¬ Spare pool (treeOwn rest s1.mem root) (missing s1.mem root {walkPath virt}) := fun h => by
    rw [hm.spare, Nat.add_comm, ← hadd] at h
    exact hno h
  obtain ⟨habs, hno1⟩ := absent_of_noSpare (π := [getPml3Index virt]) ht hno1
  refine ⟨_, walkTables_exhausted he (exhausted hI1 hno1) habs hr, fun h0 => ?_⟩
  have hroot0 : root ≠ 0 := fun h => h0 (h ▸ hroot)
  by_cases hP : pmlGetP (entry s.mem root (getPml3Index virt)) = true
  · -- the table was there
    have heq : s1 = s ∧ t = pmlGetAddr (entry s.mem root (getPml3Index virt)) := by
      have hrun : Halts (fun k => nextTableBy pmlEntry k s root (getPml3Index virt))
          (s, pmlGetAddr (entry s.mem root (getPml3Index virt))) := by
        refine ⟨0, fun k _ => ?_⟩
        show nextTableBy pmlEntry k s root (getPml3Index virt) = _
        rw [nextTableBy, if_pos hP]
      exact Prod.mk.inj (hr.unique hrun)
    obtain ⟨rfl, -⟩ := heq
    refine ⟨t, getPml2Index virt, ⟨_, hpath, by simp, ht⟩, h2, habs, ?_⟩
    unfold zeroed
    rw [entry_setEntry]
    exact pmlEntry_present 0
  · refine ⟨root, getPml3Index virt, hroot, h3, Bool.eq_false_iff.mpr hP, present_zeroed hroot0 hrd h3 ?_⟩
    by_contra h
    have h := Bool.eq_false_iff.mpr h
    have h1 : follow s1.mem ([] ++ [getPml3Index virt]) root = none := by
      rw [follow_snoc s1.mem [] (getPml3Index virt) root root rfl, h]
      rfl
    rw [List.nil_append, ht] at h1
    cases h1

/-- The first step makes a table of page 0. -/
theorem walkTables_broken_first (hp : Managed pool) {e : Nat} (virt : Nat) (he : pmlGetAddr e = root)
    (hI : AllocInv pool s (treeOwn rest s.mem root) ps z)
    (hsp : ¬ Spare pool (treeOwn rest s.mem root) (missing s.mem root {[getPml3Index virt]})) :
    ∃ s', Halts (fun k => walkTables k s e virt) (s', 0) ∧ (¬ IsTable s.mem root 0 → Spoiled root s s') := by
  have h3 : getPml3Index virt < 512 := getPmlIndex_lt 2 virt
  have h2 : getPml2Index virt < 512 := getPmlIndex_lt 1 virt
  have hroot : IsTable s.mem root root := ⟨[], fun j hj => absurd hj List.not_mem_nil, by decide, rfl⟩
  have hrd : 4096 ∣ root := (hp root (hI.managed root (Nat.lt_of_lt_of_le (uses_root s.mem 2 root)
    (uses_le_treeOwn rest s.mem root root)))).1
  obtain ⟨habs, hno1⟩ := absent_of_noSpare (π := []) rfl hsp
  have hl := exhausted hI hno1
  have hr : Halts (fun k => nextTable k s root (getPml3Index virt)) (zeroed s root (getPml3Index virt), 0) := by
    refine ⟨1, fun k hk => ?_⟩
    obtain ⟨k, rfl⟩ : ∃ j, k = j + 1 := ⟨k - 1, by omega⟩
    exact nextTable_exhausted hl habs
  have hspoiled : pmlGetP (entry (zeroed s root (getPml3Index virt)).mem root (getPml3Index virt)) = true := by
    unfold zeroed
    rw [entry_setEntry]
    exact pmlEntry_present 0
  have hl1 : (zeroed s root (getPml3Index virt)).freeList.head = 0 := by
    unfold zeroed
    rw [(setEntry_fields _ _ _ _).1, (zeroTable_fields _ _).1]
    exact hl
  by_cases hP : pmlGetP (entry (zeroed s root (getPml3Index virt)).mem 0 (getPml2Index virt)) = true
  · -- page 0 is the PML3 itself, and the two indices are the same
    have haddr : pmlGetAddr (entry (zeroed s root (getPml3Index virt)).mem 0 (getPml2Index virt)) = 0 := by
      unfold zeroed entry setEntry at *
      dsimp only at *
      by_cases heq : cell 0 (getPml2Index virt) = cell root (getPml3Index virt)
      · rw [heq, Function.update_self]
        exact (pmlEntry_facts (Nat.dvd_zero 4096) (by decide)).2
      · rw [Function.update_of_ne heq]
        have h0 := entry_zeroTable { s with failed := true } (t := 0) h2
        unfold entry at h0
        rw [h0]
        exact (pmlGetAddr_eq 0).trans (by decide)
    refine ⟨zeroed s root (getPml3Index virt), ?_, fun _ => ⟨root, _, hroot, h3, habs, hspoiled⟩⟩
    unfold walkTables
    rw [he]
    refine hr.bind ⟨0, fun k _ => ?_⟩
    dsimp only
    unfold nextTable
    rw [if_pos hP, haddr]
  · have hP := Bool.eq_false_iff.mpr hP
    refine ⟨_, walkTables_exhausted he hl1 hP hr, fun h0 => ⟨root, _, hroot, h3, habs, ?_⟩⟩
    exact present_zeroed (fun h => h0 (h ▸ hroot)) hrd h3 hspoiled

/-- **The walk without enough pages** ends in page 0, and has made an entry of the map present, if page 0 is not one of
    its tables. -/
theorem walkTables_broken (hp : Managed pool) {e : Nat} (virt : Nat) (he : pmlGetAddr e = root)
    (hI : AllocInv pool s (treeOwn rest s.mem root) ps z)
    (hno : ¬ Spare pool (treeOwn rest s.mem root) (missing s.mem root (walkNodes virt))) :
    ∃ s', Halts (fun k => walkTables k s e virt) (s', 0) ∧ (¬ IsTable s.mem root 0 → Spoiled root s s') := by
  by_cases hsp : Spare pool (treeOwn rest s.mem root) (missing s.mem root {[getPml3Index virt]})
  · exact walkTables_broken_second hp virt he hI hno hsp
  · exact walkTables_broken_first hp virt he hI hsp

/-- **Without enough pages the tables of the map do not stay as they were.** -/
theorem mapProcessPage_broken (hp : Managed pool) {e phys : Nat} (virt : Nat) (he : pmlGetAddr e = root)
    (hI : AllocInv pool s (treeOwn rest s.mem root) ps z)
    (hno : ¬ Spare pool (treeOwn rest s.mem root) (missing s.mem root (walkNodes virt)))
    (hphys : ¬ IsPage s.mem root phys) (hd : 4096 ∣ phys ∧ phys < 2 ^ 52) {s' : Mm}
    (hr : Halts (fun k => mapProcessPage k s e phys virt) s') : ¬ TablesKept root s s' := by
  have h1 : getPml1Index virt < 512 := getPmlIndex_lt 0 virt
  obtain ⟨s1, hw, hspoil⟩ := walkTables_broken hp virt he hI hno
  obtain rfl : s' = setEntry s1 0 (getPml1Index virt) (pmlEntry phys) := by
    have hrun : Halts (fun k => mapProcessPage k s e phys virt)
        (setEntry s1 0 (getPml1Index virt) (pmlEntry phys)) := hw.map _
    exact hr.unique hrun
  intro hkept
  by_cases h0 : IsTable s.mem root 0
  · -- the leaf stands in a table of the map now
    have h2 := (hkept 0 h0).entry h1
    rw [entry_setEntry] at h2
    obtain ⟨π, hπ, hl, hf⟩ := h0
    refine hphys ⟨π ++ [getPml1Index virt], path_snoc hπ h1, by rw [List.length_append]; exact hl, ?_⟩
    obtain ⟨hP, hA⟩ := pmlEntry_facts hd.1 hd.2
    rw [follow_snoc s.mem π _ root 0 hf, ← h2, hP, hA]
    rfl
  · obtain ⟨t, i, ht, hi, habs, hpres⟩ := hspoil h0
    have h2 := present_setEntry (s := s1) (c := 0) (j := getPml1Index virt) (pmlEntry_present phys) hpres
    rw [(hkept t ht).entry hi, habs] at h2
    cases h2

/-- An address that has a frame: only its leaf is written. -/
theorem mapProcessPage_again (hp : Managed pool) {e virt phys : Nat} (he : pmlGetAddr e = root)
    (hmapped : translate s.mem root virt ≠ none) (hd : 4096 ∣ phys ∧ phys < 2 ^ 52)
    (hI : AllocInv pool s (treeOwn rest s.mem root) ps z) :
    missing s.mem root (walkNodes virt) = 0 ∧
      ∃ s', Halts (fun k => mapProcessPage k s e phys virt) s' ∧ Contained root (fun q => q = phys) s s' ∧
        s'.failed = s.failed := by
  -- the tables on the way are there
  obtain ⟨c, hc⟩ : ∃ c, follow s.mem (walkPath virt) root = some c := by
    refine Option.ne_none_iff_exists'.mp fun h => hmapped ?_
    unfold translate leafPath
    rw [follow_append, h]
    rfl
  obtain ⟨hP3, hf⟩ := follow_step hc
  obtain ⟨hP2, hf⟩ := follow_step hf
  have hc2 := Option.some.inj hf
  have hm0 : missing s.mem root (walkNodes virt) = 0 := by
    refine Finset.card_eq_zero.mpr (Finset.filter_eq_empty_iff.mpr fun π hπ hnone => ?_)
    rcases Finset.mem_union.mp hπ with h | h
    · rw [Finset.mem_singleton.mp h, follow, if_pos hP3] at hnone
      cases hnone
    · rw [Finset.mem_singleton.mp h, hc] at hnone
      cases hnone
  have hrun : Halts (fun k => mapProcessPage k s e phys virt) (setEntry s c (getPml1Index virt) (pmlEntry phys)) := by
    refine ⟨0, fun k _ => ?_⟩
    dsimp only
    unfold mapProcessPage walkTables nextTable
    rw [he, if_pos hP3, Option.bind_some]
    dsimp only
    rw [if_pos hP2, hc2]
    rfl
  have h1 : getPml1Index virt < 512 := getPmlIndex_lt 0 virt
  have htable : IsTable s.mem root c := ⟨walkPath virt, walkPath_path virt, Nat.le_refl 3, hc⟩
  obtain ⟨hother, hleaf⟩ := follow_set (wellFormed_owned hp hI) (walkPath_path virt) (Nat.le_refl 3) h1 hc
    (rfl : (setEntry s c (getPml1Index virt) (pmlEntry phys)).mem = _)
  obtain ⟨hP, hA⟩ := pmlEntry_facts hd.1 hd.2
  refine ⟨hm0, _, hrun, ⟨fun a ha => ⟨c, ?_, Or.inr htable⟩, ?_⟩, rfl⟩
  · -- the only cell that is written
    obtain rfl : a = cell c (getPml1Index virt) := by
      by_contra hne
      exact ha (Function.update_of_ne hne _ _)
    unfold InPage cell
    omega
  · intro q hx
    obtain ⟨π, hπ, hl, hq⟩ := hx
    by_cases hpre : walkPath virt ++ [getPml1Index virt] <+: π
    · obtain rfl : π = leafPath virt := by
        refine leafPath_of_length (le_antisymm hl ?_) hpre
        have := hpre.length_le
        rwa [List.length_append] at this
      rw [show leafPath virt = walkPath virt ++ [getPml1Index virt] from rfl, hleaf, if_pos hP, hA] at hq
      exact Or.inr (Or.inr (Option.some.inj hq).symm)
    · rw [hother π hπ hl hpre] at hq
      exact Or.inl ⟨π, hπ, hl, hq⟩

/-- `phys` is a page of the caller. -/
theorem mapContained_iff (hp : Managed pool) (hs : s.failed = false) (e virt : Nat) {phys : Nat}
    (hI : AllocInv pool s (fun p => treeOwn rest s.mem (pmlGetAddr e) p + if p = phys then 1 else 0) ps z) :
    MapContained s e phys virt ↔ PagesFree s (missing s.mem (pmlGetAddr e) (walkNodes virt)) := by
  rw [pagesFree_iff hp hI]
  have hrest : (fun p => treeOwn rest s.mem (pmlGetAddr e) p + if p = phys then 1 else 0) =
      treeOwn (fun p => rest p + if p = phys then 1 else 0) s.mem (pmlGetAddr e) := by
    funext p
    exact Nat.add_right_comm _ _ _
  have hphys : pool phys := hI.managed phys (by rw [if_pos rfl]; exact Nat.succ_pos _)
  have hpd : 4096 ∣ phys ∧ phys < 2 ^ 52 := ⟨(hp phys hphys).1, by have := hp phys hphys; omega⟩
  have hone := hI.once phys
  rw [if_pos rfl] at hone
  unfold treeOwn at hone
  have hnot : ¬ IsPage s.mem (pmlGetAddr e) phys := fun ⟨π, hπ, hl, hf⟩ => by
    have h1 := uses_of_follow hπ hl hf
    omega
  rw [hrest] at hI ⊢
  unfold MapContained
  by_cases habs : translate s.mem (pmlGetAddr e) virt = none
  · have hmade := mapPageBy_made hp pmlEntry_pointsTo virt rfl (fun p => rfl) habs hI
    by_cases hsp : Spare pool (treeOwn (fun p => rest p + if p = phys then 1 else 0) s.mem (pmlGetAddr e))
        (missing s.mem (pmlGetAddr e) (walkNodes virt))
    · obtain ⟨r, hr, hm, -⟩ := hmade.halts (not_not.mpr hsp)
      refine iff_of_true ⟨r, hr, (hm.contained hp hI).mono fun q hq => ?_, fun h => ?_⟩ hsp
      · have h1 := hq.1
        rw [hq.2, Nat.zero_add] at h1
        by_contra hne
        rw [if_neg hne] at h1
        exact Nat.lt_irrefl 0 h1
      · rw [hm.failed, hs] at h
        cases h
    · refine iff_of_false ?_ hsp
      intro hx
      obtain ⟨s', hr, -, hfail⟩ := hx
      have hbroken := mapProcessPage_broken hp virt rfl hI hsp hnot hpd hr
      rcases hmade with ⟨r, hr', hm, -⟩ | ⟨-, N, hall⟩
      · have h1 := (hm.spare 0).mp spare_zero
        rw [Nat.zero_add] at h1
        exact hsp h1
      · obtain ⟨N', hN'⟩ := hr
        exact hbroken (hfail (hall (max N N') (le_max_left _ _) s' (hN' _ (le_max_right _ _))))
  · obtain ⟨hm0, s', hr, hc, hf⟩ := mapProcessPage_again hp rfl habs hpd hI
    rw [hm0]
    refine iff_of_true ⟨s', hr, hc, fun h => ?_⟩ spare_zero
    rw [hf, hs] at h
    cases h

end Calls

/-! ## 5. `ReserveNew` -/

/-- A segment of the free list holds `n` pages. -/
def HoldsRun (s : Mm) (n : Nat) : Prop := ∃ ps z, Free s.mem s.freeList ps z ∧ ∃ c ∈ ps, n * 4096 ≤ z c

/-- The pages of a reservation. -/
def reservedPages (size : Nat) : Nat := (size + 4095) / 4096

/-- The tables above the pages from `pos` on. -/
def heapNodes (pos n : Nat) : Finset (List Nat) := upto (fun i => walkNodes (pos + 4096 * i)) n

/-- What `ReserveNew` relies on: the heap is in order and has room up to the end of its entry of the PML4, the pages it
    grows by are not mapped yet, and `4096 * i` is computed without a wrap, in 32 bits. -/
structure Reservable (s : Mm) (root : Nat) (h : KernelHeap.Heap) (size : Nat) : Prop where
  heap : ∃ live ps z, KernelHeap.HeapInv ⟨h, live⟩ ps z
  bytes : 0 < size ∧ size + 4095 < 2 ^ 64
  small : reservedPages size ≤ 2 ^ 19
  room : h.heapPos + reservedPages size * 4096 ≤ KernelHeap.heapBase + 2 ^ 39
  unmapped : ∀ i, i < reservedPages size → follow s.mem (leafPath (h.heapPos + 4096 * i)) root = none

/-- `ReserveNew`: a failure would leave the heap as it is. -/
def ReserveContained (pml4 : Nat → Nat) (fresh : Mem) (s : Mm) (h : KernelHeap.Heap) (size : Nat) : Prop :=
  ∃ r, Halts (fun k => reserveNew k pml4 fresh s h size) r ∧
    Contained (pmlGetAddr (pml4 510)) (fun _ => False) s r.1 ∧ (r.1.failed = true → r.2 = h)

section Reserve

variable {pool : Nat → Prop} {root : Nat} {own rest : Nat → Nat} {k : Nat} {s : Mm} {ps : List Nat} {z : Nat → Nat}
  {h : KernelHeap.Heap} {size : Nat}

theorem holdsRun_iff (hF : Free s.mem s.freeList ps z) (n : Nat) : HoldsRun s n ↔ ∃ c ∈ ps, n * 4096 ≤ z c := by
  constructor
  · intro hx
    obtain ⟨ps', z', hF', c, hc, hle⟩ := hx
    obtain rfl := hF'.rep.unique hF.rep
    rw [← hF'.size c hc, hF.size c hc] at hle
    exact ⟨c, hc, hle⟩
  · exact fun h => ⟨ps, z, hF, h⟩

/-- The addresses of the heap are those of one entry of the PML4. -/
theorem heap_index {v : Nat} (h1 : KernelHeap.heapBase ≤ v) (h2 : v < KernelHeap.heapBase + 2 ^ 39) :
    getPml4Index v = 510 := by
  have hb := KernelHeap.heapBase_eq
  unfold getPml4Index
  rw [getPmlIndex_eq]
  omega

/-- There two pages are under two leaves. -/
theorem heap_leaf_inj {v v' : Nat} (h1 : KernelHeap.heapBase ≤ v) (h2 : v < KernelHeap.heapBase + 2 ^ 39)
    (h1' : KernelHeap.heapBase ≤ v') (h2' : v' < KernelHeap.heapBase + 2 ^ 39) (heq : leafPath v = leafPath v') :
    v / 4096 = v' / 4096 := by
  have hb := KernelHeap.heapBase_eq
  unfold leafPath walkPath getPml3Index getPml2Index getPml1Index at heq
  simp only [getPmlIndex_eq, List.cons_append, List.nil_append, List.cons.injEq, and_true] at heq
  norm_num at heq
  omega

theorem mapKernelPage_failed {pml4 : Nat → Nat} {phys virt : Nat} {r : Mm} (hs : s.failed = true)
    (hr : mapKernelPage k s pml4 phys virt = some r) : r.failed = true := mapPageBy_failed hs hr

/-- **The loop of `ReserveNew`**: the pages of the run are mapped one after the other. -/
theorem reserveLoop_made (hp : Managed pool) {pml4 : Nat → Nat} (he : pmlGetAddr (pml4 510) = root) {g n pos : Nat}
    (hg : 4096 ∣ g) (hrun : ∀ p, InRun g n p → pool p) (hpos : KernelHeap.heapBase ≤ pos)
    (hroom : pos + n * 4096 ≤ KernelHeap.heapBase + 2 ^ 39)
    (habs : ∀ i, i < n → follow s.mem (leafPath (pos + 4096 * i)) root = none)
    (hI : AllocInv pool s (treeOwn (fun p => rest p + if InRun g n p then 1 else 0) s.mem root) ps z) :
    Settles (¬ Spare pool (treeOwn (fun p => rest p + if InRun g n p then 1 else 0) s.mem root)
        (missing s.mem root (heapNodes pos n)))
      (fun k => forLoop (fun i s => mapKernelPage k s pml4 (u64 (g + 4096 * i)) (u64 (pos + 4096 * i))) n 0 s)
      (fun r => r.failed = true)
      fun r => Made pool root (fun p => rest p + if InRun g n p then 1 else 0) rest
        (upto (fun i => leafNodes (pos + 4096 * i)) n) (missing s.mem root (heapNodes pos n)) s r := by
  have hb := KernelHeap.heapBase_eq
  unfold heapNodes
  refine runLoop_made (v := fun i => pos + 4096 * i) hp pmlKernelEntry_pointsTo he hg (fun i j hi hj heq => ?_)
    habs (fun k i a hi => ?_) (fun k i a b ha hb => mapKernelPage_failed ha hb) hI
  · have h1 := heap_leaf_inj (by omega) (by omega) (by omega) (by omega) heq
    omega
  · have hgi := (hp (g + 4096 * i) (hrun _ ⟨by omega, by omega, by omega⟩)).2
    have hvi : pos + 4096 * i < KernelHeap.heapBase + 2 ^ 39 := by omega
    have hv64 : pos + 4096 * i < 2 ^ 64 := hvi.trans_le (by rw [hb]; decide)
    unfold mapKernelPage
    rw [u64_of_lt (by omega : g + 4096 * i < 2 ^ 64), u64_of_lt hv64, heap_index (by omega) hvi]

theorem reserveNew_pos {pml4 : Nat → Nat} {fresh : Mem} {r : Mm × KernelHeap.Heap}
    (hr : reserveNew k pml4 fresh s h size = some r) : r.2.heapPos = u64 (h.heapPos + KernelHeap.reserveSize size) := by
  obtain ⟨q, -, hr⟩ := Option.bind_eq_some_iff.mp hr
  obtain ⟨s', -, hr⟩ := Option.bind_eq_some_iff.mp hr
  obtain ⟨h', hh, rfl⟩ := Option.map_eq_some_iff.mp hr
  obtain ⟨q', -, rfl⟩ := Option.map_eq_some_iff.mp hh
  rfl

theorem reserveNew_failed {pml4 : Nat → Nat} {fresh : Mem} {q : Mm × Nat} {n : Nat} {r : Mm × KernelHeap.Heap}
    (hq : q.1.failed = true)
    (hr : ((forLoop (fun i s => mapKernelPage k s pml4 (u64 (q.2 + 4096 * i)) (u64 (h.heapPos + 4096 * i))) n 0
      q.1).bind fun s => (KernelHeap.reserveNew k fresh h size).map fun h => (s, h)) = some r) : r.1.failed = true := by
  obtain ⟨s', hs', hr⟩ := Option.bind_eq_some_iff.mp hr
  obtain ⟨h', -, rfl⟩ := Option.map_eq_some_iff.mp hr
  exact forLoop_keeps (B := fun s : Mm => s.failed = true) (fun i a b ha hb => mapKernelPage_failed ha hb) hq hs'

/-- **`ReserveNew`** takes a run of pages, and one page for each table that is missing. -/
theorem reserveNew_made (hp : Managed pool) {pml4 : Nat → Nat} (fresh : Mem)
    (hI : AllocInv pool s (treeOwn rest s.mem (pmlGetAddr (pml4 510))) ps z)
    (hr : Reservable s (pmlGetAddr (pml4 510)) h size) :
    Settles (¬ (HoldsRun s (reservedPages size) ∧ Spare pool (treeOwn rest s.mem (pmlGetAddr (pml4 510)))
        (reservedPages size + missing s.mem (pmlGetAddr (pml4 510)) (heapNodes h.heapPos (reservedPages size)))))
      (fun k => reserveNew k pml4 fresh s h size) (fun r => r.1.failed = true)
      fun r => (HoldsRun s (reservedPages size) ∧ Spare pool (treeOwn rest s.mem (pmlGetAddr (pml4 510)))
          (reservedPages size + missing s.mem (pmlGetAddr (pml4 510)) (heapNodes h.heapPos (reservedPages size)))) ∧
        ∃ W k, Made pool (pmlGetAddr (pml4 510)) rest rest W k s r.1 := by
  obtain ⟨live, psh, zh, hheap⟩ := hr.heap
  have hb := KernelHeap.heapBase_eq
  obtain ⟨hsz0, hsz⟩ := hr.bytes
  have hn : u64 (size + 4095) / 4096 = reservedPages size := by
    rw [u64_of_lt hsz]
    rfl
  have hn0 : 0 < reservedPages size := by
    unfold reservedPages
    omega
  have hsmall := hr.small
  have hroom := hr.room
  have hunmapped := hr.unmapped
  obtain ⟨hpos, -⟩ := hheap.pos
  obtain ⟨h', psh', zh', hh', -, -⟩ := KernelHeap.reserveNew_spec hheap hsz0
    (by unfold reservedPages at hroom; dsimp only; omega) fresh
  unfold reserveNew
  dsimp only
  rw [hn]
  generalize reservedPages size = n at *
  obtain ⟨hfindNone, -⟩ := allocatePages_find hI hn0 (by omega : n * 4096 < 2 ^ 64)
  by_cases hrun : HoldsRun s n
  · obtain ⟨c, hc, hle⟩ := (holdsRun_iff hI.free n).mp hrun
    obtain ⟨⟨s1, g⟩, hg, hgd, hfree, hm⟩ := (run_made hp hn0 (by omega) hI).halts fun hall => by
      have := hall c hc
      omega
    dsimp only at *
    obtain ⟨ps1, z1, hI1⟩ := hm.alloc
    have hadd := missing_add hm (A := ∅) (B := heapNodes h.heapPos n) Finset.Subset.rfl fun π hπ => by
      obtain ⟨i, -, h1⟩ := mem_upto.mp hπ
      exact ⟨(walkNodes_path π h1).1, (walkNodes_path π h1).2.trans (Nat.le_succ 2), fun h => h⟩
    rw [Finset.empty_union, missing_empty, Nat.zero_add] at hadd
    have habs : ∀ i, i < n → follow s1.mem (leafPath (h.heapPos + 4096 * i)) (pmlGetAddr (pml4 510)) = none :=
      fun i hi => by
        by_contra hne
        rcases (hm.nodes _ (leafPath_path _) (length_leafPath _).le).mp hne with h1 | h1
        · exact h1 (hunmapped i hi)
        · exact Finset.notMem_empty _ h1
    have hloop := reserveLoop_made hp rfl hgd (fun p hin => (hfree p hin).1) hpos hroom habs hI1
    rw [← hadd] at hloop
    have hafter : Spare pool (treeOwn (fun p => rest p + if InRun g n p then 1 else 0) s1.mem (pmlGetAddr (pml4 510)))
        (missing s.mem (pmlGetAddr (pml4 510)) (heapNodes h.heapPos n)) ↔
        Spare pool (treeOwn rest s.mem (pmlGetAddr (pml4 510)))
          (n + missing s.mem (pmlGetAddr (pml4 510)) (heapNodes h.heapPos n)) := by
      rw [hm.spare, Nat.add_comm]
    rcases hloop with ⟨s2, hs2, hm2⟩ | ⟨hE, N, hall⟩
    · have hm3 := hm.trans hm2
      have hsp := (hm3.spare 0).mp spare_zero
      rw [Nat.zero_add] at hsp
      exact Or.inl ⟨(s2, h'), hg.bind (hs2.bind (hh'.map fun h => (s2, h))), ⟨hrun, hsp⟩, _, _, hm3⟩
    · obtain ⟨N', hN'⟩ := hg
      refine Or.inr ⟨fun hc => hE (hafter.mpr hc.2), max N N', fun k hk r hr => ?_⟩
      have hgk : allocatePages k s n = some (s1, g) := hN' k ((le_max_right _ _).trans hk)
      dsimp only at hr
      rw [hgk, Option.bind_some] at hr
      obtain ⟨s2, hs2, hr⟩ := Option.bind_eq_some_iff.mp hr
      obtain ⟨h2, -, rfl⟩ := Option.map_eq_some_iff.mp hr
      exact hall k ((le_max_left _ _).trans hk) s2 hs2
  · -- no run is found
    have hnone : (ps.find? fun p => n * 4096 ≤ z p) = none := List.find?_eq_none.mpr fun c hc hle =>
      hrun ((holdsRun_iff hI.free n).mpr ⟨c, hc, of_decide_eq_true hle⟩)
    refine Or.inr ⟨fun hc => hrun hc.1, ps.length + 1, fun k hk r hr => ?_⟩
    dsimp only at hr
    rw [hfindNone hnone k hk, Option.bind_some] at hr
    exact reserveNew_failed (q := ({ s with failed := true }, 0)) rfl hr

theorem reserveContained_iff (hp : Managed pool) (hs : s.failed = false) (pml4 : Nat → Nat) (fresh : Mem)
    (hI : AllocInv pool s (treeOwn rest s.mem (pmlGetAddr (pml4 510))) ps z)
    (hr : Reservable s (pmlGetAddr (pml4 510)) h size) :
    ReserveContained pml4 fresh s h size ↔ HoldsRun s (reservedPages size) ∧
      PagesFree s
        (reservedPages size + missing s.mem (pmlGetAddr (pml4 510)) (heapNodes h.heapPos (reservedPages size))) := by
  rw [pagesFree_iff hp hI]
  refine (reserveNew_made hp fresh hI hr).ends_iff (fun r hq => ⟨hq.1, ?_, fun hf => ?_⟩) fun r hH hbad hP => ?_
  · obtain ⟨W, k, hm⟩ := hq.2
    exact (hm.contained hp hI).mono fun q hq => by omega
  · obtain ⟨W, k, hm⟩ := hq.2
    rw [hm.failed, hs] at hf
    cases hf
  · -- the heap has grown
    obtain ⟨N, hN⟩ := hH
    have h1 := reserveNew_pos (hN N le_rfl)
    rw [hP.2 hbad] at h1
    have hb := KernelHeap.heapBase_eq
    obtain ⟨hsz0, hsz⟩ := hr.bytes
    have hroom := hr.room
    unfold reservedPages at hroom
    unfold KernelHeap.reserveSize at h1
    rw [u64_of_lt hsz, u64_of_lt (by omega : (size + 4095) / 4096 * 4096 < 2 ^ 64), u64_of_lt (by omega)] at h1
    omega

end Reserve

/-! ## 6. All of them -/

section All

variable {pool : Nat → Prop} {s : Mm}

/-- **Running out of pages is contained if and only if it does not happen**: each call does what it may, and fails where
    it cannot do it, exactly where at least as many pages are free as it makes nodes: one for a new map, and one for
    each node that is copied; the tables on the way to the address, and the leaf; the same for all pages of a range; a
    run of pages for the heap, and its tables. -/
theorem out_of_memory (hp : Managed pool) (hs : s.failed = false) :
    (∀ own ps z, AllocInv pool s own ps z → (CreateContained s ↔ PagesFree s 1) ∧
      ((∀ p, uses s.mem 3 (pmlGetAddr s.pml4) p ≤ own p) →
        (ForkContained s ↔ PagesFree s (1 + (leavesOf s.mem (pmlGetAddr s.pml4)).card)))) ∧
    (∀ rest e phys virt ps z,
      AllocInv pool s (fun p => treeOwn rest s.mem (pmlGetAddr e) p + if p = phys then 1 else 0) ps z →
        (MapContained s e phys virt ↔ PagesFree s (missing s.mem (pmlGetAddr e) (walkNodes virt)))) ∧
    (∀ rest e virt ps z, AllocInv pool s (treeOwn rest s.mem (pmlGetAddr e)) ps z →
      (AnyContained s e virt ↔ PagesFree s (missing s.mem (pmlGetAddr e) (leafNodes virt)))) ∧
    (∀ rest base n ps z, AllocInv pool s (treeOwn rest s.mem (pmlGetAddr s.pml4)) ps z →
      (AllocContained s base n ↔
        base &&& 1 ≠ 0 ∨ PagesFree s (missing s.mem (pmlGetAddr s.pml4) (rangeNodes base n)))) ∧
    (∀ rest pml4 fresh h size ps z, AllocInv pool s (treeOwn rest s.mem (pmlGetAddr (pml4 510))) ps z →
      Reservable s (pmlGetAddr (pml4 510)) h size →
        (ReserveContained pml4 fresh s h size ↔ HoldsRun s (reservedPages size) ∧ PagesFree s
          (reservedPages size + missing s.mem (pmlGetAddr (pml4 510)) (heapNodes h.heapPos (reservedPages size))))) :=
  ⟨fun _ _ _ hI => ⟨createContained_iff hp hs hI, forkContained_iff hp hs hI⟩,
    fun _ e _ virt _ _ hI => mapContained_iff hp hs e virt hI,
    fun _ e virt _ _ hI => anyContained_iff hp hs e virt hI,
    fun _ base n _ _ hI => allocContained_iff hp hs base n hI,
    fun _ pml4 fresh _ _ _ _ hI hr => reserveContained_iff hp hs pml4 fresh hI hr⟩

/-- A machine with one page. -/
def lastPage : List Segment := [⟨4096, 1⟩]

theorem lastPage_over : HandedOver lastPage := oneHanded_over (by decide) (by decide) (by decide)

theorem poolOf_lastPage {p : Nat} : poolOf lastPage p ↔ p = 4096 := by
  constructor
  · intro hx
    obtain ⟨g, hg, h1, h2, h3⟩ := hx
    obtain rfl := List.mem_singleton.mp hg
    dsimp only at *
    omega
  · rintro rfl
    exact ⟨_, List.mem_singleton_self _, ⟨by decide, by decide, by decide⟩⟩

theorem out_of_memory_one : ∃ s, CreateContained s := by
  have hp := poolOf_managed lastPage_over
  obtain ⟨s, hs, hf⟩ := oneHanded_init 4096 1 (by decide)
  obtain ⟨ps, z, hI, -⟩ := pageInit_alloc lastPage_over hs
  refine ⟨s, ((out_of_memory hp hf).1 _ ps z hI).1.mpr ((pagesFree_iff hp hI).mpr ⟨{4096}, le_rfl, fun p hin => ?_⟩)⟩
  exact ⟨poolOf_lastPage.mpr (Finset.mem_singleton.mp hin), rfl⟩

/-- The page is handed out, and `CreateProcessMap` is called. -/
theorem no_page_left : ∃ s r, pageInit lastPage s ∧ Halts (fun k => allocatePages k s 1) r ∧ r.1.failed = false ∧
    ¬ CreateContained r.1 := by
  have hp := poolOf_managed lastPage_over
  obtain ⟨s, hs, hf⟩ := oneHanded_init 4096 1 (by decide)
  obtain ⟨ps, z, hI, -⟩ := pageInit_alloc lastPage_over hs
  have hspare : Spare (poolOf lastPage) (fun _ => 0) 1 :=
    ⟨{4096}, le_rfl, fun p hin => ⟨poolOf_lastPage.mpr (Finset.mem_singleton.mp hin), rfl⟩⟩
  obtain ⟨r, hr, ⟨ps', z', hI'⟩, -, hf', hpool, -⟩ := (allocatePage_spec hp hI).halts (not_not.mpr hspare)
  have hfail : r.1.failed = false := hf'.trans hf
  refine ⟨s, r, hs, hr, hfail, fun h => ?_⟩
  obtain ⟨S, hc, hS⟩ := (createContained_iff hp hfail hI').mp h
  obtain ⟨p, hpS⟩ := Finset.card_pos.mp hc
  obtain ⟨h1, h2⟩ := (freePage_iff hp hI').mp (hS p hpS)
  rw [if_pos ((poolOf_lastPage.mp h1).trans (poolOf_lastPage.mp hpool).symm)] at h2
  cases h2

end All

end MemoryManager

end SimpleOS2
