/-
  File:      SimpleOS2/Memory/PageSystem.lean
  Subject:   RUNS OF THE PAGE ALLOCATOR AND THE PROCESS MAPS.

  The system is the memory manager, the PML4 entries of the address spaces that exist, and the pages
  that other parts of the kernel hold. One step is one call, or a write into a page that is no
  table. A step whose call had an allocation fail is not part of a run.

  * `places` -- in how many places outside the free list a page stands;
  * `Conserved` -- the free list is exactly the managed pages with no place, and none has two;
  * `dropsNoFrame` -- the condition: no leaf entry that is present gets overwritten or cleared;
  * `page_conservation` -- under it every reachable state is conserved; `frame_lost` -- without it
    one `syscall_alloc` and one `UnmapProcessPage` lose a page.
-/
import Mathlib.Algebra.BigOperators.Group.List.Basic
import SimpleOS2.Memory.Conservation

namespace SimpleOS2

open Lib FreeList

namespace MemoryManager

/-! ## 1. The system -/

structure Sys where
  mm : Mm
  maps : List Nat
  kernel : List Nat

/-- The address spaces other than `e`, and the pages of the kernel. -/
def restOf (m : Mem) (maps kernel : List Nat) (p : Nat) : Nat :=
  kernel.count p + (maps.map fun e => usesVia m 3 e p).sum

/-- In how many places the page stands: as a page of the kernel, as a table page or behind a leaf
    entry of an address space. -/
def places (s : Sys) (p : Nat) : Nat := restOf s.mm.mem s.maps s.kernel p

inductive Event where
  | createMap
  | forkMap
  | freeMap (e : Nat)
  | switchMap (e : Nat)
  | allocKernel (n : Nat)
  | freeKernel (b n : Nat)
  | mapPhys (e phys virt : Nat)
  | mapAny (e virt : Nat)
  | unmap (e virt : Nat)
  | sysAlloc (base n : Nat)
  | sysFree (base n : Nat)
  | write (q : Nat) (mem : Mem)

/-- One call that returns without a failed allocation, or one write into a page that is no table. -/
inductive sysStep : Sys → Event → Sys → Prop where
  | createMap (s : Sys) (mm : Mm) (e : Nat)
      (hr : Halts (fun k => createProcessMap k s.mm) (mm, e)) (hok : mm.failed = false) :
      sysStep s .createMap ⟨mm, e :: s.maps, s.kernel⟩
  | forkMap (s : Sys) (mm : Mm) (e : Nat) (hcur : s.mm.pml4 ∈ s.maps)
      (hr : Halts (fun k => forkProcessMap k s.mm) (mm, e)) (hok : mm.failed = false) :
      sysStep s .forkMap ⟨mm, e :: s.maps, s.kernel⟩
  | freeMap (s : Sys) (e : Nat) (mm : Mm) (he : e ∈ s.maps)
      (hr : Halts (fun k => freeProcessMap k s.mm e) mm) :
      sysStep s (.freeMap e) ⟨mm, s.maps.erase e, s.kernel⟩
  | switchMap (s : Sys) (e : Nat) (he : e ∈ s.maps) :
      sysStep s (.switchMap e) ⟨{ s.mm with pml4 := e }, s.maps, s.kernel⟩
  | allocKernel (s : Sys) (n : Nat) (mm : Mm) (b : Nat) (h0 : 0 < n) (hn : n * 4096 < 2 ^ 64)
      (hr : Halts (fun k => allocatePages k s.mm n) (mm, b)) (hok : mm.failed = false) :
      sysStep s (.allocKernel n) ⟨mm, s.maps, (List.range n).map (fun i => b + i * 4096) ++ s.kernel⟩
  | freeKernel (s : Sys) (b n : Nat) (mm : Mm) (h0 : 0 < n) (hb : 4096 ∣ b)
      (hin : ∀ p, InRun b n p → p ∈ s.kernel)
      (hr : Halts (fun k => freePages k s.mm b n) mm) :
      sysStep s (.freeKernel b n) ⟨mm, s.maps, s.kernel.filter fun p => ¬ InRun b n p⟩
  | mapPhys (s : Sys) (e phys virt : Nat) (mm : Mm) (he : e ∈ s.maps) (hphys : phys ∈ s.kernel)
      (hr : Halts (fun k => mapProcessPage k s.mm e phys virt) mm) (hok : mm.failed = false) :
      sysStep s (.mapPhys e phys virt) ⟨mm, s.maps, s.kernel.erase phys⟩
  | mapAny (s : Sys) (e virt : Nat) (mm : Mm) (ptr : Nat) (he : e ∈ s.maps)
      (hr : Halts (fun k => mapAnyPage k s.mm e virt) (mm, ptr)) (hok : mm.failed = false) :
      sysStep s (.mapAny e virt) ⟨mm, s.maps, s.kernel⟩
  | unmap (s : Sys) (e virt : Nat) (he : e ∈ s.maps) :
      sysStep s (.unmap e virt) ⟨unmapProcessPage s.mm e virt, s.maps, s.kernel⟩
  | sysAlloc (s : Sys) (base n : Nat) (mm : Mm) (o : Outcome) (hcur : s.mm.pml4 ∈ s.maps)
      (hr : Halts (fun k => syscallAlloc k s.mm base n) (mm, o)) (hok : mm.failed = false) :
      sysStep s (.sysAlloc base n) ⟨mm, s.maps, s.kernel⟩
  | sysFree (s : Sys) (base n : Nat) (mm : Mm) (o : Outcome) (hcur : s.mm.pml4 ∈ s.maps)
      (hr : syscallFree s.mm base n = some (mm, o)) :
      sysStep s (.sysFree base n) ⟨mm, s.maps, s.kernel⟩
  | write (s : Sys) (q : Nat) (m : Mem) (hown : 0 < places s q)
      (hdata : ∀ e ∈ s.maps, tablesVia s.mm.mem 3 e q = 0)
      (hw : ∀ a, ¬ InPage q a → m a = s.mm.mem a) :
      sysStep s (.write q m) ⟨{ s.mm with mem := m }, s.maps, s.kernel⟩

/-- The start: no address space, no page handed out, the managed pages in the free list. -/
def sysInit (pool : Nat → Prop) (s : Sys) : Prop :=
  s.maps = [] ∧ s.kernel = [] ∧ s.mm.failed = false ∧
    ∃ ps z, Free s.mm.mem s.mm.freeList ps z ∧ Geo 4096 ps z ∧
      ∀ a, Cover ps z a ↔ ∃ p, pool p ∧ InPage p a

/-- **Every managed page is in one place**: in the free list, or in one of `places`. -/
def Conserved (pool : Nat → Prop) (s : Sys) : Prop := ∃ ps z, AllocInv pool s.mm (places s) ps z

/-- The leaf entry of the address is there. -/
def Mapped (m : Mem) (e virt : Nat) : Prop :=
  ∃ f, follow m (leafPath virt) (pmlGetAddr e) = some f

/-- No present leaf entry is overwritten by `MapProcessPage` or cleared by `UnmapProcessPage`, and
    `UnmapProcessPage` finds the tables it takes as present. -/
def dropsNoFrame (s : Sys) : Event → Prop
  | .mapPhys e _ virt => ¬ Mapped s.mm.mem e virt
  | .unmap e virt => Unmapped s.mm.mem (pmlGetAddr e) virt
  | .sysFree base n => FreesOnlyUnmapped s.mm.mem (pmlGetAddr s.mm.pml4) base n
  | _ => True

/-! ## 2. One step -/

/-- Conserved, and the entries of the address spaces are present ones. -/
structure SysInv (pool : Nat → Prop) (s : Sys) : Prop where
  conserved : Conserved pool s
  present : ∀ e ∈ s.maps, pmlGetP e = true

section Inv

variable {pool : Nat → Prop} {s : Sys}

/-- One map, and the rest. -/
theorem restOf_erase {m : Mem} {maps : List Nat} {e : Nat} (kernel : List Nat) (he : e ∈ maps)
    (hP : pmlGetP e = true) (p : Nat) :
    restOf m maps kernel p = treeOwn (restOf m (maps.erase e) kernel) m (pmlGetAddr e) p := by
  have h1 := List.sum_map_erase (fun e => usesVia m 3 e p) he
  have h2 : usesVia m 3 e p = uses m 3 (pmlGetAddr e) p := by
    unfold usesVia
    rw [if_pos hP]
  unfold treeOwn restOf
  omega

/-- Address spaces all of whose pages are kept are the same. -/
theorem restOf_keeps {m m' : Mem} {maps : List Nat} (kernel kernel' : List Nat)
    (hk : Keeps (restOf m maps kernel) m m') (p : Nat) :
    restOf m' maps kernel' p = kernel'.count p + (maps.map fun e => usesVia m 3 e p).sum := by
  have hsame : maps.map (fun e => usesVia m' 3 e p) = maps.map fun e => usesVia m 3 e p := by
    refine List.map_congr_left fun e he => ?_
    unfold usesVia
    split_ifs with hP
    · refine (hk.uses fun q => ?_).1 p
      rw [restOf_erase kernel he hP]
      exact uses_le_treeOwn _ _ _ _
    · rfl
  unfold restOf
  rw [hsame]

/-- **A step inside one map** keeps the system in order. -/
theorem sysInv_grown (hS : SysInv pool s) {e : Nat} (he : e ∈ s.maps) {mm : Mm} {kernel : List Nat}
    (hg : Grown pool (restOf s.mm.mem (s.maps.erase e) kernel) (pmlGetAddr e) s.mm mm) :
    SysInv pool ⟨mm, s.maps, kernel⟩ := by
  obtain ⟨ps, z, hI⟩ := hg.alloc
  refine ⟨⟨ps, z, hI.congr fun p => ?_⟩, hS.present⟩
  have h1 := restOf_keeps kernel kernel hg.keeps p
  show restOf mm.mem s.maps kernel p = _
  rw [restOf_erase kernel he (hS.present e he)]
  unfold treeOwn
  rw [h1]
  rfl

/-- The state of one map, before a step inside it. -/
theorem SysInv.tree (hS : SysInv pool s) {e : Nat} (he : e ∈ s.maps) :
    ∃ ps z, AllocInv pool s.mm
      (treeOwn (restOf s.mm.mem (s.maps.erase e) s.kernel) s.mm.mem (pmlGetAddr e)) ps z := by
  obtain ⟨ps, z, hI⟩ := hS.conserved
  exact ⟨ps, z, hI.congr fun p => (restOf_erase s.kernel he (hS.present e he) p).symm⟩

/-- **A new map** keeps the system in order. -/
theorem sysInv_newMap (hS : SysInv pool s) {mm : Mm} {e : Nat} (hP : pmlGetP e = true)
    (hg : Grown pool (places s) (pmlGetAddr e) s.mm mm) : SysInv pool ⟨mm, e :: s.maps, s.kernel⟩ := by
  obtain ⟨ps, z, hI⟩ := hg.alloc
  refine ⟨⟨ps, z, hI.congr fun p => ?_⟩, fun x hx => ?_⟩
  · have h1 := restOf_keeps s.kernel s.kernel hg.keeps p
    have h2 := restOf_erase (m := mm.mem) s.kernel (List.mem_cons_self (a := e) (l := s.maps)) hP p
    rw [List.erase_cons_head] at h2
    show restOf mm.mem (e :: s.maps) s.kernel p = _
    rw [h2]
    unfold treeOwn
    rw [h1]
    rfl
  · rcases List.mem_cons.mp hx with rfl | hx
    · exact hP
    · exact hS.present x hx

/-- **Freeing a map** returns, and gives its pages back. -/
theorem freeMap_spec (hp : Managed pool) (hS : SysInv pool s) {e : Nat} (he : e ∈ s.maps) :
    ∃ mm, Halts (fun k => freeProcessMap k s.mm e) mm ∧
      SysInv pool ⟨mm, s.maps.erase e, s.kernel⟩ ∧ Keeps (restOf s.mm.mem (s.maps.erase e) s.kernel)
        s.mm.mem mm.mem := by
  obtain ⟨ps, z, hI⟩ := hS.tree he
  obtain ⟨mm, hr, ⟨ps', z', hI'⟩, -, -, hk⟩ := freeTable_spec hp hI fun p => rfl
  refine ⟨mm, hr, ⟨⟨ps', z', hI'.congr fun p => ?_⟩,
    fun x hx => hS.present x (List.mem_of_mem_erase hx)⟩, hk⟩
  exact restOf_keeps s.kernel s.kernel hk p

/-- The pages of a run, as a list. -/
theorem count_run {b n p : Nat} (hb : 4096 ∣ b) :
    ((List.range n).map fun i => b + i * 4096).count p = if InRun b n p then 1 else 0 := by
  have hnd : ((List.range n).map fun i => b + i * 4096).Nodup :=
    List.nodup_range.map fun i j (h : b + i * 4096 = b + j * 4096) => by omega
  rw [hnd.count]
  have hiff : p ∈ (List.range n).map (fun i => b + i * 4096) ↔ InRun b n p := by
    rw [List.mem_map]
    constructor
    · intro hx
      obtain ⟨i, hi, rfl⟩ := hx
      have := List.mem_range.mp hi
      unfold InRun
      omega
    · intro hx
      obtain ⟨h1, h2, h3⟩ := hx
      exact ⟨(p - b) / 4096, List.mem_range.mpr (by omega), by omega⟩
  simp only [hiff]

theorem sysInv_init (h : sysInit pool s) : SysInv pool s := by
  obtain ⟨h1, h2, -, ps, z, hF, hG, hc⟩ := h
  have h0 : ∀ p, places s p = 0 := fun p => by simp [places, restOf, h1, h2]
  refine ⟨⟨ps, z, hF, hG, fun a => ?_, fun p => ?_, fun p hpos => ?_⟩, by simp [h1]⟩
  · rw [hc a]
    simp [h0]
  · rw [h0 p]
    omega
  · rw [h0 p] at hpos
    omega

/-- **Every step that drops no frame keeps the system in order.** -/
theorem sysInv_step (hp : Managed pool) {s' : Sys} {ev : Event} (hS : SysInv pool s)
    (hs : Guarded sysStep dropsNoFrame s ev s') : SysInv pool s' := by
  obtain ⟨hs, hok⟩ := hs
  have hfail : ∀ {mm : Mm}, mm.failed = false → ¬ mm.failed = true := fun h => by simp [h]
  cases hs with
  | createMap mm e hr hf =>
      obtain ⟨ps, z, hI⟩ := hS.conserved
      obtain ⟨hP, hg, -⟩ := (createProcessMap_spec hp hI).result hr (hfail hf)
      exact sysInv_newMap hS hP hg
  | forkMap mm e hcur hr hf =>
      obtain ⟨ps, z, hI⟩ := hS.conserved
      obtain ⟨hP, hg⟩ := (forkProcessMap_spec hp hI).result hr (hfail hf)
      exact sysInv_newMap hS hP hg
  | freeMap e mm he hr =>
      obtain ⟨mm', hr', hS', -⟩ := freeMap_spec hp hS he
      rw [hr.unique hr']
      exact hS'
  | switchMap e he =>
      obtain ⟨ps, z, hI⟩ := hS.conserved
      exact ⟨⟨ps, z, hI.free, hI.geo, hI.cover, hI.once, hI.managed⟩, hS.present⟩
  | allocKernel n mm b h0 hn hr hf =>
      obtain ⟨ps, z, hI⟩ := hS.conserved
      obtain ⟨⟨ps', z', hI'⟩, -, -, hb, -, hk⟩ := (allocatePages_spec hp hI h0 hn).result hr (hfail hf)
      refine ⟨⟨ps', z', hI'.congr fun p => ?_⟩, hS.present⟩
      have h1 := restOf_keeps s.kernel ((List.range n).map (fun i => b + i * 4096) ++ s.kernel) hk p
      show restOf mm.mem s.maps _ p = _
      rw [h1, List.count_append, count_run hb]
      unfold places restOf
      omega
  | freeKernel b n mm h0 hb hin hr =>
      obtain ⟨ps, z, hI⟩ := hS.conserved
      have hone : ∀ p, s.kernel.count p ≤ 1 := fun p => by
        have := hI.once p
        unfold places restOf at this
        omega
      have hown : ∀ p, places s p = restOf s.mm.mem s.maps (s.kernel.filter fun p => ¬ InRun b n p) p +
          if InRun b n p then 1 else 0 := fun p => by
        unfold places restOf
        by_cases hr : InRun b n p
        · have h1 : (s.kernel.filter fun p => ¬ InRun b n p).count p = 0 :=
            List.count_eq_zero_of_not_mem fun h => by simp [hr] at h
          have h2 := hone p
          have h3 := List.count_pos_iff.mpr (hin p hr)
          rw [if_pos hr]
          omega
        · rw [List.count_filter (by simp [hr]), if_neg hr]
          omega
      obtain ⟨mm', hr', ⟨ps', z', hI'⟩, -, -, hk⟩ := freePages_spec hp hI h0 hb hown
      rw [hr.unique hr']
      exact ⟨⟨ps', z', hI'.congr fun p => restOf_keeps _ _ hk p⟩, hS.present⟩
  | mapPhys e phys virt mm he hphys hr hf =>
      obtain ⟨ps, z, hI⟩ := hS.tree he
      have hI2 : AllocInv pool s.mm (fun p => treeOwn (restOf s.mm.mem (s.maps.erase e)
          (s.kernel.erase phys)) s.mm.mem (pmlGetAddr e) p + if p = phys then 1 else 0) ps z := by
        refine hI.congr fun p => ?_
        have h1 := List.count_erase (a := p) (b := phys) (l := s.kernel)
        unfold treeOwn restOf
        by_cases hpp : p = phys
        · subst hpp
          have h2 := List.count_pos_iff.mpr hphys
          simp only [beq_self_eq_true, if_true] at h1 ⊢
          omega
        · have hne : (phys == p) = false := by simpa using fun h => hpp h.symm
          simp only [hne, Bool.false_eq_true, if_false, hpp] at h1 ⊢
          omega
      have habs : follow s.mm.mem (leafPath virt) (pmlGetAddr e) = none := by
        by_contra hne
        exact hok (Option.ne_none_iff_exists'.mp hne)
      obtain ⟨hg, -⟩ := (mapProcessPage_spec hp virt rfl habs hI2).result hr (hfail hf)
      exact sysInv_grown hS he hg
  | mapAny e virt mm ptr he hr hf =>
      obtain ⟨ps, z, hI⟩ := hS.tree he
      obtain ⟨hg, -⟩ := (mapAnyPage_spec hp virt rfl hI).result hr (hfail hf)
      exact sysInv_grown hS he hg
  | unmap e virt he =>
      obtain ⟨ps, z, hI⟩ := hS.tree he
      exact sysInv_grown hS he (unmapProcessPage_spec hp rfl hok hI).1
  | sysAlloc base n mm o hcur hr hf =>
      obtain ⟨ps, z, hI⟩ := hS.tree hcur
      obtain ⟨hg, -⟩ := (syscallAlloc_spec hp base n rfl hI).result hr (hfail hf)
      exact sysInv_grown hS hcur hg
  | sysFree base n mm o hcur hr =>
      obtain ⟨ps, z, hI⟩ := hS.tree hcur
      obtain ⟨r, hr', hg⟩ := syscallFree_spec hp base n rfl hok hI
      obtain rfl : (mm, o) = r := Option.some.inj (hr.symm.trans hr')
      exact sysInv_grown hS hcur hg
  | write q m hown hdata hw =>
      obtain ⟨ps, z, hI⟩ := hS.conserved
      refine ⟨⟨ps, z, ?_⟩, hS.present⟩
      have hI' : AllocInv pool { s.mm with mem := m } (places s) ps z := hI.write hp hown rfl hw
      refine hI'.congr fun p => ?_
      have hqd := (hp q (hI.managed q hown)).1
      -- no tree has the page among its tables, so no tree changes
      have hsame : s.maps.map (fun e => usesVia m 3 e p) =
          s.maps.map fun e => usesVia s.mm.mem 3 e p := by
        refine List.map_congr_left fun e he => ?_
        unfold usesVia
        split_ifs with hP
        · refine (uses_congr fun t ht => ?_).1 p
          have htq : t ≠ q := by
            rintro rfl
            have := hdata e he
            unfold tablesVia at this
            rw [if_pos hP] at this
            omega
          have htd := uses_aligned (pmlGetAddr_facts e).1 (lt_of_lt_of_le ht (tables_le_uses 3 _ t))
          exact fun a h1 h2 => hw a fun ha => htq (InPage.inj htd hqd ⟨h1, h2⟩ ha)
        · rfl
      show s.kernel.count p + _ = s.kernel.count p + _
      rw [hsame]

theorem sysInv_reach (hp : Managed pool) (h : Reach (Guarded sysStep dropsNoFrame) (sysInit pool) s) :
    SysInv pool s :=
  Reach.inv (I := fun s => SysInv pool s) (fun _ h0 => sysInv_init h0)
    (fun _ _ _ hS hs => sysInv_step hp hS hs) h

/-! ## 3. Whole runs -/

/-- The byte at `a` belongs to a free segment. -/
def FreeAt (s : Sys) (a : Nat) : Prop :=
  ∃ ps z, Free s.mm.mem s.mm.freeList ps z ∧ Cover ps z a

/-- The list in memory determines the segments. -/
theorem freeAt_iff {ps : List Nat} {z : Nat → Nat} (hF : Free s.mm.mem s.mm.freeList ps z) (a : Nat) :
    FreeAt s a ↔ Cover ps z a := by
  refine ⟨?_, fun h => ⟨ps, z, hF, h⟩⟩
  intro hx
  obtain ⟨ps', z', hF', p, hp', h1, h2⟩ := hx
  obtain rfl := hF'.rep.unique hF.rep
  refine ⟨p, hp', h1, ?_⟩
  rw [← hF.size p hp', hF'.size p hp']
  exact h2

theorem Conserved.freeAt (hC : Conserved pool s) (a : Nat) :
    FreeAt s a ↔ ∃ p, pool p ∧ places s p = 0 ∧ InPage p a := by
  obtain ⟨ps, z, hI⟩ := hC
  rw [freeAt_iff hI.free, hI.cover]

/-- The same places, the same free set. -/
theorem Conserved.sameFree {s' : Sys} (hC : Conserved pool s) (hC' : Conserved pool s')
    (h : ∀ p, places s' p = places s p) (a : Nat) : FreeAt s' a ↔ FreeAt s a := by
  rw [hC.freeAt, hC'.freeAt]
  simp only [h]

/-- A loop whose state is an exit does nothing. -/
theorem forLoop_exit {σ : Type} {body : Nat → σ → Option σ} {s : σ} (h : ∀ i, body i s = some s)
    (count start : Nat) : forLoop body count start s = some s := by
  induction count generalizing start with
  | zero => rfl
  | succ count ih =>
      unfold forLoop
      rw [h start, Option.bind_some, ih]

/-- A syscall that visits no page leaves the memory manager as it was. -/
theorem syscall_idle (mm : Mm) {base n : Nat}
    (h : base &&& 1 ≠ 0 ∨ n = 0 ∨ isUserPtr (pageAt base 0) = false) :
    (∀ k, ∃ o, syscallAlloc k mm base n = some (mm, o)) ∧
      ∃ o, syscallFree mm base n = some (mm, o) := by
  by_cases hb : base &&& 1 ≠ 0
  · refine ⟨fun k => ?_, ?_⟩
    · unfold syscallAlloc
      rw [if_pos hb]
      exact ⟨_, rfl⟩
    · unfold syscallFree
      rw [if_pos hb]
      exact ⟨_, rfl⟩
  · cases n with
    | zero =>
        refine ⟨fun k => ⟨.ret 0, ?_⟩, .ret 0, ?_⟩
        · unfold syscallAlloc
          rw [if_neg hb]
          rfl
        · unfold syscallFree
          rw [if_neg hb]
          rfl
    | succ n =>
        have hu : isUserPtr (u64 (base + 0 * 4096)) = false := by
          rcases h with h | h | h
          · exact absurd h hb
          · exact absurd h (Nat.succ_ne_zero n)
          · exact h
        refine ⟨fun k => ⟨.exit, ?_⟩, .exit, ?_⟩
        · unfold syscallAlloc forLoop
          rw [if_neg hb]
          simp only [hu, Bool.false_eq_true, if_false, Option.bind_some]
          refine forLoop_exit (fun i => ?_) n _
          rfl
        · unfold syscallFree forLoop
          rw [if_neg hb]
          simp only [hu, Bool.false_eq_true, if_false, Option.bind_some]
          refine forLoop_exit (fun i => ?_) n _
          rfl

/-- What holds in every state between two calls. -/
structure PagesSound (pool : Nat → Prop) (s : Sys) : Prop where
  /-- Every managed page is in exactly one place. -/
  conserved : Conserved pool s
  /-- `FreeProcessMap` of an address space returns. -/
  frees : ∀ e ∈ s.maps, ∃ mm, Halts (fun k => freeProcessMap k s.mm e) mm
  /-- Creating and freeing an address space gives back what it took. -/
  createFree : ∀ s1 s2 e, sysStep s .createMap s1 → s1.maps = e :: s.maps →
    sysStep s1 (.freeMap e) s2 → ∀ a, FreeAt s2 a ↔ FreeAt s a
  /-- So do `syscall_alloc` and `syscall_free` of the same pages. -/
  allocFree : ∀ base n s1 s2, Guarded sysStep dropsNoFrame s (.sysAlloc base n) s1 →
    Guarded sysStep dropsNoFrame s1 (.sysFree base n) s2 → ∀ a, FreeAt s2 a ↔ FreeAt s a

theorem createFree_same (hp : Managed pool) (hS : SysInv pool s) {s1 s2 : Sys} {e : Nat}
    (h1 : sysStep s .createMap s1) (he : s1.maps = e :: s.maps) (h2 : sysStep s1 (.freeMap e) s2)
    (a : Nat) : FreeAt s2 a ↔ FreeAt s a := by
  have hS1 := sysInv_step hp hS ⟨h1, trivial⟩
  have hS2 := sysInv_step hp hS1 ⟨h2, trivial⟩
  refine hS.conserved.sameFree hS2.conserved (fun p => ?_) a
  cases h1 with
  | createMap mm e' hr hf =>
      obtain rfl : e' = e := (List.cons.inj he).1
      cases h2 with
      | freeMap _ mm2 he2 hr2 =>
          obtain ⟨ps, z, hI⟩ := hS.conserved
          obtain ⟨-, hg, -⟩ := (createProcessMap_spec hp hI).result hr (by simp [hf])
          obtain ⟨mm3, hr3, -, hk⟩ := freeMap_spec hp hS1 he2
          rw [hr2.unique hr3]
          simp only [List.erase_cons_head] at hk ⊢
          have hk1 := restOf_keeps s.kernel s.kernel hg.keeps
          calc places ⟨mm3, s.maps, s.kernel⟩ p
              = restOf mm.mem s.maps s.kernel p := restOf_keeps s.kernel s.kernel hk p
            _ = places s p := hk1 p

theorem allocFree_same (hp : Managed pool) (hS : SysInv pool s) {s1 s2 : Sys} {base n : Nat}
    (h1 : sysStep s (.sysAlloc base n) s1) (h2 : Guarded sysStep dropsNoFrame s1 (.sysFree base n) s2)
    (a : Nat) : FreeAt s2 a ↔ FreeAt s a := by
  obtain ⟨h2, hok⟩ := h2
  cases h1 with
  | sysAlloc _ _ mm o hcur hr hf =>
      cases h2 with
      | sysFree _ _ mm2 o2 hcur2 hr2 =>
          by_cases hidle : base &&& 1 ≠ 0 ∨ n = 0 ∨ isUserPtr (pageAt base 0) = false
          · -- no page is visited
            obtain ⟨o3, ho3⟩ := (syscall_idle s.mm hidle).1 hr.choose
            have h3 := hr.choose_spec _ le_rfl
            obtain ⟨rfl, -⟩ := Prod.mk.inj (Option.some.inj (h3.symm.trans ho3))
            obtain ⟨o4, ho4⟩ := (syscall_idle s.mm hidle).2
            obtain ⟨rfl, -⟩ := Prod.mk.inj (Option.some.inj (hr2.symm.trans ho4))
            rfl
          · -- the first page is mapped now, and must not be
            rw [not_or, not_or, not_not] at hidle
            obtain ⟨hb, hn, hu⟩ := hidle
            obtain ⟨ps, z, hI⟩ := hS.tree hcur
            have hu : isUserPtr (pageAt base 0) = true := by simpa using hu
            obtain ⟨hg, hmap⟩ := (syscallAlloc_spec hp base n rfl hI).result hr (by simp [hf])
            obtain ⟨f, hf⟩ := hmap hb (Nat.pos_of_ne_zero hn) hu
            have habs := (hok hb 0 (Nat.pos_of_ne_zero hn) fun j hj => by
              rw [Nat.le_zero.mp hj]
              exact hu).2
            dsimp only at habs
            rw [hg.pml4, hf] at habs
            exact absurd habs (by simp)

end Inv

/-- **No page is lost or shared** in any run in which no present leaf entry is overwritten or
    cleared. -/
theorem page_conservation {pool : Nat → Prop} {s : Sys} (hp : Managed pool)
    (h : Reach (Guarded sysStep dropsNoFrame) (sysInit pool) s) : PagesSound pool s := by
  have hS := sysInv_reach hp h
  refine ⟨hS.conserved, fun e he => ?_, fun s1 s2 e h1 he h2 => createFree_same hp hS h1 he h2,
    fun base n s1 s2 h1 h2 => allocFree_same hp hS h1.1 h2⟩
  obtain ⟨mm, hr, -⟩ := freeMap_spec hp hS he
  exact ⟨mm, hr⟩

/-! ## 4. A run of a small machine -/

/-- A machine with the eight pages behind the first one. -/
def smallPool (p : Nat) : Prop := 4096 ∣ p ∧ 4096 ≤ p ∧ p < 9 * 4096

/-- Its pages are one free segment. -/
def smallStart : Sys :=
  ⟨⟨fun a => if a = physToKernelPtr 4096 + 16 then physToKernelPtr 4096
      else if a = physToKernelPtr 4096 + 24 then 8 * 4096 else 0,
    ⟨physToKernelPtr 4096, physToKernelPtr 4096⟩, 0, false⟩, [], []⟩

theorem smallPool_managed : Managed smallPool := fun p hp => ⟨hp.1, by have := hp.2.2; omega⟩

theorem smallStart_init : sysInit smallPool smallStart := by
  have hh := highMemBase_eq
  have hc : physToKernelPtr 4096 = 4096 + highMemBase := rfl
  unfold smallStart
  generalize physToKernelPtr 4096 = c at hc
  refine ⟨rfl, rfl, rfl, [c], fun _ => 8 * 4096, ⟨⟨⟨?_, ?_, trivial⟩, rfl, rfl, ?_, ?_⟩, ?_, ?_⟩,
    ⟨?_, ?_, ?_, ?_⟩, fun a => ?_⟩
  · show (if c + 8 = c + 16 then c else if c + 8 = c + 24 then 8 * 4096 else 0) = 0
    rw [if_neg (by omega), if_neg (by omega)]
  · show (if c = c + 16 then c else if c = c + 24 then 8 * 4096 else 0) = 0
    rw [if_neg (by omega), if_neg (by omega)]
  · intro p hp
    rw [List.mem_singleton.mp hp]
    show c ≠ 0
    omega
  · exact List.pairwise_singleton _ _
  · intro p hp
    rw [List.mem_singleton.mp hp]
    exact if_pos rfl
  · intro p hp
    rw [List.mem_singleton.mp hp]
    show (if c + 24 = c + 16 then c else if c + 24 = c + 24 then 8 * 4096 else 0) = 8 * 4096
    rw [if_neg (by omega), if_pos rfl]
  · intro p hp
    rw [List.mem_singleton.mp hp]
    omega
  · intro p hp
    rw [List.mem_singleton.mp hp]
    omega
  · intro p hp
    rw [List.mem_singleton.mp hp]
    omega
  · intro p hp q hq hne
    exact absurd ((List.mem_singleton.mp hp).trans (List.mem_singleton.mp hq).symm) hne
  · constructor
    · intro hx
      obtain ⟨p, hp, h1, h2⟩ := hx
      rw [List.mem_singleton.mp hp] at h1 h2
      dsimp only at h2
      refine ⟨4096 + (a - c) / 4096 * 4096, ⟨by omega, by omega, by omega⟩, ?_⟩
      unfold InPage physToKernelPtr
      omega
    · intro hx
      obtain ⟨p, ⟨h1, h2, h3⟩, h4, h5⟩ := hx
      refine ⟨c, List.mem_singleton.mpr rfl, ?_⟩
      dsimp only
      unfold physToKernelPtr at h4 h5
      omega

theorem smallPool_spare : Spare smallPool (places smallStart) 4 := by
  refine ⟨(Finset.range 8).image fun k => 4096 * (k + 1), ?_, fun p hp => ?_⟩
  · rw [Finset.card_image_of_injective _ fun i j (h : 4096 * (i + 1) = 4096 * (j + 1)) => by omega,
      Finset.card_range]
    omega
  · obtain ⟨k, hk, rfl⟩ := Finset.mem_image.mp hp
    have := Finset.mem_range.mp hk
    exact ⟨⟨by omega, by omega, by omega⟩, rfl⟩

/-- A map is created and one page is mapped at address 0: the state `q` in which the new frame `f`
    hangs nowhere yet, and the state in which it is entered in the table `c`. -/
theorem smallRun : ∃ (s : Sys) (q : Mm) (e c f : Nat),
    Reach (Guarded sysStep dropsNoFrame) (sysInit smallPool) s ∧
      s = ⟨setEntry q c (getPml1Index 0) (pmlEntry f), [e], []⟩ ∧ pmlGetP e = true ∧ q.pml4 = e ∧
      smallPool f ∧ follow q.mem (walkPath 0) (pmlGetAddr e) = some c ∧
      follow q.mem (leafPath 0) (pmlGetAddr e) = none ∧
      ∃ ps z, AllocInv smallPool q
        (fun p => treeOwn (fun _ => 0) q.mem (pmlGetAddr e) p + if p = f then 1 else 0) ps z := by
  have hp := smallPool_managed
  have hstart : Reach (Guarded sysStep dropsNoFrame) (sysInit smallPool) smallStart :=
    .start _ smallStart_init
  obtain ⟨ps0, z0, hI0⟩ := (sysInv_init smallStart_init).conserved
  have hzero : ∀ p, places smallStart p = 0 := fun p => rfl
  obtain ⟨⟨mm1, e⟩, hr1, hP, hg1, hempty, hu1⟩ := (createProcessMap_spec hp hI0).halts
    (not_not.mpr (smallPool_spare.mono (by omega)))
  dsimp only at *
  have hf1 : mm1.failed = false := hg1.failed
  have hreach1 := Reach.next _ _ _ hstart ⟨sysStep.createMap smallStart mm1 e hr1 hf1, trivial⟩
  have hreach2 := Reach.next _ _ _ hreach1
    ⟨sysStep.switchMap _ e List.mem_cons_self, trivial⟩
  -- the walk makes two tables, a fourth page is the frame
  have hown1 : ∀ p, treeOwn (fun _ => 0) mm1.mem (pmlGetAddr e) p ≤
      places smallStart p + if p = pmlGetAddr e then 1 else 0 := fun p => by
    unfold treeOwn
    rw [hu1 p, hzero p]
  have hsp1 : Spare smallPool (treeOwn (fun _ => 0) mm1.mem (pmlGetAddr e)) 3 :=
    smallPool_spare.less hown1
  obtain ⟨ps1, z1, hI1⟩ := hg1.alloc
  have hI1' : AllocInv smallPool { mm1 with pml4 := e }
      (treeOwn (fun _ => 0) mm1.mem (pmlGetAddr e)) ps1 z1 :=
    ⟨hI1.free, hI1.geo, hI1.cover, hI1.once, hI1.managed⟩
  obtain ⟨⟨mm2, c⟩, hr2, hg2, hlead, hleaves, hsp2⟩ := (walkTables_spec hp (e := e) 0 rfl hI1').halts
    (not_not.mpr (hsp1.mono (by omega)))
  dsimp only at *
  obtain ⟨ps2, z2, hI2⟩ := hg2.alloc
  obtain ⟨⟨q, f⟩, hr3, ⟨ps3, z3, hI3⟩, hpml3, hf3, hpool, hk3⟩ := (freshPage_spec hp hI2).halts
    (not_not.mpr (hsp2 1 hsp1))
  dsimp only at *
  have habs2 : follow mm2.mem (leafPath 0) (pmlGetAddr e) = none := by
    rw [hleaves _ (leafPath_path 0) rfl]
    by_contra hne
    rcases hempty _ hne with h | ⟨i, hi, hge⟩
    · exact absurd h (by simp [leafPath])
    · have := leafPath_path 0 i hi
      omega
  have hsame := (hk3.uses (uses_le_treeOwn _ mm2.mem (pmlGetAddr e))).2
  have hlead3 := (hsame _ (walkPath_path 0) (by simp [walkPath])).trans hlead
  have habs3 := (hsame _ (leafPath_path 0) le_rfl).trans habs2
  have hent : pmlGetP (entry mm2.mem c (getPml1Index 0)) = false := by
    by_contra hne
    rw [leaf_entry hlead, if_pos (by simpa using hne)] at habs2
    exact absurd habs2 (by simp)
  have hmap : Halts (fun k => mapAnyPage k { mm1 with pml4 := e } e 0)
      (setEntry q c (getPml1Index 0) (pmlEntry f), physToKernelPtr f) := by
    refine hr2.bind ?_
    simp only [hent, Bool.false_eq_true, if_false]
    exact hr3.map fun r : Mm × Nat =>
      (setEntry r.1 c (getPml1Index 0) (pmlEntry r.2), physToKernelPtr r.2)
  have hcall : Halts (fun k => syscallAlloc k { mm1 with pml4 := e } 0 1)
      (setEntry q c (getPml1Index 0) (pmlEntry f), .ret 0) := by
    obtain ⟨N, hN⟩ := hmap
    refine ⟨N, fun k hk => ?_⟩
    have h1 : mapAnyPage k { mm1 with pml4 := e } e 0 = some _ := hN k hk
    have hu : isUserPtr 0 = true := by decide
    have h0 : u64 (0 + 0 * 4096) = 0 := by decide
    show syscallAlloc k { mm1 with pml4 := e } 0 1 = _
    unfold syscallAlloc
    rw [if_neg (by decide)]
    simp only [forLoop, hu, if_true, h0, h1, Option.map_some, Option.bind_some]
  obtain ⟨-, -, hf4⟩ := setEntry_fields q c (getPml1Index 0) (pmlEntry f)
  have hfail : (setEntry q c (getPml1Index 0) (pmlEntry f)).failed = false :=
    hf4.trans (hf3.trans (hg2.failed.trans hf1))
  have hreach3 := Reach.next _ _ _ hreach2
    ⟨sysStep.sysAlloc _ 0 1 _ _ List.mem_cons_self hcall hfail, trivial⟩
  exact ⟨_, q, e, c, f, hreach3, rfl, hP, hpml3.trans hg2.pml4, hpool, hlead3, habs3, ps3, z3, hI3⟩

/-- A run with an address space and a mapped page. -/
theorem page_conservation_mapped : ∃ s e, Managed smallPool ∧
    Reach (Guarded sysStep dropsNoFrame) (sysInit smallPool) s ∧ s.maps = [e] ∧
      PagesSound smallPool s := by
  obtain ⟨s, q, e, c, f, hreach, hs, -⟩ := smallRun
  exact ⟨s, e, smallPool_managed, hreach, by rw [hs], page_conservation smallPool_managed hreach⟩

/-- **A page is lost**: `syscall_alloc` of one page, then `syscall_free` of the same page. The frame
    is in no table, in no list and with no owner. -/
theorem frame_lost : ¬ ∀ (pool : Nat → Prop) (s : Sys), Managed pool →
    Reach sysStep (sysInit pool) s → Conserved pool s := by
  intro hall
  have hp := smallPool_managed
  obtain ⟨s, q, e, c, f, hreach, hs, hP, hpml, hpool, hlead, habs, ps, z, hI⟩ := smallRun
  -- clearing the entry again gives the state before the frame was hung in
  have habsP : pmlGetP (entry q.mem c (getPml1Index 0)) = false := by
    by_contra hne
    rw [leaf_entry hlead, if_pos (by simpa using hne)] at habs
    exact absurd habs (by simp)
  obtain ⟨hPf, hAf⟩ := pmlEntry_pool hp hpool
  obtain ⟨-, -, hfol, -⟩ := link_spec hp (n := 0) (i := getPml1Index 0) (v := pmlEntry f)
    (by simp [walkPath]) (walkPath_path 0) (getPmlIndex_lt 0 0) hlead habsP
    (fun p => by unfold usesVia; rw [if_pos hPf, hAf]; rfl) hI
  have hI' : AllocInv smallPool q (fun p => treeOwn (fun p => if p = f then 1 else 0) q.mem
      (pmlGetAddr e) p + 0) ps z := hI.congr fun p => by
    unfold treeOwn
    dsimp only
    omega
  have hv : ∀ p, usesVia q.mem 0 0 p = (fun _ : Nat => 0) p := fun p => rfl
  obtain ⟨hg, -⟩ := link_spec hp (i := getPml1Index 0) (by simp [walkPath]) (walkPath_path 0)
    (getPmlIndex_lt 0 0) hlead habsP hv hI'
  obtain ⟨-, hpml2, -⟩ := setEntry_fields q c (getPml1Index 0) (pmlEntry f)
  have hwalk : follow (setEntry q c (getPml1Index 0) (pmlEntry f)).mem (walkPath 0) (pmlGetAddr e) =
      some c := by
    rw [hfol _ (walkPath_path 0) (by simp [walkPath]) fun h => by
      have := h.length_le
      simp at this]
    exact hlead
  have hc2 := (follow_step (follow_step hwalk).2).2
  have hunmap : unmapProcessPage (setEntry q c (getPml1Index 0) (pmlEntry f)) e 0 =
      setEntry q c (getPml1Index 0) 0 := by
    have h1 : pmlGetAddr (entry (setEntry q c (getPml1Index 0) (pmlEntry f)).mem
        (pmlGetAddr (entry (setEntry q c (getPml1Index 0) (pmlEntry f)).mem (pmlGetAddr e)
          (getPml3Index 0))) (getPml2Index 0)) = c := Option.some.inj hc2
    unfold unmapProcessPage
    dsimp only
    rw [h1]
    unfold setEntry
    dsimp only
    rw [Function.update_idem]
  have hcall : syscallFree s.mm 0 1 = some (setEntry q c (getPml1Index 0) 0, .ret 0) := by
    have hu : isUserPtr 0 = true := by decide
    have h0 : u64 (0 + 0 * 4096) = 0 := by decide
    rw [hs]
    unfold syscallFree
    rw [if_neg (by decide)]
    simp only [forLoop, hu, if_true, h0, hpml2, hpml, hunmap, Option.bind_some]
  have hcur : s.mm.pml4 ∈ s.maps := by
    rw [hs]
    dsimp only
    rw [hpml2, hpml]
    exact List.mem_singleton.mpr rfl
  have hreach2 := Reach.next _ _ _ (hreach.mono (fun _ h => h) fun _ _ _ h => h.1)
    (sysStep.sysFree s 0 1 _ _ hcur hcall)
  have hC := hall smallPool _ hp hreach2
  -- the frame has no place, and is not free either
  obtain ⟨ps2, z2, hI2⟩ := hg.alloc
  have hone := hI2.once f
  have hmaps : s.maps = [e] ∧ s.kernel = [] := by rw [hs]; exact ⟨rfl, rfl⟩
  have hplaces : places ⟨setEntry q c (getPml1Index 0) 0, s.maps, s.kernel⟩ f = 0 := by
    unfold places
    rw [hmaps.1, hmaps.2, restOf_erase [] List.mem_cons_self hP]
    unfold treeOwn at hone ⊢
    simp only [if_true] at hone
    simp only [restOf, List.erase_cons_head, List.map_nil, List.sum_nil, List.count_nil]
    omega
  have hfree := (hC.freeAt (physToKernelPtr f)).mpr ⟨f, hpool, hplaces, le_rfl, by omega⟩
  rw [freeAt_iff (s := ⟨setEntry q c (getPml1Index 0) 0, s.maps, s.kernel⟩) hI2.free] at hfree
  refine hI2.not_cover hp (q := f) ?_ ⟨le_rfl, by omega⟩ hfree
  unfold treeOwn
  simp only [if_true]
  omega

end MemoryManager

end SimpleOS2
