/-
  File:      SimpleOS2/Exec/LoadedImage.lean
  Subject:   WHAT STANDS IN THE NEW ADDRESS SPACE (`CheckAndPrepare` of exec/elf/ELF.cpp on the page tables of
             memory/MemoryManager.cpp).

  The segments are copied byte by byte through the page that was mapped last, and the stack pages are mapped afterwards
  at fixed addresses. The page that was mapped last starts as page 0, with `nullptr` for its pointer.

  * `kernel` -- the machine of Exec/ELF.lean on the kernel's page tables; `byteAt` -- the byte at a user address;
  * `AllocInv.write_aside`, `byteAt_made` -- writes next to the tables, and what mapping a page leaves alone;
  * `Loading` -- in the middle of the load: the bytes that stand where they belong, and where pages are mapped;
    `putByte_loading` -- the turn of both loops;
  * `copySegment_loading`, `copySegment_low`, `segments_loading`, `prepareStack_loading`, `checkAndPrepare_loading` --
    the whole load;
  * `Loaded`, `elf_faithful` -- the image stands in memory if no segment touches the first page or the stack;
    `segments_lost`.
-/
import SimpleOS2.Exec.ELF
import SimpleOS2.Memory.OutOfMemory
import SimpleOS2.Memory.UserRanges

namespace SimpleOS2

open Lib FreeList

namespace ELF

open MemoryManager

/-! ## 1. The kernel's machine -/

/-- A byte of the kernel's memory is written. -/
def storeAt (s : Mm) (p : Nat) (offs : Int) (v : Nat) : Mm :=
  { s with mem := Function.update s.mem (p + offs).toNat v }

/-- The loader on the page tables of `pml4Entry`. -/
def kernel (buffer : List UInt8) (fuel pml4Entry : Nat) : Machine Mm Nat where
  load s offs := (s, (buffer.getD offs 0).toNat)
  mapPage s virt := mapAnyPage fuel s pml4Entry virt
  allocatePages s numPages := allocatePages fuel s numPages
  mapFrame s phys virt := mapProcessPage fuel s pml4Entry phys virt
  physToKernelPtr := MemoryManager.physToKernelPtr
  nullptr := 0
  store := storeAt

/-- The byte at a user address. -/
def byteAt (m : Mem) (root virt : Nat) : Option Nat :=
  (translate m root virt).map fun f => m (MemoryManager.physToKernelPtr f + virt % 4096)

/-! ## 2. Writes next to the tables -/

section Aside

variable {pool : Nat → Prop} {root : Nat} {rest rest' : Nat → Nat} {W : Finset (List Nat)} {k : Nat} {s s' : Mm}
  {ps : List Nat} {z : Nat → Nat} {m : Mem} {virt v b f : Nat}

/-- A page that is read as a table has a path to it. -/
theorem follow_of_tables {n t p : Nat} (h : 0 < tables m n t p) :
    ∃ π, Path π ∧ π.length < n ∧ follow m π t = some p := by
  induction n generalizing t with
  | zero => exact absurd h (Nat.lt_irrefl 0)
  | succ n ih =>
      rw [tables_succ] at h
      by_cases hpt : p = t
      · exact ⟨[], fun j hj => absurd hj List.not_mem_nil, Nat.succ_pos n, congrArg some hpt.symm⟩
      · rw [if_neg hpt, Nat.zero_add] at h
        obtain ⟨i, hi, hpos⟩ := Finset.exists_ne_zero_of_sum_ne_zero (Nat.ne_of_gt h)
        have hi := Finset.mem_range.mp hi
        unfold tablesVia at hpos
        split_ifs at hpos with hP
        · obtain ⟨π, hπ, hl, hf⟩ := ih (Nat.pos_of_ne_zero hpos)
          refine ⟨i :: π, fun j hj => ?_, Nat.succ_lt_succ hl, ?_⟩
          · rcases List.mem_cons.mp hj with rfl | hj
            · exact hi
            · exact hπ j hj
          · rw [follow, if_pos hP]
            exact hf
        · exact absurd rfl hpos

/-- **A write that leaves the free list and the tables alone.** -/
theorem AllocInv.write_aside {m' : Mem} (hI : AllocInv pool s (treeOwn rest s.mem root) ps z)
    (hlist : ∀ a, Cover ps z a → m' a = s.mem a) (htab : ∀ t, IsTable s.mem root t → SamePage s.mem m' t) :
    AllocInv pool { s with mem := m' } (treeOwn rest m' root) ps z := by
  have huses := (uses_congr (n := 3) (t := root) fun t ht => htab t (follow_of_tables ht)).1
  have hI' : AllocInv pool { s with mem := m' } (treeOwn rest s.mem root) ps z := by
    refine ⟨free_congr hI.free fun p hpp d hd => hlist _ ⟨p, hpp, ?_, ?_⟩, hI.geo, hI.cover, hI.once, hI.managed⟩
    · omega
    · have := hI.geo.unit_le hpp
      omega
  refine hI'.congr fun p => ?_
  unfold treeOwn
  rw [huses p]

/-- The frame of a page has an owner, and no other page has it. -/
theorem frame_owned (hI : AllocInv pool s (treeOwn rest s.mem root) ps z) (hf : translate s.mem root virt = some f) :
    0 < treeOwn rest s.mem root f ∧ pool f := by
  have h := uses_of_follow (leafPath_path virt) (length_leafPath virt).le hf
  have h1 : 0 < treeOwn rest s.mem root f := Nat.lt_of_lt_of_le h (uses_le_treeOwn rest s.mem root f)
  exact ⟨h1, hI.managed f h1⟩

theorem frame_once (hI : AllocInv pool s (treeOwn rest s.mem root) ps z) (hv : virt < 2 ^ 39) (hv' : v < 2 ^ 39)
    (hf : translate s.mem root virt = some f) (hf' : translate s.mem root v = some f) : virt / 4096 = v / 4096 := by
  refine leafPath_inj hv hv' (follow_once (leafPath_path virt) (leafPath_path v) (length_leafPath virt).le
    (length_leafPath v).le ?_ hf hf')
  exact (uses_le_treeOwn rest s.mem root f).trans (hI.once f)

/-- **A store through the pointer to a frame**: the tables and the free list stay. -/
theorem AllocInv.store_frame (hp : Managed pool) (hI : AllocInv pool s (treeOwn rest s.mem root) ps z)
    (hf : translate s.mem root virt = some f) {a : Nat} (ha : InPage f a) {m' : Mem}
    (hm : m' = Function.update s.mem a b) :
    AllocInv pool { s with mem := m' } (treeOwn rest m' root) ps z ∧
      ∀ v, translate m' root v = translate s.mem root v := by
  obtain ⟨hown, hpool⟩ := frame_owned hI hf
  have hout : ∀ c, ¬ InPage f c → m' c = s.mem c := fun c hin => by
    rw [hm]
    refine Function.update_of_ne ?_ _ _
    rintro rfl
    exact hin ha
  have htab : ∀ t, IsTable s.mem root t → SamePage s.mem m' t := fun t ht c h1 h2 => by
    obtain ⟨π, hπ, hl, hft⟩ := ht
    have htd := follow_aligned (wellFormed_owned hp hI).aligned hft
    refine hout c fun hin => ?_
    obtain rfl := InPage.inj htd (hp f hpool).1 ⟨h1, h2⟩ hin
    exact frame_not_table (wellFormed_owned hp hI) hf ⟨π, hπ, hl, hft⟩
  exact ⟨AllocInv.write_aside hI (fun c hc => hout c fun hin => hI.not_cover hp hown hin hc) htab,
    fun v => follow_same htab (leafPath_path v) (length_leafPath v).le⟩

/-- **A store below the window of physical memory**, through `nullptr`. -/
theorem AllocInv.store_low (hI : AllocInv pool s (treeOwn rest s.mem root) ps z) {a : Nat} (ha : a < 4096) {m' : Mem}
    (hm : m' = Function.update s.mem a b) :
    AllocInv pool { s with mem := m' } (treeOwn rest m' root) ps z ∧
      (∀ v, translate m' root v = translate s.mem root v) ∧ ∀ c, 4096 ≤ c → m' c = s.mem c := by
  have hh := highMemBase_eq
  have hout : ∀ c, 4096 ≤ c → m' c = s.mem c := fun c hc => by
    rw [hm]
    exact Function.update_of_ne (by omega) _ _
  have hwin : ∀ q c, InPage q c → 4096 ≤ c := fun q c hin => by
    unfold InPage MemoryManager.physToKernelPtr at hin
    omega
  have htab : ∀ t, IsTable s.mem root t → SamePage s.mem m' t := fun t _ c h1 h2 => hout c (hwin t c ⟨h1, h2⟩)
  refine ⟨AllocInv.write_aside hI (fun c hc => ?_) htab,
    fun v => follow_same htab (leafPath_path v) (length_leafPath v).le, hout⟩
  obtain ⟨q, -, -, hin⟩ := (hI.cover c).mp hc
  exact hout c (hwin q c hin)

/-- **A page that is mapped** leaves the bytes alone that are there. -/
theorem byteAt_made (hp : Managed pool) (hI : AllocInv pool s (treeOwn rest s.mem root) ps z)
    (h : Made pool root rest rest' W k s s') (hb : byteAt s.mem root virt = some b) :
    byteAt s'.mem root virt = some b := by
  obtain ⟨f, hf, rfl⟩ := Option.map_eq_some_iff.mp hb
  obtain ⟨hown, hpool⟩ := frame_owned hI hf
  unfold byteAt
  rw [show translate s'.mem root virt = some f from h.kept _ f (leafPath_path virt) (length_leafPath virt).le hf,
    Option.map_some]
  refine congrArg some ?_
  by_contra hne
  obtain ⟨q, hin, hq⟩ := h.writes _ hne
  have hinf : InPage f (MemoryManager.physToKernelPtr f + virt % 4096) := ⟨by omega, by omega⟩
  rcases hq with hq | hq
  · obtain rfl := InPage.inj (hp q hq.1).1 (hp f hpool).1 hin hinf
    have := hq.2
    omega
  · obtain ⟨π, hπ, hl, hfq⟩ := hq
    have hqd := follow_aligned (hp root (hI.managed root (Nat.lt_of_lt_of_le (uses_root s.mem 2 root)
      (uses_le_treeOwn rest s.mem root root)))).1 hfq
    obtain rfl := InPage.inj hqd (hp f hpool).1 hin hinf
    exact frame_not_table (wellFormed_owned hp hI) hf ⟨π, hπ, hl, hfq⟩

end Aside

/-! ## 3. In the middle of the load -/

/-- The bytes `C` stand where they belong, and pages are mapped behind the stack only. -/
structure Loading (pool : Nat → Prop) (rest : Nat → Nat) (root : Nat) (C : Nat → Nat → Prop) (s : Mm) : Prop where
  alloc : ∃ ps z, AllocInv pool s (treeOwn rest s.mem root) ps z
  ok : s.failed = false
  bytes : ∀ v b, C v b → v < 2 ^ 39 ∧ byteAt s.mem root v = some b
  high : ∀ v, v < 2 ^ 39 → translate s.mem root v ≠ none → 17 ≤ v / 4096

/-- Where the cursor stands. -/
def Held (m : Mem) (root : Nat) (c : Cursor Nat) : Prop :=
  c.lastPage = 0 ∨ ∃ f, translate m root c.lastPage = some f ∧ c.lastPageBuffer = MemoryManager.physToKernelPtr f

section Loading

variable {pool : Nat → Prop} {rest : Nat → Nat} {root e : Nat} {C : Nat → Nat → Prop} {s : Mm} {buffer : List UInt8}

/-- **One byte**, in a page that is mapped. -/
theorem Loading.store (hp : Managed pool) (h : Loading pool rest root C s) {addr f b : Nat} (ha : addr < 2 ^ 39)
    (hf : translate s.mem root addr = some f) (hnew : ∀ x, ¬ C addr x) {m' : Mem}
    (hm : m' = Function.update s.mem (MemoryManager.physToKernelPtr f + addr % 4096) b) :
    Loading pool rest root (fun v x => C v x ∨ (v = addr ∧ x = b)) { s with mem := m' } ∧
      ∀ v, translate m' root v = translate s.mem root v := by
  obtain ⟨ps, z, hI⟩ := h.alloc
  have hfd := (hp f (frame_owned hI hf).2).1
  obtain ⟨hI', hsame⟩ := AllocInv.store_frame hp hI hf ⟨by omega, by omega⟩ hm
  refine ⟨⟨⟨ps, z, hI'⟩, h.ok, fun v x hx => ?_, fun v hv hne => h.high v hv (hsame v ▸ hne)⟩, hsame⟩
  unfold byteAt
  show v < 2 ^ 39 ∧ (translate m' root v).map (fun f => m' (MemoryManager.physToKernelPtr f + v % 4096)) = some x
  rw [hsame v]
  rcases hx with hx | ⟨rfl, rfl⟩
  · obtain ⟨hv, hb⟩ := h.bytes v x hx
    refine ⟨hv, ?_⟩
    obtain ⟨f', hf', hb⟩ := Option.map_eq_some_iff.mp hb
    rw [hf', Option.map_some, hm, Function.update_of_ne, hb]
    -- another address is another byte of the page, or a byte of another page
    intro heq
    have hf'd := (hp f' (frame_owned hI hf').2).1
    have hff : f' = f ∧ v % 4096 = addr % 4096 := by
      unfold MemoryManager.physToKernelPtr at heq
      omega
    obtain ⟨rfl, hmod⟩ := hff
    have hpage := frame_once hI hv ha hf' hf
    obtain rfl : v = addr := by omega
    exact hnew x hx
  · rw [hf, Option.map_some, hm, Function.update_self]
    exact ⟨ha, rfl⟩

/-- A write below the window of physical memory. -/
theorem Loading.store_low (h : Loading pool rest root C s) {a b : Nat} (ha : a < 4096) {m' : Mem}
    (hm : m' = Function.update s.mem a b) : Loading pool rest root C { s with mem := m' } := by
  obtain ⟨ps, z, hI⟩ := h.alloc
  have hh := highMemBase_eq
  obtain ⟨hI', hsame, hout⟩ := AllocInv.store_low hI ha hm
  refine ⟨⟨ps, z, hI'⟩, h.ok, fun v x hx => ?_, fun v hv hne => h.high v hv (hsame v ▸ hne)⟩
  obtain ⟨hv, hb⟩ := h.bytes v x hx
  obtain ⟨f, hf, rfl⟩ := Option.map_eq_some_iff.mp hb
  refine ⟨hv, ?_⟩
  unfold byteAt
  show (translate m' root v).map (fun f => m' (MemoryManager.physToKernelPtr f + v % 4096)) = _
  rw [hsame v, hf, Option.map_some, hout]
  unfold MemoryManager.physToKernelPtr
  omega

/-- A page that is mapped, behind the stack. -/
theorem Loading.made (hp : Managed pool) (h : Loading pool rest root C s) {virt k : Nat} {s' : Mm}
    (hm : Made pool root rest rest (leafNodes virt) k s s') (hv : virt < 2 ^ 39) (h17 : 17 ≤ virt / 4096) :
    Loading pool rest root C s' := by
  obtain ⟨ps, z, hI⟩ := h.alloc
  refine ⟨hm.alloc, hm.failed.trans h.ok, fun v b hb => ?_, fun v hv' hne => ?_⟩
  · obtain ⟨h1, h2⟩ := h.bytes v b hb
    exact ⟨h1, byteAt_made hp hI hm h2⟩
  · rcases (hm.nodes _ (leafPath_path v) (length_leafPath v).le).mp hne with h1 | h1
    · exact h.high v hv' h1
    · rcases Finset.mem_union.mp h1 with h2 | h2
      · have h3 := (walkNodes_path _ h2).2
        rw [length_leafPath] at h3
        exact absurd h3 (by decide)
      · rw [leafPath_inj hv' hv (Finset.mem_singleton.mp h2)]
        exact h17

/-- **The turn of both loops**: the page, and the byte. -/
theorem putByte_loading (hp : Managed pool) (he : pmlGetAddr e = root) (h : Loading pool rest root C s)
    {c : Cursor Nat} (hc : Held s.mem root c) {addr b : Nat} (h17 : 17 * 4096 ≤ addr) (ha : addr < 2 ^ 39)
    (hnew : ∀ x, ¬ C addr x) :
    Settles True (fun k => (enterPage (kernel buffer k e) addr (s, c)).map fun c =>
        (storeAt c.1 c.2.lastPageBuffer (addr % 4096 : Nat) b, c.2))
      (fun r => r.1.failed = true)
      fun r => Loading pool rest root (fun v x => C v x ∨ (v = addr ∧ x = b)) r.1 ∧ Held r.1.mem root r.2 := by
  have hpage : ∀ m, translate m root (addr - addr % 4096) = translate m root addr := fun m => by
    unfold MemoryManager.translate
    rw [leafPath_page (by omega : (addr - addr % 4096) / 4096 = addr / 4096)]
  refine Settles.map (Q := fun r : Mm × Cursor Nat => Loading pool rest root C r.1 ∧
    r.2.lastPage = addr - addr % 4096 ∧ ∃ f, translate r.1.mem root addr = some f ∧
      r.2.lastPageBuffer = MemoryManager.physToKernelPtr f) (B := fun r => r.1.failed = true) ?_ ?_ ?_
  · unfold enterPage
    dsimp only
    by_cases hne : addr - addr % 4096 ≠ c.lastPage
    · simp only [if_pos hne]
      obtain ⟨ps, z, hI⟩ := h.alloc
      refine ((mapAnyPage_made hp (addr - addr % 4096) he hI).mono (fun _ => trivial) fun r hr => hr).map ?_
        fun r hr => by simpa using hr
      intro r hr
      obtain ⟨s1, p⟩ := r
      obtain ⟨hm, f, hf, hptr⟩ := hr
      exact ⟨h.made hp hm (by omega) (by omega), rfl, f, (hpage s1.mem).symm.trans hf, hptr⟩
    · simp only [if_neg hne]
      have hlast : c.lastPage = addr - addr % 4096 := (not_not.mp hne).symm
      rcases hc with hz | ⟨f, hf, hptr⟩
      · omega
      · rw [hlast, hpage] at hf
        exact Or.inl ⟨_, Halts.const _, h, hlast, f, hf, hptr⟩
  · intro r hr
    obtain ⟨s1, c1⟩ := r
    obtain ⟨h1, hlast, f, hf, hptr⟩ := hr
    dsimp only at *
    have haddr : ((c1.lastPageBuffer : Int) + ((addr % 4096 : Nat) : Int)).toNat =
        MemoryManager.physToKernelPtr f + addr % 4096 := by
      rw [hptr]
      omega
    obtain ⟨h2, hsame⟩ := h1.store hp ha hf hnew (congrArg (fun a => Function.update s1.mem a b) haddr)
    refine ⟨h2, Or.inr ⟨f, ?_, hptr⟩⟩
    rw [hlast]
    exact ((hsame _).trans (hpage s1.mem)).trans hf
  · exact fun r hr => hr

/-! ## 4. Segments -/

/-- The byte `i` of a segment. -/
def expected (buffer : List UInt8) (g : ElfSegmentHeader) (i : Nat) : Nat :=
  if i < g.dataSize then (buffer.getD (g.dataOffset + i) 0).toNat else 0

/-- The first `n` bytes of a segment. -/
def Part (buffer : List UInt8) (g : ElfSegmentHeader) (n v b : Nat) : Prop :=
  ∃ i, i < n ∧ v = g.virtualAddress + i ∧ b = expected buffer g i

theorem Loading.congr {C' : Nat → Nat → Prop} (h : Loading pool rest root C s) (hC : ∀ v b, C' v b → C v b) :
    Loading pool rest root C' s := ⟨h.alloc, h.ok, fun v b hb => h.bytes v b (hC v b hb), h.high⟩

theorem enterPage_failed {k addr : Nat} {c c' : Mm × Cursor Nat} (h : c.1.failed = true)
    (hr : enterPage (kernel buffer k e) addr c = some c') : c'.1.failed = true := by
  unfold enterPage at hr
  dsimp only at hr
  split_ifs at hr
  · obtain ⟨q, hq, rfl⟩ := Option.map_eq_some_iff.mp hr
    exact mapAnyPage_failed h hq
  · obtain rfl := Option.some.inj hr
    exact h

theorem copyByte_failed {g : ElfSegmentHeader} {k i : Nat} {c c' : Mm × Cursor Nat} (h : c.1.failed = true)
    (hr : copyByte (kernel buffer k e) g i c = some c') : c'.1.failed = true := by
  obtain ⟨q, hq, rfl⟩ := Option.map_eq_some_iff.mp hr
  have h1 := enterPage_failed h hq
  exact h1

theorem zeroByte_failed {g : ElfSegmentHeader} {k i : Nat} {c c' : Mm × Cursor Nat} (h : c.1.failed = true)
    (hr : zeroByte (kernel buffer k e) g i c = some c') : c'.1.failed = true := by
  obtain ⟨q, hq, rfl⟩ := Option.map_eq_some_iff.mp hr
  have h1 := enterPage_failed h hq
  exact h1

theorem copySegment_failed {g : ElfSegmentHeader} {k : Nat} {s s' : Mm} (h : s.failed = true)
    (hr : copySegment (kernel buffer k e) g s = some s') : s'.failed = true := by
  obtain ⟨c, hc, rfl⟩ := Option.map_eq_some_iff.mp hr
  obtain ⟨c1, h1, h2⟩ := Option.bind_eq_some_iff.mp hc
  have hf := forLoop_keeps (B := fun c : Mm × Cursor Nat => c.1.failed = true)
    (fun _ _ _ hx hy => copyByte_failed hx hy) (s := (s, ⟨0, 0⟩)) h h1
  exact forLoop_keeps (B := fun c : Mm × Cursor Nat => c.1.failed = true)
    (fun _ _ _ hx hy => zeroByte_failed hx hy) hf h2

/-- **Both loops**, by what one turn does. -/
theorem copySegment_settles {g : ElfSegmentHeader} {J : Nat → Mm × Cursor Nat → Prop} (h0 : J 0 (s, ⟨0, 0⟩))
    (hcopy : ∀ i c, i < g.dataSize → J i c → Settles True (fun k => copyByte (kernel buffer k e) g i c)
      (fun r => r.1.failed = true) (J (i + 1)))
    (hzero : ∀ i c, g.dataSize ≤ i → i < g.bytes → J i c → Settles True (fun k => zeroByte (kernel buffer k e) g i c)
      (fun r => r.1.failed = true) (J (i + 1))) :
    Settles True (fun k => copySegment (kernel buffer k e) g s) (fun r => r.failed = true)
      fun r => ∃ c, J g.bytes (r, c) := by
  have hcount : g.dataSize + (g.virtualSize - g.dataSize) = g.bytes := by
    unfold ElfSegmentHeader.bytes
    omega
  refine Settles.map (B := fun r : Mm × Cursor Nat => r.1.failed = true) (Q := J g.bytes) ?_ (fun a ha => ⟨a.2, ha⟩)
    fun a ha => ha
  refine Settles.bind (Settles.forLoop (B := fun r : Mm × Cursor Nat => r.1.failed = true) hcopy
    (fun k i c r hc hr => copyByte_failed hc hr) g.dataSize 0 _ (Nat.zero_add _) h0) (fun c hc => ?_)
    fun c k r hc hr => forLoop_keeps (B := fun c : Mm × Cursor Nat => c.1.failed = true)
      (fun _ _ _ hx hy => zeroByte_failed hx hy) hc hr
  refine (Settles.forLoop (J := fun i c => g.dataSize ≤ i ∧ J i c) (fun i c hi hJ => ?_)
    (fun k i c r hc hr => zeroByte_failed hc hr) _ g.dataSize c hcount ⟨le_rfl, hc⟩).mono id fun r hr => hr.2
  exact (hzero i c hJ.1 hi hJ.2).mono id fun r hr => ⟨Nat.le_succ_of_le hJ.1, hr⟩

/-- **A segment behind the stack**, at addresses that nothing has been loaded to. -/
theorem copySegment_loading (hp : Managed pool) (he : pmlGetAddr e = root) (h : Loading pool rest root C s)
    {g : ElfSegmentHeader} (hdata : ∀ i, i < g.dataSize → g.dataOffset + i < 2 ^ 64)
    (h17 : ∀ i, i < g.bytes → 17 * 4096 ≤ g.virtualAddress + i ∧ g.virtualAddress + i < 2 ^ 39)
    (hnew : ∀ i, i < g.bytes → ∀ x, ¬ C (g.virtualAddress + i) x) :
    Settles True (fun k => copySegment (kernel buffer k e) g s) (fun r => r.failed = true)
      (Loading pool rest root fun v b => C v b ∨ Part buffer g g.bytes v b) := by
  -- the turn `i` of either loop writes the byte `i`
  have hturn : ∀ i c, i < g.bytes →
      (Loading pool rest root (fun v b => C v b ∨ Part buffer g i v b) c.1 ∧ Held c.1.mem root c.2) →
      Settles True (fun k => (enterPage (kernel buffer k e) (u64 (g.virtualAddress + i)) c).map fun c =>
          (storeAt c.1 c.2.lastPageBuffer (u64 (g.virtualAddress + i) % 4096 : Nat) (expected buffer g i), c.2))
        (fun r => r.1.failed = true)
        fun r => Loading pool rest root (fun v b => C v b ∨ Part buffer g (i + 1) v b) r.1 ∧ Held r.1.mem root r.2 := by
    intro i c hi hJ
    obtain ⟨s1, c1⟩ := c
    obtain ⟨hL, hc⟩ := hJ
    obtain ⟨hlow, hhigh⟩ := h17 i hi
    rw [u64_of_lt (hhigh.trans (by decide))]
    refine (putByte_loading hp he hL hc hlow hhigh fun x hx => ?_).mono id
      fun r hr => ⟨hr.1.congr fun v b hb => ?_, hr.2⟩
    · rcases hx with hx | ⟨j, hj, heq, -⟩
      · exact hnew i hi x hx
      · omega
    · rcases hb with hb | ⟨j, hj, hv, hb⟩
      · exact Or.inl (Or.inl hb)
      · rcases Nat.lt_succ_iff_lt_or_eq.mp hj with hj | rfl
        · exact Or.inl (Or.inr ⟨j, hj, hv, hb⟩)
        · exact Or.inr ⟨hv, hb⟩
  refine (copySegment_settles (J := fun i c => Loading pool rest root (fun v b => C v b ∨ Part buffer g i v b) c.1 ∧
    Held c.1.mem root c.2) ⟨h.congr fun v b hb => hb.resolve_right fun ⟨i, hi, _⟩ => Nat.not_lt_zero i hi, Or.inl rfl⟩
    (fun i c hi hJ => ?_) fun i c hge hi hJ => ?_).mono id fun r hr => ?_
  · have hbyte : expected buffer g i = (buffer.getD (u64 (g.dataOffset + i)) 0).toNat := by
      unfold expected
      rw [if_pos hi, u64_of_lt (hdata i hi)]
    have h1 := hturn i c (hi.trans_le (le_max_left _ _)) hJ
    rw [hbyte] at h1
    exact h1
  · have hbyte : expected buffer g i = 0 := by
      unfold expected
      rw [if_neg (Nat.not_lt.mpr hge)]
    have h1 := hturn i c hi hJ
    rw [hbyte] at h1
    exact h1
  · obtain ⟨c, hc, -⟩ := hr
    exact hc

/-- **A segment in the first page** is written through `nullptr`, and changes nothing in the new map. -/
theorem copySegment_low (h : Loading pool rest root C s) {g : ElfSegmentHeader}
    (hlow : ∀ i, i < g.bytes → g.virtualAddress + i < 4096) :
    Settles True (fun k => copySegment (kernel buffer k e) g s) (fun r => r.failed = true)
      (Loading pool rest root C) := by
  have hturn : ∀ k i b (c : Mm × Cursor Nat), i < g.bytes → c.2 = ⟨0, 0⟩ →
      (enterPage (kernel buffer k e) (u64 (g.virtualAddress + i)) c).map (fun c =>
          (storeAt c.1 c.2.lastPageBuffer (u64 (g.virtualAddress + i) % 4096 : Nat) b, c.2)) =
        some ({ c.1 with mem := Function.update c.1.mem (g.virtualAddress + i) b }, ⟨0, 0⟩) := by
    intro k i b c hi hc
    obtain ⟨s1, c1⟩ := c
    obtain rfl : c1 = ⟨0, 0⟩ := hc
    have h4 := hlow i hi
    have hpage : g.virtualAddress + i - (g.virtualAddress + i) % 4096 = 0 := by omega
    rw [u64_of_lt (h4.trans (by decide))]
    unfold enterPage
    dsimp only
    rw [hpage, if_neg (not_not.mpr rfl), Option.map_some, Nat.mod_eq_of_lt h4]
    have haddr : (((0 : Nat) : Int) + ((g.virtualAddress + i : Nat) : Int)).toNat = g.virtualAddress + i := by omega
    unfold storeAt
    dsimp only
    rw [haddr]
  refine (copySegment_settles (J := fun _ c => Loading pool rest root C c.1 ∧ c.2 = ⟨0, 0⟩) ⟨h, rfl⟩
    (fun i c hi hJ => ?_) fun i c hge hi hJ => ?_).mono id fun r hr => ?_
  · have hi := hi.trans_le (le_max_left g.dataSize g.virtualSize)
    refine Or.inl ⟨_, ⟨0, fun k _ => hturn k i _ c hi hJ.2⟩, hJ.1.store_low (hlow i hi) rfl, rfl⟩
  · exact Or.inl ⟨_, ⟨0, fun k _ => hturn k i _ c hi hJ.2⟩, hJ.1.store_low (hlow i hi) rfl, rfl⟩
  · obtain ⟨c, hc, -⟩ := hr
    exact hc

/-! ## 5. The whole load -/

/-- The entry `k` of the table is loaded. -/
def IsLoaded (buffer : List UInt8) (k : Nat) : Prop :=
  (segmentAt buffer k).type = PT_LOAD ∨ (segmentAt buffer k).type = PT_TLS

/-- The bytes of the first `n` entries, but those of the first page. -/
def Placed (buffer : List UInt8) (n v b : Nat) : Prop :=
  ∃ k, k < n ∧ IsLoaded buffer k ∧ 17 * 4096 ≤ (segmentAt buffer k).virtualAddress ∧
    Part buffer (segmentAt buffer k) (segmentAt buffer k).bytes v b

/-- No two segments overlap. -/
def Separate (buffer : List UInt8) : Prop :=
  ∀ j k, j < k → k < phEntryCount buffer → IsLoaded buffer j → IsLoaded buffer k →
    ∀ i, i < (segmentAt buffer j).bytes → ∀ l, l < (segmentAt buffer k).bytes →
      (segmentAt buffer j).virtualAddress + i ≠ (segmentAt buffer k).virtualAddress + l

/-- No segment touches the stack pages. -/
def Clear (buffer : List UInt8) : Prop :=
  ∀ g, IsSegment buffer g → ∀ i, i < g.bytes → g.virtualAddress + i < 4096 ∨ 17 * 4096 ≤ g.virtualAddress + i

theorem readBytes_kernel (k n offs : Nat) (s : Mm) (h : offs + n ≤ 2 ^ 64) :
    readBytes (kernel buffer k e) n offs s = (s, field buffer n offs) := by
  induction n generalizing offs with
  | zero => rfl
  | succ n ih =>
      unfold readBytes field
      have hu : u64 offs = offs := u64_of_lt (by omega)
      rw [hu]
      dsimp only
      have h1 : ((kernel buffer k e).load s offs).1 = s := rfl
      rw [h1, ih (offs + 1) (by omega)]
      rfl

/-- The comparison reads the buffer only. -/
theorem magicFrom_kernel (buffer : List UInt8) (e : Nat) (bs : List Nat) (offs : Nat) :
    ∃ b, ∀ k (s : Mm), magicFrom (kernel buffer k e) bs offs s = (s, b) := by
  induction bs generalizing offs with
  | nil => exact ⟨true, fun k s => rfl⟩
  | cons c bs ih =>
      obtain ⟨b, hb⟩ := ih (offs + 1)
      by_cases hne : (buffer.getD offs 0).toNat ≠ c
      · exact ⟨false, fun k s => if_pos hne⟩
      · exact ⟨b, fun k s => (if_neg hne).trans (hb k s)⟩

theorem prepareSegment_kernel {k n : Nat} {r : Mm × ELFProgramInfo} (hlen : buffer.length < 2 ^ 64)
    (hn : phOffset buffer + sizeofSegment * (n + 1) ≤ buffer.length) :
    prepareSegment (kernel buffer k e) (phOffset buffer) n r =
      if (segmentAt buffer n).type = PT_LOAD ∨ (segmentAt buffer n).type = PT_TLS then
        (copySegment (kernel buffer k e) (segmentAt buffer n) r.1).map fun s => (s, r.2.noteTLS (segmentAt buffer n))
      else some r := by
  unfold sizeofSegment at hn
  unfold prepareSegment readSegment sizeofSegment
  dsimp only
  rw [readBytes_kernel k 4 _ r.1 (by omega)]
  dsimp only
  rw [readBytes_kernel k 8 (phOffset buffer + 56 * n + 8) r.1 (by omega)]
  dsimp only
  rw [readBytes_kernel k 8 (phOffset buffer + 56 * n + 16) r.1 (by omega)]
  dsimp only
  rw [readBytes_kernel k 8 (phOffset buffer + 56 * n + 32) r.1 (by omega)]
  dsimp only
  rw [readBytes_kernel k 8 (phOffset buffer + 56 * n + 40) r.1 (by omega)]
  rfl

theorem readBytes_state (k n offs : Nat) (s : Mm) : (readBytes (kernel buffer k e) n offs s).1 = s := by
  induction n generalizing offs with
  | zero => rfl
  | succ n ih => exact ih (offs + 1)

theorem prepareSegment_failed {k o n : Nat} {r r' : Mm × ELFProgramInfo} (h : r.1.failed = true)
    (hr : prepareSegment (kernel buffer k e) o n r = some r') : r'.1.failed = true := by
  unfold prepareSegment readSegment at hr
  dsimp only at hr
  simp only [readBytes_state] at hr
  split_ifs at hr
  · obtain ⟨q, hq, rfl⟩ := Option.map_eq_some_iff.mp hr
    exact copySegment_failed h hq
  · obtain rfl := Option.some.inj hr
    exact h

/-- **All segments**, where none touches the stack pages. -/
theorem segments_loading (hp : Managed pool) (he : pmlGetAddr e = root) (hlen : buffer.length < 2 ^ 64)
    (hf : Fits buffer) (hsep : Separate buffer) (hclear : Clear buffer) {info : ELFProgramInfo}
    (h : Loading pool rest root (fun _ _ => False) s) :
    Settles True
      (fun k => forLoop (prepareSegment (kernel buffer k e) (phOffset buffer)) (phEntryCount buffer) 0 (s, info))
      (fun r => r.1.failed = true) fun r => Loading pool rest root (Placed buffer (phEntryCount buffer)) r.1 := by
  refine Settles.forLoop (J := fun n (r : Mm × ELFProgramInfo) => Loading pool rest root (Placed buffer n) r.1)
    (fun n r hn hJ => ?_) (fun k n a r ha hr => prepareSegment_failed ha hr) _ 0 _ (Nat.zero_add _)
    (h.congr fun v b ⟨n, hn, _⟩ => Nat.not_lt_zero n hn)
  simp only [prepareSegment_kernel hlen (hf.table n hn)]
  by_cases hload : IsLoaded buffer n
  · simp only [if_pos (show (segmentAt buffer n).type = PT_LOAD ∨ (segmentAt buffer n).type = PT_TLS from hload)]
    have hseg : IsSegment buffer (segmentAt buffer n) := ⟨n, hn, rfl, hload⟩
    have hmem := hf.memory _ hseg
    by_cases hlow : 17 * 4096 ≤ (segmentAt buffer n).virtualAddress
    · refine (copySegment_loading hp he hJ (g := segmentAt buffer n) (fun i hi => (hf.data _ hseg i hi).trans hlen)
        (fun i hi => ⟨by omega, hmem i hi⟩) fun i hi x hx => ?_).map (fun s' hs' => hs'.congr fun v b hb => ?_)
        fun a ha => ha
      · obtain ⟨j, hj, hjl, -, l, hl, heq, -⟩ := hx
        exact hsep j n hj hn hjl hload l hl i hi heq.symm
      · obtain ⟨j, hj, hjl, hj17, hpart⟩ := hb
        rcases Nat.lt_succ_iff_lt_or_eq.mp hj with hj | rfl
        · exact Or.inl ⟨j, hj, hjl, hj17, hpart⟩
        · exact Or.inr hpart
    · -- the segment lies in the first page, as no byte of it is on the stack
      have hfirst : ∀ i, i < (segmentAt buffer n).bytes → (segmentAt buffer n).virtualAddress + i < 4096 := by
        intro i hi
        by_contra hge
        have h1 := hclear _ hseg 0 (Nat.zero_lt_of_lt hi)
        have h2 := hclear _ hseg (4096 - (segmentAt buffer n).virtualAddress) (by omega)
        omega
      refine (copySegment_low hJ hfirst).map (fun s' hs' => hs'.congr fun v b hb => ?_) fun a ha => ha
      obtain ⟨j, hj, hjl, hj17, hpart⟩ := hb
      rcases Nat.lt_succ_iff_lt_or_eq.mp hj with hj | rfl
      · exact ⟨j, hj, hjl, hj17, hpart⟩
      · exact absurd hj17 hlow
  · simp only [if_neg (show ¬ ((segmentAt buffer n).type = PT_LOAD ∨ (segmentAt buffer n).type = PT_TLS) from hload)]
    refine Or.inl ⟨r, Halts.const r, hJ.congr fun v b hb => ?_⟩
    obtain ⟨j, hj, hjl, hj17, hpart⟩ := hb
    rcases Nat.lt_succ_iff_lt_or_eq.mp hj with hj | rfl
    · exact ⟨j, hj, hjl, hj17, hpart⟩
    · exact absurd hjl hload

/-! ### The stack -/

/-- A store does not depend on the file, nor on how much fuel the calls have. -/
theorem storeBytes_kernel (buffer : List UInt8) (k e p : Nat) (bs : List Nat) (offs : Int) (s : Mm) :
    storeBytes (kernel buffer k e) p bs offs s = storeBytes (kernel [] 0 0) p bs offs s := by
  induction bs generalizing offs s with
  | nil => rfl
  | cons b bs ih => exact ih (offs + 1) _

theorem pushArgs_kernel (buffer : List UInt8) (k e p : Nat) (argv : List (List Nat)) (s : Mm) :
    pushArgs (kernel buffer k e) p argv s = pushArgs (kernel [] 0 0) p argv s := by
  have hstring : pushString (kernel buffer k e) p = pushString (kernel [] 0 0) p := by
    funext a t
    unfold pushString
    dsimp only
    rw [storeBytes_kernel buffer k e]
  have hpointer : pushPointer (kernel buffer k e) p = pushPointer (kernel [] 0 0) p := by
    funext v t
    unfold pushPointer
    rw [storeBytes_kernel buffer k e]
  unfold pushArgs
  rw [hstring, hpointer]

/-- What is put on the stack pages from `g` on. -/
def fillStack (argv : List (List Nat)) (info : ELFProgramInfo) (g : Nat) (s : Mm) : Mm × Nat :=
  let M := kernel [] 0 0
  let p := MemoryManager.physToKernelPtr g
  let t := pushArgs M p argv s
  let info := { info with argc := argv.length, argv := stackAddr t.argSize }
  (storeBytes M p info.toBytes (t.virtStack - sizeofProgramInfo) t.state, stackAddr (t.argSize + sizeofProgramInfo))

theorem prepareStack_kernel (k : Nat) (argv : List (List Nat)) (info : ELFProgramInfo) (s : Mm) :
    prepareStack (kernel buffer k e) argv info s = (allocatePages k s 16).bind fun a =>
      (forLoop (fun i s => mapProcessPage k s e (u64 (a.2 + i * 4096)) (stackBase + i * 4096)) 16 0 a.1).map
        (fillStack argv info a.2) := by
  unfold prepareStack
  refine congrArg (Option.bind _) (funext fun a => congrArg (fun f => Option.map f _) (funext fun t => ?_))
  unfold fillStack
  dsimp only
  rw [pushArgs_kernel buffer k e, storeBytes_kernel buffer k e]
  rfl

/-- It stays on the stack pages, if the arguments fit. -/
theorem fillStack_aside {argv : List (List Nat)} (hroom : argsSize argv ≤ 16 * 4096) (info : ELFProgramInfo) {g : Nat}
    (hg : 4096 ∣ g) (t : Mm) {a : Nat} (ha : ∀ p, InRun g 16 p → ¬ InPage p a) :
    (fillStack argv info g t).1.mem a = t.mem a := by
  have hI : ∀ (u : Mm) (o : Int) (v : Nat), (0 ≤ o ∧ o < 16 * 4096) → u.mem a = t.mem a →
      ((kernel [] 0 0).store u (MemoryManager.physToKernelPtr g) o v).mem a = t.mem a := by
    intro u o v ho hu
    refine (Function.update_of_ne (fun heq => ?_) _ _).trans hu
    obtain ⟨n, rfl⟩ := Int.eq_ofNat_of_zero_le ho.1
    have hn : n < 16 * 4096 := by omega
    refine ha (g + n / 4096 * 4096) ⟨by omega, by omega, by omega⟩ ?_
    unfold InPage
    unfold MemoryManager.physToKernelPtr at *
    omega
  have h : ∀ info : ELFProgramInfo, (storeBytes (kernel [] 0 0) (MemoryManager.physToKernelPtr g) info.toBytes
      ((pushArgs (kernel [] 0 0) (MemoryManager.physToKernelPtr g) argv t).virtStack - sizeofProgramInfo)
      (pushArgs (kernel [] 0 0) (MemoryManager.physToKernelPtr g) argv t).state).mem a = t.mem a := fun info => by
    have hstore := (pushArgs_pushed (R := fun o => 0 ≤ o ∧ o < 16 * 4096) hI argv rfl).store hI info.toBytes
      (by rw [length_toBytes]; exact fun o h1 h2 => ⟨by unfold argsSize at hroom; omega, h2⟩)
    rw [length_toBytes] at hstore
    exact hstore
  exact h _

theorem fillStack_failed {argv : List (List Nat)} {info : ELFProgramInfo} {g : Nat} {t : Mm} :
    (fillStack argv info g t).1.failed = t.failed := by
  have hI : ∀ (u : Mm) (o : Int) (v : Nat), True → u.failed = t.failed →
      ((kernel [] 0 0).store u (MemoryManager.physToKernelPtr g) o v).failed = t.failed := fun u o v _ hu => hu
  have h : ∀ info : ELFProgramInfo, (storeBytes (kernel [] 0 0) (MemoryManager.physToKernelPtr g) info.toBytes
      ((pushArgs (kernel [] 0 0) (MemoryManager.physToKernelPtr g) argv t).virtStack - sizeofProgramInfo)
      (pushArgs (kernel [] 0 0) (MemoryManager.physToKernelPtr g) argv t).state).failed = t.failed := fun info => by
    have hstore := (pushArgs_pushed (R := fun _ => True) hI argv rfl).store hI info.toBytes fun _ _ _ => trivial
    rw [length_toBytes] at hstore
    exact hstore
  exact h _

/-- **The stack pages are mapped**: pages that nobody had, which do not become tables. -/
theorem mapStack_loading (hp : Managed pool) (he : pmlGetAddr e = root) (h : Loading pool rest root C s) :
    Settles True (fun k => (allocatePages k s 16).bind fun a =>
        (forLoop (fun i s => mapProcessPage k s e (u64 (a.2 + i * 4096)) (stackBase + i * 4096)) 16 0 a.1).map
          fun t => (a.2, t)) (fun r => r.2.failed = true)
      fun r => 4096 ∣ r.1 ∧ (∀ v b, C v b → byteAt r.2.mem root v = some b) ∧
        (∀ v f, v < 2 ^ 39 → translate s.mem root v = some f → translate r.2.mem root v = some f ∧ ¬ InRun r.1 16 f) ∧
        (∀ v, v < 4096 → translate r.2.mem root v = none) ∧
        ∀ q, IsTable r.2.mem root q → 4096 ∣ q ∧ ¬ InRun r.1 16 q := by
  obtain ⟨ps, z, hI⟩ := h.alloc
  refine Settles.bind ((run_made hp (n := 16) (by decide) (by decide) hI).mono (fun _ => trivial) fun r hr => hr) ?_ ?_
  · intro r hr
    obtain ⟨s1, g⟩ := r
    obtain ⟨hg, hfree, hm1⟩ := hr
    dsimp only at hg hfree hm1 ⊢
    obtain ⟨ps1, z1, hI1⟩ := hm1.alloc
    have hbase : stackBase = 4096 := rfl
    have hstack : ∀ i, i < 16 → (stackBase + i * 4096) / 4096 = 1 + i ∧ stackBase + i * 4096 < 2 ^ 39 := fun i hi => by
      rw [hbase]
      omega
    have habs : ∀ i, i < 16 → follow s1.mem (leafPath (stackBase + i * 4096)) root = none := fun i hi => by
      by_contra hne
      obtain ⟨h1, h2⟩ := hstack i hi
      rcases (hm1.nodes _ (leafPath_path _) (length_leafPath _).le).mp hne with h3 | h3
      · have := h.high _ h2 h3
        omega
      · exact Finset.notMem_empty _ h3
    have hgi : ∀ i, i < 16 → g + 4096 * i < 2 ^ 64 := fun i hi => by
      have := (hp (g + 4096 * i) (hfree _ ⟨by omega, by omega, by omega⟩).1).2
      omega
    refine ((runLoop_made hp pmlEntry_pointsTo (v := fun i => stackBase + i * 4096)
      (b := fun k i t => mapProcessPage k t e (u64 (g + i * 4096)) (stackBase + i * 4096)) he hg
      (fun i j hi hj heq => ?_) habs (fun k i a hi => ?_)
      (fun k i a b ha hb => mapProcessPage_failed ha hb) hI1).mono (fun _ => trivial) fun r hr => hr).map ?_
      fun a ha => by simpa using ha
    · have h1 := leafPath_inj (hstack i hi).2 (hstack j hj).2 heq
      rw [(hstack i hi).1, (hstack j hj).1] at h1
      omega
    · rw [Nat.mul_comm i 4096, u64_of_lt (hgi i hi)]
      rfl
    · intro t hm2
      dsimp only
      -- a page of the run was nobody's, so it is no page of the map
      have hrun : ∀ q, InRun g 16 q → uses s.mem 3 root q = 0 ∧ uses s1.mem 3 root q = 0 := fun q hin => by
        have h1 := (hfree q hin).2
        have h2 := hI1.once q
        unfold treeOwn at h1 h2
        dsimp only at h2
        rw [if_pos hin] at h2
        omega
      refine ⟨hg, fun v b hb => byteAt_made hp hI1 hm2 (byteAt_made hp hI hm1 (h.bytes v b hb).2), fun v f hv hf => ?_,
        fun v hv => ?_, fun q hq => ?_⟩
      · have h1 := hm1.kept _ f (leafPath_path v) (length_leafPath v).le hf
        refine ⟨hm2.kept _ f (leafPath_path v) (length_leafPath v).le h1, fun hin => ?_⟩
        have h2 := uses_of_follow (leafPath_path v) (length_leafPath v).le hf
        have := (hrun f hin).1
        omega
      · by_contra hne
        have hv39 : v < 2 ^ 39 := by omega
        rcases (hm2.nodes _ (leafPath_path v) (length_leafPath v).le).mp hne with h1 | h1
        · rcases (hm1.nodes _ (leafPath_path v) (length_leafPath v).le).mp h1 with h2 | h2
          · have := h.high v hv39 h2
            omega
          · exact Finset.notMem_empty _ h2
        · obtain ⟨i, hi, h2⟩ := mem_upto.mp h1
          rcases Finset.mem_union.mp h2 with h3 | h3
          · have h4 := (walkNodes_path _ h3).2
            rw [length_leafPath] at h4
            exact absurd h4 (by decide)
          · have h4 := leafPath_inj hv39 (hstack i hi).2 (Finset.mem_singleton.mp h3)
            rw [(hstack i hi).1] at h4
            omega
      · obtain ⟨π, hπ, hl, hfq⟩ := hq
        obtain ⟨ps2, z2, hI2⟩ := hm2.alloc
        refine ⟨follow_aligned (wellFormed_owned hp hI2).aligned hfq, fun hin => ?_⟩
        rcases hm2.fresh π q hπ (by omega) hfq with h1 | h1 | h1
        · have h2 := uses_of_follow hπ (by omega : π.length ≤ 3) h1
          have := (hrun q hin).2
          omega
        · omega
        · have h2 := h1.2
          unfold treeOwn at h2
          dsimp only at h2
          rw [if_pos hin] at h2
          omega
  · intro a n r ha hr
    obtain ⟨t, ht, rfl⟩ := Option.map_eq_some_iff.mp hr
    exact forLoop_keeps (B := fun t : Mm => t.failed = true) (fun i x y hx hy => mapProcessPage_failed hx hy) ha ht

/-- **The stack** leaves the bytes alone that stand behind it, and the first page unmapped. -/
theorem prepareStack_loading (hp : Managed pool) (he : pmlGetAddr e = root) (h : Loading pool rest root C s)
    {argv : List (List Nat)} (hroom : argsSize argv ≤ 16 * 4096) (info : ELFProgramInfo) :
    Settles True (fun k => prepareStack (kernel buffer k e) argv info s) (fun r => r.1.failed = true)
      fun r => (∀ v b, C v b → byteAt r.1.mem root v = some b) ∧ ∀ v, v < 4096 → translate r.1.mem root v = none := by
  have hrun : (fun k => prepareStack (kernel buffer k e) argv info s) = fun k =>
      ((allocatePages k s 16).bind fun a =>
        (forLoop (fun i s => mapProcessPage k s e (u64 (a.2 + i * 4096)) (stackBase + i * 4096)) 16 0 a.1).map
          fun t => (a.2, t)).map fun r => fillStack argv info r.1 r.2 := by
    funext k
    rw [prepareStack_kernel, Option.map_bind]
    refine congrArg (Option.bind _) (funext fun a => ?_)
    rw [Function.comp_apply, Option.map_map]
    rfl
  rw [hrun]
  refine (mapStack_loading hp he h).map ?_ fun r hr => (fillStack_failed).trans hr
  intro r hr
  obtain ⟨g, t⟩ := r
  obtain ⟨hg, hbytes, hkept, hfirst, htables⟩ := hr
  dsimp only at *
  have hsame : ∀ v, translate (fillStack argv info g t).1.mem root v = translate t.mem root v := fun v => by
    refine follow_same (fun q hq a h1 h2 => fillStack_aside hroom info hg t fun p hin hpa => ?_) (leafPath_path v)
      (length_leafPath v).le
    obtain ⟨hqd, hno⟩ := htables q hq
    exact hno (InPage.inj hin.1 hqd hpa ⟨h1, h2⟩ ▸ hin)
  refine ⟨fun v b hb => ?_, fun v hv => (hsame v).trans (hfirst v hv)⟩
  obtain ⟨hv, hbs⟩ := h.bytes v b hb
  obtain ⟨f, hf, -⟩ := Option.map_eq_some_iff.mp hbs
  obtain ⟨hft, hno⟩ := hkept v f hv hf
  have hbt := hbytes v b hb
  unfold byteAt at hbt ⊢
  rw [hft, Option.map_some] at hbt
  rw [hsame v, hft, Option.map_some, ← hbt]
  refine congrArg some (fillStack_aside hroom info hg t fun p hin hpa => ?_)
  obtain ⟨ps, z, hI⟩ := h.alloc
  have hfd := (hp f (frame_owned hI hf).2).1
  exact hno (InPage.inj hin.1 hfd hpa ⟨by omega, by omega⟩ ▸ hin)

theorem prepareStack_failed {k : Nat} {argv : List (List Nat)} {info : ELFProgramInfo} {r : Mm × Nat}
    (h : s.failed = true) (hr : prepareStack (kernel buffer k e) argv info s = some r) : r.1.failed = true := by
  rw [prepareStack_kernel] at hr
  obtain ⟨a, ha, hr⟩ := Option.bind_eq_some_iff.mp hr
  obtain ⟨t, ht, rfl⟩ := Option.map_eq_some_iff.mp hr
  refine fillStack_failed.trans ?_
  exact forLoop_keeps (B := fun t : Mm => t.failed = true) (fun _ _ _ hx hy => mapProcessPage_failed hx hy)
    (allocatePages_failed h ha) ht

/-! ### The loader -/

/-- What is left when the magic number is right. -/
theorem checkAndPrepare_kernel (hf : Fits buffer) (k : Nat) (argv : List (List Nat))
    (h : (magicFrom (kernel buffer k e) magic 0 s).2 = true) :
    checkAndPrepare (kernel buffer k e) argv s =
      (forLoop (prepareSegment (kernel buffer k e) (phOffset buffer)) (phEntryCount buffer) 0 (s, ⟨0, 0, 0, 0⟩)).bind
        fun r => (prepareStack (kernel buffer k e) argv r.2 r.1).map fun q =>
          (q.1, some (startRegs (field buffer 8 24) q.2)) := by
  have hhead : 64 ≤ buffer.length := hf.header
  obtain ⟨b, hb⟩ := magicFrom_kernel buffer e magic 0
  rw [hb k s] at h
  dsimp only at h
  unfold checkAndPrepare
  dsimp only
  rw [hb k s]
  dsimp only
  rw [h, if_neg (by decide), readBytes_kernel k 8 32 s (by omega)]
  dsimp only
  rw [readBytes_kernel k 2 56 s (by omega)]
  dsimp only
  refine congrArg (Option.bind _) (funext fun r => ?_)
  rw [readBytes_kernel k 8 24 r.1 (by omega)]

theorem checkAndPrepare_failed {k : Nat} {argv : List (List Nat)} {r : Mm × Option Registers} (h : s.failed = true)
    (hr : checkAndPrepare (kernel buffer k e) argv s = some r) : r.1.failed = true := by
  obtain ⟨b, hb⟩ := magicFrom_kernel buffer e magic 0
  unfold checkAndPrepare at hr
  dsimp only at hr
  rw [hb k s] at hr
  dsimp only at hr
  simp only [readBytes_state] at hr
  split_ifs at hr
  · obtain rfl := Option.some.inj hr
    exact h
  · obtain ⟨a, ha, hr⟩ := Option.bind_eq_some_iff.mp hr
    obtain ⟨q, hq, rfl⟩ := Option.map_eq_some_iff.mp hr
    exact prepareStack_failed (forLoop_keeps (B := fun r : Mm × ELFProgramInfo => r.1.failed = true)
      (fun _ _ _ hx hy => prepareSegment_failed hx hy) (s := (s, ⟨0, 0, 0, 0⟩)) h ha) hq

/-- **The load into a new map**, where no segment touches the stack pages: the bytes behind the stack stand where they
    belong, and the first page is not mapped. -/
theorem checkAndPrepare_loading (hp : Managed pool) (he : pmlGetAddr e = root) (hlen : buffer.length < 2 ^ 64)
    (hf : Fits buffer) (hsep : Separate buffer) (hclear : Clear buffer) {argv : List (List Nat)}
    (hroom : argsSize argv ≤ 16 * 4096) (h : Loading pool rest root (fun _ _ => False) s) :
    Settles True (fun k => checkAndPrepare (kernel buffer k e) argv s) (fun r => r.1.failed = true)
      fun r => r.2 ≠ none → (∀ v b, Placed buffer (phEntryCount buffer) v b → byteAt r.1.mem root v = some b) ∧
        ∀ v, v < 4096 → translate r.1.mem root v = none := by
  obtain ⟨b, hb⟩ := magicFrom_kernel buffer e magic 0
  cases b with
  | false =>
      refine Or.inl ⟨(s, none), ⟨0, fun k _ => ?_⟩, fun hne => absurd rfl hne⟩
      unfold checkAndPrepare
      dsimp only
      rw [hb k s]
      exact if_pos rfl
  | true =>
      have hrun := fun k => checkAndPrepare_kernel (e := e) (s := s) hf k argv (by rw [hb k s])
      simp only [hrun]
      refine (segments_loading hp he hlen hf hsep hclear h).bind (fun a ha => ?_) fun a k r ha hr => ?_
      · exact (prepareStack_loading hp he ha hroom a.2).map (fun r hr _ => hr) fun r hr => hr
      · obtain ⟨q, hq, rfl⟩ := Option.map_eq_some_iff.mp hr
        exact prepareStack_failed ha hq

end Loading

/-! ### Fuel that is left over changes nothing -/

section Fuel

variable {buffer : List UInt8} {e : Nat}

theorem readBytes_fuel (k n offs : Nat) (s : Mm) :
    readBytes (kernel buffer k e) n offs s = readBytes (kernel buffer 0 e) n offs s := by
  induction n generalizing offs with
  | zero => rfl
  | succ n ih =>
      unfold readBytes
      dsimp only
      rw [show ((kernel buffer k e).load s (u64 offs)).1 = s from rfl, ih]
      rfl

theorem readSegment_fuel (k t offs : Nat) (s : Mm) :
    readSegment (kernel buffer k e) t offs s = readSegment (kernel buffer 0 e) t offs s := by
  unfold readSegment
  simp only [readBytes_fuel k]

theorem enterPage_steady (addr : Nat) (c : Mm × Cursor Nat) : Steady fun k => enterPage (kernel buffer k e) addr c := by
  unfold enterPage
  dsimp only
  by_cases h : addr - addr % 4096 ≠ c.2.lastPage
  · simp only [if_pos h]
    exact (mapAnyPage_steady c.1 e _).map _
  · simp only [if_neg h]
    exact Steady.const _

theorem copyByte_steady (g : ElfSegmentHeader) (i : Nat) (c : Mm × Cursor Nat) :
    Steady fun k => copyByte (kernel buffer k e) g i c := by
  show Steady fun k => (enterPage (kernel buffer k e) (u64 (g.virtualAddress + i)) c).map fun c =>
    (storeAt c.1 c.2.lastPageBuffer (u64 (g.virtualAddress + i) % 4096 : Nat)
      (buffer.getD (u64 (g.dataOffset + i)) 0).toNat, c.2)
  exact (enterPage_steady _ c).map _

theorem zeroByte_steady (g : ElfSegmentHeader) (i : Nat) (c : Mm × Cursor Nat) :
    Steady fun k => zeroByte (kernel buffer k e) g i c := by
  show Steady fun k => (enterPage (kernel buffer k e) (u64 (g.virtualAddress + i)) c).map fun c =>
    (storeAt c.1 c.2.lastPageBuffer (u64 (g.virtualAddress + i) % 4096 : Nat) 0, c.2)
  exact (enterPage_steady _ c).map _

theorem copySegment_steady (g : ElfSegmentHeader) (s : Mm) : Steady fun k => copySegment (kernel buffer k e) g s :=
  ((Steady.forLoop (copyByte_steady g) g.dataSize 0 (s, ⟨0, 0⟩)).bind fun c =>
    Steady.forLoop (zeroByte_steady g) (g.virtualSize - g.dataSize) g.dataSize c).map Prod.fst

theorem prepareSegment_steady (o n : Nat) (r : Mm × ELFProgramInfo) :
    Steady fun k => prepareSegment (kernel buffer k e) o n r := by
  unfold prepareSegment
  dsimp only
  simp only [readBytes_fuel _ 4, readSegment_fuel]
  split_ifs
  · exact (copySegment_steady _ _).map _
  · exact Steady.const _

theorem prepareStack_steady (argv : List (List Nat)) (info : ELFProgramInfo) (s : Mm) :
    Steady fun k => prepareStack (kernel buffer k e) argv info s := by
  simp only [prepareStack_kernel]
  exact (allocatePages_steady s 16).bind fun a =>
    (Steady.forLoop (fun i t => mapProcessPage_steady t e _ _) 16 0 a.1).map _

theorem checkAndPrepare_steady (argv : List (List Nat)) (s : Mm) :
    Steady fun k => checkAndPrepare (kernel buffer k e) argv s := by
  obtain ⟨b, hb⟩ := magicFrom_kernel buffer e magic 0
  unfold checkAndPrepare
  dsimp only
  simp only [hb, readBytes_fuel]
  split_ifs
  · exact Steady.const _
  · exact (Steady.forLoop (prepareSegment_steady _) _ _ _).bind fun r => (prepareStack_steady argv r.2 _).map _

end Fuel

/-! ## 6. The image in the new address space -/

/-- The new map, and the load into it, as `DoExec` calls them. -/
def prepareNew (buffer : List UInt8) (argv : List (List Nat)) (fuel : Nat) (s : Mm) :
    Option (Mm × Nat × Option Registers) :=
  (createProcessMap fuel s).bind fun p =>
    (checkAndPrepare (kernel buffer fuel p.2) argv p.1).map fun r => (r.1, p.2, r.2)

/-- **The image stands in memory**: the bytes of the file, and zeros behind them. -/
structure Loaded (buffer : List UInt8) (m : Mem) (root : Nat) : Prop where
  data : ∀ g, IsSegment buffer g → ∀ i, i < g.dataSize →
    byteAt m root (g.virtualAddress + i) = some (buffer.getD (g.dataOffset + i) 0).toNat
  zeros : ∀ g, IsSegment buffer g → ∀ i, g.dataSize ≤ i → i < g.virtualSize →
    byteAt m root (g.virtualAddress + i) = some 0

/-- No segment touches the first page or the stack pages. -/
def Behind (buffer : List UInt8) : Prop :=
  ∀ g, IsSegment buffer g → 0 < g.bytes → 17 * 4096 ≤ g.virtualAddress

theorem Behind.clear {buffer : List UInt8} (h : Behind buffer) : Clear buffer := fun g hg _ hi =>
  Or.inr ((h g hg (Nat.zero_lt_of_lt hi)).trans (Nat.le_add_right _ _))

theorem loaded_iff {buffer : List UInt8} {m : Mem} {root : Nat} : Loaded buffer m root ↔
    ∀ g, IsSegment buffer g → ∀ i, i < g.bytes → byteAt m root (g.virtualAddress + i) = some (expected buffer g i) := by
  constructor
  · intro h g hg i hi
    unfold expected
    by_cases hd : i < g.dataSize
    · rw [if_pos hd]
      exact h.data g hg i hd
    · rw [if_neg hd]
      exact h.zeros g hg i (Nat.not_lt.mp hd) ((lt_max_iff.mp hi).resolve_left hd)
  · intro h
    refine ⟨fun g hg i hi => ?_, fun g hg i hd hi => ?_⟩
    · have h1 := h g hg i (lt_max_of_lt_left hi)
      unfold expected at h1
      rwa [if_pos hi] at h1
    · have h1 := h g hg i (lt_max_of_lt_right hi)
      unfold expected at h1
      rwa [if_neg (Nat.not_lt.mpr hd)] at h1

section Faithful

variable {pool : Nat → Prop} {own : Nat → Nat} {s : Mm} {ps : List Nat} {z : Nat → Nat} {buffer : List UInt8}

/-- A map that is new is ready for the load. -/
theorem Loading.start {root : Nat} {s1 : Mm} (h : NewMap pool own root ∅ 1 s s1) (hs : s.failed = false) :
    Loading pool own root (fun _ _ => False) s1 := by
  refine ⟨h.alloc, h.failed.trans hs, fun v b hC => hC.elim, fun v _ hne => ?_⟩
  rcases (h.nodes _ (leafPath_path v) (length_leafPath v).le).mp hne with h1 | h1
  · have h2 := length_leafPath v
    rw [h1] at h2
    cases h2
  · exact absurd h1 (Finset.notMem_empty _)

theorem prepareNew_loading (hp : Managed pool) (hI : AllocInv pool s own ps z) (hs : s.failed = false)
    (hlen : buffer.length < 2 ^ 64) (hf : Fits buffer) (hsep : Separate buffer) (hclear : Clear buffer)
    {argv : List (List Nat)} (hroom : argsSize argv ≤ 16 * 4096) :
    Settles True (fun k => prepareNew buffer argv k s) (fun r => r.1.failed = true) fun r => r.2.2 ≠ none →
      (∀ v b, Placed buffer (phEntryCount buffer) v b → byteAt r.1.mem (pmlGetAddr r.2.1) v = some b) ∧
        ∀ v, v < 4096 → translate r.1.mem (pmlGetAddr r.2.1) v = none := by
  refine ((createProcessMap_newMap hp hI).mono (fun _ => trivial) fun r hr => hr).bind (fun p hnew => ?_)
    fun p k r hbad hr => ?_
  · exact (checkAndPrepare_loading hp rfl hlen hf hsep hclear hroom (Loading.start hnew.2 hs)).map (fun r hr => hr)
      fun r hr => hr
  · obtain ⟨q, hq, rfl⟩ := Option.map_eq_some_iff.mp hr
    exact checkAndPrepare_failed hbad hq

/-- **The image is loaded if no segment touches the first page or the stack**, and the arguments fit on the stack. An
    image that leaves the stack alone is loaded only then. -/
theorem elf_faithful (hp : Managed pool) (hI : AllocInv pool s own ps z) (hs : s.failed = false)
    (hlen : buffer.length < 2 ^ 64) (hf : Fits buffer) (hsep : Separate buffer) (argv : List (List Nat))
    {r : Mm × Nat × Option Registers} (hr : Halts (fun k => prepareNew buffer argv k s) r) (hok : r.1.failed = false)
    (htrue : r.2.2 ≠ none) (hroom : argsSize argv ≤ 16 * 4096) :
    (Behind buffer → Loaded buffer r.1.mem (pmlGetAddr r.2.1)) ∧
      (Clear buffer → (Loaded buffer r.1.mem (pmlGetAddr r.2.1) ↔ Behind buffer)) := by
  have hload := fun hclear => (prepareNew_loading hp hI hs hlen hf hsep hclear hroom).result hr
    (by rw [hok]; exact Bool.false_ne_true) htrue
  have hbehind : Behind buffer → Loaded buffer r.1.mem (pmlGetAddr r.2.1) := fun h => by
    refine loaded_iff.mpr fun g hg i hi => ?_
    have hgv := h g hg (Nat.zero_lt_of_lt hi)
    obtain ⟨k, hk, rfl, hl⟩ := hg
    exact (hload h.clear).1 _ _ ⟨k, hk, hl, hgv, i, hi, rfl, rfl⟩
  refine ⟨hbehind, fun hclear => ⟨fun h g hg hpos => ?_, hbehind⟩⟩
  -- the first byte of a segment in the first page would be there
  by_contra hlow
  have hfirst : g.virtualAddress < 4096 := (hclear g hg 0 hpos).resolve_right hlow
  have hbyte := loaded_iff.mp h g hg 0 hpos
  unfold byteAt at hbyte
  rw [(hload hclear).2 _ (show g.virtualAddress + 0 < 4096 from hfirst)] at hbyte
  cases hbyte

end Faithful

theorem prepareNew_steady (buffer : List UInt8) (argv : List (List Nat)) (s : Mm) :
    Steady fun k => prepareNew buffer argv k s :=
  (createProcessMap_steady s).bind fun p => (checkAndPrepare_steady argv p.1).map _

/-- A machine with 40 pages behind the first one. -/
def forty : Mm := oneStart 4096 40

/-- A load on it that ends with the fuel for lists of 8 segments. -/
theorem forty_run (buffer : List UInt8) (argv : List (List Nat)) {P : Mm × Nat × Option Registers → Bool}
    (h : (prepareNew buffer argv 8 forty).any (fun r => !r.1.failed && r.2.2.isSome && P r) = true) :
    ∃ r, Halts (fun k => prepareNew buffer argv k forty) r ∧ r.1.failed = false ∧ r.2.2 ≠ none ∧ P r = true := by
  obtain ⟨r, hr, hP⟩ := (Option.any_eq_true _ _).mp h
  rw [Bool.and_eq_true, Bool.and_eq_true, Bool.not_eq_true', Option.isSome_iff_ne_none] at hP
  exact ⟨r, (prepareNew_steady buffer argv forty).halts hr, hP.1.1, hP.1.2, hP.2⟩

/-- One segment overlaps no other. -/
theorem ImageAt.separate {buffer : List UInt8} {v : Nat} (h : ImageAt buffer v) : Separate buffer := by
  intro j k hjk hk
  have := h.count
  omega

theorem elf_faithful_image : ∃ r, Halts (fun k => prepareNew goodImage [[97]] k forty) r ∧
    Loaded goodImage r.1.mem (pmlGetAddr r.2.1) := by
  have hover : HandedOver [⟨4096, 40⟩] := oneHanded_over (by decide) (by decide) (by decide)
  obtain ⟨ps, z, hI, -⟩ := pageInit_alloc hover (oneStart_init 4096 40 (by decide))
  obtain ⟨r, hr, hok, htrue, -⟩ := forty_run goodImage [[97]] (P := fun _ => true)
    (by decide +kernel)
  refine ⟨r, hr, (elf_faithful (poolOf_managed hover) hI rfl (by decide) (goodImage_at.fits (by decide))
    goodImage_at.separate [[97]] hr hok htrue (by decide)).1 fun g hg _ => ?_⟩
  rw [goodImage_at.only hg]
  decide

/-- The image is loaded, and its segment at `v` is lost. -/
def Lost (buffer : List UInt8) (v : Nat) : Prop :=
  ImageAt buffer v ∧ Fits buffer ∧ Separate buffer ∧ ∃ r, Halts (fun k => prepareNew buffer [] k forty) r ∧
    r.1.failed = false ∧ r.2.2 ≠ none ∧ ¬ Loaded buffer r.1.mem (pmlGetAddr r.2.1)

theorem ImageAt.lost {buffer : List UInt8} {v : Nat} (h : ImageAt buffer v) (hv : v + 2 ≤ 2 ^ 39)
    (hrun : (prepareNew buffer [] 8 forty).any (fun r => !r.1.failed && r.2.2.isSome &&
      decide (byteAt r.1.mem (pmlGetAddr r.2.1) v ≠ some (buffer.getD 120 0).toNat)) = true) : Lost buffer v := by
  obtain ⟨r, hr, hok, htrue, hbyte⟩ := forty_run buffer [] hrun
  exact ⟨h, h.fits hv, h.separate, r, hr, hok, htrue,
    fun hl => of_decide_eq_true hbyte (hl.data _ h.isSegment 0 Nat.one_pos)⟩

/-- One in the first page, and one in the first page of the stack. -/
theorem segments_lost : Lost (image [0, 0, 0, 0, 0, 0, 0, 0]) 0 ∧ Lost (image [0, 0x10, 0, 0, 0, 0, 0, 0]) 0x1000 :=
  ⟨ImageAt.lost ⟨rfl, by decide, by decide, by decide⟩ (by decide) (by decide +kernel),
    ImageAt.lost ⟨rfl, by decide, by decide, by decide⟩ (by decide) (by decide +kernel)⟩

end ELF

end SimpleOS2
