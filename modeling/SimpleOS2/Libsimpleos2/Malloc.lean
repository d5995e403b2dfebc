/-
  File:      SimpleOS2/Libsimpleos2/Malloc.lean
  Subject:   THE HEAP OF USER PROGRAMS (libsimpleos2/simpleos_alloc.cpp): `malloc` and `free`.

  The heap owns the addresses `[heapStart, heapPos)`. A block is a 16-byte header, whose first cell
  holds the size of header and payload together, and the payload behind it; everything else lies
  in the free list of libsimpleos2/internal/FreeList.h.

  * `reserveNew`, `malloc`, `free` -- the source's functions. Pages come from `alloc_pages` (which
    succeeds) with whatever they held before, the argument `fresh`;
  * `Sys`, `sysStep` -- a run: calls, and writes of the program into its live blocks;
  * `HeapInv`, `heapInv_reach` -- live blocks and free segments partition the heap;
  * `user_heap_partition` -- the main result, with the termination of every call.
-/
import SimpleOS2.Lib.Run
import SimpleOS2.Lib.Partition
import SimpleOS2.Libsimpleos2.FreeList

namespace SimpleOS2

open Lib FreeList

namespace UserHeap

/-! ## 1. The source's functions -/

/-- Where `g_HeapPos` starts. -/
def heapStart : Nat := 0xFF000000

/-- `g_FreeList` and `g_HeapPos`, and the memory of the process. -/
structure Heap where
  mem : Mem
  freeList : Ends Nat
  heapPos : Nat

/-- The bytes `malloc(size)` takes off the free list: the header counted in, in units of 64. -/
def allocSize (size : Nat) : Nat := u64 (size + 16 + 63) / 64 * 64

/-- The pages `ReserveNew(size)` adds. -/
def reservePages (size : Nat) : Nat := u64 (size + 4095) / 4096

/-- `ReserveNew`. The pages mapped at `heapPos` hold what `fresh` says. -/
def reserveNew (fuel : Nat) (fresh : Mem) (h : Heap) (size : Nat) : Option Heap :=
  let n := u64 (reservePages size * 4096)
  let mem : Mem := fun a => if h.heapPos ≤ a ∧ a < h.heapPos + n then fresh a else h.mem a
  (UserFreeList.markFree fuel mem h.freeList h.heapPos n).map fun r => ⟨r.1, r.2, u64 (h.heapPos + n)⟩

/-- The first half of `malloc`: find a segment, growing the heap if there is none. -/
def findOrReserve (fuel : Nat) (fresh : Mem) (h : Heap) (size : Nat) : Option (Heap × Nat) :=
  (findFree fuel h.mem h.freeList size).bind fun g =>
    if g = 0 then
      (reserveNew fuel fresh h size).bind fun h =>
        (findFree fuel h.mem h.freeList size).map fun g => (h, g)
    else some (h, g)

/-- `malloc`: the new heap and the pointer returned. -/
def malloc (fuel : Nat) (fresh : Mem) (h : Heap) (size : Nat) : Option (Heap × Nat) :=
  (findOrReserve fuel fresh h (allocSize size)).map fun r =>
    let q := UserFreeList.markUsed r.1.mem r.1.freeList r.2 (allocSize size)
    (⟨Function.update q.1 r.2 (allocSize size), q.2, r.1.heapPos⟩, r.2 + 16)

/-- `free`. -/
def free (fuel : Nat) (h : Heap) (block : Nat) : Option Heap :=
  if block = 0 then some h
  else
    let b := block - 16
    (UserFreeList.markFree fuel h.mem h.freeList b (h.mem b)).map fun r => ⟨r.1, r.2, h.heapPos⟩

theorem reserveNew_steady (fresh : Mem) (h : Heap) (size : Nat) :
    Steady fun n => reserveNew n fresh h size :=
  (UserFreeList.markFree_steady _ _ _ _).map _

theorem free_steady (h : Heap) (block : Nat) : Steady fun n => free n h block := by
  by_cases hb : block = 0
  · simp only [free, hb, if_true]
    exact fun n r hr => hr
  · simp only [free, hb, if_false]
    exact (UserFreeList.markFree_steady _ _ _ _).map _

/-! ## 2. Runs -/

/-- A live block: the address of its header, and the size that was asked for. -/
structure Block where
  start : Nat
  size : Nat
  deriving DecidableEq

/-- The pointer the program holds. -/
def Block.ptr (b : Block) : Nat := b.start + 16

/-- The end of the payload. -/
def Block.stop (b : Block) : Nat := b.start + allocSize b.size

/-- The heap, and the blocks handed out and not freed. -/
structure Sys where
  heap : Heap
  live : List Block

/-- The sizes a program may ask for, and that `alloc_pages` succeeds when the heap has to grow: the
    pages lie in the address space. -/
def Asks (h : Heap) (size : Nat) : Prop :=
  (0 < size ∧ size < 2 ^ 62) ∧
    (Halts (fun n => findFree n h.mem h.freeList (allocSize size)) 0 →
      h.heapPos + (allocSize size + 4095) / 4096 * 4096 < 2 ^ 64)

inductive Event where
  | malloc (size : Nat) (fresh : Mem)
  | free (b : Block)
  | freeNull
  | write (b : Block) (mem : Mem)

/-- One call, or one write of the program into one of its blocks. -/
inductive sysStep : Sys → Event → Sys → Prop where
  | malloc (s : Sys) (size : Nat) (fresh : Mem) (h : Heap) (p : Nat) (hask : Asks s.heap size)
      (hr : Halts (fun n => UserHeap.malloc n fresh s.heap size) (h, p)) :
      sysStep s (.malloc size fresh) ⟨h, ⟨p - 16, size⟩ :: s.live⟩
  | free (s : Sys) (b : Block) (h : Heap) (hb : b ∈ s.live)
      (hr : Halts (fun n => UserHeap.free n s.heap b.ptr) h) :
      sysStep s (.free b) ⟨h, s.live.erase b⟩
  | freeNull (s : Sys) (h : Heap) (hr : Halts (fun n => UserHeap.free n s.heap 0) h) :
      sysStep s .freeNull ⟨h, s.live⟩
  | write (s : Sys) (b : Block) (m : Mem) (hb : b ∈ s.live)
      (hw : ∀ a, ¬ (b.ptr ≤ a ∧ a < b.stop) → m a = s.heap.mem a) :
      sysStep s (.write b m) ⟨{ s.heap with mem := m }, s.live⟩

/-- The heap as a program starts: no segment, no block, nothing reserved. -/
def sysInit (s : Sys) : Prop :=
  s.heap.freeList = ⟨0, 0⟩ ∧ s.heap.heapPos = heapStart ∧ s.live = []

/-! ## 3. The invariant -/

theorem allocSize_facts {size : Nat} (h : size < 2 ^ 62) :
    64 ∣ allocSize size ∧ 16 + size ≤ allocSize size ∧ 64 ≤ allocSize size ∧
      allocSize size < 2 ^ 62 + 128 := by
  have h1 : u64 (size + 16 + 63) = size + 16 + 63 := u64_of_lt (by omega)
  unfold allocSize
  rw [h1]
  omega

/-- **The heap is partitioned**: the free segments are disjoint and none touches another, the live
    blocks are disjoint, and every address of the heap is in one of the two and not in both. -/
structure HeapInv (s : Sys) (ps : List Nat) (z : Nat → Nat) : Prop where
  free : Free s.heap.mem s.heap.freeList ps z
  geo : Geo 64 ps z
  apart : Apart ps z
  size : ∀ b ∈ s.live, b.size < 2 ^ 62
  aligned : ∀ b ∈ s.live, 64 ∣ b.start
  header : ∀ b ∈ s.live, s.heap.mem b.start = allocSize b.size
  parts : Partition Block.start Block.stop heapStart s.heap.heapPos (Cover ps z) s.live
  pos : heapStart ≤ s.heap.heapPos ∧ s.heap.heapPos < 2 ^ 64 ∧ 4096 ∣ s.heap.heapPos

section Inv

variable {s : Sys} {ps : List Nat} {z : Nat → Nat}

theorem HeapInv.stop_le (hI : HeapInv s ps z) {b : Block} (hb : b ∈ s.live) :
    b.start + 64 ≤ b.stop ∧ heapStart ≤ b.start ∧ b.stop ≤ s.heap.heapPos := by
  obtain ⟨h1, -, h2⟩ := hI.parts.bounds hb
  have h3 := (allocSize_facts (hI.size b hb)).2.2.1
  refine ⟨?_, h1, h2⟩
  unfold Block.stop
  omega

theorem HeapInv.segment_cover (hI : HeapInv s ps z) {p : Nat} (hp : p ∈ ps) :
    p < p + z p ∧ ∀ a, p ≤ a → a < p + z p → Cover ps z a := by
  have := (hI.geo.pos p hp).2
  exact ⟨by omega, fun a h1 h2 => ⟨p, hp, h1, h2⟩⟩

/-- A live block and a free segment do not overlap. -/
theorem HeapInv.block_segment (hI : HeapInv s ps z) {b : Block} (hb : b ∈ s.live) {p : Nat}
    (hp : p ∈ ps) : p + z p ≤ b.start ∨ b.stop ≤ p :=
  hI.parts.block_free hb (hI.segment_cover hp).1 (hI.segment_cover hp).2

/-- A segment lies inside the heap. -/
theorem HeapInv.segment_le (hI : HeapInv s ps z) {p : Nat} (hp : p ∈ ps) :
    heapStart ≤ p ∧ p + z p ≤ s.heap.heapPos :=
  hI.parts.free_bounds (hI.segment_cover hp).1 (hI.segment_cover hp).2

/-- The header of a live block is not in free memory. -/
theorem HeapInv.start_used (hI : HeapInv s ps z) {b : Block} (hb : b ∈ s.live) : ¬ Cover ps z b.start :=
  hI.parts.not_free hb (Nat.le_refl _) (hI.parts.nonempty b hb)

/-! ## 4. One call -/

theorem heapInv_init (h : sysInit s) : HeapInv s [] fun _ => 0 := by
  obtain ⟨h1, h2, h3⟩ := h
  have hnil : ∀ a, Cover [] (fun _ => 0) a ↔ False := fun a =>
    ⟨fun ⟨p, hp, _⟩ => absurd hp List.not_mem_nil, False.elim⟩
  refine ⟨⟨?_, by simp, by simp⟩, ⟨by simp, by simp, by simp, by simp⟩, by simp [Apart],
    by simp [h3], by simp [h3], by simp [h3], ?_, ?_⟩
  · rw [h1]
    exact rep_nil _
  · rw [h2, h3]
    exact (partition_nil heapStart).congr hnil
  · rw [h2]
    decide

/-- `ReserveNew` adds one segment at the end of the heap, large enough for what was asked. -/
theorem reserveNew_spec (hI : HeapInv s ps z) {n : Nat} (h0 : 0 < n)
    (hfit : s.heap.heapPos + (n + 4095) / 4096 * 4096 < 2 ^ 64) (fresh : Mem) :
    ∃ h ps' z', Halts (fun k => reserveNew k fresh s.heap n) h ∧ HeapInv ⟨h, s.live⟩ ps' z' ∧
      ∃ p ∈ ps', n ≤ z' p := by
  have hb : 0 < heapStart := by decide
  obtain ⟨hp1, hp2, hp3⟩ := hI.pos
  have hn : u64 (reservePages n * 4096) = (n + 4095) / 4096 * 4096 := by
    have h1 : u64 (n + 4095) = n + 4095 := u64_of_lt (by omega)
    unfold reservePages
    rw [h1, u64_of_lt (by omega)]
  obtain ⟨k, hk⟩ : ∃ k, (n + 4095) / 4096 * 4096 = k := ⟨_, rfl⟩
  have hk1 : n ≤ k ∧ 4096 ∣ k := by omega
  rw [hk] at hfit hn
  obtain ⟨m, hm⟩ : ∃ m : Mem, (fun a => if s.heap.heapPos ≤ a ∧ a < s.heap.heapPos + k then fresh a
    else s.heap.mem a) = m := ⟨_, rfl⟩
  have hmem : ∀ a, a < s.heap.heapPos → m a = s.heap.mem a := fun a ha => by
    rw [← hm]
    exact if_neg (by omega)
  -- the new pages do not disturb the list, which lies below them
  have hF : Free m s.heap.freeList ps z := free_congr hI.free fun p hp d hd => by
    have h1 := hI.segment_le hp
    have h2 := hI.geo.unit_le hp
    exact hmem _ (by omega)
  have hdis : ∀ p ∈ ps, p + z p ≤ s.heap.heapPos ∨ s.heap.heapPos + k ≤ p := fun p hp =>
    Or.inl (hI.segment_le hp).2
  obtain ⟨r, ps', z', hr, hD⟩ := UserFreeList.markFree_spec (by omega) hF hI.geo
    (b := s.heap.heapPos) (n := k) ⟨by omega, by omega⟩ (by omega) (by omega) hfit hdis
    (Nat.lt_succ_self (ps.length + 1))
  have hcov := hD.cover
  refine ⟨⟨r.1, r.2, s.heap.heapPos + k⟩, ps', z',
    (reserveNew_steady fresh s.heap n).halts (N := ps.length + 2) ?_, ?_, ?_⟩
  · unfold reserveNew
    dsimp only
    rw [hn, hm, u64_of_lt hfit, hr]
    rfl
  · refine ⟨hD.free, hD.geo, hD.apart hI.apart, hI.size, hI.aligned, fun b hb => ?_,
      (hI.parts.grow hp1 k).congr hcov, by dsimp only; omega⟩
    have h1 := hI.stop_le hb
    have hout : ¬ (Cover ps z b.start ∨ s.heap.heapPos ≤ b.start ∧ b.start < s.heap.heapPos + k) := by
      intro hx
      rcases hx with h | h
      · exact hI.start_used hb h
      · omega
    exact ((hD.frame _ hout).trans (hmem _ (by omega))).trans (hI.header b hb)
  · obtain ⟨p, hp, h1, h2⟩ := (hcov s.heap.heapPos).mpr (Or.inr ⟨le_rfl, by omega⟩)
    -- the segment that holds the first new byte holds all of them
    have hle := (hD.apart hI.apart).interval hD.geo (b := s.heap.heapPos + k) hp h1 h2 fun x hx1 hx2 =>
      (hcov x).mpr (Or.inr ⟨hx1, hx2⟩)
    exact ⟨p, hp, by omega⟩

/-- **The search of `malloc`** ends with a segment that is large enough, never with `nullptr`. -/
theorem findOrReserve_spec (hI : HeapInv s ps z) {n : Nat} (h0 : 0 < n) (fresh : Mem)
    (hfit : Halts (fun k => findFree k s.heap.mem s.heap.freeList n) 0 →
      s.heap.heapPos + (n + 4095) / 4096 * 4096 < 2 ^ 64) :
    ∃ h c ps' z', Halts (fun k => findOrReserve k fresh s.heap n) (h, c) ∧
      HeapInv ⟨h, s.live⟩ ps' z' ∧ c ∈ ps' ∧ n ≤ z' c := by
  obtain ⟨g, hg, hcase⟩ := findFree_spec hI.free n (Nat.lt_succ_self _)
  have hgH := (findFree_steady s.heap.mem s.heap.freeList n).halts hg
  rcases hcase with ⟨rfl, -⟩ | ⟨hmem, hle⟩
  · -- the heap grows, and the second search meets the new segment
    obtain ⟨h, ps', z', hres, hI', p, hp, hnp⟩ := reserveNew_spec hI h0 (hfit hgH) fresh
    obtain ⟨c, hc, hcase⟩ := findFree_spec hI'.free n (Nat.lt_succ_self _)
    have hcH := (findFree_steady h.mem h.freeList n).halts hc
    rcases hcase with ⟨rfl, hno⟩ | ⟨hc1, hc2⟩
    · have := hno p hp
      omega
    · refine ⟨h, c, ps', z', hgH.bind ?_, hI', hc1, hc2⟩
      simp only [if_true]
      exact hres.bind (hcH.map fun g => (h, g))
  · have hg0 : g ≠ 0 := by have := (hI.geo.pos g hmem).1; omega
    refine ⟨s.heap, g, ps, z, hgH.bind ?_, hI, hmem, hle⟩
    simp only [hg0, if_false]
    exact Halts.const _

/-- **`malloc`** cuts a block off a segment. -/
theorem malloc_spec (hI : HeapInv s ps z) {n : Nat} (hask : Asks s.heap n) (fresh : Mem) :
    ∃ c h' ps' z', Halts (fun k => malloc k fresh s.heap n) (h', c + 16) ∧
      HeapInv ⟨h', ⟨c, n⟩ :: s.live⟩ ps' z' := by
  obtain ⟨⟨-, hsz⟩, hgrow⟩ := hask
  obtain ⟨hd, hle, h64, -⟩ := allocSize_facts hsz
  obtain ⟨h, c, ps1, z1, hfind, hI1, hc, hcz⟩ := findOrReserve_spec hI (by omega) fresh hgrow
  obtain ⟨ps', z', hD⟩ := UserFreeList.markUsed_spec (by omega) hI1.free hI1.geo hc hd (by omega) hcz
  obtain ⟨r, hr⟩ : ∃ r, UserFreeList.markUsed h.mem h.freeList c (allocSize n) = r := ⟨_, rfl⟩
  rw [hr] at hD
  refine ⟨c, ⟨Function.update r.1 c (allocSize n), r.2, h.heapPos⟩, ps', z', ?_, ?_⟩
  · rw [← hr]
    exact hfind.map _
  -- the block is the piece `[c, c + allocSize n)` of the segment at `c`
  have hin : ∀ a, c ≤ a → a < c + allocSize n → Cover ps1 z1 a := fun a h1 h2 =>
    ⟨c, hc, h1, by omega⟩
  have hparts := hI1.parts.take (b := (⟨c, n⟩ : Block))
    (show c < c + allocSize n by omega) hin
  have hF : Free (Function.update r.1 c (allocSize n)) r.2 ps' z' := by
    refine free_congr hD.free fun p hp d hd => ?_
    have h1 : ¬ (c ≤ p ∧ p < c + allocSize n) := ((hD.cover p).mp
      ⟨p, hp, le_rfl, by have := (hD.geo.pos p hp).2; omega⟩).2
    have h2 : p + d ≠ c := by
      intro he
      have := hD.geo.unit_le hp
      exact ((hD.cover c).mp ⟨p, hp, by omega, by omega⟩).2 ⟨le_rfl, by omega⟩
    exact Function.update_of_ne h2 _ _
  refine ⟨hF, hD.geo, hD.apart hI1.apart, ?_, ?_, ?_, hparts.congr hD.cover, hI1.pos⟩
  · intro b hb
    rcases List.mem_cons.mp hb with rfl | hb
    · exact hsz
    · exact hI.size b hb
  · intro b hb
    rcases List.mem_cons.mp hb with rfl | hb
    · exact (hI1.geo.aligned c hc).1
    · exact hI.aligned b hb
  · intro b hb
    dsimp only at hb ⊢
    rcases List.mem_cons.mp hb with rfl | hb
    · exact Function.update_self _ _ _
    · have h1 := hI1.stop_le hb
      have h2 := hI1.block_segment hb hc
      rw [Function.update_of_ne (by omega), hD.frame _ (hI1.start_used hb)]
      exact hI1.header b hb

/-- **`free`** of a live block gives its bytes back to the free list. -/
theorem free_spec (hI : HeapInv s ps z) {b : Block} (hb : b ∈ s.live) :
    ∃ h ps' z', Halts (fun k => UserHeap.free k s.heap b.ptr) h ∧
      HeapInv ⟨h, s.live.erase b⟩ ps' z' := by
  have h0 : 0 < heapStart := by decide
  obtain ⟨hd, -, h64, -⟩ := allocSize_facts (hI.size b hb)
  obtain ⟨hs1, hs2, hs3⟩ := hI.stop_le hb
  have hpos := hI.pos
  have hstop : b.stop = b.start + allocSize b.size := rfl
  have hdis : ∀ p ∈ ps, p + z p ≤ b.start ∨ b.start + allocSize b.size ≤ p := fun p hp =>
    hI.block_segment hb hp
  obtain ⟨r, ps', z', hr, hD⟩ := UserFreeList.markFree_spec (by omega) hI.free hI.geo
    (b := b.start) (n := allocSize b.size) ⟨hI.aligned b hb, hd⟩ (by omega) (by omega)
    (by omega) hdis (Nat.lt_succ_self (ps.length + 1))
  refine ⟨⟨r.1, r.2, s.heap.heapPos⟩, ps', z',
    (free_steady s.heap b.ptr).halts (N := ps.length + 2) ?_, hD.free, hD.geo, hD.apart hI.apart,
    fun c hc => hI.size c (List.mem_of_mem_erase hc),
    fun c hc => hI.aligned c (List.mem_of_mem_erase hc), fun c hc => ?_,
    (hI.parts.give hb).congr hD.cover, hI.pos⟩
  · have hp : b.ptr - 16 = b.start := by unfold Block.ptr; omega
    unfold UserHeap.free
    rw [if_neg (by unfold Block.ptr; omega)]
    dsimp only
    rw [hp, hI.header b hb, hr]
    rfl
  · obtain ⟨hcb, hc'⟩ := hI.parts.nodup.mem_erase_iff.mp hc
    have h1 := hI.stop_le hc'
    have h2 := hI.parts.two hc' hb hcb
    have hout : ¬ (Cover ps z c.start ∨ b.start ≤ c.start ∧ c.start < b.start + allocSize b.size) := by
      intro hx
      rcases hx with h | h
      · exact hI.start_used hc' h
      · omega
    exact (hD.frame _ hout).trans (hI.header c hc')

/-- A write of the program into its payload touches neither a header nor the free memory. -/
theorem write_spec (hI : HeapInv s ps z) {b : Block} (hb : b ∈ s.live) {m : Mem}
    (hw : ∀ a, ¬ (b.ptr ≤ a ∧ a < b.stop) → m a = s.heap.mem a) :
    HeapInv ⟨{ s.heap with mem := m }, s.live⟩ ps z := by
  have hptr : b.ptr = b.start + 16 := rfl
  have hF : Free m s.heap.freeList ps z := by
    refine free_congr hI.free fun p hp d hd => hw _ ?_
    have h1 := hI.block_segment hb hp
    have h2 := hI.geo.unit_le hp
    omega
  refine ⟨hF, hI.geo, hI.apart, hI.size, hI.aligned, fun c hc => ?_, hI.parts, hI.pos⟩
  refine (hw c.start ?_).trans (hI.header c hc)
  by_cases hcb : c = b
  · subst hcb
    omega
  · have h1 := hI.parts.two hc hb hcb
    have h2 := (hI.stop_le hc).1
    omega

/-! ## 5. Whole runs -/

/-- Every step keeps the partition. -/
theorem heapInv_step {s' : Sys} {e : Event} (hI : HeapInv s ps z) (hs : sysStep s e s') :
    ∃ ps' z', HeapInv s' ps' z' := by
  cases hs with
  | malloc size fresh h p hask hr =>
      obtain ⟨c, h', ps', z', hr', hI'⟩ := malloc_spec hI hask fresh
      obtain ⟨rfl, rfl⟩ := Prod.mk.inj (hr.unique hr')
      exact ⟨ps', z', hI'⟩
  | free b h hb hr =>
      obtain ⟨h', ps', z', hr', hI'⟩ := free_spec hI hb
      rw [hr.unique hr']
      exact ⟨ps', z', hI'⟩
  | freeNull h hr =>
      have : h = s.heap := hr.unique (Halts.const _)
      rw [this]
      exact ⟨ps, z, hI⟩
  | write b m hb hw => exact ⟨ps, z, write_spec hI hb hw⟩

theorem heapInv_reach (h : Reach sysStep sysInit s) : ∃ ps z, HeapInv s ps z :=
  Reach.inv (I := fun s => ∃ ps z, HeapInv s ps z) (fun _ h0 => ⟨[], _, heapInv_init h0⟩)
    (fun _ _ _ ⟨_, _, hI⟩ hs => heapInv_step hI hs) h

/-- With no block live the free list is one segment, the whole heap. -/
theorem HeapInv.single (hI : HeapInv s ps z) (hl : s.live = [])
    (hpos : heapStart < s.heap.heapPos) :
    ps = [heapStart] ∧ z heapStart = s.heap.heapPos - heapStart := by
  have hparts := hI.parts
  rw [hl] at hparts
  obtain ⟨p, hp, h1, h2⟩ := hparts.all_free (Nat.le_refl _) hpos
  have hseg := hI.segment_le hp
  have hpb : p = heapStart := by omega
  subst hpb
  have hend := hI.apart.interval hI.geo hp h1 h2 fun x => hparts.all_free
  -- any other segment would lie inside this one
  have hall : ∀ q ∈ ps, q = heapStart := fun q hq => by
    by_contra hne
    have h3 := hI.segment_le hq
    have h4 := hI.geo.disjoint q hq heapStart hp hne
    have h5 := (hI.geo.pos q hq).2
    omega
  refine ⟨?_, by omega⟩
  have hrep := List.eq_replicate_of_mem hall
  have hlen : ps.length ≤ 1 := by
    have hnd := hI.free.rep.nodup
    rw [hrep] at hnd
    exact List.nodup_replicate.mp hnd
  have : ps.length = 1 := by
    have := List.length_pos_of_mem hp
    omega
  rw [hrep, this]
  rfl

end Inv

/-- What holds in every state between two calls. -/
structure Sound (s : Sys) : Prop where
  /-- Live blocks and free segments partition `[heapStart, heapPos)`, and no two segments touch. -/
  partition : ∃ ps z, HeapInv s ps z
  /-- The pointer the program holds has the bytes it asked for behind it. -/
  usable : ∀ b ∈ s.live, b.ptr + b.size ≤ b.stop
  /-- `malloc` returns, and not `nullptr`. -/
  allocates : ∀ size fresh, Asks s.heap size →
    ∃ h p, Halts (fun n => malloc n fresh s.heap size) (h, p) ∧ p ≠ 0
  /-- `free` of a live block returns. -/
  frees : ∀ b ∈ s.live, ∃ h, Halts (fun n => free n s.heap b.ptr) h
  /-- With every block freed the free list is the whole heap, one segment unless it is empty. -/
  whole : s.live = [] →
    s.heap.heapPos = heapStart ∧ s.heap.freeList = ⟨0, 0⟩ ∨
      ∃ z, Free s.heap.mem s.heap.freeList [heapStart] z ∧
        z heapStart = s.heap.heapPos - heapStart

/-- **The heap is partitioned in every state of every run**, and every call returns. -/
theorem user_heap_partition {s : Sys} (h : Reach sysStep sysInit s) : Sound s := by
  obtain ⟨ps, z, hI⟩ := heapInv_reach h
  refine ⟨⟨ps, z, hI⟩, fun b hb => ?_, fun size fresh hask => ?_, fun b hb => ?_, fun hl => ?_⟩
  · obtain ⟨-, hle, -⟩ := allocSize_facts (hI.size b hb)
    unfold Block.ptr Block.stop
    omega
  · obtain ⟨c, h', -, -, hr, -⟩ := malloc_spec hI hask fresh
    exact ⟨h', c + 16, hr, by omega⟩
  · obtain ⟨h', -, -, hr, -⟩ := free_spec hI hb
    exact ⟨h', hr⟩
  · rcases Nat.lt_or_ge heapStart s.heap.heapPos with hpos | hpos
    · obtain ⟨hps, hz⟩ := hI.single hl hpos
      exact Or.inr ⟨z, hps ▸ hI.free, hz⟩
    · refine Or.inl ⟨le_antisymm hpos hI.pos.1, ?_⟩
      have hnil : ps = [] := List.eq_nil_iff_forall_not_mem.mpr fun p hp => by
        have h1 := hI.segment_le hp
        have h2 := (hI.geo.pos p hp).2
        omega
      have hR := hI.free.rep
      rw [hnil] at hR
      calc s.heap.freeList = ⟨s.heap.freeList.head, s.heap.freeList.tail⟩ := rfl
        _ = ⟨0, 0⟩ := by rw [hR.head, hR.tail]; rfl

/-- A run that allocates 100 bytes: the heap grows by one page. -/
theorem user_heap_partition_one : ∃ s c, Reach sysStep sysInit s ∧ s.live = [⟨c, 100⟩] ∧ Sound s := by
  let s0 : Sys := ⟨⟨fun _ => 0, ⟨0, 0⟩, heapStart⟩, []⟩
  have h0 : sysInit s0 := ⟨rfl, rfl, rfl⟩
  have hask : Asks s0.heap 100 := ⟨by decide, fun _ => by decide⟩
  obtain ⟨c, h, -, -, hr, -⟩ := malloc_spec (heapInv_init h0) hask fun _ => 0
  have hreach := Reach.next _ _ _ (Reach.start s0 h0) (sysStep.malloc s0 100 _ h (c + 16) hask hr)
  exact ⟨_, c, hreach, rfl, user_heap_partition hreach⟩

end UserHeap

end SimpleOS2
