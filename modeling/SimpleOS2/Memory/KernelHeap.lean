/-
  File:      SimpleOS2/Memory/KernelHeap.lean
  Subject:   THE KERNEL HEAP (memory/KernelHeap.cpp): blocks with a header, cut from a free list.

  The heap owns the addresses `[heapBase, heapPos)`. A block is a 64-byte header, whose first cell
  holds the size of header and payload together, and the payload behind it; everything else lies
  in the free list of ktl/FreeList.h.

  * `reserveNew`, `allocate`, `free` -- the source's functions. Pages come from `AllocatePages`
    (which succeeds) with whatever they held before, the argument `fresh`;
  * `Sys`, `sysStep` -- a run: the heap with the blocks that are live, and the calls and client
    writes that make it go on;
  * `HeapInv`, `heapInv_reach` -- live blocks and free segments partition the heap;
  * `heap_partition` -- the main result, with the termination of every call.
-/
import SimpleOS2.Ktl.FreeList

namespace SimpleOS2

open Lib FreeList

namespace KernelHeap

/-! ## 1. The source's functions -/

/-- `HeapBase`. -/
def heapBase : Nat := (510 <<< 39) ||| 0xFFFF000000000000

theorem heapBase_eq : heapBase = 0xFFFFFF0000000000 := by decide

/-- The heap's variables, and the memory. -/
structure Heap where
  mem : Mem
  freeList : Ends Nat
  heapPos : Nat

/-- The bytes `Allocate(size)` takes off the free list. -/
def allocSize (size : Nat) : Nat := u64 (u64 (size + 63) / 64 * 64 + 64)

/-- The bytes `ReserveNew(size)` adds. -/
def reserveSize (size : Nat) : Nat := u64 (u64 (size + 4095) / 4096 * 4096)

/-- `ReserveNew`. The pages mapped at `heapPos` hold what `fresh` says. -/
def reserveNew (fuel : Nat) (fresh : Mem) (h : Heap) (size : Nat) : Option Heap :=
  let n := reserveSize size
  let mem : Mem := fun a => if h.heapPos ≤ a ∧ a < h.heapPos + n then fresh a else h.mem a
  (markFree fuel mem h.freeList h.heapPos n).map fun r => ⟨r.1, r.2, u64 (h.heapPos + n)⟩

/-- The first half of `Allocate`: find a segment, growing the heap if there is none. The pointer
    answered is the one handed to `MarkUsed`. -/
def findOrReserve (fuel : Nat) (fresh : Mem) (h : Heap) (size : Nat) : Option (Heap × Nat) :=
  (findFree fuel h.mem h.freeList size).bind fun g =>
    if g = 0 then
      (reserveNew fuel fresh h size).bind fun h =>
        (findFree fuel h.mem h.freeList size).map fun g => (h, g)
    else some (h, g)

/-- `Allocate`: the new heap and the pointer returned. -/
def allocate (fuel : Nat) (fresh : Mem) (h : Heap) (size : Nat) : Option (Heap × Nat) :=
  (findOrReserve fuel fresh h (allocSize size)).bind fun r =>
    (markUsed fuel r.1.mem r.1.freeList r.2 (allocSize size)).map fun q =>
      (⟨Function.update q.1 r.2 (allocSize size), q.2, r.1.heapPos⟩, r.2 + 64)

/-- `Free`. -/
def free (fuel : Nat) (h : Heap) (block : Nat) : Option Heap :=
  if block = 0 then some h
  else
    let b := block - 64
    (markFree fuel h.mem h.freeList b (h.mem b)).map fun r => ⟨r.1, r.2, h.heapPos⟩

theorem reserveNew_steady (fresh : Mem) (h : Heap) (size : Nat) :
    Steady fun n => reserveNew n fresh h size :=
  (markFree_steady _ _ _ _).map _

theorem free_steady (h : Heap) (block : Nat) : Steady fun n => free n h block := by
  by_cases hb : block = 0
  · simp only [free, hb, if_true]
    exact fun n r hr => hr
  · simp only [free, hb, if_false]
    exact (markFree_steady _ _ _ _).map _

/-! ## 2. Runs -/

/-- A live block: the address of its header, and the size that was asked for. -/
structure Block where
  start : Nat
  size : Nat
  deriving DecidableEq

/-- The pointer the client holds. -/
def Block.ptr (b : Block) : Nat := b.start + 64

/-- The end of the payload. -/
def Block.stop (b : Block) : Nat := b.start + allocSize b.size

/-- The heap, and the blocks handed out and not freed. -/
structure Sys where
  heap : Heap
  live : List Block

/-- The sizes of an `Allocate` do not overflow: neither the block's nor, when the heap has to
    grow, the heap's. -/
def NoOverflow (h : Heap) (size : Nat) : Prop :=
  size + 127 < 2 ^ 64 ∧
    (Halts (fun n => findFree n h.mem h.freeList (allocSize size)) 0 →
      h.heapPos + (allocSize size + 4095) / 4096 * 4096 < 2 ^ 64)

inductive Event where
  | alloc (size : Nat) (fresh : Mem)
  | free (b : Block)
  | freeNull
  | write (b : Block) (mem : Mem)

/-- One call, or one write of a client into its own block. -/
inductive sysStep : Sys → Event → Sys → Prop where
  | alloc (s : Sys) (size : Nat) (fresh : Mem) (h : Heap) (p : Nat) (hno : NoOverflow s.heap size)
      (hr : Halts (fun n => allocate n fresh s.heap size) (h, p)) :
      sysStep s (.alloc size fresh) ⟨h, ⟨p - 64, size⟩ :: s.live⟩
  | free (s : Sys) (b : Block) (h : Heap) (hb : b ∈ s.live)
      (hr : Halts (fun n => KernelHeap.free n s.heap b.ptr) h) :
      sysStep s (.free b) ⟨h, s.live.erase b⟩
  | freeNull (s : Sys) (h : Heap) (hr : Halts (fun n => KernelHeap.free n s.heap 0) h) :
      sysStep s .freeNull ⟨h, s.live⟩
  | write (s : Sys) (b : Block) (m : Mem) (hb : b ∈ s.live)
      (hw : ∀ a, ¬ (b.ptr ≤ a ∧ a < b.stop) → m a = s.heap.mem a) :
      sysStep s (.write b m) ⟨{ s.heap with mem := m }, s.live⟩

/-- The heap as the kernel starts: no segment, no block, nothing reserved. -/
def sysInit (s : Sys) : Prop :=
  s.heap.freeList = ⟨0, 0⟩ ∧ s.heap.heapPos = heapBase ∧ s.live = []

/-! ## 3. The invariant -/

/-- The addresses the live blocks occupy, headers included. -/
def InLive (live : List Block) (a : Nat) : Prop := ∃ b ∈ live, b.start ≤ a ∧ a < b.stop

/-- What `Allocate` asks of a size, in plain arithmetic. -/
theorem allocSize_of {size : Nat} (h : size + 127 < 2 ^ 64) :
    allocSize size = (size + 63) / 64 * 64 + 64 := by
  have h1 : u64 (size + 63) = size + 63 := u64_of_lt (by omega)
  unfold allocSize
  rw [h1, u64_of_lt (by omega)]

theorem allocSize_facts {size : Nat} (h : size + 127 < 2 ^ 64) :
    64 ∣ allocSize size ∧ 64 + size ≤ allocSize size ∧ allocSize size < 2 ^ 64 := by
  rw [allocSize_of h]
  omega

/-- **The heap is partitioned**: the free segments are disjoint and none touches another, the live
    blocks are disjoint, and every address of the heap is in one of the two and not in both. -/
structure HeapInv (s : Sys) (ps : List Nat) (z : Nat → Nat) : Prop where
  free : Free s.heap.mem s.heap.freeList ps z
  geo : Geo 64 ps z
  apart : Apart ps z
  size : ∀ b ∈ s.live, b.size + 127 < 2 ^ 64
  aligned : ∀ b ∈ s.live, 64 ∣ b.start
  header : ∀ b ∈ s.live, s.heap.mem b.start = allocSize b.size
  disjoint : s.live.Pairwise fun b c => b.stop ≤ c.start ∨ c.stop ≤ b.start
  whole : ∀ a, Cover ps z a ∨ InLive s.live a ↔ heapBase ≤ a ∧ a < s.heap.heapPos
  once : ∀ a, Cover ps z a → ¬ InLive s.live a
  pos : heapBase ≤ s.heap.heapPos ∧ s.heap.heapPos < 2 ^ 64 ∧ 4096 ∣ s.heap.heapPos

section Inv

variable {s : Sys} {ps : List Nat} {z : Nat → Nat}

theorem HeapInv.start_lt (hI : HeapInv s ps z) {b : Block} (hb : b ∈ s.live) :
    b.start + 64 ≤ b.stop ∧ heapBase ≤ b.start ∧ b.stop ≤ s.heap.heapPos := by
  have h1 := (allocSize_facts (hI.size b hb)).2.1
  have hlo := (hI.whole b.start).mp (Or.inr ⟨b, hb, le_rfl, by unfold Block.stop; omega⟩)
  have hhi := (hI.whole (b.stop - 1)).mp
    (Or.inr ⟨b, hb, by unfold Block.stop; omega, by unfold Block.stop; omega⟩)
  refine ⟨by unfold Block.stop; omega, hlo.1, by omega⟩

/-- A live block and a free segment do not overlap. -/
theorem HeapInv.block_segment (hI : HeapInv s ps z) {b : Block} (hb : b ∈ s.live) {p : Nat}
    (hp : p ∈ ps) : p + z p ≤ b.start ∨ b.stop ≤ p := by
  by_contra hno
  have h1 := (hI.start_lt hb).1
  have h2 := (hI.geo.pos p hp).2
  exact hI.once (max p b.start) ⟨p, hp, by omega, by omega⟩ ⟨b, hb, by omega, by omega⟩

/-- The header and the payload of a live block are outside the free memory. -/
theorem HeapInv.not_cover (hI : HeapInv s ps z) {b : Block} (hb : b ∈ s.live) {a : Nat}
    (h1 : b.start ≤ a) (h2 : a < b.stop) : ¬ Cover ps z a :=
  fun h => hI.once a h ⟨b, hb, h1, h2⟩

/-- A segment lies inside the heap. -/
theorem HeapInv.segment_le (hI : HeapInv s ps z) {p : Nat} (hp : p ∈ ps) :
    heapBase ≤ p ∧ p + z p ≤ s.heap.heapPos := by
  have h1 := (hI.geo.pos p hp).2
  have hlo := (hI.whole p).mp (Or.inl ⟨p, hp, le_rfl, by omega⟩)
  have hhi := (hI.whole (p + z p - 1)).mp (Or.inl ⟨p, hp, by omega, by omega⟩)
  omega

/-! ## 4. One call -/

theorem heapInv_init (h : sysInit s) : HeapInv s [] fun _ => 0 := by
  obtain ⟨h1, h2, h3⟩ := h
  have hnil : ∀ a, ¬ Cover [] (fun _ => 0) a := fun a ⟨p, hp, _⟩ => absurd hp List.not_mem_nil
  refine ⟨⟨?_, by simp, by simp⟩, ⟨by simp, by simp, by simp, by simp⟩, by simp [Apart],
    by simp [h3], by simp [h3], by simp [h3], by simp [h3], fun a => ?_, fun a h => absurd h (hnil a),
    ?_⟩
  · rw [h1]
    exact rep_nil _
  · rw [h2, h3]
    constructor
    · intro hx
      rcases hx with h | ⟨b, hb, _⟩
      · exact absurd h (hnil a)
      · exact absurd hb List.not_mem_nil
    · intro h
      omega
  · rw [h2, heapBase_eq]
    decide

/-- `ReserveNew` adds one segment at the end of the heap, large enough for what was asked. -/
theorem reserveNew_spec (hI : HeapInv s ps z) {n : Nat} (h0 : 0 < n)
    (hfit : s.heap.heapPos + (n + 4095) / 4096 * 4096 < 2 ^ 64) (fresh : Mem) :
    ∃ h ps' z', Halts (fun k => reserveNew k fresh s.heap n) h ∧ HeapInv ⟨h, s.live⟩ ps' z' ∧
      ∃ p ∈ ps', n ≤ z' p := by
  have hb := heapBase_eq
  obtain ⟨hp1, hp2, hp3⟩ := hI.pos
  have hn : reserveSize n = (n + 4095) / 4096 * 4096 := by
    have h1 : u64 (n + 4095) = n + 4095 := u64_of_lt (by omega)
    unfold reserveSize
    rw [h1, u64_of_lt (by omega)]
  have hk1 : n ≤ (n + 4095) / 4096 * 4096 ∧ 4096 ∣ (n + 4095) / 4096 * 4096 := by omega
  generalize (n + 4095) / 4096 * 4096 = k at *
  have hmem : ∀ a, a < s.heap.heapPos →
      (fun a => if s.heap.heapPos ≤ a ∧ a < s.heap.heapPos + k then fresh a
        else s.heap.mem a) a = s.heap.mem a := fun a ha => if_neg (by omega)
  generalize hm : (fun a => if s.heap.heapPos ≤ a ∧ a < s.heap.heapPos + k then fresh a
    else s.heap.mem a) = m at hmem
  -- the new pages do not disturb the list, which lies below them
  have hcell : ∀ p ∈ ps, ∀ d, d < 32 → m (p + d) = s.heap.mem (p + d) := fun p hp d hd => by
    have h1 := hI.segment_le hp
    have h2 := hI.geo.unit_le hp
    exact hmem _ (by omega)
  have hF : Free m s.heap.freeList ps z := free_congr hI.free hcell
  have hdis : ∀ p ∈ ps, p + z p ≤ s.heap.heapPos ∨ s.heap.heapPos + k ≤ p := fun p hp =>
    Or.inl (hI.segment_le hp).2
  obtain ⟨r, ps', z', hr, hD⟩ := markFree_spec (by omega) hF hI.geo
    (b := s.heap.heapPos) (n := k) ⟨by omega, by omega⟩ (by omega) (by omega) hfit hdis
    (Nat.lt_succ_self (ps.length + 1))
  have hcov := hD.cover
  refine ⟨⟨r.1, r.2, s.heap.heapPos + k⟩, ps', z',
    (reserveNew_steady fresh s.heap n).halts (N := ps.length + 2) ?_, ?_, ?_⟩
  · unfold reserveNew
    dsimp only
    rw [hn, hm, u64_of_lt hfit, hr]
    rfl
  · have hout : ∀ a, a < s.heap.heapPos → ¬ Cover ps z a → r.1 a = s.heap.mem a :=
      fun a ha hno => by
        rw [hD.frame a (by intro h; rcases h with h | h; exacts [hno h, by omega]), hmem a ha]
    refine ⟨hD.free, hD.geo, hD.apart hI.apart, hI.size, hI.aligned, fun b hb => ?_, hI.disjoint,
      fun a => ?_, fun a ha => ?_, by dsimp only; omega⟩
    · have h1 := hI.start_lt hb
      exact (hout _ (by omega) (hI.not_cover hb le_rfl (by omega))).trans (hI.header b hb)
    · have := hI.whole a
      rw [hcov a, or_right_comm, this]
      dsimp only
      omega
    · rcases (hcov a).mp ha with h | h
      · exact hI.once a h
      · intro hl
        have := (hI.whole a).mp (Or.inr hl)
        omega
  · obtain ⟨p, hp, h1, h2⟩ := (hcov s.heap.heapPos).mpr (Or.inr ⟨le_rfl, by omega⟩)
    -- the segment that holds the first new byte holds all of them
    have hle := (hD.apart hI.apart).interval hD.geo (b := s.heap.heapPos + k) hp h1 h2 fun x hx1 hx2 =>
      (hcov x).mpr (Or.inr ⟨hx1, hx2⟩)
    obtain ⟨hlo, -⟩ := hD.geo.pos p hp
    refine ⟨p, hp, by omega⟩

/-- **The search of `Allocate`** ends with a segment that is large enough, never with `nullptr`. -/
theorem findOrReserve_spec (hI : HeapInv s ps z) {n : Nat} (h0 : 0 < n) (fresh : Mem)
    (hfit : Halts (fun k => findFree k s.heap.mem s.heap.freeList n) 0 →
      s.heap.heapPos + (n + 4095) / 4096 * 4096 < 2 ^ 64) :
    ∃ h c ps' z', Halts (fun k => findOrReserve k fresh s.heap n) (h, c) ∧
      HeapInv ⟨h, s.live⟩ ps' z' ∧ c ∈ ps' ∧ n ≤ z' c := by
  obtain ⟨g, hg, hcase⟩ := findFree_spec hI.free n (Nat.lt_succ_self _)
  have hgH := (findFree_steady s.heap.mem s.heap.freeList n).halts hg
  rcases hcase with ⟨rfl, hsmall⟩ | ⟨hmem, hle⟩
  · -- the heap grows, and the second search meets the new segment
    obtain ⟨h, ps', z', hres, hI', p, hp, hnp⟩ := reserveNew_spec hI h0 (hfit hgH) fresh
    obtain ⟨c, hc, hcase⟩ := findFree_spec hI'.free n (Nat.lt_succ_self _)
    have hcH := (findFree_steady h.mem h.freeList n).halts hc
    rcases hcase with ⟨rfl, hno⟩ | ⟨hc1, hc2⟩
    · have := hno p hp
      omega
    · refine ⟨h, c, ps', z', hgH.bind ?_, hI', hc1, hc2⟩
      simp only [if_true]
      exact hres.bind (hcH.map fun g => (h, g))
  · have hg0 : g ≠ 0 := by have := (hI.geo.pos g hmem).1; omega
    refine ⟨s.heap, g, ps, z, hgH.bind ?_, hI, hmem, hle⟩
    simp only [hg0, if_false]
    exact Halts.const _

/-- **`Allocate`** cuts a block off a segment. -/
theorem allocate_spec (hI : HeapInv s ps z) {n : Nat} (hno : NoOverflow s.heap n) (fresh : Mem) :
    ∃ h c h' ps' z', Halts (fun k => findOrReserve k fresh s.heap (allocSize n)) (h, c) ∧ c ≠ 0 ∧
      Halts (fun k => allocate k fresh s.heap n) (h', c + 64) ∧
      HeapInv ⟨h', ⟨c, n⟩ :: s.live⟩ ps' z' := by
  obtain ⟨hsz, hgrow⟩ := hno
  obtain ⟨hd, hle, hlt⟩ := allocSize_facts hsz
  obtain ⟨h, c, ps1, z1, hfind, hI1, hc, hcz⟩ := findOrReserve_spec hI (by omega) fresh hgrow
  obtain ⟨r, ps', z', hr, hD⟩ := markUsed_spec (by omega) hI1.free hI1.geo hc hd
    (by omega) hcz (Nat.lt_succ_self _)
  have hused := (markUsed_steady h.mem h.freeList c (allocSize n)).halts hr
  have hc0 : c ≠ 0 := by have := (hI1.geo.pos c hc).1; omega
  refine ⟨h, c, ⟨Function.update r.1 c (allocSize n), r.2, h.heapPos⟩, ps', z', hfind, hc0,
    hfind.bind (hused.map _), ?_⟩
  -- the block is the piece `[c, c + allocSize n)` of the segment at `c`
  have hin : ∀ a, c ≤ a → a < c + allocSize n → Cover ps1 z1 a := fun a h1 h2 =>
    ⟨c, hc, h1, by omega⟩
  have hcov := hD.cover
  have hnew : ∀ b ∈ s.live, c + allocSize n ≤ b.start ∨ b.stop ≤ c := fun b hb => by
    have := hI1.block_segment hb hc
    omega
  have hseg : ∀ p ∈ ps', c + allocSize n ≤ p ∨ p + z' p ≤ c := fun p hp => by
    by_contra hno
    have h1 := (hD.geo.pos p hp).2
    exact ((hcov (max p c)).mp ⟨p, hp, by omega, by omega⟩).2 ⟨by omega, by omega⟩
  have hF : Free (Function.update r.1 c (allocSize n)) r.2 ps' z' := by
    refine free_congr hD.free fun p hp d hd => ?_
    have h1 := hseg p hp
    have h2 := hD.geo.unit_le hp
    exact Function.update_of_ne (by omega) _ _
  have hlive : ∀ a, InLive (⟨c, n⟩ :: s.live) a ↔ (c ≤ a ∧ a < c + allocSize n) ∨ InLive s.live a :=
    fun a => by simp [InLive, Block.stop]
  refine ⟨hF, hD.geo, hD.apart hI1.apart, ?_, ?_, ?_, ?_, fun a => ?_, fun a ha => ?_, hI1.pos⟩
  · intro b hb
    rcases List.mem_cons.mp hb with rfl | hb
    · exact hsz
    · exact hI.size b hb
  · intro b hb
    rcases List.mem_cons.mp hb with rfl | hb
    · exact (hI1.geo.aligned c hc).1
    · exact hI.aligned b hb
  · intro b hb
    dsimp only at hb ⊢
    rcases List.mem_cons.mp hb with rfl | hb
    · exact Function.update_self _ _ _
    · have h1 := hI1.start_lt hb
      have h2 := hnew b hb
      rw [Function.update_of_ne (by omega), hD.frame _ (hI1.not_cover hb le_rfl (by omega))]
      exact hI1.header b hb
  · exact List.pairwise_cons.mpr ⟨fun b hb => hnew b hb, hI.disjoint⟩
  · have hw := hI1.whole a
    dsimp only at hw ⊢
    rw [hcov a, hlive a, ← hw]
    constructor
    · intro hx
      rcases hx with ⟨h1, -⟩ | h1 | h1
      exacts [Or.inl h1, Or.inl (hin a h1.1 h1.2), Or.inr h1]
    · intro hx
      rcases hx with h1 | h1
      · by_cases h2 : c ≤ a ∧ a < c + allocSize n
        · exact Or.inr (Or.inl h2)
        · exact Or.inl ⟨h1, h2⟩
      · exact Or.inr (Or.inr h1)
  · obtain ⟨h1, h2⟩ := (hcov a).mp ha
    intro hl
    rcases (hlive a).mp hl with hl | hl
    · exact h2 hl
    · exact hI1.once a h1 hl

/-- The addresses of the live blocks without one of them. -/
theorem inLive_erase (hI : HeapInv s ps z) {b : Block} (hb : b ∈ s.live) (a : Nat) :
    InLive (s.live.erase b) a ↔ InLive s.live a ∧ ¬ (b.start ≤ a ∧ a < b.stop) := by
  have hsym : Std.Symm fun b c : Block => b.stop ≤ c.start ∨ c.stop ≤ b.start :=
    ⟨fun _ _ h => h.symm⟩
  have hnd : s.live.Nodup := by
    refine (List.Pairwise.and_mem.mp hI.disjoint).imp fun {x y} h e => ?_
    subst e
    have := (hI.start_lt h.1).1
    omega
  constructor
  · intro hx
    obtain ⟨c, hc, h1, h2⟩ := hx
    obtain ⟨hcb, hc'⟩ := (hnd.mem_erase_iff).mp hc
    have := hI.disjoint.forall hc' hb hcb
    exact ⟨⟨c, hc', h1, h2⟩, by omega⟩
  · intro hx
    obtain ⟨⟨c, hc, h1, h2⟩, hno⟩ := hx
    by_cases hcb : c = b
    · subst hcb
      exact absurd ⟨h1, h2⟩ hno
    · exact ⟨c, (hnd.mem_erase_iff).mpr ⟨hcb, hc⟩, h1, h2⟩

/-- **`Free`** of a live block gives its bytes back to the free list. -/
theorem free_spec (hI : HeapInv s ps z) {b : Block} (hb : b ∈ s.live) :
    ∃ h ps' z', Halts (fun k => KernelHeap.free k s.heap b.ptr) h ∧
      HeapInv ⟨h, s.live.erase b⟩ ps' z' := by
  have hbase := heapBase_eq
  obtain ⟨hd, hle, hlt⟩ := allocSize_facts (hI.size b hb)
  obtain ⟨hs1, hs2, hs3⟩ := hI.start_lt hb
  have hpos := hI.pos
  have hdis : ∀ p ∈ ps, p + z p ≤ b.start ∨ b.start + allocSize b.size ≤ p := fun p hp =>
    hI.block_segment hb hp
  obtain ⟨r, ps', z', hr, hD⟩ := markFree_spec (by omega) hI.free hI.geo
    (b := b.start) (n := allocSize b.size) ⟨hI.aligned b hb, hd⟩ (by omega) (by omega)
    (by unfold Block.stop at hs3; omega) hdis (Nat.lt_succ_self (ps.length + 1))
  have hcov := hD.cover
  have hlive := inLive_erase hI hb
  refine ⟨⟨r.1, r.2, s.heap.heapPos⟩, ps', z',
    (free_steady s.heap b.ptr).halts (N := ps.length + 2) ?_, hD.free, hD.geo, hD.apart hI.apart,
    fun c hc => hI.size c (List.mem_of_mem_erase hc),
    fun c hc => hI.aligned c (List.mem_of_mem_erase hc), fun c hc => ?_,
    hI.disjoint.sublist List.erase_sublist, fun a => ?_, fun a ha => ?_, hI.pos⟩
  · have hp : b.ptr - 64 = b.start := by unfold Block.ptr; omega
    unfold KernelHeap.free
    rw [if_neg (by unfold Block.ptr; omega)]
    dsimp only
    rw [hp, hI.header b hb, hr]
    rfl
  · have hc' := List.mem_of_mem_erase hc
    have h1 := (hI.start_lt hc').1
    have hno := ((hlive c.start).mp ⟨c, hc, le_rfl, by omega⟩).2
    have hframe := hD.frame c.start fun h => by
      rcases h with h | h
      · exact hI.not_cover hc' le_rfl (by omega) h
      · exact hno h
    exact hframe.trans (hI.header c hc')
  · have hw := hI.whole a
    dsimp only
    rw [hcov a, hlive a, ← hw]
    constructor
    · intro hx
      rcases hx with (h1 | h1) | ⟨h1, -⟩
      exacts [Or.inl h1, Or.inr ⟨b, hb, h1⟩, Or.inr h1]
    · intro hx
      rcases hx with h1 | h1
      · exact Or.inl (Or.inl h1)
      · by_cases h2 : b.start ≤ a ∧ a < b.stop
        · exact Or.inl (Or.inr h2)
        · exact Or.inr ⟨h1, h2⟩
  · intro hl
    obtain ⟨h1, h2⟩ := (hlive a).mp hl
    rcases (hcov a).mp ha with h | h
    · exact hI.once a h h1
    · exact h2 h

/-- A client's write into its payload touches neither a header nor the free memory. -/
theorem write_spec (hI : HeapInv s ps z) {b : Block} (hb : b ∈ s.live) {m : Mem}
    (hw : ∀ a, ¬ (b.ptr ≤ a ∧ a < b.stop) → m a = s.heap.mem a) :
    HeapInv ⟨{ s.heap with mem := m }, s.live⟩ ps z := by
  have hsym : Std.Symm fun b c : Block => b.stop ≤ c.start ∨ c.stop ≤ b.start :=
    ⟨fun _ _ h => h.symm⟩
  have hcell : ∀ p ∈ ps, ∀ d, d < 32 → m (p + d) = s.heap.mem (p + d) := fun p hp d hd => by
    have h1 := hI.block_segment hb hp
    have h2 := hI.geo.unit_le hp
    exact hw _ (by unfold Block.ptr; omega)
  have hF : Free m s.heap.freeList ps z := free_congr hI.free hcell
  refine ⟨hF, hI.geo, hI.apart, hI.size, hI.aligned, fun c hc => ?_, hI.disjoint, hI.whole, hI.once,
    hI.pos⟩
  refine (hw c.start ?_).trans (hI.header c hc)
  by_cases hcb : c = b
  · subst hcb
    unfold Block.ptr
    omega
  · have h1 := hI.disjoint.forall hc hb hcb
    have h2 := (hI.start_lt hc).1
    unfold Block.ptr
    omega

/-! ## 5. Whole runs -/

/-- Every step keeps the partition. -/
theorem heapInv_step {s' : Sys} {e : Event} (hI : HeapInv s ps z) (hs : sysStep s e s') :
    ∃ ps' z', HeapInv s' ps' z' := by
  cases hs with
  | alloc size fresh h p hno hr =>
      obtain ⟨-, c, h', ps', z', -, -, hr', hI'⟩ := allocate_spec hI hno fresh
      obtain ⟨rfl, rfl⟩ := Prod.mk.inj (hr.unique hr')
      exact ⟨ps', z', hI'⟩
  | free b h hb hr =>
      obtain ⟨h', ps', z', hr', hI'⟩ := free_spec hI hb
      rw [hr.unique hr']
      exact ⟨ps', z', hI'⟩
  | freeNull h hr =>
      have : h = s.heap := hr.unique (Halts.const _)
      rw [this]
      exact ⟨ps, z, hI⟩
  | write b m hb hw => exact ⟨ps, z, write_spec hI hb hw⟩

theorem heapInv_reach (h : Reach sysStep sysInit s) : ∃ ps z, HeapInv s ps z :=
  Reach.inv (I := fun s => ∃ ps z, HeapInv s ps z) (fun _ h0 => ⟨[], _, heapInv_init h0⟩)
    (fun _ _ _ ⟨_, _, hI⟩ hs => heapInv_step hI hs) h

/-- With no block live the free list is one segment, the whole heap. -/
theorem HeapInv.single (hI : HeapInv s ps z) (hl : s.live = [])
    (hpos : heapBase < s.heap.heapPos) :
    ps = [heapBase] ∧ z heapBase = s.heap.heapPos - heapBase := by
  have hcov : ∀ a, heapBase ≤ a → a < s.heap.heapPos → Cover ps z a := fun a h1 h2 => by
    rcases (hI.whole a).mpr ⟨h1, h2⟩ with h | ⟨b, hb, -⟩
    · exact h
    · rw [hl] at hb
      exact absurd hb List.not_mem_nil
  obtain ⟨p, hp, h1, h2⟩ := hcov heapBase le_rfl hpos
  have hseg := hI.segment_le hp
  have hpb : p = heapBase := by omega
  subst hpb
  have hend := hI.apart.interval hI.geo hp h1 h2 hcov
  -- any other segment would lie inside this one
  have hall : ∀ q ∈ ps, q = heapBase := fun q hq => by
    by_contra hne
    have h3 := hI.segment_le hq
    have h4 := hI.geo.disjoint q hq heapBase hp hne
    have h5 := (hI.geo.pos q hq).2
    omega
  refine ⟨?_, by omega⟩
  have hrep := List.eq_replicate_of_mem hall
  have hlen : ps.length ≤ 1 := by
    have hnd := hI.free.rep.nodup
    rw [hrep] at hnd
    exact List.nodup_replicate.mp hnd
  have : ps.length = 1 := by
    have := List.length_pos_of_mem hp
    omega
  rw [hrep, this]
  rfl

end Inv

/-- What holds in every state between two calls. -/
structure Sound (s : Sys) : Prop where
  /-- Live blocks and free segments partition `[heapBase, heapPos)`, and no two segments touch. -/
  partition : ∃ ps z, HeapInv s ps z
  /-- The pointer a client holds is aligned and has the bytes it asked for behind it. -/
  usable : ∀ b ∈ s.live, 64 ∣ b.ptr ∧ b.ptr + b.size ≤ b.stop
  /-- `Allocate` returns, and what it hands to `MarkUsed` is not `nullptr`. -/
  allocates : ∀ size fresh, NoOverflow s.heap size → ∃ h g h',
    Halts (fun n => findOrReserve n fresh s.heap (allocSize size)) (h, g) ∧ g ≠ 0 ∧
      Halts (fun n => allocate n fresh s.heap size) (h', g + 64)
  /-- `Free` of a live block returns. -/
  frees : ∀ b ∈ s.live, ∃ h, Halts (fun n => free n s.heap b.ptr) h
  /-- With every block freed the free list is the whole heap, one segment unless it is empty. -/
  whole : s.live = [] →
    s.heap.heapPos = heapBase ∧ s.heap.freeList = ⟨0, 0⟩ ∨
      ∃ z, Free s.heap.mem s.heap.freeList [heapBase] z ∧
        z heapBase = s.heap.heapPos - heapBase

/-- **The heap is partitioned in every state of every run**, and every call returns. -/
theorem heap_partition {s : Sys} (h : Reach sysStep sysInit s) : Sound s := by
  obtain ⟨ps, z, hI⟩ := heapInv_reach h
  refine ⟨⟨ps, z, hI⟩, fun b hb => ?_, fun size fresh hno => ?_, fun b hb => ?_, fun hl => ?_⟩
  · obtain ⟨hd, hle, -⟩ := allocSize_facts (hI.size b hb)
    have hal := hI.aligned b hb
    unfold Block.ptr Block.stop
    omega
  · obtain ⟨h1, g, h2, -, -, hfind, hg, hr, -⟩ := allocate_spec hI hno fresh
    exact ⟨h1, g, h2, hfind, hg, hr⟩
  · obtain ⟨h1, -, -, hr, -⟩ := free_spec hI hb
    exact ⟨h1, hr⟩
  · rcases Nat.lt_or_ge heapBase s.heap.heapPos with hpos | hpos
    · obtain ⟨hps, hz⟩ := hI.single hl hpos
      exact Or.inr ⟨z, hps ▸ hI.free, hz⟩
    · refine Or.inl ⟨le_antisymm hpos hI.pos.1, ?_⟩
      have hnil : ps = [] := List.eq_nil_iff_forall_not_mem.mpr fun p hp => by
        have h1 := hI.segment_le hp
        have h2 := (hI.geo.pos p hp).2
        omega
      have hR := hI.free.rep
      rw [hnil] at hR
      calc s.heap.freeList = ⟨s.heap.freeList.head, s.heap.freeList.tail⟩ := rfl
        _ = ⟨0, 0⟩ := by rw [hR.head, hR.tail]; rfl

/-- A run that allocates 100 bytes: the heap grows by one page. -/
theorem heap_partition_one : ∃ s c, Reach sysStep sysInit s ∧ s.live = [⟨c, 100⟩] ∧ Sound s := by
  let s0 : Sys := ⟨⟨fun _ => 0, ⟨0, 0⟩, heapBase⟩, []⟩
  have h0 : sysInit s0 := ⟨rfl, rfl, rfl⟩
  have hno : NoOverflow s0.heap 100 := ⟨by decide, fun _ => by decide⟩
  obtain ⟨-, c, h, -, -, -, -, hr, -⟩ := allocate_spec (heapInv_init h0) hno fun _ => 0
  have hreach := Reach.next _ _ _ (Reach.start s0 h0) (sysStep.alloc s0 100 _ h (c + 64) hno hr)
  exact ⟨_, c, hreach, rfl, heap_partition hreach⟩

end KernelHeap

end SimpleOS2
