/-
  File:      SimpleOS2/Memory/PageRuns.lean
  Subject:   WHAT `AllocatePages` ANSWERS (memory/MemoryManager.cpp over ktl/FreeList.h), in any run.

  The boot loader hands over segments of free memory, each with its `PhysicalMapSegment` in its first bytes, and
  `FreeList::Init` makes the free list of them as they are. A run of free pages is found if it lies in one segment:
  so no two segments may touch, which `MarkFree` and `MarkUsed` take care of and `Init` does not. The answer is a
  physical address, and 0 stands for failure as well.

  * `FreeList.init`, `init_spec` -- the list of the segments;
  * `findFree_find` -- the segment that is taken: the first one that is large enough;
  * `FreePage`, `RunFree`, `Allocated` -- what a call should answer;
  * `pageStep`, `PageInv`, `pageInv_step` -- calls and writes;
  * `page_allocator` -- the answer is right if and only if that segment does not start at 0; `page_zero`.
-/
import Mathlib.Data.List.Find
import SimpleOS2.Memory.Conservation

namespace SimpleOS2

open Lib

namespace FreeList

/-! ## 1. `FreeList::Init` -/

/-- `list->numPages`, `list->next`, of a `PhysicalMapSegment`. -/
def numPages (m : Mem) (list : Nat) : Nat := m (list + 8)

def nextSegment (m : Mem) (list : Nat) : Nat := m (list + 16)

/-- `Init`. The node takes the place of the structure it is read from. -/
def init : (fuel : Nat) → Mem → Ends Nat → (list : Nat) → Option (Mem × Ends Nat)
  | 0, _, _, _ => none
  | fuel + 1, m, l, list =>
      if list = 0 then some (m, l)
      else
        let size := u64 (numPages m list * 4096)
        let next := nextSegment m list
        let r := pushBack anchor (setSegment m list list size) l list
        init fuel r.1 r.2 next

/-- The segments at `ps` are handed over in this order, the one at `p` being `z p` bytes long. -/
def Handed (m : Mem) (z : Nat → Nat) : (list : Nat) → List Nat → Prop
  | list, [] => list = 0
  | list, p :: ps => list = p ∧ numPages m p * 4096 = z p ∧ Handed m z (nextSegment m p) ps

section Init

variable {m m' : Mem} {l : Ends Nat} {ps qs : List Nat} {z : Nat → Nat} {list : Nat}

theorem Handed.congr (h : Handed m z list ps) (hm : ∀ p ∈ ps, ∀ k < 32, m' (p + k) = m (p + k)) :
    Handed m' z list ps := by
  induction ps generalizing list with
  | nil => exact h
  | cons p ps ih =>
      obtain ⟨h1, h2, h3⟩ := h
      have hp := hm p List.mem_cons_self
      refine ⟨h1, ?_, ?_⟩
      · rw [numPages, hp 8 (by decide)]
        exact h2
      · rw [nextSegment, hp 16 (by decide)]
        exact ih h3 fun q hq => hm q (List.mem_cons_of_mem _ hq)

/-- **`Init`** makes the list of the segments as they are handed over. -/
theorem init_spec (hF : Free m l qs z) (hG : Geo 4096 (qs ++ ps) z) (hnd : (qs ++ ps).Nodup)
    (hh : Handed m z list ps) {fuel : Nat} (hf : ps.length < fuel) :
    ∃ m' l', init fuel m l list = some (m', l') ∧ Free m' l' (qs ++ ps) z := by
  induction ps generalizing m l qs list fuel with
  | nil =>
      obtain ⟨fuel, rfl⟩ : ∃ k, fuel = k + 1 := ⟨fuel - 1, by simp at hf; omega⟩
      obtain rfl : list = 0 := hh
      exact ⟨m, l, rfl, by rwa [List.append_nil]⟩
  | cons p ps ih =>
      obtain ⟨fuel, rfl⟩ : ∃ k, fuel = k + 1 := ⟨fuel - 1, by simp at hf; omega⟩
      obtain ⟨rfl, hz, hnext⟩ := hh
      have hmem : list ∈ qs ++ list :: ps := List.mem_append_right _ List.mem_cons_self
      have hpos := hG.pos list hmem
      have hbound := hG.bound list hmem
      have hsize : u64 (numPages m list * 4096) = z list := by
        rw [hz]
        exact u64_of_lt (by omega)
      have hle : 4096 ≤ z list := hG.unit_le hmem
      have hGq : Geo 4096 qs z :=
        ⟨fun q hq => hG.aligned q (List.mem_append_left _ hq), fun q hq => hG.pos q (List.mem_append_left _ hq),
          fun q hq => hG.bound q (List.mem_append_left _ hq), fun q hq r hr =>
            hG.disjoint q (List.mem_append_left _ hq) r (List.mem_append_left _ hr)⟩
      have hne : ∀ q, q ∈ qs ∨ q ∈ ps → q ≠ list := by
        rintro q hq rfl
        rw [List.nodup_append] at hnd
        rcases hq with hq | hq
        · exact hnd.2.2 q hq q List.mem_cons_self rfl
        · exact (List.nodup_cons.mp hnd.2.1).1 hq
      have hdis : ∀ q, q ∈ qs ∨ q ∈ ps → q + z q ≤ list ∨ list + z list ≤ q := by
        intro q hq
        have hq' : q ∈ qs ++ list :: ps := by
          rcases hq with hq | hq
          · exact List.mem_append_left _ hq
          · exact List.mem_append_right _ (List.mem_cons_of_mem _ hq)
        exact hG.disjoint q hq' list hmem (hne q hq)
      obtain ⟨hF', hframe⟩ := push_segment (by decide) hF hGq hpos.1 (by omega : 32 ≤ z list)
        fun q hq => hdis q (Or.inl hq)
      rw [Function.update_eq_self] at hF'
      obtain ⟨r, hr⟩ : ∃ r, pushBack anchor (setSegment m list list (z list)) l list = r := ⟨_, rfl⟩
      rw [hr] at hF' hframe
      -- the segments that follow are not written to
      have hnext' : Handed r.1 z (nextSegment m list) ps := by
        refine hnext.congr fun q hq k hk => hframe _ ?_
        have hq' : q ∈ qs ++ list :: ps := List.mem_append_right _ (List.mem_cons_of_mem _ hq)
        have hqle := hG.unit_le hq'
        have hql := hdis q (Or.inr hq)
        intro hx
        rcases hx with ⟨q', hq1, h1, h2⟩ | h
        · have hqq : q' ≠ q := by
            rintro rfl
            rw [List.nodup_append] at hnd
            exact hnd.2.2 q' hq1 q' (List.mem_cons_of_mem _ hq) rfl
          have := hG.disjoint q' (List.mem_append_left _ hq1) q hq' hqq
          omega
        · omega
      have happ : qs ++ list :: ps = (qs ++ [list]) ++ ps := by rw [List.append_assoc, List.singleton_append]
      obtain ⟨m', l', hinit, hfree⟩ := ih hF' (happ ▸ hG) (happ ▸ hnd) hnext' (by simpa using hf)
      refine ⟨m', l', ?_, happ ▸ hfree⟩
      rw [init, if_neg (by omega), hsize]
      dsimp only
      rw [hr]
      exact hinit

/-! ## 2. The segment that is found -/

theorem findFreeFrom_find {n p : Nat} {xs : List Nat} (hL : Linked anchor m p xs 0) (hn : ∀ x ∈ xs, x ≠ 0)
    (hz : ∀ x ∈ xs, size m x = z x) {fuel : Nat} (hf : xs.length < fuel) :
    findFreeFrom m n fuel (xs.headD 0) = some ((xs.find? fun x => n ≤ z x).getD 0) := by
  induction xs generalizing p fuel with
  | nil =>
      obtain ⟨fuel, rfl⟩ : ∃ k, fuel = k + 1 := ⟨fuel - 1, by simp at hf; omega⟩
      rfl
  | cons x xs ih =>
      obtain ⟨fuel, rfl⟩ : ∃ k, fuel = k + 1 := ⟨fuel - 1, by simp at hf; omega⟩
      obtain ⟨-, h2, h3⟩ := hL
      have h2' : m x = xs.headD 0 := h2
      have hx := hz x List.mem_cons_self
      simp only [findFreeFrom, List.headD_cons, hn x List.mem_cons_self, if_false, h2', hx]
      by_cases hge : n ≤ z x
      · simp only [ge_iff_le, hge, if_true, List.find?_cons, decide_true, Option.getD_some]
      · simp only [ge_iff_le, hge, if_false, List.find?_cons, decide_false]
        exact ih h3 (fun y hy => hn y (List.mem_cons_of_mem _ hy)) (fun y hy => hz y (List.mem_cons_of_mem _ hy))
          (by simpa using hf)

/-- **`FindFree`** takes the first segment that is large enough. -/
theorem findFree_find (hF : Free m l ps z) (n : Nat) {fuel : Nat} (hf : ps.length < fuel) :
    findFree fuel m l n = some ((ps.find? fun p => n ≤ z p).getD 0) := by
  unfold findFree
  rw [hF.rep.head]
  exact findFreeFrom_find hF.rep.linked hF.rep.notNull hF.size hf

/-- A list in memory has its segments, and their sizes. -/
theorem Free.apart {z' : Nat → Nat} (hF : Free m l ps z) (hF' : Free m l qs z') (hA : Apart ps z) : Apart qs z' := by
  obtain rfl := hF.rep.unique hF'.rep
  have hz : ∀ p ∈ ps, z' p = z p := fun p hp => (hF'.size p hp).symm.trans (hF.size p hp)
  intro p hp q hq hne
  have := hA p hp q hq hne
  unfold Sep at this ⊢
  rw [hz p hp, hz q hq]
  exact this

end Init

end FreeList

namespace MemoryManager

open FreeList

/-! ## 3. Free pages -/

/-- The page is in the free list. -/
def FreePage (s : Mm) (p : Nat) : Prop :=
  4096 ∣ p ∧ ∃ ps z, Free s.mem s.freeList ps z ∧ Cover ps z (physToKernelPtr p)

/-- The `n` pages from `b` on are free. -/
def RunFree (s : Mm) (b n : Nat) : Prop := 4096 ∣ b ∧ ∀ p, InRun b n p → FreePage s p

/-- What `AllocatePages(n)` should answer: `nullptr` if there is no run of `n` free pages, and then nothing changes;
    otherwise such a run, which is not free afterwards, as all other free pages are. -/
structure Allocated (s : Mm) (n : Nat) (r : Mm × Nat) : Prop where
  null : r.2 = 0 ↔ ¬ ∃ b, RunFree s b n
  none : r.2 = 0 → ∀ p, FreePage r.1 p ↔ FreePage s p
  run : r.2 ≠ 0 → RunFree s r.2 n ∧ ∀ p, FreePage r.1 p ↔ FreePage s p ∧ ¬ InRun r.2 n p

/-- The first segment of the list that has `n` pages is the one at physical address 0. -/
def FirstFitAtZero (s : Mm) (n : Nat) : Prop :=
  ∃ ps z, Free s.mem s.freeList ps z ∧ (ps.find? fun p => n * 4096 ≤ z p) = some (physToKernelPtr 0)

/-- The allocator is in order, and no two segments touch. -/
def PageInv (pool : Nat → Prop) (s : Mm) : Prop :=
  ∃ own ps z, AllocInv pool s own ps z ∧ Apart ps z

section Free

variable {pool : Nat → Prop} {s s' : Mm} {own : Nat → Nat} {ps : List Nat} {z : Nat → Nat} {n p : Nat}

theorem freePage_iff (hp : Managed pool) (hI : AllocInv pool s own ps z) : FreePage s p ↔ pool p ∧ own p = 0 := by
  constructor
  · intro hx
    obtain ⟨hd, ps', z', hF, c, hc, h1, h2⟩ := hx
    obtain rfl := hF.rep.unique hI.free.rep
    have hz : z' c = z c := (hF.size c hc).symm.trans (hI.free.size c hc)
    obtain ⟨q, hq, hq0, hin⟩ := (hI.cover (physToKernelPtr p)).mp ⟨c, hc, h1, hz ▸ h2⟩
    obtain rfl : p = q := InPage.inj hd (hp q hq).1 ⟨Nat.le_refl _, Nat.lt_add_of_pos_right (by decide)⟩ hin
    exact ⟨hq, hq0⟩
  · intro hx
    obtain ⟨h1, h2⟩ := hx
    exact ⟨(hp p h1).1, ps, z, hI.free, (hI.cover _).mpr
      ⟨p, h1, h2, Nat.le_refl _, Nat.lt_add_of_pos_right (by decide)⟩⟩

/-- A segment holds a run of free pages, and a run of free pages lies in one segment. -/
theorem runFree_segment (hp : Managed pool) (hI : AllocInv pool s own ps z) (hA : Apart ps z) (h0 : 0 < n) :
    (∃ b, RunFree s b n) ↔ ∃ c ∈ ps, n * 4096 ≤ z c := by
  constructor
  · intro hx
    obtain ⟨b, hb, hrun⟩ := hx
    have hcov : ∀ a, physToKernelPtr b ≤ a → a < physToKernelPtr b + n * 4096 → Cover ps z a := by
      intro a h1 h2
      have hin : InRun b n (b + (a - physToKernelPtr b) / 4096 * 4096) := ⟨by omega, by omega, by omega⟩
      obtain ⟨hpool, hown⟩ := (freePage_iff hp hI).mp (hrun _ hin)
      refine (hI.cover a).mpr ⟨_, hpool, hown, ?_⟩
      unfold InPage physToKernelPtr at *
      omega
    obtain ⟨c, hc, h1, h2⟩ := hcov (physToKernelPtr b) (Nat.le_refl _) (by omega)
    have hend := hA.interval hI.geo hc h1 h2 hcov
    exact ⟨c, hc, by omega⟩
  · intro hx
    obtain ⟨c, hc, hle⟩ := hx
    have hhigh := hI.segment_high hc
    have hd := (hI.geo.aligned c hc).1
    have hh := highMemBase_eq
    refine ⟨kernelToPhysPtr c, by unfold kernelToPhysPtr; omega, ?_⟩
    intro p hx
    obtain ⟨h1, h2, h3⟩ := hx
    refine ⟨h1, ps, z, hI.free, c, hc, ?_, ?_⟩ <;> unfold kernelToPhysPtr physToKernelPtr at * <;> omega

theorem find_segment {c : Nat} (h : (ps.find? fun p => n * 4096 ≤ z p) = some c) : c ∈ ps ∧ n * 4096 ≤ z c :=
  ⟨List.mem_of_find?_eq_some h, by simpa using List.find?_some h⟩

/-- **`AllocatePages`**, by the segment it finds: the answer comes with any fuel past the length of the list. -/
theorem allocatePages_find (hI : AllocInv pool s own ps z) (h0 : 0 < n) (hn : n * 4096 < 2 ^ 64) :
    ((ps.find? fun p => n * 4096 ≤ z p) = none → ∀ k, ps.length < k →
      allocatePages k s n = some ({ s with failed := true }, 0)) ∧
    ∀ c, (ps.find? fun p => n * 4096 ≤ z p) = some c → ∃ (r : Mem × Ends Nat) (ps' : List Nat) (z' : Nat → Nat),
      (∀ k, ps.length < k → allocatePages k s n =
        some ({ s with mem := r.1, freeList := r.2 }, kernelToPhysPtr c)) ∧
      Done 4096 s.mem (Apart ps z) (fun a => Cover ps z a ∧ ¬ (c ≤ a ∧ a < c + n * 4096))
      (Cover ps z) r.1 r.2 ps' z' := by
  have hu : u64 (n * 4096) = n * 4096 := u64_of_lt hn
  constructor
  · intro hnone k hk
    unfold allocatePages
    dsimp only
    rw [hu, findFree_find hI.free _ hk, hnone, Option.getD_none, Option.bind_some, if_pos rfl]
  · intro c hfind
    obtain ⟨hmem, hle⟩ := find_segment hfind
    obtain ⟨r, ps', z', hr, hD⟩ := markUsed_spec (by decide) hI.free hI.geo hmem (n := n * 4096)
      ⟨n, Nat.mul_comm _ _⟩ (by omega) hle (Nat.lt_succ_self _)
    have hc0 : c ≠ 0 := by
      have := (hI.geo.pos c hmem).1
      omega
    refine ⟨r, ps', z', fun k hk => ?_, hD⟩
    unfold allocatePages
    dsimp only
    rw [hu, findFree_find hI.free _ hk, hfind, Option.getD_some, Option.bind_some, if_neg hc0,
      (markUsed_steady s.mem s.freeList c (n * 4096)).after hr hk, Option.map_some]

theorem firstFit_iff (hF : Free s.mem s.freeList ps z) (n : Nat) :
    FirstFitAtZero s n ↔ (ps.find? fun p => n * 4096 ≤ z p) = some (physToKernelPtr 0) := by
  refine ⟨?_, fun h => ⟨ps, z, hF, h⟩⟩
  intro hx
  obtain ⟨ps', z', hF', h⟩ := hx
  obtain rfl := hF'.rep.unique hF.rep
  rw [← h]
  refine List.find?_congr fun p hp => ?_
  rw [← hF.size p hp, hF'.size p hp]

/-- **A call** answers as it should if and only if the segment it finds does not start at physical address 0. -/
theorem allocated_iff (hp : Managed pool) (hI : AllocInv pool s own ps z) (hA : Apart ps z) (h0 : 0 < n)
    (hn : n * 4096 < 2 ^ 64) : ∃ r, Halts (fun k => allocatePages k s n) r ∧ PageInv pool r.1 ∧
      (Allocated s n r ↔ ¬ FirstFitAtZero s n) := by
  obtain ⟨hnone, hsome⟩ := allocatePages_find hI h0 hn
  have hseg := runFree_segment hp hI hA h0
  rw [firstFit_iff hI.free]
  cases hfind : ps.find? fun p => n * 4096 ≤ z p with
  | none =>
      refine ⟨_, ⟨ps.length + 1, fun k hk => hnone hfind k hk⟩,
        ⟨own, ps, z, ⟨hI.free, hI.geo, hI.cover, hI.once, hI.managed⟩, hA⟩, fun _ h => (by cases h), fun _ => ?_⟩
      refine ⟨⟨fun _ h => ?_, fun _ => rfl⟩, fun _ p => Iff.rfl, fun h => absurd rfl h⟩
      obtain ⟨c, hc, hle⟩ := hseg.mp h
      have := List.find?_eq_none.mp hfind c hc
      exact this (decide_eq_true hle)
  | some c =>
      obtain ⟨r, ps', z', hr, hD⟩ := hsome c hfind
      obtain ⟨hmem, hle⟩ := find_segment hfind
      have hrun : ∃ b, RunFree s b n := hseg.mpr ⟨c, hmem, hle⟩
      have hhigh := hI.segment_high hmem
      have hH : Halts (fun k => allocatePages k s n) ({ s with mem := r.1, freeList := r.2 }, kernelToPhysPtr c) :=
        ⟨ps.length + 1, fun k hk => hr k hk⟩
      obtain ⟨r', hH', ⟨ps1, z1, hI1⟩, -, -, hd, hfree, -⟩ := (allocatePages_spec hp hI h0 hn).halts fun hsmall => by
        have := hsmall c hmem
        omega
      obtain rfl := hH'.unique hH
      have hA1 : Apart ps1 z1 := hD.free.apart hI1.free (hD.apart hA)
      refine ⟨_, hH, ⟨_, ps1, z1, hI1, hA1⟩, fun h hzero => ?_, fun hne => ?_⟩
      · refine h.null.mp ?_ hrun
        rw [Option.some.inj hzero]
        exact Nat.sub_eq_zero_of_le (Nat.le_of_eq (Nat.zero_add _))
      · have hc0 : kernelToPhysPtr c ≠ 0 := by
          intro h
          refine hne (congrArg some ?_)
          unfold kernelToPhysPtr at h
          unfold physToKernelPtr
          omega
        refine ⟨⟨fun h => absurd h hc0, fun h => absurd hrun h⟩, fun h => absurd h hc0,
          fun _ => ⟨⟨hd, fun p hin => ?_⟩, ?_⟩⟩
        · exact (freePage_iff hp hI).mpr (hfree p hin)
        · intro p
          rw [freePage_iff hp hI1, freePage_iff hp hI, and_assoc]
          refine and_congr_right fun _ => ?_
          dsimp only
          split_ifs with hin
          · exact ⟨fun h => h.elim, fun h => absurd hin h.2⟩
          · exact ⟨fun h => ⟨h, hin⟩, fun h => h.1⟩

end Free

/-! ## 4. Runs -/

/-- A segment of free memory: its physical address, and its pages. -/
structure Segment where
  base : Nat
  numPages : Nat
  deriving DecidableEq

/-- The pages of the segments. -/
def poolOf (segs : List Segment) (p : Nat) : Prop := ∃ g ∈ segs, InRun g.base g.numPages p

/-- Whole pages inside the kernel's window. No two segments overlap or touch. -/
structure HandedOver (segs : List Segment) : Prop where
  aligned : ∀ g ∈ segs, 4096 ∣ g.base ∧ 0 < g.numPages
  window : ∀ g ∈ segs, g.base + g.numPages * 4096 < 2 ^ 39
  apart : segs.Pairwise fun g h => g.base + g.numPages * 4096 < h.base ∨ h.base + h.numPages * 4096 < g.base

/-- The start: `Init` has made the list of the segments. -/
def pageInit (segs : List Segment) (s : Mm) : Prop :=
  ∃ m z list, (∀ g ∈ segs, z (physToKernelPtr g.base) = g.numPages * 4096) ∧
    Handed m z list (segs.map fun g => physToKernelPtr g.base) ∧
    Halts (fun k => init k m ⟨0, 0⟩ list) (s.mem, s.freeList)

inductive PageEvent where
  | alloc (n : Nat)
  | free (b n : Nat)
  | write (q : Nat) (mem : Mem)

/-- A call of `AllocatePages`, whatever it answers, a call of `FreePages`, or a write into a page. -/
inductive pageStep : Mm → PageEvent → Mm → Prop where
  | alloc (s : Mm) (n : Nat) (r : Mm × Nat) (h : Halts (fun k => allocatePages k s n) r) : pageStep s (.alloc n) r.1
  | free (s : Mm) (b n : Nat) (s' : Mm) (h : Halts (fun k => freePages k s b n) s') : pageStep s (.free b n) s'
  | write (s : Mm) (q : Nat) (m : Mem) (h : ∀ a, ¬ InPage q a → m a = s.mem a) :
      pageStep s (.write q m) { s with mem := m }

/-- A page that is managed and has been handed out. -/
def InUse (pool : Nat → Prop) (s : Mm) (p : Nat) : Prop := pool p ∧ ¬ FreePage s p

/-- Calls for some pages, whose bytes can be counted, that do not find the segment at 0; and pages are given back and
    written to only while they are in use. -/
def proper (pool : Nat → Prop) (s : Mm) : PageEvent → Prop
  | .alloc n => 0 < n ∧ n * 4096 < 2 ^ 64 ∧ ¬ FirstFitAtZero s n
  | .free b n => 0 < n ∧ 4096 ∣ b ∧ ∀ p, InRun b n p → InUse pool s p
  | .write q _ => InUse pool s q

section Run

variable {pool : Nat → Prop} {s s' : Mm} {segs : List Segment}

theorem poolOf_managed (hh : HandedOver segs) : Managed (poolOf segs) := by
  intro p hx
  obtain ⟨g, hg, h1, h2, h3⟩ := hx
  have hw := hh.window g hg
  have hd := (hh.aligned g hg).1
  exact ⟨h1, by omega⟩

/-- Segments handed over, as segments of a free list. -/
theorem geo_handed {z : Nat → Nat} (hh : HandedOver segs)
    (hz : ∀ g ∈ segs, z (physToKernelPtr g.base) = g.numPages * 4096) :
    Geo 4096 (segs.map fun g => physToKernelPtr g.base) z ∧ Apart (segs.map fun g => physToKernelPtr g.base) z ∧
      (segs.map fun g => physToKernelPtr g.base).Nodup := by
  have hb := highMemBase_eq
  have hsep : ∀ g ∈ segs, ∀ g' ∈ segs, physToKernelPtr g.base ≠ physToKernelPtr g'.base →
      g.base + g.numPages * 4096 < g'.base ∨ g'.base + g'.numPages * 4096 < g.base := by
    intro g hg g' hg' hne
    have hsymm : Std.Symm fun g h : Segment =>
        g.base + g.numPages * 4096 < h.base ∨ h.base + h.numPages * 4096 < g.base := ⟨fun _ _ h => h.symm⟩
    exact hh.apart.forall hg hg' fun heq => hne (heq ▸ rfl)
  have hone : ∀ g ∈ segs, 4096 ∣ physToKernelPtr g.base ∧ 4096 ∣ z (physToKernelPtr g.base) ∧
      0 < physToKernelPtr g.base ∧ 0 < z (physToKernelPtr g.base) ∧
      physToKernelPtr g.base + z (physToKernelPtr g.base) < 2 ^ 64 := by
    intro g hg
    have h1 := hh.aligned g hg
    have h2 := hh.window g hg
    rw [hz g hg]
    unfold physToKernelPtr
    omega
  refine ⟨⟨fun c hc => ?_, fun c hc => ?_, fun c hc => ?_, fun c hc d hd hne => ?_⟩, fun c hc d hd hne => ?_,
    List.pairwise_map.mpr (hh.apart.imp fun {g h} hsep heq => ?_)⟩
  · obtain ⟨g, hg, rfl⟩ := List.mem_map.mp hc
    exact ⟨(hone g hg).1, (hone g hg).2.1⟩
  · obtain ⟨g, hg, rfl⟩ := List.mem_map.mp hc
    exact ⟨(hone g hg).2.2.1, (hone g hg).2.2.2.1⟩
  · obtain ⟨g, hg, rfl⟩ := List.mem_map.mp hc
    exact (hone g hg).2.2.2.2
  · obtain ⟨g, hg, rfl⟩ := List.mem_map.mp hc
    obtain ⟨g', hg', rfl⟩ := List.mem_map.mp hd
    have := hsep g hg g' hg' hne
    rw [hz g hg, hz g' hg']
    unfold physToKernelPtr
    omega
  · obtain ⟨g, hg, rfl⟩ := List.mem_map.mp hc
    obtain ⟨g', hg', rfl⟩ := List.mem_map.mp hd
    have := hsep g hg g' hg' hne
    unfold FreeList.Sep
    rw [hz g hg, hz g' hg']
    unfold physToKernelPtr
    omega
  · have hbase : g.base = h.base := Nat.add_right_cancel heq
    omega

/-- The list as `Init` leaves it. -/
theorem pageInit_free (hh : HandedOver segs) (h : pageInit segs s) :
    ∃ z, (∀ g ∈ segs, z (physToKernelPtr g.base) = g.numPages * 4096) ∧
      Free s.mem s.freeList (segs.map fun g => physToKernelPtr g.base) z := by
  obtain ⟨m, z, list, hz, hlist, N, hN⟩ := h
  obtain ⟨hG, -, hnd⟩ := geo_handed hh hz
  have hempty : Free m ⟨0, 0⟩ [] z :=
    ⟨rep_nil _, fun _ h => absurd h List.not_mem_nil, fun _ h => absurd h List.not_mem_nil⟩
  obtain ⟨m', l', hr, hF⟩ := init_spec hempty (by rwa [List.nil_append]) (by rwa [List.nil_append]) hlist
    (Nat.lt_of_lt_of_le (Nat.lt_succ_self _) (le_max_right N _))
  obtain ⟨rfl, rfl⟩ := Prod.mk.inj (Option.some.inj (hr.symm.trans (hN _ (le_max_left N _))))
  exact ⟨z, hz, hF⟩

/-- No page of the segments has an owner yet. -/
theorem pageInit_alloc (hh : HandedOver segs) (h : pageInit segs s) :
    ∃ ps z, AllocInv (poolOf segs) s (fun _ => 0) ps z ∧ Apart ps z := by
  have hb := highMemBase_eq
  obtain ⟨z, hz, hF⟩ := pageInit_free hh h
  obtain ⟨hG, hA, -⟩ := geo_handed hh hz
  refine ⟨_, z, ⟨hF, hG, fun a => ?_, fun _ => Nat.zero_le 1, fun p h => absurd h (Nat.lt_irrefl 0)⟩, hA⟩
  constructor
  · intro hx
    obtain ⟨c, hc, h1, h2⟩ := hx
    obtain ⟨g, hg, rfl⟩ := List.mem_map.mp hc
    rw [hz g hg] at h2
    have hd := hh.aligned g hg
    refine ⟨g.base + (a - physToKernelPtr g.base) / 4096 * 4096, ⟨g, hg, by omega, by omega, by omega⟩, rfl, ?_⟩
    unfold InPage physToKernelPtr at *
    omega
  · intro hx
    obtain ⟨p, ⟨g, hg, h1, h2, h3⟩, -, h4, h5⟩ := hx
    have hd := hh.aligned g hg
    refine ⟨physToKernelPtr g.base, List.mem_map.mpr ⟨g, hg, rfl⟩, ?_, ?_⟩
    · unfold physToKernelPtr at *
      omega
    · rw [hz g hg]
      unfold physToKernelPtr at *
      omega

theorem pageInv_init (hh : HandedOver segs) (h : pageInit segs s) : PageInv (poolOf segs) s := by
  obtain ⟨ps, z, hI, hA⟩ := pageInit_alloc hh h
  exact ⟨_, ps, z, hI, hA⟩

/-- **Each proper event** keeps the allocator in order, without segments that touch. -/
theorem pageInv_step (hp : Managed pool) {ev : PageEvent} (hI : PageInv pool s)
    (hs : Guarded pageStep (proper pool) s ev s') : PageInv pool s' := by
  obtain ⟨own, ps, z, hI, hA⟩ := hI
  obtain ⟨hs, hok⟩ := hs
  -- a page in use has an owner
  have hown : ∀ p, InUse pool s p → own p = 1 := by
    intro p hx
    obtain ⟨hpool, hno⟩ := hx
    have h1 := hI.once p
    have h2 : own p ≠ 0 := fun h0 => hno ((freePage_iff hp hI).mpr ⟨hpool, h0⟩)
    omega
  cases hs with
  | alloc n r h =>
      obtain ⟨h0, hn, -⟩ := hok
      obtain ⟨r', hr', hI', -⟩ := allocated_iff hp hI hA h0 hn
      exact h.unique hr' ▸ hI'
  | free b n s' h =>
      obtain ⟨h0, hb, hin⟩ := hok
      have hsplit : ∀ p, own p = (own p - if InRun b n p then 1 else 0) + if InRun b n p then 1 else 0 := by
        intro p
        split_ifs with hrun
        · rw [hown p (hin p hrun)]
        · rfl
      obtain ⟨r, hr, ⟨ps', z', hI', hA'⟩, -⟩ := freePages_apart hp hI h0 hb hsplit
      rw [h.unique hr]
      exact ⟨_, ps', z', hI', hA' hA⟩
  | write q m h =>
      have hq : 0 < own q := by
        rw [hown q hok]
        exact Nat.one_pos
      exact ⟨own, ps, z, hI.write hp hq rfl h, hA⟩

/-- **`AllocatePages` in any run**: from segments that do not touch, and through any calls and writes, a call for
    `n` pages returns, and answers as it should if and only if the segment it finds does not start at 0. -/
theorem page_allocator (segs : List Segment) (hh : HandedOver segs) (s : Mm)
    (h : Reach (Guarded pageStep (proper (poolOf segs))) (pageInit segs) s) (n : Nat) (h0 : 0 < n)
    (hn : n * 4096 < 2 ^ 64) :
    ∃ r, Halts (fun k => allocatePages k s n) r ∧ (Allocated s n r ↔ ¬ FirstFitAtZero s n) := by
  have hp := poolOf_managed hh
  obtain ⟨own, ps, z, hI, hA⟩ := h.inv (fun _ h0 => pageInv_init hh h0) fun _ _ _ hI hs => pageInv_step hp hI hs
  obtain ⟨r, hr, -, hiff⟩ := allocated_iff hp hI hA h0 hn
  exact ⟨r, hr, hiff⟩

end Run

section Segments

/-- Memory with one segment, of `n` pages at `base`. -/
def oneHanded (base n : Nat) : Mem := fun a => if a = physToKernelPtr base + 8 then n else 0

/-- What `Init` makes of it. -/
def oneStart (base n : Nat) : Mm :=
  let c := physToKernelPtr base
  let r := pushBack anchor (setSegment (oneHanded base n) c c (n * 4096)) ⟨0, 0⟩ c
  ⟨r.1, r.2, 0, false⟩

theorem oneStart_init (base n : Nat) (hn : n * 4096 < 2 ^ 64) : pageInit [⟨base, n⟩] (oneStart base n) := by
  have hb := highMemBase_eq
  unfold oneStart
  obtain ⟨c, hc⟩ : ∃ c, physToKernelPtr base = c := ⟨_, rfl⟩
  have hc0 : c ≠ 0 := by
    unfold physToKernelPtr at hc
    omega
  have hnum : numPages (oneHanded base n) c = n := if_pos (by rw [hc])
  have hnext : nextSegment (oneHanded base n) c = 0 := if_neg (by rw [hc]; omega)
  dsimp only
  rw [hc]
  obtain ⟨r, hr⟩ : ∃ r, pushBack anchor (setSegment (oneHanded base n) c c (n * 4096)) ⟨0, 0⟩ c = r := ⟨_, rfl⟩
  rw [hr]
  refine ⟨oneHanded base n, fun _ => n * 4096, c, fun g hg => ?_, ⟨hc.symm, ?_, ?_⟩, 2, fun k hk => ?_⟩
  · rw [List.mem_singleton.mp hg]
  · dsimp only
    rw [hc, hnum]
  · dsimp only
    rw [hc]
    exact hnext
  · obtain ⟨k, rfl⟩ : ∃ j, k = j + 2 := ⟨k - 2, by omega⟩
    dsimp only
    rw [init, if_neg hc0, hnum, hnext, u64_of_lt hn]
    dsimp only
    rw [hr, init, if_pos rfl]

theorem oneHanded_init (base n : Nat) (hn : n * 4096 < 2 ^ 64) : ∃ s, pageInit [⟨base, n⟩] s ∧ s.failed = false :=
  ⟨oneStart base n, oneStart_init base n hn, rfl⟩

theorem oneHanded_over {base n : Nat} (hd : 4096 ∣ base) (h0 : 0 < n) (hw : base + n * 4096 < 2 ^ 39) :
    HandedOver [⟨base, n⟩] :=
  ⟨fun _ hg => List.mem_singleton.mp hg ▸ ⟨hd, h0⟩, fun _ hg => List.mem_singleton.mp hg ▸ hw,
    List.pairwise_singleton _ _⟩

/-- The segment that a call for two of its pages finds. -/
theorem oneHanded_find {base : Nat} {s : Mm} (hd : 4096 ∣ base) (hw : base + 4 * 4096 < 2 ^ 39)
    (hs : pageInit [⟨base, 4⟩] s) : FirstFitAtZero s 2 ↔ base = 0 := by
  obtain ⟨z, hz, hF⟩ := pageInit_free (oneHanded_over hd (by decide) hw) hs
  have hsize : z (physToKernelPtr base) = 4 * 4096 := hz _ List.mem_cons_self
  rw [firstFit_iff hF, List.map_cons, List.map_nil, List.find?_cons, hsize]
  show some (physToKernelPtr base) = some (physToKernelPtr 0) ↔ _
  rw [Option.some.injEq]
  exact ⟨fun h => Nat.add_right_cancel h, fun h => h ▸ rfl⟩

/-- Four pages behind the first one: two of them are handed out. -/
theorem page_allocator_two : ∃ s r, pageInit [⟨4096, 4⟩] s ∧ Halts (fun k => allocatePages k s 2) r ∧
    Allocated s 2 r := by
  obtain ⟨s, hs, -⟩ := oneHanded_init 4096 4 (by decide)
  obtain ⟨r, hr, hiff⟩ := page_allocator [⟨4096, 4⟩] (oneHanded_over (by decide) (by decide) (by decide)) s
    (Reach.start s hs) 2 (by decide) (by decide)
  exact ⟨s, r, hs, hr, hiff.mpr fun h => absurd ((oneHanded_find (by decide) (by decide) hs).mp h) (by decide)⟩

/-- Four pages from physical address 0 on: two of them are taken, and the answer is `nullptr`. -/
theorem page_zero : HandedOver [⟨0, 4⟩] ∧ ∃ s r, pageInit [⟨0, 4⟩] s ∧ Halts (fun k => allocatePages k s 2) r ∧
    ¬ Allocated s 2 r := by
  have hh : HandedOver [⟨0, 4⟩] := oneHanded_over (by decide) (by decide) (by decide)
  obtain ⟨s, hs, -⟩ := oneHanded_init 0 4 (by decide)
  obtain ⟨own, ps, z, hI, hA⟩ := pageInv_init hh hs
  obtain ⟨r, hr, -, hiff⟩ := allocated_iff (poolOf_managed hh) hI hA (n := 2) (by decide) (by decide)
  exact ⟨hh, s, r, hs, hr, fun h => hiff.mp h ((oneHanded_find (by decide) (by decide) hs).mpr rfl)⟩

end Segments

end MemoryManager

end SimpleOS2
