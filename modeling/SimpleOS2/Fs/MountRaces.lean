/-
  File:      SimpleOS2/Fs/MountRaces.lean
  Subject:   MOUNT POINTS AND THREADS (FindMountPoint, ReleaseMountPoint, Mount and Unmount of
             fs/VFS.cpp, step by step).

  A search counts the next mount point while it holds the lock of the current one, gives the lock back,
  drops its reference to the current one and goes on. `Unmount` tests for a count of 1 under the lock of
  the parent and deletes the mount point after that.

  * `MountPc`, `raceStep` -- the sections under a `childMountLock` and the single `Inc` and `Dec`, by any
    number of threads in any order;
  * `MountSys.refs` -- the references that threads have obtained and not released;
  * `PinInv` -- a mount point counts at least these references and its children, and who is referred to
    is in the tree; `pinInv_step`, `pinInv_reach`.
-/
import Mathlib.Data.List.Count
import Mathlib.Data.List.Perm.Basic
import SimpleOS2.Fs.MountPoint

namespace SimpleOS2

open Lib

namespace VFS

/-! ## 1. The steps -/

/-- Where a thread stands. -/
inductive MountPc where
  | idle
  /-- In `FindMountPoint`, before it takes the `childMountLock` of `current`. -/
  | search (path : List Char) (current : Nat)
  /-- After the unlock, before `current->refCount.Dec()`. -/
  | moving (path : List Char) (current next : Nat)
  /-- In `Unmount`, between the removal from the parent's list and `delete mp`. -/
  | deleting (m : Nat)

/-- The mount points (`live`: in the tree), those that were deleted, the references that the threads
    hold, and the threads. -/
structure MountSys where
  mounts : Mounts
  deleted : Nat → Bool
  refs : List (Nat × Nat)
  pc : Nat → MountPc

def MountSys.goto (s : MountSys) (t : Nat) (p : MountPc) : MountSys :=
  { s with pc := Function.update s.pc t p }

/-- `refCount.Inc()` by a thread that keeps the reference. -/
def MountSys.take (s : MountSys) (t m : Nat) : MountSys :=
  { s with
    mounts := s.mounts.setCount (addCount s.mounts.refCount m 1)
    refs := (t, m) :: s.refs }

/-- `refCount.Dec()` of a reference that the thread holds; the root is not counted. -/
def MountSys.drop (s : MountSys) (t m : Nat) : MountSys :=
  { s with
    mounts := s.mounts.setCount (releaseMountPoint s.mounts.refCount m)
    refs := if m ≠ rootMount then s.refs.erase (t, m) else s.refs }

inductive RaceEvent where
  | find (t : Nat) (path : List Char)
  | look (t : Nat)
  | dec (t : Nat)
  | release (t m : Nat)
  | insert (t m : Nat) (path : List Char)
  | erase (t m : Nat)
  | delete (t : Nat)

/-- A mount point that the thread may use: it has a reference, or it is the root. -/
def MountSys.has (s : MountSys) (t m : Nat) : Prop := m = rootMount ∨ (t, m) ∈ s.refs

/-- One step. `Mount` and `Unmount` begin with a search, so they act on a mount point that the thread
    has a reference to; which of them they choose does not matter here. -/
inductive raceStep : MountSys → RaceEvent → MountSys → Prop where
  | find (s : MountSys) (t : Nat) (path : List Char) (ht : s.pc t = .idle) :
      raceStep s (.find t path) (s.goto t (.search path rootMount))
  /-- The section under `current->childMountLock`, with a child that covers the path. -/
  | lookSome (s : MountSys) (t : Nat) (path : List Char) (current next : Nat)
      (ht : s.pc t = .search path current) (hn : matching s.mounts path current = some next) :
      raceStep s (.look t) ((s.take t next).goto t (.moving path current next))
  /-- The same without one: the search returns `current` with its reference. -/
  | lookNone (s : MountSys) (t : Nat) (path : List Char) (current : Nat)
      (ht : s.pc t = .search path current) (hn : matching s.mounts path current = none) :
      raceStep s (.look t) (s.goto t .idle)
  | dec (s : MountSys) (t : Nat) (path : List Char) (current next : Nat)
      (ht : s.pc t = .moving path current next) :
      raceStep s (.dec t) ((s.drop t current).goto t (.search path next))
  | release (s : MountSys) (t m : Nat) (ht : s.pc t = .idle) (hm : s.has t m) :
      raceStep s (.release t m) (s.drop t m)
  /-- The insertion of `Mount`: the new mount point inherits the reference. -/
  | insert (s : MountSys) (t m : Nat) (path : List Char) (ht : s.pc t = .idle) (hm : s.has t m) :
      raceStep s (.insert t m path) { s with
        mounts := s.mounts.insert m path
        refs := if m ≠ rootMount then s.refs.erase (t, m) else s.refs }
  /-- The section of `Unmount` under `mp->parent->childMountLock`, with a count of 1. With another
      count `Unmount` goes on with `ReleaseMountPoint`. -/
  | erase (s : MountSys) (t m : Nat) (ht : s.pc t = .idle) (hm : (t, m) ∈ s.refs)
      (hone : s.mounts.refCount m = 1) :
      raceStep s (.erase t m)
        (MountSys.goto { s with mounts := s.mounts.erase m, refs := s.refs.erase (t, m) } t (.deleting m))
  | delete (s : MountSys) (t m : Nat) (ht : s.pc t = .deleting m) :
      raceStep s (.delete t)
        (MountSys.goto { s with deleted := Function.update s.deleted m true } t .idle)

/-- After `Init`. -/
def raceInit (s : MountSys) : Prop :=
  s.mounts = initMounts ∧ (∀ m, s.deleted m = false) ∧ s.refs = [] ∧ ∀ t, s.pc t = .idle

/-! ## 2. The invariant -/

/-- How many references to `m` the threads hold. -/
def holders (refs : List (Nat × Nat)) (m : Nat) : Nat := (refs.map Prod.snd).count m

/-- Parents and children agree. -/
structure Linked (M : Mounts) : Prop where
  root_live : M.live rootMount = true
  edge : ∀ m c, c ∈ (M.mp m).childMounts →
    M.live m = true ∧ M.live c = true ∧ (M.mp c).parent = m ∧ c ≠ rootMount ∧ m < c
  parent : ∀ m, M.live m = true → m ≠ rootMount → m ∈ (M.mp (M.mp m).parent).childMounts
  nodup : ∀ m, (M.mp m).childMounts.Nodup
  fresh : ∀ m, M.live m = true → m < M.next

/-- What a thread relies on. -/
def MountSys.pcOk (s : MountSys) (t : Nat) : MountPc → Prop
  | .idle => True
  | .search _ cur => s.has t cur
  | .moving _ cur next => s.has t cur ∧ (t, next) ∈ s.refs ∧ cur ≠ next
  | .deleting m => s.mounts.live m = false ∧ m < s.mounts.next

structure PinInv (s : MountSys) : Prop where
  linked : Linked s.mounts
  /-- Who is referred to is in the tree. -/
  held : ∀ t m, (t, m) ∈ s.refs → m ≠ rootMount ∧ s.mounts.live m = true
  /-- A mount point counts its holders and its children. -/
  pinned : ∀ m, s.mounts.live m = true → m ≠ rootMount →
    (holders s.refs m : Int) + (s.mounts.mp m).childMounts.length ≤ s.mounts.refCount m
  pc : ∀ t, s.pcOk t (s.pc t)
  deleted : ∀ m, s.deleted m = true → s.mounts.live m = false ∧ m < s.mounts.next

section Links

variable {M : Mounts} {m : Nat} {path : List Char}

theorem Linked.ne_next (h : Linked M) {x : Nat} (hx : M.live x = true) : x ≠ M.next :=
  Nat.ne_of_lt (h.fresh x hx)

theorem linked_insert (h : Linked M) (hm : M.live m = true) : Linked (M.insert m path) := by
  have hr := h.ne_next h.root_live
  have hmn := h.ne_next hm
  have hnew : (M.insert m path).live M.next = true := Function.update_self _ _ _
  refine ⟨?_, fun q c hc => ?_, fun x hx h0 => ?_, fun q => ?_, fun x hx => ?_⟩
  · rw [insert_live hr]
    exact h.root_live
  · cases mem_insert_children hc with
    | inl hin =>
        obtain ⟨h1, h2, h3, h4⟩ := h.edge q c hin
        rw [insert_live (h.ne_next h1), insert_live (h.ne_next h2), insert_parent (h.ne_next h2)]
        exact ⟨h1, h2, h3, h4⟩
    | inr e =>
        obtain ⟨rfl, rfl⟩ := e
        rw [insert_live hmn, hnew, insert_new]
        exact ⟨hm, rfl, rfl, fun e => hr e.symm, h.fresh q hm⟩
  · by_cases hxn : x = M.next
    · subst hxn
      rw [insert_new]
      show M.next ∈ ((M.insert m path).mp m).childMounts
      rw [insert_other hmn, if_pos rfl]
      exact List.mem_append_right _ (List.mem_singleton.mpr rfl)
    · rw [insert_live hxn] at hx
      have hin := h.parent x hx h0
      rw [insert_parent hxn, insert_other (h.ne_next (h.edge _ x hin).1)]
      split_ifs with hp
      · exact List.mem_append_left _ (hp ▸ hin)
      · exact hin
  · by_cases hq : q = M.next
    · rw [hq, insert_new]
      exact List.nodup_nil
    · rw [insert_other hq]
      split_ifs
      · refine List.nodup_append.mpr ⟨h.nodup m, List.nodup_singleton _, fun a ha b hb e => ?_⟩
        rw [List.mem_singleton.mp hb] at e
        exact h.ne_next (h.edge m a ha).2.1 e
      · exact h.nodup q
  · by_cases hxn : x = M.next
    · rw [hxn]
      exact Nat.lt_succ_self _
    · rw [insert_live hxn] at hx
      exact Nat.lt_succ_of_lt (h.fresh x hx)

theorem linked_erase (h : Linked M) (h0 : m ≠ rootMount) (hleaf : (M.mp m).childMounts = []) :
    Linked (M.erase m) := by
  have hgone : ∀ q, m ∉ ((M.erase m).mp q).childMounts := fun q hq => by
    have hold := (erase_children M m q).subset hq
    have hp : q = (M.mp m).parent := (h.edge q m hold).2.2.1.symm
    rw [erase_mp, if_pos hp] at hq
    exact (h.nodup _).not_mem_erase hq
  have hstays : ∀ x, (M.erase m).live x = true → x ≠ m ∧ M.live x = true := fun x hx => by
    have hxm : x ≠ m := fun e => by
      rw [e] at hx
      simp [Mounts.erase] at hx
    exact ⟨hxm, erase_live hxm ▸ hx⟩
  refine ⟨?_, fun q c hc => ?_, fun x hx hx0 => ?_, fun q => (h.nodup q).sublist (erase_children M m q),
    fun x hx => h.fresh x (hstays x hx).2⟩
  · rw [erase_live (fun e => h0 e.symm)]
    exact h.root_live
  · have hold := (erase_children M m q).subset hc
    obtain ⟨h1, h2, h3, h4⟩ := h.edge q c hold
    have hqm : q ≠ m := fun e => by
      rw [e, hleaf] at hold
      exact absurd hold List.not_mem_nil
    have hcm : c ≠ m := fun e => hgone q (e ▸ hc)
    rw [erase_live hqm, erase_live hcm, erase_parent]
    exact ⟨h1, h2, h3, h4⟩
  · obtain ⟨hxm, hxl⟩ := hstays x hx
    have hin := h.parent x hxl hx0
    rw [erase_parent, erase_mp]
    split_ifs with hp
    · exact (List.mem_erase_of_ne hxm).mpr (hp ▸ hin)
    · exact hin

end Links

section Refs

variable {refs : List (Nat × Nat)} {t m : Nat}

theorem holders_cons (refs : List (Nat × Nat)) (t m x : Nat) :
    holders ((t, m) :: refs) x = holders refs x + if x = m then 1 else 0 := by
  simp only [holders, List.map_cons, List.count_cons, beq_iff_eq, eq_comm (a := x)]

theorem holders_erase (h : (t, m) ∈ refs) (x : Nat) :
    holders (refs.erase (t, m)) x + (if x = m then 1 else 0) = holders refs x := by
  have hp := ((List.perm_cons_erase h).map Prod.snd).count_eq x
  rw [← holders_cons]
  exact hp.symm

theorem holders_pos (h : (t, m) ∈ refs) : 0 < holders refs m :=
  List.count_pos_iff.mpr (List.mem_map.mpr ⟨(t, m), h, rfl⟩)

end Refs

section Inv

variable {s : MountSys} {t m : Nat}

theorem pinInv_init (h : raceInit s) : PinInv s := by
  obtain ⟨h1, h2, h3, h4⟩ := h
  have hlive : ∀ m, s.mounts.live m = true → m = rootMount := fun m hm => by
    rw [h1] at hm
    simpa [initMounts] using hm
  have hchild : ∀ q, (s.mounts.mp q).childMounts = [] := fun q => by rw [h1]; rfl
  refine ⟨⟨by rw [h1]; rfl, fun q c hc => ?_, fun m hm h0 => absurd (hlive m hm) h0, fun q => ?_,
    fun m hm => ?_⟩, fun t m hm => ?_, fun m hm h0 => absurd (hlive m hm) h0, fun t => ?_, fun m hm => ?_⟩
  · rw [hchild] at hc
    exact absurd hc List.not_mem_nil
  · rw [hchild]
    exact List.nodup_nil
  · rw [hlive m hm, h1]
    exact Nat.one_pos
  · rw [h3] at hm
    exact absurd hm List.not_mem_nil
  · rw [h4 t]
    trivial
  · rw [h2 m] at hm
    exact absurd hm (by decide)

/-- Who has a reference, or the root. -/
theorem PinInv.has_live (hI : PinInv s) (h : s.has t m) : s.mounts.live m = true := by
  cases h with
  | inl e => rw [e]; exact hI.linked.root_live
  | inr e => exact (hI.held t m e).2

/-- What a thread relies on stays true while its references stay and nothing new gets into the tree
    under an old number. -/
theorem pcOk_mono (s' : MountSys) {u : Nat} (hrefs : ∀ x, (u, x) ∈ s.refs → (u, x) ∈ s'.refs)
    (hlive : ∀ x, x < s.mounts.next → s.mounts.live x = false → s'.mounts.live x = false)
    (hnext : s.mounts.next ≤ s'.mounts.next) {q : MountPc} (h : s.pcOk u q) : s'.pcOk u q := by
  have hhas : ∀ x, s.has u x → s'.has u x := fun x hx => by
    cases hx with
    | inl e => exact Or.inl e
    | inr e => exact Or.inr (hrefs x e)
  cases q with
  | idle => trivial
  | search path cur => exact hhas cur h
  | moving path cur next => exact ⟨hhas cur h.1, hrefs next h.2.1, h.2.2⟩
  | deleting m => exact ⟨hlive m h.2 h.1, Nat.lt_of_lt_of_le h.2 hnext⟩

/-- The references of the other threads stay when `t` gives one back. -/
theorem mem_erase_other {refs : List (Nat × Nat)} {u x : Nat} (hu : u ≠ t) (h : (u, x) ∈ refs) :
    (u, x) ∈ refs.erase (t, m) :=
  (List.mem_erase_of_ne fun e => hu (congrArg Prod.fst e)).mpr h

/-- Counts of the tree with one more holder of `m`. -/
theorem pinInv_take (hI : PinInv s) (hm : m ≠ rootMount) (hlive : s.mounts.live m = true)
    {p : MountPc} (hp : (s.take t m).pcOk t p) : PinInv ((s.take t m).goto t p) := by
  refine ⟨⟨hI.linked.root_live, hI.linked.edge, hI.linked.parent, hI.linked.nodup, hI.linked.fresh⟩,
    fun u x hx => ?_, fun x hx h0 => ?_, fun u => ?_, hI.deleted⟩
  · cases List.mem_cons.mp hx with
    | inl e =>
        cases e
        exact ⟨hm, hlive⟩
    | inr e => exact hI.held u x e
  · have hpin := hI.pinned x hx h0
    show (holders ((t, m) :: s.refs) x : Int) + _ ≤ addCount s.mounts.refCount m 1 x
    rw [holders_cons]
    simp only [addCount, Function.update_apply]
    by_cases hxm : x = m
    · subst hxm
      simp only [if_true, Int.natCast_add]
      exact (Int.add_right_comm _ _ _).le.trans (Int.add_le_add_right hpin 1)
    · simp only [hxm, if_false, Nat.add_zero]
      exact hpin
  · by_cases hut : u = t
    · subst hut
      show (s.take u m).pcOk u (Function.update s.pc u p u)
      rw [Function.update_self]
      exact hp
    · show (s.take t m).pcOk u (Function.update s.pc t p u)
      rw [Function.update_of_ne hut]
      exact pcOk_mono (s.take t m) (fun x hx => List.mem_cons_of_mem _ hx) (fun _ _ h => h) le_rfl (hI.pc u)

/-- The references after `t` has given back the one to `m`. -/
def MountSys.without (s : MountSys) (t m : Nat) : List (Nat × Nat) :=
  if m ≠ rootMount then s.refs.erase (t, m) else s.refs

theorem without_sub (s : MountSys) (t m : Nat) {u x : Nat} (h : (u, x) ∈ s.without t m) :
    (u, x) ∈ s.refs := by
  unfold MountSys.without at h
  split_ifs at h
  · exact List.mem_of_mem_erase h
  · exact h

theorem without_other (s : MountSys) (t m : Nat) {u x : Nat} (hne : (u, x) ≠ (t, m))
    (h : (u, x) ∈ s.refs) : (u, x) ∈ s.without t m := by
  unfold MountSys.without
  split_ifs
  · exact (List.mem_erase_of_ne hne).mpr h
  · exact h

theorem holders_without (hm : s.has t m) {x : Nat} (h0 : x ≠ rootMount) :
    holders (s.without t m) x + (if x = m then 1 else 0) = holders s.refs x := by
  by_cases hroot : m = rootMount
  · have hxm : ¬ x = m := fun e => h0 (e.trans hroot)
    simp only [MountSys.without, hroot, ne_eq, not_true_eq_false, if_false, if_neg h0, Nat.add_zero]
  · have hin : (t, m) ∈ s.refs := hm.resolve_left hroot
    simp only [MountSys.without, ne_eq, hroot, not_false_eq_true, if_true]
    exact holders_erase hin x

theorem pinInv_drop (hI : PinInv s) (hm : s.has t m) {p : MountPc} (hp : (s.drop t m).pcOk t p) :
    PinInv ((s.drop t m).goto t p) := by
  refine ⟨⟨hI.linked.root_live, hI.linked.edge, hI.linked.parent, hI.linked.nodup, hI.linked.fresh⟩,
    fun u x hx => hI.held u x (without_sub s t m hx), fun x hx h0 => ?_, fun u => ?_, hI.deleted⟩
  · have hpin := hI.pinned x hx h0
    have hh := holders_without hm h0
    show (holders (s.without t m) x : Int) + _ ≤ releaseMountPoint s.mounts.refCount m x
    rw [← hh] at hpin
    by_cases hxm : x = m
    · subst hxm
      have hcount : releaseMountPoint s.mounts.refCount x x = s.mounts.refCount x + -1 := by
        simp [releaseMountPoint, h0, addCount]
      rw [hcount]
      simp only [if_true, Int.natCast_add] at hpin
      show (holders (s.without t x) x : Int) + ((s.mounts.mp x).childMounts.length : Int) ≤ _
      omega
    · have hcount : releaseMountPoint s.mounts.refCount m x = s.mounts.refCount x := by
        unfold releaseMountPoint
        split_ifs
        · exact Function.update_of_ne hxm _ _
        · rfl
      rw [hcount]
      simp only [hxm, if_false, Nat.add_zero] at hpin
      exact hpin
  · by_cases hut : u = t
    · subst hut
      show (s.drop u m).pcOk u (Function.update s.pc u p u)
      rw [Function.update_self]
      exact hp
    · show (s.drop t m).pcOk u (Function.update s.pc t p u)
      rw [Function.update_of_ne hut]
      exact pcOk_mono (s := s) (s.drop t m)
        (fun x hx => without_other s t m (fun e => hut (congrArg Prod.fst e)) hx) (fun _ _ h => h) le_rfl
        (hI.pc u)

/-- **The insertion of `Mount`**: the reference becomes a child. -/
theorem pinInv_insert (hI : PinInv s) (ht : s.pc t = .idle) (hm : s.has t m) (path : List Char) :
    PinInv { s with mounts := s.mounts.insert m path, refs := s.without t m } := by
  have hlive := hI.has_live hm
  have hold : ∀ x, x < s.mounts.next → s.mounts.live x = false → (s.mounts.insert m path).live x = false :=
    fun x hx h => by
      rw [insert_live (Nat.ne_of_lt hx)]
      exact h
  refine ⟨linked_insert hI.linked hlive, fun u x hx => ?_, fun x hx h0 => ?_, fun u => ?_, fun x hx => ?_⟩
  · obtain ⟨h1, h2⟩ := hI.held u x (without_sub s t m hx)
    refine ⟨h1, ?_⟩
    show (s.mounts.insert m path).live x = true
    rw [insert_live (hI.linked.ne_next h2)]
    exact h2
  · show (holders (s.without t m) x : Int) + (((s.mounts.insert m path).mp x).childMounts.length : Int) ≤
      (s.mounts.insert m path).refCount x
    by_cases hxn : x = s.mounts.next
    · -- nobody refers to the new mount point yet
      have hnone : holders (s.without t m) x = 0 := by
        refine List.count_eq_zero.mpr fun hin => ?_
        obtain ⟨r, hr, hr2⟩ := List.mem_map.mp hin
        have := hI.held r.1 r.2 (without_sub s t m hr)
        exact hI.linked.ne_next this.2 (hr2.trans hxn)
      rw [hnone, hxn, insert_new]
      simp [Mounts.insert]
    · have hx' : s.mounts.live x = true := insert_live hxn ▸ hx
      have hpin := hI.pinned x hx' h0
      have hh := holders_without hm h0
      have hcount : (s.mounts.insert m path).refCount x = s.mounts.refCount x :=
        Function.update_of_ne hxn _ _
      rw [hcount, insert_other hxn]
      rw [← hh] at hpin
      by_cases hxm : x = m
      · subst hxm
        simp only [if_true, Int.natCast_add, List.length_append, List.length_singleton] at hpin ⊢
        omega
      · simp only [hxm, if_false, Nat.add_zero] at hpin ⊢
        exact hpin
  · by_cases hut : u = t
    · subst hut
      show MountSys.pcOk _ u (s.pc u)
      rw [ht]
      trivial
    · refine pcOk_mono _ (fun x hx => ?_) hold (Nat.le_succ _) (hI.pc u)
      exact without_other s t m (fun e => hut (congrArg Prod.fst e)) hx
  · obtain ⟨h1, h2⟩ := hI.deleted x hx
    exact ⟨hold x h2 h1, Nat.lt_succ_of_lt h2⟩

/-- **The removal of `Unmount`**: the count is 1, so nobody else refers to it and it has no children. -/
theorem pinInv_erase (hI : PinInv s) (hm : (t, m) ∈ s.refs) (hone : s.mounts.refCount m = 1) :
    PinInv (MountSys.goto { s with mounts := s.mounts.erase m, refs := s.refs.erase (t, m) } t
      (.deleting m)) := by
  obtain ⟨hroot, hlive⟩ := hI.held t m hm
  have hpin := hI.pinned m hlive hroot
  have hpos := holders_pos hm
  have hleaf : (s.mounts.mp m).childMounts = [] := List.length_eq_zero_iff.mp (by omega)
  have hlast : holders s.refs m = 1 := by omega
  have hnobody : ∀ u x, (u, x) ∈ s.refs.erase (t, m) → x ≠ m := fun u x hx e => by
    have h1 := holders_erase hm m
    have h2 := holders_pos (e ▸ hx)
    rw [if_pos rfl] at h1
    omega
  have hgone : (s.mounts.erase m).live m = false := Function.update_self _ _ _
  have hold : ∀ x, s.mounts.live x = false → (s.mounts.erase m).live x = false := fun x h => by
    by_cases hxm : x = m
    · rw [hxm]
      exact hgone
    · rw [erase_live hxm]
      exact h
  refine ⟨linked_erase hI.linked hroot hleaf, fun u x hx => ?_, fun x hx h0 => ?_, fun u => ?_,
    fun x hx => ?_⟩
  · obtain ⟨h1, h2⟩ := hI.held u x (List.mem_of_mem_erase hx)
    refine ⟨h1, ?_⟩
    show (s.mounts.erase m).live x = true
    rw [erase_live (hnobody u x hx)]
    exact h2
  · have hxm : x ≠ m := fun e => by
      rw [e] at hx
      exact absurd hx (by show ¬ (s.mounts.erase m).live m = true; rw [hgone]; decide)
    have hx' : s.mounts.live x = true := erase_live hxm ▸ hx
    have hpinx := hI.pinned x hx' h0
    have hlen := (erase_children s.mounts m x).length_le
    have hh := holders_erase hm x
    rw [if_neg hxm, Nat.add_zero] at hh
    show (holders (s.refs.erase (t, m)) x : Int) + (((s.mounts.erase m).mp x).childMounts.length : Int) ≤
      s.mounts.refCount x
    rw [hh]
    omega
  · by_cases hut : u = t
    · subst hut
      show MountSys.pcOk _ u (Function.update s.pc u (.deleting m) u)
      rw [Function.update_self]
      exact ⟨hgone, hI.linked.fresh m hlive⟩
    · show MountSys.pcOk _ u (Function.update s.pc t (.deleting m) u)
      rw [Function.update_of_ne hut]
      exact pcOk_mono (MountSys.goto { s with mounts := s.mounts.erase m, refs := s.refs.erase (t, m) } t
        (.deleting m)) (fun x hx => mem_erase_other hut hx) (fun x _ h => hold x h) le_rfl (hI.pc u)
  · obtain ⟨h1, h2⟩ := hI.deleted x hx
    exact ⟨hold x h1, h2⟩

/-- A step that changes no count and no list. -/
theorem pinInv_goto (hI : PinInv s) {p : MountPc} (hp : s.pcOk t p) : PinInv (s.goto t p) := by
  refine ⟨hI.linked, hI.held, hI.pinned, fun u => ?_, hI.deleted⟩
  by_cases hut : u = t
  · subst hut
    show s.pcOk u (Function.update s.pc u p u)
    rw [Function.update_self]
    exact hp
  · show s.pcOk u (Function.update s.pc t p u)
    rw [Function.update_of_ne hut]
    exact hI.pc u

theorem pinInv_step {s' : MountSys} {ev : RaceEvent} (hI : PinInv s) (hs : raceStep s ev s') :
    PinInv s' := by
  cases hs with
  | find t path ht => exact pinInv_goto hI (p := .search path rootMount) (Or.inl rfl)
  | lookSome t path cur next ht hn =>
      have hcur : s.has t cur := by
        have := hI.pc t
        rw [ht] at this
        exact this
      obtain ⟨-, pre, post, hsplit, -⟩ := matching_some hn
      obtain ⟨h1, h2, h3, h4, h5⟩ := hI.linked.edge cur next (by rw [hsplit]; simp)
      refine pinInv_take hI h4 h2 ⟨?_, List.mem_cons_self, ?_⟩
      · cases hcur with
        | inl e => exact Or.inl e
        | inr e => exact Or.inr (List.mem_cons_of_mem _ e)
      · exact Nat.ne_of_lt h5
  | lookNone t path cur ht hn => exact pinInv_goto hI (p := .idle) trivial
  | dec t path cur next ht =>
      have h := hI.pc t
      rw [ht] at h
      refine pinInv_drop hI h.1 (Or.inr ?_)
      exact without_other s t cur (fun e => h.2.2 (congrArg Prod.snd e).symm) h.2.1
  | release t m ht hm =>
      have h := pinInv_drop hI hm (p := .idle) trivial
      have hpc : Function.update s.pc t .idle = s.pc := by rw [← ht, Function.update_eq_self]
      have hsame : (s.drop t m).goto t .idle = s.drop t m := by
        show MountSys.mk _ _ _ (Function.update s.pc t .idle) = _
        rw [hpc]
        rfl
      rw [hsame] at h
      exact h
  | insert t m path ht hm => exact pinInv_insert hI ht hm path
  | erase t m ht hm hone => exact pinInv_erase hI hm hone
  | delete t m ht =>
      have h := hI.pc t
      rw [ht] at h
      have hI' : PinInv { s with deleted := Function.update s.deleted m true } := by
        refine ⟨hI.linked, hI.held, hI.pinned, hI.pc, fun x hx => ?_⟩
        by_cases hxm : x = m
        · rw [hxm]
          exact h
        · exact hI.deleted x (by simpa [hxm] using hx)
      exact pinInv_goto hI' (p := .idle) trivial

theorem pinInv_reach (h : Reach raceStep raceInit s) : PinInv s :=
  Reach.inv (I := PinInv) (fun _ h0 => pinInv_init h0) (fun _ _ _ hI hs => pinInv_step hI hs) h

end Inv

/-! ## 3. Whole runs -/

/-- **No use after `Unmount`**: in every state of every interleaving a thread's references are to mount
    points that were not deleted, also those a search is working with, and a mount point that was deleted
    has no children and is the parent of none. -/
theorem no_use_after_unmount {s : MountSys} (h : Reach raceStep raceInit s) :
    (∀ t m, (t, m) ∈ s.refs → s.deleted m = false) ∧
      (∀ t path cur, s.pc t = .search path cur → s.deleted cur = false) ∧
      (∀ t path cur next, s.pc t = .moving path cur next →
        s.deleted cur = false ∧ s.deleted next = false) ∧
      ∀ m, s.deleted m = true → (s.mounts.mp m).childMounts = [] ∧
        ∀ c, s.mounts.live c = true → c ≠ rootMount → (s.mounts.mp c).parent ≠ m := by
  have hI := pinInv_reach h
  have halive : ∀ m, s.mounts.live m = true → s.deleted m = false := fun m hm => by
    by_contra hd
    have := (hI.deleted m (by simpa using hd)).1
    rw [hm] at this
    exact absurd this (by decide)
  refine ⟨fun t m hm => halive m (hI.held t m hm).2, fun t path cur ht => ?_,
    fun t path cur next ht => ?_, fun m hm => ⟨?_, fun c hc h0 e => ?_⟩⟩
  · have hp := hI.pc t
    rw [ht] at hp
    exact halive cur (hI.has_live hp)
  · have hp := hI.pc t
    rw [ht] at hp
    exact ⟨halive cur (hI.has_live hp.1), halive next (hI.held t next hp.2.1).2⟩
  · refine List.eq_nil_iff_forall_not_mem.mpr fun c hc => ?_
    have hl := halive m (hI.linked.edge m c hc).1
    rw [hm] at hl
    exact absurd hl (by decide)
  · have hin := hI.linked.parent c hc h0
    rw [e] at hin
    have hl := halive m (hI.linked.edge m c hin).1
    rw [hm] at hl
    exact absurd hl (by decide)

/-- Thread 0 is on its way through `a` when thread 1 mounts `a/b`, and finds it. -/
theorem no_use_after_unmount_search : ∃ s, Reach raceStep raceInit s ∧
    s.pc 0 = .moving "a/b".toList 1 2 ∧ s.deleted 1 = false ∧ s.deleted 2 = false := by
  have h0 : Reach raceStep raceInit ⟨initMounts, fun _ => false, [], fun _ => .idle⟩ :=
    .start _ ⟨rfl, fun _ => rfl, rfl, fun _ => rfl⟩
  have h1 := Reach.next _ _ _ h0 (raceStep.insert _ 1 rootMount "a".toList rfl (Or.inl rfl))
  have h2 := Reach.next _ _ _ h1 (raceStep.find _ 0 "a/b".toList rfl)
  have h3 := Reach.next _ _ _ h2 (raceStep.lookSome _ 0 "a/b".toList rootMount 1 rfl rfl)
  have h4 := Reach.next _ _ _ h3 (raceStep.dec _ 0 "a/b".toList rootMount 1 rfl)
  have h5 := Reach.next _ _ _ h4 (raceStep.find _ 1 "a".toList rfl)
  have h6 := Reach.next _ _ _ h5 (raceStep.lookSome _ 1 "a".toList rootMount 1 rfl rfl)
  have h7 := Reach.next _ _ _ h6 (raceStep.dec _ 1 "a".toList rootMount 1 rfl)
  have h8 := Reach.next _ _ _ h7 (raceStep.lookNone _ 1 "a".toList 1 rfl rfl)
  have h9 := Reach.next _ _ _ h8 (raceStep.insert _ 1 1 "a/b".toList rfl (Or.inr (by decide)))
  have h10 := Reach.next _ _ _ h9 (raceStep.lookSome _ 0 "a/b".toList 1 2 rfl rfl)
  obtain ⟨-, -, hmov, -⟩ := no_use_after_unmount h10
  exact ⟨_, h10, rfl, hmov 0 "a/b".toList 1 2 rfl⟩

end VFS

end SimpleOS2
