/-
  File:      SimpleOS2/Scheduler/DescriptorRaces.lean
  Subject:   THREADS THAT SHARE ONE DESCRIPTOR TABLE (scheduler/Scheduler.cpp, fs/VFS.cpp).

  A system call on a file copies the descriptor out of the table under `fds->lock` and uses it after
  the lock is given back, without a reference of its own. `copyfd` takes the lock twice and does the
  rest without it.

  * `Pc` -- where a thread stands in its call; `accesses` -- what an I/O call reads and writes of the
    `FileDescriptor`;
  * `raceStep` -- one locked section, one access, or one step of `copyfd` outside the lock;
  * `apart` -- the condition on the order of steps: no `Close` takes the last reference of a
    descriptor that an I/O call still has to access, and nobody disturbs a `copyfd`;
  * `RaceInv`, `raceInv_step`, `raceInv_reach` -- then every access finds the object;
  * `read_freed` -- without that it does not.
-/
import SimpleOS2.Scheduler.DescriptorCounts

namespace SimpleOS2

open Lib

namespace Descriptors

/-! ## 1. The steps -/

/-- The fields of `VFS::FileDescriptor` that the I/O calls access. -/
inductive Field where
  | node
  | permissions
  | pos
  deriving DecidableEq

inductive IOCall where
  | read
  | write
  | seek
  | devCmd

/-- The accesses of `VFS::Read`, `Write`, `Seek` and `DeviceCommand`, in their order. -/
def IOCall.accesses : IOCall → List Field
  | .read => [.permissions, .pos, .node, .pos]
  | .write => [.permissions, .pos, .node, .pos]
  | .seek => [.node, .node, .pos]
  | .devCmd => [.node, .permissions, .node, .node]

/-- A pointer to an entry of the vector: in which of its storages, and which cell. -/
structure Ptr where
  storage : Nat
  i : Nat
  deriving DecidableEq

/-- Where a thread stands. The states after `io` are those of `ThreadReplaceFileDescriptor`, with the
    pointers `oldFD` and `newFD`. -/
inductive Pc where
  | idle
  /-- In an I/O call on the descriptor, with these accesses ahead. -/
  | io (desc : Nat) (rest : List Field)
  /-- After the first locked section. -/
  | found (old : Int) (oldFD newFD : Option Ptr)
  /-- `oldFD` is null and `a = begin()` was read. -/
  | insert (old : Int) (newFD : Ptr) (begin : Nat)
  /-- Before the tests of `oldFD->sysDesc`. -/
  | tail (oldFD newFD : Ptr)
  /-- `oldFD->sysDesc` was 0: before `oldFD->sysDesc = newFD->sysDesc`. -/
  | set (oldFD newFD : Ptr)
  /-- Before `VFS::AddRef(oldFD->sysDesc)`. -/
  | count (oldFD newFD : Ptr)
  /-- The two differ: before `VFS::Close(oldFD->sysDesc)`. -/
  | closing (oldFD newFD : Ptr)
  /-- Before `VFS::AddRef(newFD->sysDesc)`. -/
  | adding (oldFD newFD : Ptr)
  /-- Before `oldFD->sysDesc = newFD->sysDesc`. -/
  | storing (oldFD newFD : Ptr)

/-- In the middle of a `copyfd`. -/
def Pc.copying : Pc → Prop
  | .idle => False
  | .io _ _ => False
  | _ => True

/-- The cells a `copyfd` holds pointers to. -/
def Pc.cells : Pc → List Nat
  | .idle => []
  | .io _ _ => []
  | .found _ o n => (o.map (·.i)).toList ++ (n.map (·.i)).toList
  | .insert _ n _ => [n.i]
  | .tail o n => [o.i, n.i]
  | .set o n => [o.i, n.i]
  | .count o n => [o.i, n.i]
  | .closing o n => [o.i, n.i]
  | .adding o n => [o.i, n.i]
  | .storing o n => [o.i, n.i]

/-- The table, which of its storages the vector is in, the descriptors and the threads. -/
structure Shared where
  fds : Vec
  storage : Nat
  descs : Descs
  pc : Nat → Pc

def Shared.goto (s : Shared) (t : Nat) (p : Pc) : Shared := { s with pc := Function.update s.pc t p }

/-- `p->sysDesc`; a storage that was given back reads as `stale` says. -/
def Shared.load (s : Shared) (stale : Ptr → Nat) (p : Ptr) : Nat :=
  if p.storage = s.storage then s.fds.sysDescAt p.i else stale p

/-- `p->sysDesc = x`; the table does not change if its storage is another one now. -/
def Shared.store (s : Shared) (p : Ptr) (x : Nat) : Shared :=
  if p.storage = s.storage then { s with fds := s.fds.setSysDesc p.i x } else s

/-- The first locked section of `ThreadReplaceFileDescriptor`. -/
def Shared.find (s : Shared) (t : Nat) (old new : Int) : Shared :=
  if old = new then s
  else s.goto t (.found old ((lastWith old s.fds.elems).map fun i => ⟨s.storage, i⟩)
    ((lastWith new s.fds.elems).map fun i => ⟨s.storage, i⟩))

/-- The second locked section: the insertion of an entry. -/
def Shared.insertEntry (s : Shared) (t : Nat) (old : Int) (newFD : Ptr) : Shared :=
  let i := insertPos old s.fds.elems
  let storage := if s.fds.full then s.storage + 1 else s.storage
  Shared.goto { s with fds := s.fds.insertAt i ⟨old, 0⟩, storage := storage } t (.tail ⟨storage, i⟩ newFD)

/-- One step of `ThreadReplaceFileDescriptor` outside the lock. -/
def Shared.copyNext (s : Shared) (t : Nat) (stale : Ptr → Nat) : Shared :=
  match s.pc t with
  | .found old oldFD newFD =>
      match newFD with
      | none => s.goto t .idle
      | some n =>
          if s.load stale n = 0 then s.goto t .idle
          else
            match oldFD with
            | none => s.goto t (.insert old n s.storage)
            | some o => s.goto t (.tail o n)
  | .tail o n =>
      if s.load stale o = 0 then s.goto t (.set o n)
      else if s.load stale o = s.load stale n then s.goto t .idle
      else s.goto t (.closing o n)
  | .set o n => (s.store o (s.load stale n)).goto t (.count o n)
  | .count o _ => Shared.goto { s with descs := addRef s.descs (s.load stale o) } t .idle
  | .closing o n => Shared.goto { s with descs := close s.descs (s.load stale o) } t (.adding o n)
  | .adding o n => Shared.goto { s with descs := addRef s.descs (s.load stale n) } t (.storing o n)
  | .storing o n => (s.store o (s.load stale n)).goto t .idle
  | _ => s

inductive RaceEvent where
  | lookup (t : Nat) (call : IOCall) (id : Int)
  | access (t : Nat)
  | leave (t : Nat)
  | close (t : Nat) (id : Int)
  | find (t : Nat) (old new : Int)
  | insert (t : Nat)
  | copy (t : Nat) (stale : Ptr → Nat)

/-- One step of one thread. -/
inductive raceStep : Shared → RaceEvent → Shared → Prop where
  /-- `ThreadGetSystemFileDescriptor`; with 0 the call ends. -/
  | lookup (s : Shared) (t : Nat) (call : IOCall) (id : Int) (ht : s.pc t = .idle) :
      raceStep s (.lookup t call id)
        (if threadGetSystemFileDescriptor s.fds id = 0 then s
          else s.goto t (.io (threadGetSystemFileDescriptor s.fds id) call.accesses))
  /-- One access to the `FileDescriptor`. -/
  | access (s : Shared) (t desc : Nat) (f : Field) (rest : List Field)
      (ht : s.pc t = .io desc (f :: rest)) :
      raceStep s (.access t) (s.goto t (.io desc rest))
  /-- The call returns, after its last access or earlier with an error. -/
  | leave (s : Shared) (t desc : Nat) (rest : List Field) (ht : s.pc t = .io desc rest) :
      raceStep s (.leave t) (s.goto t .idle)
  | close (s : Shared) (t : Nat) (id : Int) (ht : s.pc t = .idle) :
      raceStep s (.close t id)
        { s with
          fds := (threadCloseFileDescriptor s.fds s.descs id).1
          descs := (threadCloseFileDescriptor s.fds s.descs id).2.1 }
  | find (s : Shared) (t : Nat) (old new : Int) (ht : s.pc t = .idle) :
      raceStep s (.find t old new) (s.find t old new)
  | insert (s : Shared) (t : Nat) (old : Int) (newFD : Ptr) (begin : Nat)
      (ht : s.pc t = .insert old newFD begin) (hb : begin = s.storage) :
      raceStep s (.insert t) (s.insertEntry t old newFD)
  /-- `a` runs through a storage that was given back: the table may be anything afterwards. -/
  | insertLost (s : Shared) (t : Nat) (old : Int) (newFD oldFD : Ptr) (begin : Nat) (fds : Vec)
      (ht : s.pc t = .insert old newFD begin) (hb : begin ≠ s.storage) :
      raceStep s (.insert t) (Shared.goto { s with fds := fds, storage := s.storage + 1 } t
        (.tail oldFD newFD))
  | copy (s : Shared) (t : Nat) (stale : Ptr → Nat) (ht : (s.pc t).copying) :
      raceStep s (.copy t stale) (s.copyNext t stale)

/-- No thread is in a call, and the counts are exact: `ext` are the references from elsewhere. -/
def raceInit (ext : Nat → Nat) (nextDesc : Nat) (s : Shared) : Prop :=
  (∀ t, s.pc t = .idle) ∧ Exact s.descs (fun d => ext d + occurs s.fds.elems d) nextDesc

/-- **Every access that is ahead would find the object.** -/
def AccessesLive (s : Shared) : Prop :=
  ∀ t desc f rest, s.pc t = .io desc (f :: rest) → s.descs.live desc = true

/-! ## 2. The condition -/

/-- No I/O call has an access to the descriptor ahead, if `Close` would take its last reference. -/
def unused (s : Shared) (desc : Nat) : Prop :=
  s.descs.refCount desc = 1 → ∀ u f rest, s.pc u ≠ .io desc (f :: rest)

/-- * A lookup does not find the entry whose descriptor a `copyfd` has closed and not yet replaced, if
      that took the last reference;
    * a `close` takes no entry that a `copyfd` holds a pointer to;
    * no `Close` takes the last reference of a descriptor that an I/O call has to access;
    * a `copyfd` begins when no other is under way, and does not insert into a full vector. -/
def apart (s : Shared) : RaceEvent → Prop
  | .lookup _ _ id => ∀ u o n, s.pc u = .adding o n ∨ s.pc u = .storing o n →
      firstWith id s.fds.elems = some o.i → s.descs.refCount (s.fds.sysDescAt o.i) ≠ 0
  | .close _ id => ∀ i, firstWith id s.fds.elems = some i →
      (∀ u, i ∉ (s.pc u).cells) ∧ unused s (s.fds.sysDescAt i)
  | .find _ _ _ => ∀ u, ¬ (s.pc u).copying
  | .insert _ => ¬ s.fds.full
  | .copy t _ => ∀ o n, s.pc t = .closing o n → unused s (s.fds.sysDescAt o.i)
  | _ => True

/-! ## 3. Cells -/

section Cells

variable {v : Vec} {i j : Nat}

@[simp] theorem setSysDesc_length (v : Vec) (i x : Nat) :
    (v.setSysDesc i x).elems.length = v.elems.length := List.length_modify _ _ _

theorem sysDescAt_set (hi : i < v.elems.length) (x j : Nat) :
    (v.setSysDesc i x).sysDescAt j = if i = j then x else v.sysDescAt j := by
  simp only [Vec.sysDescAt, Vec.setSysDesc, List.getElem?_modify]
  by_cases h : i = j
  · subst h
    simp [hi]
  · simp [h]

theorem setSysDesc_comm (h : i ≠ j) (v : Vec) (x y : Nat) :
    (v.setSysDesc i x).setSysDesc j y = (v.setSysDesc j y).setSysDesc i x := by
  simp only [Vec.setSysDesc, Vec.mk.injEq, and_true]
  apply List.ext_getElem?
  intro k
  simp only [List.getElem?_modify]
  by_cases hi : i = k
  · have hj : ¬ j = k := fun e => h (hi.trans e.symm)
    simp [hi, hj]
  · simp [hi]

theorem setSysDesc_twice (v : Vec) (i x y : Nat) :
    (v.setSysDesc i x).setSysDesc i y = v.setSysDesc i y := by
  simp only [Vec.setSysDesc, Vec.mk.injEq, and_true]
  apply List.ext_getElem?
  intro k
  simp only [List.getElem?_modify]
  by_cases hi : i = k
  · simp only [hi, if_true, Option.map_eq_map, Option.map_map]
    rfl
  · simp [hi]

theorem setSysDesc_self (v : Vec) (i : Nat) : v.setSysDesc i (v.sysDescAt i) = v := by
  obtain ⟨es, c⟩ := v
  simp only [Vec.setSysDesc, Vec.sysDescAt, Vec.mk.injEq, and_true]
  apply List.ext_getElem?
  intro k
  simp only [List.getElem?_modify]
  by_cases hi : i = k
  · subst hi
    cases es[i]? <;> simp
  · simp [hi]

/-- One cell changes. -/
theorem occurs_cell (hi : i < v.elems.length) (x d : Nat) :
    occurs (v.setSysDesc i x).elems d + (if d = v.sysDescAt i then 1 else 0) =
      occurs v.elems d + if d = x then 1 else 0 := by
  have hget := List.getElem?_eq_getElem hi
  rw [setSysDesc_elems hget, sysDescAt_eq hget]
  exact occurs_set hget _ x d

theorem occurs_cell_pos (hi : i < v.elems.length) : 0 < occurs v.elems (v.sysDescAt i) := by
  have hget := List.getElem?_eq_getElem hi
  rw [sysDescAt_eq hget]
  exact occurs_pos hget

/-- The cell gives up its reference. -/
theorem occurs_cleared (hi : i < v.elems.length) {d : Nat} (hd : d ≠ 0) :
    occurs v.elems d = occurs (v.setSysDesc i 0).elems d + if d = v.sysDescAt i then 1 else 0 := by
  have h := occurs_cell hi 0 d
  rw [if_neg hd] at h
  exact h.symm

end Cells

/-! ## 4. The invariant -/

/-- The table as it is counted: while a `copyfd` has not yet counted what it stored, or not yet stored
    what it counted, the cell of `oldFD` counts as what the count says. -/
def Pc.counted (v : Vec) : Pc → Vec
  | .count o _ => v.setSysDesc o.i 0
  | .adding o _ => v.setSysDesc o.i 0
  | .storing o n => v.setSysDesc o.i (v.sysDescAt n.i)
  | _ => v

/-- A pointer to a cell of the table. -/
def Shared.valid (s : Shared) (p : Ptr) : Prop := p.storage = s.storage ∧ p.i < s.fds.elems.length

/-- What a `copyfd` knows of its two cells. -/
def Pc.ok (s : Shared) : Pc → Prop
  | .idle => True
  | .io _ _ => True
  | .found _ o n => (∀ p ∈ o, s.valid p) ∧ ∀ p ∈ n, s.valid p
  | .insert _ n begin => s.valid n ∧ begin = s.storage
  | .tail o n => s.valid o ∧ s.valid n
  | .set o n => s.valid o ∧ s.valid n ∧ s.fds.sysDescAt o.i = 0
  | .count o n => s.valid o ∧ s.valid n ∧ s.fds.sysDescAt o.i = s.fds.sysDescAt n.i ∧
      (o.i = n.i → s.fds.sysDescAt o.i = 0)
  | .closing o n => s.valid o ∧ s.valid n ∧ s.fds.sysDescAt o.i ≠ 0 ∧
      s.fds.sysDescAt o.i ≠ s.fds.sysDescAt n.i
  | .adding o n => s.valid o ∧ s.valid n ∧ s.fds.sysDescAt o.i ≠ s.fds.sysDescAt n.i
  | .storing o n => s.valid o ∧ s.valid n ∧ s.fds.sysDescAt o.i ≠ s.fds.sysDescAt n.i

/-- No other thread is in the middle of a `copyfd`. -/
def alone (s : Shared) (t : Nat) : Prop := ∀ u, (s.pc u).copying → u = t

structure RaceInv (ext : Nat → Nat) (nextDesc : Nat) (s : Shared) : Prop where
  exact : ∀ t, alone s t →
    Exact s.descs (fun d => ext d + occurs ((s.pc t).counted s.fds).elems d) nextDesc
  one : ∃ t, alone s t
  ok : ∀ t, (s.pc t).ok s
  live : AccessesLive s

section Inv

variable {ext : Nat → Nat} {nd : Nat} {s : Shared} {t : Nat}

theorem Pc.counted_quiet {p : Pc} (h : ¬ p.copying) (v : Vec) : p.counted v = v := by
  cases p <;> simp_all [Pc.copying, Pc.counted]

theorem Pc.ok_quiet {p : Pc} (h : ¬ p.copying) (s : Shared) : p.ok s := by
  cases p <;> simp_all [Pc.copying, Pc.ok]

@[simp] theorem goto_self (s : Shared) (t : Nat) (p : Pc) : (s.goto t p).pc t = p := by
  simp [Shared.goto]

theorem goto_other {u : Nat} (h : u ≠ t) (s : Shared) (p : Pc) : (s.goto t p).pc u = s.pc u := by
  simp [Shared.goto, h]

/-- What a thread knows of its cells depends on these cells only. -/
theorem Pc.ok_congr {p : Pc} {s' : Shared} (h : p.ok s) (hst : s'.storage = s.storage)
    (hl : s'.fds.elems.length = s.fds.elems.length)
    (hc : ∀ i ∈ p.cells, s'.fds.sysDescAt i = s.fds.sysDescAt i) : p.ok s' := by
  have hv : ∀ q, s.valid q → s'.valid q := fun q hq => ⟨hq.1.trans hst.symm, hl ▸ hq.2⟩
  cases p with
  | idle => trivial
  | io d rest => trivial
  | found old o n => exact ⟨fun q hq => hv q (h.1 q hq), fun q hq => hv q (h.2 q hq)⟩
  | insert old n begin => exact ⟨hv n h.1, h.2.trans hst.symm⟩
  | tail o n => exact ⟨hv o h.1, hv n h.2⟩
  | set o n =>
      refine ⟨hv o h.1, hv n h.2.1, ?_⟩
      rw [hc o.i List.mem_cons_self]
      exact h.2.2
  | count o n =>
      refine ⟨hv o h.1, hv n h.2.1, ?_⟩
      rw [hc o.i List.mem_cons_self, hc n.i (List.mem_cons_of_mem _ List.mem_cons_self)]
      exact h.2.2
  | closing o n =>
      refine ⟨hv o h.1, hv n h.2.1, ?_⟩
      rw [hc o.i List.mem_cons_self, hc n.i (List.mem_cons_of_mem _ List.mem_cons_self)]
      exact h.2.2
  | adding o n =>
      refine ⟨hv o h.1, hv n h.2.1, ?_⟩
      rw [hc o.i List.mem_cons_self, hc n.i (List.mem_cons_of_mem _ List.mem_cons_self)]
      exact h.2.2
  | storing o n =>
      refine ⟨hv o h.1, hv n h.2.1, ?_⟩
      rw [hc o.i List.mem_cons_self, hc n.i (List.mem_cons_of_mem _ List.mem_cons_self)]
      exact h.2.2

/-- A `close` of a cell without a pointer to it closes it in the counted table. -/
theorem Pc.counted_set {p : Pc} {v : Vec} {i : Nat} (h : i ∉ p.cells) (hi : i < v.elems.length) :
    p.counted (v.setSysDesc i 0) = (p.counted v).setSysDesc i 0 := by
  cases p with
  | idle => rfl
  | io d rest => rfl
  | found old o n => rfl
  | insert old n begin => rfl
  | tail o n => rfl
  | set o n => rfl
  | closing o n => rfl
  | count o n =>
      simp only [Pc.cells, List.mem_cons, not_or] at h
      exact setSysDesc_comm h.1 v 0 0
  | adding o n =>
      simp only [Pc.cells, List.mem_cons, not_or] at h
      exact setSysDesc_comm h.1 v 0 0
  | storing o n =>
      simp only [Pc.cells, List.mem_cons, not_or] at h
      show (v.setSysDesc i 0).setSysDesc o.i ((v.setSysDesc i 0).sysDescAt n.i) = _
      rw [sysDescAt_set hi, if_neg h.2.1]
      exact setSysDesc_comm h.1 v 0 _

/-- The counted table differs from the table in a cell of `oldFD` only. -/
theorem Pc.counted_at {p : Pc} {i : Nat} (h : p.ok s)
    (hi : ∀ o n, p = .count o n ∨ p = .adding o n ∨ p = .storing o n → i ≠ o.i) :
    (p.counted s.fds).sysDescAt i = s.fds.sysDescAt i := by
  cases p with
  | idle => rfl
  | io d rest => rfl
  | found old o n => rfl
  | insert old n begin => rfl
  | tail o n => rfl
  | set o n => rfl
  | closing o n => rfl
  | count o n =>
      show (s.fds.setSysDesc o.i 0).sysDescAt i = _
      rw [sysDescAt_set h.1.2, if_neg (hi o n (Or.inl rfl)).symm]
  | adding o n =>
      show (s.fds.setSysDesc o.i 0).sysDescAt i = _
      rw [sysDescAt_set h.1.2, if_neg (hi o n (Or.inr (Or.inl rfl))).symm]
  | storing o n =>
      show (s.fds.setSysDesc o.i (s.fds.sysDescAt n.i)).sysDescAt i = _
      rw [sysDescAt_set h.1.2, if_neg (hi o n (Or.inr (Or.inr rfl))).symm]

theorem Pc.counted_length {p : Pc} (v : Vec) : (p.counted v).elems.length = v.elems.length := by
  cases p <;> simp [Pc.counted]

theorem raceInv_init (h : raceInit ext nd s) : RaceInv ext nd s := by
  refine ⟨fun t _ => ?_, ⟨0, fun u hu => ?_⟩, fun t => ?_, fun t d f rest ht => ?_⟩
  · rw [h.1 t]
    exact h.2
  · rw [h.1 u] at hu
    exact hu.elim
  · rw [h.1 t]
    trivial
  · rw [h.1 t] at ht
    cases ht

/-- A thread outside a `copyfd` goes on outside one. -/
theorem raceInv_quiet (hI : RaceInv ext nd s) {p : Pc} (ht : ¬ (s.pc t).copying) (hp : ¬ p.copying)
    (hio : ∀ d f rest, p = .io d (f :: rest) → s.descs.live d = true) : RaceInv ext nd (s.goto t p) := by
  have hsame : ∀ u, ((s.goto t p).pc u).copying ↔ (s.pc u).copying := fun u => by
    by_cases hu : u = t
    · subst hu
      rw [goto_self]
      exact iff_of_false hp ht
    · rw [goto_other hu]
  have halone : ∀ u, alone (s.goto t p) u → alone s u := fun u h w hw => h w ((hsame w).mpr hw)
  refine ⟨fun u hu => ?_, ?_, fun u => ?_, fun u d f rest hpc => ?_⟩
  · have h := hI.exact u (halone u hu)
    by_cases hut : u = t
    · subst hut
      rw [Pc.counted_quiet ht] at h
      rw [goto_self, Pc.counted_quiet hp]
      exact h
    · rw [goto_other hut]
      exact h
  · obtain ⟨u, hu⟩ := hI.one
    exact ⟨u, fun w hw => hu w ((hsame w).mp hw)⟩
  · by_cases hut : u = t
    · subst hut
      rw [goto_self]
      exact Pc.ok_quiet hp _
    · rw [goto_other hut]
      exact Pc.ok_congr (hI.ok u) rfl rfl fun i _ => rfl
  · by_cases hut : u = t
    · subst hut
      rw [goto_self] at hpc
      exact hio d f rest hpc
    · rw [goto_other hut] at hpc
      exact hI.live u d f rest hpc

/-- The only `copyfd` makes a step. -/
theorem raceInv_move (ht : alone s t) {s' : Shared} {p : Pc}
    (hpc : s'.pc = Function.update s.pc t p)
    (hE : Exact s'.descs (fun d => ext d + occurs (p.counted s'.fds).elems d) nd) (hok : p.ok s')
    (hp : ∀ d rest, p ≠ .io d rest)
    (hlive : ∀ u d f rest, s.pc u = .io d (f :: rest) → s'.descs.live d = true) :
    RaceInv ext nd s' := by
  have hself : s'.pc t = p := by rw [hpc, Function.update_self]
  have hother : ∀ u, u ≠ t → s'.pc u = s.pc u := fun u hu => by rw [hpc, Function.update_of_ne hu]
  have hquiet : ∀ u, u ≠ t → ¬ (s.pc u).copying := fun u hu h => hu (ht u h)
  refine ⟨fun u hu => ?_, ⟨t, fun u hu => ?_⟩, fun u => ?_, fun u d f rest h => ?_⟩
  · by_cases hut : u = t
    · subst hut
      rw [hself]
      exact hE
    · -- `t` has left its `copyfd`
      have hpq : ¬ p.copying := fun h => hut (hu t (hself ▸ h)).symm
      rw [hother u hut, Pc.counted_quiet (hquiet u hut)]
      rw [Pc.counted_quiet hpq] at hE
      exact hE
  · by_contra hut
    rw [hother u hut] at hu
    exact hquiet u hut hu
  · by_cases hut : u = t
    · subst hut
      rw [hself]
      exact hok
    · rw [hother u hut]
      exact Pc.ok_quiet (hquiet u hut) _
  · by_cases hut : u = t
    · subst hut
      rw [hself] at h
      exact absurd h (hp d (f :: rest))
    · rw [hother u hut] at h
      exact hlive u d f rest h

/-- **A lookup finds a live descriptor.** -/
theorem lookup_live (hI : RaceInv ext nd s) {call : IOCall} {id : Int}
    (hok : apart s (.lookup t call id)) (h : threadGetSystemFileDescriptor s.fds id ≠ 0) :
    s.descs.live (threadGetSystemFileDescriptor s.fds id) = true := by
  cases hi : firstWith id s.fds.elems with
  | none => exact absurd (by simp [threadGetSystemFileDescriptor, hi]) h
  | some i =>
      have hd : threadGetSystemFileDescriptor s.fds id = s.fds.sysDescAt i := by
        simp [threadGetSystemFileDescriptor, hi]
      rw [hd] at h ⊢
      have hlt : i < s.fds.elems.length := by
        obtain ⟨fd, hfd, -⟩ := firstWith_some hi
        exact (List.getElem?_eq_some_iff.mp hfd).1
      obtain ⟨u, hu⟩ := hI.one
      have hE := hI.exact u hu
      have hko := hI.ok u
      -- a cell that is counted as it stands
      have hcell : ∀ j, j < s.fds.elems.length →
          (∀ o n, s.pc u = .count o n ∨ s.pc u = .adding o n ∨ s.pc u = .storing o n → j ≠ o.i) →
          s.fds.sysDescAt j ≠ 0 → s.descs.live (s.fds.sysDescAt j) = true := fun j hj hne h0 => by
        have hpos := occurs_cell_pos (v := (s.pc u).counted s.fds)
          (i := j) (by rw [Pc.counted_length]; exact hj)
        rw [Pc.counted_at hko hne] at hpos
        exact (hE.live _ h0).mpr (Nat.lt_of_lt_of_le hpos (Nat.le_add_left _ _))
      -- a cell whose descriptor was closed still has references
      have hclosed : ∀ o n, s.pc u = .adding o n ∨ s.pc u = .storing o n → i = o.i →
          s.descs.live (s.fds.sysDescAt i) = true := fun o n hpc hio => by
        have hne := hok u o n hpc (hio ▸ hi)
        rw [← hio, hE.count _ h] at hne
        exact (hE.live _ h).mpr (Nat.pos_of_ne_zero hne)
      by_cases hio : ∀ o n, s.pc u = .count o n ∨ s.pc u = .adding o n ∨ s.pc u = .storing o n →
          i ≠ o.i
      · exact hcell i hlt hio h
      · push Not at hio
        obtain ⟨o, n, hpc, hio⟩ := hio
        cases hpc with
        | inl hpc =>
            -- stored and not yet counted: the cell of `newFD` holds the same descriptor
            rw [hpc] at hko
            obtain ⟨hvo, hvn, hsame, hz⟩ := hko
            rw [hio, hsame]
            rw [hio] at h
            refine hcell n.i hvn.2 (fun o' n' hpc' => ?_) (hsame ▸ h)
            rw [hpc] at hpc'
            cases hpc' with
            | inl e =>
                cases e
                exact fun e => h (hz e.symm)
            | inr e => cases e with
              | inl e => cases e
              | inr e => cases e
        | inr hpc => exact hclosed o n hpc hio

/-- `Close` of a descriptor that nobody has to access any more. -/
theorem close_live {D : Descs} {d x : Nat} (h : D.live d = true) (hd : D.refCount x = 1 → d ≠ x)
    (hx : x ≠ 0) (hpos : 0 < D.refCount x) : (close D x).live d = true := by
  by_cases hone : D.refCount x - 1 = 0
  · have hne := hd (by omega)
    simp only [close, hx, if_false, hone, if_true, Function.update_of_ne hne]
    exact h
  · simp only [close, hx, if_false, hone]
    exact h

theorem addRef_live (D : Descs) (x : Nat) : (addRef D x).live = D.live := by
  by_cases hx : x = 0
  · simp [addRef, hx]
  · simp [addRef, hx]

theorem accessesLive_addRef (hI : RaceInv ext nd s) (x : Nat) :
    ∀ u d f rest, s.pc u = .io d (f :: rest) → (addRef s.descs x).live d = true := fun u d f rest hpc => by
  rw [addRef_live]
  exact hI.live u d f rest hpc

theorem raceInv_close (hI : RaceInv ext nd s) {id : Int} (hok : apart s (.close t id)) :
    RaceInv ext nd { s with
      fds := (threadCloseFileDescriptor s.fds s.descs id).1
      descs := (threadCloseFileDescriptor s.fds s.descs id).2.1 } := by
  cases hi : firstWith id s.fds.elems with
  | none =>
      have hq : threadCloseFileDescriptor s.fds s.descs id = (s.fds, s.descs, ErrorInvalidFD) := by
        simp only [threadCloseFileDescriptor, hi]
      rw [hq]
      exact hI
  | some i =>
      by_cases hz : s.fds.sysDescAt i = 0
      · have hq : threadCloseFileDescriptor s.fds s.descs id = (s.fds, s.descs, ErrorInvalidFD) := by
          simp only [threadCloseFileDescriptor, hi, hz, if_true]
        rw [hq]
        exact hI
      · have hq : threadCloseFileDescriptor s.fds s.descs id =
            (s.fds.setSysDesc i 0, close s.descs (s.fds.sysDescAt i), OK) := by
          simp only [threadCloseFileDescriptor, hi, hz, if_false]
        rw [hq]
        obtain ⟨hcells, hunused⟩ := hok i hi
        have hlt : i < s.fds.elems.length := by
          obtain ⟨fd, hfd, -⟩ := firstWith_some hi
          exact (List.getElem?_eq_some_iff.mp hfd).1
        have hne : ∀ u o n, s.pc u = .count o n ∨ s.pc u = .adding o n ∨ s.pc u = .storing o n →
            i ≠ o.i := fun u o n hpc hio => by
          refine hcells u ?_
          cases hpc with
          | inl e => rw [e, hio]; exact List.mem_cons_self
          | inr e => cases e with
            | inl e => rw [e, hio]; exact List.mem_cons_self
            | inr e => rw [e, hio]; exact List.mem_cons_self
        have hstep : ∀ u e, e ≠ 0 → occurs ((s.pc u).counted s.fds).elems e =
            occurs ((s.pc u).counted (s.fds.setSysDesc i 0)).elems e +
              if e = s.fds.sysDescAt i then 1 else 0 := fun u e he => by
          have h := occurs_cell (v := (s.pc u).counted s.fds) (i := i)
            (by rw [Pc.counted_length]; exact hlt) 0 e
          rw [← Pc.counted_set (hcells u) hlt, Pc.counted_at (hI.ok u) (hne u), if_neg he] at h
          exact h.symm
        refine ⟨fun u hu => ?_, hI.one, fun u => ?_, fun u d f rest hpc => ?_⟩
        · refine (hI.exact u hu).close hz fun e he => ?_
          simp only
          rw [hstep u e he, Nat.add_assoc]
        · refine Pc.ok_congr (hI.ok u) rfl (setSysDesc_length _ _ _) fun j hj => ?_
          show (s.fds.setSysDesc i 0).sysDescAt j = _
          have hij : ¬ i = j := fun e => hcells u (e ▸ hj)
          rw [sysDescAt_set hlt, if_neg hij]
        · obtain ⟨w, hw⟩ := hI.one
          refine close_live (hI.live u d f rest hpc) (fun h1 e => ?_) hz ?_
          · exact hunused h1 u f rest (e ▸ hpc)
          · rw [(hI.exact w hw).count _ hz, hstep w _ hz, if_pos rfl]
            exact Nat.lt_of_lt_of_le (Nat.succ_pos _) (Nat.le_add_left _ _)

theorem load_valid {p : Ptr} (h : s.valid p) (stale : Ptr → Nat) :
    s.load stale p = s.fds.sysDescAt p.i := if_pos h.1

theorem store_valid {p : Ptr} (h : s.valid p) (x : Nat) :
    s.store p x = { s with fds := s.fds.setSysDesc p.i x } := if_pos h.1

/-- The thread in `copyfd` is the only one in it. -/
theorem RaceInv.alone_of (hI : RaceInv ext nd s) (ht : (s.pc t).copying) : alone s t := by
  obtain ⟨u, hu⟩ := hI.one
  have hut : t = u := hu t ht
  subst hut
  exact hu

/-- A step that only moves the `copyfd` on. -/
theorem raceInv_goto (hI : RaceInv ext nd s) (ht : (s.pc t).copying)
    (hsame : (s.pc t).counted s.fds = s.fds) {p : Pc} (hp : p.counted s.fds = s.fds)
    (hio : ∀ d rest, p ≠ .io d rest) (hok : p.ok s) : RaceInv ext nd (s.goto t p) := by
  have hu := hI.alone_of ht
  have hE := hI.exact t hu
  rw [hsame] at hE
  refine raceInv_move hu rfl ?_ (Pc.ok_congr hok rfl rfl fun i _ => rfl) hio hI.live
  show Exact s.descs (fun d => ext d + occurs (p.counted s.fds).elems d) nd
  rw [hp]
  exact hE

/-- `*oldFD = *newFD` takes place, and is not counted yet. -/
theorem raceInv_set (hI : RaceInv ext nd s) {stale : Ptr → Nat} (halone : alone s t) {o n : Ptr}
    (hp : s.pc t = .set o n) : RaceInv ext nd (s.copyNext t stale) := by
  have hE := hI.exact t halone
  have hko := hI.ok t
  rw [hp] at hE hko
  obtain ⟨ho, hn, hz⟩ := hko
  unfold Shared.copyNext
  rw [hp]
  dsimp only
  rw [load_valid hn, store_valid ho]
  refine raceInv_move (p := .count o n) halone rfl ?_ ?_ (fun _ _ => by simp) hI.live
  · -- the cell counts as 0, as before
    show Exact s.descs (fun d => ext d + occurs ((s.fds.setSysDesc o.i _).setSysDesc o.i 0).elems d) nd
    rw [setSysDesc_twice, ← hz, setSysDesc_self]
    exact hE
  · refine ⟨⟨ho.1, ?_⟩, ⟨hn.1, ?_⟩, ?_, fun e => ?_⟩
    · exact (setSysDesc_length _ _ _).symm ▸ ho.2
    · exact (setSysDesc_length _ _ _).symm ▸ hn.2
    · show (s.fds.setSysDesc o.i _).sysDescAt o.i = (s.fds.setSysDesc o.i _).sysDescAt n.i
      rw [sysDescAt_set ho.2, sysDescAt_set ho.2, if_pos rfl]
      split_ifs
      · rfl
      · rfl
    · show (s.fds.setSysDesc o.i _).sysDescAt o.i = 0
      rw [sysDescAt_set ho.2, if_pos rfl, ← e]
      exact hz

/-- `AddRef` of the descriptor that was stored. -/
theorem raceInv_count (hI : RaceInv ext nd s) {stale : Ptr → Nat} (halone : alone s t) {o n : Ptr}
    (hp : s.pc t = .count o n) : RaceInv ext nd (s.copyNext t stale) := by
  have hE := hI.exact t halone
  have hko := hI.ok t
  rw [hp] at hE hko
  obtain ⟨ho, hn, hsame, hz⟩ := hko
  unfold Shared.copyNext
  rw [hp]
  dsimp only
  rw [load_valid ho]
  refine raceInv_move (p := .idle) halone rfl ?_ trivial (fun _ _ => by simp) (accessesLive_addRef hI _)
  refine hE.addRef (fun h0 => ?_) fun e he => ?_
  · -- the cell of `newFD` holds the same descriptor and is counted
    have hne : ¬ o.i = n.i := fun e => h0 (hz e)
    have hpos := occurs_cell_pos (v := s.fds.setSysDesc o.i 0) (i := n.i)
      (by rw [setSysDesc_length]; exact hn.2)
    rw [sysDescAt_set ho.2, if_neg hne, ← hsame] at hpos
    exact Nat.lt_of_lt_of_le hpos (Nat.le_add_left _ _)
  · show ext e + occurs s.fds.elems e = ext e + occurs (s.fds.setSysDesc o.i 0).elems e + _
    rw [occurs_cleared ho.2 he, Nat.add_assoc]

/-- `Close` of the descriptor that the cell of `oldFD` holds. -/
theorem raceInv_closing (hI : RaceInv ext nd s) {stale : Ptr → Nat} (halone : alone s t)
    (hok : apart s (.copy t stale)) {o n : Ptr} (hp : s.pc t = .closing o n) :
    RaceInv ext nd (s.copyNext t stale) := by
  have hE := hI.exact t halone
  have hko := hI.ok t
  rw [hp] at hE hko
  obtain ⟨ho, hn, hz, hne⟩ := hko
  unfold Shared.copyNext
  rw [hp]
  dsimp only
  rw [load_valid ho]
  refine raceInv_move (p := .adding o n) halone rfl ?_ ⟨ho, hn, hne⟩ (fun _ _ => by simp) ?_
  · refine hE.close hz fun e he => ?_
    show ext e + occurs s.fds.elems e = ext e + occurs (s.fds.setSysDesc o.i 0).elems e + _
    rw [occurs_cleared ho.2 he, Nat.add_assoc]
  · intro u d f rest hpc
    refine close_live (hI.live u d f rest hpc) (fun h1 e => ?_) hz ?_
    · exact hok o n hp h1 u f rest (e ▸ hpc)
    · rw [hE.count _ hz]
      exact Nat.lt_of_lt_of_le (occurs_cell_pos ho.2) (Nat.le_add_left _ _)

/-- `AddRef` of the descriptor that the cell of `oldFD` is going to hold. -/
theorem raceInv_adding (hI : RaceInv ext nd s) {stale : Ptr → Nat} (halone : alone s t) {o n : Ptr}
    (hp : s.pc t = .adding o n) : RaceInv ext nd (s.copyNext t stale) := by
  have hE := hI.exact t halone
  have hko := hI.ok t
  rw [hp] at hE hko
  obtain ⟨ho, hn, hne⟩ := hko
  have hon : ¬ o.i = n.i := fun e => hne (by rw [e])
  unfold Shared.copyNext
  rw [hp]
  dsimp only
  rw [load_valid hn]
  refine raceInv_move (p := .storing o n) halone rfl ?_ ⟨ho, hn, hne⟩ (fun _ _ => by simp) (accessesLive_addRef hI _)
  refine hE.addRef (fun _ => ?_) fun e he => ?_
  · have hpos := occurs_cell_pos (v := s.fds.setSysDesc o.i 0) (i := n.i)
      (by rw [setSysDesc_length]; exact hn.2)
    rw [sysDescAt_set ho.2, if_neg hon] at hpos
    exact Nat.lt_of_lt_of_le hpos (Nat.le_add_left _ _)
  · have h := occurs_cell (v := s.fds.setSysDesc o.i 0) (i := o.i)
      (by rw [setSysDesc_length]; exact ho.2) (s.fds.sysDescAt n.i) e
    rw [setSysDesc_twice, sysDescAt_set ho.2, if_pos rfl, if_neg he] at h
    show ext e + occurs (s.fds.setSysDesc o.i (s.fds.sysDescAt n.i)).elems e =
      ext e + occurs (s.fds.setSysDesc o.i 0).elems e + _
    rw [Nat.add_assoc, ← h]
    rfl

/-- **A step of `copyfd` outside the lock keeps the invariant.** -/
theorem raceInv_copy (hI : RaceInv ext nd s) {stale : Ptr → Nat} (ht : (s.pc t).copying)
    (hok : apart s (.copy t stale)) : RaceInv ext nd (s.copyNext t stale) := by
  have halone := hI.alone_of ht
  have hstart : ∀ p, s.pc t = p → RaceInv ext nd (s.copyNext t stale) := fun p hp => by
    have hE := hI.exact t halone
    have hko := hI.ok t
    rw [hp] at hE hko
    cases p with
    | idle =>
        rw [hp] at ht
        exact ht.elim
    | io d rest =>
        rw [hp] at ht
        exact ht.elim
    | set o n => exact raceInv_set hI halone hp
    | count o n => exact raceInv_count hI halone hp
    | closing o n => exact raceInv_closing hI halone hok hp
    | adding o n => exact raceInv_adding hI halone hp
    | insert old n begin =>
        unfold Shared.copyNext
        rw [hp]
        exact hI
    | found old oldFD newFD =>
        have hquiet : (s.pc t).counted s.fds = s.fds := by rw [hp]; rfl
        unfold Shared.copyNext
        rw [hp]
        cases newFD with
        | none => exact raceInv_goto hI ht hquiet rfl (fun _ _ => by simp) trivial
        | some n =>
            have hn : s.valid n := hko.2 n rfl
            dsimp only
            split_ifs
            · exact raceInv_goto hI ht hquiet rfl (fun _ _ => by simp) trivial
            · cases oldFD with
              | none => exact raceInv_goto hI ht hquiet rfl (fun _ _ => by simp) ⟨hn, rfl⟩
              | some o => exact raceInv_goto hI ht hquiet rfl (fun _ _ => by simp) ⟨hko.1 o rfl, hn⟩
    | tail o n =>
        have hquiet : (s.pc t).counted s.fds = s.fds := by rw [hp]; rfl
        obtain ⟨ho, hn⟩ := hko
        unfold Shared.copyNext
        rw [hp]
        dsimp only
        rw [load_valid ho, load_valid hn]
        split_ifs with h1 h2
        · exact raceInv_goto hI ht hquiet rfl (fun _ _ => by simp) ⟨ho, hn, h1⟩
        · exact raceInv_goto hI ht hquiet rfl (fun _ _ => by simp) trivial
        · exact raceInv_goto hI ht hquiet rfl (fun _ _ => by simp) ⟨ho, hn, h1, h2⟩
    | storing o n =>
        obtain ⟨ho, hn, hne⟩ := hko
        unfold Shared.copyNext
        rw [hp]
        dsimp only
        rw [load_valid hn, store_valid ho]
        exact raceInv_move (p := .idle) halone rfl hE trivial (fun _ _ => by simp) hI.live
  exact hstart _ rfl

theorem raceInv_find (hI : RaceInv ext nd s) {old new : Int} (ht : s.pc t = .idle)
    (hok : apart s (.find t old new)) : RaceInv ext nd (s.find t old new) := by
  unfold Shared.find
  split_ifs with hon
  · exact hI
  · have halone : alone s t := fun u hu => absurd hu (hok u)
    have hE := hI.exact t halone
    rw [ht] at hE
    have hvalid : ∀ id p, p ∈ (lastWith id s.fds.elems).map (fun i => (⟨s.storage, i⟩ : Ptr)) →
        s.valid p := fun id p hp => by
      obtain ⟨i, hi, rfl⟩ := Option.mem_map.mp hp
      obtain ⟨fd, hfd, -⟩ := lastWith_some hi
      exact ⟨rfl, (List.getElem?_eq_some_iff.mp hfd).1⟩
    refine raceInv_move halone rfl hE ⟨hvalid old, hvalid new⟩ (fun _ _ => by simp) hI.live

theorem raceInv_insert (hI : RaceInv ext nd s) {old : Int} {n : Ptr} {begin : Nat}
    (ht : s.pc t = .insert old n begin) (hfull : ¬ s.fds.full) :
    RaceInv ext nd (s.insertEntry t old n) := by
  have halone := hI.alone_of (t := t) (by rw [ht]; trivial)
  have hE := hI.exact t halone
  have hko := hI.ok t
  rw [ht] at hE hko
  have hle := insertPos_le old s.fds.elems
  have hlen : (s.fds.insertAt (insertPos old s.fds.elems) ⟨old, 0⟩).elems.length =
      s.fds.elems.length + 1 := List.length_insertIdx_of_le_length hle _
  unfold Shared.insertEntry
  simp only [hfull, if_false]
  refine raceInv_move (p := .tail _ _) halone rfl ?_ ⟨⟨rfl, ?_⟩, hko.1.1, ?_⟩ (fun _ _ => by simp) hI.live
  · refine hE.congr fun e he => ?_
    have h := occurs_insert ⟨old, 0⟩ hle e
    rw [if_neg he] at h
    show ext e + occurs (s.fds.elems.insertIdx (insertPos old s.fds.elems) ⟨old, 0⟩) e =
      ext e + occurs s.fds.elems e
    rw [h, Nat.add_zero]
  · show insertPos old s.fds.elems < (s.fds.insertAt (insertPos old s.fds.elems) ⟨old, 0⟩).elems.length
    rw [hlen]
    exact Nat.lt_succ_of_le hle
  · show n.i < (s.fds.insertAt (insertPos old s.fds.elems) ⟨old, 0⟩).elems.length
    rw [hlen]
    exact Nat.lt_succ_of_lt hko.1.2

theorem raceInv_step {s' : Shared} {ev : RaceEvent} (hI : RaceInv ext nd s)
    (hs : Guarded raceStep apart s ev s') : RaceInv ext nd s' := by
  obtain ⟨hs, hok⟩ := hs
  cases hs with
  | lookup t call id ht =>
      split_ifs with hz
      · exact hI
      · refine raceInv_quiet hI (by rw [ht]; exact fun h => h) (fun h => h) fun d f rest e => ?_
        obtain ⟨hd, -⟩ := Pc.io.inj e
        rw [← hd]
        exact lookup_live hI hok hz
  | access t desc f rest ht =>
      refine raceInv_quiet hI (by rw [ht]; exact id) (fun h => h) fun d f' rest' e => ?_
      cases e
      exact hI.live t desc f (f' :: rest') ht
  | leave t desc rest ht =>
      exact raceInv_quiet hI (by rw [ht]; exact id) (fun h => h) fun d f rest e => by cases e
  | close t id ht => exact raceInv_close hI hok
  | find t old new ht => exact raceInv_find hI ht hok
  | insert t old newFD begin ht hb => exact raceInv_insert hI ht hok
  | insertLost t old newFD oldFD begin fds ht hb =>
      have hko := hI.ok t
      rw [ht] at hko
      exact absurd hko.2 hb
  | copy t stale ht => exact raceInv_copy hI ht hok

theorem raceInv_reach (h : Reach (Guarded raceStep apart) (raceInit ext nd) s) : RaceInv ext nd s :=
  Reach.inv (I := RaceInv ext nd) (fun _ h0 => raceInv_init h0) (fun _ _ _ hI hs => raceInv_step hI hs) h

end Inv

/-! ## 5. Whole runs -/

/-- **No I/O call accesses a descriptor that was freed**, in every run whose steps meet the condition. -/
theorem io_on_live_descriptor {ext : Nat → Nat} {nextDesc : Nat} {s : Shared}
    (h : Reach (Guarded raceStep apart) (raceInit ext nextDesc) s) : AccessesLive s :=
  (raceInv_reach h).live

/-- A table with one file and the descriptor 1 of it. -/
def oneFile : Shared where
  fds := ⟨[⟨0, 1⟩], 1⟩
  storage := 0
  descs := ⟨fun d => if d = 1 then 1 else 0, fun d => decide (d = 1), fun _ => 0⟩
  pc := fun _ => .idle

theorem oneFile_init : raceInit (fun _ => 0) 2 oneFile := by
  have hocc : ∀ d, occurs oneFile.fds.elems d = if d = 1 then 1 else 0 := fun d => by
    simp only [occurs, oneFile, List.map_cons, List.map_nil, List.count_cons, List.count_nil,
      beq_iff_eq, eq_comm (a := d), Nat.zero_add]
  refine ⟨fun _ => rfl, fun d hd => ?_, fun d hd => ?_, fun d hd => ?_, fun d hd h => ?_⟩
  · rw [hocc, Nat.zero_add]
    rfl
  · rw [hocc, Nat.zero_add]
    by_cases h : d = 1
    · simp [oneFile, h]
    · simp [oneFile, h]
  · rw [hocc, Nat.zero_add]
    show 0 = _
    by_cases h : d = 1
    · simp [h]
    · rw [if_neg (by omega)]
  · rw [hocc, Nat.zero_add, if_neg (by omega)]

/-- Thread 0 is in the middle of a read. -/
theorem io_on_live_descriptor_read : ∃ s, Reach (Guarded raceStep apart) (raceInit (fun _ => 0) 2) s ∧
    s.pc 0 = .io 1 [.node, .pos] ∧ AccessesLive s := by
  have h0 : Reach (Guarded raceStep apart) (raceInit (fun _ => 0) 2) oneFile := .start _ oneFile_init
  have h1 := Reach.next _ _ _ h0 ⟨raceStep.lookup _ 0 .read 0 rfl, fun u o n h => by
    cases h with
    | inl h => cases h
    | inr h => cases h⟩
  have h2 := Reach.next _ _ _ h1 ⟨raceStep.access _ 0 1 .permissions [.pos, .node, .pos] rfl, trivial⟩
  have h3 := Reach.next _ _ _ h2 ⟨raceStep.access _ 0 1 .pos [.node, .pos] rfl, trivial⟩
  exact ⟨_, h3, rfl, io_on_live_descriptor h3⟩

/-- **A read goes to a freed descriptor**: thread 1 closes the file between the lookup of thread 0
    and its first access. -/
theorem read_freed : ¬ ∀ ext nextDesc s, Reach raceStep (raceInit ext nextDesc) s → AccessesLive s := by
  intro hall
  have h0 : Reach raceStep (raceInit (fun _ => 0) 2) oneFile := .start _ oneFile_init
  have h1 := Reach.next _ _ _ h0 (raceStep.lookup _ 0 .read 0 rfl)
  have h2 := Reach.next _ _ _ h1 (raceStep.close _ 1 0 rfl)
  have hlive := hall _ _ _ h2 0 1 .permissions [.pos, .node, .pos] rfl
  exact absurd hlive (by decide)

end Descriptors

end SimpleOS2
