/-
  File:      SimpleOS2/Scheduler/Descriptors.lean
  Subject:   DESCRIPTOR TABLES (scheduler/Scheduler.cpp, Close and AddRef of fs/VFS.cpp).

  A table is a `std::vector` of pairs (id, VFS descriptor); a closed id stays in it with descriptor
  0. A VFS descriptor is named by a number and is never named again after it is freed.

  * `Vec` -- the vector with its capacity: an insertion into a full vector moves the elements to new
    storage, one into a vector with room shifts those behind it. A pointer into the vector keeps
    designating its cell, so after an insertion it reads what stands in that cell (`cellAfter`);
  * `threadAddFileDescriptor`, `threadReplaceFileDescriptor`, `threadCloseFileDescriptor`,
    `threadGetSystemFileDescriptor`, `cloneTable`, `exitTable` -- the functions of the scheduler;
  * `sysStep` -- the calls of any number of threads, one after the other.
-/
import Mathlib.Algebra.BigOperators.Group.Finset.Basic
import Mathlib.Data.List.Count
import Mathlib.Data.List.InsertIdx
import Mathlib.Data.Int.Order.Basic
import SimpleOS2.Klib.Memory
import SimpleOS2.Lib.Run

namespace SimpleOS2

open Lib

namespace Descriptors

/-! ## 1. The functions -/

structure ThreadFileDescriptor where
  id : Int
  sysDesc : Nat
  deriving DecidableEq

/-- `std::vector<ThreadFileDescriptor>`. -/
structure Vec where
  elems : List ThreadFileDescriptor
  cap : Nat

/-- An insertion now moves the elements to new storage. -/
def Vec.full (v : Vec) : Prop := v.elems.length = v.cap

instance (v : Vec) : Decidable v.full := inferInstanceAs (Decidable (_ = _))

/-- `insert` before position `i`; at the end it is `push_back`. -/
def Vec.insertAt (v : Vec) (i : Nat) (fd : ThreadFileDescriptor) : Vec :=
  ⟨v.elems.insertIdx i fd, if v.full then max 1 (2 * v.cap) else v.cap⟩

/-- `fd.sysDesc = sysDesc` for the element at position `i`. -/
def Vec.setSysDesc (v : Vec) (i sysDesc : Nat) : Vec :=
  { v with elems := v.elems.modify i fun fd => { fd with sysDesc := sysDesc } }

def Vec.sysDescAt (v : Vec) (i : Nat) : Nat := ((v.elems[i]?).map (·.sysDesc)).getD 0

/-- `VFS::FileDescriptor` objects: the reference count, whether the object exists, and how often its
    node was released. -/
structure Descs where
  refCount : Nat → Nat
  live : Nat → Bool
  released : Nat → Nat

/-- `VFS::Close`. -/
def close (d : Descs) (desc : Nat) : Descs :=
  if desc = 0 then d
  else if d.refCount desc - 1 = 0 then
    ⟨Function.update d.refCount desc 0, Function.update d.live desc false,
      Function.update d.released desc (d.released desc + 1)⟩
  else { d with refCount := Function.update d.refCount desc (d.refCount desc - 1) }

/-- `VFS::AddRef`. -/
def addRef (d : Descs) (desc : Nat) : Descs :=
  if desc = 0 then d
  else { d with refCount := Function.update d.refCount desc (d.refCount desc + 1) }

/-- The scan of `FindFreeFD`: where the new entry goes, and its id. -/
def freeSlot : (lastFD : Int) → List ThreadFileDescriptor → Nat × Int
  | lastFD, [] => (0, lastFD + 1)
  | lastFD, a :: rest =>
      if a.id ≠ lastFD + 1 then (0, lastFD + 1)
      else ((freeSlot a.id rest).1 + 1, (freeSlot a.id rest).2)

/-- `FindFreeFD`. -/
def findFreeFD (v : Vec) : Vec × Nat × Int :=
  let r := freeSlot (-1) v.elems
  (v.insertAt r.1 ⟨r.2, 0⟩, r)

/-- `ThreadAddFileDescriptor`. -/
def threadAddFileDescriptor (v : Vec) (sysDesc : Nat) : Vec × Int :=
  let r := findFreeFD v
  (r.1.setSysDesc r.2.1 sysDesc, r.2.2)

/-- The position of the last element with this id: the loop goes on after a match. -/
def lastWith (id : Int) : List ThreadFileDescriptor → Option Nat
  | [] => none
  | a :: rest =>
      match lastWith id rest with
      | some i => some (i + 1)
      | none => if a.id = id then some 0 else none

/-- The position of the first element with a larger id. -/
def insertPos (id : Int) (es : List ThreadFileDescriptor) : Nat :=
  es.findIdx fun a => a.id > id

/-- What a pointer to position `n` of `v` reads after the insertion of `fd` before position `i`:
    the cell, if the elements stayed in their storage; `stale`, if the storage was given back. -/
def cellAfter (v : Vec) (i : Nat) (fd : ThreadFileDescriptor) (n stale : Nat) : Nat :=
  if v.full then stale else (v.insertAt i fd).sysDescAt n

/-- `ThreadReplaceFileDescriptor`. -/
def threadReplaceFileDescriptor (v : Vec) (d : Descs) (oldPDesc newPDesc : Int) (stale : Nat) :
    Vec × Descs × Int :=
  if oldPDesc = newPDesc then (v, d, OK)
  else
    match lastWith newPDesc v.elems with
    | none => (v, d, ErrorInvalidFD)
    | some n =>
        if v.sysDescAt n = 0 then (v, d, ErrorInvalidFD)
        else
          match lastWith oldPDesc v.elems with
          | none =>
              let i := insertPos oldPDesc v.elems
              let newSys := cellAfter v i ⟨oldPDesc, 0⟩ n stale
              ((v.insertAt i ⟨oldPDesc, 0⟩).setSysDesc i newSys, addRef d newSys, OK)
          | some o =>
              if v.sysDescAt o = 0 then
                (v.setSysDesc o (v.sysDescAt n), addRef d (v.sysDescAt n), OK)
              else if v.sysDescAt o = v.sysDescAt n then (v, d, OK)
              else
                (v.setSysDesc o (v.sysDescAt n),
                  addRef (close d (v.sysDescAt o)) (v.sysDescAt n), OK)

/-- The position of the first element with this id. -/
def firstWith (id : Int) (es : List ThreadFileDescriptor) : Option Nat :=
  es.findIdx? fun a => a.id = id

/-- `ThreadCloseFileDescriptor`. -/
def threadCloseFileDescriptor (v : Vec) (d : Descs) (desc : Int) : Vec × Descs × Int :=
  match firstWith desc v.elems with
  | none => (v, d, ErrorInvalidFD)
  | some i =>
      if v.sysDescAt i = 0 then (v, d, ErrorInvalidFD)
      else (v.setSysDesc i 0, close d (v.sysDescAt i), OK)

/-- `ThreadGetSystemFileDescriptor`; 0 where it answers `ErrorInvalidFD`. -/
def threadGetSystemFileDescriptor (v : Vec) (pDesc : Int) : Nat :=
  ((firstWith pDesc v.elems).map v.sysDescAt).getD 0

/-- The descriptor copy of `CloneThread`: entry by entry, closed ids are left out. -/
def cloneTable (v : Vec) (d : Descs) : Vec × Descs :=
  v.elems.foldl (fun r fd =>
    if fd.sysDesc ≠ 0 then (r.1.insertAt r.1.elems.length fd, addRef r.2 fd.sysDesc) else r) (⟨[], 0⟩, d)

/-- The loop of `ThreadExit` over a table that nobody uses any more. -/
def exitTable (v : Vec) (d : Descs) : Descs :=
  v.elems.foldl (fun d fd => if fd.sysDesc ≠ 0 then close d fd.sysDesc else d) d

/-! ## 2. The system -/

/-- `ThreadFileDescriptors`, with the descriptor last installed under each id (0 after a close). -/
structure Table where
  refCount : Nat
  fds : Vec
  last : Int → Nat

/-- The tables, by number; the table of each live thread; the VFS descriptors; how many references
    to each the kernel's own code holds. -/
structure Sys where
  tables : Nat → Table
  next : Nat
  threads : List Nat
  descs : Descs
  nextDesc : Nat
  held : Nat → Nat

inductive Event where
  | createThread
  | openFile
  | closeFile (desc : Nat)
  | add (k desc : Nat)
  | replace (k : Nat) (old new : Int) (stale : Nat)
  | close (k : Nat) (id : Int)
  | cloneShare (k : Nat)
  | cloneCopy (k : Nat)
  | exit (k : Nat)

def Sys.setTable (s : Sys) (k : Nat) (t : Table) : Sys := { s with tables := Function.update s.tables k t }

/-- The call `ThreadReplaceFileDescriptor(old, new)` of a thread with table `k`. -/
def Sys.replace (s : Sys) (k : Nat) (old new : Int) (stale : Nat) : Sys :=
  let t := s.tables k
  let r := threadReplaceFileDescriptor t.fds s.descs old new stale
  let last := if r.2.2 = OK ∧ old ≠ new then
    Function.update t.last old (threadGetSystemFileDescriptor t.fds new) else t.last
  { s.setTable k { t with fds := r.1, last := last } with descs := r.2.1 }

/-- The call `ThreadCloseFileDescriptor(id)`. -/
def Sys.closeId (s : Sys) (k : Nat) (id : Int) : Sys :=
  let t := s.tables k
  let r := threadCloseFileDescriptor t.fds s.descs id
  { s.setTable k { t with fds := r.1, last := Function.update t.last id 0 } with descs := r.2.1 }

/-- `CloneThread` with a copy of the table. -/
def Sys.cloneCopy (s : Sys) (k : Nat) : Sys :=
  let r := cloneTable (s.tables k).fds s.descs
  { s.setTable s.next ⟨1, r.1, (s.tables k).last⟩ with
    next := s.next + 1, threads := s.next :: s.threads, descs := r.2 }

/-- `ThreadExit`, as far as it is about descriptors. -/
def Sys.exitThread (s : Sys) (k : Nat) : Sys :=
  let t := s.tables k
  if t.refCount - 1 = 0 then
    { s.setTable k ⟨0, ⟨[], 0⟩, fun _ => 0⟩ with
      threads := s.threads.erase k, descs := exitTable t.fds s.descs }
  else { s.setTable k { t with refCount := t.refCount - 1 } with threads := s.threads.erase k }

/-- One call. `k ∈ s.threads` stands for "the caller is a live thread with table `k`". -/
inductive sysStep : Sys → Event → Sys → Prop where
  | createThread (s : Sys) :
      sysStep s .createThread { s.setTable s.next ⟨1, ⟨[], 0⟩, fun _ => 0⟩ with
        next := s.next + 1, threads := s.next :: s.threads }
  | openFile (s : Sys) :
      sysStep s .openFile { s with
        descs := ⟨Function.update s.descs.refCount s.nextDesc 1,
          Function.update s.descs.live s.nextDesc true, s.descs.released⟩
        nextDesc := s.nextDesc + 1
        held := Function.update s.held s.nextDesc 1 }
  | closeFile (s : Sys) (desc : Nat) (h : 0 < s.held desc) :
      sysStep s (.closeFile desc) { s with
        descs := Descriptors.close s.descs desc
        held := Function.update s.held desc (s.held desc - 1) }
  | add (s : Sys) (k desc : Nat) (hk : k ∈ s.threads) (h : 0 < s.held desc) :
      sysStep s (.add k desc)
        { s.setTable k { s.tables k with
            fds := (threadAddFileDescriptor (s.tables k).fds desc).1
            last := Function.update (s.tables k).last
              (threadAddFileDescriptor (s.tables k).fds desc).2 desc } with
          held := Function.update s.held desc (s.held desc - 1) }
  | replace (s : Sys) (k : Nat) (old new : Int) (stale : Nat) (hk : k ∈ s.threads) :
      sysStep s (.replace k old new stale) (s.replace k old new stale)
  | close (s : Sys) (k : Nat) (id : Int) (hk : k ∈ s.threads) :
      sysStep s (.close k id) (s.closeId k id)
  | cloneShare (s : Sys) (k : Nat) (hk : k ∈ s.threads) :
      sysStep s (.cloneShare k)
        { s.setTable k { s.tables k with refCount := (s.tables k).refCount + 1 } with
          threads := k :: s.threads }
  | cloneCopy (s : Sys) (k : Nat) (hk : k ∈ s.threads) :
      sysStep s (.cloneCopy k) (s.cloneCopy k)
  | exit (s : Sys) (k : Nat) (hk : k ∈ s.threads) : sysStep s (.exit k) (s.exitThread k)

/-- No thread, no table, no descriptor. -/
def sysInit (s : Sys) : Prop :=
  s.threads = [] ∧ s.next = 0 ∧ s.nextDesc = 1 ∧ (∀ k, s.tables k = ⟨0, ⟨[], 0⟩, fun _ => 0⟩) ∧
    s.descs = ⟨fun _ => 0, fun _ => false, fun _ => 0⟩ ∧ ∀ d, s.held d = 0

/-! ## 3. The table as a list -/

section Lists

variable {es : List ThreadFileDescriptor} {v : Vec}

theorem sysDescAt_eq {i : Nat} {fd : ThreadFileDescriptor} (h : v.elems[i]? = some fd) :
    v.sysDescAt i = fd.sysDesc := by
  show ((v.elems[i]?).map (·.sysDesc)).getD 0 = fd.sysDesc
  rw [h]
  rfl

theorem lastWith_some {id : Int} {i : Nat} (h : lastWith id es = some i) :
    ∃ fd, es[i]? = some fd ∧ fd.id = id := by
  induction es generalizing i with
  | nil => exact absurd h (by simp [lastWith])
  | cons a rest ih =>
      cases hr : lastWith id rest with
      | some j =>
          simp only [lastWith, hr, Option.some.injEq] at h
          obtain ⟨fd, h1, h2⟩ := ih hr
          exact ⟨fd, by rw [← h, List.getElem?_cons_succ]; exact h1, h2⟩
      | none =>
          simp only [lastWith, hr] at h
          split_ifs at h with ha
          · cases h
            exact ⟨a, rfl, ha⟩

theorem lastWith_none {id : Int} (h : lastWith id es = none) : ∀ fd ∈ es, fd.id ≠ id := by
  induction es with
  | nil => exact fun fd hfd => absurd hfd List.not_mem_nil
  | cons a rest ih =>
      cases hr : lastWith id rest with
      | some j => exact absurd h (by simp [lastWith, hr])
      | none =>
          simp only [lastWith, hr] at h
          split_ifs at h with ha
          intro fd hfd
          cases List.mem_cons.mp hfd with
          | inl he => rw [he]; exact ha
          | inr hin => exact ih hr fd hin

theorem firstWith_some {id : Int} {i : Nat} (h : firstWith id es = some i) :
    ∃ fd, es[i]? = some fd ∧ fd.id = id := by
  obtain ⟨hi, hp, -⟩ := List.findIdx?_eq_some_iff_getElem.mp h
  exact ⟨es[i], List.getElem?_eq_getElem hi, by simpa using hp⟩

theorem insertPos_le (id : Int) (es : List ThreadFileDescriptor) : insertPos id es ≤ es.length :=
  List.findIdx_le_length

/-- `FindFreeFD` finds a position of the table. -/
theorem freeSlot_le (lastFD : Int) (es : List ThreadFileDescriptor) :
    (freeSlot lastFD es).1 ≤ es.length := by
  induction es generalizing lastFD with
  | nil => exact le_rfl
  | cons a rest ih =>
      by_cases h : a.id ≠ lastFD + 1
      · simp [freeSlot, h]
      · simp only [freeSlot, h, if_false, List.length_cons]
        exact Nat.succ_le_succ (ih a.id)

/-- Inserting an entry and then setting its descriptor. -/
theorem insertAt_setSysDesc {i : Nat} (hi : i ≤ v.elems.length) (id : Int) (x y : Nat) :
    ((v.insertAt i ⟨id, x⟩).setSysDesc i y).elems = v.elems.insertIdx i ⟨id, y⟩ := by
  show (v.elems.insertIdx i ⟨id, x⟩).modify i _ = _
  apply List.ext_getElem?
  intro j
  rw [List.getElem?_modify, List.getElem?_insertIdx, List.getElem?_insertIdx]
  by_cases h1 : j < i
  · have : ¬ i = j := by omega
    simp [h1, this]
  · by_cases h2 : j = i
    · subst h2
      simp [hi]
    · have : ¬ i = j := fun h => h2 h.symm
      simp [h1, h2, this]

theorem setSysDesc_elems {i x : Nat} {fd : ThreadFileDescriptor} (h : v.elems[i]? = some fd) :
    (v.setSysDesc i x).elems = v.elems.set i ⟨fd.id, x⟩ := by
  show v.elems.modify i _ = _
  rw [List.modify_eq_set_getElem?, h]
  rfl

end Lists

end Descriptors

end SimpleOS2
