/-
  File:      SimpleOS2/Scheduler/MemSpaces.lean
  Subject:   THE LIFE OF AN ADDRESS SPACE (CloneThread, ThreadExit and ThreadExec of scheduler/Scheduler.cpp).

  Threads share a `ThreadMemSpace`, which counts them. `CloneThread` takes a reference or forks the map,
  `ThreadExit` and `ThreadExec` give one up; who takes the count to zero frees the map, and deletes the
  structure or goes on with it.

  * `lifeStep` -- any number of threads in these calls, in any order. A step is one access to what threads
    share: `refCount++`, `DecAndCheckZero`, `FreeProcessMap`, an assignment;
  * `Sys.refs`, `Sys.lasts` -- the references of a thread, and who has seen the count at zero;
  * `SpaceInv` -- the counts are those of the references, and a count of zero has one thread that saw it;
  * `MapInv` -- every map is in one place: in a structure, with the thread that brings it, or freed;
  * `Lifetime`, `address_space_lifetime` -- the counts are exact, and a map is freed once, by its last user.
-/
import Mathlib.Data.Set.Card
import SimpleOS2.Lib.Run
import SimpleOS2.Lib.Tally

namespace SimpleOS2

open Lib

namespace MemSpaces

/-! ## 1. The system -/

/-- `struct ThreadMemSpace`. A map is named by a number of its own, whichever pages it has; 0 is no map. -/
structure ThreadMemSpace where
  refCount : Nat
  pml4Entry : Nat

/-- `Atomic<uint64>::DecAndCheckZero`: the count afterwards, and whether it is zero. Each reference has its
    `ThreadInfo` in memory, so that the count stays far below 2^64. -/
def decAndCheckZero (refCount : Nat) : Nat × Bool := (refCount - 1, refCount = 1)

/-- Where a thread stands. -/
inductive Pc where
  | running
  /-- In `CloneThread`, with the `memSpace` for the new thread. -/
  | cloning (memSpace : Nat)
  /-- In `ThreadExit`: `DecAndCheckZero` has returned true. -/
  | exitLast
  | exitShared
  /-- Behind `FreeProcessMap`, before `delete tInfo->memSpace`. -/
  | deleting
  | finished
  /-- In `ThreadExec`: `DecAndCheckZero` has returned true. -/
  | execLast (pml4Entry : Nat)
  | execShared (pml4Entry : Nat)
  /-- Behind `refCount = 1`. -/
  | reviving (pml4Entry : Nat)
  /-- Behind `FreeProcessMap`, before the assignment of `pml4Entry`. -/
  | replacing (pml4Entry : Nat)
  deriving DecidableEq

/-- A `ThreadInfo`. -/
structure Thread where
  memSpace : Nat
  pc : Pc
  deriving DecidableEq

/-- The threads and the structures in memory, by their addresses; the number of the next map; and the maps
    that `FreeProcessMap` was called on. -/
structure Sys where
  threads : Nat → Option Thread
  spaces : Nat → Option ThreadMemSpace
  nextMap : Nat
  freed : List Nat

def Sys.setThread (s : Sys) (t : Nat) (o : Option Thread) : Sys :=
  { s with threads := Function.update s.threads t o }

def Sys.setSpace (s : Sys) (a : Nat) (o : Option ThreadMemSpace) : Sys :=
  { s with spaces := Function.update s.spaces a o }

/-- `if(pml4Entry != 0) MemoryManager::FreeProcessMap(pml4Entry);` -/
def Sys.freeMap (s : Sys) (pml4Entry : Nat) : Sys :=
  if pml4Entry = 0 then s else { s with freed := s.freed ++ [pml4Entry] }

/-- `CreateProcessMap` or `ForkProcessMap` has answered. -/
def Sys.mapMade (s : Sys) : Sys := { s with nextMap := s.nextMap + 1 }

inductive Event where
  | createKernelThread (t a : Nat)
  | cloneShare (t : Nat)
  | cloneFork (t b : Nat)
  | publish (t u : Nat)
  | exitDec (t : Nat)
  | exitFree (t : Nat)
  | exitDelete (t : Nat)
  | exitLeave (t : Nat)
  | reap (t : Nat)
  | execDec (t : Nat)
  | execRevive (t : Nat)
  | execFree (t : Nat)
  | execSet (t : Nat)
  | execNew (t b : Nat)

inductive lifeStep : Sys → Event → Sys → Prop where
  /-- `_CreateKernelThread`. -/
  | createKernelThread (s : Sys) (t a : Nat) (ht : s.threads t = none) (ha : s.spaces a = none) :
      lifeStep s (.createKernelThread t a) ((s.setSpace a (some ⟨1, 0⟩)).setThread t (some ⟨a, .running⟩))
  /-- `memSpace = tInfo->memSpace; memSpace->refCount++;` -/
  | cloneShare (s : Sys) (t a : Nat) (m : ThreadMemSpace) (ht : s.threads t = some ⟨a, .running⟩)
      (ha : s.spaces a = some m) :
      lifeStep s (.cloneShare t)
        ((s.setSpace a (some { m with refCount := m.refCount + 1 })).setThread t (some ⟨a, .cloning a⟩))
  /-- `memSpace = new ThreadMemSpace(); memSpace->refCount = 1; memSpace->pml4Entry = ForkProcessMap();` -/
  | cloneFork (s : Sys) (t a b : Nat) (ht : s.threads t = some ⟨a, .running⟩) (hb : s.spaces b = none) :
      lifeStep s (.cloneFork t b)
        ((s.mapMade.setSpace b (some ⟨1, s.nextMap⟩)).setThread t (some ⟨a, .cloning b⟩))
  /-- `newT = new ThreadInfo(); newT->memSpace = memSpace;` -/
  | publish (s : Sys) (t u a b : Nat) (ht : s.threads t = some ⟨a, .cloning b⟩) (hu : s.threads u = none) :
      lifeStep s (.publish t u) ((s.setThread t (some ⟨a, .running⟩)).setThread u (some ⟨b, .running⟩))
  /-- `if(tInfo->memSpace->refCount.DecAndCheckZero())` of `ThreadExit`. -/
  | exitDec (s : Sys) (t a : Nat) (m : ThreadMemSpace) (ht : s.threads t = some ⟨a, .running⟩)
      (ha : s.spaces a = some m) :
      lifeStep s (.exitDec t) ((s.setSpace a (some { m with refCount := (decAndCheckZero m.refCount).1 })).setThread t
        (some ⟨a, if (decAndCheckZero m.refCount).2 then .exitLast else .exitShared⟩))
  | exitFree (s : Sys) (t a : Nat) (m : ThreadMemSpace) (ht : s.threads t = some ⟨a, .exitLast⟩)
      (ha : s.spaces a = some m) :
      lifeStep s (.exitFree t) ((s.freeMap m.pml4Entry).setThread t (some ⟨a, .deleting⟩))
  /-- `delete tInfo->memSpace;` -/
  | exitDelete (s : Sys) (t a : Nat) (ht : s.threads t = some ⟨a, .deleting⟩) :
      lifeStep s (.exitDelete t) ((s.setSpace a none).setThread t (some ⟨a, .finished⟩))
  | exitLeave (s : Sys) (t a : Nat) (ht : s.threads t = some ⟨a, .exitShared⟩) :
      lifeStep s (.exitLeave t) (s.setThread t (some ⟨a, .finished⟩))
  /-- `ThreadJoin` deletes the `ThreadInfo`. -/
  | reap (s : Sys) (t a : Nat) (ht : s.threads t = some ⟨a, .finished⟩) :
      lifeStep s (.reap t) (s.setThread t none)
  /-- `if(tInfo->memSpace->refCount.DecAndCheckZero())` of `ThreadExec`, called with a map of its own. -/
  | execDec (s : Sys) (t a : Nat) (m : ThreadMemSpace) (ht : s.threads t = some ⟨a, .running⟩)
      (ha : s.spaces a = some m) :
      lifeStep s (.execDec t)
        ((s.mapMade.setSpace a (some { m with refCount := (decAndCheckZero m.refCount).1 })).setThread t
          (some ⟨a, if (decAndCheckZero m.refCount).2 then .execLast s.nextMap else .execShared s.nextMap⟩))
  /-- `tInfo->memSpace->refCount = 1;` -/
  | execRevive (s : Sys) (t a e : Nat) (m : ThreadMemSpace) (ht : s.threads t = some ⟨a, .execLast e⟩)
      (ha : s.spaces a = some m) :
      lifeStep s (.execRevive t)
        ((s.setSpace a (some { m with refCount := 1 })).setThread t (some ⟨a, .reviving e⟩))
  | execFree (s : Sys) (t a e : Nat) (m : ThreadMemSpace) (ht : s.threads t = some ⟨a, .reviving e⟩)
      (ha : s.spaces a = some m) :
      lifeStep s (.execFree t) ((s.freeMap m.pml4Entry).setThread t (some ⟨a, .replacing e⟩))
  /-- `tInfo->memSpace->pml4Entry = pml4Entry;` -/
  | execSet (s : Sys) (t a e : Nat) (m : ThreadMemSpace) (ht : s.threads t = some ⟨a, .replacing e⟩)
      (ha : s.spaces a = some m) :
      lifeStep s (.execSet t)
        ((s.setSpace a (some { m with pml4Entry := e })).setThread t (some ⟨a, .running⟩))
  /-- `tInfo->memSpace = new ThreadMemSpace();` with `refCount` 1 and the map. -/
  | execNew (s : Sys) (t a b e : Nat) (ht : s.threads t = some ⟨a, .execShared e⟩) (hb : s.spaces b = none) :
      lifeStep s (.execNew t b) ((s.setSpace b (some ⟨1, e⟩)).setThread t (some ⟨b, .running⟩))

/-- Before the first thread. -/
def lifeInit (s : Sys) : Prop :=
  (∀ t, s.threads t = none) ∧ (∀ a, s.spaces a = none) ∧ s.nextMap = 1 ∧ s.freed = []

/-! ## 2. References and users -/

/-- The thread has not given up the reference that its `memSpace` is. -/
def Pc.holds : Pc → Bool
  | .running => true
  | .cloning _ => true
  | .reviving _ => true
  | .replacing _ => true
  | _ => false

/-- It has taken the count to zero. -/
def Pc.last : Pc → Bool
  | .exitLast => true
  | .deleting => true
  | .execLast _ => true
  | _ => false

/-- It has freed the map that still stands in its `memSpace`. -/
def Pc.stale : Pc → Bool
  | .deleting => true
  | .replacing _ => true
  | _ => false

/-- The map that `ThreadExec` was called with. -/
def Pc.brings : Pc → Option Nat
  | .execLast e => some e
  | .execShared e => some e
  | .reviving e => some e
  | .replacing e => some e
  | _ => none

/-- The threads whose `memSpace` points to the structure, up to their own `DecAndCheckZero`. -/
def Sys.holders (s : Sys) (a : Nat) : Set Nat := {t | ∃ pc, s.threads t = some ⟨a, pc⟩ ∧ pc.holds = true}

/-- The calls of `CloneThread` that have the structure for a new thread. -/
def Sys.clones (s : Sys) (a : Nat) : Set Nat := {t | ∃ c, s.threads t = some ⟨c, .cloning a⟩}

/-- The thread relies on the map in this structure. -/
def Thread.reliesOn (th : Thread) (a : Nat) : Prop :=
  th.memSpace = a ∧ (th.pc.holds || th.pc.last) = true ∧ th.pc.stale = false ∨ th.pc = .cloning a

/-- The thread uses the map, through a structure or as the argument of `ThreadExec`. -/
def Sys.uses (s : Sys) (t m : Nat) : Prop :=
  ∃ th, s.threads t = some th ∧
    ((∃ a c, th.reliesOn a ∧ s.spaces a = some ⟨c, m⟩) ∨ th.pc.brings = some m)

/-- **What holds of the address spaces**: the counts are exact, no thread has a structure that is gone, and a
    map was freed once, or never if a thread uses it. -/
structure Lifetime (s : Sys) : Prop where
  count : ∀ a m, s.spaces a = some m → (m.refCount : ENat) = (s.holders a).encard + (s.clones a).encard
  alive : ∀ t th a, s.threads t = some th →
    (th.memSpace = a ∧ (th.pc.holds || th.pc.last) = true ∨ th.pc = .cloning a) → ∃ m, s.spaces a = some m
  unused : ∀ m, 0 < m → m < s.nextMap → (∀ t, ¬ s.uses t m) → s.freed.count m = 1
  used : ∀ t m, 0 < m → s.uses t m → s.freed.count m = 0

/-- A step frees a map only as the last thread that has it leaves it, in `ThreadExit` or in `ThreadExec`. -/
def FreedByLast (s s' : Sys) : Prop :=
  s'.freed = s.freed ∨ ∃ t a m pc, s'.freed = s.freed ++ [m.pml4Entry] ∧ s.threads t = some ⟨a, pc⟩ ∧
    (pc = .exitLast ∨ ∃ e, pc = .reviving e) ∧ s.spaces a = some m ∧ s.holders a ⊆ {t} ∧ s.clones a = ∅ ∧
    ∀ u, s.uses u m.pml4Entry → u = t

/-! ## 3. The counts -/

/-- The thread alone has the structure, and its reference is the count. -/
def Pc.alone : Pc → Bool
  | .reviving _ => true
  | .replacing _ => true
  | _ => false

theorem holds_of_alone {pc : Pc} (h : pc.alone = true) : pc.holds = true := by
  cases pc <;> first | rfl | cases h

/-- The references of a thread: its `memSpace`, and the one for the thread that it makes. -/
def refsOf (o : Option Thread) (a : Nat) : Nat :=
  o.elim 0 fun th => (if th.memSpace = a ∧ th.pc.holds = true then 1 else 0) + if th.pc = .cloning a then 1 else 0

def lastsOf (o : Option Thread) (a : Nat) : Nat :=
  o.elim 0 fun th => if th.memSpace = a ∧ th.pc.last = true then 1 else 0

def countOf (p : Option ThreadMemSpace) : Nat := p.elim 0 (·.refCount)

def zeroOf (p : Option ThreadMemSpace) : Nat := p.elim 0 fun m => if m.refCount = 0 then 1 else 0

/-- **The counts are those of the references**, and a count that has come to zero has one thread that saw it. -/
structure SpaceInv (s : Sys) : Prop where
  refs : ∀ a, Tally (fun t => refsOf (s.threads t) a) (countOf (s.spaces a))
  lasts : ∀ a, Tally (fun t => lastsOf (s.threads t) a) (zeroOf (s.spaces a))
  alone : ∀ t a pc, s.threads t = some ⟨a, pc⟩ → pc.alone = true → countOf (s.spaces a) = 1

section Spaces

variable {s s' : Sys} {t u a b : Nat} {pc pc' : Pc} {m : ThreadMemSpace}

theorem refs_pos {o : Option Thread} (ho : o = some ⟨a, pc⟩) (hp : pc.holds = true) : 0 < refsOf o a := by
  subst ho
  simp [refsOf, hp]

theorem lasts_pos {o : Option Thread} (ho : o = some ⟨a, pc⟩) (hp : pc.last = true) : 0 < lastsOf o a := by
  subst ho
  simp [lastsOf, hp]

theorem SpaceInv.count_pos (hI : SpaceInv s) (ht : s.threads t = some ⟨a, pc⟩) (hp : pc.holds = true) :
    0 < countOf (s.spaces a) := Nat.lt_of_lt_of_le (refs_pos ht hp) ((hI.refs a).le t)

/-- Where one is alone, no other has a reference. -/
theorem SpaceInv.alone_eq (hI : SpaceInv s) (ht : s.threads t = some ⟨a, pc⟩) (hp : pc.alone = true)
    (hu : 0 < refsOf (s.threads u) a) : u = t := by
  by_contra hne
  have h1 := hI.alone t a pc ht hp
  have h2 := (hI.refs a).le_two hne
  have h3 := refs_pos ht (holds_of_alone hp)
  omega

theorem SpaceInv.last_zero (hI : SpaceInv s) (ht : s.threads t = some ⟨a, pc⟩) (hp : pc.last = true) :
    ∃ m, s.spaces a = some m ∧ m.refCount = 0 := by
  have hpos := Nat.lt_of_lt_of_le (lasts_pos ht hp) ((hI.lasts a).le t)
  cases ha : s.spaces a with
  | none =>
      rw [ha] at hpos
      cases hpos
  | some m =>
      rw [ha] at hpos
      refine ⟨m, rfl, ?_⟩
      by_contra hne
      have h0 : zeroOf (some m) = 0 := if_neg hne
      omega

theorem SpaceInv.last_eq (hI : SpaceInv s) (ht : s.threads t = some ⟨a, pc⟩) (hp : pc.last = true)
    (hu : s.threads u = some ⟨a, pc'⟩) (hp' : pc'.last = true) : u = t := by
  by_contra hne
  have h1 := (hI.lasts a).le_two hne
  have h2 := lasts_pos ht hp
  have h3 := lasts_pos hu hp'
  obtain ⟨m, ha, h0⟩ := hI.last_zero ht hp
  have h4 : zeroOf (s.spaces a) = 1 := by
    rw [ha]
    exact if_pos h0
  omega

/-- Nobody is alone with a structure that counts no reference, or that is not there. -/
theorem SpaceInv.not_alone (hI : SpaceInv s) (h0 : countOf (s.spaces a) = 0) (hu : s.threads u = some ⟨a, pc⟩)
    (hp : pc.alone = true) : False := by
  have h1 := hI.alone u a pc hu hp
  rw [h0] at h1
  cases h1

theorem SpaceInv.last_count (hI : SpaceInv s) (ht : s.threads t = some ⟨a, pc⟩) (hp : pc.last = true) :
    countOf (s.spaces a) = 0 := by
  obtain ⟨m, ha, h0⟩ := hI.last_zero ht hp
  rw [ha]
  exact h0

/-- Who has seen the count at zero has it with no one who holds a reference. -/
theorem SpaceInv.last_no_ref (hI : SpaceInv s) (ht : s.threads t = some ⟨a, pc⟩) (hp : pc.last = true) :
    refsOf (s.threads u) a = 0 := by
  obtain ⟨m, ha, h0⟩ := hI.last_zero ht hp
  have hle := (hI.refs a).le u
  rw [ha] at hle
  have h1 : countOf (some m) = 0 := h0
  omega

/-- One thread moves on and one structure changes. -/
theorem SpaceInv.change (hI : SpaceInv s) {o o' : Option Thread} {p p' : Option ThreadMemSpace}
    (ho : s.threads t = o) (hp : s.spaces a = p) (hth : s'.threads = Function.update s.threads t o')
    (hsp : s'.spaces = Function.update s.spaces a p')
    (hrefs : ∀ b, b ≠ a → refsOf o' b = refsOf o b) (hrefa : countOf p' + refsOf o a = countOf p + refsOf o' a)
    (hlasts : ∀ b, b ≠ a → lastsOf o' b = lastsOf o b) (hlasta : zeroOf p' + lastsOf o a = zeroOf p + lastsOf o' a)
    (hself : ∀ b pc, o' = some ⟨b, pc⟩ → pc.alone = true → b = a ∧ countOf p' = 1)
    (hothers : ∀ u pc, u ≠ t → s.threads u = some ⟨a, pc⟩ → pc.alone = true → countOf p' = countOf p) :
    SpaceInv s' := by
  have hself' : s'.threads t = o' := by rw [hth, Function.update_self]
  have hother' : ∀ u, u ≠ t → s'.threads u = s.threads u := fun u hu => by rw [hth, Function.update_of_ne hu]
  have hspa : s'.spaces a = p' := by rw [hsp, Function.update_self]
  have hspb : ∀ b, b ≠ a → s'.spaces b = s.spaces b := fun b hb => by rw [hsp, Function.update_of_ne hb]
  refine ⟨fun b => ?_, fun b => ?_, fun u b pc hu halone => ?_⟩
  · refine (hI.refs b).update t (fun u hu => by rw [hother' u hu]) ?_
    rw [hself', ho]
    by_cases hb : b = a
    · subst hb
      rw [hspa, hp]
      exact hrefa
    · rw [hspb b hb, hrefs b hb]
  · refine (hI.lasts b).update t (fun u hu => by rw [hother' u hu]) ?_
    rw [hself', ho]
    by_cases hb : b = a
    · subst hb
      rw [hspa, hp]
      exact hlasta
    · rw [hspb b hb, hlasts b hb]
  · by_cases hut : u = t
    · rw [hut, hself'] at hu
      obtain ⟨rfl, h1⟩ := hself b pc hu halone
      rw [hspa]
      exact h1
    · rw [hother' u hut] at hu
      have h1 := hI.alone u b pc hu halone
      by_cases hb : b = a
      · subst hb
        rw [hspa, hothers u pc hut hu halone, ← hp]
        exact h1
      · rw [hspb b hb]
        exact h1

/-- One thread moves on, with the references it had. -/
theorem SpaceInv.goto (hI : SpaceInv s) {o o' : Option Thread} (ho : s.threads t = o)
    (hth : s'.threads = Function.update s.threads t o') (hsp : s'.spaces = s.spaces)
    (hrefs : ∀ b, refsOf o' b = refsOf o b) (hlasts : ∀ b, lastsOf o' b = lastsOf o b)
    (hself : ∀ b pc, o' = some ⟨b, pc⟩ → pc.alone = true → countOf (s.spaces b) = 1) : SpaceInv s' := by
  have hother' : ∀ u, u ≠ t → s'.threads u = s.threads u := fun u hu => by rw [hth, Function.update_of_ne hu]
  have hself' : s'.threads t = o' := by rw [hth, Function.update_self]
  have hsame : ∀ u b, refsOf (s'.threads u) b = refsOf (s.threads u) b ∧
      lastsOf (s'.threads u) b = lastsOf (s.threads u) b := by
    intro u b
    by_cases hut : u = t
    · rw [hut, hself', ho]
      exact ⟨hrefs b, hlasts b⟩
    · rw [hother' u hut]
      exact ⟨rfl, rfl⟩
  refine ⟨fun b => ?_, fun b => ?_, fun u b pc hu halone => ?_⟩
  · rw [hsp]
    exact (hI.refs b).same fun u => (hsame u b).1
  · rw [hsp]
    exact (hI.lasts b).same fun u => (hsame u b).2
  · rw [hsp]
    by_cases hut : u = t
    · rw [hut, hself'] at hu
      exact hself b pc hu halone
    · rw [hother' u hut] at hu
      exact hI.alone u b pc hu halone

/-- It keeps its structure too. -/
theorem SpaceInv.walk (hI : SpaceInv s) (ht : s.threads t = some ⟨a, pc⟩)
    (hth : s'.threads = Function.update s.threads t (some ⟨a, pc'⟩)) (hsp : s'.spaces = s.spaces)
    (hholds : pc'.holds = pc.holds) (hlast : pc'.last = pc.last) (hclone : ∀ b, pc ≠ .cloning b ∧ pc' ≠ .cloning b)
    (halone : pc'.alone = true → pc.alone = true) : SpaceInv s' := by
  refine hI.goto ht hth hsp (fun b => ?_) (fun b => ?_) fun b q hq hp => ?_
  · simp [refsOf, hholds, hclone b]
  · simp [lastsOf, hlast]
  · cases hq
    exact hI.alone t a pc ht (halone hp)

@[simp] theorem freeMap_threads (s : Sys) (m : Nat) : (s.freeMap m).threads = s.threads := by
  unfold Sys.freeMap
  split_ifs <;> rfl

@[simp] theorem freeMap_spaces (s : Sys) (m : Nat) : (s.freeMap m).spaces = s.spaces := by
  unfold Sys.freeMap
  split_ifs <;> rfl

theorem freeMap_setThread (s : Sys) (m t : Nat) (o : Option Thread) :
    ((s.freeMap m).setThread t o).threads = Function.update s.threads t o ∧
      ((s.freeMap m).setThread t o).spaces = s.spaces := by simp [Sys.setThread]

theorem spaceInv_init (h : lifeInit s) : SpaceInv s := by
  obtain ⟨ht, ha, -, -⟩ := h
  refine ⟨fun a => ?_, fun a => ?_, fun t a pc hpc _ => ?_⟩
  · rw [ha]
    exact tally_zero fun t => by rw [ht]; rfl
  · rw [ha]
    exact tally_zero fun t => by rw [ht]; rfl
  · rw [ht] at hpc
    cases hpc

/-- `DecAndCheckZero` by a thread that holds a reference. -/
theorem SpaceInv.dec (hI : SpaceInv s) (ht : s.threads t = some ⟨a, .running⟩) (ha : s.spaces a = some m)
    {last shared : Pc} (hlast : last.holds = false ∧ last.last = true ∧ ∀ b, last ≠ .cloning b)
    (hshared : shared.holds = false ∧ shared.last = false ∧ ∀ b, shared ≠ .cloning b)
    (hth : s'.threads = Function.update s.threads t
      (some ⟨a, if (decAndCheckZero m.refCount).2 then last else shared⟩))
    (hsp : s'.spaces = Function.update s.spaces a (some { m with refCount := (decAndCheckZero m.refCount).1 })) :
    SpaceInv s' := by
  have hm : 0 < m.refCount := by
    have hpos := hI.count_pos ht rfl
    rw [ha] at hpos
    exact hpos
  obtain ⟨q, hq⟩ : ∃ q, (if (decAndCheckZero m.refCount).2 then last else shared) = q := ⟨_, rfl⟩
  have hholds : q.holds = false := by
    rw [← hq]
    split_ifs
    · exact hlast.1
    · exact hshared.1
  have hclone : ∀ b, q ≠ .cloning b := by
    rw [← hq]
    split_ifs
    · exact hlast.2.2
    · exact hshared.2.2
  have hzero : q.last = decide (m.refCount = 1) := by
    have hdec : (decAndCheckZero m.refCount).2 = decide (m.refCount = 1) := rfl
    rw [← hq, hdec]
    cases decide (m.refCount = 1) with
    | false => exact hshared.2.1
    | true => exact hlast.2.1
  rw [hq] at hth
  refine hI.change ht ha hth hsp (fun b hb => ?_) ?_ (fun b hb => ?_) ?_ (fun b pc hpc halone => ?_)
    fun u pc hu hpc halone => ?_
  · simp [refsOf, Ne.symm hb, hclone]
  · have h1 : refsOf (some ⟨a, q⟩) a = 0 := by simp [refsOf, hholds, hclone]
    have h2 : refsOf (some ⟨a, .running⟩) a = 1 := by simp [refsOf, Pc.holds]
    have h3 : countOf (some { m with refCount := (decAndCheckZero m.refCount).1 }) = m.refCount - 1 := rfl
    have h4 : countOf (some m) = m.refCount := rfl
    omega
  · simp [lastsOf, Ne.symm hb]
  · have h1 : lastsOf (some ⟨a, q⟩) a = if m.refCount = 1 then 1 else 0 := by simp [lastsOf, hzero]
    have h2 : lastsOf (some ⟨a, .running⟩) a = 0 := by simp [lastsOf, Pc.last]
    have h3 : zeroOf (some { m with refCount := (decAndCheckZero m.refCount).1 }) =
        if m.refCount - 1 = 0 then 1 else 0 := rfl
    have h4 : zeroOf (some m) = 0 := if_neg (Nat.pos_iff_ne_zero.mp hm)
    rw [h1, h2, h3, h4]
    split_ifs <;> omega
  · cases hpc
    have hh := holds_of_alone halone
    rw [hholds] at hh
    cases hh
  · exact absurd (hI.alone_eq hpc halone (refs_pos ht rfl)).symm hu

/-- The reference of a call of `CloneThread` becomes that of the new thread. -/
theorem SpaceInv.publish (hI : SpaceInv s) (ht : s.threads t = some ⟨a, .cloning b⟩) (hu : s.threads u = none) :
    SpaceInv ((s.setThread t (some ⟨a, .running⟩)).setThread u (some ⟨b, .running⟩)) := by
  have hut : u ≠ t := by
    intro he
    rw [he, ht] at hu
    cases hu
  have hcall : ∀ c, refsOf (some ⟨a, .cloning b⟩) c = refsOf (some ⟨a, .running⟩) c + if b = c then 1 else 0 := by
    intro c
    simp [refsOf, Pc.holds]
  have hnew : ∀ c, refsOf (some ⟨b, .running⟩) c = if b = c then 1 else 0 := by
    intro c
    simp [refsOf, Pc.holds]
  refine ⟨fun c => ?_, fun c => ?_, fun v c pc hv halone => ?_⟩
  · -- the call lets its reference go, and the new thread has it
    have hle := (hI.refs c).le t
    rw [ht, hcall c] at hle
    have hgone : Tally (fun v => refsOf ((s.setThread t (some ⟨a, .running⟩)).threads v) c)
        (countOf (s.spaces c) - if b = c then 1 else 0) := by
      refine (hI.refs c).update t (fun v hv => ?_) ?_
      · simp [Sys.setThread, hv]
      · have h1 : (s.setThread t (some ⟨a, .running⟩)).threads t = some ⟨a, .running⟩ := by simp [Sys.setThread]
        rw [h1, ht, hcall c]
        omega
    refine hgone.update u (fun v hv => ?_) ?_
    · simp [Sys.setThread, hv]
    · have h1 : (s.setThread t (some ⟨a, .running⟩)).threads u = none := by simp [Sys.setThread, hut, hu]
      have h2 : ((s.setThread t (some ⟨a, .running⟩)).setThread u (some ⟨b, .running⟩)).threads u =
          some ⟨b, .running⟩ := by simp [Sys.setThread]
      have h3 : refsOf none c = 0 := rfl
      have h4 : ((s.setThread t (some ⟨a, .running⟩)).setThread u (some ⟨b, .running⟩)).spaces = s.spaces := rfl
      rw [h1, h2, h3, h4, hnew c]
      omega
  · refine (hI.lasts c).same fun v => ?_
    by_cases hvu : v = u
    · rw [hvu, hu]
      simp [Sys.setThread, lastsOf, Pc.last]
    · by_cases hvt : v = t
      · rw [hvt, ht]
        simp [Sys.setThread, hut.symm, lastsOf, Pc.last]
      · simp [Sys.setThread, hvu, hvt]
  · by_cases hvu : v = u
    · simp [Sys.setThread, hvu] at hv
      obtain ⟨-, rfl⟩ := hv
      cases halone
    · by_cases hvt : v = t
      · simp [Sys.setThread, hvt, hut.symm] at hv
        obtain ⟨-, rfl⟩ := hv
        cases halone
      · simp [Sys.setThread, hvu, hvt] at hv
        exact hI.alone v c pc hv halone

theorem spaceInv_step {ev : Event} (hI : SpaceInv s) (hs : lifeStep s ev s') : SpaceInv s' := by
  cases hs with
  | createKernelThread t a ht ha =>
      refine hI.change ht ha rfl rfl (fun b hb => ?_) ?_ (fun b hb => ?_) ?_ (fun b pc hpc halone => ?_)
        fun u pc hu hpc halone => ?_
      · simp [refsOf, Ne.symm hb]
      · simp [refsOf, countOf, Pc.holds]
      · simp [lastsOf, Ne.symm hb]
      · simp [lastsOf, zeroOf, Pc.last]
      · cases hpc
        cases halone
      · exact (hI.not_alone (congrArg countOf ha) hpc halone).elim
  | cloneShare t a m ht ha =>
      refine hI.change ht ha rfl rfl (fun b hb => ?_) ?_ (fun b hb => ?_) ?_ (fun b pc hpc halone => ?_)
        fun u pc hu hpc halone => ?_
      · simp [refsOf, Ne.symm hb]
      · simp [refsOf, countOf, Pc.holds]
      · simp [lastsOf, Ne.symm hb]
      · have hpos := hI.count_pos ht rfl
        rw [ha] at hpos
        have hne : m.refCount ≠ 0 := Nat.pos_iff_ne_zero.mp hpos
        simp [lastsOf, zeroOf, Pc.last, hne]
      · cases hpc
        cases halone
      · exact absurd (hI.alone_eq hpc halone (refs_pos ht rfl)).symm hu
  | cloneFork t a b ht hb =>
      have hmem : a ≠ b := by
        intro hab
        have hpos := hI.count_pos ht rfl
        rw [hab, hb] at hpos
        cases hpos
      refine hI.change ht hb rfl rfl (fun c hc => ?_) ?_ (fun c hc => ?_) ?_ (fun c pc hpc halone => ?_)
        fun u pc hu hpc halone => ?_
      · simp [refsOf, Pc.holds, Ne.symm hc]
      · simp [refsOf, countOf, Pc.holds, hmem]
      · simp [lastsOf, Pc.last]
      · simp [lastsOf, zeroOf, hmem]
      · cases hpc
        cases halone
      · exact (hI.not_alone (congrArg countOf hb) hpc halone).elim
  | publish t u a b ht hu => exact hI.publish ht hu
  | exitDec t a m ht ha =>
      exact hI.dec ht ha ⟨rfl, rfl, fun _ h => by cases h⟩ ⟨rfl, rfl, fun _ h => by cases h⟩ rfl rfl
  | exitFree t a m ht ha =>
      obtain ⟨hth, hsp⟩ := freeMap_setThread s m.pml4Entry t (some ⟨a, .deleting⟩)
      exact hI.walk ht hth hsp rfl rfl (by simp) fun h => by cases h
  | exitDelete t a ht =>
      obtain ⟨m, ha, h0⟩ := hI.last_zero ht rfl
      refine hI.change ht ha rfl rfl (fun b hb => ?_) ?_ (fun b hb => ?_) ?_ (fun b pc hpc halone => ?_)
        fun u pc hu hpc halone => ?_
      · simp [refsOf, Ne.symm hb]
      · simp [refsOf, countOf, Pc.holds, h0]
      · simp [lastsOf, Ne.symm hb]
      · simp [lastsOf, zeroOf, Pc.last, h0]
      · cases hpc
        cases halone
      · exact (hI.not_alone (hI.last_count ht rfl) hpc halone).elim
  | exitLeave t a ht =>
      exact hI.walk ht rfl rfl rfl rfl (by simp) fun h => by cases h
  | reap t a ht =>
      refine hI.goto ht rfl rfl (fun b => ?_) (fun b => ?_) fun b pc hpc halone => ?_
      · simp [refsOf, Pc.holds]
      · simp [lastsOf, Pc.last]
      · cases hpc
  | execDec t a m ht ha =>
      exact hI.dec ht ha ⟨rfl, rfl, fun _ h => by cases h⟩ ⟨rfl, rfl, fun _ h => by cases h⟩ rfl rfl
  | execRevive t a e m ht ha =>
      obtain ⟨m', ha', h0⟩ := hI.last_zero ht rfl
      obtain rfl : m' = m := Option.some.inj (ha'.symm.trans ha)
      refine hI.change ht ha rfl rfl (fun b hb => ?_) ?_ (fun b hb => ?_) ?_ (fun b pc hpc halone => ?_)
        fun u pc hu hpc halone => ?_
      · simp [refsOf, Ne.symm hb]
      · simp [refsOf, countOf, Pc.holds, h0]
      · simp [lastsOf, Ne.symm hb]
      · simp [lastsOf, zeroOf, Pc.last, h0]
      · cases hpc
        exact ⟨rfl, rfl⟩
      · exact (hI.not_alone (hI.last_count ht rfl) hpc halone).elim
  | execFree t a e m ht ha =>
      obtain ⟨hth, hsp⟩ := freeMap_setThread s m.pml4Entry t (some ⟨a, .replacing e⟩)
      exact hI.walk ht hth hsp rfl rfl (by simp) fun _ => rfl
  | execSet t a e m ht ha =>
      refine hI.change ht ha rfl rfl (fun b hb => ?_) ?_ (fun b hb => ?_) ?_ (fun b pc hpc halone => ?_)
        fun u pc hu hpc halone => ?_
      · simp [refsOf, Ne.symm hb]
      · simp [refsOf, countOf, Pc.holds]
      · simp [lastsOf, Ne.symm hb]
      · simp [lastsOf, zeroOf, Pc.last]
      · cases hpc
        cases halone
      · rfl
  | execNew t a b e ht hb =>
      refine hI.change ht hb rfl rfl (fun c hc => ?_) ?_ (fun c hc => ?_) ?_ (fun c pc hpc halone => ?_)
        fun u pc hu hpc halone => ?_
      · simp [refsOf, Pc.holds, Ne.symm hc]
      · simp [refsOf, countOf, Pc.holds]
      · simp [lastsOf, Pc.last]
      · simp [lastsOf, zeroOf, Pc.last]
      · cases hpc
        cases halone
      · exact (hI.not_alone (congrArg countOf hb) hpc halone).elim

/-! ## 4. The maps -/

/-- Where a map is. -/
inductive Place where
  | unmade
  | space (a : Nat)
  | thread (t : Nat)
  | freed

def staleOf (o : Option Thread) (a : Nat) : Prop := ∃ pc, o = some ⟨a, pc⟩ ∧ pc.stale = true

def bringsOf (o : Option Thread) (m : Nat) : Prop := ∃ th, o = some th ∧ th.pc.brings = some m

/-- The structure has the map, and nobody has freed it there. -/
def Sys.live (s : Sys) (a m : Nat) : Prop := (∃ c, s.spaces a = some ⟨c, m⟩) ∧ ∀ t, ¬ staleOf (s.threads t) a

/-- **Every map is in one place.** -/
structure MapInv (s : Sys) (place : Nat → Place) : Prop where
  live : ∀ m, 0 < m → ∀ a, s.live a m ↔ place m = .space a
  brings : ∀ m, 0 < m → ∀ t, bringsOf (s.threads t) m ↔ place m = .thread t
  freed : ∀ m, 0 < m → (m ∈ s.freed ↔ place m = .freed)
  unmade : ∀ m, 0 < m → (s.nextMap ≤ m ↔ place m = .unmade)
  brought : ∀ t, ¬ bringsOf (s.threads t) 0
  first : 0 < s.nextMap
  nodup : s.freed.Nodup
  pos : 0 ∉ s.freed

section Maps

variable {place : Nat → Place} {o o' : Option Thread}

theorem mapInv_init (h : lifeInit s) : MapInv s fun _ => .unmade := by
  obtain ⟨ht, ha, hn, hf⟩ := h
  have hnone : ∀ t m, ¬ bringsOf (s.threads t) m := by
    intro t m hb
    obtain ⟨th, hth, -⟩ := hb
    rw [ht] at hth
    cases hth
  refine ⟨fun m _ a => iff_of_false ?_ (by simp), fun m _ t => iff_of_false (hnone t m) (by simp), fun m _ => ?_,
    fun m hm => ?_, fun t => hnone t 0, ?_, ?_, ?_⟩
  · intro hlive
    obtain ⟨⟨c, hc⟩, -⟩ := hlive
    rw [ha] at hc
    cases hc
  · simp [hf]
  · rw [hn]
    exact iff_of_true hm rfl
  · rw [hn]
    decide
  · rw [hf]
    exact List.nodup_nil
  · simp [hf]

/-- One map goes to another place, and all others stay. -/
theorem MapInv.move (h : MapInv s place) {x : Nat} (p : Place)
    (hlive : ∀ m, 0 < m → m ≠ x → ∀ a, s'.live a m ↔ s.live a m) (hlive' : ∀ a, s'.live a x ↔ p = .space a)
    (hbrings : ∀ m, m ≠ x → ∀ t, bringsOf (s'.threads t) m ↔ bringsOf (s.threads t) m)
    (hbrings' : ∀ t, bringsOf (s'.threads t) x ↔ p = .thread t)
    (hfreed : ∀ m, m ≠ x → (m ∈ s'.freed ↔ m ∈ s.freed)) (hfreed' : x ∈ s'.freed ↔ p = .freed)
    (hnext : ∀ m, m ≠ x → (s'.nextMap ≤ m ↔ s.nextMap ≤ m)) (hnext' : s'.nextMap ≤ x ↔ p = .unmade)
    (hx : 0 < x) (hnodup : s'.freed.Nodup) (hmono : s.nextMap ≤ s'.nextMap) :
    MapInv s' (Function.update place x p) := by
  have h0 : (0 : Nat) ≠ x := Nat.ne_of_lt hx
  refine ⟨fun m hm a => ?_, fun m hm t => ?_, fun m hm => ?_, fun m hm => ?_, fun t => ?_,
    Nat.lt_of_lt_of_le h.first hmono, hnodup, ?_⟩
  · by_cases hx : m = x
    · rw [hx, Function.update_self]
      exact hlive' a
    · rw [Function.update_of_ne hx]
      exact (hlive m hm hx a).trans (h.live m hm a)
  · by_cases hx : m = x
    · rw [hx, Function.update_self]
      exact hbrings' t
    · rw [Function.update_of_ne hx]
      exact (hbrings m hx t).trans (h.brings m hm t)
  · by_cases hx : m = x
    · rw [hx, Function.update_self]
      exact hfreed'
    · rw [Function.update_of_ne hx]
      exact (hfreed m hx).trans (h.freed m hm)
  · by_cases hx : m = x
    · rw [hx, Function.update_self]
      exact hnext'
    · rw [Function.update_of_ne hx]
      exact (hnext m hx).trans (h.unmade m hm)
  · rw [hbrings 0 h0 t]
    exact h.brought t
  · rw [hfreed 0 h0]
    exact h.pos

/-- What one thread does not change for itself it does not change for anyone. -/
theorem update_iff {P : Option Thread → Prop} (ho : s.threads t = o)
    (hth : s'.threads = Function.update s.threads t o') (h : P o' ↔ P o) (u : Nat) :
    P (s'.threads u) ↔ P (s.threads u) := by
  by_cases hu : u = t
  · rw [hu, hth, Function.update_self, ho]
    exact h
  · rw [hth, Function.update_of_ne hu]

theorem stale_update (ho : s.threads t = o) (hth : s'.threads = Function.update s.threads t o')
    (h : staleOf o' a ↔ staleOf o a) (u : Nat) : staleOf (s'.threads u) a ↔ staleOf (s.threads u) a :=
  update_iff (P := fun o => staleOf o a) ho hth h u

theorem brings_update {m : Nat} (ho : s.threads t = o) (hth : s'.threads = Function.update s.threads t o')
    (h : bringsOf o' m ↔ bringsOf o m) (u : Nat) : bringsOf (s'.threads u) m ↔ bringsOf (s.threads u) m :=
  update_iff (P := fun o => bringsOf o m) ho hth h u

theorem live_congr {m : Nat} (hsp : (∃ c, s'.spaces a = some ⟨c, m⟩) ↔ ∃ c, s.spaces a = some ⟨c, m⟩)
    (hst : ∀ t, staleOf (s'.threads t) a ↔ staleOf (s.threads t) a) : s'.live a m ↔ s.live a m :=
  and_congr hsp (forall_congr' fun t => not_congr (hst t))

theorem not_live_of_stale {m : Nat} (h : staleOf (s.threads t) a) : ¬ s.live a m := fun hl => hl.2 t h

/-- A step of a thread that neither makes, brings, attaches nor frees a map. -/
theorem MapInv.goto (h : MapInv s place) (ho : s.threads t = o) (hth : s'.threads = Function.update s.threads t o')
    (hstale : ∀ a, staleOf o' a ↔ staleOf o a) (hbrings : ∀ m, bringsOf o' m ↔ bringsOf o m)
    (hsp : ∀ a m, 0 < m → ((∃ c, s'.spaces a = some ⟨c, m⟩) ↔ ∃ c, s.spaces a = some ⟨c, m⟩))
    (hfreed : s'.freed = s.freed) (hnext : s'.nextMap = s.nextMap) : MapInv s' place where
  live m hm a := (live_congr (hsp a m hm) (stale_update ho hth (hstale a))).trans (h.live m hm a)
  brings m hm u := (brings_update ho hth (hbrings m) u).trans (h.brings m hm u)
  freed m hm := by rw [hfreed]; exact h.freed m hm
  unmade m hm := by rw [hnext]; exact h.unmade m hm
  brought u := fun hu => h.brought u ((brings_update ho hth (hbrings 0) u).mp hu)
  first := hnext ▸ h.first
  nodup := hfreed ▸ h.nodup
  pos := hfreed ▸ h.pos

/-- `FreeProcessMap` of the map in a structure where nobody has done it. -/
theorem MapInv.free (h : MapInv s place) {x c : Nat} (ho : s.threads t = o) (ha : s.spaces a = some ⟨c, x⟩)
    (hno : ∀ u, ¬ staleOf (s.threads u) a) (hstale : staleOf o' a) (hothers : ∀ b, b ≠ a → (staleOf o' b ↔ staleOf o b))
    (hbrings : ∀ m, bringsOf o' m ↔ bringsOf o m) :
    ∃ place', MapInv ((s.freeMap x).setThread t o') place' := by
  obtain ⟨hth, hsp⟩ := freeMap_setThread s x t o'
  have hself : staleOf (((s.freeMap x).setThread t o').threads t) a := by
    rw [hth, Function.update_self]
    exact hstale
  have hlive : ∀ m, m ≠ x → ∀ b, ((s.freeMap x).setThread t o').live b m ↔ s.live b m := by
    intro m hm b
    by_cases hb : b = a
    · subst hb
      refine iff_of_false (not_live_of_stale hself) fun hl => ?_
      obtain ⟨⟨c', hc⟩, -⟩ := hl
      rw [ha] at hc
      cases hc
      exact hm rfl
    · exact live_congr (by rw [hsp]) (stale_update ho hth (hothers b hb))
  have hbr : ∀ m u, bringsOf (((s.freeMap x).setThread t o').threads u) m ↔ bringsOf (s.threads u) m := fun m u =>
    brings_update ho hth (hbrings m) u
  by_cases hx : x = 0
  · have hsame : s.freeMap x = s := if_pos hx
    have hfreed : ((s.freeMap x).setThread t o').freed = s.freed := by rw [hsame]; rfl
    have hnext : ((s.freeMap x).setThread t o').nextMap = s.nextMap := by rw [hsame]; rfl
    exact ⟨place, fun m hm b => (hlive m (by omega) b).trans (h.live m hm b),
      fun m hm u => (hbr m u).trans (h.brings m hm u), fun m hm => by rw [hfreed]; exact h.freed m hm,
      fun m hm => by rw [hnext]; exact h.unmade m hm, fun u hu => h.brought u ((hbr 0 u).mp hu), hnext ▸ h.first,
      hfreed ▸ h.nodup, hfreed ▸ h.pos⟩
  · have hpos : 0 < x := Nat.pos_of_ne_zero hx
    have hfree : s.freeMap x = { s with freed := s.freed ++ [x] } := if_neg hx
    have hfreed : ((s.freeMap x).setThread t o').freed = s.freed ++ [x] := by rw [hfree]; rfl
    have hnext : ((s.freeMap x).setThread t o').nextMap = s.nextMap := by rw [hfree]; rfl
    have hplace : place x = .space a := (h.live x hpos a).mp ⟨⟨c, ha⟩, hno⟩
    have hnot : x ∉ s.freed := fun hmem => by
      rw [(h.freed x hpos).mp hmem] at hplace
      cases hplace
    refine ⟨_, h.move .freed (fun m _ hm b => hlive m hm b) (fun b => iff_of_false (fun hl => ?_) (by simp))
      (fun m _ u => hbr m u) (fun u => iff_of_false (fun hu => ?_) (by simp)) (fun m hm => ?_) ?_
      (fun m _ => by rw [hnext]) ?_ hpos ?_ (Nat.le_of_eq hnext.symm)⟩
    · by_cases hb : b = a
      · subst hb
        exact not_live_of_stale hself hl
      · have hl' := (live_congr (s := s) (by rw [hsp]) (stale_update ho hth (hothers b hb))).mp hl
        rw [h.live x hpos b, hplace] at hl'
        cases hl'
        exact hb rfl
    · have hu' := (hbr x u).mp hu
      rw [h.brings x hpos u, hplace] at hu'
      cases hu'
    · rw [hfreed, List.mem_append, List.mem_singleton]
      exact or_iff_left hm
    · rw [hfreed]
      simp
    · rw [hnext, h.unmade x hpos, hplace]
      simp
    · rw [hfreed]
      exact List.nodup_append.mpr ⟨h.nodup, List.nodup_singleton x, by
        intro m hm y hy
        rw [List.mem_singleton.mp hy]
        exact fun he => hnot (he ▸ hm)⟩

/-- The map that is made next is nowhere yet. -/
theorem MapInv.fresh (h : MapInv s place) : (∀ a, ¬ s.live a s.nextMap) ∧
    (∀ t, ¬ bringsOf (s.threads t) s.nextMap) ∧ s.nextMap ∉ s.freed := by
  have hplace : place s.nextMap = .unmade := (h.unmade _ h.first).mp le_rfl
  refine ⟨fun a hl => ?_, fun t hb => ?_, fun hf => ?_⟩
  · rw [h.live _ h.first, hplace] at hl
    cases hl
  · rw [h.brings _ h.first, hplace] at hb
    cases hb
  · rw [h.freed _ h.first, hplace] at hf
    cases hf

/-- A map goes into a structure in which there was none, or one that is freed. -/
theorem live_attach {x c : Nat} (ho : s.threads t = o) (hth : s'.threads = Function.update s.threads t o')
    (hsp : s'.spaces = Function.update s.spaces b (some ⟨c, x⟩)) (hempty : ∀ m, ¬ s.live b m)
    (hno : ∀ u, u ≠ t → ¬ staleOf (s.threads u) b) (hself : ∀ a, ¬ staleOf o' a)
    (hothers : ∀ a, a ≠ b → ¬ staleOf o a) (hx : ∀ a, a ≠ b → ¬ s.live a x) :
    (∀ m, m ≠ x → ∀ a, s'.live a m ↔ s.live a m) ∧ ∀ a, s'.live a x ↔ Place.space b = .space a := by
  have hspb : s'.spaces b = some ⟨c, x⟩ := by rw [hsp, Function.update_self]
  have hspa : ∀ a, a ≠ b → s'.spaces a = s.spaces a := fun a ha => by rw [hsp, Function.update_of_ne ha]
  have hlive : ∀ m a, a ≠ b → (s'.live a m ↔ s.live a m) := fun m a ha =>
    live_congr (by rw [hspa a ha]) (stale_update ho hth (iff_of_false (hself a) (hothers a ha)))
  refine ⟨fun m hm a => ?_, fun a => ?_⟩
  · by_cases ha : a = b
    · subst ha
      refine iff_of_false (fun hl => ?_) (hempty m)
      obtain ⟨⟨c', hc⟩, -⟩ := hl
      rw [hspb] at hc
      cases hc
      exact hm rfl
    · exact hlive m a ha
  · by_cases ha : a = b
    · subst ha
      refine iff_of_true ⟨⟨c, hspb⟩, fun u => ?_⟩ rfl
      by_cases hu : u = t
      · rw [hu, hth, Function.update_self]
        exact hself a
      · rw [hth, Function.update_of_ne hu]
        exact hno u hu
    · refine iff_of_false (fun hl => hx a ha ((hlive x a ha).mp hl)) fun he => ?_
      cases he
      exact ha rfl

/-- `ForkProcessMap` into a new structure. -/
theorem MapInv.fork (h : MapInv s place) (ho : s.threads t = o) (hb : s.spaces b = none)
    (hno : ∀ u, ¬ staleOf (s.threads u) b) (hstale : ∀ a, ¬ staleOf o a) (hstale' : ∀ a, ¬ staleOf o' a)
    (hbrings : ∀ m, bringsOf o' m ↔ bringsOf o m) :
    ∃ place', MapInv ((s.mapMade.setSpace b (some ⟨1, s.nextMap⟩)).setThread t o') place' := by
  obtain ⟨hlive, hbr, hfr⟩ := h.fresh
  have hempty : ∀ m, ¬ s.live b m := fun m hl => by
    obtain ⟨⟨c, hc⟩, -⟩ := hl
    rw [hb] at hc
    cases hc
  obtain ⟨h1, h2⟩ : (∀ m, m ≠ s.nextMap → ∀ a,
      ((s.mapMade.setSpace b (some ⟨1, s.nextMap⟩)).setThread t o').live a m ↔ s.live a m) ∧
      ∀ a, ((s.mapMade.setSpace b (some ⟨1, s.nextMap⟩)).setThread t o').live a s.nextMap ↔ Place.space b = .space a :=
    live_attach ho rfl rfl hempty (fun u _ => hno u) hstale' (fun a _ => hstale a) fun a _ => hlive a
  have hbr' : ∀ m u, bringsOf (((s.mapMade.setSpace b (some ⟨1, s.nextMap⟩)).setThread t o').threads u) m ↔
      bringsOf (s.threads u) m := fun m => brings_update ho rfl (hbrings m)
  refine ⟨_, h.move (.space b) (fun m _ => h1 m) h2 (fun m _ => hbr' m)
    (fun u => iff_of_false (fun hu => hbr u ((hbr' _ u).mp hu)) (by simp)) (fun _ _ => Iff.rfl)
    (iff_of_false hfr (by simp)) (fun m hm => ?_) (iff_of_false (Nat.not_succ_le_self _) (by simp)) h.first h.nodup
    (Nat.le_succ _)⟩
  show s.nextMap + 1 ≤ m ↔ _
  omega

/-- A thread comes to `ThreadExec` with a map. -/
theorem MapInv.bring (h : MapInv s place) (ho : s.threads t = o) (hth : s'.threads = Function.update s.threads t o')
    (hstale : ∀ a, staleOf o' a ↔ staleOf o a) (hnone : ∀ m, ¬ bringsOf o m)
    (hbrings : ∀ m, bringsOf o' m ↔ m = s.nextMap)
    (hsp : ∀ a m, (∃ c, s'.spaces a = some ⟨c, m⟩) ↔ ∃ c, s.spaces a = some ⟨c, m⟩)
    (hfreed : s'.freed = s.freed) (hnext : s'.nextMap = s.nextMap + 1) : ∃ place', MapInv s' place' := by
  obtain ⟨hlive, hbr, hfr⟩ := h.fresh
  have hlive' : ∀ m a, s'.live a m ↔ s.live a m := fun m a => live_congr (hsp a m) (stale_update ho hth (hstale a))
  have hself : s'.threads t = o' := by rw [hth, Function.update_self]
  refine ⟨_, h.move (.thread t) (fun m _ _ => hlive' m)
    (fun a => iff_of_false (fun hl => hlive a ((hlive' _ a).mp hl)) (by simp))
    (fun m hm => brings_update ho hth (iff_of_false (fun hb => hm ((hbrings m).mp hb)) (hnone m))) (fun u => ?_)
    (fun m _ => by rw [hfreed]) (iff_of_false (fun hm => hfr (hfreed ▸ hm)) (by simp)) (fun m hm => ?_)
    (iff_of_false (fun hle => ?_) (by simp)) h.first (hfreed ▸ h.nodup) (by omega)⟩
  · by_cases hu : u = t
    · rw [hu, hself]
      exact iff_of_true ((hbrings _).mpr rfl) rfl
    · rw [hth, Function.update_of_ne hu]
      refine iff_of_false (hbr u) fun he => ?_
      cases he
      exact hu rfl
  · omega
  · omega

/-- The map that a thread has brought goes into a structure. -/
theorem MapInv.attach (h : MapInv s place) {x c : Nat} (ho : s.threads t = o)
    (hth : s'.threads = Function.update s.threads t o') (hsp : s'.spaces = Function.update s.spaces b (some ⟨c, x⟩))
    (hempty : ∀ m, ¬ s.live b m) (hno : ∀ u, u ≠ t → ¬ staleOf (s.threads u) b) (hself : ∀ a, ¬ staleOf o' a)
    (hothers : ∀ a, a ≠ b → ¬ staleOf o a) (hbrings : ∀ m, bringsOf o m ↔ m = x) (hnone : ∀ m, ¬ bringsOf o' m)
    (hfreed : s'.freed = s.freed) (hnext : s'.nextMap = s.nextMap) : ∃ place', MapInv s' place' := by
  have hbr : bringsOf (s.threads t) x := ho ▸ (hbrings x).mpr rfl
  have hx : 0 < x := Nat.pos_of_ne_zero fun h0 => h.brought t (h0 ▸ hbr)
  have hplace : place x = .thread t := (h.brings x hx t).mp hbr
  have hlive : ∀ a, ¬ s.live a x := fun a hl => by
    rw [h.live x hx, hplace] at hl
    cases hl
  obtain ⟨h1, h2⟩ := live_attach ho hth hsp hempty hno hself hothers fun a _ => hlive a
  refine ⟨_, h.move (.space b) (fun m _ => h1 m) h2
    (fun m hm => brings_update ho hth (iff_of_false (hnone m) fun hb => hm ((hbrings m).mp hb)))
    (fun u => iff_of_false (fun hu => ?_) (by simp)) (fun m _ => by rw [hfreed])
    (iff_of_false (fun hm => ?_) (by simp)) (fun m _ => by rw [hnext]) (iff_of_false (fun hle => ?_) (by simp)) hx
    (hfreed ▸ h.nodup) (Nat.le_of_eq hnext.symm)⟩
  · by_cases hut : u = t
    · rw [hut, hth, Function.update_self] at hu
      exact hnone x hu
    · rw [hth, Function.update_of_ne hut, h.brings x hx, hplace] at hu
      cases hu
      exact hut rfl
  · rw [hfreed, h.freed x hx, hplace] at hm
    cases hm
  · rw [hnext, h.unmade x hx, hplace] at hle
    cases hle

end Maps

/-! ## 5. One step -/

theorem last_or_alone {pc : Pc} (h : pc.stale = true) : pc.last = true ∨ pc.alone = true := by
  cases pc <;> first | exact Or.inl rfl | exact Or.inr rfl | cases h

/-- A structure that nobody else has a reference to has one thread. -/
theorem SpaceInv.own_eq (hI : SpaceInv s) (ht : s.threads t = some ⟨a, pc⟩) (hp : pc.last = true ∨ pc.alone = true)
    (hu : s.threads u = some ⟨a, pc'⟩) (hp' : pc'.last = true ∨ pc'.alone = true) : u = t := by
  rcases hp with hp | hp
  · rcases hp' with hp' | hp'
    · exact hI.last_eq ht hp hu hp'
    · exact absurd (hI.last_no_ref ht hp) (Nat.pos_iff_ne_zero.mp (refs_pos hu (holds_of_alone hp')))
  · rcases hp' with hp' | hp'
    · exact absurd (hI.last_no_ref hu hp') (Nat.pos_iff_ne_zero.mp (refs_pos ht (holds_of_alone hp)))
    · exact hI.alone_eq ht hp (refs_pos hu (holds_of_alone hp'))

/-- Nobody has freed the map in a structure that a thread is about to free it in. -/
theorem SpaceInv.not_stale (hI : SpaceInv s) (ht : s.threads t = some ⟨a, pc⟩) (hp : pc.last = true ∨ pc.alone = true)
    (u : Nat) (hu : u ≠ t ∨ pc.stale = false) : ¬ staleOf (s.threads u) a := by
  intro hs
  obtain ⟨pc', hpc', hst⟩ := hs
  have he := hI.own_eq ht hp hpc' (last_or_alone hst)
  rcases hu with hu | hu
  · exact hu he
  · rw [he, ht] at hpc'
    cases hpc'
    rw [hu] at hst
    cases hst

/-- Nor in a structure that is not there. -/
theorem SpaceInv.not_stale_none (hI : SpaceInv s) (ha : s.spaces a = none) (u : Nat) : ¬ staleOf (s.threads u) a := by
  intro hs
  obtain ⟨pc, hpc, hst⟩ := hs
  rcases last_or_alone hst with h | h
  · obtain ⟨m, hm, -⟩ := hI.last_zero hpc h
    rw [ha] at hm
    cases hm
  · have h1 := hI.alone u a pc hpc h
    rw [ha] at h1
    cases h1

@[simp] theorem staleOf_none : ¬ staleOf none a := by
  intro h
  obtain ⟨pc, hpc, -⟩ := h
  cases hpc

@[simp] theorem staleOf_some : staleOf (some ⟨b, pc⟩) a ↔ b = a ∧ pc.stale = true := by
  constructor
  · intro h
    obtain ⟨pc', hpc, hst⟩ := h
    cases hpc
    exact ⟨rfl, hst⟩
  · intro h
    obtain ⟨rfl, hst⟩ := h
    exact ⟨pc, rfl, hst⟩

@[simp] theorem bringsOf_none {m : Nat} : ¬ bringsOf none m := by
  intro h
  obtain ⟨th, hth, -⟩ := h
  cases hth

@[simp] theorem bringsOf_some {m : Nat} : bringsOf (some ⟨b, pc⟩) m ↔ pc.brings = some m := by
  constructor
  · intro h
    obtain ⟨th, hth, hb⟩ := h
    cases hth
    exact hb
  · intro h
    exact ⟨_, rfl, h⟩

theorem spaces_update {c : Nat} (ha : s.spaces a = some m)
    (hsp : s'.spaces = Function.update s.spaces a (some { m with refCount := c })) (b x : Nat) :
    (∃ c', s'.spaces b = some ⟨c', x⟩) ↔ ∃ c', s.spaces b = some ⟨c', x⟩ := by
  by_cases hb : b = a
  · rw [hsp, hb, Function.update_self, ha]
    obtain ⟨r, y⟩ := m
    constructor
    · intro h
      obtain ⟨c', hc⟩ := h
      cases hc
      exact ⟨r, rfl⟩
    · intro h
      obtain ⟨c', hc⟩ := h
      cases hc
      exact ⟨c, rfl⟩
  · rw [hsp, Function.update_of_ne hb]

theorem mapInv_step {ev : Event} {place : Nat → Place} (hI : SpaceInv s) (h : MapInv s place)
    (hs : lifeStep s ev s') : ∃ place', MapInv s' place' := by
  cases hs with
  | createKernelThread t a ht ha =>
      refine ⟨place, h.goto ht rfl (fun b => by simp [Pc.stale]) (fun m => by simp [Pc.brings]) (fun b m hm => ?_)
        rfl rfl⟩
      by_cases hb : b = a
      · rw [hb, ha]
        refine iff_of_false (fun hc => ?_) fun hc => ?_
        · obtain ⟨c, hc⟩ := hc
          have hc' : Function.update s.spaces a (some ⟨1, 0⟩) a = some ⟨c, m⟩ := hc
          rw [Function.update_self] at hc'
          cases hc'
          exact Nat.lt_irrefl 0 hm
        · obtain ⟨c, hc⟩ := hc
          cases hc
      · show (∃ c, Function.update s.spaces a (some ⟨1, 0⟩) b = some ⟨c, m⟩) ↔ _
        rw [Function.update_of_ne hb]
  | cloneShare t a m ht ha =>
      exact ⟨place, h.goto ht rfl (fun b => by simp [Pc.stale]) (fun x => by simp [Pc.brings])
        (fun b x _ => spaces_update ha rfl b x) rfl rfl⟩
  | cloneFork t a b ht hb =>
      exact h.fork ht hb (hI.not_stale_none hb) (fun c => by simp [Pc.stale]) (fun c => by simp [Pc.stale])
        fun m => by simp [Pc.brings]
  | publish t u a b ht hu =>
      have hut : u ≠ t := by
        intro he
        rw [he, ht] at hu
        cases hu
      have h1 : MapInv (s.setThread t (some ⟨a, .running⟩)) place :=
        h.goto ht rfl (fun c => by simp [Pc.stale]) (fun m => by simp [Pc.brings]) (fun _ _ _ => Iff.rfl) rfl rfl
      have hu' : (s.setThread t (some ⟨a, .running⟩)).threads u = none := by simp [Sys.setThread, hut, hu]
      exact ⟨place, h1.goto hu' rfl (fun c => by simp [Pc.stale]) (fun m => by simp [Pc.brings]) (fun _ _ _ => Iff.rfl)
        rfl rfl⟩
  | exitDec t a m ht ha =>
      refine ⟨place, h.goto ht rfl (fun b => ?_) (fun x => ?_) (fun b x _ => spaces_update ha rfl b x) rfl rfl⟩
      · split_ifs <;> simp [Pc.stale]
      · split_ifs <;> simp [Pc.brings]
  | exitFree t a m ht ha =>
      exact h.free ht ha (fun u => hI.not_stale ht (Or.inl rfl) u (Or.inr rfl)) (by simp [Pc.stale])
        (fun b hb => by simp [hb.symm]) fun x => by simp [Pc.brings]
  | exitDelete t a ht =>
      have hlive : ∀ m b, ((s.setSpace a none).setThread t (some ⟨a, .finished⟩)).live b m ↔ s.live b m := by
        intro m b
        by_cases hb : b = a
        · subst hb
          refine iff_of_false (fun hl => ?_) (not_live_of_stale (t := t) (by rw [ht]; simp [Pc.stale]))
          obtain ⟨⟨c, hc⟩, -⟩ := hl
          have hc' : Function.update s.spaces b none b = some ⟨c, m⟩ := hc
          rw [Function.update_self] at hc'
          cases hc'
        · refine live_congr ?_ (stale_update ht rfl (by simp [Ne.symm hb]))
          show (∃ c, Function.update s.spaces a none b = some ⟨c, m⟩) ↔ _
          rw [Function.update_of_ne hb]
      have hbr : ∀ m u, bringsOf (((s.setSpace a none).setThread t (some ⟨a, .finished⟩)).threads u) m ↔
          bringsOf (s.threads u) m := fun m => brings_update ht rfl (by simp [Pc.brings])
      exact ⟨place, fun m hm b => (hlive m b).trans (h.live m hm b), fun m hm u => (hbr m u).trans (h.brings m hm u),
        h.freed, h.unmade, fun u hu => h.brought u ((hbr 0 u).mp hu), h.first, h.nodup, h.pos⟩
  | exitLeave t a ht =>
      exact ⟨place, h.goto ht rfl (fun b => by simp [Pc.stale]) (fun m => by simp [Pc.brings]) (fun _ _ _ => Iff.rfl)
        rfl rfl⟩
  | reap t a ht =>
      exact ⟨place, h.goto ht rfl (fun b => by simp [Pc.stale]) (fun m => by simp [Pc.brings]) (fun _ _ _ => Iff.rfl)
        rfl rfl⟩
  | execDec t a m ht ha =>
      refine h.bring ht rfl (fun b => ?_) (fun x => by simp [Pc.brings]) (fun x => ?_)
        (fun b x => spaces_update ha rfl b x) rfl rfl
      · split_ifs <;> simp [Pc.stale]
      · split_ifs <;> simp [Pc.brings, eq_comm]
  | execRevive t a e m ht ha =>
      exact ⟨place, h.goto ht rfl (fun b => by simp [Pc.stale]) (fun x => by simp [Pc.brings])
        (fun b x _ => spaces_update ha rfl b x) rfl rfl⟩
  | execFree t a e m ht ha =>
      exact h.free ht ha (fun u => hI.not_stale ht (Or.inr rfl) u (Or.inr rfl)) (by simp [Pc.stale])
        (fun b hb => by simp [hb.symm]) fun x => by simp [Pc.brings]
  | execSet t a e m ht ha =>
      exact h.attach ht rfl rfl (fun x => not_live_of_stale (t := t) (by rw [ht]; simp [Pc.stale]))
        (fun u hu => hI.not_stale ht (Or.inr rfl) u (Or.inl hu)) (fun b => by simp [Pc.stale])
        (fun b hb => by simp [hb.symm]) (fun x => by simp [Pc.brings, eq_comm]) (fun x => by simp [Pc.brings]) rfl rfl
  | execNew t a b e ht hb =>
      have hempty : ∀ x, ¬ s.live b x := fun x hl => by
        obtain ⟨⟨c, hc⟩, -⟩ := hl
        rw [hb] at hc
        cases hc
      exact h.attach ht rfl rfl hempty (fun u _ => hI.not_stale_none hb u) (fun c => by simp [Pc.stale])
        (fun c _ => by simp [Pc.stale]) (fun x => by simp [Pc.brings, eq_comm]) (fun x => by simp [Pc.brings]) rfl rfl

/-! ## 6. Whole runs -/

theorem inv_reach (h : Reach lifeStep lifeInit s) : SpaceInv s ∧ ∃ place, MapInv s place := by
  refine Reach.inv (I := fun s => SpaceInv s ∧ ∃ place, MapInv s place) (fun s h0 => ?_) (fun s ev s' hI hs => ?_) h
  · exact ⟨spaceInv_init h0, _, mapInv_init h0⟩
  · obtain ⟨hI, place, hM⟩ := hI
    exact ⟨spaceInv_step hI hs, mapInv_step hI hM hs⟩

/-- What a reference is. -/
theorem refs_cases {th : Thread} (ht : s.threads t = some th) (h : 0 < refsOf (s.threads t) a) :
    th.memSpace = a ∧ th.pc.holds = true ∨ th.pc = .cloning a := by
  rw [ht] at h
  by_contra hno
  obtain ⟨h1, h2⟩ := not_or.mp hno
  have h0 : refsOf (some th) a = 0 := by
    show (if th.memSpace = a ∧ th.pc.holds = true then 1 else 0) + (if th.pc = .cloning a then 1 else 0) = 0
    rw [if_neg h1, if_neg h2]
  omega

theorem cloning_refs {c : Nat} (ht : s.threads t = some ⟨c, .cloning a⟩) : 0 < refsOf (s.threads t) a := by
  rw [ht]
  simp [refsOf]

/-- The map of a structure that a thread relies on has not been freed. -/
theorem SpaceInv.relies_live {th : Thread} {c x : Nat} (hI : SpaceInv s) (ht : s.threads t = some th)
    (hr : th.reliesOn a) (ha : s.spaces a = some ⟨c, x⟩) : s.live a x := by
  refine ⟨⟨c, ha⟩, fun u hu => ?_⟩
  obtain ⟨d, pc⟩ := th
  obtain ⟨pc', hpc', hst⟩ := hu
  have hown := last_or_alone hst
  -- a reference to a structure with a map that is freed there is that of the thread that has freed it
  have href : 0 < refsOf (s.threads t) a → t = u ∧ pc'.alone = true := by
    intro hpos
    rcases hown with h | h
    · rw [hI.last_no_ref hpc' h] at hpos
      cases hpos
    · exact ⟨hI.alone_eq hpc' h hpos, h⟩
  rcases hr with ⟨hmem, hp, hns⟩ | hcl
  · obtain rfl : d = a := hmem
    have hne : t ≠ u := fun he => by
      rw [he, hpc'] at ht
      cases ht
      rw [hst] at hns
      cases hns
    rcases Bool.or_eq_true_iff.mp hp with hh | hl
    · exact hne (href (refs_pos ht hh)).1
    · exact hne (hI.own_eq hpc' hown ht (Or.inl hl))
  · obtain rfl : pc = .cloning a := hcl
    obtain ⟨rfl, halone⟩ := href (cloning_refs ht)
    rw [ht] at hpc'
    cases hpc'
    cases halone

theorem SpaceInv.count (hI : SpaceInv s) (ha : s.spaces a = some m) :
    (m.refCount : ENat) = (s.holders a).encard + (s.clones a).encard := by
  have hT := hI.refs a
  rw [ha] at hT
  obtain ⟨x, y, hx, hy, hxy⟩ := hT.split
    (g := fun t => (s.threads t).elim 0 fun th => if th.memSpace = a ∧ th.pc.holds = true then 1 else 0)
    (k := fun t => (s.threads t).elim 0 fun th => if th.pc = .cloning a then 1 else 0) fun t => by
      cases s.threads t <;> rfl
  have h1 : (x : ENat) = (s.holders a).encard := by
    refine hx.encard fun t => ?_
    cases ht : s.threads t with
    | none => simp
    | some th =>
        obtain ⟨d, pc⟩ := th
        by_cases hp : d = a ∧ pc.holds = true <;> simp_all
  have h2 : (y : ENat) = (s.clones a).encard := by
    refine hy.encard fun t => ?_
    cases ht : s.threads t with
    | none => simp
    | some th =>
        obtain ⟨d, pc⟩ := th
        by_cases hp : pc = .cloning a <;> simp_all
  rw [← h1, ← h2, ← Nat.cast_add, ← hxy]
  rfl

/-- Somebody relies on a structure whose map has not been freed: who has a reference, or has seen the count at
    zero. -/
theorem SpaceInv.exists_user {c x : Nat} (hI : SpaceInv s) (ha : s.spaces a = some ⟨c, x⟩)
    (hns : ∀ t, ¬ staleOf (s.threads t) a) : ∃ t th, s.threads t = some th ∧ th.reliesOn a := by
  have hfresh : ∀ t pc, s.threads t = some ⟨a, pc⟩ → pc.stale = false := fun t pc ht =>
    Bool.eq_false_iff.mpr fun hst => hns t ⟨pc, ht, hst⟩
  by_cases hc : c = 0
  · have hT := hI.lasts a
    have hone : zeroOf (some ⟨c, x⟩) = 1 := if_pos hc
    rw [ha, hone] at hT
    obtain ⟨t, hpos⟩ := hT.exists_pos Nat.one_pos
    cases ht : s.threads t with
    | none =>
        rw [ht] at hpos
        cases hpos
    | some th =>
        obtain ⟨d, pc⟩ := th
        rw [ht] at hpos
        by_cases hp : d = a ∧ pc.last = true
        · obtain ⟨rfl, hl⟩ := hp
          exact ⟨t, _, ht, Or.inl ⟨rfl, Bool.or_eq_true_iff.mpr (Or.inr hl), hfresh t pc ht⟩⟩
        · have h0 : lastsOf (some ⟨d, pc⟩) a = 0 := if_neg hp
          rw [h0] at hpos
          cases hpos
  · have hT := hI.refs a
    rw [ha] at hT
    obtain ⟨t, hpos⟩ := hT.exists_pos (Nat.pos_of_ne_zero hc)
    cases ht : s.threads t with
    | none =>
        rw [ht] at hpos
        cases hpos
    | some th =>
        refine ⟨t, th, ht, ?_⟩
        obtain ⟨d, pc⟩ := th
        rcases refs_cases ht hpos with ⟨rfl, hh⟩ | hcl
        · exact Or.inl ⟨rfl, Bool.or_eq_true_iff.mpr (Or.inl hh), hfresh t pc ht⟩
        · exact Or.inr hcl

theorem lifetime_of_inv {place : Nat → Place} (hI : SpaceInv s) (hM : MapInv s place) : Lifetime s := by
  refine ⟨fun a m ha => hI.count ha, fun t th a ht hr => ?_, fun x hx hlt hno => ?_, fun t x hx hu => ?_⟩
  · obtain ⟨d, pc⟩ := th
    have hcount : 0 < countOf (s.spaces a) → ∃ m, s.spaces a = some m := by
      intro hpos
      cases ha : s.spaces a with
      | none =>
          rw [ha] at hpos
          cases hpos
      | some m => exact ⟨m, rfl⟩
    rcases hr with ⟨rfl, hp⟩ | rfl
    · rcases Bool.or_eq_true_iff.mp hp with hh | hl
      · exact hcount (hI.count_pos ht hh)
      · obtain ⟨m, hm, -⟩ := hI.last_zero ht hl
        exact ⟨m, hm⟩
    · exact hcount (Nat.lt_of_lt_of_le (cloning_refs ht) ((hI.refs a).le t))
  · cases hplace : place x with
    | unmade => exact absurd ((hM.unmade x hx).mpr hplace) (by omega)
    | freed => exact List.count_eq_one_of_mem hM.nodup ((hM.freed x hx).mpr hplace)
    | thread t =>
        obtain ⟨th, ht, hb⟩ := (hM.brings x hx t).mpr hplace
        exact absurd ⟨th, ht, Or.inr hb⟩ (hno t)
    | space a =>
        obtain ⟨⟨c, ha⟩, hns⟩ := (hM.live x hx a).mpr hplace
        obtain ⟨t, th, ht, hr⟩ := hI.exists_user ha hns
        exact absurd ⟨th, ht, Or.inl ⟨a, c, hr, ha⟩⟩ (hno t)
  · refine List.count_eq_zero.mpr fun hmem => ?_
    have hplace := (hM.freed x hx).mp hmem
    obtain ⟨th, ht, hr⟩ := hu
    rcases hr with ⟨a, c, hr, ha⟩ | hb
    · rw [(hM.live x hx a).mp (hI.relies_live ht hr ha)] at hplace
      cases hplace
    · rw [(hM.brings x hx t).mp ⟨th, ht, hb⟩] at hplace
      cases hplace

/-- The only user of the map in a structure that a thread has for itself. -/
theorem user_eq {place : Nat → Place} (hI : SpaceInv s) (hM : MapInv s place) (ht : s.threads t = some ⟨a, pc⟩)
    (hp : pc.last = true ∨ pc.alone = true) (hns : pc.stale = false) (ha : s.spaces a = some m)
    (hm : 0 < m.pml4Entry) (hu : s.uses u m.pml4Entry) : u = t := by
  obtain ⟨r, x⟩ := m
  have hlive : s.live a x := ⟨⟨r, ha⟩, fun v => hI.not_stale ht hp v (Or.inr hns)⟩
  have hplace := (hM.live x hm a).mp hlive
  obtain ⟨th, hth, hr⟩ := hu
  rcases hr with ⟨b, c, hr, hb⟩ | hb
  · have hplace' := (hM.live x hm b).mp (hI.relies_live hth hr hb)
    rw [hplace] at hplace'
    cases hplace'
    have href : 0 < refsOf (s.threads u) a → u = t := by
      intro hpos
      rcases hp with h | h
      · rw [hI.last_no_ref ht h] at hpos
        cases hpos
      · exact hI.alone_eq ht h hpos
    obtain ⟨d, pc'⟩ := th
    rcases hr with ⟨rfl, hp', -⟩ | rfl
    · rcases Bool.or_eq_true_iff.mp hp' with hh | hl
      · exact href (refs_pos hth hh)
      · exact hI.own_eq ht hp hth (Or.inl hl)
    · exact href (cloning_refs hth)
  · rw [(hM.brings x hm u).mp ⟨th, hth, hb⟩] at hplace
    cases hplace

/-- `FreeProcessMap` is called by the only thread that is left. -/
theorem freed_by_last {place : Nat → Place} (hI : SpaceInv s) (hM : MapInv s place) {pc' : Pc}
    (ht : s.threads t = some ⟨a, pc⟩) (hpc : pc = .exitLast ∨ ∃ e, pc = .reviving e) (ha : s.spaces a = some m) :
    FreedByLast s ((s.freeMap m.pml4Entry).setThread t (some ⟨a, pc'⟩)) := by
  have hown : pc.last = true ∨ pc.alone = true := by
    rcases hpc with rfl | ⟨e, rfl⟩
    · exact Or.inl rfl
    · exact Or.inr rfl
  have hns : pc.stale = false := by
    rcases hpc with rfl | ⟨e, rfl⟩ <;> rfl
  have href : ∀ u, 0 < refsOf (s.threads u) a → u = t := by
    intro u hpos
    rcases hown with h | h
    · rw [hI.last_no_ref ht h] at hpos
      cases hpos
    · exact hI.alone_eq ht h hpos
  by_cases hm : m.pml4Entry = 0
  · refine Or.inl ?_
    rw [show s.freeMap m.pml4Entry = s from if_pos hm]
    rfl
  · refine Or.inr ⟨t, a, m, pc, ?_, ht, hpc, ha, fun u hu => ?_, ?_, fun u hu =>
      user_eq hI hM ht hown hns ha (Nat.pos_of_ne_zero hm) hu⟩
    · rw [show s.freeMap m.pml4Entry = { s with freed := s.freed ++ [m.pml4Entry] } from if_neg hm]
      rfl
    · obtain ⟨q, hq, hh⟩ := hu
      exact href u (refs_pos hq hh)
    · refine Set.eq_empty_iff_forall_notMem.mpr fun u hu => ?_
      obtain ⟨c, hc⟩ := hu
      have he := href u (cloning_refs hc)
      rw [he, ht] at hc
      cases hc
      rcases hpc with h | ⟨e, h⟩ <;> cases h

end Spaces

/-- **The life of an address space**: in every state that the threads reach the counts are exact and every map
    was freed once, or never if it is used; and it is the last user that frees it. -/
theorem address_space_lifetime {s : Sys} (h : Reach lifeStep lifeInit s) :
    Lifetime s ∧ ∀ ev s', lifeStep s ev s' → FreedByLast s s' := by
  obtain ⟨hI, place, hM⟩ := inv_reach h
  refine ⟨lifetime_of_inv hI hM, fun ev s' hs => ?_⟩
  cases hs with
  | exitFree t a m ht ha => exact freed_by_last hI hM ht (Or.inl rfl) ha
  | execFree t a e m ht ha => exact freed_by_last hI hM ht (Or.inr ⟨e, rfl⟩) ha
  | _ => exact Or.inl rfl

def noThreads : Sys := ⟨fun _ => none, fun _ => none, 1, []⟩

/-- A kernel thread becomes a process, makes a thread that executes a file, and exits. -/
theorem address_space_lifetime_run : ∃ s, Reach lifeStep lifeInit s ∧ s.freed = [1] ∧
    s.threads 1 = some ⟨5, .running⟩ ∧ s.spaces 5 = some ⟨1, 2⟩ ∧ Lifetime s := by
  have h0 : Reach lifeStep lifeInit noThreads := .start _ ⟨fun _ => rfl, fun _ => rfl, rfl, rfl⟩
  have h1 := Reach.next _ _ _ h0 (lifeStep.createKernelThread _ 0 4 rfl rfl)
  have h2 := Reach.next _ _ _ h1 (lifeStep.execDec _ 0 4 _ rfl rfl)
  have h3 := Reach.next _ _ _ h2 (lifeStep.execRevive _ 0 4 1 _ rfl rfl)
  have h4 := Reach.next _ _ _ h3 (lifeStep.execFree _ 0 4 1 _ rfl rfl)
  have h5 := Reach.next _ _ _ h4 (lifeStep.execSet _ 0 4 1 _ rfl rfl)
  have h6 := Reach.next _ _ _ h5 (lifeStep.cloneShare _ 0 4 _ rfl rfl)
  have h7 := Reach.next _ _ _ h6 (lifeStep.publish _ 0 1 4 4 rfl rfl)
  have h8 := Reach.next _ _ _ h7 (lifeStep.execDec _ 1 4 _ rfl rfl)
  have h9 := Reach.next _ _ _ h8 (lifeStep.execNew _ 1 4 5 2 rfl rfl)
  have h10 := Reach.next _ _ _ h9 (lifeStep.exitDec _ 0 4 _ rfl rfl)
  have h11 := Reach.next _ _ _ h10 (lifeStep.exitFree _ 0 4 _ rfl rfl)
  have h12 := Reach.next _ _ _ h11 (lifeStep.exitDelete _ 0 4 rfl)
  exact ⟨_, h12, rfl, rfl, rfl, (address_space_lifetime h12).1⟩

/-- Between the calls the count is the number of the threads that have the structure. -/
theorem Lifetime.count_running {s : Sys} (h : Lifetime s) {a : Nat} {m : ThreadMemSpace} (ha : s.spaces a = some m)
    (hidle : ∀ t th, s.threads t = some th → th.pc = .running ∨ th.pc = .finished) :
    (m.refCount : ENat) = {t | s.threads t = some ⟨a, .running⟩}.encard := by
  have hholders : s.holders a = {t | s.threads t = some ⟨a, .running⟩} := by
    ext t
    constructor
    · intro ht
      obtain ⟨pc, hpc, hh⟩ := ht
      rcases hidle t _ hpc with rfl | rfl
      · exact hpc
      · cases hh
    · intro ht
      exact ⟨_, ht, rfl⟩
  have hclones : s.clones a = ∅ := by
    refine Set.eq_empty_iff_forall_notMem.mpr fun t ht => ?_
    obtain ⟨c, hc⟩ := ht
    rcases hidle t _ hc with h | h <;> cases h
  rw [h.count a m ha, hholders, hclones, Set.encard_empty, add_zero]

end MemSpaces

end SimpleOS2
