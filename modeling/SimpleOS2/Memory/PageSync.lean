/-
  File:      SimpleOS2/Memory/PageSync.lean
  Subject:   A PAGE THAT IS UNMAPPED IS UNMAPPED ON EVERY CORE (memory/MemoryManager.cpp: UnmapProcessPage,
             ISR_PageSync).

  A core keeps translations it has read in its TLB. `UnmapProcessPage` clears the leaf, drops the page from its own
  TLB, and asks the other cores to drop it: under `g_PageSyncLock` it names the page in `g_PageSyncPage`, sends an
  interrupt to all cores but its own, and waits until `g_PageSyncFinishCount` says that all have answered.

  * `syncStep` -- calls of any number of threads, the handlers of all cores, and the TLBs, which read leaves and
    forget them at any time;
  * `SyncInv`, `syncInv_step` -- who is in the section, who still has to answer, what a core that has answered holds;
  * `unmapped_everywhere` -- behind the wait, no core holds what the page was before; with no call under way the TLBs
    are right;
  * `wait_ends` -- where the cores take their interrupts, every wait ends.
-/
import Mathlib.Algebra.BigOperators.Group.Finset.Basic
import Mathlib.Algebra.Order.BigOperators.Group.Finset
import Mathlib.Data.Fintype.BigOperators
import Mathlib.Tactic.IntervalCases
import SimpleOS2.Lib.Progress
import SimpleOS2.Lib.Tally

namespace SimpleOS2

open Lib

namespace PageSync

/-! ## 1. The cores and the calls -/

/-- A leaf of a process map, and how often it was written. -/
structure Leaf where
  entry : Nat
  writes : Nat

/-- A translation in a TLB: the map it was read from, the leaf, and how often that had been written by then. -/
structure Cached where
  pml4Entry : Nat
  entry : Nat
  stamp : Nat

/-- Where a thread stands in `UnmapProcessPage`. -/
inductive Pc
  | out
  /-- behind `pml1[pml1Index] = 0` -/
  | cleared
  /-- behind its own `invlpg` -/
  | invalidated
  /-- behind `g_PageSyncLock.Spinlock()` -/
  | locked
  /-- behind `g_PageSyncFinishCount = 1` -/
  | counted
  /-- behind `g_PageSyncPage = virt` -/
  | published
  /-- behind `SendIPI`, in the loop -/
  | sent
  /-- behind the loop -/
  | answered
  /-- behind `g_PageSyncLock.Unlock()` -/
  | returned
  deriving DecidableEq

/-- The arguments of a call; `stamp` is the number of the write that cleared the leaf. -/
structure Call where
  pml4Entry : Nat
  virt : Nat
  stamp : Nat

/-- Where a core stands in `ISR_PageSync`. -/
inductive Isr
  | idle
  | entered
  /-- behind `InvalidatePage(g_PageSyncPage)` -/
  | invalidated
  deriving DecidableEq

/-- `n` cores; `pending` is the interrupt in the local APIC of a core. -/
structure Sys (n : Nat) where
  leaf : Nat → Nat → Leaf
  pml4 : Fin n → Nat
  tlb : Fin n → Nat → Option Cached
  lock : Bool
  syncPage : Nat
  finishCount : Nat
  pending : Fin n → Bool
  isr : Fin n → Isr
  pc : Nat → Pc
  call : Nat → Call

/-- The page of an address. -/
def pageOf (virt : Nat) : Nat := virt / 4096

inductive Event (n : Nat)
  /-- a core reads the leaf of a page in its map -/
  | fill (c : Fin n) (page : Nat)
  /-- a core forgets a translation -/
  | evict (c : Fin n) (page : Nat)
  /-- `SwitchProcessMap` on a core -/
  | switchMap (c : Fin n) (pml4Entry : Nat)
  /-- `MapProcessPage` of a page that is not mapped -/
  | map (pml4Entry page entry : Nat)
  /-- `UnmapProcessPage(pml4Entry, virt)` by a thread, to the write of the leaf -/
  | clear (t pml4Entry virt : Nat)
  | invlpg (t : Nat)
  | lock (t : Nat)
  | count (t : Nat)
  | publish (t : Nat)
  | send (t : Nat)
  | finish (t : Nat)
  | unlock (t : Nat)
  /-- `ISR_PageSync` on a core -/
  | enter (c : Fin n)
  | isrInvalidate (c : Fin n)
  | isrCount (c : Fin n)

section Machine

variable {n : Nat} (core : Nat → Fin n)

def Sys.setPc (s : Sys n) (t : Nat) (pc : Pc) : Sys n := { s with pc := Function.update s.pc t pc }

def Sys.setIsr (s : Sys n) (c : Fin n) (i : Isr) : Sys n := { s with isr := Function.update s.isr c i }

/-- The page leaves the TLB of a core. -/
def Sys.drop (s : Sys n) (c : Fin n) (page : Nat) : Sys n :=
  { s with tlb := Function.update s.tlb c (Function.update (s.tlb c) page none) }

def Sys.write (s : Sys n) (pml4Entry page entry : Nat) : Sys n :=
  { s with
    leaf := Function.update s.leaf pml4Entry
      (Function.update (s.leaf pml4Entry) page ⟨entry, (s.leaf pml4Entry page).writes + 1⟩) }

/-- One step; thread `t` runs on `core t`. An address is one of the user half, below 2 ^ 39. -/
def exec (s : Sys n) : Event n → Option (Sys n)
  | .fill c page =>
      let l := s.leaf (s.pml4 c) page
      if l.entry ≠ 0 then
        some { s with
          tlb := Function.update s.tlb c (Function.update (s.tlb c) page (some ⟨s.pml4 c, l.entry, l.writes⟩)) }
      else none
  | .evict c page => some (s.drop c page)
  | .switchMap c pml4Entry =>
      some { s with
        pml4 := Function.update s.pml4 c pml4Entry
        tlb := Function.update s.tlb c fun _ => none }
  | .map pml4Entry page entry =>
      if (s.leaf pml4Entry page).entry = 0 then some (s.write pml4Entry page entry) else none
  | .clear t pml4Entry virt =>
      if (s.pc t = .out ∨ s.pc t = .returned) ∧ virt < 2 ^ 39 then
        some { (s.write pml4Entry (pageOf virt) 0).setPc t .cleared with
          call := Function.update s.call t
            ⟨pml4Entry, virt, (s.leaf pml4Entry (pageOf virt)).writes + 1⟩ }
      else none
  | .invlpg t =>
      if s.pc t = .cleared then some ((s.drop (core t) (pageOf (s.call t).virt)).setPc t .invalidated) else none
  | .lock t =>
      if s.pc t = .invalidated ∧ s.lock = false then some { s.setPc t .locked with lock := true } else none
  | .count t => if s.pc t = .locked then some { s.setPc t .counted with finishCount := 1 } else none
  | .publish t =>
      if s.pc t = .counted then some { s.setPc t .published with syncPage := (s.call t).virt } else none
  | .send t =>
      if s.pc t = .published then
        some { s.setPc t .sent with pending := fun c => if c = core t then s.pending c else true }
      else none
  | .finish t => if s.pc t = .sent ∧ n ≤ s.finishCount then some (s.setPc t .answered) else none
  | .unlock t => if s.pc t = .answered then some { s.setPc t .returned with lock := false } else none
  | .enter c =>
      if s.pending c = true ∧ s.isr c = .idle then
        some ({ s with pending := Function.update s.pending c false }.setIsr c .entered)
      else none
  | .isrInvalidate c =>
      if s.isr c = .entered then
        some ((s.drop c (pageOf s.syncPage)).setIsr c .invalidated)
      else none
  | .isrCount c =>
      if s.isr c = .invalidated then
        some ({ s with finishCount := s.finishCount + 1 }.setIsr c .idle)
      else none

def syncStep (s : Sys n) (e : Event n) (s' : Sys n) : Prop := exec core s e = some s'

/-- No call has begun, and the TLBs hold what they have read from the maps. -/
structure Start (s : Sys n) : Prop where
  lock : s.lock = false
  pending : ∀ c, s.pending c = false
  isr : ∀ c, s.isr c = .idle
  pc : ∀ t, s.pc t = .out
  tlb : ∀ c page x, s.tlb c page = some x →
    x.entry ≠ 0 ∧ x.entry = (s.leaf x.pml4Entry page).entry

end Machine

/-! ## 2. The section -/

/-- Between `Spinlock()` and `Unlock()`. -/
def Pc.inSection : Pc → Bool
  | out | cleared | invalidated | returned => false
  | locked | counted | published | sent | answered => true

section Control

variable {n : Nat} {core : Nat → Fin n} {s s' : Sys n} {t : Nat} {c : Fin n}

def Isr.busy : Isr → Nat
  | idle => 0
  | entered | invalidated => 1

/-- A core that has an answer to give. -/
def Sys.busy (s : Sys n) (c : Fin n) : Nat := (s.pending c).toNat + (s.isr c).busy

/-- No core has an answer to give. -/
def Sys.Quiet (s : Sys n) : Prop := ∀ c, s.pending c = false ∧ s.isr c = .idle

/-- What a thread in the section has got ready, and who still has to answer it. -/
def Phase (core : Nat → Fin n) (s : Sys n) (t : Nat) : Pc → Prop
  | .locked | .answered => s.Quiet
  | .counted => s.Quiet ∧ s.finishCount = 1
  | .published => s.Quiet ∧ s.finishCount = 1 ∧ s.syncPage = (s.call t).virt
  | .sent => s.syncPage = (s.call t).virt ∧ s.busy (core t) = 0 ∧ (∀ c, s.busy c ≤ 1) ∧
      ∃ k, Tally s.busy k ∧ s.finishCount + k = n
  | .out | .cleared | .invalidated | .returned => False

/-- Thread `t` is in the section, at `p`, and no other thread is. -/
structure Held (core : Nat → Fin n) (s : Sys n) (t : Nat) (p : Pc) : Prop where
  pc : s.pc t = p
  lock : s.lock = true
  alone : ∀ u, u ≠ t → (s.pc u).inSection = false
  phase : Phase core s t p

/-- Nobody is in the section, or one thread is. -/
def Control (core : Nat → Fin n) (s : Sys n) : Prop :=
  (s.lock = false ∧ (∀ u, (s.pc u).inSection = false) ∧ s.Quiet) ∨ ∃ t p, Held core s t p

theorem Sys.Quiet.busy (h : s.Quiet) (c : Fin n) : s.busy c = 0 := by
  unfold Sys.busy
  rw [(h c).1, (h c).2]
  rfl

theorem busy_zero (h : s.busy c = 0) : s.pending c = false ∧ s.isr c = .idle := by
  obtain ⟨hp, hi⟩ := Nat.add_eq_zero_iff.mp h
  refine ⟨Bool.toNat_eq_zero.mp hp, ?_⟩
  cases hc : s.isr c with
  | idle => rfl
  | entered | invalidated =>
      rw [hc] at hi
      cases hi

theorem Phase.inSection {p : Pc} (h : Phase core s t p) : p.inSection = true := by
  cases p with
  | locked | counted | published | sent | answered => rfl
  | out | cleared | invalidated | returned => exact h.elim

theorem Phase.congr {p : Pc} (h : Phase core s t p) (hpage : s'.syncPage = s.syncPage)
    (hcount : s'.finishCount = s.finishCount) (hpend : s'.pending = s.pending) (hisr : s'.isr = s.isr)
    (hcall : s'.call t = s.call t) : Phase core s' t p := by
  have hbusy : s'.busy = s.busy := by
    funext c
    unfold Sys.busy
    rw [hpend, hisr]
  have hquiet : s'.Quiet = s.Quiet := by
    unfold Sys.Quiet
    rw [hpend, hisr]
  cases p <;> simp only [Phase, hbusy, hquiet, hpage, hcount, hcall] at h ⊢ <;> exact h

/-- Steps outside the section. -/
theorem Control.congr (hC : Control core s) (hlock : s'.lock = s.lock) (hpage : s'.syncPage = s.syncPage)
    (hcount : s'.finishCount = s.finishCount) (hpend : s'.pending = s.pending) (hisr : s'.isr = s.isr)
    (hpc : ∀ u, s'.pc u = s.pc u ∧ s'.call u = s.call u ∨
      (s.pc u).inSection = false ∧ (s'.pc u).inSection = false) : Control core s' := by
  have hout : ∀ u, (s.pc u).inSection = false → (s'.pc u).inSection = false := by
    intro u hu
    rcases hpc u with ⟨h, -⟩ | ⟨-, h⟩
    · rw [h]
      exact hu
    · exact h
  rcases hC with ⟨h1, h2, h3⟩ | ⟨t, p, h⟩
  · refine Or.inl ⟨hlock.trans h1, fun u => hout u (h2 u), fun c => ?_⟩
    rw [hpend, hisr]
    exact h3 c
  · obtain ⟨hpct, hcall⟩ : s'.pc t = s.pc t ∧ s'.call t = s.call t := by
      rcases hpc t with h' | ⟨h', -⟩
      · exact h'
      · rw [h.pc, h.phase.inSection] at h'
        cases h'
    exact Or.inr ⟨t, p, hpct.trans h.pc, hlock.trans h.lock, fun u hu => hout u (h.alone u hu),
      h.phase.congr hpage hcount hpend hisr hcall⟩

/-- The thread in the section is the one that takes a step of the section. -/
theorem Control.held {p : Pc} (hC : Control core s) (hp : s.pc t = p) (ht : p.inSection = true) :
    Held core s t p := by
  rcases hC with ⟨-, h2, -⟩ | ⟨u, q, h⟩
  · rw [← hp, h2 t] at ht
    cases ht
  · by_cases htu : t = u
    · subst htu
      exact (h.pc.symm.trans hp) ▸ h
    · rw [← hp, h.alone t htu] at ht
      cases ht

/-- A step of the thread in the section. -/
theorem Held.goto {p q : Pc} (h : Held core s t p) (hpc : s'.pc = Function.update s.pc t q)
    (hlock : s'.lock = true) (hq : Phase core s' t q) : Control core s' := by
  refine Or.inr ⟨t, q, by rw [hpc, Function.update_self], hlock, fun u hu => ?_, hq⟩
  rw [hpc, Function.update_of_ne hu]
  exact h.alone u hu

theorem Control.lockStep (hC : Control core s) (h : syncStep core s (.lock t) s') : Control core s' := by
  obtain ⟨hg, h⟩ := Option.ite_none_right_eq_some.mp h
  obtain rfl := Option.some.inj h
  rcases hC with ⟨-, h2, h3⟩ | ⟨u, p, h⟩
  · refine Or.inr ⟨t, .locked, Function.update_self t _ _, rfl, fun u hu => ?_, h3⟩
    show (Function.update s.pc t Pc.locked u).inSection = false
    rw [Function.update_of_ne hu]
    exact h2 u
  · rw [h.lock] at hg
    cases hg.2

theorem Control.countStep (hC : Control core s) (h : syncStep core s (.count t) s') : Control core s' := by
  obtain ⟨hg, h⟩ := Option.ite_none_right_eq_some.mp h
  obtain rfl := Option.some.inj h
  have hh := hC.held hg rfl
  exact hh.goto (q := .counted) rfl hh.lock ⟨hh.phase, rfl⟩

theorem Control.publishStep (hC : Control core s) (h : syncStep core s (.publish t) s') : Control core s' := by
  obtain ⟨hg, h⟩ := Option.ite_none_right_eq_some.mp h
  obtain rfl := Option.some.inj h
  have hh := hC.held hg rfl
  exact hh.goto (q := .published) rfl hh.lock ⟨hh.phase.1, hh.phase.2, rfl⟩

/-- All other cores have to answer. -/
theorem tally_others (a : Fin n) : Tally (fun c => if c = a then 0 else 1) (n - 1) := by
  refine ⟨Finset.univ.erase a, fun c hc => ?_, ?_⟩
  · have hca : c = a := by
      by_contra hne
      exact hc (Finset.mem_erase.mpr ⟨hne, Finset.mem_univ c⟩)
    exact if_pos hca
  · rw [Finset.sum_congr rfl fun c hc => if_neg (Finset.ne_of_mem_erase hc), ← Finset.card_eq_sum_ones,
      Finset.card_erase_of_mem (Finset.mem_univ a), Finset.card_univ, Fintype.card_fin]

theorem Control.sendStep (hC : Control core s) (h : syncStep core s (.send t) s') : Control core s' := by
  obtain ⟨hg, h⟩ := Option.ite_none_right_eq_some.mp h
  obtain rfl := Option.some.inj h
  have hh := hC.held hg rfl
  obtain ⟨hquiet, hcount, hpage⟩ := hh.phase
  refine hh.goto (q := .sent) rfl hh.lock ?_
  have hbusy : ∀ c, Sys.busy { s.setPc t .sent with pending := fun c => if c = core t then s.pending c else true } c =
      if c = core t then 0 else 1 := by
    intro c
    unfold Sys.busy
    show (if c = core t then s.pending c else true).toNat + (s.isr c).busy = _
    rw [(hquiet c).1, (hquiet c).2]
    by_cases hc : c = core t
    · rw [if_pos hc, if_pos hc]
      rfl
    · rw [if_neg hc, if_neg hc]
      rfl
  have hn : 0 < n := (core t).pos
  refine ⟨hpage, (hbusy _).trans (if_pos rfl), fun c => ?_, n - 1, (tally_others (core t)).same hbusy, ?_⟩
  · rw [hbusy]
    split_ifs
    · exact Nat.zero_le 1
    · exact Nat.le_refl 1
  · show s.finishCount + (n - 1) = n
    omega

theorem Control.finishStep (hC : Control core s) (h : syncStep core s (.finish t) s') : Control core s' := by
  obtain ⟨hg, h⟩ := Option.ite_none_right_eq_some.mp h
  obtain rfl := Option.some.inj h
  have hh := hC.held hg.1 rfl
  obtain ⟨-, -, -, k, hk, hsum⟩ := hh.phase
  refine hh.goto (q := .answered) rfl hh.lock fun c => busy_zero ?_
  have hle := hk.le c
  have hge := hg.2
  show s.busy c = 0
  omega

theorem Control.unlockStep (hC : Control core s) (h : syncStep core s (.unlock t) s') : Control core s' := by
  obtain ⟨hg, h⟩ := Option.ite_none_right_eq_some.mp h
  obtain rfl := Option.some.inj h
  have hh := hC.held hg rfl
  refine Or.inl ⟨rfl, fun u => ?_, hh.phase⟩
  show (Function.update s.pc t Pc.returned u).inSection = false
  by_cases hu : u = t
  · rw [hu, Function.update_self]
    rfl
  · rw [Function.update_of_ne hu]
    exact hh.alone u hu

/-- A core has an answer to give to the thread that waits. -/
theorem Control.sender (hC : Control core s) (hc : s.busy c ≠ 0) : ∃ t, Held core s t .sent := by
  rcases hC with ⟨-, -, hq⟩ | ⟨t, p, h⟩
  · exact absurd (hq.busy c) hc
  · have hphase := h.phase
    cases p with
    | sent => exact ⟨t, h⟩
    | locked | answered => exact absurd (Sys.Quiet.busy hphase c) hc
    | counted | published => exact absurd (Sys.Quiet.busy hphase.1 c) hc
    | out | cleared | invalidated | returned => exact hphase.elim

/-- A step of a handler: the core has its answer still to give, or gives it. -/
theorem Control.isr (hC : Control core s) {g : Nat} (hc : s.busy c = s'.busy c + g) (hpos : s.busy c ≠ 0)
    (hother : ∀ d, d ≠ c → s'.busy d = s.busy d) (hcount : s'.finishCount = s.finishCount + g)
    (hlock : s'.lock = s.lock) (hpage : s'.syncPage = s.syncPage) (hpc : s'.pc = s.pc) (hcall : s'.call = s.call) :
    Control core s' := by
  obtain ⟨t, h⟩ := hC.sender hpos
  obtain ⟨h1, h2, h3, k, hk, hsum⟩ := h.phase
  have hne : core t ≠ c := fun hx => hpos (hx ▸ h2)
  refine Or.inr ⟨t, .sent, hpc ▸ h.pc, hlock.trans h.lock, hpc ▸ h.alone, ?_⟩
  refine ⟨hpage.trans (h1.trans (hcall ▸ rfl)), (hother _ hne).trans h2, fun d => ?_, k - g,
    hk.update c hother ?_, ?_⟩
  · by_cases hd : d = c
    · rw [hd]
      have := h3 c
      omega
    · rw [hother d hd]
      exact h3 d
  all_goals
    have := hk.le c
    omega

theorem Control.enterStep (hC : Control core s) (h : syncStep core s (.enter c) s') : Control core s' := by
  obtain ⟨hg, h⟩ := Option.ite_none_right_eq_some.mp h
  obtain rfl := Option.some.inj h
  refine hC.isr (c := c) (g := 0) ?_ ?_ (fun d hd => ?_) rfl rfl rfl rfl rfl
  · simp [Sys.busy, Sys.setIsr, hg.1, hg.2, Isr.busy]
  · simp [Sys.busy, hg.1]
  · simp [Sys.busy, Sys.setIsr, Function.update_of_ne hd]

theorem Control.isrInvalidateStep (hC : Control core s) (h : syncStep core s (.isrInvalidate c) s') :
    Control core s' := by
  obtain ⟨hg, h⟩ := Option.ite_none_right_eq_some.mp h
  obtain rfl := Option.some.inj h
  refine hC.isr (c := c) (g := 0) ?_ ?_ (fun d hd => ?_) rfl rfl rfl rfl rfl
  · simp [Sys.busy, Sys.setIsr, Sys.drop, hg, Isr.busy]
  · simp [Sys.busy, hg, Isr.busy]
  · simp [Sys.busy, Sys.setIsr, Sys.drop, Function.update_of_ne hd]

theorem Control.isrCountStep (hC : Control core s) (h : syncStep core s (.isrCount c) s') : Control core s' := by
  obtain ⟨hg, h⟩ := Option.ite_none_right_eq_some.mp h
  obtain rfl := Option.some.inj h
  refine hC.isr (c := c) (g := 1) ?_ ?_ (fun d hd => ?_) rfl rfl rfl rfl rfl
  · simp [Sys.busy, Sys.setIsr, hg, Isr.busy]
  · simp [Sys.busy, hg, Isr.busy]
  · simp [Sys.busy, Sys.setIsr, Function.update_of_ne hd]

theorem Control.step {e : Event n} (hC : Control core s) (h : syncStep core s e s') : Control core s' := by
  have hsame : ∀ u, s.pc u = s.pc u ∧ s.call u = s.call u ∨
      (s.pc u).inSection = false ∧ (s.pc u).inSection = false := fun u => Or.inl ⟨rfl, rfl⟩
  cases e with
  | fill c page | map pml4Entry page entry =>
      obtain ⟨-, h⟩ := Option.ite_none_right_eq_some.mp h
      obtain rfl := Option.some.inj h
      exact hC.congr rfl rfl rfl rfl rfl hsame
  | evict c page | switchMap c pml4Entry =>
      obtain rfl := Option.some.inj h
      exact hC.congr rfl rfl rfl rfl rfl hsame
  | clear t pml4Entry virt =>
      obtain ⟨⟨hg, -⟩, h⟩ := Option.ite_none_right_eq_some.mp h
      obtain rfl := Option.some.inj h
      refine hC.congr rfl rfl rfl rfl rfl fun u => ?_
      by_cases hu : u = t
      · refine Or.inr ⟨?_, ?_⟩
        · rcases hg with hg | hg <;> rw [hu, hg] <;> rfl
        · show (Function.update s.pc t Pc.cleared u).inSection = false
          rw [hu, Function.update_self]
          rfl
      · exact Or.inl ⟨Function.update_of_ne hu _ _, Function.update_of_ne hu _ _⟩
  | invlpg t =>
      obtain ⟨hg, h⟩ := Option.ite_none_right_eq_some.mp h
      obtain rfl := Option.some.inj h
      refine hC.congr rfl rfl rfl rfl rfl fun u => ?_
      by_cases hu : u = t
      · refine Or.inr ⟨?_, ?_⟩
        · rw [hu, hg]
          rfl
        · show (Function.update s.pc t Pc.invalidated u).inSection = false
          rw [hu, Function.update_self]
          rfl
      · exact Or.inl ⟨Function.update_of_ne hu _ _, rfl⟩
  | lock t => exact hC.lockStep h
  | count t => exact hC.countStep h
  | publish t => exact hC.publishStep h
  | send t => exact hC.sendStep h
  | finish t => exact hC.finishStep h
  | unlock t => exact hC.unlockStep h
  | enter c => exact hC.enterStep h
  | isrInvalidate c => exact hC.isrInvalidateStep h
  | isrCount c => exact hC.isrCountStep h

end Control

/-! ## 3. The translations -/

section Caches

variable {n : Nat} {core : Nat → Fin n} {s s' : Sys n} {t : Nat} {c : Fin n}

/-- A call has not reached the TLB of a core yet. -/
def unserved (core : Nat → Fin n) (s : Sys n) (t : Nat) (c : Fin n) : Pc → Prop
  | .cleared => True
  | .invalidated | .locked | .counted | .published => c ≠ core t
  | .sent => s.pending c = true ∨ s.isr c = .entered
  | .out | .answered | .returned => False

def Unserved (core : Nat → Fin n) (s : Sys n) (t : Nat) (c : Fin n) : Prop := unserved core s t c (s.pc t)

/-- What the TLBs hold. -/
structure Caches (core : Nat → Fin n) (s : Sys n) : Prop where
  stamps : ∀ t, s.pc t ≠ .out →
    (s.call t).stamp ≤ (s.leaf (s.call t).pml4Entry (pageOf (s.call t).virt)).writes
  /-- a core that a call has reached holds nothing from before the call -/
  served : ∀ t c x, s.pc t ≠ .out → ¬ Unserved core s t c → s.tlb c (pageOf (s.call t).virt) = some x →
    x.pml4Entry = (s.call t).pml4Entry → (s.call t).stamp ≤ x.stamp
  present : ∀ c page x, s.tlb c page = some x → x.entry ≠ 0
  /-- a translation is right, or a call is on its way to it -/
  right : ∀ c page x, s.tlb c page = some x → x.entry = (s.leaf x.pml4Entry page).entry ∨
    ∃ t, pageOf (s.call t).virt = page ∧ (s.call t).pml4Entry = x.pml4Entry ∧ Unserved core s t c

/-- Translations leave the TLBs, and a call reaches a core only as its page leaves the TLB. -/
theorem Caches.shrink (hK : Caches core s) (htlb : ∀ c page x, s'.tlb c page = some x → s.tlb c page = some x)
    (hleaf : s'.leaf = s.leaf) (hcall : s'.call = s.call) (hout : ∀ t, s'.pc t ≠ .out → s.pc t ≠ .out)
    (hreach : ∀ t c x, Unserved core s t c → s'.tlb c (pageOf (s.call t).virt) = some x → Unserved core s' t c) :
    Caches core s' where
  stamps t ht := by
    rw [hcall, hleaf]
    exact hK.stamps t (hout t ht)
  served t c x ht hn hx := by
    rw [hcall] at hx ⊢
    exact hK.served t c x (hout t ht) (fun hu => hn (hreach t c x hu hx)) (htlb c _ x hx)
  present c page x hx := hK.present c page x (htlb c page x hx)
  right c page x hx := by
    rw [hleaf, hcall]
    rcases hK.right c page x (htlb c page x hx) with h | ⟨t, h1, h2, h3⟩
    · exact Or.inl h
    · exact Or.inr ⟨t, h1, h2, hreach t c x h3 (h1 ▸ hx)⟩

theorem Caches.fillStep {page : Nat} (hK : Caches core s) (h : syncStep core s (.fill c page) s') :
    Caches core s' := by
  obtain ⟨hg, h⟩ := Option.ite_none_right_eq_some.mp h
  obtain rfl := Option.some.inj h
  -- what is in a TLB was in it before, or has just been read
  have hcases : ∀ d q x, Function.update s.tlb c (Function.update (s.tlb c) page
      (some ⟨s.pml4 c, (s.leaf (s.pml4 c) page).entry, (s.leaf (s.pml4 c) page).writes⟩)) d q = some x →
      s.tlb d q = some x ∨
        q = page ∧ x = ⟨s.pml4 c, (s.leaf (s.pml4 c) page).entry, (s.leaf (s.pml4 c) page).writes⟩ := by
    intro d q x hx
    by_cases hd : d = c
    · rw [hd, Function.update_self] at hx
      by_cases hq : q = page
      · rw [hq, Function.update_self] at hx
        exact Or.inr ⟨hq, (Option.some.inj hx).symm⟩
      · rw [Function.update_of_ne hq] at hx
        exact Or.inl (hd ▸ hx)
    · rw [Function.update_of_ne hd] at hx
      exact Or.inl hx
  refine ⟨hK.stamps, fun t d x ht hn hx hxa => ?_, fun d q x hx => ?_, fun d q x hx => ?_⟩
  · rcases hcases d _ x hx with hx | ⟨hq, rfl⟩
    · exact hK.served t d x ht hn hx hxa
    · change s.pml4 c = (s.call t).pml4Entry at hxa
      show (s.call t).stamp ≤ (s.leaf (s.pml4 c) page).writes
      rw [← hq, hxa]
      exact hK.stamps t ht
  · rcases hcases d q x hx with hx | ⟨-, rfl⟩
    · exact hK.present d q x hx
    · exact hg
  · rcases hcases d q x hx with hx | ⟨rfl, rfl⟩
    · exact hK.right d q x hx
    · exact Or.inl rfl

theorem write_leaf (s : Sys n) (a page entry : Nat) : ((s.write a page entry).leaf a page) =
    ⟨entry, (s.leaf a page).writes + 1⟩ := by
  unfold Sys.write
  simp only [Function.update_self]

theorem write_leaf_other (s : Sys n) {a page entry b q : Nat} (h : ¬ (b = a ∧ q = page)) :
    (s.write a page entry).leaf b q = s.leaf b q := by
  unfold Sys.write
  by_cases hb : b = a
  · rw [hb]
    simp only [Function.update_self]
    rw [Function.update_of_ne fun hq => h ⟨hb, hq⟩]
  · simp only [Function.update_of_ne hb]

theorem write_writes (s : Sys n) (a page entry b q : Nat) :
    (s.leaf b q).writes ≤ ((s.write a page entry).leaf b q).writes := by
  by_cases h : b = a ∧ q = page
  · rw [h.1, h.2, write_leaf]
    exact Nat.le_succ _
  · rw [write_leaf_other s h]

theorem Caches.mapStep {a page entry : Nat} (hK : Caches core s) (h : syncStep core s (.map a page entry) s') :
    Caches core s' := by
  obtain ⟨hg, h⟩ := Option.ite_none_right_eq_some.mp h
  obtain rfl := Option.some.inj h
  refine ⟨fun t ht => (hK.stamps t ht).trans (write_writes s _ _ _ _ _), hK.served, hK.present, fun c q x hx => ?_⟩
  rcases hK.right c q x hx with hr | hr
  · refine Or.inl (hr.trans ?_)
    rw [write_leaf_other s]
    -- what is in a TLB is present, the leaf was not
    rintro ⟨h1, h2⟩
    rw [h1, h2, hg] at hr
    exact hK.present c q x hx hr
  · exact Or.inr hr

theorem Caches.clearStep {a virt : Nat} (hK : Caches core s) (h : syncStep core s (.clear t a virt) s') :
    Caches core s' := by
  obtain ⟨⟨hg, -⟩, h⟩ := Option.ite_none_right_eq_some.mp h
  obtain rfl := Option.some.inj h
  have hidle : ∀ c, ¬ Unserved core s t c := by
    intro c hu
    unfold Unserved at hu
    rcases hg with hg | hg <;> rw [hg] at hu <;> exact hu
  have hnew : ∀ c, unserved core s t c (Function.update s.pc t Pc.cleared t) := by
    intro c
    rw [Function.update_self]
    trivial
  have hold : ∀ u c, u ≠ t → unserved core s u c (Function.update s.pc t Pc.cleared u) = Unserved core s u c := by
    intro u c hu
    rw [Function.update_of_ne hu]
    rfl
  refine ⟨fun u hu => ?_, fun u c x hu hn hx hxa => ?_, hK.present, fun c q x hx => ?_⟩
  · show (Function.update s.call t _ u).stamp ≤
      ((s.write a (pageOf virt) 0).leaf (Function.update s.call t _ u).pml4Entry
        (pageOf (Function.update s.call t _ u).virt)).writes
    by_cases hut : u = t
    · rw [hut, Function.update_self, write_leaf]
    · rw [Function.update_of_ne hut]
      change Function.update s.pc t Pc.cleared u ≠ Pc.out at hu
      rw [Function.update_of_ne hut] at hu
      exact (hK.stamps u hu).trans (write_writes s _ _ _ _ _)
  · by_cases hut : u = t
    · exact absurd (hut ▸ hnew c) hn
    · change Function.update s.pc t Pc.cleared u ≠ Pc.out at hu
      change ¬ unserved core s u c (Function.update s.pc t Pc.cleared u) at hn
      change s.tlb c (pageOf (Function.update s.call t _ u).virt) = some x at hx
      change x.pml4Entry = (Function.update s.call t _ u).pml4Entry at hxa
      show (Function.update s.call t _ u).stamp ≤ x.stamp
      rw [Function.update_of_ne hut] at hu hx hxa ⊢
      rw [hold u c hut] at hn
      exact hK.served u c x hu hn hx hxa
  · show x.entry = ((s.write a (pageOf virt) 0).leaf x.pml4Entry q).entry ∨
      ∃ u, pageOf (Function.update s.call t _ u).virt = q ∧ (Function.update s.call t _ u).pml4Entry = x.pml4Entry ∧
        unserved core s u c (Function.update s.pc t Pc.cleared u)
    rcases hK.right c q x hx with hr | ⟨u, h1, h2, h3⟩
    · by_cases hp : x.pml4Entry = a ∧ q = pageOf virt
      · refine Or.inr ⟨t, ?_, ?_, hnew c⟩
        all_goals rw [Function.update_self]
        · exact hp.2.symm
        · exact hp.1.symm
      · exact Or.inl (hr.trans (by rw [write_leaf_other s hp]))
    · have hut : u ≠ t := fun hx => hidle c (hx ▸ h3)
      refine Or.inr ⟨u, ?_, ?_, (hold u c hut).symm ▸ h3⟩
      all_goals rw [Function.update_of_ne hut]
      · exact h1
      · exact h2

theorem drop_tlb (s : Sys n) (c : Fin n) (page : Nat) : (s.drop c page).tlb c page = none := by
  unfold Sys.drop
  simp only [Function.update_self]

theorem drop_sub {page q : Nat} {d : Fin n} {x : Cached} (h : (s.drop c page).tlb d q = some x) :
    s.tlb d q = some x := by
  change Function.update s.tlb c (Function.update (s.tlb c) page none) d q = some x at h
  by_cases hd : d = c
  · rw [hd, Function.update_self] at h
    by_cases hq : q = page
    · rw [hq, Function.update_self] at h
      cases h
    · rw [Function.update_of_ne hq] at h
      exact hd ▸ h
  · rw [Function.update_of_ne hd] at h
    exact h

/-- A step of the call of `t`. -/
theorem Caches.goto {q : Pc} (hK : Caches core s) (hp : s.pc t ≠ .out) (hpc : s'.pc = Function.update s.pc t q)
    (htlb : ∀ c page x, s'.tlb c page = some x → s.tlb c page = some x) (hleaf : s'.leaf = s.leaf)
    (hcall : s'.call = s.call) (hpend : ∀ c, s.pending c = true → s'.pending c = true) (hisr : s'.isr = s.isr)
    (hq : ∀ c x, Unserved core s t c → s'.tlb c (pageOf (s.call t).virt) = some x → unserved core s' t c q) :
    Caches core s' := by
  refine hK.shrink htlb hleaf hcall (fun u hu => ?_) fun u c x hun hx => ?_
  · by_cases hut : u = t
    · exact hut ▸ hp
    · rw [hpc, Function.update_of_ne hut] at hu
      exact hu
  · unfold Unserved
    by_cases hut : u = t
    · rw [hut] at hun hx ⊢
      rw [hpc, Function.update_self]
      exact hq c x hun hx
    · rw [hpc, Function.update_of_ne hut]
      unfold Unserved at hun
      cases hpu : s.pc u <;> rw [hpu] at hun
      case sent => exact hun.imp (hpend c) fun h => hisr ▸ h
      all_goals exact hun

/-- A step that leaves the TLBs and the handlers alone. -/
theorem Caches.ahead {p q : Pc} (hK : Caches core s) (hp : s.pc t = p) (hne : p ≠ .out)
    (hpc : s'.pc = Function.update s.pc t q) (htlb : s'.tlb = s.tlb) (hleaf : s'.leaf = s.leaf)
    (hcall : s'.call = s.call) (hpend : s'.pending = s.pending) (hisr : s'.isr = s.isr)
    (hq : ∀ c, unserved core s t c p → unserved core s' t c q) : Caches core s' := by
  refine hK.goto (hp ▸ hne) hpc (fun c page x hx => ?_) hleaf hcall (fun c hx => ?_) hisr fun c x hu _ => hq c ?_
  · rw [htlb] at hx
    exact hx
  · rw [hpend]
    exact hx
  · rw [← hp]
    exact hu

theorem Caches.step {e : Event n} (hC : Control core s) (hK : Caches core s) (h : syncStep core s e s') :
    Caches core s' := by
  have hC' := hC.step h
  cases e with
  | fill c page => exact hK.fillStep h
  | evict c page =>
      obtain rfl := Option.some.inj h
      exact hK.shrink (fun _ _ _ => drop_sub) rfl rfl (fun _ ht => ht) fun _ _ _ hu _ => hu
  | switchMap c pml4Entry =>
      obtain rfl := Option.some.inj h
      refine hK.shrink (fun d page x hx => ?_) rfl rfl (fun _ ht => ht) fun _ _ _ hu _ => hu
      change Function.update s.tlb c (fun _ => none) d page = some x at hx
      by_cases hd : d = c
      · rw [hd, Function.update_self] at hx
        cases hx
      · rw [Function.update_of_ne hd] at hx
        exact hx
  | map pml4Entry page entry => exact hK.mapStep h
  | clear t pml4Entry virt => exact hK.clearStep h
  | invlpg t =>
      obtain ⟨hg, h⟩ := Option.ite_none_right_eq_some.mp h
      obtain rfl := Option.some.inj h
      refine hK.goto (q := .invalidated) (by rw [hg]; nofun) rfl (fun _ _ _ => drop_sub) rfl rfl (fun _ hp => hp) rfl ?_
      rintro c x - hx rfl
      change (s.drop (core t) (pageOf (s.call t).virt)).tlb (core t) (pageOf (s.call t).virt) = some x at hx
      rw [drop_tlb] at hx
      cases hx
  | lock t =>
      obtain ⟨hg, h⟩ := Option.ite_none_right_eq_some.mp h
      obtain rfl := Option.some.inj h
      exact hK.ahead (q := .locked) hg.1 nofun rfl rfl rfl rfl rfl rfl fun _ hu => hu
  | count t =>
      obtain ⟨hg, h⟩ := Option.ite_none_right_eq_some.mp h
      obtain rfl := Option.some.inj h
      exact hK.ahead (q := .counted) hg nofun rfl rfl rfl rfl rfl rfl fun _ hu => hu
  | publish t =>
      obtain ⟨hg, h⟩ := Option.ite_none_right_eq_some.mp h
      obtain rfl := Option.some.inj h
      exact hK.ahead (q := .published) hg nofun rfl rfl rfl rfl rfl rfl fun _ hu => hu
  | send t =>
      obtain ⟨hg, h⟩ := Option.ite_none_right_eq_some.mp h
      obtain rfl := Option.some.inj h
      refine hK.goto (q := .sent) (by rw [hg]; nofun) rfl (fun _ _ _ hx => hx) rfl rfl (fun c hp => ?_) rfl ?_
      · show (if c = core t then s.pending c else true) = true
        rw [hp, ite_self]
      · intro c x hu _
        unfold Unserved at hu
        rw [hg] at hu
        exact Or.inl (if_neg hu)
  | finish t =>
      obtain ⟨hg, h⟩ := Option.ite_none_right_eq_some.mp h
      obtain rfl := Option.some.inj h
      refine hK.ahead (q := .answered) hg.1 nofun rfl rfl rfl rfl rfl rfl fun c hu => ?_
      -- all have answered: nobody is left to reach
      have hh := hC'.held (t := t) (p := .answered) (Function.update_self t _ _) rfl
      have hquiet := hh.phase c
      change s.pending c = false ∧ s.isr c = .idle at hquiet
      rcases hu with hu | hu
      · rw [hquiet.1] at hu
        cases hu
      · rw [hquiet.2] at hu
        cases hu
  | unlock t =>
      obtain ⟨hg, h⟩ := Option.ite_none_right_eq_some.mp h
      obtain rfl := Option.some.inj h
      exact hK.ahead (q := .returned) hg nofun rfl rfl rfl rfl rfl rfl fun _ hu => hu
  | enter c =>
      obtain ⟨hg, h⟩ := Option.ite_none_right_eq_some.mp h
      obtain rfl := Option.some.inj h
      refine hK.shrink (fun _ _ _ hx => hx) rfl rfl (fun _ ht => ht) fun u d x hu _ => ?_
      unfold Unserved at hu ⊢
      change unserved core _ u d (s.pc u)
      cases hpu : s.pc u <;> rw [hpu] at hu
      case sent =>
        show Function.update s.pending c false d = true ∨ Function.update s.isr c .entered d = .entered
        by_cases hd : d = c
        · rw [hd]
          exact Or.inr (Function.update_self c _ _)
        · rw [Function.update_of_ne hd, Function.update_of_ne hd]
          exact hu
      all_goals exact hu
  | isrInvalidate c =>
      obtain ⟨hg, h⟩ := Option.ite_none_right_eq_some.mp h
      obtain rfl := Option.some.inj h
      refine hK.shrink (fun _ _ _ => drop_sub) rfl rfl (fun _ ht => ht) fun u d x hu hx => ?_
      unfold Unserved at hu ⊢
      change unserved core _ u d (s.pc u)
      cases hpu : s.pc u <;> rw [hpu] at hu
      case sent =>
        show s.pending d = true ∨ Function.update s.isr c .invalidated d = .entered
        by_cases hd : d = c
        · -- the page that leaves the TLB is the one of this call
          have hh := hC.held hpu rfl
          change (s.drop c (pageOf s.syncPage)).tlb d (pageOf (s.call u).virt) = some x at hx
          rw [hd, hh.phase.1, drop_tlb] at hx
          cases hx
        · rw [Function.update_of_ne hd]
          exact hu
      all_goals exact hu
  | isrCount c =>
      obtain ⟨hg, h⟩ := Option.ite_none_right_eq_some.mp h
      obtain rfl := Option.some.inj h
      refine hK.shrink (fun _ _ _ hx => hx) rfl rfl (fun _ ht => ht) fun u d x hu _ => ?_
      unfold Unserved at hu ⊢
      change unserved core _ u d (s.pc u)
      cases hpu : s.pc u <;> rw [hpu] at hu
      case sent =>
        show s.pending d = true ∨ Function.update s.isr c .idle d = .entered
        by_cases hd : d = c
        · change s.pending d = true ∨ s.isr d = .entered at hu
          rw [hd, hg] at hu
          rw [hd]
          exact hu.imp_right fun hx => by cases hx
        · rw [Function.update_of_ne hd]
          exact hu
      all_goals exact hu

end Caches

/-! ## 4. What a call has done when it is behind its loop -/

section Results

variable {n : Nat} {core : Nat → Fin n} {s s' : Sys n} {t : Nat} {c : Fin n}

theorem Control.start (h : Start s) : Control core s :=
  Or.inl ⟨h.lock, fun u => by rw [h.pc u]; rfl, fun c => ⟨h.pending c, h.isr c⟩⟩

theorem Caches.start (h : Start s) : Caches core s where
  stamps t ht := absurd (h.pc t) ht
  served t _ _ ht := absurd (h.pc t) ht
  present c page x hx := (h.tlb c page x hx).1
  right c page x hx := Or.inl (h.tlb c page x hx).2

theorem syncInv_reach (h : Reach (syncStep core) Start s) : Control core s ∧ Caches core s :=
  Reach.inv (I := fun s => Control core s ∧ Caches core s) (fun _ hs => ⟨Control.start hs, Caches.start hs⟩)
    (fun _ _ _ hI hs => ⟨hI.1.step hs, hI.2.step hI.1 hs⟩) h

/-- What the other cores have done for a call that waits: as many as are counted have dropped the page. -/
structure Synced (core : Nat → Fin n) (s : Sys n) : Prop where
  /-- behind the loop, no core holds a translation of the page that it read before the leaf was cleared -/
  gone : ∀ t, s.pc t = .answered ∨ s.pc t = .returned → ∀ c x, s.tlb c (pageOf (s.call t).virt) = some x →
    x.pml4Entry = (s.call t).pml4Entry → (s.call t).stamp ≤ x.stamp
  /-- where no call is under way, the TLBs say what the maps say -/
  right : (∀ t, s.pc t = .out ∨ s.pc t = .answered ∨ s.pc t = .returned) → ∀ c page x, s.tlb c page = some x →
    x.entry = (s.leaf x.pml4Entry page).entry
  /-- no answer is counted twice, and none is missing when the loop ends -/
  counted : ∀ t, s.pc t = .sent → s.finishCount ≤ n ∧
    (s.finishCount = n ↔ ∀ c, s.pending c = false ∧ s.isr c = .idle)

/-- **A page that is unmapped is unmapped on every core**, whatever else the threads and the cores do. -/
theorem unmapped_everywhere (s : Sys n) (h : Reach (syncStep core) Start s) : Synced core s := by
  obtain ⟨hC, hK⟩ := syncInv_reach h
  refine ⟨fun t ht c x hx hxa => ?_, fun hall c page x hx => ?_, fun t ht => ?_⟩
  · refine hK.served t c x ?_ ?_ hx hxa
    · rcases ht with ht | ht <;> rw [ht] <;> nofun
    · unfold Unserved
      rcases ht with ht | ht <;> rw [ht] <;> exact id
  · rcases hK.right c page x hx with hr | ⟨t, -, -, hu⟩
    · exact hr
    · unfold Unserved at hu
      rcases hall t with ht | ht | ht <;> rw [ht] at hu <;> exact hu.elim
  · obtain ⟨-, -, -, k, hk, hsum⟩ := (hC.held ht rfl).phase
    refine ⟨by omega, fun hn c => busy_zero ?_, fun hq => ?_⟩
    · have hle := hk.le c
      omega
    · have hz : k = 0 := hk.unique (tally_zero (Sys.Quiet.busy hq))
      omega

end Results

/-! ## 5. Every wait ends -/

/-- The core whose handler takes the step. -/
def Event.handlerOf {n : Nat} : Event n → Option (Fin n)
  | enter c | isrInvalidate c | isrCount c => some c
  | _ => none

section Liveness

variable {n : Nat} {core : Nat → Fin n} {s s' : Sys n} {t : Nat} {r : Behaviour (syncStep core)}

/-- The cores take their interrupts and go on in their handlers, and the thread whose loop may end goes on. -/
structure Fair (r : Behaviour (syncStep core)) : Prop where
  handlers : ∀ i c, (r.state i).pending c = true ∨ (r.state i).isr c ≠ .idle →
    ∃ j, i ≤ j ∧ (r.event j).handlerOf = some c
  threads : ∀ i t, (r.state i).pc t = .sent → n ≤ (r.state i).finishCount → ∃ j, i ≤ j ∧ r.event j = .finish t

def Isr.work : Isr → Nat
  | idle => 0
  | entered => 2
  | invalidated => 1

/-- The steps a core has to take until it has answered. -/
def Sys.work (s : Sys n) (c : Fin n) : Nat := 3 * (s.pending c).toNat + (s.isr c).work

theorem work_busy {c : Fin n} (h : s.work c ≠ 0) : s.pending c = true ∨ s.isr c ≠ .idle := by
  by_contra hx
  obtain ⟨h1, h2⟩ := not_or.mp hx
  refine h ?_
  unfold Sys.work
  rw [Bool.eq_false_of_not_eq_true h1, not_not.mp h2]
  rfl

/-- One core comes nearer to its answer. -/
theorem work_less {c : Fin n} (hother : ∀ d, d ≠ c → s'.work d = s.work d) (hself : s'.work c < s.work c) :
    (∀ d, s'.work d ≤ s.work d) ∧ ∀ d, some c = some d → s'.work d < s.work d := by
  refine ⟨fun d => ?_, fun d hd => Option.some.inj hd ▸ hself⟩
  by_cases hdc : d = c
  · rw [hdc]
    exact Nat.le_of_lt hself
  · exact Nat.le_of_eq (hother d hdc)

/-- While a thread waits, a core only comes nearer to its answer. -/
theorem sent_step {e : Event n} (hC : Control core s) (ht : s.pc t = .sent) (h : syncStep core s e s') :
    s'.pc t = .answered ∨ s'.pc t = .sent ∧ (∀ c, s'.work c ≤ s.work c) ∧
      ∀ c, e.handlerOf = some c → s'.work c < s.work c := by
  have hh := hC.held ht rfl
  have hne : ∀ {u p}, s.pc u = p → p ≠ .sent → t ≠ u := by
    rintro u p hu hp rfl
    exact hp (hu.symm.trans ht)
  have hno : ∀ {u p}, s.pc u = p → p ≠ .sent → p.inSection = true → False := by
    intro u p hu hp hin
    have := hh.alone u (hne hu hp).symm
    rw [hu, hin] at this
    cases this
  -- what a step of a call outside the section does to the thread that waits
  have hstay : ∀ {u p q}, s.pc u = p → p ≠ .sent → Function.update s.pc u q t = .sent := by
    intro u p q hu hp
    rw [Function.update_of_ne (hne hu hp)]
    exact ht
  cases e with
  | fill c page | map pml4Entry page entry =>
      obtain ⟨-, h⟩ := Option.ite_none_right_eq_some.mp h
      obtain rfl := Option.some.inj h
      exact Or.inr ⟨ht, fun _ => Nat.le_refl _, nofun⟩
  | evict c page | switchMap c pml4Entry =>
      obtain rfl := Option.some.inj h
      exact Or.inr ⟨ht, fun _ => Nat.le_refl _, nofun⟩
  | clear u pml4Entry virt =>
      obtain ⟨⟨hg, -⟩, h⟩ := Option.ite_none_right_eq_some.mp h
      obtain rfl := Option.some.inj h
      refine Or.inr ⟨?_, fun _ => Nat.le_refl _, nofun⟩
      rcases hg with hg | hg
      · exact hstay hg nofun
      · exact hstay hg nofun
  | invlpg u =>
      obtain ⟨hg, h⟩ := Option.ite_none_right_eq_some.mp h
      obtain rfl := Option.some.inj h
      exact Or.inr ⟨hstay hg nofun, fun _ => Nat.le_refl _, nofun⟩
  | lock u =>
      obtain ⟨hg, h⟩ := Option.ite_none_right_eq_some.mp h
      obtain rfl := Option.some.inj h
      exact Or.inr ⟨hstay hg.1 nofun, fun _ => Nat.le_refl _, nofun⟩
  | count u | publish u | send u | unlock u =>
      obtain ⟨hg, -⟩ := Option.ite_none_right_eq_some.mp h
      exact (hno hg nofun rfl).elim
  | finish u =>
      obtain ⟨hg, h⟩ := Option.ite_none_right_eq_some.mp h
      obtain rfl := Option.some.inj h
      by_cases htu : t = u
      · exact Or.inl (htu ▸ Function.update_self u _ _)
      · have := hh.alone u (Ne.symm htu)
        rw [hg.1] at this
        cases this
  | enter c =>
      obtain ⟨hg, h⟩ := Option.ite_none_right_eq_some.mp h
      obtain rfl := Option.some.inj h
      refine Or.inr ⟨ht, work_less (fun d hd => ?_) ?_⟩
      · simp [Sys.work, Sys.setIsr, Function.update_of_ne hd]
      · simp [Sys.work, Sys.setIsr, hg.1, hg.2, Isr.work]
  | isrInvalidate c =>
      obtain ⟨hg, h⟩ := Option.ite_none_right_eq_some.mp h
      obtain rfl := Option.some.inj h
      refine Or.inr ⟨ht, work_less (fun d hd => ?_) ?_⟩
      · simp [Sys.work, Sys.setIsr, Sys.drop, Function.update_of_ne hd]
      · simp [Sys.work, Sys.setIsr, Sys.drop, hg, Isr.work]
  | isrCount c =>
      obtain ⟨hg, h⟩ := Option.ite_none_right_eq_some.mp h
      obtain rfl := Option.some.inj h
      refine Or.inr ⟨ht, work_less (fun d hd => ?_) ?_⟩
      · simp [Sys.work, Sys.setIsr, Function.update_of_ne hd]
      · simp [Sys.work, Sys.setIsr, hg, Isr.work]

/-- **Every wait ends.** -/
theorem wait_ends (r : Behaviour (syncStep core)) (h0 : Reach (syncStep core) Start (r.state 0)) (hfair : Fair r)
    (t : Nat) : r.LeadsTo (fun s => s.pc t = .sent) (fun s => s.pc t = .answered) := by
  have hC : ∀ i, Control core (r.state i) := fun i => (syncInv_reach (Behaviour.reach h0 i)).1
  refine Behaviour.LeadsTo.of_measure (fun s => ∑ c, s.work c) fun i hi => ?_
  -- until the next helpful step the thread waits, and no core gets farther from its answer
  let Near : Sys n → Prop := fun s => s.pc t = .sent ∧ ∀ c, s.work c ≤ (r.state i).work c
  have hkeep : ∀ j, Near (r.state j) → Near (r.state (j + 1)) ∨ (r.state (j + 1)).pc t = .answered := by
    intro j hj
    rcases sent_step (hC j) hj.1 (r.step j) with h | ⟨h1, h2, -⟩
    · exact Or.inr h
    · exact Or.inl ⟨h1, fun c => (h2 c).trans (hj.2 c)⟩
  have huntil : ∀ {j}, i ≤ j → Near (r.state j) ∨ ∃ k, i ≤ k ∧ k ≤ j ∧ (r.state k).pc t = .answered := fun hij =>
    Behaviour.until_or (P := Near) (Q := fun s => s.pc t = .answered) hkeep hij ⟨hi, fun _ => Nat.le_refl _⟩
  by_cases hwork : ∃ c, (r.state i).work c ≠ 0
  · obtain ⟨c, hc⟩ := hwork
    obtain ⟨j, hij, hj⟩ := hfair.handlers i c (work_busy hc)
    rcases huntil hij with hnear | ⟨k, hik, -, hk⟩
    · refine ⟨j + 1, Nat.le_succ_of_le hij, ?_⟩
      rcases sent_step (hC j) hnear.1 (r.step j) with h | ⟨h1, h2, h3⟩
      · exact Or.inl h
      · exact Or.inr ⟨h1, Finset.sum_lt_sum (fun d _ => (h2 d).trans (hnear.2 d))
          ⟨c, Finset.mem_univ c, Nat.lt_of_lt_of_le (h3 c hj) (hnear.2 c)⟩⟩
    · exact ⟨k, hik, Or.inl hk⟩
  · -- all have answered: the loop may end
    have hquiet : ∀ c, (r.state i).pending c = false ∧ (r.state i).isr c = .idle := by
      intro c
      have hz := not_not.mp fun hx => hwork ⟨c, hx⟩
      refine busy_zero ?_
      unfold Sys.work at hz
      unfold Sys.busy
      cases hisr : (r.state i).isr c <;> rw [hisr] at hz <;> simp only [Isr.work, Isr.busy] at hz ⊢ <;> omega
    have hn := ((unmapped_everywhere _ (Behaviour.reach h0 i)).counted t hi).2.mpr hquiet
    obtain ⟨j, hij, hj⟩ := hfair.threads i t hi (Nat.le_of_eq hn.symm)
    rcases huntil hij with hnear | ⟨k, hik, -, hk⟩
    · refine ⟨j + 1, Nat.le_succ_of_le hij, Or.inl ?_⟩
      have hstep := r.step j
      rw [hj] at hstep
      obtain ⟨-, hstep⟩ := Option.ite_none_right_eq_some.mp hstep
      rw [← Option.some.inj hstep]
      exact Function.update_self t _ _
    · exact ⟨k, hik, Or.inl hk⟩

end Liveness

/-! ### One page, two cores -/

section Shown

/-- Every page of every map is mapped, and the TLBs are empty. -/
def shown : Sys 2 where
  leaf _ _ := ⟨0x1007, 0⟩
  pml4 _ := 0x5000
  tlb _ _ := none
  lock := false
  syncPage := 0
  finishCount := 0
  pending _ := false
  isr _ := .idle
  pc _ := .out
  call _ := ⟨0, 0, 0⟩

theorem shown_start : Start shown := ⟨rfl, fun _ => rfl, fun _ => rfl, fun _ => rfl, nofun⟩

/-- Core 1 has read page 5 when thread 0, on core 0, unmaps it. -/
def shownEvents : List (Event 2) :=
  [.fill 1 5, .clear 0 0x5000 0x5000, .invlpg 0, .lock 0, .count 0, .publish 0, .send 0, .enter 1, .isrInvalidate 1,
    .isrCount 1, .finish 0, .unlock 0]

/-- The same run; afterwards core 0 has nothing to do but to forget page 0. -/
def shownRun : Behaviour (syncStep fun _ => (0 : Fin 2)) :=
  Behaviour.idling (exec fun _ => 0) (.evict 0 0) shownEvents shown (by decide) fun _ => rfl

theorem shownRun_reach (i : Nat) : Reach (syncStep fun _ => (0 : Fin 2)) Start (shownRun.state i) :=
  Behaviour.reach (.start _ shown_start) i

/-- Behind the loop of thread 0, core 1 does not hold page 5 any more. -/
theorem unmapped_everywhere_shown : (shownRun.state 3).tlb 1 5 = some ⟨0x5000, 0x1007, 0⟩ ∧
    (shownRun.state 11).pc 0 = .answered ∧ (shownRun.state 11).tlb 1 5 = none ∧
    Synced (fun _ => 0) (shownRun.state 11) := ⟨rfl, rfl, rfl, unmapped_everywhere _ (shownRun_reach 11)⟩

theorem shownRun_after {i : Nat} (hi : 12 ≤ i) : (∀ c, (shownRun.state i).pending c = false) ∧
    (∀ c, (shownRun.state i).isr c = .idle) ∧ ∀ t, (shownRun.state i).pc t ≠ .sent := by
  refine idling_after (fun s : Sys 2 => (∀ c, s.pending c = false) ∧ (∀ c, s.isr c = .idle) ∧ ∀ t, s.pc t ≠ .sent)
    (fun s s' h hs => ?_) ?_ hi
  · obtain rfl := Option.some.inj hs
    exact h
  · refine ⟨fun c => ?_, fun c => ?_, fun t => ?_⟩
    · match c with
      | 0 => rfl
      | 1 => rfl
    · match c with
      | 0 => rfl
      | 1 => rfl
    · match t with
      | 0 => nofun
      | _ + 1 => nofun

/-- No other thread than 0 calls. -/
theorem shownRun_other {i t : Nat} (hi : i < 12) : (shownRun.state i).pc (t + 1) = .out := by
  interval_cases i <;> rfl

theorem shownRun_fair : Fair shownRun := by
  have hbusy : ∀ i, i < 12 → ∀ c, (shownRun.state i).pending c = true ∨ (shownRun.state i).isr c ≠ .idle →
      i ≤ 9 ∧ c = 1 := by decide
  have hsent : ∀ i, i < 12 → (shownRun.state i).pc 0 = .sent → i ≤ 10 := by decide
  refine ⟨fun i c hb => ?_, fun i t ht _ => ?_⟩
  · rcases Nat.lt_or_ge i 12 with hi | hi
    · obtain ⟨h9, rfl⟩ := hbusy i hi c hb
      exact ⟨9, h9, rfl⟩
    · obtain ⟨h1, h2, -⟩ := shownRun_after hi
      rcases hb with hb | hb
      · rw [h1 c] at hb
        cases hb
      · exact absurd (h2 c) hb
  · rcases Nat.lt_or_ge i 12 with hi | hi
    · cases t with
      | zero => exact ⟨10, hsent i hi ht, rfl⟩
      | succ t =>
          rw [shownRun_other hi] at ht
          cases ht
    · exact absurd ht ((shownRun_after hi).2.2 t)

/-- Thread 0 waits at the time 7, and not for ever. -/
theorem wait_ends_shown : (shownRun.state 7).pc 0 = .sent ∧ ∃ j, 7 ≤ j ∧ (shownRun.state j).pc 0 = .answered :=
  ⟨rfl, wait_ends shownRun (shownRun_reach 0) shownRun_fair 0 7 rfl⟩

end Shown

end PageSync

end SimpleOS2
