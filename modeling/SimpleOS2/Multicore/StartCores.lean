/-
  File:      SimpleOS2/Multicore/StartCores.lean
  Subject:   THE START OF THE OTHER CORES (multicore/SMP.cpp, StartCores and CoreEntry; multicore/startup.asm;
             arch/APIC.cpp, GetID, SendInitIPI, SendStartupIPI).

  One core starts the others one after the other. It talks to them through two flags, `alive` and `started`, and
  through one word in the trampoline, the stack for the next core. The cores run on by themselves: the flags are the
  same for all of them, and a core that is late meets the words meant for the next one. APIC.cpp takes four bits of an
  APIC ID, the table has eight.

  * `bootStep` -- `StartCores`; `coreStep` -- `startup.asm` and `CoreEntry`; `Ipi.react` -- a core and an interrupt;
  * `cores_apart` -- where every ID has four bits: one core at a time is in the trampoline, each has a stack, page
    tables and a number of its own, and behind the loop the working cores are started and counted;
  * `start_ends` -- the start comes to an end, whatever the order of the steps;
  * `all_started_iff` -- where every core works: all of them get started under their own numbers exactly if every ID
    has four bits.
-/
import Mathlib.Data.Finset.Card
import SimpleOS2.Lib.Progress
import SimpleOS2.Lib.Tally
import SimpleOS2.Multicore.SMP

namespace SimpleOS2

open Lib SMP

namespace StartCores

/-! ## 1. The machine -/

/-- The cores as `GatherInfo` lists them, the one that runs `main`, and those that do not answer. -/
structure Board where
  table : CoreTable
  boot : Nat
  broken : Nat → Bool

/-- The ID register of the LAPIC of a core. -/
def Board.lapicID (m : Board) (k : Nat) : BitVec 8 := (m.table.info k).apicID.setWidth 8

/-- `APIC::GetID` on the core `k`. -/
def Board.getID (m : Board) (k : Nat) : BitVec 64 := (m.lapicID k).setWidth 64 &&& 0xF

/-- `SMP::GetLogicalCoreID` where `APIC::GetID` says `lapicID`. -/
def getLogicalCoreID (t : CoreTable) (lapicID : BitVec 64) : Nat :=
  ((List.range t.numCores).find? fun i => (t.info i).apicID = lapicID).getD MaxCoreCount

/-- What `SendInitIPI` and `SendStartupIPI` write to `RegCommandHi`. -/
def commandHi (coreID : BitVec 8) : BitVec 32 := (coreID.setWidth 32 &&& 0xF) <<< 24

/-- The LAPIC that the message goes to: the upper byte of the register. -/
def destination (coreID : BitVec 8) : BitVec 8 := (commandHi coreID >>> 24).setWidth 8

inductive Ipi
  | init
  | startup
  deriving DecidableEq

/-- Where a core is. `trampoline` is `startup.asm` up to `lm_Entry`, `entered` is `CoreEntry` before `alive = true`. -/
inductive Place
  | boot
  | waiting
  | trampoline
  | entered
  | alive
  | initialized
  | started
  | idle
  deriving DecidableEq

/-- INIT resets a core wherever it is. STARTUP is for those that wait for it. -/
def Ipi.react : Ipi → Place → Place
  | .init, _ => .waiting
  | .startup, .waiting => .trampoline
  | .startup, p => p

/-- Where the boot core is in the loop of `StartCores`. -/
inductive Pc
  | head
  | slot (stack : Nat)
  | aliveOff
  | startedOff
  | sendInit
  | sendStartup
  | firstTest
  | resend
  | secondTest
  | await
  | count
  | finished
  deriving DecidableEq

/-- What a page has been given away for. -/
inductive Owner
  | kernel
  | stack (core : Nat)
  | table (core : Nat)
  deriving DecidableEq

/-- Addresses are physical ones, pages are numbered. `slot` is `smp_StackAddress`; `rsp`, `cr3` and `logical` are the
    registers and the `logicalID` of each core. -/
structure Sys where
  pc : Pc
  i : Nat
  slot : Nat
  alive : Bool
  started : Bool
  startCount : Nat
  numRunning : Nat
  owner : Nat → Option Owner
  queue : BitVec 8 → List Ipi
  place : Nat → Place
  rsp : Nat → Nat
  cr3 : Nat → Nat
  logical : Nat → Nat

/-- `count` pages from `p` on that `EarlyAllocatePages` may give away. -/
def Fresh (s : Sys) (p count : Nat) : Prop := ∀ j, j < count → s.owner (p + j) = none

instance instDecidableFresh (s : Sys) (p count : Nat) : Decidable (Fresh s p count) :=
  inferInstanceAs (Decidable (∀ j, j < count → s.owner (p + j) = none))

/-- `EarlyAllocatePages`. -/
def allocate (s : Sys) (p count : Nat) (o : Owner) : Sys :=
  { s with owner := fun q => if p ≤ q ∧ q < p + count then some o else s.owner q }

def send (s : Sys) (coreID : BitVec 8) (x : Ipi) : Sys :=
  { s with queue := Function.update s.queue (destination coreID) (s.queue (destination coreID) ++ [x]) }

/-- The core that the boot core is at. -/
def Board.apicID (m : Board) (s : Sys) : BitVec 64 := (m.table.info s.i).apicID

/-- The loop of `StartCores`; `p` is where the stack is taken. -/
def bootStep (m : Board) (s : Sys) (p : Nat) : Option Sys :=
  match s.pc with
  | .head =>
      if s.i < m.table.numCores then
        if m.apicID s = m.getID m.boot then some { s with i := s.i + 1 }
        else if Fresh s p 3 then some { allocate s p 3 (.stack s.i) with pc := .slot p } else none
      else some { s with pc := .finished }
  | .slot stack => some { s with slot := (stack + 3) * 4096, pc := .aliveOff }
  | .aliveOff => some { s with alive := false, pc := .startedOff }
  | .startedOff => some { s with started := false, pc := .sendInit }
  | .sendInit => some { send s ((m.apicID s).setWidth 8) .init with pc := .sendStartup }
  | .sendStartup => some { send s ((m.apicID s).setWidth 8) .startup with pc := .firstTest }
  | .firstTest => some { s with pc := if s.alive then .await else .resend }
  | .resend => some { send s ((m.apicID s).setWidth 8) .startup with pc := .secondTest }
  | .secondTest =>
      if s.alive then some { s with pc := .await }
      else some { s with i := s.i + 1, pc := .head } -- "failed to start"
  | .await => if s.started then some { s with pc := .count } else none
  | .count => some { s with numRunning := s.numRunning + 1, i := s.i + 1, pc := .head }
  | .finished => none

/-- `startup.asm` and `CoreEntry`; `p` is the page for the PML4 in `MemoryManager::InitCore`. -/
def coreStep (m : Board) (s : Sys) (k p : Nat) : Option Sys :=
  match s.place k with
  | .trampoline =>
      some { s with rsp := Function.update s.rsp k s.slot, place := Function.update s.place k .entered }
  | .entered => some { s with alive := true, place := Function.update s.place k .alive }
  | .alive =>
      if Fresh s p 1 then
        some { allocate s p 1 (.table k) with
          cr3 := Function.update s.cr3 k p
          logical := Function.update s.logical k (getLogicalCoreID m.table (m.getID k))
          place := Function.update s.place k .initialized }
      else none
  | .initialized => some { s with started := true, place := Function.update s.place k .started }
  | .started => some { s with startCount := s.startCount + 1, place := Function.update s.place k .idle }
  | .boot | .waiting | .idle => none

inductive Event
  | boot (p : Nat)
  | deliver (k : Nat)
  | core (k p : Nat)

def exec (m : Board) (s : Sys) : Event → Option Sys
  | .boot p => if s.place m.boot = .boot then bootStep m s p else none
  | .deliver k =>
      if k < m.table.numCores ∧ m.broken k = false then
        match s.queue (m.lapicID k) with
        | [] => none
        | x :: rest =>
            some { s with
              queue := Function.update s.queue (m.lapicID k) rest
              place := Function.update s.place k (x.react (s.place k)) }
      else none
  | .core k p => if k < m.table.numCores then coreStep m s k p else none

def startStep (m : Board) (s : Sys) (e : Event) (s' : Sys) : Prop := exec m s e = some s'

/-- A core that works and has been sent something, or is on its way to `alive = true`. -/
def Board.Late (m : Board) (s : Sys) (k : Nat) : Prop :=
  m.broken k = false ∧ (s.queue (m.lapicID k) ≠ [] ∨ s.place k = .trampoline ∨ s.place k = .entered)

instance instDecidableLate (m : Board) (s : Sys) (k : Nat) : Decidable (m.Late s k) :=
  inferInstanceAs (Decidable (m.broken k = false ∧
    (s.queue (m.lapicID k) ≠ [] ∨ s.place k = .trampoline ∨ s.place k = .entered)))

/-- The boot core gives a core up when nobody is late any more. That is what `WaitSecond` is for; how long it waits is
    not modelled (`Wait` sends the PIT the high byte of `ms` instead of that of `count`). -/
def Punctual (m : Board) (s : Sys) : Event → Prop
  | .boot _ => s.pc = .secondTest → s.alive = false → ∀ k, k < m.table.numCores → ¬ m.Late s k
  | _ => True

/-- Behind `GatherInfo`, with enough memory. -/
structure Start (m : Board) (s : Sys) : Prop where
  pc : s.pc = .head
  i : s.i = 0
  startCount : s.startCount = 0
  numRunning : s.numRunning = 1
  queue : ∀ d, s.queue d = []
  boot : s.place m.boot = .boot
  place : ∀ k, k ≠ m.boot → s.place k = .waiting
  memory : ∃ n, ∀ p, n ≤ p → s.owner p = none

/-- Every core is in the table once, the boot core too, and the table is not too long. -/
structure Listed (m : Board) : Prop where
  bounded : m.table.numCores ≤ MaxCoreCount
  boot : m.boot < m.table.numCores
  byte : ∀ k, k < m.table.numCores → (m.table.info k).apicID.toNat < 256
  once : ∀ k, k < m.table.numCores → ∀ l, l < m.table.numCores →
    (m.table.info k).apicID = (m.table.info l).apicID → k = l

/-- Every ID has four bits. -/
def FourBits (m : Board) : Prop := ∀ k, k < m.table.numCores → (m.table.info k).apicID.toNat < 16

/-- The runs of the start. -/
abbrev Started (m : Board) (s : Sys) : Prop := Reach (Guarded (startStep m) (Punctual m)) (Start m) s

/-! ## 2. The IDs -/

section Ids

variable {m : Board} {k l : Nat}

theorem destination_toNat (c : BitVec 8) : (destination c).toNat = c.toNat % 16 := by
  have hand : (c.setWidth 32 &&& (0xF : BitVec 32)).toNat = c.toNat % 16 := by
    rw [BitVec.toNat_and, BitVec.toNat_setWidth, Nat.mod_eq_of_lt (by have := c.isLt; omega)]
    exact Nat.and_two_pow_sub_one_eq_mod c.toNat 4
  unfold destination commandHi
  rw [BitVec.toNat_setWidth, BitVec.toNat_ushiftRight, BitVec.toNat_shiftLeft, hand, Nat.shiftLeft_eq,
    Nat.shiftRight_eq_div_pow]
  omega

theorem getID_toNat (m : Board) (k : Nat) : (m.getID k).toNat = (m.lapicID k).toNat % 16 := by
  unfold Board.getID
  rw [BitVec.toNat_and, BitVec.toNat_setWidth, Nat.mod_eq_of_lt (by have := (m.lapicID k).isLt; omega)]
  exact Nat.and_two_pow_sub_one_eq_mod _ 4

theorem Listed.lapicID (h : Listed m) (hk : k < m.table.numCores) :
    (m.lapicID k).toNat = (m.table.info k).apicID.toNat := by
  unfold Board.lapicID
  rw [BitVec.toNat_setWidth]
  exact Nat.mod_eq_of_lt (h.byte k hk)

theorem Listed.lapicID_inj (h : Listed m) (hk : k < m.table.numCores) (hl : l < m.table.numCores)
    (e : m.lapicID k = m.lapicID l) : k = l := by
  refine h.once k hk l hl (BitVec.eq_of_toNat_eq ?_)
  rw [← h.lapicID hk, ← h.lapicID hl, e]

theorem Listed.getID (h : Listed m) (hf : FourBits m) (hk : k < m.table.numCores) :
    m.getID k = (m.table.info k).apicID := by
  have hlt := hf k hk
  refine BitVec.eq_of_toNat_eq ?_
  rw [getID_toNat, h.lapicID hk]
  omega

/-- A message goes to the core that it is meant for. -/
theorem Listed.destination (h : Listed m) (hf : FourBits m) (hk : k < m.table.numCores) :
    destination ((m.table.info k).apicID.setWidth 8) = m.lapicID k := by
  have hlt := hf k hk
  refine BitVec.eq_of_toNat_eq ?_
  rw [destination_toNat]
  show (m.lapicID k).toNat % 16 = _
  rw [h.lapicID hk]
  omega

theorem logical_iff {t : CoreTable} {id : BitVec 64} (hn : t.numCores ≤ MaxCoreCount) (hk : k < t.numCores) :
    getLogicalCoreID t id = k ↔ (t.info k).apicID = id ∧ ∀ j, j < k → (t.info j).apicID ≠ id := by
  unfold getLogicalCoreID
  have hsome : (List.range t.numCores).find? (fun i => (t.info i).apicID = id) = some k ↔
      (t.info k).apicID = id ∧ ∀ j, j < k → (t.info j).apicID ≠ id := by
    rw [List.find?_range_eq_some]
    simp only [decide_eq_true_eq, List.mem_range, Bool.not_eq_eq_eq_not, Bool.not_true, decide_eq_false_iff_not]
    exact ⟨fun hx => ⟨hx.1, hx.2.2⟩, fun hx => ⟨hx.1, hk, hx.2⟩⟩
  rw [← hsome]
  cases hfind : (List.range t.numCores).find? fun i => (t.info i).apicID = id with
  | none =>
      refine iff_of_false ?_ nofun
      rw [Option.getD_none]
      omega
  | some j => rw [Option.getD_some, Option.some.injEq]

/-- **A core finds itself in the table exactly if its ID has four bits.** -/
theorem Listed.logical_iff (h : Listed m) (hk : k < m.table.numCores) :
    getLogicalCoreID m.table (m.getID k) = k ↔ (m.table.info k).apicID.toNat < 16 := by
  rw [StartCores.logical_iff h.bounded hk]
  constructor
  · intro hx
    have hid := congrArg BitVec.toNat hx.1
    rw [getID_toNat] at hid
    omega
  · intro hlt
    have hself : (m.table.info k).apicID = m.getID k := by
      refine BitVec.eq_of_toNat_eq ?_
      rw [getID_toNat, h.lapicID hk]
      omega
    refine ⟨hself, fun j hj e => ?_⟩
    exact Nat.ne_of_lt hj (h.once j (by omega) k hk (e.trans hself.symm))

end Ids

/-! ## 3. Who is where -/

/-- The core has written `alive`. -/
def Place.HasRun : Place → Prop
  | .alive | .initialized | .started | .idle => True
  | _ => False

/-- The core has written `started`. -/
def Place.HasStarted : Place → Prop
  | .started | .idle => True
  | _ => False

/-- The core `i` has been sent INIT and is not done with. -/
def Pc.Calling : Pc → Prop
  | .sendStartup | .firstTest | .resend | .secondTest | .await | .count => True
  | _ => False

/-- The boot core is at the core `i`. -/
def Pc.Busy : Pc → Prop
  | .head | .finished => False
  | _ => True

/-- A core that the loop has not come to. -/
structure Untouched (m : Board) (s : Sys) (k : Nat) : Prop where
  place : s.place k = .waiting
  queue : s.queue (m.lapicID k) = []

/-- A core that the loop is done with: given up, or started. -/
inductive Settled (m : Board) (s : Sys) (k : Nat) : Prop
  | givenUp (hb : m.broken k = true) (hp : s.place k = .waiting)
  | running (hb : m.broken k = false) (hp : (s.place k).HasStarted) (hq : ∀ x ∈ s.queue (m.lapicID k), x = .startup)

/-- The core that the loop is at has yet to take a message, or is on its way. -/
inductive OnTheWay (m : Board) (s : Sys) : Prop
  | waiting (hp : s.place s.i = .waiting) (htail : ∀ x ∈ (s.queue (m.lapicID s.i)).tail, x = .startup)
      (hq : .startup ∈ s.queue (m.lapicID s.i) ↔ s.pc ≠ .sendStartup)
  | running (hb : m.broken s.i = false) (hp : s.place s.i ≠ .waiting) (hboot : s.place s.i ≠ .boot)
      (hpc : s.pc ≠ .sendStartup) (hq : ∀ x ∈ s.queue (m.lapicID s.i), x = .startup)

/-- The core that the loop is at, and the flags. -/
structure Called (m : Board) (s : Sys) : Prop where
  way : OnTheWay m s
  alive : s.alive = true ↔ (s.place s.i).HasRun
  started : s.started = true ↔ (s.place s.i).HasStarted
  await : s.pc = .await → (s.place s.i).HasRun
  count : s.pc = .count → (s.place s.i).HasStarted

/-- **Who is where.** -/
structure Control (m : Board) (s : Sys) : Prop where
  boot : s.place m.boot = .boot
  bootQueue : s.queue (m.lapicID m.boot) = []
  le : s.i ≤ m.table.numCores
  busy : s.pc.Busy → s.i < m.table.numCores ∧ s.i ≠ m.boot
  finished : s.pc = .finished → s.i = m.table.numCores
  aliveOff : s.pc = .startedOff ∨ s.pc = .sendInit → s.alive = false
  startedOff : s.pc = .sendInit → s.started = false
  earlier : ∀ k, k < s.i → k ≠ m.boot → Settled m s k
  current : s.pc.Calling → Called m s
  later : ∀ k, k < m.table.numCores → k ≠ m.boot → s.i ≤ k → (k = s.i → ¬ s.pc.Calling) → Untouched m s k

section Control

variable {m : Board} {s s' : Sys} {k : Nat}

theorem Control.start (h : Start m s) : Control m s where
  boot := h.boot
  bootQueue := h.queue _
  le := by
    rw [h.i]
    exact Nat.zero_le _
  busy hb := by
    rw [h.pc] at hb
    exact hb.elim
  finished hf := by
    rw [h.pc] at hf
    cases hf
  aliveOff hx := by
    rw [h.pc] at hx
    exact hx.elim nofun nofun
  startedOff hx := by
    rw [h.pc] at hx
    cases hx
  earlier k hk := by
    rw [h.i] at hk
    exact absurd hk (Nat.not_lt_zero k)
  current hc := by
    rw [h.pc] at hc
    exact hc.elim
  later k _ hk _ _ := ⟨h.place k hk, h.queue _⟩

theorem Settled.congr (h : Settled m s k) (hp : s'.place k = s.place k)
    (hq : s'.queue (m.lapicID k) = s.queue (m.lapicID k)) : Settled m s' k := by
  cases h with
  | givenUp hb hw => exact .givenUp hb (hp.trans hw)
  | running hb hr ha => exact .running hb (hp ▸ hr) (hq ▸ ha)

theorem Untouched.congr (h : Untouched m s k) (hp : s'.place k = s.place k)
    (hq : s'.queue (m.lapicID k) = s.queue (m.lapicID k)) : Untouched m s' k := ⟨hp.trans h.place, hq.trans h.queue⟩

/-- The way does not change where the boot core goes on without a message. -/
theorem OnTheWay.congr (h : OnTheWay m s) (hi : s'.i = s.i) (hp : s'.place s.i = s.place s.i)
    (hq : s'.queue (m.lapicID s.i) = s.queue (m.lapicID s.i)) (hpc : s'.pc = .sendStartup ↔ s.pc = .sendStartup) :
    OnTheWay m s' := by
  cases h with
  | waiting hw ht hs =>
      refine .waiting ?_ ?_ ?_
      · rw [hi, hp, hw]
      · rw [hi, hq]
        exact ht
      · rw [hi, hq]
        exact hs.trans (not_congr hpc).symm
  | running hb hw hboot hs ha =>
      refine .running ?_ ?_ ?_ (fun hx => hs (hpc.mp hx)) ?_
      · rw [hi]
        exact hb
      · rw [hi, hp]
        exact hw
      · rw [hi, hp]
        exact hboot
      · rw [hi, hq]
        exact ha

/-- The boot core goes on, and nobody else does anything. -/
theorem Control.move (h : Control m s) (hp : s'.place = s.place) (hq : s'.queue = s.queue) (hi : s'.i = s.i)
    (hbusy : s'.pc.Busy → s.i < m.table.numCores ∧ s.i ≠ m.boot) (hfin : s'.pc = .finished → s.i = m.table.numCores)
    (hoff : s'.pc = .startedOff ∨ s'.pc = .sendInit → s'.alive = false)
    (hoff' : s'.pc = .sendInit → s'.started = false) (hstay : s.pc.Calling → s'.pc.Calling)
    (hcur : s'.pc.Calling → Called m s') : Control m s' where
  boot := hp ▸ h.boot
  bootQueue := hq ▸ h.bootQueue
  le := hi ▸ h.le
  busy := hi ▸ hbusy
  finished := hi ▸ hfin
  aliveOff := hoff
  startedOff := hoff'
  earlier k hk hb := (h.earlier k (hi ▸ hk) hb).congr (congrFun hp k) (congrFun hq _)
  current := hcur
  later k hk hb hle hc := (h.later k hk hb (hi ▸ hle) fun e hx => hc (e.trans hi.symm) (hstay hx)).congr
    (congrFun hp k) (congrFun hq _)

/-- The boot core goes to the next core. -/
theorem Control.next (h : Control m s) (hp : s'.place = s.place) (hq : s'.queue = s.queue) (hi : s'.i = s.i + 1)
    (hpc : s'.pc = .head) (hlt : s.i < m.table.numCores) (hdone : s.i ≠ m.boot → Settled m s s.i) : Control m s' where
  boot := hp ▸ h.boot
  bootQueue := hq ▸ h.bootQueue
  le := by omega
  busy hb := by
    rw [hpc] at hb
    exact hb.elim
  finished hf := by
    rw [hpc] at hf
    cases hf
  aliveOff hx := by
    rw [hpc] at hx
    exact hx.elim nofun nofun
  startedOff hx := by
    rw [hpc] at hx
    cases hx
  earlier k hk hb := by
    have hk' : k < s.i ∨ k = s.i := by omega
    rcases hk' with hk' | rfl
    · exact (h.earlier k hk' hb).congr (congrFun hp k) (congrFun hq _)
    · exact (hdone hb).congr (congrFun hp _) (congrFun hq _)
  current hc := by
    rw [hpc] at hc
    exact hc.elim
  later k hk hb hle _ := (h.later k hk hb (by omega) fun e _ => by omega).congr (congrFun hp k) (congrFun hq _)

/-- The boot core sends the core it is at a message. -/
theorem Control.send (hm : Listed m) (hf : FourBits m) (h : Control m s) (x : Ipi) {pc : Pc}
    (hlt : s.i < m.table.numCores) (hne : s.i ≠ m.boot) (hpc : pc.Calling)
    (hcur : Called m { send s ((m.apicID s).setWidth 8) x with pc := pc }) :
    Control m { send s ((m.apicID s).setWidth 8) x with pc := pc } := by
  have hdest : destination ((m.apicID s).setWidth 8) = m.lapicID s.i := hm.destination hf hlt
  have hother : ∀ l, l < m.table.numCores → l ≠ s.i →
      (StartCores.send s ((m.apicID s).setWidth 8) x).queue (m.lapicID l) = s.queue (m.lapicID l) := fun l hl hne =>
    Function.update_of_ne (fun e => hne (hm.lapicID_inj hl hlt (e.trans hdest))) _ _
  have hoff : ¬ (pc = .startedOff ∨ pc = .sendInit) := by
    rintro (rfl | rfl)
    · exact hpc
    · exact hpc
  refine ⟨h.boot, ?_, h.le, fun _ => ⟨hlt, hne⟩, fun e => ?_, fun hx => (hoff hx).elim, fun hx => (hoff (.inr hx)).elim,
    fun k hk hb => ?_, fun _ => hcur, fun k hk hb hle hc => ?_⟩
  · exact (hother m.boot hm.boot fun e => hne e.symm).trans h.bootQueue
  · obtain rfl : pc = .finished := e
    exact hpc.elim
  · have hk' : k < s.i := hk
    exact (h.earlier k hk hb).congr rfl (hother k (by omega) (by omega))
  · have hki : k ≠ s.i := fun e => hc e hpc
    exact (h.later k hk hb hle fun e => (hki e).elim).congr rfl (hother k hk hki)

/-- Another core does something: one that is started, or the one that the loop is at. -/
theorem Control.only (hm : Listed m) (h : Control m s) (hk : k < m.table.numCores) (hb : k ≠ m.boot)
    (hpc : s'.pc = s.pc) (hi : s'.i = s.i) (hp : ∀ l, l ≠ k → s'.place l = s.place l)
    (hq : ∀ l, l < m.table.numCores → l ≠ k → s'.queue (m.lapicID l) = s.queue (m.lapicID l))
    (hcase : (k < s.i ∧ Settled m s' k ∧ s'.alive = s.alive ∧ s'.started = s.started) ∨
      (k = s.i ∧ s.pc.Calling ∧ Called m s')) : Control m s' where
  boot := (hp _ (Ne.symm hb)).trans h.boot
  bootQueue := (hq _ hm.boot (Ne.symm hb)).trans h.bootQueue
  le := hi ▸ h.le
  busy := by
    rw [hpc, hi]
    exact h.busy
  finished := by
    rw [hpc, hi]
    exact h.finished
  aliveOff hx := by
    rw [hpc] at hx
    rcases hcase with ⟨-, -, ha, -⟩ | ⟨-, hc, -⟩
    · exact ha.trans (h.aliveOff hx)
    · rcases hx with hx | hx
      all_goals
        rw [hx] at hc
        exact hc.elim
  startedOff hx := by
    rw [hpc] at hx
    rcases hcase with ⟨-, -, -, hs⟩ | ⟨-, hc, -⟩
    · exact hs.trans (h.startedOff hx)
    · rw [hx] at hc
      exact hc.elim
  earlier l hl hlb := by
    rw [hi] at hl
    rcases eq_or_ne l k with rfl | hne
    · rcases hcase with ⟨-, hs, -⟩ | ⟨e, -⟩
      · exact hs
      · omega
    · exact (h.earlier l hl hlb).congr (hp l hne) (hq l (by have := h.le; omega) hne)
  current hc := by
    rw [hpc] at hc
    rcases hcase with ⟨hlt, -, ha, hs⟩ | ⟨-, -, hcall⟩
    · have hne : s.i ≠ k := by omega
      have hcall := h.current hc
      have hbusy : s.pc.Busy := by
        cases hx : s.pc
        all_goals
          rw [hx] at hc
          first | exact hc.elim | exact trivial
      have hplace := hp s.i hne
      refine ⟨hcall.way.congr hi hplace (hq s.i (h.busy hbusy).1 hne) (by rw [hpc]), ?_, ?_, ?_, ?_⟩
      · rw [ha, hi, hplace]
        exact hcall.alive
      · rw [hs, hi, hplace]
        exact hcall.started
      · rw [hpc, hi, hplace]
        exact hcall.await
      · rw [hpc, hi, hplace]
        exact hcall.count
    · exact hcall
  later l hl hlb hle hc := by
    rw [hi] at hle
    have hne : l ≠ k := by
      rintro rfl
      rcases hcase with ⟨hlt, -⟩ | ⟨e, hcall, -⟩
      · omega
      · exact hc (e.trans hi.symm) (hpc ▸ hcall)
    refine (h.later l hl hlb hle fun e hx => ?_).congr (hp l hne) (hq l hl hne)
    exact hc (e.trans hi.symm) (hpc ▸ hx)

/-- A message more for the core that the loop is at. -/
theorem sent_queue (hm : Listed m) (hf : FourBits m) (x : Ipi) (hlt : s.i < m.table.numCores) :
    (StartCores.send s ((m.apicID s).setWidth 8) x).queue (m.lapicID s.i) = s.queue (m.lapicID s.i) ++ [x] := by
  have hdest : destination ((m.apicID s).setWidth 8) = m.lapicID s.i := hm.destination hf hlt
  show Function.update s.queue (destination ((m.apicID s).setWidth 8)) _ (m.lapicID s.i) = _
  rw [hdest, Function.update_self]

/-- A STARTUP more does not change what may be said of the core. -/
theorem OnTheWay.startup (hm : Listed m) (hf : FourBits m) (h : OnTheWay m s) {pc : Pc} (hlt : s.i < m.table.numCores)
    (hpc : pc ≠ .sendStartup) :
    OnTheWay m { StartCores.send s ((m.apicID s).setWidth 8) .startup with pc := pc } := by
  have hqueue := sent_queue hm hf .startup hlt
  cases h with
  | waiting hw ht hs =>
      refine .waiting hw (fun x hx => ?_) (iff_of_true ?_ hpc)
      · change x ∈ ((StartCores.send s ((m.apicID s).setWidth 8) .startup).queue (m.lapicID s.i)).tail at hx
        rw [hqueue] at hx
        cases hq : s.queue (m.lapicID s.i) with
        | nil =>
            rw [hq] at hx
            cases hx
        | cons y ys =>
            rw [hq] at hx ht
            rcases List.mem_append.mp hx with hx | hx
            · exact ht x hx
            · exact List.mem_singleton.mp hx
      · show Ipi.startup ∈ (StartCores.send s ((m.apicID s).setWidth 8) .startup).queue (m.lapicID s.i)
        rw [hqueue]
        exact List.mem_append_right _ (List.mem_singleton_self _)
  | running hb hw hboot _ ha =>
      refine .running hb hw hboot hpc fun x hx => ?_
      change x ∈ (StartCores.send s ((m.apicID s).setWidth 8) .startup).queue (m.lapicID s.i) at hx
      rw [hqueue] at hx
      rcases List.mem_append.mp hx with hx | hx
      · exact ha x hx
      · exact List.mem_singleton.mp hx

/-- Without a late core, the one that the loop is at and that has not come to `alive` does not work. -/
theorem Called.givenUp (h : Called m s) (hpc : s.pc = .secondTest) (halive : s.alive = false)
    (hlt : s.i < m.table.numCores) (hlate : ∀ k, k < m.table.numCores → ¬ m.Late s k) :
    m.broken s.i = true ∧ s.place s.i = .waiting := by
  have hrun : ¬ (s.place s.i).HasRun := fun hx => by
    rw [h.alive.mpr hx] at halive
    cases halive
  have hnot : ∀ hb : m.broken s.i = false,
      s.queue (m.lapicID s.i) = [] ∧ s.place s.i ≠ .trampoline ∧ s.place s.i ≠ .entered := by
    intro hb
    have hx := hlate s.i hlt
    refine ⟨?_, fun e => hx ⟨hb, Or.inr (Or.inl e)⟩, fun e => hx ⟨hb, Or.inr (Or.inr e)⟩⟩
    by_contra hq
    exact hx ⟨hb, Or.inl hq⟩
  cases h.way with
  | waiting hw _ hs =>
      cases hb : m.broken s.i with
      | true => exact ⟨rfl, hw⟩
      | false =>
          have hin := hs.mpr (by rw [hpc]; nofun)
          rw [(hnot hb).1] at hin
          cases hin
  | running hb hw hboot =>
      obtain ⟨-, ht, he⟩ := hnot hb
      exfalso
      cases hp : s.place s.i
      all_goals
        rw [hp] at hw hboot ht he hrun
        first | exact hw rfl | exact hboot rfl | exact ht rfl | exact he rfl | exact hrun trivial

theorem Called.counted (h : Called m s) (hpc : s.pc = .count) : m.broken s.i = false ∧ Settled m s s.i := by
  have hs := h.count hpc
  cases h.way with
  | waiting hw =>
      rw [hw] at hs
      exact hs.elim
  | running hb _ _ _ hq => exact ⟨hb, .running hb hs hq⟩

/-- **What a step of `StartCores` keeps.** -/
theorem Control.boot_step (hm : Listed m) (hf : FourBits m) {p : Nat} (h : Control m s)
    (hg : Punctual m s (.boot p)) (hx : bootStep m s p = some s') : Control m s' := by
  unfold bootStep at hx
  cases hpc : s.pc <;> rw [hpc] at hx <;> dsimp only at hx
  case head =>
    by_cases hlt : s.i < m.table.numCores
    · rw [if_pos hlt] at hx
      by_cases hself : m.apicID s = m.getID m.boot
      · rw [if_pos hself] at hx
        obtain rfl := Option.some.inj hx
        have hi : s.i = m.boot := hm.once _ hlt _ hm.boot (hself.trans (hm.getID hf hm.boot))
        exact h.next rfl rfl rfl rfl hlt fun hne => absurd hi hne
      · rw [if_neg hself] at hx
        obtain ⟨-, hx⟩ := Option.ite_none_right_eq_some.mp hx
        obtain rfl := Option.some.inj hx
        have hne : s.i ≠ m.boot := fun e => hself (by
          rw [hm.getID hf hm.boot]
          exact congrArg (fun k => (m.table.info k).apicID) e)
        exact h.move rfl rfl rfl (fun _ => ⟨hlt, hne⟩) nofun (fun e => e.elim nofun nofun) nofun
          (fun e => by rw [hpc] at e; exact e.elim) fun e => e.elim
    · rw [if_neg hlt] at hx
      obtain rfl := Option.some.inj hx
      exact h.move rfl rfl rfl (fun e => e.elim) (fun _ => by have := h.le; omega) (fun e => e.elim nofun nofun) nofun
        (fun e => by rw [hpc] at e; exact e.elim) fun e => e.elim
  case finished => cases hx
  case await =>
    obtain ⟨hs, hx⟩ := Option.ite_none_right_eq_some.mp hx
    obtain rfl := Option.some.inj hx
    have hcall := h.current (by rw [hpc]; trivial)
    exact h.move rfl rfl rfl (fun _ => h.busy (by rw [hpc]; trivial)) nofun (fun e => e.elim nofun nofun) nofun
      (fun _ => trivial) fun _ => ⟨hcall.way.congr rfl rfl rfl (iff_of_false nofun (by rw [hpc]; nofun)),
        hcall.alive, hcall.started, nofun, fun _ => hcall.started.mp hs⟩
  case secondTest =>
    have hcall := h.current (by rw [hpc]; trivial)
    have hbusy := h.busy (by rw [hpc]; trivial)
    by_cases halive : s.alive = true
    · rw [if_pos halive] at hx
      obtain rfl := Option.some.inj hx
      exact h.move rfl rfl rfl (fun _ => hbusy) nofun (fun e => e.elim nofun nofun) nofun (fun _ => trivial)
        fun _ => ⟨hcall.way.congr rfl rfl rfl (iff_of_false nofun (by rw [hpc]; nofun)),
          hcall.alive, hcall.started, fun _ => hcall.alive.mp halive, nofun⟩
    · rw [if_neg halive] at hx
      obtain rfl := Option.some.inj hx
      have hoff := Bool.eq_false_iff.mpr halive
      obtain ⟨hb, hw⟩ := hcall.givenUp hpc hoff hbusy.1 (hg hpc hoff)
      exact h.next rfl rfl rfl rfl hbusy.1 fun _ => .givenUp hb hw
  case firstTest =>
    have hcall := h.current (by rw [hpc]; trivial)
    by_cases halive : s.alive = true
    · rw [if_pos halive] at hx
      obtain rfl := Option.some.inj hx
      exact h.move rfl rfl rfl (fun _ => h.busy (by rw [hpc]; trivial)) nofun (fun e => e.elim nofun nofun) nofun
        (fun _ => trivial) fun _ => ⟨hcall.way.congr rfl rfl rfl (iff_of_false nofun (by rw [hpc]; nofun)),
          hcall.alive, hcall.started, fun _ => hcall.alive.mp halive, nofun⟩
    · rw [if_neg halive] at hx
      obtain rfl := Option.some.inj hx
      exact h.move rfl rfl rfl (fun _ => h.busy (by rw [hpc]; trivial)) nofun (fun e => e.elim nofun nofun) nofun
        (fun _ => trivial) fun _ => ⟨hcall.way.congr rfl rfl rfl (iff_of_false nofun (by rw [hpc]; nofun)),
          hcall.alive, hcall.started, nofun, nofun⟩
  all_goals obtain rfl := Option.some.inj hx
  case slot =>
    exact h.move rfl rfl rfl (fun _ => h.busy (by rw [hpc]; trivial)) nofun (fun e => e.elim nofun nofun) nofun
      (fun e => by rw [hpc] at e; exact e.elim) fun e => e.elim
  case aliveOff =>
    exact h.move rfl rfl rfl (fun _ => h.busy (by rw [hpc]; trivial)) nofun (fun _ => rfl) nofun
      (fun e => by rw [hpc] at e; exact e.elim) fun e => e.elim
  case startedOff =>
    exact h.move rfl rfl rfl (fun _ => h.busy (by rw [hpc]; trivial)) nofun (fun _ => h.aliveOff (Or.inl hpc))
      (fun _ => rfl) (fun e => by rw [hpc] at e; exact e.elim) fun e => e.elim
  case sendInit =>
    obtain ⟨hlt, hne⟩ := h.busy (by rw [hpc]; trivial)
    have hun := h.later s.i hlt hne (Nat.le_refl _) fun _ => by
      rw [hpc]
      exact id
    have hqueue : (StartCores.send s ((m.apicID s).setWidth 8) .init).queue (m.lapicID s.i) = [.init] := by
      rw [sent_queue hm hf .init hlt, hun.queue]
      rfl
    refine h.send hm hf .init hlt hne trivial ⟨.waiting hun.place (fun x hx => ?_) (iff_of_false ?_ fun e => e rfl), ?_,
      ?_, nofun, nofun⟩
    · change x ∈ ((StartCores.send s ((m.apicID s).setWidth 8) .init).queue (m.lapicID s.i)).tail at hx
      rw [hqueue] at hx
      cases hx
    · show Ipi.startup ∉ (StartCores.send s ((m.apicID s).setWidth 8) .init).queue (m.lapicID s.i)
      rw [hqueue]
      decide
    · show s.alive = true ↔ (s.place s.i).HasRun
      rw [h.aliveOff (Or.inr hpc), hun.place]
      exact iff_of_false nofun id
    · show s.started = true ↔ (s.place s.i).HasStarted
      rw [h.startedOff hpc, hun.place]
      exact iff_of_false nofun id
  case sendStartup =>
    obtain ⟨hlt, hne⟩ := h.busy (by rw [hpc]; trivial)
    have hcall := h.current (by rw [hpc]; trivial)
    exact h.send hm hf .startup hlt hne trivial
      ⟨hcall.way.startup hm hf hlt nofun, hcall.alive, hcall.started, nofun, nofun⟩
  case resend =>
    obtain ⟨hlt, hne⟩ := h.busy (by rw [hpc]; trivial)
    have hcall := h.current (by rw [hpc]; trivial)
    exact h.send hm hf .startup hlt hne trivial
      ⟨hcall.way.startup hm hf hlt nofun, hcall.alive, hcall.started, nofun, nofun⟩
  case count =>
    obtain ⟨hlt, -⟩ := h.busy (by rw [hpc]; trivial)
    exact h.next rfl rfl rfl rfl hlt fun _ => ((h.current (by rw [hpc]; trivial)).counted hpc).2

/-- **What the delivery of a message keeps**: INIT comes to a core that still waits. -/
theorem Control.deliver (hm : Listed m) (h : Control m s) (hk : k < m.table.numCores) (hb : m.broken k = false)
    {x : Ipi} {rest : List Ipi} (hqueue : s.queue (m.lapicID k) = x :: rest) :
    Control m { s with
      queue := Function.update s.queue (m.lapicID k) rest
      place := Function.update s.place k (x.react (s.place k)) } := by
  have hne : k ≠ m.boot := by
    rintro rfl
    rw [h.bootQueue] at hqueue
    cases hqueue
  refine h.only hm hk hne rfl rfl (fun l hl => Function.update_of_ne hl _ _)
    (fun l hl hlk => Function.update_of_ne (fun e => hlk (hm.lapicID_inj hl hk e)) _ _) ?_
  rcases Nat.lt_or_ge k s.i with hlt | hge
  · refine Or.inl ⟨hlt, ?_, rfl, rfl⟩
    cases h.earlier k hlt hne with
    | givenUp hbr =>
        rw [hb] at hbr
        cases hbr
    | running _ hs hq =>
        rw [hqueue] at hq
        obtain rfl := hq x List.mem_cons_self
        have hstay : Ipi.startup.react (s.place k) = s.place k := by
          cases hp : s.place k
          case waiting =>
            rw [hp] at hs
            exact hs.elim
          all_goals rfl
        refine .running hb ?_ fun y hy => ?_
        · show (Function.update s.place k (Ipi.startup.react (s.place k)) k).HasStarted
          rw [Function.update_self, hstay]
          exact hs
        · change y ∈ Function.update s.queue (m.lapicID k) rest (m.lapicID k) at hy
          rw [Function.update_self] at hy
          exact hq y (List.mem_cons_of_mem _ hy)
  by_cases hcalled : k = s.i ∧ s.pc.Calling
  · obtain ⟨rfl, hc⟩ := hcalled
    refine Or.inr ⟨rfl, hc, ?_⟩
    have hcall := h.current hc
    cases hcall.way with
    | waiting hw ht hs =>
        rw [hqueue] at ht hs
        have hnorun : s.alive ≠ true := fun e => by
          have := hcall.alive.mp e
          rw [hw] at this
          exact this
        have hnostart : s.started ≠ true := fun e => by
          have := hcall.started.mp e
          rw [hw] at this
          exact this
        have hawait : s.pc ≠ .await := fun e => by
          have := hcall.await e
          rw [hw] at this
          exact this
        have hcount : s.pc ≠ .count := fun e => by
          have := hcall.count e
          rw [hw] at this
          exact this
        cases x with
        | init =>
            refine ⟨.waiting ?_ (fun y hy => ?_) ?_, iff_of_false hnorun ?_, iff_of_false hnostart ?_,
              fun e => (hawait e).elim, fun e => (hcount e).elim⟩
            · exact Function.update_self _ _ _
            · change y ∈ (Function.update s.queue (m.lapicID s.i) rest (m.lapicID s.i)).tail at hy
              rw [Function.update_self] at hy
              exact ht y (List.mem_of_mem_tail hy)
            · show Ipi.startup ∈ Function.update s.queue (m.lapicID s.i) rest (m.lapicID s.i) ↔ _
              rw [Function.update_self, ← hs, List.mem_cons]
              exact ⟨Or.inr, fun e => e.resolve_left nofun⟩
            · show ¬ (Function.update s.place s.i _ s.i).HasRun
              rw [Function.update_self]
              exact id
            · show ¬ (Function.update s.place s.i _ s.i).HasStarted
              rw [Function.update_self]
              exact id
        | startup =>
            refine ⟨.running hb ?_ ?_ (hs.mp List.mem_cons_self) (fun y hy => ?_), iff_of_false hnorun ?_,
              iff_of_false hnostart ?_, fun e => (hawait e).elim, fun e => (hcount e).elim⟩
            · show Function.update s.place s.i _ s.i ≠ _
              rw [Function.update_self, hw]
              nofun
            · show Function.update s.place s.i _ s.i ≠ _
              rw [Function.update_self, hw]
              nofun
            · change y ∈ Function.update s.queue (m.lapicID s.i) rest (m.lapicID s.i) at hy
              rw [Function.update_self] at hy
              exact ht y hy
            · show ¬ (Function.update s.place s.i _ s.i).HasRun
              rw [Function.update_self, hw]
              exact id
            · show ¬ (Function.update s.place s.i _ s.i).HasStarted
              rw [Function.update_self, hw]
              exact id
    | running _ hw hboot hpc hq =>
        rw [hqueue] at hq
        obtain rfl := hq x List.mem_cons_self
        have hstay : Function.update s.place s.i (Ipi.startup.react (s.place s.i)) = s.place := by
          have hreact : Ipi.startup.react (s.place s.i) = s.place s.i := by
            cases hp : s.place s.i
            case waiting => exact absurd hp hw
            all_goals rfl
          rw [hreact, Function.update_eq_self]
        rw [hstay]
        refine ⟨.running hb hw hboot hpc fun y hy => ?_, hcall.alive, hcall.started, hcall.await, hcall.count⟩
        change y ∈ Function.update s.queue (m.lapicID s.i) rest (m.lapicID s.i) at hy
        rw [Function.update_self] at hy
        exact hq y (List.mem_cons_of_mem _ hy)
  · have hun := (h.later k hk hne hge fun e hc => hcalled ⟨e, hc⟩).queue
    rw [hqueue] at hun
    cases hun

/-- A core that runs, other than the boot core. -/
structure Runs (m : Board) (s : Sys) (k : Nat) : Prop where
  ne : k ≠ m.boot
  works : m.broken k = false
  queue : ∀ x ∈ s.queue (m.lapicID k), x = .startup
  which : (k < s.i ∧ (s.place k).HasStarted) ∨ (k = s.i ∧ s.pc.Calling ∧ s.pc ≠ .sendStartup)

theorem Control.runs (h : Control m s) (hk : k < m.table.numCores) (hw : s.place k ≠ .waiting)
    (hb : s.place k ≠ .boot) : Runs m s k := by
  have hne : k ≠ m.boot := by
    rintro rfl
    exact hb h.boot
  rcases Nat.lt_or_ge k s.i with hlt | hge
  · cases h.earlier k hlt hne with
    | givenUp _ hp => exact absurd hp hw
    | running hbr hs hq => exact ⟨hne, hbr, hq, Or.inl ⟨hlt, hs⟩⟩
  by_cases hcalled : k = s.i ∧ s.pc.Calling
  · obtain ⟨rfl, hc⟩ := hcalled
    cases (h.current hc).way with
    | waiting hp => exact absurd hp hw
    | running hbr _ _ hpc hq => exact ⟨hne, hbr, hq, Or.inr ⟨rfl, hc, hpc⟩⟩
  · exact absurd (h.later k hk hne hge fun e hc => hcalled ⟨e, hc⟩).place hw

/-- A core goes on to `q`. -/
theorem Control.walk (hm : Listed m) (h : Control m s) (hk : k < m.table.numCores) {q : Place}
    (hw : s.place k ≠ .waiting) (hb : s.place k ≠ .boot) (hq : q ≠ .waiting ∧ q ≠ .boot) (hpc : s'.pc = s.pc)
    (hi : s'.i = s.i) (hqueue : s'.queue = s.queue) (hplace : s'.place = Function.update s.place k q)
    (halive : (s'.alive = s.alive ∧ (q.HasRun ↔ (s.place k).HasRun)) ∨
      (s'.alive = true ∧ q.HasRun ∧ ¬ (s.place k).HasStarted))
    (hstarted : (s'.started = s.started ∧ (q.HasStarted ↔ (s.place k).HasStarted)) ∨
      (s'.started = true ∧ q.HasStarted ∧ (s.place k).HasRun ∧ q.HasRun ∧ ¬ (s.place k).HasStarted)) :
    Control m s' := by
  obtain ⟨hne, hbr, hall, hwhich⟩ := h.runs hk hw hb
  have hself : s'.place k = q := by
    rw [hplace]
    exact Function.update_self _ _ _
  refine h.only hm hk hne hpc hi (fun l hl => ?_) (fun l _ _ => congrFun hqueue _) ?_
  · rw [hplace]
    exact Function.update_of_ne hl _ _
  rcases hwhich with ⟨hlt, hs⟩ | ⟨rfl, hc, hpc'⟩
  · rcases halive with ⟨ha, -⟩ | ⟨-, -, hno⟩
    · rcases hstarted with ⟨hst, hiff⟩ | ⟨-, -, -, -, hno⟩
      · refine Or.inl ⟨hlt, .running hbr ?_ (hqueue ▸ hall), ha, hst⟩
        rw [hself]
        exact hiff.mpr hs
      · exact absurd hs hno
    · exact absurd hs hno
  · have hcall := h.current hc
    refine Or.inr ⟨rfl, hc, .running (hi ▸ hbr) ?_ ?_ (hpc ▸ hpc') (hi ▸ hqueue ▸ hall), ?_, ?_, fun e => ?_,
      fun e => ?_⟩
    · rw [hi, hself]
      exact hq.1
    · rw [hi, hself]
      exact hq.2
    · rw [hi, hself]
      rcases halive with ⟨ha, hiff⟩ | ⟨ha, hrun, -⟩
      · rw [ha, hiff]
        exact hcall.alive
      · exact iff_of_true ha hrun
    · rw [hi, hself]
      rcases hstarted with ⟨hst, hiff⟩ | ⟨hst, hrun, -⟩
      · rw [hst, hiff]
        exact hcall.started
      · exact iff_of_true hst hrun
    · rw [hi, hself]
      rcases halive with ⟨-, hiff⟩ | ⟨-, hrun, -⟩
      · exact hiff.mpr (hcall.await (hpc ▸ e))
      · exact hrun
    · rw [hi, hself]
      rcases hstarted with ⟨-, hiff⟩ | ⟨-, hrun, -⟩
      · exact hiff.mpr (hcall.count (hpc ▸ e))
      · exact hrun

/-- **What a step of `startup.asm` or of `CoreEntry` keeps.** -/
theorem Control.core_step (hm : Listed m) (h : Control m s) (hk : k < m.table.numCores) {p : Nat}
    (hx : coreStep m s k p = some s') : Control m s' := by
  unfold coreStep at hx
  cases hp : s.place k <;> rw [hp] at hx <;> dsimp only at hx
  case boot => cases hx
  case waiting => cases hx
  case idle => cases hx
  case alive =>
    obtain ⟨-, hx⟩ := Option.ite_none_right_eq_some.mp hx
    obtain rfl := Option.some.inj hx
    refine h.walk hm hk (q := .initialized) ?_ ?_ ⟨nofun, nofun⟩ rfl rfl rfl rfl (Or.inl ⟨rfl, ?_⟩) (Or.inl ⟨rfl, ?_⟩)
    all_goals rw [hp]
    · nofun
    · nofun
    · exact Iff.rfl
    · exact Iff.rfl
  all_goals obtain rfl := Option.some.inj hx
  case trampoline =>
    refine h.walk hm hk (q := .entered) ?_ ?_ ⟨nofun, nofun⟩ rfl rfl rfl rfl (Or.inl ⟨rfl, ?_⟩) (Or.inl ⟨rfl, ?_⟩)
    all_goals rw [hp]
    · nofun
    · nofun
    · exact Iff.rfl
    · exact Iff.rfl
  case entered =>
    refine h.walk hm hk (q := .alive) ?_ ?_ ⟨nofun, nofun⟩ rfl rfl rfl rfl (Or.inr ⟨rfl, trivial, ?_⟩)
      (Or.inl ⟨rfl, ?_⟩)
    all_goals rw [hp]
    · nofun
    · nofun
    · exact id
    · exact Iff.rfl
  case initialized =>
    refine h.walk hm hk (q := .started) ?_ ?_ ⟨nofun, nofun⟩ rfl rfl rfl rfl (Or.inl ⟨rfl, ?_⟩)
      (Or.inr ⟨rfl, trivial, ?_, trivial, ?_⟩)
    all_goals rw [hp]
    · nofun
    · nofun
    · exact Iff.rfl
    · trivial
    · exact id
  case started =>
    refine h.walk hm hk (q := .idle) ?_ ?_ ⟨nofun, nofun⟩ rfl rfl rfl rfl (Or.inl ⟨rfl, ?_⟩) (Or.inl ⟨rfl, ?_⟩)
    all_goals rw [hp]
    · nofun
    · nofun
    · exact Iff.rfl
    · exact Iff.rfl

theorem Control.step (hm : Listed m) (hf : FourBits m) {e : Event} (h : Control m s)
    (hx : Guarded (startStep m) (Punctual m) s e s') : Control m s' := by
  obtain ⟨hx, hg⟩ := hx
  unfold startStep exec at hx
  cases e with
  | boot p => exact h.boot_step hm hf hg (Option.ite_none_right_eq_some.mp hx).2
  | core k p =>
      obtain ⟨hk, hx⟩ := Option.ite_none_right_eq_some.mp hx
      exact h.core_step hm hk hx
  | deliver k =>
      obtain ⟨⟨hk, hb⟩, hx⟩ := Option.ite_none_right_eq_some.mp hx
      cases hqueue : s.queue (m.lapicID k) with
      | nil =>
          rw [hqueue] at hx
          cases hx
      | cons x rest =>
          rw [hqueue] at hx
          obtain rfl := Option.some.inj hx
          exact h.deliver hm hk hb hqueue

theorem control (hm : Listed m) (hf : FourBits m) (h : Started m s) : Control m s :=
  h.inv (fun _ h0 => .start h0) fun _ _ _ hs hx => hs.step hm hf hx

end Control

/-! ## 4. What the cores stand on -/

/-- The core has taken its stack from the trampoline. -/
def Place.HasStack : Place → Prop
  | .entered | .alive | .initialized | .started | .idle => True
  | _ => False

/-- `MemoryManager::InitCore` is behind the core. -/
def Place.HasTable : Place → Prop
  | .initialized | .started | .idle => True
  | _ => False

/-- The trampoline has the stack for the core `i`. -/
def Pc.HasWord : Pc → Prop
  | .head | .slot _ | .finished => False
  | _ => True

/-- `count` pages from `p` on. -/
def Owned (s : Sys) (p count : Nat) (o : Owner) : Prop := ∀ j, j < count → s.owner (p + j) = some o

/-- A stack of three pages that is `k`'s ends at the address. -/
def StackOf (s : Sys) (k address : Nat) : Prop := ∃ p, address = (p + 3) * 4096 ∧ Owned s p 3 (.stack k)

/-- **Stacks, page tables and numbers.** -/
structure Ground (m : Board) (s : Sys) : Prop where
  stack : ∀ p, s.pc = .slot p → Owned s p 3 (.stack s.i)
  word : s.pc.HasWord → StackOf s s.i s.slot
  rsp : ∀ k, (s.place k).HasStack → StackOf s k (s.rsp k)
  table : ∀ k, (s.place k).HasTable → s.owner (s.cr3 k) = some (.table k)
  logical : ∀ k, (s.place k).HasTable → s.logical k = k

section Ground

variable {m : Board} {s s' : Sys} {k p : Nat} {o : Owner}

theorem allocate_owned (s : Sys) (p count : Nat) (o : Owner) : Owned (allocate s p count o) p count o :=
  fun j hj => if_pos ⟨by omega, by omega⟩

theorem allocate_owner {count q : Nat} {o' : Owner} (hf : Fresh s p count) (h : s.owner q = some o') :
    (allocate s p count o).owner q = some o' := by
  refine (if_neg fun hq => ?_).trans h
  have hfresh := hf (q - p) (by omega)
  rw [show p + (q - p) = q by omega, h] at hfresh
  cases hfresh

theorem Owned.mono {count : Nat} (h : Owned s p count o)
    (hs : ∀ q o, s.owner q = some o → s'.owner q = some o) : Owned s' p count o := fun j hj => hs _ _ (h j hj)

theorem StackOf.mono {a : Nat} (h : StackOf s k a) (hs : ∀ q o, s.owner q = some o → s'.owner q = some o) :
    StackOf s' k a := by
  obtain ⟨p, ha, ho⟩ := h
  exact ⟨p, ha, ho.mono hs⟩

theorem Ground.start (hb : s.place m.boot = .boot) (h : Start m s) : Ground m s := by
  have hnone : ∀ k, ¬ (s.place k).HasStack ∧ ¬ (s.place k).HasTable := fun k => by
    rcases eq_or_ne k m.boot with rfl | hne
    · rw [hb]
      exact ⟨id, id⟩
    · rw [h.place k hne]
      exact ⟨id, id⟩
  refine ⟨fun p e => ?_, fun e => ?_, fun k hk => ((hnone k).1 hk).elim, fun k hk => ((hnone k).2 hk).elim,
    fun k hk => ((hnone k).2 hk).elim⟩
  · rw [h.pc] at e
    cases e
  · rw [h.pc] at e
    exact e.elim

/-- The boot core goes on without a page. -/
theorem Ground.move (h : Ground m s) (hpc : s'.pc.HasWord → StackOf s' s'.i s'.slot) (hslot : ∀ p, s'.pc ≠ .slot p)
    (ho : s'.owner = s.owner) (hp : s'.place = s.place) (hr : s'.rsp = s.rsp) (hc : s'.cr3 = s.cr3)
    (hl : s'.logical = s.logical) : Ground m s' where
  stack p e := absurd e (hslot p)
  word := hpc
  rsp k hk := by
    rw [hr]
    exact (h.rsp k (hp ▸ hk)).mono fun q o e => ho ▸ e
  table k hk := by
    rw [ho, hc]
    exact h.table k (hp ▸ hk)
  logical k hk := by
    rw [hl]
    exact h.logical k (hp ▸ hk)

theorem Ground.boot_step (h : Ground m s) (hx : bootStep m s p = some s') : Ground m s' := by
  unfold bootStep at hx
  cases hpc : s.pc <;> rw [hpc] at hx <;> dsimp only at hx
  case head =>
    split_ifs at hx with hlt hself hfresh <;> obtain rfl := Option.some.inj hx
    · exact h.move (fun e => e.elim) nofun rfl rfl rfl rfl rfl
    · refine ⟨fun p' e => ?_, fun e => e.elim, fun k hk => (h.rsp k hk).mono fun q o => allocate_owner hfresh,
        fun k hk => allocate_owner hfresh (h.table k hk), h.logical⟩
      obtain rfl := Pc.slot.inj e
      exact allocate_owned s p 3 _
    · exact h.move (fun e => e.elim) nofun rfl rfl rfl rfl rfl
  case slot stack =>
    obtain rfl := Option.some.inj hx
    exact h.move (fun _ => ⟨stack, rfl, h.stack stack hpc⟩) nofun rfl rfl rfl rfl rfl
  case finished => cases hx
  all_goals have hword : StackOf s s.i s.slot := h.word (by rw [hpc]; trivial)
  case firstTest =>
    obtain rfl := Option.some.inj hx
    refine h.move (fun _ => hword) (fun p e => ?_) rfl rfl rfl rfl rfl
    cases ha : s.alive
    all_goals
      simp only [ha] at e
      cases e
  case secondTest =>
    split_ifs at hx <;> obtain rfl := Option.some.inj hx
    · exact h.move (fun _ => hword) nofun rfl rfl rfl rfl rfl
    · exact h.move (fun e => e.elim) nofun rfl rfl rfl rfl rfl
  case await =>
    obtain ⟨-, hx⟩ := Option.ite_none_right_eq_some.mp hx
    obtain rfl := Option.some.inj hx
    exact h.move (fun _ => hword) nofun rfl rfl rfl rfl rfl
  all_goals obtain rfl := Option.some.inj hx
  case count => exact h.move (fun e => e.elim) nofun rfl rfl rfl rfl rfl
  all_goals exact h.move (fun _ => hword) nofun rfl rfl rfl rfl rfl

/-- A core goes to a place where it needs no more than it has. -/
theorem Ground.keep (h : Ground m s) {q : Place} (hq : q.HasStack → (s.place k).HasStack)
    (hq' : q.HasTable → (s.place k).HasTable) (hpc : s'.pc = s.pc) (hi : s'.i = s.i) (hslot : s'.slot = s.slot)
    (ho : s'.owner = s.owner) (hp : s'.place = Function.update s.place k q) (hr : s'.rsp = s.rsp)
    (hc : s'.cr3 = s.cr3) (hl : s'.logical = s.logical) : Ground m s' := by
  have hplace : ∀ l, ((s'.place l).HasStack → (s.place l).HasStack) ∧
      ((s'.place l).HasTable → (s.place l).HasTable) := by
    intro l
    rw [hp]
    rcases eq_or_ne l k with rfl | hne
    · rw [Function.update_self]
      exact ⟨hq, hq'⟩
    · rw [Function.update_of_ne hne]
      exact ⟨id, id⟩
  have hown : ∀ q o, s.owner q = some o → s'.owner q = some o := fun q o e => ho ▸ e
  refine ⟨fun p e => ?_, fun e => ?_, fun l hl => ?_, fun l hl' => ?_, fun l hl' => ?_⟩
  · rw [hi]
    exact (h.stack p (hpc ▸ e)).mono hown
  · rw [hi, hslot]
    exact (h.word (hpc ▸ e)).mono hown
  · rw [hr]
    exact (h.rsp l ((hplace l).1 hl)).mono hown
  · rw [ho, hc]
    exact h.table l ((hplace l).2 hl')
  · rw [hl]
    exact h.logical l ((hplace l).2 hl')

theorem Ground.core_step (hm : Listed m) (hf : FourBits m) (hc : Control m s) (h : Ground m s)
    (hk : k < m.table.numCores) (hx : coreStep m s k p = some s') : Ground m s' := by
  unfold coreStep at hx
  cases hp : s.place k <;> rw [hp] at hx <;> dsimp only at hx
  case boot => cases hx
  case waiting => cases hx
  case idle => cases hx
  case alive =>
    obtain ⟨hfresh, hx⟩ := Option.ite_none_right_eq_some.mp hx
    obtain rfl := Option.some.inj hx
    refine ⟨fun p' e => (h.stack p' e).mono fun q o => allocate_owner hfresh,
      fun e => (h.word e).mono fun q o => allocate_owner hfresh, fun l hl => ?_, fun l hl => ?_, fun l hl => ?_⟩
    · refine (h.rsp l ?_).mono fun q o => allocate_owner hfresh
      rcases eq_or_ne l k with rfl | hne
      · rw [hp]
        trivial
      · exact (congrArg Place.HasStack (Function.update_of_ne hne _ _)).mp hl
    · show (allocate s p 1 (.table k)).owner (Function.update s.cr3 k p l) = _
      rcases eq_or_ne l k with rfl | hne
      · rw [Function.update_self]
        exact allocate_owned s p 1 _ 0 (by decide)
      · rw [Function.update_of_ne hne]
        exact allocate_owner hfresh (h.table l ((congrArg Place.HasTable (Function.update_of_ne hne _ _)).mp hl))
    · show Function.update s.logical k _ l = l
      rcases eq_or_ne l k with rfl | hne
      · rw [Function.update_self]
        exact (hm.logical_iff hk).mpr (hf l hk)
      · rw [Function.update_of_ne hne]
        exact h.logical l ((congrArg Place.HasTable (Function.update_of_ne hne _ _)).mp hl)
  all_goals obtain rfl := Option.some.inj hx
  case trampoline =>
    -- only the core that the loop is at is here, and the word in the trampoline is for it
    have hword : StackOf s k s.slot := by
      rcases (hc.runs hk (by rw [hp]; nofun) (by rw [hp]; nofun)).which with ⟨-, hs⟩ | ⟨rfl, hcall, -⟩
      · rw [hp] at hs
        exact hs.elim
      · refine h.word ?_
        cases hpc : s.pc
        all_goals
          rw [hpc] at hcall
          first | exact hcall.elim | trivial
    refine ⟨h.stack, h.word, fun l hl => ?_, fun l hl => ?_, fun l hl => ?_⟩
    · show StackOf s l (Function.update s.rsp k s.slot l)
      rcases eq_or_ne l k with rfl | hne
      · rw [Function.update_self]
        exact hword
      · rw [Function.update_of_ne hne]
        exact h.rsp l ((congrArg Place.HasStack (Function.update_of_ne hne _ _)).mp hl)
    · rcases eq_or_ne l k with rfl | hne
      · exact absurd ((congrArg Place.HasTable (Function.update_self l .entered s.place)).mp hl) id
      · exact h.table l ((congrArg Place.HasTable (Function.update_of_ne hne _ _)).mp hl)
    · rcases eq_or_ne l k with rfl | hne
      · exact absurd ((congrArg Place.HasTable (Function.update_self l .entered s.place)).mp hl) id
      · exact h.logical l ((congrArg Place.HasTable (Function.update_of_ne hne _ _)).mp hl)
  all_goals
    refine h.keep ?_ ?_ rfl rfl rfl rfl rfl rfl rfl rfl
    all_goals
      rw [hp]
      exact id

theorem Ground.step (hm : Listed m) (hf : FourBits m) {e : Event} (hc : Control m s) (h : Ground m s)
    (hx : startStep m s e s') : Ground m s' := by
  unfold startStep exec at hx
  cases e with
  | boot p => exact h.boot_step (Option.ite_none_right_eq_some.mp hx).2
  | core k p =>
      obtain ⟨hk, hx⟩ := Option.ite_none_right_eq_some.mp hx
      exact h.core_step hm hf hc hk hx
  | deliver k =>
      obtain ⟨-, hx⟩ := Option.ite_none_right_eq_some.mp hx
      cases hqueue : s.queue (m.lapicID k) with
      | nil =>
          rw [hqueue] at hx
          cases hx
      | cons x rest =>
          rw [hqueue] at hx
          obtain rfl := Option.some.inj hx
          refine h.keep ?_ ?_ rfl rfl rfl rfl rfl rfl rfl rfl
          all_goals cases x <;> cases s.place k <;> first | exact id | exact False.elim

theorem ground (hm : Listed m) (hf : FourBits m) (h : Started m s) : Ground m s :=
  h.invStep (fun _ h0 => .start h0.boot h0) fun _ _ _ hr hs hx => hs.step hm hf (control hm hf hr) hx.1

end Ground

/-! ## 5. The counts -/

/-- The working cores before the core `i`. -/
def Board.workersBelow (m : Board) (i : Nat) : Finset Nat :=
  (Finset.range i).filter fun k => k ≠ m.boot ∧ m.broken k = false

/-- The cores that are through with `CoreEntry`. -/
def Board.idleCores (m : Board) (s : Sys) : Finset Nat :=
  (Finset.range m.table.numCores).filter fun k => s.place k = .idle

/-- `g_NumRunningCores` counts the boot core and the cores that the loop has got started, `startCount` those that say
    so themselves. -/
structure Counts (m : Board) (s : Sys) : Prop where
  running : s.numRunning = 1 + (m.workersBelow s.i).card
  started : s.startCount = (m.idleCores s).card

section Counts

variable {m : Board} {s s' : Sys} {i k p : Nat}

theorem workersBelow_skip (h : i = m.boot ∨ m.broken i = true) : m.workersBelow (i + 1) = m.workersBelow i := by
  unfold Board.workersBelow
  rw [Finset.range_add_one, Finset.filter_insert, if_neg]
  rintro ⟨h1, h2⟩
  rcases h with h | h
  · exact h1 h
  · rw [h2] at h
    cases h

theorem workersBelow_next (hne : i ≠ m.boot) (hb : m.broken i = false) :
    (m.workersBelow (i + 1)).card = (m.workersBelow i).card + 1 := by
  unfold Board.workersBelow
  rw [Finset.range_add_one, Finset.filter_insert, if_pos ⟨hne, hb⟩, Finset.card_insert_of_notMem]
  intro hx
  exact Nat.lt_irrefl i (Finset.mem_range.mp (Finset.mem_filter.mp hx).1)

theorem idleCores_congr {q : Place} (hp : s'.place = Function.update s.place k q) (hk : s.place k ≠ .idle)
    (hq : q ≠ .idle) : m.idleCores s' = m.idleCores s := by
  unfold Board.idleCores
  refine Finset.filter_congr fun l _ => ?_
  rw [hp]
  rcases eq_or_ne l k with rfl | hne
  · rw [Function.update_self]
    exact iff_of_false hq hk
  · rw [Function.update_of_ne hne]

theorem idleCores_next (hk : k < m.table.numCores) (hp : s'.place = Function.update s.place k .idle)
    (hne : s.place k ≠ .idle) : (m.idleCores s').card = (m.idleCores s).card + 1 := by
  have hinsert : m.idleCores s' = insert k (m.idleCores s) := by
    ext l
    unfold Board.idleCores
    rw [Finset.mem_insert, Finset.mem_filter, Finset.mem_filter, hp]
    rcases eq_or_ne l k with rfl | hne
    · rw [Function.update_self]
      exact iff_of_true ⟨Finset.mem_range.mpr hk, rfl⟩ (Or.inl rfl)
    · rw [Function.update_of_ne hne]
      exact ⟨Or.inr, fun h => h.resolve_left hne⟩
  rw [hinsert, Finset.card_insert_of_notMem]
  exact fun hx => hne (Finset.mem_filter.mp hx).2

theorem Counts.start (hb : s.place m.boot = .boot) (h : Start m s) : Counts m s where
  running := by
    rw [h.numRunning, h.i]
    rfl
  started := by
    have hempty : m.idleCores s = ∅ := by
      refine Finset.filter_eq_empty_iff.mpr fun k _ hk => ?_
      rcases eq_or_ne k m.boot with rfl | hne
      · rw [hb] at hk
        cases hk
      · rw [h.place k hne] at hk
        cases hk
    rw [hempty, h.startCount]
    rfl

theorem Counts.boot_step (hm : Listed m) (hf : FourBits m) (hc : Control m s) (h : Counts m s)
    (hg : Punctual m s (.boot p)) (hx : bootStep m s p = some s') : Counts m s' := by
  unfold bootStep at hx
  cases hpc : s.pc <;> rw [hpc] at hx <;> dsimp only at hx
  case head =>
    split_ifs at hx with hlt hself hfresh <;> obtain rfl := Option.some.inj hx
    · have hi : s.i = m.boot := hm.once _ hlt _ hm.boot (hself.trans (hm.getID hf hm.boot))
      refine ⟨?_, h.started⟩
      show s.numRunning = 1 + (m.workersBelow (s.i + 1)).card
      rw [workersBelow_skip (Or.inl hi)]
      exact h.running
    · exact ⟨h.running, h.started⟩
    · exact ⟨h.running, h.started⟩
  case secondTest =>
    have hcall := hc.current (by rw [hpc]; trivial)
    have hbusy := hc.busy (by rw [hpc]; trivial)
    split_ifs at hx with halive <;> obtain rfl := Option.some.inj hx
    · exact ⟨h.running, h.started⟩
    · have hoff := Bool.eq_false_iff.mpr halive
      refine ⟨?_, h.started⟩
      show s.numRunning = 1 + (m.workersBelow (s.i + 1)).card
      rw [workersBelow_skip (Or.inr (hcall.givenUp hpc hoff hbusy.1 (hg hpc hoff)).1)]
      exact h.running
  case count =>
    have hcall := hc.current (by rw [hpc]; trivial)
    have hbusy := hc.busy (by rw [hpc]; trivial)
    obtain rfl := Option.some.inj hx
    refine ⟨?_, h.started⟩
    show s.numRunning + 1 = 1 + (m.workersBelow (s.i + 1)).card
    rw [workersBelow_next hbusy.2 (hcall.counted hpc).1, h.running]
    omega
  case await =>
    obtain ⟨-, hx⟩ := Option.ite_none_right_eq_some.mp hx
    obtain rfl := Option.some.inj hx
    exact ⟨h.running, h.started⟩
  case finished => cases hx
  all_goals
    obtain rfl := Option.some.inj hx
    exact ⟨h.running, h.started⟩

theorem Counts.core_step (h : Counts m s) (hk : k < m.table.numCores) (hx : coreStep m s k p = some s') :
    Counts m s' := by
  unfold coreStep at hx
  cases hp : s.place k <;> rw [hp] at hx <;> dsimp only at hx
  case boot => cases hx
  case waiting => cases hx
  case idle => cases hx
  case alive =>
    obtain ⟨-, hx⟩ := Option.ite_none_right_eq_some.mp hx
    obtain rfl := Option.some.inj hx
    refine ⟨h.running, h.started.trans (congrArg _ (idleCores_congr rfl ?_ ?_).symm)⟩
    · rw [hp]
      nofun
    · nofun
  all_goals obtain rfl := Option.some.inj hx
  case started =>
    refine ⟨h.running, ?_⟩
    rw [idleCores_next hk rfl (by rw [hp]; nofun), ← h.started]
  all_goals
    refine ⟨h.running, h.started.trans (congrArg _ (idleCores_congr rfl ?_ ?_).symm)⟩
    · rw [hp]
      nofun
    · nofun

theorem Counts.step (hm : Listed m) (hf : FourBits m) {e : Event} (hc : Control m s) (h : Counts m s)
    (hx : Guarded (startStep m) (Punctual m) s e s') : Counts m s' := by
  obtain ⟨hx, hg⟩ := hx
  unfold startStep exec at hx
  cases e with
  | boot p => exact h.boot_step hm hf hc hg (Option.ite_none_right_eq_some.mp hx).2
  | core k p =>
      obtain ⟨hk, hx⟩ := Option.ite_none_right_eq_some.mp hx
      exact h.core_step hk hx
  | deliver k =>
      obtain ⟨⟨hk, hb⟩, hx⟩ := Option.ite_none_right_eq_some.mp hx
      cases hqueue : s.queue (m.lapicID k) with
      | nil =>
          rw [hqueue] at hx
          cases hx
      | cons x rest =>
          rw [hqueue] at hx
          obtain rfl := Option.some.inj hx
          -- a core that is through is sent no INIT
          have hstay : x.react (s.place k) ≠ .idle ∧ s.place k ≠ .idle ∨ x.react (s.place k) = s.place k := by
            by_cases hidle : s.place k = .idle
            · have hin := (hc.runs hk (by rw [hidle]; nofun) (by rw [hidle]; nofun)).queue x
                (by rw [hqueue]; exact List.mem_cons_self)
              rw [hin, hidle]
              exact Or.inr rfl
            · refine Or.inl ⟨?_, hidle⟩
              cases x
              · nofun
              · cases hp : s.place k
                case idle => exact absurd hp hidle
                all_goals nofun
          refine ⟨h.running, h.started.trans (congrArg _ ?_)⟩
          rcases hstay with ⟨h1, h2⟩ | hsame
          · exact (idleCores_congr rfl h2 h1).symm
          · unfold Board.idleCores
            refine Finset.filter_congr fun l _ => ?_
            show _ ↔ Function.update s.place k (x.react (s.place k)) l = .idle
            rw [hsame, Function.update_eq_self]

theorem counts (hm : Listed m) (hf : FourBits m) (h : Started m s) : Counts m s :=
  h.invStep (fun _ h0 => .start h0.boot h0) fun _ _ _ hr hs hx => hs.step hm hf (control hm hf hr) hx

end Counts

/-! ## 6. The cores do not meet -/

/-- **The cores do not meet.** -/
structure Apart (m : Board) (s : Sys) : Prop where
  boot : s.place m.boot = .boot
  alone : ∀ k l, k < m.table.numCores → l < m.table.numCores → s.place k = .trampoline → s.place l = .trampoline → k = l
  stack : ∀ k, (s.place k).HasStack → StackOf s k (s.rsp k)
  table : ∀ k, (s.place k).HasTable → s.owner (s.cr3 k) = some (.table k)
  logical : ∀ k, (s.place k).HasTable → s.logical k = k
  startCount : s.startCount = (m.idleCores s).card
  finished : s.pc = .finished → s.numRunning = 1 + (m.workersBelow m.table.numCores).card ∧
    ∀ k, k < m.table.numCores → k ≠ m.boot →
      m.broken k = true ∧ s.place k = .waiting ∨ m.broken k = false ∧ (s.place k).HasStarted

theorem cores_apart (m : Board) (hm : Listed m) (hf : FourBits m) (s : Sys) (h : Started m s) : Apart m s := by
  have hc := control hm hf h
  have hg := ground hm hf h
  have hcount := counts hm hf h
  have hat : ∀ k, k < m.table.numCores → s.place k = .trampoline → k = s.i := fun k hk hp => by
    rcases (hc.runs hk (by rw [hp]; nofun) (by rw [hp]; nofun)).which with ⟨-, hs⟩ | ⟨e, -⟩
    · rw [hp] at hs
      exact hs.elim
    · exact e
  refine ⟨hc.boot, fun k l hk hl hkt hlt => (hat k hk hkt).trans (hat l hl hlt).symm, hg.rsp, hg.table, hg.logical,
    hcount.started, fun hfin => ?_⟩
  have hi := hc.finished hfin
  refine ⟨hi ▸ hcount.running, fun k hk hne => ?_⟩
  cases hc.earlier k (hi.symm ▸ hk) hne with
  | givenUp hb hp => exact Or.inl ⟨hb, hp⟩
  | running hb hs => exact Or.inr ⟨hb, hs⟩

/-! ## 7. The end of the start -/

/-- How much a message may still bring about. -/
def Ipi.weight : Ipi → Nat
  | .init => 8
  | .startup => 1

/-- The steps that a core has before it. -/
def Place.todo : Place → Nat
  | .boot | .idle => 0
  | .waiting => 6
  | .trampoline => 5
  | .entered => 4
  | .alive => 3
  | .initialized => 2
  | .started => 1

/-- The steps of one turn of the loop. -/
def Pc.left : Pc → Nat
  | .head => 11
  | .slot _ => 10
  | .aliveOff => 9
  | .startedOff => 8
  | .sendInit => 7
  | .sendStartup => 6
  | .firstTest => 5
  | .resend => 4
  | .secondTest => 3
  | .await => 2
  | .count => 1
  | .finished => 0

def Sys.inFlight (s : Sys) (j : Nat) : Nat := ((s.queue (BitVec.ofNat 8 j)).map Ipi.weight).sum

def Board.work (m : Board) (s : Sys) : Nat :=
  16 * (11 * (m.table.numCores - s.i) + s.pc.left) + ∑ j ∈ Finset.range 256, s.inFlight j +
    ∑ k ∈ Finset.range m.table.numCores, (s.place k).todo

section Work

variable {m : Board} {s s' : Sys} {k p : Nat}

theorem inFlight_update {d : BitVec 8} {xs : List Ipi} {n : Nat} (hq : s'.queue = Function.update s.queue d xs)
    (hn : (xs.map Ipi.weight).sum + n = ((s.queue d).map Ipi.weight).sum) :
    ∑ j ∈ Finset.range 256, s'.inFlight j + n = ∑ j ∈ Finset.range 256, s.inFlight j := by
  have hsum := sum_range_update s.inFlight s'.inFlight (n := 256) (i := d.toNat) d.isLt fun j hj hne => by
    have hjd : BitVec.ofNat 8 j ≠ d := by
      rintro rfl
      rw [BitVec.toNat_ofNat, Nat.mod_eq_of_lt hj] at hne
      exact hne rfl
    unfold Sys.inFlight
    rw [hq, Function.update_of_ne hjd]
  have hself : BitVec.ofNat 8 d.toNat = d := BitVec.eq_of_toNat_eq (by
    rw [BitVec.toNat_ofNat]
    exact Nat.mod_eq_of_lt d.isLt)
  have h1 : s.inFlight d.toNat = ((s.queue d).map Ipi.weight).sum := by
    unfold Sys.inFlight
    rw [hself]
  have h2 : s'.inFlight d.toNat = (xs.map Ipi.weight).sum := by
    unfold Sys.inFlight
    rw [hself, hq, Function.update_self]
  omega

theorem inFlight_send (s : Sys) (id : BitVec 8) (x : Ipi) :
    ∑ j ∈ Finset.range 256, (send s id x).inFlight j = ∑ j ∈ Finset.range 256, s.inFlight j + x.weight := by
  -- the queue before is the queue behind less the message
  have hqueue : s.queue = Function.update (send s id x).queue (destination id) (s.queue (destination id)) := by
    unfold send
    dsimp only
    rw [Function.update_idem, Function.update_eq_self]
  have hweight : ((s.queue (destination id)).map Ipi.weight).sum + x.weight =
      (((send s id x).queue (destination id)).map Ipi.weight).sum := by
    unfold send
    dsimp only
    rw [Function.update_self, List.map_append, List.sum_append]
    rfl
  exact (inFlight_update hqueue hweight).symm

theorem todo_update (hk : k < m.table.numCores) {q : Place} (hp : s'.place = Function.update s.place k q) :
    ∑ l ∈ Finset.range m.table.numCores, (s'.place l).todo + (s.place k).todo =
      ∑ l ∈ Finset.range m.table.numCores, (s.place l).todo + q.todo := by
  have hsum := sum_range_update (fun l => (s.place l).todo) (fun l => (s'.place l).todo) hk fun l _ hne => by
    rw [hp, Function.update_of_ne hne]
  rwa [hp, Function.update_self, ← hp] at hsum

/-- The loop stays in the table. -/
def Within (m : Board) (s : Sys) : Prop := s.pc.Busy → s.i < m.table.numCores

theorem Within.boot_step (h : Within m s) (hx : bootStep m s p = some s') : Within m s' := by
  unfold bootStep at hx
  unfold Within at h ⊢
  cases hpc : s.pc <;> rw [hpc] at hx h <;> dsimp only at hx
  case head =>
    split_ifs at hx with hlt <;> obtain rfl := Option.some.inj hx
    · exact fun e => e.elim
    · exact fun _ => hlt
    · exact fun e => e.elim
  case await =>
    obtain ⟨-, hx⟩ := Option.ite_none_right_eq_some.mp hx
    obtain rfl := Option.some.inj hx
    exact h
  case secondTest =>
    split_ifs at hx <;> obtain rfl := Option.some.inj hx
    · exact h
    · exact fun e => e.elim
  case finished => cases hx
  all_goals obtain rfl := Option.some.inj hx
  case count => exact fun e => e.elim
  case firstTest => exact fun _ => h trivial
  all_goals exact h

theorem coreStep_pc (hx : coreStep m s k p = some s') : s'.pc = s.pc ∧ s'.i = s.i ∧ s'.queue = s.queue := by
  unfold coreStep at hx
  cases hp : s.place k <;> rw [hp] at hx <;> dsimp only at hx
  case boot => cases hx
  case waiting => cases hx
  case idle => cases hx
  case alive =>
    obtain ⟨-, hx⟩ := Option.ite_none_right_eq_some.mp hx
    obtain rfl := Option.some.inj hx
    exact ⟨rfl, rfl, rfl⟩
  all_goals
    obtain rfl := Option.some.inj hx
    exact ⟨rfl, rfl, rfl⟩

theorem Within.step {e : Event} (h : Within m s) (hx : startStep m s e s') : Within m s' := by
  unfold startStep exec at hx
  cases e with
  | boot p => exact h.boot_step (Option.ite_none_right_eq_some.mp hx).2
  | core k p =>
      obtain ⟨hpc, hi, -⟩ := coreStep_pc (Option.ite_none_right_eq_some.mp hx).2
      unfold Within
      rw [hpc, hi]
      exact h
  | deliver k =>
      obtain ⟨-, hx⟩ := Option.ite_none_right_eq_some.mp hx
      split at hx
      · cases hx
      · obtain rfl := Option.some.inj hx
        exact h

theorem within (h : Started m s) : Within m s :=
  h.inv (fun s h0 e => by rw [h0.pc] at e; exact e.elim) fun _ _ _ hs hx => hs.step hx.1

/-- The rest of the loop gets shorter. -/
theorem bootStep_turn (h : Within m s) (hx : bootStep m s p = some s') :
    11 * (m.table.numCores - s'.i) + s'.pc.left < 11 * (m.table.numCores - s.i) + s.pc.left := by
  unfold bootStep at hx
  unfold Within at h
  cases hpc : s.pc <;> rw [hpc] at hx h <;> dsimp only at hx
  case head =>
    split_ifs at hx with hlt <;> obtain rfl := Option.some.inj hx
    all_goals
      dsimp only [Pc.left, allocate]
      omega
  case firstTest =>
    obtain rfl := Option.some.inj hx
    refine Nat.add_lt_add_left ?_ _
    show (if s.alive then Pc.await else Pc.resend).left < 5
    split_ifs
    all_goals decide
  case await =>
    obtain ⟨-, hx⟩ := Option.ite_none_right_eq_some.mp hx
    obtain rfl := Option.some.inj hx
    exact Nat.add_lt_add_left (show 1 < 2 by decide) _
  case secondTest =>
    have hlt := h trivial
    split_ifs at hx <;> obtain rfl := Option.some.inj hx
    all_goals
      dsimp only [Pc.left]
      omega
  case finished => cases hx
  all_goals
    have hlt := h trivial
    obtain rfl := Option.some.inj hx
    dsimp only [Pc.left, send]
    omega

/-- The boot core sends one message at most, and does nothing to the others. -/
theorem bootStep_sends (hx : bootStep m s p = some s') : s'.place = s.place ∧
    (s'.queue = s.queue ∨ ∃ x, s'.queue = (send s ((m.apicID s).setWidth 8) x).queue) := by
  unfold bootStep at hx
  cases hpc : s.pc <;> rw [hpc] at hx <;> dsimp only at hx
  case head =>
    split_ifs at hx <;> obtain rfl := Option.some.inj hx
    all_goals exact ⟨rfl, Or.inl rfl⟩
  case await =>
    obtain ⟨-, hx⟩ := Option.ite_none_right_eq_some.mp hx
    obtain rfl := Option.some.inj hx
    exact ⟨rfl, Or.inl rfl⟩
  case secondTest =>
    split_ifs at hx <;> obtain rfl := Option.some.inj hx
    all_goals exact ⟨rfl, Or.inl rfl⟩
  case finished => cases hx
  all_goals obtain rfl := Option.some.inj hx
  case sendInit => exact ⟨rfl, Or.inr ⟨.init, rfl⟩⟩
  case sendStartup => exact ⟨rfl, Or.inr ⟨.startup, rfl⟩⟩
  case resend => exact ⟨rfl, Or.inr ⟨.startup, rfl⟩⟩
  all_goals exact ⟨rfl, Or.inl rfl⟩

theorem bootStep_work (h : Within m s) (hx : bootStep m s p = some s') : m.work s' < m.work s := by
  have hturn := bootStep_turn h hx
  obtain ⟨hplace, hqueue⟩ := bootStep_sends hx
  have hsum : ∑ j ∈ Finset.range 256, s'.inFlight j ≤ ∑ j ∈ Finset.range 256, s.inFlight j + 8 := by
    rcases hqueue with hsame | ⟨x, hsend⟩
    · have he : s'.inFlight = s.inFlight := by
        unfold Sys.inFlight
        rw [hsame]
      rw [he]
      exact Nat.le_add_right _ _
    · have he : s'.inFlight = (send s ((m.apicID s).setWidth 8) x).inFlight := by
        unfold Sys.inFlight
        rw [hsend]
      have hx8 : x.weight ≤ 8 := by
        cases x
        all_goals decide
      rw [he, inFlight_send]
      omega
  unfold Board.work
  rw [hplace]
  omega

theorem coreStep_place (hx : coreStep m s k p = some s') :
    ∃ q : Place, s'.place = Function.update s.place k q ∧ q.todo < (s.place k).todo := by
  unfold coreStep at hx
  cases hp : s.place k <;> rw [hp] at hx <;> dsimp only at hx
  case boot => cases hx
  case waiting => cases hx
  case idle => cases hx
  case alive =>
    obtain ⟨-, hx⟩ := Option.ite_none_right_eq_some.mp hx
    obtain rfl := Option.some.inj hx
    exact ⟨_, rfl, by decide⟩
  all_goals
    obtain rfl := Option.some.inj hx
    exact ⟨_, rfl, by decide⟩

/-- **Every step leaves less to be done.** -/
theorem step_work {e : Event} (h : Within m s) (hx : startStep m s e s') : m.work s' < m.work s := by
  unfold startStep exec at hx
  cases e with
  | boot p => exact bootStep_work h (Option.ite_none_right_eq_some.mp hx).2
  | core k p =>
      obtain ⟨hk, hx⟩ := Option.ite_none_right_eq_some.mp hx
      obtain ⟨hpc, hi, hqueue⟩ := coreStep_pc hx
      obtain ⟨q, hplace, hless⟩ := coreStep_place hx
      have htodo := todo_update hk hplace
      have hflight : s'.inFlight = s.inFlight := by
        unfold Sys.inFlight
        rw [hqueue]
      unfold Board.work
      rw [hpc, hi, hflight]
      omega
  | deliver k =>
      obtain ⟨⟨hk, -⟩, hx⟩ := Option.ite_none_right_eq_some.mp hx
      cases hqueue : s.queue (m.lapicID k) with
      | nil =>
          rw [hqueue] at hx
          cases hx
      | cons x rest =>
          have hs : s'.queue = Function.update s.queue (m.lapicID k) rest ∧
              s'.place = Function.update s.place k (x.react (s.place k)) ∧ s'.pc = s.pc ∧ s'.i = s.i := by
            rw [hqueue] at hx
            obtain rfl := Option.some.inj hx
            exact ⟨rfl, rfl, rfl, rfl⟩
          obtain ⟨hqueue', hplace, hpc, hi⟩ := hs
          have hflight := inFlight_update (n := x.weight) hqueue' (by
            rw [hqueue, List.map_cons, List.sum_cons]
            omega)
          have htodo := todo_update hk hplace
          have hless : (x.react (s.place k)).todo < (s.place k).todo + x.weight := by
            cases x <;> cases s.place k <;> decide
          unfold Board.work
          rw [hpc, hi]
          omega

end Work

/-- There is memory left. -/
def Room (s : Sys) : Prop := ∃ n, ∀ p, n ≤ p → s.owner p = none

section Room

variable {m : Board} {s s' : Sys} {k p : Nat}

theorem Room.fresh (h : Room s) (count : Nat) : ∃ p, Fresh s p count := by
  obtain ⟨n, hn⟩ := h
  exact ⟨n, fun j _ => hn (n + j) (Nat.le_add_right n j)⟩

theorem Room.allocate (h : Room s) (p count : Nat) (o : Owner) : Room (allocate s p count o) := by
  obtain ⟨n, hn⟩ := h
  refine ⟨max n (p + count), fun q hq => (if_neg fun hx => ?_).trans (hn q (le_trans (le_max_left _ _) hq))⟩
  have := le_trans (le_max_right n (p + count)) hq
  omega

theorem Room.step {e : Event} (h : Room s) (hx : startStep m s e s') : Room s' := by
  unfold startStep exec at hx
  cases e with
  | boot p =>
      have hx := (Option.ite_none_right_eq_some.mp hx).2
      unfold bootStep at hx
      cases hpc : s.pc <;> rw [hpc] at hx <;> dsimp only at hx
      case head =>
        split_ifs at hx <;> obtain rfl := Option.some.inj hx
        · exact h
        · exact h.allocate p 3 (.stack s.i)
        · exact h
      case await =>
        obtain ⟨-, hx⟩ := Option.ite_none_right_eq_some.mp hx
        obtain rfl := Option.some.inj hx
        exact h
      case secondTest =>
        split_ifs at hx <;> obtain rfl := Option.some.inj hx
        all_goals exact h
      case finished => cases hx
      all_goals
        obtain rfl := Option.some.inj hx
        exact h
  | core k p =>
      have hx := (Option.ite_none_right_eq_some.mp hx).2
      unfold coreStep at hx
      cases hp : s.place k <;> rw [hp] at hx <;> dsimp only at hx
      case boot => cases hx
      case waiting => cases hx
      case idle => cases hx
      case alive =>
        obtain ⟨-, hx⟩ := Option.ite_none_right_eq_some.mp hx
        obtain rfl := Option.some.inj hx
        exact h.allocate p 1 (.table k)
      all_goals
        obtain rfl := Option.some.inj hx
        exact h
  | deliver k =>
      obtain ⟨-, hx⟩ := Option.ite_none_right_eq_some.mp hx
      split at hx
      · cases hx
      · obtain rfl := Option.some.inj hx
        exact h

theorem room (h : Started m s) : Room s := h.inv (fun _ h0 => h0.memory) fun _ _ _ hs hx => hs.step hx.1

/-- A core that is on its way can go on. -/
theorem core_moves (h : Room s) (hk : k < m.table.numCores) (hw : s.place k ≠ .waiting) (hb : s.place k ≠ .boot)
    (hi : s.place k ≠ .idle) : ∃ p s', Guarded (startStep m) (Punctual m) s (.core k p) s' := by
  obtain ⟨p, hfresh⟩ := h.fresh 1
  have hsome : ∃ s', coreStep m s k p = some s' := by
    unfold coreStep
    cases hp : s.place k
    case waiting => exact absurd hp hw
    case boot => exact absurd hp hb
    case idle => exact absurd hp hi
    case alive =>
      dsimp only
      rw [if_pos hfresh]
      exact ⟨_, rfl⟩
    all_goals exact ⟨_, rfl⟩
  obtain ⟨s', hs'⟩ := hsome
  exact ⟨p, s', (if_pos hk).trans hs', trivial⟩

/-- A late core can go on. -/
theorem late_moves (h : Room s) (hk : k < m.table.numCores) (hl : m.Late s k) :
    ∃ e s', Guarded (startStep m) (Punctual m) s e s' := by
  obtain ⟨hb, hqueue | hp | hp⟩ := hl
  · cases hq : s.queue (m.lapicID k) with
    | nil => exact absurd hq hqueue
    | cons x rest =>
        have hx : exec m s (.deliver k) = some { s with
            queue := Function.update s.queue (m.lapicID k) rest
            place := Function.update s.place k (x.react (s.place k)) } := by
          unfold exec
          dsimp only
          rw [if_pos ⟨hk, hb⟩, hq]
        exact ⟨.deliver k, _, hx, trivial⟩
  all_goals
    obtain ⟨p, s', hs'⟩ := core_moves h hk (by rw [hp]; nofun) (by rw [hp]; nofun) (by rw [hp]; nofun)
    exact ⟨_, s', hs'⟩

/-- The boot core can go on or waits for a core that can. -/
theorem boot_moves (hc : Control m s) (h : Room s) (hfin : s.pc ≠ .finished) :
    ∃ e s', Guarded (startStep m) (Punctual m) s e s' := by
  have hexec : ∀ p, exec m s (.boot p) = bootStep m s p := fun p => if_pos hc.boot
  have hmove : ∀ p, s.pc ≠ .secondTest → (∃ s', bootStep m s p = some s') →
      ∃ e s', Guarded (startStep m) (Punctual m) s e s' := by
    intro p hpc hx
    obtain ⟨s', hs'⟩ := hx
    exact ⟨.boot p, s', (hexec p).trans hs', fun e => absurd e hpc⟩
  cases hpc : s.pc
  case finished => exact absurd hpc hfin
  case head =>
    obtain ⟨p, hfresh⟩ := h.fresh 3
    refine hmove p (by rw [hpc]; nofun) ?_
    unfold bootStep
    rw [hpc]
    dsimp only
    rw [if_pos hfresh]
    split_ifs
    all_goals exact ⟨_, rfl⟩
  case secondTest =>
    by_cases halive : s.alive = true
    · refine ⟨.boot 0, { s with pc := .await }, ?_, fun _ hoff => ?_⟩
      · refine (hexec 0).trans ?_
        unfold bootStep
        rw [hpc]
        exact if_pos halive
      · rw [halive] at hoff
        cases hoff
    by_cases hlate : ∀ k, k < m.table.numCores → ¬ m.Late s k
    · refine ⟨.boot 0, { s with i := s.i + 1, pc := .head }, ?_, fun _ _ => hlate⟩
      refine (hexec 0).trans ?_
      unfold bootStep
      rw [hpc]
      exact if_neg halive
    · obtain ⟨k, hk⟩ := not_forall.mp hlate
      obtain ⟨hk, hl⟩ := Classical.not_imp.mp hk
      exact late_moves h hk (not_not.mp hl)
  case await =>
    by_cases hstarted : s.started = true
    · refine hmove 0 (by rw [hpc]; nofun) ⟨{ s with pc := .count }, ?_⟩
      unfold bootStep
      rw [hpc]
      exact if_pos hstarted
    · -- the core has written `alive` and not yet `started`
      have hcall := hc.current (by rw [hpc]; trivial)
      have hrun := hcall.await hpc
      have hnot := mt hcall.started.mpr hstarted
      have hlt := (hc.busy (by rw [hpc]; trivial)).1
      have hplace : s.place s.i ≠ .waiting ∧ s.place s.i ≠ .boot ∧ s.place s.i ≠ .idle := by
        cases hp : s.place s.i
        all_goals
          rw [hp] at hrun hnot
          first | exact hrun.elim | exact (hnot trivial).elim | exact ⟨nofun, nofun, nofun⟩
      obtain ⟨p, s', hs'⟩ := core_moves h hlt hplace.1 hplace.2.1 hplace.2.2
      exact ⟨_, s', hs'⟩
  all_goals
    refine hmove 0 (by rw [hpc]; nofun) ?_
    unfold bootStep
    rw [hpc]
    exact ⟨_, rfl⟩

end Room

/-- **The start comes to an end**, and there the loop is through and every working core is idle. -/
theorem start_ends (m : Board) (hm : Listed m) (hf : FourBits m) :
    (∀ r : Behaviour (Guarded (startStep m) (Punctual m)), ¬ Start m (r.state 0)) ∧
      ∀ s, Started m s → Ended (Guarded (startStep m) (Punctual m)) s →
        s.pc = .finished ∧ ∀ k, k < m.table.numCores → k ≠ m.boot → m.broken k = false → s.place k = .idle := by
  refine ⟨Behaviour.impossible m.work fun s e s' hr hs => step_work (within hr) hs.1, fun s h hend => ?_⟩
  have hc := control hm hf h
  have hfin : s.pc = .finished := by
    by_contra hx
    obtain ⟨e, s', hs'⟩ := boot_moves hc (room h) hx
    exact hend e s' hs'
  refine ⟨hfin, fun k hk hne hb => ?_⟩
  rcases ((cores_apart m hm hf s h).finished hfin).2 k hk hne with ⟨hbr, -⟩ | ⟨-, hs⟩
  · rw [hb] at hbr
    cases hbr
  by_contra hidle
  have hplace : s.place k ≠ .waiting ∧ s.place k ≠ .boot := by
    constructor
    all_goals
      intro hp
      rw [hp] at hs
      exact hs
  obtain ⟨p, s', hs'⟩ := core_moves (room h) hk hplace.1 hplace.2 hidle
  exact hend _ s' hs'

/-! ## 8. IDs of more than four bits -/

/-- The state behind `GatherInfo`. -/
def Board.initial (m : Board) : Sys where
  pc := .head
  i := 0
  slot := 0
  alive := false
  started := false
  startCount := 0
  numRunning := 1
  owner _ := none
  queue _ := []
  place k := if k = m.boot then .boot else .waiting
  rsp _ := 0
  cr3 _ := 0
  logical _ := 0

theorem initial_start (m : Board) : Start m m.initial where
  pc := rfl
  i := rfl
  startCount := rfl
  numRunning := rfl
  queue _ := rfl
  boot := if_pos rfl
  place _ hk := if_neg hk
  memory := ⟨0, fun _ _ => rfl⟩

section Beyond

variable {m : Board} {s s' : Sys} {k : Nat}

/-- **A core that no message can reach** waits for ever. -/
theorem unreached (hm : Listed m) (hk : k < m.table.numCores) (hne : k ≠ m.boot)
    (hid : 16 ≤ (m.table.info k).apicID.toNat) (h : Started m s) : Untouched m s k := by
  refine Reach.inv (I := fun s => Untouched m s k) (fun s h0 => ⟨h0.place k hne, h0.queue _⟩) (fun s e s' hs hx => ?_) h
  obtain ⟨hx, -⟩ := hx
  unfold startStep exec at hx
  cases e with
  | boot p =>
      obtain ⟨hplace, hqueue⟩ := bootStep_sends (Option.ite_none_right_eq_some.mp hx).2
      refine ⟨(congrFun hplace k).trans hs.place, ?_⟩
      rcases hqueue with hsame | ⟨x, hsend⟩
      · exact (congrFun hsame _).trans hs.queue
      · have hother : m.lapicID k ≠ destination ((m.apicID s).setWidth 8) := fun e => by
          have hn := congrArg BitVec.toNat e
          rw [hm.lapicID hk, destination_toNat] at hn
          omega
        refine (congrFun hsend _).trans ((Function.update_of_ne hother _ _).trans hs.queue)
  | core l p =>
      obtain ⟨-, hx⟩ := Option.ite_none_right_eq_some.mp hx
      obtain ⟨-, -, hqueue⟩ := coreStep_pc hx
      obtain ⟨q, hplace, hless⟩ := coreStep_place hx
      refine ⟨?_, (congrFun hqueue _).trans hs.queue⟩
      rcases eq_or_ne k l with rfl | hkl
      · unfold coreStep at hx
        rw [hs.place] at hx
        cases hx
      · rw [hplace, Function.update_of_ne hkl]
        exact hs.place
  | deliver l =>
      obtain ⟨⟨hl, -⟩, hx⟩ := Option.ite_none_right_eq_some.mp hx
      split at hx
      · cases hx
      · next x rest hqueue =>
          obtain rfl := Option.some.inj hx
          have hkl : k ≠ l := by
            rintro rfl
            rw [hs.queue] at hqueue
            cases hqueue
          exact ⟨(Function.update_of_ne hkl _ _).trans hs.place,
            (Function.update_of_ne (fun e => hkl (hm.lapicID_inj hk hl e)) _ _).trans hs.queue⟩

end Beyond

/-- **Where every core works, the start gets all of them started under their own numbers exactly if every ID has four
    bits.** -/
theorem all_started_iff (m : Board) (hm : Listed m) (hw : ∀ k, m.broken k = false) :
    (∀ s, Started m s → Ended (Guarded (startStep m) (Punctual m)) s →
      s.pc = .finished ∧ getLogicalCoreID m.table (m.getID m.boot) = m.boot ∧
        ∀ k, k < m.table.numCores → k ≠ m.boot → s.place k = .idle ∧ s.logical k = k) ↔ FourBits m := by
  constructor
  · intro hall k hk
    obtain ⟨s, hs, hend⟩ := Reach.ended m.work (fun s e s' hr hx => step_work (within hr) hx.1)
      (.start _ (initial_start m) : Started m m.initial)
    obtain ⟨-, hboot, hcores⟩ := hall s hs hend
    rcases eq_or_ne k m.boot with rfl | hne
    · exact (hm.logical_iff hk).mp hboot
    by_contra hid
    have hidle := (hcores k hk hne).1
    rw [(unreached hm hk hne (Nat.le_of_not_lt hid) hs).place] at hidle
    cases hidle
  · intro hf s hs hend
    obtain ⟨hfin, hidle⟩ := (start_ends m hm hf).2 s hs hend
    refine ⟨hfin, (hm.logical_iff hm.boot).mpr (hf _ hm.boot), fun k hk hne => ?_⟩
    have hk' := hidle k hk hne (hw k)
    refine ⟨hk', (cores_apart m hm hf s hs).logical k ?_⟩
    rw [hk']
    trivial

/-! ### Three cores, and two of which one is out of reach -/

section Shown

instance instDecidablePunctual (m : Board) (s : Sys) (e : Event) : Decidable (Punctual m s e) :=
  match e with
  | .boot _ => inferInstanceAs (Decidable
      (s.pc = .secondTest → s.alive = false → ∀ k, k < m.table.numCores → ¬ m.Late s k))
  | .deliver _ => isTrue trivial
  | .core _ _ => isTrue trivial

/-- Core 1 works, core 2 does not. -/
def shownBoard : Board := ⟨⟨3, fun k => ⟨BitVec.ofNat 64 k, 0⟩, []⟩, 0, fun k => k = 2⟩

theorem shown_listed : Listed shownBoard where
  bounded := by decide
  boot := by decide
  byte := by decide
  once := by decide

theorem shown_fourBits : FourBits shownBoard := by
  unfold FourBits
  decide

/-- Core 1 takes its time, so that a second STARTUP is sent. -/
def shownEvents : List Event :=
  [.boot 0, .boot 100, .boot 0, .boot 0, .boot 0, .boot 0, .boot 0, .deliver 1, .deliver 1, .boot 0, .core 1 0, .boot 0,
    .core 1 0, .boot 0, .core 1 103, .core 1 0, .boot 0, .boot 0, .core 1 0, .boot 104, .boot 0, .boot 0, .boot 0,
    .boot 0, .boot 0, .boot 0, .deliver 1, .boot 0, .boot 0, .boot 0]

/-- The guarded steps as a function. -/
def execPunctual (m : Board) (s : Sys) (e : Event) : Option Sys := if Punctual m s e then exec m s e else none

def shownEnd : Option Sys := shownEvents.foldlM (execPunctual shownBoard) shownBoard.initial

theorem shown_reach {s : Sys} (h : shownEnd = some s) : Started shownBoard s :=
  (Reach.start _ (initial_start shownBoard)).foldlM (fun _ _ _ _ hx =>
    have ⟨hg, hx⟩ := Option.ite_none_right_eq_some.mp hx
    ⟨hx, hg⟩) h

theorem cores_apart_shown : ∃ s, s.pc = .finished ∧ s.rsp 1 = 103 * 4096 ∧ s.cr3 1 = 103 ∧ Apart shownBoard s := by
  have hsome : shownEnd.isSome = true := by decide
  obtain ⟨s, hs⟩ := Option.isSome_iff_exists.mp hsome
  have hend : shownEnd.map (fun s => (s.pc, s.rsp 1, s.cr3 1)) = some (.finished, 103 * 4096, 103) := by decide
  rw [hs] at hend
  obtain ⟨h1, h2⟩ := Prod.mk.inj (Option.some.inj hend)
  obtain ⟨h2, h3⟩ := Prod.mk.inj h2
  exact ⟨s, h1, h2, h3, cores_apart shownBoard shown_listed shown_fourBits s (shown_reach hs)⟩

theorem start_ends_shown : ∃ s, Started shownBoard s ∧
    Ended (Guarded (startStep shownBoard) (Punctual shownBoard)) s ∧ s.pc = .finished ∧ s.place 1 = .idle := by
  obtain ⟨s, hs, hend⟩ := Reach.ended shownBoard.work (fun s e s' hr hx => step_work (within hr) hx.1)
    (.start _ (initial_start shownBoard) : Started shownBoard shownBoard.initial)
  obtain ⟨hfin, hidle⟩ := (start_ends shownBoard shown_listed shown_fourBits).2 s hs hend
  exact ⟨s, hs, hend, hfin, hidle 1 (by decide) (by decide) rfl⟩

/-- Core 1 has the ID 16. -/
def wideBoard : Board := ⟨⟨2, fun k => ⟨BitVec.ofNat 64 (16 * k), 0⟩, []⟩, 0, fun _ => false⟩

theorem wide_listed : Listed wideBoard where
  bounded := by decide
  boot := by decide
  byte := by decide
  once := by decide

theorem all_started_iff_wide : ¬ ∀ s, Started wideBoard s →
    Ended (Guarded (startStep wideBoard) (Punctual wideBoard)) s →
      s.pc = .finished ∧ getLogicalCoreID wideBoard.table (wideBoard.getID wideBoard.boot) = wideBoard.boot ∧
        ∀ k, k < wideBoard.table.numCores → k ≠ wideBoard.boot → s.place k = .idle ∧ s.logical k = k := by
  rw [all_started_iff wideBoard wide_listed fun _ => rfl]
  intro h
  exact absurd (h 1 (by decide)) (by decide)

end Shown

end StartCores

end SimpleOS2
