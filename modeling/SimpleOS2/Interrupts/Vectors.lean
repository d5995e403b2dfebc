/-
  File:      SimpleOS2/Interrupts/Vectors.lean
  Subject:   WHO GETS WHICH INTERRUPT (interrupts/IDT.cpp, arch/IOAPIC.cpp, SetInterruptHandler of devices/pci/PCI.cpp).

  The IOAPIC and the PCI devices are given vectors from two counters of eight bits, which nothing bounds. Behind the
  last free vector lie those of the kernel itself. ACPI takes a handler away with the number of the interrupt line where
  a vector is meant.

  * `setInternalISR`, `setISR`, `registerIRQ`, `registerGSI`, `setMSI`, `setInterruptHandler`,
    `removeInterruptHandler` -- the functions;
  * `interrupt` -- what a vector does, `ISRCommonHandler` and `APICISRHandler`;
  * `pin`, `MsiCap.message` -- the vector that the hardware sends;
  * `routed` -- as long as there are free vectors, every pin and every device gets the handler it was given last;
  * `intact_iff` -- the vectors of the kernel lead to the kernel up to 105 calls for the IOAPIC and 60 for MSI.
-/
import SimpleOS2.Acpi.ResourceWalk
import SimpleOS2.Lib.Run

namespace SimpleOS2

open Lib ACPI

namespace Vectors

/-! ## 1. The tables -/

/-- An `ISR`. `device` is a function of a driver. -/
inductive ISR
  | exceptions
  | apicISRHandler
  | spurious
  | error
  | timer
  | pageSync
  | device (f : Nat)
  deriving DecidableEq

/-- What an interrupt does: `APIC::SignalEOI`, and the call of a handler. -/
inductive Action
  | eoi
  | call (isr : ISR)
  | invalid
  deriving DecidableEq

def exceptionAPICTimer : BitVec 8 := 100
def exceptionAPICError : BitVec 8 := 101
def ipiPagingSync : BitVec 8 := 120
def irqBase : BitVec 8 := 150
def apicSpurious : BitVec 8 := 255
def pciBase : BitVec 8 := 40

/-- The capability of a device for MSI, with 32 or with 64 bits of address. -/
structure MsiCap where
  control : BitVec 16
  addressLow : BitVec 32
  addressHigh : BitVec 32
  data : BitVec 16
  deriving DecidableEq

/-- The tables of IDT.cpp, the registers and the counter of IOAPIC.cpp, the counter of PCI.cpp, and the devices. Behind
    them is history: what was asked for each pin and each device, and how often. -/
structure Sys where
  handlers : BitVec 8 → Option ISR
  apicHandlers : BitVec 8 → Option ISR
  isrCounter : BitVec 8
  gsiMapping : BitVec 8 → BitVec 32
  ioapic : BitVec 8 → BitVec 32
  vectCounter : BitVec 8
  msi : Nat → Option MsiCap
  askedPin : BitVec 32 → Option (ISR × BitVec 64)
  askedDevice : Nat → Option (ISR × BitVec 8)
  pinCalls : Nat
  msiCalls : Nat
  removed : List (BitVec 8)

def setInternalISR (s : Sys) (index : BitVec 8) (isr : ISR) : Sys :=
  { s with handlers := Function.update s.handlers index (some isr) }

def setISR (s : Sys) (index : BitVec 8) (isr : Option ISR) : Sys :=
  { setInternalISR s index .apicISRHandler with apicHandlers := Function.update s.apicHandlers index isr }

/-- `*(g_MemBase + REG_SEL) = reg; *(g_MemBase + REG_DATA) = val`. The IOAPIC takes eight bits of the number. -/
def writeReg (s : Sys) (reg val : BitVec 32) : Sys :=
  { s with ioapic := Function.update s.ioapic (reg.setWidth 8) val }

def regIrqBase : BitVec 32 := 0x10

def registerGSI (s : Sys) (gsi : BitVec 32) (isr : ISR) (apicID : BitVec 64) : Sys :=
  let intNo := s.isrCounter
  let s := setISR { s with isrCounter := s.isrCounter + 1 } intNo (some isr)
  let reg := regIrqBase + 2 * gsi
  let s := writeReg s reg (intNo.setWidth 32)
  let s := writeReg s (reg + 1) ((apicID <<< 24).setWidth 32)
  { s with
    askedPin := Function.update s.askedPin gsi (some (isr, apicID))
    pinCalls := s.pinCalls + 1 }

/-- A mapping to the GSI 0 is none. -/
def gsiOf (s : Sys) (irq : BitVec 8) : BitVec 32 :=
  if s.gsiMapping irq = 0 then irq.setWidth 32 else s.gsiMapping irq

def registerIRQ (s : Sys) (irq : BitVec 8) (isr : ISR) (apicID : BitVec 64) : Sys :=
  registerGSI s (gsiOf s irq) isr apicID

/-- `0xFEE00000 | ((uint32)apicID << 12)`. -/
def msiAddress (apicID : BitVec 8) : BitVec 32 := (0xFEE00000 : BitVec 32) ||| (apicID.setWidth 32) <<< 12

def setMSI (s : Sys) (dev : Nat) (cap : MsiCap) (apicID : BitVec 8) (isr : ISR) : Sys :=
  let vect := s.vectCounter
  let control : BitVec 16 := cap.control &&& 0xFF8F ||| 0x1
  let cap :=
    if cap.control &&& 0x80 ≠ 0 then ⟨control, msiAddress apicID, 0, vect.setWidth 16⟩
    else ⟨control, msiAddress apicID, cap.addressHigh, vect.setWidth 16⟩
  setInternalISR
    { s with
      vectCounter := s.vectCounter + 1
      msi := Function.update s.msi dev (some cap)
      askedDevice := Function.update s.askedDevice dev (some (isr, apicID))
      msiCalls := s.msiCalls + 1 }
    vect isr

/-- `irqInfo` is what `GetPCIDeviceIRQ` has left, `apicID` the core's. -/
def setInterruptHandler (s : Sys) (dev : Nat) (irqInfo : AcpiIRQInfo) (isr : ISR) (apicID : BitVec 64) : Sys :=
  match s.msi dev with
  | some cap => setMSI s dev cap (apicID.setWidth 8) isr
  | none =>
      if irqInfo.isGSI then registerGSI s irqInfo.number isr apicID
      else registerIRQ s (irqInfo.number.setWidth 8) isr apicID

/-- `AcpiOsRemoveInterruptHandler`, behind its tests. -/
def removeInterruptHandler (s : Sys) (no : BitVec 8) : Sys := { setISR s no none with removed := no :: s.removed }

/-- `ISRCommonHandler`, and `APICISRHandler` where it is the handler. -/
def interrupt (s : Sys) (intNumber : BitVec 8) : List Action :=
  match s.handlers intNumber with
  | none => [.invalid]
  | some .apicISRHandler =>
      match s.apicHandlers intNumber with
      | none => [.eoi]
      | some isr => [.eoi, .call isr]
  | some isr => [.call isr]

/-! ## 2. The hardware -/

/-- The pin of the IOAPIC: the vector it sends and the core it sends it to, unless it is masked. -/
def pin (s : Sys) (gsi : BitVec 32) : Option (BitVec 8 × BitVec 8) :=
  let low := s.ioapic ((regIrqBase + 2 * gsi).setWidth 8)
  let high := s.ioapic ((regIrqBase + 2 * gsi + 1).setWidth 8)
  if low.getLsbD 16 then none else some (low.setWidth 8, (high >>> 24).setWidth 8)

/-- The message of a device, likewise. -/
def MsiCap.message (cap : MsiCap) : Option (BitVec 8 × BitVec 8) :=
  if cap.control.getLsbD 0 then some (cap.data.setWidth 8, (cap.addressLow >>> 12).setWidth 8) else none

/-- The pins that the number of a register can name. -/
def IsPin (gsi : BitVec 32) : Prop := gsi.toNat < 120

/-! ## 3. Runs -/

inductive Event
  | registerIRQ (irq : BitVec 8) (f : Nat) (apicID : BitVec 64)
  | setInterruptHandler (dev : Nat) (irqInfo : AcpiIRQInfo) (f : Nat) (apicID : BitVec 64)
  | removeInterruptHandler (no : BitVec 8)

def exec (s : Sys) : Event → Sys
  | .registerIRQ irq f apicID => registerIRQ s irq (.device f) apicID
  | .setInterruptHandler dev irqInfo f apicID => setInterruptHandler s dev irqInfo (.device f) apicID
  | .removeInterruptHandler no => removeInterruptHandler s no

def vectorStep (s : Sys) (e : Event) (s' : Sys) : Prop := s' = exec s e

/-- What a vector of the kernel has to do. -/
def kernelVector (v : BitVec 8) : Option (List Action) :=
  if v.toNat < 32 then some [.call .exceptions]
  else if v = exceptionAPICTimer then some [.eoi, .call .timer]
  else if v = exceptionAPICError then some [.eoi, .call .error]
  else if v = ipiPagingSync then some [.eoi, .call .pageSync]
  else if v = apicSpurious then some [.call .spurious]
  else none

def Intact (s : Sys) : Prop := ∀ v acts, kernelVector v = some acts → interrupt s v = acts

/-- Behind `IDT::Init`, `APIC::Init`, `MemoryManager::Init` and `IOAPIC::Init`. The pins are masked. -/
structure Start (s : Sys) : Prop where
  intact : Intact s
  isrCounter : s.isrCounter = irqBase
  vectCounter : s.vectCounter = pciBase
  masked : ∀ gsi, IsPin gsi → (s.ioapic ((regIrqBase + 2 * gsi).setWidth 8)).getLsbD 16 = true
  askedPin : ∀ gsi, s.askedPin gsi = none
  askedDevice : ∀ dev, s.askedDevice dev = none
  pinCalls : s.pinCalls = 0
  msiCalls : s.msiCalls = 0
  removed : s.removed = []

/-! ## 4. One vector at a time -/

/-- A step gives one vector a handler of a driver, or none. -/
structure Writes (s s' : Sys) (v : BitVec 8) : Prop where
  other : ∀ u, u ≠ v → interrupt s' u = interrupt s u
  foreign : ∀ acts, kernelVector v = some acts → interrupt s' v ≠ acts

section Writes

variable {s s' : Sys} {v : BitVec 8} {f : Nat} {acts : List Action}

theorem interrupt_congr {u : BitVec 8} (h1 : s'.handlers u = s.handlers u)
    (h2 : s'.apicHandlers u = s.apicHandlers u) : interrupt s' u = interrupt s u := by
  unfold interrupt
  rw [h1, h2]

theorem interrupt_device (h : s.handlers v = some (.device f)) : interrupt s v = [.call (.device f)] := by
  unfold interrupt
  rw [h]

theorem interrupt_apic {isr : ISR} (h1 : s.handlers v = some .apicISRHandler) (h2 : s.apicHandlers v = some isr) :
    interrupt s v = [.eoi, .call isr] := by
  unfold interrupt
  rw [h1]
  dsimp only
  rw [h2]

/-- The kernel's own handlers are no driver's. -/
theorem kernelVector_acts (h : kernelVector v = some acts) :
    acts ≠ [.eoi] ∧ acts ≠ [.call (.device f)] ∧ acts ≠ [.eoi, .call (.device f)] := by
  unfold kernelVector at h
  split_ifs at h <;>
  · cases h
    exact ⟨nofun, nofun, nofun⟩

theorem kernelVector_pins (h1 : 150 ≤ v.toNat) (h2 : v.toNat < 255) : kernelVector v = none := by
  unfold kernelVector
  rw [if_neg (by omega), if_neg, if_neg, if_neg, if_neg]
  all_goals
    rintro rfl
    revert h1 h2
    decide

theorem kernelVector_devices (h1 : 40 ≤ v.toNat) (h2 : v.toNat < 100) : kernelVector v = none := by
  unfold kernelVector
  rw [if_neg (by omega), if_neg, if_neg, if_neg, if_neg]
  all_goals
    rintro rfl
    revert h1 h2
    decide

theorem setISR_writes (s : Sys) (v : BitVec 8) (isr : Option Nat) : Writes s (setISR s v (isr.map .device)) v where
  other u hu := interrupt_congr (Function.update_of_ne hu _ _) (Function.update_of_ne hu _ _)
  foreign acts h := by
    have h1 : (setISR s v (isr.map .device)).handlers v = some .apicISRHandler := Function.update_self _ _ _
    have h2 : (setISR s v (isr.map .device)).apicHandlers v = isr.map .device := Function.update_self _ _ _
    cases isr with
    | none =>
        unfold interrupt
        rw [h1]
        dsimp only
        rw [h2]
        exact ((kernelVector_acts (f := 0) h).1).symm
    | some f =>
        rw [interrupt_apic h1 h2]
        exact ((kernelVector_acts h).2.2).symm

theorem setInternalISR_writes (s : Sys) (v : BitVec 8) (f : Nat) : Writes s (setInternalISR s v (.device f)) v where
  other u hu := interrupt_congr (Function.update_of_ne hu _ _) rfl
  foreign acts h := by
    rw [interrupt_device (Function.update_self _ _ _)]
    exact ((kernelVector_acts h).2.1).symm

theorem Writes.congr {s0 s1 : Sys} (h : Writes s s' v)
    (h0 : s0.handlers = s.handlers ∧ s0.apicHandlers = s.apicHandlers)
    (h1 : s1.handlers = s'.handlers ∧ s1.apicHandlers = s'.apicHandlers) : Writes s0 s1 v := by
  have e0 : ∀ u, interrupt s0 u = interrupt s u := fun u =>
    interrupt_congr (congrFun h0.1 u) (congrFun h0.2 u)
  have e1 : ∀ u, interrupt s1 u = interrupt s' u := fun u =>
    interrupt_congr (congrFun h1.1 u) (congrFun h1.2 u)
  refine ⟨fun u hu => ?_, fun acts ha => ?_⟩
  · rw [e0, e1]
    exact h.other u hu
  · rw [e1]
    exact h.foreign acts ha

/-- What a step does to the counters and to the vectors. -/
inductive Counted (s s' : Sys) : Prop
  | pin (hw : Writes s s' s.isrCounter) (h1 : s'.isrCounter = s.isrCounter + 1) (h2 : s'.pinCalls = s.pinCalls + 1)
      (h3 : s'.vectCounter = s.vectCounter) (h4 : s'.msiCalls = s.msiCalls) (h5 : s'.removed = s.removed)
  | msi (hw : Writes s s' s.vectCounter) (h1 : s'.isrCounter = s.isrCounter) (h2 : s'.pinCalls = s.pinCalls)
      (h3 : s'.vectCounter = s.vectCounter + 1) (h4 : s'.msiCalls = s.msiCalls + 1) (h5 : s'.removed = s.removed)
  | remove (no : BitVec 8) (hw : Writes s s' no) (h1 : s'.isrCounter = s.isrCounter) (h2 : s'.pinCalls = s.pinCalls)
      (h3 : s'.vectCounter = s.vectCounter) (h4 : s'.msiCalls = s.msiCalls) (h5 : s'.removed = no :: s.removed)

theorem registerGSI_counted (s : Sys) (gsi : BitVec 32) (f : Nat) (apicID : BitVec 64) :
    Counted s (registerGSI s gsi (.device f) apicID) :=
  .pin ((setISR_writes s s.isrCounter (some f)).congr ⟨rfl, rfl⟩ ⟨rfl, rfl⟩) rfl rfl rfl rfl rfl

theorem setMSI_counted (s : Sys) (dev : Nat) (cap : MsiCap) (apicID : BitVec 8) (f : Nat) :
    Counted s (setMSI s dev cap apicID (.device f)) :=
  .msi ((setInternalISR_writes s s.vectCounter f).congr ⟨rfl, rfl⟩ ⟨rfl, rfl⟩) rfl rfl rfl rfl rfl

theorem exec_counted (s : Sys) (e : Event) : Counted s (exec s e) := by
  cases e with
  | registerIRQ irq f apicID => exact registerGSI_counted s _ f apicID
  | setInterruptHandler dev irqInfo f apicID =>
      show Counted s (setInterruptHandler s dev irqInfo (.device f) apicID)
      unfold setInterruptHandler
      split
      · exact setMSI_counted s dev _ _ f
      · split_ifs
        · exact registerGSI_counted s _ f apicID
        · exact registerGSI_counted s _ f apicID
  | removeInterruptHandler no =>
      exact .remove no ((setISR_writes s no none).congr ⟨rfl, rfl⟩ ⟨rfl, rfl⟩) rfl rfl rfl rfl rfl

end Writes

/-! ## 5. The vectors of the kernel -/

section Kernel

variable {s s' : Sys} {v : BitVec 8}

/-- What is lost stays lost. -/
theorem Writes.lost (h : Writes s s' v) (hs : ¬ Intact s) : ¬ Intact s' := by
  intro hs'
  refine hs fun u acts hu => ?_
  have hx := hs' u acts hu
  rcases eq_or_ne u v with rfl | hne
  · exact absurd hx (h.foreign acts hu)
  · rwa [h.other u hne] at hx

theorem Writes.intact (h : Writes s s' v) (hv : kernelVector v = none) (hs : Intact s) : Intact s' := by
  intro u acts hu
  have hne : u ≠ v := by
    rintro rfl
    rw [hv] at hu
    cases hu
  rw [h.other u hne]
  exact hs u acts hu

theorem Writes.loses (h : Writes s s' v) (hv : kernelVector v ≠ none) : ¬ Intact s' := by
  intro hs'
  obtain ⟨acts, ha⟩ := Option.ne_none_iff_exists'.mp hv
  exact h.foreign acts ha (hs' v acts ha)

/-- The counters as long as they do not run into the vectors of the kernel, and what has come of those. -/
structure KernelInv (s : Sys) : Prop where
  isrCounter : s.pinCalls ≤ 105 → s.isrCounter.toNat = 150 + s.pinCalls
  vectCounter : s.msiCalls ≤ 60 → s.vectCounter.toNat = 40 + s.msiCalls
  intact : s.pinCalls ≤ 105 → s.msiCalls ≤ 60 → (∀ no ∈ s.removed, kernelVector no = none) → Intact s
  lostPins : 105 < s.pinCalls → ¬ Intact s
  lostMsi : 60 < s.msiCalls → ¬ Intact s
  lostRemoved : ∀ no ∈ s.removed, kernelVector no ≠ none → ¬ Intact s

theorem KernelInv.start (h : Start s) : KernelInv s where
  isrCounter _ := by
    rw [h.isrCounter, h.pinCalls]
    rfl
  vectCounter _ := by
    rw [h.vectCounter, h.msiCalls]
    rfl
  intact _ _ _ := h.intact
  lostPins hx := by
    rw [h.pinCalls] at hx
    omega
  lostMsi hx := by
    rw [h.msiCalls] at hx
    omega
  lostRemoved no hx := by
    rw [h.removed] at hx
    cases hx

theorem KernelInv.step (h : KernelInv s) (hc : Counted s s') : KernelInv s' := by
  cases hc with
  | pin hw h1 h2 h3 h4 h5 =>
      have hcounter : s.pinCalls ≤ 104 → kernelVector s.isrCounter = none := fun hp =>
        kernelVector_pins (by rw [h.isrCounter (by omega)]; omega) (by rw [h.isrCounter (by omega)]; omega)
      refine ⟨fun hp => ?_, fun hm => ?_, fun hp hm hr => ?_, fun hp => ?_, fun hm => ?_, fun no hno hk => ?_⟩
      · have := h.isrCounter (by omega)
        rw [h1, h2, BitVec.toNat_add, this, show (1 : BitVec 8).toNat = 1 from rfl]
        omega
      · rw [h3, h4]
        exact h.vectCounter (by omega)
      · exact hw.intact (hcounter (by omega)) (h.intact (by omega) (by omega) (h5 ▸ hr))
      · by_cases hlast : s.pinCalls = 105
        · -- the counter stands at the last vector
          have hv : s.isrCounter = apicSpurious := BitVec.eq_of_toNat_eq (by rw [h.isrCounter (by omega), hlast]; rfl)
          exact hw.loses (by rw [hv]; decide)
        · exact hw.lost (h.lostPins (by omega))
      · exact hw.lost (h.lostMsi (by omega))
      · exact hw.lost (h.lostRemoved no (h5 ▸ hno) hk)
  | msi hw h1 h2 h3 h4 h5 =>
      have hcounter : s.msiCalls ≤ 59 → kernelVector s.vectCounter = none := fun hp =>
        kernelVector_devices (by rw [h.vectCounter (by omega)]; omega) (by rw [h.vectCounter (by omega)]; omega)
      refine ⟨fun hp => ?_, fun hm => ?_, fun hp hm hr => ?_, fun hp => ?_, fun hm => ?_, fun no hno hk => ?_⟩
      · rw [h1, h2]
        exact h.isrCounter (by omega)
      · have := h.vectCounter (by omega)
        rw [h3, h4, BitVec.toNat_add, this, show (1 : BitVec 8).toNat = 1 from rfl]
        omega
      · exact hw.intact (hcounter (by omega)) (h.intact (by omega) (by omega) (h5 ▸ hr))
      · exact hw.lost (h.lostPins (by omega))
      · by_cases hlast : s.msiCalls = 60
        · have hv : s.vectCounter = exceptionAPICTimer :=
            BitVec.eq_of_toNat_eq (by rw [h.vectCounter (by omega), hlast]; rfl)
          exact hw.loses (by rw [hv]; decide)
        · exact hw.lost (h.lostMsi (by omega))
      · exact hw.lost (h.lostRemoved no (h5 ▸ hno) hk)
  | remove no hw h1 h2 h3 h4 h5 =>
      refine ⟨fun hp => ?_, fun hm => ?_, fun hp hm hr => ?_, fun hp => ?_, fun hm => ?_, fun no' hno hk => ?_⟩
      · rw [h1, h2]
        exact h.isrCounter (by omega)
      · rw [h3, h4]
        exact h.vectCounter (by omega)
      · rw [h5] at hr
        exact hw.intact (hr no List.mem_cons_self)
          (h.intact (by omega) (by omega) fun no' h' => hr no' (List.mem_cons_of_mem _ h'))
      · exact hw.lost (h.lostPins (by omega))
      · exact hw.lost (h.lostMsi (by omega))
      · rw [h5] at hno
        rcases List.mem_cons.mp hno with rfl | hno
        · exact hw.loses hk
        · exact hw.lost (h.lostRemoved no' hno hk)

/-- **THE VECTORS OF THE KERNEL** lead to the kernel exactly up to 105 calls for the IOAPIC and 60 for MSI, as long as
    no handler is taken away under the number of one of them. -/
theorem intact_iff {s : Sys} (h : Reach vectorStep Start s) :
    Intact s ↔ s.pinCalls ≤ 105 ∧ s.msiCalls ≤ 60 ∧ ∀ no ∈ s.removed, kernelVector no = none := by
  have hI : KernelInv s := h.inv (fun _ hs => KernelInv.start hs) fun s e s' hI hs => by
    subst hs
    exact hI.step (exec_counted s e)
  constructor
  · intro hs
    refine ⟨?_, ?_, fun no hno => ?_⟩
    · by_contra hx
      exact hI.lostPins (by omega) hs
    · by_contra hx
      exact hI.lostMsi (by omega) hs
    · by_contra hx
      exact hI.lostRemoved no hno hx hs
  · intro hx
    exact hI.intact hx.1 hx.2.1 hx.2.2

end Kernel

/-! ## 6. Pins and devices -/

/-- There is a free vector, the pin is one of the IOAPIC, and ACPI names an interrupt line by its number. -/
def Room (s : Sys) : Event → Prop
  | .registerIRQ irq _ _ => s.pinCalls < 105 ∧ IsPin (gsiOf s irq)
  | .setInterruptHandler dev irqInfo _ _ =>
      match s.msi dev with
      | some _ => s.msiCalls < 60
      | none =>
          s.pinCalls < 105 ∧
            IsPin (if irqInfo.isGSI then irqInfo.number else gsiOf s (irqInfo.number.setWidth 8))
  | .removeInterruptHandler no => no.toNat < 40

section Registers

variable {s : Sys} {gsi gsi' : BitVec 32} {v : BitVec 8} {apicID : BitVec 64} {f : Nat}

theorem toNat_regLow (h : IsPin gsi) : ((regIrqBase + 2 * gsi).setWidth 8).toNat = 16 + 2 * gsi.toNat := by
  unfold IsPin at h
  have h1 : regIrqBase.toNat = 16 := rfl
  have h2 : (2 : BitVec 32).toNat = 2 := rfl
  rw [BitVec.toNat_setWidth, BitVec.toNat_add, BitVec.toNat_mul, h1, h2]
  omega

theorem toNat_regHigh (h : IsPin gsi) : ((regIrqBase + 2 * gsi + 1).setWidth 8).toNat = 17 + 2 * gsi.toNat := by
  unfold IsPin at h
  have h1 : regIrqBase.toNat = 16 := rfl
  have h2 : (2 : BitVec 32).toNat = 2 := rfl
  have h3 : (1 : BitVec 32).toNat = 1 := rfl
  rw [BitVec.toNat_setWidth, BitVec.toNat_add, BitVec.toNat_add, BitVec.toNat_mul, h1, h2, h3]
  omega

theorem reg_ne {a b : BitVec 8} (h : a.toNat ≠ b.toNat) : a ≠ b := fun e => h (congrArg BitVec.toNat e)

/-- The registers of the pin as `RegisterGSI` leaves them. -/
theorem pin_registerGSI_self (h : IsPin gsi) (isr : ISR) (s : Sys) (apicID : BitVec 64) :
    pin (registerGSI s gsi isr apicID) gsi = some (s.isrCounter, apicID.setWidth 8) := by
  have hne : ((regIrqBase + 2 * gsi).setWidth 8 : BitVec 8) ≠ (regIrqBase + 2 * gsi + 1).setWidth 8 :=
    reg_ne (by rw [toNat_regLow h, toNat_regHigh h]; omega)
  have hlow : (registerGSI s gsi isr apicID).ioapic ((regIrqBase + 2 * gsi).setWidth 8) = s.isrCounter.setWidth 32 := by
    show Function.update (Function.update s.ioapic _ _) _ _ _ = _
    rw [Function.update_of_ne hne, Function.update_self]
  have hhigh : (registerGSI s gsi isr apicID).ioapic ((regIrqBase + 2 * gsi + 1).setWidth 8) =
      (apicID <<< 24).setWidth 32 := Function.update_self _ _ _
  have hmask : (s.isrCounter.setWidth 32).getLsbD 16 = false := by
    rw [BitVec.getLsbD_setWidth]
    exact Bool.and_eq_false_iff.mpr (Or.inr (BitVec.getLsbD_of_ge _ _ (by decide)))
  have hdest : (((apicID <<< 24).setWidth 32 : BitVec 32) >>> 24).setWidth 8 = apicID.setWidth 8 := by
    apply BitVec.eq_of_getLsbD_eq
    intro i hi
    rw [BitVec.getLsbD_setWidth, BitVec.getLsbD_ushiftRight, BitVec.getLsbD_setWidth, BitVec.getLsbD_shiftLeft,
      BitVec.getLsbD_setWidth]
    have h1 : decide (24 + i < 32) = true := decide_eq_true (by omega)
    have h2 : decide (24 + i < 64) = true := decide_eq_true (by omega)
    have h3 : decide (24 + i < 24) = false := decide_eq_false (by omega)
    rw [h1, h2, h3, show 24 + i - 24 = i by omega]
    rfl
  unfold pin
  dsimp only
  rw [hlow, hhigh, hmask, hdest, BitVec.setWidth_setWidth_of_le _ (by decide), BitVec.setWidth_eq]
  rfl

/-- The registers of the other pins stay. -/
theorem ioapic_registerGSI_other (h : IsPin gsi) (h' : IsPin gsi') (hne : gsi' ≠ gsi) (isr : ISR) (s : Sys)
    (apicID : BitVec 64) :
    (registerGSI s gsi isr apicID).ioapic ((regIrqBase + 2 * gsi').setWidth 8) =
        s.ioapic ((regIrqBase + 2 * gsi').setWidth 8) ∧
      (registerGSI s gsi isr apicID).ioapic ((regIrqBase + 2 * gsi' + 1).setWidth 8) =
        s.ioapic ((regIrqBase + 2 * gsi' + 1).setWidth 8) := by
  have hn : gsi'.toNat ≠ gsi.toNat := fun e => hne (BitVec.eq_of_toNat_eq e)
  have h1 := toNat_regLow h
  have h2 := toNat_regHigh h
  have h3 := toNat_regLow h'
  have h4 := toNat_regHigh h'
  constructor
  · show Function.update (Function.update s.ioapic _ _) _ _ _ = _
    rw [Function.update_of_ne (reg_ne (by omega)), Function.update_of_ne (reg_ne (by omega))]
  · show Function.update (Function.update s.ioapic _ _) _ _ _ = _
    rw [Function.update_of_ne (reg_ne (by omega)), Function.update_of_ne (reg_ne (by omega))]

theorem pin_registerGSI_other (h : IsPin gsi) (h' : IsPin gsi') (hne : gsi' ≠ gsi) (isr : ISR) :
    pin (registerGSI s gsi isr apicID) gsi' = pin s gsi' := by
  obtain ⟨h1, h2⟩ := ioapic_registerGSI_other h h' hne isr s apicID
  unfold pin
  rw [h1, h2]

/-- The message that `SetMSI` arranges. -/
theorem message_address (apicID : BitVec 8) : (msiAddress apicID >>> 12).setWidth 8 = apicID := by
  revert apicID
  decide +kernel

theorem message_enabled (control : BitVec 16) : (control &&& 0xFF8F ||| 0x1).getLsbD 0 = true := by
  rw [BitVec.getLsbD_or]
  exact Bool.or_eq_true_iff.mpr (Or.inr (by decide))

theorem message_setMSI (s : Sys) (dev : Nat) (cap : MsiCap) (apicID : BitVec 8) (isr : ISR) :
    ∃ cap', (setMSI s dev cap apicID isr).msi dev = some cap' ∧ cap'.message = some (s.vectCounter, apicID) := by
  have hv : (s.vectCounter.setWidth 16).setWidth 8 = s.vectCounter := by
    rw [BitVec.setWidth_setWidth_of_le _ (by decide), BitVec.setWidth_eq]
  -- the two kinds of capability differ in the upper half of the address only
  have key : ∀ high : BitVec 32, MsiCap.message ⟨cap.control &&& 0xFF8F ||| 0x1, msiAddress apicID, high,
      s.vectCounter.setWidth 16⟩ = some (s.vectCounter, apicID) := by
    intro high
    unfold MsiCap.message
    dsimp only
    rw [if_pos (message_enabled cap.control), hv, message_address]
  refine ⟨_, Function.update_self _ _ _, ?_⟩
  split_ifs
  · exact key 0
  · exact key cap.addressHigh

end Registers

/-- What a source of interrupts has been given: a vector of its own, and the handler it was asked for last. -/
structure RoutedInv (s : Sys) : Prop where
  pinRoom : s.pinCalls ≤ 105
  msiRoom : s.msiCalls ≤ 60
  isrCounter : s.isrCounter.toNat = 150 + s.pinCalls
  vectCounter : s.vectCounter.toNat = 40 + s.msiCalls
  masked : ∀ gsi, IsPin gsi → s.askedPin gsi = none → pin s gsi = none
  pins : ∀ gsi isr apicID, IsPin gsi → s.askedPin gsi = some (isr, apicID) → ∃ v,
    pin s gsi = some (v, apicID.setWidth 8) ∧ 150 ≤ v.toNat ∧ v.toNat < 150 + s.pinCalls ∧
      interrupt s v = [.eoi, .call isr]
  pinsApart : ∀ gsi gsi' v c c', IsPin gsi → IsPin gsi' → pin s gsi = some (v, c) → pin s gsi' = some (v, c') →
    gsi = gsi'
  devices : ∀ dev isr apicID, s.askedDevice dev = some (isr, apicID) → ∃ cap v,
    s.msi dev = some cap ∧ cap.message = some (v, apicID) ∧ 40 ≤ v.toNat ∧ v.toNat < 40 + s.msiCalls ∧
      interrupt s v = [.call isr]
  devicesApart : ∀ dev dev' cap cap' v c c' x x', s.askedDevice dev = some x → s.askedDevice dev' = some x' →
    s.msi dev = some cap → s.msi dev' = some cap' → cap.message = some (v, c) → cap'.message = some (v, c') → dev = dev'

section Routed

variable {s s' : Sys} {v : BitVec 8} {gsi : BitVec 32} {apicID : BitVec 64} {f : Nat}

theorem RoutedInv.start (h : Start s) : RoutedInv s := by
  have hmasked : ∀ gsi, IsPin gsi → pin s gsi = none := by
    intro gsi hp
    unfold pin
    dsimp only
    rw [h.masked gsi hp]
    rfl
  refine ⟨?_, ?_, ?_, ?_, fun gsi hp _ => hmasked gsi hp, ?_, ?_, ?_, ?_⟩
  · rw [h.pinCalls]
    omega
  · rw [h.msiCalls]
    omega
  · rw [h.isrCounter, h.pinCalls]
    rfl
  · rw [h.vectCounter, h.msiCalls]
    rfl
  · intro gsi isr apicID _ hx
    rw [h.askedPin] at hx
    cases hx
  · intro gsi gsi' v c c' hp _ hx _
    rw [hmasked gsi hp] at hx
    cases hx
  · intro dev isr apicID hx
    rw [h.askedDevice] at hx
    cases hx
  · intro dev dev' cap cap' v c c' x x' hx
    rw [h.askedDevice] at hx
    cases hx

/-- A pin that sends something was asked for. -/
theorem RoutedInv.sends (h : RoutedInv s) {c : BitVec 8} (hp : IsPin gsi) (hx : pin s gsi = some (v, c)) :
    150 ≤ v.toNat ∧ v.toNat < 150 + s.pinCalls := by
  cases ha : s.askedPin gsi with
  | none =>
      rw [h.masked gsi hp ha] at hx
      cases hx
  | some x =>
      obtain ⟨w, hw, h1, h2, -⟩ := h.pins gsi x.1 x.2 hp ha
      rw [hw] at hx
      obtain rfl : w = v := congrArg Prod.fst (Option.some.inj hx)
      exact ⟨h1, h2⟩

theorem RoutedInv.registerGSI (h : RoutedInv s) (hroom : s.pinCalls < 105) (hp : IsPin gsi) :
    RoutedInv (registerGSI s gsi (.device f) apicID) := by
  have hw : Writes s (Vectors.registerGSI s gsi (.device f) apicID) s.isrCounter :=
    (setISR_writes s s.isrCounter (some f)).congr ⟨rfl, rfl⟩ ⟨rfl, rfl⟩
  have hcounter := h.isrCounter
  have hmsi := h.msiRoom
  -- the new vector is no other's
  have hkeep : ∀ {u : BitVec 8}, u.toNat ≠ 150 + s.pinCalls →
      interrupt (Vectors.registerGSI s gsi (.device f) apicID) u = interrupt s u := fun hu =>
    hw.other _ (reg_ne (by omega))
  have hself := pin_registerGSI_self hp (.device f) s apicID
  have hother : ∀ {g}, IsPin g → g ≠ gsi → pin (Vectors.registerGSI s gsi (.device f) apicID) g = pin s g :=
    fun hg hne => pin_registerGSI_other hp hg hne _
  refine ⟨Nat.succ_le_of_lt hroom, hmsi, ?_, h.vectCounter, ?_, ?_, ?_, ?_, h.devicesApart⟩
  · show (s.isrCounter + 1).toNat = 150 + (s.pinCalls + 1)
    rw [BitVec.toNat_add, hcounter, show (1 : BitVec 8).toNat = 1 from rfl]
    omega
  · intro g hg ha
    have ha' : Function.update s.askedPin gsi (some (ISR.device f, apicID)) g = none := ha
    rcases eq_or_ne g gsi with rfl | hne
    · rw [Function.update_self] at ha'
      cases ha'
    · rw [Function.update_of_ne hne] at ha'
      rw [hother hg hne]
      exact h.masked g hg ha'
  · intro g isr id hg ha
    have ha' : Function.update s.askedPin gsi (some (ISR.device f, apicID)) g = some (isr, id) := ha
    rcases eq_or_ne g gsi with rfl | hne
    · rw [Function.update_self] at ha'
      cases ha'
      refine ⟨s.isrCounter, hself, by omega, ?_,
        interrupt_apic (Function.update_self _ _ _) (Function.update_self _ _ _)⟩
      show s.isrCounter.toNat < 150 + (s.pinCalls + 1)
      omega
    · rw [Function.update_of_ne hne] at ha'
      obtain ⟨v, h1, h2, h3, h4⟩ := h.pins g isr id hg ha'
      refine ⟨v, (hother hg hne).trans h1, h2, ?_, (hkeep (by omega)).trans h4⟩
      show v.toNat < 150 + (s.pinCalls + 1)
      omega
  · intro g g' v c c' hg hg' h1 h2
    rcases eq_or_ne g gsi with rfl | hne
    · rcases eq_or_ne g' g with rfl | hne'
      · rfl
      · rw [hself] at h1
        rw [hother hg' hne'] at h2
        obtain rfl : s.isrCounter = v := congrArg Prod.fst (Option.some.inj h1)
        have := (h.sends hg' h2).2
        omega
    · rw [hother hg hne] at h1
      rcases eq_or_ne g' gsi with rfl | hne'
      · rw [hself] at h2
        obtain rfl : s.isrCounter = v := congrArg Prod.fst (Option.some.inj h2)
        have := (h.sends hg h1).2
        omega
      · rw [hother hg' hne'] at h2
        exact h.pinsApart g g' v c c' hg hg' h1 h2
  · intro dev isr id ha
    obtain ⟨cap, v, h1, h2, h3, h4, h5⟩ := h.devices dev isr id ha
    exact ⟨cap, v, h1, h2, h3, h4, (hkeep (by omega)).trans h5⟩

theorem RoutedInv.setMSI (h : RoutedInv s) (hroom : s.msiCalls < 60) (dev : Nat) (cap : MsiCap) (id : BitVec 8) :
    RoutedInv (setMSI s dev cap id (.device f)) := by
  have hw : Writes s (Vectors.setMSI s dev cap id (.device f)) s.vectCounter :=
    (setInternalISR_writes s s.vectCounter f).congr ⟨rfl, rfl⟩ ⟨rfl, rfl⟩
  have hcounter := h.vectCounter
  have hpin := h.pinRoom
  have hkeep : ∀ {u : BitVec 8}, u.toNat ≠ 40 + s.msiCalls →
      interrupt (Vectors.setMSI s dev cap id (.device f)) u = interrupt s u := fun hu => hw.other _ (reg_ne (by omega))
  obtain ⟨cap1, hcap1, hmsg1⟩ := message_setMSI s dev cap id (.device f)
  have hother : ∀ {d}, d ≠ dev → (Vectors.setMSI s dev cap id (.device f)).msi d = s.msi d := fun hd =>
    Function.update_of_ne hd _ _
  have hasked : ∀ {d x}, d ≠ dev → (Vectors.setMSI s dev cap id (.device f)).askedDevice d = some x →
      s.askedDevice d = some x := by
    intro d x hd hx
    have hx' : Function.update s.askedDevice dev (some (ISR.device f, id)) d = some x := hx
    rwa [Function.update_of_ne hd] at hx'
  -- an earlier message has an earlier vector
  have hold : ∀ {d x cap v c}, s.askedDevice d = some x → s.msi d = some cap → cap.message = some (v, c) →
      v.toNat < 40 + s.msiCalls := by
    intro d x cap v c ha hc hm
    obtain ⟨cap', w, h1, h2, -, h3, -⟩ := h.devices d x.1 x.2 ha
    rw [hc] at h1
    cases h1
    rw [hm] at h2
    obtain rfl : v = w := congrArg Prod.fst (Option.some.inj h2)
    exact h3
  refine ⟨hpin, Nat.succ_le_of_lt hroom, h.isrCounter, ?_, h.masked, ?_, h.pinsApart, ?_, ?_⟩
  · show (s.vectCounter + 1).toNat = 40 + (s.msiCalls + 1)
    rw [BitVec.toNat_add, hcounter, show (1 : BitVec 8).toNat = 1 from rfl]
    omega
  · intro g isr apicID hg ha
    obtain ⟨v, h1, h2, h3, h4⟩ := h.pins g isr apicID hg ha
    exact ⟨v, h1, h2, h3, (hkeep (by omega)).trans h4⟩
  · intro d isr apicID ha
    rcases eq_or_ne d dev with rfl | hd
    · have ha' : Function.update s.askedDevice d (some (ISR.device f, id)) d = some (isr, apicID) := ha
      rw [Function.update_self] at ha'
      cases ha'
      refine ⟨cap1, s.vectCounter, hcap1, hmsg1, by omega, ?_, interrupt_device (Function.update_self _ _ _)⟩
      show s.vectCounter.toNat < 40 + (s.msiCalls + 1)
      omega
    · obtain ⟨cap', v, h1, h2, h3, h4, h5⟩ := h.devices d isr apicID (hasked hd ha)
      refine ⟨cap', v, (hother hd).trans h1, h2, h3, ?_, (hkeep (by omega)).trans h5⟩
      show v.toNat < 40 + (s.msiCalls + 1)
      omega
  · intro d d' c1 c2 v k k' x x' ha ha' h1 h2 h3 h4
    rcases eq_or_ne d dev with rfl | hd
    · rcases eq_or_ne d' d with rfl | hd'
      · rfl
      · rw [hcap1] at h1
        cases h1
        rw [hmsg1] at h3
        obtain rfl : s.vectCounter = v := congrArg Prod.fst (Option.some.inj h3)
        rw [hother hd'] at h2
        have := hold (hasked hd' ha') h2 h4
        omega
    · rw [hother hd] at h1
      rcases eq_or_ne d' dev with rfl | hd'
      · rw [hcap1] at h2
        cases h2
        rw [hmsg1] at h4
        obtain rfl : s.vectCounter = v := congrArg Prod.fst (Option.some.inj h4)
        have := hold (hasked hd ha) h1 h3
        omega
      · rw [hother hd'] at h2
        exact h.devicesApart d d' c1 c2 v k k' x x' (hasked hd ha) (hasked hd' ha') h1 h2 h3 h4

theorem RoutedInv.remove (h : RoutedInv s) {no : BitVec 8} (hno : no.toNat < 40) :
    RoutedInv (removeInterruptHandler s no) := by
  have hw : Writes s (removeInterruptHandler s no) no := (setISR_writes s no none).congr ⟨rfl, rfl⟩ ⟨rfl, rfl⟩
  refine ⟨h.pinRoom, h.msiRoom, h.isrCounter, h.vectCounter, h.masked, ?_, h.pinsApart, ?_, h.devicesApart⟩
  · intro g isr apicID hg ha
    obtain ⟨v, h1, h2, h3, h4⟩ := h.pins g isr apicID hg ha
    exact ⟨v, h1, h2, h3, (hw.other v (reg_ne (by omega))).trans h4⟩
  · intro d isr apicID ha
    obtain ⟨cap, v, h1, h2, h3, h4, h5⟩ := h.devices d isr apicID ha
    exact ⟨cap, v, h1, h2, h3, h4, (hw.other v (reg_ne (by omega))).trans h5⟩

end Routed

/-- Behind the initialisation, with one device that can send messages. -/
def booted : Sys where
  handlers v :=
    if v.toNat < 32 then some .exceptions
    else if v = apicSpurious then some .spurious
    else if v = exceptionAPICTimer ∨ v = exceptionAPICError ∨ v = ipiPagingSync then some .apicISRHandler
    else none
  apicHandlers v :=
    if v = exceptionAPICTimer then some .timer
    else if v = exceptionAPICError then some .error
    else if v = ipiPagingSync then some .pageSync
    else none
  isrCounter := irqBase
  gsiMapping irq := if irq = 0 then 2 else 0
  ioapic _ := 0x10000
  vectCounter := pciBase
  msi dev := if dev = 7 then some ⟨0x80, 0, 0, 0⟩ else none
  askedPin _ := none
  askedDevice _ := none
  pinCalls := 0
  msiCalls := 0
  removed := []

theorem booted_start : Start booted where
  intact := by
    have hall : ∀ v acts, kernelVector v = some acts → interrupt booted v = acts := by
      intro v
      have hv : (kernelVector v).all (fun acts => decide (interrupt booted v = acts)) = true := by
        revert v
        decide +kernel
      intro acts ha
      rw [ha] at hv
      exact of_decide_eq_true hv
    exact hall
  isrCounter := rfl
  vectCounter := rfl
  masked _ _ := by
    show (0x10000 : BitVec 32).getLsbD 16 = true
    decide
  askedPin _ := rfl
  askedDevice _ := rfl
  pinCalls := rfl
  msiCalls := rfl
  removed := rfl

theorem intact_iff_keyboard : Intact (exec booted (.registerIRQ 1 3 0)) ∧
    ¬ Intact (exec (exec booted (.registerIRQ 1 3 0)) (.removeInterruptHandler 9)) := by
  have h1 : vectorStep booted (.registerIRQ 1 3 0) (exec booted (.registerIRQ 1 3 0)) := rfl
  have h2 : vectorStep (exec booted (.registerIRQ 1 3 0)) (.removeInterruptHandler 9)
      (exec (exec booted (.registerIRQ 1 3 0)) (.removeInterruptHandler 9)) := rfl
  have hr : Reach vectorStep Start (exec booted (.registerIRQ 1 3 0)) := .next _ _ _ (.start _ booted_start) h1
  refine ⟨(intact_iff hr).mpr ⟨by decide, by decide, nofun⟩, fun hi => ?_⟩
  have hk := ((intact_iff (.next _ _ _ hr h2)).mp hi).2.2 9 List.mem_cons_self
  revert hk
  decide

end Vectors

end SimpleOS2
