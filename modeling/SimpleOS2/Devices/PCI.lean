/-
  File:      SimpleOS2/Devices/PCI.lean
  Subject:   THE SCAN OF THE PCI BUSES (devices/pci/PCI.cpp).

  The configuration space is memory, read and written at addresses. `CheckFunction` records a device with
  its base address registers and its MSI capability; `ProbeDevices` looks for a driver for every device.

  * `readConfigDWord`, `barLoop`, `capWalk`, `checkFunction`, `checkGroup`, `findDriver`, `probeDevices` --
    the functions;
  * `DriverInfo.Matches`, `firstMatch` -- the driver that a device should get; `find_driver` -- it gets it
    only where that is none;
  * `Bar` -- a base address register as the PCI specification encodes it, one kind per constructor;
    `Coincides` -- where the other type number makes no difference; `check_function_bars` -- only there the
    entries are right.
-/
import Mathlib.Data.List.Basic
import Mathlib.Tactic.IntervalCases
import SimpleOS2.Lib.Run

namespace SimpleOS2

open Lib

namespace PCI

/-! ## 1. The configuration space -/

/-- The bytes at the kernel's addresses. -/
abbrev Memory := BitVec 64 → BitVec 8

/-- A little-endian `uint32`, at any address. -/
def readDWord (mem : Memory) (addr : BitVec 64) : BitVec 32 :=
  mem (addr + 3) ++ mem (addr + 2) ++ mem (addr + 1) ++ mem addr

/-- `struct Group`. -/
structure Group where
  id : BitVec 16
  baseAddr : BitVec 64
  busStart : BitVec 8
  busEnd : BitVec 8

/-- `GetMemBase`. -/
def getMemBase (group : Group) (bus device func : BitVec 32) : BitVec 64 :=
  group.baseAddr + (bus.setWidth 64 <<< 20) + (device.setWidth 64 <<< 15) + (func.setWidth 64 <<< 12)

/-- `ReadConfigDWord` of a group. -/
def readConfigDWord (mem : Memory) (group : Group) (bus slot func offs : BitVec 32) : BitVec 32 :=
  readDWord mem (getMemBase group bus slot func + offs.setWidth 64)

/-- `struct Device`; `BARs` are the first `numBARs` entries of the array. -/
structure Device where
  group : BitVec 16
  bus : BitVec 8
  device : BitVec 8
  function : BitVec 8
  vendorID : BitVec 16
  deviceID : BitVec 16
  classCode : BitVec 8
  subclassCode : BitVec 8
  progIf : BitVec 8
  BARs : List (BitVec 64)
  memBase : BitVec 64
  msi : Option (BitVec 64)

def Device.numBARs (dev : Device) : Nat := dev.BARs.length

/-- `struct DriverInfo`. -/
structure DriverInfo where
  vendorID : BitVec 16
  deviceID : BitVec 16
  classCode : BitVec 8
  subclassCode : BitVec 8
  progIf : BitVec 8

/-- `struct DriverReg`; a factory is a pointer to a function, `F`. -/
structure DriverReg (F : Type) where
  info : DriverInfo
  factory : F

/-- The memory, `g_Groups`, `g_Devices`, `g_Drivers` and the calls of factories made so far. -/
structure State (F : Type) where
  mem : Memory
  groups : List Group
  devices : List Device
  drivers : List (DriverReg F)
  started : List (F × Device)

variable {F : Type}

/-! ## 2. One function of a device -/

/-- The loop over the registers from slot `i` on, of at most `turns` turns: the entries it appends to
    `dev.BARs`. `bar i` is the register at `0x10 + i * 4`. -/
def barLoop (bar : Nat → BitVec 32) : (turns i : Nat) → List (BitVec 64)
  | 0, _ => []
  | turns + 1, i =>
      if i < 6 then
        if bar i &&& 0x1 ≠ 0 then
          (bar i &&& 0xFFFFFFFC).setWidth 64 :: barLoop bar turns (i + 1)
        else if (bar i &&& 0x7) >>> 1 = 0 then
          (bar i &&& 0xFFFFFFF0).setWidth 64 :: barLoop bar turns (i + 1)
        else if (bar i &&& 0x7) >>> 1 = 1 then
          ((bar (i + 1)).setWidth 64 <<< 32 ||| (bar i &&& 0xFFFFFFF0).setWidth 64)
            :: barLoop bar turns (i + 2)
        else barLoop bar turns (i + 1)
      else []

/-- `CAP_MSI`, `MSI_CONTROL_64BIT`. -/
def CAP_MSI : BitVec 8 := 0x05
def MSI_CONTROL_64BIT : BitVec 16 := 0x80

/-- `CapMSI::control`. -/
def control (mem : Memory) (cap : BitVec 64) : BitVec 16 := mem (cap + 3) ++ mem (cap + 2)

/-- `addressHigh = 0`. -/
def clearAddressHigh (mem : Memory) (cap : BitVec 64) : Memory := fun a =>
  if a = cap + 8 ∨ a = cap + 9 ∨ a = cap + 10 ∨ a = cap + 11 then 0 else mem a

/-- What one turn of the capability loop does to the memory and to `dev.msi`. -/
def capTurn (mem : Memory) (cap : BitVec 64) (msi : Option (BitVec 64)) : Memory × Option (BitVec 64) :=
  if mem cap = CAP_MSI then
    (if control mem cap &&& MSI_CONTROL_64BIT ≠ 0 then clearAddressHigh mem cap else mem, some cap)
  else (mem, msi)

/-- The `while(true)` over the capabilities. -/
def capWalk (memBase : BitVec 64) : (fuel : Nat) → Memory → (capPtr : BitVec 8) → Option (BitVec 64) →
    Option (Memory × Option (BitVec 64))
  | 0, _, _, _ => none
  | fuel + 1, mem, capPtr, msi =>
      let cap := memBase + capPtr.setWidth 64
      let r := capTurn mem cap msi
      if r.1 (cap + 1) = 0 then some r else capWalk memBase fuel r.1 (r.1 (cap + 1)) r.2

/-- The part of `CheckFunction` behind `dev.msi = nullptr`. -/
def findCaps (fuel : Nat) (mem : Memory) (group : Group) (bus device func : BitVec 32) :
    Option (Memory × Option (BitVec 64)) :=
  if (readConfigDWord mem group bus device func 0x06).setWidth 8 &&& (0x10 : BitVec 8) ≠ 0 then
    capWalk (getMemBase group bus device func) fuel mem
      ((readConfigDWord mem group bus device func 0x34).setWidth 8) none
  else some (mem, none)

/-- The fields that `CheckFunction` fills before it looks for the capabilities. -/
def newDevice (mem : Memory) (group : Group) (bus device func : BitVec 32) : Device where
  group := group.id
  bus := bus.setWidth 8
  device := device.setWidth 8
  function := func.setWidth 8
  vendorID := (readConfigDWord mem group bus device func 0).setWidth 16
  deviceID := (readConfigDWord mem group bus device func 0 >>> 16).setWidth 16
  classCode := (readConfigDWord mem group bus device func 0x08 >>> 24).setWidth 8
  subclassCode := (readConfigDWord mem group bus device func 0x08 >>> 16).setWidth 8
  progIf := (readConfigDWord mem group bus device func 0x08 >>> 8).setWidth 8
  BARs := barLoop (fun i => readConfigDWord mem group bus device func (0x10 + BitVec.ofNat 32 i * 4)) 6 0
  memBase := getMemBase group bus device func
  msi := none

/-- `CheckFunction`. -/
def checkFunction (fuel : Nat) (group : Group) (bus device func : BitVec 32) (s : State F) :
    Option (Bool × State F) :=
  if readConfigDWord s.mem group bus device func 0 &&& 0xFFFF = 0xFFFF then some (false, s)
  else
    (findCaps fuel s.mem group bus device func).map fun r =>
      (true, { s with
        mem := r.1
        devices := s.devices ++ [{ newDevice s.mem group bus device func with msi := r.2 }] })

/-! ## 3. The scan and the drivers -/

/-- `CheckDevice`. -/
def checkDevice (fuel : Nat) (group : Group) (bus device : BitVec 32) (s : State F) :
    Option (Bool × State F) :=
  (checkFunction fuel group bus device 0 s).bind fun r =>
    if r.1 then
      -- the header type of function 0: more than one function
      if (readConfigDWord r.2.mem group bus device 0 0x0E).setWidth 16 &&& (0x80 : BitVec 16) ≠ 0 then
        (forLoop (fun i s => (checkFunction fuel group bus device (BitVec.ofNat 32 i) s).map (·.2)) 7 1 r.2).map
          fun s => (true, s)
      else some (true, r.2)
    else some (false, r.2)

/-- `CheckGroup`. -/
def checkGroup (fuel : Nat) (group : Group) (s : State F) : Option (State F) :=
  forLoop (fun i s =>
      forLoop (fun j s => (checkDevice fuel group (BitVec.ofNat 32 i) (BitVec.ofNat 32 j) s).map (·.2)) 32 0 s)
    (group.busEnd.toNat + 1 - group.busStart.toNat) group.busStart.toNat s

/-- One driver of the list in `FindDriver`; `none` is `continue`. -/
def findTurn (reg : DriverReg F) (dev : Device) : Option F :=
  if reg.info.vendorID ≠ 0xFFFF ∧ reg.info.vendorID ≠ dev.vendorID then none
  else
    -- the `if` on `deviceID` guards an empty statement; the `continue` behind it is always taken
    none

/-- `FindDriver`; `none` is `nullptr`. -/
def findDriver : List (DriverReg F) → Device → Option F
  | [], _ => none
  | reg :: drivers, dev =>
      match findTurn reg dev with
      | some factory => some factory
      | none => findDriver drivers dev

/-- `RegisterDriver`. -/
def registerDriver (s : State F) (info : DriverInfo) (factory : F) : State F :=
  { s with drivers := s.drivers ++ [⟨info, factory⟩] }

/-- `struct MCFGEntry`. -/
structure MCFGEntry where
  base : BitVec 64
  groupID : BitVec 16
  busStart : BitVec 8
  busEnd : BitVec 8

/-- The first loop of `ProbeDevices`; `highMemBase` is what `PhysToKernelPtr` adds. -/
def scanGroups (fuel : Nat) (highMemBase : BitVec 64) (mcfg : List MCFGEntry) (s : State F) :
    Option (State F) :=
  mcfg.foldlM (fun s e =>
    let group : Group := ⟨e.groupID, e.base + highMemBase, e.busStart, e.busEnd⟩
    checkGroup fuel group { s with groups := s.groups ++ [group] }) s

/-- The second loop: a device and the call of its factory. -/
def startDriver (s : State F) (dev : Device) : State F :=
  match findDriver s.drivers dev with
  | some factory => { s with started := s.started ++ [(factory, dev)] }
  | none => s

/-- `ProbeDevices`. -/
def probeDevices (fuel : Nat) (highMemBase : BitVec 64) (mcfg : List MCFGEntry) (s : State F) :
    Option (State F) :=
  (scanGroups fuel highMemBase mcfg s).map fun s => s.devices.foldl startDriver s

/-! ## 4. The driver of a device -/

/-- A field of a driver that is the wildcard or the device's value. -/
def fieldMatches {w : Nat} (wildcard driver dev : BitVec w) : Prop := driver = wildcard ∨ driver = dev

instance {w : Nat} (a b c : BitVec w) : Decidable (fieldMatches a b c) :=
  inferInstanceAs (Decidable (b = a ∨ b = c))

/-- The driver is one for the device. -/
structure DriverInfo.Matches (info : DriverInfo) (dev : Device) : Prop where
  vendorID : fieldMatches 0xFFFF info.vendorID dev.vendorID
  deviceID : fieldMatches 0xFFFF info.deviceID dev.deviceID
  classCode : fieldMatches 0xFF info.classCode dev.classCode
  subclassCode : fieldMatches 0xFF info.subclassCode dev.subclassCode
  progIf : fieldMatches 0xFF info.progIf dev.progIf

theorem DriverInfo.matches_iff (info : DriverInfo) (dev : Device) :
    info.Matches dev ↔ fieldMatches 0xFFFF info.vendorID dev.vendorID ∧
      fieldMatches 0xFFFF info.deviceID dev.deviceID ∧ fieldMatches 0xFF info.classCode dev.classCode ∧
      fieldMatches 0xFF info.subclassCode dev.subclassCode ∧ fieldMatches 0xFF info.progIf dev.progIf :=
  ⟨fun h => ⟨h.1, h.2, h.3, h.4, h.5⟩, fun h => ⟨h.1, h.2.1, h.2.2.1, h.2.2.2.1, h.2.2.2.2⟩⟩

instance (info : DriverInfo) (dev : Device) : Decidable (info.Matches dev) :=
  decidable_of_iff _ (info.matches_iff dev).symm

/-- The factory of the first driver registered for the device. -/
def firstMatch (drivers : List (DriverReg F)) (dev : Device) : Option F :=
  (drivers.find? fun reg => reg.info.Matches dev).map (·.factory)

theorem firstMatch_none_iff {drivers : List (DriverReg F)} {dev : Device} :
    firstMatch drivers dev = none ↔ ∀ reg ∈ drivers, ¬ reg.info.Matches dev := by
  simp [firstMatch]

/-- Registration order: a driver registered later is asked later. -/
theorem firstMatch_registerDriver (s : State F) (info : DriverInfo) (factory : F) (dev : Device) :
    firstMatch (registerDriver s info factory).drivers dev =
      (firstMatch s.drivers dev).or (if info.Matches dev then some factory else none) := by
  simp only [firstMatch, registerDriver, List.find?_append, List.find?_cons, List.find?_nil]
  cases h : s.drivers.find? fun reg => reg.info.Matches dev with
  | some reg => rfl
  | none => split_ifs with hm <;> simp [hm]

theorem findDriver_none (drivers : List (DriverReg F)) (dev : Device) : findDriver drivers dev = none := by
  induction drivers with
  | nil => rfl
  | cons reg drivers ih =>
      have ht : findTurn reg dev = none := by
        unfold findTurn
        split_ifs <;> rfl
      simp only [findDriver, ht, ih]

/-- The calls that the devices should lead to. -/
def expected (drivers : List (DriverReg F)) (devices : List Device) : List (F × Device) :=
  devices.filterMap fun dev => (firstMatch drivers dev).map fun factory => (factory, dev)

theorem expected_nil_iff {drivers : List (DriverReg F)} {devices : List Device} :
    expected drivers devices = [] ↔ ∀ dev ∈ devices, ∀ reg ∈ drivers, ¬ reg.info.Matches dev := by
  simp only [expected, List.filterMap_eq_nil_iff, Option.map_eq_none_iff, firstMatch_none_iff]

theorem startDriver_foldl (devices : List Device) (s : State F) : devices.foldl startDriver s = s := by
  induction devices with
  | nil => rfl
  | cons dev devices ih =>
      have hs : startDriver s dev = s := by
        unfold startDriver
        rw [findDriver_none]
      rw [List.foldl_cons, hs, ih]

/-- What the scan leaves alone. -/
def Unstarted (s s' : State F) : Prop := s'.drivers = s.drivers ∧ s'.started = s.started

theorem Unstarted.trans {s s1 s2 : State F} (h : Unstarted s s1) (h' : Unstarted s1 s2) : Unstarted s s2 :=
  ⟨h'.1.trans h.1, h'.2.trans h.2⟩

theorem checkFunction_unstarted {fuel : Nat} {group : Group} {bus device func : BitVec 32} {s : State F}
    {r : Bool × State F} (h : checkFunction fuel group bus device func s = some r) : Unstarted s r.2 := by
  unfold checkFunction at h
  split_ifs at h
  · obtain rfl := Option.some.inj h
    exact ⟨rfl, rfl⟩
  · obtain ⟨_, -, rfl⟩ := Option.map_eq_some_iff.mp h
    exact ⟨rfl, rfl⟩

theorem forLoop_unstarted {body : Nat → State F → Option (State F)}
    (hb : ∀ i s s', body i s = some s' → Unstarted s s') {count start : Nat} {s s' : State F}
    (h : forLoop body count start s = some s') : Unstarted s s' :=
  forLoop_keeps (B := fun x => Unstarted s x) (fun i x x' hx hr => hx.trans (hb i x x' hr)) ⟨rfl, rfl⟩ h

theorem checkDevice_unstarted {fuel : Nat} {group : Group} {bus device : BitVec 32} {s : State F}
    {r : Bool × State F} (h : checkDevice fuel group bus device s = some r) : Unstarted s r.2 := by
  obtain ⟨r1, h1, h2⟩ := Option.bind_eq_some_iff.mp h
  have h3 := checkFunction_unstarted h1
  split_ifs at h2
  · obtain ⟨s2, h4, rfl⟩ := Option.map_eq_some_iff.mp h2
    refine h3.trans (forLoop_unstarted ?_ h4)
    intro i x x' hx
    obtain ⟨r2, h5, rfl⟩ := Option.map_eq_some_iff.mp hx
    exact checkFunction_unstarted h5
  · obtain rfl := Option.some.inj h2
    exact h3
  · obtain rfl := Option.some.inj h2
    exact h3

theorem checkGroup_unstarted {fuel : Nat} {group : Group} {s s' : State F}
    (h : checkGroup fuel group s = some s') : Unstarted s s' := by
  refine forLoop_unstarted (fun i x x' hx => forLoop_unstarted ?_ hx) h
  intro j y y' hy
  obtain ⟨r, hr, rfl⟩ := Option.map_eq_some_iff.mp hy
  exact checkDevice_unstarted hr

theorem scanGroups_unstarted {fuel : Nat} {highMemBase : BitVec 64} {mcfg : List MCFGEntry} {s s' : State F}
    (h : scanGroups fuel highMemBase mcfg s = some s') : Unstarted s s' := by
  induction mcfg generalizing s with
  | nil =>
      obtain rfl := Option.some.inj h
      exact ⟨rfl, rfl⟩
  | cons e mcfg ih =>
      obtain ⟨s1, h1, h2⟩ := Option.bind_eq_some_iff.mp h
      exact (checkGroup_unstarted h1).trans (ih h2)

/-- **A device gets the first driver registered for it only where there is none**: `FindDriver` never
    returns a factory, and after the scan `ProbeDevices` makes the calls it should exactly if no driver is
    one for a device found. -/
theorem find_driver (s : State F) :
    (∀ dev, findDriver s.drivers dev = firstMatch s.drivers dev ↔
      ∀ reg ∈ s.drivers, ¬ reg.info.Matches dev) ∧
    ∀ fuel highMemBase mcfg scanned, scanGroups fuel highMemBase mcfg s = some scanned →
      ∃ s', probeDevices fuel highMemBase mcfg s = some s' ∧
        (s'.started = s.started ++ expected s.drivers scanned.devices ↔
          ∀ dev ∈ scanned.devices, ∀ reg ∈ s.drivers, ¬ reg.info.Matches dev) := by
  constructor
  · intro dev
    rw [findDriver_none, eq_comm, firstMatch_none_iff]
  · intro fuel highMemBase mcfg scanned h
    refine ⟨scanned, ?_, ?_⟩
    · simp only [probeDevices, h, Option.map_some, startDriver_foldl]
    · rw [(scanGroups_unstarted h).2, ← expected_nil_iff, List.self_eq_append_right]

/-- A bus with one network card in its first slot: bytes of ones where there is no device. -/
def oneCard : Memory := fun a =>
  if a.toNat < 4096 then
    ([0x86, 0x80, 0x0E, 0x10, 0, 0, 0, 0, 0, 0, 0, 2] : List (BitVec 8)).getD a.toNat 0
  else 0xFF

/-- A driver for graphics cards and no other. -/
def graphicsOnly : State Nat := ⟨oneCard, [], [], [⟨⟨0xFFFF, 0xFFFF, 3, 0xFF, 0xFF⟩, 1⟩], []⟩

/-- The scan finds the network card, and nothing is started, as it should be. -/
theorem find_driver_graphics :
    ∃ scanned, scanGroups 1 0 [⟨0, 0, 0, 0⟩] graphicsOnly = some scanned ∧ scanned.devices.length = 1 ∧
      ∃ s', probeDevices 1 0 [⟨0, 0, 0, 0⟩] graphicsOnly = some s' ∧
        (s'.started = [] ++ expected graphicsOnly.drivers scanned.devices ↔
          ∀ dev ∈ scanned.devices, ∀ reg ∈ graphicsOnly.drivers, ¬ reg.info.Matches dev) := by
  have hsome : ((scanGroups 1 0 [⟨0, 0, 0, 0⟩] graphicsOnly).map fun s => s.devices.length) = some 1 := by
    decide +kernel
  obtain ⟨scanned, hs, hl⟩ := Option.map_eq_some_iff.mp hsome
  exact ⟨scanned, hs, hl, (find_driver graphicsOnly).2 1 0 [⟨0, 0, 0, 0⟩] scanned hs⟩

/-- A device and a driver for every device. -/
def someDevice : Device := ⟨0, 0, 3, 0, 0x8086, 0x100E, 2, 0, 0, [], 0, none⟩

def anyDevice : DriverInfo := ⟨0xFFFF, 0xFFFF, 0xFF, 0xFF, 0xFF⟩

/-- The driver for every device is not found. -/
theorem driver_missed :
    ¬ ∀ (drivers : List (DriverReg Nat)) (dev : Device), findDriver drivers dev = firstMatch drivers dev := by
  intro h
  have := h [⟨anyDevice, 1⟩] someDevice
  revert this
  decide

/-! ## 5. Base address registers -/

/-- A base address register as the PCI specification encodes it: bit 0 for I/O, else the type in the bits
    1 and 2. -/
inductive Bar where
  | io (reg : BitVec 32) (kind : reg &&& 0x1 ≠ 0)
  | mem32 (reg : BitVec 32) (kind : reg &&& 0x7 = 0)
  | mem64 (lower upper : BitVec 32) (kind : lower &&& 0x7 = 4)

/-- The registers it takes. -/
def Bar.regs : Bar → List (BitVec 32)
  | .io reg _ => [reg]
  | .mem32 reg _ => [reg]
  | .mem64 lower upper _ => [lower, upper]

/-- A 64-bit address of two halves. -/
def wide (upper lower : BitVec 32) : BitVec 64 := upper.setWidth 64 <<< 32 ||| lower.setWidth 64

/-- The address it holds. -/
def Bar.entry : Bar → BitVec 64
  | .io reg _ => (reg &&& 0xFFFFFFFC).setWidth 64
  | .mem32 reg _ => (reg &&& 0xFFFFFFF0).setWidth 64
  | .mem64 lower upper _ => wide upper (lower &&& 0xFFFFFFF0)

/-- Every 64-bit register pair is zero, or it is the last one, its upper half reads as type 1 and the same
    address comes out of the register behind it. -/
def Coincides (next : BitVec 32) : List Bar → Prop
  | [] => True
  | .io _ _ :: bars => Coincides next bars
  | .mem32 _ _ :: bars => Coincides next bars
  | .mem64 lower upper _ :: bars =>
      (upper = 0 ∧ lower &&& 0xFFFFFFF0 = 0 ∨
        bars = [] ∧ upper &&& 0x7 = 2 ∧ next = upper ∧ lower &&& 0xFFFFFFF0 = upper &&& 0xFFFFFFF0) ∧
        Coincides next bars

theorem toNat_wide (upper lower : BitVec 32) :
    (wide upper lower).toNat = upper.toNat * 2 ^ 32 + lower.toNat := by
  have hu := upper.isLt
  have hl := lower.isLt
  have hs : (upper.setWidth 64 <<< 32).toNat = upper.toNat <<< 32 := by
    rw [BitVec.toNat_shiftLeft, BitVec.toNat_setWidth, Nat.mod_eq_of_lt (by omega : upper.toNat < 2 ^ 64),
      Nat.shiftLeft_eq, Nat.mod_eq_of_lt (by omega)]
  have hz : (lower.setWidth 64).toNat = lower.toNat := by
    rw [BitVec.toNat_setWidth, Nat.mod_eq_of_lt (by omega)]
  rw [wide, BitVec.toNat_or, hs, hz, ← Nat.shiftLeft_add_eq_or_of_lt hl, Nat.shiftLeft_eq]

theorem wide_inj {upper lower upper' lower' : BitVec 32} :
    wide upper lower = wide upper' lower' ↔ upper = upper' ∧ lower = lower' := by
  have hl := lower.isLt
  have hl' := lower'.isLt
  rw [← BitVec.toNat_inj, toNat_wide, toNat_wide, ← BitVec.toNat_inj, ← BitVec.toNat_inj]
  omega

/-- A 32-bit address as one of two halves. -/
theorem setWidth_wide (lower : BitVec 32) : lower.setWidth 64 = wide 0 lower := by
  have hl := lower.isLt
  apply BitVec.eq_of_toNat_eq
  rw [toNat_wide, BitVec.toNat_setWidth, Nat.mod_eq_of_lt (by omega)]
  simp

theorem and_one (reg : BitVec 32) : reg &&& 0x1 = reg &&& 0x7 &&& 0x1 := by
  rw [BitVec.and_assoc]
  rfl

/-- The kinds of registers that the loop tells apart. -/
theorem reg_cases (reg : BitVec 32) :
    reg &&& 0x1 ≠ 0 ∨ reg &&& 0x7 = 0 ∨ reg &&& 0x7 = 2 ∨ reg &&& 0x7 = 4 ∨ reg &&& 0x7 = 6 := by
  obtain ⟨k, hk, hr⟩ : ∃ k < 8, reg &&& 0x7 = BitVec.ofNat 32 k := by
    refine ⟨reg.toNat % 8, Nat.mod_lt _ (by decide), BitVec.eq_of_toNat_eq ?_⟩
    rw [BitVec.toNat_and, BitVec.toNat_ofNat]
    exact (Nat.and_two_pow_sub_one_eq_mod reg.toNat 3).trans (by omega)
  rw [and_one, hr]
  interval_cases k <;> decide

section Loop

variable {bar : Nat → BitVec 32} {turns i : Nat}

theorem barLoop_end (hi : ¬ i < 6) : barLoop bar turns i = [] := by
  cases turns with
  | zero => rfl
  | succ turns => rw [barLoop, if_neg hi]

theorem barLoop_io (hi : i < 6) (h : bar i &&& 0x1 ≠ 0) :
    barLoop bar (turns + 1) i = (bar i &&& 0xFFFFFFFC).setWidth 64 :: barLoop bar turns (i + 1) := by
  rw [barLoop, if_pos hi, if_pos h]

theorem barLoop_mem32 (hi : i < 6) (h : bar i &&& 0x7 = 0) :
    barLoop bar (turns + 1) i = (bar i &&& 0xFFFFFFF0).setWidth 64 :: barLoop bar turns (i + 1) := by
  have h1 : ¬ bar i &&& 0x1 ≠ 0 := by rw [and_one, h]; decide
  rw [barLoop, if_pos hi, if_neg h1, if_pos (by rw [h]; rfl)]

theorem barLoop_one (hi : i < 6) (h : bar i &&& 0x7 = 2) :
    barLoop bar (turns + 1) i =
      wide (bar (i + 1)) (bar i &&& 0xFFFFFFF0) :: barLoop bar turns (i + 2) := by
  have h1 : ¬ bar i &&& 0x1 ≠ 0 := by rw [and_one, h]; decide
  rw [barLoop, if_pos hi, if_neg h1, if_neg (by rw [h]; decide), if_pos (by rw [h]; rfl)]
  rfl

theorem barLoop_skip (hi : i < 6) (h : bar i &&& 0x7 = 4 ∨ bar i &&& 0x7 = 6) :
    barLoop bar (turns + 1) i = barLoop bar turns (i + 1) := by
  have h1 : ¬ bar i &&& 0x1 ≠ 0 := by rw [and_one]; rcases h with h | h <;> rw [h] <;> decide
  have h2 : ¬ (bar i &&& 0x7) >>> 1 = 0 := by rcases h with h | h <;> rw [h] <;> decide
  have h3 : ¬ (bar i &&& 0x7) >>> 1 = 1 := by rcases h with h | h <;> rw [h] <;> decide
  rw [barLoop, if_pos hi, if_neg h1, if_neg h2, if_neg h3]

end Loop

/-- The registers from slot `i` on. -/
def Laid (bar : Nat → BitVec 32) : (i : Nat) → List (BitVec 32) → Prop
  | i, [] => i = 6
  | i, reg :: regs => i < 6 ∧ bar i = reg ∧ Laid bar (i + 1) regs

theorem laid_range' (bar : Nat → BitVec 32) (n i : Nat) (h : i + n = 6) :
    Laid bar i ((List.range' i n).map bar) := by
  induction n generalizing i with
  | zero => exact h
  | succ n ih =>
      rw [List.range'_succ, List.map_cons]
      exact ⟨by omega, rfl, ih (i + 1) (by omega)⟩

/-- One register that may be misread, and the entries of what follows it. -/
theorem barLoop_length_cons {bar : Nat → BitVec 32} {reg : BitVec 32} {regs : List (BitVec 32)} {i k : Nat}
    (hl : Laid bar i (reg :: regs)) (h1 : ∀ turns, (barLoop bar turns (i + 1)).length ≤ k)
    (h2 : ∀ turns, (barLoop bar turns (i + 2)).length ≤ k) (turns : Nat) :
    (barLoop bar turns i).length ≤ k + 1 := by
  obtain ⟨hi, -, -⟩ := hl
  cases turns with
  | zero => exact Nat.zero_le _
  | succ turns =>
      rcases reg_cases (bar i) with h | h | h | h | h
      · rw [barLoop_io hi h]
        exact Nat.succ_le_succ (h1 turns)
      · rw [barLoop_mem32 hi h]
        exact Nat.succ_le_succ (h1 turns)
      · rw [barLoop_one hi h]
        exact Nat.succ_le_succ (h2 turns)
      · rw [barLoop_skip hi (Or.inl h)]
        exact Nat.le_succ_of_le (h1 turns)
      · rw [barLoop_skip hi (Or.inr h)]
        exact Nat.le_succ_of_le (h1 turns)

/-- **No more entries than addresses**, also from the upper half of a register pair on. -/
theorem barLoop_length (bar : Nat → BitVec 32) (bars : List Bar) :
    (∀ i, Laid bar i (bars.flatMap Bar.regs) → ∀ turns, (barLoop bar turns i).length ≤ bars.length) ∧
    (∀ i reg, Laid bar i (reg :: bars.flatMap Bar.regs) →
      ∀ turns, (barLoop bar turns i).length ≤ bars.length + 1) := by
  induction bars with
  | nil =>
      have hend : ∀ i, 6 ≤ i → ∀ turns, (barLoop bar turns i).length ≤ 0 := by
        intro i hi turns
        rw [barLoop_end (by omega)]
        exact Nat.le_refl 0
      refine ⟨fun i h => hend i (Nat.le_of_eq (show i = 6 from h).symm), fun i reg h => ?_⟩
      have h6 : i + 1 = 6 := h.2.2
      exact barLoop_length_cons h (hend _ (by omega)) (hend _ (by omega))
  | cons b bars ih =>
      obtain ⟨ih1, ih2⟩ := ih
      have first : ∀ i, Laid bar i ((b :: bars).flatMap Bar.regs) →
          ∀ turns, (barLoop bar turns i).length ≤ (b :: bars).length := by
        intro i h turns
        cases turns with
        | zero => exact Nat.zero_le _
        | succ turns =>
            cases b with
            | io reg kind =>
                obtain ⟨hi, hr, h⟩ := h
                rw [barLoop_io hi (hr ▸ kind)]
                exact Nat.succ_le_succ (ih1 (i + 1) h turns)
            | mem32 reg kind =>
                obtain ⟨hi, hr, h⟩ := h
                rw [barLoop_mem32 hi (hr ▸ kind)]
                exact Nat.succ_le_succ (ih1 (i + 1) h turns)
            | mem64 lower upper kind =>
                obtain ⟨hi, hr, h⟩ := h
                rw [barLoop_skip hi (Or.inl (hr ▸ kind))]
                exact ih2 (i + 1) upper h turns
      refine ⟨first, fun i reg h => barLoop_length_cons h (first (i + 1) h.2.2) ?_⟩
      -- two registers further the loop stands behind `b` or in front of its upper half
      cases b with
      | io reg kind => exact fun turns => Nat.le_succ_of_le (ih1 (i + 2) h.2.2.2.2 turns)
      | mem32 reg kind => exact fun turns => Nat.le_succ_of_le (ih1 (i + 2) h.2.2.2.2 turns)
      | mem64 lower upper kind => exact ih2 (i + 2) upper h.2.2.2.2

/-- No register pair and no single register begins with type 1. -/
theorem first_reg_ne {bar : Nat → BitVec 32} {b : Bar} {bars : List Bar} {i : Nat}
    (h : Laid bar i ((b :: bars).flatMap Bar.regs)) : bar i &&& 0x7 ≠ 2 := by
  intro h2
  cases b with
  | io reg kind =>
      obtain ⟨-, rfl, -⟩ := h
      rw [and_one, h2] at kind
      exact kind (by decide)
  | mem32 reg kind =>
      obtain ⟨-, rfl, -⟩ := h
      rw [h2] at kind
      exact absurd kind (by decide)
  | mem64 lower upper kind =>
      obtain ⟨-, rfl, -⟩ := h
      rw [h2] at kind
      exact absurd kind (by decide)

/-- The entries of an upper half that is read as a register of its own, against the entry of its pair. -/
theorem barLoop_pair {bar : Nat → BitVec 32} {bars : List Bar} {upper lower : BitVec 32} {turns i : Nat}
    (h : Laid bar i (upper :: bars.flatMap Bar.regs))
    (ih : barLoop bar turns (i + 1) = bars.map Bar.entry ↔ Coincides (bar 6) bars) :
    barLoop bar (turns + 1) i = wide upper (lower &&& 0xFFFFFFF0) :: bars.map Bar.entry ↔
      (upper = 0 ∧ lower &&& 0xFFFFFFF0 = 0 ∨
        bars = [] ∧ upper &&& 0x7 = 2 ∧ bar 6 = upper ∧ lower &&& 0xFFFFFFF0 = upper &&& 0xFFFFFFF0) ∧
        Coincides (bar 6) bars := by
  obtain ⟨hi, rfl, hl⟩ := h
  have zero : (0 : BitVec 32) &&& 0x7 = 0 := by decide
  rcases reg_cases (bar i) with hk | hk | hk | hk | hk
  · -- the lower half of the address would be the register of an I/O address, and that is not zero
    refine iff_of_false ?_ ?_
    · rw [barLoop_io hi hk, List.cons.injEq, setWidth_wide, wide_inj]
      intro h
      rw [← h.1.1] at hk
      exact hk (by decide)
    · intro h
      rcases h.1 with ⟨h0, -⟩ | ⟨-, h2, -⟩
      · rw [h0] at hk
        exact hk (by decide)
      · rw [and_one, h2] at hk
        exact hk (by decide)
  · rw [barLoop_mem32 hi hk, List.cons.injEq, setWidth_wide, wide_inj, ih]
    refine and_congr_left fun _ => ⟨fun h => Or.inl ⟨h.1.symm, ?_⟩, fun h => ?_⟩
    · rw [← h.2, ← h.1]
      decide
    · rcases h with ⟨h0, hl0⟩ | ⟨-, h2, -⟩
      · rw [h0, hl0]
        exact ⟨rfl, by decide⟩
      · rw [hk] at h2
        exact absurd h2 (by decide)
  · rw [barLoop_one hi hk, List.cons.injEq, wide_inj]
    constructor
    · intro h
      cases bars with
      | nil =>
          have h6 : i + 1 = 6 := hl
          exact ⟨Or.inr ⟨rfl, hk, h6 ▸ h.1.1, h.1.2.symm⟩, trivial⟩
      | cons b bars =>
          -- the register behind would be of type 1
          have h2 : bar (i + 1) &&& 0x7 = 2 := by rw [h.1.1, hk]
          exact absurd h2 (first_reg_ne hl)
    · intro h
      rcases h.1 with ⟨h0, -⟩ | ⟨rfl, -, hn, he⟩
      · rw [h0, zero] at hk
        exact absurd hk (by decide)
      · have h6 : i + 1 = 6 := hl
        rw [barLoop_end (by omega), h6]
        exact ⟨⟨hn, he.symm⟩, rfl⟩
  all_goals
    -- nothing is recorded for it, and then there are too few entries
    refine iff_of_false ?_ ?_
    · rw [barLoop_skip hi (by first | exact Or.inl hk | exact Or.inr hk)]
      intro h
      have hlen := (barLoop_length bar bars).1 (i + 1) hl turns
      rw [h, List.length_cons, List.length_map] at hlen
      omega
    · intro h
      rcases h.1 with ⟨h0, -⟩ | ⟨-, h2, -⟩
      · rw [h0, zero] at hk
        exact absurd hk (by decide)
      · rw [hk] at h2
        exact absurd h2 (by decide)

/-- **The loop records what the registers hold only where the type number makes no difference.** -/
theorem barLoop_iff {bar : Nat → BitVec 32} {bars : List Bar} {turns i : Nat}
    (h : Laid bar i (bars.flatMap Bar.regs)) (ht : 6 ≤ turns + i) :
    barLoop bar turns i = bars.map Bar.entry ↔ Coincides (bar 6) bars := by
  induction bars generalizing turns i with
  | nil =>
      have h6 : i = 6 := h
      rw [barLoop_end (by omega)]
      exact iff_of_true rfl trivial
  | cons b bars ih =>
      have hi : i < 6 := by cases b <;> exact h.1
      obtain ⟨turns, rfl⟩ : ∃ t, turns = t + 1 := ⟨turns - 1, by omega⟩
      cases b with
      | io reg kind =>
          obtain ⟨-, rfl, h⟩ := h
          rw [barLoop_io hi kind, List.map_cons, List.cons.injEq, ih h (by omega)]
          exact and_iff_right rfl
      | mem32 reg kind =>
          obtain ⟨-, rfl, h⟩ := h
          rw [barLoop_mem32 hi kind, List.map_cons, List.cons.injEq, ih h (by omega)]
          exact and_iff_right rfl
      | mem64 lower upper kind =>
          obtain ⟨-, rfl, h⟩ := h
          obtain ⟨turns, rfl⟩ : ∃ t, turns = t + 1 := ⟨turns - 1, by have := h.1; omega⟩
          rw [barLoop_skip hi (Or.inl kind)]
          exact barLoop_pair h (ih h.2.2 (by omega))

/-! ## 6. What `CheckFunction` records -/

/-- The register in slot `i` of a function; slot 6 is the register behind the six. -/
def barOf (mem : Memory) (group : Group) (bus device func : BitVec 32) (i : Nat) : BitVec 32 :=
  readConfigDWord mem group bus device func (0x10 + BitVec.ofNat 32 i * 4)

/-- The capability list comes to an end, with the writes that the walk makes on its way. -/
inductive CapsEnd (memBase : BitVec 64) : Memory → (capPtr : BitVec 8) → Prop where
  | last (mem : Memory) (capPtr : BitVec 8)
      (h : (capTurn mem (memBase + capPtr.setWidth 64) none).1 (memBase + capPtr.setWidth 64 + 1) = 0) :
      CapsEnd memBase mem capPtr
  | next (mem : Memory) (capPtr : BitVec 8)
      (hn : (capTurn mem (memBase + capPtr.setWidth 64) none).1 (memBase + capPtr.setWidth 64 + 1) ≠ 0)
      (h : CapsEnd memBase (capTurn mem (memBase + capPtr.setWidth 64) none).1
        ((capTurn mem (memBase + capPtr.setWidth 64) none).1 (memBase + capPtr.setWidth 64 + 1))) :
      CapsEnd memBase mem capPtr

/-- The function has no capability list or one that ends. -/
def CapsFinite (mem : Memory) (group : Group) (bus device func : BitVec 32) : Prop :=
  (readConfigDWord mem group bus device func 0x06).setWidth 8 &&& (0x10 : BitVec 8) ≠ 0 →
    CapsEnd (getMemBase group bus device func) mem
      ((readConfigDWord mem group bus device func 0x34).setWidth 8)

/-- The turn's writes do not depend on what was found before. -/
theorem capTurn_mem (mem : Memory) (cap : BitVec 64) (msi : Option (BitVec 64)) :
    (capTurn mem cap msi).1 = (capTurn mem cap none).1 := by
  unfold capTurn
  split_ifs <;> rfl

theorem capWalk_ends_iff {memBase : BitVec 64} {mem : Memory} {capPtr : BitVec 8} (msi : Option (BitVec 64)) :
    (∃ fuel r, capWalk memBase fuel mem capPtr msi = some r) ↔ CapsEnd memBase mem capPtr := by
  constructor
  · intro h
    obtain ⟨fuel, r, h⟩ := h
    induction fuel generalizing mem capPtr msi with
    | zero => cases h
    | succ fuel ih =>
        simp only [capWalk, capTurn_mem mem _ msi] at h
        split_ifs at h with h0
        · exact .last mem capPtr h0
        · exact .next mem capPtr h0 (ih _ h)
  · intro h
    induction h generalizing msi with
    | last mem capPtr h =>
        refine ⟨1, capTurn mem (memBase + capPtr.setWidth 64) msi, ?_⟩
        simp only [capWalk, capTurn_mem mem _ msi]
        rw [if_pos h]
    | next mem capPtr hn _ ih =>
        obtain ⟨fuel, r, hr⟩ := ih (capTurn mem (memBase + capPtr.setWidth 64) msi).2
        refine ⟨fuel + 1, r, ?_⟩
        simp only [capWalk, capTurn_mem mem _ msi]
        rw [if_neg hn]
        exact hr

theorem findCaps_ends_iff {mem : Memory} {group : Group} {bus device func : BitVec 32} :
    (∃ fuel r, findCaps fuel mem group bus device func = some r) ↔ CapsFinite mem group bus device func := by
  unfold findCaps CapsFinite
  by_cases hs : (readConfigDWord mem group bus device func 0x06).setWidth 8 &&& (0x10 : BitVec 8) ≠ 0
  · simp only [if_pos hs]
    rw [capWalk_ends_iff]
    exact ⟨fun h _ => h, fun h => h hs⟩
  · simp only [if_neg hs]
    exact iff_of_true ⟨0, _, rfl⟩ fun h => absurd h hs

/-- `CheckFunction` returns `true` and a device with these entries is the only new one. -/
def Records (s : State F) (group : Group) (bus device func : BitVec 32) (entries : List (BitVec 64)) : Prop :=
  ∃ fuel s' dev, checkFunction fuel group bus device func s = some (true, s') ∧
    s'.devices = s.devices ++ [dev] ∧ dev.BARs = entries

theorem records_iff {s : State F} {group : Group} {bus device func : BitVec 32} {entries : List (BitVec 64)}
    (hp : readConfigDWord s.mem group bus device func 0 &&& 0xFFFF ≠ 0xFFFF) :
    Records s group bus device func entries ↔
      CapsFinite s.mem group bus device func ∧ barLoop (barOf s.mem group bus device func) 6 0 = entries := by
  rw [← findCaps_ends_iff]
  unfold Records checkFunction
  simp only [if_neg hp]
  constructor
  · intro h
    obtain ⟨fuel, s', dev, h, hd, he⟩ := h
    obtain ⟨r, hr, h⟩ := Option.map_eq_some_iff.mp h
    obtain ⟨-, rfl⟩ := Prod.ext_iff.mp h
    obtain rfl := List.singleton_inj.mp (List.append_cancel_left hd)
    exact ⟨⟨fuel, r, hr⟩, he⟩
  · intro h
    obtain ⟨⟨fuel, r, hr⟩, he⟩ := h
    let dev := { newDevice s.mem group bus device func with msi := r.2 }
    refine ⟨fuel, { s with mem := r.1, devices := s.devices ++ [dev] }, dev, ?_, rfl, he⟩
    rw [hr]
    rfl

/-- **The entries of a function that is there are right exactly where the code's type number for 64-bit
    registers, 1 in place of 2, makes no difference** (and the capability list ends, without which nothing
    is recorded). -/
theorem check_function_bars (s : State F) (group : Group) (bus device func : BitVec 32) (bars : List Bar)
    (hp : readConfigDWord s.mem group bus device func 0 &&& 0xFFFF ≠ 0xFFFF)
    (hb : bars.flatMap Bar.regs = (List.range 6).map (barOf s.mem group bus device func)) :
    Records s group bus device func (bars.map Bar.entry) ↔
      CapsFinite s.mem group bus device func ∧ Coincides (barOf s.mem group bus device func 6) bars := by
  have hl : Laid (barOf s.mem group bus device func) 0 (bars.flatMap Bar.regs) := by
    rw [hb, List.range_eq_range']
    exact laid_range' _ 6 0 rfl
  rw [records_iff hp, barLoop_iff hl (by omega)]

/-- The bytes of a configuration space at address 0, and 0 behind them. -/
def bytesAt (bytes : List (BitVec 8)) : Memory := fun a => bytes.getD a.toNat 0

def stateOf (bytes : List (BitVec 8)) : State Nat := ⟨bytesAt bytes, [], [], [], []⟩

def firstGroup : Group := ⟨0, 0, 0, 0⟩

/-- A network card: an I/O register, a 32-bit and no 64-bit one. -/
def plainCard : List (BitVec 8) :=
  [0x86, 0x80, 0x0E, 0x10, 0, 0, 0, 0, 0, 0, 0, 2, 0, 0, 0, 0, 0x01, 0xC0, 0, 0, 0, 0, 0xB0, 0xFE]

/-- The same with one 64-bit register at `0xFEB00000`. -/
def wideCard : List (BitVec 8) :=
  [0x86, 0x80, 0x0E, 0x10, 0, 0, 0, 0, 0, 0, 0, 2, 0, 0, 0, 0, 0x04, 0, 0xB0, 0xFE]

def emptyBar : Bar := .mem32 0 (by decide)

def plainBars : List Bar :=
  [.io 0xC001 (by decide), .mem32 0xFEB00000 (by decide), emptyBar, emptyBar, emptyBar, emptyBar]

def wideBars : List Bar := [.mem64 0xFEB00004 0 (by decide), emptyBar, emptyBar, emptyBar, emptyBar]

theorem check_function_bars_plain :
    Records (stateOf plainCard) firstGroup 0 0 0 [0xC000, 0xFEB00000, 0, 0, 0, 0] :=
  (check_function_bars (stateOf plainCard) firstGroup 0 0 0 plainBars (by decide) (by decide)).mpr
    ⟨fun h => absurd h (by decide), trivial⟩

/-- The 64-bit register of the card is not recorded, its upper half is. -/
theorem wide_bar_missed :
    ¬ ∀ (s : State Nat) (group : Group) (bus device func : BitVec 32) (bars : List Bar),
      readConfigDWord s.mem group bus device func 0 &&& 0xFFFF ≠ 0xFFFF →
      bars.flatMap Bar.regs = (List.range 6).map (barOf s.mem group bus device func) →
      Records s group bus device func (bars.map Bar.entry) := by
  intro h
  have hr := h (stateOf wideCard) firstGroup 0 0 0 wideBars (by decide) (by decide)
  rw [records_iff (by decide)] at hr
  exact absurd hr.2 (by decide)

end PCI

end SimpleOS2
