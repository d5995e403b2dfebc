/-
  File:      SimpleOS2/Devices/PCIConfig.lean
  Subject:   THE ACCESSES OF DRIVERS TO THE CONFIGURATION SPACE (devices/pci/PCI.cpp).

  A driver names a device and a register; the accessor looks for the group of the device and goes to the
  address of the register. It adds the register to a pointer of its own width.

  * `Device.readConfigByte` .. `Device.writeConfigQWord` -- the eight accessors, `readConfig` and `writeConfig`
    of a width;
  * `Recorded` -- the device was found in the group; `scanGroups_recorded` -- so is every device of the scan;
  * `ConfigAgrees` -- an accessor reads and writes the bytes that `ReadConfigDWord` of the group addresses;
    `config_accessors` -- when it does.
-/
import SimpleOS2.Devices.PCI
import SimpleOS2.Lib.WordMemory

namespace SimpleOS2

open Lib

namespace PCI

/-! ## 1. The accessors -/

/-- The types an accessor reads and writes: `uint8`, `uint16`, `uint32`, `uint64`. -/
inductive Width
  | byte
  | word
  | dword
  | qword
  deriving DecidableEq

/-- `sizeof` of the type. -/
def Width.bytes : Width → Nat
  | byte => 1
  | word => 2
  | dword => 4
  | qword => 8

/-- The loop over `g_Groups`: the first group with the id. -/
def groupOf (groups : List Group) (dev : Device) : Option Group := groups.find? fun g => g.id = dev.group

/-- `(T*)GetMemBase(g, dev.bus, dev.device, dev.function) + reg`; the addition is one of a `T*`. -/
def configAddr (width : Width) (g : Group) (dev : Device) (reg : BitVec 32) : BitVec 64 :=
  getMemBase g (dev.bus.setWidth 32) (dev.device.setWidth 32) (dev.function.setWidth 32) +
    BitVec.ofNat 64 width.bytes * reg.setWidth 64

def readConfig (width : Width) (groups : List Group) (mem : Memory) (dev : Device) (reg : BitVec 32) :
    BitVec (8 * width.bytes) :=
  match groupOf groups dev with
  | some g => load mem (configAddr width g dev reg) width.bytes
  | none => 0

def writeConfig (width : Width) (groups : List Group) (mem : Memory) (dev : Device) (reg : BitVec 32)
    (val : BitVec (8 * width.bytes)) : Memory :=
  match groupOf groups dev with
  | some g => store mem (configAddr width g dev reg) width.bytes val
  | none => mem

/-- `ReadConfigByte`. -/
def Device.readConfigByte (dev : Device) (groups : List Group) (mem : Memory) (reg : BitVec 32) : BitVec 8 :=
  readConfig .byte groups mem dev reg

/-- `ReadConfigWord`. -/
def Device.readConfigWord (dev : Device) (groups : List Group) (mem : Memory) (reg : BitVec 32) : BitVec 16 :=
  readConfig .word groups mem dev reg

/-- `ReadConfigDWord` of a device. -/
def Device.readConfigDWord (dev : Device) (groups : List Group) (mem : Memory) (reg : BitVec 32) : BitVec 32 :=
  readConfig .dword groups mem dev reg

/-- `ReadConfigQWord`. -/
def Device.readConfigQWord (dev : Device) (groups : List Group) (mem : Memory) (reg : BitVec 32) : BitVec 64 :=
  readConfig .qword groups mem dev reg

/-- `WriteConfigByte`. -/
def Device.writeConfigByte (dev : Device) (groups : List Group) (mem : Memory) (reg : BitVec 32) (val : BitVec 8) :
    Memory := writeConfig .byte groups mem dev reg val

/-- `WriteConfigWord`. -/
def Device.writeConfigWord (dev : Device) (groups : List Group) (mem : Memory) (reg : BitVec 32) (val : BitVec 16) :
    Memory := writeConfig .word groups mem dev reg val

/-- `WriteConfigDWord`. -/
def Device.writeConfigDWord (dev : Device) (groups : List Group) (mem : Memory) (reg : BitVec 32) (val : BitVec 32) :
    Memory := writeConfig .dword groups mem dev reg val

/-- `WriteConfigQWord`. -/
def Device.writeConfigQWord (dev : Device) (groups : List Group) (mem : Memory) (reg : BitVec 32) (val : BitVec 64) :
    Memory := writeConfig .qword groups mem dev reg val

/-! ## 2. The devices of the scan -/

/-- The device was found in the group. -/
structure Recorded (g : Group) (dev : Device) : Prop where
  group : dev.group = g.id
  memBase : dev.memBase =
    getMemBase g (dev.bus.setWidth 32) (dev.device.setWidth 32) (dev.function.setWidth 32)

/-- Every device was found in one of the groups. -/
def AllRecorded {F : Type} (s : State F) : Prop := ∀ dev ∈ s.devices, ∃ g ∈ s.groups, Recorded g dev

section Scan

variable {F : Type} {fuel : Nat} {group : Group} {bus device func : BitVec 32} {s : State F}

/-- What the scan of a group keeps. -/
def InScan (group : Group) (s : State F) : Prop := group ∈ s.groups ∧ AllRecorded s

theorem setWidth_back {x : BitVec 32} (hx : x.toNat < 256) : (x.setWidth 8).setWidth 32 = x := by
  refine BitVec.eq_of_toNat_eq ?_
  rw [BitVec.toNat_setWidth, BitVec.toNat_setWidth]
  omega

theorem checkFunction_inScan {r : Bool × State F} (hb : bus.toNat < 256) (hd : device.toNat < 256)
    (hf : func.toNat < 256) (hs : InScan group s) (h : checkFunction fuel group bus device func s = some r) :
    InScan group r.2 := by
  unfold checkFunction at h
  split_ifs at h
  · obtain rfl := Option.some.inj h
    exact hs
  · obtain ⟨c, -, rfl⟩ := Option.map_eq_some_iff.mp h
    refine ⟨hs.1, fun dev hdev => ?_⟩
    rcases List.mem_append.mp hdev with hdev | hdev
    · exact hs.2 dev hdev
    · obtain rfl := List.mem_singleton.mp hdev
      refine ⟨group, hs.1, rfl, ?_⟩
      show getMemBase group bus device func = getMemBase group ((bus.setWidth 8).setWidth 32)
        ((device.setWidth 8).setWidth 32) ((func.setWidth 8).setWidth 32)
      rw [setWidth_back hb, setWidth_back hd, setWidth_back hf]

theorem ofNat_small {i : Nat} (hi : i < 256) : (BitVec.ofNat 32 i).toNat < 256 := by
  rw [BitVec.toNat_ofNat]
  omega

theorem checkDevice_inScan {r : Bool × State F} (hb : bus.toNat < 256) (hd : device.toNat < 256)
    (hs : InScan group s) (h : checkDevice fuel group bus device s = some r) : InScan group r.2 := by
  obtain ⟨r1, h1, h2⟩ := Option.bind_eq_some_iff.mp h
  have h3 := checkFunction_inScan hb hd (by decide) hs h1
  split_ifs at h2
  · obtain ⟨s2, h4, rfl⟩ := Option.map_eq_some_iff.mp h2
    refine forLoop_inv (J := fun _ x => InScan group x) (e := 8) (fun i x x' hi hx hr => ?_) rfl h3 h4
    obtain ⟨r2, h5, rfl⟩ := Option.map_eq_some_iff.mp hr
    exact checkFunction_inScan hb hd (ofNat_small (by omega)) hx h5
  · obtain rfl := Option.some.inj h2
    exact h3
  · obtain rfl := Option.some.inj h2
    exact h3

theorem checkGroup_inScan {s' : State F} (hs : InScan group s) (h : checkGroup fuel group s = some s') :
    InScan group s' := by
  have hend := group.busEnd.isLt
  refine forLoop_inv (J := fun _ x => InScan group x) (fun i x x' hi hx hr => ?_) rfl hs h
  refine forLoop_inv (J := fun _ x => InScan group x) (e := 32) (fun j y y' hj hy hr => ?_) rfl hx hr
  obtain ⟨r, h1, rfl⟩ := Option.map_eq_some_iff.mp hr
  exact checkDevice_inScan (ofNat_small (by omega)) (ofNat_small (by omega)) hy h1

/-- **Every device of the scan was found in a group.** -/
theorem scanGroups_recorded {highMemBase : BitVec 64} {mcfg : List MCFGEntry} {s s' : State F} (hs : AllRecorded s)
    (h : scanGroups fuel highMemBase mcfg s = some s') : AllRecorded s' := by
  induction mcfg generalizing s with
  | nil =>
      obtain rfl := Option.some.inj h
      exact hs
  | cons e mcfg ih =>
      obtain ⟨s1, h1, h2⟩ := Option.bind_eq_some_iff.mp h
      refine ih (checkGroup_inScan ⟨List.mem_append_right _ (List.mem_singleton_self _), fun dev hdev => ?_⟩ h1).2 h2
      obtain ⟨g, hg, hr⟩ := hs dev hdev
      exact ⟨g, List.mem_append_left _ hg, hr⟩

end Scan

/-! ## 3. Agreement -/

/-- The accessor of the width reads and writes the bytes at `reg` of the device's configuration space. -/
structure ConfigAgrees (width : Width) (groups : List Group) (g : Group) (dev : Device) (reg : BitVec 32) :
    Prop where
  reads : ∀ mem, readConfig width groups mem dev reg = load mem (dev.memBase + reg.setWidth 64) width.bytes
  /-- `ReadConfigDWord` of the group reads four bytes at the same address. -/
  internal : ∀ mem, (readConfig width groups mem dev reg).setWidth (8 * min width.bytes 4) =
    (readConfigDWord mem g (dev.bus.setWidth 32) (dev.device.setWidth 32) (dev.function.setWidth 32) reg).setWidth
      (8 * min width.bytes 4)
  readBack : ∀ mem val, readConfig width groups (writeConfig width groups mem dev reg val) dev reg = val
  frame : ∀ mem val x, ¬ (x - (dev.memBase + reg.setWidth 64)).toNat < width.bytes →
    writeConfig width groups mem dev reg val x = mem x

section Agreement

variable {width : Width} {groups : List Group} {g first : Group} {dev : Device} {reg : BitVec 32}

theorem bytes_pos (width : Width) : 0 < width.bytes := by cases width <;> decide

theorem bytes_le (width : Width) : width.bytes ≤ 2 ^ 64 := by cases width <;> decide

theorem readDWord_eq_load (mem : Memory) (addr : BitVec 64) : readDWord mem addr = load mem addr 4 :=
  (load_four mem addr).symm

theorem groupOf_some (hg : g ∈ groups) (hid : dev.group = g.id) :
    ∃ first, groupOf groups dev = some first ∧ first.id = dev.group := by
  cases hf : groupOf groups dev with
  | none => exact absurd hid.symm (by simpa using List.find?_eq_none.mp hf g hg)
  | some first => exact ⟨first, rfl, by simpa using List.find?_some hf⟩

/-- The register scaled by the width is the register itself and `width.bytes - 1` times more. -/
theorem scaled_reg (width : Width) (r : BitVec 64) :
    BitVec.ofNat 64 width.bytes * r = BitVec.ofNat 64 (width.bytes - 1) * r + r := by
  cases width <;> simp only [Width.bytes] <;> grind

/-- A 32-bit register times a small factor does not wrap to zero. -/
theorem scaled_eq_zero {c : Nat} (hpos : 0 < c) (hc : c < 8)
    (h : 0 = BitVec.ofNat 64 c * reg.setWidth 64) : reg = 0 := by
  have hreg := reg.isLt
  have hnat := congrArg BitVec.toNat h
  simp only [BitVec.toNat_mul, BitVec.toNat_setWidth, BitVec.toNat_ofNat, BitVec.ofNat_eq_ofNat]
    at hnat
  refine BitVec.eq_of_toNat_eq ?_
  show reg.toNat = 0
  rcases Nat.eq_zero_or_pos reg.toNat with hz | hz
  · exact hz
  · have hle : 1 * 1 ≤ c * reg.toNat := Nat.mul_le_mul hpos hz
    have hlt : c * reg.toNat < 8 * 2 ^ 32 := Nat.mul_lt_mul'' hc hreg
    rw [Nat.mod_eq_of_lt (show c < 2 ^ 64 by omega), Nat.mod_eq_of_lt (show reg.toNat < 2 ^ 64 by omega),
      Nat.mod_eq_of_lt (show c * reg.toNat < 2 ^ 64 by omega)] at hnat
    omega

theorem scaled_zero_iff (width : Width) (reg : BitVec 32) :
    0 = BitVec.ofNat 64 (width.bytes - 1) * reg.setWidth 64 ↔ width = .byte ∨ reg = 0 := by
  constructor
  · intro h
    cases width with
    | byte => exact Or.inl rfl
    | word => exact Or.inr (scaled_eq_zero (c := 1) (by decide) (by decide) h)
    | dword => exact Or.inr (scaled_eq_zero (c := 3) (by decide) (by decide) h)
    | qword => exact Or.inr (scaled_eq_zero (c := 7) (by decide) (by decide) h)
  · intro h
    rcases h with rfl | rfl
    · exact BitVec.zero_mul.symm
    · exact BitVec.mul_zero.symm

/-- **The address an accessor goes to is the right one**: the accessor adds `width.bytes - 1` times the register
    too much, and the group it takes may lie that much below. -/
theorem configAddr_eq_iff (hdev : Recorded g dev) :
    configAddr width first dev reg = dev.memBase + reg.setWidth 64 ↔
      first.baseAddr = g.baseAddr ∧ (width = .byte ∨ reg = 0) ∨
        first.baseAddr ≠ g.baseAddr ∧
          g.baseAddr - first.baseAddr = BitVec.ofNat 64 (width.bytes - 1) * reg.setWidth 64 := by
  have hdiff : configAddr width first dev reg = dev.memBase + reg.setWidth 64 ↔
      g.baseAddr - first.baseAddr = BitVec.ofNat 64 (width.bytes - 1) * reg.setWidth 64 := by
    rw [hdev.memBase]
    unfold configAddr getMemBase
    rw [scaled_reg]
    generalize BitVec.ofNat 64 (width.bytes - 1) * reg.setWidth 64 = q
    generalize reg.setWidth 64 = r
    generalize (dev.bus.setWidth 32).setWidth 64 <<< 20 = x
    generalize (dev.device.setWidth 32).setWidth 64 <<< 15 = y
    generalize (dev.function.setWidth 32).setWidth 64 <<< 12 = z
    constructor
    · intro h
      grind
    · intro h
      grind
  rw [hdiff]
  by_cases hb : first.baseAddr = g.baseAddr
  · rw [hb, BitVec.sub_self]
    exact (scaled_zero_iff width reg).trans
      ⟨fun h => Or.inl ⟨rfl, h⟩, fun h => h.elim And.right fun h => absurd rfl h.1⟩
  · exact ⟨fun h => Or.inr ⟨hb, h⟩, fun h => h.elim (fun h => absurd h.1 hb) And.right⟩

/-- **The accessors agree exactly where they go to the right address.** -/
theorem configAgrees_iff (hdev : Recorded g dev) (hfirst : groupOf groups dev = some first) :
    ConfigAgrees width groups g dev reg ↔ configAddr width first dev reg = dev.memBase + reg.setWidth 64 := by
  have hread : ∀ mem, readConfig width groups mem dev reg =
      load mem (configAddr width first dev reg) width.bytes := fun mem => by
    unfold readConfig
    rw [hfirst]
  have hwrite : ∀ mem val, writeConfig width groups mem dev reg val =
      store mem (configAddr width first dev reg) width.bytes val := fun mem val => by
    unfold writeConfig
    rw [hfirst]
  constructor
  · intro h
    exact load_injective (bytes_pos width) fun mem => (hread mem).symm.trans (h.reads mem)
  · intro haddr
    refine ⟨fun mem => by rw [hread, haddr], fun mem => ?_, fun mem val => ?_, fun mem val x hx => ?_⟩
    · rw [hread, haddr, setWidth_load mem _ (Nat.min_le_left _ _)]
      unfold readConfigDWord
      rw [readDWord_eq_load, ← hdev.memBase]
      exact (setWidth_load mem _ (Nat.min_le_right _ _)).symm
    · rw [hread, hwrite]
      exact load_store mem _ val (bytes_le width)
    · rw [hwrite, haddr]
      exact store_out val hx

/-- **When the accessors agree.** -/
theorem config_accessors (width : Width) (groups : List Group) (g : Group) (dev : Device) (reg : BitVec 32)
    (hg : g ∈ groups) (hdev : Recorded g dev) :
    ConfigAgrees width groups g dev reg ↔ ∃ first, groupOf groups dev = some first ∧
      (first.baseAddr = g.baseAddr ∧ (width = .byte ∨ reg = 0) ∨
        first.baseAddr ≠ g.baseAddr ∧
          g.baseAddr - first.baseAddr = BitVec.ofNat 64 (width.bytes - 1) * reg.setWidth 64) := by
  obtain ⟨first, hfirst, -⟩ := groupOf_some hg hdev.group
  rw [configAgrees_iff hdev hfirst, configAddr_eq_iff hdev]
  constructor
  · exact fun h => ⟨first, hfirst, h⟩
  · intro h
    obtain ⟨first', hfirst', h⟩ := h
    obtain rfl := Option.some.inj (hfirst.symm.trans hfirst')
    exact h

/-- The only group, its configuration space at `0xB0000000`. -/
def loneGroup : Group where
  id := 0
  baseAddr := 0xB0000000
  busStart := 0
  busEnd := 255

/-- The device at bus 0, slot 1. -/
def slotOne : Device := newDevice (fun a => a.setWidth 8) loneGroup 0 1 0

theorem slotOne_recorded : Recorded loneGroup slotOne := ⟨rfl, rfl⟩

/-- The vendor and the device are two bytes each; the accessor takes the bytes 4 and 5 for the device. -/
theorem config_accessors_fails :
    slotOne.readConfigWord [loneGroup] (fun a => a.setWidth 8) 2 = 0x0504 ∧
      ¬ ∀ width groups g dev reg, g ∈ groups → Recorded g dev → ConfigAgrees width groups g dev reg := by
  refine ⟨by decide, fun h => ?_⟩
  have hread := (h .word [loneGroup] loneGroup slotOne 2 (List.mem_singleton_self _) slotOne_recorded).reads
    fun a => a.setWidth 8
  exact absurd hread (by decide)

theorem config_accessors_word :
    ConfigAgrees .word [loneGroup] loneGroup slotOne 0 ↔
      ∃ first, groupOf [loneGroup] slotOne = some first ∧
        (first.baseAddr = loneGroup.baseAddr ∧ (Width.word = .byte ∨ (0 : BitVec 32) = 0) ∨
          first.baseAddr ≠ loneGroup.baseAddr ∧
            loneGroup.baseAddr - first.baseAddr =
              BitVec.ofNat 64 (Width.word.bytes - 1) * (0 : BitVec 32).setWidth 64) :=
  config_accessors .word [loneGroup] loneGroup slotOne 0 (List.mem_singleton_self _) slotOne_recorded

end Agreement

end PCI

end SimpleOS2
