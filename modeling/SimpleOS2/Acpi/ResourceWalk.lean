/-
  File:      SimpleOS2/Acpi/ResourceWalk.lean
  Subject:   THE INTERRUPT OF A PCI DEVICE (acpi/ACPI.cpp, GetPCIDeviceIRQ).

  A routing entry names a link device; its `_CRS` is a list of resource descriptors of which the entry gives the
  index. The loop goes over the descriptors before it, one length a turn. What ACPICA answers is a parameter.

  * `Resource` -- a descriptor with the bytes it has and the interrupt it names;
  * `getPCIDeviceIRQ`, `walkResources`, `readDescriptor` -- the function;
  * `stepOf_resource` -- the length that the loop takes for a descriptor, `codeStep_ne`: never the right one;
  * `readDescriptor_fails` -- neither of the two tests is ever passed;
  * `resource_walk` -- when the walk ends at the descriptor and its interrupt is returned.
-/
import SimpleOS2.Lib.ByteString
import SimpleOS2.Lib.WordMemory

namespace SimpleOS2

open Lib

namespace ACPI

/-! ## 1. Resource descriptors -/

/-- A small item: the length is in the low three bits of the tag. -/
structure SmallItem where
  tag : BitVec 8
  data : List (BitVec 8)
  kind : tag.msb = false
  length : data.length = (tag &&& 7).toNat

/-- A large item: two bytes of length behind the tag. -/
structure LargeItem where
  tag : BitVec 8
  data : List (BitVec 8)
  kind : tag.msb = true
  length : data.length < 2 ^ 16

inductive Resource
  | small (r : SmallItem)
  | large (r : LargeItem)

def LargeItem.lengthLow (r : LargeItem) : BitVec 8 := BitVec.ofNat 8 r.data.length
def LargeItem.lengthHigh (r : LargeItem) : BitVec 8 := BitVec.ofNat 8 (r.data.length / 256)

namespace Resource

def bytes : Resource → List (BitVec 8)
  | small r => r.tag :: r.data
  | large r => r.tag :: r.lengthLow :: r.lengthHigh :: r.data

/-- The number of the lowest line of an IRQ mask. -/
def lowestLine (mask : BitVec 16) : Option (BitVec 32) :=
  ((List.range 16).find? fun i => mask.getLsbD i).map (BitVec.ofNat 32)

/-- The interrupt that the descriptor names: the lowest line of an IRQ descriptor (`0x22`, `0x23`), the first
    number of an extended interrupt descriptor (`0x89`: flags, count, numbers of four bytes). -/
def interrupt : Resource → Option (BitVec 32)
  | small r =>
      if r.tag = 0x22 ∨ r.tag = 0x23 then lowestLine (r.data.getD 1 0 ++ r.data.getD 0 0) else none
  | large r =>
      if r.tag = 0x89 ∧ 6 ≤ r.data.length then
        some (r.data.getD 5 0 ++ r.data.getD 4 0 ++ r.data.getD 3 0 ++ r.data.getD 2 0)
      else none

end Resource

/-- Where the descriptor `index` starts. -/
def offsetOf (rs : List Resource) (index : Nat) : Nat := ((rs.take index).flatMap Resource.bytes).length

/-! ## 2. The function -/

/-- `struct AcpiIRQInfo`. -/
structure AcpiIRQInfo where
  isGSI : Bool
  number : BitVec 32
  deriving DecidableEq

/-- `ACPI_PCI_ROUTING_TABLE`; `source` are the characters before the NUL. -/
structure RoutingEntry where
  pin : BitVec 32
  address : BitVec 64
  sourceIndex : BitVec 32
  source : List (BitVec 8)

/-- What ACPICA answers: the devices with the flag `ACPI_PCI_ROOT_BRIDGE`, the routing table of a bridge, the
    object of a path, and the buffer (a pointer) that `_CRS` of a device gives. -/
structure Acpica (Handle : Type) where
  devices : List (Handle × Bool)
  irqRoutingTable : Handle → Option (List RoutingEntry)
  getHandle : List (BitVec 8) → Option Handle
  crs : Handle → BitVec 64

variable {Handle : Type} {env : Acpica Handle} {mem : BitVec 64 → BitVec 8} {rs : List Resource} {r : Resource}
  {a b p : BitVec 64} {n : Nat} {index : BitVec 32} {devID pin : BitVec 8} {irqInfo : AcpiIRQInfo}

/-- `GetPCIRootBridge`. -/
def getPCIRootBridge (env : Acpica Handle) : Option Handle := (env.devices.find? fun d => d.2).map Prod.fst

/-- The test of the loop over the routing table. -/
def RoutingEntry.routes (entry : RoutingEntry) (devID pin : BitVec 8) : Bool :=
  (entry.address >>> 16 &&& 0xFFFF).setWidth 16 = devID.setWidth 16 ∧ entry.pin = pin.setWidth 32

/-- What a turn of the loop over the descriptors adds to `entryPtr`, a pointer to (signed) `char`. -/
def stepOf (mem : BitVec 64 → BitVec 8) (entryPtr : BitVec 64) : BitVec 64 :=
  if (mem entryPtr).signExtend 32 &&& 0x80 ≠ 0 then
    (((mem (entryPtr + 2)).signExtend 16).signExtend 32 <<< 16 |||
      ((mem (entryPtr + 1)).signExtend 16).signExtend 32).signExtend 64
  else ((mem entryPtr).signExtend 32 &&& 0x7).signExtend 64

/-- The loop over the descriptors. -/
def walkResources (mem : BitVec 64 → BitVec 8) : (turns : Nat) → (entryPtr : BitVec 64) → BitVec 64
  | 0, entryPtr => entryPtr
  | turns + 1, entryPtr => walkResources mem turns (entryPtr + stepOf mem entryPtr)

/-- The part behind the loop. `entryPtr[0] & 0xFE == 0x22` is `entryPtr[0] & (0xFE == 0x22)`. -/
def readDescriptor (mem : BitVec 64 → BitVec 8) (entryPtr : BitVec 64) (irqInfo : AcpiIRQInfo) :
    Bool × AcpiIRQInfo :=
  if (mem entryPtr).signExtend 32 &&& (if (0xFE : BitVec 32) = 0x22 then 1 else 0) ≠ 0 then
    match (List.range 16).find? fun i => (load mem (entryPtr + 1) 2).setWidth 32 &&& (1#32 <<< i) ≠ 0 with
    | some i => (true, { isGSI := false, number := BitVec.ofNat 32 i })
    | none => (false, irqInfo)
  else if (mem entryPtr).signExtend 32 = 0x89 then
    (true, { isGSI := false, number := load mem (entryPtr + 5) 4 })
  else (false, irqInfo)

/-- `GetPCIDeviceIRQ`. -/
def getPCIDeviceIRQ (env : Acpica Handle) (mem : BitVec 64 → BitVec 8) (devID pin : BitVec 8)
    (irqInfo : AcpiIRQInfo) : Bool × AcpiIRQInfo :=
  match (getPCIRootBridge env).bind env.irqRoutingTable with
  | none => (false, irqInfo)
  | some routeTable =>
      match routeTable.find? fun entry => entry.routes devID pin with
      | none => (false, irqInfo)
      | some entry =>
          if entry.source = [] then (true, { isGSI := true, number := entry.sourceIndex })
          else
            match env.getHandle entry.source with
            | none => (false, irqInfo)
            | some dev =>
                if env.crs dev = 0 then (false, irqInfo)
                else readDescriptor mem (walkResources mem entry.sourceIndex.toNat (env.crs dev)) irqInfo

/-! ## 3. One turn of the loop -/

/-- The length that the loop takes for a descriptor. -/
def Resource.codeStep : Resource → BitVec 64
  | small r => BitVec.ofNat 64 r.data.length
  | large r => ((r.lengthHigh.signExtend 16).signExtend 32 <<< 16 |||
      (r.lengthLow.signExtend 16).signExtend 32).signExtend 64

/-- The bytes stand in memory from `p` on. -/
def StandsAt (mem : BitVec 64 → BitVec 8) (p : BitVec 64) (bs : List (BitVec 8)) : Prop :=
  BytesAt (fun i => some (mem (p + BitVec.ofNat 64 i))) 0 bs

theorem standsAt_byte {bs : List (BitVec 8)} (h : StandsAt mem p bs) {i : Nat} {c : BitVec 8} (hc : bs[i]? = some c) :
    mem (p + BitVec.ofNat 64 i) = c := by
  have hlt : i < bs.length := (List.getElem?_eq_some_iff.mp hc).1
  have hi := h i hlt
  rw [hc, Nat.zero_add] at hi
  exact Option.some.inj hi

theorem small_step : ∀ tag : BitVec 8, tag.msb = false →
    tag.signExtend 32 &&& 0x80 = 0 ∧ (tag.signExtend 32 &&& 0x7).signExtend 64 = BitVec.ofNat 64 (tag &&& 7).toNat := by
  decide

theorem large_step : ∀ tag : BitVec 8, tag.msb = true → tag.signExtend 32 &&& 0x80 ≠ 0 := by decide

/-- **The turn at a descriptor.** -/
theorem stepOf_resource (h : StandsAt mem p r.bytes) : stepOf mem p = r.codeStep := by
  cases r with
  | small r =>
      have htag : mem p = r.tag := (congrArg mem (BitVec.add_zero p).symm).trans (standsAt_byte h (i := 0) rfl)
      obtain ⟨hbit, hlen⟩ := small_step r.tag r.kind
      unfold stepOf
      rw [htag, hbit, hlen, if_neg (fun hne => hne rfl), ← r.length]
      rfl
  | large r =>
      have htag : mem p = r.tag := (congrArg mem (BitVec.add_zero p).symm).trans (standsAt_byte h (i := 0) rfl)
      have hlow : mem (p + 1) = r.lengthLow := standsAt_byte h (i := 1) rfl
      have hhigh : mem (p + 2) = r.lengthHigh := standsAt_byte h (i := 2) rfl
      unfold stepOf
      rw [htag, hlow, hhigh, if_pos (large_step r.tag r.kind)]
      rfl

theorem signExtend_bit {v w j : Nat} (x : BitVec w) (hv : j < v) (hw : j < w) :
    (x.signExtend v).getLsbD j = x.getLsbD j := by
  rw [BitVec.getLsbD_signExtend, decide_eq_true hv, Bool.true_and, if_pos hw]

/-- The low byte of a large item's step is the low byte of its length: the shift by 16 leaves it. -/
theorem codeStep_low (hi lo : BitVec 8) :
    (((hi.signExtend 16).signExtend 32 <<< 16 ||| (lo.signExtend 16).signExtend 32).signExtend 64).setWidth 8 = lo := by
  refine BitVec.eq_of_getLsbD_eq fun j hj => ?_
  have h32 : j < 32 := by omega
  have h16 : j < 16 := by omega
  rw [BitVec.getLsbD_setWidth, signExtend_bit _ (by omega) h32, BitVec.getLsbD_or, BitVec.getLsbD_shiftLeft,
    signExtend_bit _ h32 h16, signExtend_bit _ h16 hj]
  simp [hj, h16]

/-- **The length is never the right one**: it leaves out the tag and the bytes of the length. -/
theorem codeStep_ne (r : Resource) : r.codeStep ≠ BitVec.ofNat 64 r.bytes.length := by
  intro h
  have hlow := congrArg (fun x : BitVec 64 => (x.setWidth 8).toNat) h
  cases r with
  | small r =>
      simp only [Resource.codeStep, Resource.bytes, List.length_cons, BitVec.toNat_setWidth, BitVec.toNat_ofNat] at hlow
      omega
  | large r =>
      simp only [Resource.codeStep, codeStep_low] at hlow
      simp only [Resource.bytes, List.length_cons, BitVec.toNat_setWidth, BitVec.toNat_ofNat,
        LargeItem.lengthLow] at hlow
      omega

/-- **Neither test is ever passed.** -/
theorem readDescriptor_fails : readDescriptor mem a irqInfo = (false, irqInfo) := by
  have hsigned : ∀ c : BitVec 8, c.signExtend 32 ≠ 0x89 := by decide
  unfold readDescriptor
  have hzero : (mem a).signExtend 32 &&& (0 : BitVec 32) = 0 := BitVec.and_zero
  rw [if_neg (show ¬ ((0xFE : BitVec 32) = 0x22) by decide), hzero, if_neg (fun hne => hne rfl), if_neg (hsigned _)]

/-! ## 4. The walk -/

/-- `n` turns lead from `a` to `b`, as the bytes at each address have it. -/
inductive Detour (mem : BitVec 64 → BitVec 8) : BitVec 64 → Nat → BitVec 64 → Prop
  | done (a : BitVec 64) : Detour mem a 0 a
  | turn {a b : BitVec 64} {n : Nat} (h : Detour mem (a + stepOf mem a) n b) : Detour mem a (n + 1) b

theorem walk_iff : walkResources mem n a = b ↔ Detour mem a n b := by
  induction n generalizing a with
  | zero =>
      constructor
      · intro h
        exact (show a = b from h) ▸ .done a
      · intro h
        cases h
        rfl
  | succ n ih =>
      constructor
      · exact fun h => .turn (ih.mp h)
      · intro h
        cases h with
        | turn h => exact ih.mpr h

/-- The interrupt of the device and the pin is that of the descriptor `index` in the `_CRS` at `p`. -/
structure Linked (env : Acpica Handle) (mem : BitVec 64 → BitVec 8) (devID pin : BitVec 8) (index : BitVec 32)
    (p : BitVec 64) (rs : List Resource) : Prop where
  entry : ∃ routeTable entry dev, (getPCIRootBridge env).bind env.irqRoutingTable = some routeTable ∧
    (routeTable.find? fun entry => entry.routes devID pin) = some entry ∧ entry.source ≠ [] ∧
    entry.sourceIndex = index ∧ env.getHandle entry.source = some dev ∧ env.crs dev = p
  pointer : p ≠ 0
  bytes : StandsAt mem p (rs.flatMap Resource.bytes)

/-- The walk ends at the descriptor, and the interrupt that it names is returned. -/
structure InterruptFound (env : Acpica Handle) (mem : BitVec 64 → BitVec 8) (devID pin : BitVec 8)
    (irqInfo : AcpiIRQInfo) (index : BitVec 32) (p : BitVec 64) (rs : List Resource) : Prop where
  entryPtr : walkResources mem index.toNat p = p + BitVec.ofNat 64 (offsetOf rs index.toNat)
  number : ∀ r number, rs[index.toNat]? = some r → r.interrupt = some number →
    getPCIDeviceIRQ env mem devID pin irqInfo = (true, { isGSI := false, number := number })

theorem irq_of_linked (h : Linked env mem devID pin index p rs) :
    getPCIDeviceIRQ env mem devID pin irqInfo = (false, irqInfo) := by
  obtain ⟨routeTable, entry, dev, htable, hfind, hsource, -, hdev, hcrs⟩ := h.entry
  unfold getPCIDeviceIRQ
  rw [htable]
  simp only [hfind, hdev]
  rw [if_neg hsource, if_neg (hcrs ▸ h.pointer)]
  exact readDescriptor_fails

/-- Behind the first turn the walk is in the middle of a descriptor; what it takes for lengths there may lead it
    back. -/
theorem walk_right_iff (hbytes : StandsAt mem p (rs.flatMap Resource.bytes)) (hn : n < rs.length) :
    walkResources mem n p = p + BitVec.ofNat 64 (offsetOf rs n) ↔
      n = 0 ∨ ∃ first k, rs.head? = some first ∧ n = k + 2 ∧
        Detour mem (p + first.codeStep) (k + 1) (p + BitVec.ofNat 64 (offsetOf rs n)) := by
  cases rs with
  | nil => exact absurd hn (Nat.not_lt_zero n)
  | cons first rs =>
      have hfirst : stepOf mem p = first.codeStep := by
        unfold StandsAt at hbytes
        rw [List.flatMap_cons, bytesAt_append] at hbytes
        exact stepOf_resource hbytes.1
      rcases n with - | - | k
      · exact iff_of_true (BitVec.add_zero p).symm (Or.inl rfl)
      · -- one turn: the wrong length and nothing that makes it good
        refine iff_of_false (fun h => ?_) fun h => ?_
        · have hlen : offsetOf (first :: rs) 1 = first.bytes.length := by
            show (([first] : List Resource).flatMap Resource.bytes).length = _
            rw [List.flatMap_singleton]
          change p + stepOf mem p = _ at h
          rw [hfirst, hlen] at h
          exact codeStep_ne first (by grind)
        · obtain h | ⟨_, k, -, h, -⟩ := h
          · cases h
          · omega
      · show walkResources mem (k + 1) (p + stepOf mem p) = _ ↔ _
        rw [hfirst, walk_iff]
        constructor
        · exact fun h => Or.inr ⟨first, k, rfl, rfl, h⟩
        · intro h
          obtain h | ⟨first', k', hhead, hk, h⟩ := h
          · cases h
          · obtain rfl := Option.some.inj hhead
            obtain rfl : k = k' := by omega
            exact h

/-- **When the descriptor is found and its interrupt returned.** -/
theorem resource_walk (h : Linked env mem devID pin index p rs) (hindex : index.toNat < rs.length) :
    InterruptFound env mem devID pin irqInfo index p rs ↔
      (∀ r, rs[index.toNat]? = some r → r.interrupt = none) ∧
        (index.toNat = 0 ∨ ∃ first k, rs.head? = some first ∧ index.toNat = k + 2 ∧
          Detour mem (p + first.codeStep) (k + 1) (p + BitVec.ofNat 64 (offsetOf rs index.toNat))) := by
  rw [← walk_right_iff h.bytes hindex]
  constructor
  · intro hfound
    refine ⟨fun r hr => ?_, hfound.entryPtr⟩
    cases hint : r.interrupt with
    | none => rfl
    | some number =>
        have hres := hfound.number r number hr hint
        rw [irq_of_linked h] at hres
        exact absurd (congrArg Prod.fst hres) Bool.false_ne_true
  · intro hright
    refine ⟨hright.2, fun r number hr hint => ?_⟩
    rw [hright.1 r hr] at hint
    cases hint

/-! ### A link device -/

/-- One bridge, device 1 with its pin 0 routed to the descriptor `index` of the buffer at `p`. -/
def oneLink (index : BitVec 32) (p : BitVec 64) : Acpica Unit where
  devices := [((), true)]
  irqRoutingTable := fun _ => some [⟨0, 0x1FFFF, index, [0x4C]⟩]
  getHandle := fun _ => some ()
  crs := fun _ => p

/-- An extended interrupt descriptor with the number 10. -/
def numberTen : Resource := .large ⟨0x89, [0x09, 0x01, 0x0A, 0, 0, 0], by decide, by decide⟩

def endTag : Resource := .small ⟨0x79, [0], by decide, by decide⟩

/-- `numberTen` and `endTag` at `0x1000`. -/
def linkMemory (a : BitVec 64) : BitVec 8 :=
  [0x89, 0x06, 0, 0x09, 0x01, 0x0A, 0, 0, 0, 0x79, 0].getD (a - 0x1000).toNat 0

theorem oneLink_linked (index : BitVec 32) {p : BitVec 64} {rs : List Resource} (hp : p ≠ 0)
    (h : StandsAt linkMemory p (rs.flatMap Resource.bytes)) : Linked (oneLink index p) linkMemory 1 0 index p rs :=
  ⟨⟨_, ⟨0, 0x1FFFF, index, [0x4C]⟩, (), rfl, by simp [RoutingEntry.routes],
    List.cons_ne_nil _ _, rfl, rfl, rfl⟩, hp, h⟩

theorem ten_stands : StandsAt linkMemory 0x1000 ([numberTen, endTag].flatMap Resource.bytes) := by
  unfold StandsAt BytesAt
  decide

/-- The number 10 is not returned, and the end tag is looked for three bytes too early. -/
theorem resource_walk_fails :
    numberTen.interrupt = some 10 ∧ (getPCIDeviceIRQ (oneLink 0 0x1000) linkMemory 1 0 ⟨true, 0⟩).1 = false ∧
      walkResources linkMemory 1 0x1000 = 0x1006 ∧ offsetOf [numberTen, endTag] 1 = 9 ∧
      ¬ ∀ (env : Acpica Unit) mem devID pin irqInfo index p rs, Linked env mem devID pin index p rs →
        index.toNat < rs.length → InterruptFound env mem devID pin irqInfo index p rs := by
  refine ⟨by decide, by decide, by decide, by decide, fun h => ?_⟩
  have hfound := h (oneLink 0 0x1000) linkMemory 1 0 ⟨true, 0⟩ 0 0x1000 [numberTen, endTag]
    (oneLink_linked 0 (by decide) ten_stands) (by decide)
  exact absurd (hfound.number numberTen 10 rfl (by decide)) (by decide)

theorem resource_walk_end_tag :
    InterruptFound (oneLink 0 0x1009) linkMemory 1 0 ⟨true, 0⟩ 0 0x1009 [endTag] :=
  (resource_walk (oneLink_linked 0 (by decide) (by unfold StandsAt BytesAt; decide)) (by decide)).mpr
    ⟨fun r hr => by obtain rfl := Option.some.inj hr; decide, Or.inl rfl⟩

end ACPI

end SimpleOS2
