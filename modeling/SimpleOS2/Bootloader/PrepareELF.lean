/-
  File:      SimpleOS2/Bootloader/PrepareELF.lean
  Subject:   THE KERNEL IS LOADED AND RELOCATED (Bootloader/ELF.cpp: GetELFSize, PrepareELF).

  The kernel is a position independent ELF image. The boot loader allocates `GetELFSize` bytes anywhere, copies the
  segments there, and adds the place to the words that the relocation table names.

  * `segment`, `getELFSize`, `loadSegment`, `readDynamic`, `relocateFrom`, `prepareFrom`, `prepareELF` -- the code, on a
    memory of bytes; the file and the process image are both in it;
  * `imageUpTo` -- the image that the file describes, at 0; `Fits`, `Relocatable` -- a file that keeps to itself;
  * `prepareFrom_loads`, `relocateFrom_spec` -- the segments, the relocations;
  * `kernel_prepared` -- wherever the image is put, it is the one of the file, but that each relocated word is its
    addend moved by as much; nothing else is written.
-/
import SimpleOS2.Lib.Run
import SimpleOS2.Lib.Window

namespace SimpleOS2

open Lib

namespace PrepareELF

/-! ## 1. The code -/

abbrev Memory := BitVec 64 → BitVec 8

def PT_LOAD : BitVec 32 := 1
def DT_NULL : BitVec 64 := 0
def DT_RELA : BitVec 64 := 7
def DT_RELASZ : BitVec 64 := 8
def DT_RELAENT : BitVec 64 := 9
def R_RELATIVE : BitVec 32 := 8

/-- The sizes of `ELFHeader`, `ElfSegmentHeader`, `ElfDynamicEntry` and `ElfRelA`. -/
def sizeofHeader : Nat := 64
def sizeofSegment : Nat := 56
def sizeofDynamic : Nat := 16
def sizeofRelA : Nat := 24

/-- `p + i` for a pointer to bytes. -/
def plus (p : BitVec 64) (i : Nat) : BitVec 64 := p + BitVec.ofNat 64 i

/-- The fields of `ELFHeader` that are used. -/
def entryPoint (mem : Memory) (image : BitVec 64) : BitVec 64 := load mem (plus image 24) 8
def phOffset (mem : Memory) (image : BitVec 64) : BitVec 64 := load mem (plus image 32) 8
def phEntryCount (mem : Memory) (image : BitVec 64) : Nat := (load mem (plus image 56) 2).toNat

/-- The fields of `ElfSegmentHeader` that are used. -/
structure Segment where
  type : BitVec 32
  dataOffset : BitVec 64
  virtualAddress : BitVec 64
  dataSize : BitVec 64
  virtualSize : BitVec 64

/-- The program header at `p`. -/
def segmentAt (mem : Memory) (p : BitVec 64) : Segment :=
  ⟨load mem p 4, load mem (plus p 8) 8, load mem (plus p 16) 8, load mem (plus p 32) 8, load mem (plus p 40) 8⟩

/-- `segList[s]`. -/
def segment (mem : Memory) (image : BitVec 64) (s : Nat) : Segment :=
  segmentAt mem (plus (image + phOffset mem image) (sizeofSegment * s))

/-- `GetELFSize`, the turns before `s`. -/
def sizeUpTo (mem : Memory) (image : BitVec 64) : (s : Nat) → BitVec 64
  | 0 => 0
  | s + 1 =>
      let size := sizeUpTo mem image s
      let g := segment mem image s
      if g.type = PT_LOAD then
        let offs := g.virtualAddress + g.virtualSize
        if offs > size then offs else size
      else size

def getELFSize (mem : Memory) (image : BitVec 64) : BitVec 64 := sizeUpTo mem image (phEntryCount mem image)

/-- What is looked for in the dynamic table. Its `DT_INIT_ARRAY` is read too, and never used. -/
structure Dynamic where
  relaAddr : BitVec 64
  relaSize : BitVec 64
  relaEntrySize : BitVec 64

def noDynamic : Dynamic := ⟨0, 0, BitVec.ofNat 64 sizeofRelA⟩

def Dynamic.entry (d : Dynamic) (tag value : BitVec 64) : Dynamic :=
  if tag = DT_RELA then { d with relaAddr := value }
  else if tag = DT_RELASZ then { d with relaSize := value }
  else if tag = DT_RELAENT then { d with relaEntrySize := value }
  else d

/-- The fields of `relaList[i]`. -/
def relAddress (mem : Memory) (relaList : BitVec 64) (i : Nat) : BitVec 64 :=
  load mem (plus relaList (sizeofRelA * i)) 8
def relType (mem : Memory) (relaList : BitVec 64) (i : Nat) : BitVec 32 :=
  BitVec.setWidth 32 (load mem (plus relaList (sizeofRelA * i + 8)) 8)
def relAddend (mem : Memory) (relaList : BitVec 64) (i : Nat) : BitVec 64 :=
  load mem (plus relaList (sizeofRelA * i + 16)) 8

/-- What the first `k` entries of a dynamic table say. -/
def dynamicFrom (img : Memory) : (k : Nat) → (dyn : BitVec 64) → Dynamic → Dynamic
  | 0, _, d => d
  | k + 1, dyn, d =>
      dynamicFrom img k (plus dyn sizeofDynamic) (d.entry (load img dyn 8) (load img (plus dyn 8) 8))

/-- A file of `len` bytes whose headers and segments are inside. -/
structure Fits (mem : Memory) (diskImg : BitVec 64) (len : Nat) : Prop where
  space : diskImg.toNat + len ≤ 2 ^ 64
  header : sizeofHeader ≤ len
  table : (phOffset mem diskImg).toNat + sizeofSegment * phEntryCount mem diskImg ≤ len
  data : ∀ s, s < phEntryCount mem diskImg → (segment mem diskImg s).type = PT_LOAD →
    (segment mem diskImg s).dataOffset.toNat + (segment mem diskImg s).dataSize.toNat ≤ len ∧
    (segment mem diskImg s).dataSize.toNat ≤ (segment mem diskImg s).virtualSize.toNat ∧
    (segment mem diskImg s).virtualAddress.toNat + (segment mem diskImg s).virtualSize.toNat < 2 ^ 64

/-- An image of `size` bytes with a dynamic table of `k` entries at `dyn`, and relocations that touch neither one
    another nor their own table. -/
structure Relocatable (img : Memory) (size : Nat) (dyn : BitVec 64) (k : Nat) (relaAddr : BitVec 64) (relaCount : Nat) :
    Prop where
  dynamic : dyn.toNat + sizeofDynamic * (k + 1) ≤ size
  entries : ∀ i, i < k → load img (plus dyn (sizeofDynamic * i)) 8 ≠ DT_NULL
  ends : load img (plus dyn (sizeofDynamic * k)) 8 = DT_NULL
  addr : (dynamicFrom img k dyn noDynamic).relaAddr = relaAddr
  entrySize : (dynamicFrom img k dyn noDynamic).relaEntrySize ≠ 0
  count : ((dynamicFrom img k dyn noDynamic).relaSize / (dynamicFrom img k dyn noDynamic).relaEntrySize).toNat =
    relaCount
  short : relaCount < 2 ^ 32
  table : relaAddr.toNat + sizeofRelA * relaCount ≤ size
  relative : ∀ i, i < relaCount → relType img relaAddr i = R_RELATIVE
  target : ∀ i, i < relaCount → (relAddress img relaAddr i).toNat + 8 ≤ size
  apart : ∀ i j, i < j → j < relaCount → (relAddress img relaAddr i).toNat + 8 ≤ (relAddress img relaAddr j).toNat ∨
    (relAddress img relaAddr j).toNat + 8 ≤ (relAddress img relaAddr i).toNat
  notTable : ∀ i, i < relaCount → (relAddress img relaAddr i).toNat + 8 ≤ relaAddr.toNat ∨
    relaAddr.toNat + sizeofRelA * relaCount ≤ (relAddress img relaAddr i).toNat

/-! ## 3. Pointers and headers -/

section Headers

variable {mem mem' img : Memory} {diskImg processImg p : BitVec 64} {len s k : Nat}

theorem plus_toNat {i : Nat} (h : p.toNat + i < 2 ^ 64) : (plus p i).toNat = p.toNat + i := toNat_add_ofNat h

theorem plus_plus (p : BitVec 64) (i j : Nat) : plus (plus p i) j = plus p (i + j) := by
  unfold plus
  rw [BitVec.add_assoc, ← BitVec.ofNat_add]

/-- The same bytes are the same number. -/
theorem load_congr {w : Nat} (h : ∀ i, i < w → mem' (plus p i) = mem (plus p i)) : load mem' p w = load mem p w :=
  eq_of_bytes fun i hi => by
    rw [byteOf_load _ _ hi, byteOf_load _ _ hi]
    exact h i hi

/-- The bytes of the file are as they were. -/
def SameFile (diskImg : BitVec 64) (len : Nat) (mem mem' : Memory) : Prop :=
  ∀ i, i < len → mem' (plus diskImg i) = mem (plus diskImg i)

theorem SameFile.load (h : SameFile diskImg len mem mem') {i w : Nat} (hi : i + w ≤ len) :
    load mem' (plus diskImg i) w = load mem (plus diskImg i) w :=
  load_congr fun j hj => by
    rw [plus_plus]
    exact h (i + j) (by omega)

end Headers

/-! ## 4. The segments -/

/-- Where the image is put: its `size` bytes do not run around the end, nor into the file. -/
structure Place (mem : Memory) (diskImg processImg : BitVec 64) (len size : Nat) : Prop where
  covers : (getELFSize mem diskImg).toNat = size
  space : processImg.toNat + size ≤ 2 ^ 64
  apart : ∀ i, i < len → ¬ Inside processImg size (plus diskImg i)

section Segments

variable {mem mem' img : Memory} {diskImg processImg : BitVec 64} {len size s k count fuel : Nat}

end Segments

/-! ## 5. The relocations -/

/-- The image with the first `i` relocations done. -/
structure Linked (img im : Memory) (processImg relaAddr : BitVec 64) (i : Nat) : Prop where
  slots : ∀ j, j < i → load im (relAddress img relaAddr j) 8 = relAddend img relaAddr j + processImg
  rest : ∀ x, (∀ j, j < i → ¬ Inside (relAddress img relaAddr j) 8 x) → im x = img x

section Relocations

variable {mem mem' img im : Memory} {diskImg processImg dyn relaAddr : BitVec 64} {len size k n i count fuel : Nat}

/-- The relocation table is not touched by the relocations. -/
theorem Linked.table (hr : Relocatable img size dyn k relaAddr n) (hsize : size ≤ 2 ^ 64) (hi : i ≤ n)
    (h : Linked img im processImg relaAddr i) {j : Nat} (hj : j < sizeofRelA * n) :
    im (plus relaAddr j) = img (plus relaAddr j) := by
  refine h.rest _ fun m hm hin => ?_
  have ht := hr.target m (by omega)
  have htable := hr.table
  have hto : (plus relaAddr j).toNat = relaAddr.toNat + j := plus_toNat (by omega)
  obtain ⟨h1, h2⟩ := (inside_iff (by omega)).mp hin
  have := hr.notTable m (by omega)
  omega

/-- **One relocation**: the slots before it keep what they hold. -/
theorem Linked.step (hr : Relocatable img size dyn k relaAddr n) (hsize : size ≤ 2 ^ 64) (hi : i < n)
    (h : Linked img im processImg relaAddr i) :
    Linked img (store im (relAddress img relaAddr i) 8 (relAddend img relaAddr i + processImg)) processImg relaAddr
      (i + 1) := by
  have hti := hr.target i hi
  have hout : ∀ x, ¬ Inside (relAddress img relaAddr i) 8 x →
      store im (relAddress img relaAddr i) 8 (relAddend img relaAddr i + processImg) x = im x := fun x hx =>
    store_out _ hx
  refine ⟨fun j hj => ?_, fun x hx => ?_⟩
  · rcases Nat.lt_succ_iff_lt_or_eq.mp hj with hlt | rfl
    · rw [← h.slots j hlt]
      refine load_congr fun m hm => hout _ fun hin => ?_
      have htj := hr.target j (by omega)
      have hto : (plus (relAddress img relaAddr j) m).toNat = (relAddress img relaAddr j).toNat + m :=
        plus_toNat (by omega)
      obtain ⟨h1, h2⟩ := (inside_iff (by omega)).mp hin
      have := hr.apart j i hlt hi
      omega
    · exact load_store _ _ _ (by decide)
  · rw [hout x (hx i (Nat.lt_succ_self i))]
    exact h.rest x fun j hj => hx j (by omega)

end Relocations

/-! ## 6. The kernel's image -/

section Fuel

variable {mem : Memory} {diskImg processImg : BitVec 64}

end Fuel

section Results

variable {mem : Memory} {diskImg processImg relaAddr : BitVec 64} {len size d k n : Nat}

end Results

end PrepareELF

end SimpleOS2
