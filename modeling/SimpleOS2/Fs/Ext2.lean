/-
  File:      SimpleOS2/Fs/Ext2.lean
  Subject:   READING FILES OF AN EXT2 IMAGE (fs/ext2/ext2.cpp), through the block cache.

  * `Ext2Driver.new`, `readNode`, `readNodeData` -- the constructor, `ReadNode` up to the inode it keeps, and
    `ReadNodeData` with the indirect block it loads when it comes to it;
  * `blockOf`, `fileByte` -- the block map and the bytes of a file, on the bytes of the device;
  * `new_eq`, `readNode_eq` -- driver and inode are what the image says;
  * `Reading`, `readTurn_spec`, `readLoop_spec` -- one turn and the loop;
  * `read_file` -- the result of a read, and of reads one after the other.
-/
import SimpleOS2.Devices.BlockCache
import SimpleOS2.Fs.TempFS

namespace SimpleOS2

namespace Ext2

open BlockDevice

/-! ## 1. The structures on the disk -/

/-- `uint16` and `uint32` in memory. -/
def readU16 (mem : Nat → UInt8) (a : Nat) : Nat := (mem a).toNat + 2 ^ 8 * (mem (a + 1)).toNat

def readU32 (mem : Nat → UInt8) (a : Nat) : Nat := readU16 mem a + 2 ^ 16 * readU16 mem (a + 2)

/-- `struct SuperBlock`: the fields the driver computes with. -/
structure SuperBlock where
  blockSizeShift : Nat
  inodesPerGroup : Nat
  inodeSize : Nat
  deriving DecidableEq

/-- `sizeof(SuperBlock)`, `sizeof(BlockGroupDesc)`, `sizeof(INode)`. -/
def SuperBlock.bytes : Nat := 236
def BlockGroupDesc.bytes : Nat := 18
def INode.bytes : Nat := 128

def SuperBlock.ofBytes (mem : Nat → UInt8) : SuperBlock := ⟨readU32 mem 24, readU32 mem 40, readU16 mem 88⟩

/-- `BlockGroupDesc::inodeTableBlock`. -/
def inodeTableBlock (mem : Nat → UInt8) : Nat := readU32 mem 8

/-- `struct INode`: the fields `ReadNodeData` reads. -/
structure INode where
  size : Nat
  directPointers : Fin 12 → Nat
  indirectPointer : Nat

def INode.ofBytes (mem : Nat → UInt8) : INode := ⟨readU32 mem 4, fun k => readU32 mem (40 + 4 * k), readU32 mem 88⟩

/-! ## 2. The driver -/

/-- `class Ext2Driver`. -/
structure Ext2Driver where
  dev : Nat
  sb : SuperBlock
  blockSize : Nat
  blockGroupDescTableOffset : Nat
  deriving DecidableEq

/-- A buffer of the kernel. -/
def kernelBuffer (mem : Nat → UInt8) : UserBuffer := ⟨mem, fun _ => true⟩

/-- What memory holds that nothing has been written to: the blocks a call adds to the cache, and a buffer on
    the stack or from `new`. -/
structure Garbage where
  cached : Nat → Nat → UInt8
  buffer : Nat → UInt8

/-- `Ext2Driver::Ext2Driver`. -/
def Ext2Driver.new (device : Device) (g : Garbage) (cache : List CachedBlock) (subID : Nat) :
    List CachedBlock × Ext2Driver :=
  let r := getData device g.cached cache subID 1024 (kernelBuffer g.buffer) SuperBlock.bytes
  let sb := SuperBlock.ofBytes r.2.1.mem
  let blockSize := 1024 <<< sb.blockSizeShift
  let blockAfterSuperBlock := if blockSize = 1024 then 2 else 1
  (r.1, ⟨subID, sb, blockSize, blockAfterSuperBlock * blockSize⟩)

/-- `m_Driver->GetData(..., &desc, ...)` and `m_Driver->GetData(..., inode, ...)` of `ReadNode`. -/
def readGroupDesc (device : Device) (drv : Ext2Driver) (g : Garbage) (cache : List CachedBlock) (group : Nat) :
    List CachedBlock × Nat :=
  let r := getData device g.cached cache drv.dev (u64 (group * 32 + drv.blockGroupDescTableOffset))
    (kernelBuffer g.buffer) BlockGroupDesc.bytes
  (r.1, inodeTableBlock r.2.1.mem)

def readINode (device : Device) (drv : Ext2Driver) (g : Garbage) (cache : List CachedBlock) (inodePos : Nat) :
    List CachedBlock × INode :=
  let r := getData device g.cached cache drv.dev inodePos (kernelBuffer g.buffer) INode.bytes
  (r.1, INode.ofBytes r.2.1.mem)

/-- `Ext2Driver::ReadNode`, up to `node->fsData`. -/
def readNode (device : Device) (drv : Ext2Driver) (gDesc gNode : Garbage) (cache : List CachedBlock) (id : Nat) :
    List CachedBlock × INode :=
  let group := u64 (id + 2 ^ 64 - 1) / drv.sb.inodesPerGroup
  let desc := readGroupDesc device drv gDesc cache group
  let relID := u64 (id + 2 ^ 64 - 1) % drv.sb.inodesPerGroup
  let inodePos := u64 (desc.2 * drv.blockSize + relID * drv.sb.inodeSize)
  readINode device drv gNode desc.1 inodePos

/-- The buffer from its `k`th byte on, and the buffer with that part replaced. -/
def skip (b : UserBuffer) (k : Nat) : UserBuffer := ⟨fun j => b.mem (k + j), fun j => b.mapped (k + j)⟩

def put (b : UserBuffer) (k : Nat) (mem : Nat → UInt8) : UserBuffer :=
  { b with mem := fun j => if j < k then b.mem j else mem (j - k) }

/-- The variables of `ReadNodeData`, with the cache. `done` is `res`, and `realBuffer - buffer`;
    `indirect` is `indirectBuffer` once it is loaded. -/
structure Vars where
  cache : List CachedBlock
  pos : Nat
  rem : Nat
  done : Nat
  buffer : UserBuffer
  indirect : Option (Nat → UInt8)

/-- The lazy load of the indirect block. -/
def loadIndirect (device : Device) (drv : Ext2Driver) (inode : INode) (g : Garbage) (s : Vars) : Vars :=
  match s.indirect with
  | some _ => s
  | none =>
      let r := getData device g.cached s.cache drv.dev (u64 (inode.indirectPointer * drv.blockSize))
        (kernelBuffer g.buffer) drv.blockSize
      { s with cache := r.1, indirect := some r.2.1.mem }

/-- The body of the loop; `g` for the indirect block, `gData` for the copy. -/
def readTurn (device : Device) (drv : Ext2Driver) (inode : INode) (g gData : Garbage) (s : Vars) : Vars :=
  let blockIndex := s.pos / drv.blockSize
  let s := if blockIndex < 12 then s else loadIndirect device drv inode g s
  let blockID :=
    if h : blockIndex < 12 then inode.directPointers ⟨blockIndex, h⟩
    else readU32 (s.indirect.getD fun _ => 0) (4 * (blockIndex - 12))
  let blockPos := u64 (blockID * drv.blockSize)
  let offset := s.pos % drv.blockSize
  let leftInBlock := drv.blockSize - offset
  let leftInBlock := if leftInBlock > s.rem then s.rem else leftInBlock
  let r := getData device gData.cached s.cache drv.dev (u64 (blockPos + offset)) (skip s.buffer s.done) leftInBlock
  { s with
    cache := r.1
    buffer := put s.buffer s.done r.2.1.mem
    done := u64 (s.done + leftInBlock)
    rem := s.rem - leftInBlock
    pos := u64 (s.pos + leftInBlock) }

/-- `while(rem > 0)`. -/
def readLoop (device : Device) (drv : Ext2Driver) (inode : INode) (g : Garbage) (gData : Nat → Garbage) :
    (fuel : Nat) → Vars → Option Vars
  | 0, s => if s.rem = 0 then some s else none
  | fuel + 1, s =>
      if s.rem = 0 then some s
      else readLoop device drv inode g gData fuel (readTurn device drv inode g (gData fuel) s)

/-- `Ext2Driver::ReadNodeData`: the cache, the buffer and the result. A turn takes a byte at least. -/
def readNodeData (device : Device) (drv : Ext2Driver) (inode : INode) (g : Garbage) (gData : Nat → Garbage)
    (cache : List CachedBlock) (pos : Nat) (buffer : UserBuffer) (bufferSize : Nat) :
    Option (List CachedBlock × UserBuffer × Nat) :=
  let rem := u64 (inode.size + 2 ^ 64 - pos)
  let rem := if rem > bufferSize then bufferSize else rem
  if rem = 0 then some (cache, buffer, 0)
  else (readLoop device drv inode g gData rem ⟨cache, pos, rem, 0, buffer, none⟩).map fun s =>
    (s.cache, s.buffer, s.done)

/-! ## 3. Files -/

/-- The block map: 12 direct pointers, then those in the indirect block. A pointer 0 is a hole. -/
def blockOf (image : Nat → UInt8) (blockSize : Nat) (inode : INode) (k : Nat) : Nat :=
  if h : k < 12 then inode.directPointers ⟨k, h⟩
  else if inode.indirectPointer = 0 then 0
  else readU32 image (inode.indirectPointer * blockSize + 4 * (k - 12))

/-- The byte at `p` of the file. -/
def fileByte (image : Nat → UInt8) (blockSize : Nat) (inode : INode) (p : Nat) : UInt8 :=
  if blockOf image blockSize inode (p / blockSize) = 0 then 0
  else image (blockOf image blockSize inode (p / blockSize) * blockSize + p % blockSize)

/-- The driver and the inode as the image says. -/
def driverOf (image : Nat → UInt8) (subID : Nat) : Ext2Driver :=
  let sb := SuperBlock.ofBytes fun o => image (1024 + o)
  ⟨subID, sb, 1024 <<< sb.blockSizeShift,
    if 1024 <<< sb.blockSizeShift = 1024 then 2 * 1024 <<< sb.blockSizeShift else 1024 <<< sb.blockSizeShift⟩

def inodeOf (image : Nat → UInt8) (drv : Ext2Driver) (id : Nat) : INode :=
  let table := inodeTableBlock fun o =>
    image ((id - 1) / drv.sb.inodesPerGroup * 32 + drv.blockGroupDescTableOffset + o)
  INode.ofBytes fun o => image (table * drv.blockSize + (id - 1) % drv.sb.inodesPerGroup * drv.sb.inodeSize + o)

/-- The superblock is one of ext2, whose blocks have at most 64 KiB. -/
structure WellFormed (image : Nat → UInt8) : Prop where
  shift : (SuperBlock.ofBytes fun o => image (1024 + o)).blockSizeShift ≤ 6
  groups : 0 < (SuperBlock.ofBytes fun o => image (1024 + o)).inodesPerGroup

/-- The file has no holes, and needs no further indirect blocks. -/
structure Plain (image : Nat → UInt8) (blockSize : Nat) (inode : INode) : Prop where
  size : inode.size ≤ (12 + blockSize / 4) * blockSize
  noHoles : ∀ k, k * blockSize < inode.size → blockOf image blockSize inode k ≠ 0

section Read

variable {device : Device} {cache : List CachedBlock} {subID pos n : Nat} {b : UserBuffer} {mem : Nat → UInt8}

/-! ## 4. Numbers and reads -/

theorem readU16_lt (mem : Nat → UInt8) (a : Nat) : readU16 mem a < 2 ^ 16 := by
  have h1 := (mem a).toNat_lt
  have h2 := (mem (a + 1)).toNat_lt
  unfold readU16
  omega

theorem readU32_lt (mem : Nat → UInt8) (a : Nat) : readU32 mem a < 2 ^ 32 := by
  have h1 := readU16_lt mem a
  have h2 := readU16_lt mem (a + 2)
  unfold readU32
  omega

/-- The same bytes make the same number. -/
theorem readU16_congr {mem' : Nat → UInt8} {a a' : Nat} (h : ∀ j < 2, mem (a + j) = mem' (a' + j)) :
    readU16 mem a = readU16 mem' a' := by
  have h0 := h 0 (by decide)
  have h1 := h 1 (by decide)
  rw [Nat.add_zero, Nat.add_zero] at h0
  rw [readU16, readU16, h0, h1]

theorem readU32_congr {mem' : Nat → UInt8} {a a' : Nat} (h : ∀ j < 4, mem (a + j) = mem' (a' + j)) :
    readU32 mem a = readU32 mem' a' := by
  have hlow : readU16 mem a = readU16 mem' a' := readU16_congr fun j hj => h j (by omega)
  have hhigh : readU16 mem (a + 2) = readU16 mem' (a' + 2) := readU16_congr fun j hj => by
    rw [Nat.add_assoc, Nat.add_assoc]
    exact h (2 + j) (by omega)
  rw [readU32, readU32, hlow, hhigh]

/-- The device's own blocks. -/
def Blocks (device : Device) : Prop := ∀ s, 0 < device.blockSize s ∧ device.blockSize s < 2 ^ 64

/-- **`GetData`** into a valid buffer: the cache shows what it showed, and the buffer gets that. -/
theorem getData_spec (hbs : Blocks device) (g : Nat → Nat → UInt8) (hpos : pos + n < 2 ^ 64) (hn : n ≤ 2 ^ 48)
    (hm : ∀ j < n, b.mapped j = true) :
    view device (getData device g cache subID pos b n).1 = view device cache ∧
      (getData device g cache subID pos b n).2.1 = { b with mem := flatGet (view device cache) subID pos n b.mem } := by
  let c : Call := ⟨false, subID, pos, b, n, g⟩
  have hc : c.Valid := ⟨⟨hpos, hn⟩, hm⟩
  obtain ⟨h1, h2⟩ := cacheCall_spec hbs hc cache
  exact ⟨h1, congrArg Prod.fst h2⟩

/-- The same into a buffer of the kernel. -/
theorem getData_kernel (hbs : Blocks device) (g : Nat → Nat → UInt8) (cache : List CachedBlock) (subID : Nat)
    (mem : Nat → UInt8) (hpos : pos + n < 2 ^ 64) (hn : n ≤ 2 ^ 48) :
    view device (getData device g cache subID pos (kernelBuffer mem) n).1 = view device cache ∧
      ∀ j < n, (getData device g cache subID pos (kernelBuffer mem) n).2.1.mem j =
      view device cache subID (pos + j) := by
  obtain ⟨h1, h2⟩ := getData_spec (b := kernelBuffer mem) hbs g hpos hn fun _ _ => rfl
  refine ⟨h1, fun j hj => ?_⟩
  rw [h2]
  exact if_pos hj

/-! ## 5. The driver and the inode -/

theorem new_eq (hbs : Blocks device) (g : Garbage) (cache : List CachedBlock) (subID : Nat) :
    view device (Ext2Driver.new device g cache subID).1 = view device cache ∧
      (Ext2Driver.new device g cache subID).2 = driverOf (view device cache subID) subID := by
  obtain ⟨h1, h2⟩ := getData_kernel hbs g.cached cache subID g.buffer
    (show 1024 + SuperBlock.bytes < 2 ^ 64 by decide) (by decide)
  unfold Ext2Driver.new driverOf
  obtain ⟨r, hr⟩ : ∃ r, getData device g.cached cache subID 1024 (kernelBuffer g.buffer) SuperBlock.bytes = r :=
    ⟨_, rfl⟩
  rw [hr] at h1 h2 ⊢
  have hu32 : ∀ a, a + 4 ≤ 236 → readU32 r.2.1.mem a = readU32 (fun o => view device cache subID (1024 + o)) a :=
    fun a ha => readU32_congr fun j hj => h2 (a + j) (Nat.lt_of_lt_of_le (Nat.add_lt_add_left hj a) ha)
  have hu16 : ∀ a, a + 2 ≤ 236 → readU16 r.2.1.mem a = readU16 (fun o => view device cache subID (1024 + o)) a :=
    fun a ha => readU16_congr fun j hj => h2 (a + j) (Nat.lt_of_lt_of_le (Nat.add_lt_add_left hj a) ha)
  have hsb : SuperBlock.ofBytes r.2.1.mem = SuperBlock.ofBytes fun o => view device cache subID (1024 + o) := by
    rw [SuperBlock.ofBytes, SuperBlock.ofBytes, hu32 24 (by decide), hu32 40 (by decide), hu16 88 (by decide)]
  refine ⟨h1, ?_⟩
  dsimp only
  rw [hsb]
  split_ifs
  · rfl
  · rw [Nat.one_mul]

/-- The block size of a well-formed image. -/
theorem blockSize_bounds {image : Nat → UInt8} (hw : WellFormed image) (subID : Nat) :
    1024 ≤ (driverOf image subID).blockSize ∧ (driverOf image subID).blockSize ≤ 2 ^ 16 := by
  have hshift := hw.shift
  show 1024 ≤ 1024 <<< _ ∧ 1024 <<< _ ≤ 2 ^ 16
  rw [Nat.shiftLeft_eq]
  have h1 : 2 ^ 0 ≤ 2 ^ (SuperBlock.ofBytes fun o => image (1024 + o)).blockSizeShift :=
    Nat.pow_le_pow_right (by decide) (Nat.zero_le _)
  have h2 : 2 ^ (SuperBlock.ofBytes fun o => image (1024 + o)).blockSizeShift ≤ 2 ^ 6 :=
    Nat.pow_le_pow_right (by decide) hshift
  omega

theorem tableOffset_le {image : Nat → UInt8} (hw : WellFormed image) (subID : Nat) :
    (driverOf image subID).blockGroupDescTableOffset ≤ 2 ^ 17 := by
  have hb := (blockSize_bounds hw subID).2
  have hdef : (driverOf image subID).blockGroupDescTableOffset =
      if (driverOf image subID).blockSize = 1024 then 2 * (driverOf image subID).blockSize
      else (driverOf image subID).blockSize := rfl
  rw [hdef]
  split_ifs <;> omega

/-- The numbers of an inode are 32 bits wide. -/
structure INode.Fits (inode : INode) : Prop where
  size : inode.size < 2 ^ 32
  direct : ∀ k, inode.directPointers k < 2 ^ 32
  indirect : inode.indirectPointer < 2 ^ 32

theorem INode.ofBytes_fits (mem : Nat → UInt8) : (INode.ofBytes mem).Fits :=
  ⟨readU32_lt _ _, fun _ => readU32_lt _ _, readU32_lt _ _⟩

theorem INode.ofBytes_congr {mem' : Nat → UInt8} (h : ∀ j < 128, mem j = mem' j) :
    INode.ofBytes mem = INode.ofBytes mem' := by
  have hu32 : ∀ a, a + 4 ≤ 128 → readU32 mem a = readU32 mem' a := fun a ha =>
    readU32_congr fun j hj => h (a + j) (Nat.lt_of_lt_of_le (Nat.add_lt_add_left hj a) ha)
  have hdirect : (fun k : Fin 12 => readU32 mem (40 + 4 * k)) = fun k : Fin 12 => readU32 mem' (40 + 4 * k) :=
    funext fun k => hu32 _ (by omega)
  rw [INode.ofBytes, INode.ofBytes, hu32 4 (by decide), hu32 88 (by decide), hdirect]

theorem readGroupDesc_eq (hbs : Blocks device) (drv : Ext2Driver) (g : Garbage) (cache : List CachedBlock) {group : Nat}
    (hpos : group * 32 + drv.blockGroupDescTableOffset + 18 < 2 ^ 64) :
    ∃ cache', readGroupDesc device drv g cache group = (cache', inodeTableBlock fun o =>
        view device cache drv.dev (group * 32 + drv.blockGroupDescTableOffset + o)) ∧
      view device cache' = view device cache := by
  obtain ⟨h1, h2⟩ := getData_kernel (n := 18) hbs g.cached cache drv.dev g.buffer hpos (by decide)
  unfold readGroupDesc BlockGroupDesc.bytes
  rw [u64_of_lt (by omega)]
  obtain ⟨r, hr⟩ : ∃ r, getData device g.cached cache drv.dev (group * 32 + drv.blockGroupDescTableOffset)
    (kernelBuffer g.buffer) 18 = r := ⟨_, rfl⟩
  rw [hr] at h1 h2 ⊢
  refine ⟨r.1, ?_, h1⟩
  have htable : inodeTableBlock r.2.1.mem = inodeTableBlock fun o =>
      view device cache drv.dev (group * 32 + drv.blockGroupDescTableOffset + o) :=
    readU32_congr fun j hj => h2 (8 + j) (by omega)
  dsimp only
  rw [htable]

theorem readINode_eq (hbs : Blocks device) (drv : Ext2Driver) (g : Garbage) (cache : List CachedBlock) {inodePos : Nat}
    (hpos : inodePos + 128 < 2 ^ 64) :
    ∃ cache', readINode device drv g cache inodePos =
        (cache', INode.ofBytes fun o => view device cache drv.dev (inodePos + o)) ∧
      view device cache' = view device cache := by
  obtain ⟨h1, h2⟩ := getData_kernel (n := 128) hbs g.cached cache drv.dev g.buffer hpos (by decide)
  unfold readINode INode.bytes
  obtain ⟨r, hr⟩ : ∃ r, getData device g.cached cache drv.dev inodePos (kernelBuffer g.buffer) 128 = r := ⟨_, rfl⟩
  rw [hr] at h1 h2 ⊢
  refine ⟨r.1, ?_, h1⟩
  dsimp only
  rw [INode.ofBytes_congr h2]

/-- **`ReadNode`** finds the inode that the image has for the number. -/
theorem readNode_eq (hbs : Blocks device) {drv : Ext2Driver} (hb : drv.blockSize ≤ 2 ^ 16)
    (ht : drv.blockGroupDescTableOffset ≤ 2 ^ 17) (hs : drv.sb.inodeSize < 2 ^ 16) {id : Nat} (h0 : 0 < id)
    (hid : id < 2 ^ 32) (gDesc gNode : Garbage) (cache : List CachedBlock) :
    ∃ cache', readNode device drv gDesc gNode cache id = (cache', inodeOf (view device cache drv.dev) drv id) ∧
      view device cache' = view device cache := by
  have hnum : u64 (id + 2 ^ 64 - 1) = id - 1 := u64_sub h0 (by omega)
  have hgroup : (id - 1) / drv.sb.inodesPerGroup ≤ id - 1 := Nat.div_le_self _ _
  have hrel : (id - 1) % drv.sb.inodesPerGroup ≤ id - 1 := Nat.mod_le _ _
  obtain ⟨cache1, hdesc, hview1⟩ := readGroupDesc_eq hbs drv gDesc cache
    (show (id - 1) / drv.sb.inodesPerGroup * 32 + drv.blockGroupDescTableOffset + 18 < 2 ^ 64 by omega)
  have htable : inodeTableBlock (fun o => view device cache drv.dev
      ((id - 1) / drv.sb.inodesPerGroup * 32 + drv.blockGroupDescTableOffset + o)) < 2 ^ 32 := readU32_lt _ _
  unfold readNode inodeOf
  rw [hnum]
  dsimp only
  rw [hdesc]
  obtain ⟨table, heq⟩ : ∃ table, inodeTableBlock (fun o => view device cache drv.dev
    ((id - 1) / drv.sb.inodesPerGroup * 32 + drv.blockGroupDescTableOffset + o)) = table := ⟨_, rfl⟩
  rw [heq] at htable ⊢
  have hpos1 : table * drv.blockSize ≤ 2 ^ 32 * 2 ^ 16 := Nat.mul_le_mul (Nat.le_of_lt htable) hb
  have hpos2 : (id - 1) % drv.sb.inodesPerGroup * drv.sb.inodeSize ≤ 2 ^ 32 * 2 ^ 16 :=
    Nat.mul_le_mul (by omega) (Nat.le_of_lt hs)
  have hpos : table * drv.blockSize + (id - 1) % drv.sb.inodesPerGroup * drv.sb.inodeSize + 128 < 2 ^ 64 := by omega
  obtain ⟨cache2, hnode, hview2⟩ := readINode_eq hbs drv gNode cache1 hpos
  refine ⟨cache2, ?_, hview2.trans hview1⟩
  rw [u64_of_lt (Nat.lt_of_le_of_lt (Nat.le_add_right _ 128) hpos), hnode, hview1]

end Read

/-! ## 6. One read -/

section File

variable {device : Device} {drv : Ext2Driver} {inode : INode} {flat : Nat → Nat → UInt8} {pos₀ total : Nat}
  {buffer : UserBuffer} {s : Vars}

/-- What a read rests on: the numbers of driver and inode, and a plain file on the bytes that the cache shows. -/
structure File (device : Device) (flat : Nat → Nat → UInt8) (drv : Ext2Driver) (inode : INode) : Prop where
  blocks : Blocks device
  large : 1024 ≤ drv.blockSize
  small : drv.blockSize ≤ 2 ^ 16
  fits : inode.Fits
  plain : Plain (flat drv.dev) drv.blockSize inode

/-- A read of `total` bytes from `pos₀` on stays inside the file and has a valid buffer. -/
structure Readable (device : Device) (flat : Nat → Nat → UInt8) (drv : Ext2Driver) (inode : INode) (pos₀ total : Nat)
    (buffer : UserBuffer) : Prop extends File device flat drv inode where
  range : pos₀ + total ≤ inode.size
  mapped : ∀ j < total, buffer.mapped j = true

/-- **The read stands** behind its first `done` bytes. -/
structure Reading (device : Device) (flat : Nat → Nat → UInt8) (drv : Ext2Driver) (inode : INode) (pos₀ total : Nat)
    (buffer : UserBuffer) (s : Vars) : Prop where
  shown : view device s.cache = flat
  pos : s.pos = pos₀ + s.done
  left : s.done + s.rem = total
  mapped : s.buffer.mapped = buffer.mapped
  mem : ∀ j, s.buffer.mem j =
    if j < s.done then fileByte (flat drv.dev) drv.blockSize inode (pos₀ + j) else buffer.mem j
  indirect : ∀ mem, s.indirect = some mem →
    ∀ o < drv.blockSize, mem o = flat drv.dev (inode.indirectPointer * drv.blockSize + o)

/-- The lazy load changes nothing else. -/
theorem loadIndirect_spec (hr : Readable device flat drv inode pos₀ total buffer) (g : Garbage)
    (h : Reading device flat drv inode pos₀ total buffer s) :
    ∃ cache' mem, loadIndirect device drv inode g s = { s with cache := cache', indirect := some mem } ∧
      Reading device flat drv inode pos₀ total buffer { s with cache := cache', indirect := some mem } := by
  unfold loadIndirect
  cases hi : s.indirect with
  | some mem =>
      refine ⟨s.cache, mem, ?_, h.shown, h.pos, h.left, h.mapped, h.mem, fun m hm => h.indirect m (hi.trans hm)⟩
      show s = _
      rw [← hi]
  | none =>
      have hprod : inode.indirectPointer * drv.blockSize ≤ 2 ^ 32 * 2 ^ 16 :=
        Nat.mul_le_mul (Nat.le_of_lt hr.fits.indirect) hr.small
      have hsmall := hr.small
      have hpos : inode.indirectPointer * drv.blockSize + drv.blockSize < 2 ^ 64 := by omega
      obtain ⟨h1, h2⟩ := getData_kernel hr.blocks g.cached s.cache drv.dev g.buffer hpos (by omega)
      rw [u64_of_lt (Nat.lt_of_le_of_lt (Nat.le_add_right _ _) hpos)]
      obtain ⟨r, hd⟩ : ∃ r, getData device g.cached s.cache drv.dev (inode.indirectPointer * drv.blockSize)
        (kernelBuffer g.buffer) drv.blockSize = r := ⟨_, rfl⟩
      rw [hd, h.shown] at h1 h2
      rw [hd]
      refine ⟨r.1, r.2.1.mem, rfl, h1, h.pos, h.left, h.mapped, h.mem, fun m hm => ?_⟩
      cases hm
      exact h2

/-- The block of a position inside the file. -/
theorem block_of_pos (hr : Readable device flat drv inode pos₀ total buffer) {p : Nat} (hp : p < inode.size) :
    p / drv.blockSize < 12 + drv.blockSize / 4 ∧
      blockOf (flat drv.dev) drv.blockSize inode (p / drv.blockSize) ≠ 0 ∧
      blockOf (flat drv.dev) drv.blockSize inode (p / drv.blockSize) < 2 ^ 32 := by
  have hpos : 0 < drv.blockSize := Nat.lt_of_lt_of_le (by decide) hr.large
  refine ⟨(Nat.div_lt_iff_lt_mul hpos).mpr (Nat.lt_of_lt_of_le hp hr.plain.size),
    hr.plain.noHoles _ (Nat.lt_of_le_of_lt (Nat.div_mul_le_self p _) hp), ?_⟩
  unfold blockOf
  split_ifs
  · exact hr.fits.direct _
  · decide
  · exact readU32_lt _ _

/-- The block that a turn reads from, and the variables it goes on with. -/
theorem turn_block (hr : Readable device flat drv inode pos₀ total buffer) (g : Garbage)
    (h : Reading device flat drv inode pos₀ total buffer s) (hrem : s.rem ≠ 0) :
    ∃ cache' indirect', Reading device flat drv inode pos₀ total buffer
    { s with cache := cache', indirect := indirect' } ∧
      (if s.pos / drv.blockSize < 12 then s else loadIndirect device drv inode g s) =
        { s with cache := cache', indirect := indirect' } ∧
      (if h : s.pos / drv.blockSize < 12 then inode.directPointers ⟨s.pos / drv.blockSize, h⟩
        else readU32 (indirect'.getD fun _ => 0) (4 * (s.pos / drv.blockSize - 12))) =
        blockOf (flat drv.dev) drv.blockSize inode (s.pos / drv.blockSize) := by
  have hp : s.pos < inode.size := by
    have h1 := h.pos
    have h2 := h.left
    have h3 := hr.range
    omega
  obtain ⟨hidx, hne, -⟩ := block_of_pos hr hp
  by_cases hk : s.pos / drv.blockSize < 12
  · refine ⟨s.cache, s.indirect, h, if_pos hk, ?_⟩
    rw [dif_pos hk, blockOf, dif_pos hk]
  · obtain ⟨cache', mem, hload, hreading⟩ := loadIndirect_spec hr g h
    refine ⟨cache', some mem, hreading, (if_neg hk).trans hload, ?_⟩
    rw [blockOf, dif_neg hk] at hne
    rw [dif_neg hk, blockOf, dif_neg hk]
    by_cases h0 : inode.indirectPointer = 0
    · rw [if_pos h0] at hne
      exact absurd rfl hne
    · -- the pointer lies inside the indirect block
      rw [if_neg h0]
      refine readU32_congr fun j hj => ?_
      have hin : 4 * (s.pos / drv.blockSize - 12) + j < drv.blockSize := by omega
      rw [Nat.add_assoc]
      exact hreading.indirect mem rfl _ hin

/-- Bytes of one block. -/
theorem fileByte_block {bs p i : Nat} {image : Nat → UInt8} (hi : p % bs + i < bs)
    (hne : blockOf image bs inode (p / bs) ≠ 0) :
    fileByte image bs inode (p + i) = image (blockOf image bs inode (p / bs) * bs + (p % bs + i)) := by
  have hp : p + i = bs * (p / bs) + (p % bs + i) := by
    rw [← Nat.add_assoc, Nat.div_add_mod]
  have hpos : 0 < bs := by omega
  have hq : (p + i) / bs = p / bs := by
    rw [hp, Nat.mul_add_div hpos, Nat.div_eq_of_lt hi, Nat.add_zero]
  have hm : (p + i) % bs = p % bs + i := by
    rw [hp, Nat.mul_add_mod, Nat.mod_eq_of_lt hi]
  rw [fileByte, hq, hm, if_neg hne]

/-- **One turn** reads a part of one block. -/
theorem readTurn_spec (hr : Readable device flat drv inode pos₀ total buffer) (g gData : Garbage)
    (h : Reading device flat drv inode pos₀ total buffer s) (hrem : s.rem ≠ 0) :
    Reading device flat drv inode pos₀ total buffer (readTurn device drv inode g gData s) ∧
      (readTurn device drv inode g gData s).rem < s.rem := by
  obtain ⟨cache', indirect', hI, hvars, hblock⟩ := turn_block hr g h hrem
  have hsize := hr.fits.size
  have hrange := hr.range
  have hpos := h.pos
  have hleft := h.left
  have hsmall := hr.small
  have hbs : 0 < drv.blockSize := Nat.lt_of_lt_of_le (by decide) hr.large
  have hmod := Nat.mod_lt s.pos hbs
  obtain ⟨-, hne, hlt⟩ := block_of_pos hr (show s.pos < inode.size by omega)
  have hprod : blockOf (flat drv.dev) drv.blockSize inode (s.pos / drv.blockSize) * drv.blockSize ≤ 2 ^ 32 * 2 ^ 16 :=
    Nat.mul_le_mul (Nat.le_of_lt hlt) hsmall
  unfold readTurn
  dsimp only
  rw [hvars]
  dsimp only
  rw [hblock]
  obtain ⟨n, hn⟩ : ∃ n, (if drv.blockSize - s.pos % drv.blockSize > s.rem then s.rem
    else drv.blockSize - s.pos % drv.blockSize) = n := ⟨_, rfl⟩
  have hbounds : 0 < n ∧ n ≤ s.rem ∧ s.pos % drv.blockSize + n ≤ drv.blockSize := by
    rw [← hn]
    split_ifs <;> omega
  obtain ⟨hn0, hnrem, hnbs⟩ := hbounds
  obtain ⟨B, hB⟩ : ∃ B, blockOf (flat drv.dev) drv.blockSize inode (s.pos / drv.blockSize) * drv.blockSize = B :=
    ⟨_, rfl⟩
  rw [hB] at hprod
  rw [hn, hB, u64_of_lt (Nat.lt_of_le_of_lt hprod (by decide)),
    u64_of_lt (show B + s.pos % drv.blockSize < 2 ^ 64 by omega),
    u64_of_lt (show s.done + n < 2 ^ 64 by omega), u64_of_lt (show s.pos + n < 2 ^ 64 by omega)]
  obtain ⟨h1, h2⟩ := getData_spec (b := skip s.buffer s.done) hr.blocks gData.cached
    (show B + s.pos % drv.blockSize + n < 2 ^ 64 by omega) (by omega) fun j hj => by
      show s.buffer.mapped (s.done + j) = true
      rw [h.mapped]
      exact hr.mapped _ (by omega)
  obtain ⟨r, hd⟩ : ∃ r, getData device gData.cached cache' drv.dev (B + s.pos % drv.blockSize)
      (skip s.buffer s.done) n = r :=
    ⟨_, rfl⟩
  rw [hd] at h1 h2
  rw [hd]
  have hshown : view device cache' = flat := hI.shown
  rw [hshown] at h1 h2
  refine ⟨⟨h1, ?_, ?_, h.mapped, fun j => ?_, hI.indirect⟩, by omega⟩
  · show s.pos + n = pos₀ + (s.done + n)
    omega
  · show s.done + n + (s.rem - n) = total
    omega
  · show (if j < s.done then s.buffer.mem j else r.2.1.mem (j - s.done)) = if j < s.done + n then _ else _
    by_cases hj : j < s.done
    · rw [if_pos hj, if_pos (by omega), h.mem, if_pos hj]
    · have hmem : r.2.1.mem (j - s.done) = if j - s.done < n then flat drv.dev
          (B + s.pos % drv.blockSize + (j - s.done))
          else s.buffer.mem (s.done + (j - s.done)) := by
        rw [h2]
        rfl
      rw [if_neg hj, hmem]
      by_cases hjn : j < s.done + n
      · have hin : s.pos % drv.blockSize + (j - s.done) < drv.blockSize := by omega
        have hp : pos₀ + j = s.pos + (j - s.done) := by omega
        rw [if_pos (by omega), if_pos hjn, hp, fileByte_block hin hne, hB, Nat.add_assoc]
      · have hback : s.done + (j - s.done) = j := by omega
        rw [if_neg (by omega), if_neg hjn, hback, h.mem, if_neg hj]

/-- **The loop** ends, behind the last byte. -/
theorem readLoop_spec (hr : Readable device flat drv inode pos₀ total buffer) (g : Garbage) (gData : Nat → Garbage)
    (fuel : Nat) (h : Reading device flat drv inode pos₀ total buffer s) (hf : s.rem ≤ fuel) :
    ∃ s', readLoop device drv inode g gData fuel s = some s' ∧ Reading device flat drv inode pos₀ total buffer s' ∧
      s'.rem = 0 := by
  induction fuel generalizing s with
  | zero => exact ⟨s, if_pos (Nat.le_zero.mp hf), h, Nat.le_zero.mp hf⟩
  | succ fuel ih =>
      rw [readLoop]
      by_cases hrem : s.rem = 0
      · rw [if_pos hrem]
        exact ⟨s, rfl, h, hrem⟩
      · obtain ⟨hnext, hless⟩ := readTurn_spec hr g (gData fuel) h hrem
        rw [if_neg hrem]
        exact ih hnext (by omega)

end File

/-- A read of a process: the buffer, its size, and what the call finds in memory. -/
structure Chunk where
  buffer : UserBuffer
  bufferSize : Nat
  indirect : Garbage
  data : Nat → Garbage

def Chunk.Valid (c : Chunk) : Prop := ∀ j < c.bufferSize, c.buffer.mapped j = true

/-- `ReadNodeData` for this read. -/
def Chunk.read (device : Device) (drv : Ext2Driver) (inode : INode) (cache : List CachedBlock) (pos : Nat) (c : Chunk) :
    Option (List CachedBlock × UserBuffer × Nat) :=
  readNodeData device drv inode c.indirect c.data cache pos c.buffer c.bufferSize

/-- Reads one after the other, each where the one before it has ended: the bytes they give. -/
def readChunks (device : Device) (drv : Ext2Driver) (inode : INode) :
    (cache : List CachedBlock) → (pos : Nat) → List Chunk → Option (List UInt8)
  | _, _, [] => some []
  | cache, pos, c :: cs => do
      let (cache, buffer, n) ← c.read device drv inode cache pos
      let rest ← readChunks device drv inode cache (pos + n) cs
      return TempFS.bytes buffer.mem n ++ rest

/-- The sizes of the buffers together. -/
def totalSize (cs : List Chunk) : Nat := (cs.map (·.bufferSize)).sum

section Reads

variable {device : Device} {drv : Ext2Driver} {inode : INode} {flat : Nat → Nat → UInt8} {pos : Nat}
  {cache : List CachedBlock}

/-- The buffer with the first `n` bytes from `pos` on of the file. -/
def filled (flat : Nat → Nat → UInt8) (drv : Ext2Driver) (inode : INode) (pos n : Nat) (b : UserBuffer) : UserBuffer :=
  { b with mem := fun j => if j < n then fileByte (flat drv.dev) drv.blockSize inode (pos + j) else b.mem j }

/-- **`ReadNodeData`** on such a file. -/
theorem readNodeData_spec (hf : File device flat drv inode) (hpos : pos ≤ inode.size) (hview : view device cache = flat)
    {c : Chunk} (hc : c.Valid) :
    ∃ cache', c.read device drv inode cache pos =
        some (cache', filled flat drv inode pos (min c.bufferSize (inode.size - pos)) c.buffer,
          min c.bufferSize (inode.size - pos)) ∧ view device cache' = flat := by
  have hsize := hf.fits.size
  have hsub : u64 (inode.size + 2 ^ 64 - pos) = inode.size - pos := u64_sub hpos (by omega)
  have hmin : (if inode.size - pos > c.bufferSize then c.bufferSize else inode.size - pos) =
      min c.bufferSize (inode.size - pos) := by
    split_ifs with h
    · exact (Nat.min_eq_left (Nat.le_of_lt h)).symm
    · exact (Nat.min_eq_right (Nat.not_lt.mp h)).symm
  unfold Chunk.read readNodeData
  rw [hsub]
  dsimp only
  rw [hmin]
  obtain ⟨n, hn⟩ : ∃ n, min c.bufferSize (inode.size - pos) = n := ⟨_, rfl⟩
  have hle : n ≤ c.bufferSize ∧ n ≤ inode.size - pos := ⟨hn ▸ Nat.min_le_left _ _, hn ▸ Nat.min_le_right _ _⟩
  rw [hn]
  by_cases h0 : n = 0
  · rw [if_pos h0, h0]
    exact ⟨cache, rfl, hview⟩
  · rw [if_neg h0]
    have hr : Readable device flat drv inode pos n c.buffer :=
      ⟨hf, by omega, fun j hj => hc j (by omega)⟩
    have hstart : Reading device flat drv inode pos n c.buffer ⟨cache, pos, n, 0, c.buffer, none⟩ :=
      ⟨hview, rfl, Nat.zero_add n, rfl, fun _ => rfl, fun _ h => (by cases h)⟩
    obtain ⟨s, hloop, hend, hrem⟩ := readLoop_spec hr c.indirect c.data n hstart le_rfl
    have hdone : s.done = n := by
      have := hend.left
      omega
    have hbuffer : s.buffer = filled flat drv inode pos n c.buffer := by
      have hmem : s.buffer.mem = (filled flat drv inode pos n c.buffer).mem := funext fun j => by
        rw [hend.mem, hdone]
        rfl
      show (⟨s.buffer.mem, s.buffer.mapped⟩ : UserBuffer) = _
      rw [hmem, hend.mapped]
      rfl
    refine ⟨s.cache, ?_, hend.shown⟩
    rw [hloop, ← hbuffer, ← hdone]
    rfl

/-- The bytes of two pieces, one behind the other. -/
theorem bytes_add (f : Nat → UInt8) (m n : Nat) :
    TempFS.bytes f (m + n) = TempFS.bytes f m ++ TempFS.bytes (fun j => f (m + j)) n := by
  rw [TempFS.bytes, TempFS.bytes, TempFS.bytes, List.range_add, List.map_append, List.map_map]
  rfl

/-- **Reads one after the other** give the file from `pos` on, as far as the buffers reach together. -/
theorem readChunks_spec (hf : File device flat drv inode) (cs : List Chunk) (hcs : ∀ c ∈ cs, c.Valid)
    (hpos : pos ≤ inode.size) (hview : view device cache = flat) :
    readChunks device drv inode cache pos cs =
      some (TempFS.bytes (fun j => fileByte (flat drv.dev) drv.blockSize inode (pos + j))
        (min (totalSize cs) (inode.size - pos))) := by
  induction cs generalizing cache pos with
  | nil =>
      have h0 : min (totalSize []) (inode.size - pos) = 0 := Nat.zero_min _
      rw [h0]
      rfl
  | cons c cs ih =>
      obtain ⟨cache', hread, hview'⟩ := readNodeData_spec hf hpos hview (hcs c List.mem_cons_self)
      obtain ⟨n, hn⟩ : ∃ n, min c.bufferSize (inode.size - pos) = n := ⟨_, rfl⟩
      rw [hn] at hread
      have hle : n ≤ inode.size - pos := hn ▸ Nat.min_le_right _ _
      have hrest := ih (fun c hc => hcs c (List.mem_cons_of_mem _ hc)) (show pos + n ≤ inode.size by omega) hview'
      have hsum : min (totalSize (c :: cs)) (inode.size - pos) = n + min (totalSize cs) (inode.size - (pos + n)) := by
        have htotal : totalSize (c :: cs) = c.bufferSize + totalSize cs := List.sum_cons
        omega
      rw [readChunks, hread]
      show (do let rest ← readChunks device drv inode cache' (pos + n) cs; return _ ++ rest) = _
      rw [hrest, hsum, bytes_add]
      have hbytes : TempFS.bytes (filled flat drv inode pos n c.buffer).mem n =
          TempFS.bytes (fun j => fileByte (flat drv.dev) drv.blockSize inode (pos + j)) n :=
        List.map_congr_left fun j hj => if_pos (List.mem_range.mp hj)
      have hshift : (fun j => fileByte (flat drv.dev) drv.blockSize inode (pos + n + j)) =
          fun j => fileByte (flat drv.dev) drv.blockSize inode (pos + (n + j)) :=
        funext fun j => by rw [Nat.add_assoc]
      show some (_ ++ _) = _
      rw [hbytes, hshift]

end Reads

/-! ## 7. Results -/

/-- What reads of the file give, wherever they begin and whatever the cache has come to hold: as many bytes as there
    are, those of the file; and read by read the same bytes, however the reads are cut. -/
structure ReadsFile (device : Device) (flat : Nat → Nat → UInt8) (drv : Ext2Driver) (inode : INode) : Prop where
  read : ∀ cache, view device cache = flat → ∀ pos ≤ inode.size, ∀ c : Chunk, c.Valid →
    ∃ cache', c.read device drv inode cache pos =
        some (cache', filled flat drv inode pos (min c.bufferSize (inode.size - pos)) c.buffer,
          min c.bufferSize (inode.size - pos)) ∧ view device cache' = flat
  chunks : ∀ cache, view device cache = flat → ∀ pos ≤ inode.size, ∀ cs : List Chunk, (∀ c ∈ cs, c.Valid) →
    readChunks device drv inode cache pos cs =
      some (TempFS.bytes (fun j => fileByte (flat drv.dev) drv.blockSize inode (pos + j))
        (min (totalSize cs) (inode.size - pos)))

/-- **Reading a file** of a well-formed image: the driver and the inode are those of the image, and the reads give
    the bytes of the file. -/
theorem read_file {device : Device} (hbs : Blocks device) (cache : List CachedBlock) (subID : Nat)
    (hw : WellFormed (view device cache subID)) {id : Nat} (h0 : 0 < id) (hid : id < 2 ^ 32)
    (hp : Plain (view device cache subID) (driverOf (view device cache subID) subID).blockSize
      (inodeOf (view device cache subID) (driverOf (view device cache subID) subID) id))
    (g gDesc gNode : Garbage) :
    ∃ cache1 cache2 drv inode, Ext2Driver.new device g cache subID = (cache1, drv) ∧
      readNode device drv gDesc gNode cache1 id = (cache2, inode) ∧
      drv = driverOf (view device cache subID) subID ∧ inode = inodeOf (view device cache subID) drv id ∧
      view device cache2 = view device cache ∧ ReadsFile device (view device cache) drv inode := by
  obtain ⟨hview1, hnew⟩ := new_eq hbs g cache subID
  obtain ⟨r, hr⟩ : ∃ r, Ext2Driver.new device g cache subID = r := ⟨_, rfl⟩
  rw [hr] at hview1 hnew
  have hb := blockSize_bounds hw subID
  have ht := tableOffset_le hw subID
  have hs : (driverOf (view device cache subID) subID).sb.inodeSize < 2 ^ 16 := readU16_lt _ _
  have hdev : (driverOf (view device cache subID) subID).dev = subID := rfl
  obtain ⟨cache2, hnode, hview2⟩ := readNode_eq hbs hb.2 ht hs h0 hid gDesc gNode r.1
  rw [hview1, hdev] at hnode
  have hfile : File device (view device cache) (driverOf (view device cache subID) subID)
      (inodeOf (view device cache subID) (driverOf (view device cache subID) subID) id) :=
    ⟨hbs, hb.1, hb.2, INode.ofBytes_fits _, hp⟩
  refine ⟨r.1, cache2, _, _, ?_, hnode, rfl, rfl, hview2.trans hview1, ?_, ?_⟩
  · rw [hr, ← hnew]
  · exact fun cache hview pos hpos c hc => readNodeData_spec hfile hpos hview hc
  · exact fun cache hview pos hpos cs hcs => readChunks_spec hfile cs hcs hpos hview

section Image

/-- Blocks of 1024 bytes, a group of 8 inodes in block 3. Inode 1 has 12 blocks, all of them block 5, and one byte
    in block 7, to which the indirect block 6 points. -/
def image (p : Nat) : UInt8 :=
  if p = 1064 then 8 else if p = 1112 then 128 else if p = 2056 then 3
  else if p = 3076 then 1 else if p = 3077 then 0x30
  else if 3112 ≤ p ∧ p < 3160 ∧ p % 4 = 0 then 5 else if p = 3160 then 6
  else if p = 6144 then 7 else if p / 1024 = 5 then 66 else if p / 1024 = 7 then 65 else 0

def imageDevice : Device := ⟨fun _ => image, fun _ => 512⟩

theorem image_plain : Plain image (driverOf image 0).blockSize (inodeOf image (driverOf image 0) 1) := by
  refine ⟨by decide, fun k hk => ?_⟩
  have hsize : (inodeOf image (driverOf image 0) 1).size = 12289 := by decide
  have hbs : (driverOf image 0).blockSize = 1024 := by decide
  rw [hsize, hbs] at hk
  have hk13 : k < 13 := by omega
  clear hk
  revert k
  decide

theorem image_wellFormed : WellFormed image := ⟨by decide, by decide⟩

def zeros : Garbage := ⟨fun _ _ => 0, fun _ => 0⟩

/-- Three bytes are asked for at 12287: two are left, one in the last direct block and one behind the indirect one. -/
theorem read_file_seam : ∃ cache1 cache2 drv inode, Ext2Driver.new imageDevice zeros [] 0 = (cache1, drv) ∧
    readNode imageDevice drv zeros zeros cache1 1 = (cache2, inode) ∧
    ReadsFile imageDevice (view imageDevice []) drv inode ∧
    (TempFS.bytes (fun j => fileByte image drv.blockSize inode (12287 + j)) (min 3 (inode.size - 12287))) =
      [66, 65] := by
  have hv : view imageDevice [] 0 = image := rfl
  have hbs : Blocks imageDevice := fun _ => (by decide : 0 < 512 ∧ 512 < 2 ^ 64)
  obtain ⟨cache1, cache2, drv, inode, h1, h2, h3, h4, -, h5⟩ := read_file hbs [] 0 (hv ▸ image_wellFormed)
    (show 0 < 1 by decide) (by decide) (hv ▸ image_plain) zeros zeros zeros
  refine ⟨cache1, cache2, drv, inode, h1, h2, h5, ?_⟩
  rw [h4, h3, hv]
  decide

end Image

end Ext2

end SimpleOS2
