/-
  File:      SimpleOS2/Fs/Ext2Directory.lean
  Subject:   READING DIRECTORIES OF AN EXT2 IMAGE (`Ext2Driver::ReadNode`, fs/ext2/ext2.cpp).

  `ReadNode` walks the records of a directory by their sizes and adds an entry to a `Directory` for each. It
  takes the block of a record from the direct pointers whatever its number is, does not ask whether the record
  is in use, and copies the name at the length that the record gives.

  * `scanTurn`, `readDirectory` -- the loop, with what it asks the device for and where it stores;
  * `Records` -- the records of a well-formed directory;
  * `scanTurn_spec`, `scanLoop_spec` -- a turn and the loop, in the first twelve blocks;
  * `Imported`, `Importable`, `directory_import` -- what should hold of the result, and the condition under which
    it does; `unused_record`;
  * `Advances`, `directory_scan_ends` -- when the loop ends, over any content of the device; `record_of_size_zero`.
-/
import SimpleOS2.Fs.Directory
import SimpleOS2.Fs.IndirectBlocks

namespace SimpleOS2

namespace Ext2

open BlockDevice
open Lookup (Dir DirectoryEntry Represents Stored addEntry addNamed storeEntry entrySize nameAt nodeIDAt)

/-! ## 1. The loop -/

/-- `struct DirEntry`, before its name. -/
structure DirEntry where
  inode : Nat
  entrySize : Nat
  nameLengthLow : Nat
  deriving DecidableEq

/-- `sizeof(DirEntry)`. -/
def DirEntry.bytes : Nat := 8

def DirEntry.ofBytes (mem : Nat → UInt8) : DirEntry := ⟨readU32 mem 0, readU16 mem 4, (mem 6).toNat⟩

/-- `inode->directPointers[k]`, from the memory at the inode. The array has 12 elements. -/
def directPointer (inode : Nat → UInt8) (k : Nat) : Nat := readU32 inode (40 + 4 * k)

/-- What a turn finds in memory: in the blocks it adds to the cache, on the stack, in a new directory. -/
structure Found where
  entry : Garbage
  cached : Nat → Nat → UInt8
  dir : Nat → Nat

/-- The loop of `ReadNode`, with the parts of the device it has asked for (position, length) and those of the
    directory it has stored to (entry, address, length). -/
structure Scan where
  cache : List CachedBlock
  dir : Dir
  pos : Nat
  reads : List (Nat × Nat)
  writes : List (Nat × Nat × Nat)

/-- The copy of the name, and `name[nameLengthLow] = '\0'`. -/
def storeName (mem : Nat → Nat) (addr : Nat) (data : Nat → UInt8) (n : Nat) : Nat → Nat := fun x =>
  if x = addr + n then 0 else if addr ≤ x ∧ x < addr + n then (data (x - addr)).toNat else mem x

/-- The body of the loop. -/
def scanTurn (device : Device) (drv : Ext2Driver) (inode : Nat → UInt8) (f : Found) (s : Scan) : Scan :=
  let entryBlock := s.pos / drv.blockSize
  let entryBlockPos := u64 (directPointer inode entryBlock * drv.blockSize)
  let entryOffset := s.pos % drv.blockSize
  let r := getData device f.entry.cached s.cache drv.dev (u64 (entryBlockPos + entryOffset))
    (kernelBuffer f.entry.buffer) DirEntry.bytes
  let ext2Entry := DirEntry.ofBytes r.2.1.mem
  let a := addEntry s.dir f.dir
  let mem := writeU64 a.1.mem (nodeIDAt a.2) ext2Entry.inode
  let namePos := u64 (entryBlockPos + entryOffset + DirEntry.bytes)
  let r' := getData device f.cached r.1 drv.dev namePos (kernelBuffer fun j => UInt8.ofNat (mem (nameAt a.2 + j)))
    ext2Entry.nameLengthLow
  ⟨r'.1, { a.1 with mem := storeName mem (nameAt a.2) r'.2.1.mem ext2Entry.nameLengthLow },
    u64 (s.pos + ext2Entry.entrySize),
    s.reads ++ [(u64 (entryBlockPos + entryOffset), DirEntry.bytes), (namePos, ext2Entry.nameLengthLow)],
    s.writes ++ [(a.2, nodeIDAt a.2, 8), (a.2, nameAt a.2, ext2Entry.nameLengthLow),
      (a.2, nameAt a.2 + ext2Entry.nameLengthLow, 1)]⟩

/-- `while(pos < inode->size)`. -/
def scanLoop (device : Device) (drv : Ext2Driver) (inode : Nat → UInt8) (found : Nat → Found) :
    (fuel : Nat) → Scan → Option Scan
  | 0, s => if s.pos < (INode.ofBytes inode).size then none else some s
  | fuel + 1, s =>
      if s.pos < (INode.ofBytes inode).size then
        scanLoop device drv inode found fuel (scanTurn device drv inode (found fuel) s)
      else some s

/-- `ReadNode` from `Directory::Create(10)` on. A turn moves on by a byte at least, or the loop does not end. -/
def readDirectory (device : Device) (drv : Ext2Driver) (inode : Nat → UInt8) (found : Nat → Found) (garbage : Nat → Nat)
    (cache : List CachedBlock) : Option Scan :=
  scanLoop device drv inode found (INode.ofBytes inode).size ⟨cache, ⟨0, 10, garbage⟩, 0, [], []⟩

/-! ## 2. Directories on the disk -/

/-- The blocks of the directory, and its bytes. -/
def dirBlock (image : Nat → UInt8) (blockSize : Nat) (inode : Nat → UInt8) (k : Nat) : Nat :=
  blockThrough image blockSize (INode.ofBytes inode) (readU32 inode 92) (readU32 inode 96) k

def dirByte (image : Nat → UInt8) (blockSize : Nat) (inode : Nat → UInt8) (p : Nat) : UInt8 :=
  image (dirBlock image blockSize inode (p / blockSize) * blockSize + p % blockSize)

/-- A record. It is in use if its inode is not 0. -/
structure Record where
  inode : Nat
  entrySize : Nat
  name : List UInt8

/-- The entry for a record. -/
def Record.entry (r : Record) : DirectoryEntry := ⟨r.name.map Char.ofUInt8, r.inode⟩

/-- The record stands at `p`: it has room for its name, stays in its block, and has a name if it is in use. -/
structure RecordAt (image : Nat → UInt8) (blockSize : Nat) (inode : Nat → UInt8) (p : Nat) (r : Record) : Prop where
  header : DirEntry.ofBytes (fun o => dirByte image blockSize inode (p + o)) = ⟨r.inode, r.entrySize, r.name.length⟩
  name : r.name = TempFS.bytes (fun o => dirByte image blockSize inode (p + 8 + o)) r.name.length
  room : 8 + r.name.length ≤ r.entrySize
  inside : p % blockSize + r.entrySize ≤ blockSize
  used : r.inode ≠ 0 → r.name ≠ [] ∧ 0 ∉ r.name

/-- The records from `p` to the end of the directory. -/
inductive Records (image : Nat → UInt8) (blockSize : Nat) (inode : Nat → UInt8) : Nat → List Record → Prop
  | done : Records image blockSize inode (INode.ofBytes inode).size []
  | next {p : Nat} {r : Record} {rs : List Record} : p < (INode.ofBytes inode).size →
      RecordAt image blockSize inode p r → Records image blockSize inode (p + r.entrySize) rs →
      Records image blockSize inode p (r :: rs)

/-- A directory of ext2: no block of it is missing, or is the block of pointers. -/
structure Directory (image : Nat → UInt8) (blockSize : Nat) (inode : Nat → UInt8) (rs : List Record) : Prop where
  records : Records image blockSize inode 0 rs
  blocks : ∀ k, k * blockSize < (INode.ofBytes inode).size →
    dirBlock image blockSize inode k ≠ 0 ∧ dirBlock image blockSize inode k ≠ (INode.ofBytes inode).indirectPointer

/-! ## 3. One turn -/

section Turn

variable {device : Device} {drv : Ext2Driver} {inode : Nat → UInt8} {image : Nat → UInt8} {flat : Nat → Nat → UInt8}
  {s : Scan} {r : Record} {rs : List Record} {p : Nat}

theorem ofUInt8_toNat (c : UInt8) : (Char.ofUInt8 c).toNat = c.toNat := UInt8.toNat_toUInt32 c

/-- The copy at a given length, as the copy of a string. -/
theorem storeName_eq (name : List UInt8) : ∀ (mem : Nat → Nat) (addr : Nat) (data : Nat → UInt8),
    (∀ j (hj : j < name.length), data j = name[j]) →
      storeName mem addr data name.length = kstrcpy (name.map Char.ofUInt8) mem addr := by
  induction name with
  | nil =>
      intro mem addr data _
      funext x
      simp only [storeName, kstrcpy, List.map_nil, List.length_nil, Nat.add_zero, Function.update_apply]
      split_ifs <;> first | rfl | omega
  | cons c name ih =>
      intro mem addr data h
      have hc : data 0 = c := h 0 (Nat.succ_pos _)
      rw [List.map_cons, kstrcpy, ← ih _ _ (fun j => data (j + 1)) fun j hj => h (j + 1) (Nat.succ_lt_succ hj)]
      funext x
      simp only [storeName, List.length_cons, Function.update_apply, ofUInt8_toNat]
      by_cases hx : x = addr
      · subst hx
        rw [if_neg (by omega), if_pos (by omega), if_neg (by omega), if_neg (by omega), if_pos rfl, Nat.sub_self, hc]
      · split_ifs <;> first | rfl | omega | (rw [show x - addr = x - (addr + 1) + 1 by omega])

/-- A turn, by what `GetData` has done. -/
theorem scanTurn_eq (f : Found) {pos namePos : Nat} {e : DirEntry} {a : Dir × Nat} {mem : Nat → Nat}
    {q q' : List CachedBlock × UserBuffer × Nat}
    (hpos : u64 (u64 (directPointer inode (s.pos / drv.blockSize) * drv.blockSize) + s.pos % drv.blockSize) = pos)
    (hname : u64 (u64 (directPointer inode (s.pos / drv.blockSize) * drv.blockSize) + s.pos % drv.blockSize +
      DirEntry.bytes) = namePos)
    (hq : getData device f.entry.cached s.cache drv.dev pos (kernelBuffer f.entry.buffer) DirEntry.bytes = q)
    (he : DirEntry.ofBytes q.2.1.mem = e) (ha : addEntry s.dir f.dir = a)
    (hmem : writeU64 a.1.mem (nodeIDAt a.2) e.inode = mem)
    (hq' : getData device f.cached q.1 drv.dev namePos (kernelBuffer fun j => UInt8.ofNat (mem (nameAt a.2 + j)))
      e.nameLengthLow = q') :
    scanTurn device drv inode f s =
      ⟨q'.1, { a.1 with mem := storeName mem (nameAt a.2) q'.2.1.mem e.nameLengthLow }, u64 (s.pos + e.entrySize),
        s.reads ++ [(pos, DirEntry.bytes), (namePos, e.nameLengthLow)],
        s.writes ++ [(a.2, nodeIDAt a.2, 8), (a.2, nameAt a.2, e.nameLengthLow),
        (a.2, nameAt a.2 + e.nameLengthLow, 1)]⟩ := by
  subst hpos hname hq he ha hmem hq'
  rfl

/-- What a turn asks for first, whatever it finds there. -/
theorem scanTurn_reads (f : Found) (s : Scan) : ∃ l, (scanTurn device drv inode f s).reads = s.reads ++
    (u64 (u64 (directPointer inode (s.pos / drv.blockSize) * drv.blockSize) + s.pos % drv.blockSize), 8) :: l := by
  obtain ⟨pos, hpos⟩ : ∃ pos, u64 (u64 (directPointer inode (s.pos / drv.blockSize) * drv.blockSize) +
    s.pos % drv.blockSize) = pos := ⟨_, rfl⟩
  obtain ⟨q, hq⟩ : ∃ q, getData device f.entry.cached s.cache drv.dev pos (kernelBuffer f.entry.buffer)
    DirEntry.bytes = q := ⟨_, rfl⟩
  obtain ⟨mem, hmem⟩ : ∃ mem, writeU64 (addEntry s.dir f.dir).1.mem (nodeIDAt (addEntry s.dir f.dir).2)
    (DirEntry.ofBytes q.2.1.mem).inode = mem := ⟨_, rfl⟩
  obtain ⟨namePos, hname⟩ : ∃ namePos, u64 (u64 (directPointer inode (s.pos / drv.blockSize) * drv.blockSize) +
    s.pos % drv.blockSize + DirEntry.bytes) = namePos := ⟨_, rfl⟩
  obtain ⟨q', hq'⟩ : ∃ q', getData device f.cached q.1 drv.dev namePos
    (kernelBuffer fun j => UInt8.ofNat (mem (nameAt (addEntry s.dir f.dir).2 + j)))
    (DirEntry.ofBytes q.2.1.mem).nameLengthLow = q' := ⟨_, rfl⟩
  rw [scanTurn_eq f hpos hname hq rfl rfl hmem hq', hpos]
  exact ⟨[(namePos, (DirEntry.ofBytes q.2.1.mem).nameLengthLow)], rfl⟩

theorem DirEntry.ofBytes_congr {mem mem' : Nat → UInt8} (h : ∀ j < 8, mem j = mem' j) :
    DirEntry.ofBytes mem = DirEntry.ofBytes mem' := by
  have h32 : readU32 mem 0 = readU32 mem' 0 := readU32_congr fun j hj => h (0 + j) (by omega)
  have h16 : readU16 mem 4 = readU16 mem' 4 := readU16_congr fun j hj => h (4 + j) (by omega)
  rw [DirEntry.ofBytes, DirEntry.ofBytes, h32, h16, h 6 (by decide)]

/-- The first twelve blocks are the direct ones. -/
theorem dirBlock_direct (image : Nat → UInt8) (bs : Nat) (inode : Nat → UInt8) {k : Nat} (hk : k < 12) :
    dirBlock image bs inode k = directPointer inode k := by
  unfold dirBlock blockThrough
  dsimp only
  rw [if_pos (by omega), blockOf, dif_pos hk]
  rfl

/-- Bytes of one block. -/
theorem dirByte_block {bs i : Nat} (hi : p % bs + i < bs) :
    dirByte image bs inode (p + i) = image (dirBlock image bs inode (p / bs) * bs + p % bs + i) := by
  have hp : p + i = bs * (p / bs) + (p % bs + i) := by
    rw [← Nat.add_assoc, Nat.div_add_mod]
  have hpos : 0 < bs := by omega
  have hq : (p + i) / bs = p / bs := by
    rw [hp, Nat.mul_add_div hpos, Nat.div_eq_of_lt hi, Nat.add_zero]
  have hm : (p + i) % bs = p % bs + i := by
    rw [hp, Nat.mul_add_mod, Nat.mod_eq_of_lt hi]
  rw [dirByte, hq, hm, Nat.add_assoc]

/-- The device and the driver of a scan. -/
structure Scannable (device : Device) (drv : Ext2Driver) : Prop where
  blocks : Blocks device
  large : 1024 ≤ drv.blockSize
  small : drv.blockSize ≤ 2 ^ 16

/-- **One turn** in the direct blocks adds the entry of its record, whatever the record is. -/
theorem scanTurn_spec (hd : Scannable device drv) (hview : view device s.cache = flat)
    (hsize : s.pos < (INode.ofBytes inode).size) (h12 : s.pos / drv.blockSize < 12)
    (hr : RecordAt (flat drv.dev) drv.blockSize inode s.pos r) (f : Found) :
    ∃ cache', view device cache' = flat ∧ scanTurn device drv inode f s =
      ⟨cache', addNamed s.dir r.inode r.entry.name f.dir, s.pos + r.entrySize,
        s.reads ++ [(directPointer inode (s.pos / drv.blockSize) * drv.blockSize + s.pos % drv.blockSize, 8),
          (directPointer inode (s.pos / drv.blockSize) * drv.blockSize + s.pos % drv.blockSize + 8, r.name.length)],
        s.writes ++ [(s.dir.numEntries, nodeIDAt s.dir.numEntries, 8),
          (s.dir.numEntries, nameAt s.dir.numEntries, r.name.length),
          (s.dir.numEntries, nameAt s.dir.numEntries + r.name.length, 1)]⟩ := by
  have hsize32 : (INode.ofBytes inode).size < 2 ^ 32 := (INode.ofBytes_fits inode).size
  have hlt : directPointer inode (s.pos / drv.blockSize) < 2 ^ 32 := readU32_lt _ _
  have hsmall := hd.small
  have hprod : directPointer inode (s.pos / drv.blockSize) * drv.blockSize ≤ 2 ^ 32 * 2 ^ 16 :=
    Nat.mul_le_mul (Nat.le_of_lt hlt) hsmall
  have hbyte : ∀ j, s.pos % drv.blockSize + j < drv.blockSize →
      dirByte (flat drv.dev) drv.blockSize inode (s.pos + j) = flat drv.dev
        (directPointer inode (s.pos / drv.blockSize) * drv.blockSize + s.pos % drv.blockSize + j) := by
    intro j hj
    rw [dirByte_block hj, dirBlock_direct _ _ _ h12]
  have hroom := hr.room
  have hinside := hr.inside
  obtain ⟨B, hB⟩ : ∃ B, directPointer inode (s.pos / drv.blockSize) * drv.blockSize = B := ⟨_, rfl⟩
  rw [hB] at hprod
  simp only [hB] at hbyte
  -- the header
  obtain ⟨q, hq⟩ : ∃ q, getData device f.entry.cached s.cache drv.dev (B + s.pos % drv.blockSize)
    (kernelBuffer f.entry.buffer) DirEntry.bytes = q := ⟨_, rfl⟩
  obtain ⟨h1, h2⟩ := getData_kernel (n := DirEntry.bytes) hd.blocks f.entry.cached s.cache drv.dev f.entry.buffer
    (show B + s.pos % drv.blockSize + 8 < 2 ^ 64 by omega) (by decide)
  rw [hq, hview] at h1 h2
  have he : DirEntry.ofBytes q.2.1.mem = ⟨r.inode, r.entrySize, r.name.length⟩ :=
    (DirEntry.ofBytes_congr fun j hj => (h2 j hj).trans (hbyte j (by omega)).symm).trans hr.header
  -- the name
  obtain ⟨mem, hmem⟩ : ∃ mem, writeU64 (addEntry s.dir f.dir).1.mem (nodeIDAt (addEntry s.dir f.dir).2) r.inode = mem :=
    ⟨_, rfl⟩
  obtain ⟨q', hq'⟩ : ∃ q', getData device f.cached q.1 drv.dev (B + s.pos % drv.blockSize + DirEntry.bytes)
    (kernelBuffer fun j => UInt8.ofNat (mem (nameAt (addEntry s.dir f.dir).2 + j))) r.name.length = q' := ⟨_, rfl⟩
  obtain ⟨h3, h4⟩ := getData_kernel (n := r.name.length) hd.blocks f.cached q.1 drv.dev
    (fun j => UInt8.ofNat (mem (nameAt (addEntry s.dir f.dir).2 + j)))
    (show B + s.pos % drv.blockSize + DirEntry.bytes + r.name.length < 2 ^ 64 by unfold DirEntry.bytes; omega)
    (by omega)
  rw [hq', h1] at h3 h4
  have hname : ∀ j (hj : j < r.name.length), q'.2.1.mem j = r.name[j] := by
    intro j hj
    have hget : r.name[j] = dirByte (flat drv.dev) drv.blockSize inode (s.pos + 8 + j) := by
      have := congrArg (fun l => l[j]?) hr.name
      simp only [TempFS.bytes, List.getElem?_map, List.getElem?_range hj, Option.map_some,
        List.getElem?_eq_getElem hj] at this
      exact Option.some.inj this
    rw [h4 j hj, hget, Nat.add_assoc s.pos, hbyte _ (by omega)]
    unfold DirEntry.bytes
    rw [Nat.add_assoc _ 8 j]
  have hnum := (Lookup.addEntry_num s.dir f.dir).2
  refine ⟨q'.1, h3, ?_⟩
  rw [scanTurn_eq (e := ⟨r.inode, r.entrySize, r.name.length⟩) f (show _ = B + s.pos % drv.blockSize from ?_)
    (show _ = B + s.pos % drv.blockSize + DirEntry.bytes from ?_) hq he rfl hmem hq', storeName_eq _ _ _ _ hname,
    ← hmem, hnum, u64_of_lt (show s.pos + r.entrySize < 2 ^ 64 by omega), hB]
  · unfold addNamed storeEntry
    rw [hnum]
    rfl
  · rw [hB, u64_of_lt (Nat.lt_of_le_of_lt hprod (by decide)), u64_of_lt (by omega)]
  · unfold DirEntry.bytes
    rw [hB, u64_of_lt (Nat.lt_of_le_of_lt hprod (by decide)), u64_of_lt (by omega)]

/-! ## 4. The loop -/

/-- A part of the device inside a block of the directory. -/
def OwnBlock (image : Nat → UInt8) (blockSize : Nat) (inode : Nat → UInt8) (a : Nat × Nat) : Prop :=
  ∃ k, k * blockSize < (INode.ofBytes inode).size ∧ dirBlock image blockSize inode k * blockSize ≤ a.1 ∧
    a.1 + a.2 ≤ dirBlock image blockSize inode k * blockSize + blockSize

/-- A part of the directory inside the entry that is added. -/
def OwnEntry (w : Nat × Nat × Nat) : Prop := nameAt w.1 ≤ w.2.1 ∧ w.2.1 + w.2.2 ≤ nameAt (w.1 + 1)

/-- What a turn asks for and stores to. -/
theorem turn_inside (hsize : p < (INode.ofBytes inode).size) (h12 : p / drv.blockSize < 12)
    (hr : RecordAt image drv.blockSize inode p r) (i : Nat) :
    (∀ a ∈ [(directPointer inode (p / drv.blockSize) * drv.blockSize + p % drv.blockSize, 8),
      (directPointer inode (p / drv.blockSize) * drv.blockSize + p % drv.blockSize + 8, r.name.length)],
        OwnBlock image drv.blockSize inode a) ∧
    (r.name.length ≤ 49 → ∀ w ∈ [(i, nodeIDAt i, 8), (i, nameAt i, r.name.length), (i, nameAt i + r.name.length, 1)],
        OwnEntry w) := by
  have hroom := hr.room
  have hinside := hr.inside
  constructor
  · intro a ha
    refine ⟨p / drv.blockSize, Nat.lt_of_le_of_lt (Nat.div_mul_le_self _ _) hsize, ?_⟩
    rw [dirBlock_direct _ _ _ h12]
    simp only [List.mem_cons, List.not_mem_nil, or_false] at ha
    rcases ha with rfl | rfl
    · constructor
      · exact Nat.le_add_right _ _
      · show _ + p % drv.blockSize + 8 ≤ _
        omega
    · constructor
      · exact Nat.le_trans (Nat.le_add_right _ _) (Nat.le_add_right _ _)
      · show _ + p % drv.blockSize + 8 + r.name.length ≤ _
        omega
  · intro hlen w hw
    simp only [List.mem_cons, List.not_mem_nil, or_false] at hw
    rcases hw with rfl | rfl | rfl <;> constructor <;> simp only [nodeIDAt, nameAt, entrySize] <;> omega

/-- Where the next record stands. -/
theorem next_block (hbs : 0 < drv.blockSize) (hr : RecordAt image drv.blockSize inode p r)
    (h : p < 12 * drv.blockSize) : p + r.entrySize ≤ 12 * drv.blockSize := by
  have hinside := hr.inside
  have hq : p / drv.blockSize < 12 := (Nat.div_lt_iff_lt_mul hbs).mpr h
  have hle : (p / drv.blockSize + 1) * drv.blockSize ≤ 12 * drv.blockSize := Nat.mul_le_mul_right _ hq
  rw [Nat.add_mul, Nat.one_mul] at hle
  have hp := Nat.div_add_mod' p drv.blockSize
  omega

/-- **The loop** over a directory of at most twelve blocks: an entry for every record. -/
theorem scanLoop_spec (hd : Scannable device drv) (found : Nat → Found)
    (h12 : (INode.ofBytes inode).size ≤ 12 * drv.blockSize) (fuel : Nat)
    (hrs : Records (flat drv.dev) drv.blockSize inode p rs) (hs : s.pos = p) (hview : view device s.cache = flat)
    (hf : (INode.ofBytes inode).size ≤ p + fuel) :
    ∃ s', scanLoop device drv inode found fuel s = some s' ∧ s'.dir.numEntries = s.dir.numEntries + rs.length ∧
      (∀ a ∈ s'.reads, a ∈ s.reads ∨ OwnBlock (flat drv.dev) drv.blockSize inode a) ∧
      ((∀ r ∈ rs, r.inode ≠ 0 ∧ r.name.length ≤ 49) →
        (∀ es, Represents s.dir es → Represents s'.dir (es ++ rs.map Record.entry)) ∧
        ∀ w ∈ s'.writes, w ∈ s.writes ∨ OwnEntry w) := by
  have hbs : 0 < drv.blockSize := Nat.lt_of_lt_of_le (by decide) hd.large
  induction hrs generalizing s fuel with
  | done =>
      have hstop : scanLoop device drv inode found fuel s = some s := by
        cases fuel <;> simp only [scanLoop, hs, Nat.lt_irrefl, if_false]
      refine ⟨s, hstop, rfl, fun a ha => Or.inl ha, fun _ => ⟨fun es h => ?_, fun w hw => Or.inl hw⟩⟩
      rwa [List.map_nil, List.append_nil]
  | next hlt hr _ ih =>
      rename_i p r rs _
      subst hs
      have hroom := hr.room
      obtain ⟨fuel, rfl⟩ : ∃ k, fuel = k + 1 := ⟨fuel - 1, by omega⟩
      have hk : s.pos / drv.blockSize < 12 := (Nat.div_lt_iff_lt_mul hbs).mpr (Nat.lt_of_lt_of_le hlt h12)
      obtain ⟨cache', hview', hturn⟩ := scanTurn_spec hd hview hlt hk hr (found fuel)
      obtain ⟨hreads, hwrites⟩ := turn_inside hlt hk hr s.dir.numEntries
      obtain ⟨s', hloop, hnum, hown, himport⟩ := ih fuel (s := scanTurn device drv inode (found fuel) s)
        (by rw [hturn]) (by rw [hturn]; exact hview') (by omega)
      rw [hturn] at hloop hnum hown himport
      refine ⟨s', ?_, ?_, fun a ha => ?_, fun hall => ?_⟩
      · rw [scanLoop, if_pos hlt, hturn]
        exact hloop
      · have hone : (addNamed s.dir r.inode r.entry.name (found fuel).dir).numEntries = s.dir.numEntries + 1 :=
          (Lookup.addEntry_num s.dir (found fuel).dir).1
        rw [hnum, List.length_cons]
        show (addNamed s.dir r.inode r.entry.name (found fuel).dir).numEntries + _ = _
        omega
      · rcases hown a ha with ha | ha
        · rcases List.mem_append.mp ha with ha | ha
          · exact Or.inl ha
          · exact Or.inr (hreads a ha)
        · exact Or.inr ha
      · obtain ⟨hin, hlen⟩ := hall r List.mem_cons_self
        obtain ⟨hrep, hinside⟩ := himport fun r' hr' => hall r' (List.mem_cons_of_mem _ hr')
        constructor
        · intro es hes
          have hnul : '\x00' ∉ r.entry.name := by
            intro hmem
            obtain ⟨c, hc, hc0⟩ := List.mem_map.mp hmem
            have h0 : c = 0 := UInt8.toNat_inj.mp ((ofUInt8_toNat c).symm.trans (congrArg Char.toNat hc0))
            exact (hr.used hin).2 (h0 ▸ hc)
          have hid : r.inode < 2 ^ 64 := by
            have := congrArg DirEntry.inode hr.header
            have hlt32 := readU32_lt (fun o => dirByte (flat drv.dev) drv.blockSize inode (s.pos + o)) 0
            change readU32 _ 0 = r.inode at this
            omega
          have hadd := @Lookup.addNamed_represents _ _ _ (found fuel).dir _ hes
            (show r.entry.name.length ≤ 49 from (List.length_map _).trans_le hlen) hnul hid
          have := hrep _ hadd
          rwa [List.append_assoc] at this
        · intro w hw
          rcases hinside w hw with hw | hw
          · rcases List.mem_append.mp hw with hw | hw
            · exact Or.inl hw
            · exact Or.inr (hwrites hlen w hw)
          · exact Or.inr hw

/-- What has been asked for stays so. -/
theorem scanLoop_reads (found : Nat → Found) (fuel : Nat) : ∀ {s s' : Scan},
    scanLoop device drv inode found fuel s = some s' → ∀ a ∈ s.reads, a ∈ s'.reads := by
  induction fuel with
  | zero =>
      intro s s' h a ha
      rw [scanLoop] at h
      split_ifs at h
      cases h
      exact ha
  | succ fuel ih =>
      intro s s' h a ha
      rw [scanLoop] at h
      split_ifs at h
      · obtain ⟨l, hl⟩ := @scanTurn_reads device drv inode (found fuel) s
        exact ih h a (hl ▸ List.mem_append_left _ ha)
      · cases h
        exact ha

/-- In a larger directory the loop takes the block of pointers for the thirteenth block. -/
theorem scanLoop_large (hd : Scannable device drv) (found : Nat → Found)
    (h12 : 12 * drv.blockSize < (INode.ofBytes inode).size) (fuel : Nat) {s' : Scan}
    (hrs : Records (flat drv.dev) drv.blockSize inode p rs) (hs : s.pos = p) (hview : view device s.cache = flat)
    (hp : p ≤ 12 * drv.blockSize) (hloop : scanLoop device drv inode found fuel s = some s') :
    ((INode.ofBytes inode).indirectPointer * drv.blockSize, 8) ∈ s'.reads := by
  have hbs : 0 < drv.blockSize := Nat.lt_of_lt_of_le (by decide) hd.large
  induction hrs generalizing s fuel with
  | done => omega
  | next hlt hr _ ih =>
      rename_i p r rs _
      subst hs
      cases fuel with
      | zero =>
          rw [scanLoop, if_pos hlt] at hloop
          cases hloop
      | succ fuel =>
          rw [scanLoop, if_pos hlt] at hloop
          by_cases hin : s.pos < 12 * drv.blockSize
          · obtain ⟨cache', hview', hturn⟩ :=
              scanTurn_spec hd hview hlt ((Nat.div_lt_iff_lt_mul hbs).mpr hin) hr (found fuel)
            exact ih fuel (s := scanTurn device drv inode (found fuel) s) (by rw [hturn])
              (by rw [hturn]; exact hview') (next_block hbs hr hin) hloop
          · have hpos : s.pos = 12 * drv.blockSize := by omega
            have hsmall := hd.small
            have hlt32 : directPointer inode 12 < 2 ^ 32 := readU32_lt _ _
            have hprod : directPointer inode 12 * drv.blockSize ≤ 2 ^ 32 * 2 ^ 16 :=
              Nat.mul_le_mul (Nat.le_of_lt hlt32) hsmall
            obtain ⟨l, hl⟩ := @scanTurn_reads device drv inode (found fuel) s
            rw [hpos, Nat.mul_div_cancel _ hbs, Nat.mul_mod_left, Nat.add_zero,
              u64_of_lt (Nat.lt_of_le_of_lt hprod (by decide)), u64_of_lt (Nat.lt_of_le_of_lt hprod (by decide))] at hl
            refine scanLoop_reads found fuel hloop _ ?_
            rw [hl]
            exact List.mem_append_right _ List.mem_cons_self

/-! ## 5. Results -/

/-- What `ReadNode` should build from the records: an entry for each one in use, in order, with its inode number and
    its name in the name field; stores in these entries only, and reads of the blocks of the directory only. -/
structure Imported (image : Nat → UInt8) (blockSize : Nat) (inode : Nat → UInt8) (rs : List Record)
    (s : Scan) : Prop where
  entries : Represents s.dir ((rs.filter fun r => r.inode ≠ 0).map Record.entry)
  writes : ∀ w ∈ s.writes, OwnEntry w
  reads : ∀ a ∈ s.reads, OwnBlock image blockSize inode a

def Imports (device : Device) (drv : Ext2Driver) (inode : Nat → UInt8) (found : Nat → Found) (garbage : Nat → Nat)
    (cache : List CachedBlock) (rs : List Record) : Prop :=
  ∃ s, readDirectory device drv inode found garbage cache = some s ∧
    Imported (view device cache drv.dev) drv.blockSize inode rs s

/-- At most twelve blocks, every record in use, and every name short enough for the field. -/
structure Importable (blockSize : Nat) (inode : Nat → UInt8) (rs : List Record) : Prop where
  direct : (INode.ofBytes inode).size ≤ 12 * blockSize
  records : ∀ r ∈ rs, r.inode ≠ 0 ∧ r.name.length ≤ 49

theorem imports_of_importable (hd : Scannable device drv) (cache : List CachedBlock)
    (hdir : Directory (view device cache drv.dev) drv.blockSize inode rs) (found : Nat → Found) (garbage : Nat → Nat)
    (h : Importable drv.blockSize inode rs) : Imports device drv inode found garbage cache rs := by
  obtain ⟨s', hloop, -, hreads, himport⟩ := scanLoop_spec
      (s := ⟨cache, ⟨0, 10, garbage⟩, 0, [], []⟩) hd found h.direct _
    hdir.records rfl rfl (Nat.le_of_eq (Nat.zero_add _).symm)
  obtain ⟨hrep, hwrites⟩ := himport h.records
  have hempty : Represents ⟨0, 10, garbage⟩ [] := ⟨rfl, Nat.zero_le _, fun i e he => by cases he⟩
  have hfilter : (rs.filter fun r => r.inode ≠ 0) = rs :=
    List.filter_eq_self.mpr fun r hr => decide_eq_true (h.records r hr).1
  refine ⟨s', hloop, ?_, fun w hw => ?_, fun a ha => ?_⟩
  · rw [hfilter]
    exact hrep [] hempty
  · exact (hwrites w hw).resolve_left List.not_mem_nil
  · exact (hreads a ha).resolve_left List.not_mem_nil

theorem importable_of_imports (hd : Scannable device drv) (cache : List CachedBlock)
    (hdir : Directory (view device cache drv.dev) drv.blockSize inode rs) (found : Nat → Found) (garbage : Nat → Nat)
    (h : Imports device drv inode found garbage cache rs) : Importable drv.blockSize inode rs := by
  obtain ⟨s, hs, himp⟩ := h
  have hbs : 0 < drv.blockSize := Nat.lt_of_lt_of_le (by decide) hd.large
  have hdirect : (INode.ofBytes inode).size ≤ 12 * drv.blockSize := by
    by_contra hlarge
    obtain ⟨k, hk, h1, h2⟩ := himp.reads _ (scanLoop_large (s := ⟨cache, ⟨0, 10, garbage⟩, 0, [], []⟩) hd found
      (Nat.not_le.mp hlarge) _ hdir.records rfl rfl (Nat.zero_le _) hs)
    refine (hdir.blocks k hk).2 (Nat.le_antisymm (Nat.le_of_mul_le_mul_right h1 hbs) ?_)
    refine Nat.le_of_lt_succ (Nat.lt_of_mul_lt_mul_right (a := drv.blockSize) ?_)
    rw [Nat.succ_mul]
    exact Nat.lt_of_lt_of_le (Nat.lt_add_of_pos_right (Nat.succ_pos 7)) h2
  obtain ⟨s', hloop, hnum, -, -⟩ := scanLoop_spec (s := ⟨cache, ⟨0, 10, garbage⟩, 0, [], []⟩) hd found hdirect _
    hdir.records rfl rfl (Nat.le_of_eq (Nat.zero_add _).symm)
  obtain rfl : s = s' := Option.some.inj (hs.symm.trans hloop)
  -- there are as many entries as records
  have hlen : (rs.filter fun r => r.inode ≠ 0).length = rs.length := by
    have := himp.entries.numEntries
    rw [List.length_map] at this
    rw [← this, hnum]
    exact Nat.zero_add _
  have hall := List.length_filter_eq_length_iff.mp hlen
  refine ⟨hdirect, fun r hr => ⟨of_decide_eq_true (hall r hr), ?_⟩⟩
  have hmem : r ∈ rs.filter fun r => r.inode ≠ 0 := List.mem_filter.mpr ⟨hr, hall r hr⟩
  obtain ⟨i, hi⟩ := List.mem_iff_getElem?.mp (List.mem_map_of_mem (f := Record.entry) hmem)
  have hfits := (himp.entries.stored i _ hi).fits
  rwa [Record.entry, List.length_map] at hfits

end Turn

theorem scannable {device : Device} (hbs : Blocks device) {image : Nat → UInt8} (hw : WellFormed image) (subID : Nat) :
    Scannable device (driverOf image subID) :=
  ⟨hbs, (blockSize_bounds hw subID).1, (blockSize_bounds hw subID).2⟩

/-- **`ReadNode` imports a directory** if and only if it has at most twelve blocks, no record of it is unused, and no
    name in it has more than 49 bytes. -/
theorem directory_import {device : Device} (hbs : Blocks device) (cache : List CachedBlock) (subID : Nat)
    (hw : WellFormed (view device cache subID)) {inode : Nat → UInt8} {rs : List Record}
    (hdir : Directory (view device cache subID) (driverOf (view device cache subID) subID).blockSize inode rs)
    (found : Nat → Found) (garbage : Nat → Nat) :
    Imports device (driverOf (view device cache subID) subID) inode found garbage cache rs ↔
      Importable (driverOf (view device cache subID) subID).blockSize inode rs :=
  ⟨importable_of_imports (scannable hbs hw subID) cache hdir found garbage,
    imports_of_importable (scannable hbs hw subID) cache hdir found garbage⟩

/-! ## 6. The end of the loop -/

section End

variable {device : Device} {drv : Ext2Driver} {inode : Nat → UInt8} {image : Nat → UInt8} {flat : Nat → Nat → UInt8}
  {s : Scan} {p : Nat}

/-- Where a turn at `p` takes its record from, whatever stands there. -/
def recordAt (drv : Ext2Driver) (inode : Nat → UInt8) (p : Nat) : Nat :=
  u64 (u64 (directPointer inode (p / drv.blockSize) * drv.blockSize) + p % drv.blockSize)

/-- The size that it finds there. -/
def recordSize (image : Nat → UInt8) (drv : Ext2Driver) (inode : Nat → UInt8) (p : Nat) : Nat :=
  (DirEntry.ofBytes fun o => image (recordAt drv inode p + o)).entrySize

/-- The positions of the records that the sizes lead to. -/
inductive Visited (image : Nat → UInt8) (drv : Ext2Driver) (inode : Nat → UInt8) : Nat → Prop
  | first : 0 < (INode.ofBytes inode).size → Visited image drv inode 0
  | next {p : Nat} : Visited image drv inode p → p + recordSize image drv inode p < (INode.ofBytes inode).size →
      Visited image drv inode (p + recordSize image drv inode p)

/-- No record on the way has the size 0. -/
def Advances (image : Nat → UInt8) (drv : Ext2Driver) (inode : Nat → UInt8) : Prop :=
  ∀ p, Visited image drv inode p → recordSize image drv inode p ≠ 0

/-- The constructor computes `1024 << blockSizeShift`. -/
structure Sized (drv : Ext2Driver) : Prop where
  pos : 0 < drv.blockSize
  lt : drv.blockSize < 2 ^ 32

/-- A block pointer and a block size do not overflow. -/
theorem recordAt_eq (hd : Sized drv) : recordAt drv inode p =
      directPointer inode (p / drv.blockSize) * drv.blockSize + p % drv.blockSize ∧
    directPointer inode (p / drv.blockSize) * drv.blockSize + p % drv.blockSize + 512 < 2 ^ 64 := by
  have hptr : directPointer inode (p / drv.blockSize) < 2 ^ 32 := readU32_lt _ _
  have hlt := hd.lt
  have hprod : directPointer inode (p / drv.blockSize) * drv.blockSize ≤ (2 ^ 32 - 1) * (2 ^ 32 - 1) :=
    Nat.mul_le_mul (Nat.le_sub_one_of_lt hptr) (Nat.le_sub_one_of_lt hlt)
  have hmod := Nat.mod_lt p hd.pos
  refine ⟨?_, by omega⟩
  rw [recordAt, u64_of_lt (by omega : directPointer inode (p / drv.blockSize) * drv.blockSize < 2 ^ 64),
    u64_of_lt (by omega)]

/-- **One turn**, whatever record it finds: the device shows what it did before, and the loop moves on by the size. -/
theorem scanTurn_moves (hbs : Blocks device) (hd : Sized drv) (hview : view device s.cache = flat)
    (hsize : s.pos < (INode.ofBytes inode).size) (f : Found) :
    view device (scanTurn device drv inode f s).cache = flat ∧
      (scanTurn device drv inode f s).pos = s.pos + recordSize (flat drv.dev) drv inode s.pos := by
  obtain ⟨hat, hroom⟩ := @recordAt_eq drv inode s.pos hd
  obtain ⟨A, hA⟩ : ∃ A, recordAt drv inode s.pos = A := ⟨_, rfl⟩
  have hsize32 : (INode.ofBytes inode).size < 2 ^ 32 := (INode.ofBytes_fits inode).size
  rw [hat] at hA
  rw [hA] at hat hroom
  have hB : directPointer inode (s.pos / drv.blockSize) * drv.blockSize < 2 ^ 64 := by omega
  -- the header
  obtain ⟨q, hq⟩ : ∃ q, getData device f.entry.cached s.cache drv.dev A (kernelBuffer f.entry.buffer)
    DirEntry.bytes = q := ⟨_, rfl⟩
  obtain ⟨h1, h2⟩ := getData_kernel (n := DirEntry.bytes) hbs f.entry.cached s.cache drv.dev f.entry.buffer
    (show A + 8 < 2 ^ 64 by omega) (by decide)
  rw [hq, hview] at h1 h2
  have he : DirEntry.ofBytes q.2.1.mem = DirEntry.ofBytes fun o => flat drv.dev (A + o) := DirEntry.ofBytes_congr h2
  have hlen : (DirEntry.ofBytes q.2.1.mem).nameLengthLow < 256 := UInt8.toNat_lt _
  have hstep : (DirEntry.ofBytes q.2.1.mem).entrySize < 2 ^ 16 := readU16_lt _ _
  -- the name
  obtain ⟨mem, hmem⟩ : ∃ mem, writeU64 (addEntry s.dir f.dir).1.mem (nodeIDAt (addEntry s.dir f.dir).2)
    (DirEntry.ofBytes q.2.1.mem).inode = mem := ⟨_, rfl⟩
  obtain ⟨q', hq'⟩ : ∃ q', getData device f.cached q.1 drv.dev (A + 8)
    (kernelBuffer fun j => UInt8.ofNat (mem (nameAt (addEntry s.dir f.dir).2 + j)))
    (DirEntry.ofBytes q.2.1.mem).nameLengthLow = q' := ⟨_, rfl⟩
  obtain ⟨h3, -⟩ := getData_kernel (n := (DirEntry.ofBytes q.2.1.mem).nameLengthLow) hbs f.cached q.1 drv.dev
    (fun j => UInt8.ofNat (mem (nameAt (addEntry s.dir f.dir).2 + j))) (show A + 8 + _ < 2 ^ 64 by omega) (by omega)
  rw [hq', h1] at h3
  rw [scanTurn_eq f (show _ = A from ?_) (show _ = A + 8 from ?_) hq rfl rfl hmem hq']
  · refine ⟨h3, ?_⟩
    show u64 (s.pos + (DirEntry.ofBytes q.2.1.mem).entrySize) = _
    rw [u64_of_lt (by omega), he, recordSize, hat]
  · rw [u64_of_lt hB, hA, u64_of_lt (by omega)]
  · rw [u64_of_lt hB, hA, show DirEntry.bytes = 8 from rfl, u64_of_lt (by omega)]

/-- Where no size is 0, each turn brings the loop a byte at least nearer to its end. -/
theorem scanLoop_ends (hbs : Blocks device) (hd : Sized drv) (found : Nat → Found)
    (hadv : Advances (flat drv.dev) drv inode) (fuel : Nat) (s : Scan) (hview : view device s.cache = flat)
    (hat : s.pos < (INode.ofBytes inode).size → Visited (flat drv.dev) drv inode s.pos)
    (hf : (INode.ofBytes inode).size ≤ s.pos + fuel) : ∃ s', scanLoop device drv inode found fuel s = some s' := by
  induction fuel generalizing s with
  | zero => exact ⟨s, by rw [scanLoop, if_neg (by omega)]⟩
  | succ fuel ih =>
      by_cases hlt : s.pos < (INode.ofBytes inode).size
      · obtain ⟨hview', hpos⟩ := scanTurn_moves hbs hd hview hlt (found fuel)
        have hstep := hadv s.pos (hat hlt)
        rw [scanLoop, if_pos hlt]
        refine ih _ hview' (fun h => ?_) (by omega)
        rw [hpos] at h ⊢
        exact Visited.next (hat hlt) h
      · exact ⟨s, by rw [scanLoop, if_neg hlt]⟩

/-- At a record of size 0 the loop stays. -/
theorem scanLoop_stuck (hbs : Blocks device) (hd : Sized drv) (found : Nat → Found) (fuel : Nat) (s : Scan)
    (hview : view device s.cache = flat) (hlt : s.pos < (INode.ofBytes inode).size)
    (hzero : recordSize (flat drv.dev) drv inode s.pos = 0) : scanLoop device drv inode found fuel s = none := by
  induction fuel generalizing s with
  | zero => rw [scanLoop, if_pos hlt]
  | succ fuel ih =>
      obtain ⟨hview', hpos⟩ := scanTurn_moves hbs hd hview hlt (found fuel)
      rw [hzero, Nat.add_zero] at hpos
      rw [scanLoop, if_pos hlt]
      exact ih _ hview' (hpos ▸ hlt) (hpos ▸ hzero)

theorem Visited.lt (hp : Visited image drv inode p) : p < (INode.ofBytes inode).size := by
  cases hp with
  | first h => exact h
  | next _ h => exact h

/-- The loop comes to every record of the chain, unless it runs out of turns before. -/
theorem scanLoop_visits (hbs : Blocks device) (hd : Sized drv) (found : Nat → Found) (fuel : Nat)
    (hview : view device s.cache = flat) (hs : s.pos = 0) (hp : Visited (flat drv.dev) drv inode p) :
    scanLoop device drv inode found fuel s = none ∨ ∃ fuel' s', view device s'.cache = flat ∧ s'.pos = p ∧
      scanLoop device drv inode found fuel s = scanLoop device drv inode found fuel' s' := by
  induction hp with
  | first _ => exact Or.inr ⟨fuel, s, hview, hs, rfl⟩
  | next hp _ ih =>
      rcases ih with hnone | ⟨fuel', s', hview', hs', hloop⟩
      · exact Or.inl hnone
      · have hlt : s'.pos < (INode.ofBytes inode).size := hs' ▸ hp.lt
        cases fuel' with
        | zero =>
            rw [scanLoop, if_pos hlt] at hloop
            exact Or.inl hloop
        | succ fuel' =>
            obtain ⟨hview'', hpos⟩ := scanTurn_moves hbs hd hview' hlt (found fuel')
            rw [scanLoop, if_pos hlt] at hloop
            exact Or.inr ⟨fuel', _, hview'', by rw [hpos, hs'], hloop⟩

/-- With a record of size 0 on the way, the loop does not end, however many turns it has. -/
theorem scanLoop_never (hbs : Blocks device) (hd : Sized drv) (found : Nat → Found) (fuel : Nat)
    (hview : view device s.cache = flat) (hs : s.pos = 0) (hadv : ¬ Advances (flat drv.dev) drv inode) :
    scanLoop device drv inode found fuel s = none := by
  unfold Advances at hadv
  push Not at hadv
  obtain ⟨p, hp, hzero⟩ := hadv
  rcases scanLoop_visits hbs hd found fuel hview hs hp with hnone | ⟨fuel', s', hview', hs', hloop⟩
  · exact hnone
  · rw [hloop]
    exact scanLoop_stuck hbs hd found fuel' s' hview' (hs' ▸ hp.lt) (hs' ▸ hzero)

/-- **The record loop ends** within as many turns as the directory has bytes if and only if no record that the sizes
    lead to has the size 0; otherwise it does not end at all. -/
theorem directory_scan_ends (hbs : Blocks device) (hd : Sized drv) (cache : List CachedBlock) (inode : Nat → UInt8)
    (found : Nat → Found) (garbage : Nat → Nat) :
    ((∃ s, readDirectory device drv inode found garbage cache = some s) ↔
      Advances (view device cache drv.dev) drv inode) ∧
    (¬ Advances (view device cache drv.dev) drv inode → ∀ fuel,
      scanLoop device drv inode found fuel ⟨cache, ⟨0, 10, garbage⟩, 0, [], []⟩ = none) := by
  refine ⟨⟨fun h => ?_, fun h => ?_⟩, fun h fuel => scanLoop_never hbs hd found fuel rfl rfl h⟩
  · by_contra hadv
    obtain ⟨s, hs⟩ := h
    rw [readDirectory, scanLoop_never hbs hd found _ rfl rfl hadv] at hs
    cases hs
  · exact scanLoop_ends hbs hd found h _ _ rfl Visited.first (Nat.le_of_eq (Nat.zero_add _).symm)

end End

section Image

/-- A directory of one record in block 5, of 1024 bytes, with a name of `len` points. -/
def dirImage (id len : UInt8) (p : Nat) : UInt8 :=
  if p = 1064 then 8 else if p = 1112 then 128 else if p = 5120 then id else if p = 5125 then 4
  else if p = 5126 then len else if p = 5128 then 46 else 0

def dirInode (o : Nat) : UInt8 := if o = 5 then 4 else if o = 40 then 5 else 0

def dirDevice (id len : UInt8) : Device := ⟨fun _ => dirImage id len, fun _ => 512⟩

theorem dirDevice_blocks (id len : UInt8) : Blocks (dirDevice id len) := fun _ => (by decide : 0 < 512 ∧ 512 < 2 ^ 64)

theorem dirImage_directory {id len : UInt8} {r : Record} (hr : RecordAt (dirImage id len) 1024 dirInode 0 r)
    (hlen : r.entrySize = 1024) : Directory (dirImage id len) 1024 dirInode [r] := by
  have hsize : (INode.ofBytes dirInode).size = 1024 := by decide
  refine ⟨Records.next (by rw [hsize]; decide) hr ?_, fun k hk => ?_⟩
  · rw [hlen, Nat.zero_add, ← hsize]
    exact Records.done
  · rw [hsize] at hk
    obtain rfl : k = 0 := by omega
    rw [dirBlock_direct _ _ _ (by decide)]
    decide

def nothingFound : Nat → Found := fun _ => ⟨zeros, fun _ _ => 0, fun _ => 0⟩

/-- The directory with the entry `.`. -/
theorem directory_import_dot :
    Imports (dirDevice 2 1) (driverOf (dirImage 2 1) 0) dirInode nothingFound (fun _ => 0) [] [⟨2, 1024, [46]⟩] := by
  have hr : RecordAt (dirImage 2 1) 1024 dirInode 0 ⟨2, 1024, [46]⟩ :=
    ⟨by decide, by decide, by decide, by decide, fun _ => by decide⟩
  have hb : (driverOf (dirImage 2 1) 0).blockSize = 1024 := by decide
  have hw : WellFormed (dirImage 2 1) := ⟨by decide, by decide⟩
  exact (directory_import (dirDevice_blocks 2 1) [] 0 hw (hb.symm ▸ dirImage_directory hr rfl) nothingFound
    fun _ => 0).mpr ⟨by decide, fun r h => by cases List.mem_singleton.mp h; decide⟩

/-- A directory of one record that is not in use: there is an entry for it. -/
theorem unused_record :
    WellFormed (dirImage 0 0) ∧
      Directory (dirImage 0 0) (driverOf (dirImage 0 0) 0).blockSize dirInode [⟨0, 1024, []⟩] ∧
      ¬ Imports (dirDevice 0 0) (driverOf (dirImage 0 0) 0) dirInode nothingFound (fun _ => 0) [] [⟨0, 1024, []⟩] := by
  have hr : RecordAt (dirImage 0 0) 1024 dirInode 0 ⟨0, 1024, []⟩ :=
    ⟨by decide, by decide, by decide, by decide, fun h => absurd rfl h⟩
  have hb : (driverOf (dirImage 0 0) 0).blockSize = 1024 := by decide
  have hw : WellFormed (dirImage 0 0) := ⟨by decide, by decide⟩
  have hdir : Directory (dirImage 0 0) (driverOf (dirImage 0 0) 0).blockSize dirInode [⟨0, 1024, []⟩] :=
    hb.symm ▸ dirImage_directory hr rfl
  refine ⟨hw, hdir, fun h => ?_⟩
  exact ((importable_of_imports (scannable (dirDevice_blocks 0 0) hw 0) [] hdir nothingFound _ h).records _
    (List.mem_singleton_self _)).1 rfl

/-- The directory with the entry `.` is read to its end. -/
theorem directory_scan_ends_dot :
    ∃ s, readDirectory (dirDevice 2 1) (driverOf (dirImage 2 1) 0) dirInode nothingFound (fun _ => 0) [] = some s := by
  have hb : (driverOf (dirImage 2 1) 0).blockSize = 1024 := by decide
  refine (directory_scan_ends (dirDevice_blocks 2 1) ⟨by rw [hb]; decide, by rw [hb]; decide⟩ [] dirInode nothingFound
    fun _ => 0).1.mpr fun p hp => ?_
  have hsize : (INode.ofBytes dirInode).size = 1024 := by decide
  have hrec : recordSize (dirImage 2 1) (driverOf (dirImage 2 1) 0) dirInode 0 = 1024 := by decide
  -- the first record is the last one
  obtain rfl : p = 0 := by
    induction hp with
    | first _ => rfl
    | next _ hlt ih =>
        rw [ih, hsize] at hlt
        exact absurd (hrec ▸ hlt) (by decide)
  exact hrec ▸ (by decide)

/-- The same directory, with a record of size 0. -/
def stuckImage (p : Nat) : UInt8 := if p = 5125 then 0 else dirImage 2 1 p

def stuckDevice : Device := ⟨fun _ => stuckImage, fun _ => 512⟩

/-- The loop stays at this record. -/
theorem record_of_size_zero : WellFormed stuckImage ∧ (INode.ofBytes dirInode).size = 1024 ∧
    ∀ fuel, scanLoop stuckDevice (driverOf stuckImage 0) dirInode nothingFound fuel
      ⟨[], ⟨0, 10, fun _ => 0⟩, 0, [], []⟩ = none := by
  have hb : (driverOf stuckImage 0).blockSize = 1024 := by decide
  have hdev : Blocks stuckDevice := fun _ => (by decide : 0 < 512 ∧ 512 < 2 ^ 64)
  exact ⟨⟨by decide, by decide⟩, by decide, fun fuel => scanLoop_stuck hdev ⟨by rw [hb]; decide, by rw [hb]; decide⟩
    nothingFound fuel _ rfl (by decide) (by decide)⟩

end Image

end Ext2

end SimpleOS2
