/-
  File:      SimpleOS2/Fs/IndirectBlocks.lean
  Subject:   THE INDIRECT BLOCK OF A LARGE FILE (fs/ext2/ext2.cpp), and the levels behind it.

  `ReadNodeData` takes the pointers of a file from its inode and from its indirect block. Nothing compares the
  number of a block with the end of that block, and the double and triple pointers are not read.

  * `indices` -- the indices at which a read takes a pointer from the buffer of the indirect block;
  * `mem_indices` -- which ones they are;
  * `blockThrough`, `byteThrough` -- the block map of ext2 with all of its levels;
  * `Indexed`, `SingleIndirect`, `indirect_index` -- what should hold of a read, and the condition under which it
    does; `behind_the_buffer`.
-/
import SimpleOS2.Fs.Ext2

namespace SimpleOS2

namespace Ext2

open BlockDevice

/-! ## 1. The indices -/

/-- The index into `indirectBuffer` of a turn. -/
def turnIndex (drv : Ext2Driver) (s : Vars) : List Nat :=
  if s.pos / drv.blockSize < 12 then [] else [s.pos / drv.blockSize - 12]

/-- The indices of the loop. -/
def indexLoop (device : Device) (drv : Ext2Driver) (inode : INode) (g : Garbage) (gData : Nat → Garbage) :
    (fuel : Nat) → Vars → List Nat
  | 0, _ => []
  | fuel + 1, s =>
      if s.rem = 0 then []
      else turnIndex drv s ++ indexLoop device drv inode g gData fuel (readTurn device drv inode g (gData fuel) s)

/-- The bytes that `ReadNodeData` goes for. -/
def wanted (inode : INode) (pos bufferSize : Nat) : Nat :=
  let rem := u64 (inode.size + 2 ^ 64 - pos)
  if rem > bufferSize then bufferSize else rem

/-- The indices of a read. -/
def Chunk.indices (device : Device) (drv : Ext2Driver) (inode : INode) (cache : List CachedBlock) (pos : Nat)
    (c : Chunk) : List Nat :=
  indexLoop device drv inode c.indirect c.data (wanted inode pos c.bufferSize)
    ⟨cache, pos, wanted inode pos c.bufferSize, 0, c.buffer, none⟩

section Indices

variable {device : Device} {drv : Ext2Driver} {inode : INode} {s : Vars}

/-- The number of bytes a turn reads. -/
def turnBytes (drv : Ext2Driver) (s : Vars) : Nat := min (drv.blockSize - s.pos % drv.blockSize) s.rem

theorem loadIndirect_moves (g : Garbage) (s : Vars) :
    (loadIndirect device drv inode g s).pos = s.pos ∧ (loadIndirect device drv inode g s).rem = s.rem ∧
      (loadIndirect device drv inode g s).done = s.done := by
  unfold loadIndirect
  cases s.indirect with
  | some _ => exact ⟨rfl, rfl, rfl⟩
  | none =>
      obtain ⟨r, hr⟩ : ∃ r, getData device g.cached s.cache drv.dev (u64 (inode.indirectPointer * drv.blockSize))
        (kernelBuffer g.buffer) drv.blockSize = r := ⟨_, rfl⟩
      rw [hr]
      exact ⟨rfl, rfl, rfl⟩

/-- A turn, by the variables behind the lazy load and what `GetData` has done. -/
theorem readTurn_eq (g gData : Garbage) {s' : Vars} {blockID n : Nat} {r : List CachedBlock × UserBuffer × Nat}
    (hs : (if s.pos / drv.blockSize < 12 then s else loadIndirect device drv inode g s) = s')
    (hblock : (if h : s.pos / drv.blockSize < 12 then inode.directPointers ⟨s.pos / drv.blockSize, h⟩
      else readU32 (s'.indirect.getD fun _ => 0) (4 * (s.pos / drv.blockSize - 12))) = blockID)
    (hn : (if drv.blockSize - s'.pos % drv.blockSize > s'.rem then s'.rem
      else drv.blockSize - s'.pos % drv.blockSize) = n)
    (hr : getData device gData.cached s'.cache drv.dev (u64 (u64 (blockID * drv.blockSize) + s'.pos % drv.blockSize))
      (skip s'.buffer s'.done) n = r) :
    readTurn device drv inode g gData s =
      ⟨r.1, u64 (s'.pos + n), s'.rem - n, u64 (s'.done + n), put s'.buffer s'.done r.2.1.mem, s'.indirect⟩ := by
  subst hs hblock hn hr
  rfl

/-- Where a turn leaves the loop, whatever it has read. -/
theorem readTurn_moves (g gData : Garbage) (s : Vars) :
    (readTurn device drv inode g gData s).pos = u64 (s.pos + turnBytes drv s) ∧
      (readTurn device drv inode g gData s).rem = s.rem - turnBytes drv s ∧
      (readTurn device drv inode g gData s).done = u64 (s.done + turnBytes drv s) := by
  obtain ⟨s', hs⟩ : ∃ s', (if s.pos / drv.blockSize < 12 then s else loadIndirect device drv inode g s) = s' := ⟨_, rfl⟩
  have hload : s'.pos = s.pos ∧ s'.rem = s.rem ∧ s'.done = s.done := by
    subst hs
    split_ifs
    · exact ⟨rfl, rfl, rfl⟩
    · exact loadIndirect_moves g s
  have hbytes : (if drv.blockSize - s'.pos % drv.blockSize > s'.rem then s'.rem
      else drv.blockSize - s'.pos % drv.blockSize) = turnBytes drv s := by
    unfold turnBytes
    rw [hload.1, hload.2.1]
    split_ifs <;> omega
  obtain ⟨blockID, hblock⟩ : ∃ blockID, (if h : s.pos / drv.blockSize < 12
      then inode.directPointers ⟨s.pos / drv.blockSize, h⟩
      else readU32 (s'.indirect.getD fun _ => 0) (4 * (s.pos / drv.blockSize - 12))) = blockID := ⟨_, rfl⟩
  obtain ⟨r, hr⟩ : ∃ r, getData device gData.cached s'.cache drv.dev
      (u64 (u64 (blockID * drv.blockSize) + s'.pos % drv.blockSize)) (skip s'.buffer s'.done) (turnBytes drv s) = r :=
    ⟨_, rfl⟩
  rw [readTurn_eq g gData hs hblock hbytes hr, ← hload.1, ← hload.2.1, ← hload.2.2]
  exact ⟨rfl, rfl, rfl⟩

/-- **The loop takes a pointer from the buffer** for every block behind the twelfth that it reads a byte of. -/
theorem mem_indexLoop (hbs : 0 < drv.blockSize) (g : Garbage) (gData : Nat → Garbage) (i : Nat) (fuel : Nat) :
    ∀ {s : Vars}, s.rem ≤ fuel → s.pos + s.rem < 2 ^ 64 →
      (i ∈ indexLoop device drv inode g gData fuel s ↔
        ∃ p, s.pos ≤ p ∧ p < s.pos + s.rem ∧ p / drv.blockSize = 12 + i) := by
  induction fuel with
  | zero =>
      intro s hf _
      simp only [indexLoop, List.not_mem_nil, false_iff]
      intro ⟨p, h1, h2, _⟩
      omega
  | succ fuel ih =>
      intro s hf hlt
      rw [indexLoop]
      by_cases hrem : s.rem = 0
      · rw [if_pos hrem]
        simp only [List.not_mem_nil, false_iff]
        intro ⟨p, h1, h2, _⟩
        omega
      · rw [if_neg hrem]
        obtain ⟨hpos', hrem', -⟩ := @readTurn_moves device drv inode g (gData fuel) s
        have hmod := Nat.mod_lt s.pos hbs
        have hn : 0 < turnBytes drv s ∧ turnBytes drv s ≤ s.rem ∧
            s.pos % drv.blockSize + turnBytes drv s ≤ drv.blockSize := by
          unfold turnBytes
          omega
        rw [u64_of_lt (by omega)] at hpos'
        -- the bytes of the turn are of one block
        have hblock : ∀ p, s.pos ≤ p → p < s.pos + turnBytes drv s → p / drv.blockSize = s.pos / drv.blockSize := by
          intro p h1 h2
          have hp : p = s.pos % drv.blockSize + (p - s.pos) + drv.blockSize * (s.pos / drv.blockSize) := by
            have := Nat.mod_add_div s.pos drv.blockSize
            omega
          rw [hp, Nat.add_mul_div_left _ _ hbs, Nat.div_eq_of_lt (by omega), Nat.zero_add]
        have hturn : i ∈ turnIndex drv s ↔ s.pos / drv.blockSize = 12 + i := by
          unfold turnIndex
          split_ifs with h12
          · simp only [List.not_mem_nil, false_iff]
            omega
          · rw [List.mem_singleton]
            omega
        rw [List.mem_append, hturn, ih (by omega) (by omega), hpos', hrem']
        constructor
        · intro h
          rcases h with h | ⟨p, h1, h2, h3⟩
          · exact ⟨s.pos, Nat.le_refl _, by omega, h⟩
          · exact ⟨p, by omega, by omega, h3⟩
        · intro ⟨p, h1, h2, h3⟩
          by_cases hp : p < s.pos + turnBytes drv s
          · exact Or.inl ((hblock p h1 hp).symm.trans h3)
          · exact Or.inr ⟨p, by omega, by omega, h3⟩

theorem wanted_eq (hi : inode.Fits) {pos : Nat} (hpos : pos ≤ inode.size) (n : Nat) :
    wanted inode pos n = min n (inode.size - pos) := by
  have hsize := hi.size
  unfold wanted
  rw [u64_sub hpos (by omega)]
  dsimp only
  split_ifs <;> omega

/-- The indices of a read. -/
theorem mem_indices (hbs : 0 < drv.blockSize) (hi : inode.Fits) {pos : Nat} (hpos : pos ≤ inode.size)
    (cache : List CachedBlock) (c : Chunk) (i : Nat) :
    i ∈ c.indices device drv inode cache pos ↔
      ∃ p, pos ≤ p ∧ p < pos + min c.bufferSize (inode.size - pos) ∧ p / drv.blockSize = 12 + i := by
  have hsize := hi.size
  unfold Chunk.indices
  rw [wanted_eq hi hpos]
  exact mem_indexLoop hbs c.indirect c.data i _ (s := ⟨cache, pos, _, 0, c.buffer, none⟩) (Nat.le_refl _)
    (show pos + min c.bufferSize (inode.size - pos) < 2 ^ 64 by omega)

end Indices

/-! ## 2. All levels -/

/-- The `i`th pointer of a block of pointers. -/
def pointer (image : Nat → UInt8) (blockSize block i : Nat) : Nat :=
  if block = 0 then 0 else readU32 image (block * blockSize + 4 * i)

/-- The block map of ext2. `double` and `triple` are the pointers of the inode that the driver does not read. -/
def blockThrough (image : Nat → UInt8) (blockSize : Nat) (inode : INode) (double triple k : Nat) : Nat :=
  let q := blockSize / 4
  if k < 12 + q then blockOf image blockSize inode k
  else if k < 12 + q + q * q then
    let i := k - (12 + q)
    pointer image blockSize (pointer image blockSize double (i / q)) (i % q)
  else
    let i := k - (12 + q + q * q)
    pointer image blockSize (pointer image blockSize (pointer image blockSize triple (i / (q * q))) (i / q % q)) (i % q)

def byteThrough (image : Nat → UInt8) (blockSize : Nat) (inode : INode) (double triple p : Nat) : UInt8 :=
  let block := blockThrough image blockSize inode double triple (p / blockSize)
  if block = 0 then 0 else image (block * blockSize + p % blockSize)

/-- What a read should do: its indices are those of the pointers in the indirect block, and where it comes to a
    block behind them it is refused with an error or gives the byte that the further levels lead to. -/
structure Indexed (device : Device) (drv : Ext2Driver) (inode : INode) (double triple : Nat) (cache : List CachedBlock)
    (pos : Nat) (c : Chunk) : Prop where
  index : ∀ i ∈ c.indices device drv inode cache pos, i < drv.blockSize / 4
  levels : ∀ p, pos ≤ p → p < pos + min c.bufferSize (inode.size - pos) →
    12 + drv.blockSize / 4 ≤ p / drv.blockSize →
      ∃ r, c.read device drv inode cache pos = some r ∧
        (2 ^ 63 ≤ r.2.2 ∨
          r.2.1.mem (p - pos) = byteThrough (view device cache drv.dev) drv.blockSize inode double triple p)

/-- The read is empty, or ends at the last block that the indirect block has a pointer for. -/
def SingleIndirect (drv : Ext2Driver) (inode : INode) (pos bufferSize : Nat) : Prop :=
  min bufferSize (inode.size - pos) = 0 ∨
    pos + min bufferSize (inode.size - pos) ≤ (12 + drv.blockSize / 4) * drv.blockSize

/-- **The index stays in the buffer** if and only if the read needs no further level. -/
theorem indirect_index (device : Device) (cache : List CachedBlock) {image : Nat → UInt8} (hw : WellFormed image)
    (subID : Nat) {inode : INode} (hi : inode.Fits) (double triple : Nat) {pos : Nat} (hpos : pos ≤ inode.size)
    (c : Chunk) :
    Indexed device (driverOf image subID) inode double triple cache pos c ↔
      SingleIndirect (driverOf image subID) inode pos c.bufferSize := by
  generalize hdrv : driverOf image subID = drv
  have hbs : 0 < drv.blockSize := hdrv ▸ Nat.lt_of_lt_of_le (by decide) (blockSize_bounds hw subID).1
  have hdeep : ∀ p, 12 + drv.blockSize / 4 ≤ p / drv.blockSize ↔ (12 + drv.blockSize / 4) * drv.blockSize ≤ p :=
    fun p => Nat.le_div_iff_mul_le hbs
  have hmem := @mem_indices device drv inode hbs hi pos hpos cache c
  constructor
  · intro h
    by_contra hcon
    unfold SingleIndirect at hcon
    push Not at hcon
    obtain ⟨h0, hend⟩ := hcon
    -- the last byte
    have hlast := (hdeep (pos + min c.bufferSize (inode.size - pos) - 1)).mpr (by omega)
    generalize hk : (pos + min c.bufferSize (inode.size - pos) - 1) / drv.blockSize = k at hlast
    have hidx := h.index (k - 12) ((hmem (k - 12)).mpr ⟨_, by omega, by omega, hk.trans (by omega)⟩)
    omega
  · intro h
    have hno : ∀ p, pos ≤ p → p < pos + min c.bufferSize (inode.size - pos) →
        ¬ 12 + drv.blockSize / 4 ≤ p / drv.blockSize := by
      intro p h1 h2
      rw [hdeep]
      rcases h with h | h <;> omega
    refine ⟨fun i hmemi => ?_, fun p h1 h2 h3 => absurd h3 (hno p h1 h2)⟩
    obtain ⟨p, h1, h2, h3⟩ := (hmem i).mp hmemi
    have := hno p h1 h2
    omega

section Image

/-- A file of one byte more than the indirect block has pointers for, on blocks of 1024 bytes. -/
def largeFile : INode := ⟨(12 + 256) * 1024 + 1, fun _ => 5, 6⟩

def lastByte : Chunk := ⟨kernelBuffer fun _ => 0, 1, zeros, fun _ => zeros⟩

theorem largeFile_fits : largeFile.Fits := ⟨by decide, fun _ => (by decide : 5 < 2 ^ 32), by decide⟩

/-- Two bytes over the seam of direct and indirect blocks. -/
theorem indirect_index_seam :
    12287 ≤ largeFile.size ∧
      Indexed imageDevice (driverOf image 0) largeFile 0 0 [] 12287 { lastByte with bufferSize := 2 } :=
  have hpos : 12287 ≤ largeFile.size := by decide
  ⟨hpos, (indirect_index imageDevice [] image_wellFormed 0 largeFile_fits 0 0 hpos _).mpr (Or.inr (by decide))⟩

/-- The last byte is read: the index is the one behind the buffer. -/
theorem behind_the_buffer :
    WellFormed image ∧ largeFile.Fits ∧ 274432 ≤ largeFile.size ∧ (driverOf image 0).blockSize / 4 = 256 ∧
      lastByte.indices imageDevice (driverOf image 0) largeFile [] 274432 = [256] ∧
      ¬ Indexed imageDevice (driverOf image 0) largeFile 0 0 [] 274432 lastByte := by
  have hq : (driverOf image 0).blockSize / 4 = 256 := by decide
  have hidx : lastByte.indices imageDevice (driverOf image 0) largeFile [] 274432 = [256] := by decide
  refine ⟨image_wellFormed, largeFile_fits, by decide, hq, hidx, fun h => ?_⟩
  have h256 := h.index 256 (by rw [hidx]; exact List.mem_singleton_self 256)
  rw [hq] at h256
  exact Nat.lt_irrefl _ h256

end Image

end Ext2

end SimpleOS2
