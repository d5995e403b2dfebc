/-
  File:      SimpleOS2/Fs/FaultingReads.lean
  Subject:   READS INTO A BUFFER THAT FAULTS (ReadNodeData of fs/TempFS.cpp, fs/PipeFS.cpp and
             fs/ext2/ext2.cpp; Read of fs/VFS.cpp).

  TempFS and PipeFS copy into the buffer of the caller with `kmemcpy_usersafe` and return
  `ErrorInvalidBuffer` where that faults. `GetData` of a block device does too, and the read of a device
  passes it on; `Ext2Driver::ReadNodeData` calls it in its loop and looks at no result.

  * `Node.readNodeData` -- the three functions, over what each finds in its node;
  * `vfsRead` -- `VFS::Read` on an open descriptor;
  * `Requests`, `Faults` -- the bytes a read goes for, and that one of them has no page in the buffer;
  * `readLoop_done` -- the loop of ext2 ends with all the bytes counted, whatever `GetData` has returned;
  * `faults_reported` -- which reads report the fault;
  * `ext2_fault_lost`.
-/
import SimpleOS2.Fs.FilePositions
import SimpleOS2.Fs.IndirectBlocks
import SimpleOS2.Fs.PipeFS

namespace SimpleOS2

open Lib

namespace FaultingReads

open TempFS FilePositions BlockDevice Ext2

/-! ## 1. The source's functions -/

/-- A file of an ext2 image, with what memory and the block cache hold when a read of it starts. -/
structure Ext2File where
  device : Device
  drv : Ext2Driver
  inode : INode
  cache : List CachedBlock
  indirect : Garbage
  data : Nat → Garbage
  blockSize_pos : 0 < drv.blockSize

/-- A node, as the functions of its file system find it. Other threads use a pipe while a read waits for
    it: `seen k` is the pipe at the `k`th call of `_Read`. -/
inductive Node where
  | tempFS (node : TestNode)
  | pipeFS (seen : Nat → {p : Pipe // PipeFS.PosOk p})
  | ext2 (file : Ext2File)

/-- `while((res = _Read(p, buffer, bufferSize)) == 0) ThreadYield();` -/
def pipeLoop (seen : Nat → Pipe) (bufferSize : Nat) : (fuel k : Nat) → UserBuffer → Option (Nat × UserBuffer)
  | 0, _, _ => none
  | fuel + 1, k, buffer =>
      let r := PipeFS.read (seen k) buffer bufferSize
      if r.1 = 0 then pipeLoop seen bufferSize fuel (k + 1) r.2.2 else some (r.1, r.2.2)

/-- `ReadNodeData` of the file system: the result and the buffer afterwards. -/
def Node.readNodeData (node : Node) (pos : Nat) (buffer : UserBuffer) (bufferSize fuel : Nat) :
    Option (Nat × UserBuffer) :=
  match node with
  | .tempFS node => some (FilePositions.readNodeData node pos buffer bufferSize)
  | .pipeFS seen => pipeLoop (fun k => (seen k).1) bufferSize fuel 0 buffer
  | .ext2 f =>
      (Ext2.readNodeData f.device f.drv f.inode f.indirect f.data f.cache pos buffer bufferSize).map fun r =>
        (r.2.2, r.2.1)

/-- `VFS::Read`: the result and the descriptor afterwards. -/
def vfsRead (node : Node) (desc : Desc) (buffer : UserBuffer) (bufferSize fuel : Nat) : Option (Int × Desc) :=
  if desc.read = false then some (ErrorPermissionDenied, desc)
  else (node.readNodeData desc.pos buffer bufferSize fuel).map fun r =>
    let res := int64 r.1
    (res, if res ≥ 0 then { desc with pos := u64 (desc.pos + r.1) } else desc)

/-! ## 2. Faults -/

/-- The read goes for `count` bytes: what is left behind the position, or what the pipe holds when the loop
    first finds something in it, cut to the size of the buffer. -/
def Requests (node : Node) (pos bufferSize count : Nat) : Prop :=
  match node with
  | .tempFS node => count = readLength node pos bufferSize
  | .pipeFS seen => ∃ k, (∀ i < k, PipeFS.buffered (seen i).1 = 0) ∧ PipeFS.buffered (seen k).1 ≠ 0 ∧
      count = min bufferSize (PipeFS.buffered (seen k).1)
  | .ext2 f => count = wanted f.inode pos bufferSize

/-- The copy of these bytes comes upon a page that the buffer does not have. -/
def Faults (node : Node) (pos : Nat) (buffer : UserBuffer) (bufferSize : Nat) : Prop :=
  ∃ count, Requests node pos bufferSize count ∧ ∃ j < count, buffer.mapped j = false

/-- **The fault is reported**: `ReadNodeData` returns `ErrorInvalidBuffer`, and so does `Read`, which leaves
    the descriptor alone. -/
def Reports (node : Node) (desc : Desc) (buffer : UserBuffer) (bufferSize : Nat) : Prop :=
  (∃ b, Halts (node.readNodeData desc.pos buffer bufferSize) (asU64 ErrorInvalidBuffer, b)) ∧
    Halts (vfsRead node desc buffer bufferSize) (ErrorInvalidBuffer, desc)

/-- Where it is: not on ext2, unless the number of the bytes is that of the error. -/
def Reported (node : Node) (pos bufferSize : Nat) : Prop :=
  match node with
  | .tempFS _ => True
  | .pipeFS _ => True
  | .ext2 f => wanted f.inode pos bufferSize = asU64 ErrorInvalidBuffer

section Reads

variable {node : Node} {desc : Desc} {buffer : UserBuffer} {pos n : Nat}

theorem code_ne_zero : asU64 ErrorInvalidBuffer ≠ 0 := by decide

theorem int64_code : int64 (asU64 ErrorInvalidBuffer) = ErrorInvalidBuffer := by decide

/-- A copy that faults fails. -/
theorem kmemcpyUsersafe_faults {ok : Nat → Bool} {src dst : Nat → UInt8} {s d count : Nat}
    (h : ∃ j < count, ok j = false) : (kmemcpyUsersafe ok src s dst d count).1 = false := by
  obtain ⟨j, hj, hbad⟩ := h
  refine Bool.eq_false_iff.mpr fun hok => ?_
  rw [(kmemcpyUsersafe_ok dst count).mp hok j hj] at hbad
  cases hbad

/-! ## 3. TempFS and PipeFS -/

/-- `TempFS::ReadNodeData` passes the fault on. -/
theorem tempFS_faults {file : TestNode} (h : ∃ j < readLength file pos n, buffer.mapped j = false) :
    (FilePositions.readNodeData file pos buffer n).1 = asU64 ErrorInvalidBuffer := by
  obtain ⟨j, hj, hbad⟩ := h
  unfold FilePositions.readNodeData
  by_cases h0 : u64 (file.fileSize + 2 ^ 64 - pos) = 0
  · -- at the end of the file nothing is copied
    have hlen : readLength file pos n = 0 := by
      unfold readLength
      rw [h0]
      exact if_neg (Nat.not_lt_zero n)
    omega
  · have hc : (kmemcpyUsersafe buffer.mapped file.fileData pos buffer.mem 0 (readLength file pos n)).1 = false :=
      kmemcpyUsersafe_faults ⟨j, hj, hbad⟩
    rw [if_neg h0]
    dsimp only
    rw [hc]
    rfl

/-- `_Read` passes the fault on, whichever of its copies comes upon it. -/
theorem pipe_faults {p : Pipe} (hp : PipeFS.PosOk p)
    (h : ∃ j < min n (PipeFS.buffered p), buffer.mapped j = false) :
    (PipeFS.read p buffer n).1 = asU64 ErrorInvalidBuffer := by
  obtain ⟨j, hj, hbad⟩ := h
  have h1 := hp.read_lt
  have h2 := hp.write_lt
  unfold PipeFS.bufferCap at h1 h2
  unfold PipeFS.read
  split_ifs with he hlt
  · have hb : PipeFS.buffered p = 0 := by unfold PipeFS.buffered PipeFS.bufferCap; omega
    omega
  · have hb : PipeFS.buffered p = p.writePos - p.readPos := by unfold PipeFS.buffered PipeFS.bufferCap; omega
    have hc : (kmemcpyUsersafe buffer.mapped p.buffer p.readPos buffer.mem 0 (min (p.writePos - p.readPos) n)).1 =
        false := kmemcpyUsersafe_faults ⟨j, by omega, hbad⟩
    dsimp only
    rw [hc]
    rfl
  · have hb : PipeFS.buffered p = PipeFS.bufferCap - p.readPos + p.writePos := by
      unfold PipeFS.buffered PipeFS.bufferCap
      omega
    obtain ⟨-, -, hsum, -⟩ := PipeFS.clampPieces_spec (PipeFS.bufferCap - p.readPos) p.writePos n
    dsimp only
    generalize PipeFS.clampPieces (PipeFS.bufferCap - p.readPos) p.writePos n = r at hsum ⊢
    by_cases hfirst : j < r.1
    · rw [kmemcpyUsersafe_faults ⟨j, hfirst, hbad⟩]
      rfl
    · have hback : r.1 + (j - r.1) = j := by omega
      have hsecond : ∃ i < r.2, (fun i => buffer.mapped (r.1 + i)) i = false :=
        ⟨j - r.1, by omega, by dsimp only; rw [hback]; exact hbad⟩
      rw [kmemcpyUsersafe_faults hsecond]
      split_ifs <;> first | rfl | contradiction

/-- The calls that find nothing change nothing. -/
theorem read_empty {p : Pipe} (hp : PipeFS.PosOk p) (h : PipeFS.buffered p = 0) (buffer : UserBuffer) (n : Nat) :
    PipeFS.read p buffer n = (0, p, buffer) := by
  have h1 := hp.read_lt
  have h2 := hp.write_lt
  have heq : p.readPos = p.writePos := by
    unfold PipeFS.buffered PipeFS.bufferCap at *
    omega
  unfold PipeFS.read
  rw [if_pos heq]

/-- The loop of `PipeFS::ReadNodeData` ends with the first call that finds something. -/
theorem pipeLoop_halts {seen : Nat → {p : Pipe // PipeFS.PosOk p}} {k : Nat}
    (hempty : ∀ i < k, PipeFS.buffered (seen i).1 = 0) (hres : (PipeFS.read (seen k).1 buffer n).1 ≠ 0)
    (start : Nat) (hstart : start ≤ k) :
    Halts (fun fuel => pipeLoop (fun k => (seen k).1) n fuel start buffer)
      ((PipeFS.read (seen k).1 buffer n).1, (PipeFS.read (seen k).1 buffer n).2.2) := by
  obtain ⟨d, rfl⟩ := Nat.exists_eq_add_of_le hstart
  induction d generalizing start with
  | zero =>
      refine ⟨1, fun fuel hf => ?_⟩
      obtain ⟨f, rfl⟩ := Nat.exists_eq_add_of_le' hf
      exact if_neg hres
  | succ d ih =>
      have hnext : start + (d + 1) = start + 1 + d := by omega
      rw [hnext] at hempty hres ⊢
      refine (Halts.succ_iff (fun fuel => ?_) _).mpr (ih (start + 1) hempty hres (by omega))
      rw [pipeLoop, read_empty (seen start).2 (hempty start (by omega))]
      exact if_pos rfl

/-! ## 4. ext2 -/

/-- **The loop of ext2** counts every byte, whatever `GetData` has returned. -/
theorem readLoop_done {device : Device} {drv : Ext2Driver} {inode : INode} (hbs : 0 < drv.blockSize) (g : Garbage)
    (gData : Nat → Garbage) (fuel : Nat) {s : Vars} (hf : s.rem ≤ fuel) (hlt : s.done + s.rem < 2 ^ 64) :
    ∃ s', readLoop device drv inode g gData fuel s = some s' ∧ s'.done = s.done + s.rem := by
  induction fuel generalizing s with
  | zero => exact ⟨s, if_pos (Nat.le_zero.mp hf), by omega⟩
  | succ fuel ih =>
      rw [readLoop]
      by_cases hrem : s.rem = 0
      · rw [if_pos hrem]
        exact ⟨s, rfl, by omega⟩
      · obtain ⟨-, hrem', hdone'⟩ := @readTurn_moves device drv inode g (gData fuel) s
        have hmod := Nat.mod_lt s.pos hbs
        have hbytes : 0 < turnBytes drv s ∧ turnBytes drv s ≤ s.rem := by
          unfold turnBytes
          omega
        rw [u64_of_lt (by omega)] at hdone'
        obtain ⟨s', hloop, hdone⟩ := ih (s := readTurn device drv inode g (gData fuel) s) (by omega) (by omega)
        rw [if_neg hrem]
        exact ⟨s', hloop, by omega⟩

theorem wanted_lt (inode : INode) (pos n : Nat) : wanted inode pos n < 2 ^ 64 := by
  have hlt : u64 (inode.size + 2 ^ 64 - pos) < 2 ^ 64 := Nat.mod_lt _ (by decide)
  unfold wanted
  dsimp only
  split_ifs <;> omega

/-- `Ext2Driver::ReadNodeData` returns the number of bytes it has gone for. -/
theorem ext2_result (f : Ext2File) (pos : Nat) (buffer : UserBuffer) (n : Nat) :
    ∃ b, ∀ fuel, (Node.ext2 f).readNodeData pos buffer n fuel = some (wanted f.inode pos n, b) := by
  have hlt := wanted_lt f.inode pos n
  show ∃ b, ∀ fuel : Nat, Option.map _ (Ext2.readNodeData _ _ _ _ _ _ _ _ _) = _
  unfold Ext2.readNodeData
  by_cases h0 : wanted f.inode pos n = 0
  · refine ⟨buffer, fun _ => ?_⟩
    rw [h0]
    have hrem := h0
    unfold wanted at hrem
    dsimp only at hrem ⊢
    rw [if_pos hrem]
    rfl
  · obtain ⟨s, hloop, hdone⟩ := @readLoop_done f.device f.drv f.inode f.blockSize_pos f.indirect f.data
      (wanted f.inode pos n) ⟨f.cache, pos, wanted f.inode pos n, 0, buffer, none⟩ le_rfl (by dsimp only; omega)
    have hrem := h0
    refine ⟨s.buffer, fun _ => ?_⟩
    unfold wanted at hrem hloop
    dsimp only at hrem hloop ⊢
    rw [if_neg hrem, hloop]
    show some (s.done, s.buffer) = _
    rw [hdone]
    dsimp only
    rw [Nat.zero_add]

/-! ## 5. Every read -/

/-- What `Read` returns, from what `ReadNodeData` does. -/
theorem vfsRead_halts {r : Nat × UserBuffer} (hread : desc.read = true)
    (h : Halts (node.readNodeData desc.pos buffer n) r) :
    Halts (vfsRead node desc buffer n)
      (int64 r.1, if int64 r.1 ≥ 0 then { desc with pos := u64 (desc.pos + r.1) } else desc) := by
  have hperm : ¬ desc.read = false := by
    rw [hread]
    decide
  obtain ⟨N, hN⟩ := h
  refine ⟨N, fun fuel hf => ?_⟩
  unfold vfsRead
  rw [if_neg hperm, hN fuel hf]
  rfl

/-- A read whose `ReadNodeData` returns the code reports it. -/
theorem reports_of_code {b : UserBuffer} (hread : desc.read = true)
    (h : Halts (node.readNodeData desc.pos buffer n) (asU64 ErrorInvalidBuffer, b)) : Reports node desc buffer n := by
  refine ⟨⟨b, h⟩, ?_⟩
  have hcode := vfsRead_halts hread h
  rw [if_neg FilePositions.int64_invalid, int64_code] at hcode
  exact hcode

theorem tempFS_reports {file : TestNode} (hread : desc.read = true)
    (h : ∃ j < readLength file desc.pos n, buffer.mapped j = false) : Reports (.tempFS file) desc buffer n := by
  have hcode := tempFS_faults h
  have hres : ∀ fuel, (Node.tempFS file).readNodeData desc.pos buffer n fuel =
      some (FilePositions.readNodeData file desc.pos buffer n) := fun _ => by rw [Node.readNodeData]
  generalize FilePositions.readNodeData file desc.pos buffer n = r at hcode hres
  obtain ⟨res, b⟩ := r
  obtain rfl : res = asU64 ErrorInvalidBuffer := hcode
  exact reports_of_code hread ⟨0, fun fuel _ => hres fuel⟩

theorem pipeFS_reports {seen : Nat → {p : Pipe // PipeFS.PosOk p}} {k : Nat} (hread : desc.read = true)
    (hempty : ∀ i < k, PipeFS.buffered (seen i).1 = 0)
    (h : ∃ j < min n (PipeFS.buffered (seen k).1), buffer.mapped j = false) :
    Reports (.pipeFS seen) desc buffer n := by
  have hcode := pipe_faults (seen k).2 h
  have hne : (PipeFS.read (seen k).1 buffer n).1 ≠ 0 := by
    rw [hcode]
    exact code_ne_zero
  have hhalts := pipeLoop_halts hempty hne 0 (Nat.zero_le k)
  rw [hcode] at hhalts
  exact reports_of_code hread hhalts

theorem ext2_reports (f : Ext2File) (hread : desc.read = true) :
    Reports (.ext2 f) desc buffer n ↔ wanted f.inode desc.pos n = asU64 ErrorInvalidBuffer := by
  obtain ⟨b, hres⟩ := ext2_result f desc.pos buffer n
  have hhalts : Halts ((Node.ext2 f).readNodeData desc.pos buffer n) (wanted f.inode desc.pos n, b) :=
    ⟨0, fun fuel _ => hres fuel⟩
  constructor
  · intro h
    obtain ⟨⟨b', h⟩, -⟩ := h
    exact (Prod.mk.inj (hhalts.unique h)).1
  · intro h
    rw [h] at hhalts
    exact reports_of_code hread hhalts

/-- **The reads that report a fault**: all on TempFS and on a pipe; on ext2 a read does only where the number
    of the bytes it goes for happens to be the code. -/
theorem faults_reported (node : Node) (desc : Desc) (buffer : UserBuffer) (n : Nat) (hread : desc.read = true)
    (hfault : Faults node desc.pos buffer n) : Reports node desc buffer n ↔ Reported node desc.pos n := by
  obtain ⟨count, hcount, hbad⟩ := hfault
  cases node with
  | tempFS file =>
      obtain rfl : count = readLength file desc.pos n := hcount
      exact iff_of_true (tempFS_reports hread hbad) trivial
  | pipeFS seen =>
      obtain ⟨k, hempty, -, rfl⟩ := hcount
      exact iff_of_true (pipeFS_reports hread hempty hbad) trivial
  | ext2 f => exact ext2_reports f hread

end Reads

section Examples

/-- A buffer without a page. -/
def noPages : UserBuffer := ⟨fun _ => 0, fun _ => false⟩

/-- Five bytes of a file in TempFS. -/
theorem faults_reported_tempFS :
    Faults (.tempFS ⟨5, fun _ => 7⟩) 0 noPages 8 ∧
      Reports (.tempFS ⟨5, fun _ => 7⟩) ⟨0, true, false⟩ noPages 8 := by
  have hfault : Faults (.tempFS ⟨5, fun _ => 7⟩) 0 noPages 8 := ⟨5, rfl, 0, by decide, rfl⟩
  exact ⟨hfault, (faults_reported _ ⟨0, true, false⟩ noPages 8 rfl hfault).mpr trivial⟩

/-- Five bytes of a file on an ext2 image. -/
def fiveBytes : Ext2File :=
  ⟨imageDevice, driverOf image 0, ⟨5, fun _ => 5, 0⟩, [], zeros, fun _ => zeros, by decide⟩

/-- **The fault is lost**: the read of this file says that it has read five bytes. -/
theorem ext2_fault_lost :
    WellFormed image ∧ Faults (.ext2 fiveBytes) 0 noPages 8 ∧
      Halts (vfsRead (.ext2 fiveBytes) ⟨0, true, false⟩ noPages 8) (5, ⟨5, true, false⟩) ∧
      ¬ Reports (.ext2 fiveBytes) ⟨0, true, false⟩ noPages 8 := by
  have hwanted : wanted fiveBytes.inode 0 8 = 5 := by decide
  refine ⟨image_wellFormed, ⟨5, hwanted.symm, 0, by decide, rfl⟩, ?_, fun h => ?_⟩
  · obtain ⟨b, hres⟩ := ext2_result fiveBytes 0 noPages 8
    rw [hwanted] at hres
    exact @vfsRead_halts (.ext2 fiveBytes) ⟨0, true, false⟩ noPages 8 (5, b) rfl ⟨0, fun fuel _ => hres fuel⟩
  · have hcode := (ext2_reports fiveBytes rfl).mp h
    rw [hwanted] at hcode
    exact absurd hcode (by decide)

end Examples

end FaultingReads

end SimpleOS2
