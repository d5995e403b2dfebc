/-
  File:      SimpleOS2/Fs/FilePositions.lean
  Subject:   THE POSITIONS OF THE DESCRIPTORS OF A TempFS FILE (fs/TempFS.cpp; Open, Read, Write, Seek of
             fs/VFS.cpp).

  Each descriptor has a position of its own. `ReadNodeData` and `WriteNodeData` subtract it from the size
  of the file as `uint64`s. The size is there twice: in the `TestNode`, and as `infoFile.fileSize` in the
  node, the bound of `Seek`.

  * `readNodeData`, `File.write`, `File.clear`, `seek` -- the source's functions;
  * `posStep` -- any number of threads on any number of descriptors; a read or a write is three steps,
    the position, the transfer, the stored position. A call that is refused changes nothing and is none;
  * `Safe` -- what every transfer that is due finds;
  * `nothingCut` -- no `Open` clears the file below a position, no `Seek` passes its end, no write wraps;
  * `positions_bounded` -- then every transfer stays in the file;
  * `position_left` -- without that a descriptor is left behind the end.
-/
import SimpleOS2.Fs.TempFS

namespace SimpleOS2

open Lib

namespace FilePositions

open TempFS

/-! ## 1. The source's functions -/

/-- A file: what TempFS holds, and `infoFile.fileSize` of its node. -/
structure File where
  node : TestNode
  infoSize : Nat

/-- The bytes that `ReadNodeData` copies: `rem`, cut to the size of the buffer. -/
def readLength (node : TestNode) (pos bufferSize : Nat) : Nat :=
  let rem := u64 (node.fileSize + 2 ^ 64 - pos)
  if rem > bufferSize then bufferSize else rem

/-- `TempFS::ReadNodeData`: the result and the buffer afterwards. -/
def readNodeData (node : TestNode) (pos : Nat) (buffer : UserBuffer) (bufferSize : Nat) : Nat × UserBuffer :=
  if u64 (node.fileSize + 2 ^ 64 - pos) = 0 then (0, buffer)
  else
    let rem := readLength node pos bufferSize
    let c := kmemcpyUsersafe buffer.mapped node.fileData pos buffer.mem 0 rem
    (if c.1 then rem else asU64 ErrorInvalidBuffer, { buffer with mem := c.2 })

/-- `TempFS::WriteNodeData`, with the size in the node. -/
def File.write (f : File) (pos : Nat) (buffer : UserBuffer) (bufferSize : Nat) : Nat × File :=
  let r := writeNodeData f.node pos buffer bufferSize
  let cap := u64 (f.node.fileSize + 2 ^ 64 - pos)
  (r.1, ⟨r.2, if cap < bufferSize then r.2.fileSize else f.infoSize⟩)

/-- `TempFS::ClearNodeData`. -/
def File.clear (f : File) : File := { f with node := { f.node with fileSize := 0 } }

inductive SeekMode where
  | seekSet
  | seekRel
  | seekEnd
  deriving DecidableEq

/-- The position that `Seek` asks for. -/
def target (infoSize : Nat) (mode : SeekMode) (offs : Nat) : Nat :=
  if mode = .seekEnd then infoSize else offs

/-- `Seek`: the new position of the descriptor. -/
def seek (infoSize : Nat) (mode : SeekMode) (offs : Nat) : Except Int Nat :=
  let offs := target infoSize mode offs
  if offs > infoSize then .error ErrorSeekOffsetOOB else .ok offs

/-! ## 2. Runs -/

/-- A `FileDescriptor`: its position, and what its open mode allows. -/
structure Desc where
  pos : Nat
  read : Bool
  write : Bool

/-- Where a thread stands in `Read` or `Write`. -/
inductive Pc where
  | idle
  /-- After `pos = desc->pos.Read()`. -/
  | reading (d pos bufferSize : Nat)
  | writing (d pos bufferSize : Nat)
  /-- Before `desc->pos.Write(pos + res)`. -/
  | storing (d pos res : Nat)

/-- The file, its open descriptors and the threads. -/
structure Sys where
  file : File
  desc : Nat → Option Desc
  pc : Nat → Pc

def Sys.goto (s : Sys) (t : Nat) (p : Pc) : Sys := { s with pc := Function.update s.pc t p }

def Sys.setDesc (s : Sys) (d : Nat) (o : Option Desc) : Sys :=
  { s with desc := Function.update s.desc d o }

/-- `desc->pos.Write(pos)`. Nothing is left to store to when the descriptor was closed meanwhile. -/
def Sys.setPos (s : Sys) (d pos : Nat) : Sys :=
  s.setDesc d ((s.desc d).map fun e => { e with pos := pos })

inductive Event where
  | openFile (d : Nat) (read write clear : Bool)
  | close (d : Nat)
  | startRead (t d bufferSize : Nat)
  | startWrite (t d bufferSize : Nat)
  | readData (t : Nat) (buffer : UserBuffer)
  | writeData (t : Nat) (buffer : UserBuffer)
  | store (t : Nat)
  | seek (d : Nat) (mode : SeekMode) (offs : Nat)

inductive posStep : Sys → Event → Sys → Prop where
  /-- `Open`, from the test of `OpenMode_Clear` on. -/
  | openFile (s : Sys) (d : Nat) (read write clear : Bool) (hd : s.desc d = none) :
      posStep s (.openFile d read write clear)
        (Sys.setDesc { s with file := if clear then s.file.clear else s.file } d (some ⟨0, read, write⟩))
  /-- `Close` of the last reference. -/
  | close (s : Sys) (d : Nat) : posStep s (.close d) (s.setDesc d none)
  | startRead (s : Sys) (t d bufferSize : Nat) (e : Desc) (ht : s.pc t = .idle) (hd : s.desc d = some e)
      (hp : e.read = true) : posStep s (.startRead t d bufferSize) (s.goto t (.reading d e.pos bufferSize))
  | startWrite (s : Sys) (t d bufferSize : Nat) (e : Desc) (ht : s.pc t = .idle) (hd : s.desc d = some e)
      (hp : e.write = true) : posStep s (.startWrite t d bufferSize) (s.goto t (.writing d e.pos bufferSize))
  | readData (s : Sys) (t : Nat) (buffer : UserBuffer) (d pos bufferSize : Nat)
      (ht : s.pc t = .reading d pos bufferSize) :
      posStep s (.readData t buffer)
        (s.goto t (.storing d pos (readNodeData s.file.node pos buffer bufferSize).1))
  | writeData (s : Sys) (t : Nat) (buffer : UserBuffer) (d pos bufferSize : Nat)
      (ht : s.pc t = .writing d pos bufferSize) :
      posStep s (.writeData t buffer)
        (Sys.goto { s with file := (s.file.write pos buffer bufferSize).2 } t
          (.storing d pos (s.file.write pos buffer bufferSize).1))
  /-- `if(res >= 0) desc->pos.Write(pos + res);` -/
  | store (s : Sys) (t d pos res : Nat) (ht : s.pc t = .storing d pos res) :
      posStep s (.store t)
        (if 0 ≤ int64 res then (s.setPos d (u64 (pos + res))).goto t .idle else s.goto t .idle)
  | seek (s : Sys) (d : Nat) (mode : SeekMode) (offs : Nat) (p : Nat)
      (hr : FilePositions.seek s.file.infoSize mode offs = .ok p) :
      posStep s (.seek d mode offs) (s.setPos d p)

/-- A file that nothing has open, with one size. -/
def posInit (s : Sys) : Prop :=
  s.file.node.fileSize = s.file.infoSize ∧ s.file.infoSize < 2 ^ 64 ∧ (∀ d, s.desc d = none) ∧
    ∀ t, s.pc t = .idle

/-- **What the transfers that are due find**: the position is in the file, and so are the bytes that are
    copied. A write may lengthen the file first; the old bytes then fit into it. -/
structure Safe (s : Sys) : Prop where
  reading : ∀ t d pos n, s.pc t = .reading d pos n →
    pos ≤ s.file.node.fileSize ∧ pos + readLength s.file.node pos n ≤ s.file.node.fileSize
  writing : ∀ t d pos n, s.pc t = .writing d pos n →
    pos ≤ s.file.node.fileSize ∧ ∀ buffer,
      s.file.node.fileSize ≤ (s.file.write pos buffer n).2.node.fileSize ∧
        pos + n ≤ (s.file.write pos buffer n).2.node.fileSize

/-! ## 3. The condition -/

/-- The position that a call has read or will store. -/
def Pc.holds : Pc → Option Nat
  | .idle => none
  | .reading _ pos _ => some pos
  | .writing _ pos _ => some pos
  | .storing _ pos res => if 0 ≤ int64 res then some (u64 (pos + res)) else none

/-- A descriptor stands there, or a call that is under way. -/
def Sys.inUse (s : Sys) (p : Nat) : Prop :=
  (∃ d e, s.desc d = some e ∧ e.pos = p) ∨ ∃ t, (s.pc t).holds = some p

/-- `Open` clears the file only while all stand at its start; `Seek` is not asked for more than the file
    holds, where the size in the node would let it pass; a write ends below 2^64. -/
def nothingCut (s : Sys) : Event → Prop
  | .openFile _ _ _ clear => clear = true → ∀ p, s.inUse p → p = 0
  | .seek _ mode offs => target s.file.infoSize mode offs ≤ s.file.infoSize →
      target s.file.infoSize mode offs ≤ s.file.node.fileSize
  | .startWrite _ d bufferSize => ∀ e, s.desc d = some e → e.pos + bufferSize < 2 ^ 64
  | _ => True

/-! ## 4. The transfers -/

section Transfer

variable {node : TestNode} {f : File} {pos n : Nat} {buffer : UserBuffer}

theorem readLength_le (hpos : pos ≤ node.fileSize) (hlt : node.fileSize < 2 ^ 64) :
    pos + readLength node pos n ≤ node.fileSize := by
  have hrem : u64 (node.fileSize + 2 ^ 64 - pos) = node.fileSize - pos := u64_sub hpos hlt
  unfold readLength
  rw [hrem]
  dsimp only
  split_ifs <;> omega

theorem int64_invalid : ¬ 0 ≤ int64 (asU64 ErrorInvalidBuffer) := by decide

/-- What a read stores is in the file. -/
theorem readNodeData_res (buffer : UserBuffer) (hpos : pos ≤ node.fileSize) (hlt : node.fileSize < 2 ^ 64)
    (hres : 0 ≤ int64 (readNodeData node pos buffer n).1) :
    pos + (readNodeData node pos buffer n).1 ≤ node.fileSize := by
  have hle := readLength_le (n := n) hpos hlt
  unfold readNodeData at hres ⊢
  split_ifs at hres ⊢ with h0
  · exact hpos
  · dsimp only at hres ⊢
    split_ifs at hres ⊢ with hc
    · exact hle
    · exact absurd hres int64_invalid

/-- The size of the file after a write. -/
theorem write_size (buffer : UserBuffer) (hpos : pos ≤ f.node.fileSize) (hlt : f.node.fileSize < 2 ^ 64)
    (hn : pos + n < 2 ^ 64) :
    (f.write pos buffer n).2.node.fileSize = max f.node.fileSize (pos + n) := by
  have hcap : u64 (f.node.fileSize + 2 ^ 64 - pos) = f.node.fileSize - pos := u64_sub hpos hlt
  have hsum : u64 (pos + n) = pos + n := u64_of_lt hn
  simp only [File.write, writeNodeData, hcap, hsum]
  split_ifs <;> omega

theorem write_res (buffer : UserBuffer) (hres : 0 ≤ int64 (f.write pos buffer n).1) :
    (f.write pos buffer n).1 = n := by
  simp only [File.write, writeNodeData] at hres ⊢
  split_ifs at hres ⊢ with hc
  · rfl
  · exact absurd hres int64_invalid

end Transfer

/-! ## 5. The invariant -/

/-- Every position in use is in the file. -/
structure PosInv (s : Sys) : Prop where
  size : s.file.node.fileSize < 2 ^ 64
  pos : ∀ p, s.inUse p → p ≤ s.file.node.fileSize
  fits : ∀ t d pos n, s.pc t = .writing d pos n → pos + n < 2 ^ 64

section Inv

variable {s : Sys} {t d : Nat}

theorem goto_pc {p q : Pc} {u : Nat} (h : (s.goto t p).pc u = q) : q = p ∨ s.pc u = q := by
  have h' : Function.update s.pc t p u = q := h
  by_cases hu : u = t
  · rw [hu, Function.update_self] at h'
    exact Or.inl h'.symm
  · rw [Function.update_of_ne hu] at h'
    exact Or.inr h'

theorem inUse_goto {p : Pc} {x : Nat} (h : (s.goto t p).inUse x) : p.holds = some x ∨ s.inUse x := by
  rcases h with h | ⟨u, hu⟩
  · exact Or.inr (Or.inl h)
  · rcases goto_pc (q := (s.goto t p).pc u) rfl with he | he
    · exact Or.inl (he ▸ hu)
    · exact Or.inr (Or.inr ⟨u, by rw [he]; exact hu⟩)

theorem inUse_setDesc {o : Option Desc} {x : Nat} (h : (s.setDesc d o).inUse x) :
    (∃ e, o = some e ∧ e.pos = x) ∨ s.inUse x := by
  rcases h with ⟨c, e, hc, he⟩ | h
  · have hc' : Function.update s.desc d o c = some e := hc
    by_cases hcd : c = d
    · rw [hcd, Function.update_self] at hc'
      exact Or.inl ⟨e, hc', he⟩
    · rw [Function.update_of_ne hcd] at hc'
      exact Or.inr (Or.inl ⟨c, e, hc', he⟩)
  · exact Or.inr (Or.inr h)

theorem inUse_setPos {pos x : Nat} (h : (s.setPos d pos).inUse x) : x = pos ∨ s.inUse x := by
  rcases inUse_setDesc h with ⟨e, he, rfl⟩ | h
  · obtain ⟨e', -, rfl⟩ := Option.map_eq_some_iff.mp he
    exact Or.inl rfl
  · exact Or.inr h

theorem inUse_desc {e : Desc} (h : s.desc d = some e) : s.inUse e.pos := Or.inl ⟨d, e, h, rfl⟩

theorem inUse_pc {p : Pc} {x : Nat} (h : s.pc t = p) (hp : p.holds = some x) : s.inUse x :=
  Or.inr ⟨t, by rw [h]; exact hp⟩

theorem posInv_init (h : posInit s) : PosInv s := by
  obtain ⟨hsize, hlt, hd, ht⟩ := h
  refine ⟨hsize ▸ hlt, fun p hp => ?_, fun t d pos n hpc => ?_⟩
  · rcases hp with ⟨d, e, he, -⟩ | ⟨t, hp⟩
    · rw [hd d] at he
      cases he
    · rw [ht t] at hp
      cases hp
  · rw [ht t] at hpc
    cases hpc

/-- A call moves on, to a position in the file. -/
theorem PosInv.goto (hI : PosInv s) {p : Pc} (hp : ∀ x, p.holds = some x → x ≤ s.file.node.fileSize)
    (hfit : ∀ d pos n, p = .writing d pos n → pos + n < 2 ^ 64) : PosInv (s.goto t p) := by
  refine ⟨hI.size, fun x hx => ?_, fun u d pos n hu => ?_⟩
  · rcases inUse_goto hx with h | h
    · exact hp x h
    · exact hI.pos x h
  · rcases goto_pc hu with h | h
    · exact hfit d pos n h.symm
    · exact hI.fits u d pos n h

theorem PosInv.setPos (hI : PosInv s) {pos : Nat} (hp : pos ≤ s.file.node.fileSize) : PosInv (s.setPos d pos) := by
  refine ⟨hI.size, fun x hx => ?_, hI.fits⟩
  rcases inUse_setPos hx with h | h
  · exact h ▸ hp
  · exact hI.pos x h

theorem PosInv.file (hI : PosInv s) {f : File} (hlt : f.node.fileSize < 2 ^ 64)
    (hp : ∀ x, s.inUse x → x ≤ f.node.fileSize) : PosInv { s with file := f } := ⟨hlt, hp, hI.fits⟩

theorem posInv_step {s' : Sys} {ev : Event} (hI : PosInv s) (hs : Guarded posStep nothingCut s ev s') : PosInv s' := by
  obtain ⟨hs, hok⟩ := hs
  cases hs with
  | openFile d read write clear hd =>
      have hfile : PosInv { s with file := if clear then s.file.clear else s.file } := by
        cases clear with
        | false => exact hI
        | true => exact hI.file (by show 0 < 2 ^ 64; decide) fun x hx => Nat.le_of_eq (hok rfl x hx)
      refine ⟨hfile.size, fun x hx => ?_, hfile.fits⟩
      rcases inUse_setDesc hx with ⟨e, he, rfl⟩ | h
      · cases he
        exact Nat.zero_le _
      · exact hfile.pos x h
  | close d =>
      refine ⟨hI.size, fun x hx => ?_, hI.fits⟩
      rcases inUse_setDesc hx with ⟨e, he, -⟩ | h
      · cases he
      · exact hI.pos x h
  | startRead t d n e ht hd hp =>
      refine hI.goto (fun x hx => ?_) fun _ _ _ h => by cases h
      cases hx
      exact hI.pos _ (inUse_desc hd)
  | startWrite t d n e ht hd hp =>
      refine hI.goto (fun x hx => ?_) fun d' pos n' h => ?_
      · cases hx
        exact hI.pos _ (inUse_desc hd)
      · cases h
        exact hok e hd
  | readData t buffer d pos n ht =>
      refine hI.goto (fun x hx => ?_) fun _ _ _ h => by cases h
      have hpos := hI.pos pos (inUse_pc ht rfl)
      simp only [Pc.holds] at hx
      split_ifs at hx with hres
      have hle := readNodeData_res buffer hpos hI.size hres
      have hsize := hI.size
      cases hx
      rw [u64_of_lt (by omega)]
      exact hle
  | writeData t buffer d pos n ht =>
      have hpos := hI.pos pos (inUse_pc ht rfl)
      have hfit := hI.fits t d pos n ht
      have hlt := hI.size
      have hsize := write_size buffer hpos hlt hfit
      have hfile : PosInv { s with file := (s.file.write pos buffer n).2 } :=
        hI.file (by rw [hsize]; omega) fun x hx => by
          have := hI.pos x hx
          rw [hsize]
          omega
      refine hfile.goto (fun x hx => ?_) fun _ _ _ h => by cases h
      simp only [Pc.holds] at hx
      split_ifs at hx with hres
      cases hx
      rw [write_res buffer hres, u64_of_lt hfit, hsize]
      exact Nat.le_max_right _ _
  | store t d pos res ht =>
      by_cases hres : 0 ≤ int64 res
      · have hnew := hI.pos (u64 (pos + res)) (inUse_pc ht (if_pos hres))
        rw [if_pos hres]
        exact (hI.setPos hnew).goto (fun x hx => by cases hx) fun _ _ _ h => by cases h
      · rw [if_neg hres]
        exact hI.goto (fun x hx => by cases hx) fun _ _ _ h => by cases h
  | seek d mode offs p hr =>
      refine hI.setPos ?_
      simp only [seek] at hr
      split_ifs at hr with hgt
      cases hr
      exact hok (Nat.le_of_not_lt hgt)

theorem posInv_reach (h : Reach (Guarded posStep nothingCut) posInit s) : PosInv s :=
  Reach.inv (I := PosInv) (fun _ h0 => posInv_init h0) (fun _ _ _ hI hs => posInv_step hI hs) h

theorem PosInv.safe (hI : PosInv s) : Safe s := by
  refine ⟨fun t d pos n ht => ?_, fun t d pos n ht => ?_⟩
  · have hpos := hI.pos pos (inUse_pc ht rfl)
    exact ⟨hpos, readLength_le hpos hI.size⟩
  · have hpos := hI.pos pos (inUse_pc ht rfl)
    refine ⟨hpos, fun buffer => ?_⟩
    rw [write_size buffer hpos hI.size (hI.fits t d pos n ht)]
    exact ⟨Nat.le_max_left _ _, Nat.le_max_right _ _⟩

end Inv

/-! ## 6. Whole runs -/

/-- **Every transfer stays in the file** in any run in which nothing is cut off below a position. -/
theorem positions_bounded {s : Sys} (h : Reach (Guarded posStep nothingCut) posInit s) : Safe s :=
  (posInv_reach h).safe

/-- An empty file. -/
def emptyFile : Sys := ⟨⟨⟨0, fun _ => 0⟩, 0⟩, fun _ => none, fun _ => .idle⟩

theorem emptyFile_init : posInit emptyFile := ⟨rfl, by decide, fun _ => rfl, fun _ => rfl⟩

/-- **A descriptor is left behind the end**: five bytes are written through the one, then the file is
    cleared through the other, and the first one reads. -/
theorem position_left : ¬ ∀ s, Reach posStep posInit s → Safe s := by
  intro hall
  have h0 : Reach posStep posInit emptyFile := .start _ emptyFile_init
  have h1 := Reach.next _ _ _ h0 (posStep.openFile _ 0 true true false rfl)
  have h2 := Reach.next _ _ _ h1 (posStep.startWrite _ 0 0 5 _ rfl rfl rfl)
  have h3 := Reach.next _ _ _ h2 (posStep.writeData _ 0 (bufferOf 1) 0 0 5 rfl)
  have h4 := Reach.next _ _ _ h3 (posStep.store _ 0 0 0 5 rfl)
  have h5 := Reach.next _ _ _ h4 (posStep.openFile _ 1 false true true rfl)
  have h6 := Reach.next _ _ _ h5 (posStep.startRead _ 0 0 10 ⟨5, true, true⟩ rfl rfl rfl)
  have hpos := ((hall _ h6).reading 0 0 5 10 rfl).1
  exact absurd hpos (by decide)

/-- Five bytes are written, `Seek` goes back by two, and a read is due. -/
theorem positions_bounded_seek : ∃ s, Reach (Guarded posStep nothingCut) posInit s ∧
    s.pc 0 = .reading 0 3 10 ∧ s.file.node.fileSize = 5 ∧ Safe s := by
  have h0 : Reach (Guarded posStep nothingCut) posInit emptyFile := .start _ emptyFile_init
  have h1 := Reach.next _ _ _ h0 ⟨posStep.openFile _ 0 true true false rfl, fun h => by cases h⟩
  have h2 := Reach.next _ _ _ h1 ⟨posStep.startWrite _ 0 0 5 ⟨0, true, true⟩ rfl rfl rfl, fun e he => ?_⟩
  · have h3 := Reach.next _ _ _ h2 ⟨posStep.writeData _ 0 (bufferOf 1) 0 0 5 rfl, trivial⟩
    have h4 := Reach.next _ _ _ h3 ⟨posStep.store _ 0 0 0 5 rfl, trivial⟩
    have h5 := Reach.next _ _ _ h4 ⟨posStep.seek _ 0 .seekSet 3 3 rfl, fun _ => by decide⟩
    have h6 := Reach.next _ _ _ h5 ⟨posStep.startRead _ 0 0 10 ⟨3, true, true⟩ rfl rfl rfl, trivial⟩
    exact ⟨_, h6, rfl, by decide, positions_bounded h6⟩
  · cases he
    decide

end FilePositions

end SimpleOS2
