/-
  File:      SimpleOS2/Exec/ELF.lean
  Subject:   THE ELF LOADER (`ELFExecHandler::CheckAndPrepare`, exec/elf/ELF.cpp).

  The loader compares the magic number and believes every other number of the file: offsets, counts, sizes and
  addresses are used as they stand, and `bufferSize` is not read.

  * `Machine` -- what the loader runs on: the file in its buffer, the two `MapProcessPage`, `AllocatePages`, a store
    through a pointer;
  * `magicFrom`, `readBytes`, `copyByte`, `zeroByte`, `copySegment`, `prepareSegment`, `pushString`, `pushPointer`,
    `checkAndPrepare` -- the loader;
  * `traced` -- a machine that writes down what is read of the file and through which pointer is written;
  * `Fits`, `InBounds` -- a file that fits, and a run that stays where it belongs; `Tame` -- when it does;
  * `elf_bounds` -- a run of the loader stays in bounds if and only if the file is tame; `empty_file`.
-/
import SimpleOS2.Klib.Memory
import SimpleOS2.Lib.Run

namespace SimpleOS2

open Lib

namespace ELF

/-! ## 1. The data of the file -/

def PT_LOAD : Nat := 1
def PT_TLS : Nat := 7

structure ElfSegmentHeader where
  type : Nat
  dataOffset : Nat
  virtualAddress : Nat
  dataSize : Nat
  virtualSize : Nat
deriving DecidableEq

/-- The bytes of memory that a segment is copied or cleared to. -/
def ElfSegmentHeader.bytes (g : ElfSegmentHeader) : Nat := max g.dataSize g.virtualSize

structure ELFProgramInfo where
  masterTLSAddress : Nat
  masterTLSSize : Nat
  argc : Nat
  argv : Nat

/-- The registers that are set. All others are 0. -/
structure Registers where
  cs : Nat
  ds : Nat
  ss : Nat
  rflags : Nat
  rip : Nat
  userrsp : Nat
  rdi : Nat

/-- The magic number. -/
def magic : List Nat := [0x7F, 0x45, 0x4C, 0x46]

def stackBase : Nat := 0x1000

/-- The sizes of the headers, and of what is put on the stack. -/
def sizeofHeader : Nat := 64
def sizeofSegment : Nat := 56
def sizeofProgramInfo : Nat := 32

/-- `n` bytes of a number, the lowest one first. -/
def leBytes : (n v : Nat) → List Nat
  | 0, _ => []
  | n + 1, v => v % 256 :: leBytes n (v / 256)

/-- Four bytes of padding stand behind `argc`. -/
def ELFProgramInfo.toBytes (p : ELFProgramInfo) : List Nat :=
  leBytes 8 p.masterTLSAddress ++ leBytes 8 p.masterTLSSize ++ leBytes 4 p.argc ++ leBytes 4 0 ++ leBytes 8 p.argv

/-- The last TLS segment is the one the program hears of. -/
def ELFProgramInfo.noteTLS (p : ELFProgramInfo) (g : ElfSegmentHeader) : ELFProgramInfo :=
  if g.type = PT_TLS then { p with masterTLSAddress := g.virtualAddress, masterTLSSize := g.virtualSize } else p

/-! ## 2. The machine -/

/-- What the loader runs on. `P` are the kernel's pointers. -/
structure Machine (σ P : Type) where
  /-- The byte at `buffer + offs`. -/
  load : σ → (offs : Nat) → σ × Nat
  /-- `MapProcessPage(pml4Entry, virt, false)`. -/
  mapPage : σ → (virt : Nat) → Option (σ × P)
  allocatePages : σ → (numPages : Nat) → Option (σ × Nat)
  /-- `MapProcessPage(pml4Entry, phys, virt, false)`. -/
  mapFrame : σ → (phys virt : Nat) → Option σ
  physToKernelPtr : Nat → P
  nullptr : P
  /-- The byte at `ptr + offs` is written. -/
  store : σ → (ptr : P) → (offs : Int) → (value : Nat) → σ

section Loader

variable {σ P : Type} (M : Machine σ P)

/-- A field of the file. -/
def readBytes : (n offs : Nat) → σ → σ × Nat
  | 0, _, s => (s, 0)
  | n + 1, offs, s =>
      let a := M.load s (u64 offs)
      let r := readBytes n (offs + 1) a.1
      (r.1, a.2 + 256 * r.2)

def storeBytes (p : P) : List Nat → Int → σ → σ
  | [], _, s => s
  | b :: bs, offs, s => storeBytes p bs (offs + 1) (M.store s p offs b)

/-- The bytes of the magic number are compared one by one, up to the first one that is wrong. -/
def magicFrom : List Nat → (offs : Nat) → σ → σ × Bool
  | [], _, s => (s, true)
  | b :: bs, offs, s =>
      let a := M.load s offs
      if a.2 ≠ b then (a.1, false) else magicFrom bs (offs + 1) a.1

/-- The page that was mapped last, and the pointer to it. -/
structure Cursor (P : Type) where
  lastPage : Nat
  lastPageBuffer : P

/-- The beginning of both loops: a page that is not the last one is mapped. -/
def enterPage (addr : Nat) (c : σ × Cursor P) : Option (σ × Cursor P) :=
  let page := addr - addr % 4096
  if page ≠ c.2.lastPage then (M.mapPage c.1 page).map fun r => (r.1, ⟨page, r.2⟩) else some c

/-- A turn of the loop over the data of a segment. -/
def copyByte (g : ElfSegmentHeader) (i : Nat) (c : σ × Cursor P) : Option (σ × Cursor P) :=
  let addr := u64 (g.virtualAddress + i)
  (enterPage M addr c).map fun c =>
    let b := M.load c.1 (u64 (g.dataOffset + i))
    (M.store b.1 c.2.lastPageBuffer (addr % 4096 : Nat) b.2, c.2)

/-- A turn of the loop over the rest of it. -/
def zeroByte (g : ElfSegmentHeader) (i : Nat) (c : σ × Cursor P) : Option (σ × Cursor P) :=
  let addr := u64 (g.virtualAddress + i)
  (enterPage M addr c).map fun c => (M.store c.1 c.2.lastPageBuffer (addr % 4096 : Nat) 0, c.2)

/-- Both loops. `lastPage` starts at 0, and the pointer at `nullptr`. -/
def copySegment (g : ElfSegmentHeader) (s : σ) : Option σ :=
  ((forLoop (copyByte M g) g.dataSize 0 (s, ⟨0, M.nullptr⟩)).bind
    (forLoop (zeroByte M g) (g.virtualSize - g.dataSize) g.dataSize)).map Prod.fst

/-- The fields of a segment that is loaded. -/
def readSegment (type offs : Nat) (s : σ) : σ × ElfSegmentHeader :=
  let dataOffset := readBytes M 8 (offs + 8) s
  let virtualAddress := readBytes M 8 (offs + 16) dataOffset.1
  let dataSize := readBytes M 8 (offs + 32) virtualAddress.1
  let virtualSize := readBytes M 8 (offs + 40) dataSize.1
  (virtualSize.1, ⟨type, dataOffset.2, virtualAddress.2, dataSize.2, virtualSize.2⟩)

/-- The turn `k` of the loop over the program headers. Only the type is read of a segment that is not loaded. -/
def prepareSegment (phOffset k : Nat) (r : σ × ELFProgramInfo) : Option (σ × ELFProgramInfo) :=
  let offs := phOffset + sizeofSegment * k
  let type := readBytes M 4 offs r.1
  if type.2 = PT_LOAD ∨ type.2 = PT_TLS then
    let segment := readSegment M type.2 offs type.1
    (copySegment M segment.2 segment.1).map fun s => (s, r.2.noteTLS segment.2)
  else some (type.1, r.2)

/-- The stack while it is filled from its end. `virtStack` counts from the kernel's pointer to the stack pages. -/
structure Stack (σ : Type) where
  state : σ
  virtStack : Int
  argSize : Nat
  userArgv : List Nat

/-- A user address, `argSize` bytes below the end of the stack. -/
def stackAddr (argSize : Nat) : Nat := u64 (2 ^ 64 + stackBase + 16 * 4096 - argSize)

/-- An argument with its terminator. -/
def pushString (p : P) (a : List Nat) (t : Stack σ) : Stack σ :=
  let l := a.length + 1
  ⟨storeBytes M p (a ++ [0]) (t.virtStack - l) t.state, t.virtStack - l, t.argSize + l,
    stackAddr (t.argSize + l) :: t.userArgv⟩

/-- The pointer to an argument. -/
def pushPointer (p : P) (v : Nat) (t : Stack σ) : Stack σ :=
  ⟨storeBytes M p (leBytes 8 v) (t.virtStack - 8) t.state, t.virtStack - 8, t.argSize + 8, t.userArgv⟩

/-- Both loops over the arguments, from the last one on. -/
def pushArgs (p : P) (argv : List (List Nat)) (s : σ) : Stack σ :=
  let t := argv.foldr (pushString M p) ⟨s, 16 * 4096, 0, []⟩
  t.userArgv.foldr (pushPointer M p) t

/-- The registers of the new program. -/
def startRegs (entryPoint userrsp : Nat) : Registers := ⟨0x23, 0x1B, 0x1B, 0x200, entryPoint, userrsp, userrsp⟩

/-- The stack pages, and what the program finds on them. -/
def prepareStack (argv : List (List Nat)) (info : ELFProgramInfo) (s : σ) : Option (σ × Nat) :=
  (M.allocatePages s 16).bind fun a =>
    (forLoop (fun i s => M.mapFrame s (u64 (a.2 + i * 4096)) (stackBase + i * 4096)) 16 0 a.1).map fun s =>
      let p := M.physToKernelPtr a.2
      let t := pushArgs M p argv s
      let info := { info with argc := argv.length, argv := stackAddr t.argSize }
      (storeBytes M p info.toBytes (t.virtStack - sizeofProgramInfo) t.state,
        stackAddr (t.argSize + sizeofProgramInfo))

/-- `CheckAndPrepare`: `false`, or `true` with the registers. The header does not change while the loops run, and is
    read once. -/
def checkAndPrepare (argv : List (List Nat)) (s : σ) : Option (σ × Option Registers) :=
  let m := magicFrom M magic 0 s
  if m.2 = false then some (m.1, none)
  else
    let phOffset := readBytes M 8 32 m.1
    let phEntryCount := readBytes M 2 56 phOffset.1
    (forLoop (prepareSegment M phOffset.2) phEntryCount.2 0 (phEntryCount.1, ⟨0, 0, 0, 0⟩)).bind fun r =>
      let entryPoint := readBytes M 8 24 r.1
      (prepareStack M argv r.2 entryPoint.1).map fun r => (r.1, some (startRegs entryPoint.2 r.2))

/-- Every call of the memory manager comes back. -/
structure Machine.Returns : Prop where
  mapPage : ∀ s v, M.mapPage s v ≠ none
  allocatePages : ∀ s n, M.allocatePages s n ≠ none
  mapFrame : ∀ s p v, M.mapFrame s p v ≠ none

/-! ### The stack, on any machine -/

section Stack

variable {M}

theorem length_leBytes (k v : Nat) : (leBytes k v).length = k := by
  induction k generalizing v with
  | zero => rfl
  | succ k ih => exact congrArg (· + 1) (ih (v / 256))

theorem length_toBytes (info : ELFProgramInfo) : info.toBytes.length = sizeofProgramInfo := by
  unfold ELFProgramInfo.toBytes sizeofProgramInfo
  simp only [List.length_append, length_leBytes]

/-- What is put on the stack for the arguments. -/
def argsSize (argv : List (List Nat)) : Nat :=
  (argv.map fun a => a.length + 1).sum + 8 * argv.length + sizeofProgramInfo

variable {I : σ → Prop} {R : Int → Prop} {p : P}

/-- What every store at an offset in `R` keeps. -/
theorem storeBytes_keeps (hI : ∀ s o v, R o → I s → I (M.store s p o v)) {bs : List Nat} {offs : Int} {s : σ}
    (hR : ∀ o, offs ≤ o → o < offs + bs.length → R o) (hs : I s) : I (storeBytes M p bs offs s) := by
  induction bs generalizing offs s with
  | nil => exact hs
  | cons b bs ih =>
      have hlen : ((b :: bs).length : Int) = bs.length + 1 := rfl
      exact ih (fun o h1 h2 => hR o (by omega) (by omega)) (hI s offs b (hR offs le_rfl (by omega)) hs)

/-- `size` bytes are on the stack. -/
structure Pushed (I : σ → Prop) (R : Int → Prop) (size : Nat) (t : Stack σ) : Prop where
  argSize : t.argSize = size
  virtStack : t.virtStack = 16 * 4096 - size
  state : (∀ o : Int, 16 * 4096 - size ≤ o → o < 16 * 4096 → R o) → I t.state

/-- The bytes that come next. -/
theorem Pushed.store (hI : ∀ s o v, R o → I s → I (M.store s p o v)) {size : Nat} {t : Stack σ} (h : Pushed I R size t)
    (bs : List Nat) (hR : ∀ o : Int, 16 * 4096 - ((size + bs.length : Nat) : Int) ≤ o → o < 16 * 4096 → R o) :
    I (storeBytes M p bs (t.virtStack - bs.length) t.state) := by
  have hv := h.virtStack
  exact storeBytes_keeps hI (fun o h1 h2 => hR o (by omega) (by omega)) (h.state fun o h1 h2 => hR o (by omega) h2)

theorem pushString_pushed (hI : ∀ s o v, R o → I s → I (M.store s p o v)) {size : Nat} {t : Stack σ} (a : List Nat)
    (h : Pushed I R size t) : Pushed I R (size + (a.length + 1)) (pushString M p a t) where
  argSize := by
    rw [← h.argSize]
    rfl
  virtStack := by
    have := h.virtStack
    unfold pushString
    dsimp only
    omega
  state hR := by
    have hstore := h.store hI (a ++ [0]) (by rwa [List.length_append, List.length_singleton])
    rw [List.length_append, List.length_singleton] at hstore
    exact hstore

theorem pushPointer_pushed (hI : ∀ s o v, R o → I s → I (M.store s p o v)) {size : Nat} {t : Stack σ} (v : Nat)
    (h : Pushed I R size t) : Pushed I R (size + 8) (pushPointer M p v t) where
  argSize := by
    rw [← h.argSize]
    rfl
  virtStack := by
    have := h.virtStack
    unfold pushPointer
    dsimp only
    omega
  state hR := by
    have hstore := h.store hI (leBytes 8 v) (by rwa [length_leBytes])
    rw [length_leBytes] at hstore
    exact hstore

/-- **Both loops over the arguments.** -/
theorem pushArgs_pushed (hI : ∀ s o v, R o → I s → I (M.store s p o v)) (argv : List (List Nat)) {s : σ} (hs : I s) :
    Pushed I R ((argv.map fun a => a.length + 1).sum + 8 * argv.length) (pushArgs M p argv s) := by
  have hstrings : Pushed I R (argv.map fun a => a.length + 1).sum (argv.foldr (pushString M p) ⟨s, 16 * 4096, 0, []⟩) ∧
      (argv.foldr (pushString M p) ⟨s, 16 * 4096, 0, []⟩).userArgv.length = argv.length := by
    induction argv with
    | nil => exact ⟨⟨rfl, rfl, fun _ => hs⟩, rfl⟩
    | cons a argv ih =>
        refine ⟨?_, congrArg (· + 1) ih.2⟩
        rw [List.map_cons, List.sum_cons, Nat.add_comm]
        exact pushString_pushed hI a ih.1
  obtain ⟨h, hlen⟩ := hstrings
  unfold pushArgs
  dsimp only
  rw [← hlen]
  generalize argv.foldr (pushString M p) ⟨s, 16 * 4096, 0, []⟩ = t at h ⊢
  generalize t.userArgv = l
  induction l with
  | nil => exact h
  | cons v l ih =>
      rw [List.length_cons, Nat.mul_succ, ← Nat.add_assoc]
      exact pushPointer_pushed hI v ih

/-- **The stack**: what the stores keep, if it holds after the pages are mapped. -/
theorem prepareStack_keeps {argv : List (List Nat)} {info : ELFProgramInfo} {s : σ} {r : σ × Nat}
    (hr : prepareStack M argv info s = some r) : ∃ a t, M.allocatePages s 16 = some a ∧
      forLoop (fun i s => M.mapFrame s (u64 (a.2 + i * 4096)) (stackBase + i * 4096)) 16 0 a.1 = some t ∧
      ∀ (I : σ → Prop) (R : Int → Prop), (∀ s o v, R o → I s → I (M.store s (M.physToKernelPtr a.2) o v)) →
        (∀ o : Int, 16 * 4096 - argsSize argv ≤ o → o < 16 * 4096 → R o) → I t → I r.1 := by
  obtain ⟨a, ha, hr⟩ := Option.bind_eq_some_iff.mp hr
  obtain ⟨t, ht, rfl⟩ := Option.map_eq_some_iff.mp hr
  refine ⟨a, t, ha, ht, fun I R hI hR hs => ?_⟩
  have h := (pushArgs_pushed hI argv hs).store hI (ELFProgramInfo.toBytes { info with
    argc := argv.length, argv := stackAddr (pushArgs M (M.physToKernelPtr a.2) argv t).argSize })
    (by rw [length_toBytes]; exact hR)
  rw [length_toBytes] at h
  exact h

end Stack

end Loader

/-! ## 3. What is accessed -/

/-- What a pointer points into. -/
inductive Object where
  | null
  | page (virt : Nat)
  | stack

inductive Access where
  | read (offs : Nat)
  | write (object : Object) (offs : Int)

/-- **The machine `M` with the file in its buffer**, which writes down its accesses. What stands behind the buffer is up
    to `M`. -/
def traced {σ P : Type} (buffer : List UInt8) (M : Machine σ P) : Machine (σ × List Access) (P × Object) where
  load s offs :=
    let r := M.load s.1 offs
    ((r.1, .read offs :: s.2), match buffer[offs]? with
      | some b => b.toNat
      | none => r.2)
  mapPage s virt := (M.mapPage s.1 virt).map fun r => ((r.1, s.2), r.2, .page virt)
  allocatePages s n := (M.allocatePages s.1 n).map fun r => ((r.1, s.2), r.2)
  mapFrame s phys virt := (M.mapFrame s.1 phys virt).map fun r => (r, s.2)
  physToKernelPtr p := (M.physToKernelPtr p, .stack)
  nullptr := (M.nullptr, .null)
  store s p offs v := (M.store s.1 p.1 offs v, .write p.2 offs :: s.2)

/-- Reads stay inside the file, writes inside a page that was mapped at a user address, or inside the stack pages. -/
def Ok (bufferSize : Nat) : Access → Prop
  | .read offs => offs < bufferSize
  | .write .null _ => False
  | .write (.page virt) offs => virt < 2 ^ 39 ∧ 0 ≤ offs ∧ offs < 4096
  | .write .stack offs => 0 ≤ offs ∧ offs < 16 * 4096

def Fine (bufferSize : Nat) (log : List Access) : Prop := ∀ a ∈ log, Ok bufferSize a

/-- A field of the file. -/
def field (buffer : List UInt8) : (n offs : Nat) → Nat
  | 0, _ => 0
  | n + 1, offs => (buffer.getD offs 0).toNat + 256 * field buffer n (offs + 1)

def phOffset (buffer : List UInt8) : Nat := field buffer 8 32
def phEntryCount (buffer : List UInt8) : Nat := field buffer 2 56

def segmentAt (buffer : List UInt8) (k : Nat) : ElfSegmentHeader :=
  let offs := phOffset buffer + sizeofSegment * k
  ⟨field buffer 4 offs, field buffer 8 (offs + 8), field buffer 8 (offs + 16), field buffer 8 (offs + 32),
    field buffer 8 (offs + 40)⟩

/-- The segments that are loaded. -/
def IsSegment (buffer : List UInt8) (g : ElfSegmentHeader) : Prop :=
  ∃ k, k < phEntryCount buffer ∧ segmentAt buffer k = g ∧ (g.type = PT_LOAD ∨ g.type = PT_TLS)

/-- **The file fits**: the header, the table and the data of the segments lie in the buffer, and the segments below
    `2 ^ 39`. -/
structure Fits (buffer : List UInt8) : Prop where
  header : sizeofHeader ≤ buffer.length
  table : ∀ k, k < phEntryCount buffer → phOffset buffer + sizeofSegment * (k + 1) ≤ buffer.length
  data : ∀ g, IsSegment buffer g → ∀ i, i < g.dataSize → g.dataOffset + i < buffer.length
  memory : ∀ g, IsSegment buffer g → ∀ i, i < g.bytes → g.virtualAddress + i < 2 ^ 39

/-- **What the loader should guarantee**: every access is as it should be, and a file that does not fit is refused. -/
structure InBounds {σ : Type} (buffer : List UInt8) (r : (σ × List Access) × Option Registers) : Prop where
  accesses : Fine buffer.length r.1.2
  refused : ¬ Fits buffer → r.2 = none

/-- A byte of the buffer is not that of the magic number, and no byte is missing before it. -/
def foreign : List Nat → List UInt8 → Bool
  | b :: bs, c :: cs => if c.toNat ≠ b then true else foreign bs cs
  | _, _ => false

/-- **When the loader does**: the file has another magic number, or it fits, with no segment in the first page, and the
    arguments fit on the stack. -/
def Tame (buffer : List UInt8) (argv : List (List Nat)) : Prop :=
  foreign magic buffer = true ∨ Fits buffer ∧
    (∀ g, IsSegment buffer g → 0 < g.bytes → 4096 ≤ g.virtualAddress) ∧ argsSize argv ≤ 16 * 4096

section Traced

variable {σ P : Type} {M : Machine σ P} {buffer : List UInt8} {n : Nat}

theorem fine_cons {a : Access} {log : List Access} (ha : Ok n a) (h : Fine n log) : Fine n (a :: log) := by
  intro b hb
  rcases List.mem_cons.mp hb with rfl | hb
  · exact ha
  · exact h b hb

theorem traced_load {s : σ × List Access} {offs : Nat} (h : offs < buffer.length) :
    ((traced buffer M).load s offs).2 = (buffer.getD offs 0).toNat := by
  unfold traced
  dsimp only
  rw [List.getD_eq_getElem?_getD, List.getElem?_eq_getElem h]
  rfl

/-- **A field inside the buffer.** -/
theorem readBytes_inside (k offs : Nat) (s : σ × List Access) (h : offs + k ≤ buffer.length)
    (hlen : buffer.length < 2 ^ 64) (hs : Fine buffer.length s.2) :
    (readBytes (traced buffer M) k offs s).2 = field buffer k offs ∧
      Fine buffer.length (readBytes (traced buffer M) k offs s).1.2 := by
  induction k generalizing offs s with
  | zero => exact ⟨rfl, hs⟩
  | succ k ih =>
      have hu : u64 offs = offs := u64_of_lt (by omega)
      obtain ⟨h1, h2⟩ := ih (offs + 1) ((traced buffer M).load s offs).1 (by omega)
        (fine_cons (show offs < buffer.length by omega) hs)
      unfold readBytes field
      dsimp only
      rw [hu, traced_load (by omega : offs < buffer.length), h1]
      exact ⟨rfl, h2⟩

theorem readBytes_grows (M : Machine σ P) (buffer : List UInt8) (k offs : Nat) (s : σ × List Access) :
    s.2 ⊆ (readBytes (traced buffer M) k offs s).1.2 := by
  induction k generalizing offs s with
  | zero => exact List.Subset.refl _
  | succ k ih => exact fun a ha => ih (offs + 1) _ (List.mem_cons_of_mem _ ha)

-- from here on a field is what the two lemmas say
attribute [local irreducible] readBytes

/-- One byte of the magic number. -/
theorem foreign_step {b offs : Nat} {bs : List Nat} (h : offs < buffer.length) :
    foreign (b :: bs) (buffer.drop offs) =
      if (buffer.getD offs 0).toNat ≠ b then true else foreign bs (buffer.drop (offs + 1)) := by
  rw [List.drop_eq_getElem_cons h, List.getD_eq_getElem?_getD, List.getElem?_eq_getElem h]
  rfl

/-- **The magic number**, where the comparison ends inside the buffer. -/
theorem magicFrom_fine (bs : List Nat) (offs : Nat) {s : σ × List Access} (hs : Fine buffer.length s.2)
    (h : foreign bs (buffer.drop offs) = true ∨ offs + bs.length ≤ buffer.length) :
    Fine buffer.length (magicFrom (traced buffer M) bs offs s).1.2 ∧
      (foreign bs (buffer.drop offs) = true → (magicFrom (traced buffer M) bs offs s).2 = false) := by
  induction bs generalizing offs s with
  | nil => exact ⟨hs, fun h => by cases h⟩
  | cons b bs ih =>
      have hlt : offs < buffer.length := by
        rcases h with h | h
        · by_contra hge
          rw [List.drop_eq_nil_of_le (by omega)] at h
          cases h
        · rw [List.length_cons] at h
          omega
      have hfine : Fine buffer.length ((traced buffer M).load s offs).1.2 := fine_cons hlt hs
      rw [foreign_step hlt] at h ⊢
      unfold magicFrom
      dsimp only
      rw [traced_load hlt]
      by_cases hne : (buffer.getD offs 0).toNat ≠ b
      · rw [if_pos hne, if_pos hne]
        exact ⟨hfine, fun _ => rfl⟩
      · rw [if_neg hne] at h ⊢
        rw [if_neg hne]
        exact ih (offs + 1) hfine (h.imp_right fun h => by rw [List.length_cons] at h; omega)

theorem magicFrom_grows (bs : List Nat) (offs : Nat) (s : σ × List Access) :
    s.2 ⊆ (magicFrom (traced buffer M) bs offs s).1.2 := by
  induction bs generalizing offs s with
  | nil => exact List.Subset.refl _
  | cons b bs ih =>
      have hload : s.2 ⊆ ((traced buffer M).load s offs).1.2 := List.subset_cons_self _ _
      unfold magicFrom
      dsimp only
      split
      · exact hload
      · exact List.Subset.trans hload (ih (offs + 1) _)

/-- A comparison that stays inside the buffer and fails has found a wrong byte there. -/
theorem magicFrom_foreign {bs : List Nat} {offs : Nat} {s : σ × List Access}
    (hf : Fine buffer.length (magicFrom (traced buffer M) bs offs s).1.2)
    (h : (magicFrom (traced buffer M) bs offs s).2 = false) : foreign bs (buffer.drop offs) = true := by
  induction bs generalizing offs s with
  | nil => cases h
  | cons b bs ih =>
      have hlt : offs < buffer.length := by
        refine hf (.read offs) ?_
        unfold magicFrom
        dsimp only
        split
        · exact List.mem_cons_self
        · exact magicFrom_grows bs _ _ List.mem_cons_self
      rw [foreign_step hlt]
      unfold magicFrom at hf h
      dsimp only at hf h
      rw [traced_load hlt] at hf h
      by_cases hne : (buffer.getD offs 0).toNat ≠ b
      · rw [if_pos hne]
      · rw [if_neg hne] at hf h ⊢
        exact ih hf h

/-! ### The pages -/

/-- Where the cursor stands: nowhere yet, or on a page that it mapped. -/
def OnPage (c : Cursor (P × Object)) : Prop :=
  (c.lastPage = 0 ∧ c.lastPageBuffer.2 = .null) ∨ (c.lastPage < 2 ^ 39 ∧ c.lastPageBuffer.2 = .page c.lastPage)

theorem enterPage_traced {addr : Nat} {c c' : (σ × List Access) × Cursor (P × Object)}
    (hr : enterPage (traced buffer M) addr c = some c') :
    c'.1.2 = c.1.2 ∧ (c.2.lastPage = addr - addr % 4096 ∧ c' = c ∨
      c.2.lastPage ≠ addr - addr % 4096 ∧ c'.2.lastPage = addr - addr % 4096 ∧
        c'.2.lastPageBuffer.2 = .page (addr - addr % 4096)) := by
  unfold enterPage at hr
  dsimp only at hr
  split_ifs at hr with hne
  · obtain ⟨r, hmap, rfl⟩ := Option.map_eq_some_iff.mp hr
    obtain ⟨q, -, rfl⟩ := Option.map_eq_some_iff.mp hmap
    exact ⟨rfl, Or.inr ⟨Ne.symm hne, rfl, rfl⟩⟩
  · obtain rfl := Option.some.inj hr
    exact ⟨rfl, Or.inl ⟨(not_not.mp hne).symm, rfl⟩⟩

/-- A page other than the first one is mapped when it is written to. -/
theorem enterPage_mapped {addr : Nat} {c c' : (σ × List Access) × Cursor (P × Object)} (h0 : 4096 ≤ addr)
    (h1 : addr < 2 ^ 39) (hc : OnPage c.2) (hr : enterPage (traced buffer M) addr c = some c') :
    OnPage c'.2 ∧ Ok buffer.length (.write c'.2.lastPageBuffer.2 (addr % 4096 : Nat)) := by
  have hpage : c'.2.lastPageBuffer.2 = .page (addr - addr % 4096) ∧ c'.2.lastPage = addr - addr % 4096 := by
    rcases (enterPage_traced hr).2 with ⟨heq, rfl⟩ | ⟨-, h2, h3⟩
    · rcases hc with ⟨hz, -⟩ | ⟨-, hp⟩
      · omega
      · exact ⟨heq ▸ hp, heq⟩
    · exact ⟨h3, h2⟩
  refine ⟨Or.inr ⟨by rw [hpage.2]; omega, by rw [hpage.1, hpage.2]⟩, ?_⟩
  rw [hpage.1]
  exact ⟨by omega, by omega, by omega⟩

/-- Before the turn `i` of a loop over a segment. -/
def Copying (n : Nat) (c : (σ × List Access) × Cursor (P × Object)) : Prop := Fine n c.1.2 ∧ OnPage c.2

/-- **A segment that fits**, outside the first page. -/
theorem copySegment_fine {g : ElfSegmentHeader} {s s' : σ × List Access} (hlen : buffer.length < 2 ^ 64)
    (hdata : ∀ i, i < g.dataSize → g.dataOffset + i < buffer.length)
    (hmem : ∀ i, i < g.bytes → g.virtualAddress + i < 2 ^ 39) (h0 : 0 < g.bytes → 4096 ≤ g.virtualAddress)
    (hs : Fine buffer.length s.2) (hr : copySegment (traced buffer M) g s = some s') : Fine buffer.length s'.2 := by
  have hbytes : ∀ i, i < g.bytes → u64 (g.virtualAddress + i) = g.virtualAddress + i := fun i hi =>
    u64_of_lt ((hmem i hi).trans (by decide))
  obtain ⟨c, hc, rfl⟩ := Option.map_eq_some_iff.mp hr
  obtain ⟨c1, h1, h2⟩ := Option.bind_eq_some_iff.mp hc
  have hcopied : Copying buffer.length c1 := by
    refine forLoop_inv (J := fun _ => Copying buffer.length) (fun i a b hi ha hb => ?_) (Nat.zero_add _)
      ⟨hs, Or.inl ⟨rfl, rfl⟩⟩ h1
    have hi' : i < g.bytes := hi.trans_le (le_max_left _ _)
    unfold copyByte at hb
    dsimp only at hb
    rw [hbytes i hi'] at hb
    obtain ⟨q, hq, rfl⟩ := Option.map_eq_some_iff.mp hb
    have hq1 := (enterPage_traced hq).1
    obtain ⟨h3, h4⟩ := enterPage_mapped (by have := h0 (Nat.zero_lt_of_lt hi'); omega) (hmem i hi') ha.2 hq
    have hoffs := hdata i hi
    rw [u64_of_lt (by omega : g.dataOffset + i < 2 ^ 64)]
    exact ⟨fine_cons h4 (fine_cons hoffs (hq1 ▸ ha.1)), h3⟩
  have hzeroed : Copying buffer.length c := by
    refine forLoop_inv (J := fun _ => Copying buffer.length) (e := g.bytes) (fun i a b hi ha hb => ?_) ?_ hcopied h2
    rotate_left
    · unfold ElfSegmentHeader.bytes
      omega
    unfold zeroByte at hb
    dsimp only at hb
    rw [hbytes i hi] at hb
    obtain ⟨q, hq, rfl⟩ := Option.map_eq_some_iff.mp hb
    have hq1 := (enterPage_traced hq).1
    obtain ⟨h3, h4⟩ := enterPage_mapped (by have := h0 (Nat.zero_lt_of_lt hi); omega) (hmem i hi) ha.2 hq
    exact ⟨fine_cons h4 (hq1 ▸ ha.1), h3⟩
  exact hzeroed.1

/-! ### What is accessed stays written down -/

theorem storeBytes_grows (p : P × Object) (bs : List Nat) (offs : Int) (s : σ × List Access) :
    s.2 ⊆ (storeBytes (traced buffer M) p bs offs s).2 := by
  induction bs generalizing offs s with
  | nil => exact List.Subset.refl _
  | cons b bs ih => exact fun a ha => ih (offs + 1) _ (List.mem_cons_of_mem _ ha)

theorem copyByte_grows {g : ElfSegmentHeader} {i : Nat} {c c' : (σ × List Access) × Cursor (P × Object)}
    (hr : copyByte (traced buffer M) g i c = some c') : c.1.2 ⊆ c'.1.2 := by
  obtain ⟨q, hq, rfl⟩ := Option.map_eq_some_iff.mp hr
  rw [← (enterPage_traced hq).1]
  exact List.Subset.trans (List.subset_cons_self _ _) (List.subset_cons_self _ _)

theorem zeroByte_grows {g : ElfSegmentHeader} {i : Nat} {c c' : (σ × List Access) × Cursor (P × Object)}
    (hr : zeroByte (traced buffer M) g i c = some c') : c.1.2 ⊆ c'.1.2 := by
  obtain ⟨q, hq, rfl⟩ := Option.map_eq_some_iff.mp hr
  rw [← (enterPage_traced hq).1]
  exact List.subset_cons_self _ _

section Grows

variable {log : List Access}

theorem copyLoop_grows {g : ElfSegmentHeader} {count start : Nat} {c c' : (σ × List Access) × Cursor (P × Object)}
    (hl : log ⊆ c.1.2) (hr : forLoop (copyByte (traced buffer M) g) count start c = some c') : log ⊆ c'.1.2 :=
  forLoop_keeps (B := fun c => log ⊆ c.1.2) (fun _ _ _ h hr => List.Subset.trans h (copyByte_grows hr)) hl hr

theorem zeroLoop_grows {g : ElfSegmentHeader} {count start : Nat} {c c' : (σ × List Access) × Cursor (P × Object)}
    (hl : log ⊆ c.1.2) (hr : forLoop (zeroByte (traced buffer M) g) count start c = some c') : log ⊆ c'.1.2 :=
  forLoop_keeps (B := fun c => log ⊆ c.1.2) (fun _ _ _ h hr => List.Subset.trans h (zeroByte_grows hr)) hl hr

theorem copySegment_grows {g : ElfSegmentHeader} {s s' : σ × List Access} (hl : log ⊆ s.2)
    (hr : copySegment (traced buffer M) g s = some s') : log ⊆ s'.2 := by
  obtain ⟨c, hc, rfl⟩ := Option.map_eq_some_iff.mp hr
  obtain ⟨c1, h1, h2⟩ := Option.bind_eq_some_iff.mp hc
  exact zeroLoop_grows (copyLoop_grows hl h1) h2

theorem readSegment_grows {t o : Nat} {s : σ × List Access} (hl : log ⊆ s.2) :
    log ⊆ (readSegment (traced buffer M) t o s).1.2 := by
  unfold readSegment
  dsimp only
  generalize h1 : readBytes (traced buffer M) 8 (o + 8) s = r1
  generalize h2 : readBytes (traced buffer M) 8 (o + 16) r1.1 = r2
  generalize h3 : readBytes (traced buffer M) 8 (o + 32) r2.1 = r3
  generalize h4 : readBytes (traced buffer M) 8 (o + 40) r3.1 = r4
  intro a ha
  rw [← h4]
  refine readBytes_grows M buffer _ _ _ ?_
  rw [← h3]
  refine readBytes_grows M buffer _ _ _ ?_
  rw [← h2]
  refine readBytes_grows M buffer _ _ _ ?_
  rw [← h1]
  exact readBytes_grows M buffer _ _ _ (hl ha)

theorem prepareSegment_grows {o k : Nat} {r r' : (σ × List Access) × ELFProgramInfo} (hl : log ⊆ r.1.2)
    (hr : prepareSegment (traced buffer M) o k r = some r') : log ⊆ r'.1.2 := by
  have htype := List.Subset.trans hl (readBytes_grows M buffer 4 (o + sizeofSegment * k) r.1)
  unfold prepareSegment at hr
  dsimp only at hr
  generalize readBytes (traced buffer M) 4 (o + sizeofSegment * k) r.1 = t at hr htype
  split_ifs at hr with ht
  · obtain ⟨q, hq, rfl⟩ := Option.map_eq_some_iff.mp hr
    exact copySegment_grows (readSegment_grows htype) hq
  · obtain rfl := Option.some.inj hr
    exact htype

end Grows

/-- **A segment in the first page** is written through `nullptr`. -/
theorem copySegment_null {g : ElfSegmentHeader} {s s' : σ × List Access} (hg : 0 < g.bytes)
    (h0 : g.virtualAddress < 4096) (hr : copySegment (traced buffer M) g s = some s') :
    Access.write .null g.virtualAddress ∈ s'.2 := by
  have haddr : u64 (g.virtualAddress + 0) = g.virtualAddress := u64_of_lt (by omega)
  -- the first byte finds the cursor on the page it starts from
  have hfirst : ∀ {c c' : (σ × List Access) × Cursor (P × Object)}, c.2.lastPage = 0 →
      enterPage (traced buffer M) g.virtualAddress c = some c' → c' = c := fun hz hq => by
    rcases (enterPage_traced hq).2 with h | h
    · exact h.2
    · omega
  have hoffs : ((g.virtualAddress % 4096 : Nat) : Int) = g.virtualAddress := by
    rw [Nat.mod_eq_of_lt h0]
  obtain ⟨c, hc, rfl⟩ := Option.map_eq_some_iff.mp hr
  obtain ⟨c1, h1, h2⟩ := Option.bind_eq_some_iff.mp hc
  by_cases hd : 0 < g.dataSize
  · obtain ⟨d, hd⟩ : ∃ d, g.dataSize = d + 1 := ⟨g.dataSize - 1, by omega⟩
    rw [hd] at h1
    obtain ⟨a, ha, h1⟩ := Option.bind_eq_some_iff.mp h1
    refine zeroLoop_grows (copyLoop_grows (List.Subset.refl a.1.2) h1) h2 ?_
    unfold copyByte at ha
    dsimp only at ha
    rw [haddr] at ha
    obtain ⟨q, hq, rfl⟩ := Option.map_eq_some_iff.mp ha
    obtain rfl := hfirst rfl hq
    rw [hoffs]
    exact List.mem_cons_self
  · have hd : g.dataSize = 0 := by omega
    obtain ⟨v, hv⟩ : ∃ v, g.virtualSize - g.dataSize = v + 1 := ⟨g.virtualSize - g.dataSize - 1, by
      unfold ElfSegmentHeader.bytes at hg
      omega⟩
    rw [hd] at h1
    obtain rfl := Option.some.inj h1
    rw [hv, hd] at h2
    obtain ⟨a, ha, h2⟩ := Option.bind_eq_some_iff.mp h2
    refine zeroLoop_grows (List.Subset.refl a.1.2) h2 ?_
    unfold zeroByte at ha
    dsimp only at ha
    rw [haddr] at ha
    obtain ⟨q, hq, rfl⟩ := Option.map_eq_some_iff.mp ha
    obtain rfl := hfirst rfl hq
    rw [hoffs]
    exact List.mem_cons_self

/-! ### The program headers -/

theorem readSegment_inside {o t : Nat} {s : σ × List Access} (hlen : buffer.length < 2 ^ 64)
    (ho : o + sizeofSegment ≤ buffer.length) (hs : Fine buffer.length s.2) :
    (readSegment (traced buffer M) t o s).2 = ⟨t, field buffer 8 (o + 8), field buffer 8 (o + 16),
        field buffer 8 (o + 32), field buffer 8 (o + 40)⟩ ∧
      Fine buffer.length (readSegment (traced buffer M) t o s).1.2 := by
  unfold sizeofSegment at ho
  unfold readSegment
  dsimp only
  obtain ⟨v1, f1⟩ := readBytes_inside (M := M) 8 (o + 8) s (by omega) hlen hs
  generalize readBytes (traced buffer M) 8 (o + 8) s = r1 at *
  obtain ⟨v2, f2⟩ := readBytes_inside (M := M) 8 (o + 16) r1.1 (by omega) hlen f1
  generalize readBytes (traced buffer M) 8 (o + 16) r1.1 = r2 at *
  obtain ⟨v3, f3⟩ := readBytes_inside (M := M) 8 (o + 32) r2.1 (by omega) hlen f2
  generalize readBytes (traced buffer M) 8 (o + 32) r2.1 = r3 at *
  obtain ⟨v4, f4⟩ := readBytes_inside (M := M) 8 (o + 40) r3.1 (by omega) hlen f3
  rw [v1, v2, v3, v4]
  exact ⟨rfl, f4⟩

/-- A header in the buffer, and what is done for it. -/
theorem prepareSegment_inside {k : Nat} {r r' : (σ × List Access) × ELFProgramInfo} (hlen : buffer.length < 2 ^ 64)
    (hk : phOffset buffer + sizeofSegment * (k + 1) ≤ buffer.length) (hs : Fine buffer.length r.1.2)
    (hr : prepareSegment (traced buffer M) (phOffset buffer) k r = some r') :
    ∃ s, Fine buffer.length s.2 ∧
      if (segmentAt buffer k).type = PT_LOAD ∨ (segmentAt buffer k).type = PT_TLS then
        copySegment (traced buffer M) (segmentAt buffer k) s = some r'.1
      else r'.1 = s := by
  have hk' : phOffset buffer + sizeofSegment * k + sizeofSegment ≤ buffer.length := by
    rw [Nat.mul_succ] at hk
    omega
  have h4 : phOffset buffer + sizeofSegment * k + 4 ≤ buffer.length := by
    unfold sizeofSegment at *
    omega
  obtain ⟨hv, hf⟩ := readBytes_inside (M := M) 4 (phOffset buffer + sizeofSegment * k) r.1 h4 hlen hs
  unfold prepareSegment at hr
  dsimp only at hr
  generalize readBytes (traced buffer M) 4 (phOffset buffer + sizeofSegment * k) r.1 = t at hr hv hf
  obtain ⟨hg, hgf⟩ := readSegment_inside (M := M) (t := t.2) hlen hk' hf
  generalize readSegment (traced buffer M) t.2 (phOffset buffer + sizeofSegment * k) t.1 = q at hr hg hgf
  have htype : (segmentAt buffer k).type = t.2 := hv.symm
  have hseg : q.2 = segmentAt buffer k := by
    rw [hg, hv]
    rfl
  rw [htype]
  split_ifs at hr ⊢ with ht
  · obtain ⟨s, hq, rfl⟩ := Option.map_eq_some_iff.mp hr
    exact ⟨q.1, hgf, hseg ▸ hq⟩
  · obtain rfl := Option.some.inj hr
    exact ⟨t.1, hf, rfl⟩

/-- **All program headers** of a file that fits, with no segment in the first page. -/
theorem segments_fine {info : ELFProgramInfo} {s : σ × List Access} {r : (σ × List Access) × ELFProgramInfo}
    (hlen : buffer.length < 2 ^ 64) (hf : Fits buffer)
    (h0 : ∀ g, IsSegment buffer g → 0 < g.bytes → 4096 ≤ g.virtualAddress) (hs : Fine buffer.length s.2)
    (hr : forLoop (prepareSegment (traced buffer M) (phOffset buffer)) (phEntryCount buffer) 0 (s, info) = some r) :
    Fine buffer.length r.1.2 := by
  refine forLoop_inv (J := fun _ (r : (σ × List Access) × ELFProgramInfo) => Fine buffer.length r.1.2)
    (fun k a b hk ha hb => ?_) (Nat.zero_add _) hs hr
  obtain ⟨t, ht, hdone⟩ := prepareSegment_inside hlen (hf.table k hk) ha hb
  split_ifs at hdone with htype
  · have hg : IsSegment buffer (segmentAt buffer k) := ⟨k, hk, rfl, htype⟩
    exact copySegment_fine hlen (hf.data _ hg) (hf.memory _ hg) (h0 _ hg) ht hdone
  · rw [hdone]
    exact ht

/-- **A segment in the first page**, wherever it stands in the table. -/
theorem segments_null {info : ELFProgramInfo} {s : σ × List Access} {r : (σ × List Access) × ELFProgramInfo}
    (hlen : buffer.length < 2 ^ 64) (hf : Fits buffer) {g : ElfSegmentHeader} (hg : IsSegment buffer g)
    (hbytes : 0 < g.bytes) (h0 : g.virtualAddress < 4096)
    (hr : forLoop (prepareSegment (traced buffer M) (phOffset buffer)) (phEntryCount buffer) 0 (s, info) = some r) :
    ¬ Fine buffer.length r.1.2 := by
  intro hfine
  obtain ⟨k, hk, rfl, htype⟩ := hg
  obtain ⟨a, b, hab, hrest⟩ := forLoop_turn (Nat.zero_le k) (by omega) hr
  have hb : Fine buffer.length b.1.2 := fun x hx => hfine x
    (forLoop_keeps (B := fun r : (σ × List Access) × ELFProgramInfo => b.1.2 ⊆ r.1.2)
      (fun _ _ _ h1 h2 => prepareSegment_grows h1 h2) (List.Subset.refl _) hrest hx)
  have ha : Fine buffer.length a.1.2 := fun x hx => hb x (prepareSegment_grows (List.Subset.refl _) hab hx)
  obtain ⟨t, -, hdone⟩ := prepareSegment_inside hlen (hf.table k hk) ha hab
  rw [if_pos htype] at hdone
  exact hb _ (copySegment_null hbytes h0 hdone)

/-! ### The stack -/

theorem storeBytes_first {p : P × Object} {bs : List Nat} {offs : Int} {s : σ × List Access} (h : bs ≠ []) :
    Access.write p.2 offs ∈ (storeBytes (traced buffer M) p bs offs s).2 := by
  cases bs with
  | nil => exact absurd rfl h
  | cons b bs => exact storeBytes_grows p bs (offs + 1) _ List.mem_cons_self

/-- The program information comes last, and lies lowest. -/
theorem prepareStack_lowest {argv : List (List Nat)} {info : ELFProgramInfo} {s : σ × List Access}
    {r : (σ × List Access) × Nat} (hr : prepareStack (traced buffer M) argv info s = some r) :
    Access.write .stack (16 * 4096 - (argsSize argv : Int)) ∈ r.1.2 := by
  obtain ⟨a, -, hr⟩ := Option.bind_eq_some_iff.mp hr
  obtain ⟨t, -, rfl⟩ := Option.map_eq_some_iff.mp hr
  have hne : ∀ info : ELFProgramInfo, info.toBytes ≠ [] := fun info hnil => by
    have h1 := length_toBytes info
    rw [hnil] at h1
    exact absurd h1 (by decide)
  have hpushed := pushArgs_pushed (I := fun _ => True) (R := fun _ => True) (M := traced buffer M)
    (p := (traced buffer M).physToKernelPtr a.2) (s := t) (fun _ _ _ _ _ => trivial) argv trivial
  have hoffs : (16 * 4096 - (argsSize argv : Int)) =
      (pushArgs (traced buffer M) ((traced buffer M).physToKernelPtr a.2) argv t).virtStack - sizeofProgramInfo := by
    rw [hpushed.virtStack]
    unfold argsSize
    omega
  rw [hoffs]
  exact storeBytes_first (hne _)

/-- **The stack**: with room for the arguments, and without. -/
theorem prepareStack_traced {argv : List (List Nat)} {info : ELFProgramInfo} {s : σ × List Access}
    {r : (σ × List Access) × Nat} (hr : prepareStack (traced buffer M) argv info s = some r) :
    s.2 ⊆ r.1.2 ∧ (Fine n s.2 → argsSize argv ≤ 16 * 4096 → Fine n r.1.2) ∧
      (Fine n r.1.2 → argsSize argv ≤ 16 * 4096) := by
  obtain ⟨a, t, ha, ht, hkeeps⟩ := prepareStack_keeps hr
  obtain ⟨a', -, rfl⟩ := Option.map_eq_some_iff.mp ha
  have hmap : t.2 = s.2 := by
    refine forLoop_keeps (B := fun t : σ × List Access => t.2 = s.2) (s := (a'.1, s.2)) (fun i x y hx hy => ?_) rfl ht
    obtain ⟨z, -, rfl⟩ := Option.map_eq_some_iff.mp hy
    exact hx
  refine ⟨hkeeps (fun u => s.2 ⊆ u.2) (fun _ => True) (fun u o v _ h => List.subset_cons_of_subset _ h)
    (fun _ _ _ => trivial) (by rw [hmap]; exact List.Subset.refl _), fun hs hroom => ?_, fun hfine => ?_⟩
  · exact hkeeps (fun u => Fine n u.2) (fun o => 0 ≤ o ∧ o < 16 * 4096) (fun u o v ho h => fine_cons ho h)
      (fun o h1 h2 => ⟨by omega, h2⟩) (by rwa [hmap])
  · have h1 := (hfine _ (prepareStack_lowest hr)).1
    omega

/-! ### It comes back -/

theorem enterPage_returns (hM : M.Returns) (addr : Nat) (c : σ × Cursor P) : ∃ c', enterPage M addr c = some c' := by
  unfold enterPage
  dsimp only
  split_ifs
  · obtain ⟨r, hr⟩ := Option.ne_none_iff_exists'.mp (hM.mapPage c.1 (addr - addr % 4096))
    exact ⟨_, by rw [hr]; rfl⟩
  · exact ⟨c, rfl⟩

theorem copySegment_returns (hM : M.Returns) (g : ElfSegmentHeader) (s : σ) : ∃ s', copySegment M g s = some s' := by
  obtain ⟨c, hc, -⟩ := forLoop_ends (J := fun _ _ => True) (e := 0 + g.dataSize) (f := copyByte M g) (fun i c _ _ => by
    obtain ⟨q, hq⟩ := enterPage_returns hM (u64 (g.virtualAddress + i)) c
    unfold copyByte
    dsimp only
    exact ⟨_, by rw [hq]; rfl, trivial⟩) g.dataSize 0 (s, ⟨0, M.nullptr⟩) rfl trivial
  obtain ⟨d, hd, -⟩ := forLoop_ends (J := fun _ _ => True) (e := g.dataSize + (g.virtualSize - g.dataSize))
    (f := zeroByte M g) (fun i c _ _ => by
      obtain ⟨q, hq⟩ := enterPage_returns hM (u64 (g.virtualAddress + i)) c
      unfold zeroByte
      dsimp only
      exact ⟨_, by rw [hq]; rfl, trivial⟩) (g.virtualSize - g.dataSize) g.dataSize c rfl trivial
  unfold copySegment
  exact ⟨d.1, by rw [hc, Option.bind_some, hd]; rfl⟩

theorem prepareStack_returns (hM : M.Returns) (argv : List (List Nat)) (info : ELFProgramInfo) (s : σ) :
    ∃ r, prepareStack M argv info s = some r := by
  obtain ⟨a, ha⟩ := Option.ne_none_iff_exists'.mp (hM.allocatePages s 16)
  obtain ⟨u, hu, -⟩ := forLoop_ends (J := fun _ _ => True) (e := 0 + 16)
    (f := fun i s => M.mapFrame s (u64 (a.2 + i * 4096)) (stackBase + i * 4096)) (fun i s _ _ => by
      obtain ⟨r, hr⟩ := Option.ne_none_iff_exists'.mp
        (hM.mapFrame s (u64 (a.2 + i * 4096)) (stackBase + i * 4096))
      exact ⟨r, hr, trivial⟩) 16 0 a.1 rfl trivial
  unfold prepareStack
  exact ⟨_, by rw [ha, Option.bind_some, hu]; rfl⟩

/-- **The loader comes back**, as long as the memory manager does. -/
theorem checkAndPrepare_returns (hM : M.Returns) (argv : List (List Nat)) (s : σ) :
    ∃ r, checkAndPrepare M argv s = some r := by
  unfold checkAndPrepare
  dsimp only
  split_ifs
  · exact ⟨_, rfl⟩
  · generalize readBytes M 8 32 (magicFrom M magic 0 s).1 = o
    generalize readBytes M 2 56 o.1 = n
    obtain ⟨r, hr, -⟩ := forLoop_ends (J := fun _ _ => True) (e := 0 + n.2) (f := prepareSegment M o.2)
      (fun k r _ _ => by
        unfold prepareSegment
        dsimp only
        split_ifs
        · obtain ⟨q, hq⟩ := copySegment_returns hM _ _
          exact ⟨_, by rw [hq]; rfl, trivial⟩
        · exact ⟨_, rfl, trivial⟩) n.2 0 (n.1, ⟨0, 0, 0, 0⟩) rfl trivial
    obtain ⟨q, hq⟩ := prepareStack_returns hM argv r.2 (readBytes M 8 24 r.1).1
    exact ⟨_, by rw [hr, Option.bind_some, hq]; rfl⟩

theorem traced_returns (hM : M.Returns) : (traced buffer M).Returns where
  mapPage s v := fun h => hM.mapPage s.1 v (Option.map_eq_none_iff.mp h)
  allocatePages s k := fun h => hM.allocatePages s.1 k (Option.map_eq_none_iff.mp h)
  mapFrame s p v := fun h => hM.mapFrame s.1 p v (Option.map_eq_none_iff.mp h)

end Traced

/-! ## 4. Results -/

section Results

variable {σ P : Type} {M : Machine σ P} {buffer : List UInt8}

/-- A run that gets past the magic number. -/
theorem checkAndPrepare_accepted {argv : List (List Nat)} {s : σ × List Access}
    {r : (σ × List Access) × Option Registers} (hlen : buffer.length < 2 ^ 64) (hf : Fits buffer)
    (hs : Fine buffer.length s.2) (hm : (magicFrom (traced buffer M) magic 0 s).2 = true)
    (hr : checkAndPrepare (traced buffer M) argv s = some r) :
    ∃ (t u : σ × List Access) (q : (σ × List Access) × ELFProgramInfo) (w : (σ × List Access) × Nat),
      Fine buffer.length t.2 ∧
      forLoop (prepareSegment (traced buffer M) (phOffset buffer)) (phEntryCount buffer) 0 (t, ⟨0, 0, 0, 0⟩) = some q ∧
      q.1.2 ⊆ u.2 ∧ (Fine buffer.length q.1.2 → Fine buffer.length u.2) ∧
      prepareStack (traced buffer M) argv q.2 u = some w ∧ r.1 = w.1 := by
  have hheader := hf.header
  unfold sizeofHeader at hheader
  have hmf := (magicFrom_fine (M := M) magic 0 hs (Or.inr (by
    show 0 + 4 ≤ buffer.length
    omega))).1
  unfold checkAndPrepare at hr
  rw [if_neg (by rw [hm]; decide)] at hr
  dsimp only at hr
  generalize magicFrom (traced buffer M) magic 0 s = m at hr hmf
  obtain ⟨v1, f1⟩ := readBytes_inside (M := M) 8 32 m.1 (by omega) hlen hmf
  generalize readBytes (traced buffer M) 8 32 m.1 = o at hr v1 f1
  obtain ⟨v2, f2⟩ := readBytes_inside (M := M) 2 56 o.1 (by omega) hlen f1
  generalize readBytes (traced buffer M) 2 56 o.1 = n at hr v2 f2
  rw [v1, v2] at hr
  obtain ⟨q, hq, hr⟩ := Option.bind_eq_some_iff.mp hr
  obtain ⟨w, hw, rfl⟩ := Option.map_eq_some_iff.mp hr
  exact ⟨n.1, _, q, w, f2, hq, readBytes_grows M buffer 8 24 q.1, fun h =>
    (readBytes_inside (M := M) 8 24 q.1 (by omega) hlen h).2, hw, rfl⟩

/-- **The loader stays in the buffer** and in the pages that it mapped, and refuses what does not fit, if and
    only if the file is tame; and it comes back. -/
theorem elf_bounds (buffer : List UInt8) (argv : List (List Nat)) (M : Machine σ P) (s : σ)
    (hlen : buffer.length < 2 ^ 64) :
    (M.Returns → ∃ r, checkAndPrepare (traced buffer M) argv (s, []) = some r) ∧
      ∀ r, checkAndPrepare (traced buffer M) argv (s, []) = some r → (InBounds buffer r ↔ Tame buffer argv) := by
  refine ⟨fun hM => checkAndPrepare_returns (traced_returns hM) argv _, fun r hr => ?_⟩
  have hs : Fine buffer.length (s, ([] : List Access)).2 := fun a ha => absurd ha List.not_mem_nil
  have hdrop : buffer.drop 0 = buffer := rfl
  cases hm : (magicFrom (traced buffer M) magic 0 (s, [])).2 with
  | false =>
      -- refused: the buffer decides, or it was left
      have hout : r = ((magicFrom (traced buffer M) magic 0 (s, [])).1, none) := by
        unfold checkAndPrepare at hr
        rw [if_pos hm] at hr
        exact (Option.some.inj hr).symm
      rw [hout]
      constructor
      · intro h
        exact Or.inl (hdrop ▸ magicFrom_foreign h.accesses hm)
      · intro h
        refine ⟨(magicFrom_fine magic 0 hs ?_).1, fun _ => rfl⟩
        rcases h with h | ⟨hf, -⟩
        · exact Or.inl h
        · exact Or.inr (by have := hf.header; unfold sizeofHeader at this; show 0 + 4 ≤ buffer.length; omega)
  | true =>
      have hsome : ∃ regs, r.2 = some regs := by
        unfold checkAndPrepare at hr
        rw [if_neg (by rw [hm]; decide)] at hr
        obtain ⟨q, -, hr⟩ := Option.bind_eq_some_iff.mp hr
        obtain ⟨w, -, rfl⟩ := Option.map_eq_some_iff.mp hr
        exact ⟨_, rfl⟩
      obtain ⟨regs, hregs⟩ := hsome
      have hnot : ¬ foreign magic buffer = true := fun h => by
        have h1 := (magicFrom_fine (M := M) magic 0 hs (Or.inl h)).2 h
        rw [hm] at h1
        cases h1
      constructor
      · intro h
        have hf : Fits buffer := by
          by_contra hno
          have h1 := h.refused hno
          rw [hregs] at h1
          cases h1
        obtain ⟨t, u, q, w, ht, hq, hgrows, -, hw, heq⟩ := checkAndPrepare_accepted hlen hf hs hm hr
        obtain ⟨hsub, -, hroom⟩ := prepareStack_traced (n := buffer.length) hw
        have hfine := h.accesses
        rw [heq] at hfine
        refine Or.inr ⟨hf, fun g hg hbytes => ?_, hroom hfine⟩
        by_contra hlow
        exact segments_null hlen hf hg hbytes (Nat.lt_of_not_le hlow) hq fun a ha => hfine a (hsub (hgrows ha))
      · intro hx
        rcases hx with h | ⟨hf, h0, hroom⟩
        · exact absurd h hnot
        · obtain ⟨t, u, q, w, ht, hq, -, hu, hw, heq⟩ := checkAndPrepare_accepted hlen hf hs hm hr
          have hfine := (prepareStack_traced (n := buffer.length) hw).2.1 (hu (segments_fine hlen hf h0 ht hq)) hroom
          exact ⟨heq ▸ hfine, fun h => absurd hf h⟩

/-- A file with one `PT_LOAD` segment, of one byte and one more that is cleared, at the address with these bytes. -/
def image (virtualAddress : List UInt8) : List UInt8 :=
  [0x7F, 0x45, 0x4C, 0x46] ++ List.replicate 28 0 ++ [64, 0, 0, 0, 0, 0, 0, 0] ++ List.replicate 16 0 ++ [1, 0] ++
    List.replicate 6 0 ++
  ([1, 0, 0, 0] ++ [0, 0, 0, 0] ++ [120, 0, 0, 0, 0, 0, 0, 0] ++ virtualAddress ++ List.replicate 8 0 ++
    [1, 0, 0, 0, 0, 0, 0, 0] ++ [2, 0, 0, 0, 0, 0, 0, 0] ++ List.replicate 8 0) ++ [42]

/-- What the loader finds in it. -/
structure ImageAt (buffer : List UInt8) (v : Nat) : Prop where
  length : buffer.length = 121
  count : phEntryCount buffer = 1
  offset : phOffset buffer = 64
  segment : segmentAt buffer 0 = ⟨1, 120, v, 1, 2⟩

section Image

variable {buffer : List UInt8} {v : Nat} {g : ElfSegmentHeader}

theorem ImageAt.only (h : ImageAt buffer v) (hg : IsSegment buffer g) : g = ⟨1, 120, v, 1, 2⟩ := by
  obtain ⟨k, hk, rfl, -⟩ := hg
  have := h.count
  obtain rfl : k = 0 := by omega
  exact h.segment

theorem ImageAt.isSegment (h : ImageAt buffer v) : IsSegment buffer ⟨1, 120, v, 1, 2⟩ :=
  ⟨0, by rw [h.count]; exact Nat.one_pos, h.segment, Or.inl rfl⟩

theorem ImageAt.fits (h : ImageAt buffer v) (hv : v + 2 ≤ 2 ^ 39) : Fits buffer := by
  refine ⟨by rw [h.length]; decide, fun k hk => ?_, fun g hg i hi => ?_, fun g hg i hi => ?_⟩
  · have := h.count
    obtain rfl : k = 0 := by omega
    rw [h.offset, h.length]
    decide
  · rw [h.only hg] at hi ⊢
    have hi : i < 1 := hi
    rw [h.length]
    show 120 + i < 121
    omega
  · rw [h.only hg] at hi ⊢
    have hi : i < 2 := hi
    show v + i < 2 ^ 39
    omega

end Image

/-- The image at `0x400000`. -/
def goodImage : List UInt8 := image [0, 0, 0x40, 0, 0, 0, 0, 0]

theorem goodImage_at : ImageAt goodImage 0x400000 := ⟨rfl, by decide, by decide, by decide⟩

/-- A machine that answers and keeps nothing. -/
def idle : Machine Unit Unit := ⟨fun _ _ => ((), 0), fun _ _ => some ((), ()), fun _ _ => some ((), 0),
  fun _ _ _ => some (), fun _ => (), (), fun _ _ _ _ => ()⟩

theorem elf_bounds_image :
    ∃ r, checkAndPrepare (traced goodImage idle) [[97]] ((), []) = some r ∧ InBounds goodImage r := by
  obtain ⟨hreturns, hiff⟩ := elf_bounds goodImage [[97]] idle () (by decide)
  obtain ⟨r, hr⟩ := hreturns ⟨fun _ _ => Option.some_ne_none _, fun _ _ => Option.some_ne_none _,
    fun _ _ _ => Option.some_ne_none _⟩
  refine ⟨r, hr, (hiff r hr).mpr (Or.inr ⟨goodImage_at.fits (by decide), fun g hg _ => ?_, by decide⟩)⟩
  rw [goodImage_at.only hg]
  decide

/-- An empty file: the first byte of the magic number is read behind it. -/
theorem empty_file : ∃ r, checkAndPrepare (traced [] idle) [] ((), []) = some r ∧ ¬ InBounds [] r :=
  ⟨_, rfl, fun h => Nat.not_lt_zero 0 (h.accesses (.read 0) List.mem_cons_self)⟩

end Results

end ELF

end SimpleOS2
