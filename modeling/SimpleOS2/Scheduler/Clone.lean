/-
  File:      SimpleOS2/Scheduler/Clone.lean
  Subject:   WHAT `fork` COPIES (CloneThread of scheduler/Scheduler.cpp, DoFork of syscalls/SyscallHandler.cpp).

  `CloneThread` makes a new `ThreadInfo`, all zero at first, and assigns its fields one by one. What it
  does not assign stays zero.

  * `cloneThread`, `doFork` -- the source's functions. The memory goes through `ForkProcessMap`
    (Memory/Fork.lean), the descriptors through `cloneTable` (Descriptors.lean);
  * `Copies` -- the child has what the parent had at the syscall;
  * `Forkable` -- what a fork is given: a page for all that is copied, and names that are not in use;
  * `fork_copies` -- the child is a copy exactly if what is not copied is zero;
  * `fork_drops` -- a parent that has set its FS base.
-/
import SimpleOS2.Memory.Fork
import SimpleOS2.Scheduler.Thread
import SimpleOS2.Scheduler.DescriptorCounts

namespace SimpleOS2

open Lib FreeList MemoryManager Scheduler

namespace Clone

/-! ## 1. The functions -/

/-- `ThreadInfo`, with the fields that only `CloneThread` reads: `memSpace` and `fds` by number, `cwd`
    up to its terminator. -/
structure UserThread extends Scheduler.ThreadInfo where
  mainThread : Nat
  cwd : List UInt8
  gid : Nat
  memSpace : Nat
  fds : Nat
  faultRip : Nat

/-- The memory, the threads, the objects they share, and the lists they are in. -/
structure Kernel where
  mm : Mm
  threads : Nat → UserThread
  currentThread : Nat
  memRefs : Nat → Nat
  tables : Nat → Descriptors.Vec
  fdRefs : Nat → Nat
  descs : Descriptors.Descs
  tidCounter : Nat
  childThreads : Nat → List Nat
  activeList : List Nat
  globalThreadList : List Nat

/-- The objects that `new` answers, and the block that `InitFPUBlock` fills in. -/
structure Fresh where
  thread : Nat
  memSpace : Nat
  fds : Nat
  kernelStack : Nat
  fpuBlock : Nat

/-- `kmemset(&regs, 0, sizeof(IDT::Registers))`. -/
def zeroRegisters : Registers :=
  ⟨0, 0, 0, 0, 0, 0, 0, 0, 0, 0, 0, 0, 0, 0, 0, 0, 0, 0, .addr 0, 0, 0, 0, 0⟩

/-- `new ThreadInfo()`. -/
def zeroThread : UserThread where
  tid := 0
  uid := 0
  killPending := false
  killHandlerRip := 0
  killHandlerRsp := 0
  killHandlerReturnState := zeroRegisters
  abortPending := false
  pml4Entry := 0
  state := .READY
  arg := 0
  kernelStack := 0
  userGSBase := 0
  userFSBase := 0
  stickyCount := 0
  cliCount := 0
  registers := zeroRegisters
  fpuBuffer := none
  mainThread := 0
  cwd := []
  gid := 0
  memSpace := 0
  fds := 0
  faultRip := 0

def Kernel.current (k : Kernel) : UserThread := k.threads k.currentThread

/-- The memory space of the new thread, and its map. -/
def cloneMemSpace (alloc : Alloc) (k : Kernel) (new : Fresh) (shareMemSpace : Bool) : Option (Kernel × Nat × Nat) :=
  let tInfo := k.current
  if shareMemSpace then
    some ({ k with memRefs := Function.update k.memRefs tInfo.memSpace (k.memRefs tInfo.memSpace + 1) },
      tInfo.memSpace, tInfo.pml4Entry)
  else
    (forkProcessMapWith alloc k.mm).map fun r =>
      ({ k with mm := r.1, memRefs := Function.update k.memRefs new.memSpace 1 }, new.memSpace, r.2)

/-- The descriptors of the new thread. -/
def cloneFDs (k : Kernel) (new : Fresh) (shareFDs : Bool) : Kernel × Nat :=
  let fds := k.current.fds
  if shareFDs then ({ k with fdRefs := Function.update k.fdRefs fds (k.fdRefs fds + 1) }, fds)
  else
    let r := Descriptors.cloneTable (k.tables fds) k.descs
    ({ k with
      tables := Function.update k.tables new.fds r.1
      descs := r.2
      fdRefs := Function.update k.fdRefs new.fds 1 }, new.fds)

/-- The assignments to `newT`. -/
def newThread (tInfo : UserThread) (new : Fresh) (subthread : Bool) (tid memSpace pml4Entry fds : Nat)
    (regs : Registers) : UserThread :=
  { zeroThread with
    mainThread := if subthread then tInfo.mainThread else new.thread
    tid := tid
    killPending := false
    abortPending := false
    killHandlerRip := 0
    memSpace := memSpace
    pml4Entry := pml4Entry
    fds := fds
    uid := tInfo.uid
    gid := tInfo.gid
    state := .READY
    kernelStack := new.kernelStack
    stickyCount := 0
    cliCount := 0
    faultRip := 0
    cwd := tInfo.cwd
    registers := { regs with rflags := regs.rflags ||| 2 ^ 9 }
    fpuBuffer := some new.fpuBlock }

/-- `CloneThread`: the kernel afterwards and the tid of the new thread. -/
def cloneThread (alloc : Alloc) (k : Kernel) (new : Fresh) (subthread shareMemSpace shareFDs : Bool)
    (regs : Registers) : Option (Kernel × Int) :=
  let tInfo := k.current
  (cloneMemSpace alloc k new shareMemSpace).map fun r =>
    let f := cloneFDs r.1 new shareFDs
    let newT := newThread tInfo new subthread f.1.tidCounter r.2.1 r.2.2 f.2 regs
    ({ f.1 with
      threads := Function.update f.1.threads new.thread newT
      tidCounter := f.1.tidCounter + 1
      childThreads := Function.update f.1.childThreads tInfo.mainThread
        (f.1.childThreads tInfo.mainThread ++ [new.thread])
      activeList := f.1.activeList ++ [new.thread]
      globalThreadList := f.1.globalThreadList ++ [new.thread] }, newT.tid)

/-- The registers that `DoFork` gives the child. -/
def forkRegisters (state : SyscallState) : Registers :=
  { zeroRegisters with
    rip := .addr state.userrip
    userrsp := state.userrsp
    rbp := state.userrbp
    rflags := state.userflags
    rbx := state.userrbx
    r12 := state.userr12
    r13 := state.userr13
    r14 := state.userr14
    r15 := state.userr15
    ss := GDT.UserData
    cs := GDT.UserCode
    ds := GDT.UserData
    rax := 0 }

/-- `DoFork`. -/
def doFork (alloc : Alloc) (k : Kernel) (new : Fresh) (state : SyscallState) : Option (Kernel × Int) :=
  cloneThread alloc k new false false false (forkRegisters state)

/-! ## 2. The law -/

/-- The registers of the context that made the syscall, `rax` apart. -/
def SameContext (state : SyscallState) (r : Registers) : Prop :=
  r.rip = .addr state.userrip ∧ r.userrsp = state.userrsp ∧ r.rflags = state.userflags ∧
    r.rbp = state.userrbp ∧ r.rbx = state.userrbx ∧ r.r12 = state.userr12 ∧ r.r13 = state.userr13 ∧
    r.r14 = state.userr14 ∧ r.r15 = state.userr15

/-- **The child is a copy** of the parent `p` in the kernel `k`. A handler is its address and its stack. -/
structure Copies (k : Kernel) (state : SyscallState) (k' : Kernel) (child : UserThread) : Prop where
  memory : ∀ virt < 2 ^ 39,
    Copied k.mm.mem (pmlGetAddr k.current.pml4Entry) k'.mm.mem (pmlGetAddr child.pml4Entry) (leafPath virt)
  fds : ∀ id, Descriptors.threadGetSystemFileDescriptor (k'.tables child.fds) id =
    Descriptors.threadGetSystemFileDescriptor (k.tables k.current.fds) id
  cwd : child.cwd = k.current.cwd
  user : child.uid = k.current.uid ∧ child.gid = k.current.gid
  bases : child.userFSBase = k.current.userFSBase ∧ child.userGSBase = k.current.userGSBase
  handler : child.killHandlerRip = k.current.killHandlerRip ∧
    (child.killHandlerRip ≠ 0 → child.killHandlerRsp = k.current.killHandlerRsp)
  registers : SameContext state child.registers
  rax : child.registers.rax = 0

/-- A fork by a thread whose map is loaded, with pages for the copy. -/
def Forkable (alloc : Alloc) (used : Nat → Prop) (k : Kernel) : Prop :=
  k.mm.pml4 = k.current.pml4Entry ∧ (∀ q, used q → 4096 ∣ q) ∧
    (∀ q, IsPage k.mm.mem (pmlGetAddr k.mm.pml4) q → used q) ∧
    Supplies alloc (1 + 3 * leavesFrom k.mm.mem (pmlGetAddr k.mm.pml4) 0) used k.mm

/-! ## 3. The descriptors -/

section Table

open Descriptors

variable {es : List ThreadFileDescriptor} {id : Int}

/-- The first entry of an id. -/
def lookup (es : List ThreadFileDescriptor) (id : Int) : Nat :=
  ((es.find? fun a => a.id = id).map (·.sysDesc)).getD 0

theorem getDescriptor_eq (v : Vec) (id : Int) : threadGetSystemFileDescriptor v id = lookup v.elems id := by
  unfold threadGetSystemFileDescriptor firstWith lookup
  rcases h : v.elems.findIdx? (fun a => decide (a.id = id)) with _ | i
  · have hno := List.findIdx?_eq_none_iff.mp h
    have hnone : v.elems.find? (fun a => decide (a.id = id)) = none :=
      List.find?_eq_none.mpr fun fd hfd => by simpa using hno fd hfd
    rw [h, hnone]
    rfl
  · obtain ⟨hi, hp, hbefore⟩ := List.findIdx?_eq_some_iff_getElem.mp h
    have hsome : v.elems.find? (fun a => decide (a.id = id)) = some v.elems[i] :=
      List.find?_eq_some_iff_getElem.mpr ⟨hp, i, hi, rfl, fun j hj => by simpa using hbefore j hj⟩
    rw [h, hsome]
    show ((v.elems[i]?).map (·.sysDesc)).getD 0 = v.elems[i].sysDesc
    rw [List.getElem?_eq_getElem hi]
    rfl

theorem lookup_cons (fd : ThreadFileDescriptor) (es : List ThreadFileDescriptor) (id : Int) :
    lookup (fd :: es) id = if fd.id = id then fd.sysDesc else lookup es id := by
  unfold lookup
  by_cases h : fd.id = id
  · rw [List.find?_cons_of_pos (by simpa using h), if_pos h]
    rfl
  · rw [List.find?_cons_of_neg (by simpa using h), if_neg h]

/-- Without the closed entries an open first entry is still the first. -/
theorem lookup_filter (h : lookup es id ≠ 0) :
    lookup (es.filter fun fd => fd.sysDesc ≠ 0) id = lookup es id := by
  induction es with
  | nil => rfl
  | cons fd es ih =>
      rw [lookup_cons] at h ⊢
      by_cases hid : fd.id = id
      · rw [if_pos hid] at h ⊢
        rw [List.filter_cons_of_pos (by simpa using h), lookup_cons, if_pos hid]
      · rw [if_neg hid] at h ⊢
        rw [← ih h]
        by_cases hfd : fd.sysDesc ≠ 0
        · rw [List.filter_cons_of_pos (by simpa using hfd), lookup_cons, if_neg hid]
        · rw [List.filter_cons_of_neg (by simpa using hfd)]

/-- An id has an entry in the copy if one of its entries is open. -/
theorem lookup_filter_ne :
    lookup (es.filter fun fd => fd.sysDesc ≠ 0) id ≠ 0 ↔ ∃ fd ∈ es, fd.id = id ∧ fd.sysDesc ≠ 0 := by
  induction es with
  | nil => simp [lookup]
  | cons fd es ih =>
      by_cases hfd : fd.sysDesc ≠ 0
      · rw [List.filter_cons_of_pos (by simpa using hfd), lookup_cons]
        by_cases hid : fd.id = id
        · rw [if_pos hid]
          exact ⟨fun _ => ⟨fd, List.mem_cons_self, hid, hfd⟩, fun _ => hfd⟩
        · rw [if_neg hid, ih]
          simp [hid]
      · rw [List.filter_cons_of_neg (by simpa using hfd), ih]
        simp [show fd.sysDesc = 0 by simpa using hfd]

/-- No open entry stands behind a closed one of its id. -/
def OpenFirst (es : List ThreadFileDescriptor) : Prop := ∀ fd ∈ es, fd.sysDesc ≠ 0 → lookup es fd.id ≠ 0

/-- **The copy answers as the table does** exactly if no closed entry hides an open one. -/
theorem cloneTable_answers (v : Vec) (d : Descs) :
    (∀ id, threadGetSystemFileDescriptor (cloneTable v d).1 id = threadGetSystemFileDescriptor v id) ↔
      OpenFirst v.elems := by
  have helems : (cloneTable v d).1.elems = v.elems.filter fun fd => fd.sysDesc ≠ 0 := by
    rw [cloneTable_eq, clone_elems]
    rfl
  simp only [getDescriptor_eq, helems]
  constructor
  · intro h fd hfd hopen
    rw [← h fd.id]
    exact lookup_filter_ne.mpr ⟨fd, hfd, rfl, hopen⟩
  · intro h id
    by_cases h0 : lookup v.elems id = 0
    · rw [h0]
      by_contra hne
      obtain ⟨fd, hfd, hid, hopen⟩ := lookup_filter_ne.mp hne
      exact h fd hfd hopen (hid ▸ h0)
    · exact lookup_filter h0

end Table

/-! ## 4. The fork -/

/-- What `CloneThread` does not copy is zero in the parent, and no closed descriptor hides an open one.
    User code runs with interrupts on. -/
structure NothingDropped (k : Kernel) (state : SyscallState) : Prop where
  bases : k.current.userFSBase = 0 ∧ k.current.userGSBase = 0
  handler : k.current.killHandlerRip = 0
  fds : OpenFirst (k.tables k.current.fds).elems
  flags : state.userflags.testBit 9 = true

theorem or_flag_eq (n : Nat) : n ||| 2 ^ 9 = n ↔ n.testBit 9 = true := by
  constructor
  · intro h
    rw [← h, Nat.testBit_or, Nat.testBit_two_pow_self, Bool.or_true]
  · intro h
    refine Nat.eq_of_testBit_eq fun i => ?_
    rw [Nat.testBit_or, Nat.testBit_two_pow]
    by_cases hi : 9 = i
    · subst hi
      rw [h, Bool.true_or]
    · simp [hi]

/-- What a fork leaves behind. -/
theorem doFork_eq {alloc : Alloc} {k : Kernel} {mm' : Mm} {root : Nat} (new : Fresh) (state : SyscallState)
    (hfork : forkProcessMapWith alloc k.mm = some (mm', root)) :
    ∃ k' : Kernel, doFork alloc k new state = some (k', (k.tidCounter : Int)) ∧ k'.mm = mm' ∧
      k'.tables new.fds = (Descriptors.cloneTable (k.tables k.current.fds) k.descs).1 ∧
      k'.threads new.thread = newThread k.current new false k.tidCounter new.memSpace root new.fds
        (forkRegisters state) := by
  have hmem : cloneMemSpace alloc k new false = some ({ k with
      mm := mm', memRefs := Function.update k.memRefs new.memSpace 1 }, new.memSpace, root) := by
    unfold cloneMemSpace
    rw [hfork]
    rfl
  unfold doFork cloneThread
  rw [hmem]
  exact ⟨_, rfl, rfl, Function.update_self _ _ _, Function.update_self _ _ _⟩

/-- **The child is a copy of the parent exactly if nothing is dropped.** -/
theorem fork_copies (alloc : Alloc) (used : Nat → Prop) (k : Kernel) (new : Fresh) (state : SyscallState)
    (h : Forkable alloc used k) :
    ∃ k', doFork alloc k new state = some (k', (k'.threads new.thread).tid) ∧
      (Copies k state k' (k'.threads new.thread) ↔ NothingDropped k state) := by
  obtain ⟨hmap, haligned, hpages, hsup⟩ := h
  obtain ⟨mm', root, hfork, -, hcopied, -⟩ := fork_isolation alloc k.mm used haligned hpages hsup
  obtain ⟨k', hk', hmm, htable, hchild⟩ := doFork_eq new state hfork
  obtain ⟨child, hc⟩ : ∃ child, k'.threads new.thread = child := ⟨_, rfl⟩
  rw [hc] at hchild
  refine ⟨k', by rw [hk', hc, hchild]; rfl, ?_⟩
  rw [hc]
  refine ⟨fun hC => ?_, fun hN => ?_⟩
  · have hfds : ∀ id, Descriptors.threadGetSystemFileDescriptor
        (Descriptors.cloneTable (k.tables k.current.fds) k.descs).1 id =
          Descriptors.threadGetSystemFileDescriptor (k.tables k.current.fds) id := fun id => by
      rw [← htable, ← hC.fds id, hchild]
      rfl
    have hflags : state.userflags ||| 2 ^ 9 = state.userflags := by
      have := hC.registers.2.2.1
      rw [hchild] at this
      exact this
    refine ⟨⟨?_, ?_⟩, ?_, (cloneTable_answers _ _).mp hfds, (or_flag_eq _).mp hflags⟩
    · rw [← hC.bases.1, hchild]
      rfl
    · rw [← hC.bases.2, hchild]
      rfl
    · rw [← hC.handler.1, hchild]
      rfl
  · have hflags : state.userflags ||| 2 ^ 9 = state.userflags := (or_flag_eq _).mpr hN.flags
    subst hchild
    refine ⟨?_, fun id => ?_, rfl, ⟨rfl, rfl⟩, ⟨hN.bases.1.symm, hN.bases.2.symm⟩,
      ⟨hN.handler.symm, fun h => absurd rfl h⟩, ⟨rfl, rfl, hflags, rfl, rfl, rfl, rfl, rfl, rfl⟩, rfl⟩
    · rw [hmm, ← hmap]
      exact hcopied
    · show Descriptors.threadGetSystemFileDescriptor (k'.tables new.fds) id = _
      rw [htable]
      exact (cloneTable_answers _ _).mpr hN.fds id

/-! ## 5. A parent with one page -/

/-- A process with the page of Fork.lean at the address 0, one descriptor and this FS base. -/
def oneProcess (fsBase : Nat) : Kernel where
  mm := onePage
  threads := fun _ => { zeroThread with tid := 7, pml4Entry := onePage.pml4, userFSBase := fsBase }
  currentThread := 0
  memRefs := fun _ => 1
  tables := fun _ => ⟨[⟨0, 3⟩], 1⟩
  fdRefs := fun _ => 1
  descs := ⟨fun _ => 1, fun _ => true, fun _ => 0⟩
  tidCounter := 8
  childThreads := fun _ => []
  activeList := [0]
  globalThreadList := [0]

def someState : SyscallState := ⟨100, 200, 0, 2 ^ 9, 1, 2, 3, 4, 5⟩

def someFresh : Fresh := ⟨1, 1, 1, 0, 0⟩

theorem oneProcess_forkable (fsBase : Nat) :
    Forkable bumpAlloc (fun q => 4096 ∣ q ∧ q < 0x5000) (oneProcess fsBase) :=
  ⟨rfl, fun _ hq => hq.1, onePage_pages, onePage_supplies _ (leavesFrom_bound _ _ _)⟩

/-- **The FS base is dropped.** -/
theorem fork_drops : ¬ ∀ (alloc : Alloc) (used : Nat → Prop) (k : Kernel) (new : Fresh) (state : SyscallState),
    Forkable alloc used k → state.userflags.testBit 9 = true → ∀ k' tid, doFork alloc k new state = some (k', tid) →
      Copies k state k' (k'.threads new.thread) := by
  intro hall
  obtain ⟨k', hk', hiff⟩ := fork_copies _ _ _ someFresh someState (oneProcess_forkable 0x7000)
  have hC := hall _ _ _ someFresh someState (oneProcess_forkable 0x7000) (by decide) k' _ hk'
  exact absurd (hiff.mp hC).bases.1 (by decide)

/-- A parent that has set none of it has a copy. -/
theorem fork_copies_plain : ∃ k', doFork bumpAlloc (oneProcess 0) someFresh someState =
      some (k', (k'.threads someFresh.thread).tid) ∧
    Copies (oneProcess 0) someState k' (k'.threads someFresh.thread) := by
  obtain ⟨k', hk', hiff⟩ := fork_copies _ _ _ someFresh someState (oneProcess_forkable 0)
  refine ⟨k', hk', hiff.mpr ⟨⟨rfl, rfl⟩, rfl, fun fd hfd hopen => ?_, by decide⟩⟩
  obtain rfl := List.mem_singleton.mp hfd
  decide

end Clone

end SimpleOS2
