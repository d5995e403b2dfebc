/-
  File:      SimpleOS2/Scheduler/Thread.lean
  Subject:   THREADS AND THE SCHEDULER'S FUNCTIONS (scheduler/Thread.h, scheduler/Scheduler.cpp).

  One CPU. `Cpu` holds the `ThreadInfo` objects (named by numbers, as the source names them by
  pointers), the fields of `CPUData`, and what the hardware holds: the registers of the context
  that executes, the FPU block, the page map and the three MSRs `LoadThreadState` writes.

  * `Code` -- what `rip`, with the stack frame it belongs to, stands for: the functions whose steps
    the later files interleave (`ThreadBlock`, `ThreadYield`, `ThreadCheckFlags`) carry their
    locals, all other code is an address;
  * `updateEvents`, `findNextThread`, `saveThreadState`, `loadThreadState`, `tick` -- the source's
    functions, on the list as the sequence of its elements;
  * `Touched`, `updateEvents_touched` -- all that one pass of `UpdateEvents` can do to a thread.
-/
import Mathlib.Data.List.Nodup
import SimpleOS2.Klib.Memory

namespace SimpleOS2

namespace Scheduler

/-! ## 1. Contexts -/

/-- `ThreadState::Type`. -/
inductive StateType where
  | READY | SLEEP | QUEUE_LOCK | JOIN | FINISHED | EXITED
  deriving DecidableEq

/-- `SyscallState`: what a syscall saved of the user context. -/
structure SyscallState where
  userrip : Nat
  userrsp : Nat
  userrbp : Nat
  userflags : Nat
  userrbx : Nat
  userr12 : Nat
  userr13 : Nat
  userr14 : Nat
  userr15 : Nat
  deriving DecidableEq

/-- The two functions that give the CPU away: `ThreadBlock(type, arg)` and `ThreadYield()`. -/
inductive Fn where
  | block (type : StateType) (arg : Nat)
  | yield
  deriving DecidableEq

/-- The next step of such a function. -/
inductive Pc where
  | setSticky   -- ThreadSetSticky()
  | setState    -- tInfo->state = { type, arg }                     (ThreadBlock)
  | lock        -- activeListLock.Spinlock_Cli()
  | choose      -- next = FindNextThread()
  | unlock      -- activeListLock.Unlock_Cli()
  | compare     -- if(next == tInfo) { ThreadUnsetSticky(); return; }  (ThreadYield)
  | save        -- SaveThreadState(tInfo)
  | load        -- LoadThreadState(next)
  | switch      -- SwitchThread(&tInfo->registers, &next->registers)
  | unset       -- ThreadUnsetSticky()
  deriving DecidableEq

/-- A frame of `ThreadBlock` or `ThreadYield`: its locals and its return address. -/
structure Frame where
  fn : Fn
  pc : Pc
  tInfo : Nat
  next : Nat
  ret : Nat
  deriving DecidableEq

/-- The next step of `ThreadCheckFlags`, up to the `sysret` behind it. -/
inductive CheckPc where
  | kill | setup | abort | sysret
  deriving DecidableEq

/-- What `rip` points to. -/
inductive Code where
  | addr (a : Nat)
  | threadExit
  | frame (f : Frame)
  | checkFlags (pc : CheckPc) (state : SyscallState) (retVal : Nat)
  deriving DecidableEq

/-- `IDT::Registers`. -/
structure Registers where
  ds : Nat
  r15 : Nat
  r14 : Nat
  r13 : Nat
  r12 : Nat
  r11 : Nat
  r10 : Nat
  r9 : Nat
  r8 : Nat
  rdi : Nat
  rsi : Nat
  rbp : Nat
  rbx : Nat
  rdx : Nat
  rcx : Nat
  rax : Nat
  intNumber : Nat
  errorCode : Nat
  rip : Code
  cs : Nat
  rflags : Nat
  userrsp : Nat
  ss : Nat
  deriving DecidableEq

def GDT.KernelCode : Nat := 0x08
def GDT.KernelData : Nat := 0x10
def GDT.UserCode : Nat := 0x23
def GDT.UserData : Nat := 0x1B

/-- `(registers.cs & 0x3) == 0`. -/
def Registers.kernelMode (r : Registers) : Bool := r.cs % 4 == 0

/-- `CPU::FLAGS_IF` of `rflags`. -/
def Registers.interruptFlag (r : Registers) : Bool := r.rflags.testBit 9

def Registers.sti (r : Registers) : Registers := { r with rflags := r.rflags ||| 2 ^ 9 }

def Registers.cli (r : Registers) : Registers :=
  { r with rflags := r.rflags &&& (2 ^ 64 - 1 - 2 ^ 9) }

/-- `ThreadInfo`, with the `pml4Entry` of its `memSpace`. A null `fpuBuffer` is `none`. -/
structure ThreadInfo where
  tid : Int
  uid : Nat
  killPending : Bool
  killHandlerRip : Nat
  killHandlerRsp : Nat
  killHandlerReturnState : Registers
  abortPending : Bool
  pml4Entry : Nat
  state : StateType
  arg : Nat
  kernelStack : Nat
  userGSBase : Nat
  userFSBase : Nat
  stickyCount : Nat
  cliCount : Nat
  registers : Registers
  fpuBuffer : Option Nat

/-- `CPUData`, the threads and the hardware state of the CPU. `kernelGS` is the address of
    `currentThreadKernelStack`. -/
structure Cpu where
  thread : Nat → ThreadInfo
  globalThreadList : List Nat
  currentThread : Nat
  currentThreadKernelStack : Nat
  kernelGS : Nat
  activeListLock : Bool
  activeList : List Nat
  lastTSC : Nat
  live : Registers
  fpu : Nat
  processMap : Nat
  gsBase : Nat
  kernelGSBase : Nat
  fsBase : Nat

/-- `&cpuData.idleThread`. -/
def idleThread : Nat := 0

/-- Write one `ThreadInfo`. -/
def Cpu.modify (c : Cpu) (t : Nat) (f : ThreadInfo → ThreadInfo) : Cpu :=
  { c with thread := Function.update c.thread t (f (c.thread t)) }

def Cpu.setLive (c : Cpu) (r : Registers) : Cpu := { c with live := r }

/-! ## 2. Events -/

/-- The redirection to `ThreadExit(1)` that a tick writes into a saved context. -/
def exitRegisters (ti : ThreadInfo) : Registers :=
  { ti.registers with
    cs := GDT.KernelCode, ds := GDT.KernelData, ss := GDT.KernelData,
    rip := .threadExit, userrsp := ti.kernelStack, rdi := 1 }

/-- `SetupKillHandlerFromTick`. -/
def setupKillHandlerFromTick (ti : ThreadInfo) : ThreadInfo :=
  if ti.killHandlerRip ≠ 0 then
    { ti with
      killHandlerReturnState := ti.registers,
      registers :=
        { ti.registers with rip := .addr ti.killHandlerRip, userrsp := ti.killHandlerRsp } }
  else { ti with registers := exitRegisters ti }

/-- The `READY` branch of `UpdateEvents`; `kernelMode` is read once, before both tests. -/
def deliver (ti : ThreadInfo) : ThreadInfo :=
  let kernelMode := ti.registers.kernelMode
  let ti := if !kernelMode && ti.killPending then
      setupKillHandlerFromTick { ti with killPending := false } else ti
  if !kernelMode && ti.abortPending then
    { ti with abortPending := false, registers := exitRegisters ti } else ti

/-- `tInfo.state.type = READY; tInfo.registers.rax = res;` -/
def wake (ti : ThreadInfo) (res : Nat) : ThreadInfo :=
  { ti with state := .READY, registers := { ti.registers with rax := res } }

/-- The body of the loop of `UpdateEvents` for a thread that is neither `EXITED` nor `FINISHED`. -/
def updateThread (thread : Nat → ThreadInfo) (dur : Nat) (ti : ThreadInfo) : ThreadInfo :=
  if ti.state = .READY then deliver ti
  else if ti.state = .QUEUE_LOCK then ti
  else if ti.killPending || ti.abortPending then wake ti (asU64 ErrorInterrupted)
  else if ti.state = .SLEEP then
    if ti.arg ≤ dur then wake ti (asU64 OK) else { ti with arg := ti.arg - dur }
  else if ti.state = .JOIN then
    if (thread ti.arg).state = .EXITED then wake ti 0 else ti
  else ti

/-- The loop of `UpdateEvents` over the rest of the active list: the threads, and the list that is
    left of it. -/
def updateList (dur : Nat) : List Nat → (Nat → ThreadInfo) → (Nat → ThreadInfo) × List Nat
  | [], thread => (thread, [])
  | a :: rest, thread =>
      if (thread a).state = .EXITED then
        let r := updateList dur rest thread
        (r.1, a :: r.2)
      else if (thread a).state = .FINISHED then
        updateList dur rest (Function.update thread a { thread a with state := .EXITED })
      else
        let r := updateList dur rest (Function.update thread a (updateThread thread dur (thread a)))
        (r.1, a :: r.2)

/-- `UpdateEvents` at time `tsc`. -/
def updateEvents (c : Cpu) (tsc : Nat) : Cpu :=
  let dur := u64 (tsc + 2 ^ 64 - c.lastTSC)
  let r := updateList dur c.activeList c.thread
  { c with lastTSC := tsc, thread := r.1, activeList := r.2 }

/-! ## 3. Choosing, saving and loading -/

/-- `FindNextThread`: the first `READY` thread goes to the end of the list. -/
def findNextThread (c : Cpu) : Cpu × Nat :=
  match c.activeList.find? fun t => (c.thread t).state = .READY with
  | some t => ({ c with activeList := c.activeList.erase t ++ [t] }, t)
  | none => (c, idleThread)

/-- `SaveThreadState`. -/
def saveThreadState (c : Cpu) (t : Nat) : Cpu :=
  if (c.thread t).fpuBuffer.isSome then c.modify t fun ti => { ti with fpuBuffer := some c.fpu }
  else c

/-- `LoadThreadState`. -/
def loadThreadState (c : Cpu) (t : Nat) : Cpu :=
  let ti := c.thread t
  let kernelMode := ti.registers.kernelMode
  { c with
    fpu := ti.fpuBuffer.getD c.fpu,
    processMap := if ti.pml4Entry ≠ 0 then ti.pml4Entry else c.processMap,
    gsBase := if kernelMode then c.kernelGS else ti.userGSBase,
    kernelGSBase := if kernelMode then ti.userGSBase else c.kernelGS,
    fsBase := ti.userFSBase,
    currentThreadKernelStack := ti.kernelStack,
    currentThread := t }

/-- `SaveThreadStateAndRegs`: `regs` is what the interrupt entry pushed, the live registers. -/
def saveThreadStateAndRegs (c : Cpu) (t : Nat) : Cpu :=
  saveThreadState (c.modify t fun ti => { ti with registers := c.live }) t

/-- `LoadThreadStateAndRegs`, with the `iretq` that ends the interrupt. -/
def loadThreadStateAndRegs (c : Cpu) (t : Nat) : Cpu :=
  (loadThreadState c t).setLive (c.thread t).registers

/-- `Tick`: the CPU afterwards and, unless the tick returned at its first test, the thread whose
    registers were loaded. -/
def tick (c : Cpu) (tsc : Nat) : Cpu × Option Nat :=
  if (c.thread c.currentThread).stickyCount ≠ 0 then (c, none)
  else
    let r := findNextThread (updateEvents c tsc)
    (loadThreadStateAndRegs (saveThreadStateAndRegs r.1 r.1.currentThread) r.2, some r.2)

/-- What `SwitchThread(from, to)` stores through `from`: the registers a call preserves, the
    return address and the flags. The other slots keep what they held. -/
def switchSaved (old live : Registers) (ret : Code) : Registers :=
  { old with
    ds := live.ds, r15 := live.r15, r14 := live.r14, r13 := live.r13, r12 := live.r12,
    rbp := live.rbp, rbx := live.rbx, rip := ret, cs := live.cs, rflags := live.rflags,
    userrsp := live.userrsp, ss := live.ss }

/-- `SwitchThread(&from->registers, &to->registers)`, to return to `ret`. -/
def switchThread (c : Cpu) (src dst : Nat) (ret : Code) : Cpu :=
  let c := c.modify src fun ti => { ti with registers := switchSaved ti.registers c.live ret }
  c.setLive (c.thread dst).registers

/-- `ThreadSetSticky`, `ThreadUnsetSticky`. -/
def threadSetSticky (c : Cpu) : Cpu :=
  c.modify c.currentThread fun ti => { ti with stickyCount := ti.stickyCount + 1 }

def threadUnsetSticky (c : Cpu) : Cpu :=
  c.modify c.currentThread fun ti => { ti with stickyCount := ti.stickyCount - 1 }

/-- `ThreadDisableInterrupts`, `ThreadEnableInterrupts`. -/
def threadDisableInterrupts (c : Cpu) : Cpu :=
  (c.modify c.currentThread fun ti => { ti with cliCount := ti.cliCount + 1 }).setLive c.live.cli

def threadEnableInterrupts (c : Cpu) : Cpu :=
  let c := c.modify c.currentThread fun ti => { ti with cliCount := ti.cliCount - 1 }
  if (c.thread c.currentThread).cliCount = 0 then c.setLive c.live.sti else c

/-- The lookup both requests make: the first thread of the global list with this id, if the
    caller may signal it. -/
def findTarget (c : Cpu) (uid : Nat) (tid : Int) : Except Int Nat :=
  match c.globalThreadList.find? fun t => (c.thread t).tid = tid with
  | none => .error ErrorThreadNotFound
  | some t =>
      if uid ≠ 0 ∧ uid ≠ (c.thread t).uid then .error ErrorPermissionDenied else .ok t

/-- `ThreadKill(tid)` by a caller with this `uid`. -/
def threadKill (c : Cpu) (uid : Nat) (tid : Int) : Int × Cpu :=
  match findTarget c uid tid with
  | .error e => (e, c)
  | .ok t => (OK, c.modify t fun ti => { ti with killPending := true })

/-- `ThreadAbort(tid)`. -/
def threadAbort (c : Cpu) (uid : Nat) (tid : Int) : Int × Cpu :=
  match findTarget c uid tid with
  | .error e => (e, c)
  | .ok t => (OK, c.modify t fun ti => { ti with abortPending := true })

/-- The return state `SetupKillHandlerFromSyscall` builds. -/
def syscallReturnState (state : SyscallState) (retVal : Nat) : Registers where
  ds := GDT.UserData
  r15 := state.userr15
  r14 := state.userr14
  r13 := state.userr13
  r12 := state.userr12
  r11 := 0
  r10 := 0
  r9 := 0
  r8 := 0
  rdi := 0
  rsi := 0
  rbp := state.userrbp
  rbx := state.userrbx
  rdx := 0
  rcx := 0
  rax := retVal
  intNumber := 0
  errorCode := 0
  rip := .addr state.userrip
  cs := GDT.UserCode
  rflags := state.userflags
  userrsp := state.userrsp
  ss := GDT.UserData

/-! ## 4. What one pass of `UpdateEvents` can do to a thread -/

/-- The changes of one pass. Only a thread that is `READY` with a user-mode context in its
    `registers` is redirected. -/
inductive Touched (ti : ThreadInfo) : ThreadInfo → Prop where
  | same : Touched ti ti
  | exited : Touched ti { ti with state := .EXITED }
  | delivered (hr : ti.state = .READY) (hu : ti.registers.kernelMode = false)
      (hp : ti.killPending = true ∨ ti.abortPending = true) : Touched ti (deliver ti)
  | woken (res : Nat) : Touched ti (wake ti res)
  | slept (arg : Nat) : Touched ti { ti with arg := arg }

section Events

variable {thread : Nat → ThreadInfo} {dur : Nat}

/-- Without a pending request, or in kernel mode, nothing is delivered. -/
theorem deliver_same {ti : ThreadInfo}
    (h : ti.registers.kernelMode = true ∨ ti.killPending = false ∧ ti.abortPending = false) :
    deliver ti = ti := by
  rcases h with h | ⟨h1, h2⟩
  · simp [deliver, h]
  · simp [deliver, h1, h2]

theorem updateThread_touched (ti : ThreadInfo) : Touched ti (updateThread thread dur ti) := by
  unfold updateThread
  split_ifs with h1 h2 h3 h4 h5 h6 h7
  · by_cases hk : ti.registers.kernelMode = true
    · rw [deliver_same (Or.inl hk)]
      exact .same
    · by_cases hp : ti.killPending = true ∨ ti.abortPending = true
      · exact .delivered h1 (by simpa using hk) hp
      · rw [deliver_same (Or.inr (by simpa using hp))]
        exact .same
  · exact .same
  · exact .woken _
  · exact .woken _
  · exact .slept _
  · exact .woken _
  · exact .same
  · exact .same

theorem updateList_not_mem {l : List Nat} {t : Nat} (ht : t ∉ l) :
    (updateList dur l thread).1 t = thread t := by
  induction l generalizing thread with
  | nil => rfl
  | cons a rest ih =>
      have hta : t ≠ a := fun e => ht (e ▸ List.mem_cons_self)
      have htr : t ∉ rest := fun h => ht (List.mem_cons_of_mem _ h)
      unfold updateList
      split_ifs
      · exact ih htr
      · rw [ih htr, Function.update_of_ne hta]
      · exact (ih htr).trans (Function.update_of_ne hta _ _)

/-- Each thread of the list is visited once. -/
theorem updateList_touched {l : List Nat} (hnd : l.Nodup) (t : Nat) :
    Touched (thread t) ((updateList dur l thread).1 t) := by
  induction l generalizing thread with
  | nil => exact .same
  | cons a rest ih =>
      obtain ⟨har, hnd⟩ := List.nodup_cons.mp hnd
      by_cases hta : t = a
      · subst hta
        unfold updateList
        split_ifs
        · rw [updateList_not_mem har]
          exact .same
        · rw [updateList_not_mem har, Function.update_self]
          exact .exited
        · show Touched _ ((updateList dur rest _).1 t)
          rw [updateList_not_mem har, Function.update_self]
          exact updateThread_touched _
      · have hother : ∀ f : ThreadInfo, Function.update thread a f t = thread t := fun f =>
          Function.update_of_ne hta f thread
        unfold updateList
        split_ifs
        · exact ih hnd
        · rw [← hother { thread a with state := .EXITED }]
          exact ih hnd
        · rw [← hother (updateThread thread dur (thread a))]
          exact ih hnd

theorem updateList_sublist (l : List Nat) : (updateList dur l thread).2.Sublist l := by
  induction l generalizing thread with
  | nil => exact .slnil
  | cons a rest ih =>
      unfold updateList
      split_ifs
      · exact ih.cons_cons a
      · exact ih.cons a
      · exact ih.cons_cons a

end Events

/-- **All a pass of `UpdateEvents` can do to a thread.** -/
theorem updateEvents_touched {c : Cpu} (hnd : c.activeList.Nodup) (tsc t : Nat) :
    Touched (c.thread t) ((updateEvents c tsc).thread t) :=
  updateList_touched hnd t

theorem updateEvents_not_mem {c : Cpu} {t : Nat} (ht : t ∉ c.activeList) (tsc : Nat) :
    (updateEvents c tsc).thread t = c.thread t :=
  updateList_not_mem ht

theorem updateEvents_nodup {c : Cpu} (hnd : c.activeList.Nodup) (tsc : Nat) :
    (updateEvents c tsc).activeList.Nodup :=
  hnd.sublist (updateList_sublist _)

/-- `FindNextThread` only moves a thread inside the list. -/
theorem findNextThread_spec (c : Cpu) :
    (findNextThread c).1 = { c with activeList := (findNextThread c).1.activeList } ∧
      (c.activeList.Nodup → (findNextThread c).1.activeList.Nodup) := by
  unfold findNextThread
  split
  · refine ⟨rfl, fun hnd => ?_⟩
    rw [List.nodup_append]
    refine ⟨hnd.erase _, List.nodup_singleton _, fun x hx y hy e => ?_⟩
    rw [List.mem_singleton.mp hy] at e
    exact (hnd.mem_erase_iff.mp hx).1 e
  · exact ⟨rfl, id⟩

section Simp

variable (c : Cpu) (t : Nat) (f : ThreadInfo → ThreadInfo) (r : Registers)

@[simp] theorem Cpu.modify_self : (c.modify t f).thread t = f (c.thread t) :=
  Function.update_self _ _ _

theorem Cpu.modify_of {u : Nat} (h : u ≠ t) : (c.modify t f).thread u = c.thread u :=
  Function.update_of_ne h _ _

@[simp] theorem Cpu.modify_live : (c.modify t f).live = c.live := rfl
@[simp] theorem Cpu.modify_current : (c.modify t f).currentThread = c.currentThread := rfl
@[simp] theorem Cpu.modify_list : (c.modify t f).activeList = c.activeList := rfl
@[simp] theorem Cpu.setLive_live : (c.setLive r).live = r := rfl
@[simp] theorem Cpu.setLive_thread : (c.setLive r).thread = c.thread := rfl
@[simp] theorem Cpu.setLive_current : (c.setLive r).currentThread = c.currentThread := rfl
@[simp] theorem Cpu.setLive_list : (c.setLive r).activeList = c.activeList := rfl
@[simp] theorem loadThreadState_live : (loadThreadState c t).live = c.live := rfl
@[simp] theorem loadThreadState_thread : (loadThreadState c t).thread = c.thread := rfl
@[simp] theorem loadThreadState_current : (loadThreadState c t).currentThread = t := rfl
@[simp] theorem loadThreadState_list : (loadThreadState c t).activeList = c.activeList := rfl
@[simp] theorem updateEvents_live : (updateEvents c t).live = c.live := rfl
@[simp] theorem updateEvents_current : (updateEvents c t).currentThread = c.currentThread := rfl
@[simp] theorem Registers.cli_rip : r.cli.rip = r.rip := rfl
@[simp] theorem Registers.sti_rip : r.sti.rip = r.rip := rfl
@[simp] theorem Registers.cli_kernelMode : r.cli.kernelMode = r.kernelMode := rfl
@[simp] theorem Registers.sti_kernelMode : r.sti.kernelMode = r.kernelMode := rfl

@[simp] theorem saveThreadState_live : (saveThreadState c t).live = c.live := by
  unfold saveThreadState; split_ifs <;> rfl

@[simp] theorem saveThreadState_current :
    (saveThreadState c t).currentThread = c.currentThread := by
  unfold saveThreadState; split_ifs <;> rfl

@[simp] theorem saveThreadState_list : (saveThreadState c t).activeList = c.activeList := by
  unfold saveThreadState; split_ifs <;> rfl

/-- Saving the FPU block touches nothing else of a thread. -/
theorem saveThreadState_thread (u : Nat) :
    ∃ b, (saveThreadState c t).thread u = { c.thread u with fpuBuffer := b } := by
  unfold saveThreadState
  split_ifs
  · by_cases h : u = t
    · subst h
      exact ⟨_, Cpu.modify_self c u _⟩
    · exact ⟨_, Cpu.modify_of c t _ h⟩
  · exact ⟨(c.thread u).fpuBuffer, rfl⟩

@[simp] theorem findNextThread_thread : (findNextThread c).1.thread = c.thread := by
  rw [(findNextThread_spec c).1]

@[simp] theorem findNextThread_live : (findNextThread c).1.live = c.live := by
  rw [(findNextThread_spec c).1]

@[simp] theorem findNextThread_current :
    (findNextThread c).1.currentThread = c.currentThread := by
  rw [(findNextThread_spec c).1]

/-- Enabling interrupts touches the `cliCount` of the current thread and the flags. -/
theorem threadEnableInterrupts_eq :
    threadEnableInterrupts c =
      (c.modify c.currentThread fun ti => { ti with cliCount := ti.cliCount - 1 }).setLive
        (threadEnableInterrupts c).live ∧
      (threadEnableInterrupts c).live.rip = c.live.rip ∧
      (threadEnableInterrupts c).live.kernelMode = c.live.kernelMode := by
  unfold threadEnableInterrupts
  dsimp only
  split_ifs
  · exact ⟨rfl, rfl, rfl⟩
  · exact ⟨rfl, rfl, rfl⟩

end Simp

/-- **A tick that passes its first test**: the live registers go to the current thread, and the
    chosen thread's are loaded. -/
theorem tick_spec {c : Cpu} (tsc : Nat) (h : (c.thread c.currentThread).stickyCount = 0) :
    ∃ c' next b, tick c tsc = (c', some next) ∧ c'.currentThread = next ∧
      c'.live = (c'.thread next).registers ∧
      c'.thread c.currentThread = { (updateEvents c tsc).thread c.currentThread with
        registers := c.live, fpuBuffer := b } ∧
      (∀ t, t ≠ c.currentThread → c'.thread t = (updateEvents c tsc).thread t) ∧
      (c.activeList.Nodup → c'.activeList.Nodup) := by
  obtain ⟨c2, next, hfind⟩ : ∃ c2 next, findNextThread (updateEvents c tsc) = (c2, next) := ⟨_, _, rfl⟩
  have hth : c2.thread = (updateEvents c tsc).thread := by
    rw [← findNextThread_thread (updateEvents c tsc), hfind]
  have hlv : c2.live = c.live := by
    rw [← updateEvents_live c tsc, ← findNextThread_live (updateEvents c tsc), hfind]
  have hcu : c2.currentThread = c.currentThread := by
    rw [← updateEvents_current c tsc, ← findNextThread_current (updateEvents c tsc), hfind]
  have htick : tick c tsc =
      (loadThreadStateAndRegs (saveThreadStateAndRegs c2 c.currentThread) next, some next) := by
    unfold tick
    rw [if_neg (by simpa using h), hfind]
    dsimp only
    rw [hcu]
  obtain ⟨b, hb⟩ := saveThreadState_thread
    (c2.modify c.currentThread fun ti => { ti with registers := c2.live }) c.currentThread
    c.currentThread
  refine ⟨_, next, b, htick, rfl, rfl, ?_, fun t ht => ?_, fun hnd => ?_⟩
  · show (saveThreadStateAndRegs c2 c.currentThread).thread c.currentThread = _
    unfold saveThreadStateAndRegs
    rw [hb, Cpu.modify_self, hth, hlv]
  · show (saveThreadStateAndRegs c2 c.currentThread).thread t = _
    unfold saveThreadStateAndRegs saveThreadState
    split_ifs
    · rw [Cpu.modify_of _ _ _ ht, Cpu.modify_of _ _ _ ht, hth]
    · rw [Cpu.modify_of _ _ _ ht, hth]
  · show (saveThreadStateAndRegs c2 c.currentThread).activeList.Nodup
    unfold saveThreadStateAndRegs
    rw [saveThreadState_list, Cpu.modify_list]
    have := (findNextThread_spec (updateEvents c tsc)).2 (updateEvents_nodup hnd tsc)
    rwa [hfind] at this

end Scheduler

end SimpleOS2
