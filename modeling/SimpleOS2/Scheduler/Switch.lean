/-
  File:      SimpleOS2/Scheduler/Switch.lean
  Subject:   GIVING THE CPU AWAY, one step at a time (ThreadBlock, ThreadYield, Tick).

  `ThreadBlock` and `ThreadYield` run with interrupts on, apart from the choice of the next thread.
  Between `LoadThreadState(next)` and `SwitchThread` the CPU still executes the old thread while
  `cpuData.currentThread` is already the new one, and the sticky count `Tick` tests is the new
  one's.

  * `Machine`, `Machine.exec` -- the CPU with every step its code can take and the timer; beside
    the CPU it records which thread really executes (`running`), the context at which each thread
    last stopped (`stopped`) and, for Kill.lean, the requests taken off a thread (`due`);
  * `SwitchInv`, `switchInv_reach` -- what holds in every run in which no tick is taken in that
    window on behalf of a thread without a sticky count;
  * `context_integrity`, `context_lost` -- the saved contexts are right in those runs, and a run
    with one such tick in which they are not.
-/
import SimpleOS2.Lib.Run
import SimpleOS2.Scheduler.Thread

namespace SimpleOS2

open Lib

namespace Scheduler

/-! ## 1. The machine -/

/-- The CPU, and what is recorded beside it. -/
structure Machine where
  cpu : Cpu
  running : Nat
  stopped : Nat → Registers
  due : Nat → Bool

/-- What the code of a thread, outside the functions that are taken apart, does to its own
    `ThreadInfo` and the CPU. -/
inductive OwnOp where
  | setSticky
  | unsetSticky
  | disableInterrupts
  | enableInterrupts
  | resetCounts                    -- ThreadSetupFaultHandler
  | finish                         -- ThreadExit: state.type = FINISHED
  | handleKill (rip rsp : Nat)     -- syscall_handle_kill

inductive Event where
  | tick (tsc : Nat)
  | advance
  | check
  | code (r : Registers)
  | own (op : OwnOp)
  | call (fn : Fn) (ret : Nat)
  | sysExit (state : SyscallState) (retVal : Nat)
  | threadExec (regs : Registers)
  | finishKill
  | queueUnlock (t : Nat)
  | kill (uid : Nat) (tid : Int)
  | abort (uid : Nat) (tid : Int)
  | abortChild (t : Nat)

/-- Code that is not taken apart. -/
def Code.other : Code → Bool
  | .addr _ | .threadExit => true
  | .frame _ | .checkFlags _ _ _ => false

/-- Continue at `code`. -/
def Cpu.goto (c : Cpu) (code : Code) : Cpu := c.setLive { c.live with rip := code }

/-- One step of `ThreadBlock` or `ThreadYield`. -/
def frameStep (c : Cpu) (f : Frame) : Cpu :=
  match f.pc with
  | .setSticky =>
      let pc := match f.fn with | .block _ _ => Pc.setState | .yield => Pc.lock
      (threadSetSticky c).goto (.frame { f with pc := pc })
  | .setState =>
      let c := match f.fn with
        | .block type arg => c.modify f.tInfo fun ti => { ti with state := type, arg := arg }
        | .yield => c
      c.goto (.frame { f with pc := .lock })
  | .lock =>
      { threadDisableInterrupts c with activeListLock := true }.goto (.frame { f with pc := .choose })
  | .choose =>
      let r := findNextThread c
      r.1.goto (.frame { f with pc := .unlock, next := r.2 })
  | .unlock =>
      let pc := match f.fn with | .block _ _ => Pc.save | .yield => Pc.compare
      (threadEnableInterrupts { c with activeListLock := false }).goto (.frame { f with pc := pc })
  | .compare =>
      c.goto (.frame { f with pc := if f.next = f.tInfo then .unset else .save })
  | .save => (saveThreadState c f.tInfo).goto (.frame { f with pc := .load })
  | .load => (loadThreadState c f.next).goto (.frame { f with pc := .switch })
  | .switch => switchThread c f.tInfo f.next (.frame { f with pc := .unset })
  | .unset => (threadUnsetSticky c).goto (.addr f.ret)

/-- One step of `ThreadCheckFlags`, or the `sysret` that follows it. -/
def checkStep (c : Cpu) (pc : CheckPc) (state : SyscallState) (retVal : Nat) : Cpu :=
  let ti := c.thread c.currentThread
  match pc with
  | .kill =>
      if ti.killPending then
        (c.modify c.currentThread fun ti => { ti with killPending := false }).goto
          (.checkFlags .setup state retVal)
      else c.goto (.checkFlags .abort state retVal)
  | .setup =>
      if ti.killHandlerRip ≠ 0 then
        (c.modify c.currentThread fun ti =>
            { ti with killHandlerReturnState := syscallReturnState state retVal }).goto
          (.checkFlags .abort
            { state with userrip := ti.killHandlerRip, userrsp := ti.killHandlerRsp } retVal)
      else c.setLive { c.live with rip := .threadExit, rdi := 1 }
  | .abort =>
      if ti.abortPending then c.setLive { c.live with rip := .threadExit, rdi := 1 }
      else c.goto (.checkFlags .sysret state retVal)
  | .sysret =>
      c.setLive
        { c.live with
          rip := .addr state.userrip, rcx := state.userrip, userrsp := state.userrsp,
          r10 := state.userrsp, rbp := state.userrbp, rflags := state.userflags,
          r11 := state.userflags, rbx := state.userrbx, r12 := state.userr12,
          r13 := state.userr13, r14 := state.userr14, r15 := state.userr15, rax := retVal,
          cs := GDT.UserCode, ss := GDT.UserData }

def ownStep (c : Cpu) : OwnOp → Option Cpu
  | .setSticky => some (threadSetSticky c)
  | .unsetSticky =>
      if (c.thread c.currentThread).stickyCount = 0 then none else some (threadUnsetSticky c)
  | .disableInterrupts => some (threadDisableInterrupts c)
  | .enableInterrupts =>
      if (c.thread c.currentThread).cliCount = 0 then none else some (threadEnableInterrupts c)
  | .resetCounts =>
      some (c.modify c.currentThread fun ti => { ti with cliCount := 0, stickyCount := 0 })
  | .finish => some (c.modify c.currentThread fun ti => { ti with state := .FINISHED })
  | .handleKill rip rsp =>
      some (c.modify c.currentThread fun ti =>
        { ti with killHandlerRip := rip, killHandlerRsp := rsp })

/-- A request was taken off the thread: a flag went from true to false. -/
def dropped (ti ti' : ThreadInfo) : Bool :=
  ti.killPending && !ti'.killPending || ti.abortPending && !ti'.abortPending

/-- The CPU goes on as `c`. A request taken off a thread stays due until that thread has executed;
    `executed` says whether the running one has, in this step. -/
def Machine.goes (m : Machine) (c : Cpu) (executed : Bool) : Machine :=
  { m with
    cpu := c,
    due := fun t => m.due t && !(executed && t == m.running) ||
      dropped (m.cpu.thread t) (c.thread t) }

/-- The contexts at which the threads stopped, with what `UpdateEvents` delivers to them. -/
def Machine.stoppedAfter (m : Machine) (tsc t : Nat) : Registers :=
  ((updateEvents (m.cpu.modify t fun ti => { ti with registers := m.stopped t }) tsc).thread t).registers

/-- One step; `none` where it cannot be taken. -/
def Machine.exec (m : Machine) : Event → Option Machine
  | .tick tsc =>
      if m.cpu.live.interruptFlag && !m.cpu.activeListLock then
        match (tick m.cpu tsc).2 with
        | none => some (m.goes (tick m.cpu tsc).1 false)
        | some next =>
            some { m.goes (tick m.cpu tsc).1 false with
              running := next
              stopped := Function.update (m.stoppedAfter tsc) m.running m.cpu.live }
      else none
  | .advance =>
      match m.cpu.live.rip with
      | .frame f =>
          if f.pc = .lock ∧ m.cpu.activeListLock then none
          else if f.pc = .switch then
            some { m.goes (frameStep m.cpu f) true with
              running := f.next
              stopped := Function.update m.stopped m.running
                (switchSaved (m.cpu.thread m.running).registers m.cpu.live
                  (.frame { f with pc := .unset })) }
          else some (m.goes (frameStep m.cpu f) true)
      | _ => none
  | .check =>
      match m.cpu.live.rip with
      | .checkFlags pc state retVal => some (m.goes (checkStep m.cpu pc state retVal) false)
      | _ => none
  | .code r =>
      if m.cpu.live.rip.other && r.rip.other then some (m.goes (m.cpu.setLive r) true) else none
  | .own op =>
      if m.cpu.live.rip.other then (ownStep m.cpu op).map fun c => m.goes c true else none
  | .call fn ret =>
      if m.cpu.live.rip.other && m.cpu.live.kernelMode then
        some (m.goes (m.cpu.goto
          (.frame ⟨fn, .setSticky, m.cpu.currentThread, idleThread, ret⟩)) true)
      else none
  | .sysExit state retVal =>
      if m.cpu.live.rip.other && m.cpu.live.kernelMode then
        some (m.goes (m.cpu.goto (.checkFlags .kill state retVal)) true)
      else none
  | .threadExec regs =>
      if m.cpu.live.rip.other && regs.rip.other then
        let t := m.cpu.currentThread
        let c := m.cpu.modify t fun ti =>
          { ti with cliCount := 0, stickyCount := 0, registers := { regs with rflags := 2 ^ 9 } }
        some (m.goes (loadThreadStateAndRegs c t) true)
      else none
  | .finishKill =>
      if m.cpu.live.rip.other then
        let t := m.cpu.currentThread
        let c := (saveThreadState m.cpu t).modify t fun ti =>
          { ti with registers := ti.killHandlerReturnState }
        some (m.goes (loadThreadStateAndRegs c t) true)
      else none
  | .queueUnlock t =>
      if m.cpu.live.rip.other && (m.cpu.thread t).state == .QUEUE_LOCK then
        some { m.goes (m.cpu.modify t fun ti => wake ti 0) true with
          stopped := Function.update m.stopped t { m.stopped t with rax := 0 } }
      else none
  | .kill uid tid => some (m.goes (threadKill m.cpu uid tid).2 false)
  | .abort uid tid => some (m.goes (threadAbort m.cpu uid tid).2 false)
  | .abortChild t =>
      some (m.goes (m.cpu.modify t fun ti => { ti with abortPending := true }) false)

def step (m : Machine) (e : Event) (m' : Machine) : Prop := m.exec e = some m'

/-- Some thread executes its own code, and every other one has stopped in its own. -/
structure Init (m : Machine) : Prop where
  current : m.cpu.currentThread = m.running
  live : m.cpu.live.rip.other = true
  saved : ∀ t, (m.cpu.thread t).registers.rip.other = true
  returns : ∀ t, (m.cpu.thread t).killHandlerReturnState.rip.other = true
  stopped : ∀ t, (m.cpu.thread t).registers = m.stopped t
  due : ∀ t, m.due t = false
  nodup : m.cpu.activeList.Nodup

/-! ## 2. The invariant -/

/-- A context `r` that thread `t` executes: a frame in it is `t`'s own, and sticky from its first
    step on. -/
def OwnFrame (t : Nat) (ti : ThreadInfo) (r : Registers) : Prop :=
  ∀ f, r.rip = .frame f →
    r.kernelMode = true ∧ f.tInfo = t ∧ (f.pc ≠ .setSticky → 1 ≤ ti.stickyCount)

/-- A thread that is not executing stands before the first or before the last step of a frame. -/
def Parked (t : Nat) (ti : ThreadInfo) : Prop :=
  ∀ f, ti.registers.rip = .frame f →
    ti.registers.kernelMode = true ∧ f.tInfo = t ∧
      (f.pc = .setSticky ∨ f.pc = .unset ∧ 1 ≤ ti.stickyCount)

/-- A saved context that is a frame is one of kernel mode, and a kill handler returns to none. -/
def Tidy (ti : ThreadInfo) : Prop :=
  (∀ f, ti.registers.rip = .frame f → ti.registers.kernelMode = true) ∧
    ∀ f, ti.killHandlerReturnState.rip ≠ .frame f

/-- **The tick is not taken in the window**: where the CPU stands between `LoadThreadState(next)`
    and `SwitchThread`, `next` has a sticky count. -/
def SwitchOk (m : Machine) (e : Event) : Prop :=
  ∀ tsc, e = .tick tsc → ∀ f, m.cpu.live.rip = .frame f → f.pc = .switch →
    (m.cpu.thread f.next).stickyCount ≠ 0

structure SwitchInv (m : Machine) : Prop where
  window : ∀ f, m.cpu.live.rip = .frame f → f.pc = .switch → m.cpu.currentThread = f.next
  current : (∀ f, m.cpu.live.rip = .frame f → f.pc ≠ .switch) → m.cpu.currentThread = m.running
  live : OwnFrame m.running (m.cpu.thread m.running) m.cpu.live
  parked : ∀ t, t ≠ m.running → Parked t (m.cpu.thread t)
  tidy : ∀ t, Tidy (m.cpu.thread t)
  integrity : ∀ t, t ≠ m.running → (m.cpu.thread t).registers = m.stopped t
  nodup : m.cpu.activeList.Nodup

/-- The fields of a thread the invariant reads. -/
structure Kept (ti ti' : ThreadInfo) : Prop where
  registers : ti'.registers = ti.registers
  sticky : ti'.stickyCount = ti.stickyCount
  returns : ti'.killHandlerReturnState = ti.killHandlerReturnState

theorem Kept.tidy {ti ti' : ThreadInfo} (h : Kept ti ti') (ht : Tidy ti) : Tidy ti' := by
  unfold Tidy
  rw [h.registers, h.returns]
  exact ht

theorem Kept.rfl {ti : ThreadInfo} : Kept ti ti := ⟨Eq.refl _, Eq.refl _, Eq.refl _⟩

section Inv

variable {m : Machine}

theorem other_ne_frame {c : Code} (h : c.other = true) (f : Frame) : c ≠ .frame f := by
  rintro rfl
  cases h

theorem switchInv_init (h : Init m) : SwitchInv m := by
  have hl := other_ne_frame h.live
  refine ⟨fun f hf => absurd hf (hl f), fun _ => h.current, fun f hf => absurd hf (hl f),
    fun t _ f hf => absurd hf (other_ne_frame (h.saved t) f),
    fun t => ⟨fun f hf => absurd hf (other_ne_frame (h.saved t) f),
      fun f => other_ne_frame (h.returns t) f⟩, fun t _ => h.stopped t, h.nodup⟩

/-- **A step of the running thread** that leaves what the invariant reads of every other thread. -/
theorem SwitchInv.own (hI : SwitchInv m) {c : Cpu} {d : Nat → Bool}
    (hwin : ∀ f, c.live.rip = .frame f → f.pc = .switch → c.currentThread = f.next)
    (hcur : (∀ f, c.live.rip = .frame f → f.pc ≠ .switch) → c.currentThread = m.running)
    (hlive : OwnFrame m.running (c.thread m.running) c.live)
    (htidy : Tidy (c.thread m.running))
    (hother : ∀ t, t ≠ m.running → Kept (m.cpu.thread t) (c.thread t))
    (hnd : c.activeList.Nodup) : SwitchInv { m with cpu := c, due := d } := by
  refine ⟨hwin, hcur, hlive, fun t ht f hf => ?_, fun t => ?_, fun t ht => ?_, hnd⟩
  · have hk := hother t ht
    dsimp only at hf ⊢
    rw [hk.registers] at hf ⊢
    rw [hk.sticky]
    exact hI.parked t ht f hf
  · by_cases ht : t = m.running
    · subst ht
      exact htidy
    · exact (hother t ht).tidy (hI.tidy t)
  · exact (hother t ht).registers.trans (hI.integrity t ht)

/-- The same when the thread stays outside the functions that are taken apart. -/
theorem SwitchInv.ownOther (hI : SwitchInv m) {c : Cpu} {d : Nat → Bool}
    (hrip : ∀ f, c.live.rip ≠ .frame f) (hcur : c.currentThread = m.running)
    (htidy : Tidy (c.thread m.running))
    (hother : ∀ t, t ≠ m.running → Kept (m.cpu.thread t) (c.thread t))
    (hnd : c.activeList.Nodup) : SwitchInv { m with cpu := c, due := d } :=
  hI.own (fun f hf => absurd hf (hrip f)) (fun _ => hcur) (fun f hf => absurd hf (hrip f)) htidy
    hother hnd

/-- A write to one thread is no change to the others. -/
theorem kept_modify (c : Cpu) {t u : Nat} (g : ThreadInfo → ThreadInfo) (h : u ≠ t) :
    Kept (c.thread u) ((c.modify t g).thread u) := by
  rw [Cpu.modify_of c t g h]
  exact .rfl

theorem kept_saveThreadState (c : Cpu) (t u : Nat) :
    Kept (c.thread u) ((saveThreadState c t).thread u) := by
  obtain ⟨b, hb⟩ := saveThreadState_thread c t u
  rw [hb]
  exact ⟨rfl, rfl, rfl⟩

/-! ## 3. One step keeps it -/

/-- A step from one place of a frame to another. -/
theorem SwitchInv.toFrame (hI : SwitchInv m) {c : Cpu} {d : Nat → Bool} {f : Frame}
    (hrip : c.live.rip = .frame f) (hk : c.live.kernelMode = true) (ht : f.tInfo = m.running)
    (hs : 1 ≤ (c.thread m.running).stickyCount)
    (hcur : c.currentThread = if f.pc = .switch then f.next else m.running)
    (htidy : Tidy (c.thread m.running))
    (hother : ∀ t, t ≠ m.running → Kept (m.cpu.thread t) (c.thread t))
    (hnd : c.activeList.Nodup) : SwitchInv { m with cpu := c, due := d } := by
  have huniq : ∀ g, c.live.rip = .frame g → g = f := fun g hg => by
    rw [hrip] at hg
    exact (Code.frame.inj hg).symm
  refine hI.own (fun g hg hpc => ?_) (fun hno => ?_) (fun g hg => ?_) htidy hother hnd
  · rw [huniq g hg] at hpc ⊢
    rw [hcur, if_pos hpc]
  · rw [hcur, if_neg (hno f hrip)]
  · rw [huniq g hg]
    exact ⟨hk, ht, fun _ => hs⟩

theorem frameStep_inv (hI : SwitchInv m) {f : Frame} (hf : m.cpu.live.rip = .frame f)
    (hsw : f.pc ≠ .switch) (d : Nat → Bool) :
    SwitchInv { m with cpu := frameStep m.cpu f, due := d } := by
  obtain ⟨hk, ht, hs⟩ := hI.live f hf
  have hcur : m.cpu.currentThread = m.running := hI.current fun g hg => by
    rw [hf] at hg
    rwa [← Code.frame.inj hg]
  have htidy := hI.tidy m.running
  have hmod : ∀ (g : ThreadInfo → ThreadInfo) (c : Cpu), ∀ t, t ≠ m.running →
      Kept (c.thread t) ((c.modify m.running g).thread t) := fun g c t h => kept_modify c g h
  unfold frameStep
  cases hpc : f.pc with
  | setSticky =>
      refine hI.toFrame rfl hk ht ?_ ?_ ?_ ?_ hI.nodup
      · simp [Cpu.goto, threadSetSticky, hcur]
      · cases f.fn <;> simp [Cpu.goto, threadSetSticky, hcur]
      · simpa [Tidy, Cpu.goto, threadSetSticky, hcur] using htidy
      · simpa [Cpu.goto, threadSetSticky, hcur] using hmod _ m.cpu
  | setState =>
      have h1 := hs (by rw [hpc]; decide)
      cases f.fn with
      | block type arg =>
          refine hI.toFrame rfl hk ht ?_ ?_ ?_ ?_ hI.nodup
          · simpa [Cpu.goto, ht] using h1
          · simpa [Cpu.goto] using hcur
          · simpa [Tidy, Cpu.goto, ht] using htidy
          · simpa [Cpu.goto, ht] using hmod _ m.cpu
      | yield => exact hI.toFrame rfl hk ht h1 hcur htidy (fun _ _ => .rfl) hI.nodup
  | lock =>
      have h1 := hs (by rw [hpc]; decide)
      refine hI.toFrame rfl hk ht ?_ ?_ ?_ ?_ hI.nodup
      · simpa [Cpu.goto, threadDisableInterrupts, hcur] using h1
      · simpa [Cpu.goto, threadDisableInterrupts] using hcur
      · simpa [Tidy, Cpu.goto, threadDisableInterrupts, hcur] using htidy
      · simpa [Cpu.goto, threadDisableInterrupts, hcur] using hmod _ m.cpu
  | choose =>
      have h1 := hs (by rw [hpc]; decide)
      refine hI.toFrame rfl ?_ ht ?_ ?_ ?_ (fun t _ => ?_) ((findNextThread_spec m.cpu).2 hI.nodup)
      · simpa [Cpu.goto, Registers.kernelMode] using hk
      · simpa [Cpu.goto] using h1
      · simpa [Cpu.goto] using hcur
      · simpa [Tidy, Cpu.goto] using htidy
      · simpa [Cpu.goto] using Kept.rfl
  | unlock =>
      have h1 := hs (by rw [hpc]; decide)
      obtain ⟨he, -, hk'⟩ := threadEnableInterrupts_eq { m.cpu with activeListLock := false }
      refine hI.toFrame rfl ?_ ht ?_ ?_ ?_ ?_ ?_
      · exact hk'.trans hk
      · rw [he]
        simpa [Cpu.goto, hcur] using h1
      · rw [he]
        cases f.fn <;> simpa [Cpu.goto] using hcur
      · rw [he]
        simpa [Tidy, Cpu.goto, hcur] using htidy
      · intro t htn
        have hkept := kept_modify { m.cpu with activeListLock := false }
          (fun ti => { ti with cliCount := ti.cliCount - 1 }) (hcur.symm ▸ htn)
        dsimp only
        rw [he]
        exact hkept
      · rw [he]
        exact hI.nodup
  | compare =>
      have h1 := hs (by rw [hpc]; decide)
      refine hI.toFrame rfl hk ht h1 ?_ htidy (fun _ _ => .rfl) hI.nodup
      split_ifs <;> simp_all [Cpu.goto]
  | save =>
      have h1 := hs (by rw [hpc]; decide)
      have hkept := kept_saveThreadState m.cpu f.tInfo
      refine hI.toFrame rfl ?_ ht ?_ ?_ ?_ (fun t _ => hkept t) ?_
      · simpa [Cpu.goto, Registers.kernelMode] using hk
      · exact (hkept m.running).sticky ▸ h1
      · simpa [Cpu.goto] using hcur
      · exact (hkept m.running).tidy htidy
      · simpa [Cpu.goto] using hI.nodup
  | load =>
      have h1 := hs (by rw [hpc]; decide)
      exact hI.toFrame rfl hk ht h1 rfl htidy (fun _ _ => .rfl) hI.nodup
  | switch => exact absurd hpc hsw
  | unset =>
      refine hI.ownOther (fun g => by simp [Cpu.goto]) ?_ ?_ ?_ hI.nodup
      · simpa [Cpu.goto, threadUnsetSticky] using hcur
      · simpa [Tidy, Cpu.goto, threadUnsetSticky, hcur] using htidy
      · simpa [Cpu.goto, threadUnsetSticky, hcur] using hmod _ m.cpu

/-- `SwitchThread`: the old thread stops in its own frame, the new one goes on where it stood. -/
theorem switch_inv (hI : SwitchInv m) {f : Frame} (hf : m.cpu.live.rip = .frame f)
    (hsw : f.pc = .switch) (d : Nat → Bool) :
    SwitchInv ⟨frameStep m.cpu f, f.next,
      Function.update m.stopped m.running
        (switchSaved (m.cpu.thread m.running).registers m.cpu.live (.frame { f with pc := .unset })),
      d⟩ := by
  obtain ⟨hk, ht, hs⟩ := hI.live f hf
  have h1 := hs (by rw [hsw]; decide)
  have hcur := hI.window f hf hsw
  set ret : Code := .frame { f with pc := .unset } with hretdef
  have hthread : (frameStep m.cpu f).thread = Function.update m.cpu.thread m.running
      { m.cpu.thread m.running with
        registers := switchSaved (m.cpu.thread m.running).registers m.cpu.live ret } := by
    unfold frameStep
    rw [hsw]
    dsimp only [switchThread, Cpu.setLive_thread, Cpu.modify]
    rw [hretdef, ht]
  have hlive : (frameStep m.cpu f).live = ((frameStep m.cpu f).thread f.next).registers := by
    unfold frameStep
    rw [hsw]
    rfl
  have hcur' : (frameStep m.cpu f).currentThread = f.next := by
    unfold frameStep
    rw [hsw]
    exact hcur
  have hlist : (frameStep m.cpu f).activeList = m.cpu.activeList := by
    unfold frameStep
    rw [hsw]
    rfl
  have hpark : ∀ t, Parked t ((frameStep m.cpu f).thread t) := by
    intro t
    rw [hthread]
    by_cases htr : t = m.running
    · subst htr
      rw [Function.update_self]
      intro g hg
      rw [← Code.frame.inj hg]
      exact ⟨hk, ht, Or.inr ⟨rfl, h1⟩⟩
    · rw [Function.update_of_ne htr]
      exact hI.parked t htr
  refine ⟨fun g hg hpc => hcur'.trans ?_, fun _ => hcur', fun g hg => ?_, fun t _ => hpark t,
    fun t => ?_, fun t htn => ?_, hlist ▸ hI.nodup⟩
  · dsimp only at hg
    rw [hlive] at hg
    rcases (hpark f.next g hg).2.2 with h | ⟨h, -⟩ <;> rw [h] at hpc <;> cases hpc
  · dsimp only at hg ⊢
    rw [hlive] at hg ⊢
    obtain ⟨h2, h3, h4⟩ := hpark f.next g hg
    refine ⟨h2, h3, fun hne => ?_⟩
    rcases h4 with h4 | ⟨-, h4⟩
    · exact absurd h4 hne
    · exact h4
  · dsimp only
    rw [hthread]
    by_cases htr : t = m.running
    · subst htr
      rw [Function.update_self]
      exact ⟨fun _ _ => hk, (hI.tidy m.running).2⟩
    · rw [Function.update_of_ne htr]
      exact hI.tidy t
  · dsimp only
    rw [hthread]
    by_cases htr : t = m.running
    · subst htr
      rw [Function.update_self, Function.update_self]
    · rw [Function.update_of_ne htr, Function.update_of_ne htr]
      exact hI.integrity t htr

/-- `UpdateEvents` leaves the sticky count, and a frame it finds saved, alone. -/
theorem Touched.sticky {ti ti' : ThreadInfo} (h : Touched ti ti') :
    ti'.stickyCount = ti.stickyCount := by
  cases h with
  | delivered => simp only [deliver, setupKillHandlerFromTick]; split_ifs <;> rfl
  | _ => rfl

/-- A delivery goes to a user-mode context: it replaces `rip`, and what it keeps as the return
    state of the handler is that user-mode context. -/
theorem deliver_rip {ti : ThreadInfo} (hu : ti.registers.kernelMode = false) (ht : Tidy ti) :
    (∀ f, (deliver ti).registers.rip ≠ .frame f) ∧
      ∀ f, (deliver ti).killHandlerReturnState.rip ≠ .frame f := by
  have hr : ∀ f, ti.registers.rip ≠ .frame f := fun f hf => by
    have := ht.1 f hf
    rw [hu] at this
    cases this
  simp only [deliver, setupKillHandlerFromTick]
  split_ifs <;> exact ⟨fun f => by simp [exitRegisters, hr], fun f => by simp [ht.2 f, hr]⟩

theorem Touched.tidy {ti ti' : ThreadInfo} (h : Touched ti ti') (ht : Tidy ti) : Tidy ti' := by
  cases h with
  | delivered _ hu _ =>
      obtain ⟨h1, h2⟩ := deliver_rip hu ht
      exact ⟨fun f hf => absurd hf (h1 f), h2⟩
  | _ => exact ht

theorem Touched.parked {ti ti' : ThreadInfo} {t : Nat} (h : Touched ti ti') (ht : Tidy ti)
    (hp : Parked t ti) : Parked t ti' := by
  cases h with
  | delivered _ hu _ => exact fun f hf => absurd hf ((deliver_rip hu ht).1 f)
  | _ => exact hp

/-- Where the saved context is the one at which the thread stopped, it still is after a pass. -/
theorem stoppedAfter_eq {t : Nat} (h : (m.cpu.thread t).registers = m.stopped t) (tsc : Nat) :
    m.stoppedAfter tsc t = ((updateEvents m.cpu tsc).thread t).registers := by
  have hsame : (m.cpu.modify t fun ti => { ti with registers := m.stopped t }) = m.cpu := by
    unfold Cpu.modify
    rw [← h, Function.update_eq_self]
  unfold Machine.stoppedAfter
  rw [hsame]

/-- **A tick outside the window.** -/
theorem tick_inv (hI : SwitchInv m) (tsc : Nat)
    (hst : (m.cpu.thread m.cpu.currentThread).stickyCount = 0)
    (hcur : m.cpu.currentThread = m.running) (d : Nat → Bool) {c : Cpu} {next : Nat}
    (hc : tick m.cpu tsc = (c, some next)) :
    SwitchInv ⟨c, next, Function.update (m.stoppedAfter tsc) m.running m.cpu.live, d⟩ := by
  obtain ⟨c', next', b, he, hcu, hlv, hown, hoth, hnd⟩ := tick_spec tsc hst
  rw [hc] at he
  obtain ⟨rfl, hn⟩ := Prod.mk.inj he
  obtain rfl := Option.some.inj hn
  rw [hcur] at hown hoth hst
  have htouch := updateEvents_touched hI.nodup tsc
  -- the running thread was preempted before it became sticky
  have hself : ∀ f, m.cpu.live.rip = .frame f →
      m.cpu.live.kernelMode = true ∧ f.tInfo = m.running ∧ f.pc = .setSticky := fun f hf => by
    obtain ⟨h1, h2, h3⟩ := hI.live f hf
    refine ⟨h1, h2, ?_⟩
    by_contra hne
    have := h3 hne
    omega
  have hpark : ∀ t, Parked t (c.thread t) := fun t => by
    by_cases ht : t = m.running
    · subst ht
      rw [hown]
      intro f hf
      obtain ⟨h1, h2, h3⟩ := hself f hf
      exact ⟨h1, h2, Or.inl h3⟩
    · rw [hoth t ht]
      exact (htouch t).parked (hI.tidy t) (hI.parked t ht)
  refine ⟨fun f hf hpc => ?_, fun _ => hcu, fun f hf => ?_, fun t _ => hpark t, fun t => ?_,
    fun t ht => ?_, hnd hI.nodup⟩
  · dsimp only at hf
    rw [hlv] at hf
    rcases (hpark next f hf).2.2 with h | ⟨h, -⟩ <;> rw [h] at hpc <;> cases hpc
  · dsimp only at hf ⊢
    rw [hlv] at hf ⊢
    obtain ⟨h1, h2, h3⟩ := hpark next f hf
    refine ⟨h1, h2, fun hne => ?_⟩
    rcases h3 with h3 | ⟨-, h3⟩
    · exact absurd h3 hne
    · exact h3
  · by_cases htr : t = m.running
    · subst htr
      dsimp only
      rw [hown]
      exact ⟨fun f hf => (hself f hf).1, ((htouch m.running).tidy (hI.tidy m.running)).2⟩
    · dsimp only
      rw [hoth t htr]
      exact (htouch t).tidy (hI.tidy t)
  · by_cases htr : t = m.running
    · subst htr
      dsimp only
      rw [hown, Function.update_self]
    · dsimp only
      rw [hoth t htr, Function.update_of_ne htr]
      exact (stoppedAfter_eq (hI.integrity t htr) tsc).symm

/-- Outside a frame the CPU executes the current thread. -/
theorem SwitchInv.current_of (hI : SwitchInv m) (h : ∀ f, m.cpu.live.rip ≠ .frame f) :
    m.cpu.currentThread = m.running :=
  hI.current fun f hf => absurd hf (h f)

theorem checkStep_inv (hI : SwitchInv m) {pc : CheckPc} {state : SyscallState} {retVal : Nat}
    (hrip : m.cpu.live.rip = .checkFlags pc state retVal) (d : Nat → Bool) :
    SwitchInv { m with cpu := checkStep m.cpu pc state retVal, due := d } := by
  have hcur := hI.current_of fun f hf => by rw [hrip] at hf; cases hf
  have htidy := hI.tidy m.running
  have hmod : ∀ (g : ThreadInfo → ThreadInfo) (c : Cpu), ∀ t, t ≠ m.running →
      Kept (c.thread t) ((c.modify m.running g).thread t) := fun g c t h => kept_modify c g h
  unfold checkStep
  cases pc with
  | kill =>
      dsimp only
      split_ifs
      · refine hI.ownOther (fun f => by simp [Cpu.goto]) hcur ?_ ?_ hI.nodup
        · simpa [Tidy, Cpu.goto, hcur] using htidy
        · simpa [Cpu.goto, hcur] using hmod _ m.cpu
      · exact hI.ownOther (fun f => by simp [Cpu.goto]) hcur htidy (fun _ _ => .rfl) hI.nodup
  | setup =>
      dsimp only
      split_ifs
      · refine hI.ownOther (fun f => by simp [Cpu.goto]) hcur ?_ ?_ hI.nodup
        · simpa [Tidy, Cpu.goto, hcur, syscallReturnState] using htidy.1
        · simpa [Cpu.goto, hcur] using hmod _ m.cpu
      · exact hI.ownOther (fun f => by simp) hcur htidy (fun _ _ => .rfl) hI.nodup
  | abort =>
      dsimp only
      split_ifs
      · exact hI.ownOther (fun f => by simp) hcur htidy (fun _ _ => .rfl) hI.nodup
      · exact hI.ownOther (fun f => by simp [Cpu.goto]) hcur htidy (fun _ _ => .rfl) hI.nodup
  | sysret => exact hI.ownOther (fun f => by simp) hcur htidy (fun _ _ => .rfl) hI.nodup

/-- What the small operations have in common: one write to the current thread that keeps its
    contexts and its flags, and a write to `rflags`. -/
theorem ownStep_eq {c c' : Cpu} {op : OwnOp} (hs : ownStep c op = some c') :
    ∃ (g : ThreadInfo → ThreadInfo) (r : Registers),
      (∀ ti, (g ti).registers = ti.registers ∧
        (g ti).killHandlerReturnState = ti.killHandlerReturnState ∧
        (g ti).killPending = ti.killPending ∧ (g ti).abortPending = ti.abortPending) ∧
      r.rip = c.live.rip ∧ c' = (c.modify c.currentThread g).setLive r := by
  cases op with
  | setSticky =>
      cases hs
      exact ⟨fun ti => { ti with stickyCount := ti.stickyCount + 1 }, c.live,
        fun _ => ⟨rfl, rfl, rfl, rfl⟩, rfl, rfl⟩
  | unsetSticky =>
      simp only [ownStep] at hs
      split_ifs at hs
      cases hs
      exact ⟨fun ti => { ti with stickyCount := ti.stickyCount - 1 }, c.live,
        fun _ => ⟨rfl, rfl, rfl, rfl⟩, rfl, rfl⟩
  | disableInterrupts =>
      cases hs
      exact ⟨fun ti => { ti with cliCount := ti.cliCount + 1 }, c.live.cli,
        fun _ => ⟨rfl, rfl, rfl, rfl⟩, rfl, rfl⟩
  | enableInterrupts =>
      simp only [ownStep] at hs
      split_ifs at hs
      cases hs
      obtain ⟨he, h2, -⟩ := threadEnableInterrupts_eq c
      exact ⟨fun ti => { ti with cliCount := ti.cliCount - 1 }, _,
        fun _ => ⟨rfl, rfl, rfl, rfl⟩, h2, he⟩
  | resetCounts =>
      cases hs
      exact ⟨fun ti => { ti with cliCount := 0, stickyCount := 0 }, c.live,
        fun _ => ⟨rfl, rfl, rfl, rfl⟩, rfl, rfl⟩
  | finish =>
      cases hs
      exact ⟨fun ti => { ti with state := .FINISHED }, c.live,
        fun _ => ⟨rfl, rfl, rfl, rfl⟩, rfl, rfl⟩
  | handleKill rip rsp =>
      cases hs
      exact ⟨fun ti => { ti with killHandlerRip := rip, killHandlerRsp := rsp }, c.live,
        fun _ => ⟨rfl, rfl, rfl, rfl⟩, rfl, rfl⟩

theorem ownStep_inv (hI : SwitchInv m) (hrip : m.cpu.live.rip.other = true) {op : OwnOp} {c : Cpu}
    (hs : ownStep m.cpu op = some c) (d : Nat → Bool) : SwitchInv { m with cpu := c, due := d } := by
  have hno := other_ne_frame hrip
  have hcur := hI.current_of hno
  obtain ⟨g, r, hg, hr, rfl⟩ := ownStep_eq hs
  rw [hcur]
  refine hI.ownOther (fun f => ?_) hcur ?_ (fun t ht => kept_modify m.cpu g ht) hI.nodup
  · simpa [hr] using hno f
  · simpa [Tidy, (hg _).1, (hg _).2.1] using hI.tidy m.running

/-- `ThreadExec` and `syscall_finish_kill`: the running thread goes on in a context written into
    its own `registers`. -/
theorem goTo_inv (hI : SwitchInv m) (hcur : m.cpu.currentThread = m.running) {c : Cpu}
    (hkept : ∀ t, t ≠ m.running → Kept (m.cpu.thread t) (c.thread t))
    (hr : ∀ f, (c.thread m.running).registers.rip ≠ .frame f)
    (hret : ∀ f, (c.thread m.running).killHandlerReturnState.rip ≠ .frame f)
    (hnd : c.activeList.Nodup) (d : Nat → Bool) :
    SwitchInv { m with cpu := loadThreadStateAndRegs c m.cpu.currentThread, due := d } := by
  rw [hcur]
  exact hI.ownOther hr rfl ⟨fun f hf => absurd hf (hr f), hret⟩ hkept hnd

/-- Another thread's request touches flags only. -/
theorem request_inv (hI : SwitchInv m) {c : Cpu} (hc : c.live = m.cpu.live)
    (hcu : c.currentThread = m.cpu.currentThread) (hl : c.activeList = m.cpu.activeList)
    (hkept : ∀ t, Kept (m.cpu.thread t) (c.thread t)) (d : Nat → Bool) :
    SwitchInv { m with cpu := c, due := d } := by
  refine hI.own ?_ ?_ ?_ ((hkept m.running).tidy (hI.tidy m.running)) (fun t _ => hkept t)
    (hl ▸ hI.nodup)
  · rw [hc, hcu]
    exact hI.window
  · rw [hc, hcu]
    exact hI.current
  · unfold OwnFrame
    rw [hc, (hkept m.running).sticky]
    exact hI.live

theorem flag_inv (hI : SwitchInv m) (t : Nat) {g : ThreadInfo → ThreadInfo}
    (hg : ∀ ti, Kept ti (g ti)) (d : Nat → Bool) :
    SwitchInv { m with cpu := m.cpu.modify t g, due := d } := by
  refine request_inv (c := m.cpu.modify t g) hI rfl rfl rfl (fun u => ?_) d
  by_cases h : u = t
  · subst h
    rw [Cpu.modify_self]
    exact hg _
  · exact kept_modify m.cpu g h

/-- `QueueLock::Unlock` hands a result to a waiting thread: `rax` of its saved context. -/
theorem wake_inv (hI : SwitchInv m) (t res : Nat) (d : Nat → Bool) :
    SwitchInv ⟨m.cpu.modify t fun ti => wake ti res, m.running,
      Function.update m.stopped t { m.stopped t with rax := res }, d⟩ := by
  have hself : (m.cpu.modify t fun ti => wake ti res).thread t = wake (m.cpu.thread t) res :=
    Cpu.modify_self _ _ _
  refine ⟨hI.window, hI.current, ?_, fun u hu => ?_, fun u => ?_, fun u hu => ?_, hI.nodup⟩
  · by_cases h : m.running = t
    · dsimp only
      rw [h, hself]
      have := hI.live
      rw [h] at this
      exact this
    · dsimp only
      rw [Cpu.modify_of _ _ _ h]
      exact hI.live
  · by_cases h : u = t
    · subst h
      dsimp only
      rw [hself]
      exact hI.parked u hu
    · dsimp only
      rw [Cpu.modify_of _ _ _ h]
      exact hI.parked u hu
  · by_cases h : u = t
    · subst h
      dsimp only
      rw [hself]
      exact hI.tidy u
    · dsimp only
      rw [Cpu.modify_of _ _ _ h]
      exact hI.tidy u
  · by_cases h : u = t
    · subst h
      dsimp only
      rw [hself, Function.update_self, ← hI.integrity u hu]
      rfl
    · dsimp only
      rw [Cpu.modify_of _ _ _ h, Function.update_of_ne h]
      exact hI.integrity u hu

/-- **Every step keeps the invariant**, a tick in the window on behalf of a thread without a
    sticky count excepted. -/
theorem switchInv_step {e : Event} {m' : Machine} (hI : SwitchInv m) (hok : SwitchOk m e)
    (hs : step m e m') : SwitchInv m' := by
  unfold step at hs
  cases e with
  | tick tsc =>
      simp only [Machine.exec] at hs
      split_ifs at hs
      by_cases hst : (m.cpu.thread m.cpu.currentThread).stickyCount = 0
      · have hcur : m.cpu.currentThread = m.running := hI.current fun f hf hpc => by
          have hne := hok tsc rfl f hf hpc
          rw [← hI.window f hf hpc] at hne
          exact hne hst
        obtain ⟨c, next, _, he, _⟩ := tick_spec tsc hst
        rw [he] at hs
        cases hs
        exact tick_inv hI tsc hst hcur _ he
      · have he : tick m.cpu tsc = (m.cpu, none) := if_pos hst
        rw [he] at hs
        cases hs
        exact request_inv hI rfl rfl rfl (fun _ => .rfl) _
  | advance =>
      simp only [Machine.exec] at hs
      split at hs
      · next f hf =>
        split_ifs at hs with h1 h2
        · cases hs
          exact switch_inv hI hf h2 _
        · cases hs
          exact frameStep_inv hI hf h2 _
      · cases hs
  | check =>
      simp only [Machine.exec] at hs
      split at hs
      · next hrip =>
        cases hs
        exact checkStep_inv hI hrip _
      · cases hs
  | code r =>
      simp only [Machine.exec] at hs
      split_ifs at hs with h
      cases hs
      obtain ⟨h1, h2⟩ := Bool.and_eq_true_iff.mp h
      exact hI.ownOther (other_ne_frame h2) (hI.current_of (other_ne_frame h1))
        (hI.tidy m.running) (fun _ _ => .rfl) hI.nodup
  | own op =>
      simp only [Machine.exec] at hs
      split_ifs at hs with h
      obtain ⟨c, hc, rfl⟩ := Option.map_eq_some_iff.mp hs
      exact ownStep_inv hI h hc _
  | call fn ret =>
      simp only [Machine.exec] at hs
      split_ifs at hs with h
      cases hs
      obtain ⟨h1, h2⟩ := Bool.and_eq_true_iff.mp h
      have hcur := hI.current_of (other_ne_frame h1)
      refine hI.own (fun f hf hpc => ?_) (fun _ => hcur) (fun f hf => ?_) (hI.tidy m.running)
        (fun _ _ => .rfl) hI.nodup
      · rw [← Code.frame.inj hf] at hpc
        cases hpc
      · rw [← Code.frame.inj hf]
        exact ⟨h2, hcur, fun hne => absurd rfl hne⟩
  | sysExit state retVal =>
      simp only [Machine.exec] at hs
      split_ifs at hs with h
      cases hs
      have hcur := hI.current_of (other_ne_frame (Bool.and_eq_true_iff.mp h).1)
      exact hI.ownOther (fun f => by simp [Cpu.goto]) hcur (hI.tidy m.running) (fun _ _ => .rfl)
        hI.nodup
  | threadExec regs =>
      simp only [Machine.exec] at hs
      split_ifs at hs with h
      cases hs
      obtain ⟨h1, h2⟩ := Bool.and_eq_true_iff.mp h
      have hcur := hI.current_of (other_ne_frame h1)
      refine goTo_inv hI hcur (fun t ht => kept_modify m.cpu _ (hcur ▸ ht)) ?_ ?_ hI.nodup _
      · rw [hcur, Cpu.modify_self]
        exact other_ne_frame h2
      · rw [hcur, Cpu.modify_self]
        exact (hI.tidy m.running).2
  | finishKill =>
      simp only [Machine.exec] at hs
      split_ifs at hs with h
      cases hs
      have hcur := hI.current_of (other_ne_frame h)
      have hkept := kept_saveThreadState m.cpu m.cpu.currentThread
      have hret : ∀ f, ((saveThreadState m.cpu m.cpu.currentThread).thread
          m.running).killHandlerReturnState.rip ≠ .frame f :=
        ((hkept m.running).tidy (hI.tidy m.running)).2
      refine goTo_inv hI hcur (fun t ht => ?_) ?_ ?_ (by simpa using hI.nodup) _
      · rw [Cpu.modify_of _ _ _ (hcur ▸ ht)]
        exact hkept t
      · nth_rewrite 2 [hcur]
        rw [Cpu.modify_self]
        exact hret
      · nth_rewrite 2 [hcur]
        rw [Cpu.modify_self]
        exact hret
  | queueUnlock t =>
      simp only [Machine.exec] at hs
      split_ifs at hs with h
      cases hs
      exact wake_inv hI t 0 _
  | kill uid tid =>
      cases hs
      unfold threadKill
      split
      · exact request_inv hI rfl rfl rfl (fun _ => .rfl) _
      · exact flag_inv hI _ (g := fun ti => { ti with killPending := true })
          (fun _ => ⟨rfl, rfl, rfl⟩) _
  | abort uid tid =>
      cases hs
      unfold threadAbort
      split
      · exact request_inv hI rfl rfl rfl (fun _ => .rfl) _
      · exact flag_inv hI _ (g := fun ti => { ti with abortPending := true })
          (fun _ => ⟨rfl, rfl, rfl⟩) _
  | abortChild t =>
      cases hs
      exact flag_inv hI t (g := fun ti => { ti with abortPending := true })
        (fun _ => ⟨rfl, rfl, rfl⟩) _

/-- **The invariant on every run without such a tick.** -/
theorem switchInv_reach (h : Reach (Guarded step SwitchOk) Init m) : SwitchInv m :=
  h.inv (fun _ => switchInv_init) fun _ _ _ hI hs => switchInv_step hI hs.2 hs.1

end Inv

/-! ## 4. The law -/

/-- The saved context of every thread that is not executing is the one at which it stopped. -/
def Integrity (m : Machine) : Prop :=
  ∀ t, t ≠ m.running → (m.cpu.thread t).registers = m.stopped t

/-- A tick that goes past its first test stores the live registers into the thread they belong
    to. -/
def TickStoresOwn (m : Machine) : Prop :=
  (m.cpu.thread m.cpu.currentThread).stickyCount = 0 → m.cpu.currentThread = m.running

/-- **Context integrity**, in every run in which every step meets `SwitchOk`: no tick arrives
    between `LoadThreadState(next)` and `SwitchThread` while `next` has no sticky count. -/
theorem context_integrity {m : Machine} (h : Reach (Guarded step SwitchOk) Init m) :
    Integrity m ∧ ∀ tsc, SwitchOk m (.tick tsc) → TickStoresOwn m := by
  have hI := switchInv_reach h
  refine ⟨hI.integrity, fun tsc hok hst => hI.current fun f hf hpc => ?_⟩
  have hne := hok tsc rfl f hf hpc
  rw [← hI.window f hf hpc] at hne
  exact hne hst

/-! A run with two threads. -/

section Example

/-- A context at `addr`, in kernel mode with interrupts on. -/
def kernelAt (a : Nat) : Registers :=
  ⟨0x10, 0, 0, 0, 0, 0, 0, 0, 0, 0, 0, 0, 0, 0, 0, 0, 0, 0, .addr a, GDT.KernelCode, 2 ^ 9, 0, 0x10⟩

/-- A thread of id `tid` that stopped at `a`. -/
def threadAt (tid a : Nat) : ThreadInfo where
  tid := tid
  uid := 0
  killPending := false
  killHandlerRip := 0
  killHandlerRsp := 0
  killHandlerReturnState := kernelAt 0
  abortPending := false
  pml4Entry := 0
  state := .READY
  arg := 0
  kernelStack := 0
  userGSBase := 0
  userFSBase := 0
  stickyCount := 0
  cliCount := 0
  registers := kernelAt a
  fpuBuffer := none

/-- Thread 1 executes at address 100, every other thread stopped at address 200. -/
def twoThreads : Machine where
  cpu :=
    { thread := fun t => threadAt t 200, globalThreadList := [1, 2], currentThread := 1,
      currentThreadKernelStack := 0, kernelGS := 0, activeListLock := false, activeList := [2, 1],
      lastTSC := 0, live := kernelAt 100, fpu := 0, processMap := 0, gsBase := 0,
      kernelGSBase := 0, fsBase := 0 }
  running := 1
  stopped := fun _ => kernelAt 200
  due := fun _ => false

theorem twoThreads_init : Init twoThreads :=
  ⟨rfl, rfl, fun _ => rfl, fun _ => rfl, fun _ => rfl, fun _ => rfl, by decide⟩

/-- Run a list of events. -/
def Machine.run (m : Machine) (es : List Event) : Option Machine :=
  es.foldlM Machine.exec m

theorem reach_run {R : Machine → Event → Machine → Prop} {m m' : Machine} {es : List Event}
    (h : Reach R Init m) (hR : ∀ e ∈ es, ∀ m m', step m e m' → R m e m')
    (hr : m.run es = some m') : Reach R Init m' := by
  induction es generalizing m with
  | nil => cases hr; exact h
  | cons e es ih =>
      obtain ⟨m1, h1, h2⟩ := Option.bind_eq_some_iff.mp hr
      exact ih (.next m e m1 h (hR e List.mem_cons_self m m1 h1))
        (fun e he => hR e (List.mem_cons_of_mem _ he)) h2

/-- Thread 1 yields to thread 2 up to `SwitchThread`; there the timer fires. -/
def yieldThenTick : List Event :=
  [.call .yield 101, .advance, .advance, .advance, .advance, .advance, .advance, .advance, .tick 0]

/-- **The window is real**: thread 2 stopped at address 200, and its `registers` end up holding
    thread 1's context inside `ThreadYield`. -/
theorem context_lost : ¬ ∀ m, Reach step Init m → Integrity m := by
  intro hall
  obtain ⟨m, hm⟩ := Option.isSome_iff_exists.mp
    (show (twoThreads.run yieldThenTick).isSome = true by decide)
  have hval : (twoThreads.run yieldThenTick).map
      (fun m => (m.running, (m.cpu.thread 2).registers.rip, (m.stopped 2).rip)) =
      some (1, .frame ⟨.yield, .switch, 1, 2, 101⟩, .addr 200) := by decide
  rw [hm] at hval
  obtain ⟨h1, h2⟩ := Prod.mk.inj (Option.some.inj hval)
  obtain ⟨h2, h3⟩ := Prod.mk.inj h2
  have h := hall m (reach_run (.start _ twoThreads_init) (fun _ _ _ _ h => h) hm) 2 (by rw [h1]; decide)
  rw [h, h3] at h2
  cases h2

/-- A run that meets the condition: the timer fires once `SwitchThread` is done. -/
theorem context_integrity_yield : ∃ m, Reach (Guarded step SwitchOk) Init m ∧
    (m.cpu.thread 2).registers.rip = .addr 200 ∧ Integrity m := by
  let es : List Event := .call .yield 101 :: List.replicate 8 .advance
  obtain ⟨m, hm⟩ := Option.isSome_iff_exists.mp
    (show (twoThreads.run es).isSome = true by decide)
  have hrip : (twoThreads.run es).map (fun m => m.cpu.live.rip) = some (.addr 200) := by decide
  rw [hm] at hrip
  have hreach : Reach (Guarded step SwitchOk) Init m := by
    refine reach_run (.start _ twoThreads_init) (fun e he _ _ h => ⟨h, fun tsc ht => ?_⟩) hm
    subst ht
    simp [es] at he
  obtain ⟨m', hm'⟩ := Option.isSome_iff_exists.mp
    (show (twoThreads.run (es ++ [.tick 0])).isSome = true by decide)
  have hval : (twoThreads.run (es ++ [.tick 0])).map (fun m => (m.cpu.thread 2).registers.rip) =
      some (.addr 200) := by decide
  have hlast : step m (.tick 0) m' := by
    unfold step
    rw [Machine.run, List.foldlM_append, ← Machine.run, hm] at hm'
    simpa using hm'
  rw [hm'] at hval
  have hok : SwitchOk m (.tick 0) := fun _ _ f hf _ => by
    cases hf.symm.trans (Option.some.inj hrip)
  have hreach' : Reach (Guarded step SwitchOk) Init m' :=
    .next m _ m' hreach ⟨hlast, hok⟩
  exact ⟨m', hreach', Option.some.inj hval, (context_integrity hreach').1⟩

end Example

end Scheduler

end SimpleOS2
