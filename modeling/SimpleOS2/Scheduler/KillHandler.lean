/-
  File:      SimpleOS2/Scheduler/KillHandler.lean
  Subject:   THE WAY BACK FROM A KILL HANDLER (SetupKillHandlerFromTick, SetupKillHandlerFromSyscall,
             syscall_finish_kill).

  A delivered kill request stores the context that the handler interrupts in the one
  `killHandlerReturnState` of the thread. `syscall_finish_kill` goes on from there. Nothing keeps a
  second request from being delivered while the handler runs.

  * `Machine.delivers` -- the context that a step of Switch.lean's machine writes into the slot;
    `slot_step` -- nothing else writes there;
  * `HandlerSys`, `handlerStep` -- the machine, with the contexts that the handlers which have been
    started and have not ended interrupted;
  * `Resumes` -- when the last of them ends, the thread goes on where the first one interrupted it;
  * `handlers_resume`, `resume_lost` -- the law in the runs without a second delivery, and a run with
    one.
-/
import SimpleOS2.Scheduler.Kill

namespace SimpleOS2

open Lib

namespace Scheduler

/-! ## 1. Interrupted contexts -/

/-- What a handler interrupted: a thread preempted in user mode, or one that left a syscall. -/
inductive Interrupted where
  | tick (r : Registers)
  | syscall (state : SyscallState) (retVal : Nat)
  deriving DecidableEq

/-- The context as the slot stores it. -/
def Interrupted.stored : Interrupted → Registers
  | .tick r => r
  | .syscall state retVal => syscallReturnState state retVal

/-- `r` goes on where the handler interrupted: after a tick with all registers, after a syscall with
    those that a call preserves, and with its result. -/
def Interrupted.resumedBy (r : Registers) : Interrupted → Prop
  | .tick r0 => r = r0
  | .syscall state retVal =>
      r.rip = .addr state.userrip ∧ r.userrsp = state.userrsp ∧ r.rflags = state.userflags ∧
        r.rbp = state.userrbp ∧ r.rbx = state.userrbx ∧ r.r12 = state.userr12 ∧
        r.r13 = state.userr13 ∧ r.r14 = state.userr14 ∧ r.r15 = state.userr15 ∧ r.rax = retVal

theorem Interrupted.stored_resumes (i : Interrupted) : i.resumedBy i.stored := by
  cases i with
  | tick r => rfl
  | syscall state retVal => exact ⟨rfl, rfl, rfl, rfl, rfl, rfl, rfl, rfl, rfl, rfl⟩

/-- `UpdateEvents` finds a request on the thread, and a handler for it. -/
def ThreadInfo.takesKill (ti : ThreadInfo) : Prop :=
  ti.state = .READY ∧ ti.registers.kernelMode = false ∧ ti.killPending = true ∧ ti.killHandlerRip ≠ 0

instance : DecidablePred ThreadInfo.takesKill := fun _ => inferInstanceAs (Decidable (_ ∧ _ ∧ _ ∧ _))

/-- The context that this step writes into the slot of `t`. -/
def Machine.delivers (m : Machine) (e : Event) (t : Nat) : Option Interrupted :=
  match e with
  | .tick _ =>
      if (m.cpu.thread m.cpu.currentThread).stickyCount = 0 ∧ t ∈ m.cpu.activeList ∧
          (m.cpu.thread t).takesKill then
        some (.tick (m.cpu.thread t).registers)
      else none
  | .check =>
      match m.cpu.live.rip with
      | .checkFlags .setup state retVal =>
          if t = m.cpu.currentThread ∧ (m.cpu.thread t).killHandlerRip ≠ 0 then
            some (.syscall state retVal)
          else none
      | _ => none
  | _ => none

/-- The handler that this step starts on `t`. The thread that the tick interrupts starts none: its
    saved context is overwritten once `UpdateEvents` is through. -/
def Machine.starts (m : Machine) (e : Event) (t : Nat) : Option Interrupted :=
  match e with
  | .tick _ => if t = m.running then none else m.delivers e t
  | _ => m.delivers e t

/-! ## 2. Runs -/

/-- The machine and, for each thread, what the handlers that have been started and have not ended
    interrupted, the last one first. -/
structure HandlerSys where
  machine : Machine
  handlers : Nat → List Interrupted

/-- A handler is started; the running thread's last one ends with `syscall_finish_kill`. -/
def HandlerSys.record (s : HandlerSys) (e : Event) (t : Nat) : List Interrupted :=
  match e with
  | .finishKill => if t = s.machine.running then (s.handlers t).tail else s.handlers t
  | _ => (s.machine.starts e t).toList ++ s.handlers t

def HandlerSys.exec (s : HandlerSys) (e : Event) : Option HandlerSys :=
  (s.machine.exec e).map fun m => ⟨m, s.record e⟩

def handlerStep (s : HandlerSys) (e : Event) (s' : HandlerSys) : Prop := s.exec e = some s'

def handlerInit (s : HandlerSys) : Prop := Init s.machine ∧ ∀ t, s.handlers t = []

/-- **The law**: when the last handler ends, the thread goes on where the first one interrupted it. -/
def Resumes (s : HandlerSys) : Prop :=
  ∀ s' i, handlerStep s .finishKill s' → s.handlers s.machine.running = [i] →
    i.resumedBy s'.machine.cpu.live

/-- **No second delivery**: nothing is written into the slot of a thread while one of its handlers
    runs. With it Switch.lean's condition, by which the CPU executes the thread it takes for the
    current one. -/
def HandlerOk (s : HandlerSys) (e : Event) : Prop :=
  SwitchOk s.machine e ∧ ∀ t, s.machine.delivers e t ≠ none → s.handlers t = []

/-! ## 3. The slot -/

/-- The slot of `t` after a delivery, or without one. -/
def slotAfter (o : Option Interrupted) (ti : ThreadInfo) : Registers :=
  match o with
  | some i => i.stored
  | none => ti.killHandlerReturnState

section Slot

variable {m : Machine}

theorem setup_slot (ti : ThreadInfo) : (setupKillHandlerFromTick ti).killHandlerReturnState =
    if ti.killHandlerRip ≠ 0 then ti.registers else ti.killHandlerReturnState := by
  unfold setupKillHandlerFromTick
  split_ifs <;> rfl

theorem deliver_slot (ti : ThreadInfo) (hr : ti.state = .READY) :
    (deliver ti).killHandlerReturnState =
      if ti.takesKill then ti.registers else ti.killHandlerReturnState := by
  -- an abort leaves the slot alone
  have habort : ∀ (b : Bool) (ti : ThreadInfo), (if (b && ti.abortPending) = true then
      { ti with abortPending := false, registers := exitRegisters ti } else ti).killHandlerReturnState =
      ti.killHandlerReturnState := fun b ti => by split_ifs <;> rfl
  unfold deliver
  dsimp only
  rw [habort]
  by_cases hk : (!ti.registers.kernelMode && ti.killPending) = true
  · obtain ⟨h1, h2⟩ := Bool.and_eq_true_iff.mp hk
    rw [if_pos hk, setup_slot]
    by_cases hh : ti.killHandlerRip ≠ 0
    · have htakes : ti.takesKill := ⟨hr, by simpa using h1, h2, hh⟩
      rw [if_pos hh, if_pos htakes]
    · have htakes : ¬ ti.takesKill := fun h => hh h.2.2.2
      rw [if_neg hh, if_neg htakes]
  · have htakes : ¬ ti.takesKill := fun h => hk (by rw [h.2.1, h.2.2.1]; rfl)
    rw [if_neg hk, if_neg htakes]

theorem updateThread_slot (thread : Nat → ThreadInfo) (dur : Nat) (ti : ThreadInfo) :
    (updateThread thread dur ti).killHandlerReturnState =
      if ti.takesKill then ti.registers else ti.killHandlerReturnState := by
  unfold updateThread
  by_cases hr : ti.state = .READY
  · rw [if_pos hr]
    exact deliver_slot ti hr
  · rw [if_neg hr, if_neg fun h : ti.takesKill => hr h.1]
    split_ifs <;> rfl

/-- A pass of `UpdateEvents` writes the slots of the threads it finds a request on. -/
theorem updateList_slot {dur : Nat} {l : List Nat} (hnd : l.Nodup) (thread : Nat → ThreadInfo) (t : Nat) :
    ((updateList dur l thread).1 t).killHandlerReturnState =
      if t ∈ l ∧ (thread t).takesKill then (thread t).registers else (thread t).killHandlerReturnState := by
  induction l generalizing thread with
  | nil => rw [if_neg fun h => List.not_mem_nil h.1]; rfl
  | cons a rest ih =>
      obtain ⟨har, hnd⟩ := List.nodup_cons.mp hnd
      by_cases hta : t = a
      · subst hta
        have hidle : ∀ {s}, (thread t).state = s → s ≠ .READY → ¬ (thread t).takesKill :=
          fun h hne hk => hne (h.symm.trans hk.1)
        have hmem : (t ∈ t :: rest ∧ (thread t).takesKill) ↔ (thread t).takesKill := by simp
        simp only [hmem]
        unfold updateList
        split
        · next h1 =>
            rw [updateList_not_mem har, if_neg (hidle h1 (by decide))]
        · split
          · next h2 =>
              rw [updateList_not_mem har, Function.update_self, if_neg (hidle h2 (by decide))]
          · show ((updateList dur rest _).1 t).killHandlerReturnState = _
            rw [updateList_not_mem har, Function.update_self, updateThread_slot]
      · have hmem : t ∈ a :: rest ↔ t ∈ rest := by simp [hta]
        have hother : ∀ f : ThreadInfo, Function.update thread a f t = thread t := fun f =>
          Function.update_of_ne hta f thread
        have hrest := fun thread' => ih hnd thread'
        simp only [hmem]
        unfold updateList
        split
        · exact hrest thread
        · split
          · have h := hrest (Function.update thread a { thread a with state := .EXITED })
            rwa [hother] at h
          · have h := hrest (Function.update thread a (updateThread thread dur (thread a)))
            rwa [hother] at h

/-- The slots are what they were. -/
def SameSlots (c c' : Cpu) : Prop :=
  ∀ t, (c'.thread t).killHandlerReturnState = (c.thread t).killHandlerReturnState

theorem SameSlots.refl (c : Cpu) : SameSlots c c := fun _ => rfl

theorem slots_write (c c' : Cpu) {t : Nat} (g : ThreadInfo → ThreadInfo)
    (hth : c'.thread = Function.update c.thread t (g (c.thread t)))
    (hg : (g (c.thread t)).killHandlerReturnState = (c.thread t).killHandlerReturnState) :
    SameSlots c c' := by
  intro u
  rw [hth]
  by_cases h : u = t
  · subst h
    rw [Function.update_self]
    exact hg
  · rw [Function.update_of_ne h]

theorem slots_save (c : Cpu) (t : Nat) : SameSlots c (saveThreadState c t) := by
  intro u
  obtain ⟨b, hb⟩ := saveThreadState_thread c t u
  rw [hb]

theorem slots_frameStep (c : Cpu) (f : Frame) : SameSlots c (frameStep c f) := by
  unfold frameStep
  cases f.pc with
  | setSticky => exact slots_write _ _ (fun ti => { ti with stickyCount := ti.stickyCount + 1 }) rfl rfl
  | setState =>
      cases f.fn with
      | block type arg => exact slots_write _ _ (fun ti => { ti with state := type, arg := arg }) rfl rfl
      | yield => exact .refl c
  | lock => exact slots_write _ _ (fun ti => { ti with cliCount := ti.cliCount + 1 }) rfl rfl
  | choose =>
      intro t
      show ((findNextThread c).1.thread t).killHandlerReturnState = _
      rw [findNextThread_thread]
  | unlock =>
      obtain ⟨he, -⟩ := threadEnableInterrupts_eq { c with activeListLock := false }
      refine slots_write (t := c.currentThread) _ _ (fun ti => { ti with cliCount := ti.cliCount - 1 }) ?_ rfl
      dsimp only [Cpu.goto, Cpu.setLive_thread]
      rw [he]
      rfl
  | compare => exact .refl c
  | save => exact slots_save c f.tInfo
  | load => exact .refl c
  | switch =>
      exact slots_write _ _ (fun ti => { ti with
        registers := switchSaved ti.registers c.live (.frame { f with pc := .unset }) }) rfl rfl
  | unset => exact slots_write _ _ (fun ti => { ti with stickyCount := ti.stickyCount - 1 }) rfl rfl

/-- `ThreadCheckFlags` writes the slot of the current thread, before it goes to its handler. -/
theorem checkStep_slot {pc : CheckPc} {state : SyscallState} {retVal : Nat}
    (hrip : m.cpu.live.rip = .checkFlags pc state retVal) (t : Nat) :
    ((checkStep m.cpu pc state retVal).thread t).killHandlerReturnState =
      slotAfter (m.delivers .check t) (m.cpu.thread t) := by
  unfold checkStep Machine.delivers
  rw [hrip]
  cases pc with
  | kill =>
      dsimp only
      split_ifs
      · exact slots_write m.cpu _ (fun ti => { ti with killPending := false }) rfl rfl t
      · rfl
  | setup =>
      dsimp only
      by_cases hh : (m.cpu.thread m.cpu.currentThread).killHandlerRip ≠ 0
      · rw [if_pos hh]
        dsimp only [Cpu.goto, Cpu.setLive_thread]
        by_cases ht : t = m.cpu.currentThread
        · subst ht
          rw [if_pos ⟨rfl, hh⟩, Cpu.modify_self]
          rfl
        · have hno : ¬ (t = m.cpu.currentThread ∧ (m.cpu.thread t).killHandlerRip ≠ 0) := fun h => ht h.1
          rw [if_neg hno, Cpu.modify_of _ _ _ ht]
          rfl
      · have hno : ¬ (t = m.cpu.currentThread ∧ (m.cpu.thread t).killHandlerRip ≠ 0) := fun h =>
          hh (h.1 ▸ h.2)
        rw [if_neg hh, if_neg hno]
        rfl
  | abort =>
      dsimp only
      split_ifs <;> rfl
  | sysret => rfl

/-- `Tick` writes the slots that `UpdateEvents` writes. -/
theorem tick_slot (hnd : m.cpu.activeList.Nodup) (tsc t : Nat) :
    ((tick m.cpu tsc).1.thread t).killHandlerReturnState =
      slotAfter (m.delivers (.tick tsc) t) (m.cpu.thread t) := by
  unfold Machine.delivers
  by_cases hst : (m.cpu.thread m.cpu.currentThread).stickyCount = 0
  · obtain ⟨c', next, b, he, -, -, hown, hoth, -⟩ := tick_spec tsc hst
    have hpass := @updateList_slot (u64 (tsc + 2 ^ 64 - m.cpu.lastTSC)) _ hnd m.cpu.thread t
    have htick : (c'.thread t).killHandlerReturnState =
        ((updateEvents m.cpu tsc).thread t).killHandlerReturnState := by
      by_cases ht : t = m.cpu.currentThread
      · rw [ht, hown]
      · rw [hoth t ht]
    rw [he]
    dsimp only
    rw [htick]
    refine hpass.trans ?_
    by_cases hd : t ∈ m.cpu.activeList ∧ (m.cpu.thread t).takesKill
    · rw [if_pos hd, if_pos ⟨hst, hd⟩]
      rfl
    · rw [if_neg hd, if_neg fun h => hd h.2]
      rfl
  · have he : tick m.cpu tsc = (m.cpu, none) := if_pos hst
    rw [he, if_neg fun h => hst h.1]
    rfl

/-- **One step writes the slots it delivers to**, and no other. -/
theorem slot_step {m' : Machine} {e : Event} (hnd : m.cpu.activeList.Nodup) (hs : step m e m') (t : Nat) :
    (m'.cpu.thread t).killHandlerReturnState = slotAfter (m.delivers e t) (m.cpu.thread t) := by
  unfold step at hs
  cases e with
  | tick tsc =>
      simp only [Machine.exec] at hs
      split_ifs at hs
      split at hs <;> cases hs <;> exact tick_slot hnd tsc t
  | advance =>
      simp only [Machine.exec] at hs
      split at hs
      · split_ifs at hs <;> cases hs <;> exact slots_frameStep m.cpu _ t
      · cases hs
  | check =>
      simp only [Machine.exec] at hs
      split at hs
      · next hrip =>
          cases hs
          exact checkStep_slot hrip t
      · cases hs
  | code r =>
      simp only [Machine.exec] at hs
      split_ifs at hs
      cases hs
      rfl
  | own op =>
      simp only [Machine.exec] at hs
      split_ifs at hs
      obtain ⟨c, hc, rfl⟩ := Option.map_eq_some_iff.mp hs
      obtain ⟨g, r, hg, -, rfl⟩ := ownStep_eq hc
      exact slots_write m.cpu _ g rfl (hg _).2.1 t
  | call fn ret =>
      simp only [Machine.exec] at hs
      split_ifs at hs
      cases hs
      rfl
  | sysExit state retVal =>
      simp only [Machine.exec] at hs
      split_ifs at hs
      cases hs
      rfl
  | threadExec regs =>
      simp only [Machine.exec] at hs
      split_ifs at hs
      cases hs
      exact slots_write m.cpu _ (fun ti => { ti with
        cliCount := 0, stickyCount := 0, registers := { regs with rflags := 2 ^ 9 } }) rfl rfl t
  | finishKill =>
      simp only [Machine.exec] at hs
      split_ifs at hs
      cases hs
      refine (slots_write (saveThreadState m.cpu m.cpu.currentThread) _
        (fun ti => { ti with registers := ti.killHandlerReturnState }) rfl rfl t).trans ?_
      exact slots_save m.cpu _ t
  | queueUnlock u =>
      simp only [Machine.exec] at hs
      split_ifs at hs
      cases hs
      exact slots_write m.cpu _ (fun ti => wake ti 0) rfl rfl t
  | kill uid tid =>
      cases hs
      show ((threadKill m.cpu uid tid).2.thread t).killHandlerReturnState = _
      unfold threadKill
      split
      · rfl
      · exact slots_write m.cpu _ (fun ti => { ti with killPending := true }) rfl rfl t
  | abort uid tid =>
      cases hs
      show ((threadAbort m.cpu uid tid).2.thread t).killHandlerReturnState = _
      unfold threadAbort
      split
      · rfl
      · exact slots_write m.cpu _ (fun ti => { ti with abortPending := true }) rfl rfl t
  | abortChild u =>
      cases hs
      exact slots_write m.cpu _ (fun ti => { ti with abortPending := true }) rfl rfl t

end Slot

/-! ## 4. The invariant -/

/-- At most one handler of a thread runs, and the slot is its way back. -/
def HandlerInv (s : HandlerSys) : Prop :=
  SwitchInv s.machine ∧ ∀ t, s.handlers t = [] ∨
    ∃ i, s.handlers t = [i] ∧ (s.machine.cpu.thread t).killHandlerReturnState = i.stored

section Inv

variable {s : HandlerSys} {e : Event}

theorem handlerInv_init (h : handlerInit s) : HandlerInv s := ⟨switchInv_init h.1, fun t => Or.inl (h.2 t)⟩

theorem record_of (h : e ≠ .finishKill) (t : Nat) :
    s.record e t = (s.machine.starts e t).toList ++ s.handlers t := by
  cases e with
  | finishKill => exact absurd rfl h
  | _ => rfl

/-- A handler that is started has the slot. -/
theorem starts_delivers (m : Machine) (e : Event) (t : Nat) :
    m.starts e t = m.delivers e t ∨ m.starts e t = none := by
  cases e with
  | tick tsc =>
      unfold Machine.starts
      dsimp only
      split_ifs
      · exact Or.inr rfl
      · exact Or.inl rfl
  | _ => exact Or.inl rfl

theorem handlerInv_step {s' : HandlerSys} (hI : HandlerInv s)
    (hs : Guarded handlerStep HandlerOk s e s') : HandlerInv s' := by
  obtain ⟨hs, hsw, hone⟩ := hs
  obtain ⟨m', hm, rfl⟩ := Option.map_eq_some_iff.mp hs
  refine ⟨switchInv_step hI.1 hsw hm, fun t => ?_⟩
  have hslot := slot_step hI.1.nodup hm t
  show s.record e t = [] ∨ ∃ i, s.record e t = [i] ∧ (m'.cpu.thread t).killHandlerReturnState = i.stored
  rcases hd : s.machine.delivers e t with _ | i
  · -- the slot of `t` stays, and so does its handler unless it ends
    rw [hd] at hslot
    have hkeep : s.record e t = s.handlers t ∨ s.record e t = (s.handlers t).tail := by
      by_cases he : e = .finishKill
      · subst he
        by_cases ht : t = s.machine.running
        · exact Or.inr (if_pos ht)
        · exact Or.inl (if_neg ht)
      · have hnone : s.machine.starts e t = none := by
          rcases starts_delivers s.machine e t with h | h
          · exact h.trans hd
          · exact h
        rw [record_of he, hnone]
        exact Or.inl rfl
    rcases hI.2 t with h0 | ⟨i, h1, h2⟩
    · rw [h0] at hkeep
      exact Or.inl (hkeep.elim id id)
    · rcases hkeep with hk | hk
      · exact Or.inr ⟨i, hk.trans h1, hslot.trans h2⟩
      · rw [h1] at hk
        exact Or.inl hk
  · -- the slot is new, and no handler of `t` runs
    rw [hd] at hslot
    have he : e ≠ .finishKill := by
      rintro rfl
      cases hd
    have h0 := hone t (by rw [hd]; simp)
    rw [record_of he, h0]
    rcases starts_delivers s.machine e t with h | h
    · rw [h, hd]
      exact Or.inr ⟨i, rfl, hslot⟩
    · rw [h]
      exact Or.inl rfl

theorem handlerInv_reach (h : Reach (Guarded handlerStep HandlerOk) handlerInit s) : HandlerInv s :=
  Reach.inv (I := HandlerInv) (fun _ h0 => handlerInv_init h0) (fun _ _ _ hI hs => handlerInv_step hI hs) h

/-- `syscall_finish_kill` goes on in the context of the slot. -/
theorem finishKill_live {m m' : Machine} (hI : SwitchInv m) (hs : step m .finishKill m') :
    m'.cpu.live = (m.cpu.thread m.running).killHandlerReturnState := by
  simp only [step, Machine.exec] at hs
  split_ifs at hs with h
  cases hs
  have hcur := hI.current_of (other_ne_frame h)
  show (Function.update (saveThreadState m.cpu m.cpu.currentThread).thread m.cpu.currentThread _
    m.cpu.currentThread).registers = _
  rw [Function.update_self]
  exact (slots_save m.cpu _ _).trans (by rw [hcur])

theorem HandlerInv.resumes (hI : HandlerInv s) : Resumes s := by
  intro s' i hs hone
  obtain ⟨m', hm, rfl⟩ := Option.map_eq_some_iff.mp hs
  rcases hI.2 s.machine.running with h0 | ⟨j, hj, hslot⟩
  · rw [h0] at hone
    cases hone
  · rw [hj] at hone
    obtain rfl : j = i := (List.cons.inj hone).1
    have hlive : m'.cpu.live = j.stored := (finishKill_live hI.1 hm).trans hslot
    show j.resumedBy m'.cpu.live
    rw [hlive]
    exact j.stored_resumes

end Inv

/-! ## 5. Whole runs -/

/-- **A thread goes on where its first handler interrupted it**, in every run without a second delivery
    to a thread whose handler runs. -/
theorem handlers_resume {s : HandlerSys} (h : Reach (Guarded handlerStep HandlerOk) handlerInit s) :
    Resumes s :=
  (handlerInv_reach h).resumes

section Example

/-- Two threads in user mode as in Kill.lean, both with a kill handler at address 500. -/
def twoHandlers : HandlerSys where
  machine :=
    { twoUsers with cpu := { twoUsers.cpu with
        thread := fun t => { twoUsers.cpu.thread t with killHandlerRip := 500, killHandlerRsp := 600 } } }
  handlers := fun _ => []

theorem twoHandlers_init : handlerInit twoHandlers :=
  ⟨⟨rfl, rfl, fun _ => rfl, fun _ => rfl, fun _ => rfl, fun _ => rfl, by decide⟩, fun _ => rfl⟩

def HandlerSys.run (s : HandlerSys) (es : List Event) : Option HandlerSys := es.foldlM HandlerSys.exec s

/-- Thread 2, preempted at address 200, is killed, and the next tick starts its handler. -/
def killPreempted : List Event := [.kill 0 2, .tick 0]

/-- The handler makes a syscall and is killed there: on the way out a second one starts, which ends. -/
def killInHandler : List Event :=
  [.code (kernelAt 300), .kill 0 2, .sysExit ⟨510, 590, 0, 0, 0, 0, 0, 0, 0⟩ 0, .check, .check, .check, .check,
    .finishKill]

/-- **The way back is lost**: when the first handler ends too, thread 2 goes on inside that handler, at
    address 510, and not at 200. -/
theorem resume_lost : ¬ ∀ s, Reach handlerStep handlerInit s → Resumes s := by
  intro hall
  obtain ⟨s, hs⟩ := Option.isSome_iff_exists.mp
    (show (twoHandlers.run (killPreempted ++ killInHandler)).isSome = true by decide)
  have hval : (twoHandlers.run (killPreempted ++ killInHandler)).map
      (fun s => (s.machine.running, s.handlers 2)) = some (2, [.tick (userAt 200)]) := by decide
  have hnext : ((twoHandlers.run (killPreempted ++ killInHandler)).bind fun s => s.exec .finishKill).map
      (fun s => s.machine.cpu.live.rip) = some (.addr 510) := by decide
  rw [hs] at hval hnext
  obtain ⟨hrun, hhandlers⟩ := Prod.mk.inj (Option.some.inj hval)
  obtain ⟨s', hs', hrip⟩ := Option.map_eq_some_iff.mp hnext
  have hreach : Reach handlerStep handlerInit s :=
    Reach.foldlM (.start _ twoHandlers_init) (fun _ _ _ _ h => h) hs
  have hlive : s'.machine.cpu.live = userAt 200 :=
    hall s hreach s' (.tick (userAt 200)) hs' (by rw [hrun]; exact hhandlers)
  rw [hlive] at hrip
  cases hrip

/-- A run with one delivery: thread 2 is killed while it is preempted, and its handler runs. -/
theorem handlers_resume_preempted : ∃ s, Reach (Guarded handlerStep HandlerOk) handlerInit s ∧
    s.handlers 2 = [.tick (userAt 200)] ∧ Resumes s := by
  obtain ⟨s1, h1⟩ := Option.isSome_iff_exists.mp (show (twoHandlers.exec (.kill 0 2)).isSome = true by decide)
  obtain ⟨s2, h2⟩ := Option.isSome_iff_exists.mp (show (twoHandlers.run killPreempted).isSome = true by decide)
  have hrip : (twoHandlers.exec (.kill 0 2)).map (fun s => s.machine.cpu.live.rip) = some (.addr 100) := by decide
  have hval : (twoHandlers.run killPreempted).map (fun s => s.handlers 2) = some [.tick (userAt 200)] := by
    decide
  have hnext : s1.exec (.tick 0) = some s2 := by
    have hrun : twoHandlers.run killPreempted = (twoHandlers.exec (.kill 0 2)).bind fun s => s.exec (.tick 0) := by
      simp [HandlerSys.run, killPreempted]
    rw [← h2, hrun, h1]
    rfl
  rw [h1] at hrip
  rw [h2] at hval
  -- no handler runs before the tick
  have hnone : ∀ t, s1.handlers t = [] := fun t => by
    obtain ⟨m, -, rfl⟩ := Option.map_eq_some_iff.mp h1
    rfl
  have hkill : HandlerOk twoHandlers (.kill 0 2) := ⟨fun _ h => (by cases h), fun _ _ => rfl⟩
  have htick : HandlerOk s1 (.tick 0) := by
    refine ⟨fun _ _ f hf _ => ?_, fun t _ => hnone t⟩
    cases hf.symm.trans (Option.some.inj hrip)
  have hreach0 : Reach (Guarded handlerStep HandlerOk) handlerInit twoHandlers := .start _ twoHandlers_init
  have hreach1 := Reach.next _ _ _ hreach0 ⟨h1, hkill⟩
  have hreach := Reach.next _ _ _ hreach1 ⟨hnext, htick⟩
  exact ⟨s2, hreach, Option.some.inj hval, handlers_resume hreach⟩

end Example

end Scheduler

end SimpleOS2
