/-
  File:      SimpleOS2/Scheduler/Sleep.lean
  Subject:   HOW LONG A THREAD SLEEPS (ThreadSleep, Tick, UpdateEvents).

  `ThreadSleep(ms)` blocks with `ms * ticksPerMilli` in `state.arg`, and each pass of `UpdateEvents`
  takes off what went by since the pass before it. So the time since the LAST PASS counts as slept.

  * `sleepStep`, `SleepStart` -- a CPU from the block on: ticks at a TSC that grows, and any other step
    that leaves the sleeping thread, its place in the active list and `lastTSC` alone;
  * `sleepStep_exec` -- the machine of Scheduler.Switch takes such steps;
  * `Countdown`, `countdown_reach` -- what is left and the time of the last pass add up to a constant;
  * `tick_wakes_iff` -- when a tick wakes the thread; `sleep_lasts`, `sleep_short` -- so it sleeps as
    long as asked unless a pass comes in the time between, and a run in which one does.
-/
import SimpleOS2.Scheduler.Switch

namespace SimpleOS2

open Lib

namespace Scheduler

/-! ## 1. The run of a sleeping thread -/

/-- `ThreadSleep(ms)`: `ThreadBlock(ThreadState::SLEEP, ms * Time::GetTSCTicksPerMilli())`. -/
def threadSleep (ms ticksPerMilli : Nat) : Fn := .block .SLEEP (u64 (ms * ticksPerMilli))

inductive SleepEvent where
  | tick (tsc : Nat)
  | other

/-- No request is pending at `t`, and a pass will visit it once. -/
structure Undisturbed (t : Nat) (c : Cpu) : Prop where
  kill : (c.thread t).killPending = false
  abort : (c.thread t).abortPending = false
  mem : t ∈ c.activeList
  nodup : c.activeList.Nodup

/-- The steps of the CPU while `t` sleeps, and those of other CPUs. -/
inductive sleepStep (t : Nat) : Cpu → SleepEvent → Cpu → Prop where
  | tick (c : Cpu) (tsc : Nat) (hle : c.lastTSC ≤ tsc) (hlt : tsc < 2 ^ 64) :
      sleepStep t c (.tick tsc) (tick c tsc).1
  | other (c c' : Cpu) (hlast : c'.lastTSC = c.lastTSC) (hstate : (c'.thread t).state = (c.thread t).state)
      (harg : (c'.thread t).arg = (c.thread t).arg) (hu : Undisturbed t c') : sleepStep t c .other c'

/-- `t` has just blocked in `ThreadSleep(ms)`, the last pass was at `lastTSC`. -/
def SleepStart (t ms ticksPerMilli lastTSC : Nat) (c : Cpu) : Prop :=
  ∃ c0 f, c = frameStep c0 f ∧ f.fn = threadSleep ms ticksPerMilli ∧ f.pc = .setState ∧ f.tInfo = t ∧
    c0.lastTSC = lastTSC ∧ lastTSC < 2 ^ 64 ∧ Undisturbed t c0

section Pass

variable {c : Cpu} {t tsc dur : Nat} {thread : Nat → ThreadInfo}

/-! ## 2. One tick -/

/-- A pass visits each thread of the list with the body of its loop. -/
theorem updateList_visits {l : List Nat} (hnd : l.Nodup) (ht : t ∈ l) (h1 : (thread t).state ≠ .EXITED)
    (h2 : (thread t).state ≠ .FINISHED) :
    (∃ thread', (updateList dur l thread).1 t = updateThread thread' dur (thread t)) ∧
      t ∈ (updateList dur l thread).2 := by
  induction l generalizing thread with
  | nil => cases ht
  | cons a rest ih =>
      obtain ⟨har, hnd⟩ := List.nodup_cons.mp hnd
      by_cases hta : t = a
      · subst hta
        unfold updateList
        rw [if_neg h1, if_neg h2]
        refine ⟨⟨thread, ?_⟩, List.mem_cons_self⟩
        show (updateList dur rest _).1 t = _
        rw [updateList_not_mem har, Function.update_self]
      · have htr := (List.mem_cons.mp ht).resolve_left hta
        have hother : ∀ f : ThreadInfo, Function.update thread a f t = thread t := fun f =>
          Function.update_of_ne hta f thread
        unfold updateList
        split_ifs
        · have := ih hnd htr h1 h2
          exact ⟨this.1, List.mem_cons_of_mem _ this.2⟩
        · have hf := hother { thread a with state := .EXITED }
          have := ih hnd htr (hf ▸ h1) (hf ▸ h2)
          rw [hf] at this
          exact this
        · have hf := hother (updateThread thread dur (thread a))
          have := ih hnd htr (hf ▸ h1) (hf ▸ h2)
          rw [hf] at this
          exact ⟨this.1, List.mem_cons_of_mem _ this.2⟩

/-- A sleeping thread without a request is woken, or what is left of its time shrinks. -/
theorem updateThread_sleep {ti : ThreadInfo} (hs : ti.state = .SLEEP) (hk : ti.killPending = false)
    (ha : ti.abortPending = false) :
    updateThread thread dur ti =
      if ti.arg ≤ dur then wake ti (asU64 OK) else { ti with arg := ti.arg - dur } := by
  unfold updateThread
  rw [hs, hk, ha]
  rfl

theorem findNextThread_mem : t ∈ (findNextThread c).1.activeList ↔ t ∈ c.activeList := by
  unfold findNextThread
  split
  · rename_i u hu
    have hmem : u ∈ c.activeList := List.mem_of_find?_eq_some hu
    show t ∈ c.activeList.erase u ++ [u] ↔ _
    exact (List.perm_append_singleton u _).mem_iff.trans (List.perm_cons_erase hmem).symm.mem_iff
  · exact Iff.rfl

/-- The state a tick leaves behind, where it passes its first test. -/
structure Ticked (c : Cpu) (tsc : Nat) (c' : Cpu) : Prop where
  lastTSC : c'.lastTSC = tsc
  state : ∀ t, (c'.thread t).state = ((updateEvents c tsc).thread t).state
  arg : ∀ t, (c'.thread t).arg = ((updateEvents c tsc).thread t).arg
  kill : ∀ t, (c'.thread t).killPending = ((updateEvents c tsc).thread t).killPending
  abort : ∀ t, (c'.thread t).abortPending = ((updateEvents c tsc).thread t).abortPending
  mem : ∀ t, t ∈ c'.activeList ↔ t ∈ (updateEvents c tsc).activeList
  nodup : c.activeList.Nodup → c'.activeList.Nodup

@[simp] theorem saveThreadState_lastTSC : (saveThreadState c t).lastTSC = c.lastTSC := by
  unfold saveThreadState
  split_ifs <;> rfl

theorem tick_ticked (h : (c.thread c.currentThread).stickyCount = 0) (tsc : Nat) :
    Ticked c tsc (tick c tsc).1 := by
  obtain ⟨c', next, b, he, -, -, hown, hoth, hnd⟩ := tick_spec tsc h
  have hc' : (tick c tsc).1 = c' := congrArg Prod.fst he
  have hfields : ∀ t, ∃ r b, c'.thread t =
      { (updateEvents c tsc).thread t with registers := r, fpuBuffer := b } := fun t => by
    by_cases ht : t = c.currentThread
    · exact ⟨_, b, ht ▸ hown⟩
    · exact ⟨_, _, hoth t ht⟩
  have htick : (tick c tsc).1 = loadThreadStateAndRegs (saveThreadStateAndRegs
      (findNextThread (updateEvents c tsc)).1 (findNextThread (updateEvents c tsc)).1.currentThread)
      (findNextThread (updateEvents c tsc)).2 := by
    unfold tick
    rw [if_neg (fun hne => hne h)]
  refine ⟨?_, fun t => ?_, fun t => ?_, fun t => ?_, fun t => ?_, fun t => ?_, hc' ▸ hnd⟩
  · rw [htick]
    show (saveThreadStateAndRegs _ _).lastTSC = tsc
    unfold saveThreadStateAndRegs
    rw [saveThreadState_lastTSC, (findNextThread_spec (updateEvents c tsc)).1]
    rfl
  · obtain ⟨r, b, hf⟩ := hfields t
    rw [hc', hf]
  · obtain ⟨r, b, hf⟩ := hfields t
    rw [hc', hf]
  · obtain ⟨r, b, hf⟩ := hfields t
    rw [hc', hf]
  · obtain ⟨r, b, hf⟩ := hfields t
    rw [hc', hf]
  · rw [htick]
    show t ∈ (saveThreadStateAndRegs _ _).activeList ↔ _
    unfold saveThreadStateAndRegs
    rw [saveThreadState_list, Cpu.modify_list]
    exact findNextThread_mem

/-- What went by between two passes. -/
theorem dur_eq {now last : Nat} (hle : last ≤ now) (hlt : now < 2 ^ 64) : u64 (now + 2 ^ 64 - last) = now - last := by
  rw [Nat.add_comm, Nat.add_sub_assoc hle]
  unfold u64
  omega

/-- **A pass over a sleeping thread** without a request. -/
theorem updateEvents_sleep (hu : Undisturbed t c) (hs : (c.thread t).state = .SLEEP) (hle : c.lastTSC ≤ tsc)
    (hlt : tsc < 2 ^ 64) :
    (updateEvents c tsc).thread t =
        (if (c.thread t).arg ≤ tsc - c.lastTSC then wake (c.thread t) (asU64 OK)
        else { c.thread t with arg := (c.thread t).arg - (tsc - c.lastTSC) }) ∧
      t ∈ (updateEvents c tsc).activeList := by
  have h1 : (c.thread t).state ≠ .EXITED := by rw [hs]; decide
  have h2 : (c.thread t).state ≠ .FINISHED := by rw [hs]; decide
  obtain ⟨⟨thread', hvisit⟩, hmem⟩ := updateList_visits hu.nodup hu.mem h1 h2
  refine ⟨?_, hmem⟩
  rw [← dur_eq hle hlt, ← updateThread_sleep hs hu.kill hu.abort]
  exact hvisit

/-! ## 3. The other steps of the machine -/

/-- What a step leaves alone of a thread that sleeps. -/
structure Leaves (t : Nat) (c c' : Cpu) : Prop where
  lastTSC : c'.lastTSC = c.lastTSC
  state : (c'.thread t).state = (c.thread t).state
  arg : (c'.thread t).arg = (c.thread t).arg
  kill : (c'.thread t).killPending = (c.thread t).killPending
  abort : (c'.thread t).abortPending = (c.thread t).abortPending
  mem : t ∈ c'.activeList ↔ t ∈ c.activeList
  nodup : c.activeList.Nodup → c'.activeList.Nodup

theorem Leaves.rfl : Leaves t c c := ⟨Eq.refl _, Eq.refl _, Eq.refl _, Eq.refl _, Eq.refl _, Iff.rfl, id⟩

theorem Leaves.trans {c' c'' : Cpu} (h : Leaves t c c') (h' : Leaves t c' c'') : Leaves t c c'' :=
  ⟨h'.lastTSC.trans h.lastTSC, h'.state.trans h.state, h'.arg.trans h.arg, h'.kill.trans h.kill,
    h'.abort.trans h.abort, h'.mem.trans h.mem, h'.nodup ∘ h.nodup⟩

/-- A write to one thread that keeps what it sleeps with, or is to another thread. -/
theorem leaves_modify (u : Nat) (f : ThreadInfo → ThreadInfo)
    (h : u = t → (f (c.thread t)).state = (c.thread t).state ∧ (f (c.thread t)).arg = (c.thread t).arg ∧
      (f (c.thread t)).killPending = (c.thread t).killPending ∧
      (f (c.thread t)).abortPending = (c.thread t).abortPending) : Leaves t c (c.modify u f) := by
  by_cases hu : u = t
  · obtain ⟨h1, h2, h3, h4⟩ := h hu
    subst hu
    refine ⟨Eq.refl _, ?_, ?_, ?_, ?_, Iff.rfl, id⟩ <;> rw [Cpu.modify_self] <;> assumption
  · have hsame := Cpu.modify_of c u f (Ne.symm hu)
    refine ⟨Eq.refl _, ?_, ?_, ?_, ?_, Iff.rfl, id⟩ <;> rw [hsame]

theorem leaves_saveThreadState (u : Nat) : Leaves t c (saveThreadState c u) := by
  unfold saveThreadState
  split_ifs
  · exact leaves_modify u _ fun _ => ⟨Eq.refl _, Eq.refl _, Eq.refl _, Eq.refl _⟩
  · exact .rfl

theorem leaves_findNextThread : Leaves t c (findNextThread c).1 := by
  obtain ⟨he, hnd⟩ := findNextThread_spec c
  refine ⟨?_, ?_, ?_, ?_, ?_, findNextThread_mem, hnd⟩ <;> rw [he]

/-- The fields beside those that `Leaves` compares are free. -/
theorem Leaves.others {c' : Cpu} (h : Leaves t c c') {d : Cpu} (h1 : d.lastTSC = c'.lastTSC) (h2 : d.thread = c'.thread)
    (h3 : d.activeList = c'.activeList) : Leaves t c d := by
  refine ⟨h1.trans h.lastTSC, ?_, ?_, ?_, ?_, ?_, ?_⟩
  · rw [h2, h.state]
  · rw [h2, h.arg]
  · rw [h2, h.kill]
  · rw [h2, h.abort]
  · rw [h3, h.mem]
  · rw [h3]
    exact h.nodup

theorem leaves_goto {c' : Cpu} (h : Leaves t c c') (code : Code) : Leaves t c (c'.goto code) :=
  h.others (Eq.refl _) (Eq.refl _) (Eq.refl _)

/-- Sticky counts and `cliCount`. -/
theorem leaves_counts (u : Nat) (sticky cli : ThreadInfo → Nat) :
    Leaves t c (c.modify u fun ti => { ti with stickyCount := sticky ti, cliCount := cli ti }) :=
  leaves_modify u _ fun _ => ⟨Eq.refl _, Eq.refl _, Eq.refl _, Eq.refl _⟩

theorem leaves_setSticky : Leaves t c (threadSetSticky c) :=
  leaves_counts c.currentThread (fun ti => ti.stickyCount + 1) fun ti => ti.cliCount

theorem leaves_unsetSticky : Leaves t c (threadUnsetSticky c) :=
  leaves_counts c.currentThread (fun ti => ti.stickyCount - 1) fun ti => ti.cliCount

theorem leaves_disableInterrupts : Leaves t c (threadDisableInterrupts c) :=
  (leaves_counts c.currentThread (fun ti => ti.stickyCount) fun ti => ti.cliCount + 1).others (Eq.refl _)
    (Eq.refl _) (Eq.refl _)

theorem leaves_enableInterrupts : Leaves t c (threadEnableInterrupts c) := by
  rw [(threadEnableInterrupts_eq c).1]
  exact (leaves_counts c.currentThread (fun ti => ti.stickyCount) fun ti => ti.cliCount - 1).others (Eq.refl _)
    (Eq.refl _) (Eq.refl _)

/-- Every step of `ThreadBlock` and `ThreadYield` but the one that sets the state of `t`. -/
theorem leaves_frameStep {f : Frame} (h : f.pc = .setState → f.tInfo ≠ t) : Leaves t c (frameStep c f) := by
  unfold frameStep
  cases hpc : f.pc with
  | setSticky => exact leaves_goto leaves_setSticky _
  | setState =>
      cases f.fn with
      | block type arg => exact leaves_goto (leaves_modify _ _ fun hu => absurd hu (h hpc)) _
      | yield => exact leaves_goto .rfl _
  | lock =>
      have hlock : Leaves t c { threadDisableInterrupts c with activeListLock := true } :=
        leaves_disableInterrupts.others (Eq.refl _) (Eq.refl _) (Eq.refl _)
      exact leaves_goto hlock _
  | choose => exact leaves_goto leaves_findNextThread _
  | unlock =>
      have hfree : Leaves t c { c with activeListLock := false } := Leaves.rfl.others (Eq.refl _)
          (Eq.refl _) (Eq.refl _)
      exact leaves_goto (hfree.trans leaves_enableInterrupts) _
  | compare => exact leaves_goto .rfl _
  | save => exact leaves_goto (leaves_saveThreadState _) _
  | load => exact Leaves.rfl.others (Eq.refl _) (Eq.refl _) (Eq.refl _)
  | switch =>
      have hsave : Leaves t c (c.modify f.tInfo fun ti => { ti with
          registers := switchSaved ti.registers c.live (.frame { f with pc := .unset }) }) :=
        leaves_modify _ _ fun _ => ⟨Eq.refl _, Eq.refl _, Eq.refl _, Eq.refl _⟩
      exact hsave.others (Eq.refl _) (Eq.refl _) (Eq.refl _)
  | unset => exact leaves_goto leaves_unsetSticky _

/-- `t` sleeps: outside `ThreadBlock` the CPU executes some other thread, and it does not block `t` again. -/
structure Asleep (t : Nat) (c : Cpu) : Prop where
  state : (c.thread t).state = .SLEEP
  notCurrent : (∀ f, c.live.rip ≠ .frame f) → c.currentThread ≠ t
  noBlock : ∀ f, c.live.rip = .frame f → f.pc = .setState → f.tInfo ≠ t

/-- A request to kill or to abort. -/
def Event.request : Event → Prop
  | .kill _ _ | .abort _ _ | .abortChild _ => True
  | _ => False

theorem leaves_current (h : c.currentThread ≠ t) (f : ThreadInfo → ThreadInfo) :
    Leaves t c (c.modify c.currentThread f) := leaves_modify _ _ fun hu => absurd hu h

theorem leaves_checkStep (h : c.currentThread ≠ t) (pc : CheckPc) (state : SyscallState) (retVal : Nat) :
    Leaves t c (checkStep c pc state retVal) := by
  have hlive : ∀ r, Leaves t c (c.setLive r) := fun r => Leaves.rfl.others (Eq.refl _) (Eq.refl _) (Eq.refl _)
  cases pc with
  | kill =>
      simp only [checkStep]
      split_ifs
      · exact leaves_goto (leaves_current h _) _
      · exact hlive _
  | setup =>
      simp only [checkStep]
      split_ifs
      · exact leaves_goto (leaves_current h _) _
      · exact hlive _
  | abort =>
      simp only [checkStep]
      split_ifs
      · exact hlive _
      · exact hlive _
  | sysret => exact hlive _

theorem leaves_ownStep (h : c.currentThread ≠ t) {op : OwnOp} {c' : Cpu} (hc : ownStep c op = some c') :
    Leaves t c c' := by
  cases op with
  | setSticky => exact Option.some.inj hc ▸ leaves_setSticky
  | unsetSticky =>
      simp only [ownStep] at hc
      split_ifs at hc
      exact Option.some.inj hc ▸ leaves_unsetSticky
  | disableInterrupts => exact Option.some.inj hc ▸ leaves_disableInterrupts
  | enableInterrupts =>
      simp only [ownStep] at hc
      split_ifs at hc
      exact Option.some.inj hc ▸ leaves_enableInterrupts
  | resetCounts => exact Option.some.inj hc ▸ leaves_current h _
  | finish => exact Option.some.inj hc ▸ leaves_current h _
  | handleKill rip rsp => exact Option.some.inj hc ▸ leaves_current h _

/-- **The machine's steps** but ticks and requests leave a thread that sleeps alone. -/
theorem leaves_exec {m m' : Machine} {e : Event} (h : step m e m') (ha : Asleep t m.cpu) (hr : ¬ e.request)
    (htick : ∀ tsc, e ≠ .tick tsc) : Leaves t m.cpu m'.cpu := by
  have hother : m.cpu.live.rip.other = true → m.cpu.currentThread ≠ t := fun ho =>
    ha.notCurrent fun f => other_ne_frame ho f
  have hlive : ∀ r, Leaves t m.cpu (m.cpu.setLive r) := fun r =>
    Leaves.rfl.others (Eq.refl _) (Eq.refl _) (Eq.refl _)
  unfold step at h
  cases e with
  | tick tsc => exact absurd (Eq.refl _) (htick tsc)
  | kill uid tid => exact absurd trivial hr
  | abort uid tid => exact absurd trivial hr
  | abortChild u => exact absurd trivial hr
  | advance =>
      simp only [Machine.exec] at h
      split at h
      · rename_i f hf
        split_ifs at h
        · exact Option.some.inj h ▸ leaves_frameStep (ha.noBlock f hf)
        · exact Option.some.inj h ▸ leaves_frameStep (ha.noBlock f hf)
      · cases h
  | check =>
      simp only [Machine.exec] at h
      split at h
      · rename_i pc state retVal hf
        have hne := ha.notCurrent fun f hf' => by rw [hf] at hf'; cases hf'
        exact Option.some.inj h ▸ leaves_checkStep hne pc state retVal
      · cases h
  | code r =>
      simp only [Machine.exec] at h
      split_ifs at h
      exact Option.some.inj h ▸ hlive r
  | own op =>
      simp only [Machine.exec] at h
      split_ifs at h with ho
      obtain ⟨c', hc, hm⟩ := Option.map_eq_some_iff.mp h
      exact hm ▸ leaves_ownStep (hother ho) hc
  | call fn ret =>
      simp only [Machine.exec] at h
      split_ifs at h
      exact Option.some.inj h ▸ hlive _
  | sysExit state retVal =>
      simp only [Machine.exec] at h
      split_ifs at h
      exact Option.some.inj h ▸ hlive _
  | threadExec regs =>
      simp only [Machine.exec] at h
      split_ifs at h with ho
      have hne := hother (Bool.and_eq_true_iff.mp ho).1
      have hexec := leaves_current hne fun ti =>
        { ti with cliCount := 0, stickyCount := 0, registers := { regs with rflags := 2 ^ 9 } }
      exact Option.some.inj h ▸ hexec.others (Eq.refl _) (Eq.refl _) (Eq.refl _)
  | finishKill =>
      simp only [Machine.exec] at h
      split_ifs at h with ho
      have hsave := leaves_saveThreadState (t := t) (c := m.cpu) m.cpu.currentThread
      have hmod := hsave.trans (leaves_modify m.cpu.currentThread
        (fun ti => { ti with registers := ti.killHandlerReturnState }) fun hu => absurd hu (hother ho))
      exact Option.some.inj h ▸ hmod.others (Eq.refl _) (Eq.refl _) (Eq.refl _)
  | queueUnlock u =>
      simp only [Machine.exec] at h
      split_ifs at h with ho
      have hq : (m.cpu.thread u).state = .QUEUE_LOCK := by
        simpa using (Bool.and_eq_true_iff.mp ho).2
      have hwake : Leaves t m.cpu (m.cpu.modify u fun ti => wake ti 0) := leaves_modify u _ fun hu => by
        rw [hu, ha.state] at hq
        cases hq
      exact Option.some.inj h ▸ hwake

/-- **The run of the machine is one of `sleepStep`**, as long as no request is made. -/
theorem sleepStep_exec {m m' : Machine} {e : Event} (h : step m e m') (ha : Asleep t m.cpu)
    (hu : Undisturbed t m.cpu) (hr : ¬ e.request)
    (htsc : ∀ tsc, e = .tick tsc → m.cpu.lastTSC ≤ tsc ∧ tsc < 2 ^ 64) :
    ∃ e', sleepStep t m.cpu e' m'.cpu := by
  by_cases htick : ∃ tsc, e = .tick tsc
  · obtain ⟨tsc, rfl⟩ := htick
    obtain ⟨hle, hlt⟩ := htsc tsc (Eq.refl _)
    have hcpu : m'.cpu = (tick m.cpu tsc).1 := by
      simp only [step, Machine.exec] at h
      split_ifs at h
      split at h <;> exact Option.some.inj h ▸ Eq.refl _
    exact ⟨.tick tsc, hcpu ▸ .tick m.cpu tsc hle hlt⟩
  · have hl := leaves_exec h ha hr fun tsc he => htick ⟨tsc, he⟩
    exact ⟨.other, .other _ _ hl.lastTSC hl.state hl.arg
      ⟨hl.kill.trans hu.kill, hl.abort.trans hu.abort, hl.mem.mpr hu.mem, hl.nodup hu.nodup⟩⟩

/-! ## 4. The countdown -/

/-- While `t` sleeps, what is left of its time and the last pass add up to what they were at the block. -/
structure Countdown (t total : Nat) (c : Cpu) : Prop where
  calm : Undisturbed t c
  last : c.lastTSC < 2 ^ 64
  left : (c.thread t).state = .SLEEP → c.lastTSC + (c.thread t).arg = total
  states : (c.thread t).state = .SLEEP ∨ (c.thread t).state = .READY

/-- A thread that is awake, without a request, is left as it is. -/
theorem updateEvents_ready (hu : Undisturbed t c) (hs : (c.thread t).state = .READY) :
    (updateEvents c tsc).thread t = c.thread t ∧ t ∈ (updateEvents c tsc).activeList := by
  have h1 : (c.thread t).state ≠ .EXITED := by rw [hs]; decide
  have h2 : (c.thread t).state ≠ .FINISHED := by rw [hs]; decide
  obtain ⟨⟨thread', hvisit⟩, hmem⟩ := updateList_visits hu.nodup hu.mem h1 h2
  refine ⟨?_, hmem⟩
  have hsame : (updateEvents c tsc).thread t = updateThread thread' _ (c.thread t) := hvisit
  rw [hsame, updateThread, if_pos hs]
  exact deliver_same (Or.inr ⟨hu.kill, hu.abort⟩)

theorem countdown_start {ms ticksPerMilli lastTSC : Nat} (h : SleepStart t ms ticksPerMilli lastTSC c) :
    Countdown t (lastTSC + u64 (ms * ticksPerMilli)) c ∧ (c.thread t).state = .SLEEP := by
  obtain ⟨c0, ⟨fn, pc, u, next, ret⟩, rfl, rfl, rfl, rfl, rfl, hlt, hu⟩ := h
  have hthread : (frameStep c0 ⟨threadSleep ms ticksPerMilli, .setState, u, next, ret⟩).thread u =
      { c0.thread u with state := .SLEEP, arg := u64 (ms * ticksPerMilli) } :=
    Cpu.modify_self c0 u fun ti => { ti with state := .SLEEP, arg := u64 (ms * ticksPerMilli) }
  refine ⟨⟨⟨?_, ?_, hu.mem, hu.nodup⟩, hlt, fun _ => ?_, Or.inl ?_⟩, ?_⟩
  · rw [hthread]
    exact hu.kill
  · rw [hthread]
    exact hu.abort
  · rw [hthread]
    rfl
  · rw [hthread]
  · rw [hthread]

/-- **What a tick does to a thread that sleeps.** -/
theorem tick_sleep (hu : Undisturbed t c) (hs : (c.thread t).state = .SLEEP) (hle : c.lastTSC ≤ tsc)
    (hlt : tsc < 2 ^ 64) (hsticky : (c.thread c.currentThread).stickyCount = 0) :
    (((tick c tsc).1.thread t).state = .READY ↔ c.lastTSC + (c.thread t).arg ≤ tsc) ∧
      (((tick c tsc).1.thread t).state = .READY ∨ ((tick c tsc).1.thread t).state = .SLEEP ∧
        tsc + ((tick c tsc).1.thread t).arg = c.lastTSC + (c.thread t).arg) ∧
      Undisturbed t (tick c tsc).1 ∧ (tick c tsc).1.lastTSC = tsc := by
  have hT := tick_ticked hsticky tsc
  obtain ⟨hth, hmem⟩ := updateEvents_sleep hu hs hle hlt
  have hcalm : Undisturbed t (tick c tsc).1 := by
    refine ⟨?_, ?_, (hT.mem t).mpr hmem, hT.nodup hu.nodup⟩
    · rw [hT.kill, hth]
      split_ifs <;> exact hu.kill
    · rw [hT.abort, hth]
      split_ifs <;> exact hu.abort
  rw [hT.state, hT.arg, hth]
  split_ifs with harg
  · exact ⟨⟨fun _ => by omega, fun _ => rfl⟩, Or.inl rfl, hcalm, hT.lastTSC⟩
  · refine ⟨⟨fun h => ?_, fun h => by omega⟩, Or.inr ⟨hs, ?_⟩, hcalm, hT.lastTSC⟩
    · rw [hs] at h
      cases h
    · show tsc + ((c.thread t).arg - (tsc - c.lastTSC)) = _
      omega

theorem countdown_step {total : Nat} {e : SleepEvent} {c' : Cpu} (hI : Countdown t total c)
    (hs : sleepStep t c e c') : Countdown t total c' := by
  cases hs with
  | other c' hlast hstate harg hu =>
      refine ⟨hu, ?_, fun h => ?_, ?_⟩
      · rw [hlast]
        exact hI.last
      · rw [hlast, harg]
        exact hI.left (hstate ▸ h)
      · rw [hstate]
        exact hI.states
  | tick tsc hle hlt =>
      by_cases hsticky : (c.thread c.currentThread).stickyCount = 0
      · rcases hI.states with hsleep | hready
        · obtain ⟨-, hafter, hcalm, hlast⟩ := tick_sleep hI.calm hsleep hle hlt hsticky
          refine ⟨hcalm, hlast.symm ▸ hlt, fun h => ?_, ?_⟩
          · rcases hafter with hwoken | ⟨-, hsum⟩
            · rw [h] at hwoken
              cases hwoken
            · rw [hlast, hsum]
              exact hI.left hsleep
          · rcases hafter with hwoken | ⟨hstill, -⟩
            · exact Or.inr hwoken
            · exact Or.inl hstill
        · have hT := tick_ticked hsticky tsc
          have hkept : (updateEvents c tsc).thread t = c.thread t ∧ t ∈ (updateEvents c tsc).activeList :=
            updateEvents_ready hI.calm hready
          obtain ⟨hth, hmem⟩ := hkept
          have hstate : ((tick c tsc).1.thread t).state = .READY := by rw [hT.state, hth, hready]
          refine ⟨⟨?_, ?_, (hT.mem t).mpr hmem, hT.nodup hI.calm.nodup⟩, hT.lastTSC.symm ▸ hlt, fun h => ?_,
            Or.inr hstate⟩
          · rw [hT.kill, hth]
            exact hI.calm.kill
          · rw [hT.abort, hth]
            exact hI.calm.abort
          · rw [hstate] at h
            cases h
      · -- a sticky thread: the tick returns at its first test
        have hsame : (tick c tsc).1 = c := by
          unfold tick
          rw [if_pos hsticky]
        rw [hsame]
        exact hI

variable {ms ticksPerMilli lastTSC : Nat}

theorem countdown_reach (h : Reach (sleepStep t) (SleepStart t ms ticksPerMilli lastTSC) c) :
    Countdown t (lastTSC + u64 (ms * ticksPerMilli)) c :=
  h.inv (fun _ h0 => (countdown_start h0).1) fun _ _ _ hI hs => countdown_step hI hs

/-- **When a tick wakes the thread**: the time counts from the last pass BEFORE it fell asleep, and the
    product wraps. -/
theorem tick_wakes_iff (h : Reach (sleepStep t) (SleepStart t ms ticksPerMilli lastTSC) c)
    (hs : (c.thread t).state = .SLEEP) (hle : c.lastTSC ≤ tsc) (hlt : tsc < 2 ^ 64) :
    ((tick c tsc).1.thread t).state = .READY ↔
      (c.thread c.currentThread).stickyCount = 0 ∧ lastTSC + u64 (ms * ticksPerMilli) ≤ tsc := by
  have hI := countdown_reach h
  by_cases hsticky : (c.thread c.currentThread).stickyCount = 0
  · rw [(tick_sleep hI.calm hs hle hlt hsticky).1, hI.left hs]
    exact ⟨fun h => ⟨hsticky, h⟩, fun h => h.2⟩
  · have hsame : (tick c tsc).1 = c := by
      unfold tick
      rw [if_pos hsticky]
    rw [hsame, hs]
    exact ⟨fun h => (by cases h), fun h => absurd h.1 hsticky⟩

end Pass

/-! ## 5. Results -/

/-- The tick makes a pass after the time at which the thread fell asleep has gone by as `UpdateEvents` counts
    it, and before it has gone by from `t0` on. -/
def EarlyPass (ms ticksPerMilli lastTSC t0 tsc : Nat) (c : Cpu) : Prop :=
  (c.thread c.currentThread).stickyCount = 0 ∧ lastTSC + u64 (ms * ticksPerMilli) ≤ tsc ∧
    tsc < t0 + ms * ticksPerMilli

/-- **A sleep lasts as long as asked** exactly where no pass is early: in every run from the call at `t0` on, a
    tick wakes the thread only at `t0 + ms * ticksPerMilli` or later. -/
theorem sleep_lasts {c : Cpu} {t ms ticksPerMilli lastTSC tsc : Nat} (t0 : Nat)
    (h : Reach (sleepStep t) (SleepStart t ms ticksPerMilli lastTSC) c) (hs : (c.thread t).state = .SLEEP)
    (hle : c.lastTSC ≤ tsc) (hlt : tsc < 2 ^ 64) :
    (((tick c tsc).1.thread t).state = .READY → t0 + ms * ticksPerMilli ≤ tsc) ↔
      ¬ EarlyPass ms ticksPerMilli lastTSC t0 tsc c := by
  rw [tick_wakes_iff h hs hle hlt]
  constructor
  · intro hlate hearly
    exact absurd (hlate ⟨hearly.1, hearly.2.1⟩) (Nat.not_le_of_lt hearly.2.2)
  · intro hno hwakes
    by_contra hearly
    exact hno ⟨hwakes.1, hwakes.2, Nat.lt_of_not_le hearly⟩

section Runs

def idle : Registers := ⟨0, 0, 0, 0, 0, 0, 0, 0, 0, 0, 0, 0, 0, 0, 0, 0, 0, 0, .addr 0, 0, 0, 0, 0⟩

/-- A kernel thread without requests. -/
def sleeper : ThreadInfo := ⟨1, 0, false, 0, 0, idle, false, 0, .READY, 0, 0, 0, 0, 0, 0, idle, none⟩

/-- Thread 1 calls `ThreadSleep(ms)`; the last pass was at 0. -/
def sleeping (ms ticksPerMilli : Nat) : Cpu :=
  frameStep ⟨fun _ => sleeper, [1], 1, 0, 0, false, [1], 0, idle, 0, 0, 0, 0, 0⟩
    ⟨threadSleep ms ticksPerMilli, .setState, 1, 0, 0⟩

theorem sleeping_start (ms ticksPerMilli : Nat) : SleepStart 1 ms ticksPerMilli 0 (sleeping ms ticksPerMilli) :=
  ⟨_, _, rfl, rfl, rfl, rfl, rfl, by decide, rfl, rfl, List.mem_singleton_self 1, List.nodup_singleton 1⟩

/-- A pass in time: called at 1000, woken at 2000. -/
theorem sleep_lasts_1ms : ((tick (sleeping 1 1000) 2000).1.thread 1).state = .READY ∧
    (((tick (sleeping 1 1000) 2000).1.thread 1).state = .READY → 1000 + 1 * 1000 ≤ 2000) :=
  ⟨by decide, (sleep_lasts 1000 (.start _ (sleeping_start 1 1000)) rfl (by decide) (by decide)).mpr
    fun h => absurd h.2.2 (by decide)⟩

/-- **Too short**: a thread calls `ThreadSleep(1)` at 1000, the pass before that was at 0. The pass at 1500
    wakes it, 500 ticks after the call. -/
theorem sleep_short : ¬ ∀ (t0 ms ticksPerMilli lastTSC t tsc : Nat) (c : Cpu), lastTSC ≤ t0 →
    Reach (sleepStep t) (SleepStart t ms ticksPerMilli lastTSC) c → (c.thread t).state = .SLEEP →
    t0 ≤ tsc → c.lastTSC ≤ tsc → tsc < 2 ^ 64 → ((tick c tsc).1.thread t).state = .READY →
    t0 + ms * ticksPerMilli ≤ tsc := by
  intro h
  have hlate := h 1000 1 1000 0 1 1500 (sleeping 1 1000) (by decide) (.start _ (sleeping_start 1 1000)) rfl
    (by decide) (by decide) (by decide) (by decide)
  exact absurd hlate (by decide)

end Runs

end Scheduler

end SimpleOS2
