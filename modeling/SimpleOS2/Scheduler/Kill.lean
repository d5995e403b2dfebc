/-
  File:      SimpleOS2/Scheduler/Kill.lean
  Subject:   KILL AND ABORT REQUESTS (ThreadKill, ThreadAbort, UpdateEvents, ThreadCheckFlags).

  A request is a flag on the target. Two places take it off again: `UpdateEvents` rewrites the
  saved context of a thread that was preempted in user mode, and `ThreadCheckFlags` redirects a
  thread that is about to leave a syscall. `UpdateEvents` also visits the thread that the tick has
  just interrupted; that thread's saved context is an old one, and `Tick` overwrites it afterwards.

  * `Redirected` -- a context from which the thread goes on in its kill handler, or in `ThreadExit`;
  * `NoneLost` -- while a request that was taken off is still due, the thread's context is a
    redirected one;
  * `KillOk` -- what must hold at a tick: Switch.lean's condition, and that the interrupted thread
    does not carry a request on top of an old user-mode context;
  * `request_not_lost`, `request_lost` -- the law under that condition, and a run without it.
-/
import SimpleOS2.Scheduler.Switch

namespace SimpleOS2

open Lib

namespace Scheduler

/-! ## 1. The law -/

/-- The context `r` of a thread: it goes on in the kill handler, in `ThreadExit(1)`, or in the rest
    of `ThreadCheckFlags` with one of the two in front of it. -/
def Redirected (ti : ThreadInfo) (r : Registers) : Prop :=
  match r.rip with
  | .threadExit => r.rdi = 1
  | .addr a =>
      r.kernelMode = false ∧ ti.killHandlerRip ≠ 0 ∧ a = ti.killHandlerRip ∧
        r.userrsp = ti.killHandlerRsp
  | .checkFlags .kill _ _ => False
  | .checkFlags .setup _ _ => True
  | .checkFlags .abort st _ | .checkFlags .sysret st _ =>
      ti.killHandlerRip ≠ 0 ∧ st.userrip = ti.killHandlerRip ∧ st.userrsp = ti.killHandlerRsp
  | .frame _ => False

/-- The context from which thread `t` executes next. -/
def Machine.context (m : Machine) (t : Nat) : Registers :=
  if t = m.running then m.cpu.live else (m.cpu.thread t).registers

/-- **No request is lost**: between the moment a flag of `t` goes from true to false and the moment
    `t` executes, the context of `t` is a redirected one. -/
def NoneLost (m : Machine) : Prop :=
  ∀ t, m.due t = true → Redirected (m.cpu.thread t) (m.context t)

/-- The interrupted thread carries a request, and the context saved for it, an old one, is of user
    mode: `UpdateEvents` takes the request off and redirects the old context. -/
def StalePending (m : Machine) : Prop :=
  m.running ∈ m.cpu.activeList ∧ (m.cpu.thread m.running).state = .READY ∧
    (m.cpu.thread m.running).registers.kernelMode = false ∧
    ((m.cpu.thread m.running).killPending = true ∨ (m.cpu.thread m.running).abortPending = true)

/-- What must hold before a step. -/
def KillOk (m : Machine) (e : Event) : Prop :=
  SwitchOk m e ∧
    ∀ tsc, e = .tick tsc → (m.cpu.thread m.cpu.currentThread).stickyCount = 0 → ¬ StalePending m

/-! ## 2. What the law reads -/

section Inv

variable {m : Machine}

theorem context_running (m : Machine) : m.context m.running = m.cpu.live := if_pos rfl

theorem context_of {t : Nat} (h : t ≠ m.running) : m.context t = (m.cpu.thread t).registers :=
  if_neg h

theorem goes_running (m : Machine) (c : Cpu) (b : Bool) : (m.goes c b).context m.running = c.live :=
  if_pos rfl

theorem goes_of {t : Nat} (h : t ≠ m.running) (c : Cpu) (b : Bool) :
    (m.goes c b).context t = (c.thread t).registers :=
  if_neg h

/-- Only the handler of a thread, and four registers, matter. -/
theorem Redirected.congr {ti ti' : ThreadInfo} {r r' : Registers} (h : Redirected ti r)
    (h1 : ti'.killHandlerRip = ti.killHandlerRip) (h2 : ti'.killHandlerRsp = ti.killHandlerRsp)
    (h3 : r'.rip = r.rip) (h4 : r'.rdi = r.rdi) (h5 : r'.userrsp = r.userrsp)
    (h6 : r'.kernelMode = r.kernelMode) : Redirected ti' r' := by
  unfold Redirected at h ⊢
  rw [h1, h2, h3, h4, h5, h6]
  exact h

theorem dropped_same {ti ti' : ThreadInfo} (h1 : ti'.killPending = ti.killPending)
    (h2 : ti'.abortPending = ti.abortPending) : dropped ti ti' = false := by
  simp [dropped, h1, h2]

/-- The handler is set by its own thread only. -/
theorem Touched.handler {ti ti' : ThreadInfo} (h : Touched ti ti') :
    ti'.killHandlerRip = ti.killHandlerRip ∧ ti'.killHandlerRsp = ti.killHandlerRsp := by
  cases h with
  | delivered => simp only [deliver, setupKillHandlerFromTick]; split_ifs <;> exact ⟨rfl, rfl⟩
  | _ => exact ⟨rfl, rfl⟩

/-- A delivery redirects the saved context, whichever of the two requests it is. -/
theorem deliver_redirected {ti : ThreadInfo} (hu : ti.registers.kernelMode = false)
    (hp : ti.killPending = true ∨ ti.abortPending = true) :
    Redirected (deliver ti) (deliver ti).registers := by
  by_cases ha : ti.abortPending = true
  · -- the abort comes second and decides
    have hrip : (deliver ti).registers.rip = .threadExit ∧ (deliver ti).registers.rdi = 1 := by
      simp only [deliver, setupKillHandlerFromTick, hu]
      split_ifs <;> simp_all [exitRegisters]
    unfold Redirected
    rw [hrip.1]
    exact hrip.2
  · have hk : ti.killPending = true := hp.resolve_right ha
    have he : deliver ti = setupKillHandlerFromTick { ti with killPending := false } := by
      have hab : (setupKillHandlerFromTick { ti with killPending := false }).abortPending = false := by
        unfold setupKillHandlerFromTick
        split_ifs <;> simpa using ha
      simp [deliver, hu, hk, hab]
    rw [he]
    unfold setupKillHandlerFromTick
    split_ifs with hh
    · exact ⟨hu, hh, rfl, rfl⟩
    · exact rfl

/-- **One pass of `UpdateEvents` on a thread**: a request it takes off, and one that was taken off
    before, has a redirected context to show for it. -/
theorem Touched.redirected {ti ti' : ThreadInfo} (h : Touched ti ti')
    (hd : Redirected ti ti.registers ∨ dropped ti ti' = true) : Redirected ti' ti'.registers := by
  cases h with
  | delivered _ hu hp => exact deliver_redirected hu hp
  | same => exact hd.resolve_right (by simp [dropped])
  | exited => exact hd.resolve_right (by simp [dropped])
  | slept => exact hd.resolve_right (by simp [dropped])
  | woken => exact hd.resolve_right (by simp [dropped, wake])

/-- Nothing else takes a request off. -/
theorem Touched.keeps {ti ti' : ThreadInfo} (h : Touched ti ti')
    (hno : ¬ (ti.state = .READY ∧ ti.registers.kernelMode = false ∧
      (ti.killPending = true ∨ ti.abortPending = true))) : dropped ti ti' = false := by
  cases h with
  | delivered hr hu hp => exact absurd ⟨hr, hu, hp⟩ hno
  | _ => exact dropped_same rfl rfl

/-! ## 3. One step keeps the law -/

theorem noneLost_init (h : Init m) : NoneLost m := fun t ht => by
  rw [h.due t] at ht
  cases ht

/-- What the law reads of a thread: `rax`, where results are handed over, is not part of it. -/
structure Same (ti ti' : ThreadInfo) : Prop where
  context : ti'.registers = { ti.registers with rax := ti'.registers.rax }
  rip : ti'.killHandlerRip = ti.killHandlerRip
  rsp : ti'.killHandlerRsp = ti.killHandlerRsp

theorem Same.redirected {ti ti' : ThreadInfo} (h : Same ti ti') {r : Registers}
    (hr : Redirected ti r) : Redirected ti' r :=
  hr.congr h.rip h.rsp rfl rfl rfl rfl

theorem Same.saved {ti ti' : ThreadInfo} (h : Same ti ti') (hr : Redirected ti ti.registers) :
    Redirected ti' ti'.registers := by
  rw [h.context]
  exact hr.congr h.rip h.rsp rfl rfl rfl rfl

/-- **A step in which the running thread executes**: whatever it does to itself, nothing is due
    to it afterwards unless the step takes a request off. -/
theorem NoneLost.executes (hK : NoneLost m) {c : Cpu}
    (hflags : ∀ t, dropped (m.cpu.thread t) (c.thread t) = false)
    (hother : ∀ t, t ≠ m.running → Same (m.cpu.thread t) (c.thread t)) :
    NoneLost (m.goes c true) := by
  intro t ht
  simp only [Machine.goes, hflags t, Bool.or_false, Bool.and_eq_true, Bool.not_eq_true',
    Bool.true_and, beq_eq_false_iff_ne] at ht
  have h := hK t ht.1
  rw [context_of ht.2] at h
  rw [goes_of ht.2]
  exact (hother t ht.2).saved h

/-- A step that writes one thread and keeps its flags takes no request off, and is no change to
    the other threads. -/
theorem one_write (c c' : Cpu) {t : Nat} (g : ThreadInfo → ThreadInfo)
    (hth : c'.thread = Function.update c.thread t (g (c.thread t)))
    (hg : (g (c.thread t)).killPending = (c.thread t).killPending ∧
      (g (c.thread t)).abortPending = (c.thread t).abortPending) :
    (∀ u, dropped (c.thread u) (c'.thread u) = false) ∧
      ∀ u, u ≠ t → Same (c.thread u) (c'.thread u) := by
  rw [hth]
  refine ⟨fun u => ?_, fun u h => ?_⟩
  · by_cases h : u = t
    · subst h
      rw [Function.update_self]
      exact dropped_same hg.1 hg.2
    · rw [Function.update_of_ne h]
      exact dropped_same rfl rfl
  · rw [Function.update_of_ne h]
    exact ⟨rfl, rfl, rfl⟩

theorem no_write (c c' : Cpu) (hth : c'.thread = c.thread) :
    (∀ u, dropped (c.thread u) (c'.thread u) = false) ∧ ∀ u, Same (c.thread u) (c'.thread u) := by
  rw [hth]
  exact ⟨fun _ => dropped_same rfl rfl, fun _ => ⟨rfl, rfl, rfl⟩⟩

theorem saveThreadState_flags (c : Cpu) (t : Nat) :
    (∀ u, dropped (c.thread u) ((saveThreadState c t).thread u) = false) ∧
      ∀ u, Same (c.thread u) ((saveThreadState c t).thread u) := by
  refine ⟨fun u => ?_, fun u => ?_⟩
  · obtain ⟨b, hb⟩ := saveThreadState_thread c t u
    rw [hb]
    exact dropped_same rfl rfl
  · obtain ⟨b, hb⟩ := saveThreadState_thread c t u
    rw [hb]
    exact ⟨rfl, rfl, rfl⟩

/-- The steps of `ThreadBlock` and `ThreadYield` take no request off, and write no other thread. -/
theorem frameStep_flags {c : Cpu} {f : Frame} (hcur : f.pc ≠ .switch → c.currentThread = f.tInfo) :
    (∀ t, dropped (c.thread t) ((frameStep c f).thread t) = false) ∧
      ∀ t, t ≠ f.tInfo → Same (c.thread t) ((frameStep c f).thread t) := by
  unfold frameStep
  cases hpc : f.pc with
  | setSticky =>
      have h := hcur (by rw [hpc]; decide)
      rw [← h]
      exact one_write _ _ (fun ti => { ti with stickyCount := ti.stickyCount + 1 }) rfl ⟨rfl, rfl⟩
  | setState =>
      cases f.fn with
      | block type arg =>
          exact one_write _ _ (fun ti => { ti with state := type, arg := arg }) rfl ⟨rfl, rfl⟩
      | yield => exact (no_write _ _ rfl).imp_right fun h t _ => h t
  | lock =>
      have h := hcur (by rw [hpc]; decide)
      rw [← h]
      exact one_write _ _ (fun ti => { ti with cliCount := ti.cliCount + 1 }) rfl ⟨rfl, rfl⟩
  | choose => exact (no_write _ _ (findNextThread_thread c)).imp_right fun h t _ => h t
  | unlock =>
      have h := hcur (by rw [hpc]; decide)
      obtain ⟨he, -⟩ := threadEnableInterrupts_eq { c with activeListLock := false }
      rw [← h]
      refine one_write _ _ (fun ti => { ti with cliCount := ti.cliCount - 1 }) ?_ ⟨rfl, rfl⟩
      dsimp only [Cpu.goto, Cpu.setLive_thread]
      rw [he]
      rfl
  | compare => exact (no_write _ _ rfl).imp_right fun h t _ => h t
  | save => exact (saveThreadState_flags c f.tInfo).imp_right fun h t _ => h t
  | load => exact (no_write _ _ rfl).imp_right fun h t _ => h t
  | switch =>
      exact one_write _ _ (fun ti => { ti with
        registers := switchSaved ti.registers c.live (.frame { f with pc := .unset }) }) rfl ⟨rfl, rfl⟩
  | unset =>
      have h := hcur (by rw [hpc]; decide)
      rw [← h]
      exact one_write _ _ (fun ti => { ti with stickyCount := ti.stickyCount - 1 }) rfl ⟨rfl, rfl⟩

/-- After `SwitchThread` the thread that stopped has executed, and the one that goes on has the
    context saved for it. -/
theorem switch_noneLost (hI : SwitchInv m) (hK : NoneLost m) {f : Frame}
    (hf : m.cpu.live.rip = .frame f) (hsw : f.pc = .switch) (st : Nat → Registers) :
    NoneLost { m.goes (frameStep m.cpu f) true with running := f.next, stopped := st } := by
  obtain ⟨-, ht, -⟩ := hI.live f hf
  obtain ⟨hflags, hother⟩ := frameStep_flags (c := m.cpu) fun h => absurd hsw h
  rw [ht] at hother
  have hlive : (frameStep m.cpu f).live = ((frameStep m.cpu f).thread f.next).registers := by
    unfold frameStep
    rw [hsw]
    rfl
  intro t hd
  simp only [Machine.goes, hflags t, Bool.or_false, Bool.and_eq_true, Bool.not_eq_true',
    Bool.true_and, beq_eq_false_iff_ne] at hd
  have h := hK t hd.1
  rw [context_of hd.2] at h
  have hctx : Machine.context
      { m.goes (frameStep m.cpu f) true with running := f.next, stopped := st } t =
      ((frameStep m.cpu f).thread t).registers := by
    unfold Machine.context
    dsimp only [Machine.goes]
    split_ifs with hn
    · rw [hlive, hn]
    · rfl
  rw [hctx]
  exact (hother t hd.2).saved h

/-- **A tick that passes its first test**, where the interrupted thread has no request on top of an
    old user-mode context. -/
theorem tick_noneLost (hI : SwitchInv m) (hK : NoneLost m) (tsc : Nat)
    (hst : (m.cpu.thread m.cpu.currentThread).stickyCount = 0)
    (hcur : m.cpu.currentThread = m.running) (hno : ¬ StalePending m) {c : Cpu} {next : Nat}
    (hc : tick m.cpu tsc = (c, some next)) (st : Nat → Registers) :
    NoneLost { m.goes c false with running := next, stopped := st } := by
  obtain ⟨c', next', b, he, -, hlv, hown, hoth, -⟩ := tick_spec tsc hst
  rw [hc] at he
  obtain ⟨rfl, hn⟩ := Prod.mk.inj he
  obtain rfl := Option.some.inj hn
  rw [hcur] at hown hoth
  have htouch := updateEvents_touched hI.nodup tsc
  -- nothing is taken off the interrupted thread
  have hkeep : dropped (m.cpu.thread m.running) ((updateEvents m.cpu tsc).thread m.running) = false := by
    by_cases hmem : m.running ∈ m.cpu.activeList
    · exact (htouch m.running).keeps fun h => hno ⟨hmem, h⟩
    · rw [updateEvents_not_mem hmem]
      exact dropped_same rfl rfl
  intro t hd
  have hctx : Machine.context { m.goes c false with running := next, stopped := st } t =
      (c.thread t).registers := by
    unfold Machine.context
    dsimp only [Machine.goes]
    split_ifs with hn
    · rw [hlv, hn]
    · rfl
  rw [hctx]
  simp only [Machine.goes, Bool.false_and, Bool.not_false, Bool.and_true, Bool.or_eq_true] at hd
  show Redirected (c.thread t) (c.thread t).registers
  by_cases htr : t = m.running
  · subst htr
    have hdue : m.due m.running = true := by
      rcases hd with hd | hd
      · exact hd
      · rw [hown] at hd
        cases hkeep.symm.trans hd
    have h := hK m.running hdue
    rw [context_running] at h
    obtain ⟨h1, h2⟩ := (htouch m.running).handler
    rw [hown]
    exact h.congr h1 h2 rfl rfl rfl rfl
  · rw [hoth t htr] at hd ⊢
    refine (htouch t).redirected (hd.imp_left fun hd => ?_)
    have h := hK t hd
    rwa [context_of htr] at h

/-- **A step that is no execution yet**: a request of the running thread stays due, and its new
    context answers for it. -/
theorem NoneLost.waits (hK : NoneLost m) {c : Cpu}
    (hother : ∀ t, t ≠ m.running →
      dropped (m.cpu.thread t) (c.thread t) = false ∧ Same (m.cpu.thread t) (c.thread t))
    (hrun : m.due m.running = true ∨
      dropped (m.cpu.thread m.running) (c.thread m.running) = true →
        Redirected (c.thread m.running) c.live) : NoneLost (m.goes c false) := by
  intro t hd
  simp only [Machine.goes, Bool.false_and, Bool.not_false, Bool.and_true, Bool.or_eq_true] at hd
  by_cases ht : t = m.running
  · subst ht
    rw [goes_running]
    exact hrun hd
  · obtain ⟨h1, h2⟩ := hother t ht
    have h := hK t (hd.resolve_right (by simp [h1]))
    rw [context_of ht] at h
    rw [goes_of ht]
    exact h2.saved h

/-- **`ThreadCheckFlags`**: the thread that takes its own request off goes on to act on it. -/
theorem check_noneLost (hI : SwitchInv m) (hK : NoneLost m) {pc : CheckPc} {state : SyscallState}
    {retVal : Nat} (hrip : m.cpu.live.rip = .checkFlags pc state retVal) :
    NoneLost (m.goes (checkStep m.cpu pc state retVal) false) := by
  have hcur := hI.current_of fun f hf => by rw [hrip] at hf; cases hf
  -- what was due before, read off the place in `ThreadCheckFlags`
  have hold : m.due m.running = true → Redirected (m.cpu.thread m.running) m.cpu.live := fun h => by
    have := hK m.running h
    rwa [context_running] at this
  have hnone : ∀ t, dropped (m.cpu.thread t) (m.cpu.thread t) = false := fun _ => dropped_same rfl rfl
  have hself : ∀ t, dropped (m.cpu.thread t) (m.cpu.thread t) = false ∧
      Same (m.cpu.thread t) (m.cpu.thread t) := fun t => ⟨hnone t, rfl, rfl, rfl⟩
  have hdue : m.due m.running = true ∨
      dropped (m.cpu.thread m.running) (m.cpu.thread m.running) = true →
        Redirected (m.cpu.thread m.running) m.cpu.live := fun h =>
    hold (h.resolve_right (by simp [hnone]))
  have hmod : ∀ (g : ThreadInfo → ThreadInfo) t, t ≠ m.running →
      dropped (m.cpu.thread t) ((m.cpu.modify m.running g).thread t) = false ∧
        Same (m.cpu.thread t) ((m.cpu.modify m.running g).thread t) := fun g t ht => by
    rw [Cpu.modify_of _ _ _ ht]
    exact hself t
  unfold checkStep
  rw [hcur]
  unfold Redirected at hdue
  rw [hrip] at hdue
  cases pc with
  | kill =>
      dsimp only
      split_ifs with hp
      · exact hK.waits (hmod fun ti => { ti with killPending := false }) fun _ => trivial
      · exact hK.waits (fun t _ => hself t) fun h => (hdue h).elim
  | setup =>
      dsimp only
      split_ifs with hh
      · refine hK.waits (hmod fun ti =>
          { ti with killHandlerReturnState := syscallReturnState state retVal }) fun _ => ?_
        dsimp only [Cpu.goto, Cpu.setLive_thread, Cpu.setLive_live]
        rw [Cpu.modify_self]
        exact ⟨hh, rfl, rfl⟩
      · exact hK.waits (fun t _ => hself t) fun _ => rfl
  | abort =>
      dsimp only
      split_ifs with hp
      · exact hK.waits (fun t _ => hself t) fun _ => rfl
      · exact hK.waits (fun t _ => hself t) fun h => hdue h
  | sysret =>
      refine hK.waits (fun t _ => hself t) fun h => ?_
      obtain ⟨h1, h2, h3⟩ := hdue h
      have huser : (GDT.UserCode % 4 == 0) = false := by decide
      exact ⟨huser, h1, h2, h3⟩

/-- A change of one thread that keeps what the law reads. -/
theorem modify_same (c : Cpu) (t : Nat) {g : ThreadInfo → ThreadInfo}
    (hg : ∀ ti, Same ti (g ti) ∧ dropped ti (g ti) = false) (u : Nat) :
    dropped (c.thread u) ((c.modify t g).thread u) = false ∧ Same (c.thread u) ((c.modify t g).thread u) := by
  by_cases h : u = t
  · subst h
    rw [Cpu.modify_self]
    exact ⟨(hg _).2, (hg _).1⟩
  · rw [Cpu.modify_of _ _ _ h]
    exact ⟨dropped_same rfl rfl, rfl, rfl, rfl⟩

/-- A request only raises a flag. -/
theorem request_noneLost (hK : NoneLost m) (t : Nat) {g : ThreadInfo → ThreadInfo}
    (hg : ∀ ti, Same ti (g ti) ∧ dropped ti (g ti) = false) :
    NoneLost (m.goes (m.cpu.modify t g) false) := by
  have hall := modify_same m.cpu t hg
  refine hK.waits (fun u _ => hall u) fun h => ?_
  have := hK m.running (h.resolve_right (by simp [(hall m.running).1]))
  rw [context_running] at this
  exact (hall m.running).2.redirected this

theorem kill_same (ti : ThreadInfo) : Same ti { ti with killPending := true } ∧
    dropped ti { ti with killPending := true } = false :=
  ⟨⟨rfl, rfl, rfl⟩, by simp [dropped]⟩

theorem abort_same (ti : ThreadInfo) : Same ti { ti with abortPending := true } ∧
    dropped ti { ti with abortPending := true } = false :=
  ⟨⟨rfl, rfl, rfl⟩, by simp [dropped]⟩

theorem wake_same (ti : ThreadInfo) : Same ti (wake ti 0) ∧ dropped ti (wake ti 0) = false :=
  ⟨⟨rfl, rfl, rfl⟩, dropped_same rfl rfl⟩

/-- Nothing happens to the threads. -/
theorem idle_noneLost (hK : NoneLost m) : NoneLost (m.goes m.cpu false) :=
  hK.waits (fun _ _ => ⟨dropped_same rfl rfl, rfl, rfl, rfl⟩) fun h => by
    have := hK m.running (h.resolve_right (by simp [dropped]))
    rwa [context_running] at this

/-- **Every step keeps the law**, a tick that does not meet `KillOk` excepted. -/
theorem noneLost_step {e : Event} {m' : Machine} (hI : SwitchInv m) (hK : NoneLost m)
    (hok : KillOk m e) (hs : step m e m') : NoneLost m' := by
  unfold step at hs
  cases e with
  | tick tsc =>
      simp only [Machine.exec] at hs
      split_ifs at hs
      by_cases hst : (m.cpu.thread m.cpu.currentThread).stickyCount = 0
      · have hcur : m.cpu.currentThread = m.running := hI.current fun f hf hpc => by
          have hne := hok.1 tsc rfl f hf hpc
          rw [← hI.window f hf hpc] at hne
          exact hne hst
        obtain ⟨c, next, _, he, _⟩ := tick_spec tsc hst
        rw [he] at hs
        cases hs
        exact tick_noneLost hI hK tsc hst hcur (hok.2 tsc rfl hst) he _
      · have he : tick m.cpu tsc = (m.cpu, none) := if_pos hst
        rw [he] at hs
        cases hs
        exact idle_noneLost hK
  | advance =>
      simp only [Machine.exec] at hs
      split at hs
      · next f hf =>
        have ht := (hI.live f hf).2.1
        split_ifs at hs with h1 h2
        · cases hs
          exact switch_noneLost hI hK hf h2 _
        · cases hs
          have hcur : m.cpu.currentThread = m.running := hI.current fun g hg => by
            rw [hf] at hg
            rwa [← Code.frame.inj hg]
          obtain ⟨h3, h4⟩ := frameStep_flags (c := m.cpu) (f := f) fun _ => hcur.trans ht.symm
          exact hK.executes h3 (ht ▸ h4)
      · cases hs
  | check =>
      simp only [Machine.exec] at hs
      split at hs
      · next hrip =>
        cases hs
        exact check_noneLost hI hK hrip
      · cases hs
  | code r =>
      simp only [Machine.exec] at hs
      split_ifs at hs with h
      cases hs
      obtain ⟨h1, h2⟩ := no_write m.cpu (m.cpu.setLive r) rfl
      exact hK.executes h1 fun t _ => h2 t
  | own op =>
      simp only [Machine.exec] at hs
      split_ifs at hs with h
      obtain ⟨c, hc, rfl⟩ := Option.map_eq_some_iff.mp hs
      obtain ⟨g, r, hg, hr, rfl⟩ := ownStep_eq hc
      obtain ⟨h1, h2⟩ := one_write m.cpu
        ((m.cpu.modify m.cpu.currentThread g).setLive r) g rfl (hg _).2.2
      exact hK.executes h1 (hI.current_of (other_ne_frame h) ▸ h2)
  | call fn ret =>
      simp only [Machine.exec] at hs
      split_ifs at hs with h
      cases hs
      obtain ⟨h1, h2⟩ := no_write m.cpu (m.cpu.goto _) rfl
      exact hK.executes h1 fun t _ => h2 t
  | sysExit state retVal =>
      simp only [Machine.exec] at hs
      split_ifs at hs with h
      cases hs
      obtain ⟨h1, h2⟩ := no_write m.cpu (m.cpu.goto _) rfl
      exact hK.executes h1 fun t _ => h2 t
  | threadExec regs =>
      simp only [Machine.exec] at hs
      split_ifs at hs with h
      cases hs
      have hcur := hI.current_of (other_ne_frame (Bool.and_eq_true_iff.mp h).1)
      obtain ⟨h1, h2⟩ := one_write (t := m.cpu.currentThread) m.cpu
        (loadThreadStateAndRegs (m.cpu.modify m.cpu.currentThread fun ti => { ti with
          cliCount := 0, stickyCount := 0, registers := { regs with rflags := 2 ^ 9 } })
          m.cpu.currentThread)
        (fun ti => { ti with
          cliCount := 0, stickyCount := 0, registers := { regs with rflags := 2 ^ 9 } }) rfl
        ⟨rfl, rfl⟩
      exact hK.executes h1 (hcur ▸ h2)
  | finishKill =>
      simp only [Machine.exec] at hs
      split_ifs at hs with h
      cases hs
      have hcur := hI.current_of (other_ne_frame h)
      obtain ⟨h1, h2⟩ := saveThreadState_flags m.cpu m.cpu.currentThread
      refine hK.executes (fun t => ?_) fun t ht => ?_
      · dsimp only [loadThreadStateAndRegs, Cpu.setLive_thread, loadThreadState_thread]
        by_cases htc : t = m.cpu.currentThread
        · rw [htc, Cpu.modify_self]
          exact h1 m.cpu.currentThread
        · rw [Cpu.modify_of _ _ _ htc]
          exact h1 t
      · dsimp only [loadThreadStateAndRegs, Cpu.setLive_thread, loadThreadState_thread]
        rw [Cpu.modify_of _ _ _ (hcur ▸ ht)]
        exact h2 t
  | queueUnlock t =>
      simp only [Machine.exec] at hs
      split_ifs at hs with h
      cases hs
      -- only `rax` of the saved context changes
      have hsame := modify_same m.cpu t wake_same
      exact hK.executes (fun u => (hsame u).1) fun u _ => (hsame u).2
  | kill uid tid =>
      cases hs
      unfold threadKill
      split
      · exact idle_noneLost hK
      · exact request_noneLost hK _ kill_same
  | abort uid tid =>
      cases hs
      unfold threadAbort
      split
      · exact idle_noneLost hK
      · exact request_noneLost hK _ abort_same
  | abortChild t =>
      cases hs
      exact request_noneLost hK t abort_same

end Inv

/-! ## 4. Whole runs -/

/-- **No request is lost**, in every run in which every step meets `KillOk`. -/
theorem request_not_lost {m : Machine} (h : Reach (Guarded step KillOk) Init m) : NoneLost m := by
  have hI : ∀ m, Reach (Guarded step KillOk) Init m → SwitchInv m := fun m h =>
    switchInv_reach (h.mono (fun _ => id) fun _ _ _ hs => ⟨hs.1, hs.2.1⟩)
  exact h.invStep (fun _ => noneLost_init) fun m _ _ hr hK hs =>
    noneLost_step (hI m hr) hK hs.2 hs.1

/-- A context at `a` in user mode, with interrupts on. -/
def userAt (a : Nat) : Registers :=
  { kernelAt a with cs := GDT.UserCode, ds := GDT.UserData, ss := GDT.UserData }

/-- Two threads in user mode, without kill handlers: thread 1 executes at address 100, and was last
    preempted at address 200, where thread 2 stands too. -/
def twoUsers : Machine where
  cpu :=
    { twoThreads.cpu with
      thread := fun t => { threadAt t 200 with registers := userAt 200 }, live := userAt 100 }
  running := 1
  stopped := fun _ => userAt 200
  due := fun _ => false

theorem twoUsers_init : Init twoUsers :=
  ⟨rfl, rfl, fun _ => rfl, fun _ => rfl, fun _ => rfl, fun _ => rfl, by decide⟩

/-- **The interrupted thread is not safe**: thread 1 is killed while it executes, the next tick
    takes the request off, and thread 1 goes on at address 100 as if nothing had happened. -/
theorem request_lost : ¬ ∀ m, Reach step Init m → NoneLost m := by
  intro hall
  obtain ⟨m, hm⟩ := Option.isSome_iff_exists.mp
    (show (twoUsers.run [.kill 0 1, .tick 0]).isSome = true by decide)
  have hval : (twoUsers.run [.kill 0 1, .tick 0]).map
      (fun m => (m.running, m.due 1, (m.cpu.thread 1).registers.rip,
        (m.cpu.thread 1).killHandlerRip)) = some (2, true, .addr 100, 0) := by decide
  rw [hm] at hval
  obtain ⟨h1, h2⟩ := Prod.mk.inj (Option.some.inj hval)
  obtain ⟨h2, h3⟩ := Prod.mk.inj h2
  obtain ⟨h3, h4⟩ := Prod.mk.inj h3
  have h := hall m (reach_run (.start _ twoUsers_init) (fun _ _ _ _ h => h) hm) 1 h2
  rw [context_of (by rw [h1]; decide)] at h
  unfold Redirected at h
  rw [h3] at h
  exact h.2.1 h4

/-- A run that meets the condition: thread 2 is killed while it is preempted, and the next tick
    sends it to `ThreadExit`. -/
theorem request_not_lost_preempted : ∃ m, Reach (Guarded step KillOk) Init m ∧ m.due 2 = true ∧
    NoneLost m := by
  obtain ⟨m, hm⟩ := Option.isSome_iff_exists.mp
    (show (twoUsers.run [.kill 0 2]).isSome = true by decide)
  obtain ⟨m', hm'⟩ := Option.isSome_iff_exists.mp
    (show (twoUsers.run [.kill 0 2, .tick 0]).isSome = true by decide)
  have hval : (twoUsers.run [.kill 0 2]).map
      (fun m => (m.running, m.cpu.live.rip, (m.cpu.thread 1).killPending,
        (m.cpu.thread 1).abortPending)) = some (1, .addr 100, false, false) := by decide
  have hdue : (twoUsers.run [.kill 0 2, .tick 0]).map (fun m => m.due 2) = some true := by decide
  rw [hm] at hval
  rw [hm'] at hdue
  obtain ⟨h1, h2⟩ := Prod.mk.inj (Option.some.inj hval)
  obtain ⟨h2, h3⟩ := Prod.mk.inj h2
  obtain ⟨h3, h4⟩ := Prod.mk.inj h3
  have hlast : step m (.tick 0) m' := by
    unfold step
    rw [Machine.run, show ([.kill 0 2, .tick 0] : List Event) = [.kill 0 2] ++ [.tick 0] from rfl,
      List.foldlM_append, ← Machine.run, hm] at hm'
    simpa using hm'
  have hreach : Reach (Guarded step KillOk) Init m := by
    refine reach_run (.start _ twoUsers_init) (fun e he _ _ h => ⟨h, ?_, ?_⟩) hm
    · rintro tsc rfl
      simp at he
    · rintro tsc rfl
      simp at he
  have hok : KillOk m (.tick 0) := by
    refine ⟨fun _ _ f hf _ => ?_, fun _ _ _ hst => ?_⟩
    · cases hf.symm.trans h2
    · obtain ⟨-, -, -, hp⟩ := hst
      rw [h1] at hp
      rcases hp with hp | hp
      · cases h3.symm.trans hp
      · cases h4.symm.trans hp
  have hreach' : Reach (Guarded step KillOk) Init m' := .next m _ m' hreach ⟨hlast, hok⟩
  exact ⟨m', hreach', Option.some.inj hdue, request_not_lost hreach'⟩

end Scheduler

end SimpleOS2
