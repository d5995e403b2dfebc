/-
  File:      SimpleOS2/Locks/StickyLock.lean
  Subject:   THE SPINLOCK (locks/StickyLock.cpp), with threads that are preempted and handlers that interrupt them.

  A thread takes the lock by `Spinlock` and is sticky until `Unlock`, or by `Spinlock_Cli` and has interrupts off until
  `Unlock_Cli`; an interrupt handler takes it by `Spinlock_Raw`. Whoever finds it taken spins. A spinner that keeps the
  holder from running would spin for ever.

  * `lockStep` -- threads on any number of cores, the timer, the handlers; the counts of other locks the threads take;
  * `LockInv`, `lockInv_step` -- the holder is on its core, and what its counts are;
  * `Discipline` -- one context holds the lock at a time, it can always go on, and no one spins on its core;
  * `no_deadlock` -- so it is where threads use `Spinlock_Cli` for a lock that handlers take, and
    `deadlock_free_iff` -- only there.
-/
import SimpleOS2.Lib.Run
import Mathlib.Logic.Function.Basic

namespace SimpleOS2

open Lib

namespace StickyLock

/-! ## 1. The lock, the threads and the handlers -/

/-- By which function the threads take the lock. -/
inductive Mode
  /-- `Spinlock` and `Unlock` -/
  | sticky
  /-- `Spinlock_Cli` and `Unlock_Cli` -/
  | cli
  deriving DecidableEq

/-- Where a thread stands in the two functions. -/
inductive Pc
  | out
  /-- behind `cliCount++`, before the `cli` -/
  | counted
  /-- in the loop around `TryLock` -/
  | trying
  | inside
  /-- behind `DoUnlock` -/
  | released
  /-- behind `cliCount--`, before the test of it -/
  | uncounted
  deriving DecidableEq

/-- Where the handler of a core stands. -/
inductive HandlerPc
  /-- no handler runs on the core -/
  | out
  /-- in the loop of `Spinlock_Raw` -/
  | trying
  | inside
  deriving DecidableEq

/-- `val` is `m_Val` as a flag; `flag` is the interrupt flag of a thread, live or saved. -/
structure Sys (n : Nat) where
  val : Bool
  currentThread : Fin n → Nat
  handler : Fin n → HandlerPc
  stickyCount : Nat → Nat
  cliCount : Nat → Nat
  flag : Nat → Bool
  pc : Nat → Pc

inductive Event (n : Nat)
  /-- `Tick` goes on to another thread -/
  | tick (c : Fin n) (next : Nat)
  /-- `ThreadYield`, `ThreadBlock` -/
  | yield (c : Fin n) (next : Nat)
  /-- the first line of `Spinlock` or `Spinlock_Cli` -/
  | start (t : Nat)
  | disable (t : Nat)
  | tryLock (t : Nat)
  | doUnlock (t : Nat)
  | uncount (t : Nat)
  | enable (t : Nat)
  /-- the functions of the scheduler, called for another lock -/
  | setSticky (t : Nat)
  | unsetSticky (t : Nat)
  | disableInterrupts (t : Nat)
  | enableInterrupts (t : Nat)
  /-- an interrupt whose handler takes the lock -/
  | interrupt (c : Fin n)
  | handlerTry (c : Fin n)
  | handlerUnlock (c : Fin n)

section Machine

variable {n : Nat} (mode : Mode) (raw : Bool) (core : Nat → Fin n)

/-- The thread executes: it is the current one of its core, and no handler runs there. -/
def Sys.runs (s : Sys n) (t : Nat) : Prop := s.currentThread (core t) = t ∧ s.handler (core t) = .out

instance decidableRuns (s : Sys n) (t : Nat) : Decidable (s.runs core t) :=
  inferInstanceAs (Decidable (_ ∧ _))

def Sys.setPc (s : Sys n) (t : Nat) (pc : Pc) : Sys n := { s with pc := Function.update s.pc t pc }

def Sys.setHandler (s : Sys n) (c : Fin n) (pc : HandlerPc) : Sys n :=
  { s with handler := Function.update s.handler c pc }

def Sys.setFlag (s : Sys n) (t : Nat) (b : Bool) : Sys n := { s with flag := Function.update s.flag t b }

def Sys.addSticky (s : Sys n) (t k : Nat) : Sys n :=
  { s with stickyCount := Function.update s.stickyCount t k }

def Sys.addCli (s : Sys n) (t k : Nat) : Sys n := { s with cliCount := Function.update s.cliCount t k }

/-- What this lock adds to a count of a thread that stands at `pc`, outside the first and the last line. -/
def owns (m : Mode) (pc : Pc) : Nat := if pc = .inside ∧ mode = m then 1 else 0

/-- One step. `raw` says whether handlers take the lock, too. -/
def exec (s : Sys n) : Event n → Option (Sys n)
  | .tick c next =>
      if s.handler c = .out ∧ s.flag (s.currentThread c) = true ∧ s.stickyCount (s.currentThread c) = 0 ∧
          core next = c then
        some { s with currentThread := Function.update s.currentThread c next }
      else none
  | .yield c next =>
      if s.handler c = .out ∧ s.pc (s.currentThread c) = .out ∧ core next = c then
        some { s with currentThread := Function.update s.currentThread c next }
      else none
  | .start t =>
      if s.runs core t ∧ s.pc t = .out then
        match mode with
        | .sticky => some ((s.addSticky t (s.stickyCount t + 1)).setPc t .trying)
        | .cli => some ((s.addCli t (s.cliCount t + 1)).setPc t .counted)
      else none
  | .disable t =>
      if s.runs core t ∧ s.pc t = .counted then some ((s.setFlag t false).setPc t .trying) else none
  | .tryLock t =>
      if s.runs core t ∧ s.pc t = .trying then
        if s.val = true then some s else some ({ s with val := true }.setPc t .inside)
      else none
  | .doUnlock t =>
      if s.runs core t ∧ s.pc t = .inside then some ({ s with val := false }.setPc t .released) else none
  | .uncount t =>
      if s.runs core t ∧ s.pc t = .released then
        match mode with
        | .sticky => some ((s.addSticky t (s.stickyCount t - 1)).setPc t .out)
        | .cli => some ((s.addCli t (s.cliCount t - 1)).setPc t .uncounted)
      else none
  | .enable t =>
      if s.runs core t ∧ s.pc t = .uncounted then
        if s.cliCount t = 0 then some ((s.setFlag t true).setPc t .out) else some (s.setPc t .out)
      else none
  | .setSticky t =>
      if s.runs core t ∧ (s.pc t = .out ∨ s.pc t = .inside) then some (s.addSticky t (s.stickyCount t + 1)) else none
  | .unsetSticky t =>
      if s.runs core t ∧ (s.pc t = .out ∨ s.pc t = .inside) ∧ owns mode .sticky (s.pc t) < s.stickyCount t then
        some (s.addSticky t (s.stickyCount t - 1))
      else none
  | .disableInterrupts t =>
      if s.runs core t ∧ (s.pc t = .out ∨ s.pc t = .inside) then
        some ((s.addCli t (s.cliCount t + 1)).setFlag t false)
      else none
  | .enableInterrupts t =>
      if s.runs core t ∧ (s.pc t = .out ∨ s.pc t = .inside) ∧ owns mode .cli (s.pc t) < s.cliCount t then
        if s.cliCount t - 1 = 0 then some ((s.addCli t (s.cliCount t - 1)).setFlag t true)
        else some (s.addCli t (s.cliCount t - 1))
      else none
  | .interrupt c =>
      if raw = true ∧ s.handler c = .out ∧ s.flag (s.currentThread c) = true then some (s.setHandler c .trying)
      else none
  | .handlerTry c =>
      if s.handler c = .trying then
        if s.val = true then some s else some ({ s with val := true }.setHandler c .inside)
      else none
  | .handlerUnlock c =>
      if s.handler c = .inside then some ({ s with val := false }.setHandler c .out) else none

def lockStep (s : Sys n) (e : Event n) (s' : Sys n) : Prop := exec mode raw core s e = some s'

/-- Nobody has called for the lock. -/
structure Start (s : Sys n) : Prop where
  val : s.val = false
  handler : ∀ c, s.handler c = .out
  pc : ∀ t, s.pc t = .out
  current : ∀ c, core (s.currentThread c) = c

end Machine

/-- A thread, or the handler of a core. -/
inductive Context (n : Nat)
  | thread (t : Nat)
  | handler (c : Fin n)

section Contexts

variable {n : Nat} (core : Nat → Fin n) (s : Sys n)

/-- The core a context runs on. -/
def Context.on : Context n → Fin n
  | thread t => core t
  | handler c => c

def Context.holds : Context n → Prop
  | thread t => s.pc t = .inside
  | handler c => s.handler c = .inside

def Context.spins : Context n → Prop
  | thread t => s.pc t = .trying
  | handler c => s.handler c = .trying

/-- The next step of a context that spins, and of one that holds. -/
def Context.tries : Context n → Event n
  | thread t => .tryLock t
  | handler c => .handlerTry c

def Context.unlocks : Context n → Event n
  | thread t => .doUnlock t
  | handler c => .handlerUnlock c

end Contexts

/-! ## 2. What every step keeps -/

/-- In the loop around `TryLock`, or with the lock. -/
def Pc.inLoop : Pc → Bool
  | trying | inside => true
  | out | counted | released | uncounted => false

/-- The counts and the flag of a thread that stands at `pc`. -/
def ThreadOk (sticky cli : Nat) (flag : Bool) : Mode → Pc → Prop
  | _, .out => True
  | .sticky, .trying | .sticky, .inside | .sticky, .released => 1 ≤ sticky
  | .sticky, .counted | .sticky, .uncounted => False
  | .cli, .counted => 1 ≤ cli
  | .cli, .trying | .cli, .inside | .cli, .released => 1 ≤ cli ∧ flag = false
  | .cli, .uncounted => flag = false

/-- Who is in the loop is on its core, and no handler interrupts it there. -/
structure Placed {n : Nat} (raw : Bool) (core : Nat → Fin n) (s : Sys n) : Prop where
  place : ∀ c, core (s.currentThread c) = c
  runs : ∀ t, (s.pc t).inLoop = true → s.runs core t
  raw : ∀ c, s.handler c ≠ .out → raw = true

/-- One context holds the lock at a time, and `m_Val` says whether there is one. -/
structure Exclusive {n : Nat} (s : Sys n) : Prop where
  one : ∀ x y : Context n, x.holds s → y.holds s → x = y
  val : s.val = true ↔ ∃ x : Context n, x.holds s

structure LockInv {n : Nat} (mode : Mode) (raw : Bool) (core : Nat → Fin n) (s : Sys n) : Prop where
  threads : ∀ t, ThreadOk (s.stickyCount t) (s.cliCount t) (s.flag t) mode (s.pc t)
  placed : Placed raw core s
  exclusive : Exclusive s

section Steps

variable {n : Nat} {mode : Mode} {raw : Bool} {core : Nat → Fin n} {s s' : Sys n} {t : Nat} {c : Fin n}

/-- A thread in the loop is not preempted. -/
theorem ThreadOk.kept {sticky cli : Nat} {pc : Pc} (h : ThreadOk sticky cli true mode pc) (hs : sticky = 0) :
    pc.inLoop = false := by
  subst hs
  cases mode <;> cases pc <;> first | rfl | exact absurd h (Nat.not_succ_le_zero 0) | cases h.2

/-- Where handlers take the lock, a thread in the loop is not interrupted either. -/
theorem ThreadOk.masked {sticky cli : Nat} {pc : Pc} (h : ThreadOk sticky cli true .cli pc) : pc.inLoop = false := by
  cases pc <;> first | rfl | cases h.2

theorem Exclusive.congr (h : Exclusive s) (hv : s'.val = s.val) (hh : ∀ x : Context n, x.holds s' ↔ x.holds s) :
    Exclusive s' :=
  ⟨fun x y hx hy => h.one x y ((hh x).mp hx) ((hh y).mp hy), hv ▸ h.val.trans (exists_congr fun x => (hh x).symm)⟩

/-- The lock was free, and `x` has it. -/
theorem Exclusive.take (h : Exclusive s) {x : Context n} (hfree : s.val ≠ true) (hv : s'.val = true)
    (hh : ∀ y : Context n, y.holds s' → y = x ∨ y.holds s) (hx : x.holds s') : Exclusive s' := by
  have honly : ∀ y : Context n, y.holds s' → y = x := by
    intro y hy
    rcases hh y hy with hy | hy
    · exact hy
    · exact absurd (h.val.mpr ⟨y, hy⟩) hfree
  exact ⟨fun y z hy hz => (honly y hy).trans (honly z hz).symm, iff_of_true hv ⟨x, hx⟩⟩

/-- `x` gives the lock back. -/
theorem Exclusive.drop (h : Exclusive s) {x : Context n} (hx : x.holds s) (hv : s'.val = false)
    (hh : ∀ y : Context n, y.holds s' → y ≠ x ∧ y.holds s) : Exclusive s' := by
  have hnone : ∀ y : Context n, ¬ y.holds s' := by
    intro y hy
    obtain ⟨hne, hy⟩ := hh y hy
    exact hne (h.one y x hy hx)
  refine ⟨fun y z hy _ => absurd hy (hnone y), iff_of_false (by rw [hv]; exact Bool.false_ne_true) ?_⟩
  rintro ⟨y, hy⟩
  exact hnone y hy

/-- Another thread becomes the current one of a core whose thread is not in the loop. -/
theorem Placed.switch (h : Placed raw core s) {next : Nat} (hc : (s.pc (s.currentThread c)).inLoop = false)
    (hnext : core next = c) (hcur : s'.currentThread = Function.update s.currentThread c next)
    (hh : s'.handler = s.handler) (hpc : s'.pc = s.pc) : Placed raw core s' := by
  refine ⟨fun d => ?_, fun u hu => ?_, hh ▸ h.raw⟩
  · rw [hcur]
    by_cases hd : d = c
    · rw [hd, Function.update_self]
      exact hnext
    · rw [Function.update_of_ne hd]
      exact h.place d
  · rw [hpc] at hu
    obtain ⟨h1, h2⟩ := h.runs u hu
    refine ⟨?_, hh ▸ h2⟩
    have hne : core u ≠ c := by
      intro hx
      rw [← hx, h1, hu] at hc
      cases hc
    rw [hcur, Function.update_of_ne hne]
    exact h1

/-- A step of a thread: its own counts, flag and place. -/
theorem LockInv.thread (h : LockInv mode raw core s) (hr : s.runs core t) {sticky cli : Nat} {flag : Bool} {pc : Pc}
    (hsticky : s'.stickyCount = Function.update s.stickyCount t sticky)
    (hcli : s'.cliCount = Function.update s.cliCount t cli) (hflag : s'.flag = Function.update s.flag t flag)
    (hpc : s'.pc = Function.update s.pc t pc) (hcur : s'.currentThread = s.currentThread)
    (hh : s'.handler = s.handler) (ht : ThreadOk sticky cli flag mode pc) (hex : Exclusive s') :
    LockInv mode raw core s' := by
  refine ⟨fun u => ?_, ⟨hcur ▸ h.placed.place, fun u hu => ?_, hh ▸ h.placed.raw⟩, hex⟩
  · rw [hsticky, hcli, hflag, hpc]
    by_cases hut : u = t
    · rw [hut]
      simp only [Function.update_self]
      exact ht
    · simp only [Function.update_of_ne hut]
      exact h.threads u
  · unfold Sys.runs
    rw [hcur, hh]
    by_cases hut : u = t
    · exact hut ▸ hr
    · rw [hpc, Function.update_of_ne hut] at hu
      exact h.placed.runs u hu

/-- The threads and handlers that hold the lock, when a thread that does not moves to a place where it does not. -/
theorem holds_update {pc : Pc} (hpc : s'.pc = Function.update s.pc t pc) (hh : s'.handler = s.handler)
    (h : s.pc t ≠ .inside) (hp : pc ≠ .inside) (x : Context n) : x.holds s' ↔ x.holds s := by
  cases x with
  | thread u =>
      show s'.pc u = .inside ↔ s.pc u = .inside
      rw [hpc]
      by_cases hut : u = t
      · rw [hut, Function.update_self]
        exact iff_of_false hp h
      · rw [Function.update_of_ne hut]
  | handler c =>
      show s'.handler c = .inside ↔ s.handler c = .inside
      rw [hh]

theorem same_update {α : Type _} (f : Nat → α) (t : Nat) : f = Function.update f t (f t) :=
  (Function.update_eq_self t f).symm

theorem LockInv.startStep (h : LockInv mode raw core s) (hs : lockStep mode raw core s (.start t) s') :
    LockInv mode raw core s' := by
  obtain ⟨⟨hr, hp⟩, hs⟩ := Option.ite_none_right_eq_some.mp hs
  have hne : s.pc t ≠ .inside := by
    rw [hp]
    nofun
  cases mode with
  | sticky =>
      obtain rfl := Option.some.inj hs
      exact h.thread hr rfl (same_update _ t) (same_update _ t) rfl rfl rfl (Nat.le_add_left 1 _)
        (h.exclusive.congr rfl (holds_update rfl rfl hne nofun))
  | cli =>
      obtain rfl := Option.some.inj hs
      exact h.thread hr (same_update _ t) rfl (same_update _ t) rfl rfl rfl (Nat.le_add_left 1 _)
        (h.exclusive.congr rfl (holds_update rfl rfl hne nofun))

theorem LockInv.disableStep (h : LockInv mode raw core s) (hs : lockStep mode raw core s (.disable t) s') :
    LockInv mode raw core s' := by
  obtain ⟨⟨hr, hp⟩, hs⟩ := Option.ite_none_right_eq_some.mp hs
  obtain rfl := Option.some.inj hs
  have hne : s.pc t ≠ .inside := by
    rw [hp]
    nofun
  have hok := h.threads t
  rw [hp] at hok
  refine h.thread hr (same_update _ t) (same_update _ t) rfl rfl rfl rfl ?_
    (h.exclusive.congr rfl (holds_update rfl rfl hne nofun))
  cases mode with
  | sticky => exact hok.elim
  | cli => exact ⟨hok, rfl⟩

theorem LockInv.tryStep (h : LockInv mode raw core s) (hs : lockStep mode raw core s (.tryLock t) s') :
    LockInv mode raw core s' := by
  obtain ⟨⟨hr, hp⟩, hs⟩ := Option.ite_none_right_eq_some.mp hs
  split_ifs at hs with hv
  · exact Option.some.inj hs ▸ h
  · obtain rfl := Option.some.inj hs
    have hok := h.threads t
    rw [hp] at hok
    refine h.thread hr (same_update _ t) (same_update _ t) (same_update _ t) rfl rfl rfl ?_ ?_
    · cases mode <;> exact hok
    · refine h.exclusive.take (x := .thread t) hv rfl (fun y hy => ?_) (Function.update_self t _ _)
      cases y with
      | thread u =>
          by_cases hut : u = t
          · exact Or.inl (hut ▸ rfl)
          · change Function.update s.pc t Pc.inside u = .inside at hy
            rw [Function.update_of_ne hut] at hy
            exact Or.inr hy
      | handler d => exact Or.inr hy

theorem LockInv.unlockStep (h : LockInv mode raw core s) (hs : lockStep mode raw core s (.doUnlock t) s') :
    LockInv mode raw core s' := by
  obtain ⟨⟨hr, hp⟩, hs⟩ := Option.ite_none_right_eq_some.mp hs
  obtain rfl := Option.some.inj hs
  have hok := h.threads t
  rw [hp] at hok
  refine h.thread hr (same_update _ t) (same_update _ t) (same_update _ t) rfl rfl rfl ?_ ?_
  · cases mode <;> exact hok
  · refine h.exclusive.drop (x := .thread t) hp rfl fun y hy => ?_
    cases y with
    | thread u =>
        change Function.update s.pc t Pc.released u = .inside at hy
        by_cases hut : u = t
        · rw [hut, Function.update_self] at hy
          cases hy
        · rw [Function.update_of_ne hut] at hy
          exact ⟨fun hx => hut (Context.thread.inj hx), hy⟩
    | handler d => exact ⟨nofun, hy⟩

theorem LockInv.uncountStep (h : LockInv mode raw core s) (hs : lockStep mode raw core s (.uncount t) s') :
    LockInv mode raw core s' := by
  obtain ⟨⟨hr, hp⟩, hs⟩ := Option.ite_none_right_eq_some.mp hs
  have hne : s.pc t ≠ .inside := by
    rw [hp]
    nofun
  have hok := h.threads t
  rw [hp] at hok
  cases mode with
  | sticky =>
      obtain rfl := Option.some.inj hs
      exact h.thread hr rfl (same_update _ t) (same_update _ t) rfl rfl rfl trivial
        (h.exclusive.congr rfl (holds_update rfl rfl hne nofun))
  | cli =>
      obtain rfl := Option.some.inj hs
      exact h.thread hr (same_update _ t) rfl (same_update _ t) rfl rfl rfl hok.2
        (h.exclusive.congr rfl (holds_update rfl rfl hne nofun))

theorem LockInv.enableStep (h : LockInv mode raw core s) (hs : lockStep mode raw core s (.enable t) s') :
    LockInv mode raw core s' := by
  obtain ⟨⟨hr, hp⟩, hs⟩ := Option.ite_none_right_eq_some.mp hs
  have hne : s.pc t ≠ .inside := by
    rw [hp]
    nofun
  have hout : ∀ sticky cli flag, ThreadOk sticky cli flag mode .out := by
    intro sticky cli flag
    cases mode <;> trivial
  split_ifs at hs with hz
  · obtain rfl := Option.some.inj hs
    exact h.thread hr (same_update _ t) (same_update _ t) rfl rfl rfl rfl (hout _ _ _)
      (h.exclusive.congr rfl (holds_update rfl rfl hne nofun))
  · obtain rfl := Option.some.inj hs
    exact h.thread hr (same_update _ t) (same_update _ t) (same_update _ t) rfl rfl rfl (hout _ _ _)
      (h.exclusive.congr rfl (holds_update rfl rfl hne nofun))

/-- The counts and the flag of a thread that is at other code, with the lock or without it. -/
theorem threadOk_other {sticky cli : Nat} {flag : Bool} {pc : Pc} (hpc : pc = .out ∨ pc = .inside)
    (hs : mode = .sticky → pc = .inside → 1 ≤ sticky) (hc : mode = .cli → pc = .inside → 1 ≤ cli ∧ flag = false) :
    ThreadOk sticky cli flag mode pc := by
  rcases hpc with rfl | rfl
  · cases mode <;> trivial
  · cases mode with
    | sticky => exact hs rfl rfl
    | cli => exact hc rfl rfl

/-- A step at other code: a count or the flag of a thread. -/
theorem LockInv.other (h : LockInv mode raw core s) (hr : s.runs core t) (hpc : s.pc t = .out ∨ s.pc t = .inside)
    {sticky cli : Nat} {flag : Bool} (hsticky : s'.stickyCount = Function.update s.stickyCount t sticky)
    (hcli : s'.cliCount = Function.update s.cliCount t cli) (hflag : s'.flag = Function.update s.flag t flag)
    (hp : s'.pc = s.pc) (hcur : s'.currentThread = s.currentThread) (hh : s'.handler = s.handler) (hv : s'.val = s.val)
    (hs : mode = .sticky → s.pc t = .inside → 1 ≤ sticky)
    (hc : mode = .cli → s.pc t = .inside → 1 ≤ cli ∧ flag = false) : LockInv mode raw core s' := by
  refine h.thread hr hsticky hcli hflag (hp.trans (same_update _ t)) hcur hh (threadOk_other hpc hs hc)
    (h.exclusive.congr hv fun x => ?_)
  cases x with
  | thread u =>
      show s'.pc u = .inside ↔ s.pc u = .inside
      rw [hp]
  | handler c =>
      show s'.handler c = .inside ↔ s.handler c = .inside
      rw [hh]

/-- What a thread with the lock has on its counts. -/
theorem LockInv.inside (h : LockInv mode raw core s) (hp : s.pc t = .inside) :
    (mode = .sticky → 1 ≤ s.stickyCount t) ∧ (mode = .cli → 1 ≤ s.cliCount t ∧ s.flag t = false) := by
  have hok := h.threads t
  rw [hp] at hok
  constructor <;> rintro rfl <;> exact hok

theorem owns_inside (m : Mode) (hm : mode = m) : owns mode m .inside = 1 := if_pos ⟨rfl, hm⟩

theorem LockInv.countStep {e : Event n} (h : LockInv mode raw core s) (hs : lockStep mode raw core s e s')
    (he : e = .setSticky t ∨ e = .unsetSticky t ∨ e = .disableInterrupts t ∨ e = .enableInterrupts t) :
    LockInv mode raw core s' := by
  rcases he with rfl | rfl | rfl | rfl
  · obtain ⟨⟨hr, hpc⟩, hs⟩ := Option.ite_none_right_eq_some.mp hs
    obtain rfl := Option.some.inj hs
    exact h.other hr hpc rfl (same_update _ t) (same_update _ t) rfl rfl rfl rfl (fun _ _ => Nat.le_add_left 1 _)
      fun hm hp => (h.inside hp).2 hm
  · obtain ⟨⟨hr, hpc, hlt⟩, hs⟩ := Option.ite_none_right_eq_some.mp hs
    obtain rfl := Option.some.inj hs
    refine h.other hr hpc rfl (same_update _ t) (same_update _ t) rfl rfl rfl rfl (fun hm hp => ?_)
      fun hm hp => (h.inside hp).2 hm
    rw [hp, owns_inside .sticky hm] at hlt
    omega
  · obtain ⟨⟨hr, hpc⟩, hs⟩ := Option.ite_none_right_eq_some.mp hs
    obtain rfl := Option.some.inj hs
    exact h.other hr hpc (same_update _ t) rfl rfl rfl rfl rfl rfl (fun hm hp => (h.inside hp).1 hm)
      fun _ _ => ⟨Nat.le_add_left 1 _, rfl⟩
  · obtain ⟨⟨hr, hpc, hlt⟩, hs⟩ := Option.ite_none_right_eq_some.mp hs
    have hcli : mode = .cli → s.pc t = .inside → 1 ≤ s.cliCount t - 1 := by
      intro hm hp
      rw [hp, owns_inside .cli hm] at hlt
      omega
    split_ifs at hs with hz
    · obtain rfl := Option.some.inj hs
      refine h.other hr hpc (same_update _ t) rfl rfl rfl rfl rfl rfl (fun hm hp => (h.inside hp).1 hm) fun hm hp => ?_
      have := hcli hm hp
      omega
    · obtain rfl := Option.some.inj hs
      exact h.other hr hpc (same_update _ t) rfl (same_update _ t) rfl rfl rfl rfl (fun hm hp => (h.inside hp).1 hm)
        fun hm hp => ⟨hcli hm hp, ((h.inside hp).2 hm).2⟩

theorem LockInv.switchStep {next : Nat} {e : Event n} (h : LockInv mode raw core s)
    (hs : lockStep mode raw core s e s') (he : e = .tick c next ∨ e = .yield c next) : LockInv mode raw core s' := by
  have hgo : (s.pc (s.currentThread c)).inLoop = false → core next = c →
      LockInv mode raw core { s with currentThread := Function.update s.currentThread c next } := by
    intro hc hnext
    refine ⟨h.threads, h.placed.switch hc hnext rfl rfl rfl, h.exclusive.congr rfl fun x => ?_⟩
    cases x <;> exact Iff.rfl
  rcases he with rfl | rfl
  · obtain ⟨⟨-, hflag, hst, hnext⟩, hs⟩ := Option.ite_none_right_eq_some.mp hs
    refine Option.some.inj hs ▸ hgo ?_ hnext
    have hok := h.threads (s.currentThread c)
    rw [hflag] at hok
    exact hok.kept hst
  · obtain ⟨⟨-, hout, hnext⟩, hs⟩ := Option.ite_none_right_eq_some.mp hs
    refine Option.some.inj hs ▸ hgo ?_ hnext
    rw [hout]
    rfl

/-- The handler of a core on which no thread is in the loop. -/
theorem Placed.handler {pc : HandlerPc} (h : Placed raw core s) (hnot : ∀ t, (s.pc t).inLoop = true → core t ≠ c)
    (hraw : raw = true) (hcur : s'.currentThread = s.currentThread)
    (hh : s'.handler = Function.update s.handler c pc) (hpc : s'.pc = s.pc) : Placed raw core s' := by
  refine ⟨hcur ▸ h.place, fun t ht => ?_, fun _ _ => hraw⟩
  rw [hpc] at ht
  unfold Sys.runs
  rw [hcur, hh, Function.update_of_ne (hnot t ht)]
  exact h.runs t ht

/-- A handler in the loop has no thread in the loop on its core. -/
theorem Placed.apart (h : Placed raw core s) (hc : s.handler c ≠ .out) (t : Nat) (ht : (s.pc t).inLoop = true) :
    core t ≠ c := by
  rintro rfl
  exact hc (h.runs t ht).2

theorem LockInv.interruptStep (hraw : raw = true → mode = .cli) (h : LockInv mode raw core s)
    (hs : lockStep mode raw core s (.interrupt c) s') : LockInv mode raw core s' := by
  obtain ⟨⟨hr, hout, hflag⟩, hs⟩ := Option.ite_none_right_eq_some.mp hs
  obtain rfl := Option.some.inj hs
  refine ⟨h.threads, h.placed.handler (fun t ht hct => ?_) hr rfl rfl rfl, h.exclusive.congr rfl fun x => ?_⟩
  · -- the thread that is interrupted has interrupts on
    have hcur := (h.placed.runs t ht).1
    rw [hct] at hcur
    have hok := h.threads t
    rw [← hcur, hflag, hraw hr] at hok
    rw [← hcur, hok.masked] at ht
    cases ht
  · cases x with
    | thread u => exact Iff.rfl
    | handler d =>
        show Function.update s.handler c HandlerPc.trying d = .inside ↔ s.handler d = .inside
        by_cases hd : d = c
        · rw [hd, Function.update_self, hout]
          exact iff_of_false nofun nofun
        · rw [Function.update_of_ne hd]

theorem LockInv.handlerTryStep (h : LockInv mode raw core s) (hs : lockStep mode raw core s (.handlerTry c) s') :
    LockInv mode raw core s' := by
  obtain ⟨hp, hs⟩ := Option.ite_none_right_eq_some.mp hs
  have hne : s.handler c ≠ .out := by
    rw [hp]
    nofun
  split_ifs at hs with hv
  · exact Option.some.inj hs ▸ h
  · obtain rfl := Option.some.inj hs
    refine ⟨h.threads, h.placed.handler (h.placed.apart hne) (h.placed.raw c hne) rfl rfl rfl,
      h.exclusive.take (x := .handler c) hv rfl (fun y hy => ?_) (Function.update_self c _ _)⟩
    cases y with
    | thread u => exact Or.inr hy
    | handler d =>
        by_cases hd : d = c
        · exact Or.inl (hd ▸ rfl)
        · change Function.update s.handler c HandlerPc.inside d = .inside at hy
          rw [Function.update_of_ne hd] at hy
          exact Or.inr hy

theorem LockInv.handlerUnlockStep (h : LockInv mode raw core s)
    (hs : lockStep mode raw core s (.handlerUnlock c) s') : LockInv mode raw core s' := by
  obtain ⟨hp, hs⟩ := Option.ite_none_right_eq_some.mp hs
  obtain rfl := Option.some.inj hs
  have hne : s.handler c ≠ .out := by
    rw [hp]
    nofun
  refine ⟨h.threads, h.placed.handler (h.placed.apart hne) (h.placed.raw c hne) rfl rfl rfl,
    h.exclusive.drop (x := .handler c) hp rfl fun y hy => ?_⟩
  cases y with
  | thread u => exact ⟨nofun, hy⟩
  | handler d =>
      change Function.update s.handler c HandlerPc.out d = .inside at hy
      by_cases hd : d = c
      · rw [hd, Function.update_self] at hy
        cases hy
      · rw [Function.update_of_ne hd] at hy
        exact ⟨fun hx => hd (Context.handler.inj hx), hy⟩

theorem lockInv_step (hraw : raw = true → mode = .cli) {e : Event n} (h : LockInv mode raw core s)
    (hs : lockStep mode raw core s e s') : LockInv mode raw core s' := by
  cases e with
  | tick c next => exact h.switchStep hs (Or.inl rfl)
  | yield c next => exact h.switchStep hs (Or.inr rfl)
  | start t => exact h.startStep hs
  | disable t => exact h.disableStep hs
  | tryLock t => exact h.tryStep hs
  | doUnlock t => exact h.unlockStep hs
  | uncount t => exact h.uncountStep hs
  | enable t => exact h.enableStep hs
  | setSticky t => exact h.countStep hs (Or.inl rfl)
  | unsetSticky t => exact h.countStep hs (Or.inr (Or.inl rfl))
  | disableInterrupts t => exact h.countStep hs (Or.inr (Or.inr (Or.inl rfl)))
  | enableInterrupts t => exact h.countStep hs (Or.inr (Or.inr (Or.inr rfl)))
  | interrupt c => exact h.interruptStep hraw hs
  | handlerTry c => exact h.handlerTryStep hs
  | handlerUnlock c => exact h.handlerUnlockStep hs

theorem lockInv_start (h : Start core s) : LockInv mode raw core s := by
  have hnone : ∀ x : Context n, ¬ x.holds s := by
    intro x hx
    cases x with
    | thread t =>
        change s.pc t = .inside at hx
        rw [h.pc t] at hx
        cases hx
    | handler c =>
        change s.handler c = .inside at hx
        rw [h.handler c] at hx
        cases hx
  refine ⟨fun t => ?_, ⟨h.current, fun t ht => ?_, fun c hc => absurd (h.handler c) hc⟩,
    ⟨fun x _ hx _ => absurd hx (hnone x), iff_of_false ?_ fun hx => ?_⟩⟩
  · rw [h.pc t]
    cases mode <;> trivial
  · rw [h.pc t] at ht
    cases ht
  · rw [h.val]
    exact Bool.false_ne_true
  · obtain ⟨x, hx⟩ := hx
    exact hnone x hx

theorem lockInv_reach (hraw : raw = true → mode = .cli) (h : Reach (lockStep mode raw core) (Start core) s) :
    LockInv mode raw core s :=
  Reach.inv (I := LockInv mode raw core) (fun _ hs => lockInv_start hs) (fun _ _ _ hI hs => lockInv_step hraw hI hs) h

end Steps

/-! ## 3. Nobody spins for ever on a core that the holder needs -/

/-- What a spinlock has to keep, where threads are preempted and handlers interrupt them. -/
structure Discipline {n : Nat} (mode : Mode) (raw : Bool) (core : Nat → Fin n) (s : Sys n) : Prop where
  one : ∀ x y : Context n, x.holds s → y.holds s → x = y
  val : s.val = true ↔ ∃ x : Context n, x.holds s
  /-- who spins does not do so on the core of the holder -/
  apart : ∀ x y : Context n, x.spins s → y.holds s → x.on core ≠ y.on core
  /-- the holder can give the lock back with its next step -/
  goes : ∀ x : Context n, x.holds s → ∃ s', lockStep mode raw core s x.unlocks s' ∧ s'.val = false
  /-- when it is free, whoever spins gets it with its next step -/
  takes : ∀ x : Context n, x.spins s → s.val = false → ∃ s', lockStep mode raw core s x.tries s' ∧ x.holds s'

section Results

variable {n : Nat} {mode : Mode} {raw : Bool} {core : Nat → Fin n} {s : Sys n}

theorem LockInv.discipline (h : LockInv mode raw core s) : Discipline mode raw core s := by
  have hin : ∀ {t p}, s.pc t = p → p.inLoop = true → s.runs core t := fun hp hl => h.placed.runs _ (hp ▸ hl)
  refine ⟨h.exclusive.one, h.exclusive.val, fun x y hx hy => ?_, fun x hx => ?_, fun x hx hv => ?_⟩
  · cases x with
    | thread t =>
        have ht := hin hx rfl
        cases y with
        | thread u =>
            -- both would be the current thread of the core
            intro hc
            have hu := hin hy rfl
            have htu : t = u := ht.1.symm.trans ((congrArg s.currentThread hc).trans hu.1)
            rw [htu] at hx
            cases hx.symm.trans hy
        | handler d =>
            rintro rfl
            cases ht.2.symm.trans hy
    | handler c =>
        cases y with
        | thread u =>
            rintro rfl
            cases (hin hy rfl).2.symm.trans hx
        | handler d =>
            rintro rfl
            cases hx.symm.trans hy
  · cases x with
    | thread t =>
        exact ⟨_, if_pos ⟨hin hx rfl, hx⟩, rfl⟩
    | handler c => exact ⟨_, if_pos hx, rfl⟩
  · have hv' : ¬ s.val = true := by
      rw [hv]
      exact Bool.false_ne_true
    cases x with
    | thread t => exact ⟨_, (if_pos ⟨hin hx rfl, hx⟩).trans (if_neg hv'), Function.update_self t _ _⟩
    | handler c => exact ⟨_, (if_pos hx).trans (if_neg hv'), Function.update_self c _ _⟩

/-- **A lock that handlers take is taken by threads with interrupts off**; then no run comes to a deadlock. -/
theorem no_deadlock (hraw : raw = true → mode = .cli) (h : Reach (lockStep mode raw core) (Start core) s) :
    Discipline mode raw core s := (lockInv_reach hraw h).discipline

/-- Nobody has called for the lock, and interrupts are on. -/
def idle (thread : Fin n → Nat) : Sys n where
  val := false
  currentThread := thread
  handler _ := .out
  stickyCount _ := 0
  cliCount _ := 0
  flag _ := true
  pc _ := .out

/-- A thread has the lock by `Spinlock` when the interrupt comes: its handler spins for ever. -/
theorem handler_spins (hcore : Function.Surjective core) : ∃ s t, Reach (lockStep .sticky true core) (Start core) s ∧
    (Context.thread t).holds s ∧ (Context.handler (core t)).spins s := by
  obtain ⟨thread, hthread⟩ := hcore.hasRightInverse
  have hstart : Start core (idle thread) := ⟨rfl, fun _ => rfl, fun _ => rfl, hthread⟩
  let t := thread (core 0)
  have hcur : core t = core 0 := hthread (core 0)
  let s1 : Sys n := ((idle thread).addSticky t 1).setPc t .trying
  let s2 : Sys n := { s1 with val := true }.setPc t .inside
  let s3 : Sys n := s2.setHandler (core t) .trying
  have hruns : thread (core t) = t := congrArg thread hcur
  have h1 : lockStep .sticky true core (idle thread) (.start t) s1 := if_pos ⟨⟨hruns, rfl⟩, rfl⟩
  have h2 : lockStep .sticky true core s1 (.tryLock t) s2 :=
    (if_pos ⟨⟨hruns, rfl⟩, Function.update_self t _ _⟩).trans (if_neg Bool.false_ne_true)
  have h3 : lockStep .sticky true core s2 (.interrupt (core t)) s3 := by
    show (if true = true ∧ s2.handler (core t) = .out ∧ s2.flag (s2.currentThread (core t)) = true then some s3
      else none) = some s3
    exact if_pos ⟨rfl, rfl, rfl⟩
  exact ⟨s3, t, ((((Reach.start _ hstart).next _ _ _ h1).next _ _ _ h2).next _ _ _ h3), Function.update_self t _ _,
    Function.update_self (core t) _ _⟩

/-- **No deadlock, exactly where** a lock that handlers take is one that threads take by `Spinlock_Cli`. -/
theorem deadlock_free_iff (hcore : Function.Surjective core) :
    (∀ s, Reach (lockStep mode raw core) (Start core) s → Discipline mode raw core s) ↔ (raw = true → mode = .cli) := by
  refine ⟨fun hall hraw => ?_, fun hraw s h => no_deadlock hraw h⟩
  cases mode with
  | cli => rfl
  | sticky =>
      subst hraw
      obtain ⟨s, t, hs, hhold, hspin⟩ := handler_spins hcore
      exact ((hall s hs).apart (.handler (core t)) (.thread t) hspin hhold rfl).elim

/-- The lock of the keyboard queue on one CPU: taken by its handler, and by threads with interrupts off. -/
theorem deadlock_free_iff_keyboard : ∃ s : Sys 1, s.pc 0 = .inside ∧ s.flag 0 = false ∧
    Discipline .cli true (fun _ => 0) s := by
  have hcore : Function.Surjective fun _ : Nat => (0 : Fin 1) := fun c => ⟨0, (Fin.fin_one_eq_zero c).symm⟩
  have hall : ∀ s : Sys 1, Reach (lockStep .cli true fun _ => 0) (Start fun _ => 0) s →
      Discipline .cli true (fun _ => 0) s := (deadlock_free_iff hcore).mpr fun _ => rfl
  have hstart : Start (fun _ => 0) (idle fun _ : Fin 1 => 0) :=
    ⟨rfl, fun _ => rfl, fun _ => rfl, fun c => (Fin.fin_one_eq_zero c).symm⟩
  let s1 : Sys 1 := ((idle fun _ => 0).addCli 0 1).setPc 0 .counted
  let s2 : Sys 1 := (s1.setFlag 0 false).setPc 0 .trying
  let s3 : Sys 1 := { s2 with val := true }.setPc 0 .inside
  have h1 : lockStep .cli true (fun _ => 0) (idle fun _ => 0) (.start 0) s1 := rfl
  have h2 : lockStep .cli true (fun _ => 0) s1 (.disable 0) s2 := rfl
  have h3 : lockStep .cli true (fun _ => 0) s2 (.tryLock 0) s3 := rfl
  exact ⟨s3, rfl, rfl, hall s3 ((((Reach.start _ hstart).next _ _ _ h1).next _ _ _ h2).next _ _ _ h3)⟩

end Results

end StickyLock

end SimpleOS2
