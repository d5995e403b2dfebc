/-
  File:      SimpleOS2/Scheduler/Reaping.lean
  Subject:   WHO DELETES A THREAD (CloneThread, ThreadDetach, ThreadJoin, ThreadTryJoin, KillChildThreads,
             ThreadExit, UpdateEvents of scheduler/Scheduler.cpp).

  A thread is in the `activeList` of its CPU, in `g_GlobalThreadList`, and in `childThreads` of the process
  that made it. A join takes it out of the last, waits, takes it out of the second, and deletes it.

  * `updateThread`, `updateEvents`, `threadKill` -- the source's functions;
  * `reapStep` -- any number of threads on any number of CPUs; a step is a section under a lock, a block or
    a pass of `UpdateEvents`.
-/
import Mathlib.Logic.Function.Basic
import SimpleOS2.Lib.Run
import SimpleOS2.Klib.Memory

namespace SimpleOS2

open Lib

namespace Reaping

/-! ## 1. Threads -/

/-- `ThreadState`, with the argument of `SLEEP` and `JOIN`. -/
inductive ThreadState where
  | ready
  | sleep (arg : Nat)
  | queueLock
  | join (jt : Nat)
  | finished
  | exited
  deriving DecidableEq

/-- Where a thread stands. -/
inductive Pc where
  /-- In none of these functions. -/
  | running
  /-- `CloneThread`, before `activeList.push_back(newT)`. -/
  | cloneActive (newT : Nat)
  /-- `CloneThread`, before `g_GlobalThreadList.push_back(newT)`. -/
  | cloneGlobal (newT : Nat)
  /-- `CreateKernelThread`, before `g_GlobalThreadList.push_back(tInfo)`. -/
  | kernelGlobal (newT : Nat)
  /-- `CreateKernelThread`, before `g_InitThread->childThreads.push_back(tInfo)`. -/
  | kernelChild (newT : Nat)
  /-- `ThreadDetach`, between its two sections. -/
  | detach (x : Nat)
  /-- `ThreadJoin`, before `ThreadBlock`. -/
  | join (jt : Nat)
  /-- `ThreadJoin`, in `ThreadBlock`. -/
  | joinWait (jt : Nat)
  /-- `ThreadTryJoin`, with the exit code, before the section of the global list. -/
  | reap (jt : Nat) (code : Int)
  /-- Before `delete joinThread`; `ThreadJoin` has yet to read the exit code. -/
  | delete (jt : Nat) (code : Option Int)
  /-- `ThreadExit(code)`, at the head of the loop of `KillChildThreads`. -/
  | kill (code : Int)
  | killTaken (code : Int) (jt : Nat)
  | killWait (code : Int) (jt : Nat)
  /-- `ThreadExit`, after `KillChildThreads`. -/
  | exiting (code : Int)
  | gone
  deriving DecidableEq

structure ThreadInfo where
  mainThread : Nat
  uid : Nat
  state : ThreadState
  rax : Int
  killPending : Bool
  abortPending : Bool
  exitCode : Int
  pc : Pc
  deriving DecidableEq

/-- The threads, numbered as they are made; the lists; `deleted`, what the joins have deleted, with the exit
    codes they return; `dropped`, the children for which `KillChildThreads` has waited. -/
structure Sys where
  thread : Nat → ThreadInfo
  next : Nat
  childThreads : Nat → List Nat
  activeList : Nat → List Nat
  globalList : List Nat
  deleted : List (Nat × Int)
  dropped : List Nat

/-- `g_InitThread`. -/
def initThread : Nat := 0

namespace Sys

def set (s : Sys) (t : Nat) (ti : ThreadInfo) : Sys := { s with thread := Function.update s.thread t ti }

def goto (s : Sys) (t : Nat) (pc : Pc) : Sys := s.set t { s.thread t with pc := pc }

def setChildren (s : Sys) (p : Nat) (l : List Nat) : Sys :=
  { s with childThreads := Function.update s.childThreads p l }

def setActive (s : Sys) (cpu : Nat) (l : List Nat) : Sys :=
  { s with activeList := Function.update s.activeList cpu l }

/-- `new ThreadInfo()`. -/
def newThread (s : Sys) (main uid : Nat) : Sys :=
  { s.set s.next ⟨main, uid, .ready, 0, false, false, 0, .running⟩ with
    next := s.next + 1
    childThreads := Function.update s.childThreads s.next [] }

end Sys

/-! ## 2. The functions -/

/-- What a pass of `UpdateEvents` finds outside of this model: the time that has gone by, which threads
    were interrupted in user mode, and which have a kill handler. -/
structure Tick where
  dur : Nat
  userMode : Nat → Bool
  handler : Nat → Bool

/-- `UpdateEvents`, for one thread of the list. -/
def updateThread (k : Tick) (cpu : Nat) (s : Sys) (t : Nat) : Sys :=
  let tInfo := s.thread t
  match tInfo.state with
  | .exited => s
  | .finished => (s.setActive cpu ((s.activeList cpu).erase t)).set t { tInfo with state := .exited }
  | .ready =>
      if k.userMode t = true ∧ tInfo.pc = .running then
        -- without a handler, or aborted, the thread goes on in `ThreadExit(1)`
        let exits := tInfo.killPending && !k.handler t || tInfo.abortPending
        s.set t { tInfo with
          killPending := false
          abortPending := false
          pc := if exits then .kill 1 else .running }
      else s
  | .queueLock => s
  | .sleep arg =>
      if tInfo.killPending || tInfo.abortPending then
        s.set t { tInfo with state := .ready, rax := ErrorInterrupted }
      else if arg ≤ k.dur then s.set t { tInfo with state := .ready, rax := OK }
      else s.set t { tInfo with state := .sleep (arg - k.dur) }
  | .join jt =>
      if tInfo.killPending || tInfo.abortPending then
        s.set t { tInfo with state := .ready, rax := ErrorInterrupted }
      else if (s.thread jt).state = .exited then s.set t { tInfo with state := .ready, rax := 0 }
      else s

/-- `UpdateEvents`. -/
def updateEvents (k : Tick) (cpu : Nat) (s : Sys) : Sys := (s.activeList cpu).foldl (updateThread k cpu) s

/-- The result of `ThreadKill` and of `ThreadAbort`, asked by `uid`. -/
def threadKill (s : Sys) (uid tid : Nat) : Int :=
  if tid ∈ s.globalList then
    if uid ≠ 0 ∧ uid ≠ (s.thread tid).uid then ErrorPermissionDenied else OK
  else ErrorThreadNotFound

/-! ## 3. Runs -/

inductive Event where
  | clone (t : Nat) (subthread : Bool)
  | cloneActive (t : Nat)
  | cloneGlobal (t : Nat)
  | kernelThread (t uid : Nat)
  | kernelGlobal (t : Nat)
  | kernelChild (t : Nat)
  | detach (t x : Nat)
  | detachGive (t : Nat)
  | join (t x : Nat)
  | joinBlock (t : Nat)
  | joinBack (t : Nat)
  | joinReap (t : Nat)
  | tryJoin (t x : Nat)
  | tryReap (t : Nat)
  | delete (t : Nat)
  | exit (t : Nat) (code : Int)
  | killTake (t : Nat)
  | killEmpty (t : Nat)
  | killBlock (t : Nat)
  | killBack (t : Nat)
  | killDone (t : Nat)
  | finish (t : Nat)
  | update (cpu : Nat) (k : Tick)
  | request (t x : Nat) (abort : Bool)
  | serve (t : Nat) (kill abort : Bool)
  | block (t : Nat) (state : ThreadState)
  | unlock (x : Nat)

/-- The thread may take a step: it is `READY` and a CPU has it in its list. -/
def Sys.Runs (s : Sys) (t cpu : Nat) : Prop := t ∈ s.activeList cpu ∧ (s.thread t).state = .ready

inductive reapStep : Sys → Event → Sys → Prop where
  | clone (s : Sys) (t cpu : Nat) (subthread : Bool) (hr : s.Runs t cpu) (hp : (s.thread t).pc = .running) :
      reapStep s (.clone t subthread)
        (((s.newThread (if subthread then (s.thread t).mainThread else s.next) (s.thread t).uid).setChildren
          (s.thread t).mainThread (s.childThreads (s.thread t).mainThread ++ [s.next])).goto t (.cloneActive s.next))
  | cloneActive (s : Sys) (t cpu x : Nat) (hr : s.Runs t cpu) (hp : (s.thread t).pc = .cloneActive x) :
      reapStep s (.cloneActive t) ((s.setActive cpu (s.activeList cpu ++ [x])).goto t (.cloneGlobal x))
  | cloneGlobal (s : Sys) (t cpu x : Nat) (hr : s.Runs t cpu) (hp : (s.thread t).pc = .cloneGlobal x) :
      reapStep s (.cloneGlobal t) (Sys.goto { s with globalList := s.globalList ++ [x] } t .running)
  | kernelThread (s : Sys) (t cpu uid : Nat) (hr : s.Runs t cpu) (hp : (s.thread t).pc = .running) :
      reapStep s (.kernelThread t uid)
        (((s.newThread s.next uid).setActive cpu (s.activeList cpu ++ [s.next])).goto t (.kernelGlobal s.next))
  | kernelGlobal (s : Sys) (t cpu x : Nat) (hr : s.Runs t cpu) (hp : (s.thread t).pc = .kernelGlobal x) :
      reapStep s (.kernelGlobal t) (Sys.goto { s with globalList := s.globalList ++ [x] } t (.kernelChild x))
  | kernelChild (s : Sys) (t cpu x : Nat) (hr : s.Runs t cpu) (hp : (s.thread t).pc = .kernelChild x) :
      reapStep s (.kernelChild t) ((s.setChildren initThread (s.childThreads initThread ++ [x])).goto t .running)
  | detach (s : Sys) (t cpu x : Nat) (hr : s.Runs t cpu) (hp : (s.thread t).pc = .running)
      (hx : x ∈ s.childThreads (s.thread t).mainThread) (hm : (s.thread x).mainThread = x) :
      reapStep s (.detach t x) ((s.setChildren (s.thread t).mainThread
        ((s.childThreads (s.thread t).mainThread).erase x)).goto t (.detach x))
  | detachGive (s : Sys) (t cpu x : Nat) (hr : s.Runs t cpu) (hp : (s.thread t).pc = .detach x) :
      reapStep s (.detachGive t) ((s.setChildren initThread (s.childThreads initThread ++ [x])).goto t .running)
  | join (s : Sys) (t cpu x : Nat) (hr : s.Runs t cpu) (hp : (s.thread t).pc = .running)
      (hx : x ∈ s.childThreads (s.thread t).mainThread) :
      reapStep s (.join t x) ((s.setChildren (s.thread t).mainThread
        ((s.childThreads (s.thread t).mainThread).erase x)).goto t (.join x))
  /-- `ThreadBlock(ThreadState::JOIN, ...)`. -/
  | joinBlock (s : Sys) (t cpu x : Nat) (hr : s.Runs t cpu) (hp : (s.thread t).pc = .join x) :
      reapStep s (.joinBlock t) (s.set t { s.thread t with state := .join x, pc := .joinWait x })
  | joinBack (s : Sys) (t cpu x : Nat) (hr : s.Runs t cpu) (hp : (s.thread t).pc = .joinWait x)
      (he : (s.thread t).rax ≠ OK) :
      reapStep s (.joinBack t) ((s.setChildren (s.thread t).mainThread
        (s.childThreads (s.thread t).mainThread ++ [x])).goto t .running)
  | joinReap (s : Sys) (t cpu x : Nat) (hr : s.Runs t cpu) (hp : (s.thread t).pc = .joinWait x)
      (he : (s.thread t).rax = OK) :
      reapStep s (.joinReap t) (Sys.goto { s with globalList := s.globalList.erase x } t (.delete x none))
  | tryJoin (s : Sys) (t cpu x : Nat) (hr : s.Runs t cpu) (hp : (s.thread t).pc = .running)
      (hx : x ∈ s.childThreads (s.thread t).mainThread) (he : (s.thread x).state = .exited) :
      reapStep s (.tryJoin t x) ((s.setChildren (s.thread t).mainThread
        ((s.childThreads (s.thread t).mainThread).erase x)).goto t (.reap x (s.thread x).exitCode))
  | tryReap (s : Sys) (t cpu x : Nat) (code : Int) (hr : s.Runs t cpu) (hp : (s.thread t).pc = .reap x code) :
      reapStep s (.tryReap t) (Sys.goto { s with globalList := s.globalList.erase x } t (.delete x (some code)))
  /-- `delete joinThread`, and the return with the exit code. -/
  | delete (s : Sys) (t cpu x : Nat) (code : Option Int) (hr : s.Runs t cpu)
      (hp : (s.thread t).pc = .delete x code) :
      reapStep s (.delete t)
        (Sys.goto { s with deleted := s.deleted ++ [(x, code.getD (s.thread x).exitCode)] } t .running)
  | exit (s : Sys) (t cpu : Nat) (code : Int) (hr : s.Runs t cpu) (hp : (s.thread t).pc = .running) :
      reapStep s (.exit t code) (s.goto t (.kill code))
  | killTake (s : Sys) (t cpu x : Nat) (code : Int) (l : List Nat) (hr : s.Runs t cpu)
      (hp : (s.thread t).pc = .kill code) (hl : s.childThreads t = l ++ [x]) :
      reapStep s (.killTake t) ((s.setChildren t l).goto t (.killTaken code x))
  | killEmpty (s : Sys) (t cpu : Nat) (code : Int) (hr : s.Runs t cpu) (hp : (s.thread t).pc = .kill code)
      (hl : s.childThreads t = []) : reapStep s (.killEmpty t) (s.goto t (.exiting code))
  /-- `jt->abortPending = true`, and `ThreadBlock(ThreadState::JOIN, ...)`. -/
  | killBlock (s : Sys) (t cpu x : Nat) (code : Int) (hr : s.Runs t cpu)
      (hp : (s.thread t).pc = .killTaken code x) :
      reapStep s (.killBlock t)
        ((s.set t { s.thread t with state := .join x, pc := .killWait code x }).set x
          { (s.set t { s.thread t with state := .join x, pc := .killWait code x }).thread x with
            abortPending := true })
  | killBack (s : Sys) (t cpu x : Nat) (code : Int) (hr : s.Runs t cpu)
      (hp : (s.thread t).pc = .killWait code x) (he : (s.thread t).rax ≠ OK) :
      reapStep s (.killBack t) ((s.setChildren t (s.childThreads t ++ [x])).goto t (.kill code))
  | killDone (s : Sys) (t cpu x : Nat) (code : Int) (hr : s.Runs t cpu)
      (hp : (s.thread t).pc = .killWait code x) (he : (s.thread t).rax = OK) :
      reapStep s (.killDone t) (Sys.goto { s with dropped := s.dropped ++ [x] } t (.kill code))
  | finish (s : Sys) (t cpu : Nat) (code : Int) (hr : s.Runs t cpu) (hp : (s.thread t).pc = .exiting code) :
      reapStep s (.finish t)
        (s.set t { s.thread t with exitCode := code, state := .finished, pc := .gone })
  | update (s : Sys) (cpu : Nat) (k : Tick) : reapStep s (.update cpu k) (updateEvents k cpu s)
  /-- `ThreadKill`, `ThreadAbort` that find the thread. -/
  | request (s : Sys) (t x : Nat) (abort : Bool) (hx : x ∈ s.globalList) :
      reapStep s (.request t x abort) (s.set x { s.thread x with
        killPending := (s.thread x).killPending || !abort
        abortPending := (s.thread x).abortPending || abort })
  /-- The end of a syscall takes the requests. -/
  | serve (s : Sys) (t cpu : Nat) (kill abort : Bool) (hr : s.Runs t cpu) (hp : (s.thread t).pc = .running) :
      reapStep s (.serve t kill abort) (s.set t { s.thread t with killPending := kill, abortPending := abort })
  /-- `ThreadBlock` with `SLEEP` or `QUEUE_LOCK`. -/
  | block (s : Sys) (t cpu : Nat) (state : ThreadState) (hr : s.Runs t cpu) (hp : (s.thread t).pc = .running)
      (hstate : state = .queueLock ∨ ∃ arg, state = .sleep arg) :
      reapStep s (.block t state) (s.set t { s.thread t with state := state })
  /-- `QueueLock::Unlock` wakes a thread. -/
  | unlock (s : Sys) (x : Nat) (hx : (s.thread x).state = .queueLock) :
      reapStep s (.unlock x) (s.set x { s.thread x with state := .ready })

/-- After `CreateInitKernelThread`: one thread, on one CPU. -/
def reapInit (s : Sys) : Prop :=
  s.thread initThread = ⟨initThread, 0, .ready, 0, false, false, 0, .running⟩ ∧ s.next = 1 ∧
    (∀ t, (s.thread t).pc = .running ∧ (s.thread t).state = .ready) ∧ (∀ p, s.childThreads p = []) ∧
    (∃ cpu, s.activeList = fun c => if c = cpu then [initThread] else []) ∧ s.globalList = [initThread] ∧
    s.deleted = [] ∧ s.dropped = []

end Reaping

end SimpleOS2
