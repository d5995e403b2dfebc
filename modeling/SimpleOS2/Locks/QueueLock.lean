/-
  File:      SimpleOS2/Locks/QueueLock.lean
  Subject:   THE LOCK THAT LETS A THREAD SLEEP (locks/QueueLock.cpp), with any number of threads.

  A `QueueLock` counts permits. `Lock` takes one or puts an entry into `m_Queue`, on its own stack, and
  blocks; `Unlock` hands over to the first entry or counts up. Both do so under `m_Lock`. Behind that
  section a waiter goes on alone: it marks itself `QUEUE_LOCK` in `ThreadBlock`, then switches away.

  * `lock`, `unlock` -- the two sections, on the links of an `AnchorList`; `sysStep` -- all threads;
  * `Log` -- who has queued, who was handed the lock, how many calls were granted;
  * `QueueInv` -- the queue is a list of threads that stand in `Lock`, `queueInv_step`;
  * `fifo_semaphore` -- permits are never made up, and go out in the order of the queue;
  * `no_lost_wakeup` -- no waiter sleeps for ever if `Unlock` only meets waiters that are marked;
    `lost_wakeup` -- a waiter that is not.
-/
import SimpleOS2.Lib.IntrusiveList
import SimpleOS2.Scheduler.Thread

namespace SimpleOS2

open Lib

namespace QueueLock

open Scheduler (ThreadInfo wake updateThread)

/-! ## 1. The lock -/

/-- `QueueLockEntry`: the anchor and the thread. -/
structure QueueLockEntry where
  next : Nat
  prev : Nat
  thread : Nat

/-- The links of the entries; 0 is the null pointer. -/
def anchors : LinkField (Nat → QueueLockEntry) Nat where
  null := 0
  next m p := (m p).next
  prev m p := (m p).prev
  setNext m p v := Function.update m p { m p with next := v }
  setPrev m p v := Function.update m p { m p with prev := v }
  apart p q := p ≠ q
  apart_symm h := h.symm
  apart_irrefl _ h := h rfl
  next_setNext m p v := by rw [Function.update_self]
  next_setNext_of m p q v h := by rw [Function.update_of_ne h.symm]
  next_setPrev m p v := by rw [Function.update_self]
  next_setPrev_of m p q v h := by rw [Function.update_of_ne h.symm]
  prev_setPrev m p v := by rw [Function.update_self]
  prev_setPrev_of m p q v h := by rw [Function.update_of_ne h.symm]
  prev_setNext m p v := by rw [Function.update_self]
  prev_setNext_of m p q v h := by rw [Function.update_of_ne h.symm]

/-- `class QueueLock`. -/
structure QLock where
  count : UInt64
  queue : Ends Nat

/-- The entry on the stack of a thread. A thread stands in one `Lock` at a time. -/
def entryOf (t : Nat) : Nat := t + 1

/-- Where a thread stands in `Lock`. -/
inductive Pc where
  | out
  /-- Behind the section under `m_Lock`, with an entry in the queue. -/
  | queued (l : Nat)
  /-- In `ThreadBlock`, behind `tInfo->state.type = type`. -/
  | marked (l : Nat)
  /-- Behind `SwitchThread`, on no CPU. -/
  | away (l : Nat)
  deriving DecidableEq

/-- The lock for which the thread has queued. -/
def Pc.waits : Pc → Option Nat
  | .out => none
  | .queued l => some l
  | .marked l => some l
  | .away l => some l

/-- What has happened at a lock. -/
structure Log where
  /-- The threads that have queued, in this order. -/
  queued : List Nat
  /-- The threads to which `Unlock` has handed over, in this order. -/
  handed : List Nat
  /-- How many `Lock` calls were granted, by either way. -/
  granted : Nat
  unlocks : Nat

/-- The memory of the entries, the locks, the threads and where they stand. -/
structure Sys where
  mem : Nat → QueueLockEntry
  lock : Nat → QLock
  info : Nat → ThreadInfo
  pc : Nat → Pc
  log : Nat → Log

namespace Sys

def setLock (s : Sys) (l : Nat) (q : QLock) : Sys := { s with lock := Function.update s.lock l q }

def setInfo (s : Sys) (t : Nat) (ti : ThreadInfo) : Sys := { s with info := Function.update s.info t ti }

def setPc (s : Sys) (t : Nat) (pc : Pc) : Sys := { s with pc := Function.update s.pc t pc }

def setLog (s : Sys) (l : Nat) (log : Log) : Sys := { s with log := Function.update s.log l log }

@[simp] theorem setLock_self (s : Sys) (l : Nat) (q : QLock) : (s.setLock l q).lock l = q :=
  Function.update_self l _ _

theorem setLock_other (s : Sys) {l l' : Nat} (q : QLock) (h : l' ≠ l) : (s.setLock l q).lock l' = s.lock l' :=
  Function.update_of_ne h _ _

@[simp] theorem setLog_self (s : Sys) (l : Nat) (log : Log) : (s.setLog l log).log l = log :=
  Function.update_self l _ _

theorem setLog_other (s : Sys) {l l' : Nat} (log : Log) (h : l' ≠ l) :
    (s.setLog l log).log l' = s.log l' := Function.update_of_ne h _ _

@[simp] theorem setPc_self (s : Sys) (t : Nat) (pc : Pc) : (s.setPc t pc).pc t = pc :=
  Function.update_self t _ _

theorem setPc_other (s : Sys) {t t' : Nat} (pc : Pc) (h : t' ≠ t) : (s.setPc t pc).pc t' = s.pc t' :=
  Function.update_of_ne h _ _

@[simp] theorem setInfo_self (s : Sys) (t : Nat) (ti : ThreadInfo) : (s.setInfo t ti).info t = ti :=
  Function.update_self t _ _

theorem setInfo_other (s : Sys) {t t' : Nat} (ti : ThreadInfo) (h : t' ≠ t) :
    (s.setInfo t ti).info t' = s.info t' := Function.update_of_ne h _ _

@[simp] theorem setLog_lock (s : Sys) (l : Nat) (log : Log) : (s.setLog l log).lock = s.lock := rfl
@[simp] theorem setPc_lock (s : Sys) (t : Nat) (pc : Pc) : (s.setPc t pc).lock = s.lock := rfl
@[simp] theorem setInfo_lock (s : Sys) (t : Nat) (ti : ThreadInfo) : (s.setInfo t ti).lock = s.lock := rfl

/-- `Lock` up to `m_Lock.Unlock()`. -/
def lockSection (s : Sys) (t l : Nat) : Sys :=
  let q := s.lock l
  if 0 < q.count then
    (s.setLock l { q with count := q.count - 1 }).setLog l
      { s.log l with granted := (s.log l).granted + 1 }
  else
    let m := Function.update s.mem (entryOf t) { s.mem (entryOf t) with thread := t }
    let r := pushBack anchors m q.queue (entryOf t)
    let ti := { s.info t with stickyCount := (s.info t).stickyCount + 1 }
    ((({ s with mem := r.1 }.setLock l { q with queue := r.2 }).setInfo t ti).setPc t (.queued l)).setLog l
      { s.log l with queued := (s.log l).queued ++ [t] }

/-- `Unlock`. -/
def unlockSection (s : Sys) (l : Nat) : Sys :=
  let q := s.lock l
  if q.queue.head = anchors.null then
    (s.setLock l { q with count := q.count + 1 }).setLog l
      { s.log l with unlocks := (s.log l).unlocks + 1 }
  else
    let e := q.queue.head
    let r := erase anchors s.mem q.queue e
    let t := (r.1 e).thread
    (({ s with mem := r.1 }.setLock l { q with queue := r.2 }).setInfo t (wake (s.info t) 0)).setLog l
      { s.log l with
        handed := (s.log l).handed ++ [t]
        granted := (s.log l).granted + 1
        unlocks := (s.log l).unlocks + 1 }

/-- `ThreadBlock(QUEUE_LOCK, 0)` up to the state of the thread. -/
def markSection (s : Sys) (t l : Nat) : Sys :=
  let ti := { s.info t with stickyCount := (s.info t).stickyCount + 1, arg := 0, state := .QUEUE_LOCK }
  (s.setInfo t ti).setPc t (.marked l)

/-- Back from `SwitchThread`, to the end of `Lock`. -/
def leaveSection (s : Sys) (t : Nat) : Sys :=
  (s.setInfo t { s.info t with stickyCount := (s.info t).stickyCount - 2 }).setPc t .out

end Sys

inductive Event where
  | lock (t l : Nat)
  | mark (t : Nat)
  | switchAway (t : Nat)
  | resume (t : Nat)
  | unlock (t l : Nat)
  | update (t dur : Nat)
  | request (t : Nat) (kill abort : Bool)
  | other (t : Nat) (ti : ThreadInfo)

inductive sysStep : Sys → Event → Sys → Prop where
  | lock (s : Sys) (t l : Nat) (ht : s.pc t = .out) : sysStep s (.lock t l) (s.lockSection t l)
  | mark (s : Sys) (t l : Nat) (ht : s.pc t = .queued l) : sysStep s (.mark t) (s.markSection t l)
  | switchAway (s : Sys) (t l : Nat) (ht : s.pc t = .marked l) :
      sysStep s (.switchAway t) (s.setPc t (.away l))
  /-- `FindNextThread` takes only a `READY` thread. -/
  | resume (s : Sys) (t l : Nat) (ht : s.pc t = .away l) (hr : (s.info t).state = .READY) :
      sysStep s (.resume t) (s.leaveSection t)
  | unlock (s : Sys) (t l : Nat) (ht : s.pc t = .out) : sysStep s (.unlock t l) (s.unlockSection l)
  /-- The body of `UpdateEvents`. -/
  | update (s : Sys) (t dur : Nat) :
      sysStep s (.update t dur) (s.setInfo t (updateThread s.info dur (s.info t)))
  /-- `ThreadKill`, `ThreadAbort`. -/
  | request (s : Sys) (t : Nat) (kill abort : Bool) :
      sysStep s (.request t kill abort)
        (s.setInfo t { s.info t with
          killPending := (s.info t).killPending || kill
          abortPending := (s.info t).abortPending || abort })
  /-- What becomes of a thread outside the lock. -/
  | other (s : Sys) (t : Nat) (ti : ThreadInfo) (ht : s.pc t = .out) (hq : ti.state ≠ .QUEUE_LOCK) :
      sysStep s (.other t ti) (s.setInfo t ti)

/-- Locks with the given counts, and no thread at them. -/
structure sysInit (count : Nat → UInt64) (s : Sys) : Prop where
  lock : ∀ l, s.lock l = ⟨count l, ⟨0, 0⟩⟩
  pc : ∀ t, s.pc t = .out
  state : ∀ t, (s.info t).state ≠ .QUEUE_LOCK
  log : ∀ l, s.log l = ⟨[], [], 0, 0⟩

/-! ## 2. The queue -/

/-- `m_Queue` holds the entries of these threads. -/
def Waiting (s : Sys) (l : Nat) (ts : List Nat) : Prop :=
  Rep anchors s.mem (s.lock l).queue (ts.map entryOf)

/-- The thread waits for the lock, and once it has marked itself it stays so. -/
def Stands (s : Sys) (t l : Nat) : Prop :=
  (s.pc t).waits = some l ∧ (s.pc t = .queued l ∨ (s.info t).state = .QUEUE_LOCK)

/-- **The invariant** of a lock whose queue is `ts`: the threads stand in `Lock`; a permit that is left
    means that no one waits; no permit is made up; who waits has queued last. -/
structure LockInv (count : UInt64) (s : Sys) (l : Nat) (ts : List Nat) : Prop where
  waiting : Waiting s l ts
  thread : ∀ t ∈ ts, (s.mem (entryOf t)).thread = t
  stands : ∀ t ∈ ts, Stands s t l
  free : 0 < (s.lock l).count → ts = []
  ledger : (s.log l).granted + (s.lock l).count.toNat ≤ count.toNat + (s.log l).unlocks
  order : (s.log l).queued = (s.log l).handed ++ ts

/-- The invariant of all locks. -/
def QueueInv (count : Nat → UInt64) (s : Sys) (ws : Nat → List Nat) : Prop :=
  ∀ l, LockInv (count l) s l (ws l)

section Queue

variable {count : Nat → UInt64} {s s' : Sys} {ws : Nat → List Nat} {t l : Nat} {ts : List Nat}

theorem mem_entries {x : Nat} : entryOf x ∈ ts.map entryOf ↔ x ∈ ts := by
  constructor
  · intro h
    obtain ⟨y, hy, he⟩ := List.mem_map.mp h
    have hyx : y = x := Nat.succ.inj he
    exact hyx ▸ hy
  · exact List.mem_map_of_mem

theorem waiting_head (h : Waiting s l ts) : (s.lock l).queue.head = anchors.null ↔ ts = [] := by
  rw [h.head]
  cases ts with
  | nil => exact ⟨fun _ => rfl, fun _ => rfl⟩
  | cons t ts => exact ⟨fun h => absurd h (Nat.succ_ne_zero t), fun h => by cases h⟩

/-- The links of an entry are written by the list that holds it. -/
theorem set_entry_other {m : Nat → QueueLockEntry} {p x : Nat} (v : Nat) (h : x ≠ p) :
    anchors.setNext m p v x = m x ∧ anchors.setPrev m p v x = m x :=
  ⟨Function.update_of_ne h _ _, Function.update_of_ne h _ _⟩

theorem set_entry_thread (m : Nat → QueueLockEntry) (p v x : Nat) :
    (anchors.setNext m p v x).thread = (m x).thread ∧ (anchors.setPrev m p v x).thread = (m x).thread := by
  by_cases h : x = p
  · subst h
    show (Function.update m x _ x).thread = _ ∧ (Function.update m x _ x).thread = _
    rw [Function.update_self, Function.update_self]
    exact ⟨rfl, rfl⟩
  · obtain ⟨h1, h2⟩ := set_entry_other (m := m) v h
    exact ⟨congrArg _ h1, congrArg _ h2⟩

/-- `m_Queue.push_back(&entry)`. -/
theorem push_spec {m : Nat → QueueLockEntry} {q : Ends Nat} (h : Rep anchors m q (ts.map entryOf))
    (ht : t ∉ ts) :
    Rep anchors (pushBack anchors m q (entryOf t)).1 (pushBack anchors m q (entryOf t)).2
      ((ts ++ [t]).map entryOf) ∧
    (∀ x, x ≠ t → x ∉ ts → (pushBack anchors m q (entryOf t)).1 (entryOf x) = m (entryOf x)) ∧
    ∀ x, ((pushBack anchors m q (entryOf t)).1 x).thread = (m x).thread := by
  refine ⟨?_, fun x hx hts => ?_, fun x => ?_⟩
  · rw [List.map_append]
    refine pushBack_rep h (Nat.succ_ne_zero t) fun p hp => ?_
    rintro rfl
    exact ht (mem_entries.mp hp)
  · have hne : ∀ p ∈ entryOf t :: ts.map entryOf, entryOf x ≠ p := by
      rintro p hp rfl
      rcases List.mem_cons.mp hp with h1 | h1
      · exact hx (Nat.succ.inj h1)
      · exact hts (mem_entries.mp h1)
    exact pushBack_frame h (fun m => m (entryOf x)) (fun m v p hp => (set_entry_other v (hne p hp)).1)
      fun m v p hp => (set_entry_other v (hne p hp)).2
  · exact pushBack_frame h (fun m => (m x).thread) (fun m v p _ => (set_entry_thread m p v x).1)
      fun m v p _ => (set_entry_thread m p v x).2

/-- `m_Queue.pop_front()`. -/
theorem pop_spec {m : Nat → QueueLockEntry} {q : Ends Nat} (h : Rep anchors m q ((t :: ts).map entryOf)) :
    q.head = entryOf t ∧ Rep anchors (erase anchors m q q.head).1 (erase anchors m q q.head).2 (ts.map entryOf) ∧
    (∀ x, x ∉ t :: ts → (erase anchors m q q.head).1 (entryOf x) = m (entryOf x)) ∧
    ∀ x, ((erase anchors m q q.head).1 x).thread = (m x).thread := by
  have hh : q.head = entryOf t := h.head
  rw [hh]
  have hmem : entryOf t ∈ (t :: ts).map entryOf := List.mem_cons_self
  refine ⟨rfl, ?_, fun x hx => ?_, fun x => ?_⟩
  · have hr := erase_rep h hmem
    rwa [List.map_cons, List.erase_cons_head] at hr
  · have hne : ∀ p ∈ (t :: ts).map entryOf, entryOf x ≠ p := by
      rintro p hp rfl
      exact hx (mem_entries.mp hp)
    exact erase_frame h hmem (fun m => m (entryOf x)) (fun m v p hp => (set_entry_other v (hne p hp)).1)
      fun m v p hp => (set_entry_other v (hne p hp)).2
  · exact erase_frame h hmem (fun m => (m x).thread) (fun m v p _ => (set_entry_thread m p v x).1)
      fun m v p _ => (set_entry_thread m p v x).2

/-- A queue whose entries are left alone. -/
theorem Waiting.congr (h : Waiting s l ts) (hq : (s'.lock l).queue = (s.lock l).queue)
    (hm : ∀ x ∈ ts, s'.mem (entryOf x) = s.mem (entryOf x)) : Waiting s' l ts := by
  rw [Waiting, hq]
  refine Rep.congr h fun p hp => ?_
  obtain ⟨x, hx, rfl⟩ := List.mem_map.mp hp
  show (s'.mem _).prev = (s.mem _).prev ∧ (s'.mem _).next = (s.mem _).next
  rw [hm x hx]
  exact ⟨rfl, rfl⟩

theorem Stands.congr (h : Stands s t l) (hp : s'.pc t = s.pc t) (hi : (s'.info t).state = (s.info t).state) :
    Stands s' t l := by
  rw [Stands, hp, hi]
  exact h

/-- A step that leaves the lock, the entries of its queue and their threads alone. -/
theorem LockInv.frame {c : UInt64} (h : LockInv c s l ts) (hq : s'.lock l = s.lock l) (hg : s'.log l = s.log l)
    (hm : ∀ x ∈ ts, s'.mem (entryOf x) = s.mem (entryOf x)) (hp : ∀ x ∈ ts, Stands s x l → Stands s' x l) :
    LockInv c s' l ts := by
  refine ⟨h.waiting.congr (by rw [hq]) hm, fun t ht => ?_, fun t ht => ?_, ?_, ?_, ?_⟩
  · rw [hm t ht]
    exact h.thread t ht
  · exact hp t ht (h.stands t ht)
  · rw [hq]
    exact h.free
  · rw [hq, hg]
    exact h.ledger
  · rw [hg]
    exact h.order

/-- A thread waits for one lock. -/
theorem QueueInv.apart (hI : QueueInv count s ws) {l' x : Nat} (hl : l' ≠ l) (hx : x ∈ ws l') : x ∉ ws l := by
  intro hx'
  have h1 := ((hI l').stands x hx).1
  rw [((hI l).stands x hx').1] at h1
  exact hl (Option.some.inj h1).symm

/-- A thread outside waits for none. -/
theorem QueueInv.out (hI : QueueInv count s ws) (ht : s.pc t = .out) (l : Nat) : t ∉ ws l := by
  intro h
  have h1 := ((hI l).stands t h).1
  rw [ht] at h1
  cases h1

/-! ## 3. The steps -/

theorem queueInv_init (h : sysInit count s) : QueueInv count s fun _ => [] := by
  intro l
  refine ⟨?_, (fun t ht => by cases ht), (fun t ht => by cases ht), (fun _ => rfl), ?_, ?_⟩
  · rw [Waiting, h.lock l]
    exact rep_nil s.mem
  · rw [h.lock l, h.log l]
    exact Nat.le_of_eq (Nat.zero_add _)
  · rw [h.log l]
    rfl

/-- `Lock` with a permit left. -/
theorem lockSection_grant (h : 0 < (s.lock l).count) : s.lockSection t l =
    (s.setLock l { s.lock l with count := (s.lock l).count - 1 }).setLog l
      { s.log l with granted := (s.log l).granted + 1 } := by
  unfold Sys.lockSection
  rw [if_pos h]

theorem queueInv_grant (hI : QueueInv count s ws) (h : 0 < (s.lock l).count) :
    QueueInv count (s.lockSection t l) ws := by
  rw [lockSection_grant h]
  intro l'
  by_cases hl : l' = l
  · subst hl
    refine ⟨(hI l').waiting.congr (by simp) fun _ _ => rfl, (hI l').thread, (hI l').stands,
      fun _ => (hI l').free h, ?_, ?_⟩
    · have h1 := (hI l').ledger
      have h2 : 1 ≤ (s.lock l').count.toNat := UInt64.lt_iff_toNat_lt.mp h
      have h3 : ((s.lock l').count - 1).toNat = (s.lock l').count.toNat - 1 :=
        UInt64.toNat_sub_of_le _ _ (UInt64.le_iff_toNat_le.mpr h2)
      simp only [Sys.setLog_self, Sys.setLog_lock, Sys.setLock_self, h3]
      omega
    · simp only [Sys.setLog_self]
      exact (hI l').order
  · exact (hI l').frame (Sys.setLock_other s _ hl) (Sys.setLog_other _ _ hl) (fun _ _ => rfl) fun _ _ h => h

/-- `Lock` with none left: the thread, and where it stands. -/
theorem lockSection_queue (h : ¬ 0 < (s.lock l).count) :
    (s.lockSection t l).info =
      Function.update s.info t { s.info t with stickyCount := (s.info t).stickyCount + 1 } ∧
    (s.lockSection t l).pc = Function.update s.pc t (.queued l) := by
  unfold Sys.lockSection
  rw [if_neg h]
  exact ⟨rfl, rfl⟩

theorem queueInv_queue (hI : QueueInv count s ws) (ht : s.pc t = .out) (h : ¬ 0 < (s.lock l).count) :
    QueueInv count (s.lockSection t l) (Function.update ws l (ws l ++ [t])) := by
  have hout := hI.out ht
  have hm : ∀ x, x ≠ t →
      Function.update s.mem (entryOf t) { s.mem (entryOf t) with thread := t } (entryOf x) = s.mem (entryOf x) :=
    fun x hx => Function.update_of_ne (fun he => hx (Nat.succ.inj he)) _ _
  have hw : Rep anchors (Function.update s.mem (entryOf t) { s.mem (entryOf t) with thread := t })
      (s.lock l).queue ((ws l).map entryOf) := by
    refine Rep.congr (hI l).waiting fun p hp => ?_
    obtain ⟨x, hx, rfl⟩ := List.mem_map.mp hp
    show (Function.update s.mem _ _ _).prev = _ ∧ (Function.update s.mem _ _ _).next = _
    rw [hm x fun he => hout l (he ▸ hx)]
    exact ⟨rfl, rfl⟩
  obtain ⟨hrep, hother, hthread⟩ := push_spec hw (hout l)
  unfold Sys.lockSection
  rw [if_neg h]
  dsimp only
  intro l'
  by_cases hl : l' = l
  · subst hl
    rw [Function.update_self]
    refine ⟨?_, fun x hx => ?_, fun x hx => ?_, ?_, ?_, ?_⟩
    · show Rep anchors _ (Sys.lock _ l').queue _
      simp only [Sys.setLog_lock, Sys.setPc_lock, Sys.setInfo_lock, Sys.setLock_self]
      exact hrep
    · refine (hthread (entryOf x)).trans ?_
      by_cases hxt : x = t
      · subst hxt
        rw [Function.update_self]
      · rw [hm x hxt]
        exact (hI l').thread x ((List.mem_append.mp hx).resolve_right fun h1 => hxt (List.mem_singleton.mp h1))
    · by_cases hxt : x = t
      · subst hxt
        exact ⟨congrArg Pc.waits (Sys.setPc_self _ x _), Or.inl (Sys.setPc_self _ x _)⟩
      · have hx' : x ∈ ws l' := (List.mem_append.mp hx).resolve_right fun h1 => hxt (List.mem_singleton.mp h1)
        exact ((hI l').stands x hx').congr (Sys.setPc_other _ _ hxt)
          (congrArg ThreadInfo.state (Sys.setInfo_other _ _ hxt))
    · intro h1
      simp only [Sys.setLog_lock, Sys.setPc_lock, Sys.setInfo_lock, Sys.setLock_self] at h1
      exact absurd h1 h
    · simp only [Sys.setLog_self, Sys.setLog_lock, Sys.setPc_lock, Sys.setInfo_lock, Sys.setLock_self]
      exact (hI l').ledger
    · simp only [Sys.setLog_self]
      rw [(hI l').order, List.append_assoc]
  · rw [Function.update_of_ne hl]
    refine (hI l').frame (Sys.setLock_other _ _ hl) (Sys.setLog_other _ _ hl) (fun x hx => ?_) fun x hx => ?_
    · have hxt : x ≠ t := fun he => hout l' (he ▸ hx)
      exact (hother x hxt (hI.apart hl hx)).trans (hm x hxt)
    · have hxt : x ≠ t := fun he => hout l' (he ▸ hx)
      exact fun h1 => h1.congr (Sys.setPc_other _ _ hxt) (congrArg ThreadInfo.state (Sys.setInfo_other _ _ hxt))

/-- `Unlock` with no one waiting. -/
theorem queueInv_count (hI : QueueInv count s ws) (h : ws l = []) :
    s.unlockSection l = (s.setLock l { s.lock l with count := (s.lock l).count + 1 }).setLog l
      { s.log l with unlocks := (s.log l).unlocks + 1 } ∧
    QueueInv count (s.unlockSection l) ws := by
  have heq : s.unlockSection l = (s.setLock l { s.lock l with count := (s.lock l).count + 1 }).setLog l
      { s.log l with unlocks := (s.log l).unlocks + 1 } := by
    unfold Sys.unlockSection
    rw [if_pos ((waiting_head (hI l).waiting).mpr h)]
  refine ⟨heq, ?_⟩
  rw [heq]
  intro l'
  by_cases hl : l' = l
  · subst hl
    refine ⟨(hI l').waiting.congr (by simp) fun _ _ => rfl, (hI l').thread, (hI l').stands, fun _ => h, ?_, ?_⟩
    · have h1 := (hI l').ledger
      have h2 : ((s.lock l').count + 1).toNat ≤ (s.lock l').count.toNat + 1 := by
        rw [UInt64.toNat_add]
        exact Nat.mod_le _ _
      simp only [Sys.setLog_self, Sys.setLog_lock, Sys.setLock_self]
      omega
    · simp only [Sys.setLog_self]
      exact (hI l').order
  · exact (hI l').frame (Sys.setLock_other s _ hl) (Sys.setLog_other _ _ hl) (fun _ _ => rfl) fun _ _ h => h

/-- `Unlock` hands over to the first thread of the queue. -/
theorem queueInv_hand (hI : QueueInv count s ws) (h : ws l = t :: ts) :
    (s.lock l).queue.head = entryOf t ∧
    (s.unlockSection l).info = Function.update s.info t (wake (s.info t) 0) ∧
    ((s.unlockSection l).lock l).count = (s.lock l).count ∧ (s.unlockSection l).pc = s.pc ∧
    QueueInv count (s.unlockSection l) (Function.update ws l ts) := by
  have hw := (hI l).waiting
  rw [Waiting, h] at hw
  obtain ⟨hhead, hrep, hother, hthread⟩ := pop_spec hw
  have hne : (s.lock l).queue.head ≠ anchors.null := by
    rw [hhead]
    exact Nat.succ_ne_zero t
  have ht : ((erase anchors s.mem (s.lock l).queue (s.lock l).queue.head).1 (s.lock l).queue.head).thread = t := by
    rw [hthread, hhead]
    exact (hI l).thread t (h ▸ List.mem_cons_self)
  have hmem : ∀ x ∈ ts, x ∈ ws l := fun x hx => h ▸ List.mem_cons_of_mem t hx
  unfold Sys.unlockSection
  rw [if_neg hne]
  dsimp only
  rw [ht]
  refine ⟨hhead, rfl, by simp, rfl, fun l' => ?_⟩
  by_cases hl : l' = l
  · subst hl
    rw [Function.update_self]
    have h1 := (hI l').ledger
    have hnd : t ∉ ts := by
      have hn := Rep.nodup hw
      rw [List.map_cons, List.nodup_cons] at hn
      exact fun hx => hn.1 (List.mem_map_of_mem hx)
    refine ⟨?_, fun x hx => ?_, fun x hx => ?_, ?_, ?_, ?_⟩
    · show Rep anchors _ (Sys.lock _ l').queue _
      simp only [Sys.setLog_lock, Sys.setInfo_lock, Sys.setLock_self]
      exact hrep
    · exact (hthread (entryOf x)).trans ((hI l').thread x (hmem x hx))
    · have hxt : x ≠ t := fun he => hnd (he ▸ hx)
      exact ((hI l').stands x (hmem x hx)).congr rfl (congrArg ThreadInfo.state (Sys.setInfo_other _ _ hxt))
    · intro h2
      simp only [Sys.setLog_lock, Sys.setInfo_lock, Sys.setLock_self] at h2
      have h3 := (hI l').free h2
      rw [h] at h3
      cases h3
    · simp only [Sys.setLog_self, Sys.setLog_lock, Sys.setInfo_lock, Sys.setLock_self]
      omega
    · simp only [Sys.setLog_self]
      rw [(hI l').order, h, List.append_assoc]
      rfl
  · rw [Function.update_of_ne hl]
    refine (hI l').frame (Sys.setLock_other _ _ hl) (Sys.setLog_other _ _ hl) (fun x hx => ?_) fun x hx => ?_
    · exact hother x fun hx' => hI.apart hl hx (h ▸ hx')
    · have hxt : x ≠ t := fun he => hI.apart hl hx (he ▸ h ▸ List.mem_cons_self)
      exact fun h1 => h1.congr rfl (congrArg ThreadInfo.state (Sys.setInfo_other _ _ hxt))

/-- A step of a thread on its own. -/
theorem queueInv_alone (hI : QueueInv count s ws) (hm : s'.mem = s.mem) (hl : s'.lock = s.lock)
    (hg : s'.log = s.log) (hp : ∀ x l, x ∈ ws l → Stands s x l → Stands s' x l) : QueueInv count s' ws :=
  fun l => (hI l).frame (congrFun hl l) (congrFun hg l) (fun _ _ => congrFun hm _) fun x hx => hp x l hx

theorem setInfo_stands {ti : ThreadInfo} {x : Nat} (h : ti.state = (s.info t).state) (hx : Stands s x l) :
    Stands (s.setInfo t ti) x l := by
  by_cases hxt : x = t
  · subst hxt
    exact hx.congr rfl ((congrArg ThreadInfo.state (Sys.setInfo_self s x ti)).trans h)
  · exact hx.congr rfl (congrArg ThreadInfo.state (Sys.setInfo_other s ti hxt))

/-- A thread that has been handed the lock is in no queue when it comes back. -/
theorem QueueInv.resumed (hI : QueueInv count s ws) (ht : s.pc t = .away l) (hr : (s.info t).state = .READY)
    (l' : Nat) : t ∉ ws l' := by
  intro hx
  obtain ⟨-, h1 | h1⟩ := (hI l').stands t hx
  · rw [ht] at h1
    cases h1
  · rw [hr] at h1
    cases h1

theorem deliver_state (ti : ThreadInfo) : (Scheduler.deliver ti).state = ti.state := by
  unfold Scheduler.deliver Scheduler.setupKillHandlerFromTick
  dsimp only
  split_ifs <;> rfl

/-- `UpdateEvents` leaves a thread in `QUEUE_LOCK` alone, and puts none there. -/
theorem updateThread_state (dur : Nat) (ti : ThreadInfo) :
    (ti.state = .QUEUE_LOCK → (updateThread s.info dur ti).state = .QUEUE_LOCK) ∧
      ((updateThread s.info dur ti).state = .QUEUE_LOCK → ti.state = .QUEUE_LOCK) := by
  unfold updateThread
  constructor
  · intro h
    rw [h]
    exact h
  · intro h
    split_ifs at h with h1 h2
    · rw [deliver_state] at h
      exact h
    all_goals first | exact h | cases h

/-- The steps under no lock keep the queues. -/
theorem queueInv_own {ev : Event} (hI : QueueInv count s ws) (hs : sysStep s ev s')
    (hl : ∀ t l, ev ≠ .lock t l) (hu : ∀ t l, ev ≠ .unlock t l) : QueueInv count s' ws := by
  cases hs with
  | lock t l ht => exact absurd rfl (hl t l)
  | unlock t l ht => exact absurd rfl (hu t l)
  | mark t l ht =>
      refine queueInv_alone hI rfl rfl rfl fun x l' _ h1 => ?_
      by_cases hx : x = t
      · subst hx
        have hl := h1.1
        rw [ht] at hl
        refine ⟨(congrArg Pc.waits (Sys.setPc_self _ x _)).trans hl, Or.inr ?_⟩
        exact congrArg ThreadInfo.state (Sys.setInfo_self s x _)
      · exact h1.congr (Sys.setPc_other _ _ hx) (congrArg ThreadInfo.state (Sys.setInfo_other s _ hx))
  | switchAway t l ht =>
      refine queueInv_alone hI rfl rfl rfl fun x l' _ h1 => ?_
      by_cases hx : x = t
      · subst hx
        obtain ⟨hl, h2⟩ := h1
        rw [ht] at hl h2
        exact ⟨(congrArg Pc.waits (Sys.setPc_self s x _)).trans hl, Or.inr (h2.resolve_left fun h => by cases h)⟩
      · exact h1.congr (Sys.setPc_other _ _ hx) rfl
  | resume t l ht hr =>
      refine queueInv_alone hI rfl rfl rfl fun x l' hx h1 => ?_
      have hxt : x ≠ t := by
        rintro rfl
        exact hI.resumed ht hr l' hx
      exact h1.congr (Sys.setPc_other _ _ hxt) (congrArg ThreadInfo.state (Sys.setInfo_other s _ hxt))
  | update t dur =>
      refine queueInv_alone hI rfl rfl rfl fun x l' _ h1 => ?_
      by_cases hx : x = t
      · subst hx
        refine ⟨h1.1, h1.2.imp id fun h2 => ?_⟩
        exact (congrArg ThreadInfo.state (Sys.setInfo_self s x _)).trans ((updateThread_state dur _).1 h2)
      · exact h1.congr rfl (congrArg ThreadInfo.state (Sys.setInfo_other s _ hx))
  | request t kill abort =>
      exact queueInv_alone hI rfl rfl rfl fun x l' _ h1 => setInfo_stands rfl h1
  | other t ti ht hq =>
      refine queueInv_alone hI rfl rfl rfl fun x l' hx h1 => ?_
      have hxt : x ≠ t := by
        rintro rfl
        exact hI.out ht l' hx
      exact h1.congr rfl (congrArg ThreadInfo.state (Sys.setInfo_other s _ hxt))

theorem queueInv_step {ev : Event} (hI : QueueInv count s ws) (hs : sysStep s ev s') :
    ∃ ws', QueueInv count s' ws' := by
  cases ev with
  | lock t l =>
      cases hs with
      | lock _ _ ht =>
          by_cases h : 0 < (s.lock l).count
          · exact ⟨ws, queueInv_grant hI h⟩
          · exact ⟨_, queueInv_queue hI ht h⟩
  | unlock t l =>
      cases hs with
      | unlock _ _ ht =>
          cases h : ws l with
          | nil => exact ⟨ws, (queueInv_count hI h).2⟩
          | cons x ts => exact ⟨_, (queueInv_hand hI h).2.2.2.2⟩
  | _ => exact ⟨ws, queueInv_own hI hs (fun _ _ h => by cases h) fun _ _ h => by cases h⟩

theorem queueInv_reach (h : Reach sysStep (sysInit count) s) : ∃ ws, QueueInv count s ws := by
  refine h.inv (I := fun s => ∃ ws, QueueInv count s ws) (fun x h0 => ⟨_, queueInv_init h0⟩) ?_
  intro x ev y hx hs
  obtain ⟨ws, hI⟩ := hx
  exact queueInv_step hI hs

end Queue

/-! ## 4. A counting semaphore -/

/-- What a lock with `count` permits at the start does. -/
structure Semaphore (count : UInt64) (s : Sys) (l : Nat) : Prop where
  free : 0 < (s.lock l).count → Waiting s l []
  granted : (s.log l).granted ≤ count.toNat + (s.log l).unlocks
  /-- `Unlock` wakes the first waiter and no other thread, or counts up by one. -/
  unlock : (∃ t ts, Waiting s l (t :: ts) ∧ Waiting (s.unlockSection l) l ts ∧
      (s.unlockSection l).info = Function.update s.info t (wake (s.info t) 0) ∧
      ((s.unlockSection l).lock l).count = (s.lock l).count) ∨
    (Waiting s l [] ∧ Waiting (s.unlockSection l) l [] ∧ (s.unlockSection l).info = s.info ∧
      ((s.unlockSection l).lock l).count = (s.lock l).count + 1)
  /-- Of those that have queued, the first were handed the lock, in this order, and the others wait. -/
  order : ∃ ts, Waiting s l ts ∧ (s.log l).queued = (s.log l).handed ++ ts

/-- **A `QueueLock` is a FIFO counting semaphore.** -/
theorem fifo_semaphore {count : Nat → UInt64} {s : Sys} (h : Reach sysStep (sysInit count) s) (l : Nat) :
    Semaphore (count l) s l := by
  obtain ⟨ws, hI⟩ := queueInv_reach h
  refine ⟨fun hc => ?_, ?_, ?_, ws l, (hI l).waiting, (hI l).order⟩
  · rw [← (hI l).free hc]
    exact (hI l).waiting
  · have := (hI l).ledger
    omega
  · cases hw : ws l with
    | nil =>
        obtain ⟨heq, hI'⟩ := queueInv_count hI hw
        refine Or.inr ⟨hw ▸ (hI l).waiting, hw ▸ (hI' l).waiting, ?_, ?_⟩
        · rw [heq]
          rfl
        · rw [heq]
          simp
    | cons t ts =>
        obtain ⟨-, hinfo, hcount, -, hI'⟩ := queueInv_hand hI hw
        have hw' := (hI' l).waiting
        rw [Function.update_self] at hw'
        exact Or.inl ⟨t, ts, hw ▸ (hI l).waiting, hw', hinfo, hcount⟩

section Handover

def someThread : ThreadInfo where
  tid := 0
  uid := 0
  killPending := false
  killHandlerRip := 0
  killHandlerRsp := 0
  killHandlerReturnState := ⟨0, 0, 0, 0, 0, 0, 0, 0, 0, 0, 0, 0, 0, 0, 0, 0, 0, 0, .addr 0, 0, 0, 0, 0⟩
  abortPending := false
  pml4Entry := 0
  state := .READY
  arg := 0
  kernelStack := 0
  userGSBase := 0
  userFSBase := 0
  stickyCount := 0
  cliCount := 0
  registers := ⟨0, 0, 0, 0, 0, 0, 0, 0, 0, 0, 0, 0, 0, 0, 0, 0, 0, 0, .addr 0, 0, 0, 0, 0⟩
  fpuBuffer := none

/-- Locks with one permit each. -/
def mutexes : Sys where
  mem := fun _ => ⟨0, 0, 0⟩
  lock := fun _ => ⟨1, ⟨0, 0⟩⟩
  info := fun _ => someThread
  pc := fun _ => .out
  log := fun _ => ⟨[], [], 0, 0⟩

theorem mutexes_init : sysInit (fun _ => 1) mutexes :=
  ⟨fun _ => rfl, fun _ => rfl, (fun _ h => by cases h), fun _ => rfl⟩

/-- Thread 0 holds lock 0, thread 1 queues for it. -/
def contended : Sys := (mutexes.lockSection 0 0).lockSection 1 0

theorem contended_reach (ok : Sys → Event → Prop) (hok : ∀ s t l, ok s (.lock t l)) :
    Reach (Guarded sysStep ok) (sysInit fun _ => 1) contended :=
  .next _ (.lock 1 0) _
    (.next mutexes (.lock 0 0) _ (.start _ mutexes_init) ⟨.lock mutexes 0 0 rfl, hok _ _ _⟩)
    ⟨.lock _ 1 0 rfl, hok _ _ _⟩

/-- Thread 1 is granted the lock when thread 0 gives it back. -/
theorem fifo_semaphore_contended :
    (contended.log 0).queued = [1] ∧ ((contended.unlockSection 0).log 0).handed = [1] ∧
      Semaphore 1 (contended.unlockSection 0) 0 := by
  have h := (contended_reach (fun _ _ => True) fun _ _ _ => trivial).mono (fun _ h => h) fun _ _ _ h => h.1
  exact ⟨rfl, rfl, fifo_semaphore (.next _ (.unlock 0 0) _ h (.unlock _ 0 0 rfl)) 0⟩

end Handover

/-! ## 5. Wakeups -/

/-- Every thread that sleeps in `QUEUE_LOCK` has an entry in a queue. -/
def NoLostWakeup (s : Sys) : Prop :=
  ∀ t, (s.info t).state = .QUEUE_LOCK → ∃ l ts, Waiting s l ts ∧ t ∈ ts

/-- **The condition**: the thread that `Unlock` takes from the queue has marked itself `QUEUE_LOCK`. -/
def meetsMarked (s : Sys) : Event → Prop
  | .unlock _ l => ∀ t, (s.lock l).queue.head = entryOf t → s.pc t ≠ .queued l
  | _ => True

/-- A thread that sleeps, or is about to, is in a queue. -/
structure Queued (s : Sys) (ws : Nat → List Nat) : Prop where
  asleep : ∀ t, (s.info t).state = .QUEUE_LOCK → ∃ l, t ∈ ws l
  queued : ∀ t l, s.pc t = .queued l → t ∈ ws l

section Wakeups

variable {count : Nat → UInt64} {s s' : Sys} {ws : Nat → List Nat} {t l : Nat} {ts : List Nat}

/-- A step that brings no thread to `QUEUE_LOCK` or into `Lock`. -/
theorem Queued.same (h : Queued s ws) (hi : ∀ x, (s'.info x).state = .QUEUE_LOCK → (s.info x).state = .QUEUE_LOCK)
    (hp : ∀ x l, s'.pc x = .queued l → s.pc x = .queued l) : Queued s' ws :=
  ⟨fun x hx => h.asleep x (hi x hx), fun x l hx => h.queued x l (hp x l hx)⟩

theorem update_asleep {info : Nat → ThreadInfo} {ti : ThreadInfo} {x : Nat}
    (hx : (Function.update info t ti x).state = .QUEUE_LOCK)
    (h : ti.state = .QUEUE_LOCK → (info t).state = .QUEUE_LOCK) : (info x).state = .QUEUE_LOCK := by
  by_cases hxt : x = t
  · subst hxt
    rw [Function.update_self] at hx
    exact h hx
  · rw [Function.update_of_ne hxt] at hx
    exact hx

theorem setPc_queued {pc : Pc} (h : ∀ l, pc ≠ .queued l) (x l : Nat) (hx : (s.setPc t pc).pc x = .queued l) :
    s.pc x = .queued l := by
  by_cases hxt : x = t
  · subst hxt
    rw [Sys.setPc_self] at hx
    exact absurd hx (h l)
  · rw [Sys.setPc_other s pc hxt] at hx
    exact hx

/-- The step of `Lock`. -/
theorem queued_lock (h : Queued s ws) (hI : QueueInv count s ws) (ht : s.pc t = .out) :
    ∃ ws', QueueInv count (s.lockSection t l) ws' ∧ Queued (s.lockSection t l) ws' := by
  by_cases hc : 0 < (s.lock l).count
  · refine ⟨ws, queueInv_grant hI hc, ?_⟩
    rw [lockSection_grant hc]
    exact h.same (fun _ hx => hx) fun _ _ hx => hx
  · refine ⟨_, queueInv_queue hI ht hc, ?_⟩
    have hsub : ∀ x l', x ∈ ws l' → x ∈ Function.update ws l (ws l ++ [t]) l' := by
      intro x l' hx
      by_cases hl : l' = l
      · subst hl
        rw [Function.update_self]
        exact List.mem_append_left _ hx
      · rw [Function.update_of_ne hl]
        exact hx
    obtain ⟨hinfo, hpc⟩ := lockSection_queue (t := t) hc
    constructor
    · intro x hx
      rw [hinfo] at hx
      obtain ⟨l', hl'⟩ := h.asleep x (update_asleep hx fun h => h)
      exact ⟨l', hsub x l' hl'⟩
    · intro x l' hx
      rw [hpc] at hx
      by_cases hxt : x = t
      · subst hxt
        rw [Function.update_self] at hx
        cases hx
        rw [Function.update_self]
        exact List.mem_append_right _ (List.mem_singleton.mpr rfl)
      · rw [Function.update_of_ne hxt] at hx
        exact hsub x l' (h.queued x l' hx)

/-- The step of `Unlock`, at a thread that has marked itself. -/
theorem queued_unlock (h : Queued s ws) (hI : QueueInv count s ws)
    (hok : ∀ t, (s.lock l).queue.head = entryOf t → s.pc t ≠ .queued l) :
    ∃ ws', QueueInv count (s.unlockSection l) ws' ∧ Queued (s.unlockSection l) ws' := by
  cases hw : ws l with
  | nil =>
      obtain ⟨heq, hI'⟩ := queueInv_count hI hw
      refine ⟨ws, hI', ?_⟩
      rw [heq]
      exact h.same (fun _ hx => hx) fun _ _ hx => hx
  | cons t ts =>
      obtain ⟨hhead, hinfo, -, hpc, hI'⟩ := queueInv_hand hI hw
      refine ⟨_, hI', ?_, ?_⟩
      -- the thread that leaves the queue neither sleeps nor is about to
      all_goals
        have hstay : ∀ x l', x ≠ t → x ∈ ws l' → x ∈ Function.update ws l ts l' := by
          intro x l' hxt hx
          by_cases hl : l' = l
          · subst hl
            rw [Function.update_self]
            rw [hw] at hx
            exact (List.mem_cons.mp hx).resolve_left hxt
          · rw [Function.update_of_ne hl]
            exact hx
      · intro x hx
        rw [hinfo] at hx
        by_cases hxt : x = t
        · subst hxt
          rw [Function.update_self] at hx
          cases hx
        · rw [Function.update_of_ne hxt] at hx
          obtain ⟨l', hl'⟩ := h.asleep x hx
          exact ⟨l', hstay x l' hxt hl'⟩
      · intro x l' hx
        rw [hpc] at hx
        refine hstay x l' ?_ (h.queued x l' hx)
        rintro rfl
        have hl : l' = l := by
          have h1 := ((hI l).stands x (hw ▸ List.mem_cons_self)).1
          rw [hx] at h1
          exact Option.some.inj h1
        subst hl
        exact hok x hhead hx

/-- The other steps. -/
theorem queued_own {ev : Event} (h : Queued s ws) (hs : sysStep s ev s')
    (hl : ∀ t l, ev ≠ .lock t l) (hu : ∀ t l, ev ≠ .unlock t l) : Queued s' ws := by
  cases hs with
  | lock t l ht => exact absurd rfl (hl t l)
  | unlock t l ht => exact absurd rfl (hu t l)
  | mark t l ht =>
      refine ⟨fun x hx => ?_, fun x l' hx => h.queued x l' (setPc_queued (fun _ h => by cases h) x l' hx)⟩
      by_cases hxt : x = t
      · subst hxt
        exact ⟨l, h.queued x l ht⟩
      · have hi : (s.markSection t l).info x = s.info x := Function.update_of_ne hxt _ _
        rw [hi] at hx
        exact h.asleep x hx
  | switchAway t l ht =>
      exact h.same (fun _ hx => hx) fun x l' hx => setPc_queued (fun _ h => by cases h) x l' hx
  | resume t l ht hr =>
      exact h.same (fun x hx => update_asleep hx fun h => h)
        fun x l' hx => setPc_queued (fun _ h => by cases h) x l' hx
  | update t dur =>
      exact h.same (fun x hx => update_asleep hx (updateThread_state dur _).2) fun _ _ hx => hx
  | request t kill abort => exact h.same (fun x hx => update_asleep hx fun h => h) fun _ _ hx => hx
  | other t ti ht hq =>
      exact h.same (fun x hx => update_asleep hx fun h => absurd h hq) fun _ _ hx => hx

theorem queued_step {ev : Event} (h : Queued s ws) (hI : QueueInv count s ws)
    (hs : Guarded sysStep meetsMarked s ev s') : ∃ ws', QueueInv count s' ws' ∧ Queued s' ws' := by
  obtain ⟨hs, hok⟩ := hs
  cases ev with
  | lock t l =>
      cases hs with
      | lock _ _ ht => exact queued_lock h hI ht
  | unlock t l =>
      cases hs with
      | unlock _ _ ht => exact queued_unlock h hI hok
  | _ =>
      refine ⟨ws, queueInv_own hI hs ?_ ?_, queued_own h hs ?_ ?_⟩
      all_goals exact fun _ _ h => by cases h

end Wakeups

/-- **No wakeup is lost**, in every run in which `Unlock` meets only waiters that have marked
    themselves. -/
theorem no_lost_wakeup {count : Nat → UInt64} {s : Sys}
    (h : Reach (Guarded sysStep meetsMarked) (sysInit count) s) : NoLostWakeup s := by
  have hinv : ∃ ws, QueueInv count s ws ∧ Queued s ws := by
    refine h.inv (I := fun s => ∃ ws, QueueInv count s ws ∧ Queued s ws) (fun x h0 => ?_) ?_
    · refine ⟨_, queueInv_init h0, fun t ht => absurd ht (h0.state t), fun t l ht => ?_⟩
      rw [h0.pc t] at ht
      cases ht
    · intro x ev y hx hs
      obtain ⟨ws, hI, hq⟩ := hx
      exact queued_step hq hI hs
  obtain ⟨ws, hI, hq⟩ := hinv
  intro t ht
  obtain ⟨l, hl⟩ := hq.asleep t ht
  exact ⟨l, ws l, (hI l).waiting, hl⟩

/-- Thread 1 has marked itself before thread 0 gives the lock back. -/
theorem no_lost_wakeup_marked : ∃ s, Reach (Guarded sysStep meetsMarked) (sysInit fun _ => 1) s ∧
    (s.log 0).handed = [1] ∧ (s.info 1).state = .READY ∧ NoLostWakeup s := by
  have h1 := contended_reach meetsMarked fun _ _ _ => trivial
  have h2 : Reach (Guarded sysStep meetsMarked) (sysInit fun _ => 1) (contended.markSection 1 0) :=
    .next _ (Event.mark 1) _ h1 ⟨.mark _ 1 0 rfl, trivial⟩
  have h3 : Reach (Guarded sysStep meetsMarked) (sysInit fun _ => 1) ((contended.markSection 1 0).unlockSection 0) := by
    refine .next _ (Event.unlock 0 0) _ h2 ⟨.unlock _ 0 0 rfl, fun t ht => ?_⟩
    have ht1 : t = 1 := (Nat.succ.inj ht).symm
    subst ht1
    intro h
    cases h
  exact ⟨_, h3, rfl, rfl, no_lost_wakeup h3⟩

/-- Thread 0 gives the lock back first, then thread 1 marks itself. -/
def overtaken : Sys := (contended.unlockSection 0).markSection 1 0

theorem overtaken_reach : Reach sysStep (sysInit fun _ => 1) overtaken := by
  have h := (contended_reach (fun _ _ => True) fun _ _ _ => trivial).mono (fun _ h => h) fun _ _ _ h => h.1
  exact .next _ (.mark 1) _ (.next _ (.unlock 0 0) _ h (.unlock _ 0 0 rfl)) (.mark _ 1 0 rfl)

/-- **Thread 1 sleeps for ever**: no queue has its entry. -/
theorem lost_wakeup : ¬ ∀ (count : Nat → UInt64) (s : Sys), Reach sysStep (sysInit count) s → NoLostWakeup s := by
  intro h
  obtain ⟨l, ts, hw, ht⟩ := h _ overtaken overtaken_reach 1 rfl
  have hhead : (overtaken.lock l).queue.head = anchors.null := by
    cases l with
    | zero => rfl
    | succ l => rfl
  rw [(waiting_head hw).mp hhead] at ht
  cases ht

end QueueLock

end SimpleOS2
