/-
  File:      SimpleOS2/Acpi/Jobs.lean
  Subject:   THE JOBS OF ACPICA (acpi/OSLayer.cpp: AcpiOsExecute, AcpiJobThread, AcpiOsWaitEventsComplete).

  `AcpiOsExecute` counts the job and puts it into a ring of 128 slots; the job thread takes the jobs out, calls
  them and uncounts them. The two indices only grow, and nothing asks whether the ring is full.

  * `jobStep` -- calls of `AcpiOsExecute` on any number of CPUs and the job thread, one event a step;
  * `Room` -- the ring has a free slot for the job that comes in, and no counter wraps;
  * `JobInv`, `jobInv_reach` -- the jobs not taken yet are in the ring;
  * `acpi_jobs_once` -- with room, the jobs are executed once each and in order; `acpi_job_lost` -- without, not.
-/
import Mathlib.Algebra.Group.Nat.Defs
import SimpleOS2.Lib.Progress
import SimpleOS2.Lib.Ring

namespace SimpleOS2

open Lib

namespace ACPI

/-! ## 1. The ring and the thread -/

/-- `struct Job`: a function and its argument. -/
structure Job where
  func : BitVec 64
  arg : BitVec 64
  deriving DecidableEq

/-- Where `AcpiJobThread` stands. -/
inductive JobThread
  /-- at the head of the loop -/
  | loop
  /-- with a job in hand, before `job.func(job.arg)` -/
  | taken (job : Job)
  /-- behind it, before `g_NumRunningJobs.Dec()` -/
  | called

/-- The variables of the job queue; `announced` are the calls of `AcpiOsExecute` between `Inc` and the section on
    `g_JobLock`. The last three are the history: the jobs put into the ring, the jobs called, the jobs uncounted. -/
structure JobState where
  numRunning : BitVec 64
  pushIndex : BitVec 64
  popIndex : BitVec 64
  queue : Nat → Job
  thread : JobThread
  announced : List Job
  accepted : List Job
  executed : List Job
  finished : Nat

inductive JobEvent
  /-- `AcpiOsExecute`: `g_NumRunningJobs.Inc()` -/
  | inc (job : Job)
  /-- `AcpiOsExecute`: the section -/
  | push (job : Job)
  /-- `AcpiJobThread`: the section, with `ThreadYield` where the ring is empty -/
  | take
  | call
  | dec

def JobEvent.ofThread : JobEvent → Bool
  | inc _ | push _ => false
  | take | call | dec => true

def jobExec (s : JobState) : JobEvent → Option JobState
  | .inc job => some { s with numRunning := s.numRunning + 1, announced := job :: s.announced }
  | .push job =>
      if job ∈ s.announced then
        some { s with
          queue := Function.update s.queue (s.pushIndex % 128).toNat job
          pushIndex := s.pushIndex + 1
          announced := s.announced.erase job
          accepted := s.accepted ++ [job] }
      else none
  | .take =>
      match s.thread with
      | .loop =>
          if s.popIndex < s.pushIndex then
            some { s with
              thread := .taken (s.queue (s.popIndex % 128).toNat)
              popIndex := s.popIndex + 1 }
          else some s
      | _ => none
  | .call =>
      match s.thread with
      | .taken job => some { s with thread := .called, executed := s.executed ++ [job] }
      | _ => none
  | .dec =>
      match s.thread with
      | .called => some { s with thread := .loop, numRunning := s.numRunning - 1, finished := s.finished + 1 }
      | _ => none

def jobStep (s : JobState) (e : JobEvent) (s' : JobState) : Prop := jobExec s e = some s'

/-- Nothing has happened yet; what is in the slots does not matter. -/
structure JobStart (s : JobState) : Prop where
  numRunning : s.numRunning = 0
  pushIndex : s.pushIndex = 0
  popIndex : s.popIndex = 0
  thread : s.thread = .loop
  announced : s.announced = []
  accepted : s.accepted = []
  executed : s.executed = []
  finished : s.finished = 0

/-- The test of the loop in `AcpiOsWaitEventsComplete`. -/
def JobState.waits (s : JobState) : Bool := 0 < s.numRunning

/-- The ring has a slot for the job: it is free, or the job in it is the same one; and neither counter wraps. -/
def Room (s : JobState) : JobEvent → Prop
  | .inc _ => s.numRunning.toNat + 1 < 2 ^ 64
  | .push job => s.pushIndex.toNat + 1 < 2 ^ 64 ∧
      (s.pushIndex.toNat < s.popIndex.toNat + 128 ∨ s.queue (s.pushIndex.toNat % 128) = job)
  | _ => True

/-- What the job queue is for: the jobs are called once each in the order in which they came, and the counter says
    how many there are still to finish (with those announced). -/
structure JobsOnce (s : JobState) : Prop where
  order : s.executed <+: s.accepted
  counted : s.finished ≤ s.accepted.length ∧
    s.numRunning.toNat = s.accepted.length - s.finished + s.announced.length
  /-- who has waited finds everything done -/
  waited : s.waits = false → s.executed = s.accepted ∧ s.finished = s.accepted.length

/-! ## 2. What every step keeps -/

/-- The job that was taken and not called yet. -/
def JobThread.inHand : JobThread → List Job
  | taken job => [job]
  | loop | called => []

/-- The job that was called and not uncounted yet. -/
def JobThread.underWay : JobThread → Nat
  | called => 1
  | loop | taken _ => 0

structure JobInv (s : JobState) : Prop where
  pushed : s.pushIndex.toNat = s.accepted.length
  popped : s.popIndex.toNat ≤ s.accepted.length
  taken : s.executed ++ s.thread.inHand = s.accepted.take s.popIndex.toNat
  slots : Slots 128 s.queue s.popIndex.toNat s.accepted
  called : s.executed.length = s.finished + s.thread.underWay
  counted : s.numRunning.toNat + s.finished = s.accepted.length + s.announced.length

section Steps

variable {s s' : JobState} {e : JobEvent} {job : Job}

theorem push_cases (h : jobStep s (.push job) s') : job ∈ s.announced ∧
    s' = { s with
      queue := Function.update s.queue (s.pushIndex % 128).toNat job
      pushIndex := s.pushIndex + 1
      announced := s.announced.erase job
      accepted := s.accepted ++ [job] } := by
  change (if job ∈ s.announced then _ else none) = _ at h
  split_ifs at h with hmem
  exact ⟨hmem, (Option.some.inj h).symm⟩

theorem take_cases (h : jobStep s .take s') : s.thread = .loop ∧
    (s.popIndex < s.pushIndex ∧ s' = { s with
        thread := .taken (s.queue (s.popIndex % 128).toNat)
        popIndex := s.popIndex + 1 } ∨
      ¬ s.popIndex < s.pushIndex ∧ s' = s) := by
  unfold jobStep jobExec at h
  cases hth : s.thread with
  | loop =>
      simp only [hth] at h
      split_ifs at h with hlt
      · exact ⟨rfl, Or.inl ⟨hlt, (Option.some.inj h).symm⟩⟩
      · exact ⟨rfl, Or.inr ⟨hlt, (Option.some.inj h).symm⟩⟩
  | taken job => simp [hth] at h
  | called => simp [hth] at h

theorem call_cases (h : jobStep s .call s') :
    ∃ job, s.thread = .taken job ∧ s' = { s with thread := .called, executed := s.executed ++ [job] } := by
  unfold jobStep jobExec at h
  cases hth : s.thread with
  | taken job =>
      simp only [hth] at h
      exact ⟨job, rfl, (Option.some.inj h).symm⟩
  | loop => simp [hth] at h
  | called => simp [hth] at h

theorem dec_cases (h : jobStep s .dec s') : s.thread = .called ∧
    s' = { s with thread := .loop, numRunning := s.numRunning - 1, finished := s.finished + 1 } := by
  unfold jobStep jobExec at h
  cases hth : s.thread with
  | called =>
      simp only [hth] at h
      exact ⟨rfl, (Option.some.inj h).symm⟩
  | loop => simp [hth] at h
  | taken job => simp [hth] at h

theorem slot_index (x : BitVec 64) : (x % 128).toNat = x.toNat % 128 := BitVec.toNat_umod

theorem succ_toNat {x : BitVec 64} (h : x.toNat + 1 < 2 ^ 64) : (x + 1).toNat = x.toNat + 1 := by
  rw [BitVec.toNat_add]
  exact Nat.mod_eq_of_lt h

theorem JobInv.start (h : JobStart s) : JobInv s := by
  obtain ⟨h1, h2, h3, h4, h5, h6, h7, h8⟩ := h
  constructor
  all_goals simp [h1, h2, h3, h4, h5, h6, h7, h8, JobThread.inHand, JobThread.underWay, Slots]

theorem JobInv.inc (hI : JobInv s) (hroom : Room s (.inc job)) (h : jobStep s (.inc job) s') : JobInv s' := by
  obtain rfl := Option.some.inj h
  refine { hI with counted := ?_ }
  show (s.numRunning + 1).toNat + s.finished = s.accepted.length + (s.announced.length + 1)
  rw [succ_toNat hroom, ← Nat.add_assoc, ← hI.counted]
  omega

theorem JobInv.push (hI : JobInv s) (hroom : Room s (.push job)) (h : jobStep s (.push job) s') : JobInv s' := by
  obtain ⟨hmem, rfl⟩ := push_cases h
  have hlen : (s.accepted ++ [job]).length = s.accepted.length + 1 := List.length_append
  refine ⟨?_, ?_, ?_, ?_, hI.called, ?_⟩
  · show (s.pushIndex + 1).toNat = _
    rw [succ_toNat hroom.1, hI.pushed, hlen]
  · exact Nat.le_trans hI.popped (by rw [hlen]; omega)
  · exact hI.taken.trans (List.take_append_of_le_length hI.popped).symm
  · show Slots 128 (Function.update s.queue (s.pushIndex % 128).toNat job) _ _
    rw [slot_index, hI.pushed]
    refine hI.slots.push ?_
    rw [← hI.pushed]
    exact hroom.2
  · have herase := List.length_erase_of_mem hmem
    have hpos := List.length_pos_of_mem hmem
    have hcount := hI.counted
    show s.numRunning.toNat + s.finished = (s.accepted ++ [job]).length + (s.announced.erase job).length
    omega

/-- The job that is taken is the next one. -/
theorem JobInv.next (hI : JobInv s) (hlt : s.popIndex < s.pushIndex) :
    s.accepted[s.popIndex.toNat]? = some (s.queue (s.popIndex % 128).toNat) := by
  rw [slot_index]
  exact hI.slots _ (Nat.le_refl _) (hI.pushed ▸ BitVec.lt_def.mp hlt)

theorem JobInv.take (hI : JobInv s) (h : jobStep s .take s') : JobInv s' := by
  obtain ⟨hth, ⟨hlt, rfl⟩ | ⟨-, rfl⟩⟩ := take_cases h
  · have hnext := hI.next hlt
    have hpop : s.popIndex.toNat < s.accepted.length := hI.pushed ▸ BitVec.lt_def.mp hlt
    have hsucc : (s.popIndex + 1).toNat = s.popIndex.toNat + 1 :=
      succ_toNat (Nat.lt_of_le_of_lt (BitVec.lt_def.mp hlt) s.pushIndex.isLt)
    refine ⟨hI.pushed, ?_, ?_, ?_, ?_, hI.counted⟩
    · show (s.popIndex + 1).toNat ≤ s.accepted.length
      omega
    · show s.executed ++ [_] = s.accepted.take (s.popIndex + 1).toNat
      rw [hsucc, List.take_add_one, hnext, ← hI.taken, hth]
      simp [JobThread.inHand]
    · show Slots 128 s.queue (s.popIndex + 1).toNat s.accepted
      rw [hsucc]
      exact hI.slots.pop
    · show s.executed.length = s.finished + 0
      rw [hI.called, hth]
      rfl
  · exact hI

theorem JobInv.call (hI : JobInv s) (h : jobStep s .call s') : JobInv s' := by
  obtain ⟨job, hth, rfl⟩ := call_cases h
  have htaken := hI.taken
  have hcalled := hI.called
  rw [hth] at htaken hcalled
  refine ⟨hI.pushed, hI.popped, ?_, hI.slots, ?_, hI.counted⟩
  · exact (List.append_nil _).trans htaken
  · show (s.executed ++ [job]).length = s.finished + 1
    rw [List.length_append, hcalled]
    rfl

theorem JobInv.finished_le (hI : JobInv s) : s.finished + s.thread.underWay ≤ s.accepted.length := by
  have hlen := congrArg List.length hI.taken
  rw [List.length_append, List.length_take] at hlen
  have hcalled := hI.called
  omega

theorem JobInv.dec (hI : JobInv s) (h : jobStep s .dec s') : JobInv s' := by
  obtain ⟨hth, rfl⟩ := dec_cases h
  have hle := hI.finished_le
  have htaken := hI.taken
  have hcalled := hI.called
  have hcount := hI.counted
  rw [hth] at hle htaken hcalled
  change s.finished + 1 ≤ _ at hle
  have hpos : (1 : BitVec 64).toNat ≤ s.numRunning.toNat := by
    show 1 ≤ s.numRunning.toNat
    omega
  refine ⟨hI.pushed, hI.popped, htaken, hI.slots, hcalled, ?_⟩
  show (s.numRunning - 1).toNat + (s.finished + 1) = s.accepted.length + s.announced.length
  rw [BitVec.toNat_sub_of_le (BitVec.le_def.mpr hpos)]
  show s.numRunning.toNat - 1 + (s.finished + 1) = _
  omega

theorem JobInv.step (hI : JobInv s) (h : Guarded jobStep Room s e s') : JobInv s' := by
  obtain ⟨hstep, hroom⟩ := h
  cases e with
  | inc job => exact hI.inc hroom hstep
  | push job => exact hI.push hroom hstep
  | take => exact hI.take hstep
  | call => exact hI.call hstep
  | dec => exact hI.dec hstep

theorem jobInv_reach (h : Reach (Guarded jobStep Room) JobStart s) : JobInv s :=
  Reach.inv (I := JobInv) (fun _ hs => JobInv.start hs) (fun _ _ _ hI hs => JobInv.step hI hs) h

theorem JobInv.once (hI : JobInv s) : JobsOnce s := by
  have hle := hI.finished_le
  have hcount := hI.counted
  have hpre : s.executed <+: s.accepted :=
    List.IsPrefix.trans ⟨s.thread.inHand, hI.taken⟩ (List.take_prefix _ _)
  refine ⟨hpre, ⟨by omega, by omega⟩, fun hw => ?_⟩
  have hzero : s.numRunning.toNat = 0 := by
    unfold JobState.waits at hw
    have hnot := of_decide_eq_false hw
    rw [BitVec.lt_def] at hnot
    exact Nat.eq_zero_of_not_pos hnot
  have hfin : s.finished = s.accepted.length := by omega
  have hlen : s.executed.length = s.accepted.length := by
    have hcalled := hI.called
    omega
  exact ⟨hpre.eq_of_length hlen, hfin⟩

end Steps

/-! ## 3. Every job is called -/

/-- The job thread is scheduled again and again, and every job it calls returns. -/
def ThreadRuns (r : Behaviour (Guarded jobStep Room)) : Prop := ∀ n, ∃ m, n ≤ m ∧ (r.event m).ofThread = true

/-- How many steps the thread has before it until it has called the job `i`. -/
def JobState.stepsLeft (i : Nat) (s : JobState) : Nat :=
  3 * (i - s.executed.length) +
    match s.thread with
    | .taken _ => 1
    | .loop => 2
    | .called => 3

section Liveness

variable {s s' : JobState} {e : JobEvent} {i : Nat} {r : Behaviour (Guarded jobStep Room)}

/-- **A step brings the job nearer**, if it is one of the thread. -/
theorem JobInv.nearer (hI : JobInv s) (h : jobStep s e s') (hi : i < s.accepted.length)
    (hn : s.executed.length ≤ i) : i < s'.executed.length ∨
      i < s'.accepted.length ∧ s'.stepsLeft i + (if e.ofThread then 1 else 0) ≤ s.stepsLeft i := by
  cases e with
  | inc job =>
      obtain rfl := Option.some.inj h
      exact Or.inr ⟨hi, Nat.le_refl _⟩
  | push job =>
      obtain ⟨-, rfl⟩ := push_cases h
      refine Or.inr ⟨Nat.lt_of_lt_of_le hi ?_, Nat.le_refl _⟩
      show s.accepted.length ≤ (s.accepted ++ [job]).length
      rw [List.length_append]
      exact Nat.le_add_right _ _
  | take =>
      obtain ⟨hth, ⟨hlt, rfl⟩ | ⟨hnot, rfl⟩⟩ := take_cases h
      · refine Or.inr ⟨hi, ?_⟩
        simp only [JobState.stepsLeft, hth, JobEvent.ofThread, if_true]
        omega
      · -- there is a job to take: those before it were called
        have hlen := congrArg List.length hI.taken
        rw [hth] at hlen
        simp only [JobThread.inHand, List.append_nil, List.length_take] at hlen
        have hle := hI.pushed ▸ Nat.le_of_not_lt fun hlt => hnot (BitVec.lt_def.mpr hlt)
        have hpopped := hI.popped
        omega
  | call =>
      obtain ⟨job, hth, rfl⟩ := call_cases h
      have hlen : (s.executed ++ [job]).length = s.executed.length + 1 := List.length_append
      rcases Nat.lt_or_ge i (s.executed.length + 1) with hlt | hge
      · exact Or.inl (hlen ▸ hlt)
      · refine Or.inr ⟨hi, ?_⟩
        simp only [JobState.stepsLeft, hth, JobEvent.ofThread, if_true, hlen]
        omega
  | dec =>
      obtain ⟨hth, rfl⟩ := dec_cases h
      refine Or.inr ⟨hi, ?_⟩
      simp only [JobState.stepsLeft, hth, JobEvent.ofThread, if_true]
      omega

/-- **Every job accepted is called.** -/
theorem called_in_time (h0 : JobInv (r.state 0)) (hruns : ThreadRuns r) :
    r.LeadsTo (fun s => i < s.accepted.length) (fun s => i < s.executed.length) := by
  have hI : ∀ n, JobInv (r.state n) := fun n =>
    Behaviour.stable (P := JobInv) (fun n h => JobInv.step h (r.step n)) (Nat.zero_le n) h0
  refine Behaviour.LeadsTo.of_measure (JobState.stepsLeft i) fun n hn => ?_
  -- up to the thread's next step the job gets no farther away
  let Near : JobState → Prop := fun s =>
    s.executed.length ≤ i ∧ i < s.accepted.length ∧ s.stepsLeft i ≤ (r.state n).stepsLeft i
  have hkeep : ∀ k, Near (r.state k) → Near (r.state (k + 1)) ∨ i < (r.state (k + 1)).executed.length := by
    intro k hk
    obtain ⟨hex, hacc, hle⟩ := hk
    rcases Nat.lt_or_ge i (r.state (k + 1)).executed.length with hlt | hge
    · exact Or.inr hlt
    · rcases (hI k).nearer (r.step k).1 hacc hex with hlt | ⟨hacc', hle'⟩
      · exact Or.inr hlt
      · exact Or.inl ⟨hge, hacc', Nat.le_trans (Nat.le_trans (Nat.le_add_right _ _) hle') hle⟩
  rcases Nat.lt_or_ge i (r.state n).executed.length with hlt | hge
  · exact ⟨n, Nat.le_refl n, Or.inl hlt⟩
  obtain ⟨m, hnm, hm⟩ := hruns n
  rcases Behaviour.until_or (P := Near) (Q := fun s => i < s.executed.length) hkeep hnm
      ⟨hge, hn, Nat.le_refl _⟩ with hnear | ⟨k, hnk, -, hk⟩
  · obtain ⟨hex, hacc, hle⟩ := hnear
    refine ⟨m + 1, Nat.le_succ_of_le hnm, ?_⟩
    rcases (hI m).nearer (r.step m).1 hacc hex with hlt | ⟨hacc', hle'⟩
    · exact Or.inl hlt
    · rw [if_pos hm] at hle'
      exact Or.inr ⟨hacc', Nat.le_trans hle' hle⟩
  · exact ⟨k, hnk, Or.inl hk⟩

end Liveness

/-! ## 4. The results -/

/-- **With room in the ring, the jobs run once each and in order**, and all of them do. -/
theorem acpi_jobs_once (s : JobState) (hs : Reach (Guarded jobStep Room) JobStart s) :
    JobsOnce s ∧ ∀ r : Behaviour (Guarded jobStep Room), r.state 0 = s → ThreadRuns r →
      ∀ n i, i < (r.state n).accepted.length → ∃ m, n ≤ m ∧ i < (r.state m).executed.length := by
  have hI := jobInv_reach hs
  refine ⟨hI.once, fun r hr hruns n i hi => ?_⟩
  have h0 : JobInv (r.state 0) := hr ▸ hI
  exact called_in_time h0 hruns n hi

/-! ### A ring of 128 and 129 jobs -/

/-- The job `k`. -/
def jobNumber (k : Nat) : Job := ⟨BitVec.ofNat 64 (0x1000 + k), 0⟩

def noJobs : JobState where
  numRunning := 0
  pushIndex := 0
  popIndex := 0
  queue := fun _ => ⟨0, 0⟩
  thread := .loop
  announced := []
  accepted := []
  executed := []
  finished := 0

theorem noJobs_start : JobStart noJobs := ⟨rfl, rfl, rfl, rfl, rfl, rfl, rfl, rfl⟩

/-- What the ring holds behind `k` jobs. -/
def filled : Nat → Nat → Job
  | 0 => fun _ => ⟨0, 0⟩
  | k + 1 => Function.update (filled k) (k % 128) (jobNumber k)

/-- `k` jobs were accepted and none is taken. -/
def backlog (k : Nat) : JobState where
  numRunning := BitVec.ofNat 64 k
  pushIndex := BitVec.ofNat 64 k
  popIndex := 0
  queue := filled k
  thread := .loop
  announced := []
  accepted := (List.range k).map jobNumber
  executed := []
  finished := 0

/-- One more job, announced. -/
def announced (k : Nat) : JobState :=
  { backlog k with numRunning := BitVec.ofNat 64 k + 1, announced := [jobNumber k] }

theorem announced_step (k : Nat) : jobStep (backlog k) (.inc (jobNumber k)) (announced k) := rfl

theorem backlog_step {k : Nat} (hk : k < 2 ^ 64) : jobStep (announced k) (.push (jobNumber k)) (backlog (k + 1)) := by
  have hmod : (BitVec.ofNat 64 k % 128).toNat = k % 128 := by
    rw [slot_index, BitVec.toNat_ofNat, Nat.mod_eq_of_lt hk]
  show (if jobNumber k ∈ [jobNumber k] then some (JobState.mk (BitVec.ofNat 64 k + 1) (BitVec.ofNat 64 k + 1) 0
    (Function.update (filled k) (BitVec.ofNat 64 k % 128).toNat (jobNumber k)) .loop ([jobNumber k].erase (jobNumber k))
    ((List.range k).map jobNumber ++ [jobNumber k]) [] 0) else none) = some (backlog (k + 1))
  rw [if_pos (List.mem_singleton_self _), hmod]
  unfold backlog
  simp [filled, List.range_succ, BitVec.ofNat_add]

theorem backlog_reach (k : Nat) (hk : k < 2 ^ 64) : Reach jobStep JobStart (backlog k) := by
  induction k with
  | zero => exact .start _ noJobs_start
  | succ k ih =>
      have hk' := Nat.lt_of_succ_lt hk
      exact .next _ _ _ (.next _ _ _ (ih hk') (announced_step k)) (backlog_step hk')

/-- The job 128 takes the slot of the job 0: it is called first, and the job 0 never. -/
theorem acpi_job_lost : ∃ s, Reach jobStep JobStart s ∧ s.accepted = (List.range 129).map jobNumber ∧
    s.executed = [jobNumber 128] ∧ ¬ JobsOnce s := by
  let held : JobState := { backlog 129 with thread := .taken (jobNumber 128), popIndex := 1 }
  let late : JobState := { backlog 129 with thread := .called, popIndex := 1, executed := [jobNumber 128] }
  have htake : jobStep (backlog 129) .take held := by
    show (if (0 : BitVec 64) < BitVec.ofNat 64 129 then some { backlog 129 with
      thread := .taken (filled 129 ((0 : BitVec 64) % 128).toNat), popIndex := 1 } else some (backlog 129)) = _
    rw [if_pos (by decide)]
    rfl
  have hcall : jobStep held .call late := rfl
  refine ⟨late, .next _ _ _ (.next _ _ _ (backlog_reach 129 (by decide)) htake) hcall, rfl, rfl, fun h => ?_⟩
  obtain ⟨t, ht⟩ := h.order
  have hhead : some (jobNumber 128) = some (jobNumber 0) := congrArg List.head? ht
  exact absurd hhead (by decide)

theorem acpi_jobs_once_first : JobsOnce (backlog 1) ∧
    ∀ r : Behaviour (Guarded jobStep Room), r.state 0 = backlog 1 → ThreadRuns r →
      ∀ n i, i < (r.state n).accepted.length → ∃ m, n ≤ m ∧ i < (r.state m).executed.length :=
  acpi_jobs_once (backlog 1)
    (.next _ _ _
      (.next _ _ _ (.start _ noJobs_start) ⟨announced_step 0, (by decide : (0 : BitVec 64).toNat + 1 < 2 ^ 64)⟩)
      ⟨backlog_step (by decide), by decide, Or.inl (by decide)⟩)

end ACPI

end SimpleOS2
