/-
  File:      SimpleOS2/Scheduler/ExitLoop.lean
  Subject:   THE END OF A THREAD (KillChildThreads, ThreadExit, UpdateEvents of scheduler/Scheduler.cpp).

  `KillChildThreads` takes its children one after the other, waits for each of them, and puts it back if the wait was
  interrupted. A pass of `UpdateEvents` asks first whether a kill or an abort is pending, and nothing in
  `ThreadExit` takes these requests.

  * `Stands`, `ready_keep`, `join_keep`, `own_kill` ... -- the thread from one place of the loop to the next;
  * `Fair` -- the timers go on, and a thread that can run does;
  * `exit_round` -- a round of the loop leaves one child less;
  * `exit_finishes` -- where no pass finds the thread waiting with a request pending, the loop ends;
  * `exit_unfinished` -- where every pass does, it does not.
-/
import Mathlib.Data.Fintype.Card
import SimpleOS2.Lib.Progress
import SimpleOS2.Scheduler.ExitSteps

namespace SimpleOS2

open Lib

namespace Reaping

/-! ## 1. The loop, step by step -/

/-- Where a thread stands in `ThreadExit`, on which CPU. -/
structure Stands (t cpu : Nat) (state : ThreadState) (pc : Pc) (s : Sys) : Prop where
  state : (s.thread t).state = state
  pc : (s.thread t).pc = pc
  active : t ∈ s.activeList cpu

/-- If the event is a pass over the thread while it waits for a child, nothing is pending. -/
def Calm (t : Nat) (s : Sys) : Event → Prop
  | .update cpu _ => t ∈ s.activeList cpu → ∀ code x, (s.thread t).pc = .killWait code x →
      (s.thread t).state = .join x → (s.thread t).calm
  | _ => True

section Steps

variable {s s' : Sys} {e : Event} {t x cpu : Nat} {pc : Pc} {code : Int}

/-- A pass over another CPU. -/
theorem pass_elsewhere {c : Nat} {k : Tick} (h : t ∉ s.activeList c) :
    (updateEvents k c s).thread t = s.thread t ∧ ∀ d, t ∈ s.activeList d → t ∈ (updateEvents k c s).activeList d := by
  have hfold : ∀ (l : List Nat) (s : Sys), t ∉ l → (l.foldl (updateThread k c) s).thread t = s.thread t ∧
      ∀ d, t ∈ s.activeList d → t ∈ (l.foldl (updateThread k c) s).activeList d := by
    intro l
    induction l with
    | nil => exact fun _ _ => ⟨rfl, fun _ h => h⟩
    | cons u l ih =>
        intro s hmem
        have hu : u ≠ t := fun he => hmem (he ▸ List.mem_cons_self)
        obtain ⟨hth, hact⟩ := ih (updateThread k c s u) fun hm => hmem (List.mem_cons_of_mem _ hm)
        exact ⟨hth.trans (updateThread_other hu.symm),
          fun d hd => hact d (updateThread_stays hd fun he => absurd he hu)⟩
  exact hfold _ s h

/-- A thread that is ready stays where it is until it takes a step itself. -/
theorem ready_keep (hP : Placed s) (hs : reapStep s e s') (he : e.thread ≠ some t) (hpc : pc.inExit = true)
    (h : Stands t cpu .ready pc s) : Stands t cpu .ready pc s' ∧ (s'.thread t).rax = (s.thread t).rax := by
  by_cases hu : ∃ c k, e = .update c k
  · obtain ⟨c, k, rfl⟩ := hu
    cases hs
    obtain ⟨hth, hact⟩ := pass_waits k c (⟨by rw [h.pc, hpc], Or.inl h.state⟩ : s.Waits t)
    have hsame : (updateEvents k c s).thread t = s.thread t := by
      rcases hth with hth | ⟨⟨y, hy⟩, -⟩
      · exact hth
      · cases h.state.symm.trans hy
    exact ⟨⟨by rw [hsame, h.state], by rw [hsame, h.pc], hact cpu h.active⟩, by rw [hsame]⟩
  · have hO := others_step hs he (fun c k hc => hu ⟨c, k, hc⟩) (hP.active cpu t h.active)
    refine ⟨⟨?_, hO.pc.trans h.pc, hO.active cpu h.active⟩, hO.rax⟩
    rcases hO.state with hst | hst
    · exact hst.trans h.state
    · cases h.state.symm.trans hst

/-- A thread that waits goes on waiting, or is ready with `OK`. -/
theorem join_keep (hP : Placed s) (hs : reapStep s e s') (hc : Calm t s e)
    (h : Stands t cpu (.join x) (.killWait code x) s) : Stands t cpu (.join x) (.killWait code x) s' ∨
      Stands t cpu .ready (.killWait code x) s' ∧ (s'.thread t).rax = OK := by
  by_cases hu : ∃ c k, e = .update c k
  · obtain ⟨c, k, rfl⟩ := hu
    cases hs
    by_cases hmem : t ∈ s.activeList c
    · have hwaits : s.Waits t := ⟨by rw [h.pc]; rfl, Or.inr ⟨⟨x, h.state⟩, hc hmem code x h.pc h.state⟩⟩
      obtain ⟨hth, hact⟩ := pass_waits k c hwaits
      rcases hth with hth | ⟨-, hth⟩
      · exact Or.inl ⟨by rw [hth, h.state], by rw [hth, h.pc], hact cpu h.active⟩
      · exact Or.inr ⟨⟨by rw [hth]; rfl, by rw [hth]; exact h.pc, hact cpu h.active⟩, by rw [hth]; rfl⟩
    · obtain ⟨hth, hact⟩ := pass_elsewhere (k := k) hmem
      exact Or.inl ⟨by rw [hth, h.state], by rw [hth, h.pc], hact cpu h.active⟩
  · have hown : e.thread ≠ some t := by
      intro he
      cases h.state.symm.trans (own_event hs he).1
    have hO := others_step hs hown (fun c k he => hu ⟨c, k, he⟩) (hP.active cpu t h.active)
    refine Or.inl ⟨?_, hO.pc.trans h.pc, hO.active cpu h.active⟩
    rcases hO.state with hst | hst
    · exact hst.trans h.state
    · cases h.state.symm.trans hst

/-- At the head of the loop: the last child is taken, or there is none. -/
theorem own_kill (hs : reapStep s e s') (he : e.thread = some t) (h : Stands t cpu .ready (.kill code) s) :
    (∃ x ∈ s.childThreads t, Stands t cpu .ready (.killTaken code x) s') ∨ Stands t cpu .ready (.exiting code) s' := by
  have hmem := (own_event hs he).2 (by rw [h.pc]; rfl)
  rw [h.pc] at hmem
  have hgo : ∀ {s1 : Sys} {pc : Pc}, s1.thread = s.thread → s1.activeList = s.activeList →
      Stands t cpu .ready pc (s1.goto t pc) := by
    intro s1 pc h1 h2
    refine ⟨?_, ?_, ?_⟩
    · rw [goto_thread, if_pos rfl, h1]
      exact h.state
    · rw [goto_thread, if_pos rfl]
    · show t ∈ s1.activeList cpu
      rw [h2]
      exact h.active
  rcases List.mem_cons.mp hmem with rfl | hmem
  · cases hs with
    | killTake _ c x code' l hr hp hl =>
        cases h.pc.symm.trans hp
        exact Or.inl ⟨x, hl ▸ List.mem_append_right _ (List.mem_singleton_self x), hgo rfl rfl⟩
  · obtain rfl := List.mem_singleton.mp hmem
    cases hs with
    | killEmpty _ c code' hr hp hl =>
        cases h.pc.symm.trans hp
        exact Or.inr (hgo rfl rfl)

/-- A child has been taken: the thread waits for it. -/
theorem own_taken (hs : reapStep s e s') (he : e.thread = some t) (h : Stands t cpu .ready (.killTaken code x) s) :
    Stands t cpu (.join x) (.killWait code x) s' := by
  have hmem := (own_event hs he).2 (by rw [h.pc]; rfl)
  rw [h.pc] at hmem
  obtain rfl := List.mem_singleton.mp hmem
  cases hs with
  | killBlock _ c y code' hr hp =>
      cases h.pc.symm.trans hp
      refine ⟨?_, ?_, h.active⟩
      · rw [set_thread]
        split_ifs with hx
        · rw [← hx, set_thread, if_pos rfl]
        · rw [set_thread, if_pos rfl]
      · rw [set_thread]
        split_ifs with hx
        · rw [← hx, set_thread, if_pos rfl]
        · rw [set_thread, if_pos rfl]

/-- The wait has ended well: the child is through. -/
theorem own_wait (hP : Placed s) (hs : reapStep s e s') (he : e.thread = some t)
    (h : Stands t cpu .ready (.killWait code x) s) (hrax : (s.thread t).rax = OK) :
    Stands t cpu .ready (.kill code) s' ∧ s'.Out x ∧ e = .killDone t := by
  have hmem := (own_event hs he).2 (by rw [h.pc]; rfl)
  rw [h.pc] at hmem
  rcases List.mem_cons.mp hmem with rfl | hmem
  · cases hs with
    | killBack _ c y code' hr hp hne => exact absurd hrax hne
  · obtain rfl := List.mem_singleton.mp hmem
    refine ⟨?_, out_killDone hP hs h.pc, rfl⟩
    cases hs with
    | killDone _ c y code' hr hp hok =>
        cases h.pc.symm.trans hp
        refine ⟨?_, ?_, h.active⟩
        · rw [goto_thread, if_pos rfl]
          exact h.state
        · rw [goto_thread, if_pos rfl]

theorem own_exiting (hs : reapStep s e s') (he : e.thread = some t) (h : Stands t cpu .ready (.exiting code) s) :
    (s'.thread t).state = .finished := by
  have hmem := (own_event hs he).2 (by rw [h.pc]; rfl)
  rw [h.pc] at hmem
  obtain rfl := List.mem_singleton.mp hmem
  cases hs with
  | finish _ c code' hr hp => rw [set_thread, if_pos rfl]

end Steps

/-! ## 2. The loop ends -/

/-- The timers go on, and a thread that can run takes a step sooner or later. -/
structure Fair (r : Behaviour reapStep) (t : Nat) : Prop where
  timer : ∀ n cpu, t ∈ (r.state n).activeList cpu → ∃ m, n ≤ m ∧ ∃ k, r.event m = .update cpu k
  runs : ∀ n cpu, (r.state n).Runs t cpu → ∃ m, n ≤ m ∧ (r.event m).thread = some t

/-- The end of a `JOIN` of `KillChildThreads`. -/
def Event.joined (t : Nat) : Event → Nat
  | .killDone u => if u = t then 1 else 0
  | _ => 0

/-- How many of them the thread has seen before time `n`. -/
def joins (r : Behaviour reapStep) (t : Nat) : Nat → Nat
  | 0 => 0
  | n + 1 => joins r t n + (r.event n).joined t

/-- The threads that ever are among the children. -/
def childrenOf (r : Behaviour reapStep) (t : Nat) : Set Nat := {x | ∃ n, x ∈ (r.state n).childThreads t}

open Classical in
/-- Those of them that are not through. -/
noncomputable def left (S : Finset Nat) (s : Sys) : Nat := (S.filter fun x => ¬ s.Out x).card

/-- The places in the loop of `KillChildThreads` and behind it. -/
inductive InLoop (S : Finset Nat) (t cpu : Nat) (code : Int) (s : Sys) : Prop where
  | kill (h : Stands t cpu .ready (.kill code) s)
  | taken (x : Nat) (hx : x ∈ S) (h : Stands t cpu .ready (.killTaken code x) s)
  | wait (x : Nat) (hx : x ∈ S) (h : Stands t cpu (.join x) (.killWait code x) s)
  | woken (x : Nat) (hx : x ∈ S) (h : Stands t cpu .ready (.killWait code x) s) (hrax : (s.thread t).rax = OK)
  | exiting (h : Stands t cpu .ready (.exiting code) s)

section Loop

variable {S : Finset Nat} {s s' : Sys} {e : Event} {t x cpu : Nat} {code : Int}

theorem left_le (h : ∀ y, s.Out y → s'.Out y) : left S s' ≤ left S s := by
  classical
  exact Finset.card_le_card (Finset.monotone_filter_right S fun y _ hy hO => hy (h y hO))

/-- One child less. -/
theorem left_lt (h : ∀ y, s.Out y → s'.Out y) (hx : x ∈ S) (hbefore : ¬ s.Out x) (hafter : s'.Out x) :
    left S s' < left S s := by
  classical
  refine Finset.card_lt_card ((Finset.ssubset_iff_of_subset
    (Finset.monotone_filter_right S fun y _ hy hO => hy (h y hO))).mpr ⟨x, ?_, ?_⟩)
  · exact Finset.mem_filter.mpr ⟨hx, hbefore⟩
  · exact fun hm => (Finset.mem_filter.mp hm).2 hafter

theorem held_not_out (hpc : (s.thread t).pc.holds = some x) : ¬ s.Out x := fun hO => hO.2.2 t hpc

/-- **One step of the loop**: the thread stays in it or has `FINISHED`; a `JOIN` that ends makes one child less. -/
theorem loop_step (hP : Placed s) (hs : reapStep s e s') (hc : Calm t s e) (hS : ∀ x ∈ s.childThreads t, x ∈ S)
    (h : InLoop S t cpu code s) : (InLoop S t cpu code s' ∨ (s'.thread t).state = .finished) ∧
      left S s' + e.joined t ≤ left S s := by
  have hout : ∀ y, s.Out y → s'.Out y := fun y => out_step hs
  have hle := left_le (S := S) hout
  have hnone : e.thread ≠ some t ∨ (s.thread t).pc.waits = none → e.joined t = 0 := by
    intro hor
    cases hs with
    | killDone u c y code' hr hp hok =>
        refine if_neg fun hu => ?_
        subst hu
        rcases hor with hne | hw
        · exact hne rfl
        · rw [hp] at hw
          cases hw
    | _ => rfl
  cases h with
  | kill h =>
      rw [hnone (Or.inr (by rw [h.pc]; rfl))]
      refine ⟨Or.inl ?_, hle⟩
      by_cases he : e.thread = some t
      · rcases own_kill hs he h with ⟨x, hx, h'⟩ | h'
        · exact .taken x (hS x hx) h'
        · exact .exiting h'
      · exact .kill (ready_keep hP hs he rfl h).1
  | taken x hx h =>
      rw [hnone (Or.inr (by rw [h.pc]; rfl))]
      refine ⟨Or.inl ?_, hle⟩
      by_cases he : e.thread = some t
      · exact .wait x hx (own_taken hs he h)
      · exact .taken x hx (ready_keep hP hs he rfl h).1
  | wait x hx h =>
      have he : e.thread ≠ some t := by
        intro he
        cases h.state.symm.trans (own_event hs he).1
      rw [hnone (Or.inl he)]
      refine ⟨Or.inl ?_, hle⟩
      rcases join_keep hP hs hc h with h' | ⟨h', hrax⟩
      · exact .wait x hx h'
      · exact .woken x hx h' hrax
  | woken x hx h hrax =>
      by_cases he : e.thread = some t
      · obtain ⟨h', hO, rfl⟩ := own_wait hP hs he h hrax
        refine ⟨Or.inl (.kill h'), ?_⟩
        have hlt : left S s' < left S s := left_lt hout hx (held_not_out (t := t) (by rw [h.pc]; rfl)) hO
        have hone : Event.joined t (.killDone t) = 1 := if_pos rfl
        rw [hone]
        exact hlt
      · rw [hnone (Or.inl he)]
        obtain ⟨h', hrax'⟩ := ready_keep hP hs he rfl h
        exact ⟨Or.inl (.woken x hx h' (hrax'.trans hrax)), hle⟩
  | exiting h =>
      rw [hnone (Or.inr (by rw [h.pc]; rfl))]
      refine ⟨?_, hle⟩
      by_cases he : e.thread = some t
      · exact Or.inr (own_exiting hs he h)
      · exact Or.inl (.exiting (ready_keep hP hs he rfl h).1)

end Loop

section Runs

variable {r : Behaviour reapStep} {S : Finset Nat} {t x cpu : Nat} {code : Int}

/-- A thread that is ready takes its step. -/
theorem own_leads (A : Int → Prop) (hP : ∀ n, Placed (r.state n)) (hfair : Fair r t) {pc : Pc} (hpc : pc.inExit = true)
    {Q : Sys → Prop}
    (hown : ∀ n, Stands t cpu .ready pc (r.state n) → A ((r.state n).thread t).rax → (r.event n).thread = some t →
      Q (r.state (n + 1))) :
    r.LeadsTo (fun s => Stands t cpu .ready pc s ∧ A (s.thread t).rax) Q := by
  refine Behaviour.LeadsTo.of_unless (fun n h => ?_) fun n h => ?_
  · by_cases he : (r.event n).thread = some t
    · exact Or.inr (hown n h.1 h.2 he)
    · obtain ⟨h', hrax⟩ := ready_keep (hP n) (r.step n) he hpc h.1
      exact Or.inl ⟨h', hrax.symm ▸ h.2⟩
  · obtain ⟨m, hnm, hm⟩ := hfair.runs n cpu ⟨h.1.active, h.1.state⟩
    exact ⟨m, hnm, fun h' => hown m h'.1 h'.2 hm⟩

theorem next_step {s s' : Sys} {e : Event} (hs : reapStep s e s') : s.next ≤ s'.next := by
  cases hs <;> first
    | exact Nat.le_refl _
    | exact Nat.le_succ _
    | exact Nat.le_of_eq (quiet_updateEvents _ _ _).next.symm

theorem exited_stays {m n : Nat} (hmn : m ≤ n) (hx : x < (r.state m).next)
    (h : ((r.state m).thread x).state = .exited) : ((r.state n).thread x).state = .exited := by
  have hstable : x < (r.state n).next ∧ ((r.state n).thread x).state = .exited :=
    Behaviour.stable (P := fun s : Sys => x < s.next ∧ (s.thread x).state = .exited)
      (fun n h => ⟨Nat.lt_of_lt_of_le h.1 (next_step (r.step n)), exited_step (r.step n) h.1 h.2⟩) hmn ⟨hx, h⟩
  exact hstable.2

/-- A thread that waits for a child which ends is ready again, with `OK`. -/
theorem join_leads (hP : ∀ n, Placed (r.state n)) (hfair : Fair r t) (hcalm : ∀ n, Calm t (r.state n) (r.event n))
    {n0 : Nat} (hx : x < (r.state n0).next) (hexited : ((r.state n0).thread x).state = .exited) :
    r.LeadsTo (Stands t cpu (.join x) (.killWait code x))
      (fun s => Stands t cpu .ready (.killWait code x) s ∧ (s.thread t).rax = OK) := by
  have hkeep : ∀ n, Stands t cpu (.join x) (.killWait code x) (r.state n) →
      Stands t cpu (.join x) (.killWait code x) (r.state (n + 1)) ∨
        Stands t cpu .ready (.killWait code x) (r.state (n + 1)) ∧ ((r.state (n + 1)).thread t).rax = OK :=
    fun n => join_keep (hP n) (r.step n) (hcalm n)
  refine Behaviour.LeadsTo.of_unless hkeep fun n h => ?_
  rcases Behaviour.until_or (Q := fun s => Stands t cpu .ready (.killWait code x) s ∧ (s.thread t).rax = OK) hkeep
    (Nat.le_max_left n n0) h with h' | ⟨k, hnk, -, hk⟩
  · obtain ⟨m, hm, k, hev⟩ := hfair.timer _ cpu h'.active
    refine ⟨m, Nat.le_trans (Nat.le_max_left n n0) hm, fun hst => ?_⟩
    have hxm := exited_stays (Nat.le_trans (Nat.le_max_right n n0) hm) hx hexited
    have hstep := r.step m
    have hc := hcalm m
    rw [hev] at hstep hc
    have hwoken : (updateEvents k cpu (r.state m)).thread t = ((r.state m).thread t).woken :=
      pass_join (by rw [hst.pc]; rfl) hst.state (hc hst.active code x hst.pc hst.state) hxm hst.active
    have hwaits : (r.state m).Waits t :=
      ⟨by rw [hst.pc]; rfl, Or.inr ⟨⟨x, hst.state⟩, hc hst.active code x hst.pc hst.state⟩⟩
    have hact := (pass_waits k cpu hwaits).2 cpu hst.active
    obtain ⟨s', hs'⟩ : ∃ s', r.state (m + 1) = s' := ⟨_, rfl⟩
    rw [hs'] at hstep ⊢
    cases hstep
    exact ⟨⟨by rw [hwoken]; rfl, by rw [hwoken]; exact hst.pc, hact⟩, by rw [hwoken]; rfl⟩
  · exact ⟨k, hnk, fun hst => by cases hst.state.symm.trans hk.1.state⟩

/-- **One round**: a child is through, or the thread has `FINISHED`. -/
theorem exit_round (hP : ∀ n, Placed (r.state n)) (hfair : Fair r t) (hcalm : ∀ n, Calm t (r.state n) (r.event n))
    (hS : ∀ n, ∀ x ∈ (r.state n).childThreads t, x ∈ S)
    (hexit : ∀ x ∈ S, ∃ n, x < (r.state n).next ∧ ((r.state n).thread x).state = .exited) (n : Nat)
    (h : Stands t cpu .ready (.kill code) (r.state n)) : ∃ m, n ≤ m ∧ (((r.state m).thread t).state = .finished ∨
      Stands t cpu .ready (.kill code) (r.state m) ∧ left S (r.state m) < left S (r.state n)) := by
  have hle : ∀ {a b : Nat}, a ≤ b → left S (r.state b) ≤ left S (r.state a) := by
    intro a b hab
    induction hab with
    | refl => exact Nat.le_refl _
    | step _ ih => exact Nat.le_trans (left_le fun y => out_step (r.step _)) ih
  have hkill : r.LeadsTo (fun s => Stands t cpu .ready (.kill code) s ∧ True) (fun s =>
      (∃ x ∈ S, Stands t cpu .ready (.killTaken code x) s) ∨ Stands t cpu .ready (.exiting code) s) :=
    own_leads (fun _ => True) hP hfair rfl fun n h _ he =>
      (own_kill (r.step n) he h).imp_left fun ⟨x, hx, h'⟩ => ⟨x, hS n x hx, h'⟩
  obtain ⟨n1, hn1, htaken | hlast⟩ := hkill n ⟨h, trivial⟩
  · obtain ⟨x, hx, htaken⟩ := htaken
    obtain ⟨n0, hlt, hexited⟩ := hexit x hx
    have hwait : r.LeadsTo (fun s => Stands t cpu .ready (.killTaken code x) s ∧ True)
        (Stands t cpu (.join x) (.killWait code x)) :=
      own_leads (fun _ => True) hP hfair rfl fun n h _ he => own_taken (r.step n) he h
    have hdone : r.LeadsTo (fun s => Stands t cpu .ready (.killWait code x) s ∧ (s.thread t).rax = OK)
        (fun s => Stands t cpu .ready (.kill code) s ∧ s.Out x) :=
      own_leads (fun rax => rax = OK) hP hfair rfl fun n h hrax he =>
        have h' := own_wait (hP n) (r.step n) he h hrax
        ⟨h'.1, h'.2.1⟩
    obtain ⟨m, hm, hkilled, hO⟩ := (hwait.trans (join_leads hP hfair hcalm hlt hexited)).trans hdone n1
      ⟨htaken, trivial⟩
    refine ⟨m, Nat.le_trans hn1 hm, Or.inr ⟨hkilled, Nat.lt_of_lt_of_le ?_ (hle hn1)⟩⟩
    refine left_lt (fun y hy => ?_) hx (held_not_out (t := t) (by rw [htaken.pc]; rfl)) hO
    exact Behaviour.stable (P := fun s : Sys => s.Out y) (fun n => out_step (r.step n)) hm hy
  · have hfinish : r.LeadsTo (fun s => Stands t cpu .ready (.exiting code) s ∧ True)
        (fun s => (s.thread t).state = .finished) :=
      own_leads (fun _ => True) hP hfair rfl fun n h _ he => own_exiting (r.step n) he h
    obtain ⟨m, hm, hfin⟩ := hfinish n1 ⟨hlast, trivial⟩
    exact ⟨m, Nat.le_trans hn1 hm, Or.inl hfin⟩

/-- **Exiting finishes** where no pass finds the thread waiting for a child with a request pending: a `JOIN` on a child
    that is `EXITED` ends with `OK`, and after as many of them as there are children, at most, the thread has
    `FINISHED`. -/
theorem exit_finishes (r : Behaviour reapStep) (t cpu : Nat) (code : Int) (hreach : Reach reapStep reapInit (r.state 0))
    (hstart : (r.state 0).Runs t cpu ∧ ((r.state 0).thread t).pc = .kill code) (hfin : (childrenOf r t).Finite)
    (hexit : ∀ n, ∀ x ∈ (r.state n).childThreads t, ∃ m, n ≤ m ∧ ((r.state m).thread x).state = .exited)
    (hfair : Fair r t) (hcalm : ∀ n, Calm t (r.state n) (r.event n)) :
    (∀ n x c k, ((r.state n).thread t).pc = .killWait code x → ((r.state n).thread t).state = .join x →
      ((r.state n).thread x).state = .exited → r.event n = .update c k → t ∈ (r.state n).activeList c →
        ((r.state (n + 1)).thread t).state = .ready ∧ ((r.state (n + 1)).thread t).rax = OK) ∧
    ∃ n, ((r.state n).thread t).state = .finished ∧ joins r t n ≤ hfin.toFinset.card := by
  have hP : ∀ n, Placed (r.state n) := fun n => placed_reach (Behaviour.reach hreach n)
  have hS : ∀ n, ∀ x ∈ (r.state n).childThreads t, x ∈ hfin.toFinset := fun n x hx => hfin.mem_toFinset.mpr ⟨n, hx⟩
  obtain ⟨S, hSeq⟩ : ∃ S, hfin.toFinset = S := ⟨_, rfl⟩
  rw [hSeq] at hS ⊢
  have hstands : Stands t cpu .ready (.kill code) (r.state 0) := ⟨hstart.1.2, hstart.2, hstart.1.1⟩
  constructor
  · intro n x c k hpc hst hx hev hact
    have hstep := r.step n
    have hc := hcalm n
    rw [hev] at hstep hc
    have hwoken : (updateEvents k c (r.state n)).thread t = ((r.state n).thread t).woken :=
      pass_join (by rw [hpc]; rfl) hst (hc hact code x hpc hst) hx hact
    obtain ⟨s', hs'⟩ : ∃ s', r.state (n + 1) = s' := ⟨_, rfl⟩
    rw [hs'] at hstep ⊢
    cases hstep
    rw [hwoken]
    exact ⟨rfl, rfl⟩
  · -- it ends, since every round leaves one child less
    have hends : r.LeadsTo (Stands t cpu .ready (.kill code)) (fun s => (s.thread t).state = .finished) := by
      refine Behaviour.LeadsTo.of_measure (left S) (exit_round hP hfair hcalm hS fun x hx => ?_)
      obtain ⟨n, hn⟩ := hfin.mem_toFinset.mp (hSeq ▸ hx)
      obtain ⟨m, hnm, hm⟩ := hexit n x hn
      have hborn : x < (r.state n).next := (hP n).custody.born (.child t) x hn
      have hnext : ∀ {a b : Nat}, a ≤ b → (r.state a).next ≤ (r.state b).next := by
        intro a b hab
        induction hab with
        | refl => exact Nat.le_refl _
        | step _ ih => exact Nat.le_trans ih (next_step (r.step _))
      exact ⟨m, Nat.lt_of_lt_of_le hborn (hnext hnm), hm⟩
    have hex : ∃ n, ((r.state n).thread t).state = .finished := (hends 0 hstands).imp fun _ h => h.2
    classical
    refine ⟨Nat.find hex, Nat.find_spec hex, ?_⟩
    -- up to then the thread is in the loop, and every `JOIN` that ends makes one child less
    have hloop : ∀ n, n ≤ Nat.find hex → (n = Nat.find hex ∨ InLoop S t cpu code (r.state n)) ∧
        joins r t n + left S (r.state n) ≤ S.card := by
      intro n
      induction n with
      | zero =>
          refine fun _ => ⟨Or.inr (.kill hstands), ?_⟩
          show 0 + left S (r.state 0) ≤ S.card
          rw [Nat.zero_add]
          exact Finset.card_filter_le _ _
      | succ n ih =>
          intro hn
          obtain ⟨hin, hjoins⟩ := ih (Nat.le_of_succ_le hn)
          have hin := hin.resolve_left (Nat.ne_of_lt hn)
          obtain ⟨hnext, hless⟩ := loop_step (hP n) (r.step n) (hcalm n) (hS n) hin
          refine ⟨?_, ?_⟩
          · rcases hnext with hnext | hnext
            · exact Or.inr hnext
            · exact Or.inl (Nat.le_antisymm hn (Nat.find_min' hex hnext))
          · show joins r t n + (r.event n).joined t + left S (r.state (n + 1)) ≤ S.card
            omega
    exact Nat.le_trans (Nat.le_add_right _ _) (hloop _ (Nat.le_refl _)).2

end Runs

/-! ## 3. Two runs -/

section TwoRuns

/-- Thread 1 exits, its child 2 has ended, on CPU 0. -/
def parentAndChild (t1 t2 : ThreadInfo) (children active dropped : List Nat) : Sys where
  thread := fun u => if u = 1 then t1 else if u = 2 then t2 else ⟨initThread, 0, .ready, 0, false, false, 0, .running⟩
  next := 3
  childThreads := fun p => if p = 0 then [1] else if p = 1 then children else []
  activeList := fun c => if c = 0 then active else []
  globalList := [0, 1, 2]
  deleted := []
  dropped := dropped

theorem sys_ext {s s' : Sys} (ht : ∀ u, s.thread u = s'.thread u) (hn : s.next = s'.next)
    (hc : ∀ p, s.childThreads p = s'.childThreads p) (ha : ∀ c, s.activeList c = s'.activeList c)
    (hg : s.globalList = s'.globalList) (hd : s.deleted = s'.deleted) (hp : s.dropped = s'.dropped) : s = s' := by
  obtain ⟨thread, next, childThreads, activeList, globalList, deleted, dropped⟩ := s
  obtain ⟨thread', next', childThreads', activeList', globalList', deleted', dropped'⟩ := s'
  obtain rfl : thread = thread' := funext ht
  obtain rfl : childThreads = childThreads' := funext hc
  obtain rfl : activeList = activeList' := funext ha
  dsimp only at hn hg hd hp
  subst hn hg hd hp
  rfl

/-- Threads that are compared one by one, and the rest of them alike. -/
theorem three_threads {f g : Nat → ThreadInfo} (h0 : f 0 = g 0) (h1 : f 1 = g 1) (h2 : f 2 = g 2)
    (h : ∀ u, f (u + 3) = g (u + 3)) : ∀ u, f u = g u
  | 0 => h0
  | 1 => h1
  | 2 => h2
  | u + 3 => h u

/-- The thread in its loop, with an abort pending. -/
def hanging (state : ThreadState) (pc : Pc) : ThreadInfo := ⟨1, 0, state, ErrorInterrupted, false, true, 0, pc⟩

/-- The child. -/
def ended (abort : Bool) : ThreadInfo := ⟨2, 0, .exited, 0, false, abort, 0, .gone⟩

def hangState : Nat → Sys
  | 0 => parentAndChild (hanging .ready (.kill 1)) (ended true) [2] [0, 1] []
  | 1 => parentAndChild (hanging .ready (.killTaken 1 2)) (ended true) [] [0, 1] []
  | 2 => parentAndChild (hanging (.join 2) (.killWait 1 2)) (ended true) [] [0, 1] []
  | _ => parentAndChild (hanging .ready (.killWait 1 2)) (ended true) [] [0, 1] []

def hangEvent : Nat → Event
  | 0 => .killTake 1
  | 1 => .killBlock 1
  | 2 => .update 0 noTick
  | _ => .killBack 1

theorem hang_take : reapStep (hangState 0) (hangEvent 0) (hangState 1) := by
  have h := reapStep.killTake (hangState 0) 1 0 2 1 [] ⟨by decide, rfl⟩ rfl rfl
  have heq : ((hangState 0).setChildren 1 []).goto 1 (.killTaken 1 2) = hangState 1 :=
    sys_ext (three_threads rfl rfl rfl fun _ => rfl) rfl
      (fun p => match p with | 0 => rfl | 1 => rfl | _ + 2 => rfl) (fun _ => rfl) rfl rfl rfl
  exact heq ▸ h

theorem hang_block : reapStep (hangState 1) (hangEvent 1) (hangState 2) := by
  have h := reapStep.killBlock (hangState 1) 1 0 2 1 ⟨by decide, rfl⟩ rfl
  obtain ⟨s', hs'⟩ : ∃ s', s' = ((hangState 1).set 1
      { (hangState 1).thread 1 with state := .join 2, pc := .killWait 1 2 }).set 2
      { ((hangState 1).set 1 { (hangState 1).thread 1 with state := .join 2, pc := .killWait 1 2 }).thread 2 with
        abortPending := true } := ⟨_, rfl⟩
  have heq : s' = hangState 2 := by
    rw [hs']
    exact sys_ext (three_threads rfl rfl rfl fun _ => rfl) rfl (fun _ => rfl)
      (fun _ => rfl) rfl rfl rfl
  exact heq ▸ hs' ▸ h

/-- The pass asks for the abort first. -/
theorem hang_pass : reapStep (hangState 2) (hangEvent 2) (hangState 3) := by
  have h := reapStep.update (hangState 2) 0 noTick
  have heq : updateEvents noTick 0 (hangState 2) = hangState 3 :=
    sys_ext (three_threads rfl rfl rfl fun _ => rfl) rfl (fun _ => rfl) (fun _ => rfl)
      rfl rfl rfl
  exact heq ▸ h

theorem hang_back : reapStep (hangState 3) (hangEvent 3) (hangState 0) := by
  have h := reapStep.killBack (hangState 3) 1 0 2 1 ⟨by decide, rfl⟩ rfl (by decide)
  have heq : ((hangState 3).setChildren 1 ((hangState 3).childThreads 1 ++ [2])).goto 1 (.kill 1) = hangState 0 :=
    sys_ext (three_threads rfl rfl rfl fun _ => rfl) rfl
      (fun p => match p with | 0 => rfl | 1 => rfl | _ + 2 => rfl) (fun _ => rfl) rfl rfl rfl
  exact heq ▸ h

/-- The four steps, again and again. -/
def hang : Behaviour reapStep where
  state n := hangState (n % 4)
  event n := hangEvent (n % 4)
  step n := by
    have h : n % 4 = 0 ∧ (n + 1) % 4 = 1 ∨ n % 4 = 1 ∧ (n + 1) % 4 = 2 ∨ n % 4 = 2 ∧ (n + 1) % 4 = 3 ∨
        n % 4 = 3 ∧ (n + 1) % 4 = 0 := by omega
    rcases h with ⟨h, h'⟩ | ⟨h, h'⟩ | ⟨h, h'⟩ | ⟨h, h'⟩ <;> rw [h, h']
    · exact hang_take
    · exact hang_block
    · exact hang_pass
    · exact hang_back

/-- What holds of the four states. -/
theorem hang_all {P : Sys → Prop} (h : ∀ k, P (hangState k)) (n : Nat) : P (hang.state n) := h (n % 4)

/-- A parent with a child that has ended, before it exits. -/
theorem parent_reach : ∃ s, Reach reapStep reapInit s ∧
    s = parentAndChild ⟨1, 0, .ready, 0, false, false, 0, .running⟩ (ended false) [2] [0, 1] [] := by
  have h : Reach reapStep reapInit oneThread := .start _ oneThread_init
  have h := h.next _ _ _ (.clone _ 0 0 false ⟨by decide, rfl⟩ rfl)
  have h := h.next _ _ _ (.cloneActive _ 0 0 1 ⟨by decide, rfl⟩ rfl)
  have h := h.next _ _ _ (.cloneGlobal _ 0 0 1 ⟨by decide, rfl⟩ rfl)
  have h := h.next _ _ _ (.clone _ 1 0 false ⟨by decide, rfl⟩ rfl)
  have h := h.next _ _ _ (.cloneActive _ 1 0 2 ⟨by decide, rfl⟩ rfl)
  have h := h.next _ _ _ (.cloneGlobal _ 1 0 2 ⟨by decide, rfl⟩ rfl)
  have h := h.next _ _ _ (.exit _ 2 0 0 ⟨by decide, rfl⟩ rfl)
  have h := h.next _ _ _ (.killEmpty _ 2 0 0 ⟨by decide, rfl⟩ rfl rfl)
  have h := h.next _ _ _ (.finish _ 2 0 0 ⟨by decide, rfl⟩ rfl)
  have h := h.next _ _ _ (.update _ 0 noTick)
  refine ⟨_, h, sys_ext (three_threads rfl rfl rfl fun _ => rfl) rfl ?_ ?_ rfl rfl rfl⟩
  · exact fun p => match p with | 0 => rfl | 1 => rfl | 2 => rfl | _ + 3 => rfl
  · exact fun c => match c with | 0 => rfl | _ + 1 => rfl

/-- An abort is made, the parent exits, and goes round its loop once. -/
theorem hang_reach : Reach reapStep reapInit (hang.state 0) := by
  obtain ⟨s, h, rfl⟩ := parent_reach
  have h := h.next _ _ _ (.request _ 0 1 true (by decide))
  have h := h.next _ _ _ (.exit _ 1 0 1 ⟨by decide, rfl⟩ rfl)
  have h := h.next _ _ _ (.killTake _ 1 0 2 1 [] ⟨by decide, rfl⟩ rfl rfl)
  have h := h.next _ _ _ (.killBlock _ 1 0 2 1 ⟨by decide, rfl⟩ rfl)
  have h := h.next _ _ _ (.update _ 0 noTick)
  have h := h.next _ _ _ (.killBack _ 1 0 2 1 ⟨by decide, rfl⟩ rfl (by decide))
  obtain ⟨s', hs'⟩ : ∃ s', s' = hang.state 0 := ⟨_, rfl⟩
  rw [← hs']
  refine (?_ : _ = s') ▸ h
  rw [hs']
  exact sys_ext (three_threads rfl rfl rfl fun _ => rfl) rfl
    (fun p => match p with | 0 => rfl | 1 => rfl | _ + 2 => rfl) (fun _ => rfl) rfl rfl rfl

theorem hang_fair : Fair hang 1 := by
  constructor
  · intro n cpu hact
    have hcpu : cpu = 0 := by
      by_contra hne
      have hempty : (hang.state n).activeList cpu = [] := by
        refine hang_all (P := fun s => s.activeList cpu = []) (fun k => ?_) n
        match k with
        | 0 => exact if_neg hne
        | 1 => exact if_neg hne
        | 2 => exact if_neg hne
        | _ + 3 => exact if_neg hne
      rw [hempty] at hact
      cases hact
    subst hcpu
    refine ⟨4 * n + 2, by omega, noTick, ?_⟩
    show hangEvent ((4 * n + 2) % 4) = _
    have hmod : (4 * n + 2) % 4 = 2 := by omega
    rw [hmod]
    rfl
  · intro n cpu _
    refine ⟨4 * n, by omega, ?_⟩
    show (hangEvent ((4 * n) % 4)).thread = _
    have hmod : 4 * n % 4 = 0 := by omega
    rw [hmod]
    rfl

/-- **With an abort pending** the child has ended, the thread goes round its loop, and never finishes. -/
theorem exit_unfinished : ∃ (r : Behaviour reapStep) (t cpu : Nat) (code : Int), Reach reapStep reapInit (r.state 0) ∧
    ((r.state 0).Runs t cpu ∧ ((r.state 0).thread t).pc = .kill code) ∧ (childrenOf r t).Finite ∧
    (∀ n, ∀ x ∈ (r.state n).childThreads t, ∃ m, n ≤ m ∧ ((r.state m).thread x).state = .exited) ∧ Fair r t ∧
    ∀ n, ((r.state n).thread t).state ≠ .finished := by
  have hchild : ∀ n, ∀ x ∈ (hang.state n).childThreads 1, x = 2 := by
    refine hang_all (P := fun s => ∀ x ∈ s.childThreads 1, x = 2) fun k x hx => ?_
    match k with
    | 0 => exact List.mem_singleton.mp hx
    | 1 => cases hx
    | 2 => cases hx
    | _ + 3 => cases hx
  have hended : ∀ n, ((hang.state n).thread 2).state = .exited := by
    refine hang_all (P := fun s => (s.thread 2).state = .exited) fun k => ?_
    match k with
    | 0 => rfl
    | 1 => rfl
    | 2 => rfl
    | _ + 3 => rfl
  refine ⟨hang, 1, 0, 1, hang_reach, ⟨⟨by decide, rfl⟩, rfl⟩, (Set.finite_singleton 2).subset ?_, ?_, hang_fair, ?_⟩
  · intro x hx
    obtain ⟨n, hn⟩ := hx
    exact hchild n x hn
  · intro n x hx
    obtain rfl := hchild n x hx
    exact ⟨n, Nat.le_refl n, hended n⟩
  · refine hang_all (P := fun s => (s.thread 1).state ≠ .finished) fun k => ?_
    match k with
    | 0 => exact fun h => by cases h
    | 1 => exact fun h => by cases h
    | 2 => exact fun h => by cases h
    | _ + 3 => exact fun h => by cases h

/-- The thread in its loop, with nothing pending. -/
def leaving (state : ThreadState) (pc : Pc) : ThreadInfo := ⟨1, 0, state, OK, false, false, 0, pc⟩

def doneState : Nat → Sys
  | 0 => parentAndChild (leaving .ready (.kill 7)) (ended false) [2] [0, 1] []
  | 1 => parentAndChild (leaving .ready (.killTaken 7 2)) (ended false) [] [0, 1] []
  | 2 => parentAndChild (leaving (.join 2) (.killWait 7 2)) (ended true) [] [0, 1] []
  | 3 => parentAndChild (leaving .ready (.killWait 7 2)) (ended true) [] [0, 1] []
  | 4 => parentAndChild (leaving .ready (.kill 7)) (ended true) [] [0, 1] [2]
  | 5 => parentAndChild (leaving .ready (.exiting 7)) (ended true) [] [0, 1] [2]
  | 6 => parentAndChild { leaving .finished .gone with exitCode := 7 } (ended true) [] [0, 1] [2]
  | _ => parentAndChild { leaving .exited .gone with exitCode := 7 } (ended true) [] [0] [2]

def doneEvent : Nat → Event
  | 0 => .killTake 1
  | 1 => .killBlock 1
  | 2 => .update 0 noTick
  | 3 => .killDone 1
  | 4 => .killEmpty 1
  | 5 => .finish 1
  | _ => .update 0 noTick

theorem done_step (n : Nat) : reapStep (doneState n) (doneEvent n) (doneState (n + 1)) := by
  -- the state behind a step, written out
  have hto : ∀ {s' : Sys}, reapStep (doneState n) (doneEvent n) s' → (∀ u, s'.thread u = (doneState (n + 1)).thread u) →
      s'.next = 3 → (∀ p, s'.childThreads p = (doneState (n + 1)).childThreads p) →
      (∀ c, s'.activeList c = (doneState (n + 1)).activeList c) → s'.globalList = [0, 1, 2] → s'.deleted = [] →
      s'.dropped = (doneState (n + 1)).dropped → reapStep (doneState n) (doneEvent n) (doneState (n + 1)) := by
    intro s' h ht hn hc ha hg hd hp
    have hnext : ∀ k, (doneState k).next = 3 ∧ (doneState k).globalList = [0, 1, 2] ∧
        (doneState k).deleted = [] := fun k =>
      match k with
      | 0 | 1 | 2 | 3 | 4 | 5 | 6 | _ + 7 => ⟨rfl, rfl, rfl⟩
    obtain ⟨h1, h2, h3⟩ := hnext (n + 1)
    exact sys_ext ht (hn.trans h1.symm) hc ha (hg.trans h2.symm) (hd.trans h3.symm) hp ▸ h
  match n with
  | 0 =>
      exact hto (.killTake _ 1 0 2 7 [] ⟨by decide, rfl⟩ rfl rfl)
        (three_threads rfl rfl rfl fun _ => rfl) rfl
        (fun p => match p with | 0 => rfl | 1 => rfl | _ + 2 => rfl) (fun _ => rfl) rfl rfl rfl
  | 1 =>
      exact hto (.killBlock _ 1 0 2 7 ⟨by decide, rfl⟩ rfl)
        (three_threads rfl rfl rfl fun _ => rfl) rfl (fun _ => rfl) (fun _ => rfl) rfl rfl rfl
  | 2 =>
      exact hto (.update _ 0 noTick)
        (three_threads rfl rfl rfl fun _ => rfl) rfl (fun _ => rfl) (fun _ => rfl) rfl rfl rfl
  | 3 =>
      exact hto (.killDone _ 1 0 2 7 ⟨by decide, rfl⟩ rfl rfl)
        (three_threads rfl rfl rfl fun _ => rfl) rfl (fun _ => rfl) (fun _ => rfl) rfl rfl rfl
  | 4 =>
      exact hto (.killEmpty _ 1 0 7 ⟨by decide, rfl⟩ rfl rfl)
        (three_threads rfl rfl rfl fun _ => rfl) rfl (fun _ => rfl) (fun _ => rfl) rfl rfl rfl
  | 5 =>
      exact hto (.finish _ 1 0 7 ⟨by decide, rfl⟩ rfl)
        (three_threads rfl rfl rfl fun _ => rfl) rfl (fun _ => rfl) (fun _ => rfl) rfl rfl rfl
  | 6 =>
      exact hto (.update _ 0 noTick)
        (three_threads rfl rfl rfl fun _ => rfl) rfl (fun _ => rfl)
        (fun c => match c with | 0 => rfl | _ + 1 => rfl) rfl rfl rfl
  | _ + 7 =>
      exact hto (.update _ 0 noTick)
        (three_threads rfl rfl rfl fun _ => rfl) rfl (fun _ => rfl) (fun _ => rfl) rfl rfl rfl

def done : Behaviour reapStep := ⟨doneState, doneEvent, done_step⟩

/-- With nothing pending it finishes. -/
theorem exit_finishes_once : ∃ n, ((done.state n).thread 1).state = .finished := by
  have hreach : Reach reapStep reapInit (done.state 0) := by
    obtain ⟨s, h, rfl⟩ := parent_reach
    have h := h.next _ _ _ (.exit _ 1 0 7 ⟨by decide, rfl⟩ rfl)
    obtain ⟨s', hs'⟩ : ∃ s', s' = done.state 0 := ⟨_, rfl⟩
    rw [← hs']
    refine (?_ : _ = s') ▸ h
    rw [hs']
    exact sys_ext (three_threads rfl rfl rfl fun _ => rfl) rfl (fun _ => rfl) (fun _ => rfl)
      rfl rfl rfl
  have hchild : ∀ n, ∀ x ∈ (done.state n).childThreads 1, x = 2 := fun n x hx =>
    match n with
    | 0 => List.mem_singleton.mp hx
    | 1 | 2 | 3 | 4 | 5 | 6 | _ + 7 => by cases hx
  have hended : ∀ n, ((done.state n).thread 2).state = .exited := fun n =>
    match n with
    | 0 | 1 | 2 | 3 | 4 | 5 | 6 | _ + 7 => rfl
  have hcpu : ∀ n cpu, 1 ∈ (done.state n).activeList cpu → cpu = 0 := by
    intro n cpu hm
    by_contra hne
    have hempty : (done.state n).activeList cpu = [] :=
      match n with
      | 0 | 1 | 2 | 3 | 4 | 5 | 6 | _ + 7 => if_neg hne
    rw [hempty] at hm
    cases hm
  have hfair : Fair done 1 := by
    refine ⟨fun n cpu hm => ⟨n + 7, Nat.le_add_right n 7, noTick, ?_⟩, fun n cpu hr => ?_⟩
    · rw [hcpu n cpu hm]
      rfl
    · match n with
      | 0 | 1 | 2 | 3 | 4 | 5 => exact ⟨5, by decide, rfl⟩
      | 6 => cases hr.2
      | _ + 7 => cases hr.2
  have hcalm : ∀ n, ((done.state n).thread 1).calm := fun n =>
    match n with
    | 0 | 1 | 2 | 3 | 4 | 5 | 6 | _ + 7 => ⟨rfl, rfl⟩
  have hpass : ∀ n, Calm 1 (done.state n) (done.event n) := fun n =>
    match n with
    | 0 | 1 | 3 | 4 | 5 => trivial
    | 2 | 6 | _ + 7 => fun _ _ _ _ _ => hcalm _
  have hfin : (childrenOf done 1).Finite := (Set.finite_singleton 2).subset fun x ⟨n, hn⟩ => hchild n x hn
  have hexit : ∀ n, ∀ x ∈ (done.state n).childThreads 1, ∃ m, n ≤ m ∧ ((done.state m).thread x).state = .exited := by
    intro n x hx
    obtain rfl := hchild n x hx
    exact ⟨n, Nat.le_refl n, hended n⟩
  exact (exit_finishes done 1 0 7 hreach ⟨⟨by decide, rfl⟩, rfl⟩ hfin hexit hfair hpass).2.imp fun _ h => h.1

end TwoRuns

end Reaping

end SimpleOS2
