/-
  File:      SimpleOS2/Scheduler/Reclamation.lean
  Subject:   THE DELETION OF THREADS, over whole runs.

  * `Inv` -- the invariants of Custody.lean together; `inv_step`, `inv_reach`;
  * `joinsPublished` -- no join gets to the global list before `CloneThread` does;
  * `reclamation_safe`, `join_before_publication` -- the law, and a run without the condition.
-/
import SimpleOS2.Scheduler.Custody

namespace SimpleOS2

open Lib

namespace Reaping

/-! ## 1. The invariant -/

/-- Threads that are not yet made. -/
def Unborn (s : Sys) : Prop := ∀ t, s.next ≤ t → (s.thread t).state = .ready ∧ (s.thread t).pc = .running

structure Inv (s : Sys) : Prop where
  custody : Custody s
  lists : Lists s
  states : States s
  unborn : Unborn s

/-- A program counter that is of no interest to the lists, nor to what the calls know. -/
structure Plain (pc : Pc) : Prop where
  cloning : pc.cloning = none
  waits : pc.waits = none
  reap : ∀ x d, pc ≠ .reap x d
  delete : ∀ x c, pc ≠ .delete x c

def Pc.plain : Pc → Bool
  | .running | .kernelChild _ | .detach _ | .join _ | .kill _ | .killTaken _ _ | .exiting _ | .gone => true
  | _ => false

theorem Plain.of {pc : Pc} (h : pc.plain = true) : Plain pc := by
  refine ⟨?_, ?_, fun x d e => ?_, fun x c e => ?_⟩
  · cases pc <;> first | rfl | cases h
  · cases pc <;> first | rfl | cases h
  · subst e
    cases h
  · subst e
    cases h

section Inv

variable {s s' : Sys} {t x p cpu : Nat} {pc : Pc} {ti : ThreadInfo}

theorem Lists.born (hL : Lists s) (hr : s.Runs t cpu) : t < s.next := hL.activeBorn cpu t hr.1

theorem Unborn.of (hU : Unborn s) (hn : s'.next = s.next) (ht : ∀ u, s.next ≤ u → s'.thread u = s.thread u) :
    Unborn s' := by
  intro u hu
  rw [hn] at hu
  rw [ht u hu]
  exact hU u hu

theorem unborn_goto (hU : Unborn s) (hn : s'.next = s.next) (hlt : t < s.next)
    (ht : s'.thread = (s.set t ti).thread) : Unborn s' := by
  refine hU.of hn fun u hu => ?_
  rw [ht, set_thread, if_neg (by omega)]

/-- A step that leaves the lists of the CPUs and the global list alone, to a plain place. -/
theorem Inv.move (hI : Inv s) (hr : s.Runs t cpu) (hpc : Plain pc) (hC : Custody s')
    (ht : s'.thread = (s.goto t pc).thread) (ha : s'.activeList = s.activeList)
    (hg : s'.globalList = s.globalList) (hn : s'.next = s.next) (hd : s'.deleted = s.deleted) : Inv s' := by
  refine ⟨hC, ?_, ?_, unborn_goto hI.unborn hn (hI.lists.born hr) ht⟩
  · exact hI.lists.goto ha hg hn hd (goto_pc (fun pc => pc.cloning = none ∧ ∀ y c, pc ≠ .delete y c) ht
      ⟨hpc.cloning, hpc.delete⟩)
  · refine hI.states.goto ht hr.2 (fun c y h => Or.inl (ha ▸ h)) (fun x h => ?_) hpc.waits
      (fun x c h => absurd h (hpc.delete x c)) fun x d h => Or.inl (code_of h hd ?_)
    · rw [h] at hpc
      cases hpc.cloning
    · exact goto_pc (fun pc => (∀ x d, pc ≠ .reap x d) ∧ ∀ x d, pc ≠ .delete x (some d)) ht
        ⟨hpc.reap, fun x d => hpc.delete x (some d)⟩

theorem Inv.plain (hI : Inv s) (hr : s.Runs t cpu) (hpc : Plain pc)
    (hholds : ∀ x, pc.holds = some x → (s.thread t).pc.holds = some x) : Inv (s.goto t pc) := by
  refine hI.move hr hpc (hI.custody.keep rfl rfl rfl fun u x h => ?_) rfl rfl rfl rfl rfl
  rw [goto_thread] at h
  split_ifs at h with hu
  · exact hu ▸ hholds x h
  · exact h

/-- The same, with the lists of children. -/
theorem Inv.children (hI : Inv s) (hr : s.Runs t cpu) {l : List Nat} (hpc : Plain pc)
    (hC : Custody ((s.setChildren p l).goto t pc)) : Inv ((s.setChildren p l).goto t pc) :=
  hI.move hr hpc hC rfl rfl rfl rfl rfl

/-- A thread changes in itself; it takes nothing into custody. -/
theorem Inv.set (hI : Inv s) (hlt : t < s.next)
    (hholds : ∀ x, ti.pc.holds = some x → (s.thread t).pc.holds = some x)
    (hpc : ti.pc = (s.thread t).pc ∨ ti.pc.cloning = none ∧ (∀ x d, ti.pc ≠ .reap x d) ∧ ∀ x c, ti.pc ≠ .delete x c)
    (hexit : (s.thread t).state = .exited → ti.state = .exited ∧ ti.exitCode = (s.thread t).exitCode)
    (hoff : ti.state = .exited → ∀ c, t ∉ s.activeList c)
    (htarget : ∀ x, ti.state = .join x → ti.pc.waits = some x)
    (hblocked : ti.state = .queueLock ∨ (∃ arg, ti.state = .sleep arg) → ti.pc = .running)
    (hfresh : ∀ u, (s.thread u).pc = .cloneActive t → ti.state = .ready)
    (hwaited : ∀ x, ti.pc.waits = some x → ti.state = .ready → ti.rax = OK → (s.thread x).state = .exited) :
    Inv (s.set t ti) := by
  have hpcs : ∀ u, ((s.set t ti).thread u).pc = (s.thread u).pc ∨ ((s.set t ti).thread u).pc.cloning = none ∧
      (∀ x d, ((s.set t ti).thread u).pc ≠ .reap x d) ∧ ∀ x c, ((s.set t ti).thread u).pc ≠ .delete x c := by
    intro u
    rw [set_thread]
    split_ifs with hu
    · exact hu ▸ hpc
    · exact Or.inl rfl
  refine ⟨hI.custody.keep rfl rfl rfl fun u x h => ?_, ?_, ?_, unborn_goto hI.unborn rfl hlt rfl⟩
  · rw [set_thread] at h
    split_ifs at h with hu
    · exact hu ▸ hholds x h
    · exact h
  · exact hI.lists.goto rfl rfl rfl rfl fun u => (hpcs u).imp_right fun h => ⟨h.1, h.2.2⟩
  · refine hI.states.set rfl (fun _ _ h => Or.inl h) hexit hoff htarget hblocked hfresh (fun x h => ?_) hwaited
      (fun x c h => ?_) fun x d h => Or.inl (code_of h rfl fun u => ?_)
    · rcases hpc with he | ⟨he, -⟩
      · exact Or.inl (he ▸ h)
      · rw [h] at he
        cases he
    · rcases hpc with he | ⟨-, -, he⟩
      · exact hI.states.delete t x c (he ▸ h)
      · exact absurd h (he x c)
    · exact (hpcs u).imp_right fun h => ⟨h.2.1, fun x d => h.2.2 x (some d)⟩

/-- The requests on a thread say nothing about where it is. -/
theorem Inv.flags (hI : Inv s) (hlt : t < s.next) (a b : Bool) :
    Inv (s.set t { s.thread t with killPending := a, abortPending := b }) := by
  have hS := hI.states
  exact hI.set hlt (fun _ h => h) (Or.inl rfl) (fun h => ⟨h, rfl⟩) (hS.off t) (hS.target t) (hS.blocked t)
    (fun u h => hS.fresh u t h) (hS.waited t)

theorem Inv.dropped (hI : Inv s) (l : List Nat) : Inv { s with dropped := l } :=
  ⟨hI.custody.keep rfl rfl rfl fun _ _ h => h, hI.lists.goto rfl rfl rfl rfl fun _ => Or.inl rfl,
    ⟨hI.states.off, hI.states.target, hI.states.blocked, hI.states.fresh, hI.states.waited, hI.states.delete,
      hI.states.code⟩, hI.unborn⟩

/-- A thread that may run can be told from one that is being made. -/
theorem Inv.not_fresh (hI : Inv s) {u : Nat} (hm : t ∈ s.activeList cpu) : (s.thread u).pc ≠ .cloneActive t :=
  fun h => hI.lists.fresh u t h cpu hm

/-- `new ThreadInfo()`, for the states. -/
theorem States.newThread (hI : Inv s) {m uid : Nat} : States (s.newThread m uid) := by
  obtain ⟨hready, hrun⟩ := hI.unborn s.next (Nat.le_refl _)
  refine hI.states.set (t := s.next) rfl
    (fun _ _ h => Or.inl h) (fun h => ?_) (fun h => by cases h) (fun x h => by cases h) (fun h => ?_)
    (fun _ _ => rfl) (fun x h => by cases h) (fun x h => by cases h) (fun x c h => by cases h) fun x d h => Or.inl ?_
  · rw [hready] at h
    cases h
  · rcases h with h | ⟨arg, h⟩ <;> cases h
  · refine code_of h rfl fun u => ?_
    rw [newThread_thread]
    split_ifs with hu
    · rw [hu, hrun]
      exact Or.inl rfl
    · exact Or.inl rfl

/-- `CloneThread` and `CreateKernelThread`, the part with `new`. -/
theorem Inv.newThread (hI : Inv s) (hr : s.Runs t cpu) {m uid : Nat} (hn : s'.next = s.next + 1)
    (hC : Custody s') (hL : Lists s') (ht : s'.thread = ((s.newThread m uid).goto t pc).thread)
    (hd : s'.deleted = s.deleted)
    (ha : ∀ c y, y ∈ s'.activeList c → y ∈ s.activeList c ∨ y = s.next)
    (hpc : pc = .cloneActive s.next ∨ pc = .kernelGlobal s.next) : Inv s' := by
  have hlt := hI.lists.born hr
  have hnew : ((s.newThread m uid).thread s.next).state = .ready := by
    rw [newThread_thread, if_pos rfl]
  have hS : States s' := by
    refine (States.newThread hI).goto ht ?_ (fun c y h => ?_) (fun x h => ?_) ?_ (fun x c h => ?_)
      fun x d h => Or.inl (code_of h ?_ ?_)
    · rw [newThread_thread, if_neg (by omega)]
      exact hr.2
    · rcases ha c y h with h | rfl
      · exact Or.inl h
      · right
        rw [hnew]
        simp
    · rcases hpc with rfl | rfl
      · cases h
        exact ⟨hnew, by omega⟩
      · cases h
    · rcases hpc with rfl | rfl <;> rfl
    · rcases hpc with rfl | rfl <;> cases h
    · exact hd
    · refine goto_pc (fun pc => (∀ x d, pc ≠ .reap x d) ∧ ∀ x d, pc ≠ .delete x (some d)) ht ?_
      rcases hpc with rfl | rfl <;> exact ⟨fun _ _ h => (by cases h), fun _ _ h => (by cases h)⟩
  refine ⟨hC, hL, hS, fun u hu => ?_⟩
  rw [hn] at hu
  rw [ht, goto_thread, if_neg (by omega), newThread_thread, if_neg (by omega)]
  exact hI.unborn u (by omega)

/-- A thread wakes up, or goes on sleeping. -/
theorem Inv.wakes (hI : Inv s) (hm : t ∈ s.activeList cpu) {state : ThreadState} {rax : Int}
    (hne : (s.thread t).state ≠ .exited)
    (hstate : state = .ready ∨ ∃ arg, state = .sleep arg ∧ (s.thread t).pc = .running)
    (hw : ∀ x, (s.thread t).pc.waits = some x → state = .ready → rax = OK → (s.thread x).state = .exited) :
    Inv (s.set t { s.thread t with state := state, rax := rax }) := by
  refine hI.set (hI.lists.activeBorn cpu t hm) (fun _ h => h) (Or.inl rfl) (fun h => absurd h hne) (fun h => ?_)
    (fun x h => ?_) (fun h => ?_) (fun u h => absurd h (hI.not_fresh hm)) hw
  · rcases hstate with rfl | ⟨arg, rfl, -⟩ <;> cases h
  · rcases hstate with rfl | ⟨arg, rfl, -⟩ <;> cases h
  · rcases hstate with rfl | ⟨arg, rfl, hp⟩
    · rcases h with h | ⟨arg, h⟩ <;> cases h
    · exact hp

/-- A READY thread begins what was asked of it. -/
theorem Inv.serves (hI : Inv s) (hm : t ∈ s.activeList cpu) (hpc : Plain pc) (hholds : pc.holds = none)
    (hst : (s.thread t).state = .ready) :
    Inv (s.set t { s.thread t with killPending := false, abortPending := false, pc := pc }) := by
  refine hI.set (hI.lists.activeBorn cpu t hm) (fun x h => ?_) (Or.inr ⟨hpc.cloning, hpc.reap, hpc.delete⟩)
    (fun h => ⟨h, rfl⟩) (hI.states.off t) (fun x h => ?_) (fun h => ?_) (fun u h => absurd h (hI.not_fresh hm))
    (fun x h => ?_)
  · rw [show pc.holds = _ from h] at hholds
    cases hholds
  · rw [show (s.thread t).state = _ from h] at hst
    cases hst
  · rcases h with h | ⟨arg, h⟩
    · rw [show (s.thread t).state = _ from h] at hst
      cases hst
    · rw [show (s.thread t).state = _ from h] at hst
      cases hst
  · cases (show pc.waits = some x from h).symm.trans hpc.waits

/-- A FINISHED thread leaves its list. -/
theorem Inv.retires (hI : Inv s) (hm : t ∈ s.activeList cpu) :
    Inv ((s.setActive cpu ((s.activeList cpu).erase t)).set t { s.thread t with state := .exited }) := by
  have hsub : ∀ c, ((s.setActive cpu ((s.activeList cpu).erase t)).activeList c).Sublist (s.activeList c) := by
    intro c
    show (Function.update s.activeList cpu _ c).Sublist _
    rw [Function.update_apply]
    split_ifs with hc
    · rw [hc]
      exact List.erase_sublist
    · exact List.Sublist.refl _
  have hpc : ∀ u, (((s.setActive cpu ((s.activeList cpu).erase t)).set t
      { s.thread t with state := .exited }).thread u).pc = (s.thread u).pc := by
    intro u
    rw [set_thread]
    split_ifs with hu
    · rw [hu]
    · rfl
  refine ⟨hI.custody.keep rfl rfl rfl fun u x h => by rwa [hpc] at h, ?_, ?_,
    unborn_goto hI.unborn rfl (hI.lists.activeBorn cpu t hm) (t := t) rfl⟩
  · refine hI.lists.of hsub (List.Sublist.refl _) rfl (fun u y h => by rwa [hpc] at h)
      (fun u y h => by rwa [hpc] at h) fun y h => Or.inl ?_
    rcases h with ⟨u, c, h⟩ | h
    · exact Or.inl ⟨u, c, by rwa [hpc] at h⟩
    · exact Or.inr h
  · refine hI.states.set (t := t) rfl (fun c y h => Or.inl ((hsub c).subset h))
      (fun h => ⟨rfl, rfl⟩) (fun _ c h => ?_) (fun x h => by cases h)
      (fun h => by rcases h with h | ⟨arg, h⟩ <;> cases h) (fun u h => absurd h (hI.not_fresh hm))
      (fun x h => Or.inl h) (fun x _ h => by cases h) (fun x c h => hI.states.delete t x c h)
      fun x d h => Or.inl (code_of h rfl fun u => Or.inl (hpc u))
    have hcpu := hI.lists.oneCpu c cpu t ((hsub c).subset h) hm
    subst hcpu
    have h' : t ∈ Function.update s.activeList c ((s.activeList c).erase t) c := h
    rw [Function.update_self] at h'
    exact (hI.lists.nodup c).not_mem_erase h'

/-- `UpdateEvents`, one thread. -/
theorem Inv.updateThread (hI : Inv s) (k : Tick) (hm : t ∈ s.activeList cpu) : Inv (updateThread k cpu s t) := by
  have hinter : ErrorInterrupted ≠ OK := by decide
  unfold Reaping.updateThread
  dsimp only
  split
  · exact hI
  · -- FINISHED
    exact hI.retires hm
  · -- READY
    rename_i hst
    split_ifs with hu hexits
    · exact hI.serves hm (show Plain (.kill 1) from Plain.of rfl) rfl hst
    · exact hI.serves hm (show Plain .running from Plain.of rfl) rfl hst
    · exact hI
  · exact hI
  · -- SLEEP
    rename_i arg hst
    have hp : (s.thread t).pc = .running := hI.states.blocked t (Or.inr ⟨arg, hst⟩)
    have hne : (s.thread t).state ≠ .exited := by
      rw [hst]
      simp
    have hnone : ∀ x, (s.thread t).pc.waits = some x → False := fun x h => by
      rw [hp] at h
      cases h
    split_ifs
    · exact hI.wakes hm hne (Or.inl rfl) fun x _ _ h => absurd h hinter
    · exact hI.wakes hm hne (Or.inl rfl) fun x h => (hnone x h).elim
    · exact hI.wakes hm hne (Or.inr ⟨_, rfl, hp⟩) fun x h => (hnone x h).elim
  · -- JOIN
    rename_i jt hst
    have hne : (s.thread t).state ≠ .exited := by
      rw [hst]
      simp
    split_ifs with h1 h2
    · exact hI.wakes hm hne (Or.inl rfl) fun x _ _ h => absurd h hinter
    · refine hI.wakes hm hne (Or.inl rfl) fun x h _ _ => ?_
      cases (hI.states.target t jt hst).symm.trans h
      exact h2
    · exact hI

/-- What a pass has not come to yet is still there. -/
theorem updateThread_mem (k : Tick) {y : Nat} (hy : y ∈ s.activeList cpu) (hne : y ≠ t) :
    y ∈ (updateThread k cpu s t).activeList cpu := by
  have herase : y ∈ Function.update s.activeList cpu ((s.activeList cpu).erase t) cpu := by
    rw [Function.update_self]
    exact (List.mem_erase_of_ne hne).mpr hy
  unfold updateThread
  dsimp only
  split
  · exact hy
  · exact herase
  · split_ifs <;> exact hy
  · exact hy
  · split_ifs <;> exact hy
  · split_ifs <;> exact hy

theorem Inv.updateEvents (hI : Inv s) (k : Tick) : Inv (updateEvents k cpu s) := by
  have hfold : ∀ (l : List Nat) (s : Sys), Inv s → (∀ y ∈ l, y ∈ s.activeList cpu) → l.Nodup →
      Inv (l.foldl (Reaping.updateThread k cpu) s) := by
    intro l
    induction l with
    | nil => exact fun s hI _ _ => hI
    | cons y l ih =>
        intro s hI hm hnd
        obtain ⟨hyl, hnd⟩ := List.nodup_cons.mp hnd
        refine ih _ (hI.updateThread k (hm y List.mem_cons_self)) (fun z hz => ?_) hnd
        exact updateThread_mem k (hm z (List.mem_cons_of_mem _ hz)) fun e => hyl (e ▸ hz)
  exact hfold _ s hI (fun _ h => h) (hI.lists.nodup cpu)

/-- A thread is in the list of its CPU. -/
theorem Inv.cloneActive (hI : Inv s) (hr : s.Runs t cpu) (hp : (s.thread t).pc = .cloneActive x) :
    Inv ((s.setActive cpu (s.activeList cpu ++ [x])).goto t (.cloneGlobal x)) := by
  have hready := hI.states.fresh t x hp
  refine ⟨hI.custody.keep rfl rfl rfl fun u y h => ?_, hI.lists.cloneActive hp, ?_,
    unborn_goto hI.unborn rfl (hI.lists.born hr) rfl⟩
  · rw [goto_thread] at h
    split_ifs at h
    · cases h
    · exact h
  · refine hI.states.goto rfl hr.2 (fun c y h => ?_) (fun y h => by cases h) rfl (fun y c h => by cases h)
      fun y d h => Or.inl (code_of h rfl ?_)
    · have h' : y ∈ Function.update s.activeList cpu (s.activeList cpu ++ [x]) c := h
      rw [mem_update_append] at h'
      refine h'.imp_right fun h' => ?_
      rw [h'.2, hready]
      simp
    · exact goto_pc (fun pc => (∀ x d, pc ≠ .reap x d) ∧ ∀ x d, pc ≠ .delete x (some d)) rfl
        ⟨fun _ _ h => (by cases h), fun _ _ h => (by cases h)⟩

/-- A thread is in the global list. -/
theorem Inv.publish (hI : Inv s) (hr : s.Runs t cpu) (hp : (s.thread t).pc.cloning = some x) (hpc : Plain pc)
    (hholds : ∀ x, pc.holds = some x → (s.thread t).pc.holds = some x) :
    Inv (Sys.goto { s with globalList := s.globalList ++ [x] } t pc) := by
  refine ⟨hI.custody.keep rfl rfl rfl fun u y h => ?_, hI.lists.publish hp hpc.cloning hpc.delete, ?_,
    unborn_goto hI.unborn rfl (hI.lists.born hr) rfl⟩
  · rw [goto_thread] at h
    split_ifs at h with hu
    · exact hu ▸ hholds y h
    · exact h
  · refine hI.states.goto rfl hr.2 (fun _ _ h => Or.inl h) (fun y h => ?_) hpc.waits
      (fun y c h => absurd h (hpc.delete y c)) fun y d h => Or.inl (code_of h rfl ?_)
    · have := hpc.cloning
      rw [h] at this
      cases this
    · exact goto_pc (fun pc => (∀ x d, pc ≠ .reap x d) ∧ ∀ x d, pc ≠ .delete x (some d)) rfl
        ⟨hpc.reap, fun x d => hpc.delete x (some d)⟩

/-- `ThreadBlock(ThreadState::JOIN, ...)`. -/
theorem Inv.wait (hI : Inv s) (hr : s.Runs t cpu) (hw : pc.waits = some x) (hh : pc.holds = some x)
    (hp : (s.thread t).pc.holds = some x) : Inv (s.set t { s.thread t with state := .join x, pc := pc }) := by
  have hnot : pc.cloning = none ∧ (∀ x d, pc ≠ .reap x d) ∧ ∀ x c, pc ≠ .delete x c := by
    refine ⟨?_, fun y d e => ?_, fun y c e => ?_⟩
    · cases pc <;> first | rfl | cases hw
    · subst e
      cases hw
    · subst e
      cases hw
  refine hI.set (hI.lists.born hr) (fun y h => ?_) (Or.inr hnot) (fun h => ?_) (fun h => by cases h) (fun y h => ?_)
    (fun h => by rcases h with h | ⟨arg, h⟩ <;> cases h) (fun u h => absurd h (hI.not_fresh hr.1))
    (fun y _ h => by cases h)
  · rw [hp, ← hh]
    exact h
  · rw [hr.2] at h
    cases h
  · cases h
    exact hw

/-- A join takes the thread out of the global list. -/
theorem Inv.reap (hI : Inv s) (hr : s.Runs t cpu) {code : Option Int} (hh : (s.thread t).pc.holds = some x)
    (hx : x ∈ s.globalList) (hexited : (s.thread x).state = .exited)
    (hcode : ∀ d, code = some d → s.Code x d) :
    Inv (Sys.goto { s with globalList := s.globalList.erase x } t (.delete x code)) := by
  refine ⟨hI.custody.keep rfl rfl rfl fun u y h => ?_, hI.lists.erase hx, ?_,
    unborn_goto hI.unborn rfl (hI.lists.born hr) rfl⟩
  · rw [goto_thread] at h
    split_ifs at h with hu
    · exact hu ▸ hh.trans h
    · exact h
  · refine hI.states.goto rfl hr.2 (fun _ _ h => Or.inl h) (fun y h => by cases h) rfl (fun y c h => ?_)
      fun y d h => Or.inl ?_
    · cases h
      exact hexited
    · rcases h with ⟨u, h⟩ | ⟨u, h⟩ | h
      · rw [goto_thread] at h
        split_ifs at h
        exact Or.inl ⟨u, h⟩
      · rw [goto_thread] at h
        split_ifs at h with hu
        · cases h
          exact hcode d rfl
        · exact Or.inr (Or.inl ⟨u, h⟩)
      · exact Or.inr (Or.inr h)

/-- `delete joinThread`. -/
theorem Inv.delete (hI : Inv s) (hr : s.Runs t cpu) {code : Option Int} (hp : (s.thread t).pc = .delete x code) :
    Inv (Sys.goto { s with deleted := s.deleted ++ [(x, code.getD (s.thread x).exitCode)] } t .running) := by
  have hgo : ∀ (l : List (Nat × Int)) u y, ((Sys.goto { s with deleted := l } t .running).thread u).pc = y →
      y = .running ∨ (s.thread u).pc = y := by
    intro l u y h
    rw [goto_thread] at h
    split_ifs at h
    · exact Or.inl h.symm
    · exact Or.inr h
  refine ⟨hI.custody.delete (by rw [hp]; rfl), ?_, ?_, unborn_goto hI.unborn rfl (hI.lists.born hr) rfl⟩
  · refine hI.lists.of (fun c => List.Sublist.refl _) (List.Sublist.refl _) rfl (fun u y h => ?_) (fun u y h => ?_)
      fun y h => Or.inl ?_
    · rcases hgo _ u _ rfl with he | he
      · rw [he] at h
        cases h
      · rwa [← he] at h
    · rcases hgo _ u _ h with he | he
      · cases he
      · exact he
    · rcases h with ⟨u, c, h⟩ | h
      · rcases hgo _ u _ h with he | he
        · cases he
        · exact Or.inl ⟨u, c, he⟩
      · have h' : y ∈ (s.deleted ++ [(x, code.getD (s.thread x).exitCode)]).map Prod.fst := h
        rw [List.map_append] at h'
        rcases List.mem_append.mp h' with h' | h'
        · exact Or.inr h'
        · cases List.mem_singleton.mp h'
          exact Or.inl ⟨t, code, hp⟩
  · refine hI.states.goto rfl hr.2 (fun _ _ h => Or.inl h) (fun y h => by cases h) rfl (fun y c h => by cases h)
      fun y d h => ?_
    rcases h with ⟨u, h⟩ | ⟨u, h⟩ | h
    · rcases hgo _ u _ h with he | he
      · cases he
      · exact Or.inl (Or.inl ⟨u, he⟩)
    · rcases hgo _ u _ h with he | he
      · cases he
      · exact Or.inl (Or.inr (Or.inl ⟨u, he⟩))
    · have h' : (y, d) ∈ s.deleted ++ [(x, code.getD (s.thread x).exitCode)] := h
      rcases List.mem_append.mp h' with h' | h'
      · exact Or.inl (Or.inr (Or.inr h'))
      · cases List.mem_singleton.mp h'
        cases code with
        | none => exact Or.inr ⟨hI.states.delete t x none hp, rfl⟩
        | some c => exact Or.inl (Or.inr (Or.inl ⟨t, hp⟩))

/-- A step with the lists of children, by which a call takes a thread out. -/
theorem Inv.tryJoin (hI : Inv s) (hr : s.Runs t cpu) (hx : x ∈ s.childThreads p)
    (he : (s.thread x).state = .exited) :
    Inv ((s.setChildren p ((s.childThreads p).erase x)).goto t (.reap x (s.thread x).exitCode)) := by
  refine ⟨hI.custody.take hx List.erase_sublist (hI.custody.nodup p).not_mem_erase rfl, ?_, ?_,
    unborn_goto hI.unborn rfl (hI.lists.born hr) rfl⟩
  · exact hI.lists.goto rfl rfl rfl rfl (goto_pc (fun pc => pc.cloning = none ∧ ∀ y c, pc ≠ .delete y c) rfl
      ⟨rfl, fun _ _ h => (by cases h)⟩)
  · refine hI.states.goto rfl hr.2 (fun _ _ h => Or.inl h) (fun y h => by cases h) rfl (fun y c h => by cases h)
      fun y d h => ?_
    rcases h with ⟨u, h⟩ | ⟨u, h⟩ | h
    · rw [goto_thread] at h
      split_ifs at h with hu
      · cases h
        exact Or.inr ⟨he, rfl⟩
      · exact Or.inl (Or.inl ⟨u, h⟩)
    · rw [goto_thread] at h
      split_ifs at h
      exact Or.inl (Or.inr (Or.inl ⟨u, h⟩))
    · exact Or.inl (Or.inr (Or.inr h))

end Inv

/-! ## 2. Runs -/

/-- No join gets to the global list before `CloneThread` has put the thread there. -/
def joinsPublished (s : Sys) : Event → Prop
  | .joinReap t => ∀ x, (s.thread t).pc = .joinWait x → x ∈ s.globalList
  | .tryReap t => ∀ x code, (s.thread t).pc = .reap x code → x ∈ s.globalList
  | _ => True

theorem inv_step (s : Sys) (e : Event) (s' : Sys) (hI : Inv s) (hs : Guarded reapStep joinsPublished s e s') :
    Inv s' := by
  obtain ⟨hs, hg⟩ := hs
  have hS := hI.states
  have hnone : ∀ {pc : Pc}, pc.holds = none → ∀ {t x : Nat}, pc.holds = some x → (s.thread t).pc.holds = some x :=
    fun h _ _ h' => by rw [h] at h'; cases h'
  cases hs with
  | clone t cpu subthread hr hp =>
      exact hI.newThread hr rfl hI.custody.clone (hI.lists.newThread cpu rfl rfl rfl (Or.inl ⟨rfl, rfl⟩) rfl) rfl rfl
        (fun _ _ h => Or.inl h) (Or.inl rfl)
  | cloneActive t cpu x hr hp => exact hI.cloneActive hr hp
  | cloneGlobal t cpu x hr hp =>
      exact hI.publish hr (by rw [hp]; rfl) (Plain.of rfl) fun _ => hnone rfl
  | kernelThread t cpu uid hr hp =>
      refine hI.newThread hr rfl hI.custody.kernelThread
        (hI.lists.newThread cpu rfl rfl rfl (Or.inr ⟨rfl, rfl⟩) rfl) rfl rfl (fun c y h => ?_) (Or.inr rfl)
      have h' : y ∈ Function.update s.activeList cpu (s.activeList cpu ++ [s.next]) c := h
      rw [mem_update_append] at h'
      exact h'.imp_right And.right
  | kernelGlobal t cpu x hr hp =>
      refine hI.publish hr (by rw [hp]; rfl) (Plain.of rfl) fun y h => ?_
      rw [hp]
      exact h
  | kernelChild t cpu x hr hp => exact hI.children hr (Plain.of rfl) (hI.custody.give (by rw [hp]; rfl) rfl)
  | detach t cpu x hr hp hx hm =>
      exact hI.children hr (Plain.of rfl)
        (hI.custody.take hx List.erase_sublist (hI.custody.nodup _).not_mem_erase rfl)
  | detachGive t cpu x hr hp => exact hI.children hr (Plain.of rfl) (hI.custody.give (by rw [hp]; rfl) rfl)
  | join t cpu x hr hp hx =>
      exact hI.children hr (Plain.of rfl)
        (hI.custody.take hx List.erase_sublist (hI.custody.nodup _).not_mem_erase rfl)
  | joinBlock t cpu x hr hp => exact hI.wait hr rfl rfl (by rw [hp]; rfl)
  | joinBack t cpu x hr hp he => exact hI.children hr (Plain.of rfl) (hI.custody.give (by rw [hp]; rfl) rfl)
  | joinReap t cpu x hr hp he =>
      exact hI.reap hr (by rw [hp]; rfl) (hg x hp) (hS.waited t x (by rw [hp]; rfl) hr.2 he) fun _ h => by cases h
  | tryJoin t cpu x hr hp hx he => exact hI.tryJoin hr hx he
  | tryReap t cpu x code hr hp =>
      have hc : s.Code x code := Or.inl ⟨t, hp⟩
      refine hI.reap hr (by rw [hp]; rfl) (hg x code hp) (hS.code x code hc).1 fun d h => ?_
      cases h
      exact hc
  | delete t cpu x code hr hp => exact hI.delete hr hp
  | exit t cpu code hr hp => exact hI.plain hr (Plain.of rfl) fun _ => hnone rfl
  | killTake t cpu x code l hr hp hl =>
      have hnd := hI.custody.nodup t
      rw [hl] at hnd
      refine hI.children hr (Plain.of rfl) (hI.custody.take (x := x) (p := t) ?_ ?_ ?_ rfl)
      · rw [hl]
        exact List.mem_append_right _ (List.mem_singleton_self x)
      · rw [hl]
        exact List.sublist_append_left _ _
      · exact fun h => (List.disjoint_of_nodup_append hnd) h (List.mem_singleton_self x)
  | killEmpty t cpu code hr hp hl => exact hI.plain hr (Plain.of rfl) fun _ => hnone rfl
  | killBlock t cpu x code hr hp =>
      have hI' : Inv (s.set t { s.thread t with state := .join x, pc := .killWait code x }) :=
        hI.wait hr rfl rfl (by rw [hp]; rfl)
      exact hI'.flags (hI.custody.born (.call t) x (show (s.thread t).pc.holds = some x by rw [hp]; rfl)) _ true
  | killBack t cpu x code hr hp he => exact hI.children hr (Plain.of rfl) (hI.custody.give (by rw [hp]; rfl) rfl)
  | killDone t cpu x code hr hp he => exact (hI.plain hr (Plain.of rfl) fun _ => hnone rfl).dropped _
  | finish t cpu code hr hp =>
      refine hI.set (hI.lists.born hr) (fun y h => by cases h)
        (Or.inr ⟨rfl, fun _ _ h => (by cases h), fun _ _ h => (by cases h)⟩) (fun h => ?_) (fun h => by cases h)
        (fun y h => by cases h) (fun h => by rcases h with h | ⟨arg, h⟩ <;> cases h)
        (fun u h => absurd h (hI.not_fresh hr.1)) (fun y h => by cases h)
      rw [hr.2] at h
      cases h
  | update cpu k => exact hI.updateEvents k
  | request t x abort hx => exact hI.flags (hI.lists.globalBorn x hx) _ _
  | serve t cpu kill abort hr hp => exact hI.flags (hI.lists.born hr) _ _
  | block t cpu state hr hp hstate =>
      refine hI.set (hI.lists.born hr) (fun y h => h) (Or.inl rfl) (fun h => ?_) (fun h => ?_) (fun y h => ?_)
        (fun _ => hp) (fun u h => absurd h (hI.not_fresh hr.1)) fun y h => ?_
      · rw [hr.2] at h
        cases h
      · rcases hstate with rfl | ⟨arg, rfl⟩ <;> cases h
      · rcases hstate with rfl | ⟨arg, rfl⟩ <;> cases h
      · have h' : (s.thread t).pc.waits = some y := h
        rw [hp] at h'
        cases h'
  | unlock x hx =>
      have hp := hS.blocked x (Or.inl hx)
      have hlt : x < s.next := by
        by_contra hlt
        have := (hI.unborn x (Nat.le_of_not_lt hlt)).1
        rw [hx] at this
        cases this
      refine hI.set hlt (fun y h => h) (Or.inl rfl) (fun h => ?_) (fun h => by cases h) (fun y h => by cases h)
        (fun h => by rcases h with h | ⟨arg, h⟩ <;> cases h) (fun _ _ => rfl) fun y h => ?_
      · rw [hx] at h
        cases h
      · have h' : (s.thread x).pc.waits = some y := h
        rw [hp] at h'
        cases h'

theorem inv_init (s : Sys) (h : reapInit s) : Inv s := by
  obtain ⟨-, hn, hth, hch, ⟨cpu, ha⟩, hg, hd, -⟩ := h
  have hpc : ∀ t, (s.thread t).pc = .running := fun t => (hth t).1
  have hstate : ∀ t, (s.thread t).state = .ready := fun t => (hth t).2
  have hAt : ∀ a x, ¬ s.At a x := by
    intro a x h
    cases a with
    | child p =>
        have h' : x ∈ s.childThreads p := h
        rw [hch] at h'
        cases h'
    | call t =>
        have h' : (s.thread t).pc.holds = some x := h
        rw [hpc] at h'
        cases h'
    | gone =>
        have h' : x ∈ s.deleted.map Prod.fst := h
        rw [hd] at h'
        cases h'
  have hmem : ∀ c x, x ∈ s.activeList c → c = cpu ∧ x = initThread := by
    intro c x h
    rw [ha] at h
    dsimp only at h
    split_ifs at h with hc
    · exact ⟨hc, List.mem_singleton.mp h⟩
    · cases h
  have hcl : ∀ t x, (s.thread t).pc.cloning ≠ some x := fun t x h => by
    rw [hpc] at h
    cases h
  refine ⟨⟨fun a _ x h => absurd h (hAt a x), fun p => ?_, ?_, fun a x h => absurd h (hAt a x)⟩,
    ⟨fun c => ?_, fun c c' x h h' => ?_, fun c x h => ?_, ?_, fun x h => ?_, fun t x h => absurd h (hcl t x),
      fun t _ x h => absurd h (hcl t x), fun t x h => ?_, fun x h => ?_⟩,
    ⟨fun x h => ?_, fun t x h => ?_, fun t _ => hpc t, fun t x h => ?_, fun t x h => ?_, fun t x c h => ?_,
      fun x d h => ?_⟩, fun t _ => ⟨hstate t, hpc t⟩⟩
  · rw [hch]
    exact List.nodup_nil
  · rw [hd]
    exact List.nodup_nil
  · rw [ha]
    dsimp only
    split_ifs
    · exact List.nodup_singleton _
    · exact List.nodup_nil
  · rw [(hmem c x h).1, (hmem c' x h').1]
  · rw [(hmem c x h).2, hn]
    exact Nat.one_pos
  · rw [hg]
    exact List.nodup_singleton _
  · rw [hg] at h
    rw [List.mem_singleton.mp h, hn]
    exact Nat.one_pos
  · rw [hpc] at h
    cases h
  · rcases h with ⟨t, c, h⟩ | h
    · rw [hpc] at h
      cases h
    · exact absurd h (hAt .gone x)
  · rw [hstate] at h
    cases h
  · rw [hstate] at h
    cases h
  · rw [hpc] at h
    cases h
  · rw [hpc] at h
    cases h
  · rw [hpc] at h
    cases h
  · rcases h with ⟨t, h⟩ | ⟨t, h⟩ | h
    · rw [hpc] at h
      cases h
    · rw [hpc] at h
      cases h
    · rw [hd] at h
      cases h

theorem inv_reach {s : Sys} (h : Reach (Guarded reapStep joinsPublished) reapInit s) : Inv s :=
  h.inv inv_init inv_step

/-! ## 3. The law -/

/-- **No thread is deleted twice or too early**, and no exit code is returned twice, if the joins come after
    `CloneThread`. -/
theorem reclamation_safe {s : Sys} (h : Reach (Guarded reapStep joinsPublished) reapInit s) :
    (s.deleted.map Prod.fst).Nodup ∧
      ∀ x code, (x, code) ∈ s.deleted → (s.thread x).state = .exited ∧ (∀ cpu, x ∉ s.activeList cpu) ∧
        (∀ p, x ∉ s.childThreads p) ∧ x ∉ s.globalList ∧ (∀ t, (s.thread t).state ≠ .join x) ∧
        (s.thread x).exitCode = code := by
  have hI := inv_reach h
  refine ⟨hI.custody.once, fun x code hx => ?_⟩
  have hgone : s.At .gone x := List.mem_map.mpr ⟨(x, code), hx, rfl⟩
  obtain ⟨hexited, hcode⟩ := hI.states.code x code (Or.inr (Or.inr hx))
  refine ⟨hexited, hI.states.off x hexited, fun p hp => ?_, (hI.lists.erased x (Or.inr hgone)).2.1, fun t ht => ?_,
    hcode⟩
  · cases hI.custody.single (.child p) .gone x hp hgone
  · -- who waits for a thread has it in custody
    have hw := hI.states.target t x ht
    have hholds : s.At (.call t) x := by
      show (s.thread t).pc.holds = some x
      cases hpc : (s.thread t).pc <;> rw [hpc] at hw <;> first
        | exact hw
        | cases hw
    cases hI.custody.single (.call t) .gone x hholds hgone

/-- One thread, on CPU 0. -/
def oneThread : Sys where
  thread := fun _ => ⟨initThread, 0, .ready, 0, false, false, 0, .running⟩
  next := 1
  childThreads := fun _ => []
  activeList := fun c => if c = 0 then [initThread] else []
  globalList := [initThread]
  deleted := []
  dropped := []

theorem oneThread_init : reapInit oneThread :=
  ⟨rfl, rfl, fun _ => ⟨rfl, rfl⟩, fun _ => rfl, ⟨0, rfl⟩, rfl, rfl, rfl⟩

/-- A pass of `UpdateEvents` that interrupts no one. -/
def noTick : Tick := ⟨0, fun _ => false, fun _ => false⟩

/-- A thread is cloned, exits and is joined. -/
theorem reclamation_safe_join : ∃ s, Reach (Guarded reapStep joinsPublished) reapInit s ∧
    (1, 7) ∈ s.deleted ∧ (s.thread 1).state = .exited ∧ 1 ∉ s.globalList := by
  have h : Reach (Guarded reapStep joinsPublished) reapInit oneThread := .start _ oneThread_init
  have h := h.guarded (.clone _ 0 0 false ⟨by decide, rfl⟩ rfl) trivial
  have h := h.guarded (.cloneActive _ 0 0 1 ⟨by decide, rfl⟩ rfl) trivial
  have h := h.guarded (.cloneGlobal _ 0 0 1 ⟨by decide, rfl⟩ rfl) trivial
  have h := h.guarded (.exit _ 1 0 7 ⟨by decide, rfl⟩ rfl) trivial
  have h := h.guarded (.killEmpty _ 1 0 7 ⟨by decide, rfl⟩ rfl rfl) trivial
  have h := h.guarded (.finish _ 1 0 7 ⟨by decide, rfl⟩ rfl) trivial
  have h := h.guarded (.update _ 0 noTick) trivial
  have h := h.guarded (.join _ 0 0 1 ⟨by decide, rfl⟩ rfl (by decide)) trivial
  have h := h.guarded (.joinBlock _ 0 0 1 ⟨by decide, rfl⟩ rfl) trivial
  have h := h.guarded (.update _ 0 noTick) trivial
  have h := h.guarded (.joinReap _ 0 0 1 ⟨by decide, rfl⟩ rfl rfl) fun x hx => by cases hx; decide
  have h := h.guarded (.delete _ 0 0 1 none ⟨by decide, rfl⟩ rfl) trivial
  refine ⟨_, h, by decide, ?_⟩
  obtain ⟨hexited, -, -, hglobal, -, -⟩ := (reclamation_safe h).2 1 7 (by decide)
  exact ⟨hexited, hglobal⟩

/-- A join erases the thread before `CloneThread` puts it into the global list, and deletes it there. -/
theorem join_before_publication : ∃ s s', Reach reapStep reapInit s ∧ reapStep s (.delete 1) s' ∧
    s.deleted = [] ∧ s'.deleted = [(2, 5)] ∧ 2 ∈ s.globalList ∧ 2 ∈ s'.globalList := by
  have h : Reach reapStep reapInit oneThread := .start _ oneThread_init
  have h := h.next _ _ _ (.clone _ 0 0 true ⟨by decide, rfl⟩ rfl)
  have h := h.next _ _ _ (.cloneActive _ 0 0 1 ⟨by decide, rfl⟩ rfl)
  have h := h.next _ _ _ (.cloneGlobal _ 0 0 1 ⟨by decide, rfl⟩ rfl)
  -- the other clone, up to the list of the CPU
  have h := h.next _ _ _ (.clone _ 0 0 true ⟨by decide, rfl⟩ rfl)
  have h := h.next _ _ _ (.cloneActive _ 0 0 2 ⟨by decide, rfl⟩ rfl)
  have h := h.next _ _ _ (.join _ 1 0 2 ⟨by decide, rfl⟩ rfl (by decide))
  have h := h.next _ _ _ (.joinBlock _ 1 0 2 ⟨by decide, rfl⟩ rfl)
  have h := h.next _ _ _ (.exit _ 2 0 5 ⟨by decide, rfl⟩ rfl)
  have h := h.next _ _ _ (.killEmpty _ 2 0 5 ⟨by decide, rfl⟩ rfl rfl)
  have h := h.next _ _ _ (.finish _ 2 0 5 ⟨by decide, rfl⟩ rfl)
  have h := h.next _ _ _ (.update _ 0 noTick)
  have h := h.next _ _ _ (.update _ 0 noTick)
  have h := h.next _ _ _ (.joinReap _ 1 0 2 ⟨by decide, rfl⟩ rfl rfl)
  have h := h.next _ _ _ (.cloneGlobal _ 0 0 2 ⟨by decide, rfl⟩ rfl)
  exact ⟨_, _, h, .delete _ 1 0 2 none ⟨by decide, rfl⟩ rfl, rfl, rfl, by decide, by decide⟩

end Reaping

end SimpleOS2
