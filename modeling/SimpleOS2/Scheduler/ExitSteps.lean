/-
  File:      SimpleOS2/Scheduler/ExitSteps.lean
  Subject:   WHAT HAPPENS TO A THREAD THAT EXITS (KillChildThreads, UpdateEvents of scheduler/Scheduler.cpp).

  * `updateEvents_rel` -- a pass keeps what each of its visits keeps;
  * `Placed` -- who has a thread in custody, in every run;
  * `own_event`, `others_step` -- the steps of a thread that exits, and those of all the others;
  * `pass_waits`, `pass_join` -- what a pass does to a thread that waits for a child;
  * `Sys.Out`, `out_step` -- a child for which the thread has waited never comes back.
-/
import SimpleOS2.Scheduler.GhostThreads

namespace SimpleOS2

open Lib

namespace Reaping

/-! ## 1. Passes -/

section Passes

variable {s s' : Sys} {t u x cpu : Nat} {k : Tick}

theorem updateThread_other (h : u ≠ t) : (updateThread k cpu s t).thread u = s.thread u := by
  have hset : ∀ ti, (s.set t ti).thread u = s.thread u := fun ti => by rw [set_thread, if_neg h]
  unfold updateThread
  dsimp only
  split
  · rfl
  · exact hset _
  · split_ifs
    · exact hset _
    · exact hset _
    · rfl
  · rfl
  · split_ifs <;> exact hset _
  · split_ifs
    · exact hset _
    · exact hset _
    · rfl

/-- Nobody comes to hold or to clone a thread in a pass. -/
theorem updateThread_pc (k : Tick) (cpu : Nat) (s : Sys) (t u : Nat) :
    ((updateThread k cpu s t).thread u).pc = (s.thread u).pc ∨
    ((updateThread k cpu s t).thread u).pc.holds = none ∧ ((updateThread k cpu s t).thread u).pc.cloning = none := by
  by_cases h : u = t
  · subst h
    have hset : ∀ ti : ThreadInfo, ti.pc = (s.thread u).pc → ((s.set u ti).thread u).pc = (s.thread u).pc :=
      fun ti hti => by rw [set_thread, if_pos rfl, hti]
    unfold updateThread
    dsimp only
    split
    · exact Or.inl rfl
    · exact Or.inl (hset _ rfl)
    · split_ifs with hu hexits
      · refine Or.inr ?_
        rw [set_thread, if_pos rfl]
        exact ⟨rfl, rfl⟩
      · refine Or.inr ?_
        rw [set_thread, if_pos rfl]
        exact ⟨rfl, rfl⟩
      · exact Or.inl rfl
    · exact Or.inl rfl
    · split_ifs <;> exact Or.inl (hset _ rfl)
    · split_ifs
      · exact Or.inl (hset _ rfl)
      · exact Or.inl (hset _ rfl)
      · exact Or.inl rfl
  · exact Or.inl (congrArg ThreadInfo.pc (updateThread_other h))

theorem updateThread_active {c : Nat} (h : x ∈ (updateThread k cpu s t).activeList c) : x ∈ s.activeList c := by
  unfold updateThread at h
  dsimp only at h
  split at h
  · exact h
  · have h' : x ∈ Function.update s.activeList cpu ((s.activeList cpu).erase t) c := h
    rw [Function.update_apply] at h'
    split_ifs at h' with hc
    · exact hc ▸ List.mem_of_mem_erase h'
    · exact h'
  · split_ifs at h <;> exact h
  · exact h
  · split_ifs at h <;> exact h
  · split_ifs at h <;> exact h

/-- A relation that every visit keeps is kept by the pass. -/
theorem updateEvents_rel {R : Sys → Sys → Prop} (h0 : ∀ s, R s s) (htrans : ∀ a b c, R a b → R b c → R a c)
    (hvisit : ∀ s t, R s (updateThread k cpu s t)) (s : Sys) : R s (updateEvents k cpu s) := by
  have hfold : ∀ (l : List Nat) (s : Sys), R s (l.foldl (updateThread k cpu) s) := by
    intro l
    induction l with
    | nil => exact h0
    | cons t l ih => exact fun s => htrans _ _ _ (hvisit s t) (ih _)
  exact hfold _ s

end Passes

/-! ## 2. Custody in every run -/

/-- Who has a thread in custody; the threads on the lists have been made. -/
structure Placed (s : Sys) : Prop where
  custody : Custody s
  active : ∀ c x, x ∈ s.activeList c → x < s.next
  cloning : ∀ t x, (s.thread t).pc.cloning = some x → x < s.next

section Placed

variable {s s' : Sys} {t x cpu : Nat} {pc : Pc} {ti : ThreadInfo}

/-- Threads go on, and none of them comes to hold or to clone another one. -/
theorem Placed.keep (hP : Placed s) (hc : s'.childThreads = s.childThreads) (hd : s'.deleted = s.deleted)
    (hn : s'.next = s.next) (ha : ∀ c x, x ∈ s'.activeList c → x ∈ s.activeList c)
    (hp : ∀ u, (s'.thread u).pc = (s.thread u).pc ∨
      (s'.thread u).pc.cloning = none ∧ ∀ x, (s'.thread u).pc.holds = some x → (s.thread u).pc.holds = some x) :
    Placed s' := by
  refine ⟨hP.custody.keep hc hd hn fun u x h => ?_, fun c x h => hn ▸ hP.active c x (ha c x h), fun u x h => ?_⟩
  · rcases hp u with he | ⟨-, he⟩
    · exact he ▸ h
    · exact he x h
  · rcases hp u with he | ⟨he, -⟩
    · exact hn ▸ hP.cloning u x (he ▸ h)
    · rw [he] at h
      cases h

/-- One of them. The global list and `dropped` have nothing to do with it. -/
theorem Placed.goto (hP : Placed s) (ht : s'.thread = (s.goto t pc).thread) (hc : s'.childThreads = s.childThreads)
    (hd : s'.deleted = s.deleted) (hn : s'.next = s.next) (ha : s'.activeList = s.activeList)
    (hcl : pc.cloning = none) (hh : ∀ x, pc.holds = some x → (s.thread t).pc.holds = some x) : Placed s' := by
  refine hP.keep hc hd hn (fun c x h => by rwa [ha] at h) fun u => ?_
  rw [ht, goto_thread]
  split_ifs with hu
  · exact Or.inr ⟨hcl, hu ▸ hh⟩
  · exact Or.inl rfl

theorem Placed.set (hP : Placed s) (h : ti.pc = (s.thread t).pc ∨
    ti.pc.cloning = none ∧ ∀ x, ti.pc.holds = some x → (s.thread t).pc.holds = some x) : Placed (s.set t ti) := by
  refine hP.keep rfl rfl rfl (fun _ _ h => h) fun u => ?_
  rw [set_thread]
  split_ifs with hu
  · exact hu ▸ h
  · exact Or.inl rfl

/-- A thread goes into another custody, and its taker clones nobody. -/
theorem Placed.moved (hP : Placed s) (hC : Custody s') (ha : s'.activeList = s.activeList) (hn : s'.next = s.next)
    (ht : s'.thread = (s.goto t pc).thread) (hcl : pc.cloning = none) : Placed s' := by
  refine ⟨hC, fun c x h => ?_, fun u x h => ?_⟩
  · rw [ha] at h
    exact hn ▸ hP.active c x h
  · rw [ht, goto_thread] at h
    split_ifs at h with hu
    · cases hcl.symm.trans h
    · exact hn ▸ hP.cloning u x h

theorem placed_updateEvents (hP : Placed s) (k : Tick) (cpu : Nat) : Placed (updateEvents k cpu s) := by
  refine updateEvents_rel (R := fun s s' => Placed s → Placed s') (fun _ h => h) (fun _ _ _ h h' hP => h' (h hP))
    (fun s t hP => ?_) s hP
  have hq := quiet_updateThread k cpu s t
  refine hP.keep hq.childThreads hq.deleted hq.next (fun _ _ => updateThread_active) fun u => ?_
  exact (updateThread_pc _ _ _ _ u).imp_right fun h => ⟨h.2, fun x hx => by rw [h.1] at hx; cases hx⟩

/-- **Every step keeps custody.** -/
theorem placed_step (s : Sys) (e : Event) (s' : Sys) (hP : Placed s) (hs : reapStep s e s') : Placed s' := by
  have hC := hP.custody
  have hnone : ∀ {pc : Pc} {t : Nat}, pc.holds = none → ∀ x, pc.holds = some x → (s.thread t).pc.holds = some x :=
    fun h x hx => by rw [h] at hx; cases hx
  cases hs with
  | clone t cpu subthread hr hp =>
      obtain ⟨main, hmain⟩ : ∃ main, (if subthread then (s.thread t).mainThread else s.next) = main := ⟨_, rfl⟩
      rw [hmain]
      refine ⟨hC.clone, fun c x h => Nat.lt_succ_of_lt (hP.active c x h), fun u x h => ?_⟩
      rw [goto_thread] at h
      split_ifs at h with hu
      · cases h
        exact Nat.lt_succ_self _
      · have h' : ((s.newThread main (s.thread t).uid).thread u).pc.cloning = some x := h
        rw [newThread_thread] at h'
        split_ifs at h'
        · cases h'
        · exact Nat.lt_succ_of_lt (hP.cloning u x h')
  | cloneActive t cpu x hr hp =>
      have hx : x < s.next := hP.cloning t x (by rw [hp]; rfl)
      refine ⟨hC.keep rfl rfl rfl fun u y h => ?_, fun c y h => ?_, fun u y h => ?_⟩
      · rw [goto_thread] at h
        split_ifs at h
        · exact hnone rfl y h
        · exact h
      · rcases mem_update_append.mp (show y ∈ Function.update s.activeList cpu (s.activeList cpu ++ [x]) c from h) with
          h | ⟨-, rfl⟩
        · exact hP.active c y h
        · exact hx
      · rw [goto_thread] at h
        split_ifs at h
        · cases h
          exact hx
        · exact hP.cloning u y h
  | cloneGlobal t cpu x hr hp =>
      exact hP.goto rfl rfl rfl rfl rfl rfl (hnone rfl)
  | kernelThread t cpu uid hr hp =>
      refine ⟨hC.kernelThread, fun c y h => ?_, fun u y h => ?_⟩
      · rcases mem_update_append.mp (show y ∈ Function.update s.activeList cpu
            (s.activeList cpu ++ [s.next]) c from h) with
          h | ⟨-, rfl⟩
        · exact Nat.lt_succ_of_lt (hP.active c y h)
        · exact Nat.lt_succ_self _
      · rw [goto_thread] at h
        split_ifs at h
        · cases h
          exact Nat.lt_succ_self _
        · have h' : ((s.newThread s.next uid).thread u).pc.cloning = some y := h
          rw [newThread_thread] at h'
          split_ifs at h'
          · cases h'
          · exact Nat.lt_succ_of_lt (hP.cloning u y h')
  | kernelGlobal t cpu x hr hp =>
      refine hP.goto rfl rfl rfl rfl rfl rfl fun y h => ?_
      rw [hp]
      exact h
  | kernelChild t cpu x hr hp => exact hP.moved (hC.give (by rw [hp]; rfl) rfl) rfl rfl rfl rfl
  | detach t cpu x hr hp hx hm =>
      exact hP.moved (hC.take hx List.erase_sublist (hC.nodup _).not_mem_erase rfl) rfl rfl rfl rfl
  | detachGive t cpu x hr hp => exact hP.moved (hC.give (by rw [hp]; rfl) rfl) rfl rfl rfl rfl
  | join t cpu x hr hp hx =>
      exact hP.moved (hC.take hx List.erase_sublist (hC.nodup _).not_mem_erase rfl) rfl rfl rfl rfl
  | joinBlock t cpu x hr hp => exact hP.set (Or.inr ⟨rfl, fun y h => by rw [hp]; exact h⟩)
  | joinBack t cpu x hr hp he => exact hP.moved (hC.give (by rw [hp]; rfl) rfl) rfl rfl rfl rfl
  | joinReap t cpu x hr hp he =>
      refine hP.goto rfl rfl rfl rfl rfl rfl fun y h => ?_
      rw [hp]
      exact h
  | tryJoin t cpu x hr hp hx he =>
      exact hP.moved (hC.take hx List.erase_sublist (hC.nodup _).not_mem_erase rfl) rfl rfl rfl rfl
  | tryReap t cpu x code hr hp =>
      refine hP.goto rfl rfl rfl rfl rfl rfl fun y h => ?_
      rw [hp]
      exact h
  | delete t cpu x code hr hp => exact hP.moved (hC.delete (by rw [hp]; rfl)) rfl rfl rfl rfl
  | exit t cpu code hr hp => exact hP.goto rfl rfl rfl rfl rfl rfl (hnone rfl)
  | killTake t cpu x code l hr hp hl =>
      have hnd := hC.nodup t
      rw [hl] at hnd
      have hx : x ∈ s.childThreads t := hl ▸ List.mem_append_right _ (List.mem_singleton_self x)
      have hsub : l.Sublist (s.childThreads t) := hl ▸ List.sublist_append_left _ _
      exact hP.moved (hC.take hx hsub (fun h => List.disjoint_of_nodup_append hnd h (List.mem_singleton_self x)) rfl)
        rfl rfl rfl rfl
  | killEmpty t cpu code hr hp hl => exact hP.goto rfl rfl rfl rfl rfl rfl (hnone rfl)
  | killBlock t cpu x code hr hp =>
      exact (hP.set (Or.inr ⟨rfl, fun y h => by rw [hp]; exact h⟩)).set (Or.inl rfl)
  | killBack t cpu x code hr hp he => exact hP.moved (hC.give (by rw [hp]; rfl) rfl) rfl rfl rfl rfl
  | killDone t cpu x code hr hp he =>
      exact hP.goto rfl rfl rfl rfl rfl rfl (hnone rfl)
  | finish t cpu code hr hp => exact hP.set (Or.inr ⟨rfl, hnone rfl⟩)
  | update cpu k => exact placed_updateEvents hP k cpu
  | request t x abort hx => exact hP.set (Or.inl rfl)
  | serve t cpu kill abort hr hp => exact hP.set (Or.inl rfl)
  | block t cpu state hr hp hstate => exact hP.set (Or.inl rfl)
  | unlock x hx => exact hP.set (Or.inl rfl)

theorem placed_init (s : Sys) (h : reapInit s) : Placed s := by
  have hI := inv_init s h
  exact ⟨hI.custody, hI.lists.activeBorn, fun t x hx => (hI.lists.cloning t x hx).1⟩

theorem placed_reach {s : Sys} (h : Reach reapStep reapInit s) : Placed s := h.inv placed_init placed_step

end Placed

/-! ## 3. The steps of the others -/

/-- The thread that takes a step. -/
def Event.thread : Event → Option Nat
  | .clone t _ | .cloneActive t | .cloneGlobal t | .kernelThread t _ | .kernelGlobal t | .kernelChild t
  | .detach t _ | .detachGive t | .join t _ | .joinBlock t | .joinBack t | .joinReap t | .tryJoin t _ | .tryReap t
  | .delete t | .exit t _ | .killTake t | .killEmpty t | .killBlock t | .killBack t | .killDone t | .finish t
  | .serve t _ _ | .block t _ => some t
  | .update _ _ | .request _ _ _ | .unlock _ => none

/-- The places of `ThreadExit`. -/
def Pc.inExit : Pc → Bool
  | .kill _ | .killTaken _ _ | .killWait _ _ | .exiting _ => true
  | _ => false

/-- The steps that a thread may take there. -/
def Pc.exitEvents (t : Nat) : Pc → List Event
  | .kill _ => [.killTake t, .killEmpty t]
  | .killTaken _ _ => [.killBlock t]
  | .killWait _ _ => [.killBack t, .killDone t]
  | .exiting _ => [.finish t]
  | _ => []

/-- A thread is left where it is: a request may be made to it, and it may be woken from a `QueueLock`. -/
structure Untouched (t : Nat) (s s' : Sys) : Prop where
  pc : (s'.thread t).pc = (s.thread t).pc
  rax : (s'.thread t).rax = (s.thread t).rax
  state : (s'.thread t).state = (s.thread t).state ∨ (s.thread t).state = .queueLock
  active : ∀ c, t ∈ s.activeList c → t ∈ s'.activeList c

section Others

variable {s s' : Sys} {e : Event} {t u x cpu : Nat} {pc : Pc}

/-- A thread takes a step only when it is ready, and in `ThreadExit` only these. -/
theorem own_event (hs : reapStep s e s') (he : e.thread = some t) :
    (s.thread t).state = .ready ∧ ((s.thread t).pc.inExit = true → e ∈ (s.thread t).pc.exitEvents t) := by
  have hout : ∀ {u cpu pc}, s.Runs u cpu → (s.thread u).pc = pc → pc.inExit = false → some u = some t →
      (s.thread t).state = .ready ∧ ((s.thread t).pc.inExit = true → e ∈ (s.thread t).pc.exitEvents t) := by
    intro u cpu pc hr hp hx hu
    obtain rfl := Option.some.inj hu
    refine ⟨hr.2, fun h => ?_⟩
    rw [hp, hx] at h
    cases h
  have hin : ∀ {u cpu pc}, s.Runs u cpu → (s.thread u).pc = pc → some u = some t → e ∈ pc.exitEvents u →
      (s.thread t).state = .ready ∧ ((s.thread t).pc.inExit = true → e ∈ (s.thread t).pc.exitEvents t) := by
    intro u cpu pc hr hp hu hmem
    obtain rfl := Option.some.inj hu
    exact ⟨hr.2, fun _ => hp ▸ hmem⟩
  cases hs with
  | clone u cpu subthread hr hp => exact hout hr hp rfl he
  | cloneActive u cpu x hr hp => exact hout hr hp rfl he
  | cloneGlobal u cpu x hr hp => exact hout hr hp rfl he
  | kernelThread u cpu uid hr hp => exact hout hr hp rfl he
  | kernelGlobal u cpu x hr hp => exact hout hr hp rfl he
  | kernelChild u cpu x hr hp => exact hout hr hp rfl he
  | detach u cpu x hr hp hx hm => exact hout hr hp rfl he
  | detachGive u cpu x hr hp => exact hout hr hp rfl he
  | join u cpu x hr hp hx => exact hout hr hp rfl he
  | joinBlock u cpu x hr hp => exact hout hr hp rfl he
  | joinBack u cpu x hr hp hrax => exact hout hr hp rfl he
  | joinReap u cpu x hr hp hrax => exact hout hr hp rfl he
  | tryJoin u cpu x hr hp hx hex => exact hout hr hp rfl he
  | tryReap u cpu x code hr hp => exact hout hr hp rfl he
  | delete u cpu x code hr hp => exact hout hr hp rfl he
  | exit u cpu code hr hp => exact hout hr hp rfl he
  | killTake u cpu x code l hr hp hl => exact hin hr hp he List.mem_cons_self
  | killEmpty u cpu code hr hp hl => exact hin hr hp he (List.mem_cons_of_mem _ List.mem_cons_self)
  | killBlock u cpu x code hr hp => exact hin hr hp he List.mem_cons_self
  | killBack u cpu x code hr hp hrax => exact hin hr hp he List.mem_cons_self
  | killDone u cpu x code hr hp hrax => exact hin hr hp he (List.mem_cons_of_mem _ List.mem_cons_self)
  | finish u cpu code hr hp => exact hin hr hp he List.mem_cons_self
  | serve u cpu kill abort hr hp => exact hout hr hp rfl he
  | block u cpu state hr hp hstate => exact hout hr hp rfl he
  | update cpu k => cases he
  | request u x abort hx => cases he
  | unlock x hx => cases he

/-- What a step of another thread, or of none, does to a thread, passes of `UpdateEvents` apart. -/
theorem others_step (hs : reapStep s e s') (he : e.thread ≠ some t) (hu : ∀ cpu k, e ≠ .update cpu k)
    (hlt : t < s.next) : Untouched t s s' := by
  have hne : ∀ {u}, some u ≠ some t → t ≠ u := fun h e => h (congrArg some e.symm)
  -- the acting thread changes, and lists of CPUs get longer
  have hgo : ∀ {s1 s2 : Sys} {u : Nat} {pc : Pc}, some u ≠ some t → s1.thread t = s.thread t →
      s2.thread = (s1.goto u pc).thread → (∀ c, t ∈ s.activeList c → t ∈ s2.activeList c) → Untouched t s s2 := by
    intro s1 s2 u pc h h1 h2 ha
    have hth : s2.thread t = s.thread t := by rw [h2, goto_thread, if_neg (hne h), h1]
    exact ⟨by rw [hth], by rw [hth], Or.inl (by rw [hth]), ha⟩
  have hset : ∀ {u : Nat} {ti : ThreadInfo}, some u ≠ some t → Untouched t s (s.set u ti) := by
    intro u ti h
    have hth : (s.set u ti).thread t = s.thread t := by rw [set_thread, if_neg (hne h)]
    exact ⟨by rw [hth], by rw [hth], Or.inl (by rw [hth]), fun _ h => h⟩
  have hflags : ∀ (s1 : Sys) (x : Nat) (a b : Bool), Untouched t s1 (s1.set x { s1.thread x with
      killPending := a, abortPending := b }) := by
    intro s1 x a b
    refine ⟨?_, ?_, Or.inl ?_, fun _ h => h⟩ <;>
    · rw [set_thread]
      split_ifs with hx
      · rw [hx]
      · rfl
  have hnew : ∀ m uid, (s.newThread m uid).thread t = s.thread t := fun m uid => by
    rw [newThread_thread, if_neg (Nat.ne_of_lt hlt)]
  have happend : ∀ c cpu x, t ∈ s.activeList c → t ∈ Function.update s.activeList cpu (s.activeList cpu ++ [x]) c :=
    fun c cpu x h => mem_update_append.mpr (Or.inl h)
  cases hs with
  | clone u cpu subthread hr hp => exact hgo he (hnew _ _) rfl fun _ h => h
  | cloneActive u cpu x hr hp => exact hgo he rfl rfl fun c h => happend c cpu x h
  | cloneGlobal u cpu x hr hp => exact hgo he rfl rfl fun _ h => h
  | kernelThread u cpu uid hr hp => exact hgo he (hnew _ _) rfl fun c h => happend c cpu _ h
  | kernelGlobal u cpu x hr hp => exact hgo he rfl rfl fun _ h => h
  | kernelChild u cpu x hr hp => exact hgo he rfl rfl fun _ h => h
  | detach u cpu x hr hp hx hm => exact hgo he rfl rfl fun _ h => h
  | detachGive u cpu x hr hp => exact hgo he rfl rfl fun _ h => h
  | join u cpu x hr hp hx => exact hgo he rfl rfl fun _ h => h
  | joinBlock u cpu x hr hp => exact hset he
  | joinBack u cpu x hr hp hrax => exact hgo he rfl rfl fun _ h => h
  | joinReap u cpu x hr hp hrax => exact hgo he rfl rfl fun _ h => h
  | tryJoin u cpu x hr hp hx hex => exact hgo he rfl rfl fun _ h => h
  | tryReap u cpu x code hr hp => exact hgo he rfl rfl fun _ h => h
  | delete u cpu x code hr hp => exact hgo he rfl rfl fun _ h => h
  | exit u cpu code hr hp => exact hgo he rfl rfl fun _ h => h
  | killTake u cpu x code l hr hp hl => exact hgo he rfl rfl fun _ h => h
  | killEmpty u cpu code hr hp hl => exact hgo he rfl rfl fun _ h => h
  | killBlock u cpu x code hr hp =>
      obtain ⟨h1, h2, h3, h4⟩ : Untouched t s (s.set u { s.thread u with state := .join x, pc := .killWait code x }) :=
        hset he
      obtain ⟨s1, hs1⟩ : ∃ s1, s.set u { s.thread u with state := .join x, pc := .killWait code x } = s1 := ⟨_, rfl⟩
      rw [hs1] at h1 h2 h3 h4 ⊢
      obtain ⟨g1, g2, g3, g4⟩ := hflags s1 x (s1.thread x).killPending true
      refine ⟨g1.trans h1, g2.trans h2, ?_, fun c h => g4 c (h4 c h)⟩
      rcases h3 with h3 | h3
      · rw [← h3]
        exact g3
      · exact Or.inr h3
  | killBack u cpu x code hr hp hrax => exact hgo he rfl rfl fun _ h => h
  | killDone u cpu x code hr hp hrax => exact hgo he rfl rfl fun _ h => h
  | finish u cpu code hr hp => exact hset he
  | serve u cpu kill abort hr hp => exact hset he
  | block u cpu state hr hp hstate => exact hset he
  | update cpu k => exact absurd rfl (hu cpu k)
  | request u x abort hx => exact hflags s x _ _
  | unlock x hx =>
      refine ⟨?_, ?_, ?_, fun _ h => h⟩
      · rw [set_thread]
        split_ifs with h
        · rw [h]
        · rfl
      · rw [set_thread]
        split_ifs with h
        · rw [h]
        · rfl
      · rw [set_thread]
        split_ifs with h
        · exact Or.inr (h ▸ hx)
        · exact Or.inl rfl

end Others

/-! ## 4. Passes over a thread that exits -/

/-- No kill and no abort is pending. -/
def ThreadInfo.calm (ti : ThreadInfo) : Prop := ti.killPending = false ∧ ti.abortPending = false

/-- A `JOIN` that has ended. -/
def ThreadInfo.woken (ti : ThreadInfo) : ThreadInfo := { ti with state := .ready, rax := OK }

/-- The thread is in `ThreadExit`, and if it waits, nothing is pending. -/
def Sys.Waits (s : Sys) (t : Nat) : Prop :=
  (s.thread t).pc.inExit = true ∧
    ((s.thread t).state = .ready ∨ (∃ x, (s.thread t).state = .join x) ∧ (s.thread t).calm)

section Passes

variable {s s' : Sys} {e : Event} {t u x cpu : Nat} {k : Tick}

theorem updateThread_stays {c : Nat} (h : t ∈ s.activeList c) (hf : u = t → (s.thread t).state ≠ .finished) :
    t ∈ (updateThread k cpu s u).activeList c := by
  unfold updateThread
  dsimp only
  split
  · exact h
  · rename_i hst
    show t ∈ Function.update s.activeList cpu ((s.activeList cpu).erase u) c
    have hne : t ≠ u := fun he => hf he.symm (by rw [he, hst])
    rw [Function.update_apply]
    split_ifs with hc
    · exact (List.mem_erase_of_ne hne).mpr (hc ▸ h)
    · exact h
  · split_ifs <;> exact h
  · exact h
  · split_ifs <;> exact h
  · split_ifs <;> exact h

theorem inExit_running (h : (s.thread t).pc.inExit = true) : (s.thread t).pc ≠ .running := by
  intro he
  rw [he] at h
  cases h

theorem updateThread_join (hst : (s.thread t).state = .join x) (hcalm : (s.thread t).calm) :
    updateThread k cpu s t = if (s.thread x).state = .exited then s.set t (s.thread t).woken else s := by
  have hflags : ¬ ((s.thread t).killPending || (s.thread t).abortPending) = true := by
    rw [hcalm.1, hcalm.2]
    exact Bool.false_ne_true
  unfold updateThread
  simp only [hst]
  rw [if_neg hflags]
  rfl

/-- A visit leaves the thread alone, or ends its `JOIN`. -/
theorem updateThread_waits (k : Tick) (cpu u : Nat) (h : s.Waits t) :
    ((updateThread k cpu s u).thread t = s.thread t ∨
      (∃ x, (s.thread t).state = .join x) ∧ (updateThread k cpu s u).thread t = (s.thread t).woken) ∧
    ∀ c, t ∈ s.activeList c → t ∈ (updateThread k cpu s u).activeList c := by
  obtain ⟨hpc, hst⟩ := h
  refine ⟨?_, fun c hc => updateThread_stays hc fun _ hf => ?_⟩
  · by_cases hu : t = u
    · subst hu
      rcases hst with hst | ⟨⟨x, hst⟩, hcalm⟩
      · left
        unfold updateThread
        simp only [hst]
        rw [if_neg fun h => inExit_running hpc h.2]
      · rw [updateThread_join hst hcalm]
        split_ifs
        · refine Or.inr ⟨⟨x, hst⟩, ?_⟩
          rw [set_thread, if_pos rfl]
        · exact Or.inl rfl
    · exact Or.inl (updateThread_other hu)
  · rcases hst with hst | ⟨⟨x, hst⟩, -⟩ <;>
    · rw [hst] at hf
      cases hf

/-- So does the pass. -/
theorem pass_waits (k : Tick) (cpu : Nat) (h : s.Waits t) :
    ((updateEvents k cpu s).thread t = s.thread t ∨
      (∃ x, (s.thread t).state = .join x) ∧ (updateEvents k cpu s).thread t = (s.thread t).woken) ∧
    ∀ c, t ∈ s.activeList c → t ∈ (updateEvents k cpu s).activeList c := by
  refine updateEvents_rel (R := fun s s' => s.Waits t → (s'.thread t = s.thread t ∨
    (∃ x, (s.thread t).state = .join x) ∧ s'.thread t = (s.thread t).woken) ∧
    ∀ c, t ∈ s.activeList c → t ∈ s'.activeList c) (fun _ _ => ⟨Or.inl rfl, fun _ h => h⟩) ?_
    (fun _ u => updateThread_waits k cpu u) s h
  intro a b c hab hbc ha
  obtain ⟨hth, hact⟩ := hab ha
  have hb : b.Waits t := by
    unfold Sys.Waits
    rcases hth with hth | ⟨-, hth⟩
    · rw [hth]
      exact ha
    · rw [hth]
      exact ⟨ha.1, Or.inl rfl⟩
  obtain ⟨hth', hact'⟩ := hbc hb
  refine ⟨?_, fun d hd => hact' d (hact d hd)⟩
  rcases hth with hth | ⟨hx, hth⟩
  · rw [← hth]
    exact hth'
  · refine Or.inr ⟨hx, ?_⟩
    rcases hth' with hth' | ⟨⟨y, hy⟩, -⟩
    · rw [hth', hth]
    · rw [hth] at hy
      cases hy

theorem updateThread_exited (h : (s.thread x).state = .exited) :
    ((updateThread k cpu s u).thread x).state = .exited := by
  by_cases hu : x = u
  · subst hu
    unfold updateThread
    simp only [h]
  · rw [updateThread_other hu, h]

/-- **The `JOIN` on a child that is `EXITED` ends with `OK`** at the next pass, if nothing is pending. -/
theorem pass_join (hpc : (s.thread t).pc.inExit = true) (hst : (s.thread t).state = .join x) (hcalm : (s.thread t).calm)
    (hx : (s.thread x).state = .exited) (ht : t ∈ s.activeList cpu) :
    (updateEvents k cpu s).thread t = (s.thread t).woken := by
  have hready : ∀ (l : List Nat) (s : Sys), (s.thread t).pc.inExit = true → (s.thread t).state = .ready →
      (l.foldl (updateThread k cpu) s).thread t = s.thread t := by
    intro l
    induction l with
    | nil => exact fun _ _ _ => rfl
    | cons u l ih =>
        intro s hpc hst
        have hsame : (updateThread k cpu s u).thread t = s.thread t := by
          rcases (updateThread_waits k cpu u ⟨hpc, Or.inl hst⟩).1 with h | ⟨⟨y, hy⟩, -⟩
          · exact h
          · rw [hst] at hy
            cases hy
        exact (ih _ (hsame ▸ hpc) (hsame ▸ hst)).trans hsame
  have hfold : ∀ (l : List Nat) (s : Sys), t ∈ l → (s.thread t).pc.inExit = true → (s.thread t).state = .join x →
      (s.thread t).calm → (s.thread x).state = .exited →
      (l.foldl (updateThread k cpu) s).thread t = (s.thread t).woken := by
    intro l
    induction l with
    | nil => exact fun _ h => by cases h
    | cons u l ih =>
        intro s hmem hpc hst hcalm hx
        by_cases hu : t = u
        · subst hu
          have hwake : (updateThread k cpu s t).thread t = (s.thread t).woken := by
            rw [updateThread_join hst hcalm, if_pos hx, set_thread, if_pos rfl]
          exact (hready l _ (hwake ▸ hpc) (hwake ▸ rfl)).trans hwake
        · have hsame : (updateThread k cpu s u).thread t = s.thread t := updateThread_other hu
          have hrest := ih (updateThread k cpu s u) ((List.mem_cons.mp hmem).resolve_left hu)
              (hsame ▸ hpc) (hsame ▸ hst)
            (hsame ▸ hcalm) (updateThread_exited hx)
          exact hrest.trans (congrArg ThreadInfo.woken hsame)
  exact hfold _ s ht hpc hst hcalm hx

/-- What is `EXITED` stays `EXITED`. -/
theorem exited_step (hs : reapStep s e s') (hlt : x < s.next) (h : (s.thread x).state = .exited) :
    (s'.thread x).state = .exited := by
  by_cases hu : ∃ cpu k, e = .update cpu k
  · obtain ⟨cpu, k, rfl⟩ := hu
    cases hs
    exact updateEvents_rel (R := fun s s' => (s.thread x).state = .exited → (s'.thread x).state = .exited)
      (fun _ h => h) (fun _ _ _ h h' hx => h' (h hx)) (fun _ _ => updateThread_exited) s h
  · have hown : e.thread ≠ some x := by
      intro he
      have hready := (own_event hs he).1
      rw [h] at hready
      cases hready
    rcases (others_step hs hown (fun cpu k he => hu ⟨cpu, k, he⟩) hlt).state with hst | hst
    · rw [hst, h]
    · rw [h] at hst
      cases hst

end Passes

/-! ## 5. Children that are through -/

/-- Somebody has the thread among its children, or in its hands. -/
def Sys.InCare (s : Sys) (x : Nat) : Prop := (∃ q, x ∈ s.childThreads q) ∨ ∃ u, (s.thread u).pc.holds = some x

/-- Nobody has the thread in custody, or will have it again. -/
def Sys.Out (s : Sys) (x : Nat) : Prop := x < s.next ∧ (∀ p, x ∉ s.childThreads p) ∧ ∀ u, (s.thread u).pc.holds ≠ some x

section Out

variable {s s' : Sys} {e : Event} {t u x y cpu : Nat} {pc : Pc}

theorem Sys.Out.not_inCare (hO : s.Out x) : ¬ s.InCare x := by
  intro h
  rcases h with ⟨q, h⟩ | ⟨u, h⟩
  · exact hO.2.1 q h
  · exact hO.2.2 u h

/-- Nobody takes it out of nowhere. -/
theorem Sys.Out.of (hO : s.Out x) (hn : s.next ≤ s'.next) (hc : ∀ p, x ∈ s'.childThreads p → s.InCare x)
    (hp : ∀ u, (s'.thread u).pc.holds = some x → s.InCare x) : s'.Out x :=
  ⟨Nat.lt_of_lt_of_le hO.1 hn, fun p h => hO.not_inCare (hc p h), fun u h => hO.not_inCare (hp u h)⟩

theorem inCare_child (p : Nat) (h : x ∈ s.childThreads p) : s.InCare x := Or.inl ⟨p, h⟩

theorem inCare_held (hpc : (s.thread t).pc = pc) (h : pc.holds = some x) : s.InCare x := Or.inr ⟨t, by rw [hpc, h]⟩

/-- A list of children that gets shorter, -/
theorem inCare_take {q : Nat} {l : List Nat} (hl : ∀ y ∈ l, y ∈ s.childThreads q) (p : Nat)
    (h : x ∈ Function.update s.childThreads q l p) : s.InCare x := by
  rw [Function.update_apply] at h
  split_ifs at h
  · exact inCare_child q (hl x h)
  · exact inCare_child p h

/-- and one that gets a thread which is in somebody's hands. -/
theorem inCare_give {q : Nat} (hpc : (s.thread t).pc = pc) (hy : pc.holds = some y) (p : Nat)
    (h : x ∈ Function.update s.childThreads q (s.childThreads q ++ [y]) p) : s.InCare x := by
  rcases mem_update_append.mp h with h | ⟨-, rfl⟩
  · exact inCare_child p h
  · exact inCare_held hpc hy

/-- A new thread has no children, and holds none. -/
theorem inCare_newChildren (p : Nat) (h : x ∈ Function.update s.childThreads s.next [] p) : s.InCare x :=
  inCare_take (fun y hy => by cases hy) p h

theorem inCare_newThread {m uid : Nat} (u : Nat) (h : ((s.newThread m uid).thread u).pc.holds = some x) :
    s.InCare x := by
  rw [newThread_thread] at h
  split_ifs at h
  · cases h
  · exact inCare_held rfl h

/-- A thread that goes on to the next operation of its call. -/
theorem Sys.Out.goto (hO : s.Out x) {s1 : Sys} (hn1 : s1.next = s.next) (h1 : s1.thread = s.thread)
    (h2 : s'.thread = (s1.goto t pc).thread) (hn2 : s'.next = s1.next) (hc : ∀ p, x ∈ s'.childThreads p → s.InCare x)
    (hp : pc.holds = some x → s.InCare x) : s'.Out x := by
  refine hO.of (by rw [hn2, hn1]) hc fun u h => ?_
  rw [h2, goto_thread] at h
  split_ifs at h
  · exact hp h
  · exact inCare_held rfl (h1 ▸ h)

theorem Sys.Out.set (hO : s.Out x) {ti : ThreadInfo} (h : ti.pc.holds = some x → s.InCare x) : (s.set t ti).Out x := by
  refine hO.of (Nat.le_refl _) (inCare_child (s := s)) fun u hu => ?_
  rw [set_thread] at hu
  split_ifs at hu
  · exact h hu
  · exact inCare_held rfl hu

/-- The handlers of the events of a timer tick. -/
theorem Sys.Out.updateEvents (hO : s.Out x) (k : Tick) (cpu : Nat) : (Reaping.updateEvents k cpu s).Out x := by
  refine updateEvents_rel (R := fun s s' => s.Out x → s'.Out x) (fun _ h => h) (fun _ _ _ h h' hO => h' (h hO)) ?_ s hO
  intro s t hO
  have hq := quiet_updateThread k cpu s t
  refine hO.of (Nat.le_of_eq hq.next.symm) (fun p h => inCare_child p (hq.childThreads ▸ h)) fun u h => ?_
  rcases updateThread_pc k cpu s t u with he | ⟨he, -⟩
  · exact inCare_held rfl (he ▸ h)
  · rw [he] at h
    cases h

/-- **A child that is through stays so.** -/
theorem out_step (hs : reapStep s e s') (hO : s.Out x) : s'.Out x := by
  have hnone : ∀ {P : Prop} {pc : Pc}, pc.holds = none → pc.holds = some x → P := fun h h' => by
    rw [h] at h'
    cases h'
  have hsame : ∀ p, x ∈ s.childThreads p → s.InCare x := inCare_child
  have herase : ∀ (q : Nat) (y : Nat) (p : Nat), x ∈ Function.update s.childThreads q ((s.childThreads q).erase y) p →
      s.InCare x := fun q y => inCare_take fun z hz => List.mem_of_mem_erase hz
  cases hs with
  | clone t cpu subthread hr hp =>
      obtain ⟨main, hmain⟩ : ∃ main, (if subthread then (s.thread t).mainThread else s.next) = main := ⟨_, rfl⟩
      rw [hmain]
      refine hO.of (Nat.le_succ _) (fun p h => ?_) fun u h => ?_
      · have h' : x ∈ Function.update (Function.update s.childThreads s.next []) (s.thread t).mainThread
          (s.childThreads (s.thread t).mainThread ++ [s.next]) p := h
        rw [Function.update_apply] at h'
        split_ifs at h'
        · rcases List.mem_append.mp h' with h' | h'
          · exact inCare_child _ h'
          · exact absurd hO.1 (by rw [List.mem_singleton.mp h']; exact Nat.lt_irrefl _)
        · exact inCare_newChildren p h'
      · rw [goto_thread] at h
        split_ifs at h
        · cases h
        · exact inCare_newThread u h
  | cloneActive t cpu x hr hp => exact hO.goto rfl rfl rfl rfl hsame (hnone rfl)
  | cloneGlobal t cpu x hr hp => exact hO.goto rfl rfl rfl rfl hsame (hnone rfl)
  | kernelThread t cpu uid hr hp =>
      refine hO.of (Nat.le_succ _) inCare_newChildren fun u h => ?_
      rw [goto_thread] at h
      split_ifs at h
      · obtain rfl : s.next = x := Option.some.inj h
        exact absurd hO.1 (Nat.lt_irrefl _)
      · exact inCare_newThread u h
  | kernelGlobal t cpu y hr hp => exact hO.goto rfl rfl rfl rfl hsame fun h => inCare_held hp h
  | kernelChild t cpu y hr hp => exact hO.goto rfl rfl rfl rfl (inCare_give hp rfl) (hnone rfl)
  | detach t cpu y hr hp hx hm =>
      refine hO.goto rfl rfl rfl rfl (herase _ y) fun h => ?_
      cases h
      exact inCare_child _ hx
  | detachGive t cpu y hr hp => exact hO.goto rfl rfl rfl rfl (inCare_give hp rfl) (hnone rfl)
  | join t cpu y hr hp hx =>
      refine hO.goto rfl rfl rfl rfl (herase _ y) fun h => ?_
      cases h
      exact inCare_child _ hx
  | joinBlock t cpu y hr hp => exact hO.set fun h => inCare_held hp h
  | joinBack t cpu y hr hp he => exact hO.goto rfl rfl rfl rfl (inCare_give hp rfl) (hnone rfl)
  | joinReap t cpu y hr hp he => exact hO.goto rfl rfl rfl rfl hsame fun h => inCare_held hp h
  | tryJoin t cpu y hr hp hx he =>
      refine hO.goto rfl rfl rfl rfl (herase _ y) fun h => ?_
      cases h
      exact inCare_child _ hx
  | tryReap t cpu y code hr hp => exact hO.goto rfl rfl rfl rfl hsame fun h => inCare_held hp h
  | delete t cpu y code hr hp => exact hO.goto rfl rfl rfl rfl hsame (hnone rfl)
  | exit t cpu code hr hp => exact hO.goto rfl rfl rfl rfl hsame (hnone rfl)
  | killTake t cpu y code l hr hp hl =>
      refine hO.goto rfl rfl rfl rfl (inCare_take fun z hz => hl ▸ List.mem_append_left _ hz) fun h => ?_
      cases h
      exact inCare_child t (hl ▸ List.mem_append_right _ (List.mem_singleton_self _))
  | killEmpty t cpu code hr hp hl => exact hO.goto rfl rfl rfl rfl hsame (hnone rfl)
  | killBlock t cpu y code hr hp =>
      have hset : (s.set t { s.thread t with state := .join y, pc := .killWait code y }).Out x :=
        hO.set fun h => inCare_held hp h
      refine hset.of (Nat.le_refl _) (inCare_child (s := s.set t _)) fun u h => ?_
      rw [set_thread] at h
      split_ifs at h
      · exact inCare_held rfl h
      · exact inCare_held rfl h
  | killBack t cpu y code hr hp he => exact hO.goto rfl rfl rfl rfl (inCare_give hp rfl) (hnone rfl)
  | killDone t cpu y code hr hp he => exact hO.goto rfl rfl rfl rfl hsame (hnone rfl)
  | finish t cpu code hr hp => exact hO.set (hnone rfl)
  | update cpu k => exact hO.updateEvents k cpu
  | request t y abort hx => exact hO.set fun h => inCare_held rfl h
  | serve t cpu kill abort hr hp => exact hO.set fun h => inCare_held rfl h
  | block t cpu state hr hp hstate => exact hO.set fun h => inCare_held rfl h
  | unlock y hx => exact hO.set fun h => inCare_held rfl h

/-- Behind its `JOIN` a child is through. -/
theorem out_killDone (hP : Placed s) (hs : reapStep s (.killDone t) s') {code : Int}
    (hp : (s.thread t).pc = .killWait code x) : s'.Out x := by
  have hat : s.At (.call t) x := by
    show (s.thread t).pc.holds = some x
    rw [hp]
    rfl
  cases hs with
  | killDone _ cpu y code' hr hp' he =>
      refine ⟨hP.custody.born _ x hat, fun p h => ?_, fun u h => ?_⟩
      · cases hP.custody.single (.child p) (.call t) x h hat
      · rw [goto_thread] at h
        split_ifs at h with hu
        · cases h
        · exact hu (Place.call.inj (hP.custody.single (.call u) (.call t) x h hat))

end Out

end Reaping

end SimpleOS2
