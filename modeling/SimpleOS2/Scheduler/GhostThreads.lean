/-
  File:      SimpleOS2/Scheduler/GhostThreads.lean
  Subject:   THE GLOBAL THREAD LIST (g_GlobalThreadList, ThreadKill and ThreadAbort of scheduler/Scheduler.cpp).

  * `Sys.Waited`, `Sys.Joinable`, `Sys.Published` -- a thread for which a call has waited, one for which a
    call may still wait, and one that is made;
  * `Kept` -- a thread is lost to no one; `kept_step`;
  * `noGhosts` -- the joins come after `CloneThread`, and no `KillChildThreads` has a child to wait for to the end;
  * `no_ghost_threads`, `killed_child_stays` -- the law, and a run without the condition.
-/
import SimpleOS2.Scheduler.Reclamation

namespace SimpleOS2

open Lib

namespace Reaping

/-! ## 1. Threads that are lost to no one -/

/-- A call has waited for the thread: a join, or `KillChildThreads`. -/
def Sys.Waited (s : Sys) (x : Nat) : Prop := x ∈ s.deleted.map Prod.fst ∨ x ∈ s.dropped

/-- The thread is a child, or in the hands of a call that has not reaped it. -/
def Sys.Joinable (s : Sys) (x : Nat) : Prop :=
  (∃ p, x ∈ s.childThreads p) ∨ ∃ t, (s.thread t).pc.holds = some x ∧ ∀ code, (s.thread t).pc ≠ .delete x code

/-- The thread has not come to the end of `ThreadExit`. -/
def ThreadInfo.alive (ti : ThreadInfo) : Prop := ti.state ≠ .finished ∧ ti.state ≠ .exited

/-- The call that made the thread has put it into the global list. -/
def Sys.Published (s : Sys) (x : Nat) : Prop := x < s.next ∧ ∀ t, (s.thread t).pc.cloning ≠ some x

/-- `mainThread` is a thread that is made, and only such a thread has children. -/
structure Made (s : Sys) : Prop where
  init : initThread < s.next
  main : ∀ t, t < s.next → (s.thread t).mainThread < s.next
  children : ∀ p, s.next ≤ p → s.childThreads p = []

structure Kept (s : Sys) : Prop where
  made : Made s
  custody : ∀ x, x < s.next → x ≠ initThread → ∃ a, s.At a x
  published : ∀ x, x < s.next →
    x ∈ s.globalList ∨ s.Erased x ∨ ∃ t, (s.thread t).pc.cloning = some x
  dropped : s.dropped = []
  init : (s.thread initThread).alive

section Kept

variable {s s' : Sys} {t x p cpu : Nat} {pc : Pc} {ti : ThreadInfo}

theorem Made.of (hM : Made s) (hn : s'.next = s.next)
    (ht : ∀ u, (s'.thread u).mainThread = (s.thread u).mainThread)
    (hc : ∀ p, s.next ≤ p → s'.childThreads p = s.childThreads p) : Made s' where
  init := hn ▸ hM.init
  main u hu := by
    rw [hn] at hu ⊢
    rw [ht]
    exact hM.main u hu
  children p hp := by
    rw [hn] at hp
    rw [hc p hp]
    exact hM.children p hp

theorem Made.set (hM : Made s) (hn : s'.next = s.next) (ht : s'.thread = (s.set t ti).thread)
    (hm : ti.mainThread = (s.thread t).mainThread) (hc : s'.childThreads = s.childThreads) : Made s' := by
  refine hM.of hn (fun u => ?_) fun p _ => by rw [hc]
  rw [ht, set_thread]
  split_ifs with hu
  · rw [hm, hu]
  · rfl

theorem Made.setChildren (hM : Made s) (hp : p < s.next) {l : List Nat} :
    Made ((s.setChildren p l).goto t pc) := by
  refine hM.of rfl (fun u => ?_) fun q hq => ?_
  · rw [goto_thread]
    split_ifs with hu
    · rw [hu]
      rfl
    · rfl
  · show Function.update s.childThreads p l q = _
    rw [Function.update_of_ne (by omega)]

/-- One thread takes a step, and what it had is still somewhere. -/
theorem Kept.of (hK : Kept s) (hM : Made s') (t : Nat) (hn : s'.next = s.next) (hd : s'.dropped = s.dropped)
    (hpc : ∀ u, (s'.thread u).pc = (s.thread u).pc ∨ (s.thread u).pc = .running ∨ u = t)
    (hchild : ∀ p x, x ∈ s.childThreads p → ∃ b, s'.At b x)
    (hholds : ∀ x, (s.thread t).pc.holds = some x → ∃ b, s'.At b x)
    (hgone : s.deleted.Sublist s'.deleted)
    (hglobal : ∀ x ∈ s.globalList, x ∈ s'.globalList ∨ s'.Erased x)
    (hdelete : ∀ x code, (s.thread t).pc = .delete x code → s'.Erased x)
    (hcloning : ∀ x, (s.thread t).pc.cloning = some x → (s'.thread t).pc.cloning = some x ∨ x ∈ s'.globalList)
    (hinit : (s'.thread initThread).alive) : Kept s' where
  made := hM
  custody x hx hne := by
    rw [hn] at hx
    obtain ⟨a, h⟩ := hK.custody x hx hne
    cases a with
    | child p => exact hchild p x h
    | call u =>
        have h' : (s.thread u).pc.holds = some x := h
        rcases hpc u with he | he | rfl
        · exact ⟨.call u, by rw [← he] at h'; exact h'⟩
        · rw [he] at h'
          cases h'
        · exact hholds x h'
    | gone => exact ⟨.gone, (hgone.map Prod.fst).subset h⟩
  published x hx := by
    rw [hn] at hx
    rcases hK.published x hx with h | h | ⟨u, h⟩
    · rcases hglobal x h with h | h
      · exact Or.inl h
      · exact Or.inr (Or.inl h)
    · rcases h with ⟨u, c, h⟩ | h
      · rcases hpc u with he | he | rfl
        · exact Or.inr (Or.inl (Or.inl ⟨u, c, he ▸ h⟩))
        · rw [he] at h
          cases h
        · exact Or.inr (Or.inl (hdelete x c h))
      · exact Or.inr (Or.inl (Or.inr ((hgone.map Prod.fst).subset h)))
    · rcases hpc u with he | he | rfl
      · exact Or.inr (Or.inr ⟨u, by rw [← he] at h; exact h⟩)
      · rw [he] at h
        cases h
      · rcases hcloning x h with h | h
        · exact Or.inr (Or.inr ⟨u, h⟩)
        · exact Or.inl h
  dropped := hd.trans hK.dropped
  init := hinit

/-- The same, where the thread only goes on to another place. -/
theorem Kept.goto (hK : Kept s) (hM : Made s') (ht : s'.thread = (s.goto t pc).thread) (hn : s'.next = s.next)
    (hd : s'.dropped = s.dropped) (hchild : ∀ p x, x ∈ s.childThreads p → ∃ b, s'.At b x)
    (hholds : ∀ x, (s.thread t).pc.holds = some x → ∃ b, s'.At b x) (hgone : s.deleted.Sublist s'.deleted)
    (hglobal : ∀ x ∈ s.globalList, x ∈ s'.globalList ∨ s'.Erased x)
    (hdelete : ∀ x code, (s.thread t).pc = .delete x code → s'.Erased x)
    (hcloning : ∀ x, (s.thread t).pc.cloning = some x → pc.cloning = some x ∨ x ∈ s'.globalList) : Kept s' := by
  refine hK.of hM t hn hd (fun u => ?_) hchild hholds hgone hglobal hdelete (fun x h => ?_) ?_
  · rw [ht, goto_thread]
    split_ifs with hu
    · exact Or.inr (Or.inr hu)
    · exact Or.inl rfl
  · rw [ht, goto_thread, if_pos rfl]
    exact hcloning x h
  · rw [ht, goto_thread]
    split_ifs with hi
    · exact hi ▸ hK.init
    · exact hK.init

/-- A thread that holds nothing goes on. -/
theorem Kept.idle (hK : Kept s) (hM : Made s') (ht : s'.thread = (s.set t ti).thread) (hn : s'.next = s.next)
    (hd : s'.dropped = s.dropped) (hc : ∀ p x, x ∈ s.childThreads p → ∃ b, s'.At b x)
    (hgone : s'.deleted = s.deleted) (hglobal : s'.globalList = s.globalList)
    (hholds : (s.thread t).pc.holds = none) (hcloning : (s.thread t).pc.cloning = none)
    (hinit : t = initThread → ti.alive) : Kept s' := by
  refine hK.of hM t hn hd (fun u => ?_) hc (fun x h => ?_) (by rw [hgone]) (fun x h => Or.inl (hglobal ▸ h))
    (fun x c h => ?_) (fun x h => ?_) ?_
  · rw [ht, set_thread]
    split_ifs with hu
    · exact Or.inr (Or.inr hu)
    · exact Or.inl rfl
  · rw [hholds] at h
    cases h
  · rw [h] at hholds
    cases hholds
  · rw [hcloning] at h
    cases h
  · rw [ht, set_thread]
    split_ifs with hi
    · exact hinit hi.symm
    · exact hK.init

/-- A thread changes in itself and stays where it is. -/
theorem Kept.stay (hK : Kept s) (hm : ti.mainThread = (s.thread t).mainThread)
    (hpc : ti.pc.holds = (s.thread t).pc.holds ∧ ti.pc.cloning = (s.thread t).pc.cloning ∧
      ∀ x c, (s.thread t).pc = .delete x c → ti.pc = .delete x c)
    (hinit : t = initThread → ti.alive) : Kept (s.set t ti) := by
  obtain ⟨hh, hc, hd⟩ := hpc
  have hself : ((s.set t ti).thread t).pc = ti.pc := by rw [set_thread, if_pos rfl]
  refine hK.of (hK.made.set rfl rfl hm rfl) t rfl rfl (fun u => ?_) (fun p x h => ⟨.child p, h⟩)
    (fun x h => ⟨.call t, ?_⟩) (List.Sublist.refl _) (fun x h => Or.inl h)
    (fun x c h => Or.inl ⟨t, c, hself.trans (hd x c h)⟩) (fun x h => Or.inl ?_) ?_
  · rw [set_thread]
    split_ifs with hu
    · exact Or.inr (Or.inr hu)
    · exact Or.inl rfl
  · show ((s.set t ti).thread t).pc.holds = some x
    rw [hself, hh, h]
  · rw [hself, hc, h]
  · rw [set_thread]
    split_ifs with hi
    · exact hinit hi.symm
    · exact hK.init

/-- A call puts the thread that it holds into a list of children. -/
theorem Kept.give (hK : Kept s) (hp : p < s.next) (hh : (s.thread t).pc.holds = some x)
    (hc : (s.thread t).pc.cloning = none) (hd : ∀ x c, (s.thread t).pc ≠ .delete x c) :
    Kept ((s.setChildren p (s.childThreads p ++ [x])).goto t pc) := by
  refine hK.goto (hK.made.setChildren hp) (t := t) rfl rfl rfl (fun q y h => ⟨.child q, ?_⟩)
    (fun y h => ⟨.child p, ?_⟩) (List.Sublist.refl _) (fun y h => Or.inl h) (fun y c h => absurd h (hd y c))
    fun y h => ?_
  · show y ∈ Function.update s.childThreads p (s.childThreads p ++ [x]) q
    rw [mem_update_append]
    exact Or.inl h
  · show y ∈ Function.update s.childThreads p (s.childThreads p ++ [x]) p
    rw [mem_update_append]
    cases hh.symm.trans h
    exact Or.inr ⟨rfl, rfl⟩
  · rw [hc] at h
    cases h

/-- A call takes a thread out of a list of children. -/
theorem Kept.take (hK : Kept s) (hlt : p < s.next) {l : List Nat} (hp : (s.thread t).pc.holds = none)
    (hc : (s.thread t).pc.cloning = none) (hl : ∀ y ∈ s.childThreads p, y ∈ l ∨ y = x) (hh : pc.holds = some x) :
    Kept ((s.setChildren p l).goto t pc) := by
  refine hK.idle (hK.made.setChildren hlt) (t := t) rfl rfl rfl (fun q y h => ?_) rfl rfl hp hc fun hi => hi ▸ hK.init
  by_cases hq : q = p
  · subst hq
    rcases hl y h with h | rfl
    · refine ⟨.child q, ?_⟩
      show y ∈ Function.update s.childThreads q l q
      rw [Function.update_self]
      exact h
    · refine ⟨.call t, ?_⟩
      show (((s.setChildren q l).goto t pc).thread t).pc.holds = some y
      rw [goto_thread, if_pos rfl]
      exact hh
  · refine ⟨.child q, ?_⟩
    show y ∈ Function.update s.childThreads p l q
    rw [Function.update_of_ne hq]
    exact h

/-- A call has put the thread into the global list. -/
theorem Kept.publish (hK : Kept s) (hc : (s.thread t).pc.cloning = some x)
    (hh : ∀ y, (s.thread t).pc.holds = some y → pc.holds = some y) (hd : ∀ x c, (s.thread t).pc ≠ .delete x c) :
    Kept (Sys.goto { s with globalList := s.globalList ++ [x] } t pc) := by
  refine hK.goto (hK.made.set (t := t) rfl rfl rfl rfl) (t := t) rfl rfl rfl (fun q y h => ⟨.child q, h⟩)
    (fun y h => ⟨.call t, ?_⟩) (List.Sublist.refl _) (fun y h => Or.inl (List.mem_append_left _ h))
    (fun y c h => absurd h (hd y c)) fun y h => Or.inr ?_
  · show ((Sys.goto { s with globalList := s.globalList ++ [x] } t pc).thread t).pc.holds = some y
    rw [goto_thread, if_pos rfl]
    exact hh y h
  · cases hc.symm.trans h
    exact List.mem_append_right _ (List.mem_singleton_self x)

/-- A join takes the thread out of the global list. -/
theorem Kept.reap (hK : Kept s) {code : Option Int} (hh : (s.thread t).pc.holds = some x)
    (hc : (s.thread t).pc.cloning = none) (hd : ∀ x c, (s.thread t).pc ≠ .delete x c) :
    Kept (Sys.goto { s with globalList := s.globalList.erase x } t (.delete x code)) := by
  have hself : ((Sys.goto { s with globalList := s.globalList.erase x } t (.delete x code)).thread t).pc =
      .delete x code := by
    rw [goto_thread, if_pos rfl]
  refine hK.goto (hK.made.set (t := t) rfl rfl rfl rfl) (t := t) rfl rfl rfl (fun q y h => ⟨.child q, h⟩)
    (fun y h => ⟨.call t, ?_⟩) (List.Sublist.refl _) (fun y h => ?_) (fun y c h => absurd h (hd y c)) fun y h => ?_
  · show ((Sys.goto { s with globalList := s.globalList.erase x } t (.delete x code)).thread t).pc.holds = some y
    rw [hself]
    exact hh.symm.trans h
  · rcases mem_erase_or x h with h | rfl
    · exact Or.inl h
    · exact Or.inr (Or.inl ⟨t, code, hself⟩)
  · rw [hc] at h
    cases h

/-- A thread is made. -/
theorem Kept.newThread (hK : Kept s) (hU : Unborn s) {m uid : Nat} (hr : (s.thread t).pc = .running)
    (hlt : t < s.next) (hm : m ≤ s.next) (hn : s'.next = s.next + 1) (hd : s'.dropped = s.dropped)
    (ht : s'.thread = ((s.newThread m uid).goto t pc).thread) (hpc : pc.cloning = some s.next)
    (hc : ∀ q y, y ∈ s.childThreads q → y ∈ s'.childThreads q) (hmade : ∀ q, s.next < q → s'.childThreads q = [])
    (hnew : ∃ b, s'.At b s.next) (hgone : s'.deleted = s.deleted) (hglobal : s'.globalList = s.globalList) :
    Kept s' := by
  have hself : s'.thread t = { s.thread t with pc := pc } := by
    rw [ht, goto_thread, if_pos rfl, newThread_thread, if_neg (by omega)]
  have hth : ∀ u, u ≠ t → u ≠ s.next → s'.thread u = s.thread u := fun u h1 h2 => by
    rw [ht, goto_thread, if_neg h1, newThread_thread, if_neg h2]
  -- whoever was in one of the calls is still there
  have hcall : ∀ u, (s.thread u).pc = .running ∨ s'.thread u = s.thread u := by
    intro u
    by_cases hut : u = t
    · exact Or.inl (hut ▸ hr)
    · by_cases hun : u = s.next
      · exact Or.inl (hU u (by omega)).2
      · exact Or.inr (hth u hut hun)
  refine ⟨⟨?_, fun u hu => ?_, fun q hq => hmade q (by omega)⟩, fun x hx hne => ?_, fun x hx => ?_,
    hd.trans hK.dropped, ?_⟩
  · have := hK.made.init
    omega
  · rw [hn] at hu ⊢
    by_cases hut : u = t
    · have := hK.made.main t hlt
      rw [hut, hself]
      show (s.thread t).mainThread < _
      omega
    · by_cases hun : u = s.next
      · rw [ht, goto_thread, if_neg hut, newThread_thread, if_pos hun]
        show m < _
        omega
      · have := hK.made.main u (by omega)
        rw [hth u hut hun]
        omega
  · by_cases hxn : x = s.next
    · exact hxn ▸ hnew
    · obtain ⟨a, h⟩ := hK.custody x (by omega) hne
      cases a with
      | child q => exact ⟨.child q, hc q x h⟩
      | call u =>
          have h' : (s.thread u).pc.holds = some x := h
          rcases hcall u with he | he
          · rw [he] at h'
            cases h'
          · rw [← he] at h'
            exact ⟨.call u, h'⟩
      | gone =>
          refine ⟨.gone, ?_⟩
          show x ∈ s'.deleted.map Prod.fst
          rw [hgone]
          exact h
  · by_cases hxn : x = s.next
    · refine Or.inr (Or.inr ⟨t, ?_⟩)
      rw [hself, hxn]
      exact hpc
    · rcases hK.published x (by omega) with h | (⟨u, c, h⟩ | h) | ⟨u, h⟩
      · rw [hglobal]
        exact Or.inl h
      · rcases hcall u with he | he
        · rw [he] at h
          cases h
        · exact Or.inr (Or.inl (Or.inl ⟨u, c, by rw [he, h]⟩))
      · exact Or.inr (Or.inl (Or.inr (by rw [hgone]; exact h)))
      · rcases hcall u with he | he
        · rw [he] at h
          cases h
        · exact Or.inr (Or.inr ⟨u, by rw [he, h]⟩)
  · have hi := hK.made.init
    by_cases hit : initThread = t
    · rw [hit, hself]
      exact hit ▸ hK.init
    · rw [hth _ hit (by omega)]
      exact hK.init

/-- A pass of `UpdateEvents` has nothing to do with the lists other than that of its CPU. -/
structure Quiet (s s' : Sys) : Prop where
  next : s'.next = s.next
  childThreads : s'.childThreads = s.childThreads
  globalList : s'.globalList = s.globalList
  deleted : s'.deleted = s.deleted
  dropped : s'.dropped = s.dropped
  main : ∀ u, (s'.thread u).mainThread = (s.thread u).mainThread
  pc : ∀ u, (s'.thread u).pc = (s.thread u).pc ∨ (s.thread u).pc = .running
  alive : ∀ u, (s.thread u).alive → (s'.thread u).alive

theorem Quiet.refl (s : Sys) : Quiet s s :=
  ⟨rfl, rfl, rfl, rfl, rfl, fun _ => rfl, fun _ => Or.inl rfl, fun _ h => h⟩

theorem Quiet.trans {s'' : Sys} (h : Quiet s s') (h' : Quiet s' s'') : Quiet s s'' where
  next := h'.next.trans h.next
  childThreads := h'.childThreads.trans h.childThreads
  globalList := h'.globalList.trans h.globalList
  deleted := h'.deleted.trans h.deleted
  dropped := h'.dropped.trans h.dropped
  main u := (h'.main u).trans (h.main u)
  pc u := by
    rcases h.pc u with he | he
    · rw [← he]
      exact h'.pc u
    · exact Or.inr he
  alive u hu := h'.alive u (h.alive u hu)

theorem Quiet.set (hm : ti.mainThread = (s.thread t).mainThread)
    (hpc : ti.pc = (s.thread t).pc ∨ (s.thread t).pc = .running) (ha : (s.thread t).alive → ti.alive) :
    Quiet s (s.set t ti) := by
  refine ⟨rfl, rfl, rfl, rfl, rfl, fun u => ?_, fun u => ?_, fun u hu => ?_⟩
  · rw [set_thread]
    split_ifs with h
    · rw [hm, h]
    · rfl
  · rw [set_thread]
    split_ifs with h
    · exact h ▸ hpc
    · exact Or.inl rfl
  · rw [set_thread]
    split_ifs with h
    · exact ha (h ▸ hu)
    · exact hu

theorem quiet_updateThread (k : Tick) (cpu : Nat) (s : Sys) (t : Nat) : Quiet s (updateThread k cpu s t) := by
  have hwake : ∀ state rax, state ≠ .finished → state ≠ .exited →
      Quiet s (s.set t { s.thread t with state := state, rax := rax }) :=
    fun state rax h1 h2 => Quiet.set rfl (Or.inl rfl) fun _ => ⟨h1, h2⟩
  unfold updateThread
  dsimp only
  split
  · exact Quiet.refl s
  · rename_i hst
    have hq : Quiet s (s.set t { s.thread t with state := .exited }) :=
      Quiet.set rfl (Or.inl rfl) fun h => absurd hst h.1
    exact ⟨rfl, rfl, rfl, rfl, rfl, hq.main, hq.pc, hq.alive⟩
  · split_ifs with hu hexits
    · exact Quiet.set rfl (Or.inr hu.2) fun h => h
    · exact Quiet.set rfl (Or.inr hu.2) fun h => h
    · exact Quiet.refl s
  · exact Quiet.refl s
  · split_ifs
    · exact hwake .ready ErrorInterrupted (by simp) (by simp)
    · exact hwake .ready OK (by simp) (by simp)
    · exact hwake (.sleep _) (s.thread t).rax (by simp) (by simp)
  · split_ifs
    · exact hwake .ready ErrorInterrupted (by simp) (by simp)
    · exact hwake .ready 0 (by simp) (by simp)
    · exact Quiet.refl s

theorem quiet_updateEvents (k : Tick) (cpu : Nat) (s : Sys) : Quiet s (updateEvents k cpu s) := by
  have hfold : ∀ (l : List Nat) (s : Sys), Quiet s (l.foldl (updateThread k cpu) s) := by
    intro l
    induction l with
    | nil => exact Quiet.refl
    | cons t l ih => exact fun s => (quiet_updateThread k cpu s t).trans (ih _)
  exact hfold _ s

theorem Kept.quiet (hK : Kept s) (hq : Quiet s s') : Kept s' := by
  have hcall : ∀ u x, (s.thread u).pc.holds = some x → (s'.thread u).pc.holds = some x := by
    intro u x h
    rcases hq.pc u with he | he
    · rw [he, h]
    · rw [he] at h
      cases h
  refine hK.of (hK.made.of hq.next hq.main fun p _ => by rw [hq.childThreads]) initThread hq.next hq.dropped
    (fun u => (hq.pc u).imp_right Or.inl) (fun p x h => ⟨.child p, ?_⟩) (fun x h => ⟨.call _, hcall _ x h⟩)
    (by rw [hq.deleted]) (fun x h => Or.inl (hq.globalList ▸ h)) (fun x c h => ?_) (fun x h => ?_)
    (hq.alive _ hK.init)
  · show x ∈ s'.childThreads p
    rw [hq.childThreads]
    exact h
  · rcases hq.pc initThread with he | he
    · exact Or.inl ⟨_, c, he.trans h⟩
    · rw [he] at h
      cases h
  · rcases hq.pc initThread with he | he
    · exact Or.inl (by rw [he, h])
    · rw [he] at h
      cases h

end Kept

/-! ## 2. Runs -/

/-- The joins come after `CloneThread`; no `KillChildThreads` waits for a child to the end; `g_InitThread` goes on. -/
def noGhosts (s : Sys) : Event → Prop
  | .killDone _ => False
  | .finish t => t ≠ initThread
  | e => joinsPublished s e

theorem noGhosts_joins (s : Sys) (e : Event) (h : noGhosts s e) : joinsPublished s e := by
  cases e <;> first
    | exact h
    | trivial

theorem kept_step (s : Sys) (e : Event) (s' : Sys) (hI : Inv s) (hK : Kept s)
    (hs : Guarded reapStep noGhosts s e s') : Kept s' := by
  obtain ⟨hs, hg⟩ := hs
  have hM := hK.made
  have hborn : ∀ {t cpu}, s.Runs t cpu → t < s.next := fun hr => hI.lists.born hr
  have hmain : ∀ {t cpu}, s.Runs t cpu → (s.thread t).mainThread < s.next := fun hr => hM.main _ (hborn hr)
  have hinit := hM.init
  -- a thread takes a step that no list sees
  have hgoto : ∀ {t pc}, (s.thread t).pc.holds = none → (s.thread t).pc.cloning = none → Kept (s.goto t pc) :=
    fun {t pc} h1 h2 => hK.idle (hM.set (t := t) rfl rfl rfl rfl) (t := t) rfl rfl rfl (fun q x h => ⟨.child q, h⟩) rfl
      rfl h1 h2 fun hi => hi ▸ hK.init
  cases hs with
  | clone t cpu subthread hr hp =>
      have hlt := hborn hr
      have hmt := hmain hr
      refine hK.newThread hI.unborn hp hlt ?_ rfl rfl rfl rfl (fun q y h => ?_) (fun q hq => ?_)
        ⟨.child (s.thread t).mainThread, ?_⟩ rfl rfl
      · split_ifs
        · omega
        · exact Nat.le_refl _
      · show y ∈ Function.update (Function.update s.childThreads s.next []) _ _ q
        rw [Function.update_apply, Function.update_apply]
        split_ifs with h1 h2
        · exact List.mem_append_left _ (h1 ▸ h)
        · rw [h2, hM.children s.next (Nat.le_refl _)] at h
          cases h
        · exact h
      · show Function.update (Function.update s.childThreads s.next []) _ _ q = []
        rw [Function.update_of_ne (by omega), Function.update_of_ne (by omega)]
        exact hM.children q (by omega)
      · show s.next ∈ Function.update (Function.update s.childThreads s.next []) _ _ (s.thread t).mainThread
        rw [Function.update_self]
        exact List.mem_append_right _ (List.mem_singleton_self _)
  | cloneActive t cpu x hr hp =>
      have hq : Kept (s.goto t (.cloneGlobal x)) := hK.stay rfl
        ⟨by rw [hp]; rfl, by rw [hp]; rfl, fun y c h => by rw [hp] at h; cases h⟩ fun hi => hi ▸ hK.init
      exact hq.quiet ⟨rfl, rfl, rfl, rfl, rfl, fun _ => rfl, fun _ => Or.inl rfl, fun _ h => h⟩
  | cloneGlobal t cpu x hr hp =>
      exact hK.publish (by rw [hp]; rfl) (fun y h => by rw [hp] at h; cases h) fun y c h => by rw [hp] at h; cases h
  | kernelThread t cpu uid hr hp =>
      have hlt := hborn hr
      refine hK.newThread hI.unborn hp hlt (Nat.le_refl _) rfl rfl rfl rfl (fun q y h => ?_) (fun q hq => ?_)
        ⟨.call t, ?_⟩ rfl rfl
      · show y ∈ Function.update s.childThreads s.next [] q
        rw [Function.update_apply]
        split_ifs with h2
        · rw [h2, hM.children s.next (Nat.le_refl _)] at h
          cases h
        · exact h
      · show Function.update s.childThreads s.next [] q = []
        rw [Function.update_of_ne (by omega)]
        exact hM.children q (by omega)
      · show ((((s.newThread s.next uid).setActive cpu (s.activeList cpu ++ [s.next])).goto t
          (.kernelGlobal s.next)).thread t).pc.holds = some s.next
        rw [goto_thread, if_pos rfl]
        rfl
  | kernelGlobal t cpu x hr hp =>
      exact hK.publish (by rw [hp]; rfl) (fun y h => by rw [hp] at h; exact h)
        fun y c h => by rw [hp] at h; cases h
  | kernelChild t cpu x hr hp =>
      exact hK.give hinit (by rw [hp]; rfl) (by rw [hp]; rfl) fun y c h => by rw [hp] at h; cases h
  | detach t cpu x hr hp hx hm =>
      exact hK.take (hmain hr) (by rw [hp]; rfl) (by rw [hp]; rfl) (fun y h => mem_erase_or x h) rfl
  | detachGive t cpu x hr hp =>
      exact hK.give hinit (by rw [hp]; rfl) (by rw [hp]; rfl) fun y c h => by rw [hp] at h; cases h
  | join t cpu x hr hp hx =>
      exact hK.take (hmain hr) (by rw [hp]; rfl) (by rw [hp]; rfl) (fun y h => mem_erase_or x h) rfl
  | joinBlock t cpu x hr hp =>
      exact hK.stay rfl ⟨by rw [hp]; rfl, by rw [hp]; rfl, fun y c h => by rw [hp] at h; cases h⟩
        fun _ => ⟨fun h => (by cases h), fun h => (by cases h)⟩
  | joinBack t cpu x hr hp he =>
      exact hK.give (hmain hr) (by rw [hp]; rfl) (by rw [hp]; rfl) fun y c h => by rw [hp] at h; cases h
  | joinReap t cpu x hr hp he =>
      exact hK.reap (by rw [hp]; rfl) (by rw [hp]; rfl) fun y c h => by rw [hp] at h; cases h
  | tryJoin t cpu x hr hp hx he =>
      exact hK.take (hmain hr) (by rw [hp]; rfl) (by rw [hp]; rfl) (fun y h => mem_erase_or x h) rfl
  | tryReap t cpu x code hr hp =>
      exact hK.reap (by rw [hp]; rfl) (by rw [hp]; rfl) fun y c h => by rw [hp] at h; cases h
  | delete t cpu x code hr hp =>
      have hdel : ∀ y c, (s.thread t).pc = .delete y c → y ∈ (s.deleted ++ [(x, code.getD (s.thread x).exitCode)]).map
          Prod.fst := by
        intro y c h
        rw [hp] at h
        cases h
        simp
      refine hK.goto (hM.set (t := t) rfl rfl rfl rfl) (t := t) rfl rfl rfl (fun q y h => ⟨.child q, h⟩)
        (fun y h => ⟨.gone, ?_⟩) (List.sublist_append_left _ _) (fun y h => Or.inl h)
        (fun y c h => Or.inr (hdel y c h)) fun y h => by rw [hp] at h; cases h
      rw [hp] at h
      cases h
      exact hdel x code hp
  | exit t cpu code hr hp => exact hgoto (by rw [hp]; rfl) (by rw [hp]; rfl)
  | killTake t cpu x code l hr hp hl =>
      refine hK.take (hborn hr) (by rw [hp]; rfl) (by rw [hp]; rfl) (fun y h => ?_) rfl
      rw [hl] at h
      exact (List.mem_append.mp h).imp_right List.mem_singleton.mp
  | killEmpty t cpu code hr hp hl => exact hgoto (by rw [hp]; rfl) (by rw [hp]; rfl)
  | killBlock t cpu x code hr hp =>
      have hq : Kept (s.set t { s.thread t with state := .join x, pc := .killWait code x }) :=
        hK.stay rfl ⟨by rw [hp]; rfl, by rw [hp]; rfl, fun y c h => by rw [hp] at h; cases h⟩
          fun _ => ⟨fun h => (by cases h), fun h => (by cases h)⟩
      exact hq.stay rfl ⟨rfl, rfl, fun _ _ h => h⟩ fun hi => hi ▸ hq.init
  | killBack t cpu x code hr hp he =>
      exact hK.give (hborn hr) (by rw [hp]; rfl) (by rw [hp]; rfl) fun y c h => by rw [hp] at h; cases h
  | killDone t cpu x code hr hp he => exact hg.elim
  | finish t cpu code hr hp =>
      exact hK.stay rfl ⟨by rw [hp]; rfl, by rw [hp]; rfl, fun y c h => by rw [hp] at h; cases h⟩
        fun hi => absurd hi hg
  | update cpu k => exact hK.quiet (quiet_updateEvents k cpu s)
  | request t x abort hx => exact hK.stay rfl ⟨rfl, rfl, fun _ _ h => h⟩ fun hi => hi ▸ hK.init
  | serve t cpu kill abort hr hp => exact hK.stay rfl ⟨rfl, rfl, fun _ _ h => h⟩ fun hi => hi ▸ hK.init
  | block t cpu state hr hp hstate =>
      refine hK.stay rfl ⟨rfl, rfl, fun _ _ h => h⟩ fun _ => ?_
      rcases hstate with rfl | ⟨arg, rfl⟩
      · exact ⟨fun h => (by cases h), fun h => (by cases h)⟩
      · exact ⟨fun h => (by cases h), fun h => (by cases h)⟩
  | unlock x hx =>
      exact hK.stay rfl ⟨rfl, rfl, fun _ _ h => h⟩ fun _ => ⟨fun h => (by cases h), fun h => (by cases h)⟩

theorem kept_init (s : Sys) (h : reapInit s) : Kept s := by
  obtain ⟨h0, hn, hth, hch, -, hg, -, hd⟩ := h
  have hx0 : ∀ x, x < s.next → x = initThread := fun x hx => by
    rw [hn] at hx
    exact Nat.lt_one_iff.mp hx
  refine ⟨⟨?_, fun t ht => ?_, fun p _ => hch p⟩, fun x hx hne => absurd (hx0 x hx) hne, fun x hx => Or.inl ?_, hd, ?_⟩
  · rw [hn]
    exact Nat.one_pos
  · rw [hx0 t ht, h0, hn]
    exact Nat.one_pos
  · rw [hg, hx0 x hx]
    exact List.mem_singleton_self _
  · rw [ThreadInfo.alive, (hth initThread).2]
    exact ⟨by simp, by simp⟩

theorem kept_reach {s : Sys} (h : Reach (Guarded reapStep noGhosts) reapInit s) : Inv s ∧ Kept s := by
  have hinv : ∀ {s}, Reach (Guarded reapStep noGhosts) reapInit s → Inv s := fun h =>
    inv_reach (h.mono (fun _ h => h) fun s e _ hs => ⟨hs.1, noGhosts_joins s e hs.2⟩)
  exact ⟨hinv h, h.invStep kept_init fun s e s' hr hK hs => kept_step s e s' (hinv hr) hK hs⟩

/-! ## 3. The law -/

/-- **No ghost threads.** Who has been waited for is not in the global list, which has the threads that run and
    those for which a call may still wait. -/
theorem no_ghost_threads {s : Sys} (h : Reach (Guarded reapStep noGhosts) reapInit s) :
    (∀ x, s.Waited x → x ∉ s.globalList ∧ ∀ uid, threadKill s uid x = ErrorThreadNotFound) ∧
      ∀ x, x ∈ s.globalList ↔ s.Published x ∧ ((s.thread x).state ≠ .exited ∨ s.Joinable x) := by
  obtain ⟨hI, hK⟩ := kept_reach h
  have hwaited : ∀ x, s.Waited x → x ∉ s.globalList := by
    intro x hx
    rcases hx with hx | hx
    · exact (hI.lists.erased x (Or.inr hx)).2.1
    · rw [hK.dropped] at hx
      cases hx
  refine ⟨fun x hx => ⟨hwaited x hx, fun uid => if_neg (hwaited x hx)⟩, fun x => ⟨fun hx => ?_, fun hx => ?_⟩⟩
  · have hborn := hI.lists.globalBorn x hx
    refine ⟨⟨hborn, fun t hc => (hI.lists.cloning t x hc).2 hx⟩, ?_⟩
    by_cases hexited : (s.thread x).state = .exited
    · have hne : x ≠ initThread := fun e => hK.init.2 (e ▸ hexited)
      have herased : ¬ s.Erased x := fun he => (hI.lists.erased x he).2.1 hx
      obtain ⟨a, ha⟩ := hK.custody x hborn hne
      cases a with
      | child p => exact Or.inr (Or.inl ⟨p, ha⟩)
      | call t => exact Or.inr (Or.inr ⟨t, ha, fun code hpc => herased (Or.inl ⟨t, code, hpc⟩)⟩)
      | gone => exact absurd (Or.inr ha) herased
    · exact Or.inl hexited
  · obtain ⟨⟨hborn, hcl⟩, hx⟩ := hx
    rcases hK.published x hborn with h | herased | ⟨t, h⟩
    · exact h
    · -- a join has erased the thread: it has ended, and is in no other hands
      exfalso
      have hat : ∃ b, s.At b x ∧ ∀ t, b = .call t → ∃ code, (s.thread t).pc = .delete x code := by
        rcases herased with ⟨t, code, h⟩ | h
        · refine ⟨.call t, ?_, fun u hu => ⟨code, by cases hu; exact h⟩⟩
          show (s.thread t).pc.holds = some x
          rw [h]
          rfl
        · exact ⟨.gone, h, fun t h => by cases h⟩
      have hexited : (s.thread x).state = .exited := by
        rcases herased with ⟨t, code, h⟩ | h
        · exact hI.states.delete t x code h
        · obtain ⟨⟨y, d⟩, hy, rfl⟩ := List.mem_map.mp h
          exact (hI.states.code y d (Or.inr (Or.inr hy))).1
      obtain ⟨b, hb, hbt⟩ := hat
      rcases hx with hx | ⟨p, hp⟩ | ⟨t, ht, hnot⟩
      · exact hx hexited
      · have heq := hI.custody.single (.child p) b x hp hb
        subst heq
        rcases herased with ⟨t, code, h⟩ | h
        · cases hI.custody.single (.child p) (.call t) x hp (show (s.thread t).pc.holds = some x by rw [h]; rfl)
        · cases hI.custody.single (.child p) .gone x hp h
      · have heq := hI.custody.single (.call t) b x ht hb
        obtain ⟨code, hpc⟩ := hbt t heq.symm
        exact hnot code hpc
    · exact absurd h (hcl t)

/-- A thread is cloned, exits and is joined by `ThreadTryJoin`. -/
theorem no_ghost_threads_tryJoin : ∃ s, Reach (Guarded reapStep noGhosts) reapInit s ∧
    (s.thread 1).state = .exited ∧ s.Waited 1 ∧ 1 ∉ s.globalList ∧ threadKill s 0 1 = ErrorThreadNotFound := by
  have h : Reach (Guarded reapStep noGhosts) reapInit oneThread := .start _ oneThread_init
  have h := h.guarded (.clone _ 0 0 true ⟨by decide, rfl⟩ rfl) trivial
  have h := h.guarded (.cloneActive _ 0 0 1 ⟨by decide, rfl⟩ rfl) trivial
  have h := h.guarded (.cloneGlobal _ 0 0 1 ⟨by decide, rfl⟩ rfl) trivial
  have h := h.guarded (.exit _ 1 0 7 ⟨by decide, rfl⟩ rfl) trivial
  have h := h.guarded (.killEmpty _ 1 0 7 ⟨by decide, rfl⟩ rfl rfl) trivial
  have h := h.guarded (.finish _ 1 0 7 ⟨by decide, rfl⟩ rfl) Nat.one_ne_zero
  have h := h.guarded (.update _ 0 noTick) trivial
  have h := h.guarded (.tryJoin _ 0 0 1 ⟨by decide, rfl⟩ rfl (by decide) rfl) trivial
  have h := h.guarded (.tryReap _ 0 0 1 7 ⟨by decide, rfl⟩ rfl) fun x code hx => by cases hx; decide
  have h := h.guarded (.delete _ 0 0 1 (some 7) ⟨by decide, rfl⟩ rfl) trivial
  refine ⟨_, h, rfl, Or.inl (by decide), ?_⟩
  obtain ⟨hout, hkill⟩ := (no_ghost_threads h).1 1 (Or.inl (by decide))
  exact ⟨hout, hkill 0⟩

/-- A process exits while its child runs; the child is in the global list for good. -/
theorem killed_child_stays : ∃ s, Reach reapStep reapInit s ∧ (s.thread 2).state = .exited ∧ s.Waited 2 ∧
    2 ∈ s.globalList ∧ threadKill s 0 2 = OK := by
  have h : Reach reapStep reapInit oneThread := .start _ oneThread_init
  have h := h.next _ _ _ (.clone _ 0 0 false ⟨by decide, rfl⟩ rfl)
  have h := h.next _ _ _ (.cloneActive _ 0 0 1 ⟨by decide, rfl⟩ rfl)
  have h := h.next _ _ _ (.cloneGlobal _ 0 0 1 ⟨by decide, rfl⟩ rfl)
  have h := h.next _ _ _ (.clone _ 1 0 false ⟨by decide, rfl⟩ rfl)
  have h := h.next _ _ _ (.cloneActive _ 1 0 2 ⟨by decide, rfl⟩ rfl)
  have h := h.next _ _ _ (.cloneGlobal _ 1 0 2 ⟨by decide, rfl⟩ rfl)
  have h := h.next _ _ _ (.exit _ 1 0 0 ⟨by decide, rfl⟩ rfl)
  have h := h.next _ _ _ (.killTake _ 1 0 2 0 [] ⟨by decide, rfl⟩ rfl rfl)
  have h := h.next _ _ _ (.killBlock _ 1 0 2 0 ⟨by decide, rfl⟩ rfl)
  -- the child is interrupted in user mode, and takes the request
  have h := h.next _ _ _ (.update _ 0 ⟨0, fun _ => true, fun _ => false⟩)
  have h := h.next _ _ _ (.killEmpty _ 2 0 1 ⟨by decide, rfl⟩ rfl rfl)
  have h := h.next _ _ _ (.finish _ 2 0 1 ⟨by decide, rfl⟩ rfl)
  have h := h.next _ _ _ (.update _ 0 noTick)
  have h := h.next _ _ _ (.update _ 0 noTick)
  have h := h.next _ _ _ (.killDone _ 1 0 2 0 ⟨by decide, rfl⟩ rfl rfl)
  exact ⟨_, h, rfl, Or.inr (by decide), by decide, by decide⟩

end Reaping

end SimpleOS2
