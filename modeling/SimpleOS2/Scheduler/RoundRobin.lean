/-
  File:      SimpleOS2/Scheduler/RoundRobin.lean
  Subject:   A READY THREAD IS CHOSEN IN ITS TURN (FindNextThread, ktl/AnchorList.h).

  `FindNextThread` takes the first `READY` thread of the active list and puts it at the end. What stands
  behind a thread does not matter to it, and what stands in front gets less with every call.

  * `findNextThread_turn` -- a call chooses `t` or takes a thread in front of it away;
  * `Rest`, `Between` -- what the others do between two calls; `updateEvents_between` -- the pass before a
    call in `Tick` is of that kind;
  * `Calls`, `calls_chosen`, `round_robin` -- the bound for every run of calls;
  * `findNextLinks`, `findNextLinks_rep` -- the same call on the links of the list.
-/
import Mathlib.Data.List.Pairwise
import SimpleOS2.Lib.IntrusiveList
import SimpleOS2.Scheduler.Switch

namespace SimpleOS2

open Lib

namespace Scheduler

/-! ## 1. One call -/

/-- The thread can be chosen. -/
def Ready (c : Cpu) (t : Nat) : Prop := (c.thread t).state = .READY

instance (c : Cpu) (t : Nat) : Decidable (Ready c t) :=
  inferInstanceAs (Decidable ((c.thread t).state = .READY))

/-- **A call with a `READY` thread in the list**: the first one moves to the end. -/
theorem findNextThread_some {c : Cpu} {u : Nat} (hu : u ∈ c.activeList) (hr : Ready c u) :
    ∃ pre x post, c.activeList = pre ++ x :: post ∧ Ready c x ∧ (∀ y ∈ pre, ¬ Ready c y) ∧
      findNextThread c = ({ c with activeList := pre ++ post ++ [x] }, x) := by
  unfold findNextThread
  split
  · next x hx =>
      obtain ⟨hp, pre, post, hl, hpre⟩ := List.find?_eq_some_iff_append.mp hx
      have hpre : ∀ y ∈ pre, ¬ Ready c y := fun y hy => by simpa [Ready] using hpre y hy
      have hx : Ready c x := of_decide_eq_true hp
      have hnot : x ∉ pre := fun h => hpre x h hx
      refine ⟨pre, x, post, hl, hx, hpre, ?_⟩
      rw [hl, List.erase_append_right _ hnot, List.erase_cons_head]
  · next hx => exact absurd (decide_eq_true hr) (List.find?_eq_none.mp hx u hu)

/-- A call without one. -/
theorem findNextThread_idle {c : Cpu} (h : ∀ u ∈ c.activeList, ¬ Ready c u) :
    findNextThread c = (c, idleThread) := by
  unfold findNextThread
  have hx : (c.activeList.find? fun t => (c.thread t).state = .READY) = none :=
    List.find?_eq_none.mpr fun u hu hd => h u hu (of_decide_eq_true hd)
  rw [hx]

/-- The idle thread is not in the list; it is chosen exactly where no thread of the list is `READY`. -/
theorem findNextThread_idle_iff {c : Cpu} (hc : idleThread ∉ c.activeList) :
    (findNextThread c).2 = idleThread ↔ ∀ u ∈ c.activeList, ¬ Ready c u := by
  constructor
  · intro h u hu hr
    obtain ⟨pre, x, post, hl, -, -, he⟩ := findNextThread_some hu hr
    rw [he] at h
    exact hc (hl ▸ h ▸ List.mem_append_right pre List.mem_cons_self)
  · intro h
    rw [findNextThread_idle h]

/-- **A call chooses `t` or brings it one place forward.** -/
theorem findNextThread_turn {c : Cpu} {t : Nat} (ht : t ∈ c.activeList) (hr : Ready c t) :
    (findNextThread c).2 = t ∨ t ∈ (findNextThread c).1.activeList ∧
      (findNextThread c).1.activeList.idxOf t + 1 = c.activeList.idxOf t := by
  obtain ⟨pre, x, post, hl, -, hpre, he⟩ := findNextThread_some ht hr
  rw [he, hl]
  by_cases hx : x = t
  · exact Or.inl hx
  · have hnot : t ∉ pre := fun h => hpre t h hr
    have hpost : t ∈ post := by
      rcases List.mem_append.mp (hl ▸ ht) with h | h
      · exact absurd h hnot
      · exact (List.mem_cons.mp h).resolve_left (Ne.symm hx)
    refine Or.inr ⟨List.mem_append_left _ (List.mem_append_right _ hpost), ?_⟩
    show (pre ++ post ++ [x]).idxOf t + 1 = (pre ++ x :: post).idxOf t
    rw [List.append_assoc, List.idxOf_append_of_notMem hnot, List.idxOf_append_of_mem hpost,
      List.idxOf_append_of_notMem hnot, List.idxOf_cons_ne _ hx]
    omega

/-! ## 2. Between two calls -/

/-- What happens to the list apart from the thread `t`: another thread is appended or taken out. -/
inductive Rest (t : Nat) : List Nat → List Nat → Prop where
  | refl (l : List Nat) : Rest t l l
  | append {l l' : List Nat} (u : Nat) (hu : u ≠ t) (h : Rest t l l') : Rest t l (l' ++ [u])
  | erase {l : List Nat} (pre : List Nat) (u : Nat) (post : List Nat) (hu : u ≠ t)
      (h : Rest t l (pre ++ u :: post)) : Rest t l (pre ++ post)

/-- Between two calls `t` stays `READY`; the others change as they like. -/
structure Between (t : Nat) (c c' : Cpu) : Prop where
  list : Rest t c.activeList c'.activeList
  ready : Ready c' t

/-- **What the others do brings `t` no place backward.** -/
theorem Rest.idxOf_le {t : Nat} {l l' : List Nat} (h : Rest t l l') (ht : t ∈ l) :
    t ∈ l' ∧ l'.idxOf t ≤ l.idxOf t := by
  induction h with
  | refl => exact ⟨ht, Nat.le_refl _⟩
  | append u hu _ ih =>
      refine ⟨List.mem_append_left _ ih.1, ?_⟩
      rw [List.idxOf_append_of_mem ih.1]
      exact ih.2
  | erase pre u post hu _ ih =>
      obtain ⟨hm, hle⟩ := ih
      by_cases hpre : t ∈ pre
      · refine ⟨List.mem_append_left _ hpre, ?_⟩
        rw [List.idxOf_append_of_mem hpre] at hle ⊢
        exact hle
      · have hpost : t ∈ post :=
          (List.mem_cons.mp ((List.mem_append.mp hm).resolve_left hpre)).resolve_left (Ne.symm hu)
        refine ⟨List.mem_append_right _ hpost, ?_⟩
        rw [List.idxOf_append_of_notMem hpre] at hle ⊢
        rw [List.idxOf_cons_ne _ hu] at hle
        omega

theorem Rest.cons {t : Nat} {l l' : List Nat} (h : Rest t l l') (a : Nat) : Rest t (a :: l) (a :: l') := by
  induction h with
  | refl => exact .refl _
  | @append m u hu _ ih => exact @Rest.append t (a :: l) (a :: m) u hu ih
  | erase pre u post hu _ ih => exact .erase (a :: pre) u post hu ih

theorem Rest.trans {t : Nat} {l l1 l2 : List Nat} (h : Rest t l l1) (h' : Rest t l1 l2) : Rest t l l2 := by
  induction h' with
  | refl => exact h
  | append u hu _ ih => exact .append u hu ih
  | erase pre u post hu _ ih => exact .erase pre u post hu ih

/-- A pass of `UpdateEvents` takes threads out that are `FINISHED`, and `t` is not. -/
theorem updateList_rest {dur t : Nat} {l : List Nat} {thread : Nat → ThreadInfo} (hnd : l.Nodup)
    (hr : t ∈ l → (thread t).state ≠ .FINISHED) : Rest t l (updateList dur l thread).2 := by
  induction l generalizing thread with
  | nil => exact .refl _
  | cons a rest ih =>
      obtain ⟨ha, hnd⟩ := List.nodup_cons.mp hnd
      have hother : ∀ (f : ThreadInfo), t ∈ rest → (Function.update thread a f t).state ≠ .FINISHED := by
        intro f ht
        have hta : t ≠ a := fun e => ha (e ▸ ht)
        rw [Function.update_of_ne hta]
        exact hr (List.mem_cons_of_mem _ ht)
      unfold updateList
      split_ifs with h1 h2
      · exact (ih hnd fun ht => hr (List.mem_cons_of_mem _ ht)).cons a
      · have hat : a ≠ t := fun e => hr (e ▸ List.mem_cons_self) (e ▸ h2)
        exact Rest.erase [] a _ hat ((ih hnd (hother _)).cons a)
      · exact (ih hnd (hother _)).cons a

theorem setupKillHandlerFromTick_state (ti : ThreadInfo) : (setupKillHandlerFromTick ti).state = ti.state := by
  unfold setupKillHandlerFromTick
  split_ifs <;> rfl

theorem deliver_state (ti : ThreadInfo) : (deliver ti).state = ti.state := by
  simp only [deliver]
  split_ifs <;> simp only [setupKillHandlerFromTick_state]

theorem updateThread_ready {thread : Nat → ThreadInfo} {dur : Nat} {ti : ThreadInfo}
    (h : ti.state = .READY) : (updateThread thread dur ti).state = .READY := by
  rw [updateThread, if_pos h, deliver_state, h]

theorem updateList_ready {dur t : Nat} {l : List Nat} {thread : Nat → ThreadInfo}
    (hr : (thread t).state = .READY) : ((updateList dur l thread).1 t).state = .READY := by
  induction l generalizing thread with
  | nil => exact hr
  | cons a rest ih =>
      unfold updateList
      split_ifs with h1 h2
      · exact ih hr
      · have hta : t ≠ a := fun e => by rw [← e, hr] at h2; cases h2
        exact ih (by rw [Function.update_of_ne hta]; exact hr)
      · refine ih ?_
        by_cases hta : t = a
        · subst hta
          rw [Function.update_self]
          exact updateThread_ready hr
        · rw [Function.update_of_ne hta]
          exact hr

/-- **The pass of a tick before it chooses is one of the things that may come between.** -/
theorem updateEvents_between {c : Cpu} {t : Nat} (hnd : c.activeList.Nodup) (hr : Ready c t) (tsc : Nat) :
    Between t c (updateEvents c tsc) := by
  have hne : (c.thread t).state ≠ .FINISHED := by
    rw [show (c.thread t).state = .READY from hr]
    decide
  exact ⟨updateList_rest hnd fun _ => hne, updateList_ready hr⟩

/-! ## 3. Runs of calls -/

/-- Calls one after the other, with their results; before each of them the others do something. -/
inductive Calls (t : Nat) : Cpu → List Nat → Cpu → Prop where
  | done (c : Cpu) : Calls t c [] c
  | call {c c1 c' : Cpu} {results : List Nat} (h : Between t c c1)
      (hc : Calls t (findNextThread c1).1 results c') : Calls t c ((findNextThread c1).2 :: results) c'

/-- More calls than threads in front of `t` choose `t`. -/
theorem calls_chosen {t : Nat} {c c' : Cpu} {results : List Nat} (h : Calls t c results c')
    (ht : t ∈ c.activeList) (hlen : c.activeList.idxOf t < results.length) : t ∈ results := by
  induction h with
  | done => exact absurd hlen (Nat.not_lt_zero _)
  | @call c c1 c' results hb _ ih =>
      obtain ⟨hm, hle⟩ := hb.list.idxOf_le ht
      rcases findNextThread_turn hm hb.ready with h1 | ⟨h1, h2⟩
      · exact h1 ▸ List.mem_cons_self
      · refine List.mem_cons_of_mem _ (ih h1 ?_)
        rw [List.length_cons] at hlen
        omega

theorem idxOf_le_of_getElem? {l : List Nat} {t k : Nat} (h : l[k]? = some t) : l.idxOf t ≤ k := by
  obtain ⟨hk, rfl⟩ := List.getElem?_eq_some_iff.mp h
  by_contra hlt
  have := List.not_of_lt_findIdx (p := (· == l[k])) (Nat.lt_of_not_le hlt)
  simp at this

/-- **Round robin**: the thread at index `k` is among the results of the next `k + 1` calls; a call
    returns the idle thread exactly where no thread of the list is `READY`, and elsewhere the thread it
    chooses moves to the end and the others keep their order. -/
theorem round_robin (t : Nat) :
    (∀ (c c' : Cpu) (k : Nat) (results : List Nat), c.activeList[k]? = some t → Ready c t →
      Calls t c results c' → results.length = k + 1 → t ∈ results) ∧
    ∀ c : Cpu, idleThread ∉ c.activeList →
      ((findNextThread c).2 = idleThread ↔ ∀ u ∈ c.activeList, ¬ Ready c u) ∧
      ((findNextThread c).2 = idleThread → (findNextThread c).1 = c) ∧
      ((findNextThread c).2 ≠ idleThread → ∃ pre post, c.activeList = pre ++ (findNextThread c).2 :: post ∧
        (findNextThread c).1 = { c with activeList := pre ++ post ++ [(findNextThread c).2] }) := by
  constructor
  · intro c c' k results hk _ hcalls hlen
    refine calls_chosen hcalls (List.mem_of_getElem? hk) ?_
    rw [hlen]
    exact Nat.lt_succ_of_le (idxOf_le_of_getElem? hk)
  · intro c hc
    refine ⟨findNextThread_idle_iff hc, fun h => ?_, fun h => ?_⟩
    · rw [findNextThread_idle ((findNextThread_idle_iff hc).mp h)]
    · rw [Ne, findNextThread_idle_iff hc] at h
      obtain ⟨u, hu, hr⟩ : ∃ u ∈ c.activeList, Ready c u := by
        by_contra hno
        exact h fun u hu hr => hno ⟨u, hu, hr⟩
      obtain ⟨pre, x, post, hl, -, -, he⟩ := findNextThread_some hu hr
      rw [he]
      exact ⟨pre, post, hl, rfl⟩

/-- Thread 1 stands behind thread 2: the second call chooses it. -/
theorem round_robin_two :
    1 ∈ [(findNextThread twoThreads.cpu).2, (findNextThread (findNextThread twoThreads.cpu).1).2] ∧
      ((findNextThread twoThreads.cpu).2 = idleThread ↔
        ∀ u ∈ twoThreads.cpu.activeList, ¬ Ready twoThreads.cpu u) :=
  ⟨(round_robin 1).1 twoThreads.cpu _ 1 _ rfl rfl
      (.call ⟨.refl _, rfl⟩ (.call ⟨.refl _, rfl⟩ (.done _))) rfl,
    ((round_robin 1).2 twoThreads.cpu (by decide)).1⟩

/-! ## 4. The call on the links -/

section Links

variable {M P : Type} [DecidableEq P] (A : LinkField M P)

/-- The loop from `a` on; `some none` is its end without a `READY` thread. -/
def scanReady (ready : P → Bool) (m : M) : (fuel : Nat) → (a : P) → Option (Option P)
  | 0, _ => none
  | fuel + 1, a =>
      if a = A.null then some none
      else if ready a then some (some a)
      else scanReady ready m fuel (A.next m a)

/-- `FindNextThread` on an `AnchorList`: the memory and the ends of the list, and the thread it took. -/
def findNextLinks (ready : P → Bool) (fuel : Nat) (m : M) (l : Ends P) :
    Option ((M × Ends P) × Option P) :=
  (scanReady A ready m fuel l.head).map fun found =>
    match found with
    | some t =>
        let r := erase A m l t
        (pushBack A r.1 r.2 t, some t)
    | none => ((m, l), none)

variable {A} {ready : P → Bool} {m : M} {l : Ends P} {ps : List P}

theorem scanReady_linked {p : P} {xs : List P} (hL : Linked A m p xs A.null)
    (hn : ∀ x ∈ xs, x ≠ A.null) {fuel : Nat} (hf : xs.length < fuel) :
    scanReady A ready m fuel (xs.headD A.null) = some (xs.find? ready) := by
  induction xs generalizing p fuel with
  | nil =>
      obtain ⟨f, rfl⟩ : ∃ f, fuel = f + 1 := ⟨fuel - 1, by simp at hf; omega⟩
      simp [scanReady]
  | cons x xs ih =>
      obtain ⟨f, rfl⟩ : ∃ f, fuel = f + 1 := ⟨fuel - 1, by simp at hf; omega⟩
      obtain ⟨-, h2, h3⟩ := hL
      rw [List.headD_cons, scanReady, if_neg (hn x List.mem_cons_self), List.find?_cons]
      cases hr : ready x with
      | true => rfl
      | false =>
          rw [if_neg (by decide), h2]
          exact ih h3 (fun y hy => hn y (List.mem_cons_of_mem _ hy)) (by simpa using hf)

/-- **The links follow the list**: the call on the links takes the thread that the call on the list
    takes, and leaves the links of the list it leaves. -/
theorem findNextLinks_rep (h : Rep A m l ps) {fuel : Nat} (hf : ps.length < fuel) :
    ∃ m' l', findNextLinks A ready fuel m l = some ((m', l'), ps.find? ready) ∧
      Rep A m' l' (match ps.find? ready with
        | some t => ps.erase t ++ [t]
        | none => ps) := by
  unfold findNextLinks
  rw [h.head, scanReady_linked h.linked h.notNull hf]
  cases hx : ps.find? ready with
  | none => exact ⟨m, l, rfl, h⟩
  | some t =>
      have ht : t ∈ ps := List.mem_of_find?_eq_some hx
      refine ⟨_, _, rfl, pushBack_rep (erase_rep h ht) (h.notNull t ht) fun p hp => ?_⟩
      have hpt : p ≠ t ∧ p ∈ ps := (h.nodup.mem_erase_iff).mp hp
      have : Std.Symm A.apart := ⟨fun _ _ => A.apart_symm⟩
      exact h.apart.forall ht hpt.2 (Ne.symm hpt.1)

end Links

end Scheduler

end SimpleOS2
