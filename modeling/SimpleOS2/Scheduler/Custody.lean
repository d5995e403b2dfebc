/-
  File:      SimpleOS2/Scheduler/Custody.lean
  Subject:   WHERE A THREAD IS while others may wait for it.

  * `Sys.At` -- who has a thread in custody: a list of children, a call, or nobody any more;
    `Custody` -- one of them at most; `take`, `give`, `delete`, `clone`, `kernelThread` -- the moves;
  * `Lists` -- the lists of the CPUs and the global list, and which calls are still to change them;
  * `States` -- what the calls know of the threads they wait for.
-/
import Mathlib.Data.List.Nodup
import SimpleOS2.Scheduler.Reaping

namespace SimpleOS2

open Lib

namespace Reaping

/-! ## 1. Custody -/

/-- The thread that a call has taken out of a list of children, or not yet put there. -/
def Pc.holds : Pc → Option Nat
  | .kernelGlobal x => some x
  | .kernelChild x => some x
  | .detach x => some x
  | .join x => some x
  | .joinWait x => some x
  | .reap x _ => some x
  | .delete x _ => some x
  | .killTaken _ x => some x
  | .killWait _ x => some x
  | _ => none

/-- The thread that a call has yet to put into the global list. -/
def Pc.cloning : Pc → Option Nat
  | .cloneActive x => some x
  | .cloneGlobal x => some x
  | .kernelGlobal x => some x
  | _ => none

/-- The thread for which a call waits. -/
def Pc.waits : Pc → Option Nat
  | .joinWait x => some x
  | .killWait _ x => some x
  | _ => none

/-- Who has a thread in custody. -/
inductive Place where
  | child (p : Nat)
  | call (t : Nat)
  | gone
  deriving DecidableEq

def Sys.At (s : Sys) : Place → Nat → Prop
  | .child p, x => x ∈ s.childThreads p
  | .call t, x => (s.thread t).pc.holds = some x
  | .gone, x => x ∈ s.deleted.map Prod.fst

/-- A thread is in one custody at most, and once. -/
structure Custody (s : Sys) : Prop where
  single : ∀ a b x, s.At a x → s.At b x → a = b
  nodup : ∀ p, (s.childThreads p).Nodup
  once : (s.deleted.map Prod.fst).Nodup
  born : ∀ a x, s.At a x → x < s.next

section Custody

variable {s s' : Sys} {t x p : Nat} {pc : Pc} {ti : ThreadInfo}

@[simp] theorem set_thread (u : Nat) : (s.set t ti).thread u = if u = t then ti else s.thread u :=
  Function.update_apply _ _ _ _

@[simp] theorem goto_thread (u : Nat) :
    (s.goto t pc).thread u = if u = t then { s.thread t with pc := pc } else s.thread u :=
  Function.update_apply _ _ _ _

/-- A list with one more thread at its end. -/
theorem mem_update_append {f : Nat → List Nat} {p q x y : Nat} :
    y ∈ Function.update f p (f p ++ [x]) q ↔ y ∈ f q ∨ q = p ∧ y = x := by
  rw [Function.update_apply]
  split_ifs with hq
  · rw [hq, List.mem_append, List.mem_singleton]
    simp
  · simp [hq]

theorem nodup_update_append {f : Nat → List Nat} {p q x : Nat} (hf : ∀ q, (f q).Nodup) (hx : x ∉ f p) :
    (Function.update f p (f p ++ [x]) q).Nodup := by
  rw [Function.update_apply]
  split_ifs
  · exact (hf p).append (List.nodup_singleton x) (by simpa using hx)
  · exact hf q

theorem mem_erase_or {l : List Nat} {y : Nat} (x : Nat) (h : y ∈ l) : y ∈ l.erase x ∨ y = x := by
  by_cases hy : y = x
  · exact Or.inr hy
  · exact Or.inl ((List.mem_erase_of_ne hy).mpr h)

/-- Nothing new is in custody. -/
theorem Custody.keep (hC : Custody s) (hc : s'.childThreads = s.childThreads) (hd : s'.deleted = s.deleted)
    (hn : s'.next = s.next)
    (hp : ∀ u x, (s'.thread u).pc.holds = some x → (s.thread u).pc.holds = some x) : Custody s' := by
  have hAt : ∀ a x, s'.At a x → s.At a x := by
    intro a x h
    cases a with
    | child p =>
        show x ∈ s.childThreads p
        rw [← hc]
        exact h
    | call u => exact hp u x h
    | gone =>
        show x ∈ s.deleted.map Prod.fst
        rw [← hd]
        exact h
  refine ⟨fun a b x h1 h2 => hC.single a b x (hAt a x h1) (hAt b x h2), ?_, ?_, fun a x h => ?_⟩
  · rw [hc]
    exact hC.nodup
  · rw [hd]
    exact hC.once
  · rw [hn]
    exact hC.born a x (hAt a x h)

/-- One thread goes into another custody. -/
theorem Custody.move (hC : Custody s) (b : Place) (x : Nat) (hx : x < s'.next) (hn : s.next ≤ s'.next)
    (hAt : ∀ a y, s'.At a y → s.At a y ∧ y ≠ x ∨ a = b ∧ y = x)
    (hnodup : ∀ p, (s'.childThreads p).Nodup) (honce : (s'.deleted.map Prod.fst).Nodup) : Custody s' := by
  refine ⟨fun a c y h1 h2 => ?_, hnodup, honce, fun a y h => ?_⟩
  · rcases hAt a y h1 with ⟨h1, hne⟩ | ⟨rfl, rfl⟩
    · rcases hAt c y h2 with ⟨h2, -⟩ | ⟨-, rfl⟩
      · exact hC.single a c y h1 h2
      · exact absurd rfl hne
    · rcases hAt c y h2 with ⟨-, hne⟩ | ⟨rfl, -⟩
      · exact absurd rfl hne
      · rfl
  · rcases hAt a y h with ⟨h, -⟩ | ⟨-, rfl⟩
    · exact Nat.lt_of_lt_of_le (hC.born a y h) hn
    · exact hx

/-- A call takes a child out of a list. -/
theorem Custody.take (hC : Custody s) {l : List Nat} (hx : x ∈ s.childThreads p) (hl : l.Sublist (s.childThreads p))
    (hxl : x ∉ l) (hp : pc.holds = some x) :
    Custody ((s.setChildren p l).goto t pc) := by
  have hat : s.At (.child p) x := hx
  refine hC.move (.call t) x (hC.born _ x hat) (Nat.le_refl _) (fun a y h => ?_) (fun q => ?_) hC.once
  · cases a with
    | child q =>
        left
        have h' : y ∈ Function.update s.childThreads p l q := h
        rw [Function.update_apply] at h'
        split_ifs at h' with hq
        · subst hq
          refine ⟨hl.subset h', ?_⟩
          rintro rfl
          exact hxl h'
        · refine ⟨h', ?_⟩
          rintro rfl
          have := hC.single (.child q) (.child p) y h' hat
          exact hq (Place.child.inj this)
    | call u =>
        have h' : (((s.setChildren p l).goto t pc).thread u).pc.holds = some y := h
        rw [goto_thread] at h'
        split_ifs at h' with hu
        · exact Or.inr ⟨by rw [hu], Option.some.inj (h'.symm.trans hp)⟩
        · refine Or.inl ⟨h', ?_⟩
          rintro rfl
          cases hC.single (.call u) (.child p) y h' hat
    | gone =>
        refine Or.inl ⟨h, ?_⟩
        rintro rfl
        cases hC.single .gone (.child p) y h hat
  · show (Function.update s.childThreads p l q).Nodup
    rw [Function.update_apply]
    split_ifs
    · exact (hC.nodup p).sublist hl
    · exact hC.nodup q

/-- A call puts a thread into a list of children. -/
theorem Custody.give (hC : Custody s) (hx : (s.thread t).pc.holds = some x) (hp : pc.holds = none) :
    Custody ((s.setChildren p (s.childThreads p ++ [x])).goto t pc) := by
  have hat : s.At (.call t) x := hx
  have hout : ∀ q, x ∉ s.childThreads q := by
    intro q hq
    cases hC.single (.child q) (.call t) x hq hat
  refine hC.move (.child p) x (hC.born _ x hat) (Nat.le_refl _) (fun a y h => ?_) (fun q => ?_) hC.once
  · cases a with
    | child q =>
        rcases mem_update_append.mp (show y ∈ Function.update s.childThreads p (s.childThreads p ++ [x]) q from h)
          with h' | ⟨hq, hy⟩
        · exact Or.inl ⟨h', fun e => hout q (e ▸ h')⟩
        · exact Or.inr ⟨by rw [hq], hy⟩
    | call u =>
        have h' : (((s.setChildren p _).goto t pc).thread u).pc.holds = some y := h
        rw [goto_thread] at h'
        split_ifs at h' with hu
        · cases (show pc.holds = some y from h').symm.trans hp
        · refine Or.inl ⟨h', ?_⟩
          rintro rfl
          exact hu (Place.call.inj (hC.single (.call u) (.call t) y h' hat))
    | gone =>
        refine Or.inl ⟨h, ?_⟩
        rintro rfl
        cases hC.single .gone (.call t) y h hat
  · exact nodup_update_append hC.nodup (hout p)

/-- `delete`. -/
theorem Custody.delete (hC : Custody s) {d : Int} (hx : (s.thread t).pc.holds = some x) :
    Custody (Sys.goto { s with deleted := s.deleted ++ [(x, d)] } t .running) := by
  have hat : s.At (.call t) x := hx
  have hgone : x ∉ s.deleted.map Prod.fst := by
    intro h
    cases hC.single .gone (.call t) x h hat
  refine hC.move .gone x (hC.born _ x hat) (Nat.le_refl _) (fun a y h => ?_) hC.nodup ?_
  · cases a with
    | child q =>
        refine Or.inl ⟨h, ?_⟩
        rintro rfl
        cases hC.single (.child q) (.call t) y h hat
    | call u =>
        have h' : ((Sys.goto { s with deleted := s.deleted ++ [(x, d)] } t .running).thread u).pc.holds = some y := h
        rw [goto_thread] at h'
        split_ifs at h' with hu
        · cases h'
        · refine Or.inl ⟨h', ?_⟩
          rintro rfl
          exact hu (Place.call.inj (hC.single (.call u) (.call t) y h' hat))
    | gone =>
        have h' : y ∈ (s.deleted ++ [(x, d)]).map Prod.fst := h
        rw [List.map_append, List.mem_append] at h'
        rcases h' with h1 | h1
        · refine Or.inl ⟨h1, ?_⟩
          rintro rfl
          exact hgone h1
        · exact Or.inr ⟨rfl, by simpa using h1⟩
  · show ((s.deleted ++ [(x, d)]).map Prod.fst).Nodup
    rw [List.map_append]
    exact hC.once.append (List.nodup_singleton x) (by simpa using hgone)

theorem newThread_thread {m uid : Nat} (u : Nat) : (s.newThread m uid).thread u =
    if u = s.next then ⟨m, uid, .ready, 0, false, false, 0, .running⟩ else s.thread u :=
  Function.update_apply _ _ _ _

/-- A new thread is a child at once, -/
theorem Custody.clone (hC : Custody s) {m uid : Nat} :
    Custody (((s.newThread m uid).setChildren p (s.childThreads p ++ [s.next])).goto t (.cloneActive s.next)) := by
  have hout : ∀ a, ¬ s.At a s.next := fun a h => Nat.lt_irrefl _ (hC.born a s.next h)
  refine hC.move (.child p) s.next (Nat.lt_succ_self _) (Nat.le_succ _) (fun a y h => ?_) (fun q => ?_) hC.once
  · have hne : s.At a y → s.At a y ∧ y ≠ s.next := fun h => ⟨h, fun e => hout a (e ▸ h)⟩
    cases a with
    | child q =>
        have h' : y ∈ Function.update (Function.update s.childThreads s.next []) p (s.childThreads p ++ [s.next]) q := h
        rw [Function.update_apply, Function.update_apply] at h'
        split_ifs at h' with hq hq'
        · subst hq
          rcases List.mem_append.mp h' with h1 | h1
          · exact Or.inl (hne h1)
          · exact Or.inr ⟨rfl, List.mem_singleton.mp h1⟩
        · cases h'
        · exact Or.inl (hne h')
    | call u =>
        have h' : ((((s.newThread m uid).setChildren p (s.childThreads p ++ [s.next])).goto t
          (.cloneActive s.next)).thread u).pc.holds = some y := h
        rw [goto_thread] at h'
        split_ifs at h' with hu
        · cases h'
        · rw [show ((s.newThread m uid).setChildren p (s.childThreads p ++ [s.next])).thread u =
            (s.newThread m uid).thread u from rfl, newThread_thread] at h'
          split_ifs at h'
          · cases h'
          · exact Or.inl (hne h')
    | gone => exact Or.inl (hne h)
  · show (Function.update (Function.update s.childThreads s.next []) p (s.childThreads p ++ [s.next]) q).Nodup
    rw [Function.update_apply, Function.update_apply]
    split_ifs
    · have hp : s.next ∉ s.childThreads p := hout (.child p)
      exact (hC.nodup p).append (List.nodup_singleton _) (by simpa using hp)
    · exact List.nodup_nil
    · exact hC.nodup q

/-- or, if it is a kernel thread, in the hands of the call. -/
theorem Custody.kernelThread (hC : Custody s) {m uid cpu : Nat} {l : List Nat} :
    Custody (((s.newThread m uid).setActive cpu l).goto t (.kernelGlobal s.next)) := by
  have hout : ∀ a, ¬ s.At a s.next := fun a h => Nat.lt_irrefl _ (hC.born a s.next h)
  refine hC.move (.call t) s.next (Nat.lt_succ_self _) (Nat.le_succ _) (fun a y h => ?_) (fun q => ?_) hC.once
  · have hne : s.At a y → s.At a y ∧ y ≠ s.next := fun h => ⟨h, fun e => hout a (e ▸ h)⟩
    cases a with
    | child q =>
        have h' : y ∈ Function.update s.childThreads s.next [] q := h
        rw [Function.update_apply] at h'
        split_ifs at h' with hq
        · cases h'
        · exact Or.inl (hne h')
    | call u =>
        have h' : ((((s.newThread m uid).setActive cpu l).goto t (.kernelGlobal s.next)).thread u).pc.holds = some y :=
          h
        rw [goto_thread] at h'
        split_ifs at h' with hu
        · exact Or.inr ⟨by rw [hu], (Option.some.inj h').symm⟩
        · rw [show ((s.newThread m uid).setActive cpu l).thread u = (s.newThread m uid).thread u from rfl,
            newThread_thread] at h'
          split_ifs at h'
          · cases h'
          · exact Or.inl (hne h')
    | gone => exact Or.inl (hne h)
  · show (Function.update s.childThreads s.next [] q).Nodup
    rw [Function.update_apply]
    split_ifs
    · exact List.nodup_nil
    · exact hC.nodup q

end Custody

/-! ## 2. The lists -/

/-- A join has taken the thread out of the global list. -/
def Sys.Erased (s : Sys) (x : Nat) : Prop :=
  (∃ t code, (s.thread t).pc = .delete x code) ∨ x ∈ s.deleted.map Prod.fst

structure Lists (s : Sys) : Prop where
  nodup : ∀ c, (s.activeList c).Nodup
  oneCpu : ∀ c c' x, x ∈ s.activeList c → x ∈ s.activeList c' → c = c'
  activeBorn : ∀ c x, x ∈ s.activeList c → x < s.next
  globalNodup : s.globalList.Nodup
  globalBorn : ∀ x ∈ s.globalList, x < s.next
  cloning : ∀ t x, (s.thread t).pc.cloning = some x → x < s.next ∧ x ∉ s.globalList
  cloner : ∀ t t' x, (s.thread t).pc.cloning = some x → (s.thread t').pc.cloning = some x → t = t'
  fresh : ∀ t x, (s.thread t).pc = .cloneActive x → ∀ c, x ∉ s.activeList c
  erased : ∀ x, s.Erased x → x < s.next ∧ x ∉ s.globalList ∧ ∀ t, (s.thread t).pc.cloning ≠ some x

section Lists

variable {s s' : Sys} {t x p cpu : Nat} {pc : Pc} {ti : ThreadInfo}

/-- The lists get shorter, and no call is any further from a list than before. -/
theorem Lists.of (hL : Lists s) (ha : ∀ c, (s'.activeList c).Sublist (s.activeList c))
    (hg : s'.globalList.Sublist s.globalList) (hn : s'.next = s.next)
    (hc : ∀ u y, (s'.thread u).pc.cloning = some y → (s.thread u).pc.cloning = some y)
    (hf : ∀ u y, (s'.thread u).pc = .cloneActive y → (s.thread u).pc = .cloneActive y)
    (he : ∀ y, s'.Erased y → s.Erased y ∨
      y < s.next ∧ y ∉ s'.globalList ∧ ∀ u, (s'.thread u).pc.cloning ≠ some y) : Lists s' where
  nodup c := (hL.nodup c).sublist (ha c)
  oneCpu c c' y h h' := hL.oneCpu c c' y ((ha c).subset h) ((ha c').subset h')
  activeBorn c y h := hn ▸ hL.activeBorn c y ((ha c).subset h)
  globalNodup := hL.globalNodup.sublist hg
  globalBorn y h := hn ▸ hL.globalBorn y (hg.subset h)
  cloning u y h := by
    obtain ⟨h1, h2⟩ := hL.cloning u y (hc u y h)
    exact ⟨hn ▸ h1, fun hm => h2 (hg.subset hm)⟩
  cloner u u' y h h' := hL.cloner u u' y (hc u y h) (hc u' y h')
  fresh u y h c hm := hL.fresh u y (hf u y h) c ((ha c).subset hm)
  erased y h := by
    rcases he y h with h | ⟨h1, h2⟩
    · obtain ⟨h1, h2, h3⟩ := hL.erased y h
      exact ⟨hn ▸ h1, fun hm => h2 (hg.subset hm), fun u hu => h3 u (hc u y hu)⟩
    · exact ⟨hn ▸ h1, h2⟩

/-- A thread goes on, in nothing that has to do with these lists. -/
theorem Lists.goto (hL : Lists s) (ha : s'.activeList = s.activeList) (hg : s'.globalList = s.globalList)
    (hn : s'.next = s.next) (hd : s'.deleted = s.deleted)
    (hp : ∀ u, (s'.thread u).pc = (s.thread u).pc ∨
      (s'.thread u).pc.cloning = none ∧ ∀ y c, (s'.thread u).pc ≠ .delete y c) : Lists s' := by
  refine hL.of (fun c => ?_) ?_ hn (fun u y h => ?_) (fun u y h => ?_) fun y h => Or.inl ?_
  · rw [ha]
  · rw [hg]
  · rcases hp u with he | ⟨he, -⟩
    · rw [← he]
      exact h
    · rw [he] at h
      cases h
  · rcases hp u with he | ⟨he, -⟩
    · rw [← he]
      exact h
    · rw [h] at he
      cases he
  · rcases h with ⟨u, c, h⟩ | h
    · rcases hp u with he | ⟨-, he⟩
      · exact Or.inl ⟨u, c, he ▸ h⟩
      · exact absurd h (he y c)
    · exact Or.inr (by rw [← hd]; exact h)

/-- A join takes the thread out of the global list. -/
theorem Lists.erase (hL : Lists s) {code : Option Int} (hx : x ∈ s.globalList) :
    Lists (Sys.goto { s with globalList := s.globalList.erase x } t (.delete x code)) := by
  have hcl : ∀ u y, ((Sys.goto { s with globalList := s.globalList.erase x } t (.delete x code)).thread u).pc.cloning =
      some y → (s.thread u).pc.cloning = some y := by
    intro u y h
    rw [goto_thread] at h
    split_ifs at h
    · cases h
    · exact h
  refine hL.of (fun c => List.Sublist.refl _) List.erase_sublist rfl hcl (fun u y h => ?_) fun y h => ?_
  · rw [goto_thread] at h
    split_ifs at h
    exact h
  · rcases h with ⟨u, c, h⟩ | h
    · rw [goto_thread] at h
      split_ifs at h with hu
      · cases h
        exact Or.inr ⟨hL.globalBorn x hx, hL.globalNodup.not_mem_erase,
          fun u hc => (hL.cloning u x (hcl u x hc)).2 hx⟩
      · exact Or.inl (Or.inl ⟨u, c, h⟩)
    · exact Or.inl (Or.inr h)

/-- `CloneThread` puts the thread into the list of its CPU. -/
theorem Lists.cloneActive (hL : Lists s) (hp : (s.thread t).pc = .cloneActive x) :
    Lists ((s.setActive cpu (s.activeList cpu ++ [x])).goto t (.cloneGlobal x)) := by
  have hout := hL.fresh t x hp
  have hx := hL.cloning t x (by rw [hp]; rfl)
  have hmem : ∀ c y, y ∈ Function.update s.activeList cpu (s.activeList cpu ++ [x]) c →
      y ∈ s.activeList c ∨ c = cpu ∧ y = x := fun c y h => mem_update_append.mp h
  have hcl : ∀ u y, (((s.setActive cpu (s.activeList cpu ++ [x])).goto t (.cloneGlobal x)).thread u).pc.cloning =
      some y → (s.thread u).pc.cloning = some y := by
    intro u y h
    rw [goto_thread] at h
    split_ifs at h with hu
    · rw [hu, hp]
      exact h
    · exact h
  refine ⟨fun c => ?_, fun c c' y h h' => ?_, fun c y h => ?_, hL.globalNodup, hL.globalBorn,
    fun u y h => hL.cloning u y (hcl u y h), fun u u' y h h' => hL.cloner u u' y (hcl u y h) (hcl u' y h'),
    fun u y h c hm => ?_, fun y h => ?_⟩
  · exact nodup_update_append hL.nodup (hout cpu)
  · rcases hmem c y h with h1 | ⟨h1, hy⟩
    · rcases hmem c' y h' with h2 | ⟨-, hy⟩
      · exact hL.oneCpu c c' y h1 h2
      · exact absurd (hy ▸ h1) (hout c)
    · rcases hmem c' y h' with h2 | ⟨h2, -⟩
      · exact absurd (hy ▸ h2) (hout c')
      · rw [h1, h2]
  · rcases hmem c y h with h | ⟨-, rfl⟩
    · exact hL.activeBorn c y h
    · exact hx.1
  · rw [goto_thread] at h
    split_ifs at h with hu
    rcases hmem c y hm with hm | ⟨-, rfl⟩
    · exact hL.fresh u y h c hm
    · exact hu (hL.cloner u t y (by rw [show (s.thread u).pc = _ from h]; rfl) (by rw [hp]; rfl))
  · have hE : s.Erased y := by
      rcases h with ⟨u, c, h⟩ | h
      · rw [goto_thread] at h
        split_ifs at h
        exact Or.inl ⟨u, c, h⟩
      · exact Or.inr h
    obtain ⟨h1, h2, h3⟩ := hL.erased y hE
    exact ⟨h1, h2, fun u hu => h3 u (hcl u y hu)⟩

/-- A thread is put into the global list. -/
theorem Lists.publish (hL : Lists s) (hp : (s.thread t).pc.cloning = some x) (hc : pc.cloning = none)
    (hd : ∀ y c, pc ≠ .delete y c) : Lists (Sys.goto { s with globalList := s.globalList ++ [x] } t pc) := by
  obtain ⟨hborn, hout⟩ := hL.cloning t x hp
  have hcl : ∀ u y, ((Sys.goto { s with globalList := s.globalList ++ [x] } t pc).thread u).pc.cloning = some y →
      (s.thread u).pc.cloning = some y ∧ u ≠ t := by
    intro u y h
    rw [goto_thread] at h
    split_ifs at h with hu
    · cases (show pc.cloning = some y from h).symm.trans hc
    · exact ⟨h, hu⟩
  refine ⟨hL.nodup, hL.oneCpu, hL.activeBorn, ?_, fun y h => ?_, fun u y h => ?_,
    fun u u' y h h' => hL.cloner u u' y (hcl u y h).1 (hcl u' y h').1, fun u y h c hm => ?_, fun y h => ?_⟩
  · exact hL.globalNodup.append (List.nodup_singleton x) (by simpa using hout)
  · rcases List.mem_append.mp h with h | h
    · exact hL.globalBorn y h
    · rw [List.mem_singleton.mp h]
      exact hborn
  · obtain ⟨h1, hne⟩ := hcl u y h
    obtain ⟨hb, ho⟩ := hL.cloning u y h1
    refine ⟨hb, fun hm => ?_⟩
    rcases List.mem_append.mp hm with hm | hm
    · exact ho hm
    · rw [List.mem_singleton.mp hm] at h1
      exact hne (hL.cloner u t x h1 hp)
  · rw [goto_thread] at h
    split_ifs at h with hu
    · rw [show pc = _ from h] at hc
      cases hc
    · exact hL.fresh u y h c hm
  · have hE : s.Erased y := by
      rcases h with ⟨u, c, h⟩ | h
      · rw [goto_thread] at h
        split_ifs at h with hu
        · exact absurd h (hd y c)
        · exact Or.inl ⟨u, c, h⟩
      · exact Or.inr h
    obtain ⟨h1, h2, h3⟩ := hL.erased y hE
    refine ⟨h1, fun hm => ?_, fun u hu => h3 u (hcl u y hu).1⟩
    rcases List.mem_append.mp hm with hm | hm
    · exact h2 hm
    · rw [List.mem_singleton.mp hm] at h3
      exact h3 t hp

/-- A call makes a thread; `activeList` may get it at once. -/
theorem Lists.newThread (hL : Lists s) (cpu : Nat) {m uid : Nat} (hn : s'.next = s.next + 1)
    (hg : s'.globalList = s.globalList) (hd : s'.deleted = s.deleted)
    (ha : s'.activeList = s.activeList ∧ pc = .cloneActive s.next ∨
      s'.activeList = Function.update s.activeList cpu (s.activeList cpu ++ [s.next]) ∧ pc = .kernelGlobal s.next)
    (ht : s'.thread = ((s.newThread m uid).goto t pc).thread) : Lists s' := by
  have hpc : ∀ u, (s'.thread u).pc = pc ∧ u = t ∨ (s'.thread u).pc = .running ∨
      (s'.thread u).pc = (s.thread u).pc := by
    intro u
    rw [ht, goto_thread]
    split_ifs with hu
    · exact Or.inl ⟨rfl, hu⟩
    · rw [newThread_thread]
      split_ifs
      · exact Or.inr (Or.inl rfl)
      · exact Or.inr (Or.inr rfl)
  have hcl : ∀ u y, (s'.thread u).pc.cloning = some y →
      y = s.next ∧ u = t ∨ (s.thread u).pc.cloning = some y ∧ y < s.next := by
    intro u y h
    rcases hpc u with ⟨he, hu⟩ | he | he
    · rw [he] at h
      rcases ha with ⟨-, rfl⟩ | ⟨-, rfl⟩
      · exact Or.inl ⟨(Option.some.inj h).symm, hu⟩
      · exact Or.inl ⟨(Option.some.inj h).symm, hu⟩
    · rw [he] at h
      cases h
    · rw [he] at h
      exact Or.inr ⟨h, (hL.cloning u y h).1⟩
  have hmem : ∀ c y, y ∈ s'.activeList c → y ∈ s.activeList c ∨ c = cpu ∧ y = s.next ∧ pc = .kernelGlobal s.next := by
    intro c y h
    rcases ha with ⟨he, -⟩ | ⟨he, hk⟩
    · rw [he] at h
      exact Or.inl h
    · rw [he, mem_update_append] at h
      exact h.imp_right fun h => ⟨h.1, h.2, hk⟩
  have hnew : ∀ c, s.next ∉ s.activeList c := fun c h => Nat.lt_irrefl _ (hL.activeBorn c _ h)
  refine ⟨fun c => ?_, fun c c' y h h' => ?_, fun c y h => ?_, ?_, fun y h => ?_, fun u y h => ?_,
    fun u u' y h h' => ?_, fun u y h c hm => ?_, fun y h => ?_⟩
  · rcases ha with ⟨he, -⟩ | ⟨he, -⟩
    · rw [he]
      exact hL.nodup c
    · rw [he]
      exact nodup_update_append hL.nodup (hnew cpu)
  · rcases hmem c y h with h1 | ⟨h1, hy, -⟩
    · rcases hmem c' y h' with h2 | ⟨-, hy, -⟩
      · exact hL.oneCpu c c' y h1 h2
      · exact absurd (hy ▸ h1) (hnew c)
    · rcases hmem c' y h' with h2 | ⟨h2, -, -⟩
      · exact absurd (hy ▸ h2) (hnew c')
      · rw [h1, h2]
  · rw [hn]
    rcases hmem c y h with h1 | ⟨-, hy, -⟩
    · exact Nat.lt_succ_of_lt (hL.activeBorn c y h1)
    · rw [hy]
      exact Nat.lt_succ_self _
  · rw [hg]
    exact hL.globalNodup
  · rw [hg] at h
    rw [hn]
    exact Nat.lt_succ_of_lt (hL.globalBorn y h)
  · rw [hn, hg]
    rcases hcl u y h with ⟨rfl, -⟩ | ⟨h, hlt⟩
    · exact ⟨Nat.lt_succ_self _, fun hm => Nat.lt_irrefl _ (hL.globalBorn _ hm)⟩
    · exact ⟨Nat.lt_succ_of_lt hlt, (hL.cloning u y h).2⟩
  · rcases hcl u y h with ⟨h1, hu⟩ | ⟨h1, hlt⟩
    · rcases hcl u' y h' with ⟨-, hu'⟩ | ⟨-, hlt⟩
      · rw [hu, hu']
      · omega
    · rcases hcl u' y h' with ⟨h2, -⟩ | ⟨h2, -⟩
      · omega
      · exact hL.cloner u u' y h1 h2
  · rcases hmem c y hm with hm | ⟨-, hy, hk⟩
    · rcases hpc u with ⟨he, -⟩ | he | he
      · rcases hcl u y (by rw [h]; rfl) with ⟨rfl, -⟩ | ⟨-, hlt⟩
        · exact hnew c hm
        · rcases ha with ⟨-, hk⟩ | ⟨-, hk⟩
          · rw [he, hk] at h
            cases h
            exact hnew c hm
          · rw [he, hk] at h
            cases h
      · rw [he] at h
        cases h
      · exact hL.fresh u y (he ▸ h) c hm
    · rcases hcl u y (by rw [h]; rfl) with ⟨-, hu⟩ | ⟨-, hlt⟩
      · rcases hpc u with ⟨he, -⟩ | he | he
        · rw [he, hk] at h
          cases h
        · rw [he] at h
          cases h
        · rw [he] at h
          have := (hL.cloning u y (by rw [h]; rfl)).1
          omega
      · omega
  · have hE : s.Erased y := by
      rcases h with ⟨u, c, h⟩ | h
      · rcases hpc u with ⟨he, -⟩ | he | he
        · rw [he] at h
          rcases ha with ⟨-, hk⟩ | ⟨-, hk⟩
          · rw [hk] at h
            cases h
          · rw [hk] at h
            cases h
        · rw [he] at h
          cases h
        · exact Or.inl ⟨u, c, he ▸ h⟩
      · rw [hd] at h
        exact Or.inr h
    obtain ⟨h1, h2, h3⟩ := hL.erased y hE
    rw [hn, hg]
    refine ⟨Nat.lt_succ_of_lt h1, h2, fun u hu => ?_⟩
    rcases hcl u y hu with ⟨rfl, -⟩ | ⟨hu, -⟩
    · exact Nat.lt_irrefl _ h1
    · exact h3 u hu

end Lists

/-! ## 3. What the calls know -/

/-- The exit code of the thread is in the hands of a join, or has been returned. -/
def Sys.Code (s : Sys) (x : Nat) (d : Int) : Prop :=
  (∃ t, (s.thread t).pc = .reap x d) ∨ (∃ t, (s.thread t).pc = .delete x (some d)) ∨ (x, d) ∈ s.deleted

structure States (s : Sys) : Prop where
  off : ∀ x, (s.thread x).state = .exited → ∀ c, x ∉ s.activeList c
  target : ∀ t x, (s.thread t).state = .join x → (s.thread t).pc.waits = some x
  blocked : ∀ t, (s.thread t).state = .queueLock ∨ (∃ arg, (s.thread t).state = .sleep arg) →
    (s.thread t).pc = .running
  fresh : ∀ t x, (s.thread t).pc = .cloneActive x → (s.thread x).state = .ready
  waited : ∀ t x, (s.thread t).pc.waits = some x → (s.thread t).state = .ready → (s.thread t).rax = OK →
    (s.thread x).state = .exited
  delete : ∀ t x c, (s.thread t).pc = .delete x c → (s.thread x).state = .exited
  code : ∀ x d, s.Code x d → (s.thread x).state = .exited ∧ (s.thread x).exitCode = d

section States

variable {s s' : Sys} {t x cpu : Nat} {pc : Pc} {ti : ThreadInfo}

/-- A thread changes, and may find out that another one has ended. -/
theorem States.set (hS : States s) (ht : s'.thread = (s.set t ti).thread)
    (ha : ∀ c y, y ∈ s'.activeList c → y ∈ s.activeList c ∨ (s.thread y).state ≠ .exited)
    (hexit : (s.thread t).state = .exited → ti.state = .exited ∧ ti.exitCode = (s.thread t).exitCode)
    (hoff : ti.state = .exited → ∀ c, t ∉ s'.activeList c)
    (htarget : ∀ x, ti.state = .join x → ti.pc.waits = some x)
    (hblocked : ti.state = .queueLock ∨ (∃ arg, ti.state = .sleep arg) → ti.pc = .running)
    (hfresh : ∀ u, (s.thread u).pc = .cloneActive t → ti.state = .ready)
    (hclone : ∀ x, ti.pc = .cloneActive x →
      (s.thread t).pc = .cloneActive x ∨ (s.thread x).state = .ready ∧ x ≠ t)
    (hwaited : ∀ x, ti.pc.waits = some x → ti.state = .ready → ti.rax = OK → (s.thread x).state = .exited)
    (hdelete : ∀ x c, ti.pc = .delete x c → (s.thread x).state = .exited)
    (hcode : ∀ x d, s'.Code x d → s.Code x d ∨ (s.thread x).state = .exited ∧ (s.thread x).exitCode = d) :
    States s' := by
  have hth : ∀ u, s'.thread u = if u = t then ti else s.thread u := fun u => by rw [ht, set_thread]
  -- what has ended has ended
  have hkeep : ∀ x, (s.thread x).state = .exited → (s'.thread x).state = .exited ∧
      (s'.thread x).exitCode = (s.thread x).exitCode := by
    intro x hx
    rw [hth]
    split_ifs with hxt
    · exact hxt ▸ hexit (hxt ▸ hx)
    · exact ⟨hx, rfl⟩
  refine ⟨fun y hy c hm => ?_, fun u y hu => ?_, fun u hu => ?_, fun u y hu => ?_, fun u y hu hr hok => ?_,
    fun u y c hu => ?_, fun y d h => ?_⟩
  · rw [hth] at hy
    split_ifs at hy with hyt
    · exact hoff hy c (hyt ▸ hm)
    · rcases ha c y hm with hm | hne
      · exact hS.off y hy c hm
      · exact hne hy
  · rw [hth] at hu ⊢
    split_ifs at hu ⊢
    · exact htarget y hu
    · exact hS.target u y hu
  · rw [hth] at hu ⊢
    split_ifs at hu ⊢
    · exact hblocked hu
    · exact hS.blocked u hu
  · have hold : (s.thread u).pc = .cloneActive y ∨ (s.thread y).state = .ready ∧ y ≠ t := by
      rw [hth] at hu
      split_ifs at hu with hut
      · exact hut ▸ hclone y hu
      · exact Or.inl hu
    rw [hth]
    rcases hold with hold | ⟨hy, hne⟩
    · split_ifs with hyt
      · exact hfresh u (hyt ▸ hold)
      · exact hS.fresh u y hold
    · rw [if_neg hne]
      exact hy
  · refine (hkeep y ?_).1
    rw [hth] at hu hr hok
    split_ifs at hu hr hok
    · exact hwaited y hu hr hok
    · exact hS.waited u y hu hr hok
  · refine (hkeep y ?_).1
    rw [hth] at hu
    split_ifs at hu
    · exact hdelete y c hu
    · exact hS.delete u y c hu
  · rcases hcode y d h with h | ⟨h1, h2⟩
    · obtain ⟨h1, h2⟩ := hS.code y d h
      exact ⟨(hkeep y h1).1, (hkeep y h1).2.trans h2⟩
    · exact ⟨(hkeep y h1).1, (hkeep y h1).2.trans h2⟩

/-- A thread that is `READY` goes on; it does not come to wait. -/
theorem States.goto (hS : States s) (ht : s'.thread = (s.goto t pc).thread)
    (hready : (s.thread t).state = .ready)
    (ha : ∀ c y, y ∈ s'.activeList c → y ∈ s.activeList c ∨ (s.thread y).state ≠ .exited)
    (hclone : ∀ x, pc = .cloneActive x → (s.thread x).state = .ready ∧ x ≠ t) (hwaits : pc.waits = none)
    (hdelete : ∀ x c, pc = .delete x c → (s.thread x).state = .exited)
    (hcode : ∀ x d, s'.Code x d → s.Code x d ∨ (s.thread x).state = .exited ∧ (s.thread x).exitCode = d) :
    States s' := by
  refine hS.set (t := t) ht ha (fun h => ⟨h, rfl⟩) (fun h => ?_) (fun x h => ?_) (fun h => ?_) (fun u _ => hready)
    (fun x h => Or.inr (hclone x h)) (fun x h => ?_) hdelete hcode
  · rw [show (s.thread t).state = _ from h] at hready
    cases hready
  · rw [show (s.thread t).state = _ from h] at hready
    cases hready
  · rcases h with h | ⟨arg, h⟩
    · rw [show (s.thread t).state = _ from h] at hready
      cases hready
    · rw [show (s.thread t).state = _ from h] at hready
      cases hready
  · rw [show pc.waits = _ from h] at hwaits
    cases hwaits

/-- The codes are as they were, where no thread comes to hold or return one. -/
theorem code_of {d : Int} (h : s'.Code x d) (hd : s'.deleted = s.deleted)
    (hp : ∀ u, (s'.thread u).pc = (s.thread u).pc ∨
      (∀ x d, (s'.thread u).pc ≠ .reap x d) ∧ ∀ x d, (s'.thread u).pc ≠ .delete x (some d)) : s.Code x d := by
  rcases h with ⟨u, h⟩ | ⟨u, h⟩ | h
  · rcases hp u with he | ⟨he, -⟩
    · exact Or.inl ⟨u, he ▸ h⟩
    · exact absurd h (he x d)
  · rcases hp u with he | ⟨-, he⟩
    · exact Or.inr (Or.inl ⟨u, he ▸ h⟩)
    · exact absurd h (he x d)
  · exact Or.inr (Or.inr (by rw [← hd]; exact h))

/-- The program counters after a step of one thread. -/
theorem goto_pc (P : Pc → Prop) (ht : s'.thread = (s.goto t pc).thread) (hpc : P pc) (u : Nat) :
    (s'.thread u).pc = (s.thread u).pc ∨ P (s'.thread u).pc := by
  rw [ht, goto_thread]
  split_ifs
  · exact Or.inr hpc
  · exact Or.inl rfl

end States

end Reaping

end SimpleOS2
