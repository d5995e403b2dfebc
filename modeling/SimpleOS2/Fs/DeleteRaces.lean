/-
  File:      SimpleOS2/Fs/DeleteRaces.lean
  Subject:   HOW DELETE RETURNS, with any number of threads creating and deleting beside it.

  `Delete` finds its file, tests that a folder is empty and removes the entry in three sections under a
  `dirLock`. In between another thread can remove the entry. Then the loop of the third section ends
  without a match, and the line after it returns with the lock and all references.

  * `Clean` -- how a call should return: no lock, no reference, and nothing changed unless it is `OK`;
  * `findsEntry` -- the condition: at the removal loop the entry is there;
  * `Pc.deleting` -- standing in a `Delete` that has removed nothing;
  * `DeleteInv`, `deleteInv_step`, `delete_clean` -- under the condition every `Delete` returns so;
  * `delete_keeps_lock` -- two threads that delete one file.
-/
import Mathlib.Tactic.IntervalCases
import SimpleOS2.Fs.References

namespace SimpleOS2

open Lib

namespace Lookup

/-! ## 1. The property -/

/-- A call that returns `res` has cleaned up. -/
structure Clean (th : Thread) (res : Int) : Prop where
  locks : th.locks = []
  held : th.held = []
  same : res ≠ OK → th.changed = false

/-- No call is under way and nothing is held. -/
def quiet (s : Sys) : Prop :=
  ∀ t, (s.thread t).pc = .idle ∧ (s.thread t).held = [] ∧ (s.thread t).locks = []

/-- **The condition**: a thread at the removal loop of `Delete`, with the `dirLock`, finds an entry of
    the name. -/
def findsEntry (s : Sys) : Event → Prop
  | .run t _ => ¬ Missing s (s.thread t).pc
  | _ => True

/-! ## 2. Before the removal -/

/-- The thread stands in a `Delete` that has not removed an entry, or in one that has failed. -/
def Pc.deleting : Pc → Prop
  | .find op _ => op = .delete
  | .root op _ _ _ => op = .delete
  | .walk op _ _ _ _ => op = .delete
  | .search op _ _ _ _ => op = .delete
  | .entry op _ _ _ _ _ => op = .delete
  | .arrived op _ _ _ _ _ => op = .delete
  | .relink op _ _ => op = .delete
  | .done op _ _ _ _ _ => op = .delete
  | .checkEmpty _ _ _ _ => True
  | .remove _ _ _ _ => True
  | .cleanup op _ (.ret res) => op = .delete ∧ res ≠ OK
  | .cleanup op _ (.cd _ _ _) => op = .delete
  | .returned op res => op = .delete ∧ res ≠ OK
  | _ => False

/-- The effect stores a directory. -/
def Effect.stores : Effect → Bool
  | .addEntry _ _ _ _ => true
  | .removeEntry _ _ _ => true
  | _ => false

/-- The step stays before the removal: it comes from there and stores no directory. -/
def Stays (pc : Pc) (p : Effect × Pc) : Prop :=
  p.2.deleting → pc.deleting ∧ p.1.stores = false

section Deleting

variable {s : Sys} {t : Nat} {g : Garbage} {op : Op} {path rest : List Char} {mp cur id parent : Nat}

theorem stays_of_not {pc : Pc} {p : Effect × Pc} (h : ¬ p.2.deleting) : Stays pc p := fun hd => absurd hd h

theorem stays_none {pc pc' : Pc} (h : pc'.deleting → pc.deleting) : Stays pc (.none, pc') :=
  fun hd => ⟨h hd, rfl⟩

theorem locked_stays {pc : Pc} {go : Effect × Pc} (h : Stays pc go) : Stays pc (s.locked mp id pc go) := by
  unfold Sys.locked
  split_ifs
  · exact stays_none fun h => h
  · exact h

theorem giveBack_deleting {res : Int} (h : (Sys.giveBack op mp id res).deleting) : op = .delete := h.1

theorem planFind_stays : Stays (.find op path) (s.planFind op path) := by
  unfold Sys.planFind
  split
  · exact fun h => ⟨h, rfl⟩
  · exact stays_none fun h => h

theorem planWalk_deleting (h : (s.planWalk t op path mp cur rest).deleting) : op = .delete := by
  unfold Sys.planWalk at h
  split_ifs at h
  · exact giveBack_deleting h
  · exact giveBack_deleting h
  · exact h

theorem planSearch_deleting (h : (s.planSearch op path mp cur rest).deleting) : op = .delete := by
  unfold Sys.planSearch at h
  split at h
  · exact h
  · split_ifs at h
    · exact giveBack_deleting h
    · exact h

theorem planArrived_stays :
    Stays (.arrived op path mp cur id rest) (s.planArrived op path mp cur id rest) := by
  unfold Sys.planArrived
  split_ifs
  · exact stays_none fun h => h
  · exact stays_none fun h => h.1
  · exact stays_none fun h => h
  · exact stays_none fun h => h
  · exact fun h => ⟨h, rfl⟩

theorem planCreate_stays {pc : Pc} {node parent : Option Nat} {go : Nat → Effect × Pc} (hop : op ≠ .delete)
    (hgo : ∀ p, Stays pc (go p)) : Stays pc (s.planCreate t op mp node parent go) := by
  unfold Sys.planCreate
  split
  · split_ifs
    · exact stays_of_not fun h => hop h.1
    · exact hgo _
  · exact stays_of_not fun h => hop h.1

theorem planOpen_not_deleting {mode : Nat} {node parent : Option Nat} :
    ¬ (s.planOpen t mode path mp node parent rest).deleting := by
  unfold Sys.planOpen
  split
  · split_ifs
    · exact fun h => by cases h.1
    · exact not_false
  · split_ifs
    · exact fun h => by cases h.1
    · split <;> exact not_false
  · exact fun h => by cases h

theorem planLook_stays {pc : Pc} {node parent : Option Nat} (hop : op ≠ .delete) :
    Stays pc (Sys.planLook op path mp node parent rest) := by
  unfold Sys.planLook
  split
  · exact stays_of_not not_false
  · exact stays_of_not not_false
  · exact stays_of_not fun h => hop h

theorem planDone_stays {node parent : Option Nat} :
    Stays (.done op path mp node parent rest) (s.planDone t op path mp node parent rest) := by
  cases op with
  | create type permissions linkPath =>
      exact planCreate_stays (by intro h; cases h) fun p => stays_of_not not_false
  | linkTo lmp lid =>
      refine planCreate_stays (by intro h; cases h) fun p => ?_
      split_ifs
      · exact stays_of_not fun h => by cases h.1
      · exact stays_of_not not_false
  | openFile mode => exact stays_of_not planOpen_not_deleting
  | delete => exact stays_none fun _ => rfl
  | cd => cases node <;> exact stays_of_not fun h => by cases h
  | hardLink path' => exact planLook_stays (by intro h; cases h)
  | stat followSymlink => exact planLook_stays (by intro h; cases h)
  | list n writable => exact planLook_stays (by intro h; cases h)
  | changeOwner uid gid => exact planLook_stays (by intro h; cases h)
  | changePermissions p => exact planLook_stays (by intro h; cases h)
  | close => exact planLook_stays (by intro h; cases h)

theorem planOpened_not_deleting {mode : Nat} : ¬ (s.planOpened t mode mp id).2.deleting := by
  unfold Sys.planOpened
  split_ifs <;> exact fun h => by cases h.1

theorem giveBack_ok_not_deleting : ¬ (Sys.giveBack op mp id OK).deleting := fun h => h.2 rfl

theorem planLookAt_not_deleting : ¬ (s.planLookAt t op mp id).2.deleting := by
  unfold Sys.planLookAt
  split
  · split_ifs
    · exact fun h => by cases h.1
    · split
      · exact fun h => by cases h.1
      · exact fun h => by cases h
  · split_ifs
    · exact fun h => by cases h.1
    · exact fun h => by cases h.1
    · exact not_false
  · split_ifs <;> exact fun h => by cases h.1
  · split_ifs <;> exact fun h => by cases h.1
  · exact giveBack_ok_not_deleting

theorem afterInsert_not_deleting : ¬ (Sys.afterInsert mp parent id op).deleting := by
  cases op with
  | openFile mode => exact not_false
  | _ => exact fun h => h.2 rfl

/-- **A step into the part before the removal comes from there and stores nothing.** -/
theorem planAt_stays (s : Sys) (t : Nat) (g : Garbage) (pc : Pc) : Stays pc (s.planAt t g pc) := by
  cases pc with
  | idle => exact stays_of_not not_false
  | find op path => exact planFind_stays
  | root op path mp rest =>
      refine fun h => ⟨?_, rfl⟩
      change (s.planRoot op path mp rest).deleting at h
      unfold Sys.planRoot at h
      split_ifs at h <;> exact h
  | walk op path mp cur rest => exact stays_none planWalk_deleting
  | search op path mp cur rest => exact locked_stays (stays_none planSearch_deleting)
  | entry op path mp cur id rest => exact fun h => ⟨h, rfl⟩
  | arrived op path mp cur id rest => exact planArrived_stays
  | relink op path todo =>
      cases todo with
      | nil => exact stays_none fun h => h
      | cons r todo => exact fun h => ⟨h, rfl⟩
  | done op path mp node parent rest => exact planDone_stays
  | make op mp parent name =>
      refine stays_of_not ?_
      cases op <;> exact not_false
  | insert op mp parent id name => exact locked_stays (stays_of_not afterInsert_not_deleting)
  | leaveFolder mode mp id parent => exact stays_of_not not_false
  | opened mode mp id => exact stays_of_not planOpened_not_deleting
  | lookAt op mp id => exact stays_of_not planLookAt_not_deleting
  | listing mp id n writable => exact locked_stays (stays_of_not fun h => by cases h.1)
  | checkEmpty path mp id parent => exact locked_stays (stays_none fun _ => trivial)
  | remove path mp id parent =>
      refine locked_stays ?_
      obtain ⟨i, e, -, -, -, h⟩ | ⟨-, h⟩ := planRemove_cases s path mp id parent
      · rw [h]
        exact stays_of_not not_false
      · rw [h]
        exact fun _ => ⟨trivial, rfl⟩
  | unlink mp id parent => exact stays_of_not fun h => h.2 rfl
  | cleanup op todo after =>
      cases todo with
      | nil =>
          cases after with
          | ret res => exact stays_none fun h => h
          | cd mp id type => exact stays_none fun h => h.1
      | cons r todo =>
          cases after <;> exact fun h => ⟨h, rfl⟩
  | returned op res => exact stays_none fun h => h

/-! ## 3. The invariant -/

/-- Between the steps: every thread holds exactly what it owes and no lock, and before the removal it
    has changed nothing. -/
structure DeleteInv (th : Thread) : Prop where
  balanced : Balanced th []
  locks : th.locks = []
  same : th.pc.deleting → th.changed = false

theorem deleteInv_init (h : quiet s) (t : Nat) : DeleteInv (s.thread t) := by
  obtain ⟨hpc, hheld, hlocks⟩ := h t
  refine ⟨?_, hlocks, ?_⟩
  · rw [Balanced, hpc, hheld]
    exact List.Perm.refl _
  · rw [hpc]
    exact fun h => absurd h not_false

theorem planAt_locks {pc : Pc} (hm : ¬ Missing s pc) (th : Thread) :
    (th.after s (s.planAt t g pc).1 (s.planAt t g pc).2).locks = th.locks := by
  have h := planAt_pays s t g pc hm
  cases he : (s.planAt t g pc).1 with
  | keepLock mp id =>
      rw [he] at h
      exact absurd h not_false
  | _ => rfl

theorem after_changed {e : Effect} {pc : Pc} {th : Thread} (he : e.stores = false) :
    (th.after s e pc).changed = th.changed := by
  cases e with
  | addEntry mp id name dir => cases he
  | removeEntry mp id dir => cases he
  | _ => rfl

theorem deleteInv_next (h : DeleteInv (s.thread t)) (hm : ¬ Missing s (s.thread t).pc) :
    DeleteInv ((s.next t g).thread t) := by
  obtain ⟨lost, hb, hl⟩ := balanced_next g h.balanced
  refine ⟨(hl.resolve_left hm) ▸ hb, ?_, ?_⟩
  · rw [next_self]
    exact (planAt_locks hm _).trans h.locks
  · rw [next_self]
    intro hd
    obtain ⟨hd', he⟩ := planAt_stays s t g (s.thread t).pc hd
    exact (after_changed he).trans (h.same hd')

theorem deleteInv_step {s' : Sys} {ev : Event} (hI : ∀ t, DeleteInv (s.thread t))
    (hs : Guarded sysStep findsEntry s ev s') (u : Nat) : DeleteInv (s'.thread u) := by
  obtain ⟨hs, hok⟩ := hs
  obtain ⟨lost, hb, hl⟩ := balanced_step hs u (hI u).balanced
  have hlost : lost = [] := by
    rcases hl with ⟨g, rfl, hm⟩ | h
    · exact absurd hm hok
    · exact h
  rw [hlost] at hb
  have hlocks := (hI u).locks
  obtain hu | ⟨g, rfl, hu⟩ | ⟨op, path, hop, hi, hu⟩ | ⟨op, res, -, hi, hu⟩ | ⟨op, res, hi, hu⟩ |
    ⟨d, -, hi, hu⟩ := step_thread hs u
  · rw [hu]
    exact hI u
  · rw [hu]
    exact deleteInv_next (hI u) hok
  all_goals rw [hu] at hb ⊢
  · exact ⟨hb, hlocks, fun _ => rfl⟩
  · exact ⟨hb, hlocks, fun _ => rfl⟩
  · exact ⟨hb, hlocks, fun h => absurd h not_false⟩
  · exact ⟨hb, hlocks, fun _ => rfl⟩

theorem deleteInv_reach (h : Reach (Guarded sysStep findsEntry) quiet s) (t : Nat) :
    DeleteInv (s.thread t) :=
  h.inv (fun _ h0 => deleteInv_init h0) (fun _ _ _ hI hs => deleteInv_step hI hs) t

end Deleting

/-! ## 4. Results -/

/-- **Delete cleans up**, in every run in which each removal finds its entry. -/
theorem delete_clean {s : Sys} (h : Reach (Guarded sysStep findsEntry) quiet s) {t : Nat} {res : Int}
    (hpc : (s.thread t).pc = .returned .delete res) : Clean (s.thread t) res := by
  have hI := deleteInv_reach h t
  have hb := hI.balanced
  have hsame := hI.same
  rw [Balanced, hpc] at hb
  rw [hpc] at hsame
  exact ⟨hI.locks, hb.eq_nil, fun hne => hsame ⟨rfl, hne⟩⟩

section Race

/-- A folder with the file `f`. -/
def oneFile : Sys where
  mounts := VFS.initMounts
  rootNode := fun _ => 0
  node := fun _ id =>
    if id = 0 then ⟨.directory, 0, 1, [⟨['f'], 1⟩], [], ⟨0, fun _ => 0⟩, 0, 0, ⟨7, 7, 7, 0⟩⟩
    else ⟨.file, 0, 1, [], [], ⟨0, fun _ => 0⟩, 0, 0, ⟨3, 3, 3, 0⟩⟩
  cached := fun _ _ => true
  alive := fun _ id => id ≤ 1
  dirLock := fun _ _ => false
  nextID := fun _ => 2
  descs := []
  created := []
  thread := fun _ => ⟨0, 0, .idle, [], [], false, none⟩

def noGarbage : Garbage := ⟨[], oneFile.node 0 1⟩

theorem oneFile_quiet : quiet oneFile := fun _ => ⟨rfl, rfl, rfl⟩

theorem oneFile_begin {ok : Sys → Event → Prop} (hok : ∀ t path, ok oneFile (.start t .delete path)) :
    Reach (Guarded sysStep ok) quiet (oneFile.begin 0 .delete ['f']) :=
  .next oneFile (.start 0 .delete ['f']) _ (.start _ oneFile_quiet) ⟨.start oneFile 0 .delete ['f'] rfl rfl, hok _ _⟩

/-- One thread deletes `f`. -/
theorem delete_clean_alone : ∃ s, Reach (Guarded sysStep findsEntry) quiet s ∧
    (s.thread 0).pc = .returned .delete OK ∧ (s.node 0 0).cachedDir = [] ∧ Clean (s.thread 0) OK := by
  have h : Reach (Guarded sysStep findsEntry) quiet ((oneFile.begin 0 .delete ['f']).runs 0 noGarbage 13) := by
    refine runs_reach (oneFile_begin fun _ _ => trivial) fun k hk => ⟨.run _ 0 noGarbage, ?_⟩
    -- the removal loop is the eighth step
    interval_cases k
    case «7» => exact fun hm => hm.2 ⟨['f'], 1⟩ (List.mem_singleton.mpr rfl) rfl
    all_goals exact not_false
  exact ⟨_, h, rfl, rfl, delete_clean h rfl⟩

/-- Two threads delete `f`. Both have found it when the first one removes it. -/
def raced : Sys :=
  ((((oneFile.begin 0 .delete ['f']).begin 1 .delete ['f']).runs 0 noGarbage 7).runs 1 noGarbage 7
    |>.runs 0 noGarbage 1).runs 1 noGarbage 1

theorem raced_reach : Reach sysStep quiet raced := by
  have h0 : Reach sysStep quiet ((oneFile.begin 0 .delete ['f']).begin 1 .delete ['f']) :=
    .next _ (.start 1 .delete ['f']) _
      (.next oneFile (.start 0 .delete ['f']) _ (.start _ oneFile_quiet) (.start oneFile 0 .delete ['f'] rfl rfl))
      (.start _ 1 .delete ['f'] rfl rfl)
  exact runs_reach (runs_reach (runs_reach (runs_reach h0 fun _ _ => .run _ _ _) fun _ _ => .run _ _ _)
    fun _ _ => .run _ _ _) fun _ _ => .run _ _ _

/-- **The second one returns with the lock.** -/
theorem delete_keeps_lock : ¬ ∀ s, Reach sysStep quiet s → ∀ t res,
    (s.thread t).pc = .returned .delete res → Clean (s.thread t) res := by
  intro h
  have hc := h raced raced_reach 1 ErrorFileNotFound rfl
  have hl : (raced.thread 1).locks = [(0, 0)] := rfl
  rw [hc.locks] at hl
  cases hl

end Race

end Lookup

end SimpleOS2
