/-
  File:      SimpleOS2/Fs/DeadNodes.lean
  Subject:   LOOKUPS AND DEAD NODES, with any number of threads looking up and deleting.

  A lookup reads the id of the next node under the `dirLock` of the folder. It takes its reference later, under
  the lock of the node cache. In between another thread can remove the entry and give the last reference back.

  * `settled` -- between calls: the counts are exact, the names are different, the mount points are a tree;
  * `LiveLookups` -- no lookup ends with a dead node, and none is read through the file system;
  * `looking` -- lookups, `Delete` and `Close`; `LookInv` -- then nothing is inserted;
  * `KeptInv`, `keptInv_step` -- the invariant: exact counts and names;
  * `lookups_alive`, `dead_read` -- the law, and a `Stat` beside a `Delete`.
-/
import SimpleOS2.Fs.EntryNames

namespace SimpleOS2

open Lib

namespace Lookup

/-! ## 1. The property -/

/-- **No lookup yields a dead node.** -/
structure LiveLookups (s : Sys) : Prop where
  /-- `AcquirePath` has returned with this node, or with this folder. -/
  node : ∀ t op path mp id parent rest, (s.thread t).pc = .done op path mp (some id) parent rest → s.alive mp id = true
  parent : ∀ t op path mp node id rest, (s.thread t).pc = .done op path mp node (some id) rest → s.alive mp id = true
  /-- The next `AcquireNode`. -/
  read : ∀ t g mp id, (s.plan t g).1 = .acquire mp id → s.alive mp id = true

/-- Between calls, with exact counts and proper names. -/
structure settled (s : Sys) : Prop where
  quiet : quiet s
  mounts : VFS.Tree s.mounts
  fresh : Fresh s
  cached : ∀ mp id, s.cached mp id = true → s.alive mp id = true
  refs : ∀ mp id, s.refs mp id = heldOpen s.descs mp id
  links : ∀ mp id, s.linksOf mp id = s.entriesOf mp id + (if id = s.rootNode mp then 1 else 0 : Nat)
  names : ∀ mp dir, s.alive mp dir = true →
    (names (s.node mp dir).cachedDir).Nodup ∧ ∀ name ∈ names (s.node mp dir).cachedDir, ProperName name

/-- The call creates nothing. -/
def Op.looks (op : Op) : Prop := op.fileHasToExist = true ∧ ∀ path, op ≠ .hardLink path

/-- Lookups, `Delete`, `Close` and what goes with descriptors. -/
def looking (_ : Sys) : Event → Prop
  | .start _ op _ => op.looks
  | .refuse _ op _ => op.looks
  | .remount _ => False
  | _ => True

/-! ## 2. The invariant -/

/-- The counts are exact and the names are different. -/
structure KeptInv (s : Sys) : Prop where
  counted : Counted s
  named : Named s

/-- No thread is going to insert anything. -/
structure LookInv (s : Sys) : Prop where
  op : ∀ t op, (s.thread t).pc.op = some op → op.looks
  missed : ∀ t, (s.thread t).pc.missed = none

section Steps

variable {s s' : Sys} {t : Nat} {g : Garbage} {ev : Event} {mp id : Nat}

theorem settled.counted (h : settled s) : Counted s := by
  have hpc : ∀ t, (s.thread t).pc = .idle := fun t => (h.quiet t).1
  have hheld : ∀ t, (s.thread t).held = [] := fun t => (h.quiet t).2.1
  refine ⟨h.fresh, h.cached, fun mp id => ⟨0, tally_zero fun t => ?_, ?_⟩, fun mp id => ⟨0, tally_zero fun t => ?_, ?_⟩,
    fun t op path mp cur id rest ht => ?_, fun t => ⟨[], ?_⟩⟩
  · rw [hheld]
    rfl
  · rw [h.refs]
    exact (Int.zero_add _).symm
  · rw [hpc]
    rfl
  · rw [h.links]
    rfl
  · rw [hpc] at ht
    cases ht
  · rw [Balanced, hpc, hheld]
    exact List.Perm.refl _

theorem settled.named (h : settled s) : Named s := by
  have hpc : ∀ t, (s.thread t).pc = .idle := fun t => (h.quiet t).1
  refine ⟨h.mounts, h.names, fun t => ?_, fun t path mp p id ht => ?_, fun t mp p name ht => ?_⟩
  · rw [hpc]
    trivial
  · rw [hpc] at ht
    cases ht
  · rw [hpc] at ht
    cases ht

theorem keptInv_init (h : settled s) : KeptInv s := ⟨h.counted, h.named⟩

/-- **The step.** -/
theorem keptInv_step (h : KeptInv s) (hs : sysStep s ev s') (hok : sharp s ev) (hsp : spares s ev) : KeptInv s' := by
  have hC' : Counted s' := counted_step h.counted ⟨hs, h.named.careful hok hsp⟩
  exact ⟨hC', named_step h.named h.counted hC' hs hok⟩

theorem lookInv_init (h : settled s) : LookInv s := by
  have hpc : ∀ t, (s.thread t).pc = .idle := fun t => (h.quiet t).1
  refine ⟨fun t op ht => ?_, fun t => ?_⟩
  · rw [hpc] at ht
    cases ht
  · rw [hpc]
    rfl

/-- A call for a file that has to exist misses no name. -/
theorem search_missed {op : Op} {path rest : List Char} {cur : Nat} (hop : op.fileHasToExist = true) :
    (s.planAt t g (.search op path mp cur rest)).2.missed = none := by
  show (s.locked mp cur (.search op path mp cur rest) (.none, s.planSearch op path mp cur rest)).2.missed = none
  unfold Sys.locked
  split_ifs
  · rfl
  · show (s.planSearch op path mp cur rest).missed = none
    unfold Sys.planSearch
    split
    · rfl
    · rw [if_pos (Or.inl hop)]
      rfl

theorem LookInv.run (h : LookInv s) : LookInv (s.next t g) := by
  refine ⟨fun u op hop => ?_, fun u => ?_⟩
  · by_cases hu : u = t
    · subst hu
      rw [next_self] at hop
      rcases planAt_op s u g (s.thread u).pc with he | ⟨path, mp, id, hl, -⟩
      · exact h.op u op (he ▸ hop)
      · exact absurd rfl ((h.op u _ hl).2 path)
    · rw [next_other s g hu] at hop
      exact h.op u op hop
  · by_cases hu : u = t
    · subst hu
      rw [next_self]
      show (s.plan u g).2.missed = none
      cases hm : (s.plan u g).2.missed with
      | none => rfl
      | some x =>
          obtain ⟨mp, p, name⟩ := x
          rcases planAt_missed hm with hold | ⟨-, -, -, op, path, hpc⟩
          · rw [h.missed u] at hold
            cases hold
          · have hnone := @search_missed s u g mp op path name p (h.op u op (by rw [hpc]; rfl)).1
            rw [← hpc] at hnone
            exact hm.symm.trans hnone
    · rw [next_other s g hu]
      exact h.missed u

theorem lookInv_step (h : LookInv s) (hs : sysStep s ev s') (hok : looking s ev) : LookInv s' := by
  have hset : ∀ {x : Sys} {t th}, x.thread = s.thread → (∀ op, th.pc.op = some op → op.looks) → th.pc.missed = none →
      LookInv (x.setThread t th) := by
    intro x t th hx hop hmiss
    refine ⟨fun u op hu => ?_, fun u => ?_⟩
    · by_cases hut : u = t
      · rw [hut, setThread_self] at hu
        exact hop op hu
      · rw [setThread_other x th hut, hx] at hu
        exact h.op u op hu
    · by_cases hut : u = t
      · rw [hut, setThread_self]
        exact hmiss
      · rw [setThread_other x th hut, hx]
        exact h.missed u
  cases hs with
  | start t op path ht hop =>
      refine hset rfl (fun op' he => ?_) rfl
      cases he
      exact hok
  | refuse t op res ht hop hres =>
      refine hset rfl (fun op' he => ?_) rfl
      cases he
      exact hok
  | run t g => exact h.run
  | leave t op res ht => exact hset rfl (fun op' he => by cases he) rfl
  | addRef i d hd => exact ⟨h.op, h.missed⟩
  | closeShared t i d ht hd hr => exact ⟨h.op, h.missed⟩
  | closeLast t i d ht hd hr =>
      refine hset rfl (fun op' he => ?_) rfl
      cases he
      exact ⟨rfl, fun path hp => by cases hp⟩
  | write i pos buffer bufferSize d hd hw htype => exact ⟨h.op, h.missed⟩
  | remount mounts => exact hok.elim

/-- Where nothing is inserted, insertions disturb nobody. -/
theorem LookInv.sharp (h : LookInv s) (hok : looking s ev) : sharp s ev := by
  cases ev with
  | run t g =>
      intro op mp p id name hpc
      have hm := h.missed t
      rw [hpc] at hm
      cases hm
  | remount mounts => exact hok.elim
  | _ => trivial

/-- **Exact counts keep dead nodes away from lookups.** -/
theorem KeptInv.live (h : KeptInv s) : LiveLookups s where
  node := fun t op path mp id parent rest hpc => h.counted.owed_alive (t := t) (by rw [hpc]; simp [Pc.owed])
  parent := fun t op path mp node id rest hpc => h.counted.owed_alive (t := t) (by rw [hpc]; simp [Pc.owed])
  read := fun _ _ _ _ he => h.counted.plan_acquire he

/-- The node is dead after its last `ReleaseNode`. -/
theorem last_dead (hlast : s.Last mp id) : (s.releaseNode mp id).alive mp id = false := by
  unfold Sys.Last at hlast
  unfold Sys.releaseNode
  rw [if_pos hlast]
  exact update₂_self _ _ _ _

/-- **A node that a lookup is about to acquire is read when it is dead.** -/
theorem spares_of_live (hs : sysStep s ev s') (h : LiveLookups s') : spares s ev := by
  cases hs with
  | run t g =>
      intro mp id he hlast u op path cur rest hpc
      have hut : u ≠ t := by
        intro hut
        subst hut
        have hacq : (s.plan u g).1 = .acquire mp id := by rw [Sys.plan, hpc]; rfl
        rw [he] at hacq
        cases hacq
      have hread : ((s.next t g).plan u g).1 = .acquire mp id := by
        rw [Sys.plan, next_other s g hut, hpc]
        rfl
      have halive := h.read u g mp id hread
      have hdead : (s.next t g).alive mp id = (s.perform g (s.plan t g).1).alive mp id := rfl
      rw [hdead, he] at halive
      exact Bool.false_ne_true ((last_dead hlast).symm.trans halive)
  | _ => trivial

end Steps

/-! ## 3. Results -/

/-- **Lookups yield live nodes**, in every run of lookups, `Delete` and `Close` in which no node is destroyed
    between the section that reads its id and the `AcquireNode` after it; and the step that destroys one leads to
    a state where a dead node is read. -/
theorem lookups_alive {s : Sys} (h : Reach (Guarded sysStep fun s ev => looking s ev ∧ spares s ev) settled s) :
    LiveLookups s ∧ ∀ ev s', sysStep s ev s' → looking s ev → (LiveLookups s' ↔ spares s ev) := by
  have hI : KeptInv s ∧ LookInv s := by
    refine h.inv (I := fun s => KeptInv s ∧ LookInv s)
      (fun s h0 => ⟨keptInv_init h0, lookInv_init h0⟩) fun s ev s' hI hs => ?_
    obtain ⟨hs, hlook, hsp⟩ := hs
    exact ⟨keptInv_step hI.1 hs (hI.2.sharp hlook) hsp, lookInv_step hI.2 hs hlook⟩
  refine ⟨hI.1.live, fun ev s' hs hlook => ⟨spares_of_live hs, fun hsp => ?_⟩⟩
  exact (keptInv_step hI.1 hs (hI.2.sharp hlook) hsp).live

section Race

/-- `oneFile` with nothing in the cache. -/
def storedFile : Sys := { oneFile with cached := fun _ _ => false }

theorem storedFile_dir (mp id : Nat) :
    (storedFile.node mp id).cachedDir = if id = 0 then [⟨['f'], 1⟩] else [] := by
  show (if id = 0 then _ else _ : Node).cachedDir = _
  split_ifs <;> rfl

theorem storedFile_settled : settled storedFile where
  quiet := oneFile_quiet
  mounts := VFS.tree_init
  fresh mp id ha := by
    have hid : id ≤ 1 := of_decide_eq_true ha
    show id < 2
    omega
  cached mp id hc := by cases hc
  refs mp id := rfl
  links mp id := by
    have hlinks : storedFile.linksOf mp id = if id ≤ 1 then 1 else 0 := by
      show (if decide (id ≤ 1) = true then (if id = 0 then _ else _ : Node).linkCount else 0) = _
      simp only [decide_eq_true_eq]
      split_ifs <;> rfl
    have hentries : storedFile.entriesOf mp id = if id = 1 then 1 else 0 := by
      show ∑ dir ∈ Finset.range 2, entriesIn (storedFile.node mp dir).cachedDir id = _
      rw [Finset.sum_range_succ, Finset.sum_range_one, storedFile_dir, storedFile_dir]
      simp [entriesIn, eq_comm]
    have hroot : storedFile.rootNode mp = 0 := rfl
    rw [hlinks, hentries, hroot]
    split_ifs <;> omega
  names mp dir _ := by
    rw [storedFile_dir]
    split_ifs
    · exact ⟨List.nodup_singleton _, fun name hm => by
        rw [List.mem_singleton.mp hm]
        exact ⟨List.cons_ne_nil _ _, by decide⟩⟩
    · exact ⟨List.nodup_nil, fun name hm => by cases hm⟩

/-- `Stat` alone. -/
theorem lookups_alive_stat : ∃ s, Reach (Guarded sysStep fun s ev => looking s ev ∧ spares s ev) settled s ∧
    (s.thread 0).pc = .done (.stat true) ['f'] 0 (some 1) (some 0) [] ∧ LiveLookups s := by
  have h0 : Reach (Guarded sysStep fun s ev => looking s ev ∧ spares s ev) settled
      (storedFile.begin 0 (.stat true) ['f']) :=
    (Reach.start _ storedFile_settled).guarded (.start storedFile 0 (.stat true) ['f'] rfl rfl)
      ⟨⟨rfl, fun path hp => by cases hp⟩, trivial⟩
  have h := runs_reach (n := 6) h0 fun k hk => ⟨.run _ 0 noGarbage, trivial, fun mp id he => by
    interval_cases k <;> cases he⟩
  exact ⟨_, h, rfl, (lookups_alive h).1⟩

/-- **A dead node is read**: one thread has read the id of `f`, and another one deletes `f` before the
    `AcquireNode`. -/
theorem dead_read : ¬ ∀ s, Reach (Guarded sysStep looking) settled s → LiveLookups s := by
  intro hall
  have h0 : Reach (Guarded sysStep looking) settled ((storedFile.begin 0 .delete ['f']).begin 1 (.stat true) ['f']) :=
    ((Reach.start _ storedFile_settled).guarded (.start storedFile 0 .delete ['f'] rfl rfl)
      ⟨rfl, fun path hp => by cases hp⟩).guarded (.start _ 1 (.stat true) ['f'] rfl rfl)
      ⟨rfl, fun path hp => by cases hp⟩
  have h1 := runs_reach (t := 1) (g := noGarbage) (n := 4) h0 fun _ _ => ⟨.run _ _ _, trivial⟩
  have h2 := runs_reach (t := 0) (g := noGarbage) (n := 13) h1 fun _ _ => ⟨.run _ _ _, trivial⟩
  have halive := (hall _ h2).read 1 noGarbage 0 1 rfl
  cases halive

end Race

end Lookup

end SimpleOS2
