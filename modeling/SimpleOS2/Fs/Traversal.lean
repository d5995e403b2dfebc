/-
  File:      SimpleOS2/Fs/Traversal.lean
  Subject:   THE RIGHT TO PASS THROUGH A FOLDER, for one call on a path.

  `_AcquirePathRec` tests `Execute` on every folder it reads. `FindMountPoint` goes to a mount point by
  the characters of the path alone: it reads no folder above the mount point and tests none.

  * `walkFrom` -- the folders on a path inside one mount, and the path that a symbolic link leads on to;
    `ancestors`, `linkAt` -- the same for a whole path; `Follows` -- the paths that the links lead to;
  * `above` -- the folders above a mount point;
  * `Sound` -- the states in which entries denote nodes; `Static` -- a walk changes only counts;
  * `PathInv`, `pathInv_next` -- what a thread has tested by where it stands in the call;
  * `execute_on_ancestors` -- a call that returns `OK` has passed every test inside the mount points;
  * `mount_bypasses_execute` -- and none above them.
-/
import Mathlib.Logic.Relation
import SimpleOS2.Fs.Nodes

namespace SimpleOS2

open Lib

namespace Lookup

/-! ## 1. The folders on a path -/

/-- A walk along `rest` from the folder `cur`: the folders it goes through, and the path it goes on with
    if it ends at a symbolic link. -/
def Sys.walkFrom (s : Sys) (deleteMode : Bool) (mp : Nat) : (fuel cur : Nat) → (rest : List Char) →
    List Nat × Option (List Char)
  | 0, _, _ => ([], none)
  | fuel + 1, cur, rest =>
      match findEntry rest (s.node mp cur).cachedDir with
      | none => ([cur], none)
      | some (id, rest) =>
          if deleteMode ∧ rest = [] then ([cur], none)
          else if (s.node mp id).type = .symlink then
            ([cur], some (linkedPath (s.node mp id).linkPath rest))
          else if rest = [] then ([cur], none)
          else (cur :: (s.walkFrom deleteMode mp fuel id rest).1, (s.walkFrom deleteMode mp fuel id rest).2)

/-- The walk of a whole path in its mount. The mount point itself is no folder on the way. -/
def Sys.walkOf (s : Sys) (deleteMode : Bool) (path : List Char) :
    List (Nat × Nat) × Option (List Char) :=
  match VFS.findMountPoint s.mounts path with
  | none => ([], none)
  | some (mp, _) =>
      let rest := VFS.advancePath path (s.mounts.mp mp).path
      if rest = [] then ([], none)
      else
        let w := s.walkFrom deleteMode mp rest.length (s.rootNode mp) rest
        (w.1.map fun dir => (mp, dir), w.2)

/-- The folders on the path, from the root of its mount to the last or to a symbolic link. -/
def Sys.ancestors (s : Sys) (deleteMode : Bool) (path : List Char) : List (Nat × Nat) :=
  (s.walkOf deleteMode path).1

/-- The path after the first symbolic link on the path. -/
def Sys.linkAt (s : Sys) (deleteMode : Bool) (path : List Char) : Option (List Char) :=
  (s.walkOf deleteMode path).2

/-- The links lead from one path to the other. -/
def Follows (s : Sys) (deleteMode : Bool) : List Char → List Char → Prop :=
  Relation.ReflTransGen fun p q => s.linkAt deleteMode p = some q

/-- The folders above a mount point: those on its path in the mount it lies in, and those above that. -/
def Sys.above (s : Sys) : (fuel mp : Nat) → List (Nat × Nat)
  | 0, _ => []
  | fuel + 1, mp =>
      if mp = VFS.rootMount then []
      else
        let q := (s.mounts.mp mp).parent
        let rest := VFS.advancePath (s.mounts.mp mp).path (s.mounts.mp q).path
        (s.walkFrom false q rest.length (s.rootNode q) rest).1.map (fun dir => (q, dir)) ++ s.above fuel q

/-- The folders above the mount in which the path lies. -/
def Sys.aboveMount (s : Sys) (path : List Char) : List (Nat × Nat) :=
  match VFS.findMountPoint s.mounts path with
  | none => []
  | some (mp, _) => s.above s.mounts.next mp

/-- The thread may pass through the folders on the path. -/
def Passed (s : Sys) (t : Nat) (deleteMode : Bool) (path : List Char) : Prop :=
  ∀ dir ∈ s.ancestors deleteMode path, s.check t dir.1 dir.2 permExecute = true

/-- The thread may pass through the folders on the path and on all paths its links lead to. -/
def PassedAll (s : Sys) (t : Nat) (deleteMode : Bool) (path : List Char) : Prop :=
  ∀ path', Follows s deleteMode path path' → Passed s t deleteMode path'

/-! ## 2. States in which entries denote nodes -/

/-- Root nodes and the entries of directories are nodes. -/
structure Sound (s : Sys) : Prop where
  root : ∀ mp, Good s mp (s.rootNode mp)
  entries : ∀ mp id, Good s mp id → ∀ e ∈ (s.node mp id).cachedDir, Good s mp e.nodeID

/-- The call has changed nothing but counts. -/
structure Static (s0 s : Sys) (t : Nat) : Prop where
  mounts : s.mounts.mp = s0.mounts.mp
  root : s.rootNode = s0.rootNode
  uid : (s.thread t).uid = (s0.thread t).uid
  gid : (s.thread t).gid = (s0.thread t).gid
  node : ∀ mp id, Good s0 mp id → Like (s0.node mp id) (s.node mp id) ∧ s.alive mp id = true

section Static

variable {s0 s : Sys} {t : Nat} {g : Garbage} {mp id : Nat}

theorem Static.good (h : Static s0 s t) (hg : Good s0 mp id) : Good s mp id := by
  obtain ⟨hl, ha⟩ := h.node mp id hg
  refine ⟨ha, ?_⟩
  rw [hl]
  exact hg.2

theorem Static.check (h : Static s0 s t) (hg : Good s0 mp id) (perms : Nat) :
    s.check t mp id perms = s0.check t mp id perms := by
  obtain ⟨hl, -⟩ := h.node mp id hg
  rw [Sys.check, Sys.check, h.uid, h.gid, hl]
  rfl

theorem Static.dir (h : Static s0 s t) (hg : Good s0 mp id) :
    (s.node mp id).cachedDir = (s0.node mp id).cachedDir := by
  obtain ⟨hl, -⟩ := h.node mp id hg
  rw [hl]

theorem Static.type (h : Static s0 s t) (hg : Good s0 mp id) :
    (s.node mp id).type = (s0.node mp id).type := by
  obtain ⟨hl, -⟩ := h.node mp id hg
  rw [hl]

theorem Static.linkPath (h : Static s0 s t) (hg : Good s0 mp id) :
    (s.node mp id).linkPath = (s0.node mp id).linkPath := by
  obtain ⟨hl, -⟩ := h.node mp id hg
  rw [hl]

/-- Effects of a walk. -/
def Harmless (s0 : Sys) : Effect → Prop
  | .none => True
  | .find _ _ => True
  | .acquire mp id => Good s0 mp id
  | .release (.node mp id) => Good s0 mp id
  | .release (.mount _) => True
  | _ => False

theorem perform_static (h : Static s0 s t) {e : Effect} (he : Harmless s0 e) :
    Static s0 (s.perform g e) t := by
  have hth := perform_thread s g e
  cases e with
  | none => exact h
  | find mp count => exact ⟨h.mounts, h.root, h.uid, h.gid, h.node⟩
  | acquire mp id =>
      have hx : (s.acquireNode mp id g.node).mounts = s.mounts ∧
          (s.acquireNode mp id g.node).rootNode = s.rootNode := by
        unfold Sys.acquireNode
        split_ifs <;> exact ⟨rfl, rfl⟩
      refine ⟨hx.1 ▸ h.mounts, hx.2 ▸ h.root, hth ▸ h.uid, hth ▸ h.gid, fun mp' id' hg => ?_⟩
      obtain ⟨hl, ha⟩ := h.node mp' id' hg
      refine ⟨hl.trans (acquire_like (h.good he).1 g.node mp' id'), ?_⟩
      show (s.acquireNode mp id g.node).alive mp' id' = true
      rw [acquire_alive]
      exact ha
  | release r =>
      cases r with
      | mount mp => exact ⟨h.mounts, h.root, h.uid, h.gid, h.node⟩
      | node mp id =>
          have hx : (s.releaseNode mp id).mounts = s.mounts ∧
              (s.releaseNode mp id).rootNode = s.rootNode := by
            unfold Sys.releaseNode
            split_ifs <;> exact ⟨rfl, rfl⟩
          refine ⟨hx.1 ▸ h.mounts, hx.2 ▸ h.root, hth ▸ h.uid, hth ▸ h.gid, fun mp' id' hg => ?_⟩
          obtain ⟨hl, ha⟩ := h.node mp' id' hg
          refine ⟨hl.trans (release_like s mp id mp' id'), ?_⟩
          show (s.releaseNode mp id).alive mp' id' = true
          rw [release_alive (h.good he).2]
          exact ha
  | _ => exact absurd he not_false

theorem static_next (h : Static s0 s t) (he : Harmless s0 (s.plan t g).1) : Static s0 (s.next t g) t := by
  have hp := perform_static (g := g) h he
  refine ⟨hp.mounts, hp.root, ?_, ?_, hp.node⟩
  · rw [next_self]
    exact h.uid
  · rw [next_self]
    exact h.gid

end Static

/-! ## 3. Walks -/

section Walks

variable {s0 : Sys} {t : Nat} {deleteMode : Bool} {path path' rest rest' : List Char} {mp cur id : Nat}

theorem pathWalk_length {entry : List Char} (h : pathWalk path entry = some rest) (hne : path ≠ []) :
    rest.length < path.length := by
  induction path generalizing entry with
  | nil => exact absurd rfl hne
  | cons c path ih =>
      cases entry with
      | nil =>
          simp only [pathWalk, Option.ite_none_right_eq_some, Option.some.injEq] at h
          rw [← h.2]
          exact Nat.lt_succ_self _
      | cons e entry =>
          simp only [pathWalk] at h
          split_ifs at h
          cases path with
          | nil =>
              cases entry with
              | nil =>
                  simp only [pathWalk, Option.some.injEq] at h
                  rw [← h]
                  exact Nat.succ_pos _
              | cons e' entry => simp [pathWalk] at h
          | cons c' path => exact Nat.lt_succ_of_lt (ih h (List.cons_ne_nil _ _))

/-- The walk of the path has come to the folder `cur` with `rest` to go, and all folders before it have
    been tested. -/
structure On (s0 : Sys) (t : Nat) (deleteMode : Bool) (path : List Char) (mp cur : Nat)
    (rest : List Char) : Prop where
  good : Good s0 mp cur
  ne : rest ≠ []
  walk : ∃ fuel pre, rest.length ≤ fuel ∧
    s0.walkOf deleteMode path = ((pre ++ (s0.walkFrom deleteMode mp fuel cur rest).1).map fun d => (mp, d),
      (s0.walkFrom deleteMode mp fuel cur rest).2) ∧
    ∀ d ∈ pre, s0.check t mp d permExecute = true

theorem on_root (hS : Sound s0) {count : Nat → Int} (hf : VFS.findMountPoint s0.mounts path = some (mp, count))
    (hne : VFS.advancePath path (s0.mounts.mp mp).path ≠ []) :
    On s0 t deleteMode path mp (s0.rootNode mp) (VFS.advancePath path (s0.mounts.mp mp).path) := by
  refine ⟨hS.root mp, hne, _, [], Nat.le_refl _, ?_, fun d hd => by cases hd⟩
  unfold Sys.walkOf
  rw [hf]
  simp only [hne, if_false, List.nil_append]

/-- The walk, one folder on. -/
theorem On.unfold (h : On s0 t deleteMode path mp cur rest)
    (hc : s0.check t mp cur permExecute = true) :
    ∃ fuel pre, rest.length ≤ fuel + 1 ∧
      s0.walkOf deleteMode path = ((pre ++ (s0.walkFrom deleteMode mp (fuel + 1) cur rest).1).map
        fun d => (mp, d), (s0.walkFrom deleteMode mp (fuel + 1) cur rest).2) ∧
      ∀ d ∈ pre ++ [cur], s0.check t mp d permExecute = true := by
  obtain ⟨fuel, pre, hl, hw, hpre⟩ := h.walk
  cases fuel with
  | zero => exact absurd (List.eq_nil_of_length_eq_zero (Nat.le_zero.mp hl)) h.ne
  | succ fuel =>
      refine ⟨fuel, pre, hl, hw, fun d hd => ?_⟩
      rcases List.mem_append.mp hd with h1 | h1
      · exact hpre d h1
      · rw [List.mem_singleton.mp h1]
        exact hc

/-- The walk ends in the folder `cur`. -/
theorem On.last (h : On s0 t deleteMode path mp cur rest) (hc : s0.check t mp cur permExecute = true)
    {link : Option (List Char)} (hend : ∀ fuel, s0.walkFrom deleteMode mp (fuel + 1) cur rest = ([cur], link)) :
    Passed s0 t deleteMode path ∧ s0.linkAt deleteMode path = link := by
  obtain ⟨fuel, pre, -, hw, hpre⟩ := h.unfold hc
  rw [hend] at hw
  constructor
  · intro d hd
    rw [Sys.ancestors, hw] at hd
    obtain ⟨d', hd', rfl⟩ := List.mem_map.mp hd
    exact hpre d' hd'
  · rw [Sys.linkAt, hw]

/-- The walk goes on in the next folder. -/
theorem On.next (hS : Sound s0) (h : On s0 t deleteMode path mp cur rest)
    (hc : s0.check t mp cur permExecute = true)
    (he : findEntry rest (s0.node mp cur).cachedDir = some (id, rest'))
    (hty : (s0.node mp id).type ≠ .symlink) (hne : rest' ≠ []) : On s0 t deleteMode path mp id rest' := by
  obtain ⟨fuel, pre, hl, hw, hpre⟩ := h.unfold hc
  obtain ⟨e, hmem, rfl, hpw⟩ := findEntry_spec he
  have hlt := pathWalk_length hpw h.ne
  refine ⟨hS.entries mp cur h.good e hmem, hne, fuel, pre ++ [cur], by omega, ?_, hpre⟩
  have hun : s0.walkFrom deleteMode mp (fuel + 1) cur rest =
      (cur :: (s0.walkFrom deleteMode mp fuel e.nodeID rest').1,
        (s0.walkFrom deleteMode mp fuel e.nodeID rest').2) := by
    rw [Sys.walkFrom, he]
    simp only [hne, and_false, if_false, hty]
  rw [hw, hun, List.append_assoc]
  rfl

theorem on_none (h : On s0 t deleteMode path mp cur rest) (hc : s0.check t mp cur permExecute = true)
    (he : findEntry rest (s0.node mp cur).cachedDir = none) :
    Passed s0 t deleteMode path ∧ s0.linkAt deleteMode path = none :=
  h.last hc fun fuel => by rw [Sys.walkFrom, he]

theorem on_found (h : On s0 t deleteMode path mp cur rest) (hc : s0.check t mp cur permExecute = true)
    (he : findEntry rest (s0.node mp cur).cachedDir = some (id, []))
    (hty : deleteMode = true ∨ (s0.node mp id).type ≠ .symlink) :
    Passed s0 t deleteMode path ∧ s0.linkAt deleteMode path = none := by
  refine h.last hc fun fuel => ?_
  rw [Sys.walkFrom, he]
  rcases hty with hd | hty
  · simp [hd]
  · simp [hty]

theorem on_link (h : On s0 t deleteMode path mp cur rest) (hc : s0.check t mp cur permExecute = true)
    (he : findEntry rest (s0.node mp cur).cachedDir = some (id, rest'))
    (hd : ¬ (deleteMode = true ∧ rest' = [])) (hty : (s0.node mp id).type = .symlink) :
    Passed s0 t deleteMode path ∧
      s0.linkAt deleteMode path = some (linkedPath (s0.node mp id).linkPath rest') := by
  refine h.last hc fun fuel => ?_
  rw [Sys.walkFrom, he]
  simp only [hd, if_false, hty, if_true]

/-- What is left to test of the paths that the links lead to. -/
def Rem (s0 : Sys) (t : Nat) (deleteMode : Bool) (path path' : List Char) : Prop :=
  ∀ q, Follows s0 deleteMode path q → Follows s0 deleteMode path' q ∨ Passed s0 t deleteMode q

theorem rem_refl (s0 : Sys) (t : Nat) (deleteMode : Bool) (path : List Char) :
    Rem s0 t deleteMode path path := fun _ hq => Or.inl hq

theorem rem_link {path'' : List Char} (h : Rem s0 t deleteMode path path') (hp : Passed s0 t deleteMode path')
    (hl : s0.linkAt deleteMode path' = some path'') : Rem s0 t deleteMode path path'' := by
  intro q hq
  rcases h q hq with h1 | h1
  · rcases Relation.ReflTransGen.cases_head h1 with rfl | ⟨p, hp1, h2⟩
    · exact Or.inr hp
    · rw [hl] at hp1
      exact Or.inl (Option.some.inj hp1 ▸ h2)
  · exact Or.inr h1

theorem rem_end (h : Rem s0 t deleteMode path path') (hp : Passed s0 t deleteMode path')
    (hl : s0.linkAt deleteMode path' = none) : PassedAll s0 t deleteMode path := by
  intro q hq
  rcases h q hq with h1 | h1
  · rcases Relation.ReflTransGen.cases_head h1 with rfl | ⟨p, hp1, -⟩
    · exact hp
    · rw [hl] at hp1
      cases hp1
  · exact h1

end Walks

/-! ## 4. What a thread has tested -/

/-- The paths a call walks. -/
def Op.paths (op : Op) (path : List Char) : List (List Char) :=
  match op with
  | .hardLink (.ok path') => [path, path']
  | _ => [path]

section Call

variable (s0 : Sys) (t : Nat) (op0 : Op) (path0 : List Char)

/-- The thread walks the path of its call, or the second path of `CreateHardLink` with the first one
    behind it. -/
def OnPath (op : Op) (path : List Char) : Prop :=
  (op = op0 ∧ path = path0) ∨
    (op0 = .hardLink (.ok path) ∧ op.deleteMode = false ∧ (∀ p, op ≠ .hardLink (.ok p)) ∧
      PassedAll s0 t false path0)

/-- The walks are done. -/
def Tested (op : Op) : Prop :=
  ∃ path, OnPath s0 t op0 path0 op path ∧ PassedAll s0 t op.deleteMode path

/-- The walks are done, and no second one is to come. -/
def TestedAll (op : Op) : Prop := Tested s0 t op0 path0 op ∧ ∀ p, op ≠ .hardLink (.ok p)

/-- The walk of `path` is under way. -/
def Walking (s : Sys) (op : Op) (path : List Char) : Prop :=
  Static s0 s t ∧ ∃ path1, OnPath s0 t op0 path0 op path1 ∧ Rem s0 t op.deleteMode path1 path

/-- **The invariant**, by where the thread stands. -/
def PathInv (s : Sys) : Pc → Prop
  | .idle => True
  | .find op path => Walking s0 t op0 path0 s op path
  | .root op path mp rest =>
      Walking s0 t op0 path0 s op path ∧ (∃ count, VFS.findMountPoint s0.mounts path = some (mp, count)) ∧
        rest = VFS.advancePath path (s0.mounts.mp mp).path
  | .walk op path mp cur rest =>
      Walking s0 t op0 path0 s op path ∧ On s0 t op.deleteMode path mp cur rest
  | .search op path mp cur rest =>
      Walking s0 t op0 path0 s op path ∧ On s0 t op.deleteMode path mp cur rest ∧
        s0.check t mp cur permExecute = true
  | .entry op path mp cur id rest =>
      Walking s0 t op0 path0 s op path ∧ ∃ rest1, On s0 t op.deleteMode path mp cur rest1 ∧
        s0.check t mp cur permExecute = true ∧
        findEntry rest1 (s0.node mp cur).cachedDir = some (id, rest)
  | .arrived op path mp cur id rest =>
      Walking s0 t op0 path0 s op path ∧ ∃ rest1, On s0 t op.deleteMode path mp cur rest1 ∧
        s0.check t mp cur permExecute = true ∧
        findEntry rest1 (s0.node mp cur).cachedDir = some (id, rest)
  | .relink op path todo =>
      Walking s0 t op0 path0 s op path ∧ ∀ mp id, .node mp id ∈ todo → Good s0 mp id
  | .done op _ mp node parent _ =>
      Static s0 s t ∧ Tested s0 t op0 path0 op ∧ (∀ id ∈ node, Good s0 mp id) ∧
        ∀ id ∈ parent, Good s0 mp id
  | .lookAt op _ _ => Static s0 s t ∧ Tested s0 t op0 path0 op
  | .make op _ _ _ => TestedAll s0 t op0 path0 op
  | .insert op _ _ _ _ => TestedAll s0 t op0 path0 op
  | .leaveFolder mode _ _ _ => TestedAll s0 t op0 path0 (.openFile mode)
  | .opened mode _ _ => TestedAll s0 t op0 path0 (.openFile mode)
  | .listing _ _ numEntries writable => TestedAll s0 t op0 path0 (.list numEntries writable)
  | .checkEmpty _ _ _ _ => TestedAll s0 t op0 path0 .delete
  | .remove _ _ _ _ => TestedAll s0 t op0 path0 .delete
  | .unlink _ _ _ => TestedAll s0 t op0 path0 .delete
  | .cleanup op _ (.ret res) => res = OK → TestedAll s0 t op0 path0 op
  | .cleanup op _ (.cd _ _ _) => TestedAll s0 t op0 path0 op
  | .returned op res => res = OK → TestedAll s0 t op0 path0 op

end Call

section Steps

variable {s0 s : Sys} {t : Nat} {g : Garbage} {op0 op : Op} {path0 path rest : List Char}
  {mp cur id : Nat} {node parent : Option Nat}

theorem giveBack_pathInv {res : Int} (h : res = OK → TestedAll s0 t op0 path0 op) :
    PathInv s0 t op0 path0 s (Sys.giveBack op mp id res) := h

theorem findLoop_congr {M M' : VFS.Mounts} (h : M'.mp = M.mp) {fuel m r : Nat} {count count' c : Nat → Int}
    (hf : VFS.findLoop M' path fuel m count = some (r, c)) :
    ∃ c', VFS.findLoop M path fuel m count' = some (r, c') := by
  induction fuel generalizing m count count' with
  | zero => cases hf
  | succ fuel ih =>
      have hm : VFS.matching M' path m = VFS.matching M path m := by
        unfold VFS.matching
        rw [h]
      unfold VFS.findLoop at hf ⊢
      rw [hm] at hf
      split at hf
      · exact ih hf
      · simp only [Option.some.injEq, Prod.mk.injEq] at hf
        exact ⟨count', by rw [hf.1]⟩

theorem Walking.next (h : Walking s0 t op0 path0 s op path) (he : Harmless s0 (s.plan t g).1) :
    Walking s0 t op0 path0 (s.next t g) op path := ⟨static_next h.1 he, h.2⟩

theorem Walking.tested (h : Walking s0 t op0 path0 s op path)
    (hp : Passed s0 t op.deleteMode path ∧ s0.linkAt op.deleteMode path = none) :
    Tested s0 t op0 path0 op := by
  obtain ⟨-, path1, h1, h2⟩ := h
  exact ⟨path1, h1, rem_end h2 hp.1 hp.2⟩

/-- A path that is a mount point has no folder on its way. -/
theorem passed_mountPoint {count : Nat → Int} {deleteMode : Bool}
    (hf : VFS.findMountPoint s0.mounts path = some (mp, count))
    (hr : VFS.advancePath path (s0.mounts.mp mp).path = []) :
    Passed s0 t deleteMode path ∧ s0.linkAt deleteMode path = none := by
  have hw : s0.walkOf deleteMode path = ([], none) := by
    unfold Sys.walkOf
    rw [hf]
    simp only [hr, if_true]
  constructor
  · intro d hd
    rw [Sys.ancestors, hw] at hd
    cases hd
  · rw [Sys.linkAt, hw]

theorem planFind_pathInv (hpc : (s.thread t).pc = .find op path) (h : Walking s0 t op0 path0 s op path) :
    PathInv s0 t op0 path0 (s.next t g) (s.planFind op path).2 := by
  have hplan : s.plan t g = s.planFind op path := by
    rw [Sys.plan, hpc]
    rfl
  unfold Sys.planFind at hplan ⊢
  cases hf : VFS.findMountPoint s.mounts path with
  | none =>
      rw [hf] at hplan
      exact h.next (hplan ▸ trivial)
  | some r =>
      obtain ⟨m, count⟩ := r
      rw [hf] at hplan
      refine ⟨h.next (hplan ▸ trivial), findLoop_congr h.1.mounts hf, ?_⟩
      rw [h.1.mounts]

theorem planRoot_pathInv (hS : Sound s0) (hpc : (s.thread t).pc = .root op path mp rest)
    (h : PathInv s0 t op0 path0 s (.root op path mp rest)) :
    PathInv s0 t op0 path0 (s.next t g) (s.planRoot op path mp rest) := by
  obtain ⟨hw, ⟨count, hf⟩, rfl⟩ := h
  have he : Harmless s0 (s.plan t g).1 := by
    rw [Sys.plan, hpc]
    show Good s0 mp (s.rootNode mp)
    rw [hw.1.root]
    exact hS.root mp
  have hw' := hw.next he
  unfold Sys.planRoot
  rw [hw.1.root]
  split_ifs with hr
  · refine ⟨hw'.1, hw.tested (passed_mountPoint hf hr), ?_, fun id hid => by cases hid⟩
    intro id hid
    rw [← Option.some.inj hid]
    exact hS.root mp
  · exact ⟨hw', on_root hS hf hr⟩

theorem planWalk_pathInv (hpc : (s.thread t).pc = .walk op path mp cur rest)
    (h : PathInv s0 t op0 path0 s (.walk op path mp cur rest)) :
    PathInv s0 t op0 path0 (s.next t g) (s.planWalk t op path mp cur rest) := by
  obtain ⟨hw, hon⟩ := h
  have hw' : Walking s0 t op0 path0 (s.next t g) op path := by
    refine hw.next ?_
    rw [Sys.plan, hpc]
    trivial
  unfold Sys.planWalk
  split_ifs with h1 h2
  · exact giveBack_pathInv fun h => by cases h
  · exact giveBack_pathInv fun h => by cases h
  · refine ⟨hw', hon, ?_⟩
    rw [← hw.1.check hon.good]
    simpa using h2

theorem planSearch_pathInv (hpc : (s.thread t).pc = .search op path mp cur rest)
    (h : PathInv s0 t op0 path0 s (.search op path mp cur rest)) :
    PathInv s0 t op0 path0 (s.next t g)
      (s.locked mp cur (.search op path mp cur rest) (.none, s.planSearch op path mp cur rest)).2 := by
  obtain ⟨hw, hon, hc⟩ := h
  have hw' : Walking s0 t op0 path0 (s.next t g) op path := by
    refine hw.next ?_
    rw [Sys.plan, hpc]
    show Harmless s0 (s.locked _ _ _ _).1
    unfold Sys.locked
    split_ifs <;> trivial
  unfold Sys.locked
  split_ifs
  · exact ⟨hw', hon, hc⟩
  · show PathInv s0 t op0 path0 (s.next t g) (s.planSearch op path mp cur rest)
    unfold Sys.planSearch
    rw [hw.1.dir hon.good]
    split
    · rename_i id rest' he
      exact ⟨hw', rest, hon, hc, he⟩
    · rename_i he
      split_ifs
      · exact giveBack_pathInv fun h => by cases h
      · refine ⟨hw'.1, hw.tested (on_none hon hc he), (fun id hid => by cases hid), ?_⟩
        intro id hid
        rw [← Option.some.inj hid]
        exact hon.good

theorem planArrived_pathInv (hS : Sound s0) (hpc : (s.thread t).pc = .arrived op path mp cur id rest)
    (h : PathInv s0 t op0 path0 s (.arrived op path mp cur id rest)) :
    PathInv s0 t op0 path0 (s.next t g) (s.planArrived op path mp cur id rest).2 := by
  obtain ⟨hw, rest1, hon, hc, he⟩ := h
  obtain ⟨e, hmem, heid, -⟩ := findEntry_spec he
  have hid : Good s0 mp id := heid ▸ hS.entries mp cur hon.good e hmem
  have hw' : Walking s0 t op0 path0 (s.next t g) op path := by
    refine hw.next ?_
    rw [Sys.plan, hpc]
    show Harmless s0 (s.planArrived op path mp cur id rest).1
    unfold Sys.planArrived
    split_ifs
    · trivial
    · trivial
    · trivial
    · trivial
    · exact hon.good
  have hdone : rest = [] → (op.deleteMode = true ∨ (s0.node mp id).type ≠ .symlink) →
      PathInv s0 t op0 path0 (s.next t g) (.done op path mp (some id) (some cur) rest) := by
    rintro rfl hty
    refine ⟨hw'.1, hw.tested (on_found hon hc he hty), ?_, ?_⟩
    · intro i hi
      rw [← Option.some.inj hi]
      exact hid
    · intro i hi
      rw [← Option.some.inj hi]
      exact hon.good
  unfold Sys.planArrived
  rw [hw.1.type hid, hw.1.linkPath hid]
  split_ifs with h1 h2 h3 h4
  · exact hdone h1.2 (Or.inl h1.1)
  · exact fun h => by cases h
  · -- the walk starts again with the path of the link
    obtain ⟨hp, hl⟩ := on_link hon hc he h1 h2
    obtain ⟨path1, h5, h6⟩ := hw'.2
    refine ⟨⟨hw'.1, path1, h5, rem_link h6 hp hl⟩, fun mp' id' hr => ?_⟩
    simp only [List.mem_cons, Ref.node.injEq, reduceCtorEq, List.not_mem_nil, or_false] at hr
    rcases hr with ⟨rfl, rfl⟩ | ⟨rfl, rfl⟩
    · exact hid
    · exact hon.good
  · exact hdone h4 (Or.inr h2)
  · exact ⟨hw', hon.next hS hc he h2 h4⟩

theorem planCreate_pathInv {go : Nat → Effect × Pc}
    (hgo : ∀ p, PathInv s0 t op0 path0 (s.next t g) (go p).2) :
    PathInv s0 t op0 path0 (s.next t g) (s.planCreate t op mp node parent go).2 := by
  unfold Sys.planCreate
  split
  · split_ifs
    · exact fun h => by cases h
    · exact hgo _
  · exact fun h => by cases h

theorem planOpen_pathInv {mode : Nat} (hst : Static s0 (s.next t g) t)
    (h : PathInv s0 t op0 path0 s (.done (.openFile mode) path mp node parent rest)) :
    PathInv s0 t op0 path0 (s.next t g) (s.planOpen t mode path mp node parent rest) := by
  obtain ⟨-, htest, hnode, hparent⟩ := h
  have hall : TestedAll s0 t op0 path0 (.openFile mode) := ⟨htest, fun p hp => by cases hp⟩
  unfold Sys.planOpen
  split
  · split_ifs
    · exact giveBack_pathInv fun h => by cases h
    · exact hall
  · split_ifs
    · exact fun h => by cases h
    · split <;> exact hall
  · exact ⟨hst, htest, hnode, hparent⟩

theorem planDelete_pathInv (hst : Static s0 (s.next t g) t)
    (h : PathInv s0 t op0 path0 s (.done .delete path mp node parent rest)) :
    PathInv s0 t op0 path0 (s.next t g) (s.planDelete t path mp node parent rest) := by
  obtain ⟨-, htest, hnode, hparent⟩ := h
  have hall : TestedAll s0 t op0 path0 .delete := ⟨htest, fun p hp => by cases hp⟩
  unfold Sys.planDelete
  split
  · exact giveBack_pathInv fun h => by cases h
  · split_ifs
    · exact fun h => by cases h
    · exact hall
    · exact hall
  · exact ⟨hst, htest, hnode, hparent⟩

theorem planLook_pathInv (hpc : (s.thread t).pc = .done op path mp node parent rest)
    (hplan : s.planDone t op path mp node parent rest = Sys.planLook op path mp node parent rest)
    (h : PathInv s0 t op0 path0 s (.done op path mp node parent rest)) :
    PathInv s0 t op0 path0 (s.next t g) (s.planDone t op path mp node parent rest).2 := by
  obtain ⟨hst, htest, hnode, hparent⟩ := h
  have hst' : Static s0 (s.next t g) t := by
    refine static_next hst ?_
    rw [Sys.plan, hpc]
    show Harmless s0 (s.planDone t op path mp node parent rest).1
    rw [hplan]
    unfold Sys.planLook
    split
    · exact hparent _ rfl
    · trivial
    · trivial
  rw [hplan]
  unfold Sys.planLook
  split
  · exact ⟨hst', htest⟩
  · exact ⟨hst', htest⟩
  · exact ⟨hst', htest, hnode, hparent⟩

theorem planDone_pathInv (hpc : (s.thread t).pc = .done op path mp node parent rest)
    (h : PathInv s0 t op0 path0 s (.done op path mp node parent rest)) :
    PathInv s0 t op0 path0 (s.next t g) (s.planDone t op path mp node parent rest).2 := by
  have hst : ∀ pc, s.planDone t op path mp node parent rest = (.none, pc) → Static s0 (s.next t g) t := by
    intro pc hp
    refine static_next h.1 ?_
    rw [Sys.plan, hpc]
    show Harmless s0 (s.planDone t op path mp node parent rest).1
    rw [hp]
    trivial
  obtain ⟨-, htest, hnode, hparent⟩ := id h
  cases op with
  | create type permissions linkPath =>
      exact planCreate_pathInv fun p => (⟨htest, fun p hp => by cases hp⟩ : TestedAll s0 t op0 path0 _)
  | linkTo lmp lid =>
      refine planCreate_pathInv fun p => ?_
      split_ifs
      · exact fun h => by cases h
      · exact (⟨htest, fun p hp => by cases hp⟩ : TestedAll s0 t op0 path0 _)
  | openFile mode => exact planOpen_pathInv (hst _ rfl) h
  | delete => exact planDelete_pathInv (hst _ rfl) h
  | cd =>
      cases node with
      | none => exact ⟨hst _ rfl, htest, hnode, hparent⟩
      | some f => exact (⟨htest, fun p hp => by cases hp⟩ : TestedAll s0 t op0 path0 _)
  | hardLink path' => exact planLook_pathInv hpc rfl h
  | stat followSymlink => exact planLook_pathInv hpc rfl h
  | list n writable => exact planLook_pathInv hpc rfl h
  | changeOwner uid gid => exact planLook_pathInv hpc rfl h
  | changePermissions p => exact planLook_pathInv hpc rfl h
  | close => exact planLook_pathInv hpc rfl h

/-- `CreateHardLink` has found its file and begins with the second path. -/
theorem hardLink_walking {path' : List Char} (htest : Tested s0 t op0 path0 (.hardLink (.ok path')))
    (hst : Static s0 s t) : Walking s0 t op0 path0 s (.linkTo mp id) path' := by
  refine ⟨hst, path', ?_, rem_refl s0 t _ path'⟩
  obtain ⟨path1, ⟨hop, rfl⟩ | ⟨-, -, hne, -⟩, hall⟩ := htest
  · exact Or.inr ⟨hop.symm, rfl, (fun p hp => by cases hp), hall⟩
  · exact absurd rfl (hne path')

theorem planLookAt_pathInv (hpc : (s.thread t).pc = .lookAt op mp id)
    (h : PathInv s0 t op0 path0 s (.lookAt op mp id)) :
    PathInv s0 t op0 path0 (s.next t g) (s.planLookAt t op mp id).2 := by
  obtain ⟨hst, htest⟩ := h
  cases op with
  | hardLink p =>
      unfold Sys.planLookAt
      simp only
      split_ifs with hty
      · exact giveBack_pathInv fun h => by cases h
      · cases p with
        | error e => exact giveBack_pathInv fun _ => ⟨htest, fun p hp => by cases hp⟩
        | ok path' =>
            refine hardLink_walking htest (static_next hst ?_)
            rw [Sys.plan, hpc]
            show Harmless s0 (s.planLookAt t (.hardLink (.ok path')) mp id).1
            unfold Sys.planLookAt
            simp only [hty, if_false]
            trivial
  | list n writable =>
      unfold Sys.planLookAt
      simp only
      split_ifs
      · exact giveBack_pathInv fun h => by cases h
      · exact giveBack_pathInv fun h => by cases h
      · exact ⟨htest, fun p hp => by cases hp⟩
  | changeOwner uid gid =>
      unfold Sys.planLookAt
      simp only
      split_ifs <;> exact giveBack_pathInv fun _ => ⟨htest, fun p hp => by cases hp⟩
  | changePermissions p =>
      unfold Sys.planLookAt
      simp only
      split_ifs <;> exact giveBack_pathInv fun _ => ⟨htest, fun p hp => by cases hp⟩
  | _ => exact giveBack_pathInv fun _ => ⟨htest, fun p hp => by cases hp⟩

theorem planOpened_pathInv {mode : Nat} (h : TestedAll s0 t op0 path0 (.openFile mode)) :
    PathInv s0 t op0 path0 (s.next t g) (s.planOpened t mode mp id).2 := by
  unfold Sys.planOpened
  split_ifs
  · exact giveBack_pathInv fun _ => h
  · exact giveBack_pathInv fun _ => h
  · exact fun _ => h

theorem afterInsert_pathInv {p : Nat} (h : TestedAll s0 t op0 path0 op) :
    PathInv s0 t op0 path0 s (Sys.afterInsert mp p id op) := by
  cases op with
  | openFile mode => exact h
  | _ => exact fun _ => h

theorem locked_pathInv {wait : Pc} {go : Effect × Pc} (hw : PathInv s0 t op0 path0 (s.next t g) wait)
    (hgo : PathInv s0 t op0 path0 (s.next t g) go.2) :
    PathInv s0 t op0 path0 (s.next t g) (s.locked mp id wait go).2 := by
  unfold Sys.locked
  split_ifs
  · exact hw
  · exact hgo

/-- **The step.** -/
theorem pathInv_next (hS : Sound s0) {pc : Pc} (hpc : (s.thread t).pc = pc)
    (h : PathInv s0 t op0 path0 s pc) : PathInv s0 t op0 path0 (s.next t g) (s.planAt t g pc).2 := by
  cases pc with
  | idle => trivial
  | find op path => exact planFind_pathInv hpc h
  | root op path mp rest => exact planRoot_pathInv hS hpc h
  | walk op path mp cur rest => exact planWalk_pathInv hpc h
  | search op path mp cur rest => exact planSearch_pathInv hpc h
  | entry op path mp cur id rest =>
      obtain ⟨hw, rest1, hon, hc, he⟩ := h
      obtain ⟨e, hmem, heid, -⟩ := findEntry_spec he
      refine ⟨hw.next ?_, rest1, hon, hc, he⟩
      rw [Sys.plan, hpc]
      exact heid ▸ hS.entries mp cur hon.good e hmem
  | arrived op path mp cur id rest => exact planArrived_pathInv hS hpc h
  | relink op path todo =>
      obtain ⟨hw, htodo⟩ := h
      cases todo with
      | nil =>
          refine hw.next ?_
          rw [Sys.plan, hpc]
          trivial
      | cons r todo =>
          refine ⟨hw.next ?_, fun mp id hr => htodo mp id (List.mem_cons_of_mem r hr)⟩
          rw [Sys.plan, hpc]
          cases r with
          | node mp id => exact htodo mp id List.mem_cons_self
          | mount mp => trivial
  | done op path mp node parent rest => exact planDone_pathInv hpc h
  | make op mp parent name => cases op <;> exact h
  | insert op mp parent id name => exact locked_pathInv h (afterInsert_pathInv h)
  | leaveFolder mode mp id parent => exact h
  | opened mode mp id => exact planOpened_pathInv h
  | lookAt op mp id => exact planLookAt_pathInv hpc h
  | listing mp id n writable => exact locked_pathInv h (giveBack_pathInv fun _ => h)
  | checkEmpty path mp id parent =>
      refine locked_pathInv h ?_
      show PathInv s0 t op0 path0 (s.next t g) (s.planCheckEmpty path mp id parent)
      unfold Sys.planCheckEmpty
      split_ifs
      · exact fun _ => h
      · exact h
  | remove path mp id parent =>
      refine locked_pathInv h ?_
      obtain ⟨i, e, -, -, -, hp⟩ | ⟨-, hp⟩ := planRemove_cases s path mp id parent
      · rw [hp]
        exact h
      · rw [hp]
        exact fun _ => h
  | unlink mp id parent => exact fun _ => h
  | cleanup op todo after =>
      cases after with
      | ret res => cases todo <;> exact h
      | cd mp id type =>
          cases todo with
          | nil => exact fun _ => h
          | cons r todo => exact h
  | returned op res => exact h

theorem pathInv_runs (hS : Sound s0) (g : Garbage) (n : Nat) :
    PathInv s0 t op0 path0 ((s0.begin t op0 path0).runs t g n)
      (((s0.begin t op0 path0).runs t g n).thread t).pc := by
  induction n with
  | zero =>
      have hth : (s0.begin t op0 path0).thread t =
          { s0.thread t with pc := .find op0 path0, changed := false } := setThread_self s0 t _
      show PathInv s0 t op0 path0 (s0.begin t op0 path0) ((s0.begin t op0 path0).thread t).pc
      rw [hth]
      refine ⟨⟨rfl, rfl, ?_, ?_, fun mp id hg => ⟨Like.refl _, hg.1⟩⟩, path0, Or.inl ⟨rfl, rfl⟩,
        rem_refl s0 t _ path0⟩
      · rw [hth]
      · rw [hth]
  | succ n ih =>
      show PathInv s0 t op0 path0 (Sys.next _ t g) ((Sys.next _ t g).thread t).pc
      rw [next_self]
      exact pathInv_next hS rfl ih

end Steps

/-! ## 5. Results -/

/-- **A call that returns `OK` may pass through every folder** on its path, from the root of the mount
    in which the path lies, and on every path its links lead to. -/
theorem execute_on_ancestors {s : Sys} (hS : Sound s) {t : Nat} {op op' : Op} {path : List Char}
    {g : Garbage} {n : Nat}
    (hret : (((s.begin t op path).runs t g n).thread t).pc = .returned op' OK) :
    ∀ path' ∈ op.paths path, PassedAll s t op.deleteMode path' := by
  have h : PathInv s t op path ((s.begin t op path).runs t g n) (((s.begin t op path).runs t g n).thread t).pc :=
    pathInv_runs hS g n
  rw [hret] at h
  obtain ⟨⟨path1, hon, hall⟩, hne⟩ := h rfl
  rcases hon with ⟨rfl, rfl⟩ | ⟨rfl, hd, -, h0⟩
  · have hp : op'.paths path1 = [path1] := by
      unfold Op.paths
      split
      · exact absurd rfl (hne _)
      · rfl
    rw [hp]
    intro path' hmem
    rw [List.mem_singleton.mp hmem]
    exact hall
  · rw [hd] at hall
    intro path' hmem
    rcases List.mem_cons.mp hmem with rfl | h1
    · exact h0
    · rw [List.mem_singleton.mp h1]
      exact hall

section Mounted

/-- `a/m` is a mount point with the file `f` in it. Only root may pass through `a`. -/
def mounted : Sys where
  mounts := VFS.initMounts.insert 0 ['a', '/', 'm']
  rootNode := fun _ => 0
  node := fun mp id =>
    match mp, id with
    | 0, 0 => ⟨.directory, 0, 1, [⟨['a'], 1⟩], [], ⟨0, fun _ => 0⟩, 0, 0, ⟨7, 5, 5, 0⟩⟩
    | 0, 1 => ⟨.directory, 0, 1, [⟨['m'], 2⟩], [], ⟨0, fun _ => 0⟩, 0, 0, ⟨7, 0, 0, 0⟩⟩
    | 1, 0 => ⟨.directory, 0, 1, [⟨['f'], 1⟩], [], ⟨0, fun _ => 0⟩, 0, 0, ⟨7, 5, 5, 0⟩⟩
    | 1, 1 => ⟨.file, 0, 1, [], [], ⟨0, fun _ => 0⟩, 0, 0, ⟨7, 5, 5, 0⟩⟩
    | _, _ => ⟨.directory, 0, 1, [], [], ⟨0, fun _ => 0⟩, 0, 0, ⟨7, 5, 5, 0⟩⟩
  cached := fun _ _ => false
  alive := fun _ _ => true
  dirLock := fun _ _ => false
  nextID := fun _ => 3
  descs := []
  created := []
  thread := fun _ => ⟨1, 1, .idle, [], [], false, none⟩

def mountedFile : List Char := ['a', '/', 'm', '/', 'f']

theorem mounted_good (mp id : Nat) : Good mounted mp id := by
  refine ⟨rfl, ?_⟩
  unfold mounted
  dsimp only
  split <;> exact Int.le_refl 1

theorem mounted_sound : Sound mounted := ⟨fun _ => mounted_good _ _, fun _ _ _ _ _ => mounted_good _ _⟩

/-- No step of the walk needs it. -/
def noNode : Garbage := ⟨[], mounted.node 0 0⟩

theorem stat_mounted :
    (((mounted.begin 0 (.stat true) mountedFile).runs 0 noNode 11).thread 0).pc =
      .returned (.stat true) OK := rfl

/-- `Stat` of the file in the mount: the root of the mount lets everyone pass. -/
theorem execute_on_ancestors_mounted : mounted.ancestors false mountedFile = [(1, 0)] ∧
    ∀ path' ∈ (Op.stat true).paths mountedFile, PassedAll mounted 0 (Op.stat true).deleteMode path' :=
  ⟨by decide, execute_on_ancestors mounted_sound stat_mounted⟩

/-- **Above the mount point nothing is tested.** -/
theorem mount_bypasses_execute : ¬ ∀ (s : Sys) (t : Nat) (op op' : Op) (path : List Char) (g : Garbage)
    (n : Nat), Sound s → (s.thread t).uid ≠ 0 →
    (((s.begin t op path).runs t g n).thread t).pc = .returned op' OK →
    ∀ path1 ∈ op.paths path, ∀ path', Follows s op.deleteMode path1 path' →
      ∀ dir ∈ s.aboveMount path' ++ s.ancestors op.deleteMode path',
        s.check t dir.1 dir.2 permExecute = true := by
  intro h
  have hc := h mounted 0 (.stat true) (.stat true) mountedFile noNode 11 mounted_sound
    (by decide) stat_mounted mountedFile (List.mem_singleton.mpr rfl) mountedFile
    Relation.ReflTransGen.refl (0, 1) (by decide)
  cases hc

end Mounted

end Lookup

end SimpleOS2
