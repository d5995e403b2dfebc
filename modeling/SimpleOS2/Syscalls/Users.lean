/-
  File:      SimpleOS2/Syscalls/Users.lean
  Subject:   WHO A THREAD IS (DoExec of syscalls/SyscallHandler.cpp, ThreadSetUser and CloneThread of
             scheduler/Scheduler.cpp, the system calls of fs/VFS.cpp).

  The uid of a thread changes in three places. Two of them let only root choose; `DoExec` takes over the
  owner of the program if its node carries `SetUID`. So it is a question of where this flag can come from.

  * `Syscall.op` -- the calls on paths as the system calls make them, with their permissions;
  * `doExec`, `threadSetUser`, `cloneThread` -- the three places; `userStep` -- all of it together;
  * `bootPermissions` -- the permissions that the four file systems give their nodes;
  * `readsNodes` -- the condition: `AcquireNode` is asked for ids of nodes only;
  * `Flagless`, `flagless_step` -- no node, no call under way and no result of `Stat` carries the flag;
  * `uid_kept` -- a thread that is not root stays who it is, and so does its family;
  * `overlong_name_sets_uid` -- a name of 60 characters that makes a user root.

  Threads that have ended stay in the table and take no more steps.
-/
import SimpleOS2.Fs.References

namespace SimpleOS2

open Lib

namespace Lookup

/-! ## 1. The system calls -/

/-- The system calls on paths, with what they get from the user. -/
inductive Syscall where
  | createFile
  | createFolder
  | createDev (blockDev : Bool)
  | createSymlink (linkPath : List Char)
  | createHardlink (path : Except Int (List Char))
  | delete
  | changeOwner (uid gid : Nat)
  | changePerm (ownerPerm groupPerm otherPerm : Nat)
  | stat
  | statl
  | list (numEntries : Nat) (writable : Nat → Bool)
  | openFile (mode : Nat)
  | cd

/-- What they call. A `Permissions` written with three values has the fourth zero. -/
def Syscall.op : Syscall → Op
  | .createFile => .create .file ⟨3, 3, 3, 0⟩ []
  | .createFolder => .create .directory ⟨7, 7, 7, 0⟩ []
  | .createDev blockDev => .create (if blockDev then .deviceBlock else .deviceChar) ⟨3, 3, 3, 0⟩ []
  | .createSymlink linkPath => .create .symlink ⟨3, 3, 3, 0⟩ linkPath
  | .createHardlink path => .hardLink path
  | .delete => .delete
  | .changeOwner uid gid => .changeOwner uid gid
  | .changePerm ownerPerm groupPerm otherPerm => .changePermissions ⟨ownerPerm, groupPerm, otherPerm, 0⟩
  | .stat => .stat true
  | .statl => .stat false
  | .list numEntries writable => .list numEntries writable
  | .openFile mode => .openFile mode
  | .cd => .cd

/-! ## 2. The three places -/

/-- The test of `DoExec` on what `Stat` has told. -/
def mayExecute (th : Thread) (stats : NodeStats) : Bool :=
  if th.uid = 0 then true
  else if stats.ownerUID = th.uid then stats.permissions.ownerPermissions &&& permExecute ≠ 0
  else if stats.ownerGID = th.gid then stats.permissions.groupPermissions &&& permExecute ≠ 0
  else stats.permissions.otherPermissions &&& permExecute ≠ 0

/-- `DoExec` after its `Stat`, for a program that can be read and prepared. -/
def doExec (th : Thread) : Thread :=
  match th.stats with
  | none => th
  | some stats =>
      if mayExecute th stats = false then th
      else if stats.permissions.specialFlags &&& permSetUID ≠ 0 then
        { th with uid := stats.ownerUID, gid := stats.ownerGID, stats := none }
      else { th with stats := none }

/-- `ThreadSetUser`. -/
def threadSetUser (th : Thread) (uid gid : Nat) : Thread × Int :=
  if th.uid ≠ 0 then (th, ErrorPermissionDenied) else ({ th with uid := uid, gid := gid }, OK)

/-- The thread that `CloneThread` makes. -/
def cloneThread (th : Thread) : Thread := ⟨th.uid, th.gid, .idle, [], [], false, none⟩

/-- The threads that exist, and who has created them. -/
structure Users where
  sys : Sys
  present : Nat → Bool
  creator : Nat → Option Nat

inductive UserEvent where
  | vfs (ev : Event)
  | pipe (mp : Nat)
  /-- `fork` and `thread_create`. -/
  | clone (t u : Nat)
  | kernelThread (u : Nat)
  | changeUser (t uid gid : Nat)
  | exec (t : Nat)

/-- The calls on paths come from system calls of threads that exist. -/
def fromSyscall (present : Nat → Bool) : Event → Prop
  | .start t op _ => present t = true ∧ ∃ c : Syscall, op = c.op
  | .refuse t op _ => present t = true ∧ ∃ c : Syscall, op = c.op
  | .close t _ => present t = true
  | _ => True

/-- The node of `CreatePipe`: what `PipeFS::CreateNode` leaves of a zeroed `Node`. -/
def pipeNode : Node := ⟨.pipe, 2, 0, [], [], ⟨0, fun _ => 0⟩, 0, 0, ⟨0, 0, 0, 0⟩⟩

inductive userStep : Users → UserEvent → Users → Prop where
  | vfs (s : Users) (ev : Event) (sys : Sys) (hs : sysStep s.sys ev sys) (hc : fromSyscall s.present ev) :
      userStep s (.vfs ev) { s with sys := sys }
  | pipe (s : Users) (mp : Nat) (g : Garbage) :
      userStep s (.pipe mp) { s with sys := s.sys.perform g (.make mp pipeNode) }
  | clone (s : Users) (t u : Nat) (ht : s.present t = true) (hu : s.present u = false) :
      userStep s (.clone t u)
        { sys := s.sys.setThread u (cloneThread (s.sys.thread t))
          present := Function.update s.present u true
          creator := Function.update s.creator u (some t) }
  | kernelThread (s : Users) (u : Nat) (hu : s.present u = false) :
      userStep s (.kernelThread u)
        { sys := s.sys.setThread u ⟨0, 0, .idle, [], [], false, none⟩
          present := Function.update s.present u true
          creator := Function.update s.creator u none }
  | changeUser (s : Users) (t uid gid : Nat) :
      userStep s (.changeUser t uid gid)
        { s with sys := s.sys.setThread t (threadSetUser (s.sys.thread t) uid gid).1 }
  | exec (s : Users) (t : Nat) (ht : (s.sys.thread t).pc = .idle) :
      userStep s (.exec t) { s with sys := s.sys.setThread t (doExec (s.sys.thread t)) }

/-! ## 3. Boot -/

/-- The permissions of nodes after boot: the root of TempFS, `/dev`, `/boot`, the root and the devices of
    DevFS, the nodes of ext2 and of PipeFS. `Ext2Driver::ReadNode` and `PipeFS` leave the last field of a
    zeroed `Node` as it is. -/
def bootPermissions : List Permissions :=
  [⟨7, 5, 5, 0⟩, ⟨5, 5, 5, 0⟩, ⟨3, 1, 1, 0⟩, ⟨5, 5, 5, 0⟩, ⟨1, 1, 1, 0⟩, ⟨5, 5, 5, 0⟩, ⟨0, 0, 0, 0⟩]

/-- The state after boot. What the table holds for an id that denotes no node is never read. -/
structure boot (s : Users) : Prop where
  nodes : ∀ mp id, (s.sys.node mp id).permissions ∈ bootPermissions
  idle : ∀ t, (s.sys.thread t).pc = .idle
  stats : ∀ t, (s.sys.thread t).stats = none
  creators : ∀ u p, s.creator u = some p → s.present p = true

/-- `AcquireNode` finds the node in the cache or reads one that exists. -/
def Known (s : Sys) (mp id : Nat) : Prop := s.cached mp id = true ∨ s.alive mp id = true

/-- The id for which the thread will call `AcquireNode`. -/
def Pc.acquires (s : Sys) : Pc → Option (Nat × Nat)
  | .root _ _ mp _ => some (mp, s.rootNode mp)
  | .entry _ _ mp _ id _ => some (mp, id)
  | _ => none

/-- **The condition**: ids that denote no node, because it has been destroyed or because an over-long name
    has overwritten them, are not acquired. -/
def readsNodes (s : Users) : UserEvent → Prop
  | .vfs (.run t _) => ∀ mp id, (s.sys.thread t).pc.acquires s.sys = some (mp, id) → Known s.sys mp id
  | _ => True

/-! ## 4. The flag -/

def Op.flagless : Op → Prop
  | .create _ permissions _ => permissions.specialFlags = 0
  | .changePermissions permissions => permissions.specialFlags = 0
  | _ => True

def Effect.flagless (s : Sys) : Effect → Prop
  | .acquire mp id => Known s mp id
  | .make _ node => node.permissions.specialFlags = 0
  | .stat stats => stats.permissions.specialFlags = 0
  | .changePermissions _ _ permissions => permissions.specialFlags = 0
  | _ => True

/-- No special flag anywhere: in a node, in a call under way, in a result of `Stat`. -/
structure Flagless (s : Sys) : Prop where
  nodes : ∀ mp id, (s.node mp id).permissions.specialFlags = 0
  ops : ∀ t op, (s.thread t).pc.op = some op → op.flagless
  stats : ∀ t stats, (s.thread t).stats = some stats → stats.permissions.specialFlags = 0

section Flag

variable {s : Sys} {t : Nat} {g : Garbage} {op : Op} {mp id : Nat}

theorem syscall_flagless (c : Syscall) : c.op.flagless := by
  cases c <;> first | rfl | trivial

theorem setNode_flagless {n : Node} (h : ∀ mp id, (s.node mp id).permissions.specialFlags = 0)
    (hn : n.permissions.specialFlags = 0) (mp' id' : Nat) :
    ((s.setNode mp id n).node mp' id').permissions.specialFlags = 0 := by
  show (update₂ s.node mp id n mp' id').permissions.specialFlags = 0
  by_cases hx : mp' = mp ∧ id' = id
  · obtain ⟨rfl, rfl⟩ := hx
    rw [update₂_self]
    exact hn
  · rw [update₂_of_ne _ _ hx]
    exact h mp' id'

theorem perform_flagless {e : Effect} (h : ∀ mp id, (s.node mp id).permissions.specialFlags = 0)
    (he : e.flagless s) (mp' id' : Nat) : ((s.perform g e).node mp' id').permissions.specialFlags = 0 := by
  cases e with
  | acquire mp id =>
      show ((s.acquireNode mp id g.node).node mp' id').permissions.specialFlags = 0
      unfold Sys.acquireNode
      split_ifs with hc ha
      · exact setNode_flagless h (by exact h mp id) mp' id'
      · exact setNode_flagless h (by exact h mp id) mp' id'
      · exact absurd (he.resolve_left hc) ha
  | release r =>
      cases r with
      | node mp id =>
          show ((s.releaseNode mp id).node mp' id').permissions.specialFlags = 0
          unfold Sys.releaseNode
          split_ifs
          · exact setNode_flagless h (by exact h mp id) mp' id'
          · exact setNode_flagless h (by exact h mp id) mp' id'
      | mount mp => exact h mp' id'
  | openDesc clear desc =>
      cases clear with
      | false => exact h mp' id'
      | true => exact setNode_flagless h (by exact h desc.mp desc.id) mp' id'
  | make mp node => exact setNode_flagless h (by exact he) mp' id'
  | link mp id n => exact setNode_flagless h (by exact h mp id) mp' id'
  | addEntry mp id name dir => exact setNode_flagless h (by exact h mp id) mp' id'
  | removeEntry mp id dir => exact setNode_flagless h (by exact h mp id) mp' id'
  | changeOwner mp id uid gid => exact setNode_flagless h (by exact h mp id) mp' id'
  | changePermissions mp id permissions => exact setNode_flagless h (by exact he) mp' id'
  | none => exact h mp' id'
  | find mp count => exact h mp' id'
  | keepLock mp id => exact h mp' id'
  | stat stats => exact h mp' id'

theorem planMake_flagless {parent : Nat} {name : List Char} (hop : op.flagless) :
    (s.planMake t op mp parent name).1.flagless s := by
  cases op with
  | create type permissions linkPath => exact hop
  | openFile mode => exact rfl
  | _ => trivial

theorem planLookAt_flagless (h : ∀ mp id, (s.node mp id).permissions.specialFlags = 0) (hop : op.flagless) :
    (s.planLookAt t op mp id).1.flagless s := by
  unfold Sys.planLookAt
  split
  · split_ifs
    · trivial
    · split <;> trivial
  · split_ifs <;> trivial
  · split_ifs <;> trivial
  · split_ifs
    · exact hop
    · trivial
  · exact h mp id

theorem planCreate_flagless {node parent : Option Nat} {go : Nat → Effect × Pc}
    (hgo : ∀ p, (go p).1.flagless s) : (s.planCreate t op mp node parent go).1.flagless s := by
  unfold Sys.planCreate
  split
  · split_ifs
    · trivial
    · exact hgo _
  · trivial

theorem planLook_flagless {path rest : List Char} {node parent : Option Nat} :
    (Sys.planLook op path mp node parent rest).1.flagless s := by
  unfold Sys.planLook
  split <;> trivial

theorem planDone_flagless {path rest : List Char} {node parent : Option Nat} :
    (s.planDone t op path mp node parent rest).1.flagless s := by
  cases op with
  | create type permissions linkPath => exact planCreate_flagless fun p => trivial
  | linkTo lmp lid =>
      refine planCreate_flagless fun p => ?_
      split_ifs <;> trivial
  | openFile mode => trivial
  | delete => trivial
  | cd => cases node <;> trivial
  | hardLink path' => exact planLook_flagless
  | stat followSymlink => exact planLook_flagless
  | list n writable => exact planLook_flagless
  | changeOwner uid gid => exact planLook_flagless
  | changePermissions p => exact planLook_flagless
  | close => exact planLook_flagless

theorem locked_flagless {wait : Pc} {go : Effect × Pc} (h : go.1.flagless s) :
    (s.locked mp id wait go).1.flagless s := by
  unfold Sys.locked
  split_ifs
  · trivial
  · exact h

/-- **No step brings the flag.** -/
theorem planAt_flagless {pc : Pc} (h : ∀ mp id, (s.node mp id).permissions.specialFlags = 0)
    (hop : ∀ op, pc.op = some op → op.flagless)
    (hacq : ∀ mp id, pc.acquires s = some (mp, id) → Known s mp id) :
    (s.planAt t g pc).1.flagless s := by
  cases pc with
  | find op path =>
      show (s.planFind op path).1.flagless s
      unfold Sys.planFind
      split <;> trivial
  | root op path mp rest => exact hacq mp (s.rootNode mp) rfl
  | entry op path mp cur id rest => exact hacq mp id rfl
  | search op path mp cur rest => exact locked_flagless trivial
  | arrived op path mp cur id rest =>
      show (s.planArrived op path mp cur id rest).1.flagless s
      unfold Sys.planArrived
      split_ifs <;> trivial
  | relink op path todo => cases todo <;> trivial
  | done op path mp node parent rest => exact planDone_flagless
  | make op mp parent name => exact planMake_flagless (hop op rfl)
  | insert op mp parent id name => exact locked_flagless trivial
  | opened mode mp id =>
      show (s.planOpened t mode mp id).1.flagless s
      unfold Sys.planOpened
      split_ifs <;> trivial
  | lookAt op mp id => exact planLookAt_flagless h (hop op rfl)
  | listing mp id n writable => exact locked_flagless trivial
  | checkEmpty path mp id parent => exact locked_flagless trivial
  | remove path mp id parent =>
      refine locked_flagless ?_
      obtain ⟨i, e, -, -, -, hp⟩ | ⟨-, hp⟩ := planRemove_cases s path mp id parent <;> rw [hp] <;> trivial
  | cleanup op todo after => cases todo <;> trivial
  | _ => trivial

theorem after_stats {th : Thread} {e : Effect} {pc : Pc} {stats : NodeStats}
    (h : (th.after s e pc).stats = some stats) : th.stats = some stats ∨ e = .stat stats := by
  cases e with
  | stat stats' => exact Or.inr (congrArg Effect.stat (Option.some.inj h))
  | _ => exact Or.inl h

theorem step_nodes {s' : Sys} {ev : Event} (h : Flagless s) (hs : sysStep s ev s')
    (hread : ∀ t g, ev = .run t g → ∀ mp id, (s.thread t).pc.acquires s = some (mp, id) → Known s mp id)
    (mp id : Nat) : (s'.node mp id).permissions.specialFlags = 0 := by
  cases hs with
  | run t g =>
      exact perform_flagless h.nodes (planAt_flagless h.nodes (h.ops t) (hread t g rfl)) mp id
  | write i pos buffer bufferSize d hd hw htype =>
      exact setNode_flagless h.nodes (by exact h.nodes d.mp d.id) mp id
  | start t op path ht hop => exact h.nodes mp id
  | refuse t op res ht hop hres => exact h.nodes mp id
  | leave t op res ht => exact h.nodes mp id
  | closeLast t i d ht hd hr => exact h.nodes mp id
  | addRef i d hd => exact h.nodes mp id
  | closeShared t i d ht hd hr => exact h.nodes mp id
  | remount mounts => exact h.nodes mp id

theorem step_stats {s' : Sys} {ev : Event} (h : Flagless s) (hs : sysStep s ev s')
    (hread : ∀ t g, ev = .run t g → ∀ mp id, (s.thread t).pc.acquires s = some (mp, id) → Known s mp id)
    (u : Nat) (stats : NodeStats) (hst : (s'.thread u).stats = some stats) :
    stats.permissions.specialFlags = 0 := by
  obtain hu | ⟨g, hev, hu⟩ | ⟨op, path, hop, hi, hu⟩ | ⟨op, res, -, hi, hu⟩ | ⟨op, res, hi, hu⟩ |
    ⟨d, -, hi, hu⟩ := step_thread hs u
  all_goals rw [hu] at hst
  · exact h.stats u stats hst
  · rw [next_self] at hst
    rcases after_stats hst with h1 | h1
    · exact h.stats u stats h1
    · have he := planAt_flagless (t := u) (g := g) h.nodes (h.ops u) (hread u g hev)
      change (s.plan u g).1.flagless s at he
      rw [h1] at he
      exact he
  all_goals exact h.stats u stats hst

/-- A thread that is put in place of another, with no call under way. -/
theorem setThread_flagless {th : Thread} (h : Flagless s) (hpc : ∀ op, th.pc.op = some op → op.flagless)
    (hst : ∀ stats, th.stats = some stats → stats.permissions.specialFlags = 0) :
    Flagless (s.setThread t th) := by
  refine ⟨h.nodes, fun u op hop => ?_, fun u stats hs => ?_⟩
  · by_cases hu : u = t
    · subst hu
      rw [setThread_self] at hop
      exact hpc op hop
    · rw [setThread_other s th hu] at hop
      exact h.ops u op hop
  · by_cases hu : u = t
    · subst hu
      rw [setThread_self] at hs
      exact hst stats hs
    · rw [setThread_other s th hu] at hs
      exact h.stats u stats hs

theorem threadSetUser_pc (th : Thread) (uid gid : Nat) :
    (threadSetUser th uid gid).1.pc = th.pc ∧ (threadSetUser th uid gid).1.stats = th.stats := by
  unfold threadSetUser
  split_ifs <;> exact ⟨rfl, rfl⟩

theorem doExec_pc (th : Thread) :
    (doExec th).pc = th.pc ∧ ((doExec th).stats = none ∨ (doExec th).stats = th.stats) := by
  unfold doExec
  split
  · exact ⟨rfl, Or.inr rfl⟩
  · split_ifs
    · exact ⟨rfl, Or.inr rfl⟩
    · exact ⟨rfl, Or.inl rfl⟩
    · exact ⟨rfl, Or.inl rfl⟩

theorem flagless_boot {s : Users} (h : boot s) : Flagless s.sys := by
  refine ⟨fun mp id => ?_, fun t op hop => ?_, fun t stats hst => ?_⟩
  · have hall : ∀ p ∈ bootPermissions, p.specialFlags = 0 := by decide
    exact hall _ (h.nodes mp id)
  · rw [h.idle t] at hop
    cases hop
  · rw [h.stats t] at hst
    cases hst

theorem flagless_step {s s' : Users} {ev : UserEvent} (h : Flagless s.sys)
    (hs : Guarded userStep readsNodes s ev s') : Flagless s'.sys := by
  obtain ⟨hs, hok⟩ := hs
  cases hs with
  | vfs ev sys hs hc =>
      have hread : ∀ t g, ev = .run t g →
          ∀ mp id, (s.sys.thread t).pc.acquires s.sys = some (mp, id) → Known s.sys mp id := by
        rintro t g rfl
        exact hok
      refine ⟨step_nodes h hs hread, op_step hs ?_ ?_ (fun _ _ => trivial) trivial h.ops,
        step_stats h hs hread⟩
      · rintro t op path rfl
        obtain ⟨-, c, rfl⟩ := hc
        exact syscall_flagless c
      · rintro t op res rfl
        obtain ⟨-, c, rfl⟩ := hc
        exact syscall_flagless c
  | pipe mp g =>
      have he : (Effect.make mp pipeNode).flagless s.sys := rfl
      exact ⟨perform_flagless (g := g) h.nodes he, h.ops, h.stats⟩
  | clone t u ht hu =>
      exact setThread_flagless h (fun op hop => by cases hop) fun stats hst => by cases hst
  | kernelThread u hu =>
      exact setThread_flagless h (fun op hop => by cases hop) fun stats hst => by cases hst
  | changeUser t uid gid =>
      obtain ⟨h1, h2⟩ := threadSetUser_pc (s.sys.thread t) uid gid
      refine setThread_flagless h ?_ ?_
      · rw [h1]
        exact h.ops t
      · rw [h2]
        exact h.stats t
  | exec t ht =>
      obtain ⟨h1, h2⟩ := doExec_pc (s.sys.thread t)
      refine setThread_flagless h ?_ ?_
      · rw [h1]
        exact h.ops t
      · intro stats hst
        rcases h2 with h2 | h2
        · rw [h2] at hst
          cases hst
        · exact h.stats t stats (h2 ▸ hst)

end Flag

/-! ## 5. Who a thread is -/

/-- The threads that `t`, or one of its family, has created since `s`. -/
inductive Family (s s' : Users) (t : Nat) : Nat → Prop where
  | self : Family s s' t t
  | child (p u : Nat) (hp : Family s s' t p) (hc : s'.creator u = some p) (hnew : s.present u = false)
      (hu : s'.present u = true) : Family s s' t u

section Uid

variable {s s' : Users} {ev : UserEvent}

theorem doExec_uid {th : Thread} (h : ∀ stats, th.stats = some stats → stats.permissions.specialFlags = 0) :
    (doExec th).uid = th.uid := by
  unfold doExec
  split
  · rfl
  · rename_i stats hst
    split_ifs with h1 h2
    · rfl
    · rw [h stats hst] at h2
      exact absurd (Nat.zero_and _) h2
    · rfl

theorem threadSetUser_uid {th : Thread} (h : th.uid ≠ 0) (uid gid : Nat) :
    (threadSetUser th uid gid).1.uid = th.uid := by
  unfold threadSetUser
  rw [if_pos h]

theorem sysStep_uid {x y : Sys} {e : Event} (hs : sysStep x e y) (u : Nat) :
    (y.thread u).uid = (x.thread u).uid := by
  obtain hu | ⟨g, hev, hu⟩ | ⟨op, path, hop, hi, hu⟩ | ⟨op, res, -, hi, hu⟩ | ⟨op, res, hi, hu⟩ |
    ⟨d, -, hi, hu⟩ := step_thread hs u
  all_goals rw [hu]
  rw [next_self]
  rfl

/-- A thread that is not root stays who it is. -/
theorem uid_step (h : Flagless s.sys) (hs : userStep s ev s') {u : Nat} (hu : s.present u = true)
    (h0 : (s.sys.thread u).uid ≠ 0) : (s'.sys.thread u).uid = (s.sys.thread u).uid := by
  cases hs with
  | vfs ev sys hs hc => exact sysStep_uid hs u
  | pipe mp g => rfl
  | clone t v ht hv =>
      have hne : u ≠ v := by
        rintro rfl
        rw [hu] at hv
        cases hv
      exact congrArg Thread.uid (setThread_other s.sys _ hne)
  | kernelThread v hv =>
      have hne : u ≠ v := by
        rintro rfl
        rw [hu] at hv
        cases hv
      exact congrArg Thread.uid (setThread_other s.sys _ hne)
  | changeUser t uid gid =>
      by_cases hut : u = t
      · subst hut
        exact (congrArg Thread.uid (setThread_self s.sys u _)).trans (threadSetUser_uid h0 uid gid)
      · exact congrArg Thread.uid (setThread_other s.sys _ hut)
  | exec t ht =>
      by_cases hut : u = t
      · subst hut
        exact (congrArg Thread.uid (setThread_self s.sys u _)).trans (doExec_uid (h.stats u))
      · exact congrArg Thread.uid (setThread_other s.sys _ hut)

/-- Threads stay, with their creators, and a new one has the uid of its creator. -/
theorem present_step (hs : userStep s ev s') (u : Nat) :
    (s.present u = true ∧ s'.present u = true ∧ s'.creator u = s.creator u) ∨
    (s.present u = false ∧ s'.present u = false ∧ s'.creator u = s.creator u) ∨
    (s.present u = false ∧ s'.present u = true ∧ ∀ p, s'.creator u = some p →
      s.present p = true ∧ (s'.sys.thread u).uid = (s.sys.thread p).uid) := by
  have hsame : s'.present = s.present → s'.creator = s.creator →
      (s.present u = true ∧ s'.present u = true ∧ s'.creator u = s.creator u) ∨
      (s.present u = false ∧ s'.present u = false ∧ s'.creator u = s.creator u) := by
    intro h1 h2
    rw [h1, h2]
    cases s.present u <;> simp
  cases hs with
  | vfs ev sys hs hc => exact (hsame rfl rfl).imp id Or.inl
  | pipe mp g => exact (hsame rfl rfl).imp id Or.inl
  | changeUser t uid gid => exact (hsame rfl rfl).imp id Or.inl
  | exec t ht => exact (hsame rfl rfl).imp id Or.inl
  | clone t v ht hv =>
      by_cases huv : u = v
      · subst huv
        refine Or.inr (Or.inr ⟨hv, Function.update_self u _ _, fun p hp => ?_⟩)
        have hp' : some t = some p := (Function.update_self u _ _).symm.trans hp
        rw [← Option.some.inj hp']
        exact ⟨ht, (congrArg Thread.uid (setThread_self s.sys u _)).trans rfl⟩
      · simp only [Function.update_of_ne huv]
        cases s.present u <;> simp
  | kernelThread v hv =>
      by_cases huv : u = v
      · subst huv
        refine Or.inr (Or.inr ⟨hv, Function.update_self u _ _, fun p hp => ?_⟩)
        have hp' : none = some p := (Function.update_self u _ _).symm.trans hp
        cases hp'
      · simp only [Function.update_of_ne huv]
        cases s.present u <;> simp

/-- Creators exist. -/
def Creators (s : Users) : Prop := ∀ u p, s.creator u = some p → s.present p = true

theorem creators_step (h : Creators s) (hs : userStep s ev s') : Creators s' := by
  intro u p hp
  have hpres : ∀ q, s.present q = true → s'.present q = true := by
    intro q hq
    rcases present_step hs q with ⟨-, h2, -⟩ | ⟨h1, -, -⟩ | ⟨h1, -, -⟩
    · exact h2
    · rw [hq] at h1
      cases h1
    · rw [hq] at h1
      cases h1
  rcases present_step hs u with ⟨-, -, h3⟩ | ⟨-, -, h3⟩ | ⟨-, -, h3⟩
  · exact hpres p (h u p (h3 ▸ hp))
  · exact hpres p (h u p (h3 ▸ hp))
  · exact hpres p (h3 p hp).1

/-- What a run keeps from boot on. -/
def UserInv (s : Users) : Prop := Flagless s.sys ∧ Creators s

theorem userInv_reach {init : Users → Prop} (h0 : ∀ s, init s → UserInv s)
    (h : Reach (Guarded userStep readsNodes) init s) : UserInv s :=
  h.inv h0 fun _ _ _ hI hs => ⟨flagless_step hI.1 hs, creators_step hI.2 hs.1⟩

/-- The family before a step, for its members that exist already. -/
theorem family_before {s0 : Users} {t u : Nat} (hC : Creators s) (hs : userStep s ev s')
    (hf : Family s0 s' t u) (hu : s.present u = true) : Family s0 s t u := by
  induction hf with
  | self => exact .self
  | child p u hp hc hnew hu' ih =>
      rcases present_step hs u with ⟨-, -, h3⟩ | ⟨h1, -, -⟩ | ⟨h1, -, -⟩
      · have hc' : s.creator u = some p := h3 ▸ hc
        exact .child p u (ih (hC u p hc')) hc' hnew hu
      · rw [hu] at h1
        cases h1
      · rw [hu] at h1
        cases h1

/-- All of the family have the same uid. -/
def OneUid (s0 : Users) (t uid : Nat) (s : Users) : Prop :=
  ∀ u, Family s0 s t u → s.present u = true ∧ (s.sys.thread u).uid = uid

theorem oneUid_step {s0 : Users} {t uid : Nat} (h0 : uid ≠ 0) (hI : UserInv s) (hk : OneUid s0 t uid s)
    (hs : Guarded userStep readsNodes s ev s') : OneUid s0 t uid s' := by
  intro u hf
  have hold : s.present u = true → s'.present u = true ∧ (s'.sys.thread u).uid = uid := by
    intro hu
    have hu1 := (hk u (family_before hI.2 hs.1 hf hu)).2
    refine ⟨?_, (uid_step hI.1 hs.1 hu (hu1 ▸ h0)).trans hu1⟩
    rcases present_step hs.1 u with ⟨-, h2, -⟩ | ⟨h1, -, -⟩ | ⟨-, h2, -⟩
    · exact h2
    · rw [hu] at h1
      cases h1
    · exact h2
  cases hf with
  | self => exact hold (hk t .self).1
  | child p _ hp hc hnew hu' =>
      rcases present_step hs.1 u with ⟨h1, -, -⟩ | ⟨-, h2, -⟩ | ⟨-, h2, h3⟩
      · exact hold h1
      · rw [hu'] at h2
        cases h2
      · obtain ⟨h4, h5⟩ := h3 p hc
        exact ⟨h2, h5.trans (hk p (family_before hI.2 hs.1 hp h4)).2⟩

end Uid

/-! ## 6. Results -/

/-- **No node ever carries `SetUID`, and a thread that is not root keeps its uid, with its family**, in
    every run that meets the condition. -/
theorem uid_kept {s : Users} (h : Reach (Guarded userStep readsNodes) boot s) :
    (∀ mp id, (s.sys.node mp id).permissions.specialFlags &&& permSetUID = 0) ∧
    ∀ t, s.present t = true → (s.sys.thread t).uid ≠ 0 →
      ∀ s', Reach (Guarded userStep readsNodes) (· = s) s' → ∀ u, Family s s' t u →
        (s'.sys.thread u).uid = (s.sys.thread t).uid := by
  have hI : UserInv s := userInv_reach (fun _ hb => ⟨flagless_boot hb, hb.creators⟩) h
  constructor
  · intro mp id
    rw [hI.1.nodes mp id]
    exact Nat.zero_and _
  · intro t ht h0 s' hr u hf
    have hstart : ∀ x, x = s → OneUid s t (s.sys.thread t).uid x := by
      rintro x rfl u hf
      cases hf with
      | self => exact ⟨ht, rfl⟩
      | child p _ hp hc hnew hu =>
          rw [hu] at hnew
          cases hnew
    have hinv : ∀ x, x = s → UserInv x := by
      rintro x rfl
      exact hI
    have hall : OneUid s t (s.sys.thread t).uid s' :=
      hr.invStep hstart fun x l y hx hk hs => oneUid_step h0 (userInv_reach hinv hx) hk hs
    exact (hall u hf).2

section Overlong

/-- After boot: the empty root folder of TempFS. Ids are addresses on the kernel heap. -/
def afterBoot : Users where
  sys :=
    { mounts := VFS.initMounts
      rootNode := fun _ => 0xFFFFFF0000001000
      node := fun _ _ => ⟨.directory, 0, 1, [], [], ⟨0, fun _ => 0⟩, 0, 0, ⟨7, 5, 5, 0⟩⟩
      cached := fun _ _ => false
      alive := fun _ id => id = 0xFFFFFF0000001000
      dirLock := fun _ _ => false
      nextID := fun _ => 0xFFFFFF0000002000
      descs := []
      created := []
      thread := fun _ => ⟨0, 0, .idle, [], [], false, none⟩ }
  present := fun t => t = 0
  creator := fun _ => none

theorem afterBoot_boot : boot afterBoot :=
  ⟨fun _ _ => List.mem_cons_self, fun _ => rfl, fun _ => rfl, fun _ _ h => by cases h⟩

def Users.setThread (s : Users) (t : Nat) (th : Thread) : Users := { s with sys := s.sys.setThread t th }

/-- Root becomes the user 1. -/
def asUser (s : Users) : Users := s.setThread 0 (threadSetUser (s.sys.thread 0) 1 1).1

/-- It creates a thread. -/
def withChild (s : Users) : Users where
  sys := s.sys.setThread 5 (cloneThread (s.sys.thread 0))
  present := Function.update s.present 5 true
  creator := Function.update s.creator 5 (some 0)

/-- A user's child is the same user. -/
theorem uid_kept_clone : (((asUser afterBoot).sys.thread 0).uid = 1) ∧
    ((withChild (asUser afterBoot)).sys.thread 5).uid = ((asUser afterBoot).sys.thread 0).uid := by
  have h : Reach (Guarded userStep readsNodes) boot (asUser afterBoot) := by
    refine .next afterBoot (UserEvent.changeUser 0 1 1) _ (.start _ afterBoot_boot) ⟨?_, trivial⟩
    exact .changeUser afterBoot 0 1 1
  have h' : Reach (Guarded userStep readsNodes) (· = asUser afterBoot) (withChild (asUser afterBoot)) := by
    refine .next (asUser afterBoot) (UserEvent.clone 0 5) _ (.start _ rfl) ⟨?_, trivial⟩
    exact .clone (asUser afterBoot) 0 5 rfl rfl
  exact ⟨rfl, (uid_kept h).2 0 rfl (by decide) _ h' 5 (.child 0 5 .self rfl rfl rfl)⟩

/-- A name of 60 characters. -/
def overlong : List Char := List.replicate 56 'a' ++ List.replicate 4 (Char.ofNat 1)

/-- `kstrcpy` puts the last four of the 60 characters and the zero over the lower five bytes of `nodeID`,
    which stands at offset 56 of the entry. -/
def overwritten (id : Nat) (name : List Char) : Nat :=
  id / 2 ^ 40 * 2 ^ 40 + (name.drop 56).foldr (fun c n => n * 2 ^ 8 + c.toNat) 0

/-- The directory after the insertion, and what a user has written where the id points to: the bytes of a
    `TestNode` of root with `SetUID`, in the data of a file. -/
def forged : Garbage where
  dir := [⟨overlong, overwritten 0xFFFFFF0000003000 overlong⟩]
  node := ⟨.file, 0, 1, [], [], ⟨0, fun _ => 0⟩, 0, 0, ⟨7, 7, 7, 1⟩⟩

def Users.call (s : Users) (op : Op) (path : List Char) (n : Nat) : Users :=
  { s with sys := (s.sys.begin 0 op path).runs 0 forged n }

def Users.leave (s : Users) : Users := s.setThread 0 { s.sys.thread 0 with pc := .idle }

/-- Root makes the folder `t` and becomes the user 1. -/
def user : Users := asUser (afterBoot.call Syscall.createFolder.op ['t'] 11).leave

/-- The user creates a file of the name and executes it. -/
def executed : Users :=
  let s := ((user.call Syscall.createFile.op ('t' :: '/' :: overlong) 15).leave.call
    Syscall.stat.op ('t' :: '/' :: overlong) 15).leave
  s.setThread 0 (doExec (s.sys.thread 0))

theorem runs_users {init : Users → Prop} {s : Users} (h : Reach userStep init s) (t : Nat) (g : Garbage)
    (n : Nat) : Reach userStep init { s with sys := s.sys.runs t g n } := by
  induction n with
  | zero => exact h
  | succ n ih => exact .next _ (.vfs (.run t g)) _ ih (.vfs _ _ _ (.run _ t g) trivial)

theorem call_users {init : Users → Prop} {s : Users} (h : Reach userStep init s) (c : Syscall)
    (hon : c.op.onPath = true) (path : List Char) (n : Nat) (hp : s.present 0 = true)
    (ht : (s.sys.thread 0).pc = .idle) : Reach userStep init (s.call c.op path n) := by
  have hstart : userStep s (.vfs (.start 0 c.op path)) { s with sys := s.sys.begin 0 c.op path } :=
    .vfs s _ _ (.start s.sys 0 c.op path ht hon) ⟨hp, c, rfl⟩
  exact runs_users (.next _ _ _ h hstart) 0 forged n

theorem leave_users {init : Users → Prop} {s : Users} (h : Reach userStep init s) (op : Op) (res : Int)
    (ht : (s.sys.thread 0).pc = .returned op res) : Reach userStep init s.leave :=
  .next _ (.vfs (.leave 0)) _ h (.vfs s _ _ (.leave s.sys 0 op res ht) trivial)

theorem user_reach : Reach userStep boot user := by
  have h1 := call_users (.start _ afterBoot_boot) .createFolder rfl ['t'] 11 rfl rfl
  have h2 := leave_users h1 Syscall.createFolder.op OK rfl
  exact .next _ (.changeUser 0 1 1) _ h2 (.changeUser _ 0 1 1)

theorem executed_reach : Reach userStep (· = user) executed := by
  have h0 : Reach userStep (· = user) user := .start _ rfl
  have h1 := call_users h0 .createFile rfl ('t' :: '/' :: overlong) 15 rfl rfl
  have h2 := leave_users h1 Syscall.createFile.op OK rfl
  have h3 := call_users h2 .stat rfl ('t' :: '/' :: overlong) 15 rfl rfl
  have h4 := leave_users h3 Syscall.stat.op OK rfl
  exact .next _ (.exec 0) _ h4 (.exec _ 0 rfl)

/-- **A user becomes root**: the over-long name makes an entry that denotes a forged node. -/
theorem overlong_name_sets_uid : ¬ ∀ s, Reach userStep boot s →
    (∀ mp id, (s.sys.node mp id).permissions.specialFlags &&& permSetUID = 0) ∧
    ∀ t, s.present t = true → (s.sys.thread t).uid ≠ 0 →
      ∀ s', Reach userStep (· = s) s' → ∀ u, Family s s' t u →
        (s'.sys.thread u).uid = (s.sys.thread t).uid := by
  intro h
  have h1 := (h user user_reach).2 0 rfl (by decide) executed executed_reach 0 .self
  have h2 : (executed.sys.thread 0).uid = 0 := rfl
  have h3 : (user.sys.thread 0).uid = 1 := rfl
  rw [h2, h3] at h1
  cases h1

end Overlong

end Lookup

end SimpleOS2
