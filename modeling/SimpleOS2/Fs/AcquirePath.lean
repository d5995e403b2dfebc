/-
  File:      SimpleOS2/Fs/AcquirePath.lean
  Subject:   THE CALLS ON PATHS (fs/VFS.cpp), one lock-protected section a step.

  Every call first walks its path (`AcquirePath`, `_AcquirePathRec`): node by node from the root of a
  mount point, each node with a reference, following symbolic links. Then it does its own work and gives
  everything back. A thread stands somewhere in such a call; any number of threads take turns.

  * `Node`, `DirectoryEntry`, `checkPermissions`, `pathWalk` -- the data and the pure functions;
  * `Op` -- the calls; `Pc` -- where a thread stands in one, with what it has in its variables;
  * `Thread.held` -- the references it has taken and not given back, `locks` -- the `dirLock`s it holds,
    `changed` -- whether its call has changed a directory;
  * `Effect` -- what a step does to the nodes, mount points and descriptors;
    `Sys.plan` -- the effect of a thread's next step and where it stands afterwards;
  * `Sys.next` -- the step; `sysStep` -- the steps of all threads.

  Two things are left open, as arguments of a step (`Garbage`): what a directory holds after the
  insertion of a name of more than 49 characters, which does not fit into `DirectoryEntry::name`; and
  what `ReadNode` finds behind an id that denotes no node.
-/
import Mathlib.Logic.Function.Basic
import SimpleOS2.Fs.MountPoint
import SimpleOS2.Fs.TempFS
import SimpleOS2.Klib.Memory

namespace SimpleOS2

open Lib

namespace Lookup

/-! ## 1. Nodes -/

inductive NodeType where
  | file
  | directory
  | deviceChar
  | deviceBlock
  | pipe
  | symlink
  deriving DecidableEq

structure Permissions where
  ownerPermissions : Nat
  groupPermissions : Nat
  otherPermissions : Nat
  specialFlags : Nat
  deriving DecidableEq

def permRead : Nat := 0x1
def permWrite : Nat := 0x2
def permExecute : Nat := 0x4
def permSetUID : Nat := 0x1

structure DirectoryEntry where
  name : List Char
  nodeID : Nat
  deriving DecidableEq

/-- `struct Node`, with the file of TempFS. -/
structure Node where
  type : NodeType
  refCount : Int
  linkCount : Int
  cachedDir : List DirectoryEntry
  linkPath : List Char
  file : TempFS.TestNode
  ownerUID : Nat
  ownerGID : Nat
  permissions : Permissions

/-- `CheckPermissions`. -/
def checkPermissions (uid gid : Nat) (node : Node) (reqPerms : Nat) : Bool :=
  if uid = 0 then true
  else if uid = node.ownerUID then node.permissions.ownerPermissions &&& reqPerms = reqPerms
  else if gid = node.ownerGID then node.permissions.groupPermissions &&& reqPerms = reqPerms
  else node.permissions.otherPermissions &&& reqPerms = reqPerms

/-- `PathWalk`: what is left of the path behind the entry, if the path begins with it. -/
def pathWalk : (path entry : List Char) → Option (List Char)
  | [], [] => some []
  | c :: path, [] => if c = '/' then some path else none
  | [], _ :: _ => none
  | c :: path, e :: entry => if e ≠ c then none else pathWalk path entry

/-- The loop over the entries: the node of the first entry the path begins with. -/
def findEntry (path : List Char) : List DirectoryEntry → Option (Nat × List Char)
  | [] => none
  | e :: dir =>
      match pathWalk path e.name with
      | some rest => some (e.nodeID, rest)
      | none => findEntry path dir

/-- `IsLastPathEntry`. -/
def isLastPathEntry (path : List Char) : Bool := '/' ∉ path

/-- `GetFileName`: what stands behind the last slash. -/
def getFileName (path : List Char) : List Char := (path.reverse.takeWhile (· ≠ '/')).reverse

/-- The path after a symbolic link. -/
def linkedPath (linkPath rest : List Char) : List Char :=
  if rest = [] then linkPath else linkPath ++ '/' :: rest

/-! ## 2. Calls and threads -/

def openModeCreate : Nat := 0x100
def openModeClear : Nat := 0x200
def openModeFailIfExist : Nat := 0x400

inductive Op where
  /-- `CreateFile`, `CreateFolder`, `CreateDeviceFile`, `CreateSymLink`. -/
  | create (type : NodeType) (permissions : Permissions) (linkPath : List Char)
  /-- `CreateHardLink` on its way to the file; the prepared path of the link, or the error of
      `PreparePath`. -/
  | hardLink (path : Except Int (List Char))
  /-- `CreateHardLink` on its way to the link, with the file. -/
  | linkTo (mp id : Nat)
  | openFile (mode : Nat)
  | delete
  | stat (followSymlink : Bool)
  /-- `List` with room for `numEntries`; to which of them it can write. -/
  | list (numEntries : Nat) (writable : Nat → Bool)
  | cd
  | changeOwner (uid gid : Nat)
  | changePermissions (permissions : Permissions)
  | close

def Op.fileHasToExist : Op → Bool
  | .create _ _ _ => false
  | .linkTo _ _ => false
  | .openFile mode => mode &&& openModeCreate = 0
  | _ => true

def Op.deleteMode : Op → Bool
  | .delete => true
  | .stat followSymlink => !followSymlink
  | _ => false

/-- The calls that begin with a path. -/
def Op.onPath : Op → Bool
  | .linkTo _ _ => false
  | .close => false
  | _ => true

inductive Ref where
  | node (mp id : Nat)
  | mount (mp : Nat)
  deriving DecidableEq

/-- The references that `CreateHardLink` holds while it walks the second path. -/
def Op.kept : Op → List Ref
  | .linkTo mp id => [.node mp id, .mount mp]
  | _ => []

/-- What follows after the last reference is given back. -/
inductive After where
  | ret (res : Int)
  /-- `CD` tests the node it has released. -/
  | cd (mp id : Nat) (type : NodeType)

inductive Pc where
  | idle
  /-- Before `FindMountPoint`. -/
  | find (op : Op) (path : List Char)
  /-- Before `AcquireNode` of the root node. -/
  | root (op : Op) (path : List Char) (mp : Nat) (rest : List Char)
  /-- At the head of the loop of `_AcquirePathRec`. -/
  | walk (op : Op) (path : List Char) (mp cur : Nat) (rest : List Char)
  /-- Before the section under the `dirLock` of `cur`. -/
  | search (op : Op) (path : List Char) (mp cur : Nat) (rest : List Char)
  /-- After this section, before `AcquireNode` of what it found. -/
  | entry (op : Op) (path : List Char) (mp cur id : Nat) (rest : List Char)
  /-- After this `AcquireNode`. -/
  | arrived (op : Op) (path : List Char) (mp cur id : Nat) (rest : List Char)
  /-- At a symbolic link: what is still to be released before the search for the new path. -/
  | relink (op : Op) (path : List Char) (todo : List Ref)
  /-- `AcquirePath` has returned `OK`. -/
  | done (op : Op) (path : List Char) (mp : Nat) (node parent : Option Nat) (rest : List Char)
  /-- Before `CreateNode`. -/
  | make (op : Op) (mp parent : Nat) (name : List Char)
  /-- Before the insertion under the `dirLock` of the parent. -/
  | insert (op : Op) (mp parent id : Nat) (name : List Char)
  /-- In `Open`, before `ReleaseNode(folderNode)`. -/
  | leaveFolder (mode mp id parent : Nat)
  /-- In `Open`, before the test of the permissions. -/
  | opened (mode mp id : Nat)
  /-- With the node alone, the parent released. -/
  | lookAt (op : Op) (mp id : Nat)
  /-- In `List`, before the section under the `dirLock`. -/
  | listing (mp id numEntries : Nat) (writable : Nat → Bool)
  /-- In `Delete`, before the test for an empty folder. -/
  | checkEmpty (path : List Char) (mp id parent : Nat)
  /-- In `Delete`, before the removal under the `dirLock` of the parent. -/
  | remove (path : List Char) (mp id parent : Nat)
  /-- In `Delete`, before `linkCount.Dec()`. -/
  | unlink (mp id parent : Nat)
  /-- Giving back, in this order. -/
  | cleanup (op : Op) (todo : List Ref) (after : After)
  | returned (op : Op) (res : Int)

/-- What `Stat` tells about the owner and the permissions. -/
structure NodeStats where
  ownerUID : Nat
  ownerGID : Nat
  permissions : Permissions

structure Thread where
  uid : Nat
  gid : Nat
  pc : Pc
  held : List Ref
  locks : List (Nat × Nat)
  changed : Bool
  stats : Option NodeStats

/-- `struct FileDescriptor`, with whether its opener had the right to write. -/
structure FileDescriptor where
  mp : Nat
  id : Nat
  permissions : Nat
  refCount : Nat
  granted : Bool
  deriving DecidableEq

/-- The nodes by mount point and id, in the cache or as `ReadNode` would read them; `alive` says which
    ids denote a node. `created` has the directories and names of all insertions so far. -/
structure Sys where
  mounts : VFS.Mounts
  rootNode : Nat → Nat
  node : Nat → Nat → Node
  cached : Nat → Nat → Bool
  alive : Nat → Nat → Bool
  dirLock : Nat → Nat → Bool
  nextID : Nat → Nat
  descs : List FileDescriptor
  created : List (Nat × Nat × List Char)
  thread : Nat → Thread

/-- What the source leaves open. -/
structure Garbage where
  /-- The directory after a name that does not fit. -/
  dir : List DirectoryEntry
  /-- What `ReadNode` finds where there is no node. -/
  node : Node

/-! ## 3. Effects -/

inductive Effect where
  | none
  /-- `FindMountPoint`, with the counts afterwards. -/
  | find (mp : Nat) (count : Nat → Int)
  | acquire (mp id : Nat)
  | release (r : Ref)
  /-- `linkCount.Inc()`, `linkCount.Dec()`. -/
  | link (mp id : Nat) (n : Int)
  /-- `CreateNode` and the lines that fill the node. -/
  | make (mp : Nat) (node : Node)
  /-- An insertion, with the directory afterwards. -/
  | addEntry (mp id : Nat) (name : List Char) (dir : List DirectoryEntry)
  | removeEntry (mp id : Nat) (dir : List DirectoryEntry)
  /-- The return with a `dirLock` held. -/
  | keepLock (mp id : Nat)
  /-- The last lines of `Open`. -/
  | openDesc (clear : Bool) (desc : FileDescriptor)
  | stat (stats : NodeStats)
  | changeOwner (mp id uid gid : Nat)
  | changePermissions (mp id : Nat) (permissions : Permissions)

def update₂ {α : Type _} (f : Nat → Nat → α) (mp id : Nat) (a : α) : Nat → Nat → α :=
  Function.update f mp (Function.update (f mp) id a)

@[simp] theorem update₂_self {α : Type _} (f : Nat → Nat → α) (mp id : Nat) (a : α) :
    update₂ f mp id a mp id = a := by
  simp [update₂]

theorem update₂_of_ne {α : Type _} (f : Nat → Nat → α) {mp id mp' id' : Nat} (a : α)
    (h : ¬ (mp' = mp ∧ id' = id)) : update₂ f mp id a mp' id' = f mp' id' := by
  unfold update₂
  by_cases hm : mp' = mp
  · subst hm
    have hi : id' ≠ id := fun hi => h ⟨rfl, hi⟩
    rw [Function.update_self, Function.update_of_ne hi]
  · rw [Function.update_of_ne hm]

namespace Sys

def setNode (s : Sys) (mp id : Nat) (n : Node) : Sys := { s with node := update₂ s.node mp id n }

/-- `AcquireNode`: from the cache, or read by the file system. -/
def acquireNode (s : Sys) (mp id : Nat) (garbage : Node) : Sys :=
  if s.cached mp id then s.setNode mp id { s.node mp id with refCount := (s.node mp id).refCount + 1 }
  else
    { s.setNode mp id { if s.alive mp id then s.node mp id else garbage with refCount := 1 } with
      cached := update₂ s.cached mp id true }

/-- `node->refCount--`. -/
def decRef (s : Sys) (mp id : Nat) : Sys :=
  s.setNode mp id { s.node mp id with refCount := (s.node mp id).refCount - 1 }

/-- `ReleaseNode`: with no reference and no entry left the node is destroyed. -/
def releaseNode (s : Sys) (mp id : Nat) : Sys :=
  if (s.node mp id).refCount - 1 = 0 ∧ (s.node mp id).linkCount = 0 then
    { s.decRef mp id with
      cached := update₂ s.cached mp id false
      alive := update₂ s.alive mp id false }
  else s.decRef mp id

def release (s : Sys) : Ref → Sys
  | .node mp id => s.releaseNode mp id
  | .mount mp => { s with mounts := s.mounts.setCount (VFS.releaseMountPoint s.mounts.refCount mp) }

/-- What a step does to all but the threads. -/
def perform (s : Sys) (g : Garbage) : Effect → Sys
  | .none => s
  | .find _ count => { s with mounts := s.mounts.setCount count }
  | .acquire mp id => s.acquireNode mp id g.node
  | .release r => s.release r
  | .link mp id n => s.setNode mp id { s.node mp id with linkCount := (s.node mp id).linkCount + n }
  | .make mp node =>
      let id := s.nextID mp
      { s.setNode mp id node with
        cached := update₂ s.cached mp id true
        alive := update₂ s.alive mp id true
        nextID := Function.update s.nextID mp (id + 1) }
  | .addEntry mp id name dir =>
      { s.setNode mp id { s.node mp id with cachedDir := dir } with created := (mp, id, name) :: s.created }
  | .removeEntry mp id dir => s.setNode mp id { s.node mp id with cachedDir := dir }
  | .keepLock mp id => { s with dirLock := update₂ s.dirLock mp id true }
  | .openDesc clear desc =>
      let n := s.node desc.mp desc.id
      let s := if clear then s.setNode desc.mp desc.id { n with file := { n.file with fileSize := 0 } } else s
      { s with descs := desc :: s.descs }
  | .stat _ => s
  | .changeOwner mp id uid gid => s.setNode mp id { s.node mp id with ownerUID := uid, ownerGID := gid }
  | .changePermissions mp id permissions => s.setNode mp id { s.node mp id with permissions := permissions }

end Sys

/-- The references of the thread after the effect; a descriptor takes over those of its `Open`. -/
def Effect.held (s : Sys) (held : List Ref) : Effect → List Ref
  | .find mp _ => .mount mp :: held
  | .acquire mp id => .node mp id :: held
  | .release r => held.erase r
  | .make mp _ => .node mp (s.nextID mp) :: held
  | .openDesc _ desc => (held.erase (.node desc.mp desc.id)).erase (.mount desc.mp)
  | _ => held

/-- The thread after its step. -/
def Thread.after (th : Thread) (s : Sys) (e : Effect) (pc : Pc) : Thread where
  uid := th.uid
  gid := th.gid
  pc := pc
  held := e.held s th.held
  locks := match e with
    | .keepLock mp id => (mp, id) :: th.locks
    | _ => th.locks
  changed := match e with
    | .addEntry _ _ _ _ => true
    | .removeEntry _ _ _ => true
    | _ => th.changed
  stats := match e with
    | .stat stats => some stats
    | _ => th.stats

/-! ## 4. The next step of a thread -/

namespace Sys

def check (s : Sys) (t mp id perms : Nat) : Bool :=
  checkPermissions (s.thread t).uid (s.thread t).gid (s.node mp id) perms

/-- The way out with the references to a node and its mount point. -/
def giveBack (op : Op) (mp id : Nat) (res : Int) : Pc :=
  .cleanup op (.node mp id :: .mount mp :: op.kept) (.ret res)

/-- The head of the loop. -/
def planWalk (s : Sys) (t : Nat) (op : Op) (path : List Char) (mp cur : Nat) (rest : List Char) : Pc :=
  if (s.node mp cur).type ≠ .directory then giveBack op mp cur ErrorFileNotFound
  else if s.check t mp cur permExecute = false then giveBack op mp cur ErrorPermissionDenied
  else .search op path mp cur rest

/-- The section under the `dirLock`. -/
def planSearch (s : Sys) (op : Op) (path : List Char) (mp cur : Nat) (rest : List Char) : Pc :=
  match findEntry rest (s.node mp cur).cachedDir with
  | some (id, rest) => .entry op path mp cur id rest
  | none =>
      if op.fileHasToExist ∨ isLastPathEntry rest = false then giveBack op mp cur ErrorFileNotFound
      else .done op path mp none (some cur) rest

/-- At the next node of the path. -/
def planArrived (s : Sys) (op : Op) (path : List Char) (mp cur id : Nat) (rest : List Char) :
    Effect × Pc :=
  if op.deleteMode ∧ rest = [] then (.none, .done op path mp (some id) (some cur) rest)
  else if (s.node mp id).type = .symlink then
    if (s.node mp id).linkPath.length + rest.length + 2 > 255 then
      (.none, .cleanup op (.node mp id :: .node mp cur :: .mount mp :: op.kept) (.ret ErrorPathTooLong))
    else
      (.none, .relink op (linkedPath (s.node mp id).linkPath rest) [.node mp id, .node mp cur, .mount mp])
  else if rest = [] then (.none, .done op path mp (some id) (some cur) rest)
  else (.release (.node mp cur), .walk op path mp id rest)

/-- The tests of a call that creates an entry; `go` is where it goes on with the parent. -/
def planCreate (s : Sys) (t : Nat) (op : Op) (mp : Nat) (node parent : Option Nat)
    (go : Nat → Effect × Pc) : Effect × Pc :=
  match parent, node with
  | some p, none =>
      if s.check t mp p permWrite = false then
        (.none, .cleanup op (op.kept ++ [.node mp p, .mount mp]) (.ret ErrorPermissionDenied))
      else go p
  | parent, node =>
      (.none, .cleanup op (op.kept ++ (parent.toList.map (.node mp) ++ (node.toList.map (.node mp) ++
        [.mount mp]))) (.ret ErrorFileExists))

/-- `Open` after `AcquirePath`. -/
def planOpen (s : Sys) (t mode : Nat) (path : List Char) (mp : Nat) (node parent : Option Nat)
    (rest : List Char) : Pc :=
  match node, parent with
  | none, some p =>
      if s.check t mp p permWrite = false then giveBack (.openFile mode) mp p ErrorPermissionDenied
      else .make (.openFile mode) mp p rest
  | some f, parent =>
      if mode &&& openModeFailIfExist ≠ 0 then
        .cleanup (.openFile mode) (parent.toList.map (.node mp) ++ [.node mp f, .mount mp])
          (.ret ErrorFileExists)
      else
        match parent with
        | some p => .leaveFolder mode mp f p
        | none => .opened mode mp f
  -- AcquirePath gives a node or a parent
  | none, none => .done (.openFile mode) path mp none none rest

/-- `Delete` after `AcquirePath`. -/
def planDelete (s : Sys) (t : Nat) (path : List Char) (mp : Nat) (node parent : Option Nat)
    (rest : List Char) : Pc :=
  match node, parent with
  | some f, none => giveBack .delete mp f ErrorDeleteMountPoint
  | some f, some p =>
      if s.check t mp p permWrite = false then
        .cleanup .delete [.node mp p, .node mp f, .mount mp] (.ret ErrorPermissionDenied)
      else if (s.node mp f).type = .directory then .checkEmpty path mp f p
      else .remove path mp f p
  -- the file has to exist
  | none, parent => .done .delete path mp none parent rest

/-- The calls that release the parent first. -/
def planLook (op : Op) (path : List Char) (mp : Nat) (node parent : Option Nat) (rest : List Char) :
    Effect × Pc :=
  match node, parent with
  | some f, some p => (.release (.node mp p), .lookAt op mp f)
  | some f, none => (.none, .lookAt op mp f)
  -- the file has to exist
  | none, parent => (.none, .done op path mp none parent rest)

/-- After `AcquirePath`. -/
def planDone (s : Sys) (t : Nat) (op : Op) (path : List Char) (mp : Nat) (node parent : Option Nat)
    (rest : List Char) : Effect × Pc :=
  match op with
  | .create _ _ _ => s.planCreate t op mp node parent fun p => (.none, .make op mp p rest)
  | .linkTo lmp lid =>
      s.planCreate t op mp node parent fun p =>
        if mp ≠ lmp then
          (.none, .cleanup op (op.kept ++ [.node mp p, .mount mp]) (.ret ErrorHardlinkToDifferentFS))
        else (.link lmp lid 1, .insert op mp p lid rest)
  | .openFile mode => (.none, s.planOpen t mode path mp node parent rest)
  | .delete => (.none, s.planDelete t path mp node parent rest)
  | .cd =>
      match node with
      | some f =>
          (.none, .cleanup op (.node mp f :: (parent.toList.map (.node mp) ++ [.mount mp]))
            (.cd mp f (s.node mp f).type))
      | none => (.none, .done op path mp none parent rest)
  | op => planLook op path mp node parent rest

/-- The node that `CreateNode` and the lines after it make, for the calls that make one. -/
def newNode (s : Sys) (t mp parent : Nat) : Op → Option Node
  | .openFile _ =>
      let p := (s.node mp parent).permissions
      some ⟨.file, 1, 1, [], [], ⟨0, fun _ => 0⟩, (s.thread t).uid, (s.thread t).gid,
        ⟨p.ownerPermissions &&& 0xFB, p.groupPermissions &&& 0xFB, p.otherPermissions &&& 0xFB, 0⟩⟩
  | .create type permissions linkPath =>
      some ⟨type, 1, 1, [], linkPath, ⟨0, fun _ => 0⟩, (s.thread t).uid, (s.thread t).gid, permissions⟩
  | _ => none

/-- What the directory holds after an insertion. -/
def insertEntry (dir : List DirectoryEntry) (name : List Char) (id : Nat)
    (garbage : List DirectoryEntry) : List DirectoryEntry :=
  if name.length ≤ 49 then dir ++ [⟨name, id⟩] else garbage

/-- Where a call stands after its insertion. -/
def afterInsert (mp parent id : Nat) : Op → Pc
  | .linkTo lmp lid => .cleanup (.linkTo lmp lid) [.node mp parent, .mount mp, .node lmp lid, .mount lmp] (.ret OK)
  | .openFile mode => .leaveFolder mode mp id parent
  | op => .cleanup op [.node mp parent, .node mp id, .mount mp] (.ret OK)

/-- The end of `Open`. -/
def planOpened (s : Sys) (t mode mp id : Nat) : Effect × Pc :=
  if s.check t mp id (mode &&& 3) = false then
    (.none, giveBack (.openFile mode) mp id ErrorPermissionDenied)
  else if (s.node mp id).type = .directory then (.none, giveBack (.openFile mode) mp id ErrorOpenFolder)
  else
    (.openDesc (mode &&& openModeClear ≠ 0 ∧ (s.node mp id).type = .file)
      ⟨mp, id, mode &&& 0xFF, 1, s.check t mp id permWrite⟩, .returned (.openFile mode) OK)

/-- The test of `ChangeOwner` and `ChangePermissions`. -/
def owns (s : Sys) (t mp id : Nat) : Prop :=
  (s.thread t).uid = 0 ∨ (s.thread t).uid = (s.node mp id).ownerUID

instance (s : Sys) (t mp id : Nat) : Decidable (s.owns t mp id) :=
  inferInstanceAs (Decidable ((s.thread t).uid = 0 ∨ (s.thread t).uid = (s.node mp id).ownerUID))

/-- The calls that have released the parent. -/
def planLookAt (s : Sys) (t : Nat) (op : Op) (mp id : Nat) : Effect × Pc :=
  match op with
  | .hardLink path =>
      if (s.node mp id).type = .directory then (.none, giveBack op mp id ErrorHardlinkToFolder)
      else
        match path with
        | .error e => (.none, giveBack op mp id e)
        | .ok path => (.none, .find (.linkTo mp id) path)
  | .list numEntries writable =>
      if (s.node mp id).type ≠ .directory then (.none, giveBack op mp id ErrorNotAFolder)
      else if s.check t mp id permRead = false then (.none, giveBack op mp id ErrorPermissionDenied)
      else (.none, .listing mp id numEntries writable)
  | .changeOwner uid gid =>
      if s.owns t mp id then (.changeOwner mp id uid gid, giveBack op mp id OK)
      else (.none, giveBack op mp id ErrorPermissionDenied)
  | .changePermissions permissions =>
      if s.owns t mp id then (.changePermissions mp id permissions, giveBack op mp id OK)
      else (.none, giveBack op mp id ErrorPermissionDenied)
  | op =>
      (.stat ⟨(s.node mp id).ownerUID, (s.node mp id).ownerGID, (s.node mp id).permissions⟩,
        giveBack op mp id OK)

/-- The removal loop of `Delete`. Where no entry has the name, `Delete` returns with the lock and all
    references. -/
def planRemove (s : Sys) (path : List Char) (mp id parent : Nat) : Effect × Pc :=
  match (s.node mp parent).cachedDir.findIdx? fun e => getFileName path = e.name with
  | some i => (.removeEntry mp parent ((s.node mp parent).cachedDir.eraseIdx i), .unlink mp id parent)
  | none => (.keepLock mp parent, .returned .delete ErrorFileNotFound)

/-- The copying loop of `List`. -/
def listResult (s : Sys) (mp id numEntries : Nat) (writable : Nat → Bool) : Int :=
  if (List.range (min numEntries (s.node mp id).cachedDir.length)).all writable then OK
  else ErrorInvalidBuffer

/-- What follows the last release. -/
def planAfter (s : Sys) (t : Nat) : After → Int
  | .ret res => res
  | .cd mp id type =>
      if type ≠ .directory then ErrorNotAFolder
      else if s.check t mp id permExecute = false then ErrorPermissionDenied
      else OK

/-- `FindMountPoint`. -/
def planFind (s : Sys) (op : Op) (path : List Char) : Effect × Pc :=
  match VFS.findMountPoint s.mounts path with
  | some (mp, count) => (.find mp count, .root op path mp (VFS.advancePath path (s.mounts.mp mp).path))
  | none => (.none, .find op path)

/-- The beginning of `_AcquirePathRec`. -/
def planRoot (s : Sys) (op : Op) (path : List Char) (mp : Nat) (rest : List Char) : Pc :=
  if rest = [] then .done op path mp (some (s.rootNode mp)) none rest
  else .walk op path mp (s.rootNode mp) rest

/-- `CreateNode`. -/
def planMake (s : Sys) (t : Nat) (op : Op) (mp parent : Nat) (name : List Char) : Effect × Pc :=
  match s.newNode t mp parent op with
  | some node => (.make mp node, .insert op mp parent (s.nextID mp) name)
  | none => (.none, .make op mp parent name)

/-- The test for an empty folder. -/
def planCheckEmpty (s : Sys) (path : List Char) (mp id parent : Nat) : Pc :=
  if (s.node mp id).cachedDir ≠ [] then
    .cleanup .delete [.node mp id, .node mp parent, .mount mp] (.ret ErrorFolderNotEmpty)
  else .remove path mp id parent

/-- A step that begins with a `dirLock` waits while another thread holds the lock. -/
def locked (s : Sys) (mp id : Nat) (wait : Pc) (go : Effect × Pc) : Effect × Pc :=
  if s.dirLock mp id then (.none, wait) else go

/-- The effect of the next step of a thread that stands there, and where it stands afterwards. -/
def planAt (s : Sys) (t : Nat) (g : Garbage) : Pc → Effect × Pc
  | .idle => (.none, .idle)
  | .find op path => s.planFind op path
  | .root op path mp rest => (.acquire mp (s.rootNode mp), s.planRoot op path mp rest)
  | .walk op path mp cur rest => (.none, s.planWalk t op path mp cur rest)
  | .search op path mp cur rest =>
      s.locked mp cur (.search op path mp cur rest) (.none, s.planSearch op path mp cur rest)
  | .entry op path mp cur id rest => (.acquire mp id, .arrived op path mp cur id rest)
  | .arrived op path mp cur id rest => s.planArrived op path mp cur id rest
  | .relink op path [] => (.none, .find op path)
  | .relink op path (r :: todo) => (.release r, .relink op path todo)
  | .done op path mp node parent rest => s.planDone t op path mp node parent rest
  | .make op mp parent name => s.planMake t op mp parent name
  | .insert op mp parent id name =>
      s.locked mp parent (.insert op mp parent id name)
        (.addEntry mp parent name (insertEntry (s.node mp parent).cachedDir name id g.dir),
          afterInsert mp parent id op)
  | .leaveFolder mode mp id parent => (.release (.node mp parent), .opened mode mp id)
  | .opened mode mp id => s.planOpened t mode mp id
  | .lookAt op mp id => s.planLookAt t op mp id
  | .listing mp id numEntries writable =>
      s.locked mp id (.listing mp id numEntries writable)
        (.none, giveBack (.list numEntries writable) mp id (s.listResult mp id numEntries writable))
  | .checkEmpty path mp id parent =>
      s.locked mp id (.checkEmpty path mp id parent) (.none, s.planCheckEmpty path mp id parent)
  | .remove path mp id parent =>
      s.locked mp parent (.remove path mp id parent) (s.planRemove path mp id parent)
  | .unlink mp id parent =>
      (.link mp id (-1), .cleanup .delete [.node mp id, .node mp parent, .mount mp] (.ret OK))
  | .cleanup op [] after => (.none, .returned op (s.planAfter t after))
  | .cleanup op (r :: todo) after => (.release r, .cleanup op todo after)
  | .returned op res => (.none, .returned op res)

def plan (s : Sys) (t : Nat) (g : Garbage) : Effect × Pc := s.planAt t g (s.thread t).pc

def setThread (s : Sys) (t : Nat) (th : Thread) : Sys :=
  { s with thread := Function.update s.thread t th }

/-- **The next step of a thread.** -/
def next (s : Sys) (t : Nat) (g : Garbage) : Sys :=
  (s.perform g (s.plan t g).1).setThread t ((s.thread t).after s (s.plan t g).1 (s.plan t g).2)

end Sys

/-! ## 5. The system -/

inductive Event where
  | start (t : Nat) (op : Op) (path : List Char)
  | refuse (t : Nat) (op : Op) (res : Int)
  | run (t : Nat) (g : Garbage)
  | leave (t : Nat)
  | addRef (i : Nat)
  | close (t i : Nat)
  | write (i pos : Nat) (buffer : UserBuffer) (bufferSize : Nat)
  | remount (mounts : VFS.Mounts)

inductive sysStep : Sys → Event → Sys → Prop where
  /-- A call with its prepared path. -/
  | start (s : Sys) (t : Nat) (op : Op) (path : List Char) (ht : (s.thread t).pc = .idle)
      (hop : op.onPath = true) :
      sysStep s (.start t op path) (s.setThread t { s.thread t with
        pc := .find op path
        changed := false })
  /-- A call whose path `PreparePath` refuses. -/
  | refuse (s : Sys) (t : Nat) (op : Op) (res : Int) (ht : (s.thread t).pc = .idle)
      (hop : op.onPath = true) (hres : res ≠ OK) :
      sysStep s (.refuse t op res) (s.setThread t { s.thread t with
        pc := .returned op res
        changed := false })
  | run (s : Sys) (t : Nat) (g : Garbage) : sysStep s (.run t g) (s.next t g)
  | leave (s : Sys) (t : Nat) (op : Op) (res : Int) (ht : (s.thread t).pc = .returned op res) :
      sysStep s (.leave t) (s.setThread t { s.thread t with pc := .idle })
  | addRef (s : Sys) (i : Nat) (d : FileDescriptor) (hd : s.descs[i]? = some d) :
      sysStep s (.addRef i) { s with descs := s.descs.set i { d with refCount := d.refCount + 1 } }
  /-- `Close` that leaves references. -/
  | closeShared (s : Sys) (t i : Nat) (d : FileDescriptor) (ht : (s.thread t).pc = .idle)
      (hd : s.descs[i]? = some d) (hr : d.refCount - 1 ≠ 0) :
      sysStep s (.close t i) { s with descs := s.descs.set i { d with refCount := d.refCount - 1 } }
  /-- The last `Close`: the thread gives back what the descriptor held. -/
  | closeLast (s : Sys) (t i : Nat) (d : FileDescriptor) (ht : (s.thread t).pc = .idle)
      (hd : s.descs[i]? = some d) (hr : d.refCount - 1 = 0) :
      sysStep s (.close t i) (Sys.setThread { s with descs := s.descs.eraseIdx i } t { s.thread t with
        pc := .cleanup .close [.node d.mp d.id, .mount d.mp] (.ret OK)
        held := .node d.mp d.id :: .mount d.mp :: (s.thread t).held
        changed := false })
  /-- `Write` to a file through a descriptor, at the position it has read. -/
  | write (s : Sys) (i pos : Nat) (buffer : UserBuffer) (bufferSize : Nat) (d : FileDescriptor)
      (hd : s.descs[i]? = some d) (hw : d.permissions &&& permWrite ≠ 0)
      (htype : (s.node d.mp d.id).type = .file) :
      sysStep s (.write i pos buffer bufferSize) (s.setNode d.mp d.id { s.node d.mp d.id with
        file := (TempFS.writeNodeData (s.node d.mp d.id).file pos buffer bufferSize).2 })
  /-- `Mount` and `Unmount` change the mount points, see `Fs.MountRaces`. -/
  | remount (s : Sys) (mounts : VFS.Mounts) :
      sysStep s (.remount mounts) { s with mounts := mounts }

end Lookup

end SimpleOS2
