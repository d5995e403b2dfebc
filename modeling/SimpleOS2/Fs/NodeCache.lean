/-
  File:      SimpleOS2/Fs/NodeCache.lean
  Subject:   THE NODE CACHES OF THE MOUNT POINTS (AcquireNode, ReleaseNode, CreateNode, Mount, Unmount of
             fs/VFS.cpp; ReadNode, CreateNode, DestroyNode of the four file systems).

  A node is in the cache of one mount point and has two fields that say where it belongs: `mp`, which
  `AcquireNode` sets and `TempFS::ReadNode` overwrites with the argument of `SetMountPoint`, and `id`, which
  `FileSystem::CreateNode` has to choose.

  * `acquireNode`, `readNode`, `createNode`, `pushNode`, `releaseNode`, `destroyNode` -- the source's
    functions, cut where a lock is given back;
  * `cacheStep` -- any number of threads on any mount points, with `Mount` and `Unmount` in between;
  * `Placed` -- a node is in one cache, and in none before it is pushed or after it is erased;
  * `node_ownership` -- no TempFS that `Mount` has mounted is read: each node names its own mount point;
  * `node_identity` -- the ids in a cache differ and each is found again;
  * `mounted_root_misowned`, `devices_share_id` -- without the conditions.
-/
import Mathlib.Data.List.Nodup
import Mathlib.Logic.Function.Basic
import SimpleOS2.Lib.Run

namespace SimpleOS2

open Lib

namespace NodeCache

/-! ## 1. The caches -/

inductive FsType where
  | tempFS
  | devFS
  | ext2
  | pipeFS
  deriving DecidableEq

/-- The file systems whose `CreateNode` gives the node an id: `(uint64)newNode` of TempFS, the slot of
    PipeFS. In DevFS and ext2 the function is empty. -/
def FsType.assigns : FsType → Bool
  | .tempFS => true
  | .pipeFS => true
  | .devFS => false
  | .ext2 => false

/-- `struct Node`, with the fields that tell where it belongs and when it goes. -/
structure Node where
  id : Nat
  mp : Nat
  refCount : Nat
  linkCount : Nat

/-- A mount point: its file system, what `SetMountPoint` told that, and `parent`. -/
structure Mount where
  fs : FsType
  fsMP : Nat
  parent : Option Nat

/-- A call that has given back the lock of the cache and has more to do with its node. -/
inductive Pending where
  /-- `AcquireNode`, before `mp->fs->ReadNode(nodeID, newNode)`. -/
  | reading (mp id : Nat)
  /-- `CreateNode`, before `mp->nodeCache.push_back(newNode)`. -/
  | creating (mp softRefs : Nat)
  /-- `ReleaseNode`, before `node->mp->fs->DestroyNode(node)`. -/
  | destroying (mp : Nat)
  deriving DecidableEq

/-- The mount point on which the call works. -/
def Pending.mp : Pending → Nat
  | .reading M _ => M
  | .creating M _ => M
  | .destroying M => M

/-- The mount points, their caches, the nodes by address, and the ids that the file systems have given
    out. -/
structure Sys where
  mount : Nat → Option Mount
  cache : Nat → List Nat
  node : Nat → Option Node
  pending : Nat → Option Pending
  taken : Nat → Nat → Bool

/-- `g_RootMount`. -/
def rootMount : Nat := 0

/-- `g_PipeMount`. -/
def pipeMount : Nat := 1

def Sys.setNode (s : Sys) (o : Nat) (n : Option Node) : Sys :=
  { s with node := Function.update s.node o n }

def Sys.setCache (s : Sys) (M : Nat) (c : List Nat) : Sys :=
  { s with cache := Function.update s.cache M c }

def Sys.setPending (s : Sys) (o : Nat) (p : Option Pending) : Sys :=
  { s with pending := Function.update s.pending o p }

/-- `taken M id := b`, where the file system keeps such a record. -/
def Sys.setTaken (s : Sys) (fs : FsType) (M id : Nat) (b : Bool) : Sys :=
  if fs.assigns then { s with taken := Function.update s.taken M (Function.update (s.taken M) id b) } else s

/-! ## 2. The functions -/

/-- The loop of `AcquireNode` over the cache. -/
def Sys.lookup (s : Sys) (M id : Nat) : Option Nat :=
  (s.cache M).find? fun o => (s.node o).any fun n => n.id = id

/-- `AcquireNode`, up to the call of `ReadNode`; `o` is the node that `new` gives. -/
def Sys.acquireNode (s : Sys) (M id o : Nat) : Sys :=
  match s.lookup M id with
  | some o' => s.setNode o' ((s.node o').map fun n => { n with refCount := n.refCount + 1 })
  | none =>
      ((s.setNode o (some ⟨id, M, 1, 0⟩)).setCache M (s.cache M ++ [o])).setPending o (some (.reading M id))

/-- `ReadNode` of the four file systems; `links` is the count that the file system has for the id. -/
def readNode (m : Mount) (id links : Nat) (n : Node) : Node :=
  match m.fs with
  | .tempFS => { n with mp := m.fsMP, id := id, linkCount := links }
  | .devFS => { n with id := id, linkCount := links }
  | .ext2 => { n with id := id, linkCount := links }
  | .pipeFS => n

/-- `FileSystem::CreateNode` on a node that `new` has zeroed; `id` is the id that is free. -/
def fsCreateNode (fs : FsType) (id : Nat) (n : Node) : Node :=
  match fs with
  | .tempFS => { n with id := id, linkCount := 0 }
  | .pipeFS => { n with id := id, linkCount := 0 }
  | .devFS => n
  | .ext2 => n

/-- `CreateNode` up to the lock of the cache. -/
def Sys.createNode (s : Sys) (fs : FsType) (M id o softRefs : Nat) : Sys :=
  ((s.setNode o (some (fsCreateNode fs id ⟨0, 0, 0, 0⟩))).setTaken fs M id true).setPending o
    (some (.creating M softRefs))

/-- The rest of `CreateNode`. -/
def Sys.pushNode (s : Sys) (M o softRefs : Nat) : Sys :=
  ((s.setNode o ((s.node o).map fun n => { n with refCount := softRefs, mp := M })).setCache M
    (s.cache M ++ [o])).setPending o none

/-- The node that `ReleaseNode` leaves. -/
def released (n : Node) (decrement : Bool) : Node :=
  { n with refCount := if decrement then n.refCount - 1 else n.refCount }

/-- `ReleaseNode` frees the node. -/
def Node.unused (n : Node) : Prop := n.refCount = 0 ∧ n.linkCount = 0

instance (n : Node) : Decidable n.unused := inferInstanceAs (Decidable (_ ∧ _))

/-- `ReleaseNode` up to the call of `DestroyNode`. What it locks and unlinks from is the cache of
    `node->mp`. -/
def Sys.releaseNode (s : Sys) (o : Nat) (n : Node) (decrement : Bool) : Sys :=
  let n := released n decrement
  let s := s.setNode o (some n)
  if n.unused then (s.setCache n.mp ((s.cache n.mp).filter (· ≠ o))).setPending o (some (.destroying n.mp))
  else s

/-- `node->mp->fs->DestroyNode(node); delete node;` -/
def Sys.destroyNode (s : Sys) (fs : FsType) (M o : Nat) (n : Node) : Sys :=
  ((s.setTaken fs M n.id false).setNode o none).setPending o none

/-! ## 3. Runs -/

inductive Event where
  | acquire (M id o : Nat)
  | read (o links : Nat)
  | create (M id o softRefs : Nat)
  | push (o : Nat)
  | setLinks (o links : Nat)
  | release (o : Nat) (decrement : Bool)
  | destroy (o : Nat)
  | mount (M : Nat) (fs : FsType) (parent root : Nat)
  | unmount (M : Nat)

inductive cacheStep : Sys → Event → Sys → Prop where
  | acquire (s : Sys) (M id o : Nat) (m : Mount) (hm : s.mount M = some m) (ho : s.node o = none) :
      cacheStep s (.acquire M id o) (s.acquireNode M id o)
  | read (s : Sys) (o links M id : Nat) (m : Mount) (n : Node) (hp : s.pending o = some (.reading M id))
      (hm : s.mount M = some m) (hn : s.node o = some n) :
      cacheStep s (.read o links) ((s.setNode o (some (readNode m id links n))).setPending o none)
  | create (s : Sys) (M id o softRefs : Nat) (m : Mount) (hm : s.mount M = some m) (ho : s.node o = none)
      (hid : m.fs.assigns = true → s.taken M id = false) :
      cacheStep s (.create M id o softRefs) (s.createNode m.fs M id o softRefs)
  | push (s : Sys) (o M softRefs : Nat) (hp : s.pending o = some (.creating M softRefs)) :
      cacheStep s (.push o) (s.pushNode M o softRefs)
  /-- `linkCount.Write`, `Inc`, `Dec` by a call that holds the node. -/
  | setLinks (s : Sys) (o links M : Nat) (n : Node) (hc : o ∈ s.cache M) (hp : s.pending o = none)
      (hn : s.node o = some n) :
      cacheStep s (.setLinks o links) (s.setNode o (some { n with linkCount := links }))
  | release (s : Sys) (o : Nat) (decrement : Bool) (M : Nat) (n : Node) (hc : o ∈ s.cache M)
      (hp : s.pending o = none) (hn : s.node o = some n) (hr : decrement = true → 0 < n.refCount) :
      cacheStep s (.release o decrement) (s.releaseNode o n decrement)
  | destroy (s : Sys) (o M : Nat) (m : Mount) (n : Node) (hp : s.pending o = some (.destroying M))
      (hm : s.mount M = some m) (hn : s.node o = some n) :
      cacheStep s (.destroy o) (s.destroyNode m.fs M o n)
  /-- `Mount` calls `fs->SetMountPoint(mp)` with the mount point ABOVE the new one. The cache of the new
      one is empty and no call knows it. -/
  | mount (s : Sys) (M : Nat) (fs : FsType) (parent root : Nat) (p : Mount) (hM : s.mount M = none)
      (hc : s.cache M = []) (hquiet : ∀ o p, s.pending o = some p → p.mp ≠ M)
      (hp : s.mount parent = some p) (hfs : fs ≠ .pipeFS) :
      cacheStep s (.mount M fs parent root)
        { s with
          mount := Function.update s.mount M (some ⟨fs, parent, some parent⟩)
          taken := Function.update s.taken M fun id => id = root }
  /-- `Unmount`: no call is under way on the mount point and none is mounted below. -/
  | unmount (s : Sys) (M : Nat) (hM : M ≠ rootMount ∧ M ≠ pipeMount)
      (hbelow : ∀ M' m, s.mount M' = some m → m.parent ≠ some M)
      (hquiet : ∀ o p, s.pending o = some p → p.mp ≠ M) :
      cacheStep s (.unmount M)
        { s with mount := Function.update s.mount M none, cache := Function.update s.cache M [] }

/-- After `VFS::Init`: the root mount, whose file system was told so, and the mount point of the pipes. -/
def cacheInit (s : Sys) : Prop :=
  (∃ fs, fs ≠ .pipeFS ∧ s.mount = fun M =>
    if M = rootMount then some ⟨fs, rootMount, none⟩
    else if M = pipeMount then some ⟨.pipeFS, pipeMount, none⟩ else none) ∧
  (∀ M, s.cache M = []) ∧ (∀ o, s.node o = none) ∧ ∀ o, s.pending o = none

/-! ## 4. Where the nodes are -/

/-- Where a call that is under way finds its node. -/
def Sys.Fits (s : Sys) (o : Nat) : Pending → Prop
  | .reading M id => o ∈ s.cache M ∧ ∃ n, s.node o = some n ∧ n.id = id
  | .creating _ _ => (∀ M, o ∉ s.cache M) ∧ ∃ n, s.node o = some n
  | .destroying M => (∀ M', o ∉ s.cache M') ∧ ∃ n, s.node o = some n ∧ n.mp = M

/-- A node is in one cache, and in none before it is pushed or after it is erased. -/
structure Placed (s : Sys) : Prop where
  node : ∀ M o, o ∈ s.cache M → ∃ n, s.node o = some n
  one : ∀ M M' o, o ∈ s.cache M → o ∈ s.cache M' → M = M'
  nodup : ∀ M, (s.cache M).Nodup
  fits : ∀ o p, s.pending o = some p → s.Fits o p

/-- What `ReleaseNode` frees is in the cache from which it unlinks. -/
def freesOwn (s : Sys) : Event → Prop
  | .release o decrement => ∀ M n, o ∈ s.cache M → s.node o = some n → (released n decrement).unused → n.mp = M
  | _ => True

section Placed

variable {s : Sys} {M o : Nat} {n n' : Node}

theorem setNode_node {o' : Nat} {x : Option Node} :
    (s.setNode o x).node o' = if o' = o then x else s.node o' := by
  simp [Sys.setNode, Function.update_apply]

@[simp] theorem setNode_self {x : Option Node} : (s.setNode o x).node o = x := by
  rw [setNode_node, if_pos rfl]

theorem setPending_pending {o' : Nat} {p : Option Pending} :
    (s.setPending o p).pending o' = if o' = o then p else s.pending o' := by
  simp [Sys.setPending, Function.update_apply]

theorem setCache_cache {M' : Nat} {c : List Nat} :
    (s.setCache M c).cache M' = if M' = M then c else s.cache M' := by
  simp [Sys.setCache, Function.update_apply]

@[simp] theorem setTaken_node {fs : FsType} {id : Nat} {b : Bool} : (s.setTaken fs M id b).node = s.node := by
  unfold Sys.setTaken
  split_ifs <;> rfl

@[simp] theorem setTaken_cache {fs : FsType} {id : Nat} {b : Bool} : (s.setTaken fs M id b).cache = s.cache := by
  unfold Sys.setTaken
  split_ifs <;> rfl

@[simp] theorem setTaken_pending {fs : FsType} {id : Nat} {b : Bool} :
    (s.setTaken fs M id b).pending = s.pending := by
  unfold Sys.setTaken
  split_ifs <;> rfl

@[simp] theorem setTaken_mount {fs : FsType} {id : Nat} {b : Bool} : (s.setTaken fs M id b).mount = s.mount := by
  unfold Sys.setTaken
  split_ifs <;> rfl

theorem Sys.Fits.of_eq {s' : Sys} {p : Pending} (h : s.Fits o p) (hc : s'.cache = s.cache)
    (hn : s'.node o = s.node o) : s'.Fits o p := by
  cases p <;> simpa only [Sys.Fits, hc, hn] using h

/-- Only the caches, the nodes and the calls under way matter. -/
theorem Placed.of_eq (hP : Placed s) {s' : Sys} (hc : s'.cache = s.cache) (hn : s'.node = s.node)
    (hp : s'.pending = s.pending) : Placed s' := by
  refine ⟨fun M o h => ?_, fun M M' o h h' => ?_, fun M => ?_, fun o p h => ?_⟩
  · rw [hn]
    exact hP.node M o (hc ▸ h)
  · exact hP.one M M' o (hc ▸ h) (hc ▸ h')
  · rw [hc]
    exact hP.nodup M
  · exact (hP.fits o p (hp ▸ h)).of_eq hc (congrFun hn o)

theorem Placed.setTaken (hP : Placed s) {fs : FsType} {id : Nat} {b : Bool} : Placed (s.setTaken fs M id b) :=
  hP.of_eq setTaken_cache setTaken_node setTaken_pending

/-- A new node is in no cache and no call has it. -/
theorem Placed.fresh (hP : Placed s) (ho : s.node o = none) : (∀ M, o ∉ s.cache M) ∧ s.pending o = none := by
  constructor
  · intro M hM
    obtain ⟨n, hn⟩ := hP.node M o hM
    rw [ho] at hn
    cases hn
  · rcases hp : s.pending o with _ | p
    · rfl
    · have hfit := hP.fits o p hp
      cases p <;> simp [Sys.Fits, ho] at hfit

theorem Placed.setNode (hP : Placed s) (hid : ∀ M id, s.pending o = some (.reading M id) → n'.id = id)
    (hmp : ∀ M, s.pending o = some (.destroying M) → n'.mp = M) : Placed (s.setNode o (some n')) := by
  refine ⟨fun M o' h => ?_, hP.one, hP.nodup, fun o' p hp => ?_⟩
  · obtain ⟨n, hn⟩ := hP.node M o' h
    rw [setNode_node]
    split_ifs
    · exact ⟨_, rfl⟩
    · exact ⟨n, hn⟩
  · have hfit := hP.fits o' p hp
    by_cases ho : o' = o
    · subst ho
      cases p with
      | reading M id => exact ⟨hfit.1, n', by simp, hid M id hp⟩
      | creating M r => exact ⟨hfit.1, n', by simp⟩
      | destroying M => exact ⟨hfit.1, n', by simp, hmp M hp⟩
    · exact hfit.of_eq rfl (by rw [setNode_node, if_neg ho])

/-- A call comes to have the node, or to have done with it. -/
theorem Placed.setPending (hP : Placed s) {p : Option Pending} (hp : ∀ q, p = some q → s.Fits o q) :
    Placed (s.setPending o p) := by
  refine ⟨hP.node, hP.one, hP.nodup, fun o' q hq => ?_⟩
  rw [setPending_pending] at hq
  split_ifs at hq with ho
  · exact (ho ▸ hp q hq : s.Fits o' q).of_eq rfl rfl
  · exact (hP.fits o' q hq).of_eq rfl rfl

/-- `nodeCache.push_back`. -/
theorem Placed.join (hP : Placed s) (ho : ∀ M, o ∉ s.cache M) (hn : s.node o = some n)
    (hp : s.pending o = none) : Placed (s.setCache M (s.cache M ++ [o])) := by
  have hmem : ∀ M' o', o' ∈ (s.setCache M (s.cache M ++ [o])).cache M' ↔ o' ∈ s.cache M' ∨ M' = M ∧ o' = o := by
    intro M' o'
    rw [setCache_cache]
    split_ifs with h
    · simp [h]
    · simp [h]
  refine ⟨fun M' o' h => ?_, fun M1 M2 o' h1 h2 => ?_, fun M' => ?_, fun o' p hq => ?_⟩
  · rcases (hmem M' o').mp h with h | ⟨-, rfl⟩
    · exact hP.node M' o' h
    · exact ⟨n, hn⟩
  · rcases (hmem M1 o').mp h1 with h3 | ⟨h3, h5⟩
    · rcases (hmem M2 o').mp h2 with h4 | ⟨-, h5⟩
      · exact hP.one M1 M2 o' h3 h4
      · exact absurd (h5 ▸ h3) (ho M1)
    · rcases (hmem M2 o').mp h2 with h4 | ⟨h4, -⟩
      · exact absurd (h5 ▸ h4) (ho M2)
      · rw [h3, h4]
  · rw [setCache_cache]
    split_ifs
    · exact (hP.nodup M).append (List.nodup_singleton o) (by simpa using ho M)
    · exact hP.nodup M'
  · have hne : o' ≠ o := by
      rintro rfl
      rw [show s.pending o' = some p from hq] at hp
      cases hp
    have hfit := hP.fits o' p hq
    cases p with
    | reading M' id => exact ⟨(hmem M' o').mpr (Or.inl hfit.1), hfit.2⟩
    | creating M' r => exact ⟨fun M1 h1 => ((hmem M1 o').mp h1).elim (hfit.1 M1) fun h => hne h.2, hfit.2⟩
    | destroying M' => exact ⟨fun M1 h1 => ((hmem M1 o').mp h1).elim (hfit.1 M1) fun h => hne h.2, hfit.2⟩

/-- A cache gets shorter; none of the nodes that go is being read. -/
theorem Placed.shrink (hP : Placed s) {c : List Nat} (hc : c.Sublist (s.cache M))
    (hgone : ∀ o id, s.pending o = some (.reading M id) → o ∈ c) : Placed (s.setCache M c) := by
  have hmem : ∀ M' o', o' ∈ (s.setCache M c).cache M' → o' ∈ s.cache M' := by
    intro M' o' h
    rw [setCache_cache] at h
    split_ifs at h with hM
    · exact hM ▸ hc.subset h
    · exact h
  refine ⟨fun M' o' h => hP.node M' o' (hmem M' o' h),
    fun M1 M2 o' h1 h2 => hP.one M1 M2 o' (hmem M1 o' h1) (hmem M2 o' h2), fun M' => ?_, fun o' p hp => ?_⟩
  · rw [setCache_cache]
    split_ifs
    · exact (hP.nodup M).sublist hc
    · exact hP.nodup M'
  · have hfit := hP.fits o' p hp
    cases p with
    | reading M' id =>
        refine ⟨?_, hfit.2⟩
        rw [setCache_cache]
        split_ifs with hM
        · exact hgone o' id (hM ▸ hp)
        · exact hfit.1
    | creating M' r => exact ⟨fun M1 h1 => hfit.1 M1 (hmem M1 o' h1), hfit.2⟩
    | destroying M' => exact ⟨fun M1 h1 => hfit.1 M1 (hmem M1 o' h1), hfit.2⟩

/-- `delete node`. -/
theorem Placed.forget (hP : Placed s) (ho : ∀ M, o ∉ s.cache M) :
    Placed ((s.setNode o none).setPending o none) := by
  refine ⟨fun M o' h => ?_, hP.one, hP.nodup, fun o' p hp => ?_⟩
  · have hne : o' ≠ o := by
      rintro rfl
      exact ho M h
    obtain ⟨n, hn⟩ := hP.node M o' h
    refine ⟨n, ?_⟩
    show (s.setNode o none).node o' = some n
    rw [setNode_node, if_neg hne]
    exact hn
  · rw [setPending_pending] at hp
    split_ifs at hp with hne
    exact (hP.fits o' p hp).of_eq rfl (by rw [show ((s.setNode o none).setPending o none).node o' =
      (s.setNode o none).node o' from rfl, setNode_node, if_neg hne])

theorem lookup_some {id : Nat} (h : s.lookup M id = some o) : o ∈ s.cache M ∧ ∃ n, s.node o = some n ∧ n.id = id := by
  have h1 := List.mem_of_find?_eq_some h
  have h2 := List.find?_some h
  obtain ⟨n, hn, hid⟩ := (Option.any_eq_true _ _).mp h2
  exact ⟨h1, n, hn, by simpa using hid⟩

theorem Placed.modify (hP : Placed s) (hn : s.node o = some n) (hid : n'.id = n.id) (hmp : n'.mp = n.mp) :
    Placed (s.setNode o (some n')) := by
  refine hP.setNode (fun M id hp => ?_) fun M hp => ?_
  · obtain ⟨-, n1, hn1, h1⟩ := hP.fits o _ hp
    cases hn.symm.trans hn1
    rw [hid, h1]
  · obtain ⟨-, n1, hn1, h1⟩ := hP.fits o _ hp
    cases hn.symm.trans hn1
    rw [hmp, h1]

/-- A node that no call has yet may be any. -/
theorem Placed.setNode_idle (hP : Placed s) (hp : s.pending o = none) : Placed (s.setNode o (some n')) := by
  refine hP.setNode (fun M id h => ?_) fun M h => ?_ <;>
  · rw [hp] at h
    cases h

theorem Placed.acquire (hP : Placed s) {id : Nat} (ho : s.node o = none) : Placed (s.acquireNode M id o) := by
  unfold Sys.acquireNode
  rcases hl : s.lookup M id with _ | o'
  · obtain ⟨hout, hidle⟩ := hP.fresh ho
    have h1 : Placed (s.setNode o (some ⟨id, M, 1, 0⟩)) := hP.setNode_idle hidle
    have hnode : (s.setNode o (some ⟨id, M, 1, 0⟩)).node o = some ⟨id, M, 1, 0⟩ := setNode_self
    have h2 := h1.join (M := M) hout hnode hidle
    refine h2.setPending fun q hq => ?_
    cases hq
    refine ⟨?_, ⟨id, M, 1, 0⟩, hnode, rfl⟩
    rw [setCache_cache, if_pos rfl]
    exact List.mem_append_right _ (List.mem_singleton_self o)
  · obtain ⟨-, n, hn, -⟩ := lookup_some hl
    dsimp only
    rw [hn]
    exact hP.modify hn rfl rfl

theorem Placed.push (hP : Placed s) {softRefs : Nat} (hp : s.pending o = some (.creating M softRefs)) :
    Placed (s.pushNode M o softRefs) := by
  obtain ⟨hout, n, hn⟩ := hP.fits o _ hp
  have h1 : Placed (s.setPending o none) := hP.setPending fun q hq => by cases hq
  have hidle : (s.setPending o none).pending o = none := by rw [setPending_pending, if_pos rfl]
  unfold Sys.pushNode
  rw [hn]
  exact (h1.setNode_idle hidle).join hout setNode_self hidle

theorem Placed.release (hP : Placed s) {decrement : Bool} (hc : o ∈ s.cache M) (hp : s.pending o = none)
    (hn : s.node o = some n) (hown : (released n decrement).unused → n.mp = M) :
    Placed (s.releaseNode o n decrement) := by
  have h1 : Placed (s.setNode o (some (released n decrement))) := hP.modify hn rfl rfl
  unfold Sys.releaseNode
  dsimp only
  split_ifs with hu
  · obtain rfl := hown hu
    have h2 := h1.shrink (M := n.mp) (c := (s.cache n.mp).filter (· ≠ o)) List.filter_sublist ?_
    · refine h2.setPending fun q hq => ?_
      cases hq
      refine ⟨fun M' h => ?_, released n decrement, setNode_self, rfl⟩
      rw [setCache_cache] at h
      split_ifs at h with hM
      · simp at h
      · exact hM (hP.one M' n.mp o h hc)
    · intro o' id h
      refine List.mem_filter.mpr ⟨(h1.fits o' _ h).1, ?_⟩
      have hne : o' ≠ o := by
        rintro rfl
        rw [show s.pending o' = _ from h] at hp
        cases hp
      simpa using hne
  · exact h1

/-- **The step lemma of the places.** -/
theorem placed_step (hP : Placed s) {e : Event} {s' : Sys} (hs : cacheStep s e s') (hown : freesOwn s e) :
    Placed s' := by
  cases hs with
  | acquire M id o m hm ho => exact hP.acquire ho
  | read o links M id m n hp hm hn =>
      have h1 : Placed (s.setPending o none) := hP.setPending fun q hq => by cases hq
      exact h1.setNode_idle (o := o) (by rw [setPending_pending, if_pos rfl])
  | create M id o softRefs m hm ho hid =>
      obtain ⟨hout, hidle⟩ := hP.fresh ho
      have h1 : Placed (s.setNode o (some (fsCreateNode m.fs id ⟨0, 0, 0, 0⟩))) := hP.setNode_idle hidle
      refine h1.setTaken.setPending fun q hq => ?_
      cases hq
      refine ⟨fun M' => ?_, fsCreateNode m.fs id ⟨0, 0, 0, 0⟩, ?_⟩
      · rw [setTaken_cache]
        exact hout M'
      · rw [setTaken_node, setNode_self]
  | push o M softRefs hp => exact hP.push hp
  | setLinks o links M n hc hp hn => exact hP.modify hn rfl rfl
  | release o decrement M n hc hp hn hr => exact hP.release hc hp hn (hown M n hc hn)
  | destroy o M m n hp hm hn =>
      exact hP.setTaken.forget (by simpa using (hP.fits o _ hp).1)
  | mount M fs parent root p hM hc hquiet hp hfs => exact hP.of_eq rfl rfl rfl
  | unmount M hM hbelow hquiet =>
      have h1 := hP.shrink (M := M) (c := []) (List.nil_sublist _) fun o id h => absurd rfl (hquiet o _ h)
      exact h1.of_eq rfl rfl rfl

theorem placed_init (h0 : cacheInit s) : Placed s := by
  obtain ⟨-, hc, -, hp⟩ := h0
  refine ⟨fun M o h => ?_, fun M M' o h => ?_, fun M => ?_, fun o p h => ?_⟩
  · rw [hc M] at h
    cases h
  · rw [hc M] at h
    cases h
  · rw [hc M]
    exact List.nodup_nil
  · rw [hp o] at h
    cases h

end Placed

/-! ## 5. Whose a node is -/

/-- A node of a TempFS is read only where `SetMountPoint` was told the file system's own mount point: at
    the root. -/
def readsAtRoot (s : Sys) : Event → Prop
  | .read o _ => ∀ M id m, s.pending o = some (.reading M id) → s.mount M = some m → m.fs = .tempFS →
      M = rootMount
  | _ => True

/-- Each node names the mount point whose cache it is in. -/
def Owned (s : Sys) : Prop := ∀ M o n, o ∈ s.cache M → s.node o = some n → n.mp = M

/-- The file system of the root mount was told the root mount. -/
def RootTold (s : Sys) : Prop := ∃ m, s.mount rootMount = some m ∧ m.fsMP = rootMount

section Owned

variable {s s' : Sys} {M o : Nat} {n : Node} {e : Event}

theorem Owned.setNode (hO : Owned s) (hn : ∀ M, o ∈ s.cache M → n.mp = M) : Owned (s.setNode o (some n)) := by
  intro M o' n' hc hn'
  rw [setNode_node] at hn'
  split_ifs at hn' with ho
  · cases hn'
    exact hn M (ho ▸ hc)
  · exact hO M o' n' hc hn'

theorem Owned.join (hO : Owned s) (hn : s.node o = some n) (hmp : n.mp = M) :
    Owned (s.setCache M (s.cache M ++ [o])) := by
  intro M' o' n' hc hn'
  rw [setCache_cache] at hc
  split_ifs at hc with hM
  · rcases List.mem_append.mp hc with h | h
    · exact hM ▸ hO M o' n' h hn'
    · cases List.mem_singleton.mp h
      cases hn.symm.trans hn'
      rw [hM, hmp]
  · exact hO M' o' n' hc hn'

/-- The caches get shorter. -/
theorem Owned.shrink (hO : Owned s) (hc : ∀ M o, o ∈ s'.cache M → o ∈ s.cache M) (hn : s'.node = s.node) :
    Owned s' := by
  intro M o n h hno
  rw [hn] at hno
  exact hO M o n (hc M o h) hno

theorem Owned.acquire (hO : Owned s) (hP : Placed s) {id : Nat} (ho : s.node o = none) :
    Owned (s.acquireNode M id o) := by
  unfold Sys.acquireNode
  rcases hl : s.lookup M id with _ | o'
  · have h1 : Owned (s.setNode o (some ⟨id, M, 1, 0⟩)) :=
      hO.setNode fun M' h => absurd h ((hP.fresh ho).1 M')
    exact h1.join (o := o) setNode_self rfl
  · obtain ⟨-, n, hn, -⟩ := lookup_some hl
    dsimp only
    rw [hn]
    exact hO.setNode fun M' h => hO M' o' n h hn

/-- What `ReadNode` leaves in `mp`. -/
theorem readNode_mp {m : Mount} {id links : Nat} :
    (readNode m id links n).mp = if m.fs = .tempFS then m.fsMP else n.mp := by
  unfold readNode
  rcases m.fs with _ | _ | _ | _ <;> rfl

theorem Owned.release (hO : Owned s) {decrement : Bool} (hn : s.node o = some n) :
    Owned (s.releaseNode o n decrement) := by
  have h1 : Owned (s.setNode o (some (released n decrement))) := hO.setNode fun M h => hO M o n h hn
  unfold Sys.releaseNode
  dsimp only
  split_ifs
  · refine h1.shrink (fun M o' h => ?_) rfl
    have h' : o' ∈ (Sys.setCache _ _ _).cache M := h
    rw [setCache_cache] at h'
    split_ifs at h' with hM
    · exact hM ▸ (List.mem_filter.mp h').1
    · exact h'
  · exact h1

theorem owned_step (hP : Placed s) (hR : RootTold s) (hO : Owned s) (hs : cacheStep s e s')
    (hok : readsAtRoot s e) : Owned s' := by
  cases hs with
  | acquire M id o m hm ho => exact hO.acquire hP ho
  | read o links M id m n hp hm hn =>
      obtain ⟨hc, -⟩ := hP.fits o _ hp
      have hmp := hO M o n hc hn
      have h1 : Owned (s.setNode o (some (readNode m id links n))) := hO.setNode fun M' h => by
        rw [← hP.one M M' o hc h, readNode_mp]
        split_ifs with hfs
        · obtain ⟨m', hm', hfsMP⟩ := hR
          obtain rfl := hok M id m hp hm hfs
          cases hm.symm.trans hm'
          exact hfsMP
        · exact hmp
      exact h1
  | create M id o softRefs m hm ho hid =>
      have h1 : Owned (s.setNode o (some (fsCreateNode m.fs id ⟨0, 0, 0, 0⟩))) :=
        hO.setNode fun M' h => absurd h ((hP.fresh ho).1 M')
      exact h1.shrink (fun M' o' h => by simpa [Sys.createNode, Sys.setPending] using h)
        (by simp [Sys.createNode, Sys.setPending])
  | push o M softRefs hp =>
      obtain ⟨hout, n, hn⟩ := hP.fits o _ hp
      have h1 : Owned (s.setNode o (some { n with refCount := softRefs, mp := M })) :=
        hO.setNode fun M' h => absurd h (hout M')
      unfold Sys.pushNode
      rw [hn]
      exact h1.join (o := o) setNode_self rfl
  | setLinks o links M n hc hp hn => exact hO.setNode fun M' h => hO M' o n h hn
  | release o decrement M n hc hp hn hr => exact hO.release hn
  | destroy o M m n hp hm hn =>
      intro M' o' n' hc hn'
      have hc' : o' ∈ s.cache M' := by simpa [Sys.destroyNode, Sys.setPending, Sys.setNode] using hc
      have hne : o' ≠ o := by
        rintro rfl
        exact (hP.fits o' _ hp).1 M' hc'
      refine hO M' o' n' hc' ?_
      simpa [Sys.destroyNode, Sys.setPending, Sys.setNode, Function.update_of_ne hne] using hn'
  | mount M fs parent root p hM hc hquiet hp hfs => exact hO
  | unmount M hM hbelow hquiet =>
      refine hO.shrink (fun M' o' h => ?_) rfl
      have h' : o' ∈ Function.update s.cache M [] M' := h
      rw [Function.update_apply] at h'
      split_ifs at h' with hMM
      · cases h'
      · exact h'

theorem acquire_mount {id : Nat} : (s.acquireNode M id o).mount = s.mount := by
  unfold Sys.acquireNode
  rcases s.lookup M id with _ | o' <;> rfl

theorem release_mount {decrement : Bool} : (s.releaseNode o n decrement).mount = s.mount := by
  unfold Sys.releaseNode
  dsimp only
  split_ifs <;> rfl

theorem rootTold_step (hR : RootTold s) (hs : cacheStep s e s') : RootTold s' := by
  obtain ⟨m, hm, hfs⟩ := hR
  have same : s'.mount = s.mount → RootTold s' := fun h => ⟨m, by rw [h]; exact hm, hfs⟩
  cases hs with
  | acquire M id o m' hm' ho => exact same acquire_mount
  | create M id o softRefs m' hm' ho hid => exact same (by simp [Sys.createNode, Sys.setPending, Sys.setNode])
  | release o decrement M n hc hp hn hr => exact same release_mount
  | destroy o M m' n hp hm' hn => exact same (by simp [Sys.destroyNode, Sys.setPending, Sys.setNode])
  | mount M fs parent root p hM hc hquiet hp hfs' =>
      have hne : rootMount ≠ M := by
        rintro rfl
        rw [hm] at hM
        cases hM
      exact ⟨m, by rw [← hm]; exact Function.update_of_ne hne _ _, hfs⟩
  | unmount M hM hbelow hquiet =>
      exact ⟨m, by rw [← hm]; exact Function.update_of_ne (Ne.symm hM.1) _ _, hfs⟩
  | read => exact same rfl
  | push => exact same rfl
  | setLinks => exact same rfl

theorem owned_reach (h : Reach (Guarded cacheStep readsAtRoot) cacheInit s) :
    Placed s ∧ RootTold s ∧ Owned s := by
  refine Reach.inv (I := fun s => Placed s ∧ RootTold s ∧ Owned s) (fun s h0 => ?_) (fun s e s' hI hs => ?_) h
  · refine ⟨placed_init h0, ?_, fun M o n hc => ?_⟩
    · obtain ⟨⟨fs, -, hm⟩, -⟩ := h0
      exact ⟨⟨fs, rootMount, none⟩, by rw [hm]; rfl, rfl⟩
    · rw [h0.2.1 M] at hc
      cases hc
  · obtain ⟨hP, hR, hO⟩ := hI
    obtain ⟨hs, hok⟩ := hs
    have hown : freesOwn s e := by
      cases e with
      | release o decrement => exact fun M n hc hn _ => hO M o n hc hn
      | _ => trivial
    exact ⟨placed_step hP hs hown, rootTold_step hR hs, owned_step hP hR hO hs hok⟩

end Owned

/-! ## 6. The ids -/

/-- The mount point's file system chooses the ids of new nodes. -/
def Sys.assigns (s : Sys) (M : Nat) : Prop := ∃ m, s.mount M = some m ∧ m.fs.assigns = true

/-- The id goes by the node: it is in the cache, or, where ids are chosen, a call has yet to push it or to
    give its id back. -/
def Sys.Named (s : Sys) (M o id : Nat) : Prop :=
  (o ∈ s.cache M ∨ s.assigns M ∧ ∃ p, s.pending o = some p ∧ p.mp = M) ∧ ∃ n, s.node o = some n ∧ n.id = id

/-- **When the ids stay apart.** `AcquireNode` asks a TempFS or the PipeFS for an id that it has given out
    and that is neither about to be pushed nor about to be freed. A node that DevFS or ext2 has left without
    an id finds no node with its id in the cache. And what `ReleaseNode` frees is in the cache from which it
    unlinks. -/
def idsApart (s : Sys) : Event → Prop
  | .acquire M id _ => s.assigns M → s.taken M id = true ∧
      ∀ o p n, s.pending o = some p → p.mp = M → o ∉ s.cache M → s.node o = some n → n.id ≠ id
  | .push o => ∀ M softRefs n, s.pending o = some (.creating M softRefs) → ¬ s.assigns M → s.node o = some n →
      ∀ o' n', o' ∈ s.cache M → s.node o' = some n' → n'.id ≠ n.id
  | e => freesOwn s e

/-- No two nodes go by one id, and ids that are chosen are on record. -/
structure Apart (s : Sys) : Prop where
  apart : ∀ M o o' id, s.Named M o id → s.Named M o' id → o = o'
  taken : ∀ M o id, s.assigns M → s.Named M o id → s.taken M id = true

section Apart

variable {s s' : Sys} {M o id : Nat} {n : Node} {e : Event}

/-- The rule: after the step a node goes by an id if it did before, or it is the one new node and the id
    is new. -/
theorem Apart.of (hA : Apart s) (M₀ o₀ : Nat)
    (h : ∀ M o id, s'.Named M o id →
      s.Named M o id ∨ M = M₀ ∧ o = o₀ ∧ ∀ o1, s.Named M₀ o1 id → o1 = o₀)
    (ht : ∀ M o id, s'.assigns M → s'.Named M o id → s'.taken M id = true) : Apart s' := by
  refine ⟨fun M o o' id h1 h2 => ?_, ht⟩
  rcases h M o id h1 with h1 | ⟨rfl, rfl, hnew⟩
  · rcases h M o' id h2 with h2 | ⟨rfl, rfl, hnew⟩
    · exact hA.apart M o o' id h1 h2
    · exact hnew o h1
  · rcases h M o' id h2 with h2 | ⟨-, ho, -⟩
    · exact (hnew o' h2).symm
    · exact ho.symm

/-- Nothing new goes by an id. -/
theorem Apart.keep (hA : Apart s) (hn : ∀ M o id, s'.Named M o id → s.Named M o id)
    (hm : s'.mount = s.mount) (ht : s'.taken = s.taken) : Apart s' := by
  refine hA.of 0 0 (fun M o id h => Or.inl (hn M o id h)) fun M o id hm' h => ?_
  rw [ht]
  refine hA.taken M o id ?_ (hn M o id h)
  obtain ⟨m, h1, h2⟩ := hm'
  exact ⟨m, by rw [← hm]; exact h1, h2⟩

/-- A node with the same id. -/
theorem named_setNode {n' : Node} (hn : s.node o = some n) (hid : n'.id = n.id) {M' o' id : Nat}
    (h : (s.setNode o (some n')).Named M' o' id) : s.Named M' o' id := by
  obtain ⟨hc, n1, hn1, h1⟩ := h
  refine ⟨hc, ?_⟩
  rw [setNode_node] at hn1
  split_ifs at hn1 with ho
  · cases hn1
    subst ho
    exact ⟨n, hn, by rw [← h1, hid]⟩
  · exact ⟨n1, hn1, h1⟩

/-- What a new node does not go by, its old self did not either: the others are as they were. -/
theorem named_other {M' o' id : Nat} (h : s'.Named M' o' id) (hc : o' ∈ s'.cache M' → o' ∈ s.cache M')
    (hp : s'.pending o' = s.pending o') (hn : s'.node o' = s.node o') (hm : s'.mount = s.mount) :
    s.Named M' o' id := by
  obtain ⟨h1, h2⟩ := h
  rw [hn] at h2
  refine ⟨?_, h2⟩
  rcases h1 with h1 | ⟨⟨m, hm', ha⟩, h1⟩
  · exact Or.inl (hc h1)
  · rw [hp] at h1
    rw [hm] at hm'
    exact Or.inr ⟨⟨m, hm', ha⟩, h1⟩

/-- One node comes to go by one id, in one place; nothing else does by it there. -/
theorem Apart.enter (hA : Apart s) (M o id : Nat) (hm : s'.mount = s.mount)
    (hother : ∀ M' o' i, o' ≠ o → s'.Named M' o' i → s.Named M' o' i)
    (hself : ∀ M' i, s'.Named M' o i → M' = M ∧ i = id) (hnew : ∀ o1, s.Named M o1 id → o1 = o)
    (ht : ∀ M i, s.taken M i = true → s'.taken M i = true) (htaken : s.assigns M → s'.taken M id = true) :
    Apart s' := by
  have hass : ∀ M, s'.assigns M → s.assigns M := fun M h => by
    unfold Sys.assigns at h ⊢
    rwa [hm] at h
  refine hA.of M o (fun M' o' i h => ?_) fun M' o' i ha h => ?_
  · by_cases hne : o' = o
    · subst hne
      obtain ⟨rfl, rfl⟩ := hself M' i h
      exact Or.inr ⟨rfl, rfl, hnew⟩
    · exact Or.inl (hother M' o' i hne h)
  · by_cases hne : o' = o
    · subst hne
      obtain ⟨rfl, rfl⟩ := hself M' i h
      exact htaken (hass M' ha)
    · exact ht M' i (hA.taken M' o' i (hass M' ha) (hother M' o' i hne h))

/-- After `push_back` and `setPending` the others are where they were. -/
theorem named_joined {x : Option Node} {p : Option Pending} {M' o' i : Nat} (hne : o' ≠ o)
    (h : (((s.setNode o x).setCache M (s.cache M ++ [o])).setPending o p).Named M' o' i) : s.Named M' o' i := by
  refine named_other h (fun hc => ?_) ?_ (Function.update_of_ne hne _ _) rfl
  · have hc' : o' ∈ ((s.setNode o x).setCache M (s.cache M ++ [o])).cache M' := hc
    rw [setCache_cache] at hc'
    split_ifs at hc' with hM
    · simpa [hM, hne] using hc'
    · exact hc'
  · rw [setPending_pending, if_neg hne]
    rfl

/-- The node that was pushed is in that cache only. -/
theorem named_pushed {p : Option Pending} {M' i : Nat} (hout : ∀ M, o ∉ s.cache M)
    (hp : ∀ q, p = some q → q.mp = M)
    (h : (((s.setNode o (some n)).setCache M (s.cache M ++ [o])).setPending o p).Named M' o i) :
    M' = M ∧ i = n.id := by
  obtain ⟨hc, n1, hn1, rfl⟩ := h
  have hn : ((s.setNode o (some n)).setCache M (s.cache M ++ [o])).node o = some n := setNode_self
  cases hn.symm.trans hn1
  refine ⟨?_, rfl⟩
  rcases hc with hc | ⟨-, q, hq, rfl⟩
  · have hc' : o ∈ ((s.setNode o (some n)).setCache M (s.cache M ++ [o])).cache M' := hc
    rw [setCache_cache] at hc'
    split_ifs at hc' with hM
    · exact hM
    · exact absurd hc' (hout M')
  · rw [setPending_pending, if_pos rfl] at hq
    exact hp q hq

theorem Apart.acquire (hA : Apart s) (hP : Placed s) (ho : s.node o = none)
    (hok : idsApart s (.acquire M id o)) : Apart (s.acquireNode M id o) := by
  unfold Sys.acquireNode
  rcases hl : s.lookup M id with _ | o'
  · obtain ⟨hout, hidle⟩ := hP.fresh ho
    refine hA.enter M o id rfl (fun M' o' i hne h => named_joined hne h) (fun M' i h => ?_) (fun o1 h1 => ?_)
      (fun M' i h => h) fun ha => (hok ha).1
    · exact named_pushed (n := ⟨id, M, 1, 0⟩) hout (fun q hq => by cases hq; rfl) h
    · obtain ⟨hc, n1, hn1, hid⟩ := h1
      have hmiss : o1 ∉ s.cache M := by
        intro hc1
        have := List.find?_eq_none.mp hl o1 hc1
        simp [hn1, hid] at this
      rcases hc with hc | ⟨ha, p, hp, hpm⟩
      · exact absurd hc hmiss
      · exact absurd hid ((hok ha).2 o1 p n1 hp hpm hmiss hn1)
  · obtain ⟨-, n, hn, -⟩ := lookup_some hl
    have hid : ({ n with refCount := n.refCount + 1 } : Node).id = n.id := rfl
    dsimp only
    rw [hn]
    exact hA.keep (fun M' o' i h => named_setNode hn hid h) rfl rfl

theorem setTaken_le {fs : FsType} {M' i : Nat} (h : s.taken M' i = true) :
    (s.setTaken fs M id true).taken M' i = true := by
  unfold Sys.setTaken
  split_ifs
  · by_cases hM : M' = M
    · subst hM
      show Function.update s.taken M' _ M' i = true
      rw [Function.update_self, Function.update_apply]
      split_ifs
      · rfl
      · exact h
    · show Function.update s.taken M _ M' i = true
      rwa [Function.update_of_ne hM]
  · exact h

theorem Apart.create (hA : Apart s) (hP : Placed s) {m : Mount} {softRefs : Nat} (hm : s.mount M = some m)
    (ho : s.node o = none) (hid : m.fs.assigns = true → s.taken M id = false) :
    Apart (s.createNode m.fs M id o softRefs) := by
  obtain ⟨hout, hidle⟩ := hP.fresh ho
  have hcache : (s.createNode m.fs M id o softRefs).cache = s.cache := by
    simp [Sys.createNode, Sys.setPending, Sys.setNode]
  have hmount : (s.createNode m.fs M id o softRefs).mount = s.mount := by
    simp [Sys.createNode, Sys.setPending, Sys.setNode]
  have hpend : ∀ o', (s.createNode m.fs M id o softRefs).pending o' =
      if o' = o then some (.creating M softRefs) else s.pending o' := fun o' => by
    unfold Sys.createNode
    rw [setPending_pending, setTaken_pending]
    rfl
  have hnode : ∀ o', (s.createNode m.fs M id o softRefs).node o' =
      if o' = o then some (fsCreateNode m.fs id ⟨0, 0, 0, 0⟩) else s.node o' := fun o' => by
    show (Sys.setTaken _ m.fs M id true).node o' = _
    rw [setTaken_node, setNode_node]
  -- the new node counts only where the file system has given it the id
  have hself : ∀ M' i, (s.createNode m.fs M id o softRefs).Named M' o i → M' = M ∧ i = id ∧ m.fs.assigns = true := by
    intro M' i hx
    obtain ⟨hc, n1, hn1, rfl⟩ := hx
    rw [hnode, if_pos rfl] at hn1
    rcases hc with hc | ⟨⟨m', hm', ha⟩, p, hp, rfl⟩
    · rw [hcache] at hc
      exact absurd hc (hout M')
    · rw [hpend, if_pos rfl] at hp
      cases hp
      rw [hmount] at hm'
      cases hm.symm.trans hm'
      cases hn1
      refine ⟨rfl, ?_, ha⟩
      rcases hfs : m.fs with _ | _ | _ | _ <;> simp_all [FsType.assigns, fsCreateNode]
  by_cases ha : m.fs.assigns = true
  · refine hA.enter M o id hmount (fun M' o' i hne h => ?_) (fun M' i h => ⟨(hself M' i h).1, (hself M' i h).2.1⟩)
      (fun o1 h1 => ?_) (fun M' i h => setTaken_le h) fun _ => ?_
    · exact named_other h (fun hc => hcache ▸ hc) (by rw [hpend, if_neg hne]) (by rw [hnode, if_neg hne]) hmount
    · have := hA.taken M o1 id ⟨m, hm, ha⟩ h1
      rw [hid ha] at this
      cases this
    · show (Sys.setTaken _ m.fs M id true).taken M id = true
      unfold Sys.setTaken
      rw [if_pos ha]
      simp
  · refine hA.keep (fun M' o' i h => ?_) hmount ?_
    · by_cases hne : o' = o
      · subst hne
        exact absurd (hself M' i h).2.2 ha
      · exact named_other h (fun hc => hcache ▸ hc) (by rw [hpend, if_neg hne]) (by rw [hnode, if_neg hne]) hmount
    · show (Sys.setTaken _ m.fs M id true).taken = s.taken
      unfold Sys.setTaken
      rw [if_neg ha]
      rfl

theorem Apart.push (hA : Apart s) (hP : Placed s) {softRefs : Nat}
    (hp : s.pending o = some (.creating M softRefs)) (hok : idsApart s (.push o)) :
    Apart (s.pushNode M o softRefs) := by
  obtain ⟨hout, n, hn⟩ := hP.fits o _ hp
  unfold Sys.pushNode
  rw [hn]
  have hself : ∀ M' i, (Sys.setPending ((s.setNode o (some { n with refCount := softRefs, mp := M })).setCache M
      (s.cache M ++ [o])) o none).Named M' o i → M' = M ∧ i = n.id := fun M' i h =>
    named_pushed (n := { n with refCount := softRefs, mp := M }) hout (fun q hq => by cases hq) h
  by_cases ha : s.assigns M
  · have hnamed : s.Named M o n.id := ⟨Or.inr ⟨ha, _, hp, rfl⟩, n, hn, rfl⟩
    refine hA.keep (fun M' o' i h => ?_) rfl rfl
    by_cases hne : o' = o
    · subst hne
      obtain ⟨rfl, rfl⟩ := hself M' i h
      exact hnamed
    · exact named_joined hne h
  · refine hA.enter M o n.id rfl (fun M' o' i hne h => named_joined hne h) hself (fun o1 h1 => ?_)
      (fun M' i h => h) fun h => absurd h ha
    obtain ⟨hc, n1, hn1, hid⟩ := h1
    rcases hc with hc | ⟨h, -⟩
    · exact absurd hid (hok M softRefs n hp ha hn o1 n1 hc hn1)
    · exact absurd h ha

theorem Apart.release (hA : Apart s) {decrement : Bool} (hc : o ∈ s.cache M) (hn : s.node o = some n)
    (hown : (released n decrement).unused → n.mp = M) : Apart (s.releaseNode o n decrement) := by
  have hid : (released n decrement).id = n.id := rfl
  have h1 : Apart (s.setNode o (some (released n decrement))) :=
    hA.keep (fun M' o' i h => named_setNode hn hid h) rfl rfl
  unfold Sys.releaseNode
  dsimp only
  split_ifs with hu
  · obtain rfl := hown hu
    refine h1.keep (fun M' o' i h => ?_) rfl rfl
    obtain ⟨hh, hx⟩ := h
    refine ⟨?_, hx⟩
    rcases hh with hh | ⟨ha, p, hp, hpm⟩
    · left
      have h' : o' ∈ (Sys.setCache _ _ _).cache M' := hh
      rw [setCache_cache] at h'
      split_ifs at h' with hM
      · exact hM ▸ (List.mem_filter.mp h').1
      · exact h'
    · rw [setPending_pending] at hp
      split_ifs at hp with ho
      · cases hp
        left
        subst ho hpm
        exact hc
      · exact Or.inr ⟨ha, p, hp, hpm⟩
  · exact h1

theorem Apart.destroy (hA : Apart s) {m : Mount} (hm : s.mount M = some m)
    (hp : s.pending o = some (.destroying M)) (hn : s.node o = some n) : Apart (s.destroyNode m.fs M o n) := by
  have hmount : (s.destroyNode m.fs M o n).mount = s.mount := by
    simp [Sys.destroyNode, Sys.setPending, Sys.setNode]
  have hold : ∀ M' o' i, (s.destroyNode m.fs M o n).Named M' o' i → o' ≠ o ∧ s.Named M' o' i := by
    intro M' o' i h
    have hne : o' ≠ o := by
      rintro rfl
      obtain ⟨-, n1, hn1, -⟩ := h
      rw [show (s.destroyNode m.fs M o' n).node o' = none from setNode_self] at hn1
      cases hn1
    refine ⟨hne, named_other h (fun hc => ?_) ?_ ?_ hmount⟩
    · simpa [Sys.destroyNode, Sys.setPending, Sys.setNode] using hc
    · show (Sys.setPending _ o none).pending o' = _
      rw [setPending_pending, if_neg hne]
      exact congrFun setTaken_pending o'
    · show (Sys.setNode _ o none).node o' = _
      rw [setNode_node, if_neg hne, setTaken_node]
  refine hA.of 0 0 (fun M' o' i h => Or.inl (hold M' o' i h).2) fun M' o' i ha h => ?_
  obtain ⟨hne, hnamed⟩ := hold M' o' i h
  obtain ⟨m', hm', ha⟩ := ha
  rw [hmount] at hm'
  have htaken := hA.taken M' o' i ⟨m', hm', ha⟩ hnamed
  show (s.setTaken m.fs M n.id false).taken M' i = true
  unfold Sys.setTaken
  split_ifs with hfs
  · by_cases hM : M' = M
    · subst hM
      have hi : i ≠ n.id := by
        rintro rfl
        exact hne (hA.apart M' o' o n.id hnamed ⟨Or.inr ⟨⟨m, hm, hfs⟩, _, hp, rfl⟩, n, hn, rfl⟩)
      show Function.update s.taken M' _ M' i = true
      rw [Function.update_self, Function.update_of_ne hi]
      exact htaken
    · show Function.update s.taken M _ M' i = true
      rw [Function.update_of_ne hM]
      exact htaken
  · exact htaken

theorem Apart.mount (hA : Apart s) {x : Option Mount} {c : List Nat} {t : Nat → Bool}
    (hc : c = []) (hquiet : ∀ o p, s.pending o = some p → p.mp ≠ M) :
    Apart { s with
      mount := Function.update s.mount M x
      cache := Function.update s.cache M c
      taken := Function.update s.taken M t } := by
  subst hc
  have hold : ∀ M' o' i, Sys.Named { s with
      mount := Function.update s.mount M x
      cache := Function.update s.cache M []
      taken := Function.update s.taken M t } M' o' i → M' ≠ M ∧ s.Named M' o' i := by
    intro M' o' i hx
    obtain ⟨hh, hx⟩ := hx
    have hM : M' ≠ M := by
      rintro rfl
      rcases hh with hh | ⟨-, p, hp, hpm⟩
      · have h' : o' ∈ Function.update s.cache M' [] M' := hh
        rw [Function.update_self] at h'
        cases h'
      · exact hquiet o' p hp hpm
    refine ⟨hM, ?_, hx⟩
    rcases hh with hh | ⟨⟨m, hm, ha⟩, hp⟩
    · have h' : o' ∈ Function.update s.cache M [] M' := hh
      rw [Function.update_of_ne hM] at h'
      exact Or.inl h'
    · have h' : Function.update s.mount M x M' = some m := hm
      rw [Function.update_of_ne hM] at h'
      exact Or.inr ⟨⟨m, h', ha⟩, hp⟩
  refine hA.of 0 0 (fun M' o' i h => Or.inl (hold M' o' i h).2) fun M' o' i ha h => ?_
  obtain ⟨hM, hnamed⟩ := hold M' o' i h
  obtain ⟨m, hm, ha⟩ := ha
  have h' : Function.update s.mount M x M' = some m := hm
  rw [Function.update_of_ne hM] at h'
  show Function.update s.taken M t M' i = true
  rw [Function.update_of_ne hM]
  exact hA.taken M' o' i ⟨m, h', ha⟩ hnamed

end Apart

/-! ## 7. Whole runs -/

/-- The ids in a cache, in its order. -/
def Sys.ids (s : Sys) (M : Nat) : List Nat := (s.cache M).filterMap fun o => (s.node o).map Node.id

section Runs

variable {s : Sys}

/-- **Node ownership**: each node names the mount point whose cache it is in, so a `ReleaseNode` that frees
    it unlinks it from there and no other cache changes. -/
theorem node_ownership (h : Reach (Guarded cacheStep readsAtRoot) cacheInit s) :
    (∀ M o n, o ∈ s.cache M → s.node o = some n → n.mp = M) ∧
      ∀ M o decrement s', o ∈ s.cache M → cacheStep s (.release o decrement) s' →
        (∀ M', M' ≠ M → s'.cache M' = s.cache M') ∧
          ∀ M', s'.pending o = some (.destroying M') → M' = M ∧ o ∉ s'.cache M := by
  obtain ⟨hP, -, hO⟩ := owned_reach h
  refine ⟨hO, fun M o decrement s' hc hs => ?_⟩
  cases hs with
  | release _ _ M₁ n hc₁ hp hn hr =>
      have hmp := hO M o n hc hn
      subst hmp
      unfold Sys.releaseNode
      dsimp only
      split_ifs with hu
      · refine ⟨fun M' hM => ?_, fun M' h' => ?_⟩
        · exact Function.update_of_ne hM _ _
        · rw [setPending_pending, if_pos rfl] at h'
          cases h'
          refine ⟨rfl, fun hmem => ?_⟩
          have h1 : o ∈ (Sys.setCache (s.setNode o (some (released n decrement))) n.mp
            ((s.cache n.mp).filter (· ≠ o))).cache n.mp := hmem
          rw [setCache_cache, if_pos rfl] at h1
          simp at h1
      · refine ⟨fun M' _ => rfl, fun M' h' => ?_⟩
        rw [show (s.setNode o _).pending o = none from hp] at h'
        cases h'

end Runs

/-- After `VFS::Init` with a TempFS whose root node is 7. -/
def booted : Sys :=
  ⟨fun M => if M = rootMount then some ⟨.tempFS, rootMount, none⟩
      else if M = pipeMount then some ⟨.pipeFS, pipeMount, none⟩ else none,
    fun _ => [], fun _ => none, fun _ => none, fun M id => decide (M = 0 ∧ id = 7)⟩

theorem booted_init : cacheInit booted := ⟨⟨.tempFS, by decide, rfl⟩, fun _ => rfl, fun _ => rfl, fun _ => rfl⟩

/-- **The root node of a TempFS that is mounted below another mount point names that one**: `CreateFolder`
    makes the folder 8, `Mount` a TempFS over it, and the first path into it reads its root node 9. -/
theorem mounted_root_misowned :
    ¬ ∀ s, Reach cacheStep cacheInit s → ∀ M o n, o ∈ s.cache M → s.node o = some n → n.mp = M := by
  intro hall
  have h0 : Reach cacheStep cacheInit booted := .start _ booted_init
  have h1 := Reach.next _ _ _ h0 (cacheStep.acquire _ 0 7 0 ⟨.tempFS, 0, none⟩ rfl rfl)
  have h2 := Reach.next _ _ _ h1 (cacheStep.read _ 0 1 0 7 ⟨.tempFS, 0, none⟩ ⟨7, 0, 1, 0⟩ rfl rfl rfl)
  have h3 := Reach.next _ _ _ h2 (cacheStep.create _ 0 8 1 1 ⟨.tempFS, 0, none⟩ rfl rfl fun _ => rfl)
  have h4 := Reach.next _ _ _ h3 (cacheStep.push _ 1 0 1 rfl)
  have h5 := Reach.next _ _ _ h4 (cacheStep.setLinks _ 1 1 0 ⟨8, 0, 1, 0⟩ (by decide) rfl rfl)
  have h6 := Reach.next _ _ _ h5 (cacheStep.release _ 1 true 0 ⟨8, 0, 1, 1⟩ (by decide) rfl rfl (by decide))
  have h7 := Reach.next _ _ _ h6 (cacheStep.release _ 0 true 0 ⟨7, 0, 1, 1⟩ (by decide) rfl rfl (by decide))
  have h8 := Reach.next _ _ _ h7 (cacheStep.mount _ 2 .tempFS 0 9 ⟨.tempFS, 0, none⟩ rfl rfl
    (fun o p hp => by rcases o with _ | _ | o <;> exact absurd (show none = some p from hp) (by simp)) rfl
    (by decide))
  have h9 := Reach.next _ _ _ h8 (cacheStep.acquire _ 2 9 2 ⟨.tempFS, 0, some 0⟩ rfl rfl)
  have h10 := Reach.next _ _ _ h9 (cacheStep.read _ 2 1 2 9 ⟨.tempFS, 0, some 0⟩ ⟨9, 2, 1, 0⟩ rfl rfl rfl)
  exact absurd (hall _ h10 2 2 ⟨9, 0, 1, 1⟩ (by decide) rfl) (by decide)

/-- The root of the root mount is read, and the root of a DevFS that is mounted below. -/
theorem node_ownership_devFS : ∃ s, Reach (Guarded cacheStep readsAtRoot) cacheInit s ∧
    s.cache 2 = [1] ∧ s.node 1 = some ⟨0xFFFF, 2, 1, 1⟩ ∧
      ∀ M o n, o ∈ s.cache M → s.node o = some n → n.mp = M := by
  have h0 : Reach (Guarded cacheStep readsAtRoot) cacheInit booted := .start _ booted_init
  have h1 := Reach.next _ _ _ h0 ⟨cacheStep.acquire _ 0 7 0 ⟨.tempFS, 0, none⟩ rfl rfl, trivial⟩
  have h2 := Reach.next _ _ _ h1 ⟨cacheStep.read _ 0 1 0 7 ⟨.tempFS, 0, none⟩ ⟨7, 0, 1, 0⟩ rfl rfl rfl,
    fun M id m hp _ _ => by cases hp; rfl⟩
  have h3 := Reach.next _ _ _ h2 ⟨cacheStep.mount _ 2 .devFS 0 0xFFFF ⟨.tempFS, 0, none⟩ rfl rfl
    (fun o p hp => by rcases o with _ | o <;> exact absurd (show none = some p from hp) (by simp)) rfl
    (by decide), trivial⟩
  have h4 := Reach.next _ _ _ h3 ⟨cacheStep.acquire _ 2 0xFFFF 1 ⟨.devFS, 0, some 0⟩ rfl rfl, trivial⟩
  have h5 := Reach.next _ _ _ h4 ⟨cacheStep.read _ 1 1 2 0xFFFF ⟨.devFS, 0, some 0⟩ ⟨0xFFFF, 2, 1, 0⟩ rfl rfl rfl,
    fun M id m hp hm hfs => by cases hp; cases hm; cases hfs⟩
  exact ⟨_, h5, rfl, rfl, (node_ownership h5).1⟩

end NodeCache

end SimpleOS2
