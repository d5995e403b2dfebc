/-
  File:      SimpleOS2/Fs/NodeCounts.lean
  Subject:   THE COUNTS OF NODES (fs/VFS.cpp), while any number of threads take turns.

  `refCount` counts who holds the node, `linkCount` counts its entries. The calls change them step by step,
  so between two steps an entry can be counted that is not in its folder, or no more.

  * `heldOpen`, `Sys.entriesOf`, `Pc.pending` -- the descriptors and entries of a node, and the entries that are
    on their way;
  * `LinkStep`, `planAt_linkStep` -- what the steps do to links and entries;
  * `Counted` -- **the counts are exact**; `careful` -- under this condition on the steps they stay so;
    `counted_step` -- the step;
  * `Counted.held_alive`, `Counted.entry_alive` -- so what is held or has an entry is a node.
-/
import SimpleOS2.Fs.CreateRaces
import SimpleOS2.Fs.LoneWalk
import SimpleOS2.Lib.Tally

namespace SimpleOS2

open Lib

namespace Lookup

/-! ## 1. What is counted -/

/-- The descriptors of a node. -/
def heldOpen (descs : List FileDescriptor) (mp id : Nat) : Nat := descs.countP fun d => d.mp = mp ∧ d.id = id

/-- The entries of a node in a directory. -/
def entriesIn (dir : List DirectoryEntry) (id : Nat) : Nat := dir.countP fun e => e.nodeID = id

/-- The entries of a node in all directories. -/
def Sys.entriesOf (s : Sys) (mp id : Nat) : Nat :=
  ∑ dir ∈ Finset.range (s.nextID mp), entriesIn (s.node mp dir).cachedDir id

/-- `linkCount` counts an entry that is not yet in its directory, or no more. -/
def Pc.pending (mp id : Nat) : Pc → Nat
  | .insert _ mp' _ id' _ => if mp' = mp ∧ id' = id then 1 else 0
  | .unlink mp' id' _ => if mp' = mp ∧ id' = id then 1 else 0
  | _ => 0

/-- The links of a node. What denotes no node has none. -/
def Sys.linksOf (s : Sys) (mp id : Nat) : Int := if s.alive mp id then (s.node mp id).linkCount else 0

/-- The thread is not on the path. -/
def Pc.rests : Pc → Bool
  | .root _ _ _ _ => false
  | .walk _ _ _ _ _ => false
  | .search _ _ _ _ _ => false
  | .entry _ _ _ _ _ _ => false
  | .arrived _ _ _ _ _ _ => false
  | _ => true

/-- An effect that changes no link and no entry. -/
def Effect.plain : Effect → Bool
  | .link _ _ _ => false
  | .make _ _ => false
  | .addEntry _ _ _ _ => false
  | .removeEntry _ _ _ => false
  | _ => true

/-- **What a step does to links and entries.** -/
inductive LinkStep (s : Sys) (t : Nat) (g : Garbage) : Pc → Effect × Pc → Prop where
  | plain (pc : Pc) (q : Effect × Pc) (he : q.1.plain = true)
      (hp : ∀ mp id, q.2.pending mp id = pc.pending mp id) : LinkStep s t g pc q
  /-- `CreateHardLink` counts the entry first. -/
  | link (mp id p : Nat) (path rest : List Char) :
      LinkStep s t g (.done (.linkTo mp id) path mp none (some p) rest)
        (.link mp id 1, .insert (.linkTo mp id) mp p id rest)
  | make (op : Op) (mp p : Nat) (name : List Char) (node : Node) (hn : s.newNode t mp p op = some node) :
      LinkStep s t g (.make op mp p name) (.make mp node, .insert op mp p (s.nextID mp) name)
  | insert (op : Op) (mp p id : Nat) (name : List Char) :
      LinkStep s t g (.insert op mp p id name)
        (.addEntry mp p name (Sys.insertEntry (s.node mp p).cachedDir name id g.dir), Sys.afterInsert mp p id op)
  | remove (path : List Char) (mp id p i : Nat) (e : DirectoryEntry) (he : (s.node mp p).cachedDir[i]? = some e)
      (hn : getFileName path = e.name) :
      LinkStep s t g (.remove path mp id p)
        (.removeEntry mp p ((s.node mp p).cachedDir.eraseIdx i), .unlink mp id p)
  /-- `Delete` counts the entry last. -/
  | unlink (mp id p : Nat) :
      LinkStep s t g (.unlink mp id p)
        (.link mp id (-1), .cleanup .delete [.node mp id, .node mp p, .mount mp] (.ret OK))

section Plans

variable {s : Sys} {t : Nat} {g : Garbage} {mp cur id p : Nat} {path rest name : List Char} {op : Op}
  {node parent : Option Nat}

/-- A step that neither begins nor ends with an entry on its way. -/
theorem LinkStep.still {pc : Pc} {q : Effect × Pc} (he : q.1.plain = true) (hpc : ∀ mp id, pc.pending mp id = 0)
    (hq : ∀ mp id, q.2.pending mp id = 0) : LinkStep s t g pc q :=
  .plain pc q he fun mp id => by rw [hpc, hq]

theorem locked_linkStep {wait : Pc} {go : Effect × Pc} (h : LinkStep s t g wait go) :
    LinkStep s t g wait (s.locked mp id wait go) := by
  unfold Sys.locked
  split_ifs
  · exact .plain wait _ rfl fun _ _ => rfl
  · exact h

theorem planWalk_pending (m i : Nat) : (s.planWalk t op path mp cur rest).pending m i = 0 := by
  unfold Sys.planWalk
  split_ifs <;> rfl

theorem planSearch_pending (m i : Nat) : (s.planSearch op path mp cur rest).pending m i = 0 := by
  unfold Sys.planSearch
  split
  · rfl
  · split_ifs <;> rfl

theorem planOpen_pending {mode : Nat} (m i : Nat) : (s.planOpen t mode path mp node parent rest).pending m i = 0 := by
  unfold Sys.planOpen
  split
  · split_ifs <;> rfl
  · split_ifs
    · rfl
    · split <;> rfl
  · rfl

theorem planDelete_pending (m i : Nat) : (s.planDelete t path mp node parent rest).pending m i = 0 := by
  unfold Sys.planDelete
  split
  · rfl
  · split_ifs <;> rfl
  · rfl

theorem planLook_linkStep (op' : Op) : LinkStep s t g (.done op' path mp node parent rest)
    (Sys.planLook op path mp node parent rest) := by
  unfold Sys.planLook
  split <;> exact .still rfl (fun _ _ => rfl) fun _ _ => rfl

theorem planCreate_linkStep {op' : Op} {go : Nat → Effect × Pc}
    (hgo : ∀ p, LinkStep s t g (.done op' path mp none (some p) rest) (go p)) :
    LinkStep s t g (.done op' path mp node parent rest) (s.planCreate t op mp node parent go) := by
  unfold Sys.planCreate
  split
  · split_ifs
    · exact .still rfl (fun _ _ => rfl) fun _ _ => rfl
    · exact hgo _
  · exact .still rfl (fun _ _ => rfl) fun _ _ => rfl

theorem planDone_linkStep : LinkStep s t g (.done op path mp node parent rest)
    (s.planDone t op path mp node parent rest) := by
  cases op with
  | create type permissions linkPath =>
      exact planCreate_linkStep fun p => .still rfl (fun _ _ => rfl) fun _ _ => rfl
  | linkTo lmp lid =>
      refine planCreate_linkStep fun p => ?_
      split_ifs with hmp
      · exact .still rfl (fun _ _ => rfl) fun _ _ => rfl
      · obtain rfl := not_not.mp hmp
        exact .link mp lid p path rest
  | openFile mode => exact .still rfl (fun _ _ => rfl) fun m i => planOpen_pending m i
  | delete => exact .still rfl (fun _ _ => rfl) fun m i => planDelete_pending m i
  | cd => cases node <;> exact .still rfl (fun _ _ => rfl) fun _ _ => rfl
  | hardLink path' => exact planLook_linkStep _
  | stat followSymlink => exact planLook_linkStep _
  | list n writable => exact planLook_linkStep _
  | changeOwner uid gid => exact planLook_linkStep _
  | changePermissions permissions => exact planLook_linkStep _
  | close => exact planLook_linkStep _

theorem planLookAt_linkStep : LinkStep s t g (.lookAt op mp id) (s.planLookAt t op mp id) := by
  unfold Sys.planLookAt
  split
  · split_ifs
    · exact .still rfl (fun _ _ => rfl) fun _ _ => rfl
    · split <;> exact .still rfl (fun _ _ => rfl) fun _ _ => rfl
  · split_ifs <;> exact .still rfl (fun _ _ => rfl) fun _ _ => rfl
  · split_ifs <;> exact .still rfl (fun _ _ => rfl) fun _ _ => rfl
  · split_ifs <;> exact .still rfl (fun _ _ => rfl) fun _ _ => rfl
  · exact .still rfl (fun _ _ => rfl) fun _ _ => rfl

theorem planAt_linkStep (s : Sys) (t : Nat) (g : Garbage) (pc : Pc) : LinkStep s t g pc (s.planAt t g pc) := by
  cases pc with
  | idle => exact .still rfl (fun _ _ => rfl) fun _ _ => rfl
  | find op path =>
      show LinkStep s t g _ (s.planFind op path)
      unfold Sys.planFind
      split <;> exact .still rfl (fun _ _ => rfl) fun _ _ => rfl
  | root op path mp rest =>
      refine .still rfl (fun _ _ => rfl) fun m i => ?_
      show (s.planRoot op path mp rest).pending m i = 0
      unfold Sys.planRoot
      split_ifs <;> rfl
  | walk op path mp cur rest => exact .still rfl (fun _ _ => rfl) fun m i => planWalk_pending m i
  | search op path mp cur rest =>
      exact locked_linkStep (.still rfl (fun _ _ => rfl) fun m i => planSearch_pending m i)
  | entry op path mp cur id rest => exact .still rfl (fun _ _ => rfl) fun _ _ => rfl
  | arrived op path mp cur id rest =>
      show LinkStep s t g _ (s.planArrived op path mp cur id rest)
      unfold Sys.planArrived
      split_ifs <;> exact .still rfl (fun _ _ => rfl) fun _ _ => rfl
  | relink op path todo => cases todo <;> exact .still rfl (fun _ _ => rfl) fun _ _ => rfl
  | done op path mp node parent rest => exact planDone_linkStep
  | make op mp parent name =>
      show LinkStep s t g _ (s.planMake t op mp parent name)
      unfold Sys.planMake
      split
      · rename_i node hn
        exact .make op mp parent name node hn
      · exact .still rfl (fun _ _ => rfl) fun _ _ => rfl
  | insert op mp parent id name => exact locked_linkStep (.insert op mp parent id name)
  | leaveFolder mode mp id parent => exact .still rfl (fun _ _ => rfl) fun _ _ => rfl
  | opened mode mp id =>
      show LinkStep s t g _ (s.planOpened t mode mp id)
      unfold Sys.planOpened
      split_ifs <;> exact .still rfl (fun _ _ => rfl) fun _ _ => rfl
  | lookAt op mp id => exact planLookAt_linkStep
  | listing mp id n writable => exact locked_linkStep (.still rfl (fun _ _ => rfl) fun _ _ => rfl)
  | checkEmpty path mp id parent =>
      refine locked_linkStep (.still rfl (fun _ _ => rfl) fun m i => ?_)
      show (s.planCheckEmpty path mp id parent).pending m i = 0
      unfold Sys.planCheckEmpty
      split_ifs <;> rfl
  | remove path mp id parent =>
      refine locked_linkStep ?_
      obtain ⟨i, e, he, hn, -, h⟩ | ⟨-, h⟩ := planRemove_cases s path mp id parent
      · rw [h]
        exact .remove path mp id parent i e he hn
      · rw [h]
        exact .still rfl (fun _ _ => rfl) fun _ _ => rfl
  | unlink mp id parent => exact .unlink mp id parent
  | cleanup op todo after => cases todo <;> exact .still rfl (fun _ _ => rfl) fun _ _ => rfl
  | returned op res => exact .still rfl (fun _ _ => rfl) fun _ _ => rfl

theorem locked_rests {wait : Pc} {go : Effect × Pc} (hw : wait.rests = true) (hgo : go.2.rests = true) :
    (s.locked mp id wait go).2.rests = true := by
  unfold Sys.locked
  split_ifs
  · exact hw
  · exact hgo

theorem planLook_rests : (Sys.planLook op path mp node parent rest).2.rests = true := by
  unfold Sys.planLook
  split <;> rfl

theorem planCreate_rests {go : Nat → Effect × Pc} (hgo : ∀ q, (go q).2.rests = true) :
    (s.planCreate t op mp node parent go).2.rests = true := by
  unfold Sys.planCreate
  split
  · split_ifs
    · rfl
    · exact hgo _
  · rfl

theorem planDone_rests : (s.planDone t op path mp node parent rest).2.rests = true := by
  cases op with
  | create type permissions linkPath => exact planCreate_rests fun q => rfl
  | linkTo lmp lid =>
      refine planCreate_rests fun q => ?_
      split_ifs <;> rfl
  | openFile mode =>
      show (s.planOpen t mode path mp node parent rest).rests = true
      unfold Sys.planOpen
      split
      · split_ifs <;> rfl
      · split_ifs
        · rfl
        · split <;> rfl
      · rfl
  | delete =>
      show (s.planDelete t path mp node parent rest).rests = true
      unfold Sys.planDelete
      split
      · rfl
      · split_ifs <;> rfl
      · rfl
  | cd => cases node <;> rfl
  | hardLink path' => exact planLook_rests
  | stat followSymlink => exact planLook_rests
  | list n writable => exact planLook_rests
  | changeOwner uid gid => exact planLook_rests
  | changePermissions permissions => exact planLook_rests
  | close => exact planLook_rests

theorem planLookAt_rests : (s.planLookAt t op mp id).2.rests = true := by
  unfold Sys.planLookAt
  split
  · split_ifs
    · rfl
    · split <;> rfl
  · split_ifs <;> rfl
  · split_ifs <;> rfl
  · split_ifs <;> rfl
  · rfl

/-- **Only the head of a search leads onto a path.** -/
theorem planAt_rests {pc : Pc} (h : pc.rests = true) (hfind : ∀ op path, pc ≠ .find op path) :
    (s.planAt t g pc).2.rests = true := by
  cases pc with
  | find op path => exact absurd rfl (hfind op path)
  | root op path mp rest => cases h
  | walk op path mp cur rest => cases h
  | search op path mp cur rest => cases h
  | entry op path mp cur id rest => cases h
  | arrived op path mp cur id rest => cases h
  | idle => rfl
  | relink op path todo => cases todo <;> rfl
  | done op path mp node parent rest => exact planDone_rests
  | make op mp parent name => cases op <;> rfl
  | insert op mp parent id name =>
      refine locked_rests rfl ?_
      cases op <;> rfl
  | leaveFolder mode mp id parent => rfl
  | opened mode mp id =>
      show (s.planOpened t mode mp id).2.rests = true
      unfold Sys.planOpened
      split_ifs <;> rfl
  | lookAt op mp id => exact planLookAt_rests
  | listing mp id n writable => exact locked_rests rfl rfl
  | checkEmpty path mp id parent =>
      refine locked_rests rfl ?_
      show (s.planCheckEmpty path mp id parent).rests = true
      unfold Sys.planCheckEmpty
      split_ifs <;> rfl
  | remove path mp id parent =>
      refine locked_rests rfl ?_
      obtain ⟨i, e, -, -, -, h⟩ | ⟨-, h⟩ := planRemove_cases s path mp id parent <;> rw [h] <;> rfl
  | unlink mp id parent => rfl
  | cleanup op todo after => cases todo <;> rfl
  | returned op res => rfl

end Plans

/-! ## 2. References through an effect -/

section Refs

variable {s : Sys} {g : Garbage} {mp id : Nat} {e : Effect} {held : List Ref}

theorem release_refs (hc : s.cached mp id = true) (mp' id' : Nat) :
    (s.releaseNode mp id).refs mp' id' = s.refs mp' id' - if mp' = mp ∧ id' = id then 1 else 0 := by
  unfold Sys.releaseNode
  split_ifs with hz hx hx
  · obtain ⟨rfl, rfl⟩ := hx
    have h1 : s.refs mp' id' = (s.node mp' id').refCount := if_pos hc
    have h2 : Sys.refs { s.decRef mp' id' with
        cached := update₂ s.cached mp' id' false
        alive := update₂ s.alive mp' id' false } mp' id' = 0 := by
      show (if update₂ s.cached mp' id' false mp' id' = true then _ else (0 : Int)) = 0
      rw [update₂_self]
      rfl
    rw [h1, h2]
    omega
  · have h1 := decRef_refs hc mp' id'
    rw [if_neg hx] at h1
    rw [← h1]
    show (if update₂ s.cached mp id false mp' id' = true then ((s.decRef mp id).node mp' id').refCount else 0) = _
    simp only [update₂_of_ne _ _ hx]
    rfl
  · rw [decRef_refs hc, if_pos hx]
  · rw [decRef_refs hc, if_neg hx]

theorem make_refs (mp : Nat) (node : Node) (mp' id' : Nat) :
    (s.perform g (.make mp node)).refs mp' id' =
      if mp' = mp ∧ id' = s.nextID mp then node.refCount else s.refs mp' id' := by
  show (if update₂ s.cached mp (s.nextID mp) true mp' id' = true then
    (update₂ s.node mp (s.nextID mp) node mp' id').refCount else 0) = _
  by_cases hx : mp' = mp ∧ id' = s.nextID mp
  · obtain ⟨rfl, rfl⟩ := hx
    rw [update₂_self, update₂_self, if_pos rfl, if_pos ⟨rfl, rfl⟩]
  · rw [update₂_of_ne _ _ hx, update₂_of_ne _ _ hx, if_neg hx]
    rfl

/-- A node that keeps its count when it is set. -/
theorem setNode_refs_same {mp' id' : Nat} {n : Node} (h : n.refCount = (s.node mp' id').refCount) :
    (s.setNode mp' id' n).refs mp id = s.refs mp id := by
  rw [setNode_refs]
  split_ifs with hx hc
  · obtain ⟨rfl, rfl⟩ := hx
    rw [h, Sys.refs, if_pos hc]
  · obtain ⟨rfl, rfl⟩ := hx
    rw [Sys.refs, if_neg hc]
  · rfl

theorem count_node_cons (r : Ref) (l : List Ref) (mp id : Nat) :
    (r :: l).count (.node mp id) = l.count (.node mp id) + if r = .node mp id then 1 else 0 := by
  rw [List.count_cons]
  congr 1
  simp

/-- What an effect needs of the thread and of the node. -/
structure Fit (s : Sys) (held : List Ref) (e : Effect) : Prop where
  release : ∀ r, e = .release r → r ∈ held
  desc : ∀ clear desc, e = .openDesc clear desc → Ref.node desc.mp desc.id ∈ held
  cached : ∀ mp id, Ref.node mp id ∈ held → s.cached mp id = true
  make : ∀ mp node, e = .make mp node → s.refs mp (s.nextID mp) = 0 ∧ node.refCount = 1

theorem count_erase_node {r : Ref} (h : r ∈ held) (mp id : Nat) :
    (held.erase r).count (.node mp id) + (if r = .node mp id then 1 else 0) = held.count (.node mp id) := by
  have hp := (List.perm_cons_erase h).count_eq (.node mp id)
  rw [count_node_cons] at hp
  exact hp.symm

/-- **References through an effect**: the counter, the descriptors and the thread agree. -/
theorem perform_refs (hfit : Fit s held e) (mp id : Nat) :
    (s.perform g e).refs mp id + heldOpen s.descs mp id + held.count (.node mp id) =
      s.refs mp id + heldOpen (s.perform g e).descs mp id + (e.held s held).count (.node mp id) := by
  cases e with
  | find m count =>
      show s.refs mp id + _ + _ = s.refs mp id + heldOpen s.descs mp id +
          ((Ref.mount m :: held).count (.node mp id) : Int)
      rw [count_node_cons, if_neg fun e => by cases e]
      rfl
  | acquire m i =>
      have hd : (s.acquireNode m i g.node).descs = s.descs := by
        unfold Sys.acquireNode
        split_ifs <;> rfl
      show (s.acquireNode m i g.node).refs mp id + _ + _ =
        _ + (heldOpen (s.acquireNode m i g.node).descs mp id : Int) + ((Ref.node m i :: held).count (.node mp id) : Int)
      rw [acquire_refs, hd, count_node_cons]
      have hx : (mp = m ∧ id = i) ↔ Ref.node m i = .node mp id := by
        constructor
        · intro ⟨h1, h2⟩
          rw [h1, h2]
        · intro h
          cases h
          exact ⟨rfl, rfl⟩
      simp only [hx]
      split_ifs <;> omega
  | release r =>
      have hmem := hfit.release r rfl
      have hcount := count_erase_node hmem mp id
      cases r with
      | mount m =>
          show s.refs mp id + (heldOpen s.descs mp id : Int) + _ =
            s.refs mp id + (heldOpen s.descs mp id : Int) + ((held.erase (.mount m)).count (.node mp id) : Int)
          rw [if_neg fun e => by cases e] at hcount
          omega
      | node m i =>
          have hd : (s.releaseNode m i).descs = s.descs := by
            unfold Sys.releaseNode
            split_ifs <;> rfl
          show (s.releaseNode m i).refs mp id + _ + _ =
            _ + (heldOpen (s.releaseNode m i).descs mp id : Int) + ((held.erase (.node m i)).count (.node mp id) : Int)
          rw [release_refs (hfit.cached m i hmem), hd]
          have hx : (mp = m ∧ id = i) ↔ Ref.node m i = .node mp id := by
            constructor
            · intro ⟨h1, h2⟩
              rw [h1, h2]
            · intro h
              cases h
              exact ⟨rfl, rfl⟩
          simp only [hx]
          split_ifs at hcount ⊢ <;> omega
  | make m node =>
      obtain ⟨hzero, hone⟩ := hfit.make m node rfl
      show (s.perform g (.make m node)).refs mp id + (heldOpen s.descs mp id : Int) + _ =
        _ + (heldOpen s.descs mp id : Int) + ((Ref.node m (s.nextID m) :: held).count (.node mp id) : Int)
      rw [make_refs, count_node_cons]
      by_cases hx : mp = m ∧ id = s.nextID m
      · obtain ⟨rfl, rfl⟩ := hx
        rw [if_pos ⟨rfl, rfl⟩, if_pos rfl, hzero, hone]
        omega
      · rw [if_neg hx, if_neg fun e => by
          cases e
          exact hx ⟨rfl, rfl⟩]
        omega
  | openDesc clear desc =>
      have hcount := count_erase_node (hfit.desc clear desc rfl) mp id
      have hmount : ((held.erase (.node desc.mp desc.id)).erase (.mount desc.mp)).count (Ref.node mp id) =
          (held.erase (.node desc.mp desc.id)).count (.node mp id) :=
        List.count_erase_of_ne fun e => by cases e
      have hrefs : (s.perform g (.openDesc clear desc)).refs mp id = s.refs mp id := by
        cases clear with
        | false => rfl
        | true =>
            show (s.setNode desc.mp desc.id _).refs mp id = s.refs mp id
            exact setNode_refs_same rfl
      have hd : (s.perform g (.openDesc clear desc)).descs = desc :: s.descs := by
        cases clear <;> rfl
      have hopen : heldOpen (desc :: s.descs) mp id =
          heldOpen s.descs mp id + if Ref.node desc.mp desc.id = .node mp id then 1 else 0 := by
        unfold heldOpen
        rw [List.countP_cons]
        simp
      rw [hrefs, hd, hopen]
      show _ = _ + _ + ((((held.erase (.node desc.mp desc.id)).erase (.mount desc.mp)).count (.node mp id) : Nat) : Int)
      rw [hmount]
      split_ifs at hcount ⊢ <;> omega
  | none => rfl
  | link m i n => exact congrArg (· + _ + _) (setNode_refs_same rfl)
  | addEntry m i name dir =>
      show (s.setNode m i _).refs mp id + _ + _ = _
      exact congrArg (· + _ + _) (setNode_refs_same rfl)
  | removeEntry m i dir => exact congrArg (· + _ + _) (setNode_refs_same rfl)
  | keepLock m i => rfl
  | stat stats => rfl
  | changeOwner m i uid gid => exact congrArg (· + _ + _) (setNode_refs_same rfl)
  | changePermissions m i permissions => exact congrArg (· + _ + _) (setNode_refs_same rfl)

end Refs

/-! ## 3. Links through a step -/

section Links

variable {s : Sys} {t : Nat} {g : Garbage} {mp id p : Nat} {e : Effect}

theorem setNode_entries {n : Node} (hp : p < s.nextID mp) (mp' id : Nat) :
    (s.setNode mp p n).entriesOf mp' id + (if mp' = mp then entriesIn (s.node mp p).cachedDir id else 0) =
      s.entriesOf mp' id + if mp' = mp then entriesIn n.cachedDir id else 0 := by
  unfold Sys.entriesOf
  by_cases hm : mp' = mp
  · subst hm
    simp only [if_true]
    have hnode : ∀ dir, dir ≠ p → (s.setNode mp' p n).node mp' dir = s.node mp' dir := fun dir hd =>
      update₂_of_ne _ _ fun hx => hd hx.2
    have hself : (s.setNode mp' p n).node mp' p = n := update₂_self _ _ _ _
    have hsum := sum_range_update (fun dir => entriesIn (s.node mp' dir).cachedDir id)
      (fun dir => entriesIn ((s.setNode mp' p n).node mp' dir).cachedDir id) hp
      fun dir _ hd => by rw [hnode dir hd]
    rw [hself] at hsum
    exact hsum
  · simp only [hm, if_false]
    refine congrArg (· + 0) (Finset.sum_congr rfl fun dir _ => ?_)
    show entriesIn (update₂ s.node mp p n mp' dir).cachedDir id = _
    rw [update₂_of_ne _ _ fun hx => hm hx.1]

/-- The same directories, the same entries. -/
theorem entries_same {s s' : Sys} {mp id : Nat} (hn : s'.nextID = s.nextID)
    (hd : ∀ mp dir, (s'.node mp dir).cachedDir = (s.node mp dir).cachedDir) :
    s'.entriesOf mp id = s.entriesOf mp id := by
  unfold Sys.entriesOf
  rw [hn]
  exact Finset.sum_congr rfl fun dir _ => by rw [hd]

theorem setNode_links (s : Sys) (mp id mp' id' : Nat) (n : Node) :
    (s.setNode mp id n).linksOf mp' id' =
      if mp' = mp ∧ id' = id then if s.alive mp' id' then n.linkCount else 0 else s.linksOf mp' id' := by
  unfold Sys.linksOf
  show (if s.alive mp' id' = true then (update₂ s.node mp id n mp' id').linkCount else 0) = _
  by_cases hx : mp' = mp ∧ id' = id
  · obtain ⟨rfl, rfl⟩ := hx
    rw [update₂_self, if_pos (⟨rfl, rfl⟩ : mp' = mp' ∧ id' = id')]
  · rw [update₂_of_ne _ _ hx, if_neg hx]

theorem setNode_links_same {mp' id' : Nat} {n : Node} (h : n.linkCount = (s.node mp id).linkCount) :
    (s.setNode mp id n).linksOf mp' id' = s.linksOf mp' id' := by
  rw [setNode_links]
  split_ifs with hx ha
  · obtain ⟨rfl, rfl⟩ := hx
    rw [h, Sys.linksOf, if_pos ha]
  · obtain ⟨rfl, rfl⟩ := hx
    rw [Sys.linksOf, if_neg ha]
  · rfl

theorem acquire_links (ha : s.alive mp id = true) (n : Node) (mp' id' : Nat) :
    (s.acquireNode mp id n).linksOf mp' id' = s.linksOf mp' id' := by
  unfold Sys.linksOf
  rw [acquire_alive, (acquire_like ha n mp' id').linkCount]

theorem release_links (s : Sys) (mp id mp' id' : Nat) : (s.releaseNode mp id).linksOf mp' id' = s.linksOf mp' id' := by
  unfold Sys.linksOf
  rw [(release_like s mp id mp' id').linkCount]
  by_cases hz : (s.node mp id).refCount - 1 = 0 ∧ (s.node mp id).linkCount = 0
  · have ha : (s.releaseNode mp id).alive = update₂ s.alive mp id false := by
      rw [Sys.releaseNode, if_pos hz]
    rw [ha]
    by_cases hx : mp' = mp ∧ id' = id
    · obtain ⟨rfl, rfl⟩ := hx
      rw [update₂_self, hz.2]
      simp
    · rw [update₂_of_ne _ _ hx]
  · rw [Sys.releaseNode, if_neg hz]
    rfl

/-- An effect that is plain changes neither links nor entries. -/
theorem plain_links (he : e.plain = true) (hacq : ∀ m i, e = .acquire m i → s.alive m i = true) (mp id : Nat) :
    (s.perform g e).linksOf mp id = s.linksOf mp id ∧ (s.perform g e).entriesOf mp id = s.entriesOf mp id := by
  cases e with
  | acquire m i =>
      have ha := hacq m i rfl
      have hn : (s.acquireNode m i g.node).nextID = s.nextID := by
        unfold Sys.acquireNode
        split_ifs <;> rfl
      exact ⟨acquire_links ha g.node mp id, entries_same hn (fun mp dir => (acquire_like ha g.node mp dir).dir)⟩
  | release r =>
      cases r with
      | node m i =>
          have hn : (s.releaseNode m i).nextID = s.nextID := by
            unfold Sys.releaseNode
            split_ifs <;> rfl
          exact ⟨release_links s m i mp id, entries_same hn (fun mp dir => (release_like s m i mp dir).dir)⟩
      | mount m => exact ⟨rfl, rfl⟩
  | openDesc clear desc =>
      cases clear with
      | false => exact ⟨rfl, rfl⟩
      | true =>
          have hl : (s.setNode desc.mp desc.id { s.node desc.mp desc.id with
              file := { (s.node desc.mp desc.id).file with fileSize := 0 } }).linksOf mp id = s.linksOf mp id :=
            setNode_links_same rfl
          exact ⟨hl, entries_same rfl fun mp dir => setNode_dir_same rfl⟩
  | changeOwner m i uid gid =>
      exact ⟨setNode_links_same rfl, entries_same rfl fun mp dir => setNode_dir_same rfl⟩
  | changePermissions m i permissions =>
      exact ⟨setNode_links_same rfl, entries_same rfl fun mp dir => setNode_dir_same rfl⟩
  | none => exact ⟨rfl, rfl⟩
  | find m count => exact ⟨rfl, rfl⟩
  | keepLock m i => exact ⟨rfl, rfl⟩
  | stat stats => exact ⟨rfl, rfl⟩
  | link m i n => cases he
  | make m node => cases he
  | addEntry m i name dir => cases he
  | removeEntry m i dir => cases he

theorem make_links {node : Node} (ha : s.alive mp (s.nextID mp) = false) (mp' id' : Nat) :
    (s.perform g (.make mp node)).linksOf mp' id' =
      s.linksOf mp' id' + if mp' = mp ∧ id' = s.nextID mp then node.linkCount else 0 := by
  show (if update₂ s.alive mp (s.nextID mp) true mp' id' = true then
    (update₂ s.node mp (s.nextID mp) node mp' id').linkCount else 0) = _
  by_cases hx : mp' = mp ∧ id' = s.nextID mp
  · obtain ⟨rfl, rfl⟩ := hx
    rw [update₂_self, update₂_self, if_pos rfl, if_pos ⟨rfl, rfl⟩, Sys.linksOf, ha, if_neg (by decide), zero_add]
  · rw [update₂_of_ne _ _ hx, update₂_of_ne _ _ hx, if_neg hx, add_zero]
    rfl

theorem make_entries {node : Node} (hdir : node.cachedDir = []) (mp' id' : Nat) :
    (s.perform g (.make mp node)).entriesOf mp' id' = s.entriesOf mp' id' := by
  have hnode : ∀ dir, ¬ (mp' = mp ∧ dir = s.nextID mp) →
      (s.perform g (.make mp node)).node mp' dir = s.node mp' dir := fun dir hx => update₂_of_ne _ _ hx
  unfold Sys.entriesOf
  have hnext : (s.perform g (.make mp node)).nextID = Function.update s.nextID mp (s.nextID mp + 1) := rfl
  rw [hnext]
  by_cases hm : mp' = mp
  · subst hm
    rw [Function.update_self, Finset.sum_range_succ]
    have hnew : (s.perform g (.make mp' node)).node mp' (s.nextID mp') = node := update₂_self _ _ _ _
    have hempty : entriesIn [] id' = 0 := rfl
    rw [hnew, hdir, hempty, add_zero]
    refine Finset.sum_congr rfl fun dir hd => ?_
    rw [hnode dir fun hx => (Finset.mem_range.mp hd).ne hx.2]
  · rw [Function.update_of_ne hm]
    refine Finset.sum_congr rfl fun dir _ => ?_
    rw [hnode dir fun hx => hm hx.1]

theorem entriesIn_insert {dir garbage : List DirectoryEntry} {name : List Char} (h : name.length ≤ 49) (i id : Nat) :
    entriesIn (Sys.insertEntry dir name i garbage) id = entriesIn dir id + if i = id then 1 else 0 := by
  rw [Sys.insertEntry, if_pos h, entriesIn, List.countP_append, List.countP_cons]
  simp [entriesIn]

/-- What a step needs: the thread holds nodes, its name fits, and it removes an entry of the node it has
    found. -/
structure Orderly (s : Sys) (pc : Pc) : Prop where
  held : ∀ mp id, Ref.node mp id ∈ pc.owed → s.alive mp id = true
  fits : ∀ op mp p id name, pc = .insert op mp p id name → name.length ≤ 49
  own : ∀ path mp id p, pc = .remove path mp id p →
    ∀ e ∈ (s.node mp p).cachedDir, getFileName path = e.name → e.nodeID = id

/-- **Links and entries through a step**: what is counted, what is there and what is on its way agree. -/
theorem linkStep_links {pc : Pc} {q : Effect × Pc} (h : LinkStep s t g pc q) (hF : Fresh s) (ho : Orderly s pc)
    (hacq : ∀ m i, q.1 = .acquire m i → s.alive m i = true) (mp id : Nat) :
    (s.perform g q.1).linksOf mp id + s.entriesOf mp id + pc.pending mp id =
      s.linksOf mp id + (s.perform g q.1).entriesOf mp id + q.2.pending mp id := by
  cases h with
  | plain pc q he hp =>
      obtain ⟨hl, hent⟩ := plain_links (g := g) he hacq mp id
      rw [hl, hent, hp]
  | link m i p path rest =>
      have ha : s.alive m i = true := ho.held m i (by simp [Pc.owed, Op.kept])
      have hent : (s.setNode m i { s.node m i with linkCount := (s.node m i).linkCount + 1 }).entriesOf mp id =
          s.entriesOf mp id := entries_same rfl fun mp dir => setNode_dir_same rfl
      show (s.setNode m i _).linksOf mp id + _ + ((0 : Nat) : Int) =
        _ + ((s.setNode m i _).entriesOf mp id : Int) + ((if m = mp ∧ i = id then 1 else 0 : Nat) : Int)
      rw [setNode_links, hent]
      by_cases hx : mp = m ∧ id = i
      · obtain ⟨rfl, rfl⟩ := hx
        simp only [and_self, if_true, ha, Sys.linksOf]
        omega
      · have hx' : ¬ (m = mp ∧ i = id) := fun hy => hx ⟨hy.1.symm, hy.2.symm⟩
        rw [if_neg hx, if_neg hx']
  | make op m p name node hn =>
      have ha : s.alive m (s.nextID m) = false := by
        refine eq_false_of_ne_true fun ha => ?_
        exact (hF m _ ha).ne rfl
      obtain ⟨hone, hdir⟩ := newNode_fields hn
      show (s.perform g (.make m node)).linksOf mp id + _ + ((0 : Nat) : Int) =
        _ + ((s.perform g (.make m node)).entriesOf mp id : Int) +
          ((if m = mp ∧ s.nextID m = id then 1 else 0 : Nat) : Int)
      rw [make_links ha, make_entries hdir, hone]
      by_cases hx : mp = m ∧ id = s.nextID m
      · obtain ⟨rfl, rfl⟩ := hx
        rw [if_pos ⟨rfl, rfl⟩, if_pos ⟨rfl, rfl⟩]
        omega
      · have hx' : ¬ (m = mp ∧ s.nextID m = id) := fun hy => hx ⟨hy.1.symm, hy.2.symm⟩
        rw [if_neg hx, if_neg hx']
        omega
  | insert op m p i name =>
      have hp : p < s.nextID m := hF m p (ho.held m p (by cases op <;> simp [Pc.owed]))
      have hfit := ho.fits op m p i name rfl
      have hl : (s.perform g (.addEntry m p name (Sys.insertEntry (s.node m p).cachedDir name i g.dir))).linksOf mp id =
          s.linksOf mp id := by
        show (s.setNode m p _).linksOf mp id = s.linksOf mp id
        exact setNode_links_same rfl
      have hent := setNode_entries (n := { s.node m p with
        cachedDir := Sys.insertEntry (s.node m p).cachedDir name i g.dir }) hp mp id
      have hpend : (Sys.afterInsert m p i op).pending mp id = 0 := by cases op <;> rfl
      rw [entriesIn_insert hfit] at hent
      rw [hl, hpend]
      show _ + _ + ((if m = mp ∧ i = id then 1 else 0 : Nat) : Int) = _ + ((s.setNode m p _).entriesOf mp id : Int) + _
      by_cases hm : mp = m
      · subst hm
        simp only [if_true, true_and] at hent ⊢
        split_ifs at hent ⊢ <;> omega
      · have hm' : ¬ (m = mp ∧ i = id) := fun hy => hm hy.1.symm
        rw [if_neg hm, if_neg hm] at hent
        rw [if_neg hm']
        omega
  | remove path m i p j e he hn =>
      have hp : p < s.nextID m := hF m p (ho.held m p (by simp [Pc.owed]))
      have hid : e.nodeID = i := ho.own path m i p rfl e (List.mem_of_getElem? he) hn
      have hl : (s.perform g (.removeEntry m p ((s.node m p).cachedDir.eraseIdx j))).linksOf mp id =
          s.linksOf mp id := setNode_links_same rfl
      have hent := setNode_entries (n := { s.node m p with cachedDir := (s.node m p).cachedDir.eraseIdx j }) hp mp id
      have herase := countP_eraseIdx (fun e => decide (e.nodeID = id)) (s.node m p).cachedDir he
      rw [hid] at herase
      rw [hl]
      show _ + _ + ((0 : Nat) : Int) =
        _ + ((s.setNode m p _).entriesOf mp id : Int) + ((if m = mp ∧ i = id then 1 else 0 : Nat) : Int)
      by_cases hm : mp = m
      · subst hm
        simp only [if_true, true_and, entriesIn, decide_eq_true_eq] at hent herase ⊢
        split_ifs at herase ⊢ <;> omega
      · have hm' : ¬ (m = mp ∧ i = id) := fun hy => hm hy.1.symm
        rw [if_neg hm, if_neg hm] at hent
        rw [if_neg hm']
        omega
  | unlink m i p =>
      have ha : s.alive m i = true := ho.held m i (by simp [Pc.owed])
      have hent : (s.setNode m i { s.node m i with linkCount := (s.node m i).linkCount + -1 }).entriesOf mp id =
          s.entriesOf mp id := entries_same rfl fun mp dir => setNode_dir_same rfl
      show (s.setNode m i _).linksOf mp id + _ + ((if m = mp ∧ i = id then 1 else 0 : Nat) : Int) =
        _ + ((s.setNode m i _).entriesOf mp id : Int) + ((0 : Nat) : Int)
      rw [setNode_links, hent]
      by_cases hx : mp = m ∧ id = i
      · obtain ⟨rfl, rfl⟩ := hx
        simp only [and_self, if_true, ha, Sys.linksOf]
        omega
      · have hx' : ¬ (m = mp ∧ i = id) := fun hy => hx ⟨hy.1.symm, hy.2.symm⟩
        rw [if_neg hx, if_neg hx']

end Links

/-! ## 4. Exact counts -/

/-- **The counts are exact.** Everybody who has read an id from a directory or holds a node has a node. -/
structure Counted (s : Sys) : Prop where
  fresh : Fresh s
  cached : ∀ mp id, s.cached mp id = true → s.alive mp id = true
  refs : ∀ mp id, ∃ n, Tally (fun t => (s.thread t).held.count (.node mp id)) n ∧
    s.refs mp id = n + heldOpen s.descs mp id
  links : ∀ mp id, ∃ n, Tally (fun t => (s.thread t).pc.pending mp id) n ∧
    s.linksOf mp id = s.entriesOf mp id + n + (if id = s.rootNode mp then 1 else 0 : Nat)
  found : ∀ t op path mp cur id rest, (s.thread t).pc = .entry op path mp cur id rest → s.alive mp id = true
  balanced : ∀ t, ∃ lost, Balanced (s.thread t) lost

/-- `ReleaseNode` destroys the node. -/
def Sys.Last (s : Sys) (mp id : Nat) : Prop :=
  (s.node mp id).refCount - 1 = 0 ∧ (s.node mp id).linkCount = 0

/-- No node is destroyed whose id another thread has read from a directory, with the node still to be acquired. -/
def spares (s : Sys) : Event → Prop
  | .run t g => ∀ mp id, (s.plan t g).1 = .release (.node mp id) → s.Last mp id →
      ∀ u op path cur rest, (s.thread u).pc ≠ .entry op path mp cur id rest
  | _ => True

/-- **The condition on a step**: a new name fits, the removal takes an entry of the node that `Delete` has
    found, and the step spares what other threads have read. -/
def careful (s : Sys) : Event → Prop
  | .run t g =>
      (∀ op mp p id name, (s.thread t).pc = .insert op mp p id name → name.length ≤ 49) ∧
      (∀ path mp id p, (s.thread t).pc = .remove path mp id p →
        ∀ e ∈ (s.node mp p).cachedDir, getFileName path = e.name → e.nodeID = id) ∧
      spares s (.run t g)
  | _ => True

section Counted

variable {s : Sys} {t : Nat} {g : Garbage} {mp id : Nat}

theorem Sys.alive_of_links (h : 0 < s.linksOf mp id) : s.alive mp id = true := by
  by_contra ha
  rw [Sys.linksOf, if_neg ha] at h
  exact absurd h (lt_irrefl _)

theorem Counted.cached_of_refs (h : 0 < s.refs mp id) : s.cached mp id = true := by
  by_contra hc
  rw [Sys.refs, if_neg hc] at h
  exact absurd h (lt_irrefl _)

theorem Counted.held_cached (h : Counted s) (hm : Ref.node mp id ∈ (s.thread t).held) : s.cached mp id = true := by
  obtain ⟨n, hn, hrefs⟩ := h.refs mp id
  have hle := hn.le t
  have hpos : 0 < (s.thread t).held.count (.node mp id) := List.count_pos_iff.mpr hm
  exact cached_of_refs (by omega)

/-- **What a thread holds is a node.** -/
theorem Counted.held_alive (h : Counted s) (hm : Ref.node mp id ∈ (s.thread t).held) : s.alive mp id = true :=
  h.cached mp id (h.held_cached hm)

theorem Counted.owed_held (h : Counted s) {r : Ref} (hm : r ∈ (s.thread t).pc.owed) : r ∈ (s.thread t).held := by
  obtain ⟨lost, hb⟩ := h.balanced t
  exact hb.mem_iff.mpr (List.mem_append_left lost hm)

theorem Counted.owed_alive (h : Counted s) (hm : Ref.node mp id ∈ (s.thread t).pc.owed) : s.alive mp id = true :=
  h.held_alive (h.owed_held hm)

/-- The node of a descriptor is a node. -/
theorem Counted.desc_alive (h : Counted s) {d : FileDescriptor} (hd : d ∈ s.descs) : s.alive d.mp d.id = true := by
  obtain ⟨n, hn, hrefs⟩ := h.refs d.mp d.id
  have hpos : 0 < heldOpen s.descs d.mp d.id := List.countP_pos_iff.mpr ⟨d, hd, by simp⟩
  exact h.cached d.mp d.id (cached_of_refs (by omega))

theorem Counted.entries_pos {dir : Nat} (hdir : dir < s.nextID mp) {e : DirectoryEntry}
    (he : e ∈ (s.node mp dir).cachedDir) : 0 < s.entriesOf mp e.nodeID := by
  have hpos : 0 < entriesIn (s.node mp dir).cachedDir e.nodeID := List.countP_pos_iff.mpr ⟨e, he, by simp⟩
  exact Nat.lt_of_lt_of_le hpos (Finset.single_le_sum (f := fun d => entriesIn (s.node mp d).cachedDir e.nodeID)
    (fun _ _ => Nat.zero_le _) (Finset.mem_range.mpr hdir))

/-- **What an entry denotes has links.** -/
theorem Counted.entry_links (h : Counted s) {dir : Nat} (hdir : s.alive mp dir = true) {e : DirectoryEntry}
    (he : e ∈ (s.node mp dir).cachedDir) : 0 < s.linksOf mp e.nodeID := by
  obtain ⟨n, -, hlinks⟩ := h.links mp e.nodeID
  have hpos := Counted.entries_pos (h.fresh mp dir hdir) he
  omega

theorem Counted.root_links (h : Counted s) (mp : Nat) : 0 < s.linksOf mp (s.rootNode mp) := by
  obtain ⟨n, -, hlinks⟩ := h.links mp (s.rootNode mp)
  rw [if_pos rfl] at hlinks
  omega

/-- **The entries of nodes denote nodes.** -/
theorem Counted.entry_alive (h : Counted s) {dir : Nat} (hdir : s.alive mp dir = true) {e : DirectoryEntry}
    (he : e ∈ (s.node mp dir).cachedDir) : s.alive mp e.nodeID = true := Sys.alive_of_links (h.entry_links hdir he)

end Counted

/-! ## 5. The step -/

section Run

variable {s : Sys} {t : Nat} {g : Garbage} {mp id : Nat} {e : Effect}

theorem perform_cached (h : ∀ mp id, s.cached mp id = true → s.alive mp id = true)
    (hacq : ∀ m i, e = .acquire m i → s.alive m i = true) (hc : (s.perform g e).cached mp id = true) :
    (s.perform g e).alive mp id = true := by
  cases e with
  | acquire m i =>
      show (s.acquireNode m i g.node).alive mp id = true
      rw [acquire_alive]
      by_cases hx : mp = m ∧ id = i
      · obtain ⟨rfl, rfl⟩ := hx
        exact hacq mp id rfl
      · refine h mp id ?_
        have hc' : (s.acquireNode m i g.node).cached mp id = true := hc
        unfold Sys.acquireNode at hc'
        split_ifs at hc'
        · exact hc'
        · exact (update₂_of_ne _ _ hx).symm.trans hc'
        · exact (update₂_of_ne _ _ hx).symm.trans hc'
  | release r =>
      cases r with
      | mount m => exact h mp id hc
      | node m i =>
          have hc' : (s.releaseNode m i).cached mp id = true := hc
          show (s.releaseNode m i).alive mp id = true
          unfold Sys.releaseNode at hc' ⊢
          split_ifs at hc' ⊢
          · have hx : ¬ (mp = m ∧ id = i) := by
              intro hx
              obtain ⟨rfl, rfl⟩ := hx
              have hfalse : update₂ s.cached mp id false mp id = true := hc'
              rw [update₂_self] at hfalse
              cases hfalse
            exact (update₂_of_ne _ _ hx).trans (h mp id ((update₂_of_ne _ _ hx).symm.trans hc'))
          · exact h mp id hc'
  | make m node =>
      by_cases hx : mp = m ∧ id = s.nextID m
      · obtain ⟨rfl, rfl⟩ := hx
        exact update₂_self _ _ _ _
      · exact (update₂_of_ne _ _ hx).trans (h mp id ((update₂_of_ne _ _ hx).symm.trans hc))
  | openDesc clear desc => cases clear <;> exact h mp id hc
  | _ => exact h mp id hc

/-- Nodes stay nodes but for the one that is destroyed. -/
theorem perform_keeps (ha : s.alive mp id = true) :
    (s.perform g e).alive mp id = true ∨ e = .release (.node mp id) ∧ s.Last mp id := by
  cases e with
  | acquire m i =>
      left
      show (s.acquireNode m i g.node).alive mp id = true
      rw [acquire_alive]
      exact ha
  | release r =>
      cases r with
      | mount m => exact Or.inl ha
      | node m i =>
          show (s.releaseNode m i).alive mp id = true ∨ _
          unfold Sys.releaseNode
          split_ifs with hz
          · by_cases hx : mp = m ∧ id = i
            · obtain ⟨rfl, rfl⟩ := hx
              exact Or.inr ⟨rfl, hz⟩
            · exact Or.inl ((update₂_of_ne _ _ hx).trans ha)
          · exact Or.inl ha
  | make m node =>
      left
      show update₂ s.alive m (s.nextID m) true mp id = true
      by_cases hx : mp = m ∧ id = s.nextID m
      · obtain ⟨rfl, rfl⟩ := hx
        exact update₂_self _ _ _ _
      · exact (update₂_of_ne _ _ hx).trans ha
  | openDesc clear desc => cases clear <;> exact Or.inl ha
  | _ => exact Or.inl ha

theorem newNode_refCount {p : Nat} {op : Op} {node : Node} (h : s.newNode t mp p op = some node) :
    node.refCount = 1 := by
  cases op with
  | openFile mode =>
      cases h
      rfl
  | create type permissions linkPath =>
      cases h
      rfl
  | _ => cases h

/-- **Where an id is read**: in the section under the `dirLock` of a folder that the call holds. -/
theorem planAt_entry {pc : Pc} {op : Op} {path rest : List Char} {cur : Nat}
    (h : (s.planAt t g pc).2 = .entry op path mp cur id rest) :
    Ref.node mp cur ∈ pc.owed ∧ ∃ e ∈ (s.node mp cur).cachedDir, e.nodeID = id := by
  have hrests : pc.rests = true → (∀ op path, pc ≠ .find op path) →
      Ref.node mp cur ∈ pc.owed ∧ ∃ e ∈ (s.node mp cur).cachedDir, e.nodeID = id := by
    intro hr hfind
    have hr' := planAt_rests (s := s) (t := t) (g := g) hr hfind
    rw [h] at hr'
    cases hr'
  cases pc with
  | find op' path' =>
      change (s.planFind op' path').2 = _ at h
      unfold Sys.planFind at h
      split at h <;> cases h
  | root op' path' m rest' =>
      change s.planRoot op' path' m rest' = _ at h
      unfold Sys.planRoot at h
      split_ifs at h
  | walk op' path' m c rest' =>
      change s.planWalk t op' path' m c rest' = _ at h
      unfold Sys.planWalk at h
      split_ifs at h <;> cases h
  | search op' path' m c rest' =>
      change (s.locked m c (.search op' path' m c rest') (.none, s.planSearch op' path' m c rest')).2 = _ at h
      unfold Sys.locked at h
      split_ifs at h
      change s.planSearch op' path' m c rest' = _ at h
      unfold Sys.planSearch at h
      split at h
      · rename_i hf
        cases h
        obtain ⟨e, he, hid, -⟩ := findEntry_spec hf
        exact ⟨List.mem_cons_self, e, he, hid⟩
      · split_ifs at h
        cases h
  | entry op' path' m c i rest' => cases h
  | arrived op' path' m c i rest' =>
      change (s.planArrived op' path' m c i rest').2 = _ at h
      unfold Sys.planArrived at h
      split_ifs at h
  | _ => exact hrests rfl fun op path hx => by cases hx

theorem Counted.plan_acquire (h : Counted s) (he : (s.plan t g).1 = .acquire mp id) : s.alive mp id = true := by
  have heff : EffectOf s t g (s.thread t).pc (s.plan t g).1 := planAt_effect s t g _
  rw [he] at heff
  generalize hpc : (s.thread t).pc = pc at heff
  cases heff with
  | root op path mp rest => exact Sys.alive_of_links (h.root_links mp)
  | entry op path mp cur id rest => exact h.found t op path mp cur id rest hpc

theorem Counted.plan_fit (h : Counted s) : Fit s (s.thread t).held (s.plan t g).1 := by
  have heff : EffectOf s t g (s.thread t).pc (s.plan t g).1 := planAt_effect s t g _
  refine ⟨fun r he => ?_, fun clear desc he => ?_, fun mp id hm => h.held_cached hm, fun mp node he => ?_⟩
  · rw [he] at heff
    generalize hpc : (s.thread t).pc = pc at heff
    cases heff with
    | release pc r hr => exact h.owed_held (hpc ▸ hr)
  · rw [he] at heff
    generalize hpc : (s.thread t).pc = pc at heff
    cases heff with
    | openDesc mode mp id hc =>
        refine h.owed_held (t := t) ?_
        rw [hpc]
        exact List.mem_cons_self
  · rw [he] at heff
    generalize hpc : (s.thread t).pc = pc at heff
    cases heff with
    | make op mp p name node hn =>
        refine ⟨?_, newNode_refCount hn⟩
        rw [Sys.refs, if_neg fun hc => ?_]
        exact (h.fresh mp _ (h.cached mp _ hc)).ne rfl

theorem Counted.orderly (h : Counted s) (hok : careful s (.run t g)) : Orderly s (s.thread t).pc :=
  ⟨fun _ _ hm => h.owed_alive hm, hok.1, hok.2.1⟩

theorem Counted.next_refs (h : Counted s) (g : Garbage) (mp id : Nat) :
    ∃ n, Tally (fun u => ((s.next t g).thread u).held.count (.node mp id)) n ∧
      (s.next t g).refs mp id = n + heldOpen (s.next t g).descs mp id := by
  obtain ⟨n, hn, hrefs⟩ := h.refs mp id
  have hstep := perform_refs (g := g) (h.plan_fit (t := t) (g := g)) mp id
  have hself : ((s.next t g).thread t).held = (s.plan t g).1.held s (s.thread t).held := by
    rw [next_self]
    rfl
  have hle := hn.le t
  refine ⟨n + ((s.plan t g).1.held s (s.thread t).held).count (.node mp id) - (s.thread t).held.count (.node mp id),
    hn.update t (fun u hu => by rw [next_other s g hu]) ?_, ?_⟩
  · rw [hself]
    omega
  · have h1 : (s.next t g).refs mp id = (s.perform g (s.plan t g).1).refs mp id := rfl
    have h2 : (s.next t g).descs = (s.perform g (s.plan t g).1).descs := rfl
    rw [h1, h2]
    omega

theorem Counted.next_links (h : Counted s) (hok : careful s (.run t g)) (mp id : Nat) :
    ∃ n, Tally (fun u => ((s.next t g).thread u).pc.pending mp id) n ∧
      (s.next t g).linksOf mp id = (s.next t g).entriesOf mp id + n +
        (if id = (s.next t g).rootNode mp then 1 else 0 : Nat) := by
  obtain ⟨n, hn, hlinks⟩ := h.links mp id
  have hstep := linkStep_links (planAt_linkStep s t g (s.thread t).pc) h.fresh (h.orderly hok)
    (fun m i he => h.plan_acquire he) mp id
  have hself : ((s.next t g).thread t).pc = (s.plan t g).2 := by
    rw [next_self]
    rfl
  have hroot : (s.next t g).rootNode = s.rootNode := perform_rootNode s g _
  have hle := hn.le t
  refine ⟨n + (s.plan t g).2.pending mp id - (s.thread t).pc.pending mp id,
    hn.update t (fun u hu => by rw [next_other s g hu]) ?_, ?_⟩
  · rw [hself]
    omega
  · have h1 : (s.next t g).linksOf mp id = (s.perform g (s.planAt t g (s.thread t).pc).1).linksOf mp id := rfl
    have h2 : (s.next t g).entriesOf mp id = (s.perform g (s.planAt t g (s.thread t).pc).1).entriesOf mp id := rfl
    have h3 : s.plan t g = s.planAt t g (s.thread t).pc := rfl
    rw [h1, h2, hroot, h3]
    omega

theorem Counted.next_found (h : Counted s) (hok : careful s (.run t g)) (u : Nat) (op : Op) (path : List Char)
    (mp cur id : Nat) (rest : List Char) (hpc : ((s.next t g).thread u).pc = .entry op path mp cur id rest) :
    (s.next t g).alive mp id = true := by
  by_cases hu : u = t
  · -- the entry is still there, so the node has a link and is not destroyed
    subst hu
    rw [next_self] at hpc
    obtain ⟨hcur, e, he, rfl⟩ := planAt_entry hpc
    have hlinks := h.entry_links (h.owed_alive hcur) he
    have ha := Sys.alive_of_links hlinks
    rcases perform_keeps (g := g) (e := (s.plan u g).1) ha with hk | ⟨-, hlast⟩
    · exact hk
    · rw [Sys.linksOf, if_pos ha, hlast.2] at hlinks
      exact absurd hlinks (lt_irrefl _)
  · rw [next_other s g hu] at hpc
    rcases perform_keeps (g := g) (e := (s.plan t g).1) (h.found u op path mp cur id rest hpc) with hk | ⟨he, hlast⟩
    · exact hk
    · exact absurd hpc (hok.2.2 mp id he hlast u op path cur rest)

/-- **The step of a thread.** -/
theorem Counted.run (h : Counted s) (hok : careful s (.run t g)) : Counted (s.next t g) where
  fresh := h.fresh.perform
  cached := fun mp id hc => perform_cached h.cached (fun m i he => h.plan_acquire he) hc
  refs := h.next_refs g
  links := h.next_links hok
  found := h.next_found hok
  balanced := fun u => by
    obtain ⟨lost, hb⟩ := h.balanced u
    obtain ⟨lost', hb', -⟩ := balanced_step (.run s t g) u hb
    exact ⟨lost', hb'⟩

theorem Counted.step_balanced {s' : Sys} {ev : Event} (h : Counted s) (hs : sysStep s ev s') (u : Nat) :
    ∃ lost, Balanced (s'.thread u) lost := by
  obtain ⟨lost, hb⟩ := h.balanced u
  obtain ⟨lost', hb', -⟩ := balanced_step hs u hb
  exact ⟨lost', hb'⟩

/-- A step at the border of a call. -/
theorem Counted.goto {s' : Sys} {ev : Event} (h : Counted s) (hs : sysStep s ev s') {th : Thread}
    (hs' : s' = s.setThread t th) (hheld : th.held = (s.thread t).held)
    (hpend : ∀ mp id, th.pc.pending mp id = (s.thread t).pc.pending mp id) (hentry : th.pc.target = none) :
    Counted s' := by
  have hbal := h.step_balanced hs
  subst hs'
  refine ⟨h.fresh, h.cached, fun mp id => ?_, fun mp id => ?_, fun u op path mp cur id rest hpc => ?_, hbal⟩
  · obtain ⟨n, hn, hrefs⟩ := h.refs mp id
    refine ⟨n, hn.same fun u => ?_, hrefs⟩
    by_cases hu : u = t
    · subst hu
      rw [setThread_self, hheld]
    · rw [setThread_other s th hu]
  · obtain ⟨n, hn, hlinks⟩ := h.links mp id
    refine ⟨n, hn.same fun u => ?_, hlinks⟩
    by_cases hu : u = t
    · subst hu
      rw [setThread_self, hpend]
    · rw [setThread_other s th hu]
  · by_cases hu : u = t
    · subst hu
      rw [setThread_self] at hpc
      rw [hpc] at hentry
      cases hentry
    · rw [setThread_other s th hu] at hpc
      exact h.found u op path mp cur id rest hpc

theorem heldOpen_set {descs : List FileDescriptor} {i : Nat} {d d' : FileDescriptor} (hd : descs[i]? = some d)
    (hsame : d'.mp = d.mp ∧ d'.id = d.id) : heldOpen (descs.set i d') mp id = heldOpen descs mp id := by
  exact countP_set_same _ descs hd (by rw [hsame.1, hsame.2])

/-- The descriptor counts otherwise and stays on its node. -/
theorem Counted.recount {i : Nat} {d : FileDescriptor} (h : Counted s) (hd : s.descs[i]? = some d) (r : Nat) :
    Counted { s with descs := s.descs.set i { d with refCount := r } } := by
  refine ⟨h.fresh, h.cached, fun mp id => ?_, h.links, h.found, h.balanced⟩
  obtain ⟨n, hn, hrefs⟩ := h.refs mp id
  have hsame : heldOpen (s.descs.set i { d with refCount := r }) mp id = heldOpen s.descs mp id :=
    heldOpen_set hd ⟨rfl, rfl⟩
  refine ⟨n, hn, hrefs.trans ?_⟩
  show _ = _ + (heldOpen (s.descs.set i { d with refCount := r }) mp id : Int)
  rw [hsame]

/-- **The step**: where it is careful, the counts stay exact. -/
theorem counted_step {s' : Sys} {ev : Event} (h : Counted s) (hs : Guarded sysStep careful s ev s') : Counted s' := by
  obtain ⟨hs, hok⟩ := hs
  have hbal := h.step_balanced hs
  cases id hs with
  | start t op path ht hop => exact h.goto hs rfl rfl (fun mp id => by rw [ht]; rfl) rfl
  | refuse t op res ht hop hres => exact h.goto hs rfl rfl (fun mp id => by rw [ht]; rfl) rfl
  | run t g => exact h.run hok
  | leave t op res ht => exact h.goto hs rfl rfl (fun mp id => by rw [ht]; rfl) rfl
  | addRef i d hd => exact h.recount hd (d.refCount + 1)
  | closeShared t i d ht hd hr => exact h.recount hd (d.refCount - 1)
  | closeLast t i d ht hd hr =>
      refine ⟨h.fresh, h.cached, fun mp id => ?_, fun mp id => ?_, fun u op path mp cur id rest hpc => ?_, hbal⟩
      · -- the reference of the descriptor goes to the thread
        obtain ⟨n, hn, hrefs⟩ := h.refs mp id
        have herase := countP_eraseIdx (fun d => decide (d.mp = mp ∧ d.id = id)) s.descs hd
        have hcount : (Ref.node d.mp d.id :: .mount d.mp :: (s.thread t).held).count (.node mp id) =
            (s.thread t).held.count (.node mp id) + if d.mp = mp ∧ d.id = id then 1 else 0 := by
          rw [count_node_cons, count_node_cons, if_neg fun e => by cases e]
          simp
        refine ⟨n + if d.mp = mp ∧ d.id = id then 1 else 0, hn.update t (fun u hu => ?_) ?_, ?_⟩
        · rw [setThread_other _ _ hu]
        · rw [setThread_self, hcount]
          omega
        · show s.refs mp id = _ + (heldOpen (s.descs.eraseIdx i) mp id : Int)
          rw [hrefs]
          unfold heldOpen
          simp only [decide_eq_true_eq] at herase
          omega
      · obtain ⟨n, hn, hlinks⟩ := h.links mp id
        refine ⟨n, hn.same fun u => ?_, hlinks⟩
        by_cases hu : u = t
        · subst hu
          rw [setThread_self, ht]
          rfl
        · rw [setThread_other _ _ hu]
      · by_cases hu : u = t
        · subst hu
          rw [setThread_self] at hpc
          cases hpc
        · rw [setThread_other _ _ hu] at hpc
          exact h.found u op path mp cur id rest hpc
  | write i pos buffer bufferSize d hd hw htype =>
      obtain ⟨file, hfile⟩ : ∃ file, (TempFS.writeNodeData (s.node d.mp d.id).file pos buffer bufferSize).2 = file :=
        ⟨_, rfl⟩
      rw [hfile] at hbal ⊢
      have hrefs : ∀ mp id, (s.setNode d.mp d.id { s.node d.mp d.id with file := file }).refs mp id = s.refs mp id :=
        fun mp id => setNode_refs_same rfl
      have hlinks : ∀ mp id, (s.setNode d.mp d.id { s.node d.mp d.id with file := file }).linksOf mp id =
          s.linksOf mp id := fun mp id => setNode_links_same rfl
      have hent : ∀ mp id, (s.setNode d.mp d.id { s.node d.mp d.id with file := file }).entriesOf mp id =
          s.entriesOf mp id := fun mp id => entries_same rfl fun mp dir => setNode_dir_same rfl
      refine ⟨h.fresh, h.cached, fun mp id => ?_, fun mp id => ?_, h.found, hbal⟩
      · rw [hrefs]
        exact h.refs mp id
      · rw [hlinks, hent]
        exact h.links mp id
  | remount mounts => exact ⟨h.fresh, h.cached, h.refs, h.links, h.found, hbal⟩

end Run

end Lookup

end SimpleOS2
