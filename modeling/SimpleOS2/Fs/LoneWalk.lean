/-
  File:      SimpleOS2/Fs/LoneWalk.lean
  Subject:   THE WALK OF A CALL while no other thread moves (AcquirePath of fs/VFS.cpp).

  The threads walk step by step, `SymLinks.acquirePath` is one function. Where one thread walks alone, its
  steps find what the function returns. All it leaves behind are the references it holds.

  * `Sys.refs` -- the references to a node; `Still` -- the state is the one before the call but for the
    references of a list; `perform_still` -- the effects of a walk keep it so;
  * `Answers` -- what `AcquirePath` makes of the result of `_AcquirePathRec`;
  * `Finds` -- what is left of the walk returns what the whole of it returns; `finds_next` -- the step.
-/
import SimpleOS2.Fs.LinkLoops
import SimpleOS2.Fs.MountCounts
import SimpleOS2.Fs.Traversal

namespace SimpleOS2

open Lib

namespace Lookup

/-! ## 1. References -/

/-- The references to a node. A node outside of the cache has none. -/
def Sys.refs (s : Sys) (mp id : Nat) : Int := if s.cached mp id then (s.node mp id).refCount else 0

/-- The counts of the mount points with the references of the list. The root is not counted. -/
def mountCounts (count : Nat → Int) (l : List Ref) : Nat → Int :=
  fun m => count m + if m = VFS.rootMount then 0 else (l.count (.mount m) : Int)

/-- Since `s0` only the references of the list have been taken. -/
structure Still (s0 s : Sys) (t : Nat) (l : List Ref) : Prop where
  static : Static s0 s t
  held : ∀ mp id, Ref.node mp id ∈ l → Good s0 mp id ∧ s.cached mp id = true
  alive : s.alive = s0.alive
  node : ∀ mp id, s0.alive mp id = true → Like (s0.node mp id) (s.node mp id)
  refs : ∀ mp id, s.refs mp id = s0.refs mp id + (l.count (.node mp id) : Int)
  mounts : s.mounts = s0.mounts.setCount (mountCounts s0.mounts.refCount l)
  nextID : s.nextID = s0.nextID
  descs : s.descs = s0.descs

section Still

variable {s0 s : Sys} {t mp id : Nat} {g : Garbage} {l l' : List Ref} {e : Effect}

theorem setNode_refs (s : Sys) (mp id mp' id' : Nat) (n : Node) :
    (s.setNode mp' id' n).refs mp id =
      if mp = mp' ∧ id = id' then if s.cached mp id then n.refCount else 0 else s.refs mp id := by
  unfold Sys.refs
  show (if s.cached mp id = true then (update₂ s.node mp' id' n mp id).refCount else 0) = _
  split_ifs with hc hx hx
  · obtain ⟨rfl, rfl⟩ := hx
    rw [update₂_self]
  · rw [update₂_of_ne _ _ hx]
  · rfl
  · rfl

theorem acquire_refs (s : Sys) (mp id mp' id' : Nat) (n : Node) :
    (s.acquireNode mp' id' n).refs mp id = s.refs mp id + if mp = mp' ∧ id = id' then 1 else 0 := by
  unfold Sys.acquireNode
  by_cases hx : mp = mp' ∧ id = id'
  · obtain ⟨rfl, rfl⟩ := hx
    rw [if_pos (⟨rfl, rfl⟩ : mp = mp ∧ id = id)]
    split_ifs with hc ha
    · rw [setNode_refs]
      simp [hc, Sys.refs]
    · simp [Sys.refs, Sys.setNode, hc]
    · simp [Sys.refs, Sys.setNode, hc]
  · rw [if_neg hx, add_zero]
    split_ifs with hc ha
    · rw [setNode_refs, if_neg hx]
    · simp [Sys.refs, Sys.setNode, update₂_of_ne _ _ hx]
    · simp [Sys.refs, Sys.setNode, update₂_of_ne _ _ hx]

theorem acquire_cached (s : Sys) (mp id mp' id' : Nat) (n : Node)
    (h : s.cached mp id = true ∨ (mp = mp' ∧ id = id')) : (s.acquireNode mp' id' n).cached mp id = true := by
  unfold Sys.acquireNode
  by_cases hx : mp = mp' ∧ id = id'
  · obtain ⟨rfl, rfl⟩ := hx
    split_ifs with hc
    · exact hc
    · exact update₂_self _ _ _ _
    · exact update₂_self _ _ _ _
  · have hc : s.cached mp id = true := h.resolve_right hx
    split_ifs
    · exact hc
    · exact (update₂_of_ne _ _ hx).trans hc
    · exact (update₂_of_ne _ _ hx).trans hc

/-- A node with an entry is not destroyed. -/
theorem release_linked (hl : 1 ≤ (s.node mp id).linkCount) : s.releaseNode mp id = s.decRef mp id := by
  unfold Sys.releaseNode
  exact if_neg (by omega)

theorem decRef_refs (hc : s.cached mp id = true) (mp' id' : Nat) :
    (s.decRef mp id).refs mp' id' = s.refs mp' id' - if mp' = mp ∧ id' = id then 1 else 0 := by
  unfold Sys.decRef
  rw [setNode_refs]
  split_ifs with hx h1
  · obtain ⟨rfl, rfl⟩ := hx
    rw [Sys.refs, if_pos hc]
  · obtain ⟨rfl, rfl⟩ := hx
    exact absurd hc h1
  · omega

theorem mountCounts_perm (count : Nat → Int) (h : l.Perm l') : mountCounts count l = mountCounts count l' := by
  funext m
  simp only [mountCounts, h.count_eq]

theorem mountCounts_node (count : Nat → Int) (mp id : Nat) (l : List Ref) :
    mountCounts count (.node mp id :: l) = mountCounts count l := by
  funext m
  simp [mountCounts]

theorem mountCounts_nil (count : Nat → Int) : mountCounts count [] = count := by
  funext m
  simp [mountCounts]

/-- What `FindMountPoint` does to the counts. -/
theorem mountCounts_find (count : Nat → Int) (mp : Nat) (l : List Ref) :
    VFS.movedTo (mountCounts count l) VFS.rootMount mp = mountCounts count (.mount mp :: l) := by
  funext m
  by_cases h0 : m = VFS.rootMount
  · subst h0
    by_cases hr : VFS.rootMount = mp
    · simp [mountCounts, VFS.movedTo, ← hr]
    · simp [mountCounts, VFS.movedTo, hr]
  · rw [VFS.movedTo_root h0]
    by_cases hm : m = mp
    · subst hm
      simp [mountCounts, h0]
      omega
    · have hne : ¬ mp = m := fun e => hm e.symm
      simp [mountCounts, h0, hm, hne]

theorem mountCounts_release (count : Nat → Int) (mp : Nat) (l : List Ref) :
    VFS.releaseMountPoint (mountCounts count (.mount mp :: l)) mp = mountCounts count l := by
  funext m
  by_cases h0 : mp = VFS.rootMount
  · subst h0
    rw [VFS.releaseMountPoint, if_neg (not_not.mpr rfl)]
    by_cases hm : m = VFS.rootMount
    · simp [mountCounts, hm]
    · have hne : ¬ VFS.rootMount = m := fun e => hm e.symm
      simp [mountCounts, hm, hne]
  · rw [VFS.releaseMountPoint, if_pos h0, VFS.addCount]
    by_cases hm : m = mp
    · subst hm
      rw [Function.update_self]
      simp [mountCounts, h0]
      omega
    · have hne : ¬ mp = m := fun e => hm e.symm
      rw [Function.update_of_ne hm]
      simp [mountCounts, hne]

theorem Still.perm (h : Still s0 s t l) (hp : l.Perm l') : Still s0 s t l' where
  static := h.static
  held := fun mp id hm => h.held mp id (hp.mem_iff.mpr hm)
  alive := h.alive
  node := h.node
  refs := fun mp id => by
    rw [h.refs, hp.count_eq]
  mounts := by
    rw [h.mounts, mountCounts_perm _ hp]
  nextID := h.nextID
  descs := h.descs

theorem Still.find (h : Still s0 s t l) (g : Garbage) (mp : Nat) :
    Still s0 (s.perform g (.find mp (VFS.movedTo s.mounts.refCount VFS.rootMount mp))) t (.mount mp :: l) where
  static := perform_static h.static trivial
  held := fun mp' id hm => by
    rcases List.mem_cons.mp hm with hm | hm
    · cases hm
    · exact h.held mp' id hm
  alive := h.alive
  node := h.node
  refs := fun mp' id => by
    rw [List.count_cons_of_ne (fun hx => by cases hx)]
    exact h.refs mp' id
  mounts := by
    show s.mounts.setCount (VFS.movedTo s.mounts.refCount VFS.rootMount mp) = _
    rw [h.mounts]
    exact congrArg s0.mounts.setCount (mountCounts_find s0.mounts.refCount mp l)
  nextID := h.nextID
  descs := h.descs

theorem Still.acquire (h : Still s0 s t l) (g : Garbage) (hg : Good s0 mp id) :
    Still s0 (s.perform g (.acquire mp id)) t (.node mp id :: l) := by
  have ha : s.alive mp id = true := (h.static.good hg).1
  have hsame : (s.acquireNode mp id g.node).mounts = s.mounts ∧ (s.acquireNode mp id g.node).nextID = s.nextID ∧
      (s.acquireNode mp id g.node).descs = s.descs := by
    unfold Sys.acquireNode
    split_ifs <;> exact ⟨rfl, rfl, rfl⟩
  refine ⟨perform_static h.static hg, fun mp' id' hm => ?_, (acquire_alive s mp id g.node).trans h.alive,
    fun mp' id' ha' => (h.node mp' id' ha').trans (acquire_like ha g.node mp' id'), fun mp' id' => ?_, ?_,
    hsame.2.1.trans h.nextID, hsame.2.2.trans h.descs⟩
  · rcases List.mem_cons.mp hm with hm | hm
    · cases hm
      exact ⟨hg, acquire_cached s mp id mp id g.node (Or.inr ⟨rfl, rfl⟩)⟩
    · obtain ⟨hg', hc⟩ := h.held mp' id' hm
      exact ⟨hg', acquire_cached s mp' id' mp id g.node (Or.inl hc)⟩
  · show (s.acquireNode mp id g.node).refs mp' id' = _
    rw [acquire_refs, h.refs]
    by_cases hx : mp' = mp ∧ id' = id
    · obtain ⟨rfl, rfl⟩ := hx
      rw [if_pos ⟨rfl, rfl⟩, List.count_cons_self]
      omega
    · have hne : Ref.node mp id ≠ .node mp' id' := fun e => by
        cases e
        exact hx ⟨rfl, rfl⟩
      rw [if_neg hx, List.count_cons_of_ne hne]
      omega
  · rw [mountCounts_node]
    exact hsame.1.trans h.mounts

theorem Still.release (h : Still s0 s t (.node mp id :: l)) (g : Garbage) :
    Still s0 (s.perform g (.release (.node mp id))) t l := by
  obtain ⟨hg, hc⟩ := h.held mp id List.mem_cons_self
  have hdec : s.releaseNode mp id = s.decRef mp id := release_linked (h.static.good hg).2
  have hstatic : Static s0 (s.perform g (.release (.node mp id))) t := perform_static h.static hg
  have hlike : ∀ mp' id', Like (s.node mp' id') ((s.releaseNode mp id).node mp' id') := release_like s mp id
  have hperform : s.perform g (.release (.node mp id)) = s.decRef mp id := hdec
  rw [hdec] at hlike
  rw [hperform] at hstatic ⊢
  refine ⟨hstatic, fun mp' id' hm => h.held mp' id' (List.mem_cons_of_mem _ hm), h.alive,
    fun mp' id' ha => (h.node mp' id' ha).trans (hlike mp' id'), fun mp' id' => ?_, ?_, h.nextID, h.descs⟩
  · rw [decRef_refs hc, h.refs]
    by_cases hx : mp' = mp ∧ id' = id
    · obtain ⟨rfl, rfl⟩ := hx
      rw [if_pos ⟨rfl, rfl⟩, List.count_cons_self]
      omega
    · have hne : Ref.node mp id ≠ .node mp' id' := fun e => by
        cases e
        exact hx ⟨rfl, rfl⟩
      rw [if_neg hx, List.count_cons_of_ne hne]
      omega
  · have hm := h.mounts
    rw [mountCounts_node] at hm
    exact hm

theorem Still.releaseMount (h : Still s0 s t (.mount mp :: l)) (g : Garbage) :
    Still s0 (s.perform g (.release (.mount mp))) t l where
  static := perform_static h.static trivial
  held := fun mp' id hm => h.held mp' id (List.mem_cons_of_mem _ hm)
  alive := h.alive
  node := h.node
  refs := fun mp' id => by
    have hr := h.refs mp' id
    rw [List.count_cons_of_ne (fun hx => by cases hx)] at hr
    exact hr
  mounts := by
    show s.mounts.setCount (VFS.releaseMountPoint s.mounts.refCount mp) = _
    rw [h.mounts]
    exact congrArg s0.mounts.setCount (mountCounts_release s0.mounts.refCount mp l)
  nextID := h.nextID
  descs := h.descs

/-- **The effects of a walk** take references and give them back. -/
theorem Still.perform (h : Still s0 s t l) (he : Harmless s0 e) (hp : Pays s l l' e)
    (hf : ∀ mp count, e = .find mp count → count = VFS.movedTo s.mounts.refCount VFS.rootMount mp) :
    Still s0 (s.perform g e) t l' := by
  cases e with
  | none => exact h.perm (List.Perm.symm hp)
  | find mp count =>
      rw [hf mp count rfl]
      exact (h.find g mp).perm (List.Perm.symm hp)
  | acquire mp id => exact (h.acquire g he).perm (List.Perm.symm hp)
  | release r =>
      cases r with
      | node mp id => exact (h.perm hp).release g
      | mount mp => exact (h.perm hp).releaseMount g
  | _ => exact absurd he not_false

theorem Still.next (h : Still s0 s t l) (he : Harmless s0 (s.plan t g).1) (hp : Pays s l l' (s.plan t g).1)
    (hf : ∀ mp count, (s.plan t g).1 = .find mp count →
      count = VFS.movedTo s.mounts.refCount VFS.rootMount mp) : Still s0 (s.next t g) t l' := by
  have hs : Still s0 (s.perform g (s.plan t g).1) t l' := h.perform he hp hf
  exact ⟨static_next h.static he, hs.held, hs.alive, hs.node, hs.refs, hs.mounts, hs.nextID, hs.descs⟩

end Still

end Lookup

namespace SymLinks

open VFS Lookup

/-! ## 2. What the function returns -/

/-- What the thread asks `AcquirePath` for. -/
def request (s : Lookup.Sys) (t : Nat) (op : Op) : Request :=
  ⟨(s.thread t).uid, (s.thread t).gid, op.fileHasToExist, op.deleteMode⟩

/-- What `AcquirePath` returns for a result of `_AcquirePathRec`. -/
def Answers (s : Lookup.Sys) (rq : Request) (mp : Nat) (r : Except Int Found) : Option RecResult → Prop
  | none => False
  | some (.ok node parent rest) => r = .ok ⟨mp, node, parent, rest⟩
  | some (.error res) => r = .error res
  | some (.symlink id rest) =>
      if (s.node mp id).linkPath.length + rest.length + 2 > 255 then r = .error ErrorPathTooLong
      else Halts (fun n => acquirePath s rq n (linkedPath (s.node mp id).linkPath rest)) r

/-- A turn of the loop behind the search for the entry. -/
def recFound (s : Lookup.Sys) (rq : Request) (mp fuel cur id : Nat) (rest : List Char) : Option RecResult :=
  if rq.deleteMode ∧ rest = [] then some (.ok (some id) (some cur) rest)
  else if (s.node mp id).type = .symlink then some (.symlink id rest)
  else if rest = [] then some (.ok (some id) (some cur) rest)
  else recLoop s rq mp fuel id rest

section Results

variable {s : Lookup.Sys} {rq : Request} {path rest rest' : List Char} {mp cur id fuel : Nat}

theorem recLoop_search (hdir : (s.node mp cur).type = .directory)
    (hperm : checkPermissions rq.uid rq.gid (s.node mp cur) permExecute = true) :
    recLoop s rq mp (fuel + 1) cur rest =
      match findEntry rest (s.node mp cur).cachedDir with
      | some (id, rest) => recFound s rq mp fuel cur id rest
      | none =>
          if rq.fileHasToExist ∨ isLastPathEntry rest = false then some (.error ErrorFileNotFound)
          else some (.ok none (some cur) rest) := by
  rw [recLoop, if_neg (not_not.mpr hdir), hperm, if_neg (by decide)]
  rfl

theorem halts_const (a r : Except Int Found) : Halts (fun _ => some a) r ↔ r = a := by
  constructor
  · intro h
    exact h.unique (Halts.const a)
  · intro h
    rw [h]
    exact Halts.const a

theorem halts_none (r : Except Int Found) : ¬ Halts (fun _ => none) r := by
  intro ⟨N, hN⟩
  cases hN N le_rfl

/-- **A turn of `AcquirePath`.** -/
theorem halts_answers {count : Nat → Int} (hf : findMountPoint s.mounts path = some (mp, count))
    (r : Except Int Found) :
    Halts (fun n => acquirePath s rq n path) r ↔
      Answers s rq mp r (acquirePathRec s rq mp (advancePath path (s.mounts.mp mp).path)) := by
  obtain ⟨x, hx⟩ : ∃ x, acquirePathRec s rq mp (advancePath path (s.mounts.mp mp).path) = x := ⟨_, rfl⟩
  have hlookup : lookup s rq path = x.map fun r => (mp, r) := by
    rw [lookup, hf]
    show (do let r ← acquirePathRec s rq mp (advancePath path (s.mounts.mp mp).path); return (mp, r)) = _
    rw [hx]
    cases x <;> rfl
  rw [hx]
  cases x with
  | none =>
      have hturn : ∀ n, acquirePath s rq (n + 1) path = none := fun n => by
        rw [acquirePath, hlookup]
        rfl
      exact (Halts.succ_iff hturn r).trans (iff_of_false (halts_none r) not_false)
  | some x =>
      cases x with
      | ok node parent rest =>
          have hturn : ∀ n, acquirePath s rq (n + 1) path = some (.ok ⟨mp, node, parent, rest⟩) := fun n => by
            rw [acquirePath, hlookup]
            rfl
          exact (Halts.succ_iff hturn r).trans (halts_const _ r)
      | error res =>
          have hturn : ∀ n, acquirePath s rq (n + 1) path = some (.error res) := fun n => by
            rw [acquirePath, hlookup]
            rfl
          exact (Halts.succ_iff hturn r).trans (halts_const _ r)
      | symlink id rest =>
          have hturn : ∀ n, acquirePath s rq (n + 1) path =
              if (s.node mp id).linkPath.length + rest.length + 2 > 255 then some (.error ErrorPathTooLong)
              else acquirePath s rq n (linkedPath (s.node mp id).linkPath rest) := fun n => by
            rw [acquirePath, hlookup]
            rfl
          refine (Halts.succ_iff hturn r).trans ?_
          by_cases hlong : (s.node mp id).linkPath.length + rest.length + 2 > 255
          · simp only [Answers, hlong, if_true]
            exact halts_const _ r
          · simp only [Answers, hlong, if_false]

end Results

/-! ## 3. What the steps find -/

/-- `P` is what `AcquirePath` returns for the whole path. What is left of the walk returns the same. -/
def Finds (s0 : Lookup.Sys) (rq : Request) (op : Op) (P : Except Int Found → Prop) : Pc → Prop
  | .find op' path => op' = op ∧ ∀ r, P r ↔ Halts (fun n => acquirePath s0 rq n path) r
  | .root op' _ mp rest => op' = op ∧ ∀ r, P r ↔ Answers s0 rq mp r (acquirePathRec s0 rq mp rest)
  | .walk op' _ mp cur rest =>
      op' = op ∧ rest ≠ [] ∧ ∃ fuel, rest.length ≤ fuel ∧
        ∀ r, P r ↔ Answers s0 rq mp r (recLoop s0 rq mp fuel cur rest)
  | .search op' _ mp cur rest =>
      op' = op ∧ rest ≠ [] ∧ (s0.node mp cur).type = .directory ∧
        checkPermissions rq.uid rq.gid (s0.node mp cur) permExecute = true ∧
        ∃ fuel, rest.length ≤ fuel ∧ ∀ r, P r ↔ Answers s0 rq mp r (recLoop s0 rq mp fuel cur rest)
  | .entry op' _ mp cur id rest =>
      op' = op ∧ Good s0 mp id ∧ ∃ fuel, rest.length ≤ fuel ∧
        ∀ r, P r ↔ Answers s0 rq mp r (recFound s0 rq mp fuel cur id rest)
  | .arrived op' _ mp cur id rest =>
      op' = op ∧ ∃ fuel, rest.length ≤ fuel ∧
        ∀ r, P r ↔ Answers s0 rq mp r (recFound s0 rq mp fuel cur id rest)
  | .relink op' path _ => op' = op ∧ ∀ r, P r ↔ Halts (fun n => acquirePath s0 rq n path) r
  | .done op' _ mp node parent rest => op' = op ∧ ∀ r, P r ↔ r = .ok ⟨mp, node, parent, rest⟩
  | .cleanup op' _ (.ret res) => op' = op ∧ res ≠ OK ∧ ∀ r, P r ↔ r = .error res
  | _ => False

/-- The thread is on its way along the path. -/
def Walks : Pc → Prop
  | .find _ _ => True
  | .root _ _ _ _ => True
  | .walk _ _ _ _ _ => True
  | .search _ _ _ _ _ => True
  | .entry _ _ _ _ _ _ => True
  | .arrived _ _ _ _ _ _ => True
  | .relink _ _ _ => True
  | _ => False

section Steps

variable {s0 s : Lookup.Sys} {t mp cur id : Nat} {g : Garbage} {op : Op} {P : Except Int Found → Prop}
  {path rest : List Char}

theorem giveBack_finds {res : Int} {rq : Request} (hres : res ≠ OK) (h : ∀ r, P r ↔ r = .error res) :
    Finds s0 rq op P (Sys.giveBack op mp id res) := ⟨rfl, hres, h⟩

theorem find_same {l : List Ref} (hT : Tree s0.mounts) (h : Still s0 s t l) (path : List Char) :
    ∃ mp count, findMountPoint s.mounts path = some (mp, movedTo s.mounts.refCount rootMount mp) ∧
      findMountPoint s0.mounts path = some (mp, count) := by
  have hT' : Tree s.mounts := h.mounts ▸ hT.setCount _
  obtain ⟨mp, hmp, -⟩ := find_spec hT' path
  obtain ⟨count, hcount⟩ := findLoop_congr h.static.mounts hmp
  exact ⟨mp, count, hmp, hcount⟩

theorem planFind_finds {l : List Ref} (hT : Tree s0.mounts) (hst : Still s0 s t l)
    (h : Finds s0 (request s0 t op) op P (.find op path)) :
    Finds s0 (request s0 t op) op P (s.planFind op path).2 ∧
      ∀ mp count, (s.planFind op path).1 = .find mp count → count = movedTo s.mounts.refCount rootMount mp := by
  obtain ⟨-, hP⟩ := h
  obtain ⟨mp, count, hmp, hcount⟩ := find_same hT hst path
  unfold Sys.planFind
  rw [hmp, hst.static.mounts]
  refine ⟨⟨rfl, fun r => (hP r).trans (halts_answers hcount r)⟩, fun mp' count' he => ?_⟩
  cases he
  rfl

theorem planRoot_finds (hst : Static s0 s t) (h : Finds s0 (request s0 t op) op P (.root op path mp rest)) :
    Finds s0 (request s0 t op) op P (s.planRoot op path mp rest) := by
  obtain ⟨-, hP⟩ := h
  unfold Sys.planRoot
  rw [hst.root]
  unfold acquirePathRec at hP
  split_ifs at hP ⊢ with hr
  · exact ⟨rfl, hP⟩
  · exact ⟨rfl, hr, rest.length, le_rfl, hP⟩

theorem planWalk_finds (hst : Static s0 s t) (hg : Good s0 mp cur)
    (h : Finds s0 (request s0 t op) op P (.walk op path mp cur rest)) :
    Finds s0 (request s0 t op) op P (s.planWalk t op path mp cur rest) := by
  obtain ⟨-, hne, fuel, hfuel, hP⟩ := h
  obtain ⟨fuel, rfl⟩ : ∃ k, fuel = k + 1 := by
    have := List.length_pos_iff.mpr hne
    exact ⟨fuel - 1, by omega⟩
  unfold Sys.planWalk
  rw [hst.type hg, hst.check hg]
  split_ifs with hdir hperm
  · refine giveBack_finds (by decide) fun r => (hP r).trans ?_
    rw [recLoop, if_pos hdir]
    exact Iff.rfl
  · refine giveBack_finds (by decide) fun r => (hP r).trans ?_
    have hc : checkPermissions (request s0 t op).uid (request s0 t op).gid (s0.node mp cur) permExecute = false := hperm
    rw [recLoop, if_neg hdir, if_pos hc]
    exact Iff.rfl
  · exact ⟨rfl, hne, not_not.mp hdir, eq_true_of_ne_false hperm, fuel + 1, hfuel, hP⟩

theorem planSearch_finds (hS : Sound s0) (hst : Static s0 s t) (hg : Good s0 mp cur)
    (h : Finds s0 (request s0 t op) op P (.search op path mp cur rest)) :
    Finds s0 (request s0 t op) op P (s.planSearch op path mp cur rest) := by
  obtain ⟨-, hne, hdir, hperm, fuel, hfuel, hP⟩ := h
  obtain ⟨fuel, rfl⟩ : ∃ k, fuel = k + 1 := by
    have := List.length_pos_iff.mpr hne
    exact ⟨fuel - 1, by omega⟩
  rw [recLoop_search hdir hperm] at hP
  unfold Sys.planSearch
  rw [hst.dir hg]
  cases hfound : findEntry rest (s0.node mp cur).cachedDir with
  | some found =>
      obtain ⟨id, rest'⟩ := found
      rw [hfound] at hP
      obtain ⟨e, hmem, heid, -⟩ := findEntry_spec hfound
      have hlen := findEntry_length hfound hne
      exact ⟨rfl, heid ▸ hS.entries mp cur hg e hmem, fuel, by omega, hP⟩
  | none =>
      rw [hfound] at hP
      dsimp only at hP ⊢
      have hreq : (request s0 t op).fileHasToExist = op.fileHasToExist := rfl
      rw [hreq] at hP
      split_ifs at hP ⊢
      · exact giveBack_finds (by decide) hP
      · exact ⟨rfl, hP⟩

theorem planArrived_finds (hst : Static s0 s t) (hg : Good s0 mp id)
    (h : Finds s0 (request s0 t op) op P (.arrived op path mp cur id rest)) :
    Finds s0 (request s0 t op) op P (s.planArrived op path mp cur id rest).2 := by
  obtain ⟨-, fuel, hfuel, hP⟩ := h
  unfold Sys.planArrived
  rw [hst.type hg, hst.linkPath hg]
  unfold recFound at hP
  have hreq : (request s0 t op).deleteMode = op.deleteMode := rfl
  rw [hreq] at hP
  split_ifs at hP ⊢ with h1 h2 h3 h4
  · exact ⟨rfl, hP⟩
  · simp only [Answers, h3, if_true] at hP
    exact ⟨rfl, by decide, hP⟩
  · simp only [Answers, h3, if_false] at hP
    exact ⟨rfl, hP⟩
  · exact ⟨rfl, hP⟩
  · exact ⟨rfl, h4, fuel, hfuel, hP⟩

theorem walks_harmless {pc : Pc} {rq : Request} (hS : Sound s0) (hw : Walks pc) (hst : Still s0 s t pc.owed)
    (h : Finds s0 rq op P pc) : Harmless s0 (s.planAt t g pc).1 := by
  have heff := planAt_effect s t g pc
  obtain ⟨e, he⟩ : ∃ e, (s.planAt t g pc).1 = e := ⟨_, rfl⟩
  rw [he] at heff ⊢
  cases heff with
  | none => trivial
  | find op path mp count => trivial
  | root op path mp rest =>
      rw [hst.static.root]
      exact hS.root mp
  | entry op path mp cur id rest => exact h.2.1
  | release pc r hr =>
      cases r with
      | node mp id => exact (hst.held mp id hr).1
      | mount mp => trivial
  | _ => exact absurd hw not_false

/-- A step with an effect of a walk. -/
theorem still_step {pc : Pc} (hpc : (s.thread t).pc = pc) (hst : Still s0 s t pc.owed)
    (he : Harmless s0 (s.planAt t g pc).1) (hm : ¬ Missing s pc)
    (hf : ∀ mp count, (s.planAt t g pc).1 = .find mp count → count = movedTo s.mounts.refCount rootMount mp) :
    Still s0 (s.next t g) t (s.planAt t g pc).2.owed := by
  have hplan : s.plan t g = s.planAt t g pc := by rw [Sys.plan, hpc]
  refine hst.next ?_ ?_ ?_
  · rw [hplan]
    exact he
  · rw [hplan]
    exact planAt_pays s t g pc hm
  · rw [hplan]
    exact hf

/-- **The step of a walk** finds its part of what the function returns, and only takes and gives back
    references. -/
theorem finds_next {pc : Pc} (hS : Sound s0) (hT : Tree s0.mounts) (hpc : (s.thread t).pc = pc) (hw : Walks pc)
    (hst : Still s0 s t pc.owed) (h : Finds s0 (request s0 t op) op P pc) :
    Finds s0 (request s0 t op) op P (s.planAt t g pc).2 ∧ Still s0 (s.next t g) t (s.planAt t g pc).2.owed := by
  have he : Harmless s0 (s.planAt t g pc).1 := walks_harmless hS hw hst h
  have hnext : ∀ (hm : ¬ Missing s pc), (∀ mp count, (s.planAt t g pc).1 ≠ .find mp count) →
      Still s0 (s.next t g) t (s.planAt t g pc).2.owed := fun hm hne =>
    still_step hpc hst he hm fun mp count hf => absurd hf (hne mp count)
  cases pc with
  | find op' path =>
      obtain rfl := h.1
      obtain ⟨hfinds, hcount⟩ := planFind_finds hT hst h
      exact ⟨hfinds, still_step hpc hst he not_false hcount⟩
  | root op' path mp rest =>
      obtain rfl := h.1
      exact ⟨planRoot_finds hst.static h, hnext not_false fun mp count hf => by cases hf⟩
  | walk op' path mp cur rest =>
      obtain rfl := h.1
      have hg : Good s0 mp cur := (hst.held mp cur List.mem_cons_self).1
      exact ⟨planWalk_finds hst.static hg h, hnext not_false fun mp count hf => by cases hf⟩
  | search op' path mp cur rest =>
      obtain rfl := h.1
      have hg : Good s0 mp cur := (hst.held mp cur List.mem_cons_self).1
      have hnone : (s.planAt t g (.search op' path mp cur rest)).1 = .none := by
        show (s.locked _ _ _ _).1 = _
        unfold Sys.locked
        split_ifs <;> rfl
      refine ⟨?_, hnext not_false fun mp count hf => by
        rw [hnone] at hf
        cases hf⟩
      show Finds s0 (request s0 t op') op' P (s.locked mp cur (.search op' path mp cur rest)
        (.none, s.planSearch op' path mp cur rest)).2
      unfold Sys.locked
      split_ifs
      · exact h
      · exact planSearch_finds hS hst.static hg h
  | entry op' path mp cur id rest =>
      exact ⟨⟨h.1, h.2.2⟩, hnext not_false fun mp count hf => by cases hf⟩
  | arrived op' path mp cur id rest =>
      obtain rfl := h.1
      have hg : Good s0 mp id := (hst.held mp id List.mem_cons_self).1
      refine ⟨planArrived_finds hst.static hg h, hnext not_false fun m count hf => ?_⟩
      have hf' : (s.planArrived op' path mp cur id rest).1 = .find m count := hf
      unfold Sys.planArrived at hf'
      split_ifs at hf'
  | relink op' path todo =>
      cases todo with
      | nil => exact ⟨h, hnext not_false fun mp count hf => by cases hf⟩
      | cons r todo => exact ⟨h, hnext not_false fun mp count hf => by cases hf⟩
  | _ => exact absurd hw not_false

end Steps

end SymLinks

end SimpleOS2
