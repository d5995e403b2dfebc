/-
  File:      SimpleOS2/Fs/Nodes.lean
  Subject:   WHAT A STEP DOES TO THE NODES.

  * `Good` -- an id that denotes a node in some directory; a walk leaves it so;
  * `Like` -- the same node but for its reference count;
  * `Effect.dirAt`, `perform_dir` -- the directory of a node after an effect;
  * `perform_alive` -- which ids denote nodes after an effect;
  * `Effect.keepsLinks`, `Good.perform` -- all effects but the one of `Delete` keep good ids good.
-/
import SimpleOS2.Fs.References

namespace SimpleOS2

open Lib

namespace Lookup

/-! ## 1. Nodes and their likes -/

/-- The id denotes a node that some directory holds. -/
def Good (s : Sys) (mp id : Nat) : Prop := s.alive mp id = true ∧ 1 ≤ (s.node mp id).linkCount

/-- The same node but for its reference count. -/
def Like (n n' : Node) : Prop := n' = { n with refCount := n'.refCount }

section Nodes

variable {s : Sys} {g : Garbage} {e : Effect} {mp id : Nat}

theorem Like.refl (n : Node) : Like n n := rfl

theorem Like.trans {n n' n'' : Node} (h : Like n n') (h' : Like n' n'') : Like n n'' := by
  rw [Like] at h h' ⊢
  rw [h', h]

theorem acquire_like (ha : s.alive mp id = true) (n : Node) (mp' id' : Nat) :
    Like (s.node mp' id') ((s.acquireNode mp id n).node mp' id') := by
  unfold Sys.acquireNode
  by_cases h : mp' = mp ∧ id' = id
  · obtain ⟨rfl, rfl⟩ := h
    split_ifs
    · simp [Sys.setNode, Like]
    · simp [Sys.setNode, Like]
  · split_ifs <;> simp [Sys.setNode, update₂_of_ne _ _ h, Like]

theorem acquire_alive (s : Sys) (mp id : Nat) (n : Node) : (s.acquireNode mp id n).alive = s.alive := by
  unfold Sys.acquireNode
  split_ifs <;> rfl

theorem release_like (s : Sys) (mp id mp' id' : Nat) :
    Like (s.node mp' id') ((s.releaseNode mp id).node mp' id') := by
  have h : (s.releaseNode mp id).node = (s.decRef mp id).node := by
    unfold Sys.releaseNode
    split_ifs <;> rfl
  rw [h]
  by_cases h : mp' = mp ∧ id' = id
  · obtain ⟨rfl, rfl⟩ := h
    simp [Sys.decRef, Sys.setNode, Like]
  · simp [Sys.decRef, Sys.setNode, update₂_of_ne _ _ h, Like]

theorem release_alive (hl : 1 ≤ (s.node mp id).linkCount) : (s.releaseNode mp id).alive = s.alive := by
  unfold Sys.releaseNode
  rw [if_neg (by omega)]
  rfl

/-! ## 2. Which ids denote nodes -/

theorem release_alive_le {mp' id' : Nat} (h : (s.releaseNode mp id).alive mp' id' = true) :
    s.alive mp' id' = true := by
  unfold Sys.releaseNode at h
  split_ifs at h
  · by_cases hx : mp' = mp ∧ id' = id
    · obtain ⟨rfl, rfl⟩ := hx
      simp [update₂_self] at h
    · simpa [update₂_of_ne _ _ hx] using h
  · exact h

/-- No effect but `CreateNode` makes an id denote a node. -/
theorem perform_alive (h : (s.perform g e).alive mp id = true) :
    s.alive mp id = true ∨ ∃ node, e = .make mp node ∧ id = s.nextID mp := by
  cases e with
  | acquire mp' id' =>
      rw [← acquire_alive s mp' id' g.node]
      exact Or.inl h
  | release r =>
      cases r with
      | node mp' id' => exact Or.inl (release_alive_le h)
      | mount mp' => exact Or.inl h
  | make mp' node =>
      by_cases hx : mp = mp' ∧ id = s.nextID mp'
      · obtain ⟨rfl, rfl⟩ := hx
        exact Or.inr ⟨node, rfl, rfl⟩
      · left
        have h' : update₂ s.alive mp' (s.nextID mp') true mp id = true := h
        rwa [update₂_of_ne _ _ hx] at h'
  | openDesc clear desc => cases clear <;> exact Or.inl h
  | _ => exact Or.inl h

/-- Ids above `nextID` denote nothing. -/
def Fresh (s : Sys) : Prop := ∀ mp id, s.alive mp id = true → id < s.nextID mp

theorem perform_nextID (s : Sys) (g : Garbage) (e : Effect) (mp : Nat) :
    s.nextID mp ≤ (s.perform g e).nextID mp ∧
      ∀ node, e = .make mp node → (s.perform g e).nextID mp = s.nextID mp + 1 := by
  cases e with
  | acquire mp' id' =>
      have h : (s.acquireNode mp' id' g.node).nextID = s.nextID := by
        unfold Sys.acquireNode
        split_ifs <;> rfl
      exact ⟨Nat.le_of_eq (congrFun h mp).symm, fun node hn => by cases hn⟩
  | release r =>
      refine ⟨?_, fun node hn => by cases hn⟩
      cases r with
      | node mp' id' =>
          have h : (s.releaseNode mp' id').nextID = s.nextID := by
            unfold Sys.releaseNode
            split_ifs <;> rfl
          exact Nat.le_of_eq (congrFun h mp).symm
      | mount mp' => exact Nat.le_refl _
  | make mp' node =>
      constructor
      · show s.nextID mp ≤ Function.update s.nextID mp' (s.nextID mp' + 1) mp
        by_cases hx : mp = mp'
        · subst hx
          rw [Function.update_self]
          exact Nat.le_succ _
        · rw [Function.update_of_ne hx]
      · intro node' hn
        cases hn
        exact Function.update_self mp _ _
  | openDesc clear desc => cases clear <;> exact ⟨Nat.le_refl _, fun node hn => by cases hn⟩
  | _ => exact ⟨Nat.le_refl _, fun node hn => by cases hn⟩

theorem Fresh.perform (h : Fresh s) : Fresh (s.perform g e) := by
  intro mp id ha
  obtain ⟨h1, h2⟩ := perform_nextID s g e mp
  rcases perform_alive ha with h3 | ⟨node, he, rfl⟩
  · exact Nat.lt_of_lt_of_le (h mp id h3) h1
  · rw [h2 node he]
    exact Nat.lt_succ_self _

theorem perform_rootNode (s : Sys) (g : Garbage) (e : Effect) : (s.perform g e).rootNode = s.rootNode := by
  cases e with
  | acquire mp id =>
      show (s.acquireNode mp id g.node).rootNode = _
      unfold Sys.acquireNode
      split_ifs <;> rfl
  | release r =>
      cases r with
      | node mp id =>
          show (s.releaseNode mp id).rootNode = _
          unfold Sys.releaseNode
          split_ifs <;> rfl
      | mount mp => rfl
  | openDesc clear desc => cases clear <;> rfl
  | _ => rfl

/-- A step of a thread changes the mount points in their counts only. -/
theorem next_tree (s : Sys) (t : Nat) (g : Garbage) (hT : VFS.Tree s.mounts) :
    VFS.Tree (s.next t g).mounts := by
  show VFS.Tree (s.perform g (s.plan t g).1).mounts
  cases (s.plan t g).1 with
  | find mp count => exact hT.setCount count
  | acquire mp id =>
      unfold Sys.perform Sys.acquireNode
      dsimp only
      split_ifs <;> exact hT
  | release r =>
      cases r with
      | node mp id =>
          unfold Sys.perform Sys.release Sys.releaseNode
          dsimp only
          split_ifs <;> exact hT
      | mount mp => exact hT.setCount _
  | openDesc clear desc => cases clear <;> exact hT
  | _ => exact hT

theorem perform_descs {d : FileDescriptor} (h : d ∈ (s.perform g e).descs) :
    d ∈ s.descs ∨ ∃ clear, e = .openDesc clear d := by
  cases e with
  | acquire mp id =>
      have hd : (s.acquireNode mp id g.node).descs = s.descs := by
        unfold Sys.acquireNode
        split_ifs <;> rfl
      exact Or.inl (hd ▸ h)
  | release r =>
      cases r with
      | node mp id =>
          have hd : (s.releaseNode mp id).descs = s.descs := by
            unfold Sys.releaseNode
            split_ifs <;> rfl
          exact Or.inl (hd ▸ h)
      | mount mp => exact Or.inl h
  | openDesc clear desc =>
      have h' : d ∈ desc :: s.descs := by
        cases clear <;> exact h
      rcases List.mem_cons.mp h' with rfl | h'
      · exact Or.inr ⟨clear, rfl⟩
      · exact Or.inl h'
  | _ => exact Or.inl h

/-! ## 3. Directories -/

/-- The directory of a node after the effect. -/
def Effect.dirAt (s : Sys) (mp id : Nat) : Effect → List DirectoryEntry
  | .addEntry mp' id' _ dir => if mp = mp' ∧ id = id' then dir else (s.node mp id).cachedDir
  | .removeEntry mp' id' dir => if mp = mp' ∧ id = id' then dir else (s.node mp id).cachedDir
  | .make mp' node => if mp = mp' ∧ id = s.nextID mp' then node.cachedDir else (s.node mp id).cachedDir
  | _ => (s.node mp id).cachedDir

theorem Like.dir {n n' : Node} (h : Like n n') : n'.cachedDir = n.cachedDir := by
  rw [h]

theorem setNode_dir (s : Sys) (mp id mp' id' : Nat) (n : Node) :
    ((s.setNode mp' id' n).node mp id).cachedDir =
      if mp = mp' ∧ id = id' then n.cachedDir else (s.node mp id).cachedDir := by
  show (update₂ s.node mp' id' n mp id).cachedDir = _
  split_ifs with hx
  · obtain ⟨rfl, rfl⟩ := hx
    rw [update₂_self]
  · rw [update₂_of_ne _ _ hx]

/-- A node that keeps its directory when it is set. -/
theorem setNode_dir_same {mp' id' : Nat} {n : Node} (h : n.cachedDir = (s.node mp' id').cachedDir) :
    ((s.setNode mp' id' n).node mp id).cachedDir = (s.node mp id).cachedDir := by
  rw [setNode_dir]
  split_ifs with hx
  · obtain ⟨rfl, rfl⟩ := hx
    exact h
  · rfl

/-- **The directories after an effect**, for ids that denote nodes then. -/
theorem perform_dir (ha : (s.perform g e).alive mp id = true) :
    ((s.perform g e).node mp id).cachedDir = e.dirAt s mp id := by
  cases e with
  | acquire mp' id' =>
      have ha' : s.alive mp id = true := by
        rw [← acquire_alive s mp' id' g.node]
        exact ha
      show ((s.acquireNode mp' id' g.node).node mp id).cachedDir = (s.node mp id).cachedDir
      unfold Sys.acquireNode
      split_ifs with h1 h2
      · exact setNode_dir_same rfl
      · exact setNode_dir_same rfl
      · -- a dead id: another node
        have hx : ¬ (mp = mp' ∧ id = id') := by
          intro hx
          obtain ⟨rfl, rfl⟩ := hx
          exact h2 ha'
        exact (setNode_dir _ _ _ _ _ _).trans (if_neg hx)
  | release r =>
      cases r with
      | node mp' id' => exact (release_like s mp' id' mp id).dir
      | mount mp' => rfl
  | openDesc clear desc =>
      cases clear with
      | false => rfl
      | true => exact setNode_dir_same rfl
  | link mp' id' n => exact setNode_dir_same rfl
  | changeOwner mp' id' uid gid => exact setNode_dir_same rfl
  | changePermissions mp' id' permissions => exact setNode_dir_same rfl
  | make mp' node => exact setNode_dir _ _ _ _ _ _
  | addEntry mp' id' name dir => exact setNode_dir _ _ _ _ _ _
  | removeEntry mp' id' dir => exact setNode_dir _ _ _ _ _ _
  | none => rfl
  | find mp' count => rfl
  | keepLock mp' id' => rfl
  | stat stats => rfl

theorem pathWalk_self (name : List Char) : pathWalk name name = some [] := by
  induction name with
  | nil => rfl
  | cons c name ih =>
      rw [pathWalk, if_neg (not_not.mpr rfl)]
      exact ih

/-- What a search finds. -/
theorem findEntry_spec {path rest : List Char} {dir : List DirectoryEntry}
    (h : findEntry path dir = some (id, rest)) :
    ∃ e ∈ dir, e.nodeID = id ∧ pathWalk path e.name = some rest := by
  induction dir with
  | nil => cases h
  | cons e dir ih =>
      unfold findEntry at h
      split at h
      · rename_i r hr
        simp only [Option.some.injEq, Prod.mk.injEq] at h
        exact ⟨e, List.mem_cons_self, h.1, h.2 ▸ hr⟩
      · obtain ⟨e', he', h'⟩ := ih h
        exact ⟨e', List.mem_cons_of_mem e he', h'⟩

/-- What a search misses. -/
theorem findEntry_none {path : List Char} {dir : List DirectoryEntry} (h : findEntry path dir = none) :
    ∀ e ∈ dir, e.name ≠ path := by
  induction dir with
  | nil => exact fun e he => by cases he
  | cons e dir ih =>
      unfold findEntry at h
      split at h
      · cases h
      · rename_i hw
        intro e' he'
        rcases List.mem_cons.mp he' with h1 | h1
        · rintro rfl
          rw [h1, pathWalk_self] at hw
          cases hw
        · exact ih h e' h1

/-! ## 4. Good ids stay good -/

def Effect.keepsLinks : Effect → Prop
  | .link _ _ n => 0 ≤ n
  | .make _ node => 1 ≤ node.linkCount
  | _ => True

theorem setNode_linkCount {mp' id' : Nat} {n : Node} (h : 1 ≤ (s.node mp id).linkCount)
    (hn : mp = mp' → id = id' → 1 ≤ n.linkCount) : 1 ≤ ((s.setNode mp' id' n).node mp id).linkCount := by
  show 1 ≤ (update₂ s.node mp' id' n mp id).linkCount
  by_cases hx : mp = mp' ∧ id = id'
  · obtain ⟨rfl, rfl⟩ := hx
    rw [update₂_self]
    exact hn rfl rfl
  · rw [update₂_of_ne _ _ hx]
    exact h

theorem Like.linkCount {n n' : Node} (h : Like n n') : n'.linkCount = n.linkCount := by
  rw [h]

theorem Good.release (h : Good s mp id) (mp' id' : Nat) : Good (s.releaseNode mp' id') mp id := by
  refine ⟨?_, (release_like s mp' id' mp id).linkCount ▸ h.2⟩
  unfold Sys.releaseNode
  split_ifs with hz
  · have hx : ¬ (mp = mp' ∧ id = id') := by
      intro hx
      obtain ⟨rfl, rfl⟩ := hx
      have := h.2
      omega
    show update₂ s.alive mp' id' false mp id = true
    rw [update₂_of_ne _ _ hx]
    exact h.1
  · exact h.1

theorem Good.acquire (h : Good s mp id) (mp' id' : Nat) (n : Node) : Good (s.acquireNode mp' id' n) mp id := by
  constructor
  · rw [acquire_alive]
    exact h.1
  · unfold Sys.acquireNode
    split_ifs with h1 h2
    · refine setNode_linkCount h.2 fun h3 h4 => ?_
      subst h3 h4
      exact h.2
    · refine setNode_linkCount h.2 fun h3 h4 => ?_
      subst h3 h4
      exact h.2
    · refine setNode_linkCount h.2 fun h3 h4 => ?_
      subst h3 h4
      exact absurd h.1 h2

/-- **Good ids stay good.** -/
theorem Good.perform (h : Good s mp id) (he : e.keepsLinks) : Good (s.perform g e) mp id := by
  have hset : ∀ {mp' id' n}, (mp = mp' → id = id' → n.linkCount = (s.node mp id).linkCount) →
      Good (s.setNode mp' id' n) mp id := by
    intro mp' id' n hn
    exact ⟨h.1, setNode_linkCount h.2 fun h1 h2 => (hn h1 h2).symm ▸ h.2⟩
  cases e with
  | acquire mp' id' => exact h.acquire mp' id' g.node
  | release r =>
      cases r with
      | node mp' id' => exact h.release mp' id'
      | mount mp' => exact h
  | link mp' id' n =>
      refine ⟨h.1, setNode_linkCount h.2 fun h1 h2 => ?_⟩
      subst h1 h2
      have h3 := h.2
      have h4 : 0 ≤ n := he
      show 1 ≤ (s.node mp id).linkCount + n
      omega
  | make mp' node =>
      constructor
      · show update₂ s.alive mp' (s.nextID mp') true mp id = true
        by_cases hx : mp = mp' ∧ id = s.nextID mp'
        · obtain ⟨rfl, rfl⟩ := hx
          exact update₂_self _ _ _ _
        · rw [update₂_of_ne _ _ hx]
          exact h.1
      · exact setNode_linkCount h.2 fun _ _ => he
  | addEntry mp' id' name dir => exact hset fun h1 h2 => by subst h1 h2; rfl
  | removeEntry mp' id' dir => exact hset fun h1 h2 => by subst h1 h2; rfl
  | changeOwner mp' id' uid gid => exact hset fun h1 h2 => by subst h1 h2; rfl
  | changePermissions mp' id' permissions => exact hset fun h1 h2 => by subst h1 h2; rfl
  | openDesc clear desc =>
      cases clear with
      | false => exact h
      | true => exact hset fun h1 h2 => by subst h1 h2; rfl
  | none => exact h
  | find mp' count => exact h
  | keepLock mp' id' => exact h
  | stat stats => exact h

theorem good_make {node : Node} (hn : 1 ≤ node.linkCount) :
    Good (s.perform g (.make mp node)) mp (s.nextID mp) := by
  constructor
  · exact update₂_self _ _ _ _
  · show 1 ≤ (update₂ s.node mp (s.nextID mp) node mp (s.nextID mp)).linkCount
    rw [update₂_self]
    exact hn

end Nodes

end Lookup

end SimpleOS2
