/-
  File:      SimpleOS2/Fs/MountReach.lean
  Subject:   REACHING A MOUNT WHERE IT WAS MADE (Mount, Unmount of fs/VFS.cpp).

  `Mount` follows the symbolic links of its path and records the text that the buffer holds in the end. `Unmount`
  follows none: it looks for the mount point under the path as it was prepared.

  * `acquireText` -- `AcquirePath`, with the text it leaves in the buffer; `mount`, `unmount` -- the calls;
    `mount_step` -- a `Mount` that succeeds is a step of the mount points;
  * `SameAt`, `acquirePath_same` -- states that paths are looked up alike in;
  * `longest_mounted`, `longest_beside` -- what is found after `Mount`, at the path and beside it;
    `sameMounts_unmount` -- after `Unmount` the mount points are those from before;
  * `Reachable`, `followsNoLink`, `mount_reachable` -- what should hold of a mount, and the condition under which
    it does; `mounted_over_link`.
-/
import SimpleOS2.Fs.LinkLoops
import SimpleOS2.Fs.MountCounts

namespace SimpleOS2

open Lib Relation

namespace SymLinks

open VFS Lookup

/-! ## 1. The calls -/

/-- A file system: the root node of its superblock, and its nodes. -/
structure FileSystem where
  rootNode : Nat
  node : Nat → Node
  alive : Nat → Bool
  nextID : Nat

/-- `AcquirePath`, with what the buffer holds when it returns. -/
def acquireText (s : Lookup.Sys) (rq : Request) : (fuel : Nat) → (buffer : List Char) →
    Option (List Char × Except Int Found)
  | 0, _ => none
  | fuel + 1, buffer =>
      match lookup s rq buffer with
      | none => none
      | some (mp, .ok node parent rest) => some (buffer, .ok ⟨mp, node, parent, rest⟩)
      | some (_, .error res) => some (buffer, .error res)
      | some (mp, .symlink id rest) =>
          if (s.node mp id).linkPath.length + rest.length + 2 > 255 then some (buffer, .error ErrorPathTooLong)
          else acquireText s rq fuel (linkedPath (s.node mp id).linkPath rest)

/-- The request of `Mount`. -/
def mountRequest (uid gid : Nat) : Request := ⟨uid, gid, true, false⟩

/-- The new mount point with its file system, under `mp`. -/
def addMount (s : Lookup.Sys) (mp : Nat) (count : Nat → Int) (path : List Char) (fs : FileSystem) : Lookup.Sys :=
  let new := s.mounts.next
  { s with
    mounts := (s.mounts.setCount count).insert mp path
    rootNode := Function.update s.rootNode new fs.rootNode
    node := Function.update s.node new fs.node
    cached := Function.update s.cached new fun _ => false
    alive := Function.update s.alive new fs.alive
    nextID := Function.update s.nextID new fs.nextID }

/-- `Mount`, with the lookups on a state that no one else changes. `mp` keeps the reference of the last search. -/
def mount (s : Lookup.Sys) (uid gid : Nat) (cwd : List Char) (mountPoint : Option (List Char)) (fs : FileSystem)
    (fuel : Nat) : Option (Int × Lookup.Sys) :=
  match preparePath cwd mountPoint with
  | .error e => some (e, s)
  | .ok cleanBuffer =>
      match acquireText s (mountRequest uid gid) fuel cleanBuffer with
      | none => none
      | some (_, .error e) => some (e, s)
      | some (_, .ok ⟨_, _, none, _⟩) => some (ErrorFolderAlreadyMounted, s)
      | some (_, .ok ⟨_, none, some _, _⟩) => none
      | some (path, .ok ⟨mp, some fileNode, some _, _⟩) =>
          if (s.node mp fileNode).type ≠ .directory then some (ErrorNotAFolder, s)
          else if checkPermissions uid gid (s.node mp fileNode) permWrite = false then some (ErrorPermissionDenied, s)
          else (findMountPoint s.mounts path).map fun r => (OK, addMount s mp r.2 path fs)

/-- `Unmount`. -/
def unmount (s : Lookup.Sys) (cwd : List Char) (mountPoint : Option (List Char)) : Option (Int × Lookup.Sys) :=
  match preparePath cwd mountPoint with
  | .error e => some (e, s)
  | .ok cleanBuffer =>
      (Calls.unmount ⟨s.mounts, 0, []⟩ cleanBuffer).map fun r => (r.2, { s with mounts := r.1.mounts })

/-! ## 2. What should hold -/

/-- The same mount points, whatever their counts. -/
structure SameMounts (M M' : Mounts) : Prop where
  live : ∀ x, M'.live x = M.live x
  mp : ∀ x, M.live x = true → M'.mp x = M.mp x

/-- The path leads to the same in both states, whoever asks. -/
def SameResult (s s' : Lookup.Sys) (rq : Request) (path : List Char) : Prop :=
  ∀ r, Halts (fun n => acquirePath s' rq n path) r ↔ Halts (fun n => acquirePath s rq n path) r

/-- After a `Mount` of `fs` on `p`, from `s` to `s'`: `p` leads to the root of `fs`; a path that does not come
    through the mounted directory, by itself or by the links on it, leads where it led; and an `Unmount` of `p`,
    when nothing is open on it, takes this mount away and no other, and every path leads where it led. -/
structure Reachable (s s' : Lookup.Sys) (cwd : List Char) (p : Option (List Char)) (fs : FileSystem) : Prop where
  root : ∀ rq path, preparePath cwd p = .ok path →
    Halts (fun n => acquirePath s' rq n path) (.ok ⟨s.mounts.next, some fs.rootNode, none, []⟩)
  beside : ∀ rq path,
    (∀ path', Leads s rq path path' → ¬ Under (s'.mounts.mp s.mounts.next).path path') → SameResult s s' rq path
  unmount : ∀ count : Nat → Int, count s.mounts.next = 0 →
    ∃ s'', unmount { s' with mounts := s'.mounts.setCount count } cwd p = some (OK, s'') ∧
      SameMounts s.mounts s''.mounts ∧ ∀ rq path, SameResult s s'' rq path

/-- No symbolic link is met along the path. -/
def followsNoLink (s : Lookup.Sys) (rq : Request) (cwd : List Char) (p : Option (List Char)) : Prop :=
  ∀ path, preparePath cwd p = .ok path → linkOf s rq path = none

/-! ## 3. Lookups in two states -/

section Same

variable {s s' : Lookup.Sys} {rq : Request} {mp : Nat} {path : List Char}

theorem recLoop_congr (hnode : s'.node mp = s.node mp) (fuel cur : Nat) (rest : List Char) :
    recLoop s' rq mp fuel cur rest = recLoop s rq mp fuel cur rest := by
  induction fuel generalizing cur rest with
  | zero => rfl
  | succ fuel ih =>
      rw [recLoop, recLoop, hnode]
      simp only [ih]

/-- The path is looked up on one mount point, which is the same in both states. -/
def SameAt (s s' : Lookup.Sys) (path : List Char) : Prop :=
  ∃ r count count', findMountPoint s.mounts path = some (r, count) ∧ findMountPoint s'.mounts path = some (r, count') ∧
    (s'.mounts.mp r).path = (s.mounts.mp r).path ∧ s'.rootNode r = s.rootNode r ∧ s'.node r = s.node r

theorem SameAt.lookup (h : SameAt s s' path) :
    lookup s' rq path = lookup s rq path ∧ ∀ mp r, lookup s rq path = some (mp, r) → s'.node mp = s.node mp := by
  obtain ⟨m, count, count', hfind, hfind', hpath, hroot, hnode⟩ := h
  have hrec : ∀ rest, acquirePathRec s' rq m rest = acquirePathRec s rq m rest := by
    intro rest
    rw [acquirePathRec, acquirePathRec, hroot, recLoop_congr hnode]
  constructor
  · unfold SymLinks.lookup
    rw [hfind, hfind']
    simp only [Option.bind_eq_bind, Option.bind_some, hpath, hrec]
  · intro mp r h
    obtain ⟨⟨m', count''⟩, hm', hrest⟩ := Option.bind_eq_some_iff.mp h
    obtain ⟨r', -, heq⟩ := Option.bind_eq_some_iff.mp hrest
    rw [hfind] at hm'
    cases hm'
    cases heq
    exact hnode

/-- Where all the paths that the links lead to are looked up alike, `AcquirePath` does the same. -/
theorem acquirePath_same (n : Nat) (h : ∀ path', Leads s rq path path' → SameAt s s' path') :
    acquirePath s' rq n path = acquirePath s rq n path := by
  induction n generalizing path with
  | zero => rfl
  | succ n ih =>
      obtain ⟨hlookup, hnode⟩ := @SameAt.lookup s s' rq path (h path .refl)
      rw [acquirePath, acquirePath, hlookup]
      cases hl : lookup s rq path with
      | none => rfl
      | some found =>
          obtain ⟨mp, r⟩ := found
          cases r with
          | ok node parent rest => rfl
          | error res => rfl
          | symlink id rest =>
              have hlink : linkOf s rq path = some ((s.node mp id).linkPath, rest) := by rw [linkOf, hl]
              dsimp only
              rw [hnode mp _ hl]
              by_cases hfit : (s.node mp id).linkPath.length + rest.length + 2 > 255
              · rw [if_pos hfit, if_pos hfit]
              · rw [if_neg hfit, if_neg hfit]
                refine ih fun path' hp => h path' (leads_iff.mpr (.head ?_ (leads_iff.mp hp)))
                exact ⟨_, _, hlink, by omega, rfl⟩

theorem sameResult (h : ∀ path', Leads s rq path path' → SameAt s s' path') : SameResult s s' rq path := by
  intro r
  simp only [fun n => acquirePath_same n h]

/-- It returns what `AcquirePath` returns. -/
theorem acquireText_result (s : Lookup.Sys) (rq : Request) (fuel : Nat) (buffer : List Char) :
    (acquireText s rq fuel buffer).map Prod.snd = acquirePath s rq fuel buffer := by
  induction fuel generalizing buffer with
  | zero => rfl
  | succ fuel ih =>
      rw [acquireText, acquirePath]
      cases lookup s rq buffer with
      | none => rfl
      | some found =>
          obtain ⟨mp, r⟩ := found
          cases r with
          | ok node parent rest => rfl
          | error res => rfl
          | symlink id rest =>
              dsimp only
              split_ifs
              · rfl
              · exact ih _

/-- The text in the buffer: the links lead to it, and the last turn ends there. -/
theorem acquireText_ok {fuel : Nat} {buffer text : List Char} {found : Found}
    (h : acquireText s rq fuel buffer = some (text, .ok found)) :
    lookup s rq text = some (found.mp, .ok found.node found.parent found.rest) ∧
      (linkOf s rq buffer = none → text = buffer) := by
  induction fuel generalizing buffer with
  | zero => cases h
  | succ fuel ih =>
      rw [acquireText] at h
      cases hl : lookup s rq buffer with
      | none =>
          rw [hl] at h
          cases h
      | some r =>
          obtain ⟨mp, r⟩ := r
          rw [hl] at h
          cases r with
          | ok node parent rest =>
              cases h
              exact ⟨hl, fun _ => rfl⟩
          | error res => cases h
          | symlink id rest =>
              dsimp only at h
              split_ifs at h
              · cases h
              · refine ⟨(ih h).1, fun hno => ?_⟩
                rw [linkOf, hl] at hno
                cases hno

/-- The mount point of a lookup, and what is left of the path there. -/
theorem lookup_find {r : RecResult} (h : lookup s rq path = some (mp, r)) :
    ∃ count, findMountPoint s.mounts path = some (mp, count) ∧
      acquirePathRec s rq mp (advancePath path (s.mounts.mp mp).path) = some r := by
  obtain ⟨⟨m, count⟩, hfind, hrest⟩ := Option.bind_eq_some_iff.mp h
  obtain ⟨r', hr', heq⟩ := Option.bind_eq_some_iff.mp hrest
  cases heq
  exact ⟨count, hfind, hr'⟩

/-- Where nothing is left of the path, the lookup ends at the root of the mount point. -/
theorem lookup_root {count : Nat → Int} (hfind : findMountPoint s.mounts path = some (mp, count))
    (hrest : advancePath path (s.mounts.mp mp).path = []) :
    lookup s rq path = some (mp, .ok (some (s.rootNode mp)) none []) := by
  unfold lookup
  rw [hfind]
  simp only [Option.bind_eq_bind, Option.bind_some, hrest]
  rfl

end Same

/-! ## 4. The mount points after the calls -/

section Mounted

variable {M M' : Mounts} {m r x : Nat} {count : Nat → Int} {path text : List Char}

/-- What the search finds, by what is longest. -/
theorem find_of_longest (hT : Tree M) (h : IsLongest M path r) :
    findMountPoint M path = some (r, movedTo M.refCount rootMount r) := by
  obtain ⟨r', hr', hlong, -, -⟩ := find_spec hT path
  rw [hr', hlong.unique hT h]

theorem longest_of_find (hT : Tree M) (h : findMountPoint M path = some (r, count)) : IsLongest M path r := by
  obtain ⟨r', hr', hlong, -, -⟩ := find_spec hT path
  rw [hr'] at h
  cases h
  exact hlong

/-- The mount points that were there stay, under their paths. -/
theorem live_insert (hx : ((M.setCount count).insert m text).live x = true) :
    x = M.next ∨ M.live x = true ∧ (((M.setCount count).insert m text).mp x).path = (M.mp x).path := by
  by_cases h : x = M.next
  · exact Or.inl h
  · rw [insert_live (M := M.setCount count) h] at hx
    exact Or.inr ⟨hx, insert_path (M := M.setCount count) h⟩

theorem insert_live_old (hT : Tree M) (hx : M.live x = true) :
    ((M.setCount count).insert m text).live x = true ∧
      (((M.setCount count).insert m text).mp x).path = (M.mp x).path := by
  have hne := hT.ne_next hx
  exact ⟨(insert_live (M := M.setCount count) hne).trans hx, insert_path (M := M.setCount count) hne⟩

theorem insert_next : ((M.setCount count).insert m text).live M.next = true ∧
    ((M.setCount count).insert m text).mp M.next = ⟨m, text, []⟩ :=
  ⟨Function.update_self _ _ _, insert_new (M.setCount count) m text⟩

/-- At the path of the new mount point it is the one that is found. -/
theorem longest_mounted (hT : Tree M) (hfind : findMountPoint M text = some (m, count))
    (hrest : advancePath text (M.mp m).path ≠ []) (c : Nat → Int) :
    IsLongest ((M.setCount c).insert m text) text M.next := by
  have hlong := longest_of_find hT hfind
  have hshort := longer_of_rest hT hlong.covers hrest
  obtain ⟨hlive, hmp⟩ := @insert_next M m c text
  refine ⟨hlive, Or.inr (Or.inl (by rw [hmp])), fun y hy hu => ?_⟩
  rcases live_insert hy with h | ⟨hold, hpath⟩
  · exact Or.inl h
  · rw [hpath] at hu ⊢
    rw [hmp]
    rcases hlong.longest y hold hu with rfl | hlt
    · exact Or.inr hshort
    · exact Or.inr (hlt.trans hshort)

/-- Beside it the search finds what it found. -/
theorem longest_beside (hT : Tree M) (h : IsLongest M path r) (hbeside : ¬ Under text path) (c : Nat → Int) :
    IsLongest ((M.setCount c).insert m text) path r := by
  obtain ⟨hlive, hpath⟩ := @insert_live_old M m r c text hT h.live
  refine ⟨hlive, ?_, fun y hy hu => ?_⟩
  · rw [hpath]
    exact h.covers
  · rcases live_insert hy with rfl | ⟨hold, hpath'⟩
    · rw [insert_next.2] at hu
      exact absurd hu hbeside
    · rw [hpath'] at hu ⊢
      rw [hpath]
      exact h.longest y hold hu

/-- What is found after the `Mount`, and is not the new mount point, was found before. -/
theorem longest_before (hT : Tree M) (h : IsLongest ((M.setCount count).insert m text) path r) (hne : r ≠ M.next) :
    IsLongest M path r := by
  obtain ⟨hlive, hpath⟩ := (live_insert h.live).resolve_left hne
  refine ⟨hlive, ?_, fun y hy hu => ?_⟩
  · rw [← hpath]
    exact h.covers
  · obtain ⟨hlive', hpath'⟩ := @insert_live_old M m y count text hT hy
    rw [← hpath', ← hpath]
    exact h.longest y hlive' (hpath'.symm ▸ hu)

/-- The same mount points find the same. -/
theorem SameMounts.longest (h : SameMounts M M') (hl : IsLongest M path r) : IsLongest M' path r := by
  refine ⟨(h.live r).trans hl.live, ?_, fun y hy hu => ?_⟩
  · rw [h.mp r hl.live]
    exact hl.covers
  · rw [h.live] at hy
    rw [h.mp y hy] at hu ⊢
    rw [h.mp r hl.live]
    exact hl.longest y hy hu

/-- **`Mount` and `Unmount`** leave the mount points that were there, with the counts that the searches left. -/
theorem sameMounts_unmount (hT : Tree M) (hm : M.live m = true) (c c' : Nat → Int) :
    SameMounts M ((((M.setCount c).insert m text).setCount c').erase M.next) := by
  have hnew : M.live M.next = false := by
    by_contra h
    exact hT.ne_next (eq_true_of_ne_false h) rfl
  constructor
  · intro x
    by_cases hx : x = M.next
    · rw [hx, hnew]
      exact Function.update_self _ _ _
    · exact (erase_live hx).trans (@insert_live (M.setCount c) text m x hx)
  · intro x hx
    have hne := hT.ne_next hx
    have hparent : ((((M.setCount c).insert m text).setCount c').mp M.next).parent = m :=
      congrArg MountPoint.parent insert_next.2
    have hother : ∀ y, y ≠ M.next → (((M.setCount c).insert m text).setCount c').mp y =
        if y = m then { M.mp m with childMounts := (M.mp m).childMounts ++ [M.next] } else M.mp y :=
      fun y hy => insert_other (M := M.setCount c) hy
    rw [erase_mp, hparent, hother x hne, hother m (hT.ne_next hm), if_pos rfl]
    split_ifs with h
    · -- the new mount point was put behind the others
      have hnot : M.next ∉ (M.mp m).childMounts := fun hc => hT.ne_next (hT.edge m _ hc).live rfl
      rw [h]
      show (⟨(M.mp m).parent, (M.mp m).path, ((M.mp m).childMounts ++ [M.next]).erase M.next⟩ : MountPoint) = _
      rw [List.erase_append_right _ hnot, List.erase_cons_head, List.append_nil]
    · rfl

end Mounted

/-! ## 5. Results -/

section Calls

variable {s s' : Lookup.Sys} {uid gid fuel m : Nat} {cwd path text : List Char}
    {p : Option (List Char)} {fs : FileSystem}
  {count : Nat → Int}

theorem preparePath_error {e : Int} (h : preparePath cwd p = .error e) : e ≠ OK := by
  rcases p with _ | user
  · cases h
    decide
  · by_cases hlen : user.length < 255
    · rw [preparePath_some hlen] at h
      cases hr : (if isPathRelative user then prepareRelativePath cwd user else .ok (prepareAbsolutePath user)) with
      | ok pathBuffer =>
          rw [hr] at h
          cases h
      | error e' =>
          rw [hr] at h
          cases h
          unfold prepareRelativePath at hr
          split_ifs at hr
          cases hr
          decide
    · simp only [preparePath, kpathcpyUsersafe, if_neg hlen] at h
      cases h
      decide

theorem recLoop_error {rq : Request} {mp cur : Nat} {rest : List Char} {e : Int}
    (h : recLoop s rq mp fuel cur rest = some (.error e)) : e ≠ OK := by
  induction fuel generalizing cur rest with
  | zero => cases h
  | succ fuel ih =>
      rw [recLoop] at h
      cases hfound : findEntry rest (s.node mp cur).cachedDir with
      | none =>
          rw [hfound] at h
          dsimp only at h
          split_ifs at h <;> cases h <;> decide
      | some found =>
          obtain ⟨id, rest'⟩ := found
          rw [hfound] at h
          dsimp only at h
          split_ifs at h
          · cases h
            decide
          · cases h
            decide
          · cases h
          · cases h
          · cases h
          · exact ih h

theorem acquireText_error {rq : Request} {buffer text : List Char} {e : Int}
    (h : acquireText s rq fuel buffer = some (text, .error e)) : e ≠ OK := by
  induction fuel generalizing buffer with
  | zero => cases h
  | succ fuel ih =>
      rw [acquireText] at h
      split at h
      · cases h
      · cases h
      · rename_i mp res hl
        cases h
        obtain ⟨count, -, hrec⟩ := lookup_find hl
        rw [acquirePathRec] at hrec
        split_ifs at hrec
        · cases hrec
        · exact recLoop_error hrec
      · split_ifs at h
        · cases h
          decide
        · exact ih h

/-- **A `Mount` that succeeds**: the text in the buffer, the mount point it was found on with something left behind
    it, and the state. -/
theorem mount_cases (h : mount s uid gid cwd p fs fuel = some (OK, s')) :
    ∃ buffer text m count, preparePath cwd p = .ok buffer ∧ findMountPoint s.mounts text = some (m, count) ∧
      advancePath text (s.mounts.mp m).path ≠ [] ∧ s' = addMount s m count text fs ∧
      linkOf s (mountRequest uid gid) text = none ∧
      (linkOf s (mountRequest uid gid) buffer = none → text = buffer) := by
  unfold mount at h
  split at h
  · rename_i e he
    cases h
    exact absurd rfl (preparePath_error he)
  · rename_i buffer hprep
    split at h
    · cases h
    · rename_i e he
      cases h
      exact absurd rfl (acquireText_error he)
    · cases h
    · cases h
    · rename_i text m node parent rest htext
      obtain ⟨hlookup, hlink⟩ := acquireText_ok htext
      dsimp only at hlookup
      obtain ⟨count, hfind, hrec⟩ := lookup_find hlookup
      split_ifs at h
      · cases h
      · cases h
      · rw [hfind] at h
        cases h
        refine ⟨buffer, text, m, count, hprep, hfind, fun hnil => ?_, rfl, ?_, hlink⟩
        · rw [hnil, acquirePathRec, if_pos rfl] at hrec
          cases hrec
        · rw [linkOf, hlookup]

/-- It is a step of the mount points. -/
theorem mount_step (h : mount s uid gid cwd p fs fuel = some (OK, s')) :
    ∃ text, mountStep s.mounts (.mount text) s'.mounts := by
  obtain ⟨_, text, m, count, _, hfind, hrest, rfl, _⟩ := mount_cases h
  exact ⟨text, .mount _ text m count hfind hrest⟩

/-- At the path of the new mount point every request ends at its root. -/
theorem root_mounted (hT : Tree (addMount s m count text fs).mounts)
    (hlong : IsLongest (addMount s m count text fs).mounts text s.mounts.next) (rq : Request) :
    Halts (fun n => acquirePath (addMount s m count text fs) rq n text)
      (.ok ⟨s.mounts.next, some fs.rootNode, none, []⟩) := by
  have hrest : advancePath text ((addMount s m count text fs).mounts.mp s.mounts.next).path = [] := by
    show advancePath text (((s.mounts.setCount count).insert m text).mp s.mounts.next).path = []
    rw [insert_next.2]
    have happ := advancePath_append text []
    rw [List.append_nil] at happ
    exact happ
  have hlookup := @lookup_root _ rq _ _ _ (find_of_longest hT hlong) hrest
  have hroot : (addMount s m count text fs).rootNode s.mounts.next = fs.rootNode := Function.update_self _ _ _
  refine ⟨1, fun n hn => ?_⟩
  obtain ⟨n, rfl⟩ : ∃ k, n = k + 1 := ⟨n - 1, by omega⟩
  show acquirePath (addMount s m count text fs) rq (n + 1) text = _
  rw [acquirePath, hlookup]
  dsimp only
  rw [hroot]

/-- Beside it, and after the `Unmount`, a path is looked up where it was. -/
theorem sameAt_of_longest (hT : Tree s.mounts) (hT' : Tree s'.mounts) {r : Nat} (h : IsLongest s.mounts path r)
    (h' : IsLongest s'.mounts path r) (hpath : (s'.mounts.mp r).path = (s.mounts.mp r).path)
    (hroot : s'.rootNode = Function.update s.rootNode s.mounts.next fs.rootNode)
    (hnode : s'.node = Function.update s.node s.mounts.next fs.node) : SameAt s s' path := by
  have hne := hT.ne_next h.live
  refine ⟨r, _, _, find_of_longest hT h, find_of_longest hT' h', hpath, ?_, ?_⟩
  · rw [hroot]
    exact Function.update_of_ne hne _ _
  · rw [hnode]
    exact Function.update_of_ne hne _ _

/-- What `Unmount` has found where it succeeds. -/
theorem unmount_ok {s'' : Lookup.Sys} (hprep : preparePath cwd p = .ok path)
    (h : unmount s cwd p = some (OK, s'')) :
    ∃ r count, findMountPoint s.mounts path = some (r, count) ∧ r ≠ rootMount ∧
      advancePath path (s.mounts.mp r).path = [] ∧
      s'' = { s with mounts := (s.mounts.setCount count).erase r } := by
  unfold unmount at h
  rw [hprep] at h
  dsimp only at h
  unfold Calls.unmount at h
  cases hfind : findMountPoint s.mounts path with
  | none =>
      rw [hfind] at h
      cases h
  | some found =>
      obtain ⟨r, count⟩ := found
      rw [hfind] at h
      simp only [Option.map_some, Option.some.injEq] at h
      split_ifs at h with h0 hrest hone
      · exact absurd (Prod.mk.inj h).1 (show ¬ ErrorUnmountRoot = OK by decide)
      · exact absurd (Prod.mk.inj h).1 (show ¬ ErrorNotAMountPoint = OK by decide)
      · exact ⟨r, count, rfl, h0, not_not.mp hrest, (Prod.mk.inj h).2.symm⟩
      · exact absurd (Prod.mk.inj h).1 (show ¬ ErrorMountPointBusy = OK by decide)

/-- `Unmount` of a mount point that no one holds. -/
theorem unmount_found {r : Nat} {count : Nat → Int} (hprep : preparePath cwd p = .ok path)
    (hfind : findMountPoint s.mounts path = some (r, count)) (h0 : r ≠ rootMount)
    (hrest : advancePath path (s.mounts.mp r).path = []) (hone : count r = 1) :
    unmount s cwd p = some (OK, { s with mounts := (s.mounts.setCount count).erase r }) := by
  unfold unmount
  rw [hprep]
  dsimp only
  unfold Calls.unmount
  rw [hfind]
  simp only [Option.map_some, h0, hrest, hone, if_false, if_true, ne_eq, not_true_eq_false]

end Calls

section Reachable

variable {s : Lookup.Sys} {uid gid m : Nat} {cwd buffer text : List Char} {p : Option (List Char)} {fs : FileSystem}
  {count : Nat → Int}

/-- **What holds of every mount**: beside it nothing changes. -/
theorem mounted_beside (hT : Tree s.mounts) (hfind : findMountPoint s.mounts text = some (m, count))
    (hrest : advancePath text (s.mounts.mp m).path ≠ []) {rq : Request} {path : List Char}
    (h : ∀ path', Leads s rq path path' →
      ¬ Under ((addMount s m count text fs).mounts.mp s.mounts.next).path path') :
    SameResult s (addMount s m count text fs) rq path := by
  have hT' : Tree (addMount s m count text fs).mounts := tree_mount hT hfind hrest
  refine sameResult fun path' hlead => ?_
  obtain ⟨r, -, hlong, -⟩ := find_spec hT path'
  have hout : ¬ Under text path' := by
    have hnot := h path' hlead
    have hpath : ((addMount s m count text fs).mounts.mp s.mounts.next).path = text :=
      congrArg MountPoint.path insert_next.2
    rwa [hpath] at hnot
  exact sameAt_of_longest hT hT' hlong (longest_beside hT hlong hout count) (insert_live_old hT hlong.live).2 rfl rfl

/-- Unmounted where it was mounted, with nothing open: what was there before is found. -/
theorem mounted_unmount (hT : Tree s.mounts) (hfind : findMountPoint s.mounts text = some (m, count))
    (hrest : advancePath text (s.mounts.mp m).path ≠ []) (hprep : preparePath cwd p = .ok text) (c : Nat → Int)
    (hc : c s.mounts.next = 0) :
    ∃ s'', unmount { addMount s m count text fs with
        mounts := (addMount s m count text fs).mounts.setCount c } cwd p = some (OK, s'') ∧
      SameMounts s.mounts s''.mounts ∧ ∀ rq path, SameResult s s'' rq path := by
  have hm := (longest_of_find hT hfind).live
  have hT' : Tree (((s.mounts.setCount count).insert m text).setCount c) := (tree_mount hT hfind hrest).setCount c
  have hlong : IsLongest (((s.mounts.setCount count).insert m text).setCount c) text s.mounts.next := by
    have h := longest_mounted hT hfind hrest count
    exact ⟨h.live, h.covers, h.longest⟩
  have hroot : s.mounts.next ≠ rootMount := (hT.ne_next hT.root_live).symm
  have hnil : advancePath text ((((s.mounts.setCount count).insert m text).setCount c).mp s.mounts.next).path = [] := by
    show advancePath text (((s.mounts.setCount count).insert m text).mp s.mounts.next).path = []
    rw [insert_next.2]
    have happ := advancePath_append text []
    rw [List.append_nil] at happ
    exact happ
  have hone : movedTo c rootMount s.mounts.next s.mounts.next = 1 := by
    rw [movedTo_root hroot, hc, if_pos rfl]
    rfl
  have hsame := @sameMounts_unmount _ _ text hT hm count (movedTo c rootMount s.mounts.next)
  refine ⟨_, unmount_found hprep (find_of_longest hT' hlong) hroot hnil hone, hsame, fun rq path => ?_⟩
  have hT'' := tree_erase (hT'.setCount (movedTo c rootMount s.mounts.next)) hlong.live hroot
    (congrArg MountPoint.childMounts insert_next.2)
  refine sameResult fun path' _ => ?_
  obtain ⟨r, -, hr, -⟩ := find_spec hT path'
  exact sameAt_of_longest hT hT'' hr (hsame.longest hr) (congrArg MountPoint.path (hsame.mp r hr.live)) rfl rfl

/-- Where a link was met, no mount point but an old one is at the path of the call. -/
theorem unmount_missed (hT : Tree s.mounts) {rq : Request} (hfind : findMountPoint s.mounts text = some (m, count))
    (hrest : advancePath text (s.mounts.mp m).path ≠ []) (hno : linkOf s rq text = none)
    (hprep : preparePath cwd p = .ok buffer) (hlink : linkOf s rq buffer ≠ none) (c : Nat → Int) {s'' : Lookup.Sys} :
    unmount { addMount s m count text fs with
      mounts := (addMount s m count text fs).mounts.setCount c } cwd p ≠ some (OK, s'') := by
  intro h
  obtain ⟨r, c', hr, h0, hnil, -⟩ := unmount_ok hprep h
  have hT' : Tree (((s.mounts.setCount count).insert m text).setCount c) := (tree_mount hT hfind hrest).setCount c
  have hlong := longest_of_find hT' hr
  have hlong' : IsLongest ((s.mounts.setCount count).insert m text) buffer r :=
    ⟨hlong.live, hlong.covers, hlong.longest⟩
  by_cases hnew : r = s.mounts.next
  · subst hnew
    have hpath : ((((s.mounts.setCount count).insert m text).setCount c).mp s.mounts.next).path = text :=
      congrArg MountPoint.path insert_next.2
    have hnil' : advancePath buffer text = [] := hpath ▸ hnil
    have hu : Under text buffer := hpath ▸ hlong.covers.resolve_left h0
    rcases hu with rfl | ⟨rest, rfl⟩
    · exact hlink hno
    · rw [advancePath_append] at hnil'
      have hslash : rest = [] := hnil'
      rw [hslash] at hprep
      exact preparePath_last hprep List.getLast?_concat
  · have hold := longest_before hT hlong' hnew
    have hpath := (live_insert hlong'.live).resolve_left hnew
    have hnil' : advancePath buffer (s.mounts.mp r).path = [] := hpath.2 ▸ hnil
    refine hlink ?_
    rw [linkOf, lookup_root (find_of_longest hT hold) hnil']

/-- **A mount is reachable where it was made** exactly if no symbolic link is met along the path. -/
theorem mount_reachable {s s' : Lookup.Sys} (hT : Tree s.mounts) {uid gid fuel : Nat} {cwd : List Char}
    {p : Option (List Char)} {fs : FileSystem} (h : mount s uid gid cwd p fs fuel = some (OK, s')) :
    Reachable s s' cwd p fs ↔ followsNoLink s (mountRequest uid gid) cwd p := by
  obtain ⟨buffer, text, m, count, hprep, hfind, hrest, rfl, hno, hsame⟩ := mount_cases h
  constructor
  · intro hR path hp
    by_contra hlink
    have hnext : (addMount s m count text fs).mounts.refCount s.mounts.next = 0 := Function.update_self _ _ _
    obtain ⟨s'', hok, -⟩ := hR.unmount _ hnext
    exact unmount_missed hT hfind hrest hno hp hlink _ hok
  · intro hnone
    obtain rfl := hsame (hnone buffer hprep)
    refine ⟨fun rq path hp => ?_, fun rq path => mounted_beside hT hfind hrest, fun c hc => ?_⟩
    · rw [hprep] at hp
      cases hp
      exact root_mounted (tree_mount hT hfind hrest) (longest_mounted hT hfind hrest count) rq
    · exact mounted_unmount hT hfind hrest hprep c hc

/-- A file system of one folder. -/
def oneFolder : FileSystem where
  rootNode := 0
  node := fun _ => ⟨.directory, 0, 1, [], [], ⟨0, fun _ => 0⟩, 0, 0, ⟨7, 7, 7, 0⟩⟩
  alive := fun id => id = 0
  nextID := 1

/-- On the folder `m` under its own name. -/
theorem mount_reachable_folder : ∃ s', mount (folders initMounts) 0 0 [] (some ['/', 'm']) oneFolder 1 = some (OK, s') ∧
    Reachable (folders initMounts) s' [] (some ['/', 'm']) oneFolder := by
  have hmount : mount (folders initMounts) 0 0 [] (some ['/', 'm']) oneFolder 1 =
      some (OK, addMount (folders initMounts) rootMount initMounts.refCount ['m'] oneFolder) := rfl
  refine ⟨_, hmount, (mount_reachable tree_init hmount).mpr fun path hprep => ?_⟩
  have hpath : preparePath [] (some ['/', 'm']) = .ok ['m'] := by decide
  rw [hpath] at hprep
  cases hprep
  decide

/-- **Mounted over a link**: after `Mount` on `l`, the link to `/a`, `Unmount` of `l` finds the root. -/
theorem mounted_over_link : ¬ ∀ (s s' : Lookup.Sys) (uid gid fuel : Nat) (cwd : List Char) (p : Option (List Char))
    (fs : FileSystem), Tree s.mounts → mount s uid gid cwd p fs fuel = some (OK, s') → Reachable s s' cwd p fs := by
  intro hall
  let s' := addMount (folders initMounts) rootMount initMounts.refCount ['/', 'a'] oneFolder
  have hmount : mount (folders initMounts) 0 0 [] (some ['/', 'l']) oneFolder 2 = some (OK, s') := rfl
  have hR := hall (folders initMounts) s' 0 0 2 [] (some ['/', 'l']) oneFolder tree_init hmount
  obtain ⟨s'', hok, -⟩ := hR.unmount (fun _ => 0) rfl
  have hroot : (unmount { s' with mounts := s'.mounts.setCount fun _ => 0 } [] (some ['/', 'l'])).map Prod.fst =
      some ErrorUnmountRoot := by decide
  rw [hok] at hroot
  cases hroot

end Reachable

end SymLinks

end SimpleOS2
