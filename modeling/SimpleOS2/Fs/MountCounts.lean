/-
  File:      SimpleOS2/Fs/MountCounts.lean
  Subject:   REFERENCE COUNTS OF THE MOUNT POINTS (the calls of fs/VFS.cpp, one after the other).

  Every call on a path takes a reference to its mount point. Most give it back; `Open` leaves it to the
  descriptor, `Mount` to the new mount point.

  * `acquirePath` -- the searches of `AcquirePath`: one for the path, and one for each path a symbolic
    link leads to;
  * `unmount`, `callStep` -- the calls;
  * `balanced` -- the condition: no pipe, and nothing is unmounted from a mount point other than the root;
  * `CountInv`, `countInv_step`, `countInv_reach` -- then a mount point counts its open descriptors and
    its children;
  * `parent_count_leaks` -- without that: `Unmount` keeps the reference to the parent for ever.
-/
import Mathlib.Data.List.Count
import SimpleOS2.Fs.MountPoint
import SimpleOS2.Klib.Memory
import SimpleOS2.Lib.Tally

namespace SimpleOS2

open Lib

namespace VFS

/-! ## 1. The calls -/

/-- Where the node of a descriptor lives. -/
inductive Place where
  | pipe
  | on (m : Nat)
  deriving DecidableEq

structure FileDescriptor where
  place : Place
  refCount : Nat
  deriving DecidableEq

/-- The mount points, the count of `g_PipeMount`, and the descriptors. -/
structure Calls where
  mounts : Mounts
  pipeCount : Int
  descs : List FileDescriptor

/-- The searches of `AcquirePath`; the last one keeps its reference. -/
def acquirePath (M : Mounts) : (path : List Char) → (links : List (List Char)) →
    Option (Nat × (Nat → Int))
  | path, [] => findMountPoint M path
  | path, link :: links =>
      (findMountPoint M path).bind fun r =>
        acquirePath (M.setCount (releaseMountPoint r.2 r.1)) link links

/-- `Unmount`: the state afterwards and the result. -/
def Calls.unmount (s : Calls) (path : List Char) : Option (Calls × Int) :=
  (findMountPoint s.mounts path).map fun r =>
    let released : Calls := { s with mounts := s.mounts.setCount (releaseMountPoint r.2 r.1) }
    if r.1 = rootMount then (released, ErrorUnmountRoot)
    else if advancePath path (s.mounts.mp r.1).path ≠ [] then (released, ErrorNotAMountPoint)
    else if r.2 r.1 = 1 then ({ s with mounts := (s.mounts.setCount r.2).erase r.1 }, OK)
    else (released, ErrorMountPointBusy)

/-- `VFS::Close` of the `i`th descriptor: the last reference gives the mount point back. -/
def Calls.close (s : Calls) (i : Nat) (d : FileDescriptor) : Calls :=
  if d.refCount - 1 = 0 then
    match d.place with
    | .pipe => { s with pipeCount := s.pipeCount - 1, descs := s.descs.eraseIdx i }
    | .on m =>
        { s with
          mounts := s.mounts.setCount (releaseMountPoint s.mounts.refCount m)
          descs := s.descs.eraseIdx i }
  else { s with descs := s.descs.set i { d with refCount := d.refCount - 1 } }

inductive Call where
  | path (path : List Char) (links : List (List Char))
  | twoPaths (path : List Char) (links : List (List Char)) (path' : List Char)
      (links' : List (List Char))
  | openFile (path : List Char) (links : List (List Char))
  | addRef (i : Nat)
  | close (i : Nat)
  | createPipe
  | mount (path : List Char) (links : List (List Char))
  | unmount (path : List Char)

/-- The path the links lead to. -/
def lastPath (path : List Char) : List (List Char) → List Char
  | [] => path
  | link :: links => lastPath link links

/-- One call. -/
inductive callStep : Calls → Call → Calls → Prop where
  /-- `CreateFile`, `CreateFolder`, `CreateDeviceFile`, `CreateSymLink`, `Delete`, `ChangeOwner`,
      `ChangePermissions`, `Stat`, `List`, `CD`, and an `Open` or a `Mount` that fails. -/
  | path (s : Calls) (path : List Char) (links : List (List Char)) (m : Nat) (count : Nat → Int)
      (h : acquirePath s.mounts path links = some (m, count)) :
      callStep s (.path path links) { s with mounts := s.mounts.setCount (releaseMountPoint count m) }
  /-- `CreateHardLink`. -/
  | twoPaths (s : Calls) (path : List Char) (links : List (List Char)) (path' : List Char)
      (links' : List (List Char)) (m m' : Nat) (count count' : Nat → Int)
      (h : acquirePath s.mounts path links = some (m, count))
      (h' : acquirePath (s.mounts.setCount count) path' links' = some (m', count')) :
      callStep s (.twoPaths path links path' links')
        { s with mounts := s.mounts.setCount (releaseMountPoint (releaseMountPoint count' m') m) }
  | openFile (s : Calls) (path : List Char) (links : List (List Char)) (m : Nat) (count : Nat → Int)
      (h : acquirePath s.mounts path links = some (m, count)) :
      callStep s (.openFile path links)
        { s with mounts := s.mounts.setCount count, descs := ⟨.on m, 1⟩ :: s.descs }
  | addRef (s : Calls) (i : Nat) (d : FileDescriptor) (hd : s.descs[i]? = some d) :
      callStep s (.addRef i) { s with descs := s.descs.set i { d with refCount := d.refCount + 1 } }
  | close (s : Calls) (i : Nat) (d : FileDescriptor) (hd : s.descs[i]? = some d) :
      callStep s (.close i) (s.close i d)
  | createPipe (s : Calls) :
      callStep s .createPipe { s with descs := ⟨.pipe, 1⟩ :: ⟨.pipe, 1⟩ :: s.descs }
  /-- A `Mount` that succeeds. -/
  | mount (s : Calls) (path : List Char) (links : List (List Char)) (m : Nat) (count : Nat → Int)
      (h : acquirePath s.mounts path links = some (m, count))
      (hrest : advancePath (lastPath path links) (s.mounts.mp m).path ≠ []) :
      callStep s (.mount path links)
        { s with mounts := (s.mounts.setCount count).insert m (lastPath path links) }
  | unmount (s : Calls) (path : List Char) (s' : Calls) (res : Int)
      (h : s.unmount path = some (s', res)) : callStep s (.unmount path) s'

/-- After `Init`. -/
def callInit (s : Calls) : Prop := s = ⟨initMounts, 0, []⟩

/-- How many descriptors there are on a place. -/
def openOn (descs : List FileDescriptor) (p : Place) : Nat := descs.countP fun d => d.place = p

/-- **The counts are exact.** -/
structure CountsExact (s : Calls) : Prop where
  mount : ∀ m, s.mounts.live m = true → m ≠ rootMount →
    s.mounts.refCount m = openOn s.descs (.on m) + (s.mounts.mp m).childMounts.length
  pipe : s.pipeCount = openOn s.descs .pipe
  /-- `Unmount` of a mount point succeeds exactly if nothing is open on it or mounted below it. -/
  unmount : ∀ path m count, findMountPoint s.mounts path = some (m, count) → m ≠ rootMount →
    advancePath path (s.mounts.mp m).path = [] →
      ((∃ s', s.unmount path = some (s', OK)) ↔
        openOn s.descs (.on m) = 0 ∧ (s.mounts.mp m).childMounts = [])

/-! ## 2. The condition -/

/-- No pipe is created, and a mount point that is unmounted (nothing is open on it or mounted below it)
    hangs below the root. -/
def balanced (s : Calls) : Call → Prop
  | .createPipe => False
  | .unmount path => ∀ m count, findMountPoint s.mounts path = some (m, count) → m ≠ rootMount →
      advancePath path (s.mounts.mp m).path = [] → openOn s.descs (.on m) = 0 →
      (s.mounts.mp m).childMounts = [] → (s.mounts.mp m).parent = rootMount
  | _ => True

/-! ## 3. The invariant -/

structure CountInv (s : Calls) : Prop where
  tree : Tree s.mounts
  exact : ∀ m, s.mounts.live m = true → m ≠ rootMount →
    s.mounts.refCount m = openOn s.descs (.on m) + (s.mounts.mp m).childMounts.length
  pipe : s.pipeCount = 0 ∧ openOn s.descs .pipe = 0
  placed : ∀ d ∈ s.descs, ∀ m, d.place = .on m → s.mounts.live m = true

section Counts

variable {count : Nat → Int} {m : Nat}

/-- Giving a reference back after taking it. -/
theorem release_moved (count : Nat → Int) (m : Nat) :
    releaseMountPoint (movedTo count rootMount m) m = count := by
  funext x
  by_cases h0 : m = rootMount
  · simp [releaseMountPoint, movedTo, h0]
  · by_cases hx : x = m
    · subst hx
      simp only [releaseMountPoint, movedTo, ne_eq, h0, not_false_eq_true, if_true, addCount,
        Function.update_self, and_self, not_true_eq_false, if_false]
      omega
    · simp [releaseMountPoint, movedTo, h0, addCount, hx]

theorem setCount_self (M : Mounts) : M.setCount M.refCount = M := rfl

/-- **`AcquirePath`** ends on the mount point of the last path, with one reference to it. -/
theorem acquire_spec {M : Mounts} (hT : Tree M) (path : List Char) (links : List (List Char)) :
    ∃ r, acquirePath M path links = some (r, movedTo M.refCount rootMount r) ∧
      IsLongest M (lastPath path links) r ∧ PassedOver M (lastPath path links) r ∧
      ∀ c ∈ (M.mp r).childMounts, ¬ Under (M.mp c).path (lastPath path links) := by
  induction links generalizing path with
  | nil => exact find_spec hT path
  | cons link links ih =>
      obtain ⟨r, hr, -⟩ := find_spec hT path
      have hnext : acquirePath M path (link :: links) = acquirePath M link links := by
        simp only [acquirePath, hr, Option.bind_some, release_moved, setCount_self]
      rw [hnext]
      exact ih link

/-- Where `Unmount` succeeds. -/
theorem unmount_ok {s : Calls} {path : List Char} (hf : findMountPoint s.mounts path = some (m, count))
    (h0 : m ≠ rootMount) (hrest : advancePath path (s.mounts.mp m).path = []) :
    (∃ s', s.unmount path = some (s', OK)) ↔ count m = 1 := by
  have hbusy : ErrorMountPointBusy ≠ OK := by decide
  unfold Calls.unmount
  simp only [hf, Option.map_some, h0, hrest, ne_eq, not_true_eq_false, if_false, Option.some.injEq]
  by_cases hone : count m = 1
  · simp [hone]
  · simp [hone, hbusy]

theorem openOn_cons (d : FileDescriptor) (descs : List FileDescriptor) (p : Place) :
    openOn (d :: descs) p = openOn descs p + if d.place = p then 1 else 0 := by
  simp [openOn, List.countP_cons]

theorem openOn_eraseIdx {descs : List FileDescriptor} {i : Nat} {d : FileDescriptor}
    (h : descs[i]? = some d) (p : Place) :
    openOn (descs.eraseIdx i) p + (if d.place = p then 1 else 0) = openOn descs p := by
  have hcount := countP_eraseIdx (fun d => decide (d.place = p)) descs h
  simpa only [openOn, decide_eq_true_eq] using hcount

/-- The references to a descriptor do not matter to where it is. -/
theorem openOn_set {descs : List FileDescriptor} {i : Nat} {d : FileDescriptor}
    (h : descs[i]? = some d) (n : Nat) (p : Place) :
    openOn (descs.set i { d with refCount := n }) p = openOn descs p := by
  exact countP_set_same _ descs h rfl

theorem openOn_pos {descs : List FileDescriptor} {d : FileDescriptor} (h : d ∈ descs) :
    0 < openOn descs d.place := List.countP_pos_iff.mpr ⟨d, h, by simp⟩

end Counts

section Edit

variable {M : Mounts} {m : Nat} {n : Nat → Nat}

/-- A new mount point adds one child to `m` and has none itself. -/
theorem exact_insert {path : List Char}
    (h : ∀ x, M.live x = true → x ≠ rootMount →
      M.refCount x = n x + ((M.mp x).childMounts.length : Int) + if x = m then 1 else 0)
    (hn : n M.next = 0) (x : Nat) (hx : (M.insert m path).live x = true) (h0 : x ≠ rootMount) :
    (M.insert m path).refCount x = n x + (((M.insert m path).mp x).childMounts.length : Int) := by
  by_cases hxn : x = M.next
  · subst hxn
    have hcount : (M.insert m path).refCount M.next = 0 := Function.update_self _ _ _
    rw [insert_new, hcount, hn]
    rfl
  · rw [insert_live hxn] at hx
    have hcount : (M.insert m path).refCount x = M.refCount x := Function.update_of_ne hxn _ _
    rw [hcount, h x hx h0, insert_other hxn]
    by_cases hxm : x = m
    · subst hxm
      simp only [if_true, List.length_append, List.length_singleton, Int.natCast_add]
      exact Int.add_assoc _ _ _
    · simp only [hxm, if_false, Int.add_zero]

/-- A mount point below the root takes no counted child away. -/
theorem exact_erase (hp : (M.mp m).parent = rootMount)
    (h : ∀ x, M.live x = true → x ≠ rootMount → x ≠ m →
      M.refCount x = n x + ((M.mp x).childMounts.length : Int))
    (x : Nat) (hx : (M.erase m).live x = true) (h0 : x ≠ rootMount) :
    (M.erase m).refCount x = n x + (((M.erase m).mp x).childMounts.length : Int) := by
  have hxm : x ≠ m := fun e => by
    rw [e] at hx
    simp [Mounts.erase] at hx
  rw [erase_live hxm] at hx
  rw [erase_mp, if_neg (by rw [hp]; exact h0)]
  exact h x hx h0 hxm

end Edit

section Inv

variable {s : Calls} {path : List Char} {links : List (List Char)} {m : Nat}

theorem countInv_init (h : callInit s) : CountInv s := by
  obtain rfl := h
  refine ⟨tree_init, fun m hm h0 => absurd ?_ h0, ⟨rfl, rfl⟩, fun d hd => absurd hd List.not_mem_nil⟩
  simpa [initMounts] using hm

/-- A call that gives back what it has taken. -/
theorem callPath_same {count : Nat → Int} (hI : CountInv s)
    (h : acquirePath s.mounts path links = some (m, count)) :
    s.mounts.setCount (releaseMountPoint count m) = s.mounts := by
  obtain ⟨r, hr, -⟩ := acquire_spec hI.tree path links
  rw [hr] at h
  cases h
  rw [release_moved, setCount_self]

theorem countInv_open {count : Nat → Int} (hI : CountInv s)
    (h : acquirePath s.mounts path links = some (m, count)) :
    CountInv { s with mounts := s.mounts.setCount count, descs := ⟨.on m, 1⟩ :: s.descs } := by
  obtain ⟨r, hr, hlong, -, -⟩ := acquire_spec hI.tree path links
  rw [hr] at h
  cases h
  refine ⟨hI.tree.setCount _, fun x hx h0 => ?_, ⟨hI.pipe.1, ?_⟩, fun d hd x hp => ?_⟩
  · have hex := hI.exact x hx h0
    show movedTo s.mounts.refCount rootMount m x = (openOn (⟨.on m, 1⟩ :: s.descs) (.on x) : Int) + _
    rw [movedTo_root h0, openOn_cons, hex]
    simp only [Place.on.injEq]
    by_cases hxm : x = m
    · subst hxm
      simp only [if_true, Int.natCast_add]
      exact Int.add_right_comm _ _ _
    · have hmx : ¬ m = x := fun e => hxm e.symm
      simp only [hxm, hmx, if_false, Nat.add_zero, Int.add_zero]
      rfl
  · rw [openOn_cons, if_neg (by simp), Nat.add_zero]
    exact hI.pipe.2
  · cases List.mem_cons.mp hd with
    | inl e =>
        rw [e] at hp
        cases hp
        exact hlong.live
    | inr e => exact hI.placed d e x hp

theorem countInv_setDesc (hI : CountInv s) {i : Nat} {d : FileDescriptor} (hd : s.descs[i]? = some d)
    (n : Nat) : CountInv { s with descs := s.descs.set i { d with refCount := n } } := by
  refine ⟨hI.tree, fun x hx h0 => ?_, ⟨hI.pipe.1, ?_⟩, fun e he x hp => ?_⟩
  · rw [openOn_set hd]
    exact hI.exact x hx h0
  · rw [openOn_set hd]
    exact hI.pipe.2
  · obtain h | h := List.mem_or_eq_of_mem_set he
    · exact hI.placed e h x hp
    · rw [h] at hp
      exact hI.placed d (List.mem_of_getElem? hd) x hp

theorem countInv_close (hI : CountInv s) {i : Nat} {d : FileDescriptor} (hd : s.descs[i]? = some d) :
    CountInv (s.close i d) := by
  unfold Calls.close
  have hmem : d ∈ s.descs := List.mem_of_getElem? hd
  have herase := openOn_eraseIdx hd
  split_ifs with hlast
  · cases hp : d.place with
    | pipe =>
        have hpos := openOn_pos hmem
        rw [hp, hI.pipe.2] at hpos
        exact absurd hpos (Nat.lt_irrefl 0)
    | on m =>
        have hlive := hI.placed d hmem m hp
        rw [hp] at herase
        refine ⟨hI.tree.setCount _, fun x hx h0 => ?_, ⟨hI.pipe.1, ?_⟩, fun e he x hx => ?_⟩
        · have hex := hI.exact x hx h0
          have hcell := herase (.on x)
          simp only [Place.on.injEq] at hcell
          show releaseMountPoint s.mounts.refCount m x =
            (openOn (s.descs.eraseIdx i) (.on x) : Int) + ((s.mounts.mp x).childMounts.length : Int)
          by_cases hxm : x = m
          · subst hxm
            have hcount : releaseMountPoint s.mounts.refCount x x = s.mounts.refCount x + -1 := by
              simp [releaseMountPoint, h0, addCount]
            rw [if_pos rfl] at hcell
            rw [hcount, hex, ← hcell]
            omega
          · have hmx : ¬ m = x := fun e => hxm e.symm
            have hcount : releaseMountPoint s.mounts.refCount m x = s.mounts.refCount x := by
              unfold releaseMountPoint
              split_ifs
              · exact Function.update_of_ne hxm _ _
              · rfl
            rw [if_neg hmx, Nat.add_zero] at hcell
            rw [hcount, hex, ← hcell]
        · have hcell := herase .pipe
          rw [if_neg (by simp), Nat.add_zero] at hcell
          rw [hcell]
          exact hI.pipe.2
        · exact hI.placed e (List.mem_of_mem_eraseIdx he) x hx
  · exact countInv_setDesc hI hd _

/-- Nothing is open on a mount point that does not exist yet. -/
theorem openOn_next (hI : CountInv s) : openOn s.descs (.on s.mounts.next) = 0 := by
  refine List.countP_eq_zero.mpr fun d hd hp => ?_
  exact hI.tree.ne_next (hI.placed d hd _ (by simpa using hp)) rfl

theorem countInv_mount {count : Nat → Int} (hI : CountInv s)
    (h : acquirePath s.mounts path links = some (m, count))
    (hrest : advancePath (lastPath path links) (s.mounts.mp m).path ≠ []) :
    CountInv { s with mounts := (s.mounts.setCount count).insert m (lastPath path links) } := by
  obtain ⟨r, hr, hlong, hpassed, hnone⟩ := acquire_spec hI.tree path links
  rw [hr] at h
  cases h
  have hT := hI.tree
  have hnext := openOn_next hI
  refine ⟨tree_insert (hT.setCount _) hlong.live (longer_of_rest hT hlong.covers hrest) hlong.covers
    (fun q x y hxy hy => hpassed q x y hxy (below_setCount hy)) hnone,
    exact_insert (n := fun x => openOn s.descs (.on x)) (fun x hx h0 => ?_) (openOn_next hI), hI.pipe,
    fun d hd x hp => ?_⟩
  · show movedTo s.mounts.refCount rootMount m x = _
    rw [movedTo_root h0, hI.exact x hx h0]
    rfl
  · have hlive := hI.placed d hd x hp
    have hsame : ((s.mounts.setCount (movedTo s.mounts.refCount rootMount m)).insert m
        (lastPath path links)).live x = s.mounts.live x := insert_live (hT.ne_next hlive)
    exact hsame.trans hlive

theorem countInv_unmount (hI : CountInv s) (hok : balanced s (.unmount path)) {s' : Calls} {res : Int}
    (h : s.unmount path = some (s', res)) : CountInv s' := by
  have hT := hI.tree
  obtain ⟨m, hm, hlong, -, -⟩ := find_spec hT path
  have hsame : s.mounts.setCount (releaseMountPoint (movedTo s.mounts.refCount rootMount m) m) =
      s.mounts := by rw [release_moved, setCount_self]
  unfold Calls.unmount at h
  simp only [hm, Option.map_some, hsame] at h
  split_ifs at h with h0 hrest hone
  · cases h
    exact hI
  · cases h
    exact hI
  · cases h
    rw [movedTo_root h0, if_pos rfl] at hone
    have hex := hI.exact m hlong.live h0
    have hnone : openOn s.descs (.on m) = 0 := by omega
    have hleaf : (s.mounts.mp m).childMounts = [] := List.length_eq_zero_iff.mp (by omega)
    have hparent := hok m _ hm h0 (not_not.mp hrest) hnone hleaf
    refine ⟨tree_erase (hT.setCount _) hlong.live h0 hleaf,
      exact_erase (n := fun x => openOn s.descs (.on x)) hparent (fun x hx hx0 hxm => ?_), hI.pipe,
      fun d hd x hp => ?_⟩
    · show movedTo s.mounts.refCount rootMount m x = _
      rw [movedTo_root hx0, if_neg hxm, Int.add_zero]
      exact hI.exact x hx hx0
    · have hxm : x ≠ m := fun e => by
        have hpos := openOn_pos hd
        rw [hp, e, hnone] at hpos
        exact Nat.lt_irrefl 0 hpos
      exact (erase_live (M := s.mounts.setCount _) hxm).trans (hI.placed d hd x hp)
  · cases h
    exact hI

theorem countInv_step {s' : Calls} {c : Call} (hI : CountInv s) (hs : Guarded callStep balanced s c s') :
    CountInv s' := by
  obtain ⟨hs, hok⟩ := hs
  cases hs with
  | path path links m count h =>
      rw [callPath_same hI h]
      exact hI
  | twoPaths path links path' links' m m' count count' h h' =>
      obtain ⟨r, hr, -⟩ := acquire_spec hI.tree path links
      rw [hr] at h
      cases h
      obtain ⟨r', hr', -⟩ := acquire_spec (hI.tree.setCount (movedTo s.mounts.refCount rootMount m))
        path' links'
      rw [hr'] at h'
      cases h'
      have hback : releaseMountPoint (movedTo (movedTo s.mounts.refCount rootMount m) rootMount m') m' =
          movedTo s.mounts.refCount rootMount m := release_moved _ _
      show CountInv { s with mounts := s.mounts.setCount (releaseMountPoint (releaseMountPoint
        (movedTo (movedTo s.mounts.refCount rootMount m) rootMount m') m') m) }
      rw [hback, release_moved, setCount_self]
      exact hI
  | openFile path links m count h => exact countInv_open hI h
  | addRef i d hd => exact countInv_setDesc hI hd _
  | close i d hd => exact countInv_close hI hd
  | createPipe => exact hok.elim
  | mount path links m count h hrest => exact countInv_mount hI h hrest
  | unmount path s' res h => exact countInv_unmount hI hok h

theorem countInv_reach (h : Reach (Guarded callStep balanced) callInit s) : CountInv s :=
  Reach.inv (I := CountInv) (fun _ h0 => countInv_init h0) (fun _ _ _ hI hs => countInv_step hI hs) h

end Inv

/-! ## 4. Whole runs -/

/-- **The counts of the mount points are exact** in every run whose calls meet the condition, and
    `Unmount` succeeds exactly on what is not in use. -/
theorem mount_counts {s : Calls} (h : Reach (Guarded callStep balanced) callInit s) : CountsExact s := by
  have hI := countInv_reach h
  refine ⟨hI.exact, by rw [hI.pipe.1, hI.pipe.2]; rfl, fun path m count hf h0 hrest => ?_⟩
  obtain ⟨r, hr, hlong, -, -⟩ := find_spec hI.tree path
  rw [hr] at hf
  cases hf
  have hex := hI.exact m hlong.live h0
  rw [unmount_ok hr h0 hrest, movedTo_root h0, if_pos rfl, ← List.length_eq_zero_iff]
  omega

/-- `a` and `a/b` are mounted, and a file is open on `a`: the mount point `a` counts 2. -/
theorem mount_counts_nested : ∃ s, Reach (Guarded callStep balanced) callInit s ∧
    s.mounts.refCount 1 = 2 ∧ CountsExact s := by
  have h0 : Reach (Guarded callStep balanced) callInit ⟨initMounts, 0, []⟩ := .start _ rfl
  have h1 := Reach.next _ _ _ h0
    ⟨callStep.mount _ "a".toList [] rootMount _ rfl (by decide), trivial⟩
  have h2 := Reach.next _ _ _ h1 ⟨callStep.mount _ "a/b".toList [] 1 _ rfl (by decide), trivial⟩
  have h3 := Reach.next _ _ _ h2 ⟨callStep.openFile _ "a/f".toList [] 1 _ rfl, trivial⟩
  exact ⟨_, h3, rfl, mount_counts h3⟩

/-- **The parent's count leaks**: `a` and `a/b` are mounted and `a/b` is unmounted again. Nothing is
    open on `a` or mounted below it, and it counts 1. -/
theorem parent_count_leaks : ¬ ∀ s, Reach callStep callInit s → CountsExact s := by
  intro hall
  have h0 : Reach callStep callInit ⟨initMounts, 0, []⟩ := .start _ rfl
  have h1 := Reach.next _ _ _ h0 (callStep.mount _ "a".toList [] rootMount _ rfl (by decide))
  have h2 := Reach.next _ _ _ h1 (callStep.mount _ "a/b".toList [] 1 _ rfl (by decide))
  have h3 := Reach.next _ _ _ h2 (callStep.unmount _ "a/b".toList _ OK rfl)
  have hex := (hall _ h3).mount 1 (by decide) (by decide)
  exact absurd hex (by decide)

end VFS

end SimpleOS2
