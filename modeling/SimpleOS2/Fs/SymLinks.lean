/-
  File:      SimpleOS2/Fs/SymLinks.lean
  Subject:   SYMBOLIC LINKS AND PREPARED PATHS (_AcquirePathRec, AcquirePath of fs/VFS.cpp).

  A path that is typed goes through `PreparePath`; the target of a symbolic link is put in front of the
  rest of the path as `CreateSymLink` has stored it.

  * `recLoop`, `acquirePathRec`, `acquirePath` -- the source's functions on a state that no one changes;
  * `Sys.linkOf` -- the link at which a path stops; `Leads` -- the paths that links lead to;
  * `Outside` -- no mount point but the root is at the path or above it;
  * `symlink_transparent` -- a target that `PreparePath` would only rid of its leading slash, outside of all
    mount points, is found as if it had been typed;
  * `symlink_over_mount` -- a target on another mount is not.
-/
import SimpleOS2.Fs.WorkingDir

namespace SimpleOS2

open Lib

namespace SymLinks

open VFS Lookup

/-! ## 1. The functions -/

/-- What `_AcquirePathRec` returns. -/
inductive RecResult where
  | ok (node parent : Option Nat) (rest : List Char)
  /-- `ErrorEncounteredSymlink`. -/
  | symlink (id : Nat) (rest : List Char)
  | error (res : Int)
  deriving DecidableEq

/-- What `AcquirePath` returns: mount point, node, parent, and the name that is left where the node is
    still to be made. -/
structure Found where
  mp : Nat
  node : Option Nat
  parent : Option Nat
  rest : List Char
  deriving DecidableEq

/-- Who asks, and the two flags of `AcquirePath`. -/
structure Request where
  uid : Nat
  gid : Nat
  fileHasToExist : Bool
  deleteMode : Bool

/-- The loop of `_AcquirePathRec`. A turn takes a character at least. -/
def recLoop (s : Lookup.Sys) (rq : Request) (mp : Nat) : (fuel cur : Nat) → (rest : List Char) → Option RecResult
  | 0, _, _ => none
  | fuel + 1, cur, rest =>
      if (s.node mp cur).type ≠ .directory then some (.error ErrorFileNotFound)
      else if checkPermissions rq.uid rq.gid (s.node mp cur) permExecute = false then
        some (.error ErrorPermissionDenied)
      else
        match findEntry rest (s.node mp cur).cachedDir with
        | some (id, rest) =>
            if rq.deleteMode ∧ rest = [] then some (.ok (some id) (some cur) rest)
            else if (s.node mp id).type = .symlink then some (.symlink id rest)
            else if rest = [] then some (.ok (some id) (some cur) rest)
            else recLoop s rq mp fuel id rest
        | none =>
            if rq.fileHasToExist ∨ isLastPathEntry rest = false then some (.error ErrorFileNotFound)
            else some (.ok none (some cur) rest)

/-- `_AcquirePathRec`. -/
def acquirePathRec (s : Lookup.Sys) (rq : Request) (mp : Nat) (rest : List Char) : Option RecResult :=
  if rest = [] then some (.ok (some (s.rootNode mp)) none rest)
  else recLoop s rq mp rest.length (s.rootNode mp) rest

/-- `FindMountPoint`, `AdvancePath` and `_AcquirePathRec` on what the buffer holds. -/
def lookup (s : Lookup.Sys) (rq : Request) (buffer : List Char) : Option (Nat × RecResult) := do
  let (mp, _) ← findMountPoint s.mounts buffer
  let r ← acquirePathRec s rq mp (advancePath buffer (s.mounts.mp mp).path)
  return (mp, r)

/-- `AcquirePath`: a turn for each symbolic link. -/
def acquirePath (s : Lookup.Sys) (rq : Request) : (fuel : Nat) → (buffer : List Char) → Option (Except Int Found)
  | 0, _ => none
  | fuel + 1, buffer =>
      match lookup s rq buffer with
      | none => none
      | some (mp, .ok node parent rest) => some (.ok ⟨mp, node, parent, rest⟩)
      | some (_, .error res) => some (.error res)
      | some (mp, .symlink id rest) =>
          if (s.node mp id).linkPath.length + rest.length + 2 > 255 then some (.error ErrorPathTooLong)
          else acquirePath s rq fuel (linkedPath (s.node mp id).linkPath rest)

/-! ## 2. Links -/

/-- The path stops at a link: its target, and the rest of the path. -/
def linkOf (s : Lookup.Sys) (rq : Request) (path : List Char) : Option (List Char × List Char) :=
  match lookup s rq path with
  | some (mp, .symlink id rest) => some ((s.node mp id).linkPath, rest)
  | _ => none

/-- The links lead from one path to the other, none of them too long. -/
inductive Leads (s : Lookup.Sys) (rq : Request) (path : List Char) : List Char → Prop where
  | refl : Leads s rq path path
  | link (path' target rest : List Char) (h : Leads s rq path path') (hl : linkOf s rq path' = some (target, rest))
      (hfit : target.length + rest.length + 2 ≤ 255) : Leads s rq path (linkedPath target rest)

/-- No mount point but the root is at the path or above it. -/
def Outside (M : Mounts) (path : List Char) : Prop :=
  ∀ m, M.live m = true → m ≠ rootMount → ¬ Under (M.mp m).path path

section Links

variable {s : Lookup.Sys} {rq : Request} {path path' target rest : List Char} {M : Mounts}

/-- One turn of `AcquirePath`. -/
theorem acquirePath_link (hl : linkOf s rq path = some (target, rest))
    (hfit : target.length + rest.length + 2 ≤ 255) (n : Nat) :
    acquirePath s rq (n + 1) path = acquirePath s rq n (linkedPath target rest) := by
  rw [acquirePath]
  unfold linkOf at hl
  split at hl
  · rename_i mp id rest' h
    cases hl
    rw [h]
    exact if_neg (by omega)
  · cases hl

/-- The links on the way change nothing. -/
theorem acquirePath_leads (h : Leads s rq path path') (r : Except Int Found) :
    Halts (fun n => acquirePath s rq n path) r ↔ Halts (fun n => acquirePath s rq n path') r := by
  induction h with
  | refl => exact Iff.rfl
  | link path' target rest _ hl hfit ih => exact ih.trans (Halts.succ_iff (acquirePath_link hl hfit) r)

/-- Outside of all mount points the search stays at the root. -/
theorem find_outside (hT : Tree M) (h : Outside M path) : ∃ count, findMountPoint M path = some (rootMount, count) := by
  obtain ⟨m, hm, hlong, -⟩ := find_spec hT path
  rcases hlong.covers with rfl | hu
  · exact ⟨_, hm⟩
  · by_cases h0 : m = rootMount
    · subst h0
      exact ⟨_, hm⟩
    · exact absurd hu (h m hlong.live h0)

/-- A leading slash is skipped at the root. -/
theorem lookup_slash (hT : Tree s.mounts) (hp : path.head? ≠ some '/') (h : Outside s.mounts path)
    (h' : Outside s.mounts ('/' :: path)) : lookup s rq ('/' :: path) = lookup s rq path := by
  obtain ⟨c, hc⟩ := find_outside hT h
  obtain ⟨c', hc'⟩ := find_outside hT h'
  have hadv : advancePath ('/' :: path) (s.mounts.mp rootMount).path = path := by
    rw [hT.root_path]
    rfl
  have hadv' : advancePath path (s.mounts.mp rootMount).path = path := by
    rw [hT.root_path]
    rcases path with _ | ⟨c, path⟩
    · rfl
    · exact if_neg (by simpa using hp)
  unfold lookup
  rw [hc, hc']
  show (do let r ← acquirePathRec s rq rootMount (advancePath ('/' :: path) _); return (rootMount, r)) =
    (do let r ← acquirePathRec s rq rootMount (advancePath path _); return (rootMount, r))
  rw [hadv, hadv']

/-- Two paths with one lookup are one path to `AcquirePath`. -/
theorem acquirePath_congr (h : lookup s rq path = lookup s rq path') (n : Nat) :
    acquirePath s rq n path = acquirePath s rq n path' := by
  cases n with
  | zero => rfl
  | succ n => rw [acquirePath, acquirePath, h]

end Links

/-! ## 3. Results -/

/-- **Symlink transparency.** The links on `path` lead to one with the target `target` and the rest `rest`;
    `prepared` is what `PreparePath` makes of the two. If that has only taken a leading slash away, and no
    mount point is at the path or above it, with or without the slash, then `AcquirePath` ends on `path` with
    the mount point, the node and the parent with which it ends on `prepared`. -/
theorem symlink_transparent {s : Lookup.Sys} (hT : Tree s.mounts) {rq : Request}
    {cwd path path' target rest prepared : List Char} (hlead : Leads s rq path path')
    (hl : linkOf s rq path' = some (target, rest)) (hfit : target.length + rest.length + 2 ≤ 255)
    (hprep : preparePath cwd (some (linkedPath target rest)) = .ok prepared)
    (hslash : linkedPath target rest = '/' :: prepared) (hout : Outside s.mounts prepared)
    (hout' : Outside s.mounts ('/' :: prepared)) (r : Except Int Found) :
    Halts (fun n => acquirePath s rq n path) r ↔ Halts (fun n => acquirePath s rq n prepared) r := by
  have hcanon : Canonical prepared := by
    have habs : isPathRelative (linkedPath target rest) = false := by
      rw [hslash]
      rfl
    rw [preparePath_absolute habs cwd []] at hprep
    exact preparePath_canonical canonical_nil hprep
  have hsame := @lookup_slash s rq _ hT hcanon.head hout hout'
  rw [← hslash] at hsame
  have hlead' : Leads s rq path (linkedPath target rest) := .link path' target rest hlead hl hfit
  rw [acquirePath_leads hlead']
  simp only [acquirePath_congr hsame]

section Linked

/-- Who asks is uid 0, for a file that is there. -/
def asRoot : Request := ⟨0, 0, true, false⟩

/-- A folder `a` with the file `f`, the link `l` to `/a`, a folder `m` and the link `k` to `/m`. -/
def folders (mounts : Mounts) : Lookup.Sys where
  mounts := mounts
  rootNode := fun _ => 0
  node := fun mp id =>
    if id = 0 ∧ mp = 0 then
      ⟨.directory, 0, 1, [⟨['a'], 1⟩, ⟨['l'], 2⟩, ⟨['m'], 3⟩, ⟨['k'], 4⟩], [], ⟨0, fun _ => 0⟩, 0, 0, ⟨7, 7, 7, 0⟩⟩
    else if id = 1 then ⟨.directory, 0, 1, [⟨['f'], 5⟩], [], ⟨0, fun _ => 0⟩, 0, 0, ⟨7, 7, 7, 0⟩⟩
    else if id = 2 then ⟨.symlink, 0, 1, [], ['/', 'a'], ⟨0, fun _ => 0⟩, 0, 0, ⟨7, 7, 7, 0⟩⟩
    else if id = 4 then ⟨.symlink, 0, 1, [], ['/', 'm'], ⟨0, fun _ => 0⟩, 0, 0, ⟨7, 7, 7, 0⟩⟩
    else if id = 5 then ⟨.file, 0, 1, [], [], ⟨0, fun _ => 0⟩, 0, 0, ⟨7, 7, 7, 0⟩⟩
    else ⟨.directory, 0, 1, [], [], ⟨0, fun _ => 0⟩, 0, 0, ⟨7, 7, 7, 0⟩⟩
  cached := fun _ _ => true
  alive := fun _ id => id ≤ 5
  dirLock := fun _ _ => false
  nextID := fun _ => 6
  descs := []
  created := []
  thread := fun _ => ⟨0, 0, .idle, [], [], false, none⟩

/-- `l/f` is found as `a/f` is. -/
theorem symlink_transparent_file :
    Halts (fun n => acquirePath (folders initMounts) asRoot n ['l', '/', 'f']) (.ok ⟨0, some 5, some 1, []⟩) := by
  have hout : ∀ path, Outside (folders initMounts).mounts path := by
    intro path m hm h0
    exact absurd (of_decide_eq_true hm) h0
  have hprep : preparePath [] (some (linkedPath ['/', 'a'] ['f'])) = .ok ['a', '/', 'f'] := by decide
  refine (symlink_transparent tree_init .refl (by decide) (by decide) hprep rfl (hout _) (hout _) _).mpr ?_
  exact ⟨1, fun n hn => by
    obtain ⟨n, rfl⟩ : ∃ k, n = k + 1 := ⟨n - 1, by omega⟩
    rfl⟩

/-- A file system is mounted on `m`. -/
def mountedOnM : Mounts := (initMounts.setCount initMounts.refCount).insert rootMount ['m']

theorem mountedOnM_tree : Tree mountedOnM := by
  have h : Reach mountStep (· = initMounts) mountedOnM :=
    .next _ _ _ (.start _ rfl) (mountStep.mount initMounts ['m'] rootMount _ rfl (by decide))
  exact (mountInv_reach h).tree

/-- **A target on another mount**: `k` leads to the folder under the mount point `/m`, not to what is
    mounted there. -/
theorem symlink_over_mount : ¬ ∀ (s : Lookup.Sys) (rq : Request) (cwd path target rest prepared : List Char),
    Tree s.mounts → linkOf s rq path = some (target, rest) → target.head? = some '/' →
    target.length + rest.length + 2 ≤ 255 →
    preparePath cwd (some (linkedPath target rest)) = .ok prepared →
    ∀ r, Halts (fun n => acquirePath s rq n path) r ↔ Halts (fun n => acquirePath s rq n prepared) r := by
  intro hall
  have h := hall (folders mountedOnM) asRoot [] ['k'] ['/', 'm'] [] ['m'] mountedOnM_tree (by decide) rfl
    (by decide) (by decide) (.ok ⟨0, some 3, some 0, []⟩)
  have h1 : Halts (fun n => acquirePath (folders mountedOnM) asRoot n ['k']) (.ok ⟨0, some 3, some 0, []⟩) :=
    ⟨2, fun n hn => by
      obtain ⟨n, rfl⟩ : ∃ k, n = k + 2 := ⟨n - 2, by omega⟩
      rfl⟩
  have h2 : Halts (fun n => acquirePath (folders mountedOnM) asRoot n ['m']) (.ok ⟨1, some 0, none, []⟩) :=
    ⟨1, fun n hn => by
      obtain ⟨n, rfl⟩ : ∃ k, n = k + 1 := ⟨n - 1, by omega⟩
      rfl⟩
  have h3 := (h.mp h1).unique h2
  cases h3

end Linked

end SymLinks

end SimpleOS2
