/-
  File:      SimpleOS2/Fs/WorkingDir.lean
  Subject:   THE WORKING DIRECTORY (CD of fs/VFS.cpp; the lines about `cwd` of scheduler/Scheduler.cpp).

  `CD` keeps its path in `pathBuffer`. `AcquirePath` puts the target of a symbolic link there as the link
  has it, and `CD` stores what it finds there in `cwd`.

  * `CwdSys`, `cwdStep` -- any number of threads in any calls of the VFS, `CD` among them, with threads
    created and cloned and mount points changed in between;
  * `PcCanonical` -- what `CD` has in its buffer and what is left of it to walk, by where it stands;
  * `followsCanonical` -- the links that `CD` follows have canonical targets;
  * `cwd_canonical` -- then every working directory is canonical, and a relative path is prepared as the
    absolute path that names it;
  * `cwd_through_link` -- without that a `cwd` begins with a slash.
-/
import SimpleOS2.Fs.PreparePath
import SimpleOS2.Fs.Nodes

namespace SimpleOS2

open Lib

namespace WorkingDir

open VFS Lookup

/-! ## 1. The threads and their directories -/

/-- The calls of the VFS, each thread's `cwd`, and the `pathBuffer` of its last `CD`. -/
structure CwdSys where
  sys : Lookup.Sys
  cwd : Nat → List Char
  buffer : Nat → List Char

/-- What `CD` has in `pathBuffer` while it is in `AcquirePath`. -/
def cdBuffer : Pc → Option (List Char)
  | .find .cd path => some path
  | .root .cd path _ _ => some path
  | .walk .cd path _ _ _ => some path
  | .search .cd path _ _ _ => some path
  | .entry .cd path _ _ _ _ => some path
  | .arrived .cd path _ _ _ _ => some path
  | .relink .cd path _ => some path
  | .done .cd path _ _ _ _ => some path
  | _ => none

/-- The thread takes its next step. -/
def CwdSys.run (s : CwdSys) (t : Nat) (g : Garbage) : CwdSys :=
  let sys := s.sys.next t g
  { s with
    sys := sys
    buffer := Function.update s.buffer t ((cdBuffer (sys.thread t).pc).getD (s.buffer t)) }

inductive Event where
  | cd (t : Nat) (userPath : Option (List Char))
  | call (t : Nat) (op : Op) (path : List Char)
  | run (t : Nat) (g : Garbage)
  | store (t : Nat)
  | leave (t : Nat)
  | create (u : Nat)
  | clone (t u : Nat)
  | remount (mounts : Mounts)
  | other (ev : Lookup.Event)

inductive cwdStep : CwdSys → Event → CwdSys → Prop where
  /-- `CD`, after `PreparePath`. -/
  | cd (s : CwdSys) (t : Nat) (userPath : Option (List Char)) (path : List Char)
      (ht : (s.sys.thread t).pc = .idle) (hp : preparePath (s.cwd t) userPath = .ok path) :
      cwdStep s (.cd t userPath)
        { s with
          sys := s.sys.setThread t { s.sys.thread t with
            pc := .find .cd path
            changed := false }
          buffer := Function.update s.buffer t path }
  /-- Any other call on a path. -/
  | call (s : CwdSys) (t : Nat) (op : Op) (path : List Char) (sys : Lookup.Sys) (hop : op ≠ .cd)
      (h : sysStep s.sys (.start t op path) sys) : cwdStep s (.call t op path) { s with sys := sys }
  | run (s : CwdSys) (t : Nat) (g : Garbage) : cwdStep s (.run t g) (s.run t g)
  /-- `kstrcpy(tInfo->cwd, pathBuffer); return OK;` -/
  | store (s : CwdSys) (t : Nat) (ht : (s.sys.thread t).pc = .returned .cd OK) :
      cwdStep s (.store t)
        { s with
          sys := s.sys.setThread t { s.sys.thread t with pc := .idle }
          cwd := Function.update s.cwd t (s.buffer t) }
  /-- Any other return. -/
  | leave (s : CwdSys) (t : Nat) (op : Op) (res : Int) (ht : (s.sys.thread t).pc = .returned op res)
      (hop : op ≠ .cd ∨ res ≠ OK) :
      cwdStep s (.leave t) { s with sys := s.sys.setThread t { s.sys.thread t with pc := .idle } }
  /-- `CreateKernelThread`. -/
  | create (s : CwdSys) (u : Nat) (hu : (s.sys.thread u).pc = .idle) :
      cwdStep s (.create u) { s with cwd := Function.update s.cwd u [] }
  /-- `CloneThread`. -/
  | clone (s : CwdSys) (t u : Nat) (hu : (s.sys.thread u).pc = .idle) :
      cwdStep s (.clone t u) { s with cwd := Function.update s.cwd u (s.cwd t) }
  /-- `Mount` and `Unmount` keep the tree of the mount points. -/
  | remount (s : CwdSys) (mounts : Mounts) (hT : Tree mounts) :
      cwdStep s (.remount mounts) { s with sys := { s.sys with mounts := mounts } }
  | refuse (s : CwdSys) (t : Nat) (op : Op) (res : Int) (sys : Lookup.Sys)
      (h : sysStep s.sys (.refuse t op res) sys) : cwdStep s (.other (.refuse t op res)) { s with sys := sys }
  | addRef (s : CwdSys) (i : Nat) (sys : Lookup.Sys) (h : sysStep s.sys (.addRef i) sys) :
      cwdStep s (.other (.addRef i)) { s with sys := sys }
  | close (s : CwdSys) (t i : Nat) (sys : Lookup.Sys) (h : sysStep s.sys (.close t i) sys) :
      cwdStep s (.other (.close t i)) { s with sys := sys }
  | write (s : CwdSys) (i pos : Nat) (buffer : UserBuffer) (bufferSize : Nat) (sys : Lookup.Sys)
      (h : sysStep s.sys (.write i pos buffer bufferSize) sys) :
      cwdStep s (.other (.write i pos buffer bufferSize)) { s with sys := sys }

/-- At boot every `cwd` is empty and no call is under way. -/
def cwdInit (s : CwdSys) : Prop :=
  Tree s.sys.mounts ∧ (∀ t, (s.sys.thread t).pc = .idle) ∧ (∀ t, s.cwd t = []) ∧ ∀ t, s.buffer t = []

/-! ## 2. The condition -/

/-- The target of the link that `CD` has come to, and the rest of its path. -/
def CwdSys.linkAhead (s : CwdSys) (t : Nat) : Option (List Char × List Char) :=
  match (s.sys.thread t).pc with
  | .arrived .cd _ mp _ id rest =>
      if (s.sys.node mp id).type = .symlink then some ((s.sys.node mp id).linkPath, rest) else none
  | _ => none

/-- A `CD` comes only to links with a canonical target; where more of its path follows, that is not the
    root. -/
def followsCanonical (s : CwdSys) : Event → Prop
  | .run t _ => ∀ linkPath rest, s.linkAhead t = some (linkPath, rest) →
      Canonical linkPath ∧ (rest ≠ [] → linkPath ≠ [])
  | _ => True

/-! ## 3. The paths of a call -/

/-- What `CD` has in its buffer and what is left to walk are canonical. -/
def PcCanonical : Pc → Prop
  | .find .cd path => Canonical path
  | .root .cd path _ rest => Canonical path ∧ Canonical rest
  | .walk .cd path _ _ rest => Canonical path ∧ Canonical rest
  | .search .cd path _ _ rest => Canonical path ∧ Canonical rest
  | .entry .cd path _ _ _ rest => Canonical path ∧ Canonical rest
  | .arrived .cd path _ _ _ rest => Canonical path ∧ Canonical rest
  | .relink .cd path _ => Canonical path
  | .done .cd path _ _ _ _ => Canonical path
  | _ => True

section Paths

variable {s : Lookup.Sys} {t : Nat} {g : Garbage} {path rest entry : List Char} {M : Mounts} {m : Nat}

theorem PcCanonical.buffer {pc : Pc} (h : PcCanonical pc) (hb : cdBuffer pc = some path) : Canonical path := by
  unfold cdBuffer at hb
  split at hb <;> cases hb
  · exact h
  · exact h.1
  · exact h.1
  · exact h.1
  · exact h.1
  · exact h.1
  · exact h
  · exact h

theorem pcCanonical_of_op {pc : Pc} (h : pc.op ≠ some .cd) : PcCanonical pc := by
  unfold PcCanonical
  split <;> first | exact absurd rfl h | trivial

/-- `PathWalk` takes the entry and the slash behind it. -/
theorem pathWalk_some (h : pathWalk path entry = some rest) :
    path = entry ∧ rest = [] ∨ path = entry ++ '/' :: rest := by
  induction entry generalizing path with
  | nil =>
      rcases path with _ | ⟨c, path⟩
      · cases h
        exact Or.inl ⟨rfl, rfl⟩
      · simp only [pathWalk] at h
        split_ifs at h with hc
        cases h
        exact Or.inr (by rw [hc]; rfl)
  | cons e entry ih =>
      rcases path with _ | ⟨c, path⟩
      · cases h
      · simp only [pathWalk] at h
        split_ifs at h with hc
        obtain rfl : e = c := not_not.mp hc
        rcases ih h with ⟨rfl, h0⟩ | rfl
        · exact Or.inl ⟨rfl, h0⟩
        · exact Or.inr rfl

theorem findEntry_canonical {dir : List DirectoryEntry} {id : Nat} (h : findEntry path dir = some (id, rest))
    (hp : Canonical path) : Canonical rest := by
  obtain ⟨e, -, -, hw⟩ := findEntry_spec h
  rcases pathWalk_some hw with ⟨-, rfl⟩ | rfl
  · exact canonical_nil
  · exact hp.split.2.1

theorem advance_canonical {count : Nat → Int} (hT : Tree M) (hf : findMountPoint M path = some (m, count))
    (hp : Canonical path) : Canonical (advancePath path (M.mp m).path) := by
  obtain ⟨r, hr, hl, -⟩ := find_spec hT path
  rw [hf] at hr
  cases hr
  rcases advance_spec hT hl.covers with ⟨-, h⟩ | h | ⟨-, h⟩
  · rw [h]
    exact canonical_nil
  · rw [h] at hp
    exact hp.split.2.1
  · rw [h]
    exact hp

theorem linkedPath_canonical {linkPath : List Char} (hl : Canonical linkPath) (hr : Canonical rest)
    (h0 : rest ≠ [] → linkPath ≠ []) : Canonical (linkedPath linkPath rest) := by
  unfold linkedPath
  split_ifs with h
  · exact hl
  · exact hl.join hr (h0 h) h

/-- **The step lemma of a call**: the paths stay canonical. -/
theorem planAt_pcCanonical (hT : Tree s.mounts) {pc : Pc} (h : PcCanonical pc)
    (hlink : ∀ path mp cur id rest, pc = .arrived .cd path mp cur id rest → (s.node mp id).type = .symlink →
      Canonical (s.node mp id).linkPath ∧ (rest ≠ [] → (s.node mp id).linkPath ≠ [])) :
    PcCanonical (s.planAt t g pc).2 := by
  by_cases hop : pc.op = some .cd
  swap
  · refine pcCanonical_of_op fun hc => ?_
    rcases planAt_op s t g pc with he | ⟨path, mp, id, -, he⟩
    · exact hop (he ▸ hc)
    · rw [he] at hc
      cases hc
  cases pc with
  | find op path =>
      cases hop
      show PcCanonical (s.planFind .cd path).2
      unfold Sys.planFind
      split
      · rename_i mp count hf
        exact ⟨h, advance_canonical hT hf h⟩
      · exact h
  | root op path mp rest =>
      cases hop
      show PcCanonical (s.planRoot .cd path mp rest)
      unfold Sys.planRoot
      split_ifs
      · exact h.1
      · exact h
  | walk op path mp cur rest =>
      cases hop
      show PcCanonical (s.planWalk t .cd path mp cur rest)
      unfold Sys.planWalk
      split_ifs
      · trivial
      · trivial
      · exact h
  | search op path mp cur rest =>
      cases hop
      show PcCanonical (s.locked mp cur (.search .cd path mp cur rest)
        (.none, s.planSearch .cd path mp cur rest)).2
      unfold Sys.locked
      split_ifs
      · exact h
      · show PcCanonical (s.planSearch .cd path mp cur rest)
        unfold Sys.planSearch
        split
        · rename_i id rest' hf
          exact ⟨h.1, findEntry_canonical hf h.2⟩
        · rw [if_pos (Or.inl (show Op.cd.fileHasToExist = true from rfl))]
          trivial
  | entry op path mp cur id rest =>
      cases hop
      exact h
  | arrived op path mp cur id rest =>
      cases hop
      show PcCanonical (s.planArrived .cd path mp cur id rest).2
      unfold Sys.planArrived
      split_ifs with h1 h2 h3 h4
      · exact h.1
      · trivial
      · obtain ⟨hl, h0⟩ := hlink path mp cur id rest rfl h2
        exact linkedPath_canonical hl h.2 h0
      · exact h.1
      · exact h
  | relink op path todo =>
      cases hop
      cases todo <;> exact h
  | done op path mp node parent rest =>
      cases hop
      show PcCanonical (s.planDone t .cd path mp node parent rest).2
      unfold Sys.planDone
      cases node with
      | some f => trivial
      | none => exact h
  | cleanup op todo after => cases todo <;> trivial
  | returned op res => trivial
  | idle => cases hop
  | make op mp parent name => cases op <;> trivial
  | insert op mp parent id name =>
      cases hop
      show PcCanonical (s.locked mp parent _ _).2
      unfold Sys.locked
      split_ifs <;> trivial
  | lookAt op mp id =>
      cases hop
      exact trivial
  | _ => cases hop

end Paths

/-! ## 4. The invariant -/

structure CwdInv (s : CwdSys) : Prop where
  tree : Tree s.sys.mounts
  cwd : ∀ t, Canonical (s.cwd t)
  buffer : ∀ t, Canonical (s.buffer t)
  pc : ∀ t, PcCanonical (s.sys.thread t).pc

section Inv

variable {s s' : CwdSys} {ev : Event}

/-- A function of the threads, changed at one. -/
theorem canonical_update {f : Nat → List Char} {t : Nat} {path : List Char} (h : ∀ t, Canonical (f t))
    (hp : Canonical path) (u : Nat) : Canonical (Function.update f t path u) := by
  rw [Function.update_apply]
  split_ifs
  · exact hp
  · exact h u

theorem CwdInv.setThread (hI : CwdInv s) {t : Nat} {th : Thread} (h : PcCanonical th.pc) (u : Nat) :
    PcCanonical ((s.sys.setThread t th).thread u).pc := by
  by_cases hu : u = t
  · subst hu
    rw [setThread_self]
    exact h
  · rw [setThread_other _ _ hu]
    exact hI.pc u

theorem CwdInv.run (hI : CwdInv s) {t : Nat} {g : Garbage} (hok : followsCanonical s (.run t g)) :
    CwdInv (s.run t g) := by
  have hpc : PcCanonical (s.sys.planAt t g (s.sys.thread t).pc).2 := by
    refine planAt_pcCanonical hI.tree (hI.pc t) fun path mp cur id rest hpc htype => ?_
    refine hok (s.sys.node mp id).linkPath rest ?_
    rw [CwdSys.linkAhead, hpc]
    exact if_pos htype
  have hself : ((s.sys.next t g).thread t).pc = (s.sys.planAt t g (s.sys.thread t).pc).2 := by
    rw [next_self]
    rfl
  refine ⟨next_tree s.sys t g hI.tree, hI.cwd, fun u => canonical_update hI.buffer ?_ u, fun u => ?_⟩
  · rw [hself]
    rcases hb : cdBuffer (s.sys.planAt t g (s.sys.thread t).pc).2 with _ | path
    · exact hI.buffer t
    · exact hpc.buffer hb
  · show PcCanonical ((s.sys.next t g).thread u).pc
    by_cases hu : u = t
    · subst hu
      rw [hself]
      exact hpc
    · rw [next_other s.sys g hu]
      exact hI.pc u

theorem cwdInv_step (hI : CwdInv s) (hs : Guarded cwdStep followsCanonical s ev s') : CwdInv s' := by
  obtain ⟨hs, hok⟩ := hs
  cases hs with
  | cd t userPath path ht hp =>
      have hpath := preparePath_canonical (hI.cwd t) hp
      exact ⟨hI.tree, hI.cwd, canonical_update hI.buffer hpath, hI.setThread hpath⟩
  | call t op path sys hop h =>
      cases h with
      | start t op path ht hon =>
          refine ⟨hI.tree, hI.cwd, hI.buffer, hI.setThread (pcCanonical_of_op ?_)⟩
          exact fun h => hop (Option.some.inj h)
  | run t g => exact hI.run hok
  | store t ht => exact ⟨hI.tree, canonical_update hI.cwd (hI.buffer t), hI.buffer, hI.setThread trivial⟩
  | leave t op res ht hop => exact ⟨hI.tree, hI.cwd, hI.buffer, hI.setThread trivial⟩
  | create u hu => exact ⟨hI.tree, canonical_update hI.cwd canonical_nil, hI.buffer, hI.pc⟩
  | clone t u hu => exact ⟨hI.tree, canonical_update hI.cwd (hI.cwd t), hI.buffer, hI.pc⟩
  | remount mounts hT => exact ⟨hT, hI.cwd, hI.buffer, hI.pc⟩
  | refuse t op res sys h =>
      cases h with
      | refuse t op res ht hon hres => exact ⟨hI.tree, hI.cwd, hI.buffer, hI.setThread trivial⟩
  | addRef i sys h =>
      cases h with
      | addRef i d hd => exact ⟨hI.tree, hI.cwd, hI.buffer, hI.pc⟩
  | close t i sys h =>
      cases h with
      | closeShared t i d ht hd hr => exact ⟨hI.tree, hI.cwd, hI.buffer, hI.pc⟩
      | closeLast t i d ht hd hr => exact ⟨hI.tree, hI.cwd, hI.buffer, hI.setThread trivial⟩
  | write i pos buffer bufferSize sys h =>
      cases h with
      | write i pos buffer bufferSize d hd hw htype => exact ⟨hI.tree, hI.cwd, hI.buffer, hI.pc⟩

theorem cwdInv_reach (h : Reach (Guarded cwdStep followsCanonical) cwdInit s) : CwdInv s := by
  refine Reach.inv (I := CwdInv) (fun s h0 => ?_) (fun _ _ _ hI hs => cwdInv_step hI hs) h
  obtain ⟨hT, hidle, hcwd, hbuffer⟩ := h0
  refine ⟨hT, fun t => ?_, fun t => ?_, fun t => ?_⟩
  · rw [hcwd t]
    exact canonical_nil
  · rw [hbuffer t]
    exact canonical_nil
  · rw [hidle t]
    trivial

end Inv

/-! ## 5. Whole runs -/

/-- **Every working directory is canonical**, and a relative path is prepared as the absolute path that
    names it, in every run in which `CD` comes only to links with canonical targets. -/
theorem cwd_canonical {s : CwdSys} (h : Reach (Guarded cwdStep followsCanonical) cwdInit s) (t : Nat) :
    Canonical (s.cwd t) ∧ ∀ path, isPathRelative path = true → (s.cwd t).length + path.length + 2 < 255 →
      ∀ cwd', preparePath (s.cwd t) (some path) = preparePath cwd' (some ('/' :: s.cwd t ++ '/' :: path)) := by
  have hcwd := (cwdInv_reach h).cwd t
  exact ⟨hcwd, fun path hrel hlen cwd' => preparePath_relative hcwd hrel hlen cwd'⟩

section Link

/-- A folder `a` and the link `l` to `/a`. -/
def linked : Lookup.Sys where
  mounts := initMounts
  rootNode := fun _ => 0
  node := fun _ id =>
    if id = 0 then ⟨.directory, 0, 1, [⟨['a'], 1⟩, ⟨['l'], 2⟩], [], ⟨0, fun _ => 0⟩, 0, 0, ⟨7, 7, 7, 0⟩⟩
    else if id = 1 then ⟨.directory, 0, 1, [], [], ⟨0, fun _ => 0⟩, 0, 0, ⟨7, 7, 7, 0⟩⟩
    else ⟨.symlink, 0, 1, [], ['/', 'a'], ⟨0, fun _ => 0⟩, 0, 0, ⟨7, 7, 7, 0⟩⟩
  cached := fun _ _ => true
  alive := fun _ id => id ≤ 2
  dirLock := fun _ _ => false
  nextID := fun _ => 3
  descs := []
  created := []
  thread := fun _ => ⟨0, 0, .idle, [], [], false, none⟩

def noGarbage : Garbage := ⟨[], linked.node 0 1⟩

def linkedCwd : CwdSys := ⟨linked, fun _ => [], fun _ => []⟩

theorem linkedCwd_init : cwdInit linkedCwd := ⟨tree_init, fun _ => rfl, fun _ => rfl, fun _ => rfl⟩

/-- `CD` begins. -/
def CwdSys.begin (s : CwdSys) (t : Nat) (path : List Char) : CwdSys :=
  { s with
    sys := s.sys.setThread t { s.sys.thread t with
      pc := .find .cd path
      changed := false }
    buffer := Function.update s.buffer t path }

/-- `n` steps of one thread. -/
def CwdSys.runs (s : CwdSys) (t : Nat) (g : Garbage) : Nat → CwdSys
  | 0 => s
  | n + 1 => (s.runs t g n).run t g

theorem cwdRuns_reach {ok : CwdSys → Event → Prop} {s : CwdSys} {t : Nat} {g : Garbage}
    (h : Reach (Guarded cwdStep ok) cwdInit s) (n : Nat) (hok : ∀ k < n, ok (s.runs t g k) (.run t g)) :
    Reach (Guarded cwdStep ok) cwdInit (s.runs t g n) := by
  induction n with
  | zero => exact h
  | succ n ih =>
      exact .next _ (.run t g) _ (ih fun k hk => hok k (Nat.lt_succ_of_lt hk))
        ⟨.run _ t g, hok n (Nat.lt_succ_self n)⟩

/-- **`CD("/l")` stores the target of the link as it stands**: the working directory is `/a`. -/
theorem cwd_through_link : ¬ ∀ s, Reach cwdStep cwdInit s → ∀ t, Canonical (s.cwd t) := by
  intro hall
  have h0 : Reach (Guarded cwdStep fun _ _ => True) cwdInit linkedCwd := .start _ linkedCwd_init
  have h1 : Reach (Guarded cwdStep fun _ _ => True) cwdInit (linkedCwd.begin 0 ['l']) :=
    .next _ _ _ h0 ⟨.cd _ 0 (some ['/', 'l']) ['l'] rfl (by decide), trivial⟩
  have h2 := cwdRuns_reach (t := 0) (g := noGarbage) h1 24 fun _ _ => trivial
  have h3 := Reach.next _ _ _ h2 ⟨.store _ 0 rfl, trivial⟩
  have h4 : Reach cwdStep cwdInit _ := h3.mono (fun _ h => h) fun _ _ _ hs => hs.1
  have hcwd := hall _ h4 0
  exact absurd (show Canonical ['/', 'a'] from hcwd) (by decide)

/-- `CD("/a")`, and the path `b` from there. -/
theorem cwd_canonical_folder : ∃ s, Reach (Guarded cwdStep followsCanonical) cwdInit s ∧ s.cwd 0 = ['a'] ∧
    Canonical (s.cwd 0) ∧ preparePath (s.cwd 0) (some ['b']) = preparePath [] (some ['/', 'a', '/', 'b']) := by
  have h0 : Reach (Guarded cwdStep followsCanonical) cwdInit linkedCwd := .start _ linkedCwd_init
  have h1 : Reach (Guarded cwdStep followsCanonical) cwdInit (linkedCwd.begin 0 ['a']) :=
    .next _ _ _ h0 ⟨.cd _ 0 (some ['/', 'a']) ['a'] rfl (by decide), trivial⟩
  have hno : ∀ k < 11, ((linkedCwd.begin 0 ['a']).runs 0 noGarbage k).linkAhead 0 = none := by decide
  have h2 := cwdRuns_reach (t := 0) (g := noGarbage) h1 11 fun k hk linkPath rest hl => by
    rw [hno k hk] at hl
    cases hl
  have h3 := Reach.next _ _ _ h2 ⟨.store _ 0 rfl, trivial⟩
  obtain ⟨hcwd, hrel⟩ := cwd_canonical h3 0
  exact ⟨_, h3, rfl, hcwd, hrel ['b'] rfl (by decide) []⟩

end Link

end WorkingDir

end SimpleOS2
