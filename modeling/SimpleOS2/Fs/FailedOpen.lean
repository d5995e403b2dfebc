/-
  File:      SimpleOS2/Fs/FailedOpen.lean
  Subject:   AN `Open` THAT FAILS (fs/VFS.cpp), while no other thread moves.

  Where the path leads to no file, `Open` makes one and gives it the permissions of the folder. Only then
  does it test whether its caller may open the file it has made.

  * `Unchanged` -- the directory tree, the files and the reference counts of two states are the same;
  * `Creates` -- `Open` makes a file, by what `AcquirePath` returns; `MayOpen` -- its owner may open it;
  * `OpenInv`, `openInv_next` -- what is so at each place in the call;
  * `failed_open` -- an `Open` that fails changes nothing exactly where it makes no file that its owner may
    not open;
  * `failed_open_leaves_file` -- in a folder whose owner may write but not read, it leaves an empty file.
-/
import SimpleOS2.Fs.LoneWalk

namespace SimpleOS2

open Lib

namespace SymLinks

open VFS Lookup

/-! ## 1. The call -/

/-- `Open` with the path that `PreparePath` has returned, or its error. -/
def openCall (s : Lookup.Sys) (t mode : Nat) : Except Int (List Char) → Lookup.Sys
  | .ok path => s.begin t (.openFile mode) path
  | .error res => s.setThread t { s.thread t with
      pc := .returned (.openFile mode) res
      changed := false }

/-- The same directory tree, the same files, the same reference counts. -/
structure Unchanged (s s' : Lookup.Sys) : Prop where
  root : s'.rootNode = s.rootNode
  alive : s'.alive = s.alive
  /-- Entries, link counts, owners, permissions and contents. -/
  node : ∀ mp id, s.alive mp id = true → Like (s.node mp id) (s'.node mp id)
  refs : ∀ mp id, s'.refs mp id = s.refs mp id
  mounts : s'.mounts = s.mounts
  descs : s'.descs = s.descs

/-- What `AcquirePath` returns to `Open`. -/
def Acquires (s : Lookup.Sys) (t mode : Nat) (path : List Char) (r : Except Int Found) : Prop :=
  Halts (fun n => acquirePath s (request s t (.openFile mode)) n path) r

/-- `Open` makes the file `name` in the folder `p`. -/
def Creates (s : Lookup.Sys) (t mode : Nat) (path : List Char) (mp p : Nat) (name : List Char) : Prop :=
  Acquires s t mode path (.ok ⟨mp, none, some p, name⟩) ∧ s.check t mp p permWrite = true

/-- The owner of a new file in the folder may open it. -/
def MayOpen (s : Lookup.Sys) (t mode mp p : Nat) : Prop :=
  (s.thread t).uid = 0 ∨
    (s.node mp p).permissions.ownerPermissions &&& 0xFB &&& (mode &&& 3) = mode &&& 3

/-- The path leads to a file, or the caller may not make one, or he may open what he makes. -/
def OpensOwn (s : Lookup.Sys) (t mode : Nat) (path : List Char) : Prop :=
  ∀ mp p name, Creates s t mode path mp p name → MayOpen s t mode mp p

/-! ## 2. The new file -/

/-- `Open` has made the file `id` in the folder `p`. -/
structure Made (s0 s : Lookup.Sys) (t mode : Nat) (path : List Char) (mp id p : Nat) : Prop where
  creates : ∃ name, Creates s0 t mode path mp p name
  new : id = s0.nextID mp
  folder : p ≠ id
  alive : s.alive mp id = true
  node : ∃ n, s0.newNode t mp p (.openFile mode) = some n ∧ Like n (s.node mp id)
  uid : (s.thread t).uid = (s0.thread t).uid
  gid : (s.thread t).gid = (s0.thread t).gid

/-- The file that was made is in the tree, and its owner may not open it. -/
def Spoiled (s0 s : Lookup.Sys) (t mode : Nat) (path : List Char) : Prop :=
  ∃ mp p name, Creates s0 t mode path mp p name ∧ ¬ MayOpen s0 t mode mp p ∧ Good s mp (s0.nextID mp)

/-- Nothing has been made, and nothing was to be made. -/
def Spared (s0 s : Lookup.Sys) (t mode : Nat) (path : List Char) (l : List Ref) : Prop :=
  Still s0 s t l ∧ ∀ mp p name, ¬ Creates s0 t mode path mp p name

/-- **The invariant**, by where the thread stands. -/
def OpenInv (s0 : Lookup.Sys) (t mode : Nat) (path0 : List Char) (s : Lookup.Sys) : Pc → Prop
  | .make op mp p name =>
      op = .openFile mode ∧ Still s0 s t [.node mp p, .mount mp] ∧ Creates s0 t mode path0 mp p name
  | .insert op mp p id _ => op = .openFile mode ∧ Made s0 s t mode path0 mp id p
  | .leaveFolder mode' mp id p =>
      mode' = mode ∧ (Spared s0 s t mode path0 [.node mp p, .node mp id, .mount mp] ∨
        Made s0 s t mode path0 mp id p)
  | .opened mode' mp id =>
      mode' = mode ∧ (Spared s0 s t mode path0 [.node mp id, .mount mp] ∨
        ∃ p, Made s0 s t mode path0 mp id p)
  | .cleanup op todo (.ret res) =>
      op = .openFile mode ∧ res ≠ OK ∧ (Spared s0 s t mode path0 todo ∨ Spoiled s0 s t mode path0)
  | .returned op res =>
      op = .openFile mode ∧ (res ≠ OK → Spared s0 s t mode path0 [] ∨ Spoiled s0 s t mode path0)
  | pc =>
      Still s0 s t pc.owed ∧ Finds s0 (request s0 t (.openFile mode)) (.openFile mode) (Acquires s0 t mode path0) pc

/-! ## 3. The steps -/

section Steps

variable {s0 s : Lookup.Sys} {t mode mp id p : Nat} {g : Garbage} {path0 path rest name : List Char} {l : List Ref}

theorem newNode_static (hst : Static s0 s t) (hg : Good s0 mp p) :
    s.newNode t mp p (.openFile mode) = s0.newNode t mp p (.openFile mode) := by
  obtain ⟨hl, -⟩ := hst.node mp p hg
  unfold Sys.newNode
  rw [hl, hst.uid, hst.gid]

/-- The test of `Open` on the file it has made. -/
theorem Made.check (h : Made s0 s t mode path0 mp id p) :
    s.check t mp id (mode &&& 3) = true ↔ MayOpen s0 t mode mp p := by
  obtain ⟨n, hn, hl⟩ := h.node
  rw [Sys.check, h.uid, h.gid, hl]
  cases hn
  unfold checkPermissions MayOpen
  simp

theorem Made.type (h : Made s0 s t mode path0 mp id p) : (s.node mp id).type = .file := by
  obtain ⟨n, hn, hl⟩ := h.node
  rw [hl]
  cases hn
  rfl

theorem Made.good (h : Made s0 s t mode path0 mp id p) : Good s mp id := by
  obtain ⟨n, hn, hl⟩ := h.node
  refine ⟨h.alive, ?_⟩
  rw [hl]
  cases hn
  exact le_rfl

/-- A step that leaves the new file as it is. -/
theorem Made.next (h : Made s0 s t mode path0 mp id p)
    (ha : (s.perform g (s.plan t g).1).alive mp id = true)
    (hl : Like (s.node mp id) ((s.perform g (s.plan t g).1).node mp id)) :
    Made s0 (s.next t g) t mode path0 mp id p := by
  obtain ⟨n, hn, hl'⟩ := h.node
  refine ⟨h.creates, h.new, h.folder, ha, ⟨n, hn, hl'.trans hl⟩, ?_, ?_⟩
  · rw [next_self]
    exact h.uid
  · rw [next_self]
    exact h.gid

theorem Spoiled.next (h : Spoiled s0 s t mode path0) (he : (s.plan t g).1.keepsLinks) :
    Spoiled s0 (s.next t g) t mode path0 := by
  obtain ⟨mp, p, name, hc, hm, hg⟩ := h
  exact ⟨mp, p, name, hc, hm, hg.perform he⟩

theorem Made.spoiled (h : Made s0 s t mode path0 mp id p) (hm : ¬ MayOpen s0 t mode mp p) :
    Spoiled s0 s t mode path0 := by
  obtain ⟨name, hc⟩ := h.creates
  exact ⟨mp, p, name, hc, hm, h.new ▸ h.good⟩

/-- Where the walk has come to something else, nothing is to be made. -/
theorem spared_of (hst : Still s0 s t l) {r : Except Int Found} (hP : ∀ r', Acquires s0 t mode path0 r' ↔ r' = r)
    (hr : ∀ mp p name, r = .ok ⟨mp, none, some p, name⟩ → s0.check t mp p permWrite = false) :
    Spared s0 s t mode path0 l := by
  refine ⟨hst, fun mp p name hc => ?_⟩
  have hfalse := hr mp p name ((hP _).mp hc.1).symm
  rw [hc.2] at hfalse
  cases hfalse

theorem openInv_of_finds {pc : Pc} (hst : Still s0 s t pc.owed)
    (h : Finds s0 (request s0 t (.openFile mode)) (.openFile mode) (Acquires s0 t mode path0) pc) :
    OpenInv s0 t mode path0 s pc := by
  cases pc with
  | cleanup op todo after =>
      cases after with
      | ret res =>
          obtain ⟨rfl, hres, hP⟩ := h
          exact ⟨rfl, hres, Or.inl (spared_of hst hP fun mp p name hr => by cases hr)⟩
      | cd mp id type => exact absurd h not_false
  | make op mp p name => exact absurd h not_false
  | insert op mp p id name => exact absurd h not_false
  | leaveFolder mode mp id p => exact absurd h not_false
  | opened mode mp id => exact absurd h not_false
  | returned op res => exact absurd h not_false
  | _ => exact ⟨hst, h⟩

theorem done_openInv {op : Op} {node parent : Option Nat}
    (hpc : (s.thread t).pc = .done op path mp node parent rest)
    (h : OpenInv s0 t mode path0 s (.done op path mp node parent rest)) :
    OpenInv s0 t mode path0 (s.next t g) (s.planAt t g (.done op path mp node parent rest)).2 := by
  obtain ⟨hst, rfl, hP⟩ := h
  have hnext : Still s0 (s.next t g) t (s.planOpen t mode path mp node parent rest).owed :=
    still_step hpc hst trivial not_false fun mp count hf => by cases hf
  show OpenInv s0 t mode path0 (s.next t g) (s.planOpen t mode path mp node parent rest)
  cases node with
  | none =>
      cases parent with
      | none => exact ⟨hnext, rfl, hP⟩
      | some p =>
          have hg : Good s0 mp p := (hst.held mp p List.mem_cons_self).1
          unfold Sys.planOpen at hnext ⊢
          dsimp only at hnext ⊢
          rw [hst.static.check hg] at hnext ⊢
          split_ifs at hnext ⊢ with hw
          · refine ⟨rfl, by decide, Or.inl (spared_of hnext hP fun mp' p' name' hr => ?_)⟩
            cases hr
            exact hw
          · exact ⟨rfl, hnext, (hP _).mpr rfl, eq_true_of_ne_false hw⟩
  | some f =>
      have hspared : ∀ {l}, Still s0 (s.next t g) t l → Spared s0 (s.next t g) t mode path0 l := fun hl =>
        spared_of hl hP fun mp' p' name' hr => by cases hr
      unfold Sys.planOpen at hnext ⊢
      dsimp only at hnext ⊢
      split_ifs at hnext ⊢ with hfail
      · exact ⟨rfl, by decide, Or.inl (hspared hnext)⟩
      · cases parent with
        | none => exact ⟨rfl, Or.inl (hspared hnext)⟩
        | some p => exact ⟨rfl, Or.inl (hspared hnext)⟩

theorem make_openInv {op : Op} (hF : Fresh s0) (hpc : (s.thread t).pc = .make op mp p name)
    (h : OpenInv s0 t mode path0 s (.make op mp p name)) :
    OpenInv s0 t mode path0 (s.next t g) (s.planAt t g (.make op mp p name)).2 := by
  obtain ⟨rfl, hst, hc⟩ := h
  have hg : Good s0 mp p := (hst.held mp p List.mem_cons_self).1
  have hplan : s.plan t g = s.planMake t (.openFile mode) mp p name := by
    rw [Sys.plan, hpc]
    rfl
  obtain ⟨n, hn⟩ : ∃ n, s0.newNode t mp p (.openFile mode) = some n := ⟨_, rfl⟩
  have hmake : s.planMake t (.openFile mode) mp p name =
      (.make mp n, .insert (.openFile mode) mp p (s.nextID mp) name) := by
    rw [Sys.planMake, newNode_static hst.static hg, hn]
  show OpenInv s0 t mode path0 (s.next t g) (s.planMake t (.openFile mode) mp p name).2
  rw [hmake] at hplan ⊢
  refine ⟨rfl, ⟨name, hc⟩, by rw [hst.nextID], ?_, ?_, ⟨n, hn, ?_⟩, ?_, ?_⟩
  · -- the ids of nodes are below the next one
    have hlt := hF mp p hg.1
    rw [hst.nextID]
    omega
  · show (s.perform g (s.plan t g).1).alive mp (s.nextID mp) = true
    rw [hplan]
    exact update₂_self _ _ _ _
  · have hnode : (s.next t g).node mp (s.nextID mp) = n := by
      show (s.perform g (s.plan t g).1).node mp (s.nextID mp) = n
      rw [hplan]
      exact update₂_self _ _ _ _
    rw [hnode]
    exact Like.refl n
  · rw [next_self]
    exact hst.static.uid
  · rw [next_self]
    exact hst.static.gid

theorem insert_openInv {op : Op} (hpc : (s.thread t).pc = .insert op mp p id name)
    (h : OpenInv s0 t mode path0 s (.insert op mp p id name)) :
    OpenInv s0 t mode path0 (s.next t g) (s.planAt t g (.insert op mp p id name)).2 := by
  obtain ⟨rfl, hm⟩ := h
  have hplan : s.plan t g = s.planAt t g (.insert (.openFile mode) mp p id name) := by rw [Sys.plan, hpc]
  have hne : ¬ (mp = mp ∧ id = p) := fun hx => hm.folder hx.2.symm
  have hmade : Made s0 (s.next t g) t mode path0 mp id p := by
    refine hm.next ?_ ?_
    · rw [hplan]
      simp only [Sys.planAt, Sys.locked]
      split_ifs <;> exact hm.alive
    · rw [hplan]
      simp only [Sys.planAt, Sys.locked]
      split_ifs
      · exact Like.refl _
      · show Like (s.node mp id) (update₂ s.node mp p _ mp id)
        rw [update₂_of_ne _ _ hne]
        exact Like.refl _
  simp only [Sys.planAt, Sys.locked]
  split_ifs
  · exact ⟨rfl, hmade⟩
  · exact ⟨rfl, Or.inr hmade⟩

/-- The release of the folder leaves the file as it is. -/
theorem release_made (hm : Made s0 s t mode path0 mp id p) (hplan : (s.plan t g).1 = .release (.node mp p)) :
    Made s0 (s.next t g) t mode path0 mp id p := by
  refine hm.next ?_ ?_
  · rw [hplan]
    exact (hm.good.release mp p).1
  · rw [hplan]
    exact release_like s mp p mp id

theorem leaveFolder_openInv {mode' : Nat} (hpc : (s.thread t).pc = .leaveFolder mode' mp id p)
    (h : OpenInv s0 t mode path0 s (.leaveFolder mode' mp id p)) :
    OpenInv s0 t mode path0 (s.next t g) (s.planAt t g (.leaveFolder mode' mp id p)).2 := by
  obtain ⟨rfl, hs | hm⟩ := h
  · have hg : Good s0 mp p := (hs.1.held mp p List.mem_cons_self).1
    have hnext : Still s0 (s.next t g) t [.node mp id, .mount mp] :=
      still_step hpc hs.1 hg not_false fun mp count hf => by cases hf
    exact ⟨rfl, Or.inl ⟨hnext, hs.2⟩⟩
  · refine ⟨rfl, Or.inr ⟨p, release_made hm ?_⟩⟩
    rw [Sys.plan, hpc]
    rfl

theorem opened_openInv {mode' : Nat} (hpc : (s.thread t).pc = .opened mode' mp id)
    (h : OpenInv s0 t mode path0 s (.opened mode' mp id)) :
    OpenInv s0 t mode path0 (s.next t g) (s.planAt t g (.opened mode' mp id)).2 := by
  obtain ⟨rfl, hs⟩ := h
  have hplan : s.plan t g = s.planOpened t mode' mp id := by
    rw [Sys.plan, hpc]
    rfl
  show OpenInv s0 t mode' path0 (s.next t g) (s.planOpened t mode' mp id).2
  have hgive : ∀ res, res ≠ OK → s.planOpened t mode' mp id = (.none, Sys.giveBack (.openFile mode') mp id res) →
      Spared s0 s t mode' path0 [.node mp id, .mount mp] →
      Spared s0 (s.next t g) t mode' path0 [.node mp id, .mount mp] := by
    intro res hres hp hspared
    refine ⟨hspared.1.next ?_ ?_ ?_, hspared.2⟩
    · rw [hplan, hp]
      trivial
    · rw [hplan, hp]
      exact List.Perm.refl _
    · rw [hplan, hp]
      exact fun mp count hf => by cases hf
  rcases hs with hs | ⟨p, hm⟩
  · unfold Sys.planOpened at hgive ⊢
    split_ifs at hgive ⊢
    · exact ⟨rfl, by decide, Or.inl (hgive _ (by decide) rfl hs)⟩
    · exact ⟨rfl, by decide, Or.inl (hgive _ (by decide) rfl hs)⟩
    · exact ⟨rfl, fun hres => absurd rfl hres⟩
  · by_cases hmay : MayOpen s0 t mode' mp p
    · have hp : (s.planOpened t mode' mp id).2 = .returned (.openFile mode') OK := by
        unfold Sys.planOpened
        rw [hm.check.mpr hmay, hm.type]
        rfl
      rw [hp]
      exact ⟨rfl, fun hres => absurd rfl hres⟩
    · have hp : s.planOpened t mode' mp id = (.none, Sys.giveBack (.openFile mode') mp id ErrorPermissionDenied) := by
        unfold Sys.planOpened
        rw [eq_false_of_ne_true fun hc => hmay (hm.check.mp hc)]
        rfl
      rw [hp] at hplan ⊢
      refine ⟨rfl, by decide, Or.inr ((hm.spoiled hmay).next ?_)⟩
      rw [hplan]
      trivial

theorem cleanup_openInv {op : Op} {todo : List Ref} {res : Int} (hpc : (s.thread t).pc = .cleanup op todo (.ret res))
    (h : OpenInv s0 t mode path0 s (.cleanup op todo (.ret res))) :
    OpenInv s0 t mode path0 (s.next t g) (s.planAt t g (.cleanup op todo (.ret res))).2 := by
  obtain ⟨rfl, hres, hs⟩ := h
  have hplan : s.plan t g = s.planAt t g (.cleanup (.openFile mode) todo (.ret res)) := by rw [Sys.plan, hpc]
  have hspoiled : Spoiled s0 s t mode path0 → Spoiled s0 (s.next t g) t mode path0 := fun hs => by
    refine hs.next ?_
    rw [hplan]
    cases todo <;> trivial
  have hspared : Spared s0 s t mode path0 todo → Spared s0 (s.next t g) t mode path0
      (s.planAt t g (.cleanup (.openFile mode) todo (.ret res))).2.owed := fun hs => by
    refine ⟨still_step hpc hs.1 ?_ not_false fun mp count hf => ?_, hs.2⟩
    · cases todo with
      | nil => trivial
      | cons r todo =>
          cases r with
          | node mp id => exact (hs.1.held mp id List.mem_cons_self).1
          | mount mp => trivial
    · cases todo <;> cases hf
  cases todo with
  | nil => exact ⟨rfl, fun _ => hs.imp hspared hspoiled⟩
  | cons r todo => exact ⟨rfl, hres, hs.imp hspared hspoiled⟩

theorem returned_openInv {op : Op} {res : Int} (hpc : (s.thread t).pc = .returned op res)
    (h : OpenInv s0 t mode path0 s (.returned op res)) :
    OpenInv s0 t mode path0 (s.next t g) (s.planAt t g (.returned op res)).2 := by
  obtain ⟨rfl, hs⟩ := h
  refine ⟨rfl, fun hres => ?_⟩
  rcases hs hres with hs | hs
  · left
    exact ⟨still_step hpc hs.1 trivial not_false (fun mp count hf => by cases hf), hs.2⟩
  · right
    refine hs.next ?_
    rw [Sys.plan, hpc]
    trivial

/-- **The step.** -/
theorem openInv_next (hS : Sound s0) (hF : Fresh s0) (hT : Tree s0.mounts) {pc : Pc} (hpc : (s.thread t).pc = pc)
    (h : OpenInv s0 t mode path0 s pc) : OpenInv s0 t mode path0 (s.next t g) (s.planAt t g pc).2 := by
  have hwalk : Walks pc → Still s0 s t pc.owed →
      Finds s0 (request s0 t (.openFile mode)) (.openFile mode) (Acquires s0 t mode path0) pc →
      OpenInv s0 t mode path0 (s.next t g) (s.planAt t g pc).2 := fun hw hst hfinds => by
    obtain ⟨hfinds', hst'⟩ := finds_next hS hT hpc hw hst hfinds
    exact openInv_of_finds hst' hfinds'
  cases pc with
  | find op path => exact hwalk trivial h.1 h.2
  | root op path mp rest => exact hwalk trivial h.1 h.2
  | walk op path mp cur rest => exact hwalk trivial h.1 h.2
  | search op path mp cur rest => exact hwalk trivial h.1 h.2
  | entry op path mp cur id rest => exact hwalk trivial h.1 h.2
  | arrived op path mp cur id rest => exact hwalk trivial h.1 h.2
  | relink op path todo => exact hwalk trivial h.1 h.2
  | done op path mp node parent rest => exact done_openInv hpc h
  | make op mp p name => exact make_openInv hF hpc h
  | insert op mp p id name => exact insert_openInv hpc h
  | leaveFolder mode' mp id p => exact leaveFolder_openInv hpc h
  | opened mode' mp id => exact opened_openInv hpc h
  | cleanup op todo after =>
      cases after with
      | ret res => exact cleanup_openInv hpc h
      | cd mp id type => exact absurd h.2 not_false
  | returned op res => exact returned_openInv hpc h
  | _ => exact absurd h.2 not_false

theorem still_begin (s0 : Lookup.Sys) (t : Nat) (op : Op) (path : List Char) : Still s0 (s0.begin t op path) t [] where
  static := by
    refine ⟨rfl, rfl, ?_, ?_, fun mp id hg => ⟨Like.refl _, hg.1⟩⟩
    · rw [Sys.begin, setThread_self]
    · rw [Sys.begin, setThread_self]
  held := fun mp id hm => by cases hm
  alive := rfl
  node := fun mp id _ => Like.refl _
  refs := fun mp id => (add_zero _).symm
  mounts := by
    rw [mountCounts_nil]
    rfl
  nextID := rfl
  descs := rfl

theorem openInv_runs (hS : Sound s0) (hF : Fresh s0) (hT : Tree s0.mounts) (n : Nat) :
    OpenInv s0 t mode path0 ((s0.begin t (.openFile mode) path0).runs t g n)
      (((s0.begin t (.openFile mode) path0).runs t g n).thread t).pc := by
  induction n with
  | zero =>
      have hth : ((s0.begin t (.openFile mode) path0).thread t).pc = .find (.openFile mode) path0 := by
        rw [Sys.begin, setThread_self]
      show OpenInv s0 t mode path0 (s0.begin t (.openFile mode) path0) ((s0.begin t (.openFile mode) path0).thread t).pc
      rw [hth]
      exact ⟨still_begin s0 t _ path0, rfl, fun r => Iff.rfl⟩
  | succ n ih =>
      show OpenInv s0 t mode path0 (Sys.next _ t g) ((Sys.next _ t g).thread t).pc
      rw [next_self]
      exact openInv_next hS hF hT rfl ih

end Steps

/-! ## 4. Results -/

/-- A call that has returned stays where it is, and nothing moves. -/
theorem returned_runs {s : Lookup.Sys} {t : Nat} {op : Op} {res : Int} (hpc : (s.thread t).pc = .returned op res)
    (g : Garbage) (n : Nat) : s.runs t g n = s := by
  have hnext : s.next t g = s := by
    have hplan : s.plan t g = (.none, .returned op res) := by
      rw [Sys.plan, hpc]
      rfl
    unfold Sys.next
    rw [hplan]
    have hafter : (s.thread t).after s .none (.returned op res) = s.thread t := by
      rw [← hpc]
      rfl
    rw [hafter]
    show { s with thread := Function.update s.thread t (s.thread t) } = s
    rw [Function.update_eq_self]
  induction n with
  | zero => rfl
  | succ n ih =>
      show (s.runs t g n).next t g = s
      rw [ih, hnext]

/-- **An `Open` that fails** leaves the directory tree, the files and the reference counts as they were,
    exactly where it makes no file that its owner may not open. -/
theorem failed_open {s : Lookup.Sys} (hS : Sound s) (hF : Fresh s) (hT : Tree s.mounts) {t mode : Nat}
    (prepared : Except Int (List Char)) {g : Garbage} {n : Nat} {res : Int}
    (hret : (((openCall s t mode prepared).runs t g n).thread t).pc = .returned (.openFile mode) res)
    (hres : res ≠ OK) :
    Unchanged s ((openCall s t mode prepared).runs t g n) ↔
      ∀ path, prepared = .ok path → OpensOwn s t mode path := by
  cases prepared with
  | error e =>
      have hpc : ((openCall s t mode (.error e)).thread t).pc = .returned (.openFile mode) e := by
        rw [openCall, setThread_self]
      rw [returned_runs hpc]
      refine iff_of_true ⟨rfl, rfl, fun mp id _ => Like.refl _, fun mp id => rfl, rfl, rfl⟩ fun path hp => ?_
      cases hp
  | ok path =>
      have hinv : OpenInv s t mode path ((openCall s t mode (.ok path)).runs t g n)
          (((openCall s t mode (.ok path)).runs t g n).thread t).pc := openInv_runs hS hF hT n
      rw [hret] at hinv
      rcases hinv.2 hres with ⟨hst, hnone⟩ | ⟨mp, p, name, hc, hmay, hg⟩
      · have hun : Unchanged s ((openCall s t mode (.ok path)).runs t g n) := by
          refine ⟨hst.static.root, hst.alive, hst.node, fun mp id => ?_, ?_, hst.descs⟩
          · rw [hst.refs]
            exact add_zero _
          · rw [hst.mounts, mountCounts_nil]
            rfl
        exact iff_of_true hun fun path' hp mp p name hc => by
          cases hp
          exact absurd hc (hnone mp p name)
      · refine iff_of_false (fun hun => ?_) fun hown => hmay (hown path rfl mp p name hc)
        -- the id of the new file denoted nothing
        have halive := hg.1
        rw [hun.alive] at halive
        have hlt := hF mp _ halive
        omega

section Dropbox

/-- The folder `d` of user 1, who may write into it and pass through it, but not read it. -/
def dropbox : Lookup.Sys where
  mounts := initMounts
  rootNode := fun _ => 0
  node := fun _ id =>
    if id = 0 then ⟨.directory, 0, 1, [⟨['d'], 1⟩], [], ⟨0, fun _ => 0⟩, 0, 0, ⟨7, 5, 5, 0⟩⟩
    else ⟨.directory, 0, 1, [], [], ⟨0, fun _ => 0⟩, 1, 1, ⟨6, 0, 0, 0⟩⟩
  cached := fun _ _ => false
  alive := fun _ id => id ≤ 1
  dirLock := fun _ _ => false
  nextID := fun _ => 2
  descs := []
  created := []
  thread := fun _ => ⟨1, 1, .idle, [], [], false, none⟩

theorem dropbox_good {mp id : Nat} (h : id ≤ 1) : Good dropbox mp id := by
  refine ⟨decide_eq_true h, ?_⟩
  show (1 : Int) ≤ (if id = 0 then _ else _ : Node).linkCount
  split_ifs <;> exact le_rfl

theorem dropbox_sound : Sound dropbox where
  root := fun _ => dropbox_good (Nat.zero_le 1)
  entries := fun _ id _ e he => by
    have he' : e ∈ (if id = 0 then _ else _ : Node).cachedDir := he
    split_ifs at he'
    · rw [List.mem_singleton.mp he']
      exact dropbox_good le_rfl
    · cases he'

theorem dropbox_fresh : Fresh dropbox := fun _ _ h => Nat.lt_succ_of_le (of_decide_eq_true h)

/-- `Open` of `d` with `Create` and `Write`: it is a folder. -/
theorem failed_open_folder :
    Unchanged dropbox ((openCall dropbox 1 0x102 (.ok ['d'])).runs 1 noGarbage 12) := by
  have hret : (((openCall dropbox 1 0x102 (.ok ['d'])).runs 1 noGarbage 12).thread 1).pc =
      .returned (.openFile 0x102) ErrorOpenFolder := rfl
  refine (failed_open dropbox_sound dropbox_fresh tree_init (.ok ['d']) hret (by decide)).mpr ?_
  intro path _ mp p name _
  -- whoever may write to a folder here may write to the files he makes in it
  right
  show (if p = 0 then _ else _ : Node).permissions.ownerPermissions &&& 0xFB &&& (0x102 &&& 3) = 0x102 &&& 3
  split_ifs <;> decide

/-- `Open` of `d/x` with `Create` and `Read`. -/
def openX : Lookup.Sys := openCall dropbox 1 0x101 (.ok ['d', '/', 'x'])

/-- **The file that stays**: `Open` makes `x` and then refuses to open it. -/
theorem failed_open_leaves_file : ¬ ∀ (s : Lookup.Sys) (t mode : Nat) (prepared : Except Int (List Char)) (g : Garbage)
    (n : Nat) (res : Int), Sound s → Fresh s → Tree s.mounts →
    (((openCall s t mode prepared).runs t g n).thread t).pc = .returned (.openFile mode) res → res ≠ OK →
    Unchanged s ((openCall s t mode prepared).runs t g n) := by
  intro h
  have hret : ((openX.runs 1 noGarbage 16).thread 1).pc = .returned (.openFile 0x101) ErrorPermissionDenied := rfl
  have hun := h dropbox 1 0x101 (.ok ['d', '/', 'x']) noGarbage 16 ErrorPermissionDenied dropbox_sound dropbox_fresh
    tree_init hret (by decide)
  have hentry : ((openX.runs 1 noGarbage 16).node 0 1).cachedDir = [⟨['x'], 2⟩] := rfl
  have hdir := (hun.node 0 1 rfl).dir
  have hempty : (dropbox.node 0 1).cachedDir = [] := rfl
  have hsame : ((openX.runs 1 noGarbage 16).node 0 1).cachedDir = (dropbox.node 0 1).cachedDir := hdir
  rw [hentry, hempty] at hsame
  cases hsame

end Dropbox

end SymLinks

end SimpleOS2
