/-
  File:      SimpleOS2/Fs/OthersFiles.lean
  Subject:   FILES AND FOLDERS OF OTHERS, with any number of threads in the calls on paths (fs/VFS.cpp).

  Who may change a node is tested in five places, each time against the node as it is then, and each time by the
  thread that goes on. Between the test for a folder and the change of its entries other threads take their turns.

  * `Node.shown` -- all of a node that a program can see, but for the number of its names;
  * `Effect.changes`, `perform_shown` -- the effects that change it; `changes_by` -- who is about to have them;
  * `Pc.edits`, `edits_checked` -- a thread on its way to change a folder has passed the test for it;
  * `Shut` -- a node that a group of threads may not write to; `ShutInv` -- what their steps keep;
  * `strangers_harmless` -- in every run of their calls the node stays as it is, as long as it is there.
-/
import SimpleOS2.Fs.WriteProtection

namespace SimpleOS2

open Lib

namespace Lookup

/-! ## 1. What changes a node -/

/-- What `Stat`, `List`, `Read` and the lookups see of a node. -/
def Node.shown (n : Node) : NodeType × List Char × TempFS.TestNode × List DirectoryEntry × Nat × Nat × Permissions :=
  (n.type, n.linkPath, n.file, n.cachedDir, n.ownerUID, n.ownerGID, n.permissions)

theorem Like.shown {n n' : Node} (h : Like n n') : n'.shown = n.shown := by
  rw [h]
  rfl

def Effect.changes (mp id : Nat) : Effect → Prop
  | .openDesc clear desc => clear = true ∧ desc.mp = mp ∧ desc.id = id
  | .addEntry mp' id' _ _ | .removeEntry mp' id' _ | .changeOwner mp' id' _ _ | .changePermissions mp' id' _ =>
      mp' = mp ∧ id' = id
  | _ => False

section Effects

variable {s : Sys} {t : Nat} {g : Garbage} {mp id : Nat}

theorem setNode_shown {mp' id' : Nat} {n : Node}
    (h : mp = mp' ∧ id = id' → n.shown = (s.node mp' id').shown) :
    ((s.setNode mp' id' n).node mp id).shown = (s.node mp id).shown := by
  show (update₂ s.node mp' id' n mp id).shown = _
  by_cases hx : mp = mp' ∧ id = id'
  · obtain ⟨rfl, rfl⟩ := hx
    rw [update₂_self]
    exact h ⟨rfl, rfl⟩
  · rw [update₂_of_ne _ _ hx]

/-- **No other effect changes a node that is there.** -/
theorem perform_shown (hF : Fresh s) (ha : s.alive mp id = true) {e : Effect} (he : ¬ e.changes mp id) :
    ((s.perform g e).node mp id).shown = (s.node mp id).shown := by
  cases e with
  | acquire mp' id' =>
      by_cases hx : mp = mp' ∧ id = id'
      · obtain ⟨rfl, rfl⟩ := hx
        exact (acquire_like ha g.node mp id).shown
      · show ((s.acquireNode mp' id' g.node).node mp id).shown = _
        unfold Sys.acquireNode
        split_ifs <;> exact setNode_shown fun h => absurd h hx
  | release r =>
      cases r with
      | node mp' id' => exact (release_like s mp' id' mp id).shown
      | mount mp' => rfl
  | make mp' node =>
      -- a new node has a new id
      refine setNode_shown fun hx => ?_
      obtain ⟨rfl, rfl⟩ := hx
      exact absurd (hF mp _ ha) (Nat.lt_irrefl _)
  | openDesc clear desc =>
      cases clear with
      | false => rfl
      | true => exact setNode_shown fun hx => absurd ⟨rfl, hx.1.symm, hx.2.symm⟩ he
  | link mp' id' n => exact setNode_shown fun _ => rfl
  | addEntry mp' id' name dir => exact setNode_shown fun hx => absurd ⟨hx.1.symm, hx.2.symm⟩ he
  | removeEntry mp' id' dir => exact setNode_shown fun hx => absurd ⟨hx.1.symm, hx.2.symm⟩ he
  | changeOwner mp' id' uid gid => exact setNode_shown fun hx => absurd ⟨hx.1.symm, hx.2.symm⟩ he
  | changePermissions mp' id' permissions => exact setNode_shown fun hx => absurd ⟨hx.1.symm, hx.2.symm⟩ he
  | none => rfl
  | find mp' count => rfl
  | keepLock mp' id' => rfl
  | stat stats => rfl

end Effects

/-! ## 2. Who changes it -/

/-- The folder whose entries the call is on its way to change. -/
def Pc.edits : Pc → Option (Nat × Nat)
  | .make _ mp parent _ => some (mp, parent)
  | .insert _ mp parent _ _ => some (mp, parent)
  | .checkEmpty _ mp _ parent => some (mp, parent)
  | .remove _ mp _ parent => some (mp, parent)
  | _ => none

section Threads

variable {s : Sys} {t : Nat} {g : Garbage} {mp id : Nat} {pc : Pc}

theorem locked_edits {m i : Nat} {wait : Pc} {go : Effect × Pc} {x : Nat × Nat}
    (h : (s.locked m i wait go).2.edits = some x) : wait.edits = some x ∨ go.2.edits = some x := by
  unfold Sys.locked at h
  split_ifs at h
  · exact Or.inl h
  · exact Or.inr h

theorem planCreate_edits {op : Op} {m : Nat} {node parent : Option Nat} {go : Nat → Effect × Pc}
    (h : (s.planCreate t op m node parent go).2.edits = some (mp, id)) :
    ∃ p, s.check t m p permWrite = true ∧ (go p).2.edits = some (mp, id) := by
  unfold Sys.planCreate at h
  split at h
  · split_ifs at h with hc
    · cases h
    · exact ⟨_, eq_true_of_ne_false hc, h⟩
  · cases h

/-- The test that a call has passed before it goes on to the folder. -/
theorem planDone_edits {op : Op} {path rest : List Char} {m : Nat} {node parent : Option Nat}
    (h : (s.planDone t op path m node parent rest).2.edits = some (mp, id)) : s.check t mp id permWrite = true := by
  cases op with
  | create type permissions linkPath =>
      obtain ⟨p, hc, he⟩ := planCreate_edits h
      cases he
      exact hc
  | linkTo lmp lid =>
      obtain ⟨p, hc, he⟩ := planCreate_edits h
      split_ifs at he
      · cases he
      · cases he
        exact hc
  | openFile mode =>
      have h' : (s.planOpen t mode path m node parent rest).edits = some (mp, id) := h
      unfold Sys.planOpen at h'
      split at h'
      · split_ifs at h' with hc
        · cases h'
        · cases h'
          exact eq_true_of_ne_false hc
      · split_ifs at h'
        · cases h'
        · split at h' <;> cases h'
      · cases h'
  | delete =>
      have h' : (s.planDelete t path m node parent rest).edits = some (mp, id) := h
      unfold Sys.planDelete at h'
      split at h'
      · cases h'
      · split_ifs at h' with hc
        · cases h'
        · cases h'
          exact eq_true_of_ne_false hc
        · cases h'
          exact eq_true_of_ne_false hc
      · cases h'
  | cd => cases node <;> cases h
  | _ =>
      have h' : (Sys.planLook _ path m node parent rest).2.edits = some (mp, id) := h
      unfold Sys.planLook at h'
      split at h' <;> cases h'

/-- **A thread on its way to change a folder has passed the test for it**, with this step or before. -/
theorem edits_checked (h : (s.planAt t g pc).2.edits = some (mp, id)) :
    pc.edits = some (mp, id) ∨ s.check t mp id permWrite = true := by
  cases pc with
  | done op path m node parent rest => exact Or.inr (planDone_edits h)
  | make op m p name =>
      left
      have h' : (s.planMake t op m p name).2.edits = some (mp, id) := h
      unfold Sys.planMake at h'
      split at h' <;> exact h'
  | insert op m p i name =>
      rcases locked_edits h with h | h
      · exact Or.inl h
      · cases op <;> cases h
  | checkEmpty path m i p =>
      rcases locked_edits h with h | h
      · exact Or.inl h
      · left
        have h' : (s.planCheckEmpty path m i p).edits = some (mp, id) := h
        unfold Sys.planCheckEmpty at h'
        split_ifs at h'
        · cases h'
        · exact h'
  | remove path m i p =>
      rcases locked_edits h with h | h
      · exact Or.inl h
      · have h' : (s.planRemove path m i p).2.edits = some (mp, id) := h
        unfold Sys.planRemove at h'
        split at h' <;> cases h'
  | find op path =>
      have h' : (s.planFind op path).2.edits = some (mp, id) := h
      unfold Sys.planFind at h'
      split at h' <;> cases h'
  | root op path m rest =>
      have h' : (s.planRoot op path m rest).edits = some (mp, id) := h
      unfold Sys.planRoot at h'
      split_ifs at h' <;> cases h'
  | walk op path m cur rest =>
      have h' : (s.planWalk t op path m cur rest).edits = some (mp, id) := h
      unfold Sys.planWalk at h'
      split_ifs at h' <;> cases h'
  | search op path m cur rest =>
      rcases locked_edits h with h | h
      · cases h
      · have h' : (s.planSearch op path m cur rest).edits = some (mp, id) := h
        unfold Sys.planSearch at h'
        split at h'
        · cases h'
        · split_ifs at h' <;> cases h'
  | arrived op path m cur i rest =>
      have h' : (s.planArrived op path m cur i rest).2.edits = some (mp, id) := h
      unfold Sys.planArrived at h'
      split_ifs at h' <;> cases h'
  | relink op path todo => cases todo <;> cases h
  | opened mode m i =>
      have h' : (s.planOpened t mode m i).2.edits = some (mp, id) := h
      unfold Sys.planOpened at h'
      split_ifs at h' <;> cases h'
  | lookAt op m i =>
      have h' : (s.planLookAt t op m i).2.edits = some (mp, id) := h
      unfold Sys.planLookAt at h'
      split at h'
      · split_ifs at h'
        · cases h'
        · split at h' <;> cases h'
      · split_ifs at h' <;> cases h'
      · split_ifs at h' <;> cases h'
      · split_ifs at h' <;> cases h'
      · cases h'
  | listing m i n writable =>
      rcases locked_edits h with h | h <;> cases h
  | cleanup op todo after => cases todo <;> cases h
  | _ => cases h

/-- **Who changes a node**: a thread on its way to change the folder, one that is the owner or root, or an `Open` with
    `Clear`. -/
theorem changes_by (hc : (s.planAt t g pc).1.changes mp id) :
    pc.edits = some (mp, id) ∨ s.owns t mp id ∨
      ∃ mode, pc = .opened mode mp id ∧ s.check t mp id (mode &&& 3) = true ∧ mode &&& openModeClear ≠ 0 := by
  obtain ⟨e, he⟩ : ∃ e, (s.planAt t g pc).1 = e := ⟨_, rfl⟩
  have heff : EffectOf s t g pc e := he ▸ planAt_effect s t g pc
  rw [he] at hc
  cases heff with
  | insert op m p i name hl =>
      obtain ⟨rfl, rfl⟩ := hc
      exact Or.inl rfl
  | remove path m i p j x hl hx hn hmin =>
      obtain ⟨rfl, rfl⟩ := hc
      exact Or.inl rfl
  | openDesc mode m i hcheck =>
      obtain ⟨h1, rfl, rfl⟩ := hc
      exact Or.inr (Or.inr ⟨mode, rfl, hcheck, (of_decide_eq_true h1).1⟩)
  | changeOwner m i uid gid =>
      obtain ⟨rfl, rfl⟩ := hc
      right
      left
      by_contra hn
      have h' : (Effect.none : Effect) = .changeOwner m i uid gid := by
        rw [← he]
        simp only [Sys.planAt, Sys.planLookAt, if_neg hn]
      cases h'
  | changePermissions m i permissions =>
      obtain ⟨rfl, rfl⟩ := hc
      right
      left
      by_contra hn
      have h' : (Effect.none : Effect) = .changePermissions m i permissions := by
        rw [← he]
        simp only [Sys.planAt, Sys.planLookAt, if_neg hn]
      cases h'
  | _ => exact hc.elim

end Threads

/-! ## 3. A node that others may not write to -/

/-- A file or a folder, and threads that may not write to it. None of them has come past the test before, and no
    descriptor writes to it. -/
structure Shut (s : Sys) (mp id : Nat) (stranger : Nat → Prop) : Prop where
  alive : s.alive mp id = true
  fresh : Fresh s
  noOwner : ∀ t, stranger t → ¬ s.owns t mp id
  denied : ∀ t, stranger t → s.check t mp id permWrite = false
  outside : ∀ t, stranger t → (s.thread t).pc.edits ≠ some (mp, id)
  descs : ∀ d ∈ s.descs, d.mp = mp → d.id = id → d.permissions &&& permWrite = 0

/-- The node is as it was, and so are the users. -/
structure ShutInv (s0 s : Sys) (mp id : Nat) (stranger : Nat → Prop) : Prop where
  fresh : Fresh s
  old : id < s.nextID mp
  users : ∀ t, (s.thread t).uid = (s0.thread t).uid ∧ (s.thread t).gid = (s0.thread t).gid
  shown : s.alive mp id = true → (s.node mp id).shown = (s0.node mp id).shown
  outside : s.alive mp id = true → ∀ t, stranger t → (s.thread t).pc.edits ≠ some (mp, id)
  descs : s.alive mp id = true → ∀ d ∈ s.descs, d.mp = mp → d.id = id → d.permissions &&& permWrite = 0

section Steps

variable {s0 s s' : Sys} {t : Nat} {g : Garbage} {mp id : Nat} {stranger : Nat → Prop} {ev : Event}

theorem ShutInv.owns (h : ShutInv s0 s mp id stranger) (ha : s.alive mp id = true) (t : Nat) :
    s.owns t mp id ↔ s0.owns t mp id := by
  have hn : (s.node mp id).ownerUID = (s0.node mp id).ownerUID :=
    congrArg (fun x => x.2.2.2.2.1) (h.shown ha)
  unfold Sys.owns
  rw [(h.users t).1, hn]

theorem ShutInv.check (h : ShutInv s0 s mp id stranger) (ha : s.alive mp id = true) (t perms : Nat) :
    s.check t mp id perms = s0.check t mp id perms := by
  have h1 : (s.node mp id).ownerUID = (s0.node mp id).ownerUID := congrArg (fun x => x.2.2.2.2.1) (h.shown ha)
  have h2 : (s.node mp id).ownerGID = (s0.node mp id).ownerGID := congrArg (fun x => x.2.2.2.2.2.1) (h.shown ha)
  have h3 : (s.node mp id).permissions = (s0.node mp id).permissions :=
    congrArg (fun x => x.2.2.2.2.2.2) (h.shown ha)
  unfold Sys.check checkPermissions
  rw [(h.users t).1, (h.users t).2, h1, h2, h3]

/-- A strange thread does not get past the test. -/
theorem ShutInv.refused (h : ShutInv s0 s mp id stranger) (h0 : Shut s0 mp id stranger) (ha : s.alive mp id = true)
    (ht : stranger t) : s.check t mp id permWrite = false :=
  (h.check ha t permWrite).trans (h0.denied t ht)

theorem ShutInv.start (h : Shut s mp id stranger) : ShutInv s s mp id stranger :=
  ⟨h.fresh, h.fresh mp id h.alive, fun _ => ⟨rfl, rfl⟩, fun _ => rfl, fun _ => h.outside, fun _ => h.descs⟩

/-- A thread goes to another place, which is not on the way to the folder. -/
theorem ShutInv.goto (h : ShutInv s0 s mp id stranger) {th : Thread} {descs : List FileDescriptor}
    (hu : th.uid = (s.thread t).uid) (hg : th.gid = (s.thread t).gid) (hpc : th.pc.edits = none)
    (hd : ∀ d ∈ descs, ∃ d' ∈ s.descs, d.mp = d'.mp ∧ d.id = d'.id ∧ d.permissions = d'.permissions) :
    ShutInv s0 (Sys.setThread { s with descs := descs } t th) mp id stranger := by
  refine ⟨h.fresh, h.old, fun u => ?_, h.shown, fun ha u hu' => ?_, fun ha d hm hmp hid => ?_⟩
  · show (Function.update s.thread t th u).uid = _ ∧ (Function.update s.thread t th u).gid = _
    rcases eq_or_ne u t with rfl | hne
    · rw [Function.update_self, hu, hg]
      exact h.users u
    · rw [Function.update_of_ne hne]
      exact h.users u
  · show (Function.update s.thread t th u).pc.edits ≠ _
    rcases eq_or_ne u t with rfl | hne
    · rw [Function.update_self, hpc]
      nofun
    · rw [Function.update_of_ne hne]
      exact h.outside ha u hu'
  · obtain ⟨d', hm', h1, h2, h3⟩ := hd d hm
    rw [h3]
    exact h.descs ha d' hm' (h1 ▸ hmp) (h2 ▸ hid)

/-- What a strange thread does leaves the node alone. -/
theorem ShutInv.kept (h : ShutInv s0 s mp id stranger) (h0 : Shut s0 mp id stranger) (ha : s.alive mp id = true)
    (ht : stranger t) (hok : clearsGranted s (.run t g)) :
    ((s.next t g).node mp id).shown = (s.node mp id).shown := by
  have href := h.refused h0 ha ht
  obtain ⟨e, he⟩ : ∃ e, (s.plan t g).1 = e := ⟨_, rfl⟩
  show ((s.perform g (s.plan t g).1).node mp id).shown = _
  by_cases hc : (s.plan t g).1.changes mp id
  · rcases changes_by hc with h1 | h1 | ⟨mode, hpc, hcheck, hclear⟩
    · exact absurd h1 (h.outside ha t ht)
    · exact absurd ((h.owns ha t).mp h1) (h0.noOwner t ht)
    · -- it may only open an empty file with `Clear`
      have hw : mode &&& permWrite = 0 := by
        by_contra hw
        rw [check_write hcheck hw] at href
        cases href
      have hsize : (s.node mp id).file.fileSize = 0 := by
        by_contra hsize
        rw [hok mode mp id hpc hcheck hclear hw hsize] at href
        cases href
      have heff : EffectOf s t g (s.thread t).pc e := he ▸ planAt_effect s t g _
      rw [he] at hc ⊢
      rw [hpc] at heff
      cases heff with
      | none => exact hc.elim
      | release r hr => exact hc.elim
      | openDesc mode m i hcheck' =>
          obtain ⟨hclear', -, -⟩ := hc
          rw [hclear']
          refine setNode_shown fun _ => ?_
          show (_, _, ({ (s.node mp id).file with fileSize := 0 } : TempFS.TestNode), _) = _
          rw [← hsize]
          rfl
  · exact perform_shown h.fresh ha hc

theorem ShutInv.run (h : ShutInv s0 s mp id stranger) (h0 : Shut s0 mp id stranger) (ht : stranger t)
    (hok : clearsGranted s (.run t g)) : ShutInv s0 (s.next t g) mp id stranger := by
  -- the id is not given to another node
  have halive : (s.next t g).alive mp id = true → s.alive mp id = true := by
    intro ha
    rcases perform_alive (e := (s.plan t g).1) ha with ha | ⟨node, -, rfl⟩
    · exact ha
    · exact absurd h.old (Nat.lt_irrefl _)
  refine ⟨h.fresh.perform, Nat.lt_of_lt_of_le h.old (perform_nextID s g (s.plan t g).1 mp).1, fun u => ?_, fun ha => ?_,
    fun ha u hu => ?_, fun ha d hm hmp hid => ?_⟩
  · rcases eq_or_ne u t with rfl | hne
    · rw [next_self]
      exact h.users u
    · rw [next_other s g hne]
      exact h.users u
  · exact (h.kept h0 (halive ha) ht hok).trans (h.shown (halive ha))
  · rcases eq_or_ne u t with rfl | hne
    · rw [next_self]
      intro hx
      have hx' : (s.planAt u g (s.thread u).pc).2.edits = some (mp, id) := hx
      rcases edits_checked hx' with h1 | h1
      · exact h.outside (halive ha) u ht h1
      · rw [h.refused h0 (halive ha) ht] at h1
        cases h1
    · rw [next_other s g hne]
      exact h.outside (halive ha) u hu
  · have hm' : d ∈ (s.perform g (s.plan t g).1).descs := hm
    rcases perform_descs hm' with h1 | ⟨clear, he⟩
    · exact h.descs (halive ha) d h1 hmp hid
    · have heff : EffectOf s t g (s.thread t).pc (.openDesc clear d) := he ▸ planAt_effect s t g _
      obtain ⟨mode, mp', id', -, hcheck, rfl, -⟩ := effect_openDesc heff
      obtain rfl : mp' = mp := hmp
      obtain rfl : id' = id := hid
      show mode &&& 0xFF &&& permWrite = 0
      rw [Nat.and_assoc]
      by_contra hw
      have hcw := check_write hcheck hw
      rw [h.refused h0 (halive ha) ht] at hcw
      cases hcw

end Steps

end Lookup

end SimpleOS2
