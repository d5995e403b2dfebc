/-
  File:      SimpleOS2/Fs/References.lean
  Subject:   WHAT A CALL ON A PATH HOLDS, from its first step to its return.

  A call takes references step by step and gives them back on some thirty ways out. Where a thread stands
  says exactly what it has taken and not given back.

  * `Pc.owed` -- the references of a thread by where it stands;
  * `Pays` -- an effect leads from one list of references to another; `plan_pays` -- every step does so,
    but the one in `Delete` that finds no entry;
  * `Balanced` -- a thread holds what it owes, and `lost`; `balanced_next` -- the step.
-/
import Mathlib.Data.List.Perm.Basic
import SimpleOS2.Fs.AcquirePath

namespace SimpleOS2

open Lib

namespace Lookup

/-! ## 1. What a thread owes -/

/-- The references that the thread has to give back. -/
def Pc.owed : Pc → List Ref
  | .idle => []
  | .find op _ => op.kept
  | .root op _ mp _ => .mount mp :: op.kept
  | .walk op _ mp cur _ => .node mp cur :: .mount mp :: op.kept
  | .search op _ mp cur _ => .node mp cur :: .mount mp :: op.kept
  | .entry op _ mp cur _ _ => .node mp cur :: .mount mp :: op.kept
  | .arrived op _ mp cur id _ => .node mp id :: .node mp cur :: .mount mp :: op.kept
  | .relink op _ todo => todo ++ op.kept
  | .done op _ mp node parent _ =>
      node.toList.map (.node mp) ++ (parent.toList.map (.node mp) ++ .mount mp :: op.kept)
  | .make op mp parent _ => .node mp parent :: .mount mp :: op.kept
  | .insert (.linkTo lmp lid) mp parent _ _ => [.node mp parent, .mount mp, .node lmp lid, .mount lmp]
  | .insert _ mp parent id _ => [.node mp parent, .node mp id, .mount mp]
  | .leaveFolder _ mp id parent => [.node mp parent, .node mp id, .mount mp]
  | .opened _ mp id => [.node mp id, .mount mp]
  | .lookAt op mp id => .node mp id :: .mount mp :: op.kept
  | .listing mp id _ _ => [.node mp id, .mount mp]
  | .checkEmpty _ mp id parent => [.node mp id, .node mp parent, .mount mp]
  | .remove _ mp id parent => [.node mp id, .node mp parent, .mount mp]
  | .unlink mp id parent => [.node mp id, .node mp parent, .mount mp]
  | .cleanup _ todo _ => todo
  | .returned _ _ => []

/-- The effect leads a thread with the references `l` to one with the references `l'`. -/
def Pays (s : Sys) (l l' : List Ref) : Effect → Prop
  | .find mp _ => l'.Perm (.mount mp :: l)
  | .acquire mp id => l'.Perm (.node mp id :: l)
  | .release r => l.Perm (r :: l')
  | .make mp _ => l'.Perm (.node mp (s.nextID mp) :: l)
  | .openDesc _ desc => l.Perm (.node desc.mp desc.id :: .mount desc.mp :: l')
  | .keepLock _ _ => False
  | _ => l'.Perm l

section Owed

variable {s : Sys} {t : Nat} {g : Garbage} {l l' held lost : List Ref} {e : Effect}

theorem perm_erase {r : Ref} (h : held.Perm (r :: l)) : (held.erase r).Perm l := by
  have h1 := h.erase r
  rwa [List.erase_cons_head] at h1

theorem Pays.perm (h : Pays s l l' e) (hh : held.Perm (l ++ lost)) :
    (e.held s held).Perm (l' ++ lost) := by
  cases e with
  | find mp count => exact (hh.cons _).trans (List.Perm.append_right lost (List.Perm.symm h))
  | acquire mp id => exact (hh.cons _).trans (List.Perm.append_right lost (List.Perm.symm h))
  | make mp node => exact (hh.cons _).trans (List.Perm.append_right lost (List.Perm.symm h))
  | release r => exact perm_erase (hh.trans (List.Perm.append_right lost h))
  | openDesc clear desc =>
      exact perm_erase (perm_erase (hh.trans (List.Perm.append_right lost h)))
  | keepLock mp id => exact absurd h not_false
  | none => exact hh.trans (List.Perm.append_right lost (List.Perm.symm h))
  | link mp id n => exact hh.trans (List.Perm.append_right lost (List.Perm.symm h))
  | addEntry mp id name dir => exact hh.trans (List.Perm.append_right lost (List.Perm.symm h))
  | removeEntry mp id dir => exact hh.trans (List.Perm.append_right lost (List.Perm.symm h))
  | stat stats => exact hh.trans (List.Perm.append_right lost (List.Perm.symm h))
  | changeOwner mp id uid gid => exact hh.trans (List.Perm.append_right lost (List.Perm.symm h))
  | changePermissions mp id permissions =>
      exact hh.trans (List.Perm.append_right lost (List.Perm.symm h))

/-! ## 2. The steps -/

theorem planWalk_owed (s : Sys) (t : Nat) (op : Op) (path : List Char) (mp cur : Nat) (rest : List Char) :
    (s.planWalk t op path mp cur rest).owed = .node mp cur :: .mount mp :: op.kept := by
  unfold Sys.planWalk
  split_ifs <;> rfl

theorem planSearch_owed (s : Sys) (op : Op) (path : List Char) (mp cur : Nat) (rest : List Char) :
    (s.planSearch op path mp cur rest).owed = .node mp cur :: .mount mp :: op.kept := by
  unfold Sys.planSearch
  split
  · rfl
  · split_ifs <;> rfl

theorem planArrived_pays (s : Sys) (op : Op) (path : List Char) (mp cur id : Nat) (rest : List Char) :
    Pays s (.node mp id :: .node mp cur :: .mount mp :: op.kept)
      (s.planArrived op path mp cur id rest).2.owed (s.planArrived op path mp cur id rest).1 := by
  unfold Sys.planArrived
  split_ifs
  · exact List.Perm.refl _
  · exact List.Perm.refl _
  · exact List.Perm.refl _
  · exact List.Perm.refl _
  · exact List.Perm.swap _ _ _

theorem planCreate_pays (s : Sys) (t : Nat) (op : Op) (mp : Nat) (node parent : Option Nat)
    (go : Nat → Effect × Pc)
    (hgo : ∀ p, Pays s (.node mp p :: .mount mp :: op.kept) (go p).2.owed (go p).1) :
    Pays s (node.toList.map (.node mp) ++ (parent.toList.map (.node mp) ++ .mount mp :: op.kept))
      (s.planCreate t op mp node parent go).2.owed (s.planCreate t op mp node parent go).1 := by
  unfold Sys.planCreate
  split
  · split_ifs
    · exact List.perm_append_comm
    · exact hgo _
  · refine List.perm_iff_count.mpr fun r => ?_
    simp only [Pc.owed, List.count_append, List.count_cons, List.count_nil]
    omega

theorem planOpen_owed (s : Sys) (t mode : Nat) (path : List Char) (mp : Nat) (node parent : Option Nat)
    (rest : List Char) :
    (s.planOpen t mode path mp node parent rest).owed.Perm
      (node.toList.map (.node mp) ++ (parent.toList.map (.node mp) ++ [.mount mp])) := by
  unfold Sys.planOpen
  split
  · split_ifs <;> exact List.Perm.refl _
  · split_ifs
    · refine List.perm_iff_count.mpr fun r => ?_
      simp only [Pc.owed, List.count_append, List.count_cons, List.count_nil]
      simp only [Option.toList_some, List.map_cons, List.map_nil, List.count_cons, List.count_nil]
      omega
    · split
      · exact List.Perm.swap _ _ _
      · exact List.Perm.refl _
  · exact List.Perm.refl _

theorem planDelete_owed (s : Sys) (t : Nat) (path : List Char) (mp : Nat) (node parent : Option Nat)
    (rest : List Char) :
    (s.planDelete t path mp node parent rest).owed.Perm
      (node.toList.map (.node mp) ++ (parent.toList.map (.node mp) ++ [.mount mp])) := by
  unfold Sys.planDelete
  split
  · exact List.Perm.refl _
  · split_ifs
    · exact List.Perm.swap _ _ _
    · exact List.Perm.refl _
    · exact List.Perm.refl _
  · exact List.Perm.refl _

theorem planLook_pays (s : Sys) (op : Op) (path : List Char) (mp : Nat) (node parent : Option Nat)
    (rest : List Char) :
    Pays s (node.toList.map (.node mp) ++ (parent.toList.map (.node mp) ++ .mount mp :: op.kept))
      (Sys.planLook op path mp node parent rest).2.owed (Sys.planLook op path mp node parent rest).1 := by
  cases node with
  | none => exact List.Perm.refl _
  | some f =>
      cases parent with
      | none => exact List.Perm.refl _
      | some p => exact List.Perm.swap _ _ _

theorem planDone_pays (s : Sys) (t : Nat) (op : Op) (path : List Char) (mp : Nat)
    (node parent : Option Nat) (rest : List Char) :
    Pays s (node.toList.map (.node mp) ++ (parent.toList.map (.node mp) ++ .mount mp :: op.kept))
      (s.planDone t op path mp node parent rest).2.owed (s.planDone t op path mp node parent rest).1 := by
  cases op with
  | create type permissions linkPath => exact planCreate_pays s t _ mp node parent _ fun p => List.Perm.refl _
  | linkTo lmp lid =>
      refine planCreate_pays s t _ mp node parent _ fun p => ?_
      split_ifs
      · exact List.perm_append_comm
      · exact List.Perm.refl _
  | openFile mode => exact planOpen_owed s t mode path mp node parent rest
  | delete => exact planDelete_owed s t path mp node parent rest
  | cd =>
      cases node with
      | none => exact List.Perm.refl _
      | some f => exact List.Perm.refl _
  | hardLink path' => exact planLook_pays s (.hardLink path') path mp node parent rest
  | stat followSymlink => exact planLook_pays s (.stat followSymlink) path mp node parent rest
  | list n writable => exact planLook_pays s (.list n writable) path mp node parent rest
  | changeOwner uid gid => exact planLook_pays s (.changeOwner uid gid) path mp node parent rest
  | changePermissions p => exact planLook_pays s (.changePermissions p) path mp node parent rest
  | close => exact planLook_pays s .close path mp node parent rest

theorem planOpened_pays (s : Sys) (t mode mp id : Nat) :
    Pays s [.node mp id, .mount mp] (s.planOpened t mode mp id).2.owed (s.planOpened t mode mp id).1 := by
  unfold Sys.planOpened
  split_ifs <;> exact List.Perm.refl _

theorem planLookAt_pays (s : Sys) (t : Nat) (op : Op) (mp id : Nat) :
    Pays s (.node mp id :: .mount mp :: op.kept) (s.planLookAt t op mp id).2.owed
      (s.planLookAt t op mp id).1 := by
  unfold Sys.planLookAt
  split
  · split_ifs
    · exact List.Perm.refl _
    · split <;> exact List.Perm.refl _
  · split_ifs <;> exact List.Perm.refl _
  · split_ifs <;> exact List.Perm.refl _
  · split_ifs <;> exact List.Perm.refl _
  · exact List.Perm.refl _

theorem afterInsert_owed (op : Op) (path : List Char) (mp parent id : Nat) :
    (Sys.afterInsert mp parent id op).owed = (Pc.insert op mp parent id path).owed := by
  cases op <;> rfl

/-- No entry has the name that `Delete` looks for. -/
def Missing (s : Sys) : Pc → Prop
  | .remove path mp _ parent =>
      s.dirLock mp parent = false ∧ ∀ e ∈ (s.node mp parent).cachedDir, getFileName path ≠ e.name
  | _ => False

theorem locked_pays {mp id : Nat} {wait : Pc} {go : Effect × Pc} (hw : wait.owed = l)
    (hgo : s.dirLock mp id = false → Pays s l go.2.owed go.1) :
    Pays s l (s.locked mp id wait go).2.owed (s.locked mp id wait go).1 := by
  unfold Sys.locked
  split_ifs with h
  · exact List.Perm.of_eq hw
  · exact hgo (eq_false_of_ne_true h)

theorem planRemove_cases (s : Sys) (path : List Char) (mp id parent : Nat) :
    (∃ i e, (s.node mp parent).cachedDir[i]? = some e ∧ getFileName path = e.name ∧
      (∀ j e', j < i → (s.node mp parent).cachedDir[j]? = some e' → getFileName path ≠ e'.name) ∧
      s.planRemove path mp id parent =
        (.removeEntry mp parent ((s.node mp parent).cachedDir.eraseIdx i), .unlink mp id parent)) ∨
    ((∀ e ∈ (s.node mp parent).cachedDir, getFileName path ≠ e.name) ∧
      s.planRemove path mp id parent = (.keepLock mp parent, .returned .delete ErrorFileNotFound)) := by
  unfold Sys.planRemove
  cases hi : (s.node mp parent).cachedDir.findIdx? fun e => getFileName path = e.name with
  | some i =>
      obtain ⟨hlt, hp, hmin⟩ := List.findIdx?_eq_some_iff_getElem.mp hi
      refine Or.inl ⟨i, _, List.getElem?_eq_getElem hlt, by simpa using hp, ?_, rfl⟩
      intro j e' hj he' hne
      obtain ⟨hjl, rfl⟩ := List.getElem?_eq_some_iff.mp he'
      exact hmin j hj (by simpa using hne)
  | none =>
      refine Or.inr ⟨fun e he hne => ?_, rfl⟩
      have := List.findIdx?_eq_none_iff.mp hi e he
      simp [hne] at this

theorem planFind_pays (s : Sys) (op : Op) (path : List Char) :
    Pays s op.kept (s.planFind op path).2.owed (s.planFind op path).1 := by
  unfold Sys.planFind
  split <;> exact List.Perm.refl _

theorem planRoot_owed (s : Sys) (op : Op) (path : List Char) (mp : Nat) (rest : List Char) :
    (s.planRoot op path mp rest).owed = .node mp (s.rootNode mp) :: .mount mp :: op.kept := by
  unfold Sys.planRoot
  split_ifs <;> rfl

theorem planMake_pays (s : Sys) (t : Nat) (op : Op) (mp parent : Nat) (name : List Char) :
    Pays s (.node mp parent :: .mount mp :: op.kept) (s.planMake t op mp parent name).2.owed
      (s.planMake t op mp parent name).1 := by
  cases op with
  | create type permissions linkPath => exact List.Perm.swap _ _ _
  | openFile mode => exact List.Perm.swap _ _ _
  | _ => exact List.Perm.refl _

theorem planCheckEmpty_owed (s : Sys) (path : List Char) (mp id parent : Nat) :
    (s.planCheckEmpty path mp id parent).owed = [.node mp id, .node mp parent, .mount mp] := by
  unfold Sys.planCheckEmpty
  split_ifs <;> rfl

/-- **Every step pays**, but the one that misses its entry. -/
theorem planAt_pays (s : Sys) (t : Nat) (g : Garbage) (pc : Pc) (hm : ¬ Missing s pc) :
    Pays s pc.owed (s.planAt t g pc).2.owed (s.planAt t g pc).1 := by
  cases pc with
  | idle => exact List.Perm.refl _
  | find op path => exact planFind_pays s op path
  | root op path mp rest => exact List.Perm.of_eq (planRoot_owed s op path mp rest)
  | walk op path mp cur rest => exact List.Perm.of_eq (planWalk_owed s t op path mp cur rest)
  | search op path mp cur rest =>
      exact locked_pays rfl fun _ => List.Perm.of_eq (planSearch_owed s op path mp cur rest)
  | entry op path mp cur id rest => exact List.Perm.refl _
  | arrived op path mp cur id rest => exact planArrived_pays s op path mp cur id rest
  | relink op path todo => cases todo <;> exact List.Perm.refl _
  | done op path mp node parent rest => exact planDone_pays s t op path mp node parent rest
  | make op mp parent name => exact planMake_pays s t op mp parent name
  | insert op mp parent id name =>
      exact locked_pays rfl fun _ => List.Perm.of_eq (afterInsert_owed op name mp parent id)
  | leaveFolder mode mp id parent => exact List.Perm.refl _
  | opened mode mp id => exact planOpened_pays s t mode mp id
  | lookAt op mp id => exact planLookAt_pays s t op mp id
  | listing mp id n writable => exact locked_pays rfl fun _ => List.Perm.refl _
  | checkEmpty path mp id parent =>
      exact locked_pays rfl fun _ => List.Perm.of_eq (planCheckEmpty_owed s path mp id parent)
  | remove path mp id parent =>
      refine locked_pays rfl fun hl => ?_
      obtain ⟨i, e, -, -, -, h⟩ | ⟨hall, -⟩ := planRemove_cases s path mp id parent
      · rw [h]
        exact List.Perm.refl _
      · exact absurd ⟨hl, hall⟩ hm
  | unlink mp id parent => exact List.Perm.refl _
  | cleanup op todo after => cases todo <;> exact List.Perm.refl _
  | returned op res => exact List.Perm.refl _

/-- The step that misses its entry: the thread returns and keeps everything. -/
theorem planAt_missing {pc : Pc} (t : Nat) (g : Garbage) (hm : Missing s pc) :
    ∃ mp parent, s.planAt t g pc = (.keepLock mp parent, .returned .delete ErrorFileNotFound) := by
  cases pc with
  | remove path mp id parent =>
      refine ⟨mp, parent, ?_⟩
      obtain ⟨hl, hall⟩ := hm
      obtain ⟨i, e, he, hn, -, -⟩ | ⟨-, h⟩ := planRemove_cases s path mp id parent
      · exact absurd hn (hall e (List.mem_of_getElem? he))
      · show s.locked mp parent _ (s.planRemove path mp id parent) = _
        rw [Sys.locked, hl, h]
        rfl
  | _ => exact absurd hm not_false

/-- **The effects of the steps**: what a thread that stands there can do to the rest. -/
inductive EffectOf (s : Sys) (t : Nat) (g : Garbage) : Pc → Effect → Prop where
  | none (pc : Pc) : EffectOf s t g pc .none
  | find (op : Op) (path : List Char) (mp : Nat) (count : Nat → Int) :
      EffectOf s t g (.find op path) (.find mp count)
  | root (op : Op) (path : List Char) (mp : Nat) (rest : List Char) :
      EffectOf s t g (.root op path mp rest) (.acquire mp (s.rootNode mp))
  | entry (op : Op) (path : List Char) (mp cur id : Nat) (rest : List Char) :
      EffectOf s t g (.entry op path mp cur id rest) (.acquire mp id)
  | release (pc : Pc) (r : Ref) (hr : r ∈ pc.owed) : EffectOf s t g pc (.release r)
  /-- `CreateHardLink` counts the entry it is going to insert. -/
  | link (mp id p : Nat) (path rest : List Char) :
      EffectOf s t g (.done (.linkTo mp id) path mp none (some p) rest) (.link mp id 1)
  | make (op : Op) (mp p : Nat) (name : List Char) (node : Node) (hn : s.newNode t mp p op = some node) :
      EffectOf s t g (.make op mp p name) (.make mp node)
  | insert (op : Op) (mp p id : Nat) (name : List Char) (hl : s.dirLock mp p = false) :
      EffectOf s t g (.insert op mp p id name)
        (.addEntry mp p name (Sys.insertEntry (s.node mp p).cachedDir name id g.dir))
  | openDesc (mode mp id : Nat) (hc : s.check t mp id (mode &&& 3) = true) :
      EffectOf s t g (.opened mode mp id)
        (.openDesc (mode &&& openModeClear ≠ 0 ∧ (s.node mp id).type = .file)
          ⟨mp, id, mode &&& 0xFF, 1, s.check t mp id permWrite⟩)
  | stat (op : Op) (mp id : Nat) :
      EffectOf s t g (.lookAt op mp id)
        (.stat ⟨(s.node mp id).ownerUID, (s.node mp id).ownerGID, (s.node mp id).permissions⟩)
  | changeOwner (mp id uid gid : Nat) :
      EffectOf s t g (.lookAt (.changeOwner uid gid) mp id) (.changeOwner mp id uid gid)
  | changePermissions (mp id : Nat) (permissions : Permissions) :
      EffectOf s t g (.lookAt (.changePermissions permissions) mp id) (.changePermissions mp id permissions)
  | remove (path : List Char) (mp id p i : Nat) (e : DirectoryEntry) (hl : s.dirLock mp p = false)
      (he : (s.node mp p).cachedDir[i]? = some e) (hn : getFileName path = e.name)
      (hmin : ∀ j e', j < i → (s.node mp p).cachedDir[j]? = some e' → getFileName path ≠ e'.name) :
      EffectOf s t g (.remove path mp id p) (.removeEntry mp p ((s.node mp p).cachedDir.eraseIdx i))
  | missing (path : List Char) (mp id p : Nat) (hm : Missing s (.remove path mp id p)) :
      EffectOf s t g (.remove path mp id p) (.keepLock mp p)
  | unlink (mp id p : Nat) : EffectOf s t g (.unlink mp id p) (.link mp id (-1))

theorem locked_effect {mp id : Nat} {wait pc : Pc} {go : Effect × Pc}
    (h : s.dirLock mp id = false → EffectOf s t g pc go.1) : EffectOf s t g pc (s.locked mp id wait go).1 := by
  unfold Sys.locked
  split_ifs with hl
  · exact .none pc
  · exact h (eq_false_of_ne_true hl)

theorem planCreate_effect {op : Op} {mp : Nat} {node parent : Option Nat} {pc : Pc} {go : Nat → Effect × Pc}
    (hgo : ∀ p, parent = some p → node = none → EffectOf s t g pc (go p).1) :
    EffectOf s t g pc (s.planCreate t op mp node parent go).1 := by
  unfold Sys.planCreate
  split
  · split_ifs
    · exact .none pc
    · exact hgo _ rfl rfl
  · exact .none pc

theorem planLook_effect {op op' : Op} {path rest : List Char} {mp : Nat} {node parent : Option Nat} :
    EffectOf s t g (.done op' path mp node parent rest) (Sys.planLook op path mp node parent rest).1 := by
  unfold Sys.planLook
  split
  · refine .release _ _ ?_
    simp [Pc.owed]
  · exact .none _
  · exact .none _

theorem planDone_effect {op : Op} {path rest : List Char} {mp : Nat} {node parent : Option Nat} :
    EffectOf s t g (.done op path mp node parent rest) (s.planDone t op path mp node parent rest).1 := by
  cases op with
  | create type permissions linkPath => exact planCreate_effect fun p _ _ => .none _
  | linkTo lmp lid =>
      refine planCreate_effect fun p hp hn => ?_
      subst hp hn
      split_ifs with hmp
      · exact .none _
      · have hmp' : mp = lmp := not_not.mp hmp
        subst hmp'
        exact .link mp lid p path rest
  | openFile mode => exact .none _
  | delete => exact .none _
  | cd => cases node <;> exact .none _
  | hardLink path' => exact planLook_effect
  | stat followSymlink => exact planLook_effect
  | list n writable => exact planLook_effect
  | changeOwner uid gid => exact planLook_effect
  | changePermissions p => exact planLook_effect
  | close => exact planLook_effect

theorem planLookAt_effect {op : Op} {mp id : Nat} :
    EffectOf s t g (.lookAt op mp id) (s.planLookAt t op mp id).1 := by
  unfold Sys.planLookAt
  split
  · split_ifs
    · exact .none _
    · split <;> exact .none _
  · split_ifs <;> exact .none _
  · split_ifs
    · exact .changeOwner mp id _ _
    · exact .none _
  · split_ifs
    · exact .changePermissions mp id _
    · exact .none _
  · exact .stat _ mp id

theorem planAt_effect (s : Sys) (t : Nat) (g : Garbage) (pc : Pc) : EffectOf s t g pc (s.planAt t g pc).1 := by
  cases pc with
  | idle => exact .none _
  | find op path =>
      show EffectOf s t g _ (s.planFind op path).1
      unfold Sys.planFind
      split
      · exact .find op path _ _
      · exact .none _
  | root op path mp rest => exact .root op path mp rest
  | walk op path mp cur rest => exact .none _
  | search op path mp cur rest => exact locked_effect fun _ => .none _
  | entry op path mp cur id rest => exact .entry op path mp cur id rest
  | arrived op path mp cur id rest =>
      show EffectOf s t g _ (s.planArrived op path mp cur id rest).1
      unfold Sys.planArrived
      split_ifs
      · exact .none _
      · exact .none _
      · exact .none _
      · exact .none _
      · refine .release _ _ ?_
        simp [Pc.owed]
  | relink op path todo =>
      cases todo with
      | nil => exact .none _
      | cons r todo => exact .release _ r List.mem_cons_self
  | done op path mp node parent rest => exact planDone_effect
  | make op mp parent name =>
      show EffectOf s t g _ (s.planMake t op mp parent name).1
      unfold Sys.planMake
      split
      · rename_i node hn
        exact .make op mp parent name node hn
      · exact .none _
  | insert op mp parent id name => exact locked_effect fun hl => .insert op mp parent id name hl
  | leaveFolder mode mp id parent => exact .release _ _ List.mem_cons_self
  | opened mode mp id =>
      show EffectOf s t g _ (s.planOpened t mode mp id).1
      unfold Sys.planOpened
      split_ifs with h1
      · exact .none _
      · exact .none _
      · exact .openDesc mode mp id (eq_true_of_ne_false h1)
  | lookAt op mp id => exact planLookAt_effect
  | listing mp id n writable => exact locked_effect fun _ => .none _
  | checkEmpty path mp id parent => exact locked_effect fun _ => .none _
  | remove path mp id parent =>
      refine locked_effect fun hl => ?_
      obtain ⟨i, e, he, hn, hmin, h⟩ | ⟨hall, h⟩ := planRemove_cases s path mp id parent
      · rw [h]
        exact .remove path mp id parent i e hl he hn hmin
      · rw [h]
        exact .missing path mp id parent ⟨hl, hall⟩
  | unlink mp id parent => exact .unlink mp id parent
  | cleanup op todo after =>
      cases todo with
      | nil => exact .none _
      | cons r todo => exact .release _ r List.mem_cons_self
  | returned op res => exact .none _

/-! ## 3. The threads after a step -/

@[simp] theorem perform_thread (s : Sys) (g : Garbage) (e : Effect) : (s.perform g e).thread = s.thread := by
  cases e with
  | acquire mp id =>
      show (s.acquireNode mp id g.node).thread = _
      unfold Sys.acquireNode
      split_ifs <;> rfl
  | release r =>
      cases r with
      | node mp id =>
          show (s.releaseNode mp id).thread = _
          unfold Sys.releaseNode
          split_ifs <;> rfl
      | mount mp => rfl
  | openDesc clear desc => cases clear <;> rfl
  | _ => rfl

theorem next_self (s : Sys) (t : Nat) (g : Garbage) :
    (s.next t g).thread t = (s.thread t).after s (s.plan t g).1 (s.plan t g).2 :=
  Function.update_self t _ _

theorem next_other (s : Sys) {t u : Nat} (g : Garbage) (h : u ≠ t) :
    (s.next t g).thread u = s.thread u := by
  show Function.update (s.perform g _).thread t _ u = _
  rw [Function.update_of_ne h, perform_thread]

theorem setThread_self (s : Sys) (t : Nat) (th : Thread) : (s.setThread t th).thread t = th :=
  Function.update_self t _ _

theorem setThread_other (s : Sys) {t u : Nat} (th : Thread) (h : u ≠ t) :
    (s.setThread t th).thread u = s.thread u := Function.update_of_ne h _ _

/-! ## 4. Balance -/

/-- The thread holds what it owes, and what a miss has made it lose track of. -/
def Balanced (th : Thread) (lost : List Ref) : Prop := th.held.Perm (th.pc.owed ++ lost)

theorem balanced_next (g : Garbage) (h : Balanced (s.thread t) lost) :
    ∃ lost', Balanced ((s.next t g).thread t) lost' ∧ (Missing s (s.thread t).pc ∨ lost' = lost) := by
  rw [next_self]
  by_cases hm : Missing s (s.thread t).pc
  · obtain ⟨mp, parent, hp⟩ := planAt_missing t g hm
    refine ⟨(s.thread t).held, ?_, Or.inl hm⟩
    show (Effect.held s _ (s.planAt t g _).1).Perm (Pc.owed (s.planAt t g _).2 ++ _)
    rw [hp]
    exact List.Perm.refl _
  · exact ⟨lost, (planAt_pays s t g _ hm).perm h, Or.inr rfl⟩

/-- The threads on both sides of a step. -/
theorem step_thread {s' : Sys} {ev : Event} (hs : sysStep s ev s') (u : Nat) :
    s'.thread u = s.thread u ∨
    (∃ g, ev = .run u g ∧ s'.thread u = (s.next u g).thread u) ∨
    (∃ op path, op.onPath = true ∧ (s.thread u).pc = .idle ∧
      s'.thread u = { s.thread u with pc := .find op path, changed := false }) ∨
    (∃ op res, res ≠ OK ∧ (s.thread u).pc = .idle ∧
      s'.thread u = { s.thread u with pc := .returned op res, changed := false }) ∨
    (∃ op res, (s.thread u).pc = .returned op res ∧ s'.thread u = { s.thread u with pc := .idle }) ∨
    (∃ d ∈ s.descs, (s.thread u).pc = .idle ∧ s'.thread u = { s.thread u with
      pc := .cleanup .close [.node d.mp d.id, .mount d.mp] (.ret OK)
      held := .node d.mp d.id :: .mount d.mp :: (s.thread u).held
      changed := false }) := by
  cases hs with
  | start t op path ht hop =>
      by_cases h : u = t
      · subst h
        exact Or.inr (Or.inr (Or.inl ⟨op, path, hop, ht, setThread_self s u _⟩))
      · exact Or.inl (setThread_other s _ h)
  | refuse t op res ht hop hres =>
      by_cases h : u = t
      · subst h
        exact Or.inr (Or.inr (Or.inr (Or.inl ⟨op, res, hres, ht, setThread_self s u _⟩)))
      · exact Or.inl (setThread_other s _ h)
  | run t g =>
      by_cases h : u = t
      · subst h
        exact Or.inr (Or.inl ⟨g, rfl, rfl⟩)
      · exact Or.inl (next_other s g h)
  | leave t op res ht =>
      by_cases h : u = t
      · subst h
        exact Or.inr (Or.inr (Or.inr (Or.inr (Or.inl ⟨op, res, ht, setThread_self s u _⟩))))
      · exact Or.inl (setThread_other s _ h)
  | closeLast t i d ht hd hr =>
      by_cases h : u = t
      · subst h
        exact Or.inr (Or.inr (Or.inr (Or.inr (Or.inr
          ⟨d, List.mem_of_getElem? hd, ht, setThread_self _ u _⟩))))
      · exact Or.inl (setThread_other _ _ h)
  | addRef i d hd => exact Or.inl rfl
  | closeShared t i d ht hd hr => exact Or.inl rfl
  | write i pos buffer bufferSize d hd hw htype => exact Or.inl rfl
  | remount mounts => exact Or.inl rfl

theorem onPath_kept {op : Op} (h : op.onPath = true) : op.kept = [] := by
  cases op with
  | linkTo mp id => cases h
  | _ => rfl

/-- **The balance through a step**: nothing is lost but by a miss. -/
theorem balanced_step {s' : Sys} {ev : Event} (hs : sysStep s ev s') (u : Nat)
    (h : Balanced (s.thread u) lost) :
    ∃ lost', Balanced (s'.thread u) lost' ∧
      ((∃ g, ev = .run u g ∧ Missing s (s.thread u).pc) ∨ lost' = lost) := by
  obtain hu | ⟨g, hev, hu⟩ | ⟨op, path, hop, hi, hu⟩ | ⟨op, res, -, hi, hu⟩ | ⟨op, res, hi, hu⟩ |
    ⟨d, -, hi, hu⟩ := step_thread hs u
  all_goals rw [hu]
  · exact ⟨lost, h, Or.inr rfl⟩
  · obtain ⟨lost', h1, h2⟩ := balanced_next g h
    exact ⟨lost', h1, h2.imp (fun hm => ⟨g, hev, hm⟩) id⟩
  all_goals rw [Balanced, hi] at h
  · refine ⟨lost, ?_, Or.inr rfl⟩
    show (s.thread u).held.Perm (op.kept ++ lost)
    rw [onPath_kept hop]
    exact h
  · exact ⟨lost, h, Or.inr rfl⟩
  · exact ⟨lost, h, Or.inr rfl⟩
  · exact ⟨lost, (h.cons _).cons _, Or.inr rfl⟩

/-! ## 5. A call stays the same call -/

/-- The call in which the thread stands. -/
def Pc.op : Pc → Option Op
  | .idle => none
  | .find op _ => some op
  | .root op _ _ _ => some op
  | .walk op _ _ _ _ => some op
  | .search op _ _ _ _ => some op
  | .entry op _ _ _ _ _ => some op
  | .arrived op _ _ _ _ _ => some op
  | .relink op _ _ => some op
  | .done op _ _ _ _ _ => some op
  | .make op _ _ _ => some op
  | .insert op _ _ _ _ => some op
  | .leaveFolder mode _ _ _ => some (.openFile mode)
  | .opened mode _ _ => some (.openFile mode)
  | .lookAt op _ _ => some op
  | .listing _ _ numEntries writable => some (.list numEntries writable)
  | .checkEmpty _ _ _ _ => some .delete
  | .remove _ _ _ _ => some .delete
  | .unlink _ _ _ => some .delete
  | .cleanup op _ _ => some op
  | .returned op _ => some op

theorem locked_op {mp id : Nat} {wait : Pc} {go : Effect × Pc} (h : go.2.op = wait.op) :
    (s.locked mp id wait go).2.op = wait.op := by
  unfold Sys.locked
  split_ifs
  · rfl
  · exact h

theorem planCreate_op {op : Op} {mp : Nat} {node parent : Option Nat} {go : Nat → Effect × Pc}
    (hgo : ∀ p, (go p).2.op = some op) : (s.planCreate t op mp node parent go).2.op = some op := by
  unfold Sys.planCreate
  split
  · split_ifs
    · rfl
    · exact hgo _
  · rfl

theorem planDone_op (s : Sys) (t : Nat) (op : Op) (path : List Char) (mp : Nat)
    (node parent : Option Nat) (rest : List Char) :
    (s.planDone t op path mp node parent rest).2.op = some op := by
  have hlook : ∀ op, (Sys.planLook op path mp node parent rest).2.op = some op := by
    intro op
    unfold Sys.planLook
    split <;> rfl
  cases op with
  | create type permissions linkPath => exact planCreate_op fun p => rfl
  | linkTo lmp lid =>
      refine planCreate_op fun p => ?_
      split_ifs <;> rfl
  | openFile mode =>
      show (s.planOpen t mode path mp node parent rest).op = _
      unfold Sys.planOpen
      split
      · split_ifs <;> rfl
      · split_ifs
        · rfl
        · split <;> rfl
      · rfl
  | delete =>
      show (s.planDelete t path mp node parent rest).op = _
      unfold Sys.planDelete
      split
      · rfl
      · split_ifs <;> rfl
      · rfl
  | cd => cases node <;> rfl
  | hardLink path' => exact hlook _
  | stat followSymlink => exact hlook _
  | list n writable => exact hlook _
  | changeOwner uid gid => exact hlook _
  | changePermissions p => exact hlook _
  | close => exact hlook _

theorem planLookAt_op (s : Sys) (t : Nat) (op : Op) (mp id : Nat) :
    (s.planLookAt t op mp id).2.op = some op ∨
      ∃ path, op = .hardLink path ∧ (s.planLookAt t op mp id).2.op = some (.linkTo mp id) := by
  unfold Sys.planLookAt
  split
  · split_ifs
    · exact Or.inl rfl
    · split
      · exact Or.inl rfl
      · exact Or.inr ⟨_, rfl, rfl⟩
  · split_ifs <;> exact Or.inl rfl
  · split_ifs <;> exact Or.inl rfl
  · split_ifs <;> exact Or.inl rfl
  · exact Or.inl rfl

/-- **A step stays in the call**, or goes to the second half of `CreateHardLink`. -/
theorem planAt_op (s : Sys) (t : Nat) (g : Garbage) (pc : Pc) :
    (s.planAt t g pc).2.op = pc.op ∨
      ∃ path mp id, pc.op = some (.hardLink path) ∧ (s.planAt t g pc).2.op = some (.linkTo mp id) := by
  cases pc with
  | idle => exact Or.inl rfl
  | find op path =>
      left
      show (s.planFind op path).2.op = _
      unfold Sys.planFind
      split <;> rfl
  | root op path mp rest =>
      left
      show (s.planRoot op path mp rest).op = _
      unfold Sys.planRoot
      split_ifs <;> rfl
  | walk op path mp cur rest =>
      left
      show (s.planWalk t op path mp cur rest).op = _
      unfold Sys.planWalk
      split_ifs <;> rfl
  | search op path mp cur rest =>
      refine Or.inl (locked_op ?_)
      show (s.planSearch op path mp cur rest).op = _
      unfold Sys.planSearch
      split
      · rfl
      · split_ifs <;> rfl
  | entry op path mp cur id rest => exact Or.inl rfl
  | arrived op path mp cur id rest =>
      left
      show (s.planArrived op path mp cur id rest).2.op = _
      unfold Sys.planArrived
      split_ifs <;> rfl
  | relink op path todo => cases todo <;> exact Or.inl rfl
  | done op path mp node parent rest => exact Or.inl (planDone_op s t op path mp node parent rest)
  | make op mp parent name => cases op <;> exact Or.inl rfl
  | insert op mp parent id name =>
      refine Or.inl (locked_op ?_)
      cases op <;> rfl
  | leaveFolder mode mp id parent => exact Or.inl rfl
  | opened mode mp id =>
      left
      show (s.planOpened t mode mp id).2.op = _
      unfold Sys.planOpened
      split_ifs <;> rfl
  | lookAt op mp id =>
      exact (planLookAt_op s t op mp id).imp_right fun ⟨path, hop, h⟩ => ⟨path, mp, id, congrArg some hop, h⟩
  | listing mp id n writable => exact Or.inl (locked_op rfl)
  | checkEmpty path mp id parent =>
      refine Or.inl (locked_op ?_)
      show (s.planCheckEmpty path mp id parent).op = _
      unfold Sys.planCheckEmpty
      split_ifs <;> rfl
  | remove path mp id parent =>
      refine Or.inl (locked_op ?_)
      obtain ⟨i, e, -, -, -, h⟩ | ⟨-, h⟩ := planRemove_cases s path mp id parent <;> rw [h] <;> rfl
  | unlink mp id parent => exact Or.inl rfl
  | cleanup op todo after => cases todo <;> exact Or.inl rfl
  | returned op res => exact Or.inl rfl

/-- What holds of every call that begins and of the second half of `CreateHardLink`, holds of every call
    that is under way. -/
theorem op_step {P : Op → Prop} {s' : Sys} {ev : Event} (hs : sysStep s ev s')
    (hstart : ∀ t op path, ev = .start t op path → P op) (hrefuse : ∀ t op res, ev = .refuse t op res → P op)
    (hlink : ∀ mp id, P (.linkTo mp id)) (hclose : P .close)
    (h : ∀ u op, (s.thread u).pc.op = some op → P op) (u : Nat) (op : Op)
    (hop : (s'.thread u).pc.op = some op) : P op := by
  have hset : ∀ (x : Sys) t th, x.thread = s.thread → (∀ op, th.pc.op = some op → P op) →
      ((x.setThread t th).thread u).pc.op = some op → P op := by
    intro x t th hx hth hop
    by_cases hu : u = t
    · subst hu
      rw [setThread_self] at hop
      exact hth op hop
    · rw [setThread_other x th hu, hx] at hop
      exact h u op hop
  cases hs with
  | start t op' path ht hop' =>
      refine hset s t _ rfl (fun o ho => ?_) hop
      rw [← Option.some.inj ho]
      exact hstart t op' path rfl
  | refuse t op' res ht hop' hres =>
      refine hset s t _ rfl (fun o ho => ?_) hop
      rw [← Option.some.inj ho]
      exact hrefuse t op' res rfl
  | run t g =>
      refine hset _ t _ (perform_thread s g _) (fun o ho => ?_) hop
      rcases planAt_op s t g (s.thread t).pc with he | ⟨path, mp, id, -, he⟩
      · exact h t o (he ▸ ho)
      · have ho' : some (Op.linkTo mp id) = some o := he ▸ ho
        rw [← Option.some.inj ho']
        exact hlink mp id
  | leave t op' res ht => exact hset s t _ rfl (fun o ho => by cases ho) hop
  | closeLast t i d ht hd hr =>
      refine hset _ t _ rfl (fun o ho => ?_) hop
      rw [← Option.some.inj ho]
      exact hclose
  | addRef i d hd => exact h u op hop
  | closeShared t i d ht hd hr => exact h u op hop
  | write i pos buffer bufferSize d hd hw htype => exact h u op hop
  | remount mounts => exact h u op hop

/-! ## 6. One thread at a time -/

/-- The call begins. -/
def Sys.begin (s : Sys) (t : Nat) (op : Op) (path : List Char) : Sys :=
  s.setThread t { s.thread t with pc := .find op path, changed := false }

/-- `n` steps of one thread. -/
def Sys.runs (s : Sys) (t : Nat) (g : Garbage) : Nat → Sys
  | 0 => s
  | n + 1 => (s.runs t g n).next t g

theorem runs_reach {step : Sys → Event → Sys → Prop} {init : Sys → Prop} (h : Reach step init s) {n : Nat}
    (hs : ∀ k < n, step (s.runs t g k) (.run t g) (s.runs t g (k + 1))) :
    Reach step init (s.runs t g n) := by
  induction n with
  | zero => exact h
  | succ n ih =>
      exact .next _ (.run t g) _ (ih fun k hk => hs k (Nat.lt_succ_of_lt hk)) (hs n (Nat.lt_succ_self n))

end Owed

end Lookup

end SimpleOS2
