/-
  File:      SimpleOS2/Fs/CreateRaces.lean
  Subject:   NAMES IN A DIRECTORY, with any number of threads creating entries.

  A create call looks for the name under the `dirLock` of the folder, gives the lock back, and takes it
  again for the insertion. Nothing in the second section looks for the name once more.

  * `Pc.missed` -- the name a call has not found and is going to insert; `Pc.target` -- the node of the
    entry it has found, or is going to insert;
  * `undisturbed` -- the condition: nobody else is between the two sections with the same name, and the name
    fits;
  * `CreateInv`, `createInv_step` -- the names in a directory are different, and a missed name stays free;
  * `names_unique`, `same_name_twice` -- the law, and two threads that create one file.
-/
import SimpleOS2.Fs.DeleteRaces
import SimpleOS2.Fs.Nodes

namespace SimpleOS2

open Lib

namespace Lookup

/-! ## 1. Where a call has looked -/

/-- The name that the call has not found in the folder, before its insertion. -/
def Pc.missed : Pc → Option (Nat × Nat × List Char)
  | .done _ _ mp none (some p) rest => some (mp, p, rest)
  | .make _ mp p name => some (mp, p, name)
  | .insert _ mp p _ name => some (mp, p, name)
  | _ => none

/-- The node of an entry, without a reference to it. -/
def Pc.target : Pc → Option (Nat × Nat)
  | .entry _ _ mp _ id _ => some (mp, id)
  | .insert _ mp _ id _ => some (mp, id)
  | _ => none

/-- The calls that end with `OK` only after an insertion. -/
def Op.inserts : Op → Bool
  | .create _ _ _ => true
  | .linkTo _ _ => true
  | _ => false

/-- Such a call is on its way out with `OK`. -/
def Pc.entered : Pc → Prop
  | .lookAt op _ _ => op.inserts = true
  | .cleanup op _ after => op.inserts = true ∧ ∀ res, after = .ret res → res = OK
  | .returned op res => op.inserts = true ∧ res = OK
  | _ => False

def names (dir : List DirectoryEntry) : List (List Char) := dir.map DirectoryEntry.name

/-- **The condition**: at an insertion nobody else is going to insert the same name into the folder, and the
    name fits into `DirectoryEntry::name`. -/
def undisturbed (s : Sys) : Event → Prop
  | .run t _ => ∀ op mp p id name, (s.thread t).pc = .insert op mp p id name →
      name.length ≤ 49 ∧ ∀ u, u ≠ t → (s.thread u).pc.missed ≠ some (mp, p, name)
  | _ => True

section Plans

variable {s : Sys} {t : Nat} {g : Garbage} {op : Op} {path rest name : List Char} {mp mp' cur id p : Nat}

theorem locked_missed {wait : Pc} {go : Effect × Pc} {x : Nat × Nat × List Char}
    (h : (s.locked mp id wait go).2.missed = some x) : wait.missed = some x ∨ go.2.missed = some x := by
  unfold Sys.locked at h
  split_ifs at h
  · exact Or.inl h
  · exact Or.inr h

theorem planSearch_missed (h : (s.planSearch op path mp cur rest).missed = some (mp', p, name)) :
    mp' = mp ∧ p = cur ∧ name = rest ∧ isLastPathEntry name = true ∧
      name ∉ names (s.node mp cur).cachedDir := by
  unfold Sys.planSearch at h
  split at h
  · cases h
  · rename_i hnone
    split_ifs at h with hlast
    · cases h
    · cases h
      refine ⟨rfl, rfl, rfl, eq_true_of_ne_false (not_or.mp hlast).2, fun hm => ?_⟩
      obtain ⟨e, he, hname⟩ := List.mem_map.mp hm
      exact findEntry_none hnone e he hname

theorem planCreate_missed {node parent : Option Nat} {go : Nat → Effect × Pc} {x : Nat × Nat × List Char}
    (h : (s.planCreate t op mp node parent go).2.missed = some x) :
    ∃ q, parent = some q ∧ node = none ∧ (go q).2.missed = some x := by
  unfold Sys.planCreate at h
  split at h
  · split_ifs at h
    · cases h
    · exact ⟨_, rfl, rfl, h⟩
  · cases h

theorem planLook_missed {node parent : Option Nat} {x : Nat × Nat × List Char}
    (h : (Sys.planLook op path mp node parent rest).2.missed = some x) :
    (Pc.done op path mp node parent rest).missed = some x := by
  unfold Sys.planLook at h
  split at h
  · cases h
  · cases h
  · exact h

theorem planDone_missed {node parent : Option Nat} {x : Nat × Nat × List Char}
    (h : (s.planDone t op path mp node parent rest).2.missed = some x) :
    (Pc.done op path mp node parent rest).missed = some x := by
  cases op with
  | create type permissions linkPath =>
      obtain ⟨q, rfl, rfl, hq⟩ := planCreate_missed h
      exact hq
  | linkTo lmp lid =>
      obtain ⟨q, rfl, rfl, hq⟩ := planCreate_missed h
      split_ifs at hq
      · cases hq
      · exact hq
  | openFile mode =>
      change (s.planOpen t mode path mp node parent rest).missed = some x at h
      unfold Sys.planOpen at h
      split at h
      · split_ifs at h
        · cases h
        · exact h
      · split_ifs at h
        · cases h
        · split at h <;> cases h
      · exact h
  | delete =>
      change (s.planDelete t path mp node parent rest).missed = some x at h
      unfold Sys.planDelete at h
      split at h
      · cases h
      · split_ifs at h <;> cases h
      · exact h
  | cd =>
      cases node with
      | some f => cases h
      | none => exact h
  | hardLink path' => exact planLook_missed h
  | stat followSymlink => exact planLook_missed h
  | list n writable => exact planLook_missed h
  | changeOwner uid gid => exact planLook_missed h
  | changePermissions permissions => exact planLook_missed h
  | close => exact planLook_missed h

theorem planLookAt_plain : (s.planLookAt t op mp id).2.missed = none ∧ (s.planLookAt t op mp id).2.target = none := by
  unfold Sys.planLookAt
  split
  · split_ifs
    · exact ⟨rfl, rfl⟩
    · split <;> exact ⟨rfl, rfl⟩
  · split_ifs <;> exact ⟨rfl, rfl⟩
  · split_ifs <;> exact ⟨rfl, rfl⟩
  · split_ifs <;> exact ⟨rfl, rfl⟩
  · exact ⟨rfl, rfl⟩

theorem afterInsert_plain : (Sys.afterInsert mp p id op).missed = none ∧
    (Sys.afterInsert mp p id op).target = none := by
  cases op <;> exact ⟨rfl, rfl⟩

theorem planOpened_plain {mode : Nat} : (s.planOpened t mode mp id).2.missed = none ∧
    (s.planOpened t mode mp id).2.target = none := by
  unfold Sys.planOpened
  split_ifs <;> exact ⟨rfl, rfl⟩

theorem planRemove_plain : (s.planRemove path mp id p).2.missed = none ∧
    (s.planRemove path mp id p).2.target = none := by
  obtain ⟨i, e, -, -, -, h⟩ | ⟨-, h⟩ := planRemove_cases s path mp id p
  · rw [h]
    exact ⟨rfl, rfl⟩
  · rw [h]
    exact ⟨rfl, rfl⟩

theorem planCheckEmpty_plain : (s.planCheckEmpty path mp id p).missed = none ∧
    (s.planCheckEmpty path mp id p).target = none := by
  unfold Sys.planCheckEmpty
  split_ifs <;> exact ⟨rfl, rfl⟩

theorem locked_plain {wait : Pc} {go : Effect × Pc} (hw : wait.missed = none ∧ wait.target = none)
    (hg : go.2.missed = none ∧ go.2.target = none) :
    (s.locked mp id wait go).2.missed = none ∧ (s.locked mp id wait go).2.target = none := by
  unfold Sys.locked
  split_ifs
  · exact hw
  · exact hg

/-- **Where a missed name comes from**: it was missed before, or the search has just missed it. -/
theorem planAt_missed {pc : Pc} (h : (s.planAt t g pc).2.missed = some (mp, p, name)) :
    pc.missed = some (mp, p, name) ∨
      name ∉ names (s.node mp p).cachedDir ∧ (s.planAt t g pc).1 = .none ∧
        isLastPathEntry name = true ∧ ∃ op path, pc = .search op path mp p name := by
  have hnone : ∀ {pc : Pc}, pc.missed = none → pc.missed = some (mp, p, name) → False := by
    intro pc h1 h2
    rw [h1] at h2
    cases h2
  cases pc with
  | idle => cases h
  | find op path =>
      change (s.planFind op path).2.missed = _ at h
      unfold Sys.planFind at h
      split at h <;> cases h
  | root op path mp rest =>
      change (s.planRoot op path mp rest).missed = _ at h
      unfold Sys.planRoot at h
      split_ifs at h <;> cases h
  | walk op path mp cur rest =>
      change (s.planWalk t op path mp cur rest).missed = _ at h
      unfold Sys.planWalk at h
      split_ifs at h <;> cases h
  | search op path mp cur rest =>
      right
      change (s.locked mp cur (.search op path mp cur rest) (.none, s.planSearch op path mp cur rest)).2.missed = _ at h
      rcases locked_missed h with h | h
      · cases h
      · obtain ⟨rfl, rfl, rfl, hlast, hout⟩ := planSearch_missed h
        refine ⟨hout, ?_, hlast, op, path, rfl⟩
        show (s.locked _ _ _ _).1 = _
        unfold Sys.locked
        split_ifs <;> rfl
  | entry op path mp cur id rest => cases h
  | arrived op path mp cur id rest =>
      change (s.planArrived op path mp cur id rest).2.missed = _ at h
      unfold Sys.planArrived at h
      split_ifs at h <;> cases h
  | relink op path todo => cases todo <;> cases h
  | done op path mp node parent rest => exact Or.inl (planDone_missed h)
  | make op mp parent name =>
      left
      cases op <;> exact h
  | insert op mp parent id name =>
      left
      rcases locked_missed h with h | h
      · exact h
      · exact (hnone afterInsert_plain.1 h).elim
  | leaveFolder mode mp id parent => cases h
  | opened mode mp id => exact (hnone planOpened_plain.1 h).elim
  | lookAt op mp id => exact (hnone planLookAt_plain.1 h).elim
  | listing mp id n writable =>
      exact (hnone (locked_plain ⟨rfl, rfl⟩ ⟨rfl, rfl⟩).1 h).elim
  | checkEmpty path mp id parent =>
      exact (hnone (locked_plain ⟨rfl, rfl⟩ planCheckEmpty_plain).1 h).elim
  | remove path mp id parent =>
      exact (hnone (locked_plain ⟨rfl, rfl⟩ planRemove_plain).1 h).elim
  | unlink mp id parent => cases h
  | cleanup op todo after => cases todo <;> cases h
  | returned op res => cases h

/-- A call that has missed a name holds the folder. -/
theorem missed_owed {pc : Pc} (h : pc.missed = some (mp, p, name)) : Ref.node mp p ∈ pc.owed := by
  cases pc with
  | done op path m node parent rest =>
      cases node with
      | some f => cases h
      | none =>
          cases parent with
          | none => cases h
          | some q =>
              cases h
              simp [Pc.owed]
  | make op m q n =>
      cases h
      exact List.mem_cons_self
  | insert op m q id n =>
      cases h
      cases op <;> exact List.mem_cons_self
  | _ => cases h

theorem planDone_target {node parent : Option Nat}
    (h : (s.planDone t op path mp node parent rest).2.target = some (mp', id)) : Ref.node mp' id ∈ op.kept := by
  have hcreate : ∀ {go : Nat → Effect × Pc}, (s.planCreate t op mp node parent go).2.target = some (mp', id) →
      ∃ q, (go q).2.target = some (mp', id) := by
    intro go h
    unfold Sys.planCreate at h
    split at h
    · split_ifs at h
      · cases h
      · exact ⟨_, h⟩
    · cases h
  have hlook : ∀ {op}, (Sys.planLook op path mp node parent rest).2.target = some (mp', id) → False := by
    intro op h
    unfold Sys.planLook at h
    split at h <;> cases h
  cases op with
  | create type permissions linkPath =>
      obtain ⟨q, hq⟩ := hcreate h
      cases hq
  | linkTo lmp lid =>
      obtain ⟨q, hq⟩ := hcreate h
      split_ifs at hq with hmp
      · cases hq
      · cases hq
        rw [not_not.mp hmp]
        exact List.mem_cons_self
  | openFile mode =>
      change (s.planOpen t mode path mp node parent rest).target = _ at h
      unfold Sys.planOpen at h
      split at h
      · split_ifs at h <;> cases h
      · split_ifs at h
        · cases h
        · split at h <;> cases h
      · cases h
  | delete =>
      change (s.planDelete t path mp node parent rest).target = _ at h
      unfold Sys.planDelete at h
      split at h
      · cases h
      · split_ifs at h <;> cases h
      · cases h
  | cd => cases node <;> cases h
  | hardLink path' => exact (hlook h).elim
  | stat followSymlink => exact (hlook h).elim
  | list n writable => exact (hlook h).elim
  | changeOwner uid gid => exact (hlook h).elim
  | changePermissions permissions => exact (hlook h).elim
  | close => exact (hlook h).elim

/-- **Where the node of an entry comes from**: the call has it already, or has found it, or it is made. -/
theorem planAt_target {pc : Pc} (h : (s.planAt t g pc).2.target = some (mp, id)) :
    pc.target = some (mp, id) ∨ Ref.node mp id ∈ pc.owed ∨
      (∃ cur, Ref.node mp cur ∈ pc.owed ∧ ∃ e ∈ (s.node mp cur).cachedDir, e.nodeID = id) ∨
      ∃ node, (s.planAt t g pc).1 = .make mp node ∧ id = s.nextID mp := by
  have hnone : ∀ {pc : Pc}, pc.target = none → pc.target = some (mp, id) → False := by
    intro pc h1 h2
    rw [h1] at h2
    cases h2
  cases pc with
  | idle => cases h
  | find op path =>
      change (s.planFind op path).2.target = _ at h
      unfold Sys.planFind at h
      split at h <;> cases h
  | root op path mp rest =>
      change (s.planRoot op path mp rest).target = _ at h
      unfold Sys.planRoot at h
      split_ifs at h <;> cases h
  | walk op path mp cur rest =>
      change (s.planWalk t op path mp cur rest).target = _ at h
      unfold Sys.planWalk at h
      split_ifs at h <;> cases h
  | search op path mp' cur rest =>
      right; right; left
      change (s.locked mp' cur (.search op path mp' cur rest)
          (.none, s.planSearch op path mp' cur rest)).2.target = _ at h
      unfold Sys.locked at h
      split_ifs at h
      · cases h
      · change (s.planSearch op path mp' cur rest).target = _ at h
        unfold Sys.planSearch at h
        split at h
        · rename_i hf
          cases h
          obtain ⟨e, he, hid, -⟩ := findEntry_spec hf
          exact ⟨cur, List.mem_cons_self, e, he, hid⟩
        · split_ifs at h <;> cases h
  | entry op path mp cur id rest => cases h
  | arrived op path mp cur id rest =>
      change (s.planArrived op path mp cur id rest).2.target = _ at h
      unfold Sys.planArrived at h
      split_ifs at h <;> cases h
  | relink op path todo => cases todo <;> cases h
  | done op path mp' node parent rest =>
      right; left
      show Ref.node mp id ∈ _ ++ (_ ++ Ref.mount mp' :: op.kept)
      have hk := planDone_target h
      simp [hk]
  | make op mp' parent name =>
      right; right; right
      change (s.planMake t op mp' parent name).2.target = _ at h
      show ∃ node, (s.planMake t op mp' parent name).1 = _ ∧ _
      unfold Sys.planMake at h ⊢
      split at h
      · rename_i node hn
        cases h
        exact ⟨node, rfl, rfl⟩
      · cases h
  | insert op mp' parent id' name =>
      left
      change (s.locked mp' parent (.insert op mp' parent id' name) _).2.target = _ at h
      unfold Sys.locked at h
      split_ifs at h
      · exact h
      · exact (hnone afterInsert_plain.2 h).elim
  | leaveFolder mode mp id parent => cases h
  | opened mode mp id => exact (hnone planOpened_plain.2 h).elim
  | lookAt op mp id => exact (hnone planLookAt_plain.2 h).elim
  | listing mp id n writable => exact (hnone (locked_plain ⟨rfl, rfl⟩ ⟨rfl, rfl⟩).2 h).elim
  | checkEmpty path mp id parent => exact (hnone (locked_plain ⟨rfl, rfl⟩ planCheckEmpty_plain).2 h).elim
  | remove path mp id parent => exact (hnone (locked_plain ⟨rfl, rfl⟩ planRemove_plain).2 h).elim
  | unlink mp id parent => cases h
  | cleanup op todo after => cases todo <;> cases h
  | returned op res => cases h

theorem giveBack_entered {res : Int} (hr : res ≠ OK) : ¬ (Sys.giveBack op mp id res).entered :=
  fun h => hr (h.2 res rfl)

theorem planDone_entered {node parent : Option Nat} :
    ¬ (s.planDone t op path mp node parent rest).2.entered := by
  have hcreate : ∀ {op} {go : Nat → Effect × Pc}, (∀ q, ¬ (go q).2.entered) →
      ¬ (s.planCreate t op mp node parent go).2.entered := by
    intro op go hgo
    unfold Sys.planCreate
    split
    · split_ifs
      · exact fun h => absurd (h.2 _ rfl) (by decide)
      · exact hgo _
    · exact fun h => absurd (h.2 _ rfl) (by decide)
  have hlook : ∀ {op}, op.inserts = false → ¬ (Sys.planLook op path mp node parent rest).2.entered := by
    intro op hop h
    unfold Sys.planLook at h
    split at h
    · exact absurd h (by rw [Pc.entered, hop]; simp)
    · exact absurd h (by rw [Pc.entered, hop]; simp)
    · exact h
  cases op with
  | create type permissions linkPath => exact hcreate fun _ => not_false
  | linkTo lmp lid =>
      refine hcreate fun q => ?_
      split_ifs
      · exact fun h => absurd (h.2 _ rfl) (by decide)
      · exact not_false
  | openFile mode =>
      show ¬ (s.planOpen t mode path mp node parent rest).entered
      unfold Sys.planOpen
      split
      · split_ifs
        · exact fun h => Bool.false_ne_true h.1
        · exact not_false
      · split_ifs
        · exact fun h => Bool.false_ne_true h.1
        · split <;> exact not_false
      · exact not_false
  | delete =>
      show ¬ (s.planDelete t path mp node parent rest).entered
      unfold Sys.planDelete
      split
      · exact fun h => Bool.false_ne_true h.1
      · split_ifs
        · exact fun h => Bool.false_ne_true h.1
        · exact not_false
        · exact not_false
      · exact not_false
  | cd =>
      cases node with
      | some f => exact fun h => Bool.false_ne_true h.1
      | none => exact not_false
  | hardLink path' => exact hlook rfl
  | stat followSymlink => exact hlook rfl
  | list n writable => exact hlook rfl
  | changeOwner uid gid => exact hlook rfl
  | changePermissions permissions => exact hlook rfl
  | close => exact hlook rfl

theorem planLookAt_entered (h : (s.planLookAt t op mp id).2.entered) : op.inserts = true := by
  unfold Sys.planLookAt at h
  split at h
  · split_ifs at h
    · exact h.1
    · split at h
      · exact h.1
      · exact h.elim
  · split_ifs at h
    · exact h.1
    · exact h.1
    · exact h.elim
  · split_ifs at h <;> exact h.1
  · split_ifs at h <;> exact h.1
  · exact h.1

/-- **A call comes to its way out with `OK` by its insertion.** -/
theorem planAt_entered {pc : Pc} (h : (s.planAt t g pc).2.entered) :
    pc.entered ∨ ∃ mp id name dir, (s.planAt t g pc).1 = .addEntry mp id name dir := by
  cases pc with
  | idle => exact h.elim
  | find op path =>
      change (s.planFind op path).2.entered at h
      unfold Sys.planFind at h
      split at h <;> exact h.elim
  | root op path mp rest =>
      change (s.planRoot op path mp rest).entered at h
      unfold Sys.planRoot at h
      split_ifs at h <;> exact h.elim
  | walk op path mp cur rest =>
      change (s.planWalk t op path mp cur rest).entered at h
      unfold Sys.planWalk at h
      split_ifs at h
      · exact absurd h (giveBack_entered (by decide))
      · exact absurd h (giveBack_entered (by decide))
      · exact h.elim
  | search op path mp cur rest =>
      change (s.locked mp cur (.search op path mp cur rest) (.none, s.planSearch op path mp cur rest)).2.entered at h
      unfold Sys.locked at h
      split_ifs at h
      · exact h.elim
      · change (s.planSearch op path mp cur rest).entered at h
        unfold Sys.planSearch at h
        split at h
        · exact h.elim
        · split_ifs at h
          · exact absurd h (giveBack_entered (by decide))
          · exact h.elim
  | entry op path mp cur id rest => exact h.elim
  | arrived op path mp cur id rest =>
      change (s.planArrived op path mp cur id rest).2.entered at h
      unfold Sys.planArrived at h
      split_ifs at h
      · exact h.elim
      · exact absurd (h.2 _ rfl) (by decide)
      · exact h.elim
      · exact h.elim
      · exact h.elim
  | relink op path todo => cases todo <;> exact h.elim
  | done op path mp node parent rest => exact absurd h planDone_entered
  | make op mp parent name => cases op <;> exact h.elim
  | insert op mp parent id name =>
      right
      change (s.locked mp parent (.insert op mp parent id name) (_, Sys.afterInsert mp parent id op)).2.entered at h
      show ∃ m i n d, (s.locked mp parent (.insert op mp parent id name) (_, Sys.afterInsert mp parent id op)).1 = _
      unfold Sys.locked at h ⊢
      split_ifs at h with hl
      · exact h.elim
      · rw [if_neg hl]
        exact ⟨_, _, _, _, rfl⟩
  | leaveFolder mode mp id parent => exact h.elim
  | opened mode mp id =>
      change (s.planOpened t mode mp id).2.entered at h
      unfold Sys.planOpened at h
      split_ifs at h <;> exact (Bool.false_ne_true h.1).elim
  | lookAt op mp id => exact Or.inl (planLookAt_entered h)
  | listing mp id n writable =>
      change (s.locked mp id (.listing mp id n writable) (_, Sys.giveBack _ mp id _)).2.entered at h
      unfold Sys.locked at h
      split_ifs at h
      · exact h.elim
      · exact (Bool.false_ne_true h.1).elim
  | checkEmpty path mp id parent =>
      change (s.locked mp id (.checkEmpty path mp id parent) (_, s.planCheckEmpty path mp id parent)).2.entered at h
      unfold Sys.locked at h
      split_ifs at h
      · exact h.elim
      · change (s.planCheckEmpty path mp id parent).entered at h
        unfold Sys.planCheckEmpty at h
        split_ifs at h
        · exact (Bool.false_ne_true h.1).elim
        · exact h.elim
  | remove path mp id parent =>
      change (s.locked mp parent (.remove path mp id parent) (s.planRemove path mp id parent)).2.entered at h
      unfold Sys.locked at h
      split_ifs at h
      · exact h.elim
      · obtain ⟨i, e, -, -, -, he⟩ | ⟨-, he⟩ := planRemove_cases s path mp id parent
        · rw [he] at h
          exact h.elim
        · rw [he] at h
          exact (Bool.false_ne_true h.1).elim
  | unlink mp id parent => exact (Bool.false_ne_true h.1).elim
  | cleanup op todo after =>
      left
      cases todo with
      | nil =>
          cases after with
          | ret res => exact ⟨h.1, fun r hr => by cases hr; exact h.2⟩
          | cd mp id type => exact ⟨h.1, fun r hr => by cases hr⟩
      | cons r todo => exact h
  | returned op res => exact Or.inl h

theorem newNode_fields {node : Node} (h : s.newNode t mp p op = some node) :
    node.linkCount = 1 ∧ node.cachedDir = [] := by
  cases op with
  | openFile mode =>
      cases h
      exact ⟨rfl, rfl⟩
  | create type permissions linkPath =>
      cases h
      exact ⟨rfl, rfl⟩
  | _ => cases h

theorem effect_keepsLinks {pc : Pc} {e : Effect} (he : EffectOf s t g pc e) (hop : pc.op ≠ some .delete) :
    e.keepsLinks := by
  cases he with
  | link mp id p path rest => exact (by decide : (0 : Int) ≤ 1)
  | make op mp p name node hn => exact (newNode_fields hn).1.ge
  | unlink mp id p => exact absurd rfl hop
  | _ => trivial

/-- **What a step does to a directory**, where nothing is deleted. -/
theorem effect_dirAt {pc : Pc} {e : Effect} (he : EffectOf s t g pc e) (hop : pc.op ≠ some .delete) (mp id : Nat) :
    e.dirAt s mp id = (s.node mp id).cachedDir ∧ (∀ node, e = .make mp node → id ≠ s.nextID mp) ∨
      (∃ op i name, pc = .insert op mp id i name ∧ e = .addEntry mp id name (e.dirAt s mp id) ∧
        e.dirAt s mp id = Sys.insertEntry (s.node mp id).cachedDir name i g.dir) ∨
      e.dirAt s mp id = [] ∧ id = s.nextID mp := by
  cases he with
  | make op mp' p name node hn =>
      by_cases hx : mp = mp' ∧ id = s.nextID mp'
      · obtain ⟨rfl, rfl⟩ := hx
        right; right
        exact ⟨(if_pos ⟨rfl, rfl⟩).trans (newNode_fields hn).2, rfl⟩
      · refine Or.inl ⟨if_neg hx, fun node h hid => ?_⟩
        cases h
        exact hx ⟨rfl, hid⟩
  | insert op mp' p i name hl =>
      by_cases hx : mp = mp' ∧ id = p
      · obtain ⟨rfl, rfl⟩ := hx
        right; left
        refine ⟨op, i, name, rfl, ?_, if_pos ⟨rfl, rfl⟩⟩
        show Effect.addEntry mp id name _ = .addEntry mp id name (if _ then _ else _)
        rw [if_pos ⟨rfl, rfl⟩]
      · exact Or.inl ⟨if_neg hx, fun node h => by cases h⟩
  | remove path mp' i p j e hl he hn hmin => exact absurd rfl hop
  | _ => exact Or.inl ⟨rfl, fun node h => by cases h⟩

theorem planAt_inserted {i : Nat} {n : List Char} {dir : List DirectoryEntry}
    (h : (s.planAt t g (.insert op mp p i name)).1 = .addEntry mp' id n dir) :
    (s.planAt t g (.insert op mp p i name)).2 = Sys.afterInsert mp p i op := by
  change (s.locked mp p (.insert op mp p i name) (_, Sys.afterInsert mp p i op)).1 = _ at h
  show (s.locked mp p (.insert op mp p i name) (_, Sys.afterInsert mp p i op)).2 = _
  unfold Sys.locked at h ⊢
  split_ifs at h ⊢
  rfl

theorem after_keeps_changed {th : Thread} {e : Effect} {pc : Pc} (h : th.changed = true) :
    (th.after s e pc).changed = true := by
  cases e <;> first
    | exact h
    | rfl

/-- The nodes that a call holds after a step. -/
theorem pays_owed {l l' : List Ref} {e : Effect} (h : Pays s l l' e) (hm : Ref.node mp id ∈ l') :
    Ref.node mp id ∈ l ∨ e = .acquire mp id ∨ ∃ node, e = .make mp node ∧ id = s.nextID mp := by
  cases e with
  | find m count =>
      rcases List.mem_cons.mp (List.Perm.subset h hm) with h1 | h1
      · cases h1
      · exact Or.inl h1
  | acquire m i =>
      rcases List.mem_cons.mp (List.Perm.subset h hm) with h1 | h1
      · cases h1
        exact Or.inr (Or.inl rfl)
      · exact Or.inl h1
  | release r => exact Or.inl (h.symm.subset (List.mem_cons_of_mem r hm))
  | make m node =>
      rcases List.mem_cons.mp (List.Perm.subset h hm) with h1 | h1
      · cases h1
        exact Or.inr (Or.inr ⟨node, rfl, rfl⟩)
      · exact Or.inl h1
  | openDesc clear desc =>
      exact Or.inl (h.symm.subset (List.mem_cons_of_mem _ (List.mem_cons_of_mem _ hm)))
  | keepLock m i => exact absurd h not_false
  | none => exact Or.inl (List.Perm.subset h hm)
  | link m i n => exact Or.inl (List.Perm.subset h hm)
  | addEntry m i n d => exact Or.inl (List.Perm.subset h hm)
  | removeEntry m i d => exact Or.inl (List.Perm.subset h hm)
  | stat st => exact Or.inl (List.Perm.subset h hm)
  | changeOwner m i u g => exact Or.inl (List.Perm.subset h hm)
  | changePermissions m i perms => exact Or.inl (List.Perm.subset h hm)

end Plans

/-! ## 2. The invariant -/

theorem perform_created (s : Sys) (g : Garbage) (e : Effect) : (s.perform g e).created = s.created ∨
    ∃ mp id name dir, e = .addEntry mp id name dir ∧ (s.perform g e).created = (mp, id, name) :: s.created := by
  cases e with
  | acquire mp id =>
      left
      show (s.acquireNode mp id g.node).created = _
      unfold Sys.acquireNode
      split_ifs <;> rfl
  | release r =>
      left
      cases r with
      | node mp id =>
          show (s.releaseNode mp id).created = _
          unfold Sys.releaseNode
          split_ifs <;> rfl
      | mount mp => rfl
  | openDesc clear desc => cases clear <;> exact Or.inl rfl
  | addEntry mp id name dir => exact Or.inr ⟨mp, id, name, dir, rfl, rfl⟩
  | _ => exact Or.inl rfl

/-- No call is under way, nothing is open, the entries of directories are nodes, and the names in a directory
    are different. -/
structure tidy (s : Sys) : Prop where
  quiet : quiet s
  descs : s.descs = []
  created : s.created = []
  root : ∀ mp, Good s mp (s.rootNode mp)
  entries : ∀ mp id, s.alive mp id = true → ∀ e ∈ (s.node mp id).cachedDir, Good s mp e.nodeID
  fresh : Fresh s
  unique : ∀ mp id, s.alive mp id = true → (names (s.node mp id).cachedDir).Nodup

structure CreateInv (s : Sys) : Prop where
  ops : ∀ t op, (s.thread t).pc.op = some op → op ≠ .delete
  owed : ∀ t mp id, Ref.node mp id ∈ (s.thread t).pc.owed → Good s mp id
  target : ∀ t mp id, (s.thread t).pc.target = some (mp, id) → Good s mp id
  descs : ∀ d ∈ s.descs, Good s d.mp d.id
  root : ∀ mp, Good s mp (s.rootNode mp)
  entries : ∀ mp id, s.alive mp id = true → ∀ e ∈ (s.node mp id).cachedDir, Good s mp e.nodeID
  fresh : Fresh s
  unique : ∀ mp id, s.alive mp id = true → (names (s.node mp id).cachedDir).Nodup
  free : ∀ t mp p name, (s.thread t).pc.missed = some (mp, p, name) → name ∉ names (s.node mp p).cachedDir
  created : s.created.Nodup
  kept : ∀ mp id name, (mp, id, name) ∈ s.created → Good s mp id ∧ name ∈ names (s.node mp id).cachedDir
  entered : ∀ t, (s.thread t).pc.entered → (s.thread t).changed = true

section Steps

variable {s s' : Sys} {t : Nat} {g : Garbage} {ev : Event}

/-- A step that leaves the tree as it is. -/
theorem CreateInv.same (hI : CreateInv s) (ha : s'.alive = s.alive)
    (hdir : ∀ mp id, (s'.node mp id).cachedDir = (s.node mp id).cachedDir)
    (hlink : ∀ mp id, (s'.node mp id).linkCount = (s.node mp id).linkCount)
    (hroot : s'.rootNode = s.rootNode) (hn : s'.nextID = s.nextID) (hc : s'.created = s.created)
    (hdescs : ∀ d ∈ s'.descs, Good s d.mp d.id)
    (hops : ∀ t op, (s'.thread t).pc.op = some op → op ≠ .delete)
    (hth : ∀ u, s'.thread u = s.thread u ∨ (s'.thread u).pc.missed = none ∧ (s'.thread u).pc.target = none ∧
      ¬ (s'.thread u).pc.entered ∧ ∀ mp id, Ref.node mp id ∈ (s'.thread u).pc.owed → Good s mp id) :
    CreateInv s' := by
  have hgood : ∀ mp id, Good s' mp id ↔ Good s mp id := by
    intro mp id
    rw [Good, Good, ha, hlink]
  refine ⟨hops, fun u mp id hu => ?_, fun u mp id hu => ?_, fun d hd => (hgood _ _).mpr (hdescs d hd),
    fun mp => ?_, fun mp id h e he => ?_, fun mp id h => ?_, fun mp id h => ?_, fun u mp q name hu => ?_, ?_,
    fun mp id name hm => ?_, fun u hu => ?_⟩
  · rw [hgood]
    rcases hth u with he | ⟨-, -, -, he⟩
    · exact hI.owed u mp id (he ▸ hu)
    · exact he mp id hu
  · rw [hgood]
    rcases hth u with he | ⟨-, he, -, -⟩
    · exact hI.target u mp id (he ▸ hu)
    · rw [he] at hu
      cases hu
  · rw [hgood, hroot]
    exact hI.root mp
  · rw [hgood]
    rw [ha] at h
    rw [hdir] at he
    exact hI.entries mp id h e he
  · rw [hn]
    rw [ha] at h
    exact hI.fresh mp id h
  · rw [hdir]
    rw [ha] at h
    exact hI.unique mp id h
  · rw [hdir]
    rcases hth u with he | ⟨he, -, -, -⟩
    · exact hI.free u mp q name (he ▸ hu)
    · rw [he] at hu
      cases hu
  · rw [hc]
    exact hI.created
  · rw [hc] at hm
    rw [hgood, hdir]
    exact hI.kept mp id name hm
  · rcases hth u with he | ⟨-, -, he, -⟩
    · rw [he] at hu ⊢
      exact hI.entered u hu
    · exact absurd hu he

/-! ### The next step of a thread -/

section Run

variable {pc : Pc} {e : Effect} {op : Op} {mp id p i : Nat} {name : List Char}

theorem next_perform (hpc : (s.thread t).pc = pc) (he : (s.planAt t g pc).1 = e) :
    s.next t g = (s.perform g e).setThread t ((s.thread t).after s e (s.planAt t g pc).2) := by
  rw [← he, ← hpc]
  rfl

theorem next_after (hpc : (s.thread t).pc = pc) (he : (s.planAt t g pc).1 = e) :
    (s.next t g).thread t = (s.thread t).after s e (s.planAt t g pc).2 := by
  rw [next_perform hpc he]
  exact setThread_self _ t _

theorem next_dirAt (hpc : (s.thread t).pc = pc) (he : (s.planAt t g pc).1 = e)
    (h : (s.next t g).alive mp id = true) : ((s.next t g).node mp id).cachedDir = e.dirAt s mp id := by
  rw [next_perform hpc he] at h ⊢
  exact perform_dir h

/-- A node that is alive after the step was so before, or was made by it. -/
theorem next_alive (hpc : (s.thread t).pc = pc) (he : (s.planAt t g pc).1 = e)
    (h : (s.next t g).alive mp id = true) :
    s.alive mp id = true ∨ ∃ node, e = .make mp node ∧ id = s.nextID mp := by
  rw [next_perform hpc he] at h
  exact perform_alive h

theorem next_created (hpc : (s.thread t).pc = pc) (he : (s.planAt t g pc).1 = e) :
    (s.next t g).created = s.created ∨ ∃ mp id name dir, e = .addEntry mp id name dir ∧
      (s.next t g).created = (mp, id, name) :: s.created := by
  rw [next_perform hpc he]
  exact perform_created s g e

theorem CreateInv.noDelete (hI : CreateInv s) (hpc : (s.thread t).pc = pc) : pc.op ≠ some .delete :=
  fun h => hI.ops t _ (hpc ▸ h) rfl

theorem CreateInv.keepsLinks (hI : CreateInv s) (hpc : (s.thread t).pc = pc) (he : (s.planAt t g pc).1 = e) :
    e.keepsLinks := effect_keepsLinks (he ▸ planAt_effect s t g pc) (hI.noDelete hpc)

theorem CreateInv.good (hI : CreateInv s) (h : Good s mp id) : Good (s.next t g) mp id :=
  h.perform (g := g) (hI.keepsLinks rfl rfl)

theorem CreateInv.made {node : Node} (hI : CreateInv s) (hpc : (s.thread t).pc = pc)
    (he : (s.planAt t g pc).1 = .make mp node) : Good (s.next t g) mp (s.nextID mp) := by
  have hg : Good (s.perform g (.make mp node)) mp (s.nextID mp) := good_make (hI.keepsLinks hpc he)
  rw [next_perform hpc he]
  exact hg

/-- What a thread that is about to insert an entry knows. -/
theorem CreateInv.inserts (hI : CreateInv s) (hok : undisturbed s (.run t g))
    (hpc : (s.thread t).pc = .insert op mp p i name) : Good s mp p ∧ name.length ≤ 49 ∧
      name ∉ names (s.node mp p).cachedDir ∧ ∀ u, u ≠ t → (s.thread u).pc.missed ≠ some (mp, p, name) := by
  have h := hok op mp p i name hpc
  refine ⟨hI.owed t mp p ?_, h.1, hI.free t mp p name (by rw [hpc]; rfl), h.2⟩
  rw [hpc]
  cases op <;> exact List.mem_cons_self

/-- A directory stays as it is, gets the missed name, or is the empty one of a new node. -/
theorem CreateInv.dirAt (hI : CreateInv s) (hok : undisturbed s (.run t g)) (hpc : (s.thread t).pc = pc)
    (he : (s.planAt t g pc).1 = e) (mp id : Nat) :
    e.dirAt s mp id = (s.node mp id).cachedDir ∧ (∀ node, e = .make mp node → id ≠ s.nextID mp) ∨
      (∃ op i name, pc = .insert op mp id i name ∧ (∃ dir, e = .addEntry mp id name dir) ∧
        e.dirAt s mp id = (s.node mp id).cachedDir ++ [⟨name, i⟩]) ∨
      e.dirAt s mp id = [] ∧ id = s.nextID mp := by
  rcases effect_dirAt (he ▸ planAt_effect s t g pc) (hI.noDelete hpc) mp id with h | ⟨op, i, name, hp, hadd, h⟩ | h
  · exact Or.inl h
  · refine Or.inr (Or.inl ⟨op, i, name, hp, ⟨_, hadd⟩, ?_⟩)
    rw [h, Sys.insertEntry, if_pos (hI.inserts hok (hpc.trans hp)).2.1]
  · exact Or.inr (Or.inr h)

theorem CreateInv.grows (hI : CreateInv s) (hok : undisturbed s (.run t g)) (hpc : (s.thread t).pc = pc)
    (he : (s.planAt t g pc).1 = e) (hg : Good s mp id) :
    ((s.next t g).node mp id).cachedDir = (s.node mp id).cachedDir ∨
      ∃ op i name, pc = .insert op mp id i name ∧ (∃ dir, e = .addEntry mp id name dir) ∧
        ((s.next t g).node mp id).cachedDir = (s.node mp id).cachedDir ++ [⟨name, i⟩] := by
  rw [next_dirAt hpc he (hI.good hg).1]
  rcases hI.dirAt hok hpc he mp id with ⟨h, -⟩ | h | ⟨-, h⟩
  · exact Or.inl h
  · exact Or.inr h
  · exact absurd (hI.fresh mp id hg.1) (by omega)

theorem CreateInv.owed_next (hI : CreateInv s) {u : Nat} (hu : Ref.node mp id ∈ ((s.next t g).thread u).pc.owed) :
    Good (s.next t g) mp id := by
  by_cases hut : u = t
  · subst hut
    obtain ⟨pc, hpc⟩ : ∃ pc, (s.thread u).pc = pc := ⟨_, rfl⟩
    obtain ⟨e, he⟩ : ∃ e, (s.planAt u g pc).1 = e := ⟨_, rfl⟩
    have heff : EffectOf s u g pc e := he ▸ planAt_effect s u g pc
    rw [next_after hpc he] at hu
    have hm : ¬ Missing s pc := by
      intro hm
      cases pc with
      | remove path mp id parent => exact hI.noDelete hpc rfl
      | _ => exact hm
    have hpays := planAt_pays s u g pc hm
    rw [he] at hpays
    rcases pays_owed hpays hu with h | h | ⟨node, h, rfl⟩
    · exact hI.good (hI.owed u mp id (hpc ▸ h))
    · subst h
      cases heff with
      | root op path mp rest => exact hI.good (hI.root mp)
      | entry op path mp cur id rest => exact hI.good (hI.target u mp id (by rw [hpc]; rfl))
    · exact hI.made hpc (he.trans h)
  · rw [next_other s g hut] at hu
    exact hI.good (hI.owed u mp id hu)

theorem CreateInv.target_next (hI : CreateInv s) {u : Nat} (hu : ((s.next t g).thread u).pc.target = some (mp, id)) :
    Good (s.next t g) mp id := by
  by_cases hut : u = t
  · subst hut
    rw [next_after rfl rfl] at hu
    rcases planAt_target hu with h | h | ⟨cur, h, x, hx, rfl⟩ | ⟨node, h, rfl⟩
    · exact hI.good (hI.target u mp id h)
    · exact hI.good (hI.owed u mp id h)
    · exact hI.good (hI.entries mp cur (hI.owed u mp cur h).1 x hx)
    · exact hI.made rfl h
  · rw [next_other s g hut] at hu
    exact hI.good (hI.target u mp id hu)

theorem CreateInv.descs_next (hI : CreateInv s) {d : FileDescriptor} (hd : d ∈ (s.next t g).descs) :
    Good (s.next t g) d.mp d.id := by
  obtain ⟨pc, hpc⟩ : ∃ pc, (s.thread t).pc = pc := ⟨_, rfl⟩
  obtain ⟨e, he⟩ : ∃ e, (s.planAt t g pc).1 = e := ⟨_, rfl⟩
  have heff : EffectOf s t g pc e := he ▸ planAt_effect s t g pc
  have hd' : d ∈ (s.perform g e).descs := by
    rw [next_perform hpc he] at hd
    exact hd
  rcases perform_descs hd' with h | ⟨clear, rfl⟩
  · exact hI.good (hI.descs d h)
  · cases heff with
    | openDesc mode mp id hc => exact hI.good (hI.owed t mp id (by rw [hpc]; exact List.mem_cons_self))

theorem CreateInv.entries_next (hI : CreateInv s) (hok : undisturbed s (.run t g))
    (h : (s.next t g).alive mp id = true) {x : DirectoryEntry} (hx : x ∈ ((s.next t g).node mp id).cachedDir) :
    Good (s.next t g) mp x.nodeID := by
  rw [next_dirAt rfl rfl h] at hx
  rcases hI.dirAt hok rfl rfl mp id with ⟨hd, hne⟩ | ⟨op, i, name, hp, -, hd⟩ | ⟨hd, -⟩
  · rcases next_alive rfl rfl h with ha | ⟨node, hm, hid⟩
    · rw [hd] at hx
      exact hI.good (hI.entries mp id ha x hx)
    · exact absurd hid (hne node hm)
  · rw [hd] at hx
    rcases List.mem_append.mp hx with hx | hx
    · exact hI.good (hI.entries mp id (hI.inserts hok hp).1.1 x hx)
    · rw [List.mem_singleton.mp hx]
      exact hI.good (hI.target t mp i (by rw [hp]; rfl))
  · rw [hd] at hx
    cases hx

theorem CreateInv.unique_next (hI : CreateInv s) (hok : undisturbed s (.run t g))
    (h : (s.next t g).alive mp id = true) : (names ((s.next t g).node mp id).cachedDir).Nodup := by
  rw [next_dirAt rfl rfl h]
  rcases hI.dirAt hok rfl rfl mp id with ⟨hd, hne⟩ | ⟨op, i, name, hp, -, hd⟩ | ⟨hd, -⟩
  · rcases next_alive rfl rfl h with ha | ⟨node, hm, hid⟩
    · rw [hd]
      exact hI.unique mp id ha
    · exact absurd hid (hne node hm)
  · obtain ⟨hg, -, hout, -⟩ := hI.inserts hok hp
    rw [hd, names, List.map_append]
    exact (hI.unique mp id hg.1).append (List.nodup_singleton _) (by simpa using hout)
  · rw [hd]
    exact List.nodup_nil

theorem CreateInv.free_next (hI : CreateInv s) (hok : undisturbed s (.run t g)) {u : Nat}
    (hu : ((s.next t g).thread u).pc.missed = some (mp, p, name)) :
    name ∉ names ((s.next t g).node mp p).cachedDir := by
  by_cases hut : u = t
  · subst hut
    obtain ⟨pc, hpc⟩ : ∃ pc, (s.thread u).pc = pc := ⟨_, rfl⟩
    obtain ⟨e, he⟩ : ∃ e, (s.planAt u g pc).1 = e := ⟨_, rfl⟩
    have hg' : Good (s.next u g) mp p := hI.owed_next (missed_owed hu)
    rw [next_after hpc he] at hu
    rcases planAt_missed hu with h | ⟨h, hnone, -⟩
    · have hfree := hI.free u mp p name (by rw [hpc]; exact h)
      rcases hI.grows hok hpc he (hI.owed u mp p (by rw [hpc]; exact missed_owed h)) with
        hd | ⟨op, i, n, hp, ⟨dir, hadd⟩, -⟩
      · rw [hd]
        exact hfree
      · -- it has inserted, and is behind the insertion
        subst hp
        rw [planAt_inserted (he.trans hadd)] at hu
        cases (show (Sys.afterInsert mp p i op).missed = _ from hu).symm.trans afterInsert_plain.1
    · rw [next_dirAt hpc he hg'.1]
      rw [he] at hnone
      subst hnone
      exact h
  · rw [next_other s g hut] at hu
    have hfree := hI.free u mp p name hu
    rcases hI.grows hok rfl rfl (hI.owed u mp p (missed_owed hu)) with hd | ⟨op, i, n, hp, -, hd⟩
    · rw [hd]
      exact hfree
    · have hne : name ≠ n := fun hn => (hI.inserts hok hp).2.2.2 u hut (hn ▸ hu)
      rw [hd, names, List.map_append, List.mem_append]
      exact fun h => h.elim hfree fun h => hne (by simpa using h)

/-- An entry is added by an insertion. -/
theorem effect_insert {pc : Pc} {dir : List DirectoryEntry} (he : (s.planAt t g pc).1 = .addEntry mp p name dir) :
    ∃ op i, pc = .insert op mp p i name ∧ dir = Sys.insertEntry (s.node mp p).cachedDir name i g.dir := by
  have heff : EffectOf s t g pc (.addEntry mp p name dir) := he ▸ planAt_effect s t g pc
  cases heff with
  | insert op mp p i name hl => exact ⟨op, i, rfl, rfl⟩

theorem CreateInv.created_next (hI : CreateInv s) (hok : undisturbed s (.run t g)) :
    (s.next t g).created.Nodup := by
  rcases next_created (s := s) (t := t) (g := g) rfl rfl with h | ⟨mp, id, name, dir, hadd, h⟩
  · rw [h]
    exact hI.created
  · obtain ⟨op, i, hp, -⟩ := effect_insert hadd
    rw [h]
    exact List.nodup_cons.mpr ⟨fun hm => (hI.inserts hok hp).2.2.1 (hI.kept mp id name hm).2, hI.created⟩

theorem CreateInv.kept_next (hI : CreateInv s) (hok : undisturbed s (.run t g))
    (hm : (mp, id, name) ∈ (s.next t g).created) :
    Good (s.next t g) mp id ∧ name ∈ names ((s.next t g).node mp id).cachedDir := by
  have hold : (mp, id, name) ∈ s.created → Good (s.next t g) mp id ∧
      name ∈ names ((s.next t g).node mp id).cachedDir := by
    intro hm
    obtain ⟨hg, hn⟩ := hI.kept mp id name hm
    refine ⟨hI.good hg, ?_⟩
    rcases hI.grows hok rfl rfl hg with hd | ⟨op, i, n, -, -, hd⟩
    · rw [hd]
      exact hn
    · rw [hd, names, List.map_append]
      exact List.mem_append_left _ hn
  rcases next_created rfl rfl with h | ⟨mp', id', name', dir, hadd, h⟩
  · exact hold (h ▸ hm)
  · rw [h] at hm
    rcases List.mem_cons.mp hm with hm | hm
    · cases hm
      obtain ⟨op, i, hp, rfl⟩ := effect_insert hadd
      obtain ⟨hg, hlen, -⟩ := hI.inserts hok hp
      refine ⟨hI.good hg, ?_⟩
      rw [next_dirAt rfl hadd (hI.good hg).1, Effect.dirAt, if_pos ⟨rfl, rfl⟩, Sys.insertEntry, if_pos hlen, names,
        List.map_append]
      exact List.mem_append_right _ (List.mem_singleton_self _)
    · exact hold hm

theorem CreateInv.entered_next (hI : CreateInv s) {u : Nat} (hu : ((s.next t g).thread u).pc.entered) :
    ((s.next t g).thread u).changed = true := by
  by_cases hut : u = t
  · subst hut
    rw [next_after rfl rfl] at hu ⊢
    rcases planAt_entered hu with h | ⟨mp, id, name, dir, hadd⟩
    · exact after_keeps_changed (hI.entered u h)
    · rw [hadd]
      rfl
  · rw [next_other s g hut] at hu ⊢
    exact hI.entered u hu

end Run

/-- The next step of a thread. -/
theorem CreateInv.run (hI : CreateInv s) (hok : undisturbed s (.run t g))
    (hops : ∀ u op, ((s.next t g).thread u).pc.op = some op → op ≠ .delete) : CreateInv (s.next t g) where
  ops := hops
  owed _ _ _ hu := hI.owed_next hu
  target _ _ _ hu := hI.target_next hu
  descs _ hd := hI.descs_next hd
  root mp := by
    have hr : (s.next t g).rootNode = s.rootNode := perform_rootNode s g _
    rw [hr]
    exact hI.good (hI.root mp)
  entries _ _ h _ hx := hI.entries_next hok h hx
  fresh := hI.fresh.perform
  unique _ _ h := hI.unique_next hok h
  free _ _ _ _ hu := hI.free_next hok hu
  created := hI.created_next hok
  kept _ _ _ hm := hI.kept_next hok hm
  entered _ hu := hI.entered_next hu

end Steps

/-! ## 3. Results -/

section Race

/-- `CreateFile` of `x`. -/
def makeX : Op := .create .file ⟨3, 3, 3, 0⟩ []

theorem runs_other {s : Sys} {t u : Nat} (g : Garbage) (hu : u ≠ t) (n : Nat) :
    (s.runs t g n).thread u = s.thread u := by
  induction n with
  | zero => rfl
  | succ n ih => exact (next_other _ g hu).trans ih

end Race

end Lookup

end SimpleOS2
