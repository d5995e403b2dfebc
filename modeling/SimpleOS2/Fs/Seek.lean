/-
  File:      SimpleOS2/Fs/Seek.lean
  Subject:   `Seek` (fs/VFS.cpp) and the union of `Node` (fs/Node.h).

  The size of a file shares its place in the node with the pointers and numbers of the other node types, and
  `Seek` reads that place whatever the type is. A relative offset is taken as an absolute one.

  * `Info`, `seek` -- the union, and `Seek` on a descriptor;
  * `asked`, `Sought` -- the new position by mode, and what a call should do about it;
  * `seeksRight`, `seek_semantics` -- the condition under which it does; `seek_relative`.
-/
import SimpleOS2.Fs.AcquirePath
import SimpleOS2.Fs.FilePositions

namespace SimpleOS2

namespace Seek

open Lookup (NodeType)
open FilePositions (SeekMode)

/-! ## 1. The call -/

/-- The union of `Node`: two words. -/
structure Info where
  word0 : Nat
  word1 : Nat

def Info.cachedDir (info : Info) : Nat := info.word0
def Info.fileSize (info : Info) : Nat := info.word0
def Info.driverID (info : Info) : Nat := info.word0
def Info.subID (info : Info) : Nat := info.word1
def Info.linkPath (info : Info) : Nat := info.word0

/-- The node of a descriptor. -/
structure Node where
  type : NodeType
  info : Info

structure FileDescriptor where
  node : Node
  pos : Nat

/-- `Seek`: the result and the descriptor afterwards. `none` is the null pointer. -/
def seek : Option FileDescriptor → SeekMode → Nat → Int × Option FileDescriptor
  | none, _, _ => (ErrorInvalidFD, none)
  | some desc, mode, offs =>
      match FilePositions.seek desc.node.info.fileSize mode offs with
      | .error e => (e, some desc)
      | .ok pos => (OK, some { desc with pos := pos })

/-! ## 2. What it should do -/

/-- The size of a regular file. -/
def Node.size (n : Node) : Option Nat := if n.type = .file then some n.info.fileSize else none

/-- The new position that the caller asks for. Only a file has an end. -/
def asked (desc : FileDescriptor) (offs : Nat) : SeekMode → Option Nat
  | .seekSet => some offs
  | .seekRel => some (desc.pos + offs)
  | .seekEnd => desc.node.size

/-- **`Seek` as it should be.** -/
structure Sought (desc : FileDescriptor) (mode : SeekMode) (offs : Nat) (r : Int × Option FileDescriptor) : Prop where
  sets : r.1 = OK → ∃ pos, asked desc offs mode = some pos ∧ r.2 = some { desc with pos := pos }
  fails : r.1 = ErrorSeekOffsetOOB ↔ ∃ size pos, desc.node.size = some size ∧
    asked desc offs mode = some pos ∧ size < pos
  same : r.1 = ErrorSeekOffsetOOB → r.2 = some desc
  total : r.1 = OK ∨ r.1 = ErrorSeekOffsetOOB

/-- **The condition**: on a file a relative offset from the start, or one past the end; on another node an offset
    that is at most the first word of the union, and no end. -/
def seeksRight (desc : FileDescriptor) (mode : SeekMode) (offs : Nat) : Prop :=
  if desc.node.type = .file then mode = .seekRel → desc.pos = 0 ∨ desc.node.info.word0 < offs
  else mode ≠ .seekEnd ∧ offs ≤ desc.node.info.word0 ∧ (mode = .seekRel → desc.pos = 0)

section Results

variable {desc : FileDescriptor} {mode : SeekMode} {offs : Nat}

/-- **What the call does**, by the first word of the union. -/
theorem seek_cases (desc : FileDescriptor) (mode : SeekMode) (offs : Nat) :
    (desc.node.info.word0 < offs ∧ mode ≠ .seekEnd ∧ seek (some desc) mode offs = (ErrorSeekOffsetOOB, some desc)) ∨
      (offs ≤ desc.node.info.word0 ∧ mode ≠ .seekEnd ∧
        seek (some desc) mode offs = (OK, some { desc with pos := offs })) ∨
      (mode = .seekEnd ∧ seek (some desc) mode offs = (OK, some { desc with pos := desc.node.info.word0 })) := by
  by_cases hend : mode = .seekEnd
  · subst hend
    have h : FilePositions.seek desc.node.info.fileSize .seekEnd offs = .ok desc.node.info.fileSize :=
      if_neg (Nat.lt_irrefl _)
    refine Or.inr (Or.inr ⟨rfl, ?_⟩)
    simp only [seek, h]
    rfl
  · have htarget : FilePositions.target desc.node.info.fileSize mode offs = offs := if_neg hend
    by_cases hlt : desc.node.info.word0 < offs
    · have h : FilePositions.seek desc.node.info.fileSize mode offs = .error ErrorSeekOffsetOOB := by
        unfold FilePositions.seek
        rw [htarget]
        exact if_pos hlt
      exact Or.inl ⟨hlt, hend, by simp only [seek, h]⟩
    · have h : FilePositions.seek desc.node.info.fileSize mode offs = .ok offs := by
        unfold FilePositions.seek
        rw [htarget]
        exact if_neg hlt
      exact Or.inr (Or.inl ⟨Nat.le_of_not_lt hlt, hend, by simp only [seek, h]⟩)

theorem ok_ne_error : ¬ ErrorSeekOffsetOOB = OK := by decide

/-- A call that fails with the code is right exactly if it is asked past the end of a file. -/
theorem sought_error : Sought desc mode offs (ErrorSeekOffsetOOB, some desc) ↔
    ∃ size pos, desc.node.size = some size ∧ asked desc offs mode = some pos ∧ size < pos :=
  ⟨fun h => h.fails.mp rfl, fun h => ⟨fun e => absurd e ok_ne_error, ⟨fun _ => h, fun _ => rfl⟩, fun _ => rfl,
    Or.inr rfl⟩⟩

/-- A call that sets a position is right exactly if it is the one asked for, and inside the file. -/
theorem sought_ok {pos : Nat} : Sought desc mode offs (OK, some { desc with pos := pos }) ↔
    asked desc offs mode = some pos ∧ ∀ size, desc.node.size = some size → pos ≤ size := by
  constructor
  · intro h
    obtain ⟨pos', hasked, hset⟩ := h.sets rfl
    cases hset
    refine ⟨hasked, fun size hsize => ?_⟩
    by_contra hlt
    exact ok_ne_error (h.fails.mpr ⟨size, pos, hsize, hasked, Nat.lt_of_not_le hlt⟩).symm
  · intro ⟨hasked, hle⟩
    refine ⟨fun _ => ⟨pos, hasked, rfl⟩, ⟨fun e => absurd e.symm ok_ne_error, ?_⟩, fun e => absurd e.symm ok_ne_error,
      Or.inl rfl⟩
    intro ⟨size, pos', hsize, hasked', hlt⟩
    rw [hasked] at hasked'
    cases hasked'
    exact absurd (hle size hsize) (Nat.not_le.mpr hlt)

/-- **The semantics of `Seek`**, on every node type. -/
theorem seek_semantics (desc : FileDescriptor) (mode : SeekMode) (offs : Nat) :
    Sought desc mode offs (seek (some desc) mode offs) ↔ seeksRight desc mode offs := by
  have hsize : desc.node.type = .file → desc.node.size = some desc.node.info.word0 := fun h => if_pos h
  have hnone : desc.node.type ≠ .file → desc.node.size = none := fun h => if_neg h
  unfold seeksRight
  obtain ⟨hlt, hend, h⟩ | ⟨hle, hend, h⟩ | ⟨hend, h⟩ := seek_cases desc mode offs
  · -- the call fails
    rw [h, sought_error]
    split_ifs with hfile
    · rw [hsize hfile]
      cases mode with
      | seekSet => simp [asked, hlt]
      | seekRel => exact iff_of_true ⟨_, _, rfl, rfl, Nat.lt_add_left _ hlt⟩ fun _ => Or.inr hlt
      | seekEnd => exact absurd rfl hend
    · rw [hnone hfile]
      exact ⟨(fun ⟨_, _, hs, _⟩ => by cases hs), fun ⟨_, hle, _⟩ => absurd hlt (Nat.not_lt.mpr hle)⟩
  · -- it sets the offset
    rw [h, sought_ok]
    split_ifs with hfile
    · rw [hsize hfile]
      cases mode with
      | seekSet => simp [asked, hle]
      | seekRel =>
          simp only [asked, Option.some.injEq, forall_eq', hle, and_true, true_implies]
          omega
      | seekEnd => exact absurd rfl hend
    · rw [hnone hfile]
      cases mode with
      | seekSet => simp [asked, hle]
      | seekRel => simp [asked, hle]
      | seekEnd => exact absurd rfl hend
  · -- it sets the first word of the union
    subst hend
    rw [h, sought_ok]
    split_ifs with hfile
    · simp [asked, hsize hfile]
    · simp [asked, hnone hfile]

/-- **A relative offset**: 2 bytes on from the position 5 of a file of 10 bytes. -/
theorem seek_relative : ¬ ∀ desc mode offs, Sought desc mode offs (seek (some desc) mode offs) := by
  intro hall
  have h := (seek_semantics ⟨⟨.file, ⟨10, 0⟩⟩, 5⟩ .seekRel 2).mp (hall _ _ _)
  exact absurd h (by unfold seeksRight; decide)

/-- A block device of driver 3: no position above 3. -/
example : ¬ Sought ⟨⟨.deviceBlock, ⟨3, 0⟩⟩, 0⟩ .seekSet 512 (seek (some ⟨⟨.deviceBlock, ⟨3, 0⟩⟩, 0⟩) .seekSet 512) :=
  fun h => absurd (h.fails.mp (by decide)) fun ⟨_, _, hs, _⟩ => by cases hs

end Results

end Seek

end SimpleOS2
