/-
  File:      SimpleOS2/Fs/TempFS.lean
  Subject:   WRITES THROUGH ONE DESCRIPTOR TO A FILE OF TempFS (fs/TempFS.cpp, Write of fs/VFS.cpp).

  `VFS::Write` reads the position of the descriptor, writes the data there and stores the advanced
  position: three steps with nothing around them.

  * `writeNodeData` -- the transfer, with the `uint64` arithmetic of the source;
  * `splice` -- a list with a part of it replaced, or appended to at its end;
    `writeNodeData_splice` -- the transfer does this to the bytes of the file;
  * `writeStep` -- the calls of any number of threads on one descriptor, step by step;
  * `oneAtATime` -- no call reads the position while another one is between reading and storing it;
  * `WriteInv`, `writeInv_step`, `writeInv_reach` -- then the calls are serial;
  * `write_lost` -- without that one call's bytes are overwritten by another's.
-/
import Mathlib.Data.List.Basic
import SimpleOS2.Klib.Memory
import SimpleOS2.Lib.Run

namespace SimpleOS2

open Lib

namespace TempFS

/-! ## 1. The transfer -/

/-- The file of a `TestNode`. The bytes from `fileSize` on are not part of it. -/
structure TestNode where
  fileSize : Nat
  fileData : Nat → UInt8

/-- The first `n` bytes. -/
def bytes (mem : Nat → UInt8) (n : Nat) : List UInt8 := (List.range n).map mem

def TestNode.contents (node : TestNode) : List UInt8 := bytes node.fileData node.fileSize

/-- `TempFS::WriteNodeData`: the result and the file afterwards. -/
def writeNodeData (node : TestNode) (pos : Nat) (buffer : UserBuffer) (bufferSize : Nat) :
    Nat × TestNode :=
  let cap := u64 (node.fileSize + 2 ^ 64 - pos)
  let fileSize := if cap < bufferSize then u64 (pos + bufferSize) else node.fileSize
  let c := kmemcpyUsersafe buffer.mapped buffer.mem 0 node.fileData pos bufferSize
  (if c.1 then bufferSize else asU64 ErrorInvalidBuffer, ⟨fileSize, c.2⟩)

/-- An array in memory is shorter than 2^63 bytes. -/
def TestNode.InMemory (node : TestNode) : Prop := node.fileSize < 2 ^ 63

/-- An `uint64` read as an `int64`. -/
def int64 (n : Nat) : Int := if n < 2 ^ 63 then n else n - 2 ^ 64

/-! ## 2. The calls -/

/-- Where a thread stands in `VFS::Write`. -/
inductive WritePc where
  | idle
  /-- After `pos = desc->pos.Read()`. -/
  | posRead (pos bufferSize : Nat)
  /-- After `res = _Write(...)`, with the bytes of the buffer. -/
  | wrote (pos bufferSize res : Nat) (data : List UInt8)

/-- A call that has returned: the size it was asked to write, the bytes of its buffer, its result. -/
structure Returned where
  bufferSize : Nat
  data : List UInt8
  res : Int

/-- The calls got through whole. -/
def Returned.full (c : Returned) : Prop := c.res = c.bufferSize

/-- The descriptor, the file, the threads, and the calls that have returned, in their order. -/
structure WriteSys where
  writable : Bool
  pos : Nat
  node : TestNode
  pc : Nat → WritePc
  returned : List Returned

def WriteSys.goto (s : WriteSys) (t : Nat) (p : WritePc) : WriteSys :=
  { s with pc := Function.update s.pc t p }

inductive WriteEvent where
  | denied (t bufferSize : Nat)
  | posRead (t bufferSize : Nat)
  | transfer (t : Nat) (buffer : UserBuffer)
  | posWrite (t : Nat)

inductive writeStep : WriteSys → WriteEvent → WriteSys → Prop where
  | denied (s : WriteSys) (t bufferSize : Nat) (ht : s.pc t = .idle) (hw : s.writable = false) :
      writeStep s (.denied t bufferSize)
        { s with returned := s.returned ++ [⟨bufferSize, [], ErrorPermissionDenied⟩] }
  | posRead (s : WriteSys) (t bufferSize : Nat) (ht : s.pc t = .idle) (hw : s.writable = true) :
      writeStep s (.posRead t bufferSize) (s.goto t (.posRead s.pos bufferSize))
  /-- `_Write` on a file. -/
  | transfer (s : WriteSys) (t : Nat) (buffer : UserBuffer) (pos bufferSize : Nat)
      (ht : s.pc t = .posRead pos bufferSize)
      (hmem : (writeNodeData s.node pos buffer bufferSize).2.InMemory) :
      writeStep s (.transfer t buffer)
        (WriteSys.goto { s with node := (writeNodeData s.node pos buffer bufferSize).2 } t
          (.wrote pos bufferSize (writeNodeData s.node pos buffer bufferSize).1
            (bytes buffer.mem bufferSize)))
  /-- `desc->pos.Write(pos + res)` if the result is no error, and the return. -/
  | posWrite (s : WriteSys) (t pos bufferSize res : Nat) (data : List UInt8)
      (ht : s.pc t = .wrote pos bufferSize res data) :
      writeStep s (.posWrite t)
        (WriteSys.goto { s with
          pos := if 0 ≤ int64 res then u64 (pos + res) else s.pos
          returned := s.returned ++ [⟨bufferSize, data, int64 res⟩] } t .idle)

/-- No call is under way and none has returned. -/
def writeInit (s0 s : WriteSys) : Prop :=
  s = s0 ∧ (∀ t, s0.pc t = .idle) ∧ s0.returned = [] ∧ s0.node.InMemory

/-- `l` with `b` in place of what stands from `p` on. -/
def splice {α : Type _} (l : List α) (p : Nat) (b : List α) : List α :=
  l.take p ++ b ++ l.drop (p + b.length)

/-- **The calls are serial**: if all have returned their full sizes, then, one after the other in some
    order, each call's data stands behind that of the call before it, and the position stands behind
    the last. -/
def Serial (s0 s : WriteSys) : Prop :=
  (∀ t, s.pc t = .idle) → (∀ c ∈ s.returned, c.full) →
    ∃ order : List (List UInt8), order.Perm (s.returned.map Returned.data) ∧
      s.pos = s0.pos + order.flatten.length ∧
      s.node.contents = splice s0.node.contents s0.pos order.flatten

/-! ## 3. The condition -/

/-- A call reads the position only when no other call is between reading and storing it, and when the
    position is not behind the end of the file. -/
def oneAtATime (s : WriteSys) : WriteEvent → Prop
  | .posRead _ _ => (∀ u, s.pc u = .idle) ∧ s.pos ≤ s.node.fileSize
  | _ => True

/-! ## 4. Spliced lists -/

section Splice

variable {α : Type _} {l b : List α} {p : Nat}

theorem splice_nil (l : List α) (p : Nat) : splice l p [] = l := by
  simp [splice]

theorem splice_length_le (h : p + b.length ≤ (splice l p b).length) : p ≤ l.length := by
  simp only [splice, List.length_append, List.length_take, List.length_drop] at h
  omega

/-- Behind what was put in comes the next. -/
theorem splice_splice (h : p ≤ l.length) (b b' : List α) :
    splice (splice l p b) (p + b.length) b' = splice l p (b ++ b') := by
  have htake : (l.take p ++ b).length = p + b.length := by
    rw [List.length_append, List.length_take, Nat.min_eq_left h]
  have hrest : (l.take p ++ b ++ l.drop (p + b.length)).drop (p + b.length + b'.length) =
      l.drop (p + (b ++ b').length) := by
    rw [← List.drop_drop, ← htake, List.drop_left, List.drop_drop, htake, List.length_append,
      Nat.add_assoc]
  unfold splice
  rw [hrest, ← htake, List.take_left]
  simp only [List.append_assoc]

end Splice

section Transfer

variable {node : TestNode} {pos n : Nat} {buffer : UserBuffer}

@[simp] theorem bytes_length (mem : Nat → UInt8) (n : Nat) : (bytes mem n).length = n := by
  simp [bytes]

theorem bytes_add (mem : Nat → UInt8) (m n : Nat) :
    bytes mem (m + n) = bytes mem m ++ bytes (fun i => mem (m + i)) n := by
  unfold bytes
  rw [List.range_add, List.map_append, List.map_map]
  rfl

theorem bytes_congr {mem mem' : Nat → UInt8} {n : Nat} (h : ∀ i < n, mem i = mem' i) :
    bytes mem n = bytes mem' n := List.map_congr_left fun i hi => h i (List.mem_range.mp hi)

theorem bytes_take {mem : Nat → UInt8} {m n : Nat} (h : m ≤ n) : (bytes mem n).take m = bytes mem m := by
  obtain ⟨k, rfl⟩ := Nat.exists_eq_add_of_le h
  rw [bytes_add, List.take_left' (bytes_length mem m)]

theorem bytes_drop (mem : Nat → UInt8) (m n : Nat) :
    (bytes mem n).drop m = bytes (fun i => mem (m + i)) (n - m) := by
  by_cases h : m ≤ n
  · obtain ⟨k, rfl⟩ := Nat.exists_eq_add_of_le h
    rw [bytes_add, List.drop_left' (bytes_length mem m), Nat.add_sub_cancel_left]
  · have hz : n - m = 0 := by omega
    rw [hz]
    exact List.drop_eq_nil_of_le (by rw [bytes_length]; omega)

@[simp] theorem contents_length (node : TestNode) : node.contents.length = node.fileSize :=
  bytes_length _ _

/-- A full result means that the copy went through. -/
theorem writeNodeData_full (h : int64 (writeNodeData node pos buffer n).1 = n) :
    (kmemcpyUsersafe buffer.mapped buffer.mem 0 node.fileData pos n).1 = true ∧
      (writeNodeData node pos buffer n).1 = n ∧ n < 2 ^ 63 := by
  by_cases hc : (kmemcpyUsersafe buffer.mapped buffer.mem 0 node.fileData pos n).1 = true
  · have hres : (writeNodeData node pos buffer n).1 = n := if_pos hc
    refine ⟨hc, hres, ?_⟩
    by_contra hge
    rw [hres, int64, if_neg hge] at h
    omega
  · have hres : (writeNodeData node pos buffer n).1 = asU64 ErrorInvalidBuffer := if_neg hc
    have herr : int64 (asU64 ErrorInvalidBuffer) = -7 := by decide
    rw [hres, herr] at h
    omega

/-- The size of the file after the transfer. -/
theorem writeNodeData_size (buffer : UserBuffer) (hpos : pos ≤ node.fileSize) (hfit : node.InMemory)
    (hn : n < 2 ^ 63) :
    (writeNodeData node pos buffer n).2.fileSize = max node.fileSize (pos + n) := by
  have hlt : node.fileSize < 2 ^ 63 := hfit
  have hcap : u64 (node.fileSize + 2 ^ 64 - pos) = node.fileSize - pos := by
    unfold u64
    omega
  have hsum : u64 (pos + n) = pos + n := u64_of_lt (by omega)
  simp only [writeNodeData, hcap, hsum]
  split_ifs with h
  · omega
  · omega

/-- **The transfer puts the buffer in at the position.** -/
theorem writeNodeData_splice (hpos : pos ≤ node.fileSize) (hfit : node.InMemory)
    (hfull : int64 (writeNodeData node pos buffer n).1 = n) :
    (writeNodeData node pos buffer n).2.contents = splice node.contents pos (bytes buffer.mem n) := by
  obtain ⟨hcopy, -, hn⟩ := writeNodeData_full hfull
  have hsize := writeNodeData_size buffer hpos hfit hn
  have hsplit : max node.fileSize (pos + n) = pos + n + (node.fileSize - (pos + n)) := by omega
  show bytes (kmemcpyUsersafe buffer.mapped buffer.mem 0 node.fileData pos n).2
    (writeNodeData node pos buffer n).2.fileSize = _
  rw [hsize, hsplit, bytes_add, bytes_add]
  unfold splice TestNode.contents
  rw [bytes_take hpos, bytes_length, bytes_drop]
  -- in front of the position, in the range of the copy, and behind it
  congr 1
  · congr 1
    · exact bytes_congr fun i hi => kmemcpyUsersafe_frame _ _ _ (Or.inl hi)
    · refine bytes_congr fun i hi => ?_
      rw [kmemcpyUsersafe_copied _ _ _ hcopy hi, Nat.zero_add]
  · exact bytes_congr fun i hi => kmemcpyUsersafe_frame _ _ _ (Or.inr (Nat.le_add_right _ _))

end Transfer

/-! ## 5. The invariant -/

/-- The data of the calls that have returned, one behind the other. -/
def WriteSys.written (s : WriteSys) : List UInt8 := (s.returned.map Returned.data).flatten

/-- Some call did not get through whole. -/
def Failed (s : WriteSys) : Prop :=
  (∃ c ∈ s.returned, ¬ c.full) ∨
    ∃ t pos n res data, s.pc t = .wrote pos n res data ∧ int64 res ≠ n

structure WriteOk (s0 s : WriteSys) : Prop where
  fits : s.node.InMemory
  one : ∀ t u, s.pc t ≠ .idle → s.pc u ≠ .idle → t = u
  pos : s.pos = s0.pos + s.written.length
  idle : (∀ t, s.pc t = .idle) → s.node.contents = splice s0.node.contents s0.pos s.written
  posRead : ∀ t pos n, s.pc t = .posRead pos n →
    pos = s.pos ∧ pos ≤ s.node.fileSize ∧
      s.node.contents = splice s0.node.contents s0.pos s.written
  wrote : ∀ t pos n res data, s.pc t = .wrote pos n res data →
    pos = s.pos ∧ data.length = n ∧ res = n ∧ n < 2 ^ 63 ∧ pos + n < 2 ^ 64 ∧
      s.node.contents = splice s0.node.contents s0.pos (s.written ++ data)

/-- Until a call fails, the file and the position are those of the serial calls. -/
def WriteInv (s0 s : WriteSys) : Prop := Failed s ∨ WriteOk s0 s

section Inv

variable {s0 s : WriteSys} {t : Nat}

@[simp] theorem goto_self (s : WriteSys) (t : Nat) (p : WritePc) : (s.goto t p).pc t = p := by
  simp [WriteSys.goto]

theorem goto_other {u : Nat} (h : u ≠ t) (s : WriteSys) (p : WritePc) :
    (s.goto t p).pc u = s.pc u := by
  simp [WriteSys.goto, h]

theorem writeInv_init (h : writeInit s0 s) : WriteInv s0 s := by
  obtain ⟨rfl, hidle, hret, hfit⟩ := h
  have hw : s.written = [] := by rw [WriteSys.written, hret]; rfl
  refine Or.inr ⟨hfit, fun t u ht => absurd (hidle t) ht, ?_, fun _ => ?_, fun t pos n ht => ?_,
    fun t pos n res data ht => ?_⟩
  · rw [hw]
    rfl
  · rw [hw, splice_nil]
  · rw [hidle t] at ht
    cases ht
  · rw [hidle t] at ht
    cases ht

theorem denied_failed (s : WriteSys) (n : Nat) :
    Failed { s with returned := s.returned ++ [⟨n, [], ErrorPermissionDenied⟩] } := by
  refine Or.inl ⟨_, List.mem_append_right _ List.mem_cons_self, ?_⟩
  show ¬ ErrorPermissionDenied = (n : Int)
  unfold ErrorPermissionDenied
  omega

/-- A call that failed stays so. -/
theorem failed_step {s' : WriteSys} {ev : WriteEvent} (h : Failed s) (hs : writeStep s ev s') :
    Failed s' := by
  -- only the step of the failed call itself moves it, to the calls that have returned
  have hkeep : ∀ s'' u p, s''.returned = s.returned → s''.pc = s.pc →
      (∀ pos n res data, s.pc u = .wrote pos n res data → int64 res = n) →
      Failed (WriteSys.goto s'' u p) := fun s'' u p hr hp hu => by
    cases h with
    | inl h => exact Or.inl (by rw [← hr] at h; exact h)
    | inr h =>
        obtain ⟨w, pos, n, res, data, hw, hne⟩ := h
        have hwu : w ≠ u := fun e => hne (hu pos n res data (e ▸ hw))
        refine Or.inr ⟨w, pos, n, res, data, ?_, hne⟩
        rw [goto_other hwu, hp]
        exact hw
  cases hs with
  | denied t n ht hw => exact denied_failed s n
  | posRead t n ht hw =>
      exact hkeep s t _ rfl rfl fun pos n res data e => by rw [ht] at e; cases e
  | transfer t buffer pos n ht hmem =>
      exact hkeep _ t _ rfl rfl fun pos n res data e => by rw [ht] at e; cases e
  | posWrite t pos n res data ht =>
      by_cases hfull : int64 res = n
      · cases h with
        | inl h =>
            obtain ⟨c, hc, hne⟩ := h
            exact Or.inl ⟨c, List.mem_append_left _ hc, hne⟩
        | inr h =>
            obtain ⟨w, pos', n', res', data', hw, hne⟩ := h
            have hwt : w ≠ t := fun e => by
              rw [e, ht] at hw
              cases hw
              exact hne hfull
            exact Or.inr ⟨w, pos', n', res', data', by rw [goto_other hwt]; exact hw, hne⟩
      · exact Or.inl ⟨_, List.mem_append_right _ List.mem_cons_self, hfull⟩

/-- A thread that is in a call is the only one. -/
theorem WriteOk.alone (h : WriteOk s0 s) (ht : s.pc t ≠ .idle) {u : Nat} (hut : u ≠ t) :
    s.pc u = .idle := by
  by_contra hu
  exact hut (h.one u t hu ht)

/-- The other threads are idle and `t` moves on. -/
theorem one_goto (h : ∀ u, u ≠ t → s.pc u = .idle) {p : WritePc} {u : Nat} {q : WritePc}
    (hu : (s.goto t p).pc u = q) (hq : q ≠ .idle) : u = t ∧ p = q := by
  by_cases hut : u = t
  · subst hut
    rw [goto_self] at hu
    exact ⟨rfl, hu⟩
  · rw [goto_other hut, h u hut] at hu
    exact absurd hu.symm hq

theorem writeOk_posRead (h : WriteOk s0 s) (hidle : ∀ u, s.pc u = .idle)
    (hle : s.pos ≤ s.node.fileSize) (n : Nat) : WriteOk s0 (s.goto t (.posRead s.pos n)) := by
  have hmoved := fun u q => one_goto (s := s) (t := t) (p := .posRead s.pos n) (u := u) (q := q)
    fun w _ => hidle w
  refine ⟨h.fits, fun u w hu hw => ?_, h.pos, fun hall => ?_, fun u pos m hu => ?_,
    fun u pos m res data hu => ?_⟩
  · rw [(hmoved u _ rfl hu).1, (hmoved w _ rfl hw).1]
  · have := hall t
    rw [goto_self] at this
    cases this
  · cases (hmoved u _ hu (by simp)).2
    exact ⟨rfl, hle, h.idle hidle⟩
  · cases (hmoved u _ hu (by simp)).2

/-- The transfer of the only call that is under way. -/
theorem writeOk_transfer (h : WriteOk s0 s) {pos n : Nat} (ht : s.pc t = .posRead pos n)
    {node : TestNode} (hfits : node.InMemory) {data : List UInt8} (hlen : data.length = n)
    (hn : n < 2 ^ 63) (hnode : node.contents = splice s.node.contents pos data) :
    WriteOk s0 (WriteSys.goto { s with node := node } t (.wrote pos n n data)) := by
  obtain ⟨hp, hle, hcont⟩ := h.posRead t pos n ht
  have halone : ∀ u, u ≠ t → ({ s with node := node } : WriteSys).pc u = .idle := fun u hut =>
    h.alone (by rw [ht]; simp) hut
  have hmoved := fun u q => one_goto (t := t) (p := .wrote pos n n data) (u := u) (q := q) halone
  have hold : s.node.fileSize < 2 ^ 63 := h.fits
  -- the position is the end of what was written before
  have hend : s0.pos + s.written.length ≤ (splice s0.node.contents s0.pos s.written).length := by
    rw [← hcont, contents_length, ← h.pos, ← hp]
    exact hle
  refine ⟨hfits, fun u w hu hw => ?_, h.pos, fun hall => ?_, fun u pos' m hu => ?_,
    fun u pos' m res data' hu => ?_⟩
  · rw [(hmoved u _ rfl hu).1, (hmoved w _ rfl hw).1]
  · have := hall t
    rw [goto_self] at this
    cases this
  · cases (hmoved u _ hu (by simp)).2
  · cases (hmoved u _ hu (by simp)).2
    refine ⟨hp, hlen, rfl, hn, by omega, ?_⟩
    show node.contents = splice s0.node.contents s0.pos (s.written ++ data)
    rw [hnode, hcont, hp, h.pos]
    exact splice_splice (splice_length_le hend) _ _

/-- The only call that is under way stores the position and returns. -/
theorem writeOk_posWrite (h : WriteOk s0 s) {pos n res : Nat} {data : List UInt8}
    (ht : s.pc t = .wrote pos n res data) {pos' : Nat} (hpos' : pos' = pos + n) (r : Int) :
    WriteOk s0 (WriteSys.goto { s with
      pos := pos'
      returned := s.returned ++ [⟨n, data, r⟩] } t .idle) := by
  obtain ⟨hp, hlen, hres, hn, hsum, hcont⟩ := h.wrote t pos n res data ht
  have halone : ∀ u, u ≠ t → s.pc u = .idle := fun u hut => h.alone (by rw [ht]; simp) hut
  have hidle : ∀ u, (Function.update s.pc t .idle) u = .idle := fun u => by
    by_cases hut : u = t
    · rw [hut, Function.update_self]
    · rw [Function.update_of_ne hut]
      exact halone u hut
  have hwritten : ((s.returned ++ [(⟨n, data, r⟩ : Returned)]).map Returned.data).flatten = s.written ++ data := by
    simp [WriteSys.written]
  refine ⟨h.fits, fun u w hu => absurd (hidle u) hu, ?_, fun _ => ?_, fun u p m hu => ?_,
    fun u p m res' data' hu => ?_⟩
  · show pos' = s0.pos + ((s.returned ++ [(⟨n, data, r⟩ : Returned)]).map Returned.data).flatten.length
    rw [hwritten, List.length_append, hlen, ← Nat.add_assoc, ← h.pos, ← hp]
    exact hpos'
  · show s.node.contents = splice s0.node.contents s0.pos
      ((s.returned ++ [(⟨n, data, r⟩ : Returned)]).map Returned.data).flatten
    rw [hwritten]
    exact hcont
  · exact absurd ((hidle u).symm.trans hu) (by simp)
  · exact absurd ((hidle u).symm.trans hu) (by simp)

theorem writeInv_step {s' : WriteSys} {ev : WriteEvent} (hI : WriteInv s0 s)
    (hs : Guarded writeStep oneAtATime s ev s') : WriteInv s0 s' := by
  obtain ⟨hs, hok⟩ := hs
  cases hI with
  | inl h => exact Or.inl (failed_step h hs)
  | inr h =>
      cases hs with
      | denied t n ht hw => exact Or.inl (denied_failed s n)
      | posRead t n ht hw => exact Or.inr (writeOk_posRead h hok.1 hok.2 n)
      | transfer t buffer pos n ht hmem =>
          by_cases hfull : int64 (writeNodeData s.node pos buffer n).1 = n
          · obtain ⟨-, hres, hn⟩ := writeNodeData_full hfull
            have hnew := writeNodeData_splice (h.posRead t pos n ht).2.1 h.fits hfull
            rw [hres]
            exact Or.inr (writeOk_transfer h ht hmem (bytes_length _ _) hn hnew)
          · exact Or.inl (Or.inr ⟨t, pos, n, _, _, goto_self _ _ _, hfull⟩)
      | posWrite t pos n res data ht =>
          obtain ⟨-, -, hres, hn, hsum, -⟩ := h.wrote t pos n res data ht
          have hint : int64 res = n := by rw [hres, int64, if_pos hn]
          have hpos : (if 0 ≤ int64 res then u64 (pos + res) else s.pos) = pos + n := by
            rw [if_pos (by rw [hint]; exact Int.natCast_nonneg n), hres]
            exact u64_of_lt hsum
          exact Or.inr (writeOk_posWrite h ht hpos _)

theorem writeInv_reach (h : Reach (Guarded writeStep oneAtATime) (writeInit s0) s) : WriteInv s0 s :=
  Reach.inv (I := WriteInv s0) (fun _ h0 => writeInv_init h0) (fun _ _ _ hI hs => writeInv_step hI hs) h

end Inv

/-! ## 6. Whole runs -/

/-- **No write is lost** in any run whose calls read the position one at a time. -/
theorem writes_serial {s0 s : WriteSys} (h : Reach (Guarded writeStep oneAtATime) (writeInit s0) s) :
    Serial s0 s := by
  intro hidle hfull
  cases writeInv_reach h with
  | inl hf =>
      cases hf with
      | inl hf =>
          obtain ⟨c, hc, hne⟩ := hf
          exact absurd (hfull c hc) hne
      | inr hf =>
          obtain ⟨t, pos, n, res, data, ht, -⟩ := hf
          rw [hidle t] at ht
          cases ht
  | inr hok =>
      refine ⟨s.returned.map Returned.data, List.Perm.refl _, ?_, ?_⟩
      · exact hok.pos
      · exact hok.idle hidle

/-- An empty file, open for writing. -/
def emptyFile : WriteSys := ⟨true, 0, ⟨0, fun _ => 0⟩, fun _ => .idle, []⟩

theorem emptyFile_init : writeInit emptyFile emptyFile :=
  ⟨rfl, fun _ => rfl, rfl, by show 0 < 2 ^ 63; decide⟩

/-- A mapped buffer full of the byte `b`. -/
def bufferOf (b : UInt8) : UserBuffer := ⟨fun _ => b, fun _ => true⟩

/-- The transfer of such a buffer. -/
theorem transfer_bufferOf {s : WriteSys} {t pos n : Nat} (ht : s.pc t = .posRead pos n)
    (hpos : pos ≤ s.node.fileSize) (hfit : s.node.fileSize + n < 2 ^ 63) (b : UInt8) :
    writeStep s (.transfer t (bufferOf b)) (WriteSys.goto { s with
      node := ⟨max s.node.fileSize (pos + n),
        fun i => if pos ≤ i ∧ i < pos + n then b else s.node.fileData i⟩ } t
      (.wrote pos n n (bytes (bufferOf b).mem n))) := by
  have hmem : s.node.InMemory := show s.node.fileSize < 2 ^ 63 by omega
  have hsize := writeNodeData_size (n := n) (bufferOf b) hpos hmem (by omega)
  have hcopy : (kmemcpyUsersafe (bufferOf b).mapped (bufferOf b).mem 0 s.node.fileData pos n).1 = true :=
    (kmemcpyUsersafe_ok _ _).mpr fun _ _ => rfl
  have hres : (writeNodeData s.node pos (bufferOf b) n).1 = n := if_pos hcopy
  have hdata : (writeNodeData s.node pos (bufferOf b) n).2.fileData =
      fun i => if pos ≤ i ∧ i < pos + n then b else s.node.fileData i := by
    funext i
    by_cases hi : pos ≤ i ∧ i < pos + n
    · rw [if_pos hi]
      obtain ⟨j, rfl⟩ := Nat.exists_eq_add_of_le hi.1
      exact kmemcpyUsersafe_copied _ _ _ hcopy (by omega)
    · rw [if_neg hi]
      exact kmemcpyUsersafe_frame _ _ _ (by omega)
  have hnode : (writeNodeData s.node pos (bufferOf b) n).2 = ⟨max s.node.fileSize (pos + n),
      fun i => if pos ≤ i ∧ i < pos + n then b else s.node.fileData i⟩ := by
    rw [← hsize, ← hdata]
  have hstep := writeStep.transfer s t (bufferOf b) pos n ht
    (by show (writeNodeData s.node pos (bufferOf b) n).2.fileSize < 2 ^ 63; omega)
  rw [hnode, hres] at hstep
  exact hstep

/-- Two threads write two bytes each, one after the other. -/
theorem writes_serial_two : ∃ s, Reach (Guarded writeStep oneAtATime) (writeInit emptyFile) s ∧
    s.pos = 4 ∧ s.node.contents = [1, 1, 2, 2] ∧ Serial emptyFile s := by
  have h0 : Reach (Guarded writeStep oneAtATime) (writeInit emptyFile) emptyFile := .start _ emptyFile_init
  have h1 := Reach.next _ _ _ h0 ⟨writeStep.posRead _ 0 2 rfl rfl, fun _ => rfl, by decide⟩
  have h2 := Reach.next _ _ _ h1 ⟨transfer_bufferOf (t := 0) rfl (by decide) (by decide) 1, trivial⟩
  have h3 := Reach.next _ _ _ h2 ⟨writeStep.posWrite _ 0 0 2 2 _ rfl, trivial⟩
  have h4 := Reach.next _ _ _ h3 ⟨writeStep.posRead _ 1 2 rfl rfl, fun u => ?_, by decide⟩
  · have h5 := Reach.next _ _ _ h4 ⟨transfer_bufferOf (t := 1) rfl (by decide) (by decide) 2, trivial⟩
    have h6 := Reach.next _ _ _ h5 ⟨writeStep.posWrite _ 1 2 2 2 _ rfl, trivial⟩
    exact ⟨_, h6, by decide, by decide, writes_serial h6⟩
  · by_cases hu : u = 0
    · subst hu
      rfl
    · simp [WriteSys.goto, emptyFile]

/-- **One call's bytes are overwritten**: both threads read the position 0 before either stores it. -/
theorem write_lost : ¬ ∀ s0 s, Reach writeStep (writeInit s0) s → Serial s0 s := by
  intro hall
  have h0 : Reach writeStep (writeInit emptyFile) emptyFile := .start _ emptyFile_init
  have h1 := Reach.next _ _ _ h0 (writeStep.posRead _ 0 2 rfl rfl)
  have h2 := Reach.next _ _ _ h1 (writeStep.posRead _ 1 2 rfl rfl)
  have h3 := Reach.next _ _ _ h2 (transfer_bufferOf (t := 0) rfl (by decide) (by decide) 1)
  have h4 := Reach.next _ _ _ h3 (transfer_bufferOf (t := 1) rfl (by decide) (by decide) 2)
  have h5 := Reach.next _ _ _ h4 (writeStep.posWrite _ 0 0 2 2 _ rfl)
  have h6 := Reach.next _ _ _ h5 (writeStep.posWrite _ 1 0 2 2 _ rfl)
  have hserial := hall _ _ h6
  have hdone : ∀ u, Function.update (Function.update (Function.update (Function.update (Function.update
      (Function.update (fun _ => WritePc.idle) 0 (.posRead 0 2)) 1 (.posRead 0 2)) 0
        (.wrote 0 2 2 [1, 1])) 1 (.wrote 0 2 2 [2, 2])) 0 .idle) 1 .idle u = .idle := fun u => by
    by_cases hu : u = 1
    · rw [hu, Function.update_self]
    · by_cases hu0 : u = 0
      · rw [Function.update_of_ne hu, hu0, Function.update_self]
      · simp only [Function.update_of_ne hu, Function.update_of_ne hu0]
  obtain ⟨order, hperm, hpos, -⟩ := hserial hdone fun c hc => by
    simp only [WriteSys.goto, emptyFile, List.nil_append, List.cons_append, List.mem_cons,
      List.not_mem_nil, or_false] at hc
    cases hc with
    | inl h => rw [h]; rfl
    | inr h => rw [h]; rfl
  -- the position is 2, the two calls wrote 4 bytes
  have hlen := (hperm.flatten).length_eq
  rw [hlen] at hpos
  exact absurd hpos (by decide)

end TempFS

end SimpleOS2
