/-
  File:      SimpleOS2/Fs/FileData.lean
  Subject:   THE BYTES OF A TempFS FILE (ReadNodeData, WriteNodeData and ClearNodeData of fs/TempFS.cpp).

  A write past the end allocates a longer array, copies the file there, stores the new size in both places,
  and only then copies from the buffer of the user.

  * `kmemcpy` -- the copy between two arrays, eight bytes at a time and then the rest;
  * `write` -- `WriteNodeData` with the new array; `write_old` -- `FilePositions.File.write` is this function,
    where the new memory happens to hold the old bytes;
  * `Call`, `runs`, `applies` -- calls one after the other, on the file and on a list of bytes;
    `files_are_byte_arrays` -- their replies are the same;
  * `Mirrored`, `size_mirror` -- the two sizes agree exactly as long as only an empty file is cleared;
    `clear_leaves_size`;
  * `Kept`, `failed_write` -- a write that fails leaves the file alone exactly where it does not lengthen it;
    `failed_write_grows`.
-/
import SimpleOS2.Fs.FilePositions

namespace SimpleOS2

namespace FileData

open TempFS FilePositions

/-! ## 1. The functions -/

/-- `kmemcpyq`. -/
def kmemcpyq (src dst : Nat → UInt8) : (count : Nat) → Nat → UInt8
  | 0 => dst
  | n + 1 => fun x => if 8 * n ≤ x ∧ x < 8 * n + 8 then src x else kmemcpyq src dst n x

/-- `kmemcpyb`, from the `a`th byte on. -/
def kmemcpyb (src dst : Nat → UInt8) (a : Nat) : (count : Nat) → Nat → UInt8
  | 0 => dst
  | n + 1 => Function.update (kmemcpyb src dst a n) (a + n) (src (a + n))

/-- `kmemcpy` from one array to another. -/
def kmemcpy (src dst : Nat → UInt8) (size : Nat) : Nat → UInt8 :=
  let numq := size / 8
  let rem := size % 8
  kmemcpyb src (kmemcpyq src dst numq) (8 * numq) rem

/-- The lines of `WriteNodeData` under `cap < bufferSize`. `garbage` is what the new array holds. -/
def lengthen (f : File) (garbage : Nat → UInt8) (fileSize : Nat) : File :=
  ⟨⟨fileSize, kmemcpy f.node.fileData garbage f.node.fileSize⟩, fileSize⟩

/-- `TempFS::WriteNodeData`: the result and the file afterwards. -/
def write (f : File) (garbage : Nat → UInt8) (pos : Nat) (buffer : UserBuffer) (bufferSize : Nat) : Nat × File :=
  let cap := u64 (f.node.fileSize + 2 ^ 64 - pos)
  let f := if cap < bufferSize then lengthen f garbage (u64 (pos + bufferSize)) else f
  let c := kmemcpyUsersafe buffer.mapped buffer.mem 0 f.node.fileData pos bufferSize
  (if c.1 then bufferSize else asU64 ErrorInvalidBuffer, { f with node := { f.node with fileData := c.2 } })

section Functions

variable {src dst garbage : Nat → UInt8} {f : File} {pos n x : Nat} {buffer : UserBuffer}

theorem kmemcpyq_eq (count x : Nat) : kmemcpyq src dst count x = if x < 8 * count then src x else dst x := by
  induction count with
  | zero => rfl
  | succ n ih =>
      show (if 8 * n ≤ x ∧ x < 8 * n + 8 then src x else kmemcpyq src dst n x) = _
      rw [ih]
      split_ifs <;> first | rfl | omega

theorem kmemcpyb_eq (a count x : Nat) :
    kmemcpyb src dst a count x = if a ≤ x ∧ x < a + count then src x else dst x := by
  induction count with
  | zero => exact (if_neg (by omega)).symm
  | succ n ih =>
      by_cases hx : x = a + n
      · subst hx
        rw [kmemcpyb, Function.update_self, if_pos (by omega)]
      · rw [kmemcpyb, Function.update_of_ne hx, ih]
        split_ifs <;> first | rfl | omega

/-- **`kmemcpy`** between two arrays. -/
theorem kmemcpy_eq (size x : Nat) : kmemcpy src dst size x = if x < size then src x else dst x := by
  have hsize : 8 * (size / 8) + size % 8 = size := Nat.div_add_mod size 8
  unfold kmemcpy
  rw [kmemcpyb_eq, kmemcpyq_eq]
  split_ifs <;> first | rfl | omega

/-- A copy of an array onto itself. -/
theorem kmemcpy_same (size : Nat) : kmemcpy src src size = src := by
  funext x
  rw [kmemcpy_eq]
  exact ite_self _

theorem write_long (h : u64 (f.node.fileSize + 2 ^ 64 - pos) < n) :
    (write f garbage pos buffer n).2.node.fileSize = u64 (pos + n) ∧
      (write f garbage pos buffer n).2.infoSize = u64 (pos + n) := by
  simp only [write, lengthen, if_pos h, and_self]

theorem write_short (h : ¬ u64 (f.node.fileSize + 2 ^ 64 - pos) < n) :
    (write f garbage pos buffer n).2.node.fileSize = f.node.fileSize ∧
      (write f garbage pos buffer n).2.infoSize = f.infoSize := by
  simp only [write, if_neg h, and_self]

/-- The bytes of the file that the write is not about. -/
theorem write_outside (hx : x < f.node.fileSize) (hout : x < pos ∨ pos + n ≤ x) :
    (write f garbage pos buffer n).2.node.fileData x = f.node.fileData x := by
  unfold write
  dsimp only
  refine (kmemcpyUsersafe_frame _ _ _ hout).trans ?_
  split_ifs
  · exact (kmemcpy_eq _ _).trans (if_pos hx)
  · rfl

theorem write_copied {i : Nat} (h : ∀ j < n, buffer.mapped j = true) (hi : i < n) :
    (write f garbage pos buffer n).2.node.fileData (pos + i) = buffer.mem i := by
  unfold write
  dsimp only
  rw [kmemcpyUsersafe_copied _ _ _ ((kmemcpyUsersafe_ok _ _).mpr h) hi, Nat.zero_add]

theorem write_res (h : ∀ j < n, buffer.mapped j = true) : (write f garbage pos buffer n).1 = n :=
  if_pos ((kmemcpyUsersafe_ok _ _).mpr h)

/-- `File.write`, where the new array holds the old bytes. -/
theorem write_old (f : File) (pos : Nat) (buffer : UserBuffer) (n : Nat) :
    write f f.node.fileData pos buffer n = f.write pos buffer n := by
  by_cases h : u64 (f.node.fileSize + 2 ^ 64 - pos) < n
  · simp only [write, File.write, writeNodeData, lengthen, if_pos h, kmemcpy_same]
  · simp only [write, File.write, writeNodeData, if_neg h]

end Functions

/-! ## 2. Calls one after the other -/

/-- A call, with its buffer and with the memory that it may be given. -/
inductive Call where
  | read (pos : Nat) (buffer : UserBuffer) (bufferSize : Nat)
  | write (garbage : Nat → UInt8) (pos : Nat) (buffer : UserBuffer) (bufferSize : Nat)
  | clear

/-- What the caller gets: the result, and the bytes of its buffer that the result counts. -/
structure Reply where
  res : Nat
  data : List UInt8
  deriving DecidableEq

/-- A call on the file. -/
def Call.run (f : File) : Call → File × Reply
  | .read pos buffer n =>
      let r := readNodeData f.node pos buffer n
      (f, ⟨r.1, bytes r.2.mem r.1⟩)
  | .write garbage pos buffer n =>
      let r := FileData.write f garbage pos buffer n
      (r.2, ⟨r.1, []⟩)
  | .clear => (f.clear, ⟨0, []⟩)

def runs : File → List Call → File × List Reply
  | f, [] => (f, [])
  | f, c :: cs =>
      let r := c.run f
      let rs := runs r.1 cs
      (rs.1, r.2 :: rs.2)

/-- The same call on a list of bytes. -/
def Call.apply (c : List UInt8) : Call → List UInt8 × Reply
  | .read pos _ n => (c, ⟨min n (c.length - pos), (c.drop pos).take n⟩)
  | .write _ pos buffer n => (splice c pos (bytes buffer.mem n), ⟨n, []⟩)
  | .clear => ([], ⟨0, []⟩)

def applies : List UInt8 → List Call → List UInt8 × List Reply
  | c, [] => (c, [])
  | c, call :: cs =>
      let r := call.apply c
      let rs := applies r.1 cs
      (rs.1, r.2 :: rs.2)

/-- The position is in the file or at its end, the end of the range is a `uint64`, the buffer is mapped. -/
def Call.Valid (c : List UInt8) : Call → Prop
  | .read pos buffer n => pos ≤ c.length ∧ pos + n < 2 ^ 64 ∧ ∀ j < n, buffer.mapped j = true
  | .write _ pos buffer n => pos ≤ c.length ∧ pos + n < 2 ^ 64 ∧ ∀ j < n, buffer.mapped j = true
  | .clear => True

/-- Each call of the sequence is valid when it comes. -/
def Valid : List UInt8 → List Call → Prop
  | _, [] => True
  | c, call :: cs => call.Valid c ∧ Valid (call.apply c).1 cs

section Contents

variable {f : File} {garbage : Nat → UInt8} {pos n : Nat} {buffer : UserBuffer}

/-- **A write** puts its bytes in at the position. -/
theorem write_contents (hsize : f.node.fileSize < 2 ^ 64) (hpos : pos ≤ f.node.fileSize) (hn : pos + n < 2 ^ 64)
    (h : ∀ j < n, buffer.mapped j = true) :
    (write f garbage pos buffer n).2.node.contents = splice f.node.contents pos (bytes buffer.mem n) := by
  have hcap : u64 (f.node.fileSize + 2 ^ 64 - pos) = f.node.fileSize - pos := u64_sub hpos hsize
  have hnew : (write f garbage pos buffer n).2.node.fileSize = pos + n + (f.node.fileSize - (pos + n)) := by
    by_cases hlong : u64 (f.node.fileSize + 2 ^ 64 - pos) < n
    · rw [(write_long hlong).1, u64_of_lt hn]
      omega
    · rw [(write_short hlong).1]
      omega
  show bytes _ (write f garbage pos buffer n).2.node.fileSize = _
  rw [hnew, bytes_add, bytes_add]
  unfold splice TestNode.contents
  rw [bytes_take hpos, bytes_length, bytes_drop]
  -- in front of the position, the bytes of the buffer, and behind them
  congr 1
  · congr 1
    · exact bytes_congr fun i hi => write_outside (by omega) (Or.inl hi)
    · exact bytes_congr fun i hi => write_copied h hi
  · exact bytes_congr fun i hi => write_outside (by omega) (Or.inr (Nat.le_add_right _ _))

/-- **A read** delivers what stands behind the position. -/
theorem read_contents (hsize : f.node.fileSize < 2 ^ 64) (hpos : pos ≤ f.node.fileSize)
    (h : ∀ j < n, buffer.mapped j = true) :
    (Call.read pos buffer n).run f = (f, ((Call.read pos buffer n).apply f.node.contents).2) := by
  have hrem : u64 (f.node.fileSize + 2 ^ 64 - pos) = f.node.fileSize - pos := u64_sub hpos hsize
  have hlen : readLength f.node pos n = min n (f.node.fileSize - pos) := by
    unfold readLength
    rw [hrem]
    dsimp only
    split_ifs <;> omega
  have hdata : (f.node.contents.drop pos).take n =
      bytes (fun i => f.node.fileData (pos + i)) (min n (f.node.fileSize - pos)) := by
    unfold TestNode.contents
    rw [bytes_drop]
    rcases Nat.le_total n (f.node.fileSize - pos) with hn | hn
    · rw [bytes_take hn, Nat.min_eq_left hn]
    · rw [List.take_of_length_le (by rw [bytes_length]; exact hn), Nat.min_eq_right hn]
  simp only [Call.run, Call.apply, hdata, contents_length]
  by_cases h0 : f.node.fileSize - pos = 0
  · have hread : readNodeData f.node pos buffer n = (0, buffer) := if_pos (hrem.trans h0)
    rw [hread, h0, Nat.min_zero]
    rfl
  · have hcopy : (kmemcpyUsersafe buffer.mapped f.node.fileData pos buffer.mem 0
        (min n (f.node.fileSize - pos))).1 = true :=
      (kmemcpyUsersafe_ok _ _).mpr fun j hj => h j (by omega)
    have hread : readNodeData f.node pos buffer n = (min n (f.node.fileSize - pos), { buffer with
        mem := (kmemcpyUsersafe buffer.mapped f.node.fileData pos buffer.mem 0
          (min n (f.node.fileSize - pos))).2 }) := by
      unfold readNodeData
      dsimp only
      rw [if_neg (hrem ▸ h0), hlen, if_pos hcopy]
    rw [hread]
    refine congrArg (fun l => (f, Reply.mk _ l)) (bytes_congr fun i hi => ?_)
    have hbyte := kmemcpyUsersafe_copied buffer.mem _ i hcopy hi
    rwa [Nat.zero_add] at hbyte

/-- One call, on the file and on its bytes. -/
theorem run_apply (hsize : f.node.fileSize < 2 ^ 64) {c : Call} (h : c.Valid f.node.contents) :
    (c.run f).2 = (c.apply f.node.contents).2 ∧ (c.run f).1.node.contents = (c.apply f.node.contents).1 ∧
      (c.run f).1.node.fileSize < 2 ^ 64 := by
  cases c with
  | read pos buffer n =>
      obtain ⟨hpos, hn, hmap⟩ := h
      rw [contents_length] at hpos
      rw [read_contents hsize hpos hmap]
      exact ⟨rfl, rfl, hsize⟩
  | write garbage pos buffer n =>
      obtain ⟨hpos, hn, hmap⟩ := h
      rw [contents_length] at hpos
      refine ⟨congrArg (Reply.mk · []) (write_res hmap), write_contents hsize hpos hn hmap, ?_⟩
      show (write f garbage pos buffer n).2.node.fileSize < 2 ^ 64
      by_cases hlong : u64 (f.node.fileSize + 2 ^ 64 - pos) < n
      · rw [(write_long hlong).1]
        exact Nat.mod_lt _ (by decide)
      · rw [(write_short hlong).1]
        exact hsize
  | clear =>
      refine ⟨rfl, rfl, ?_⟩
      show 0 < 2 ^ 64
      decide

/-- **Files are byte arrays**: a sequence of calls has the replies and leaves the bytes that it has and leaves
    on a list. A read delivers nothing exactly at the end of the file, or where it is asked for nothing. -/
theorem files_are_byte_arrays (hsize : f.node.fileSize < 2 ^ 64) (cs : List Call) (h : Valid f.node.contents cs) :
    (runs f cs).2 = (applies f.node.contents cs).2 ∧ (runs f cs).1.node.contents = (applies f.node.contents cs).1 ∧
      ∀ (c : List UInt8) (pos n : Nat) (buffer : UserBuffer), pos ≤ c.length →
        (((Call.read pos buffer n).apply c).2.res = 0 ↔ pos = c.length ∨ n = 0) := by
  suffices hs : (runs f cs).2 = (applies f.node.contents cs).2 ∧
      (runs f cs).1.node.contents = (applies f.node.contents cs).1 by
    refine ⟨hs.1, hs.2, fun c pos n buffer hpos => ?_⟩
    show min n (c.length - pos) = 0 ↔ _
    omega
  induction cs generalizing f with
  | nil => exact ⟨rfl, rfl⟩
  | cons c cs ih =>
      obtain ⟨hreply, hcontents, hsize'⟩ := run_apply hsize h.1
      have hrest := ih hsize' (hcontents ▸ h.2)
      rw [hcontents] at hrest
      exact ⟨congrArg₂ List.cons hreply hrest.1, hrest.2⟩

end Contents

/-- Three bytes, then two bytes from the second one on. -/
def someCalls : List Call :=
  [.write (fun _ => 9) 0 ⟨fun i => i.toUInt8, fun _ => true⟩ 3, .write (fun _ => 9) 1 (bufferOf 7) 1,
    .read 1 (bufferOf 0) 5]

theorem files_are_byte_arrays_three :
    (runs ⟨⟨0, fun _ => 0⟩, 0⟩ someCalls).2 = [⟨3, []⟩, ⟨1, []⟩, ⟨2, [7, 2]⟩] ∧
    (runs ⟨⟨0, fun _ => 0⟩, 0⟩ someCalls).1.node.contents = [0, 7, 2] := by
  have hvalid : Valid [] someCalls :=
    ⟨⟨by decide, by decide, fun _ _ => rfl⟩, ⟨by decide, by decide, fun _ _ => rfl⟩,
      ⟨by decide, by decide, fun _ _ => rfl⟩, trivial⟩
  obtain ⟨hreplies, hcontents, -⟩ := files_are_byte_arrays (f := ⟨⟨0, fun _ => 0⟩, 0⟩) (by decide) someCalls hvalid
  exact ⟨hreplies.trans (by decide), hcontents.trans (by decide)⟩

/-! ## 3. The two sizes -/

/-- The size in the node is the size of the file. -/
def Mirrored (f : File) : Prop := f.infoSize = f.node.fileSize

section Sizes

variable {f : File} {c : Call} {cs : List Call}

theorem run_mirrored (h : Mirrored f) : Mirrored (c.run f).1 ↔ (c = .clear → f.node.fileSize = 0) := by
  cases c with
  | read pos buffer n => exact ⟨(fun _ hc => by cases hc), fun _ => h⟩
  | write garbage pos buffer n =>
      refine ⟨(fun _ hc => by cases hc), fun _ => ?_⟩
      show (write f garbage pos buffer n).2.infoSize = (write f garbage pos buffer n).2.node.fileSize
      by_cases hlong : u64 (f.node.fileSize + 2 ^ 64 - pos) < n
      · rw [(write_long hlong).1, (write_long hlong).2]
      · rw [(write_short hlong).1, (write_short hlong).2]
        exact h
  | clear =>
      have hinfo : f.infoSize = f.node.fileSize := h
      show f.infoSize = 0 ↔ _
      rw [hinfo]
      exact ⟨fun h0 _ => h0, fun h0 => h0 rfl⟩

/-- **The mirror of the size**: after every call of a sequence the two sizes agree, exactly if the file is empty
    whenever it is cleared. -/
theorem size_mirror (h : Mirrored f) (cs : List Call) :
    (∀ pre, pre <+: cs → Mirrored (runs f pre).1) ↔
      ∀ pre, pre ++ [.clear] <+: cs → (runs f pre).1.node.fileSize = 0 := by
  induction cs generalizing f with
  | nil =>
      refine ⟨fun _ pre hp => ?_, fun _ pre hp => ?_⟩
      · simp at hp
      · obtain rfl := List.prefix_nil.mp hp
        exact h
  | cons c cs ih =>
      constructor
      · intro hall pre hp
        have hc : Mirrored (c.run f).1 := hall [c] (by simp)
        have hrest := (ih hc).mp fun pre' hp' => hall (c :: pre') (List.cons_prefix_cons.mpr ⟨rfl, hp'⟩)
        cases pre with
        | nil => exact (run_mirrored h).mp hc (by simpa [eq_comm] using hp)
        | cons c' pre =>
            obtain ⟨rfl, hp'⟩ := List.cons_prefix_cons.mp hp
            exact hrest pre hp'
      · intro hall pre hp
        have hc : Mirrored (c.run f).1 := (run_mirrored h).mpr fun hclear => hall [] (by simp [hclear])
        cases pre with
        | nil => exact h
        | cons c' pre =>
            obtain ⟨rfl, hp'⟩ := List.cons_prefix_cons.mp hp
            exact (ih hc).mpr (fun pre' hp'' => hall (c' :: pre') (List.cons_prefix_cons.mpr ⟨rfl, hp''⟩)) pre hp'

end Sizes

/-- Three bytes are written and read. -/
theorem size_mirror_three : Mirrored (runs ⟨⟨0, fun _ => 0⟩, 0⟩ someCalls).1 :=
  (size_mirror (f := ⟨⟨0, fun _ => 0⟩, 0⟩) rfl someCalls).mpr
    (fun pre hp => by
      have hmem : Call.clear ∈ someCalls := hp.subset (List.mem_append_right _ List.mem_cons_self)
      simp [someCalls] at hmem) _ (List.prefix_refl _)

/-- **`ClearNodeData` leaves the size in the node**: one byte is written, then the file is cleared. -/
theorem clear_leaves_size : ¬ ∀ f, Mirrored f → ∀ cs pre, pre <+: cs → Mirrored (runs f pre).1 := by
  intro hall
  have hm := hall ⟨⟨0, fun _ => 0⟩, 0⟩ rfl _ [.write (fun _ => 9) 0 (bufferOf 7) 1, .clear] (List.prefix_refl _)
  exact absurd hm (by unfold Mirrored; decide)

/-! ## 4. Writes that fail -/

/-- A call leaves both sizes and the bytes outside its range. -/
structure Kept (f f' : File) (pos n : Nat) : Prop where
  fileSize : f'.node.fileSize = f.node.fileSize
  infoSize : f'.infoSize = f.infoSize
  outside : ∀ i < f.node.fileSize, i < pos ∨ pos + n ≤ i → f'.node.fileData i = f.node.fileData i

section Failures

variable {f : File} {garbage : Nat → UInt8} {pos n : Nat} {buffer : UserBuffer}

/-- **A failing write** keeps the file exactly if it does not lengthen it. The numbers are `uint64`s. -/
theorem failed_write (hsize : f.node.fileSize < 2 ^ 64) (hpos : pos < 2 ^ 64) (hn : n < 2 ^ 64)
    (_ : (write f garbage pos buffer n).1 = asU64 ErrorInvalidBuffer) :
    Kept f (write f garbage pos buffer n).2 pos n ↔ n ≤ u64 (f.node.fileSize + 2 ^ 64 - pos) := by
  constructor
  · intro hk
    by_contra hlong
    have hnew := (@write_long garbage f pos n buffer (Nat.lt_of_not_le hlong)).1.symm.trans hk.fileSize
    unfold u64 at hnew hlong
    omega
  · intro hshort
    obtain ⟨h1, h2⟩ := @write_short garbage f pos n buffer (Nat.not_lt.mpr hshort)
    exact ⟨h1, h2, fun i hi hout => write_outside hi hout⟩

/-- A buffer that is not mapped. -/
def unmapped : UserBuffer := ⟨fun _ => 0, fun _ => false⟩

/-- Two of the three bytes of a file. -/
theorem failed_write_inside : Kept ⟨⟨3, fun _ => 1⟩, 3⟩ (write ⟨⟨3, fun _ => 1⟩, 3⟩ (fun _ => 9) 0 unmapped 2).2 0 2 :=
  (failed_write (by decide) (by decide) (by decide) (by decide)).mpr (by decide)

/-- **A write that fails makes the file longer**: what the new memory held is now its contents. -/
theorem failed_write_grows : (write ⟨⟨0, fun _ => 0⟩, 0⟩ (fun _ => 9) 0 unmapped 2).1 = asU64 ErrorInvalidBuffer ∧
    (write ⟨⟨0, fun _ => 0⟩, 0⟩ (fun _ => 9) 0 unmapped 2).2.node.contents = [9, 9] ∧
    ¬ Kept ⟨⟨0, fun _ => 0⟩, 0⟩ (write ⟨⟨0, fun _ => 0⟩, 0⟩ (fun _ => 9) 0 unmapped 2).2 0 2 :=
  ⟨by decide, by decide, fun h => absurd h.fileSize (by decide)⟩

end Failures

end FileData

end SimpleOS2
