/-
  File:      SimpleOS2/Devices/BlockCache.lean
  Subject:   THE CACHE OF A BLOCK DEVICE (devices/DeviceDriver.cpp), with one thread.

  `GetData` and `SetData` go through the blocks of a range. Each block is looked up in the cache under
  `m_CacheLock`, loaded from the device if it was not there, copied from or to the buffer under its
  `dataLock`, and given back. A block that was cached stays so.

  * `getCachedBlock`, `loadBlock`, `copyBlock`, `releaseCachedBlock` -- the sections;
    `getData`, `setData` -- the calls;
  * `view` -- a byte of the device as the cache shows it;
  * `Transfer.At` -- where a transfer stands before its `b`th block; `transferBlock_spec` -- one block,
    `blockLoop_spec` -- the loop;
  * `Call`, `flatCall` -- the calls on a flat array of bytes; `cache_transparent` -- the cache does not show.
-/
import Mathlib.Data.List.Basic
import SimpleOS2.Klib.Memory

namespace SimpleOS2

namespace BlockDevice

/-! ## 1. The cache -/

/-- `struct CachedBlock`, with whether the `ScheduleOperation` that fills it has finished. -/
structure CachedBlock where
  subID : Nat
  blockID : Nat
  refCount : Nat
  data : Nat → UInt8
  filled : Bool

/-- The devices of a driver: their bytes, and `GetBlockSize`. -/
structure Device where
  image : Nat → Nat → UInt8
  blockSize : Nat → Nat

def CachedBlock.is (subID blockID : Nat) (cb : CachedBlock) : Bool := cb.subID = subID ∧ cb.blockID = blockID

/-- The changes of a block: a reference more, a reference less, other data. -/
def CachedBlock.hold (cb : CachedBlock) : CachedBlock := { cb with refCount := cb.refCount + 1 }
def CachedBlock.drop (cb : CachedBlock) : CachedBlock := { cb with refCount := cb.refCount - 1 }
def CachedBlock.store (d : Nat → UInt8) (cb : CachedBlock) : CachedBlock := { cb with data := d }

/-- `GetCachedBlock`: whether the block was there, its index, and the cache. The data of a new block is
    what stood in the memory. -/
def getCachedBlock (cache : List CachedBlock) (subID blockID : Nat) (garbage : Nat → UInt8) :
    Bool × Nat × List CachedBlock :=
  match cache.findIdx? (CachedBlock.is subID blockID) with
  | some i => (true, i, cache.modify i CachedBlock.hold)
  | none => (false, cache.length, cache ++ [⟨subID, blockID, 1, garbage, false⟩])

/-- `ReleaseCachedBlock`. -/
def releaseCachedBlock (cache : List CachedBlock) (i : Nat) : List CachedBlock :=
  cache.modify i CachedBlock.drop

/-- `RamDeviceDriver::ScheduleOperation` of a read. -/
def scheduleOperation (dev : Device) (subID startBlock numBlocks : Nat) (buffer : Nat → UInt8) : Nat → UInt8 :=
  fun o =>
    if o < dev.blockSize subID * numBlocks then dev.image subID (u64 (startBlock * dev.blockSize subID) + o)
    else buffer o

/-- The block is filled from the device. -/
def CachedBlock.load (dev : Device) (cb : CachedBlock) : CachedBlock :=
  { cb with data := scheduleOperation dev cb.subID cb.blockID 1 cb.data, filled := true }

def loadBlock (dev : Device) (cache : List CachedBlock) (i : Nat) : List CachedBlock :=
  cache.modify i (CachedBlock.load dev)

/-- The block is looked up and, if it is new, loaded. -/
def fetchBlock (dev : Device) (cache : List CachedBlock) (subID blockID : Nat) (garbage : Nat → UInt8) :
    Nat × List CachedBlock :=
  let g := getCachedBlock cache subID blockID garbage
  (g.2.1, if g.1 then g.2.2 else loadBlock dev g.2.2 g.2.1)

def dataAt (cache : List CachedBlock) (i : Nat) : Nat → UInt8 :=
  match cache[i]? with
  | some cb => cb.data
  | none => fun _ => 0

/-- The variables of `GetData` (`set = false`) and `SetData`. `done` is `realBuffer - buffer`. -/
structure Transfer where
  set : Bool
  subID : Nat
  startBlock : Nat
  pos : Nat
  bufferSize : Nat
  done : Nat
  buffer : UserBuffer

/-- `offs`, `rem` -/
def Transfer.offs (dev : Device) (tr : Transfer) (blockID : Nat) : Nat :=
  u64 (tr.pos + 2 ^ 64 - u64 (blockID * dev.blockSize tr.subID))

def Transfer.rem (dev : Device) (tr : Transfer) (blockID : Nat) : Nat :=
  let rem := u64 (dev.blockSize tr.subID + 2 ^ 64 - tr.offs dev blockID)
  if rem > tr.bufferSize then tr.bufferSize else rem

/-- `pos += rem; realBuffer += rem; bufferSize -= rem;` -/
def Transfer.advance (tr : Transfer) (rem : Nat) : Transfer :=
  { tr with pos := u64 (tr.pos + rem), done := tr.done + rem, bufferSize := tr.bufferSize - rem }

/-- The copy between a block and the buffer: whether it succeeds, the cache and the transfer. -/
def copyBlock (dev : Device) (cache : List CachedBlock) (i blockID : Nat) (tr : Transfer) :
    Bool × List CachedBlock × Transfer :=
  let offs := tr.offs dev blockID
  let rem := tr.rem dev blockID
  let ok := fun j => tr.buffer.mapped (tr.done + j)
  if tr.set then
    let c := kmemcpyUsersafe ok tr.buffer.mem tr.done (dataAt cache i) offs rem
    (c.1, cache.modify i (CachedBlock.store c.2), if c.1 then tr.advance rem else tr)
  else
    let c := kmemcpyUsersafe ok (dataAt cache i) offs tr.buffer.mem tr.done rem
    let tr := { tr with buffer := { tr.buffer with mem := c.2 } }
    (c.1, cache, if c.1 then tr.advance rem else tr)

/-- `startBlock`, `endBlock`, `numBlocks` -/
def startBlock (dev : Device) (subID pos : Nat) : Nat := pos / dev.blockSize subID
def endBlock (dev : Device) (subID pos bufferSize : Nat) : Nat := u64 (pos + bufferSize) / dev.blockSize subID
def numBlocks (dev : Device) (subID pos bufferSize : Nat) : Nat :=
  u64 (endBlock dev subID pos bufferSize + 2 ^ 64 - startBlock dev subID pos + 1)

/-- A call under way: the cache, its variables, and its result if it has returned. -/
structure Run where
  cache : List CachedBlock
  tr : Transfer
  res : Option Nat

/-- The body of the loop. -/
def transferBlock (dev : Device) (garbage : Nat → UInt8) (b : Nat) (r : Run) : Run :=
  match r.res with
  | some _ => r
  | none =>
      let blockID := u64 (r.tr.startBlock + b)
      let f := fetchBlock dev r.cache r.tr.subID blockID garbage
      let c := copyBlock dev f.2 f.1 blockID r.tr
      ⟨releaseCachedBlock c.2.1 f.1, c.2.2, if c.1 then none else some (asU64 ErrorInvalidBuffer)⟩

/-- The loop; `garbage b` is what a block made in round `b` finds in its memory. -/
def blockLoop (dev : Device) (garbage : Nat → Nat → UInt8) : (count b : Nat) → Run → Run
  | 0, _, r => r
  | count + 1, b, r => blockLoop dev garbage count (b + 1) (transferBlock dev (garbage b) b r)

/-- Both calls: the cache, the buffer and the result. -/
def transfer (set : Bool) (dev : Device) (garbage : Nat → Nat → UInt8) (cache : List CachedBlock) (subID pos : Nat)
    (buffer : UserBuffer) (bufferSize : Nat) : List CachedBlock × UserBuffer × Nat :=
  let r := blockLoop dev garbage (numBlocks dev subID pos bufferSize) 0
    ⟨cache, ⟨set, subID, startBlock dev subID pos, pos, bufferSize, 0, buffer⟩, none⟩
  (r.cache, r.tr.buffer, r.res.getD 0)

/-- `BlockDeviceDriver::GetData`, `BlockDeviceDriver::SetData`. -/
def getData := transfer false
def setData := transfer true

/-! ## 2. What the cache shows -/

/-- A byte of the device as it is in the cache or, if its block is not there, on the device. -/
def view (dev : Device) (cache : List CachedBlock) (subID p : Nat) : UInt8 :=
  match cache.findIdx? (CachedBlock.is subID (p / dev.blockSize subID)) with
  | some i => dataAt cache i (p % dev.blockSize subID)
  | none => dev.image subID p

section View

variable {dev : Device} {cache : List CachedBlock} {subID blockID i p : Nat} {garbage : Nat → UInt8}

/-- A change of a block that leaves its key. -/
theorem findIdx_modify {f : CachedBlock → CachedBlock}
    (hf : ∀ cb, (f cb).subID = cb.subID ∧ (f cb).blockID = cb.blockID)
    (i subID blockID : Nat) :
    (cache.modify i f).findIdx? (CachedBlock.is subID blockID) =
      cache.findIdx? (CachedBlock.is subID blockID) := by
  induction cache generalizing i with
  | nil => cases i <;> rfl
  | cons cb cache ih =>
      cases i with
      | zero =>
          have hk : CachedBlock.is subID blockID (f cb) = CachedBlock.is subID blockID cb := by
            simp only [CachedBlock.is, hf cb]
          simp only [List.modify_zero_cons, List.findIdx?_cons, hk]
      | succ i => simp only [List.modify_succ_cons, List.findIdx?_cons, ih]

theorem dataAt_modify {f : CachedBlock → CachedBlock} (j : Nat) (h : i < cache.length) :
    dataAt (cache.modify i f) j = if j = i then (f cache[i]).data else dataAt cache j := by
  unfold dataAt
  rw [List.getElem?_modify]
  split_ifs with h1 h2
  · subst h1
    rw [List.getElem?_eq_getElem h]
    rfl
  · exact absurd h1.symm h2
  · rename_i h2
    exact absurd h2.symm h1
  · cases cache[j]? <;> rfl

/-- A change of a block that leaves its key and its data does not show. -/
theorem view_modify {f : CachedBlock → CachedBlock} (i : Nat)
    (hf : ∀ cb, (f cb).subID = cb.subID ∧ (f cb).blockID = cb.blockID) (hd : ∀ cb, (f cb).data = cb.data) :
    view dev (cache.modify i f) = view dev cache := by
  funext s p
  unfold view
  rw [findIdx_modify hf]
  cases hi : cache.findIdx? (CachedBlock.is s (p / dev.blockSize s)) with
  | none => rfl
  | some j =>
      by_cases hlt : i < cache.length
      · simp only [dataAt_modify j hlt, hd]
        split_ifs with hji
        · subst hji
          simp only [dataAt, List.getElem?_eq_getElem hlt]
        · rfl
      · rw [List.modify_eq_self (by omega)]

/-- A change of the block that the lookup finds: it shows at this block. -/
theorem view_found {f : CachedBlock → CachedBlock} {d : Nat → UInt8}
    (hf : ∀ cb, (f cb).subID = cb.subID ∧ (f cb).blockID = cb.blockID)
    (h : cache.findIdx? (CachedBlock.is subID blockID) = some i)
    (hd : ∀ cb, cache[i]? = some cb → (f cb).data = d) (s p : Nat) :
    view dev (cache.modify i f) s p =
      if s = subID ∧ p / dev.blockSize s = blockID then d (p % dev.blockSize s) else view dev cache s p := by
  have hlt : i < cache.length := (List.findIdx?_eq_some_iff_getElem.mp h).1
  unfold view
  rw [findIdx_modify hf]
  by_cases hk : s = subID ∧ p / dev.blockSize s = blockID
  · rw [if_pos hk, hk.2, hk.1, h]
    simp only [dataAt_modify i hlt, if_true, hd _ (List.getElem?_eq_getElem hlt)]
  · rw [if_neg hk]
    cases hj : cache.findIdx? (CachedBlock.is s (p / dev.blockSize s)) with
    | none => rfl
    | some j =>
        -- the block at `i` has another key
        have hne : j ≠ i := by
          intro hji
          subst hji
          have h1 := (List.findIdx?_eq_some_iff_getElem.mp h).2.1
          have h2 := (List.findIdx?_eq_some_iff_getElem.mp hj).2.1
          simp only [CachedBlock.is, decide_eq_true_eq] at h1 h2
          exact hk ⟨h2.1.symm.trans h1.1, h2.2.symm.trans h1.2⟩
        simp only [dataAt_modify j hlt, if_neg hne]

/-- The data of the block that the lookup finds is what the view shows of it. -/
theorem dataAt_found (dev : Device) (h : cache.findIdx? (CachedBlock.is subID blockID) = some i) {o : Nat}
    (ho : o < dev.blockSize subID) : dataAt cache i o = view dev cache subID (blockID * dev.blockSize subID + o) := by
  have hq : (blockID * dev.blockSize subID + o) / dev.blockSize subID = blockID := by
    rw [Nat.add_comm, Nat.add_mul_div_right _ _ (by omega), Nat.div_eq_of_lt ho, Nat.zero_add]
  have hr : (blockID * dev.blockSize subID + o) % dev.blockSize subID = o := by
    rw [Nat.mul_add_mod_self_right, Nat.mod_eq_of_lt ho]
  unfold view
  rw [hq, hr, h]

/-- A new block shows nothing outside its range. -/
theorem view_append (dev : Device) (hi : cache.findIdx? (CachedBlock.is subID blockID) = none) (cb : CachedBlock)
    (hcb : cb.subID = subID ∧ cb.blockID = blockID) :
    (cache ++ [cb]).findIdx? (CachedBlock.is subID blockID) = some cache.length ∧
      ∀ s p, ¬ (s = subID ∧ p / dev.blockSize s = blockID) → view dev (cache ++ [cb]) s p = view dev cache s p := by
  constructor
  · have hk : CachedBlock.is subID blockID cb = true := by
      simp only [CachedBlock.is, hcb, and_self, decide_true]
    simp only [List.findIdx?_append, hi, List.findIdx?_cons, hk, if_true, Option.none_or, Option.map_some,
      Nat.zero_add]
  · intro s p hsp
    have hk : CachedBlock.is s (p / dev.blockSize s) cb = false := by
      simp only [CachedBlock.is, hcb, decide_eq_false_iff_not]
      exact fun h => hsp ⟨h.1.symm, h.2.symm⟩
    unfold view
    simp only [List.findIdx?_append, List.findIdx?_cons, hk, List.findIdx?_nil, Option.map_none]
    cases hj : cache.findIdx? (CachedBlock.is s (p / dev.blockSize s)) with
    | none => rfl
    | some j =>
        have hlt : j < cache.length := (List.findIdx?_eq_some_iff_getElem.mp hj).1
        simp only [Option.some_or, dataAt, List.getElem?_append_left hlt]

/-- After lookup and load the block is where the lookup says, and the cache shows the same bytes. -/
theorem fetchBlock_spec (cache : List CachedBlock) (garbage : Nat → UInt8)
    (hfit : blockID * dev.blockSize subID < 2 ^ 64) :
    (fetchBlock dev cache subID blockID garbage).2.findIdx? (CachedBlock.is subID blockID) =
        some (fetchBlock dev cache subID blockID garbage).1 ∧
      (0 < dev.blockSize subID → view dev (fetchBlock dev cache subID blockID garbage).2 = view dev cache) := by
  unfold fetchBlock getCachedBlock
  cases hi : cache.findIdx? (CachedBlock.is subID blockID) with
  | some i =>
      exact ⟨(findIdx_modify (f := CachedBlock.hold) (fun _ => ⟨rfl, rfl⟩) i subID blockID).trans hi,
        fun _ => view_modify (f := CachedBlock.hold) i (fun _ => ⟨rfl, rfl⟩) (fun _ => rfl)⟩
  | none =>
      simp only [Bool.false_eq_true, if_false, loadBlock]
      obtain ⟨hlast, hother⟩ :=
        view_append dev hi ⟨subID, blockID, 1, garbage, false⟩ ⟨rfl, rfl⟩
      refine ⟨(findIdx_modify (f := CachedBlock.load dev) (fun _ => ⟨rfl, rfl⟩) _ subID blockID).trans hlast,
        fun hpos => ?_⟩
      funext s p
      rw [view_found (f := CachedBlock.load dev) (d := scheduleOperation dev subID blockID 1 garbage)
        (fun _ => ⟨rfl, rfl⟩) hlast ?_ s p]
      · split_ifs with hk
        · -- the block was not there: the view was the device
          have hv : view dev cache s p = dev.image s p := by
            unfold view
            rw [hk.2, hk.1, hi]
          have hr : p % dev.blockSize subID < dev.blockSize subID * 1 := by
            rw [Nat.mul_one]
            exact Nat.mod_lt _ hpos
          have hsum : blockID * dev.blockSize subID + p % dev.blockSize subID = p := by
            rw [← hk.2, hk.1, Nat.div_add_mod']
          rw [hv, hk.1]
          simp only [scheduleOperation, if_pos hr, u64_of_lt hfit, hsum]
        · exact hother s p hk
      · intro cb hcb
        rw [List.getElem?_concat_length] at hcb
        cases hcb
        rfl

end View

/-! ## 3. One block, the loop -/

/-- `SetData` and `GetData` on a flat array of bytes: the array, the buffer. -/
def flatSet (flat : Nat → Nat → UInt8) (subID pos n : Nat) (mem : Nat → UInt8) : Nat → Nat → UInt8 :=
  fun s p => if s = subID ∧ pos ≤ p ∧ p < pos + n then mem (p - pos) else flat s p

def flatGet (flat : Nat → Nat → UInt8) (subID pos n : Nat) (mem : Nat → UInt8) : Nat → UInt8 :=
  fun j => if j < n then flat subID (pos + j) else mem j

/-- A call at its start, whose range lies in the array and whose buffer fits into memory. -/
structure Transfer.Fits (dev : Device) (tr₀ : Transfer) : Prop where
  blockSize : 0 < dev.blockSize tr₀.subID ∧ dev.blockSize tr₀.subID < 2 ^ 64
  range : tr₀.pos + tr₀.bufferSize < 2 ^ 64
  canonical : tr₀.bufferSize ≤ 2 ^ 48
  startBlock : tr₀.startBlock = tr₀.pos / dev.blockSize tr₀.subID
  done : tr₀.done = 0

/-- The variables of the call that began as `tr₀` before its `b`th block. -/
structure Transfer.Stands (dev : Device) (tr₀ : Transfer) (b : Nat) (tr : Transfer) : Prop where
  set : tr.set = tr₀.set
  subID : tr.subID = tr₀.subID
  startBlock : tr.startBlock = tr₀.startBlock
  mapped : tr.buffer.mapped = tr₀.buffer.mapped
  done : tr.done = min tr₀.bufferSize ((tr₀.startBlock + b) * dev.blockSize tr₀.subID - tr₀.pos)
  pos : tr.pos = tr₀.pos + tr.done
  left : tr.bufferSize = tr₀.bufferSize - tr.done

/-- With a valid buffer and alone on the cache: the first `done` bytes are moved. -/
structure Transfer.At (dev : Device) (flat : Nat → Nat → UInt8) (tr₀ : Transfer) (b : Nat) (r : Run) : Prop
    extends Transfer.Stands dev tr₀ b r.tr where
  runs : r.res = none
  shown : view dev r.cache =
    if tr₀.set then flatSet flat tr₀.subID tr₀.pos r.tr.done tr₀.buffer.mem else flat
  read : r.tr.buffer.mem =
    if tr₀.set then tr₀.buffer.mem else flatGet flat tr₀.subID tr₀.pos r.tr.done tr₀.buffer.mem

section Block

variable {dev : Device} {flat : Nat → Nat → UInt8} {tr₀ tr : Transfer} {b : Nat} {r : Run}

/-- A block of the range begins at or before its end, and ends after its start. -/
theorem block_bounds (hv : tr₀.Fits dev)
    (hb : tr₀.startBlock + b ≤ (tr₀.pos + tr₀.bufferSize) / dev.blockSize tr₀.subID) :
    (tr₀.startBlock + b) * dev.blockSize tr₀.subID ≤ tr₀.pos + tr₀.bufferSize ∧
      tr₀.pos < (tr₀.startBlock + b) * dev.blockSize tr₀.subID + dev.blockSize tr₀.subID := by
  constructor
  · exact Nat.le_trans (Nat.mul_le_mul_right _ hb) (Nat.div_mul_le_self _ _)
  · have h1 : tr₀.pos < (tr₀.startBlock + 1) * dev.blockSize tr₀.subID := by
      rw [hv.startBlock]
      exact Nat.lt_mul_of_div_lt (by omega) hv.blockSize.1
    calc tr₀.pos < (tr₀.startBlock + 1) * dev.blockSize tr₀.subID := h1
      _ ≤ (tr₀.startBlock + b + 1) * dev.blockSize tr₀.subID := Nat.mul_le_mul_right _ (by omega)
      _ = _ := by rw [Nat.add_mul, Nat.one_mul]

/-- The piece of a range `[P, P + n)` that lies in the block at `B`. -/
theorem piece {P n B bs done offs rem : Nat} (h1 : B ≤ P + n) (h2 : P < B + bs) (hdone : done = min n (B - P))
    (hoffs : offs = P - B) (hrem : rem = min (bs - offs) (n - done)) :
    P + done = B + offs ∧ offs + rem ≤ bs ∧ done + rem = min n (B + bs - P) := by
  have hd : done = B - P := by omega
  subst hoffs hrem
  clear hdone
  subst hd
  refine ⟨by omega, by omega, by omega⟩

/-- `offs` and `rem` of such a block, and what the call has done after it. -/
theorem Transfer.Stands.offs_rem (h : tr₀.Stands dev b tr) (hv : tr₀.Fits dev)
    (hb : tr₀.startBlock + b ≤ (tr₀.pos + tr₀.bufferSize) / dev.blockSize tr₀.subID) :
    u64 (tr.startBlock + b) = tr₀.startBlock + b ∧
      tr.pos = (tr₀.startBlock + b) * dev.blockSize tr₀.subID + tr.offs dev (tr₀.startBlock + b) ∧
      tr.offs dev (tr₀.startBlock + b) + tr.rem dev (tr₀.startBlock + b) ≤ dev.blockSize tr₀.subID ∧
      tr.done + tr.rem dev (tr₀.startBlock + b) =
        min tr₀.bufferSize ((tr₀.startBlock + (b + 1)) * dev.blockSize tr₀.subID - tr₀.pos) := by
  obtain ⟨h1, h2⟩ := block_bounds hv hb
  clear hb
  have hr := hv.range
  have hid : tr₀.startBlock + b ≤ (tr₀.startBlock + b) * dev.blockSize tr₀.subID :=
    Nat.le_mul_of_pos_right _ hv.blockSize.1
  have hnext : (tr₀.startBlock + (b + 1)) * dev.blockSize tr₀.subID =
      (tr₀.startBlock + b) * dev.blockSize tr₀.subID + dev.blockSize tr₀.subID := by
    rw [← Nat.add_assoc, Nat.add_mul, Nat.one_mul]
  have hB : u64 ((tr₀.startBlock + b) * dev.blockSize tr₀.subID) = (tr₀.startBlock + b) * dev.blockSize tr₀.subID :=
    u64_of_lt (by omega)
  have hdone := h.done
  have hoffs : tr.offs dev (tr₀.startBlock + b) = tr₀.pos - (tr₀.startBlock + b) * dev.blockSize tr₀.subID := by
    simp only [Transfer.offs, h.subID, hB, h.pos]
    rw [u64_sub (by omega) (by omega)]
    omega
  have hrem : tr.rem dev (tr₀.startBlock + b) =
      min (dev.blockSize tr₀.subID - tr.offs dev (tr₀.startBlock + b)) (tr₀.bufferSize - tr.done) := by
    simp only [Transfer.rem, h.subID, h.left]
    rw [u64_sub (by omega) hv.blockSize.2]
    split_ifs with hc
    · exact (Nat.min_eq_right (Nat.le_of_lt hc)).symm
    · exact (Nat.min_eq_left (Nat.not_lt.mp hc)).symm
  obtain ⟨hp, hin, hd⟩ := piece h1 h2 hdone hoffs hrem
  refine ⟨?_, ?_, hin, ?_⟩
  · rw [h.startBlock]
    exact u64_of_lt (Nat.lt_of_le_of_lt (Nat.le_trans hid h1) hr)
  · rw [h.pos, hp]
  · rw [hnext, hd]

/-- The variables after a block whose copy succeeded. -/
theorem Transfer.Stands.next (h : tr₀.Stands dev b tr) (hv : tr₀.Fits dev)
    (hb : tr₀.startBlock + b ≤ (tr₀.pos + tr₀.bufferSize) / dev.blockSize tr₀.subID) (mem : Nat → UInt8) {rem : Nat}
    (hrem : tr.rem dev (tr₀.startBlock + b) = rem) :
    tr₀.Stands dev (b + 1) (Transfer.advance { tr with buffer := { tr.buffer with mem := mem } } rem) := by
  obtain ⟨-, -, -, hdone⟩ := h.offs_rem hv hb
  rw [hrem] at hdone
  have hle : tr.done + rem ≤ tr₀.bufferSize := hdone ▸ Nat.min_le_left _ _
  have hpos : tr.pos + rem = tr₀.pos + (tr.done + rem) := by rw [h.pos, Nat.add_assoc]
  have hlt : tr.pos + rem < 2 ^ 64 := by
    rw [hpos]
    exact Nat.lt_of_le_of_lt (Nat.add_le_add_left hle _) hv.range
  exact {
    set := h.set
    subID := h.subID
    startBlock := h.startBlock
    mapped := h.mapped
    done := hdone
    pos := (u64_of_lt hlt).trans hpos
    left := by
      show tr.bufferSize - rem = tr₀.bufferSize - (tr.done + rem)
      rw [h.left, Nat.sub_sub] }

theorem Transfer.At.next (h : Transfer.At dev flat tr₀ b r) (hv : tr₀.Fits dev)
    (hb : tr₀.startBlock + b ≤ (tr₀.pos + tr₀.bufferSize) / dev.blockSize tr₀.subID) {rem : Nat}
    (hrem : r.tr.rem dev (tr₀.startBlock + b) = rem) {cache : List CachedBlock} {mem : Nat → UInt8}
    (hshown : view dev cache =
      if tr₀.set then flatSet flat tr₀.subID tr₀.pos (r.tr.done + rem) tr₀.buffer.mem else flat)
    (hread : mem =
      if tr₀.set then tr₀.buffer.mem else flatGet flat tr₀.subID tr₀.pos (r.tr.done + rem) tr₀.buffer.mem) :
    Transfer.At dev flat tr₀ (b + 1)
      ⟨cache, Transfer.advance { r.tr with buffer := { r.tr.buffer with mem := mem } } rem, none⟩ :=
  ⟨h.toStands.next hv hb mem hrem, rfl, hshown, hread⟩

/-- The bytes `[d, d + n)` of a buffer, copied out of an array that is read up to `d`. -/
theorem flatGet_add (flat : Nat → Nat → UInt8) (subID pos d n : Nat) (mem : Nat → UInt8) :
    flatGet flat subID pos (d + n) mem = fun j =>
      if d ≤ j ∧ j < d + n then flat subID (pos + j) else flatGet flat subID pos d mem j := by
  funext j
  unfold flatGet
  split_ifs <;> first | rfl | omega

theorem flatSet_add (flat : Nat → Nat → UInt8) (subID pos d n : Nat) (mem : Nat → UInt8) :
    flatSet flat subID pos (d + n) mem = fun s p =>
      if s = subID ∧ pos + d ≤ p ∧ p < pos + d + n then mem (p - pos) else flatSet flat subID pos d mem s p := by
  funext s p
  unfold flatSet
  split_ifs <;> first | rfl | omega

/-- The copy, by the outcome of `kmemcpyUsersafe`. -/
theorem copyBlock_in {cache : List CachedBlock} {i blockID : Nat} {tr : Transfer} (hset : tr.set = true)
    {k : Bool × (Nat → UInt8)}
    (hk : kmemcpyUsersafe (fun j => tr.buffer.mapped (tr.done + j)) tr.buffer.mem tr.done (dataAt cache i)
      (tr.offs dev blockID) (tr.rem dev blockID) = k) :
    copyBlock dev cache i blockID tr =
      (k.1, cache.modify i (CachedBlock.store k.2), if k.1 then tr.advance (tr.rem dev blockID) else tr) := by
  subst hk
  exact if_pos hset

theorem copyBlock_out {cache : List CachedBlock} {i blockID : Nat} {tr : Transfer} (hset : tr.set = false)
    {k : Bool × (Nat → UInt8)}
    (hk : kmemcpyUsersafe (fun j => tr.buffer.mapped (tr.done + j)) (dataAt cache i) (tr.offs dev blockID)
      tr.buffer.mem tr.done (tr.rem dev blockID) = k) :
    copyBlock dev cache i blockID tr =
      (k.1, cache, if k.1
        then Transfer.advance { tr with buffer := { tr.buffer with mem := k.2 } } (tr.rem dev blockID)
        else { tr with buffer := { tr.buffer with mem := k.2 } }) := by
  subst hk
  exact if_neg (fun h => by rw [hset] at h; cases h)

/-- The copy over a mapped part of the buffer. -/
theorem copyBlock_set {cache : List CachedBlock} {i blockID : Nat} {tr : Transfer} (hset : tr.set = true)
    (hok : ∀ j < tr.rem dev blockID, tr.buffer.mapped (tr.done + j) = true) :
    copyBlock dev cache i blockID tr =
      (true, cache.modify i (CachedBlock.store fun x =>
          if tr.offs dev blockID ≤ x ∧ x < tr.offs dev blockID + tr.rem dev blockID
          then tr.buffer.mem (tr.done + (x - tr.offs dev blockID)) else dataAt cache i x),
        tr.advance (tr.rem dev blockID)) := by
  unfold copyBlock
  simp only [hset, if_true, kmemcpyUsersafe_eq _ _ hok]

theorem copyBlock_get {cache : List CachedBlock} {i blockID : Nat} {tr : Transfer} (hset : tr.set = false)
    (hok : ∀ j < tr.rem dev blockID, tr.buffer.mapped (tr.done + j) = true) :
    copyBlock dev cache i blockID tr =
      (true, cache, Transfer.advance { tr with buffer := { tr.buffer with mem := (fun x =>
          if tr.done ≤ x ∧ x < tr.done + tr.rem dev blockID
          then dataAt cache i (tr.offs dev blockID + (x - tr.done)) else tr.buffer.mem x) } }
        (tr.rem dev blockID)) := by
  unfold copyBlock
  simp only [hset, Bool.false_eq_true, if_false, kmemcpyUsersafe_eq _ _ hok, if_true]

/-- A piece written into a block, as a piece written into the array. -/
theorem view_store {cache : List CachedBlock} {subID blockID i offs rem : Nat} (mem : Nat → UInt8)
    (hfound : cache.findIdx? (CachedBlock.is subID blockID) = some i) (hpos : 0 < dev.blockSize subID)
    (hin : offs + rem ≤ dev.blockSize subID) (s p : Nat) :
    view dev (cache.modify i (CachedBlock.store fun x =>
        if offs ≤ x ∧ x < offs + rem then mem (x - offs) else dataAt cache i x)) s p =
      if s = subID ∧ blockID * dev.blockSize subID + offs ≤ p ∧ p < blockID * dev.blockSize subID + offs + rem
      then mem (p - (blockID * dev.blockSize subID + offs)) else view dev cache s p := by
  rw [view_found (f := CachedBlock.store _) (fun _ => ⟨rfl, rfl⟩) hfound (fun _ _ => rfl)]
  by_cases hs : s = subID
  · subst hs
    by_cases hq : p / dev.blockSize s = blockID
    · have hp : blockID * dev.blockSize s + p % dev.blockSize s = p := by
        rw [← hq]
        exact Nat.div_add_mod' p _
      have hdata := dataAt_found dev hfound (Nat.mod_lt p hpos)
      rw [hp] at hdata
      rw [if_pos ⟨rfl, hq⟩, hdata]
      generalize blockID * dev.blockSize s = B at hp
      generalize p % dev.blockSize s = q at hp
      subst hp
      simp only [true_and, Nat.add_assoc, Nat.add_le_add_iff_left, Nat.add_lt_add_iff_left, Nat.add_sub_add_left]
    · -- the piece lies in its block
      have hout : ¬ (blockID * dev.blockSize s + offs ≤ p ∧ p < blockID * dev.blockSize s + offs + rem) := by
        intro h
        refine hq (Nat.div_eq_of_lt_le (Nat.le_trans (Nat.le_add_right _ _) h.1) ?_)
        rw [Nat.add_mul, Nat.one_mul]
        exact Nat.lt_of_lt_of_le h.2 (by rw [Nat.add_assoc]; exact Nat.add_le_add_left hin _)
      rw [if_neg (fun h => hq h.2), if_neg (fun h => hout h.2)]
  · rw [if_neg (fun h => hs h.1), if_neg (fun h => hs h.1)]

/-- One block. -/
theorem transferBlock_spec (garbage : Nat → UInt8) (h : Transfer.At dev flat tr₀ b r) (hv : tr₀.Fits dev)
    (hm : ∀ j < tr₀.bufferSize, tr₀.buffer.mapped j = true)
    (hb : tr₀.startBlock + b ≤ (tr₀.pos + tr₀.bufferSize) / dev.blockSize tr₀.subID) :
    Transfer.At dev flat tr₀ (b + 1) (transferBlock dev garbage b r) := by
  obtain ⟨hid, hpos, hin, hdone⟩ := h.offs_rem hv hb
  have hfit : (tr₀.startBlock + b) * dev.blockSize tr₀.subID < 2 ^ 64 :=
    Nat.lt_of_le_of_lt (block_bounds hv hb).1 hv.range
  obtain ⟨hfound, hview⟩ := fetchBlock_spec r.cache garbage hfit
  replace hview := (hview hv.blockSize.1).trans h.shown
  unfold transferBlock
  rw [h.runs]
  simp only [hid, h.subID]
  generalize fetchBlock dev r.cache tr₀.subID (tr₀.startBlock + b) garbage = f at hfound hview
  have hok : ∀ j < r.tr.rem dev (tr₀.startBlock + b), r.tr.buffer.mapped (r.tr.done + j) = true := by
    intro j hj
    rw [h.mapped]
    have hle : r.tr.done + r.tr.rem dev (tr₀.startBlock + b) ≤ tr₀.bufferSize := hdone ▸ Nat.min_le_left _ _
    exact hm _ (Nat.lt_of_lt_of_le (Nat.add_lt_add_left hj _) hle)
  have hset := h.set
  have hread := h.read
  rcases Bool.eq_false_or_eq_true tr₀.set with htr | htr
  · rw [htr] at hset
    simp only [htr, if_true] at hview hread
    rw [copyBlock_set hset hok]
    refine h.next hv hb rfl ?_ ?_
    · refine (view_modify (f := CachedBlock.drop) _ (fun _ => ⟨rfl, rfl⟩) (fun _ => rfl)).trans ?_
      funext s p
      rw [view_store (fun x => r.tr.buffer.mem (r.tr.done + x)) hfound hv.blockSize.1 hin, ← hpos, h.pos, hview,
        hread, if_pos htr, flatSet_add]
      dsimp only
      split_ifs with hp
      · rw [← Nat.sub_sub, Nat.add_sub_cancel' (Nat.le_sub_of_add_le (Nat.add_comm _ _ ▸ hp.2.1))]
      · rfl
    · rw [if_pos htr]
      exact hread
  · rw [htr] at hset
    simp only [htr, Bool.false_eq_true, if_false] at hview hread
    rw [copyBlock_get hset hok]
    refine h.next hv hb rfl ?_ ?_
    · rw [if_neg (htr ▸ Bool.false_ne_true)]
      exact (view_modify (f := CachedBlock.drop) _ (fun _ => ⟨rfl, rfl⟩) (fun _ => rfl)).trans hview
    · rw [if_neg (htr ▸ Bool.false_ne_true), flatGet_add, hread]
      funext j
      split_ifs with hj
      · have hj' := Nat.sub_lt_left_of_lt_add hj.1 hj.2
        rw [dataAt_found dev hfound (Nat.lt_of_lt_of_le (Nat.add_lt_add_left hj' _) hin), hview, ← Nat.add_assoc,
          ← hpos, h.pos, Nat.add_assoc, Nat.add_sub_cancel' hj.1]
      · rfl

/-- The loop up to the last block. -/
theorem blockLoop_spec (garbage : Nat → Nat → UInt8) (hv : tr₀.Fits dev)
    (hm : ∀ j < tr₀.bufferSize, tr₀.buffer.mapped j = true) (count : Nat) :
    ∀ {b : Nat} {r : Run}, Transfer.At dev flat tr₀ b r →
      tr₀.startBlock + b + count ≤ (tr₀.pos + tr₀.bufferSize) / dev.blockSize tr₀.subID + 1 →
      Transfer.At dev flat tr₀ (b + count) (blockLoop dev garbage count b r) := by
  induction count with
  | zero => exact fun h _ => h
  | succ count ih =>
      intro b r h hle
      have hstep := ih (transferBlock_spec (garbage b) h hv hm (by omega)) (by omega)
      rw [Nat.add_right_comm] at hstep
      exact hstep

end Block

/-! ## 4. The calls -/

/-- A call of one thread, with what its new blocks find in their memory. -/
structure Call where
  set : Bool
  subID : Nat
  pos : Nat
  buffer : UserBuffer
  bufferSize : Nat
  garbage : Nat → Nat → UInt8

/-- The range of the call lies in the `uint64` positions, and its buffer in memory, of which there are the
    2 ^ 48 canonical addresses. -/
structure Call.Fits (c : Call) : Prop where
  range : c.pos + c.bufferSize < 2 ^ 64
  canonical : c.bufferSize ≤ 2 ^ 48

structure Call.Valid (c : Call) : Prop extends c.Fits where
  mapped : ∀ j < c.bufferSize, c.buffer.mapped j = true

/-- The variables at the start of the call. -/
def Call.transfer (dev : Device) (c : Call) : Transfer :=
  ⟨c.set, c.subID, startBlock dev c.subID c.pos, c.pos, c.bufferSize, 0, c.buffer⟩

/-- The call on the cache, and on a flat array of bytes: the new state, the buffer and the result. -/
def cacheCall (dev : Device) (cache : List CachedBlock) (c : Call) : List CachedBlock × UserBuffer × Nat :=
  if c.set then setData dev c.garbage cache c.subID c.pos c.buffer c.bufferSize
  else getData dev c.garbage cache c.subID c.pos c.buffer c.bufferSize

def flatCall (flat : Nat → Nat → UInt8) (c : Call) : (Nat → Nat → UInt8) × UserBuffer × Nat :=
  if c.set then (flatSet flat c.subID c.pos c.bufferSize c.buffer.mem, c.buffer, 0)
  else (flat, { c.buffer with mem := flatGet flat c.subID c.pos c.bufferSize c.buffer.mem }, 0)

/-- The buffers and results of a sequence of calls. -/
def replies {σ : Type} (call : σ → Call → σ × UserBuffer × Nat) : σ → List Call → List (UserBuffer × Nat)
  | _, [] => []
  | s, c :: cs => (call s c).2 :: replies call (call s c).1 cs


section Transparent

variable {dev : Device} {c : Call}

/-- The number of rounds, and that they reach to the end of the range. -/
theorem numBlocks_eq {tr₀ : Transfer} (hv : tr₀.Fits dev) :
    tr₀.startBlock + numBlocks dev tr₀.subID tr₀.pos tr₀.bufferSize =
        (tr₀.pos + tr₀.bufferSize) / dev.blockSize tr₀.subID + 1 ∧
      tr₀.pos + tr₀.bufferSize <
        (tr₀.startBlock + numBlocks dev tr₀.subID tr₀.pos tr₀.bufferSize) * dev.blockSize tr₀.subID := by
  obtain ⟨hbs, -⟩ := hv.blockSize
  have hlast : tr₀.pos + tr₀.bufferSize <
      ((tr₀.pos + tr₀.bufferSize) / dev.blockSize tr₀.subID + 1) * dev.blockSize tr₀.subID :=
    Nat.lt_mul_of_div_lt (Nat.lt_succ_self _) hbs
  have hle : tr₀.pos / dev.blockSize tr₀.subID ≤ (tr₀.pos + tr₀.bufferSize) / dev.blockSize tr₀.subID :=
    Nat.div_le_div_right (Nat.le_add_right _ _)
  -- a block holds at least one byte
  have hcount : (tr₀.pos + tr₀.bufferSize) / dev.blockSize tr₀.subID ≤
      tr₀.pos / dev.blockSize tr₀.subID + tr₀.bufferSize := by
    calc (tr₀.pos + tr₀.bufferSize) / dev.blockSize tr₀.subID
        ≤ (tr₀.pos + tr₀.bufferSize * dev.blockSize tr₀.subID) / dev.blockSize tr₀.subID :=
          Nat.div_le_div_right (Nat.add_le_add_left (Nat.le_mul_of_pos_right _ hbs) _)
      _ = tr₀.pos / dev.blockSize tr₀.subID + tr₀.bufferSize := Nat.add_mul_div_right _ _ hbs
  have hcan := hv.canonical
  have heq : tr₀.startBlock + numBlocks dev tr₀.subID tr₀.pos tr₀.bufferSize =
      (tr₀.pos + tr₀.bufferSize) / dev.blockSize tr₀.subID + 1 := by
    unfold numBlocks endBlock startBlock
    rw [hv.startBlock, u64_of_lt hv.range]
    generalize (tr₀.pos + tr₀.bufferSize) / dev.blockSize tr₀.subID = e at hle hcount
    generalize tr₀.pos / dev.blockSize tr₀.subID = a at hle hcount
    clear hlast hv
    unfold u64
    omega
  rw [heq]
  exact ⟨rfl, hlast⟩

/-- A call that starts stands before its first block. -/
theorem Transfer.Stands.start {tr₀ : Transfer} (hv : tr₀.Fits dev) : tr₀.Stands dev 0 tr₀ := by
  have h0 := hv.done
  have hstart : tr₀.startBlock * dev.blockSize tr₀.subID ≤ tr₀.pos := hv.startBlock ▸ Nat.div_mul_le_self _ _
  exact {
    set := rfl
    subID := rfl
    startBlock := rfl
    mapped := rfl
    done := by
      rw [h0, Nat.add_zero, Nat.sub_eq_zero_of_le hstart, Nat.min_zero]
    pos := by rw [h0, Nat.add_zero]
    left := by rw [h0, Nat.sub_zero] }

theorem Transfer.At.start {tr₀ : Transfer} (hv : tr₀.Fits dev) (cache : List CachedBlock) :
    Transfer.At dev (view dev cache) tr₀ 0 ⟨cache, tr₀, none⟩ := by
  have h0 := hv.done
  refine ⟨Transfer.Stands.start hv, rfl, ?_, ?_⟩
  · rw [h0]
    split_ifs
    · funext s p
      unfold flatSet
      rw [if_neg (by omega)]
    · rfl
  · rw [h0]
    split_ifs
    · rfl
    · funext j
      unfold flatGet
      rw [if_neg (Nat.not_lt_zero _)]

/-- A call that has gone through its blocks has moved all of its bytes. -/
theorem transfer_spec (garbage : Nat → Nat → UInt8) (cache : List CachedBlock) {tr₀ : Transfer}
    (hv : tr₀.Fits dev) (hm : ∀ j < tr₀.bufferSize, tr₀.buffer.mapped j = true) :
    ∃ r, blockLoop dev garbage (numBlocks dev tr₀.subID tr₀.pos tr₀.bufferSize) 0 ⟨cache, tr₀, none⟩ = r ∧
      r.res = none ∧ r.tr.buffer.mapped = tr₀.buffer.mapped ∧
      (view dev r.cache =
        if tr₀.set then flatSet (view dev cache) tr₀.subID tr₀.pos tr₀.bufferSize tr₀.buffer.mem
        else view dev cache) ∧
      (r.tr.buffer.mem =
        if tr₀.set then tr₀.buffer.mem
        else flatGet (view dev cache) tr₀.subID tr₀.pos tr₀.bufferSize tr₀.buffer.mem) := by
  obtain ⟨hn, hend⟩ := numBlocks_eq hv
  have h := blockLoop_spec garbage hv hm _ (Transfer.At.start hv cache)
    (show tr₀.startBlock + 0 + numBlocks dev tr₀.subID tr₀.pos tr₀.bufferSize ≤ _ by rw [Nat.add_zero, hn])
  rw [Nat.zero_add] at h
  have hdone := h.done
  rw [Nat.min_eq_left (Nat.le_sub_of_add_le (Nat.add_comm _ _ ▸ Nat.le_of_lt hend))] at hdone
  have hshown := h.shown
  have hread := h.read
  rw [hdone] at hshown hread
  exact ⟨_, rfl, h.runs, h.mapped, hshown, hread⟩

theorem Call.transfer_fits (c : Call) (hbs : 0 < dev.blockSize c.subID ∧ dev.blockSize c.subID < 2 ^ 64)
    (hc : c.Fits) : (c.transfer dev).Fits dev :=
  ⟨hbs, hc.range, hc.canonical, rfl, rfl⟩

/-- One call: the cache answers as the array it shows, and shows the array after it. -/
theorem cacheCall_spec (hbs : ∀ s, 0 < dev.blockSize s ∧ dev.blockSize s < 2 ^ 64) (hc : c.Valid)
    (cache : List CachedBlock) :
    view dev (cacheCall dev cache c).1 = (flatCall (view dev cache) c).1 ∧
      (cacheCall dev cache c).2 = (flatCall (view dev cache) c).2 := by
  obtain ⟨r, hr, hres, hmapped, hshown, hread⟩ :=
    transfer_spec c.garbage cache (c.transfer_fits (hbs _) hc.toFits) hc.mapped
  unfold Call.transfer at hr hmapped hshown hread
  have hbuf : ∀ mem, r.tr.buffer.mem = mem → r.tr.buffer = { c.buffer with mem := mem } := by
    rintro mem rfl
    show (⟨r.tr.buffer.mem, r.tr.buffer.mapped⟩ : UserBuffer) = _
    rw [hmapped]
  cases hset : c.set with
  | true =>
      rw [hset] at hr
      simp only [hset, if_true] at hshown hread
      have hcall : cacheCall dev cache c = (r.cache, r.tr.buffer, r.res.getD 0) := by
        unfold cacheCall setData transfer
        rw [if_pos hset, hr]
      rw [hcall, hres, hbuf _ hread]
      simp only [flatCall, hset, if_true]
      exact ⟨hshown, rfl⟩
  | false =>
      rw [hset] at hr
      simp only [hset, Bool.false_eq_true, if_false] at hshown hread
      have hcall : cacheCall dev cache c = (r.cache, r.tr.buffer, r.res.getD 0) := by
        unfold cacheCall getData transfer
        rw [if_neg (hset ▸ Bool.false_ne_true), hr]
      rw [hcall, hres, hbuf _ hread]
      simp only [flatCall, hset, Bool.false_eq_true, if_false]
      exact ⟨hshown, rfl⟩

theorem replies_eq (hbs : ∀ s, 0 < dev.blockSize s ∧ dev.blockSize s < 2 ^ 64) (cs : List Call)
    (hcs : ∀ c ∈ cs, c.Valid) (cache : List CachedBlock) :
    replies (cacheCall dev) cache cs = replies flatCall (view dev cache) cs := by
  induction cs generalizing cache with
  | nil => rfl
  | cons c cs ih =>
      obtain ⟨h1, h2⟩ := cacheCall_spec hbs (hcs c List.mem_cons_self) cache
      simp only [replies]
      rw [h2, ih (fun d hd => hcs d (List.mem_cons_of_mem _ hd)), h1]

/-- Every sequence of calls is answered as by a flat array that starts as the image of the device. -/
theorem cache_transparent (dev : Device) (hbs : ∀ s, 0 < dev.blockSize s ∧ dev.blockSize s < 2 ^ 64)
    (cs : List Call) (hcs : ∀ c ∈ cs, c.Valid) :
    replies (cacheCall dev) [] cs = replies flatCall dev.image cs :=
  replies_eq hbs cs hcs []

/-- Blocks of four bytes; five bytes are written over a boundary, the eight bytes of both blocks read. -/
def boundaryDevice : Device := ⟨fun _ _ => 7, fun _ => 4⟩

def boundaryCalls : List Call :=
  [⟨true, 0, 2, ⟨fun _ => 9, fun _ => true⟩, 5, fun _ _ => 1⟩,
   ⟨false, 0, 0, ⟨fun _ => 0, fun _ => true⟩, 8, fun _ _ => 1⟩]

theorem cache_transparent_boundary :
    replies (cacheCall boundaryDevice) [] boundaryCalls = replies flatCall boundaryDevice.image boundaryCalls ∧
      (replies flatCall boundaryDevice.image boundaryCalls).map (fun r => (List.range 8).map r.1.mem) =
        [[9, 9, 9, 9, 9, 9, 9, 9], [7, 7, 9, 9, 9, 9, 9, 7]] := by
  have hbs : 0 < 4 ∧ 4 < 2 ^ 64 := by decide
  refine ⟨cache_transparent boundaryDevice (fun _ => hbs) boundaryCalls ?_, by decide⟩
  intro c hc
  simp only [boundaryCalls, List.mem_cons, List.not_mem_nil, or_false] at hc
  rcases hc with rfl | rfl
  · exact ⟨⟨by decide, by decide⟩, fun _ _ => rfl⟩
  · exact ⟨⟨by decide, by decide⟩, fun _ _ => rfl⟩

end Transparent

end BlockDevice

end SimpleOS2
