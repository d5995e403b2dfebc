/-
  File:      SimpleOS2/Devices/CacheRaces.lean
  Subject:   THE CACHE OF A BLOCK DEVICE (devices/DeviceDriver.cpp), with any number of threads.

  `GetCachedBlock` puts a new block into the cache and `m_CacheLock` is given up before the block's
  `dataLock` is taken. Between the two another thread may find the block, and take `dataLock` first.

  * `next`, `sysStep` -- the threads, one section under a lock at a time;
  * `Source` -- a byte that the device or some `SetData` has at a position;
  * `NoEarlyCopy`, `Genuine` -- no copy on a block that is not filled; no byte from anywhere else;
  * `CacheInv` -- a block that is not filled has a thread that will fill it, `cacheInv_next`;
  * `cache_safe` -- both hold if no thread that finds a block overtakes the one that put it there;
    `overtaken` -- a thread that does.
-/
import SimpleOS2.Lib.Run
import SimpleOS2.Devices.BlockCache

namespace SimpleOS2

open Lib

namespace BlockDevice

/-! ## 1. The threads -/

/-- Where a thread stands in `GetData` or `SetData`. -/
inductive Pc where
  | out
  /-- At the head of the loop. -/
  | look (c : Call) (b : Nat) (tr : Transfer)
  /-- Behind `GetCachedBlock`, before `dataLock.Lock`. -/
  | hold (c : Call) (b : Nat) (tr : Transfer) (i : Nat) (hit : Bool)
  /-- Behind `dataLock.Unlock`, before `ReleaseCachedBlock`. -/
  | give (c : Call) (b : Nat) (tr : Transfer) (i : Nat) (ok : Bool)

/-- A call that has returned. -/
structure Reply where
  call : Call
  buffer : UserBuffer
  result : Nat

/-- The cache and the threads; the `SetData` calls so far, the calls that have returned, and whether a copy
    has met a block that was not filled. -/
structure Sys where
  cache : List CachedBlock
  threads : Nat → Pc
  sets : List Call
  returned : List Reply
  early : Bool

inductive Event where
  | call (t : Nat) (c : Call)
  | look (t : Nat)
  | data (t : Nat)
  | release (t : Nat)

def Sys.goto (s : Sys) (t : Nat) (pc : Pc) : Sys := { s with threads := Function.update s.threads t pc }

def Sys.ret (s : Sys) (t : Nat) (c : Call) (buffer : UserBuffer) (result : Nat) : Sys :=
  { s.goto t .out with returned := ⟨c, buffer, result⟩ :: s.returned }

def filledAt (cache : List CachedBlock) (i : Nat) : Bool :=
  match cache[i]? with
  | some cb => cb.filled
  | none => false

/-- The section under `m_CacheLock` at the head of the loop, the section under `dataLock`, and the section
    under `m_CacheLock` behind it. -/
def lookup (s : Sys) (t : Nat) (c : Call) (b : Nat) (tr : Transfer) : Sys :=
  let g := getCachedBlock s.cache tr.subID (u64 (tr.startBlock + b)) (c.garbage b)
  { s with cache := g.2.2 }.goto t (.hold c b tr g.2.1 g.1)

def dataSection (dev : Device) (s : Sys) (t : Nat) (c : Call) (b : Nat) (tr : Transfer) (i : Nat) (hit : Bool) : Sys :=
  let cache := if hit then s.cache else loadBlock dev s.cache i
  let r := copyBlock dev cache i (u64 (tr.startBlock + b)) tr
  { s with cache := r.2.1, early := s.early || !filledAt cache i }.goto t (.give c b r.2.2 i r.1)

def releaseSection (s : Sys) (t : Nat) (c : Call) (b : Nat) (tr : Transfer) (i : Nat) (ok : Bool) : Sys :=
  let s := { s with cache := releaseCachedBlock s.cache i }
  if ok then s.goto t (.look c (b + 1) tr) else s.ret t c tr.buffer (asU64 ErrorInvalidBuffer)

def next (dev : Device) (s : Sys) : Event → Option Sys
  | .call t c =>
      match s.threads t with
      | .out =>
          some { s.goto t (.look c 0 (c.transfer dev)) with sets := if c.set then c :: s.sets else s.sets }
      | _ => none
  | .look t =>
      match s.threads t with
      | .look c b tr =>
          some (if b < numBlocks dev c.subID c.pos c.bufferSize then lookup s t c b tr
            else s.ret t c tr.buffer 0)
      | _ => none
  | .data t =>
      match s.threads t with
      | .hold c b tr i hit => some (dataSection dev s t c b tr i hit)
      | _ => none
  | .release t =>
      match s.threads t with
      | .give c b tr i ok => some (releaseSection s t c b tr i ok)
      | _ => none

/-- The calls are about ranges that a device can have. -/
def Event.Fits : Event → Prop
  | .call _ c => c.Fits
  | _ => True

def sysStep (dev : Device) (s : Sys) (e : Event) (s' : Sys) : Prop := e.Fits ∧ next dev s e = some s'

def sysInit (s : Sys) : Prop := s = ⟨[], fun _ => .out, [], [], false⟩

/-! ## 2. What is claimed -/

/-- A byte of the device, or of some `SetData`, for the position `p`. -/
def Source (dev : Device) (sets : List Call) (subID p : Nat) (v : UInt8) : Prop :=
  v = dev.image subID p ∨
    ∃ c ∈ sets, c.subID = subID ∧ c.pos ≤ p ∧ p < c.pos + c.bufferSize ∧ v = c.buffer.mem (p - c.pos)

def NoEarlyCopy (s : Sys) : Prop := s.early = false

/-- What a `GetData` has put into its buffer; if it succeeded, there is nothing else in the range. -/
def Genuine (dev : Device) (s : Sys) : Prop :=
  ∀ r ∈ s.returned, r.call.set = false → ∀ j,
    (j < r.call.bufferSize ∧ Source dev s.sets r.call.subID (r.call.pos + j) (r.buffer.mem j)) ∨
      (r.buffer.mem j = r.call.buffer.mem j ∧ (r.result = 0 → r.call.bufferSize ≤ j))

/-- The thread that has put a block into the cache and not yet filled it. -/
def Loads (s : Sys) (t i : Nat) : Prop := ∃ c b tr, s.threads t = .hold c b tr i false

/-- A thread that finds a block takes `dataLock` only after the one that put the block there. -/
def afterLoad (s : Sys) : Event → Prop
  | .data t => ∀ c b tr i, s.threads t = .hold c b tr i true → ∀ t', ¬ Loads s t' i
  | _ => True

/-! ## 3. The invariant -/

/-- The key of a block never changes. -/
def keyAt (cache : List CachedBlock) (i : Nat) : Option (Nat × Nat) :=
  cache[i]?.map fun cb => (cb.subID, cb.blockID)

/-- The buffer of a call whose first `done` bytes are moved. -/
structure Moved (dev : Device) (sets : List Call) (c : Call) (done : Nat) (mem : Nat → UInt8) : Prop where
  set : c.set = true → mem = c.buffer.mem
  get : c.set = false → ∀ j, (j < done ∧ Source dev sets c.subID (c.pos + j) (mem j)) ∨
    (mem j = c.buffer.mem j ∧ done ≤ j)

/-- A call under way, before its `b`th block. -/
structure Runs (dev : Device) (sets : List Call) (c : Call) (b : Nat) (tr : Transfer) : Prop where
  fits : c.Fits
  logged : c.set = true → c ∈ sets
  stands : (c.transfer dev).Stands dev b tr
  moved : Moved dev sets c tr.done tr.buffer.mem

def PcOk (dev : Device) (cache : List CachedBlock) (sets : List Call) : Pc → Prop
  | .out => True
  | .look c b tr => Runs dev sets c b tr ∧ b ≤ numBlocks dev c.subID c.pos c.bufferSize
  | .hold c b tr i _ => Runs dev sets c b tr ∧ b < numBlocks dev c.subID c.pos c.bufferSize ∧
      keyAt cache i = some (c.subID, startBlock dev c.subID c.pos + b)
  | .give c b tr _ true => Runs dev sets c (b + 1) tr ∧ b < numBlocks dev c.subID c.pos c.bufferSize
  | .give c _ tr _ false => c.set = false → ∀ j,
      (j < c.bufferSize ∧ Source dev sets c.subID (c.pos + j) (tr.buffer.mem j)) ∨
        tr.buffer.mem j = c.buffer.mem j

/-- A block whose bytes, once it is filled, come from the device or from a `SetData`. -/
structure BlockOk (dev : Device) (sets : List Call) (cb : CachedBlock) : Prop where
  fits : cb.blockID * dev.blockSize cb.subID < 2 ^ 64
  source : cb.filled = true → ∀ o < dev.blockSize cb.subID,
    Source dev sets cb.subID (cb.blockID * dev.blockSize cb.subID + o) (cb.data o)

structure CacheInv (dev : Device) (s : Sys) : Prop where
  pcs : ∀ t, PcOk dev s.cache s.sets (s.threads t)
  blocks : ∀ cb ∈ s.cache, BlockOk dev s.sets cb
  loaded : ∀ i cb, s.cache[i]? = some cb → cb.filled = false → ∃ t, Loads s t i
  genuine : Genuine dev s
  early : NoEarlyCopy s

section Mono

variable {dev : Device} {sets sets' : List Call} {c : Call} {b : Nat} {tr : Transfer}

theorem Source.mono {subID p : Nat} {v : UInt8} (hs : sets ⊆ sets') (h : Source dev sets subID p v) :
    Source dev sets' subID p v := by
  rcases h with h | ⟨c, hc, h⟩
  · exact Or.inl h
  · exact Or.inr ⟨c, hs hc, h⟩

theorem Moved.mono {d : Nat} {mem : Nat → UInt8} (hs : sets ⊆ sets') (h : Moved dev sets c d mem) :
    Moved dev sets' c d mem :=
  ⟨h.set, fun hg j => (h.get hg j).imp_left fun h => ⟨h.1, h.2.mono hs⟩⟩

theorem Runs.mono (hs : sets ⊆ sets') (h : Runs dev sets c b tr) : Runs dev sets' c b tr :=
  ⟨h.fits, fun hc => hs (h.logged hc), h.stands, h.moved.mono hs⟩

theorem BlockOk.mono {cb : CachedBlock} (hs : sets ⊆ sets') (h : BlockOk dev sets cb) : BlockOk dev sets' cb :=
  ⟨h.fits, fun hf o ho => (h.source hf o ho).mono hs⟩

theorem PcOk.mono {cache cache' : List CachedBlock} {pc : Pc} (hs : sets ⊆ sets')
    (hk : ∀ i k, keyAt cache i = some k → keyAt cache' i = some k) (h : PcOk dev cache sets pc) :
    PcOk dev cache' sets' pc := by
  cases pc with
  | out => trivial
  | look c b tr => exact ⟨h.1.mono hs, h.2⟩
  | hold c b tr i hit => exact ⟨h.1.mono hs, h.2.1, hk i _ h.2.2⟩
  | give c b tr i ok =>
      cases ok with
      | true => exact ⟨h.1.mono hs, h.2⟩
      | false => exact fun hg j => (h hg j).imp_left fun h => ⟨h.1, h.2.mono hs⟩

end Mono

/-! ## 4. The sections -/

section Sections

variable {dev : Device} {cache : List CachedBlock} {sets : List Call} {c : Call} {b i : Nat} {tr : Transfer}

theorem modify_cases {f : CachedBlock → CachedBlock} {j : Nat} {cb' : CachedBlock}
    (h : (cache.modify i f)[j]? = some cb') :
    ∃ cb, cache[j]? = some cb ∧ cb' = if i = j then f cb else cb := by
  rw [List.getElem?_modify] at h
  obtain ⟨cb, h1, h2⟩ := Option.map_eq_some_iff.mp h
  exact ⟨cb, h1, h2.symm⟩

theorem store_filled {d : Nat → UInt8} {j : Nat} {cb' : CachedBlock}
    (h : (cache.modify i (CachedBlock.store d))[j]? = some cb') :
    ∃ cb, cache[j]? = some cb ∧ cb.filled = cb'.filled := by
  obtain ⟨cb, hcb, rfl⟩ := modify_cases h
  refine ⟨cb, hcb, ?_⟩
  split_ifs <;> rfl

theorem keyAt_modify {f : CachedBlock → CachedBlock}
    (hf : ∀ cb, (f cb).subID = cb.subID ∧ (f cb).blockID = cb.blockID) (i j : Nat) :
    keyAt (cache.modify i f) j = keyAt cache j := by
  unfold keyAt
  rw [List.getElem?_modify]
  cases cache[j]? with
  | none => rfl
  | some cb =>
      by_cases hij : i = j
      · simp only [if_pos hij, Option.map_eq_map, Option.map_some, hf]
      · simp only [if_neg hij, Option.map_eq_map, Option.map_some]

/-- `GetCachedBlock` changes the reference count of a block, or adds one that is not filled. -/
theorem getCachedBlock_spec (cache : List CachedBlock) (subID blockID : Nat) (garbage : Nat → UInt8)
    {g : Bool × Nat × List CachedBlock} (hg : getCachedBlock cache subID blockID garbage = g) :
    (∀ i k, keyAt cache i = some k → keyAt g.2.2 i = some k) ∧ keyAt g.2.2 g.2.1 = some (subID, blockID) ∧
      ∀ i cb', g.2.2[i]? = some cb' →
        (∃ cb, cache[i]? = some cb ∧ cb' = { cb with refCount := cb'.refCount }) ∨
        (g.1 = false ∧ i = g.2.1 ∧ cb' = ⟨subID, blockID, 1, garbage, false⟩) := by
  subst hg
  unfold getCachedBlock
  cases hi : cache.findIdx? (CachedBlock.is subID blockID) with
  | some i =>
      refine ⟨fun j k hk => ?_, ?_, fun j cb' hj => ?_⟩
      · rw [← hk]
        exact keyAt_modify (f := CachedBlock.hold) (fun _ => ⟨rfl, rfl⟩) i j
      · obtain ⟨hlt, hkey, -⟩ := List.findIdx?_eq_some_iff_getElem.mp hi
        simp only [CachedBlock.is, decide_eq_true_eq] at hkey
        refine (keyAt_modify (f := CachedBlock.hold) (fun _ => ⟨rfl, rfl⟩) i i).trans ?_
        simp only [keyAt, List.getElem?_eq_getElem hlt, Option.map_some, hkey]
      · obtain ⟨cb, h1, h2⟩ := modify_cases hj
        refine Or.inl ⟨cb, h1, ?_⟩
        rw [h2]
        split_ifs <;> rfl
  | none =>
      refine ⟨fun j k hk => ?_, ?_, fun j cb' hj => ?_⟩
      · obtain ⟨cb, h1, -⟩ := Option.map_eq_some_iff.mp hk
        have hlt : j < cache.length := (List.getElem?_eq_some_iff.mp h1).1
        rw [← hk]
        simp only [keyAt, List.getElem?_append_left hlt]
      · simp only [keyAt, List.getElem?_concat_length, Option.map_some]
      · by_cases hlt : j < cache.length
        · rw [List.getElem?_append_left hlt] at hj
          exact Or.inl ⟨cb', hj, rfl⟩
        · have hlen := (List.getElem?_eq_some_iff.mp hj).1
          rw [List.length_append, List.length_singleton] at hlen
          obtain rfl : j = cache.length := by omega
          rw [List.getElem?_concat_length] at hj
          exact Or.inr ⟨rfl, rfl, (Option.some.inj hj).symm⟩

/-- A block that was just loaded holds the bytes of the device. -/
theorem load_source (cb : CachedBlock) (hfit : cb.blockID * dev.blockSize cb.subID < 2 ^ 64) :
    BlockOk dev sets (cb.load dev) := by
  refine ⟨hfit, fun _ o ho => Or.inl ?_⟩
  have ho' : o < dev.blockSize cb.subID * 1 := by
    rw [Nat.mul_one]
    exact ho
  simp only [CachedBlock.load, scheduleOperation]
  rw [if_pos ho', u64_of_lt hfit]

/-- The block and the piece of it that a call is about to move. -/
theorem Runs.piece (hbs : ∀ s, 0 < dev.blockSize s ∧ dev.blockSize s < 2 ^ 64) (h : Runs dev sets c b tr)
    (hb : b < numBlocks dev c.subID c.pos c.bufferSize) :
    (startBlock dev c.subID c.pos + b) * dev.blockSize c.subID < 2 ^ 64 ∧
      u64 (tr.startBlock + b) = startBlock dev c.subID c.pos + b ∧
      c.pos + tr.done = (startBlock dev c.subID c.pos + b) * dev.blockSize c.subID +
        tr.offs dev (startBlock dev c.subID c.pos + b) ∧
      tr.offs dev (startBlock dev c.subID c.pos + b) + tr.rem dev (startBlock dev c.subID c.pos + b) ≤
        dev.blockSize c.subID ∧
      tr.done + tr.rem dev (startBlock dev c.subID c.pos + b) ≤ c.bufferSize := by
  have hfits := c.transfer_fits (hbs c.subID) h.fits
  have hb' : (c.transfer dev).startBlock + b ≤ (c.pos + c.bufferSize) / dev.blockSize c.subID := by
    have hn : (c.transfer dev).startBlock + numBlocks dev c.subID c.pos c.bufferSize =
        (c.pos + c.bufferSize) / dev.blockSize c.subID + 1 := (numBlocks_eq hfits).1
    omega
  obtain ⟨hid, hpos, hin, hdone⟩ := h.stands.offs_rem hfits hb'
  refine ⟨Nat.lt_of_le_of_lt (block_bounds hfits hb').1 h.fits.range, hid, ?_, hin, ?_⟩
  · rw [← show tr.pos = c.pos + tr.done from h.stands.pos]
    exact hpos
  · exact (Nat.le_of_eq hdone).trans (Nat.min_le_left _ _)

/-- The call after a copy that succeeded. -/
theorem Runs.next (hbs : ∀ s, 0 < dev.blockSize s ∧ dev.blockSize s < 2 ^ 64) (h : Runs dev sets c b tr)
    (hb : b < numBlocks dev c.subID c.pos c.bufferSize) {mem : Nat → UInt8}
    (hm : Moved dev sets c (tr.done + tr.rem dev (startBlock dev c.subID c.pos + b)) mem) :
    Runs dev sets c (b + 1) (Transfer.advance { tr with buffer := { tr.buffer with mem := mem } }
      (tr.rem dev (startBlock dev c.subID c.pos + b))) := by
  have hfits := c.transfer_fits (hbs c.subID) h.fits
  have hb' : (c.transfer dev).startBlock + b ≤ (c.pos + c.bufferSize) / dev.blockSize c.subID := by
    have hn : (c.transfer dev).startBlock + numBlocks dev c.subID c.pos c.bufferSize =
        (c.pos + c.bufferSize) / dev.blockSize c.subID + 1 := (numBlocks_eq hfits).1
    omega
  exact ⟨h.fits, h.logged, h.stands.next hfits hb' mem rfl, hm⟩

/-- The copy out of a block. -/
theorem copyOut_spec (hbs : ∀ s, 0 < dev.blockSize s ∧ dev.blockSize s < 2 ^ 64) (h : Runs dev sets c b tr)
    (hb : b < numBlocks dev c.subID c.pos c.bufferSize) (hset : c.set = false) {data : Nat → UInt8}
    (hdata : ∀ o < dev.blockSize c.subID,
      Source dev sets c.subID ((startBlock dev c.subID c.pos + b) * dev.blockSize c.subID + o) (data o))
    (ok : Nat → Bool) {r : Bool × (Nat → UInt8)}
    (hr : kmemcpyUsersafe ok data (tr.offs dev (startBlock dev c.subID c.pos + b)) tr.buffer.mem tr.done
      (tr.rem dev (startBlock dev c.subID c.pos + b)) = r) :
    (r.1 = true → Moved dev sets c (tr.done + tr.rem dev (startBlock dev c.subID c.pos + b)) r.2) ∧
      ∀ j, (j < c.bufferSize ∧ Source dev sets c.subID (c.pos + j) (r.2 j)) ∨ r.2 j = c.buffer.mem j := by
  obtain ⟨-, -, hpos, hin, hdone⟩ := h.piece hbs hb
  have hold := h.moved.get hset
  have hsrc : ∀ j < tr.rem dev (startBlock dev c.subID c.pos + b), Source dev sets c.subID
      (c.pos + (tr.done + j)) (data (tr.offs dev (startBlock dev c.subID c.pos + b) + j)) := by
    intro j hj
    have hd := hdata _ (Nat.lt_of_lt_of_le (Nat.add_lt_add_left hj _) hin)
    rwa [← Nat.add_assoc, ← hpos, Nat.add_assoc] at hd
  generalize tr.offs dev (startBlock dev c.subID c.pos + b) = offs at *
  generalize tr.rem dev (startBlock dev c.subID c.pos + b) = rem at *
  subst hr
  constructor
  · intro hok
    refine ⟨fun hs => absurd (hs.symm.trans hset) (fun h => by cases h), fun _ j => ?_⟩
    by_cases hj : tr.done ≤ j ∧ j < tr.done + rem
    · have hc := kmemcpyUsersafe_copied tr.buffer.mem rem (j - tr.done) hok (by omega)
      have hs := hsrc (j - tr.done) (by omega)
      rw [Nat.add_sub_cancel' hj.1] at hc hs
      exact Or.inl ⟨hj.2, hc ▸ hs⟩
    · rw [kmemcpyUsersafe_frame tr.buffer.mem rem j (by omega)]
      rcases hold j with ⟨h1, h2⟩ | ⟨h1, h2⟩
      · exact Or.inl ⟨by omega, h2⟩
      · exact Or.inr ⟨h1, by omega⟩
  · intro j
    rcases kmemcpyUsersafe_byte ok data offs tr.buffer.mem tr.done rem j with hb | ⟨k, hk, rfl, hb⟩
    · rw [hb]
      rcases hold j with ⟨h1, h2⟩ | ⟨h1, -⟩
      · exact Or.inl ⟨by omega, h2⟩
      · exact Or.inr h1
    · rw [hb]
      exact Or.inl ⟨by omega, hsrc k hk⟩

/-- The copy into a block. -/
theorem copyIn_spec (hbs : ∀ s, 0 < dev.blockSize s ∧ dev.blockSize s < 2 ^ 64) (h : Runs dev sets c b tr)
    (hb : b < numBlocks dev c.subID c.pos c.bufferSize) (hset : c.set = true) {data : Nat → UInt8}
    (hdata : ∀ o < dev.blockSize c.subID,
      Source dev sets c.subID ((startBlock dev c.subID c.pos + b) * dev.blockSize c.subID + o) (data o))
    (ok : Nat → Bool) :
    ∀ o < dev.blockSize c.subID,
      Source dev sets c.subID ((startBlock dev c.subID c.pos + b) * dev.blockSize c.subID + o)
        ((kmemcpyUsersafe ok tr.buffer.mem tr.done data (tr.offs dev (startBlock dev c.subID c.pos + b))
          (tr.rem dev (startBlock dev c.subID c.pos + b))).2 o) := by
  intro o ho
  obtain ⟨-, -, hpos, hin, hdone⟩ := h.piece hbs hb
  rcases kmemcpyUsersafe_byte ok tr.buffer.mem tr.done data (tr.offs dev (startBlock dev c.subID c.pos + b))
    (tr.rem dev (startBlock dev c.subID c.pos + b)) o with hb | ⟨k, hk, rfl, hb⟩
  · rw [hb]
    exact hdata o ho
  · rw [hb, h.moved.set hset, ← Nat.add_assoc, ← hpos]
    refine Or.inr ⟨c, h.logged hset, rfl, by omega, by omega, ?_⟩
    rw [Nat.add_assoc, Nat.add_sub_cancel_left]

end Sections

/-! ## 5. One step -/

section Step

variable {dev : Device} {s s' : Sys} {t : Nat}

theorem Loads.frame {pc : Pc} {i t₀ : Nat} (ht : s'.threads = Function.update s.threads t pc)
    (hno : ∀ c b tr, s.threads t ≠ .hold c b tr i false) (h : Loads s t₀ i) : Loads s' t₀ i := by
  obtain ⟨c, b, tr, h⟩ := h
  have hne : t₀ ≠ t := by
    intro heq
    exact hno c b tr (heq ▸ h)
  exact ⟨c, b, tr, by rw [ht, Function.update_of_ne hne, h]⟩

theorem pcs_goto (h : CacheInv dev s) {pc : Pc} (ht : s'.threads = Function.update s.threads t pc)
    (hs : s.sets ⊆ s'.sets) (hk : ∀ i k, keyAt s.cache i = some k → keyAt s'.cache i = some k)
    (hpc : PcOk dev s'.cache s'.sets pc) (t₀ : Nat) : PcOk dev s'.cache s'.sets (s'.threads t₀) := by
  rw [ht]
  by_cases h0 : t₀ = t
  · rw [h0, Function.update_self t _ _]
    exact hpc
  · rw [Function.update_of_ne h0]
    exact (h.pcs t₀).mono hs hk

theorem Genuine.mono (h : Genuine dev s) (hr : s'.returned = s.returned) (hs : s.sets ⊆ s'.sets) :
    Genuine dev s' := by
  intro r hr' hg j
  exact (h r (hr ▸ hr') hg j).imp_left fun h => ⟨h.1, h.2.mono hs⟩

/-- A thread goes on that has no block to fill. -/
theorem cacheInv_goto (h : CacheInv dev s) {pc : Pc} (hpc : PcOk dev s.cache s.sets pc)
    (hno : ∀ i cb c b tr, s.cache[i]? = some cb → cb.filled = false → s.threads t ≠ .hold c b tr i false) :
    CacheInv dev (s.goto t pc) where
  pcs := pcs_goto h rfl (List.Subset.refl _) (fun _ _ hk => hk) hpc
  blocks := h.blocks
  loaded := by
    intro i cb hi hf
    obtain ⟨t₀, ht₀⟩ := h.loaded i cb hi hf
    exact ⟨t₀, ht₀.frame rfl (fun c b tr => hno i cb c b tr hi hf)⟩
  genuine := h.genuine.mono rfl (List.Subset.refl _)
  early := h.early

/-- A call that starts. -/
theorem cacheInv_call (hbs : ∀ s, 0 < dev.blockSize s ∧ dev.blockSize s < 2 ^ 64) (h : CacheInv dev s)
    (hout : s.threads t = .out) {c : Call} (hc : c.Fits) :
    CacheInv dev { s.goto t (.look c 0 (c.transfer dev)) with
      sets := if c.set then c :: s.sets else s.sets } := by
  have hs : s.sets ⊆ if c.set then c :: s.sets else s.sets := by
    split_ifs
    · exact List.subset_cons_self _ _
    · exact List.Subset.refl _
  have hruns : Runs dev (if c.set then c :: s.sets else s.sets) c 0 (c.transfer dev) := by
    refine ⟨hc, fun hset => ?_, Transfer.Stands.start (c.transfer_fits (hbs c.subID) hc), fun _ => rfl, ?_⟩
    · rw [if_pos hset]
      exact List.mem_cons_self
    · exact fun _ j => Or.inr ⟨rfl, Nat.zero_le j⟩
  exact {
    pcs := pcs_goto h rfl hs (fun _ _ hk => hk) ⟨hruns, Nat.zero_le _⟩
    blocks := fun cb hcb => (h.blocks cb hcb).mono hs
    loaded := by
      intro i cb hi hf
      obtain ⟨t₀, ht₀⟩ := h.loaded i cb hi hf
      exact ⟨t₀, ht₀.frame rfl (fun c b tr heq => by rw [hout] at heq; cases heq)⟩
    genuine := h.genuine.mono rfl hs
    early := h.early }

/-- The lookup of a block. -/
theorem cacheInv_lookup (hbs : ∀ s, 0 < dev.blockSize s ∧ dev.blockSize s < 2 ^ 64) (h : CacheInv dev s)
    {c : Call} {b : Nat} {tr : Transfer} (hpc : s.threads t = .look c b tr)
    (hb : b < numBlocks dev c.subID c.pos c.bufferSize) : CacheInv dev (lookup s t c b tr) := by
  have hok := h.pcs t
  rw [hpc] at hok
  obtain ⟨hruns, -⟩ := hok
  obtain ⟨hfit, hid, -⟩ := hruns.piece hbs hb
  unfold lookup
  rw [hid, hruns.stands.subID]
  generalize hg : getCachedBlock s.cache (c.transfer dev).subID (startBlock dev c.subID c.pos + b) (c.garbage b) = g
  obtain ⟨hkeys, hkey, hcases⟩ := getCachedBlock_spec _ _ _ _ hg
  have hno : ∀ i c' b' tr', s.threads t ≠ .hold c' b' tr' i false := by
    intro i c' b' tr' heq
    rw [hpc] at heq
    cases heq
  exact {
    pcs := pcs_goto h rfl (List.Subset.refl _) hkeys ⟨hruns, hb, hkey⟩
    blocks := by
      intro cb' hcb'
      obtain ⟨i, hi⟩ := List.mem_iff_getElem?.mp hcb'
      rcases hcases i cb' hi with ⟨cb, hcb, heq⟩ | ⟨-, -, heq⟩
      · have hcb := h.blocks cb (List.mem_of_getElem? hcb)
        rw [heq]
        exact ⟨hcb.fits, hcb.source⟩
      · rw [heq]
        exact ⟨hfit, fun hf => by cases hf⟩
    loaded := by
      intro i cb' hi hf
      rcases hcases i cb' hi with ⟨cb, hcb, heq⟩ | ⟨hmiss, rfl, -⟩
      · rw [heq] at hf
        obtain ⟨t₀, ht₀⟩ := h.loaded i cb hcb hf
        exact ⟨t₀, ht₀.frame rfl (hno i)⟩
      · -- a new block is loaded by the thread that has put it there
        exact ⟨t, c, b, tr, by rw [← hmiss]; exact Function.update_self t _ _⟩
    genuine := h.genuine.mono rfl (List.Subset.refl _)
    early := h.early }

/-- A thread that leaves, with a reply. -/
theorem cacheInv_ret (h : CacheInv dev s) (hno : ∀ i c' b' tr', s.threads t ≠ .hold c' b' tr' i false)
    {c : Call} {buffer : UserBuffer} {result : Nat}
    (hr : c.set = false → ∀ j, (j < c.bufferSize ∧ Source dev s.sets c.subID (c.pos + j) (buffer.mem j)) ∨
      (buffer.mem j = c.buffer.mem j ∧ (result = 0 → c.bufferSize ≤ j))) :
    CacheInv dev (s.ret t c buffer result) where
  pcs := pcs_goto h rfl (List.Subset.refl _) (fun _ _ hk => hk) trivial
  blocks := h.blocks
  loaded := by
    intro i cb hi hf
    obtain ⟨t₀, ht₀⟩ := h.loaded i cb hi hf
    exact ⟨t₀, ht₀.frame rfl (hno i)⟩
  genuine := by
    intro r hr' hg
    rcases List.mem_cons.mp hr' with rfl | hr'
    · exact hr hg
    · exact h.genuine r hr' hg
  early := h.early

/-- The loop has gone through all blocks. -/
theorem cacheInv_done (hbs : ∀ s, 0 < dev.blockSize s ∧ dev.blockSize s < 2 ^ 64) (h : CacheInv dev s)
    {c : Call} {b : Nat} {tr : Transfer} (hpc : s.threads t = .look c b tr)
    (hb : ¬ b < numBlocks dev c.subID c.pos c.bufferSize) : CacheInv dev (s.ret t c tr.buffer 0) := by
  have hok := h.pcs t
  rw [hpc] at hok
  obtain ⟨hruns, hle⟩ := hok
  obtain rfl : b = numBlocks dev c.subID c.pos c.bufferSize := by omega
  have hend := (numBlocks_eq (c.transfer_fits (hbs c.subID) hruns.fits)).2
  have hdone : tr.done = c.bufferSize :=
    hruns.stands.done.trans (Nat.min_eq_left (Nat.le_sub_of_add_le (Nat.add_comm _ _ ▸ Nat.le_of_lt hend)))
  refine cacheInv_ret h (fun i c' b' tr' heq => by rw [hpc] at heq; cases heq) fun hset j => ?_
  rcases hruns.moved.get hset j with h1 | h1
  · exact Or.inl (hdone ▸ h1)
  · exact Or.inr ⟨h1.1, fun _ => hdone ▸ h1.2⟩

/-- A reference less does not show. -/
theorem cacheInv_drop (h : CacheInv dev s) (i : Nat) :
    CacheInv dev { s with cache := releaseCachedBlock s.cache i } where
  pcs := fun t₀ => (h.pcs t₀).mono (List.Subset.refl _)
    (fun j k hk => (keyAt_modify (f := CachedBlock.drop) (fun _ => ⟨rfl, rfl⟩) i j).trans hk)
  blocks := by
    intro cb' hcb'
    obtain ⟨j, hj⟩ := List.mem_iff_getElem?.mp hcb'
    obtain ⟨cb, hcb, rfl⟩ := modify_cases hj
    have hok := h.blocks cb (List.mem_of_getElem? hcb)
    split_ifs
    · exact ⟨hok.fits, hok.source⟩
    · exact hok
  loaded := by
    intro j cb' hj hf
    obtain ⟨cb, hcb, rfl⟩ := modify_cases hj
    refine h.loaded j cb hcb ?_
    split_ifs at hf
    · exact hf
    · exact hf
  genuine := h.genuine
  early := h.early

theorem cacheInv_release (h : CacheInv dev s) {c : Call} {b i : Nat} {tr : Transfer} {ok : Bool}
    (hpc : s.threads t = .give c b tr i ok) : CacheInv dev (releaseSection s t c b tr i ok) := by
  have hok := h.pcs t
  rw [hpc] at hok
  have h' := cacheInv_drop h i
  have hno : ∀ j c' b' tr', s.threads t ≠ .hold c' b' tr' j false := by
    intro j c' b' tr' heq
    rw [hpc] at heq
    cases heq
  unfold releaseSection
  cases ok with
  | true =>
      exact cacheInv_goto h' ⟨hok.1, hok.2⟩ fun j _ c' b' tr' _ _ => hno j c' b' tr'
  | false =>
      refine cacheInv_ret h' hno fun hset j => ?_
      exact (hok hset j).imp_right fun hj => ⟨hj, fun h0 => absurd h0 (by decide)⟩

/-- A block is filled. -/
theorem cacheInv_load (h : CacheInv dev s) (i : Nat) :
    CacheInv dev { s with cache := loadBlock dev s.cache i } where
  pcs := fun t₀ => (h.pcs t₀).mono (List.Subset.refl _)
    (fun j k hk => (keyAt_modify (f := CachedBlock.load dev) (fun _ => ⟨rfl, rfl⟩) i j).trans hk)
  blocks := by
    intro cb' hcb'
    obtain ⟨j, hj⟩ := List.mem_iff_getElem?.mp hcb'
    obtain ⟨cb, hcb, rfl⟩ := modify_cases hj
    have hok := h.blocks cb (List.mem_of_getElem? hcb)
    split_ifs
    · exact load_source cb hok.fits
    · exact hok
  loaded := by
    intro j cb' hj hf
    obtain ⟨cb, hcb, rfl⟩ := modify_cases hj
    split_ifs at hf
    · cases hf
    · exact h.loaded j cb hcb hf
  genuine := h.genuine
  early := h.early

/-- A filled block is written to. -/
theorem cacheInv_store (h : CacheInv dev s) {i : Nat} {cb : CachedBlock} (hcb : s.cache[i]? = some cb)
    {d : Nat → UInt8}
    (hd : ∀ o < dev.blockSize cb.subID,
      Source dev s.sets cb.subID (cb.blockID * dev.blockSize cb.subID + o) (d o)) :
    CacheInv dev { s with cache := s.cache.modify i (CachedBlock.store d) } where
  pcs := fun t₀ => (h.pcs t₀).mono (List.Subset.refl _)
    (fun j k hk => (keyAt_modify (f := CachedBlock.store d) (fun _ => ⟨rfl, rfl⟩) i j).trans hk)
  blocks := by
    intro cb' hcb'
    obtain ⟨j, hj⟩ := List.mem_iff_getElem?.mp hcb'
    obtain ⟨cb₀, hcb₀, rfl⟩ := modify_cases hj
    split_ifs with hij
    · subst hij
      obtain rfl : cb = cb₀ := Option.some.inj (hcb.symm.trans hcb₀)
      exact ⟨(h.blocks cb (List.mem_of_getElem? hcb)).fits, fun _ => hd⟩
    · exact h.blocks cb₀ (List.mem_of_getElem? hcb₀)
  loaded := by
    intro j cb' hj hf'
    obtain ⟨cb₀, hcb₀, hf₀⟩ := store_filled hj
    exact h.loaded j cb₀ hcb₀ (hf₀.trans hf')
  genuine := h.genuine
  early := h.early

/-- Behind a copy out of a block, and behind one into it. -/
theorem give_out (hbs : ∀ s, 0 < dev.blockSize s ∧ dev.blockSize s < 2 ^ 64) {cache : List CachedBlock}
    {sets : List Call} {c : Call} {b i : Nat} {tr : Transfer} (h : Runs dev sets c b tr)
    (hb : b < numBlocks dev c.subID c.pos c.bufferSize) {k : Bool} {mem : Nat → UInt8}
    (hmoved : k = true → Moved dev sets c (tr.done + tr.rem dev (startBlock dev c.subID c.pos + b)) mem)
    (hpart : ∀ j, (j < c.bufferSize ∧ Source dev sets c.subID (c.pos + j) (mem j)) ∨ mem j = c.buffer.mem j) :
    PcOk dev cache sets (.give c b (if k
      then Transfer.advance { tr with buffer := { tr.buffer with mem := mem } }
        (tr.rem dev (startBlock dev c.subID c.pos + b))
      else { tr with buffer := { tr.buffer with mem := mem } }) i k) := by
  cases k with
  | true =>
      rw [if_pos rfl]
      exact ⟨h.next hbs hb (hmoved rfl), hb⟩
  | false =>
      rw [if_neg Bool.false_ne_true]
      exact fun _ => hpart

theorem give_in (hbs : ∀ s, 0 < dev.blockSize s ∧ dev.blockSize s < 2 ^ 64) {cache : List CachedBlock}
    {sets : List Call} {c : Call} {b i : Nat} {tr : Transfer} (h : Runs dev sets c b tr)
    (hb : b < numBlocks dev c.subID c.pos c.bufferSize) (hset : c.set = true) (k : Bool) :
    PcOk dev cache sets (.give c b
      (if k then tr.advance (tr.rem dev (startBlock dev c.subID c.pos + b)) else tr) i k) := by
  have hno : ¬ c.set = false := by
    rw [hset]
    exact fun h => by cases h
  cases k with
  | true =>
      rw [if_pos rfl]
      have hm : Moved dev sets c (tr.done + tr.rem dev (startBlock dev c.subID c.pos + b)) tr.buffer.mem :=
        ⟨h.moved.set, fun hg => absurd hg hno⟩
      exact ⟨h.next hbs hb hm, hb⟩
  | false => exact fun hg => absurd hg hno

/-- The copy on a block that is filled. -/
theorem cacheInv_copy (hbs : ∀ s, 0 < dev.blockSize s ∧ dev.blockSize s < 2 ^ 64) (h : CacheInv dev s)
    {c : Call} {b i : Nat} {tr : Transfer} {hit : Bool} (hpc : s.threads t = .hold c b tr i hit)
    {cb : CachedBlock} (hcb : s.cache[i]? = some cb) (hf : cb.filled = true)
    {ok : Bool} {cache' : List CachedBlock} {tr' : Transfer}
    (hr : copyBlock dev s.cache i (u64 (tr.startBlock + b)) tr = (ok, cache', tr')) :
    CacheInv dev ({ s with cache := cache' }.goto t (.give c b tr' i ok)) := by
  have hok := h.pcs t
  rw [hpc] at hok
  obtain ⟨hruns, hb, hkey⟩ := hok
  obtain ⟨-, hid, -⟩ := hruns.piece hbs hb
  have hk : cb.subID = c.subID ∧ cb.blockID = startBlock dev c.subID c.pos + b := by
    simp only [keyAt, hcb, Option.map_some, Option.some.injEq, Prod.mk.injEq] at hkey
    exact hkey
  have hdata : ∀ o < dev.blockSize c.subID, Source dev s.sets c.subID
      ((startBlock dev c.subID c.pos + b) * dev.blockSize c.subID + o) (dataAt s.cache i o) := by
    have hsrc := (h.blocks cb (List.mem_of_getElem? hcb)).source hf
    rw [hk.1, hk.2] at hsrc
    simp only [dataAt, hcb]
    exact hsrc
  -- the thread stands at a block that is filled
  have hno : ∀ j cb' c' b' tr', s.cache[j]? = some cb' → cb'.filled = false →
      s.threads t ≠ .hold c' b' tr' j false := by
    intro j cb' c' b' tr' hj hf' heq
    rw [hpc] at heq
    cases heq
    rw [hcb] at hj
    cases hj
    exact absurd (hf.symm.trans hf') (fun h => by cases h)
  have hset := hruns.stands.set
  rw [hid] at hr
  cases hcs : c.set with
  | true =>
      generalize hc : kmemcpyUsersafe (fun j => tr.buffer.mapped (tr.done + j)) tr.buffer.mem tr.done
        (dataAt s.cache i) (tr.offs dev (startBlock dev c.subID c.pos + b))
        (tr.rem dev (startBlock dev c.subID c.pos + b)) = k
      rw [copyBlock_in (hset.trans hcs) hc, Prod.mk.injEq, Prod.mk.injEq] at hr
      obtain ⟨rfl, rfl, rfl⟩ := hr
      have hin := copyIn_spec hbs hruns hb hcs hdata (fun j => tr.buffer.mapped (tr.done + j))
      rw [hc] at hin
      have hstore : CacheInv dev { s with cache := s.cache.modify i (CachedBlock.store k.2) } := by
        refine cacheInv_store h hcb ?_
        rw [hk.1, hk.2]
        exact hin
      refine cacheInv_goto hstore (give_in hbs hruns hb hcs k.1) ?_
      intro j cb' c' b' tr' hj hf'
      obtain ⟨cb₀, hcb₀, hf₀⟩ := store_filled hj
      exact hno j cb₀ c' b' tr' hcb₀ (hf₀.trans hf')
  | false =>
      generalize hc : kmemcpyUsersafe (fun j => tr.buffer.mapped (tr.done + j)) (dataAt s.cache i)
        (tr.offs dev (startBlock dev c.subID c.pos + b)) tr.buffer.mem tr.done
        (tr.rem dev (startBlock dev c.subID c.pos + b)) = k
      rw [copyBlock_out (hset.trans hcs) hc, Prod.mk.injEq, Prod.mk.injEq] at hr
      obtain ⟨rfl, rfl, rfl⟩ := hr
      obtain ⟨hmoved, hpart⟩ := copyOut_spec hbs hruns hb hcs hdata _ hc
      exact cacheInv_goto h (give_out hbs hruns hb hmoved hpart) hno

/-- The section under `dataLock`. -/
theorem cacheInv_data (hbs : ∀ s, 0 < dev.blockSize s ∧ dev.blockSize s < 2 ^ 64) (h : CacheInv dev s)
    {c : Call} {b i : Nat} {tr : Transfer} {hit : Bool} (hpc : s.threads t = .hold c b tr i hit)
    (hg : afterLoad s (.data t)) : CacheInv dev (dataSection dev s t c b tr i hit) := by
  have hok := h.pcs t
  rw [hpc] at hok
  obtain ⟨cb, hcb, -⟩ := Option.map_eq_some_iff.mp hok.2.2
  unfold dataSection
  cases hit with
  | true =>
      -- nobody is left to fill the block: it is filled
      have hf : cb.filled = true := by
        cases hf : cb.filled with
        | true => rfl
        | false =>
            obtain ⟨t', ht'⟩ := h.loaded i cb hcb hf
            exact absurd ht' (hg c b tr i hpc t')
      have hearly : (s.early || !filledAt s.cache i) = s.early := by
        simp only [filledAt, hcb, hf, Bool.not_true, Bool.or_false]
      simp only [if_true, hearly]
      generalize hr : copyBlock dev s.cache i (u64 (tr.startBlock + b)) tr = r
      obtain ⟨ok, cache', tr'⟩ := r
      exact cacheInv_copy hbs h hpc hcb hf hr
  | false =>
      have hcb' : (loadBlock dev s.cache i)[i]? = some (cb.load dev) := by
        unfold loadBlock
        rw [List.getElem?_modify, hcb]
        simp only [if_true]
        rfl
      have hearly : (s.early || !filledAt (loadBlock dev s.cache i) i) = s.early := by
        simp only [filledAt, hcb', CachedBlock.load, Bool.not_true, Bool.or_false]
      simp only [Bool.false_eq_true, if_false, hearly]
      generalize hr : copyBlock dev (loadBlock dev s.cache i) i (u64 (tr.startBlock + b)) tr = r
      obtain ⟨ok, cache', tr'⟩ := r
      exact cacheInv_copy hbs (cacheInv_load h i) hpc hcb' rfl hr

/-- One step of the system. -/
theorem cacheInv_next (hbs : ∀ s, 0 < dev.blockSize s ∧ dev.blockSize s < 2 ^ 64) (h : CacheInv dev s)
    {e : Event} (he : e.Fits) (hg : afterLoad s e) (hn : next dev s e = some s') : CacheInv dev s' := by
  cases e with
  | call t c =>
      simp only [next] at hn
      split at hn
      · rename_i hpc
        cases hn
        exact cacheInv_call hbs h hpc he
      · cases hn
  | look t =>
      simp only [next] at hn
      split at hn
      · rename_i c b tr hpc
        cases hn
        split_ifs with hb
        · exact cacheInv_lookup hbs h hpc hb
        · exact cacheInv_done hbs h hpc hb
      · cases hn
  | data t =>
      simp only [next] at hn
      split at hn
      · rename_i c b tr i hit hpc
        cases hn
        exact cacheInv_data hbs h hpc hg
      · cases hn
  | release t =>
      simp only [next] at hn
      split at hn
      · rename_i c b tr i ok hpc
        cases hn
        exact cacheInv_release h hpc
      · cases hn

end Step

/-! ## 6. All runs -/

/-- In every run in which a thread that finds a block does not overtake the one that put it there, no copy meets
    a block that is not filled, and no `GetData` returns a byte from anywhere else. -/
theorem cache_safe (dev : Device) (hbs : ∀ s, 0 < dev.blockSize s ∧ dev.blockSize s < 2 ^ 64) (s : Sys)
    (h : Reach (Guarded (sysStep dev) afterLoad) sysInit s) : NoEarlyCopy s ∧ Genuine dev s := by
  have hinv : CacheInv dev s := by
    refine h.inv (I := CacheInv dev) ?_ ?_
    · rintro s rfl
      exact {
        pcs := fun _ => trivial
        blocks := fun cb hcb => absurd hcb List.not_mem_nil
        loaded := fun i cb hi => by cases hi
        genuine := fun r hr => absurd hr List.not_mem_nil
        early := rfl }
    · intro s e s' hs hstep
      exact cacheInv_next hbs hs hstep.1.1 hstep.2 hstep.1.2
  exact ⟨hinv.early, hinv.genuine⟩

/-- A sequence of steps. -/
def runEvents (dev : Device) : Sys → List Event → Option Sys
  | s, [] => some s
  | s, e :: es => (next dev s e).bind fun s => runEvents dev s es

theorem reach_runEvents {dev : Device} (ok : Sys → Event → Prop) {s s' : Sys} (es : List Event)
    (h : Reach (Guarded (sysStep dev) ok) sysInit s) (hfits : ∀ e ∈ es, e.Fits) (hok : ∀ s, ∀ e ∈ es, ok s e)
    (hr : runEvents dev s es = some s') : Reach (Guarded (sysStep dev) ok) sysInit s' := by
  induction es generalizing s with
  | nil => exact Option.some.inj hr ▸ h
  | cons e es ih =>
      obtain ⟨s₁, h1, h2⟩ := Option.bind_eq_some_iff.mp hr
      refine ih ?_ (fun e he => hfits e (List.mem_cons_of_mem _ he))
        (fun s e he => hok s e (List.mem_cons_of_mem _ he)) h2
      exact .next s e s₁ h ⟨⟨hfits e List.mem_cons_self, h1⟩, hok s e List.mem_cons_self⟩

/-- `GetData` of the first three bytes of a block. -/
def readThree : Call := ⟨false, 0, 0, ⟨fun _ => 0, fun _ => true⟩, 3, fun _ _ => 1⟩

theorem readThree_fits : readThree.Fits := ⟨by decide, by decide⟩

def start : Sys := ⟨[], fun _ => .out, [], [], false⟩

/-- Thread 0 puts the block into the cache, thread 1 finds it. -/
def found : List Event := [.call 0 readThree, .call 1 readThree, .look 0, .look 1]

theorem found_fits : ∀ e ∈ found, e.Fits := by
  intro e he
  simp only [found, List.mem_cons, List.not_mem_nil, or_false] at he
  rcases he with rfl | rfl | rfl | rfl
  · exact readThree_fits
  · exact readThree_fits
  · trivial
  · trivial

theorem found_threads (t : Nat) : (runEvents boundaryDevice start found).map (fun s => s.threads t) =
    some (if t = 1 then .hold readThree 0 (readThree.transfer boundaryDevice) 0 true
      else if t = 0 then .hold readThree 0 (readThree.transfer boundaryDevice) 0 false else .out) := by
  match t with
  | 0 => rfl
  | 1 => rfl
  | t + 2 => rfl

theorem dataSection_thread (dev : Device) (s : Sys) (t : Nat) (c : Call) (b : Nat) (tr : Transfer) (i : Nat)
    (hit : Bool) : ∃ tr' ok, (dataSection dev s t c b tr i hit).threads t = .give c b tr' i ok := by
  unfold dataSection Sys.goto
  exact ⟨_, _, Function.update_self t _ _⟩

/-- Thread 0 fills the block, then thread 1 reads it. -/
theorem cache_safe_in_turn :
    ∃ s, Reach (Guarded (sysStep boundaryDevice) afterLoad) sysInit s ∧
      (∃ tr ok, s.threads 1 = .give readThree 0 tr 0 ok) ∧ NoEarlyCopy s ∧ Genuine boundaryDevice s := by
  obtain ⟨s, hs⟩ := Option.isSome_iff_exists.mp
    (show (runEvents boundaryDevice start found).isSome = true by decide)
  have hpc : ∀ t, s.threads t = if t = 1 then .hold readThree 0 (readThree.transfer boundaryDevice) 0 true
      else if t = 0 then .hold readThree 0 (readThree.transfer boundaryDevice) 0 false else .out := by
    intro t
    have h := found_threads t
    rw [hs] at h
    exact Option.some.inj h
  have h1 : Reach (Guarded (sysStep boundaryDevice) afterLoad) sysInit s := by
    refine reach_runEvents afterLoad found (.start start rfl) found_fits (fun s e he => ?_) hs
    simp only [found, List.mem_cons, List.not_mem_nil, or_false] at he
    rcases he with rfl | rfl | rfl | rfl <;> trivial
  have h2 : Reach (Guarded (sysStep boundaryDevice) afterLoad) sysInit
      (dataSection boundaryDevice s 0 readThree 0 (readThree.transfer boundaryDevice) 0 false) := by
    refine .next _ (Event.data 0) _ h1 ⟨⟨trivial, ?_⟩, fun c b tr i h => ?_⟩
    · simp only [next, hpc]
      rfl
    · rw [hpc] at h
      cases h
  have hpc' : ∀ t ≠ 0,
      (dataSection boundaryDevice s 0 readThree 0 (readThree.transfer boundaryDevice) 0 false).threads t =
        s.threads t := fun t ht => Function.update_of_ne ht _ _
  have h3 : Reach (Guarded (sysStep boundaryDevice) afterLoad) sysInit (dataSection boundaryDevice
      (dataSection boundaryDevice s 0 readThree 0 (readThree.transfer boundaryDevice) 0 false)
      1 readThree 0 (readThree.transfer boundaryDevice) 0 true) := by
    refine .next _ (Event.data 1) _ h2 ⟨⟨trivial, ?_⟩, fun c b tr i _ t' => ?_⟩
    · simp only [next, hpc' 1 (by decide), hpc]
      rfl
    · intro hx
      obtain ⟨c', b', tr', h⟩ := hx
      by_cases h0 : t' = 0
      · subst h0
        cases h
      · rw [hpc' t' h0, hpc] at h
        split_ifs at h
        · cases h
  have hbs : 0 < 4 ∧ 4 < 2 ^ 64 := by decide
  exact ⟨_, h3, dataSection_thread _ _ _ _ _ _ _ _, cache_safe boundaryDevice (fun _ => hbs) _ h3⟩

def overtaking : List Event := found ++ [.data 1, .release 1, .look 1]

/-- Thread 1 takes `dataLock` before the block is filled, and returns what stood in its memory. -/
theorem overtaken :
    ∃ s, Reach (sysStep boundaryDevice) sysInit s ∧ ¬ NoEarlyCopy s ∧ ¬ Genuine boundaryDevice s := by
  obtain ⟨s, hs⟩ := Option.isSome_iff_exists.mp
    (show (runEvents boundaryDevice start overtaking).isSome = true by decide)
  have hearly : (runEvents boundaryDevice start overtaking).map
      (fun s => (s.early, s.sets.length)) = some (true, 0) := by decide
  have hreply : (runEvents boundaryDevice start overtaking).map
      (fun s => s.returned.map fun r => (r.call.set, r.call.bufferSize, r.result, r.buffer.mem 0)) =
        some [(false, 3, 0, 1)] := by decide
  rw [hs, Option.map_some, Option.some.injEq] at hearly hreply
  obtain ⟨hearly, hsets⟩ := Prod.mk.inj hearly
  obtain ⟨r, hr, hval⟩ := List.map_eq_singleton_iff.mp hreply
  simp only [Prod.mk.injEq] at hval
  obtain ⟨hset, hsize, hresult, hbyte⟩ := hval
  have hreach : Reach (sysStep boundaryDevice) sysInit s := by
    have hfits : ∀ e ∈ overtaking, e.Fits := by
      intro e he
      rcases List.mem_append.mp he with he | he
      · exact found_fits e he
      · simp only [List.mem_cons, List.not_mem_nil, or_false] at he
        rcases he with rfl | rfl | rfl <;> trivial
    have h0 : Reach (Guarded (sysStep boundaryDevice) fun _ _ => True) sysInit start := .start start rfl
    exact (reach_runEvents _ overtaking h0 hfits (fun _ _ _ => trivial) hs).mono (fun _ h => h) fun _ _ _ h => h.1
  refine ⟨s, hreach, ?_, fun hg => ?_⟩
  · unfold NoEarlyCopy
    rw [hearly]
    exact fun h => by cases h
  · -- neither the device nor a `SetData` has the byte
    rcases hg r (hr ▸ List.mem_singleton_self r) hset 0 with ⟨-, himage | ⟨c, hc, -⟩⟩ | ⟨-, hle⟩
    · rw [hbyte] at himage
      change (1 : UInt8) = 7 at himage
      exact absurd himage (by decide)
    · rw [List.length_eq_zero_iff.mp hsets] at hc
      cases hc
    · have := hle hresult
      omega

end BlockDevice

end SimpleOS2
