/-
  File:      SimpleOS2/Fs/PipeFS.lean
  Subject:   THE PIPE RING (fs/PipeFS.cpp, fs/PipeFS.h) AND ITS FIFO LAW.

  `PipeFS.read` and `PipeFS.write` are `_Read` and `_Write`, each one atomic section under the
  pipe's lock, with every branch of the source: empty, unwrapped and wrapped ring, the read
  position at zero or not, one or two copy pieces, and a user copy that faults in either piece.

  * `contents p` -- the bytes the ring holds, oldest first: the reading of a `Pipe` as a list;
  * `read_spec`, `write_spec` -- what one call does to that list, or that it failed and left the
    list and both positions alone;
  * `Log`, `logStep` -- any sequence of `_Read` and `_Write` calls by any threads on one pipe, with
    the bytes that were accepted and delivered logged under the thread that moved them;
    `fifo_reach` is the FIFO law of every such run;
  * `Sys`, `sysStep` -- the loops of `ReadNodeData` and `WriteNodeData` of any number of threads,
    one `_Read` or `_Write` a step, in any interleaving. Every step is a step of the log or leaves
    it alone (`sysStep_log`), and `sysInv_reach` says that the bytes logged under a thread are
    those of its own buffers, in its own order;
  * `read_returns` -- a `_Read` that finds bytes ends the loop of its thread, unless it is asked for
    none; `never_returns`, `read_nothing`.
-/
import SimpleOS2.Lib.Run
import SimpleOS2.Lib.Ring
import SimpleOS2.Klib.Memory

namespace SimpleOS2

open Lib

/-! ## 1. The pipe and its two critical sections -/

/-- `struct Pipe` (the lock is the atomicity of the two sections below). -/
structure Pipe where
  id : Nat
  free : Bool
  readPos : Nat
  writePos : Nat
  buffer : Nat → UInt8

namespace PipeFS

/-- `sizeof(p->buffer)`. -/
def bufferCap : Nat := 4096

/-- The two pieces of a wrapped copy, cut to the caller's buffer: `remA` first, then `remB`. -/
def clampPieces (remA remB bufferSize : Nat) : Nat × Nat :=
  if remA > bufferSize then (bufferSize, 0)
  else if remA + remB > bufferSize then (remA, bufferSize - remA)
  else (remA, remB)

/-- `_Read(Pipe*, void*, uint64)`: the result, the pipe and the user buffer afterwards. -/
def read (p : Pipe) (buf : UserBuffer) (bufferSize : Nat) : Nat × Pipe × UserBuffer :=
  if p.readPos = p.writePos then (0, p, buf)
  else if p.readPos < p.writePos then
    let rem := min (p.writePos - p.readPos) bufferSize
    let c := kmemcpyUsersafe buf.mapped p.buffer p.readPos buf.mem 0 rem
    if c.1 then (rem, { p with readPos := p.readPos + rem }, { buf with mem := c.2 })
    else (asU64 ErrorInvalidBuffer, p, { buf with mem := c.2 })
  else
    let r := clampPieces (bufferCap - p.readPos) p.writePos bufferSize
    let a := kmemcpyUsersafe buf.mapped p.buffer p.readPos buf.mem 0 r.1
    let b := kmemcpyUsersafe (fun i => buf.mapped (r.1 + i)) p.buffer 0 a.2 r.1 r.2
    if a.1 then
      if b.1 then
        (r.1 + r.2, { p with readPos := (p.readPos + (r.1 + r.2)) % bufferCap },
          { buf with mem := b.2 })
      else (asU64 ErrorInvalidBuffer, p, { buf with mem := b.2 })
    else (asU64 ErrorInvalidBuffer, p, { buf with mem := a.2 })

/-- `_Write(Pipe*, const void*, uint64)` with the user buffer from offset `o` on
    (`realBuffer + res` in `WriteNodeData`). A copy that faults has already overwritten free
    cells of the ring, and keeps them. -/
def write (p : Pipe) (buf : UserBuffer) (o bufferSize : Nat) : Nat × Pipe :=
  let ok := fun i => buf.mapped (o + i)
  let one := fun rem =>
    let c := kmemcpyUsersafe ok buf.mem o p.buffer p.writePos rem
    if c.1 then (rem, { p with writePos := p.writePos + rem, buffer := c.2 })
    else (asU64 ErrorInvalidBuffer, { p with buffer := c.2 })
  if p.writePos < p.readPos then one (min (p.readPos - p.writePos - 1) bufferSize)
  else if p.readPos > 0 then
    let r := clampPieces (bufferCap - p.writePos) (p.readPos - 1) bufferSize
    let a := kmemcpyUsersafe ok buf.mem o p.buffer p.writePos r.1
    let b := kmemcpyUsersafe (fun i => ok (r.1 + i)) buf.mem (o + r.1) a.2 0 r.2
    if a.1 then
      if b.1 then
        (r.1 + r.2, { p with writePos := (p.writePos + (r.1 + r.2)) % bufferCap, buffer := b.2 })
      else (asU64 ErrorInvalidBuffer, { p with buffer := b.2 })
    else (asU64 ErrorInvalidBuffer, { p with buffer := a.2 })
  else one (min (bufferCap - p.writePos - 1) bufferSize)

/-! ## 2. The ring as a list -/

/-- Both positions are inside the ring. -/
structure PosOk (p : Pipe) : Prop where
  read_lt : p.readPos < bufferCap
  write_lt : p.writePos < bufferCap

/-- The number of bytes the ring holds. -/
def buffered (p : Pipe) : Nat := (p.writePos + bufferCap - p.readPos) % bufferCap

/-- The bytes the ring holds, oldest first. -/
def contents (p : Pipe) : List UInt8 := ring bufferCap p.buffer p.readPos (buffered p)

/-- The first `n` bytes of a user buffer from offset `o` on. -/
def userBytes (buf : UserBuffer) (o n : Nat) : List UInt8 :=
  (List.range n).map fun i => buf.mem (o + i)

theorem buffered_lt (p : Pipe) : buffered p ≤ 4095 := by
  unfold buffered bufferCap
  omega

theorem contents_length (p : Pipe) : (contents p).length = buffered p := ring_length _ _ _ _

@[simp] theorem userBytes_length (buf : UserBuffer) (o n : Nat) :
    (userBytes buf o n).length = n := by
  simp [userBytes]

theorem userBytes_add (buf : UserBuffer) (o m n : Nat) :
    userBytes buf o (m + n) = userBytes buf o m ++ userBytes buf (o + m) n := by
  unfold userBytes
  rw [List.range_add, List.map_append, List.map_map]
  congr 1
  refine List.map_congr_left fun i _ => ?_
  show buf.mem (o + (m + i)) = buf.mem (o + m + i)
  rw [Nat.add_assoc]

/-- Both pieces together are what fits, and the second is empty unless the first is whole. -/
theorem clampPieces_spec (a b n : Nat) :
    (clampPieces a b n).1 ≤ a ∧ (clampPieces a b n).2 ≤ b ∧
      (clampPieces a b n).1 + (clampPieces a b n).2 = min n (a + b) ∧
      ((clampPieces a b n).2 = 0 ∨ (clampPieces a b n).1 = a) := by
  unfold clampPieces
  split_ifs <;> simp <;> omega

/-! ## 3. One call -/

section Call

variable {p : Pipe} {buf : UserBuffer} {n : Nat}

/-- Moving the read position over `k` held bytes drops them. -/
theorem contents_consume (hp : PosOk p) {k : Nat} (hk : k ≤ buffered p) :
    PosOk { p with readPos := (p.readPos + k) % bufferCap } ∧
      contents { p with readPos := (p.readPos + k) % bufferCap } = (contents p).drop k := by
  have h1 := hp.read_lt
  have h2 := hp.write_lt
  refine ⟨⟨Nat.mod_lt _ (by decide), h2⟩, ?_⟩
  unfold contents
  rw [ring_drop hk]
  have hb : buffered { p with readPos := (p.readPos + k) % bufferCap } = buffered p - k := by
    unfold buffered bufferCap at *
    simp only at *
    omega
  rw [hb]

/-- Moving the write position over `k` free cells that hold `l` appends `l`; the cells in use are
    read from the old buffer. -/
theorem contents_produce (hp : PosOk p) {k : Nat} (hk : buffered p + k ≤ 4095)
    {b : Nat → UInt8} {l : List UInt8}
    (hold : ∀ i < buffered p, b ((p.readPos + i) % bufferCap) = p.buffer ((p.readPos + i) % bufferCap))
    (hnew : ring bufferCap b p.writePos k = l) :
    PosOk { p with writePos := (p.writePos + k) % bufferCap, buffer := b } ∧
      contents { p with writePos := (p.writePos + k) % bufferCap, buffer := b } =
        contents p ++ l := by
  have h1 := hp.read_lt
  have h2 := hp.write_lt
  refine ⟨⟨h1, Nat.mod_lt _ (by decide)⟩, ?_⟩
  have hb : buffered { p with writePos := (p.writePos + k) % bufferCap, buffer := b } =
      buffered p + k := by
    unfold buffered bufferCap at *
    simp only at *
    omega
  have hw : (p.readPos + buffered p) % bufferCap = p.writePos := by
    unfold buffered bufferCap at *
    omega
  unfold contents
  rw [hb, ring_add, ring_congr hold]
  show _ ++ ring bufferCap b ((p.readPos + buffered p) % bufferCap) k = _
  rw [hw, hnew]

/-- The user buffer after a copy of `k` cells of the ring from the read position on. -/
theorem userBytes_of_copied {m : Nat → UInt8} {k : Nat} (hk : k ≤ buffered p)
    (h : ∀ i < k, m i = p.buffer ((p.readPos + i) % bufferCap)) :
    userBytes { buf with mem := m } 0 k = (contents p).take k := by
  unfold contents
  rw [ring_take hk]
  unfold userBytes ring
  refine List.map_congr_left fun i hi => ?_
  simp only [Nat.zero_add]
  exact h i (List.mem_range.mp hi)

/-- What a call of `_Read` may do: fail and leave the pipe alone, or hand over the oldest bytes. -/
structure ReadDone (p : Pipe) (n : Nat) (res : Nat) (p' : Pipe) (buf' : UserBuffer) : Prop where
  count : res = min n (buffered p)
  posOk : PosOk p'
  rest : contents p' = (contents p).drop res
  bytes : userBytes buf' 0 res = (contents p).take res

/-- **One `_Read`.** -/
theorem read_spec (hp : PosOk p) (buf : UserBuffer) (n : Nat) :
    ((read p buf n).1 = asU64 ErrorInvalidBuffer ∧ (read p buf n).2.1 = p) ∨
      ReadDone p n (read p buf n).1 (read p buf n).2.1 (read p buf n).2.2 := by
  have h1 := hp.read_lt
  have h2 := hp.write_lt
  unfold bufferCap at h1 h2
  unfold read
  split_ifs with he hlt
  · -- empty ring
    right
    have hb : buffered p = 0 := by unfold buffered bufferCap; omega
    exact ⟨by simp [hb], hp, by simp, by simp [userBytes]⟩
  · -- the bytes lie in one piece
    have hb : buffered p = p.writePos - p.readPos := by unfold buffered bufferCap; omega
    have hk : min (p.writePos - p.readPos) n ≤ buffered p := by omega
    dsimp only
    split_ifs with hc
    · right
      have hpos : p.readPos + min (p.writePos - p.readPos) n =
          (p.readPos + min (p.writePos - p.readPos) n) % bufferCap := by unfold bufferCap; omega
      obtain ⟨hok, hcont⟩ := contents_consume hp hk
      rw [← hpos] at hok hcont
      refine ⟨by omega, hok, hcont, userBytes_of_copied hk fun i hi => ?_⟩
      have := kmemcpyUsersafe_copied _ _ i hc hi
      rw [Nat.zero_add] at this
      rw [this]
      congr 1
      unfold bufferCap
      omega
    · exact Or.inl ⟨rfl, rfl⟩
  · -- the bytes wrap
    have hb : buffered p = bufferCap - p.readPos + p.writePos := by unfold buffered bufferCap; omega
    obtain ⟨hA, hB, hsum, hzero⟩ := clampPieces_spec (bufferCap - p.readPos) p.writePos n
    dsimp only
    generalize hr : clampPieces (bufferCap - p.readPos) p.writePos n = r at *
    split_ifs with ha hb'
    · right
      have hk : r.1 + r.2 ≤ buffered p := by omega
      obtain ⟨hok, hcont⟩ := contents_consume hp hk
      refine ⟨by omega, hok, hcont, userBytes_of_copied hk fun i hi => ?_⟩
      -- a byte of the first piece was copied by `a` and kept by `b`
      by_cases hi1 : i < r.1
      · rw [kmemcpyUsersafe_frame _ _ _ (by omega)]
        have := kmemcpyUsersafe_copied _ _ i ha hi1
        rw [Nat.zero_add] at this
        rw [this]
        congr 1
        unfold bufferCap at *
        omega
      · have := kmemcpyUsersafe_copied _ _ (i - r.1) hb' (by omega)
        rw [show r.1 + (i - r.1) = i by omega, Nat.zero_add] at this
        rw [this]
        congr 1
        unfold bufferCap at *
        omega
    · exact Or.inl ⟨rfl, rfl⟩
    · exact Or.inl ⟨rfl, rfl⟩

/-- What a `_Write` that succeeds does: it appends as many bytes of the buffer as there is room
    for, one cell of the ring staying free. -/
structure WriteDone (p : Pipe) (buf : UserBuffer) (o n : Nat) (res : Nat) (p' : Pipe) : Prop where
  count : res = min n (4095 - buffered p)
  posOk : PosOk p'
  grown : contents p' = contents p ++ userBytes buf o res

/-- What a `_Write` that fails does: free cells may have changed, nothing else. -/
structure WriteFailed (p : Pipe) (res : Nat) (p' : Pipe) : Prop where
  code : res = asU64 ErrorInvalidBuffer
  readPos : p'.readPos = p.readPos
  writePos : p'.writePos = p.writePos
  same : contents p' = contents p

/-- A buffer that differs from the ring's in free cells only holds the same bytes. -/
theorem contents_free {b : Nat → UInt8}
    (h : ∀ i < buffered p, b ((p.readPos + i) % bufferCap) = p.buffer ((p.readPos + i) % bufferCap)) :
    contents { p with buffer := b } = contents p :=
  ring_congr h

/-- The ring from position `w` on after one copied piece that does not reach the end. -/
theorem ring_of_copied {b : Nat → UInt8} {o w k : Nat} (hw : w + k ≤ bufferCap)
    (h : ∀ i < k, b (w + i) = buf.mem (o + i)) : ring bufferCap b w k = userBytes buf o k := by
  refine ring_eq_map fun i hi => ?_
  rw [Nat.mod_eq_of_lt (by omega)]
  exact h i hi

/-- **One `_Write`.** -/
theorem write_spec (hp : PosOk p) (buf : UserBuffer) (o n : Nat) :
    WriteFailed p (write p buf o n).1 (write p buf o n).2 ∨
      WriteDone p buf o n (write p buf o n).1 (write p buf o n).2 := by
  have h1 := hp.read_lt
  have h2 := hp.write_lt
  -- a copy of one piece that stays below the end of the ring and below the read position
  have one : ∀ rem, rem = min n (4095 - buffered p) → p.writePos + rem < bufferCap →
      ∀ c, c = kmemcpyUsersafe (fun i => buf.mapped (o + i)) buf.mem o p.buffer p.writePos rem →
      (c.1 = true → WriteDone p buf o n rem
        { p with writePos := p.writePos + rem, buffer := c.2 }) ∧
      (¬ c.1 = true → WriteFailed p (asU64 ErrorInvalidBuffer) { p with buffer := c.2 }) := by
    rintro rem hrem hend c rfl
    have hroom : buffered p + rem ≤ 4095 := by have := buffered_lt p; omega
    have hold : ∀ i < buffered p,
        (kmemcpyUsersafe (fun i => buf.mapped (o + i)) buf.mem o p.buffer p.writePos rem).2
          ((p.readPos + i) % bufferCap) = p.buffer ((p.readPos + i) % bufferCap) := by
      intro i hi
      refine kmemcpyUsersafe_frame _ _ _ ?_
      unfold buffered bufferCap at *
      omega
    refine ⟨fun hc => ?_, fun _ => ⟨rfl, rfl, rfl, contents_free hold⟩⟩
    have hpos : p.writePos + rem = (p.writePos + rem) % bufferCap := (Nat.mod_eq_of_lt hend).symm
    obtain ⟨hok, hcont⟩ := contents_produce hp hroom hold (ring_of_copied (by omega)
      fun i hi => kmemcpyUsersafe_copied _ _ i hc hi)
    rw [← hpos] at hok hcont
    exact ⟨hrem, hok, hcont⟩
  obtain ⟨hA, hB, hsum, hzero⟩ := clampPieces_spec (bufferCap - p.writePos) (p.readPos - 1) n
  unfold write
  dsimp only
  generalize clampPieces (bufferCap - p.writePos) (p.readPos - 1) n = r at *
  split_ifs with hlt hc h0 ha hb hc
  · exact Or.inr ((one _ (by unfold buffered bufferCap at *; omega) (by omega) _ rfl).1 hc)
  · exact Or.inl ((one _ (by unfold buffered bufferCap at *; omega) (by omega) _ rfl).2 hc)
  · -- two pieces, both copied
    right
    have hroom : buffered p + (r.1 + r.2) ≤ 4095 := by unfold buffered bufferCap at *; omega
    have hold : ∀ i < buffered p, (kmemcpyUsersafe (fun i => buf.mapped (o + (r.1 + i))) buf.mem
        (o + r.1) (kmemcpyUsersafe (fun i => buf.mapped (o + i)) buf.mem o p.buffer p.writePos
          r.1).2 0 r.2).2 ((p.readPos + i) % bufferCap) = p.buffer ((p.readPos + i) % bufferCap) := by
      intro i hi
      unfold buffered bufferCap at *
      rw [kmemcpyUsersafe_frame _ _ _ (by omega), kmemcpyUsersafe_frame _ _ _ (by omega)]
    have hnew : ring bufferCap (kmemcpyUsersafe (fun i => buf.mapped (o + (r.1 + i))) buf.mem
        (o + r.1) (kmemcpyUsersafe (fun i => buf.mapped (o + i)) buf.mem o p.buffer p.writePos
          r.1).2 0 r.2).2 p.writePos (r.1 + r.2) = userBytes buf o (r.1 + r.2) := by
      rw [ring_add, userBytes_add]
      congr 1
      · refine ring_of_copied (by omega) fun i hi => ?_
        rw [kmemcpyUsersafe_frame _ _ _ (by unfold bufferCap at *; omega)]
        exact kmemcpyUsersafe_copied _ _ i ha hi
      · rcases hzero with hz | hz
        · rw [hz]; rfl
        · have hw : (p.writePos + r.1) % bufferCap = 0 := by
            rw [hz]; unfold bufferCap at *; omega
          rw [hw]
          refine ring_of_copied (by unfold bufferCap at *; omega) fun i hi => ?_
          rw [kmemcpyUsersafe_copied _ _ i hb hi]
    obtain ⟨hok, hcont⟩ := contents_produce hp hroom hold hnew
    exact ⟨by unfold buffered bufferCap at *; omega, hok, hcont⟩
  · -- the second piece faults
    refine Or.inl ⟨rfl, rfl, rfl, contents_free fun i hi => ?_⟩
    unfold buffered bufferCap at *
    rw [kmemcpyUsersafe_frame _ _ _ (by omega), kmemcpyUsersafe_frame _ _ _ (by omega)]
  · -- the first piece faults
    refine Or.inl ⟨rfl, rfl, rfl, contents_free fun i hi => ?_⟩
    unfold buffered bufferCap at *
    rw [kmemcpyUsersafe_frame _ _ _ (by omega)]
  · exact Or.inr ((one _ (by unfold buffered bufferCap at *; omega) (by omega) _ rfl).1 hc)
  · exact Or.inl ((one _ (by unfold buffered bufferCap at *; omega) (by omega) _ rfl).2 hc)

end Call

/-! ## 4. Sequences of calls, with the bytes they moved -/

/-- A pipe with the bytes its writers got accepted and its readers got delivered so far, each
    under the thread whose call moved it. -/
structure Log where
  pipe : Pipe
  accepted : List (Nat × UInt8)
  delivered : List (Nat × UInt8)

/-- One call of `_Read` or `_Write` by thread `t`. -/
inductive Op where
  | read (t : Nat) (buf : UserBuffer) (bufferSize : Nat)
  | write (t : Nat) (buf : UserBuffer) (o bufferSize : Nat)

/-- The bytes a `_Read` handed over, and those a `_Write` took. -/
def moved (res : Nat) (buf : UserBuffer) (o : Nat) : List UInt8 :=
  if res = asU64 ErrorInvalidBuffer then [] else userBytes buf o res

/-- One atomic call on the pipe. -/
def Log.apply (s : Log) : Op → Log
  | .read t buf n =>
      let r := read s.pipe buf n
      { s with pipe := r.2.1, delivered := s.delivered ++ (moved r.1 r.2.2 0).map (t, ·) }
  | .write t buf o n =>
      let r := write s.pipe buf o n
      { s with pipe := r.2, accepted := s.accepted ++ (moved r.1 buf o).map (t, ·) }

def logStep (s : Log) (op : Op) (s' : Log) : Prop := s' = s.apply op

/-- `PipeFS::CreateNode` starts a pipe with both positions at zero, whatever its buffer holds. -/
def logInit (s : Log) : Prop :=
  s.pipe.readPos = 0 ∧ s.pipe.writePos = 0 ∧ s.accepted = [] ∧ s.delivered = []

/-- **The FIFO law**: the ring is in range, and what was delivered, followed by what is held, is
    what was accepted. -/
structure Fifo (s : Log) : Prop where
  posOk : PosOk s.pipe
  order : s.delivered.map (·.2) ++ contents s.pipe = s.accepted.map (·.2)

theorem code_ne_count {k : Nat} (h : k ≤ 4095) : k ≠ asU64 ErrorInvalidBuffer := by
  have : asU64 ErrorInvalidBuffer = 18446744073709551609 := by decide
  omega

theorem moved_done {res o : Nat} {buf : UserBuffer} (h : res ≤ 4095) :
    moved res buf o = userBytes buf o res :=
  if_neg (code_ne_count h)

theorem moved_code {res o : Nat} {buf : UserBuffer} (h : res = asU64 ErrorInvalidBuffer) :
    moved res buf o = [] :=
  if_pos h

theorem map_tag (t : Nat) (l : List UInt8) : (l.map (t, ·)).map Prod.snd = l := by
  simp [List.map_map, Function.comp_def]

theorem fifo_init {s : Log} (h : logInit s) : Fifo s := by
  obtain ⟨hr, hw, ha, hd⟩ := h
  have hb : buffered s.pipe = 0 := by unfold buffered; rw [hr, hw]; rfl
  refine ⟨⟨by rw [hr]; decide, by rw [hw]; decide⟩, ?_⟩
  rw [ha, hd, contents, hb]
  rfl

/-- **One call keeps the law.** -/
theorem fifo_step {s : Log} (h : Fifo s) (op : Op) : Fifo (s.apply op) := by
  cases op with
  | read t buf n =>
      simp only [Log.apply]
      rcases read_spec h.posOk buf n with ⟨hc, hp⟩ | hd
      · refine ⟨by rw [hp]; exact h.posOk, ?_⟩
        rw [moved_code hc, hp]
        simpa using h.order
      · have hle : (read s.pipe buf n).1 ≤ 4095 := by
          rw [hd.count]
          have := buffered_lt s.pipe
          omega
        refine ⟨hd.posOk, ?_⟩
        rw [moved_done hle, List.map_append, map_tag, hd.bytes, hd.rest, List.append_assoc,
          List.take_append_drop]
        exact h.order
  | write t buf o n =>
      simp only [Log.apply]
      rcases write_spec h.posOk buf o n with hf | hd
      · refine ⟨⟨by rw [hf.readPos]; exact h.posOk.read_lt,
          by rw [hf.writePos]; exact h.posOk.write_lt⟩, ?_⟩
        rw [moved_code hf.code, hf.same]
        simpa using h.order
      · have hle : (write s.pipe buf o n).1 ≤ 4095 := by
          rw [hd.count]
          omega
        refine ⟨hd.posOk, ?_⟩
        rw [moved_done hle, List.map_append, map_tag, hd.grown, ← List.append_assoc, h.order]

/-- **The law on every sequence of calls.** -/
theorem fifo_reach {s : Log} (h : Reach logStep logInit s) : Fifo s :=
  h.inv (fun _ => fifo_init) fun _ op _ hI hs => hs ▸ fifo_step hI op

/-! ## 5. The blocking loops of many threads -/

/-- Where a thread stands: outside, in the loop of `ReadNodeData`, or in the loop of
    `WriteNodeData` with `res` bytes accepted. -/
inductive Call where
  | idle
  | reading (buf : UserBuffer) (bufferSize : Nat)
  | writing (buf : UserBuffer) (bufferSize res : Nat)

/-- A call that has returned: `ret` is what it returned, `acc` (of a write) the number of bytes
    its iterations had got accepted. -/
inductive Ret where
  | read (buf : UserBuffer) (bufferSize ret : Nat)
  | write (buf : UserBuffer) (bufferSize acc ret : Nat)

/-- One pipe and the threads that use it. -/
structure Sys where
  log : Log
  call : Nat → Call
  hist : Nat → List Ret

/-- What thread `t` does next: it enters one of the two functions, or runs one iteration of the
    loop it is in. -/
inductive SysOp where
  | beginRead (t : Nat) (buf : UserBuffer) (bufferSize : Nat)
  | beginWrite (t : Nat) (buf : UserBuffer) (bufferSize : Nat)
  | iterate (t : Nat)

/-- `ReadNodeData`: `while((res = _Read(p, buffer, bufferSize)) == 0) ThreadYield();` -/
def Sys.iterRead (s : Sys) (t : Nat) (buf : UserBuffer) (n : Nat) : Sys :=
  let r := read s.log.pipe buf n
  let log := s.log.apply (.read t buf n)
  if r.1 = 0 then { s with log := log, call := Function.update s.call t (.reading r.2.2 n) }
  else
    { log := log, call := Function.update s.call t .idle,
      hist := Function.update s.hist t (s.hist t ++ [.read r.2.2 n r.1]) }

/-- `WriteNodeData`: one `_Write(p, realBuffer + res, bufferSize - res)`; the loop is left with
    the code, or once `res == bufferSize`. -/
def Sys.iterWrite (s : Sys) (t : Nat) (buf : UserBuffer) (n res : Nat) : Sys :=
  let count := (write s.log.pipe buf res (n - res)).1
  let log := s.log.apply (.write t buf res (n - res))
  let leave := fun acc ret =>
    { log := log, call := Function.update s.call t .idle,
      hist := Function.update s.hist t (s.hist t ++ [.write buf n acc ret]) }
  if count = asU64 ErrorInvalidBuffer then leave res (asU64 ErrorInvalidBuffer)
  else if res + count = n then leave n n
  else { s with log := log, call := Function.update s.call t (.writing buf n (res + count)) }

/-- One step of the system; `none` where the thread cannot take it. -/
def Sys.exec (s : Sys) : SysOp → Option Sys
  | .beginRead t buf n =>
      match s.call t with
      | .idle => some { s with call := Function.update s.call t (.reading buf n) }
      | _ => none
  | .beginWrite t buf n =>
      match s.call t with
      | .idle => some { s with call := Function.update s.call t (.writing buf n 0) }
      | _ => none
  | .iterate t =>
      match s.call t with
      | .idle => none
      | .reading buf n => some (s.iterRead t buf n)
      | .writing buf n res => some (s.iterWrite t buf n res)

def sysStep (s : Sys) (op : SysOp) (s' : Sys) : Prop := s.exec op = some s'

def sysInit (s : Sys) : Prop :=
  logInit s.log ∧ (∀ t, s.call t = .idle) ∧ ∀ t, s.hist t = []

/-- The bytes of a thread's finished writes, as many of each as were accepted. -/
def Ret.sent : Ret → List UInt8
  | .write buf _ acc _ => userBytes buf 0 acc
  | .read _ _ _ => []

/-- The bytes of a thread's finished reads, as its buffers hold them. -/
def Ret.got : Ret → List UInt8
  | .read buf _ ret => moved ret buf 0
  | .write _ _ _ _ => []

/-- The bytes accepted from the call a thread is in. -/
def Call.sent : Call → List UInt8
  | .writing buf _ res => userBytes buf 0 res
  | _ => []

/-- What a return value promises: a write that did not fail got its whole buffer accepted, a read
    that did not fail got at least one byte. -/
def Ret.Honest : Ret → Prop
  | .write _ n acc ret => ret = asU64 ErrorInvalidBuffer ∧ acc ≤ n ∨ ret = n ∧ acc = n
  | .read _ n ret => ret = asU64 ErrorInvalidBuffer ∨ 0 < ret ∧ ret ≤ n

/-- The bytes of a log that are filed under thread `t`, in order. -/
def under (t : Nat) (l : List (Nat × UInt8)) : List UInt8 :=
  (l.filter fun e => e.1 == t).map (·.2)

theorem under_append (t : Nat) (l l' : List (Nat × UInt8)) :
    under t (l ++ l') = under t l ++ under t l' := by
  simp [under]

theorem under_tag_self (t : Nat) (l : List UInt8) : under t (l.map (t, ·)) = l := by
  unfold under
  rw [List.filter_eq_self.mpr (by simp), map_tag]

theorem under_tag_other {t u : Nat} (h : u ≠ t) (l : List UInt8) :
    under t (l.map (u, ·)) = [] := by
  unfold under
  rw [List.filter_eq_nil_iff.mpr (by simp [h]), List.map_nil]

/-- The bookkeeping of every thread: its log entries are its own bytes in its own order. -/
structure ThreadOk (s : Sys) (t : Nat) : Prop where
  sent : under t s.log.accepted = (s.hist t).flatMap Ret.sent ++ (s.call t).sent
  got : under t s.log.delivered = (s.hist t).flatMap Ret.got
  bound : ∀ buf n res, s.call t = .writing buf n res → res ≤ n
  honest : ∀ r ∈ s.hist t, r.Honest

structure SysInv (s : Sys) : Prop where
  fifo : Fifo s.log
  thread : ∀ t, ThreadOk s t

theorem sysInv_init {s : Sys} (h : sysInit s) : SysInv s := by
  obtain ⟨hl, hc, hh⟩ := h
  refine ⟨fifo_init hl, fun t => ⟨?_, ?_, ?_, ?_⟩⟩
  · rw [hl.2.2.1, hh t, hc t]; rfl
  · rw [hl.2.2.2, hh t]; rfl
  · intro buf n res h; rw [hc t] at h; cases h
  · intro r hr; rw [hh t] at hr; exact absurd hr List.not_mem_nil

/-- **Every step of the system is one atomic call on the pipe or leaves the log alone.** -/
theorem sysStep_log {s s' : Sys} {op : SysOp} (h : sysStep s op s') :
    s'.log = s.log ∨ ∃ o, s'.log = s.log.apply o := by
  unfold sysStep Sys.exec at h
  cases op with
  | beginRead t buf n =>
      dsimp only at h
      split at h <;> cases h
      exact Or.inl rfl
  | beginWrite t buf n =>
      dsimp only at h
      split at h <;> cases h
      exact Or.inl rfl
  | iterate t =>
      dsimp only at h
      split at h <;> cases h
      · rename_i buf n _
        refine Or.inr ⟨.read t buf n, ?_⟩
        unfold Sys.iterRead
        dsimp only
        split_ifs <;> rfl
      · rename_i buf n res _
        refine Or.inr ⟨.write t buf res (n - res), ?_⟩
        unfold Sys.iterWrite
        dsimp only
        split_ifs <;> rfl

/-- A thread other than the actor keeps its bookkeeping: the actor files under its own name. -/
theorem threadOk_other {s s' : Sys} {t u : Nat} (h : ThreadOk s t) (hne : u ≠ t)
    (hc : s'.call t = s.call t) (hh : s'.hist t = s.hist t) (l l' : List UInt8)
    (ha : s'.log.accepted = s.log.accepted ++ l.map (u, ·))
    (hd : s'.log.delivered = s.log.delivered ++ l'.map (u, ·)) : ThreadOk s' t := by
  refine ⟨?_, ?_, ?_, ?_⟩
  · rw [ha, under_append, under_tag_other hne, List.append_nil, hh, hc]; exact h.sent
  · rw [hd, under_append, under_tag_other hne, List.append_nil, hh]; exact h.got
  · rw [hc]; exact h.bound
  · rw [hh]; exact h.honest

/-- One iteration of `ReadNodeData` keeps every thread's bookkeeping. -/
theorem threadOk_iterRead {s : Sys} (hF : Fifo s.log) (hT : ∀ t, ThreadOk s t) {t : Nat}
    {buf : UserBuffer} {n : Nat} (hc : s.call t = .reading buf n) (u : Nat) :
    ThreadOk (s.iterRead t buf n) u := by
  by_cases hu : t = u
  · subst hu
    have h := hT t
    have hs : under t s.log.accepted = (s.hist t).flatMap Ret.sent := by
      have := h.sent
      rw [hc] at this
      simpa [Call.sent] using this
    unfold Sys.iterRead
    dsimp only [Log.apply]
    split_ifs with h0
    · refine ⟨?_, ?_, ?_, h.honest⟩
      · simpa [Call.sent] using hs
      · rw [under_append, under_tag_self, h0]
        simpa [moved, userBytes] using h.got
      · intro b m res e
        simp at e
    · refine ⟨?_, ?_, ?_, ?_⟩
      · simpa [Call.sent, Ret.sent] using hs
      · rw [under_append, under_tag_self, h.got]
        simp [Ret.got]
      · intro b m res e
        simp at e
      · intro r hr
        simp only [Function.update_self, List.mem_append, List.mem_singleton] at hr
        rcases hr with hr | rfl
        · exact h.honest r hr
        · rcases read_spec hF.posOk buf n with ⟨hcode, -⟩ | hd
          · exact Or.inl hcode
          · have := hd.count
            exact Or.inr ⟨by omega, by omega⟩
  · refine threadOk_other (hT u) hu ?_ ?_ [] (moved (read s.log.pipe buf n).1
      (read s.log.pipe buf n).2.2 0) ?_ ?_
    all_goals
      unfold Sys.iterRead
      dsimp only [Log.apply]
      split_ifs <;> simp [Function.update_of_ne (Ne.symm hu)]

/-- One iteration of `WriteNodeData` keeps every thread's bookkeeping: the bytes accepted now are
    the next ones of the same buffer. -/
theorem threadOk_iterWrite {s : Sys} (hF : Fifo s.log) (hT : ∀ t, ThreadOk s t) {t : Nat}
    {buf : UserBuffer} {n res : Nat} (hc : s.call t = .writing buf n res) (u : Nat) :
    ThreadOk (s.iterWrite t buf n res) u := by
  by_cases hu : t = u
  · subst hu
    have h := hT t
    have hle := h.bound buf n res hc
    have hs : under t s.log.accepted = (s.hist t).flatMap Ret.sent ++ userBytes buf 0 res := by
      have := h.sent
      rw [hc] at this
      exact this
    unfold Sys.iterWrite
    dsimp only [Log.apply]
    split_ifs with hcode hend
    · refine ⟨?_, by simpa [Ret.got] using h.got, fun b m r e => by simp at e, fun r hr => ?_⟩
      · rw [moved_code hcode, List.map_nil, List.append_nil, hs]
        simp [Call.sent, Ret.sent]
      · simp only [Function.update_self, List.mem_append, List.mem_singleton] at hr
        rcases hr with hr | rfl
        · exact h.honest r hr
        · exact Or.inl ⟨rfl, hle⟩
    · have hb : userBytes buf 0 res ++ userBytes buf res (write s.log.pipe buf res (n - res)).1 =
          userBytes buf 0 n := by
        conv_rhs => rw [← hend, userBytes_add, Nat.zero_add]
      refine ⟨?_, by simpa [Ret.got] using h.got, fun b m r e => by simp at e, fun r hr => ?_⟩
      · rw [moved, if_neg hcode, under_append, under_tag_self, hs, List.append_assoc, hb]
        simp [Call.sent, Ret.sent]
      · simp only [Function.update_self, List.mem_append, List.mem_singleton] at hr
        rcases hr with hr | rfl
        · exact h.honest r hr
        · exact Or.inr ⟨rfl, rfl⟩
    · have hlt : (write s.log.pipe buf res (n - res)).1 ≤ n - res := by
        rcases write_spec hF.posOk buf res (n - res) with hf | hd
        · exact absurd hf.code hcode
        · have := hd.count
          omega
      refine ⟨?_, by simpa using h.got, fun b m r e => ?_, by simpa using h.honest⟩
      · rw [moved, if_neg hcode, under_append, under_tag_self, hs, List.append_assoc]
        simp only [Function.update_self, Call.sent, userBytes_add, Nat.zero_add]
      · simp only [Function.update_self, Call.writing.injEq] at e
        omega
  · refine threadOk_other (hT u) hu ?_ ?_ (moved (write s.log.pipe buf res (n - res)).1 buf res) []
      ?_ ?_
    all_goals
      unfold Sys.iterWrite
      dsimp only [Log.apply]
      split_ifs <;> simp [Function.update_of_ne (Ne.symm hu)]

/-- Entering one of the two functions moves no byte. -/
theorem threadOk_begin {s : Sys} (hT : ∀ t, ThreadOk s t) {t : Nat} {c : Call}
    (hc : s.call t = .idle) (h0 : c.sent = []) (hb : ∀ buf n res, c = .writing buf n res → res ≤ n)
    (u : Nat) : ThreadOk { s with call := Function.update s.call t c } u := by
  by_cases hu : t = u
  · subst hu
    have h := hT t
    refine ⟨?_, h.got, ?_, h.honest⟩
    · have hs := h.sent
      rw [hc] at hs
      simp only [Function.update_self, h0]
      exact hs
    · intro buf n res e
      simp only [Function.update_self] at e
      exact hb buf n res e
  · exact threadOk_other (hT u) hu (by simp [Function.update_of_ne (Ne.symm hu)]) rfl [] []
      (by simp) (by simp)

/-- **One step of the system keeps the invariant.** -/
theorem sysInv_step {s s' : Sys} {op : SysOp} (hI : SysInv s) (h : sysStep s op s') :
    SysInv s' := by
  have hF : Fifo s'.log := by
    rcases sysStep_log h with e | ⟨o, e⟩
    · rw [e]; exact hI.fifo
    · rw [e]; exact fifo_step hI.fifo o
  refine ⟨hF, ?_⟩
  unfold sysStep Sys.exec at h
  cases op with
  | beginRead t buf n =>
      dsimp only at h
      split at h <;> cases h
      exact threadOk_begin hI.thread ‹_› rfl (fun _ _ _ e => by cases e)
  | beginWrite t buf n =>
      dsimp only at h
      split at h <;> cases h
      exact threadOk_begin hI.thread ‹_› rfl (fun _ _ _ e => by cases e; omega)
  | iterate t =>
      dsimp only at h
      split at h <;> cases h
      · exact threadOk_iterRead hI.fifo hI.thread ‹_›
      · exact threadOk_iterWrite hI.fifo hI.thread ‹_›

/-- **The invariant on every run of the system.** -/
theorem sysInv_reach {s : Sys} (h : Reach sysStep sysInit s) : SysInv s :=
  h.inv (fun _ => sysInv_init) fun _ _ _ hI hs => sysInv_step hI hs

/-- A call that answers `ErrorInvalidBuffer` moved neither position. -/
theorem code_keeps_positions {p : Pipe} (hp : PosOk p) (buf : UserBuffer) (o n : Nat) :
    ((read p buf n).1 = asU64 ErrorInvalidBuffer →
      (read p buf n).2.1.readPos = p.readPos ∧ (read p buf n).2.1.writePos = p.writePos) ∧
    ((write p buf o n).1 = asU64 ErrorInvalidBuffer →
      (write p buf o n).2.readPos = p.readPos ∧ (write p buf o n).2.writePos = p.writePos) := by
  have hb := buffered_lt p
  refine ⟨fun h => ?_, fun h => ?_⟩
  · rcases read_spec hp buf n with ⟨_, e⟩ | hd
    · rw [e]; exact ⟨rfl, rfl⟩
    · exact absurd h (code_ne_count (by have := hd.count; omega))
  · rcases write_spec hp buf o n with hf | hd
    · exact ⟨hf.readPos, hf.writePos⟩
    · exact absurd h (code_ne_count (by have := hd.count; omega))

/-- **The pipe is a FIFO.** On every run of `_Read` and `_Write` calls, and on every run of the
    blocking loops of any number of threads: both positions stay below 4096, at most 4095 bytes are
    held, what was delivered followed by what is held is what was accepted, and a call that answers
    `ErrorInvalidBuffer` moves neither position. In the runs of the loops, moreover, the bytes
    accepted from a thread are those of its own buffers in its own order (all of a buffer, once the
    write has returned its size), and the bytes delivered to a thread are those in its buffers. -/
theorem pipe_fifo :
    (∀ s, Reach logStep logInit s →
      s.pipe.readPos < 4096 ∧ s.pipe.writePos < 4096 ∧ (contents s.pipe).length ≤ 4095 ∧
      s.delivered.map (·.2) ++ contents s.pipe = s.accepted.map (·.2) ∧
      ∀ buf o n,
        ((read s.pipe buf n).1 = asU64 ErrorInvalidBuffer →
          (read s.pipe buf n).2.1.readPos = s.pipe.readPos ∧
          (read s.pipe buf n).2.1.writePos = s.pipe.writePos) ∧
        ((write s.pipe buf o n).1 = asU64 ErrorInvalidBuffer →
          (write s.pipe buf o n).2.readPos = s.pipe.readPos ∧
          (write s.pipe buf o n).2.writePos = s.pipe.writePos)) ∧
    (∀ s, Reach sysStep sysInit s →
      s.log.delivered.map (·.2) ++ contents s.log.pipe = s.log.accepted.map (·.2) ∧
      ∀ t, under t s.log.accepted = (s.hist t).flatMap Ret.sent ++ (s.call t).sent ∧
        under t s.log.delivered = (s.hist t).flatMap Ret.got ∧ ∀ r ∈ s.hist t, r.Honest) := by
  refine ⟨fun s h => ?_, fun s h => ?_⟩
  · have hF := fifo_reach h
    exact ⟨hF.posOk.read_lt, hF.posOk.write_lt, by rw [contents_length]; exact buffered_lt _,
      hF.order, fun buf o n => code_keeps_positions hF.posOk buf o n⟩
  · have hI := sysInv_reach h
    exact ⟨hI.fifo.order, fun t => ⟨(hI.thread t).sent, (hI.thread t).got, (hI.thread t).honest⟩⟩

/-- Two bytes written by thread 1, one of them read by thread 2. -/
theorem pipe_fifo_hi : ∃ s, Reach logStep logInit s ∧ s.accepted = [(1, 104), (1, 105)] ∧
    s.delivered = [(2, 104)] ∧
    s.delivered.map (·.2) ++ contents s.pipe = s.accepted.map (·.2) := by
  let hi : UserBuffer := ⟨fun i => if i = 0 then 104 else 105, fun _ => true⟩
  let s0 : Log := ⟨⟨0, false, 0, 0, fun _ => 0⟩, [], []⟩
  have h0 : logInit s0 := ⟨rfl, rfl, rfl, rfl⟩
  let op1 : Op := .write 1 hi 0 2
  let op2 : Op := .read 2 ⟨fun _ => 0, fun _ => true⟩ 1
  have h1 := Reach.next s0 op1 (s0.apply op1) (Reach.start s0 h0) (show logStep _ _ _ from rfl)
  have h2 := Reach.next _ op2 ((s0.apply op1).apply op2) h1 (show logStep _ _ _ from rfl)
  exact ⟨_, h2, by decide, by decide, (pipe_fifo.1 _ h2).2.2.2.1⟩

/-! ## 6. Reads that find bytes -/

/-- The iteration from `s` to `s'` ends the loop of `ReadNodeData` with the result `res`. -/
structure Returns (s s' : Sys) (t n res : Nat) : Prop where
  idle : s'.call t = .idle
  ret : ∃ buf, s'.hist t = s.hist t ++ [.read buf n res]

section Return

variable {s s' : Sys} {t n : Nat} {buf : UserBuffer}

/-- A `_Read` that is asked for nothing answers 0, as one of an empty pipe does. -/
theorem read_zero (p : Pipe) (buf : UserBuffer) : (read p buf 0).1 = 0 := by
  have hnone : ∀ ok src s dst d, (kmemcpyUsersafe ok src s dst d 0).1 = true := fun _ _ _ _ _ => rfl
  have hclamp : ∀ a b, clampPieces a b 0 = (0, 0) := fun a b => by
    obtain ⟨-, -, hsum, -⟩ := clampPieces_spec a b 0
    exact Prod.ext (by simp only; omega) (by simp only; omega)
  unfold read
  simp only [Nat.min_zero, hclamp, hnone, if_true]
  split_ifs <;> rfl

theorem iterRead_ends (h : (read s.log.pipe buf n).1 ≠ 0) :
    Returns s (s.iterRead t buf n) t n (read s.log.pipe buf n).1 := by
  unfold Sys.iterRead
  dsimp only
  rw [if_neg h]
  exact ⟨Function.update_self _ _ _, _, Function.update_self _ _ _⟩

theorem iterRead_stays (h : (read s.log.pipe buf n).1 = 0) :
    ∃ buf', (s.iterRead t buf n).call t = .reading buf' n := by
  unfold Sys.iterRead
  dsimp only
  rw [if_pos h]
  exact ⟨_, Function.update_self _ _ _⟩

/-- **A read that is asked for nothing never returns**, whatever the other threads do. -/
theorem never_returns {s₀ : Sys} (hc : ∃ buf, s₀.call t = .reading buf 0) (h : Reach sysStep (· = s₀) s) :
    ∃ buf, s.call t = .reading buf 0 := by
  refine h.inv (fun s hs => hs ▸ hc) fun s op s' hI hs => ?_
  obtain ⟨buf, ht⟩ := hI
  have hother : ∀ {u : Nat} {c : Call}, u ≠ t → Function.update s.call u c t = .reading buf 0 := fun hu => by
    rw [Function.update_of_ne (Ne.symm hu)]
    exact ht
  unfold sysStep Sys.exec at hs
  cases op with
  | beginRead u b n =>
      dsimp only at hs
      split at hs
      · rename_i hu
        cases hs
        exact ⟨buf, hother fun e => by rw [e, ht] at hu; cases hu⟩
      · cases hs
  | beginWrite u b n =>
      dsimp only at hs
      split at hs
      · rename_i hu
        cases hs
        exact ⟨buf, hother fun e => by rw [e, ht] at hu; cases hu⟩
      · cases hs
  | iterate u =>
      dsimp only at hs
      split at hs
      · cases hs
      · rename_i b n hu
        cases hs
        by_cases e : u = t
        · subst e
          rw [ht] at hu
          cases hu
          exact iterRead_stays (read_zero _ _)
        · refine ⟨buf, ?_⟩
          unfold Sys.iterRead
          dsimp only
          split_ifs <;> exact hother e
      · rename_i b n res hu
        cases hs
        have e : u ≠ t := fun e => by rw [e, ht] at hu; cases hu
        refine ⟨buf, ?_⟩
        unfold Sys.iterWrite
        dsimp only
        split_ifs <;> exact hother e

/-- **Reads return when data is there**: the first `_Read` of a pipe with a byte ends the loop exactly if the
    caller asks for one at least. -/
theorem read_returns (h : Reach sysStep sysInit s) (t : Nat) (buf : UserBuffer) (n : Nat)
    (hb : 0 < buffered s.log.pipe) :
    (∃ res, Returns s (s.iterRead t buf n) t n res ∧
      (res = min n (buffered s.log.pipe) ∨ res = asU64 ErrorInvalidBuffer)) ↔ 0 < n := by
  have hpos := (sysInv_reach h).fifo.posOk
  constructor
  · intro ⟨res, hret, _⟩
    by_contra hn
    obtain rfl : n = 0 := Nat.eq_zero_of_not_pos hn
    obtain ⟨buf', hstay⟩ := iterRead_stays (t := t) (read_zero s.log.pipe buf)
    rw [hret.idle] at hstay
    cases hstay
  · intro hn
    rcases read_spec hpos buf n with ⟨hcode, -⟩ | hd
    · exact ⟨_, iterRead_ends (by rw [hcode]; decide), Or.inr hcode⟩
    · have hcount := hd.count
      exact ⟨_, iterRead_ends (by omega), Or.inl hcount⟩

end Return

/-- An empty pipe. -/
def emptyPipe : Sys := ⟨⟨⟨0, false, 0, 0, fun _ => 0⟩, [], []⟩, fun _ => .idle, fun _ => []⟩

/-- Thread 0 is about to write one byte. -/
def writesByte : Sys :=
  { emptyPipe with call := Function.update emptyPipe.call 0 (.writing ⟨fun _ => 7, fun _ => true⟩ 1 0) }

/-- It has written it. -/
def oneByte : Sys := writesByte.iterWrite 0 ⟨fun _ => 7, fun _ => true⟩ 1 0

theorem oneByte_reach : Reach sysStep sysInit oneByte := by
  have h0 : Reach sysStep sysInit emptyPipe := .start _ ⟨⟨rfl, rfl, rfl, rfl⟩, fun _ => rfl, fun _ => rfl⟩
  have h1 : sysStep emptyPipe (.beginWrite 0 ⟨fun _ => 7, fun _ => true⟩ 1) writesByte := rfl
  have h2 : sysStep writesByte (.iterate 0) oneByte := rfl
  exact .next _ _ _ (.next _ _ _ h0 h1) h2

theorem read_returns_one : ∃ res, Returns oneByte (oneByte.iterRead 1 ⟨fun _ => 0, fun _ => true⟩ 5) 1 5 res ∧
    (res = min 5 (buffered oneByte.log.pipe) ∨ res = asU64 ErrorInvalidBuffer) :=
  (read_returns oneByte_reach 1 _ 5 (by decide)).mpr (by decide)

/-- **A read of no bytes**: the pipe holds one, and the loop goes on. -/
theorem read_nothing : ¬ ∀ s, Reach sysStep sysInit s → 0 < buffered s.log.pipe → ∀ t buf n,
    ∃ res, Returns s (s.iterRead t buf n) t n res ∧
      (res = min n (buffered s.log.pipe) ∨ res = asU64 ErrorInvalidBuffer) := by
  intro hall
  obtain ⟨res, hret, -⟩ := hall oneByte oneByte_reach (by decide) 1 ⟨fun _ => 0, fun _ => true⟩ 0
  obtain ⟨buf', hstay⟩ := iterRead_stays (t := 1) (read_zero oneByte.log.pipe ⟨fun _ => 0, fun _ => true⟩)
  rw [hret.idle] at hstay
  cases hstay

end PipeFS

end SimpleOS2
