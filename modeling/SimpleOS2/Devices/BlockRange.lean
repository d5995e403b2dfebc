/-
  File:      SimpleOS2/Devices/BlockRange.lean
  Subject:   THE BLOCKS A CALL LOADS (devices/DeviceDriver.cpp), on a ram device
             (devices/RamDeviceDriver.cpp).

  The number of blocks of a range is computed with its end included, so a range that ends at a block
  boundary gets one block more. The number of blocks of the device is stored and not read again.

  * `issued`, `issues` -- the `ScheduleOperation`s of a round and of a call;
  * `mem_issues` -- which blocks a call that fits loads;
  * `RamDevice`, `OnDevice`, `Rejected`, `Kept` -- what should hold of a call;
  * `endsInside`, `block_accesses` -- the condition under which it does; `last_block`.
-/
import SimpleOS2.Devices.BlockCache

namespace SimpleOS2

namespace BlockDevice

/-! ## 1. The operations -/

/-- The blocks for which round `b` calls `ScheduleOperation`. -/
def issued (garbage : Nat → UInt8) (b : Nat) (r : Run) : List Nat :=
  match r.res with
  | some _ => []
  | none =>
      let blockID := u64 (r.tr.startBlock + b)
      if (getCachedBlock r.cache r.tr.subID blockID garbage).1 then [] else [blockID]

/-- The blocks for which the loop does. -/
def issues (dev : Device) (garbage : Nat → Nat → UInt8) : (count b : Nat) → Run → List Nat
  | 0, _, _ => []
  | count + 1, b, r =>
      issued (garbage b) b r ++ issues dev garbage count (b + 1) (transferBlock dev (garbage b) b r)

/-- The blocks for which a call does. -/
def Call.issues (dev : Device) (cache : List CachedBlock) (c : Call) : List Nat :=
  BlockDevice.issues dev c.garbage (numBlocks dev c.subID c.pos c.bufferSize) 0 ⟨cache, c.transfer dev, none⟩

def cached (cache : List CachedBlock) (subID blockID : Nat) : Bool :=
  cache.any (CachedBlock.is subID blockID)

section Cached

variable {cache : List CachedBlock} {subID blockID : Nat}

theorem findIdx_isSome (cache : List CachedBlock) (subID blockID : Nat) :
    (cache.findIdx? (CachedBlock.is subID blockID)).isSome = cached cache subID blockID :=
  List.findIdx?_isSome

theorem cached_modify {f : CachedBlock → CachedBlock}
    (hf : ∀ cb, (f cb).subID = cb.subID ∧ (f cb).blockID = cb.blockID) (i : Nat) :
    cached (cache.modify i f) subID blockID = cached cache subID blockID := by
  rw [← findIdx_isSome, ← findIdx_isSome, findIdx_modify hf]

theorem getCachedBlock_hit (garbage : Nat → UInt8) :
    (getCachedBlock cache subID blockID garbage).1 = cached cache subID blockID := by
  rw [← findIdx_isSome]
  unfold getCachedBlock
  cases cache.findIdx? (CachedBlock.is subID blockID) <;> rfl

/-- A lookup adds no block but the one it is for. -/
theorem cached_fetchBlock (dev : Device) (garbage : Nat → UInt8) {k : Nat} (hk : k ≠ blockID) :
    cached (fetchBlock dev cache subID blockID garbage).2 subID k = cached cache subID k := by
  unfold fetchBlock getCachedBlock
  cases cache.findIdx? (CachedBlock.is subID blockID) with
  | some i => exact cached_modify (f := CachedBlock.hold) (fun _ => ⟨rfl, rfl⟩) i
  | none =>
      refine (cached_modify (f := CachedBlock.load dev) (fun _ => ⟨rfl, rfl⟩) _).trans ?_
      have hnew : CachedBlock.is subID k ⟨subID, blockID, 1, garbage, false⟩ = false :=
        decide_eq_false fun h => hk h.2.symm
      unfold cached
      rw [List.any_append, List.any_cons, hnew, List.any_nil, Bool.or_false, Bool.or_false]

theorem store_key (d : Nat → UInt8) (cb : CachedBlock) :
    (cb.store d).subID = cb.subID ∧ (cb.store d).blockID = cb.blockID := ⟨rfl, rfl⟩

end Cached

/-! ## 2. The blocks of a range -/

section Issues

variable {dev : Device} {tr₀ tr : Transfer} {b k : Nat} {r : Run}

/-- A copy leaves the keys of the cache, and succeeds if its bytes of the buffer are mapped. -/
theorem copyBlock_spec (h : tr₀.Stands dev b tr) (hv : tr₀.Fits dev)
    (hb : tr₀.startBlock + b ≤ (tr₀.pos + tr₀.bufferSize) / dev.blockSize tr₀.subID) {cache cache' : List CachedBlock}
    {i : Nat} {ok : Bool} {tr' : Transfer}
    (hr : copyBlock dev cache i (tr₀.startBlock + b) tr = (ok, cache', tr')) :
    (∀ s k, cached cache' s k = cached cache s k) ∧
      (ok = true ↔ ∀ j < tr.rem dev (tr₀.startBlock + b), tr.buffer.mapped (tr.done + j) = true) ∧
      (ok = true → tr₀.Stands dev (b + 1) tr') := by
  rcases Bool.eq_false_or_eq_true tr.set with hset | hset
  · generalize hk : kmemcpyUsersafe (fun j => tr.buffer.mapped (tr.done + j)) tr.buffer.mem tr.done (dataAt cache i)
      (tr.offs dev (tr₀.startBlock + b)) (tr.rem dev (tr₀.startBlock + b)) = c
    rw [copyBlock_in hset hk, Prod.mk.injEq, Prod.mk.injEq] at hr
    obtain ⟨hok, hcache, htr⟩ := hr
    refine ⟨fun s k => ?_, ?_, fun h1 => ?_⟩
    · rw [← hcache]
      exact cached_modify (store_key _) i
    · rw [← hok, ← hk]
      exact kmemcpyUsersafe_ok _ _
    · rw [hok, if_pos h1] at htr
      rw [← htr]
      exact h.next hv hb tr.buffer.mem rfl
  · generalize hk : kmemcpyUsersafe (fun j => tr.buffer.mapped (tr.done + j)) (dataAt cache i)
      (tr.offs dev (tr₀.startBlock + b)) tr.buffer.mem tr.done (tr.rem dev (tr₀.startBlock + b)) = c
    rw [copyBlock_out hset hk, Prod.mk.injEq, Prod.mk.injEq] at hr
    obtain ⟨hok, hcache, htr⟩ := hr
    refine ⟨fun s k => ?_, ?_, fun h1 => ?_⟩
    · rw [← hcache]
    · rw [← hok, ← hk]
      exact kmemcpyUsersafe_ok _ _
    · rw [hok, if_pos h1] at htr
      rw [← htr]
      exact h.next hv hb _ rfl

/-- A round leaves the other blocks of the cache, and goes on if its bytes of the buffer are mapped. -/
theorem transferBlock_cases (garbage : Nat → UInt8) (h : tr₀.Stands dev b r.tr) (hr : r.res = none) (hv : tr₀.Fits dev)
    (hb : tr₀.startBlock + b ≤ (tr₀.pos + tr₀.bufferSize) / dev.blockSize tr₀.subID) {r' : Run}
    (hr' : transferBlock dev garbage b r = r') :
    (∀ k, k ≠ tr₀.startBlock + b → cached r'.cache tr₀.subID k = cached r.cache tr₀.subID k) ∧
    ((tr₀.Stands dev (b + 1) r'.tr ∧ r'.res = none ∧
        ∀ j < r.tr.rem dev (tr₀.startBlock + b), tr₀.buffer.mapped (r.tr.done + j) = true) ∨
      (r'.res ≠ none ∧
        ∃ j < r.tr.rem dev (tr₀.startBlock + b), tr₀.buffer.mapped (r.tr.done + j) ≠ true)) := by
  obtain ⟨hid, -, -, -⟩ := h.offs_rem hv hb
  unfold transferBlock at hr'
  rw [hr] at hr'
  simp only [hid, h.subID] at hr'
  generalize hf : fetchBlock dev r.cache tr₀.subID (tr₀.startBlock + b) garbage = f at hr'
  generalize hc : copyBlock dev f.2 f.1 (tr₀.startBlock + b) r.tr = c at hr'
  obtain ⟨ok, cache', tr'⟩ := c
  obtain ⟨hkeys, hok, hnext⟩ := copyBlock_spec h hv hb hc
  rw [h.mapped] at hok
  subst hr'
  constructor
  · intro k hk
    refine (cached_modify (f := CachedBlock.drop) (fun _ => ⟨rfl, rfl⟩) _).trans ((hkeys _ _).trans ?_)
    rw [← hf, cached_fetchBlock dev garbage hk]
  · cases ok with
    | true => exact Or.inl ⟨hnext rfl, rfl, hok.mp rfl⟩
    | false =>
        refine Or.inr ⟨Option.some_ne_none _, ?_⟩
        by_contra hall
        push Not at hall
        cases hok.mpr hall

theorem issues_stopped (garbage : Nat → Nat → UInt8) (count : Nat) :
    ∀ {b : Nat} {r : Run}, r.res ≠ none → issues dev garbage count b r = [] := by
  induction count with
  | zero => exact fun _ => rfl
  | succ count ih =>
      intro b r hr
      obtain ⟨e, he⟩ := Option.ne_none_iff_exists'.mp hr
      have hstep : transferBlock dev (garbage b) b r = r := by
        unfold transferBlock
        rw [he]
      have hnow : issued (garbage b) b r = [] := by
        unfold issued
        rw [he]
      simp only [issues, hnow, hstep, List.nil_append, ih hr]

theorem mem_issued (garbage : Nat → UInt8) (h : tr₀.Stands dev b r.tr) (hr : r.res = none) (hv : tr₀.Fits dev)
    (hb : tr₀.startBlock + b ≤ (tr₀.pos + tr₀.bufferSize) / dev.blockSize tr₀.subID) :
    k ∈ issued garbage b r ↔ k = tr₀.startBlock + b ∧ cached r.cache tr₀.subID k = false := by
  obtain ⟨hid, -, -, -⟩ := h.offs_rem hv hb
  unfold issued
  rw [hr]
  simp only [hid, h.subID, getCachedBlock_hit]
  cases hc : cached r.cache tr₀.subID (tr₀.startBlock + b) with
  | true =>
      simp only [if_true, List.not_mem_nil, false_iff]
      intro hk
      rw [hk.1, hc] at hk
      cases hk.2
  | false =>
      simp only [Bool.false_eq_true, if_false, List.mem_singleton]
      exact ⟨fun hk => ⟨hk, hk ▸ hc⟩, And.left⟩

/-- From its `b`th round on the loop loads the blocks up to the end of the range that are not in the cache, as
    long as all the bytes before them are mapped. -/
theorem mem_issues_from (garbage : Nat → Nat → UInt8) (hv : tr₀.Fits dev) (count : Nat) :
    ∀ {b : Nat} {r : Run}, tr₀.Stands dev b r.tr → r.res = none →
      tr₀.startBlock + b + count = (tr₀.pos + tr₀.bufferSize) / dev.blockSize tr₀.subID + 1 →
      (k ∈ issues dev garbage count b r ↔
        tr₀.startBlock + b ≤ k ∧ k ≤ (tr₀.pos + tr₀.bufferSize) / dev.blockSize tr₀.subID ∧
          cached r.cache tr₀.subID k = false ∧
          ∀ j < tr₀.bufferSize, r.tr.done ≤ j → tr₀.pos + j < k * dev.blockSize tr₀.subID →
            tr₀.buffer.mapped j = true) := by
  induction count with
  | zero =>
      intro b r _ _ hcount
      simp only [issues, List.not_mem_nil, false_iff]
      intro h
      omega
  | succ count ih =>
      intro b r h hr hcount
      have hb : tr₀.startBlock + b ≤ (tr₀.pos + tr₀.bufferSize) / dev.blockSize tr₀.subID := by omega
      obtain ⟨-, -, -, hdone⟩ := h.offs_rem hv hb
      have hstart := h.done
      generalize hr' : transferBlock dev (garbage b) b r = r'
      obtain ⟨hcache, hgo⟩ := transferBlock_cases (garbage b) h hr hv hb hr'
      simp only [issues, List.mem_append, mem_issued (garbage b) h hr hv hb, hr']
      -- the later rounds load later blocks
      have hlater : k ∈ issues dev garbage count (b + 1) r' → tr₀.startBlock + b < k := by
        intro hk
        rcases hgo with ⟨h', hr'', -⟩ | ⟨hr'', -⟩
        · exact ((ih h' hr'' (by omega)).mp hk).1
        · rw [issues_stopped garbage count hr''] at hk
          cases hk
      rcases Nat.lt_trichotomy k (tr₀.startBlock + b) with hk | hk | hk
      · constructor
        · intro hmem
          rcases hmem with hmem | hmem
          · omega
          · exact absurd (hlater hmem) (by omega)
        · intro hmem
          omega
      · subst hk
        constructor
        · intro hmem
          rcases hmem with hmem | hmem
          · exact ⟨Nat.le_refl _, hb, hmem.2, by omega⟩
          · exact absurd (hlater hmem) (Nat.lt_irrefl _)
        · exact fun hmem => Or.inl ⟨rfl, hmem.2.2.1⟩
      · have hend : (tr₀.startBlock + (b + 1)) * dev.blockSize tr₀.subID ≤ k * dev.blockSize tr₀.subID :=
          Nat.mul_le_mul_right _ hk
        rcases hgo with ⟨h', hr'', hmapped⟩ | ⟨hr'', j, hj, hfault⟩
        · have hdone' := h'.done
          rw [ih h' hr'' (by omega), hcache k (by omega)]
          constructor
          · intro hmem
            rcases hmem with hmem | ⟨-, hle, hnew, hall⟩
            · omega
            · refine ⟨by omega, hle, hnew, fun j hjn hjd hjk => ?_⟩
              by_cases hlt : j < r'.tr.done
              · have hm := hmapped (j - r.tr.done) (by omega)
                rwa [Nat.add_sub_cancel' hjd] at hm
              · exact hall j hjn (by omega) hjk
          · intro ⟨_, hle, hnew, hall⟩
            exact Or.inr ⟨by omega, hle, hnew, fun j hjn hjd hjk => hall j hjn (by omega) hjk⟩
        · rw [issues_stopped garbage count hr'']
          constructor
          · intro hmem
            rcases hmem with hmem | hmem
            · omega
            · cases hmem
          · intro ⟨_, _, _, hall⟩
            exact absurd (hall (r.tr.done + j) (by omega) (Nat.le_add_right _ _) (by omega)) hfault

/-- The blocks that a call loads. -/
theorem mem_issues (cache : List CachedBlock) {c : Call}
    (hbs : 0 < dev.blockSize c.subID ∧ dev.blockSize c.subID < 2 ^ 64) (hc : c.Fits) :
    k ∈ c.issues dev cache ↔
      c.pos / dev.blockSize c.subID ≤ k ∧ k ≤ (c.pos + c.bufferSize) / dev.blockSize c.subID ∧
        cached cache c.subID k = false ∧
        ∀ j < c.bufferSize, c.pos + j < k * dev.blockSize c.subID → c.buffer.mapped j = true := by
  have hv := c.transfer_fits hbs hc
  obtain ⟨hn, -⟩ := numBlocks_eq hv
  have h := mem_issues_from (k := k) c.garbage hv (numBlocks dev c.subID c.pos c.bufferSize)
    (r := ⟨cache, c.transfer dev, none⟩) (Transfer.Stands.start hv) rfl hn
  refine h.trans (and_congr_right fun _ => and_congr_right fun _ => and_congr_right fun _ => ?_)
  exact ⟨fun hall j hj => hall j hj (Nat.zero_le j), fun hall j hj _ => hall j hj⟩

end Issues

/-! ## 3. The ram device -/

/-- The devices of the ram driver, with the number of their blocks. Their bytes are memory. -/
structure RamDevice extends Device where
  numBlocks : Nat → Nat
  sized : ∀ s, 0 < blockSize s ∧ blockSize s < 2 ^ 64
  memory : ∀ s, numBlocks s * blockSize s ≤ 2 ^ 48

/-- The range of the call lies on the device. -/
def RamDevice.Contains (d : RamDevice) (c : Call) : Prop :=
  c.pos + c.bufferSize ≤ d.numBlocks c.subID * d.blockSize c.subID

instance (d : RamDevice) (c : Call) : Decidable (d.Contains c) := inferInstanceAs (Decidable (_ ≤ _))

/-- Every operation of the call is on the device, and for a block that has a byte of the range. -/
def OnDevice (d : RamDevice) (cache : List CachedBlock) (c : Call) : Prop :=
  ∀ k ∈ c.issues d.toDevice cache,
    k + 1 ≤ d.numBlocks c.subID ∧ ∃ p, c.pos ≤ p ∧ p < c.pos + c.bufferSize ∧ p / d.blockSize c.subID = k

/-- The call is turned down, whatever is cached: an error, and no operation. -/
def Rejected (d : RamDevice) (c : Call) : Prop :=
  ∀ cache, (cacheCall d.toDevice cache c).2.2 ≠ 0 ∧ c.issues d.toDevice cache = []

/-- What a call should do. -/
def Kept (d : RamDevice) (cache : List CachedBlock) (c : Call) : Prop :=
  if d.Contains c then OnDevice d cache c else Rejected d c

/-- The call lies on the device and ends inside a block. Where it does not, the block at its end is cached, or
    the copy faults before it. -/
def EndsInside (d : RamDevice) (cache : List CachedBlock) (c : Call) : Prop :=
  d.Contains c ∧
    ((0 < c.bufferSize ∧ (c.pos + c.bufferSize) % d.blockSize c.subID ≠ 0) ∨
      cached cache c.subID ((c.pos + c.bufferSize) / d.blockSize c.subID) = true ∨
      ∃ j < c.bufferSize, c.buffer.mapped j ≠ true)

section Ram

variable {d : RamDevice} {cache : List CachedBlock} {c : Call}

theorem RamDevice.Contains.fits (h : d.Contains c) : c.Fits := by
  have hle : c.pos + c.bufferSize ≤ 2 ^ 48 := Nat.le_trans h (d.memory c.subID)
  exact ⟨Nat.lt_of_le_of_lt hle (by decide), Nat.le_trans (Nat.le_add_left _ _) hle⟩

/-- A block that the call loads has a byte of the range, unless it is the block at its end. -/
theorem loaded_intersects (h : d.Contains c) (hend : EndsInside d cache c) {k : Nat}
    (hk : k ∈ c.issues d.toDevice cache) :
    ∃ p, c.pos ≤ p ∧ p < c.pos + c.bufferSize ∧ p / d.blockSize c.subID = k := by
  have hbs := (d.sized c.subID).1
  obtain ⟨hlo, hhi, hnew, hall⟩ := (mem_issues cache (d.sized _) h.fits).mp hk
  have hlo' : c.pos < (k + 1) * d.blockSize c.subID := Nat.lt_mul_of_div_lt (Nat.lt_succ_of_le hlo) hbs
  have hhi' : k * d.blockSize c.subID ≤ c.pos + c.bufferSize :=
    Nat.le_trans (Nat.mul_le_mul_right _ hhi) (Nat.div_mul_le_self _ _)
  by_cases hin : max c.pos (k * d.blockSize c.subID) < c.pos + c.bufferSize
  · refine ⟨_, Nat.le_max_left _ _, hin, Nat.div_eq_of_lt_le (Nat.le_max_right _ _) ?_⟩
    exact max_lt hlo' (Nat.mul_lt_mul_of_pos_right (Nat.lt_succ_self k) hbs)
  · exfalso
    obtain ⟨-, ⟨hpos, hmod⟩ | hcached | ⟨j, hj, hfault⟩⟩ := hend
    · have hk' : k * d.blockSize c.subID = c.pos + c.bufferSize := by omega
      exact hmod (hk' ▸ Nat.mul_mod_left _ _)
    · have hk' : k = (c.pos + c.bufferSize) / d.blockSize c.subID := by
        refine Nat.le_antisymm hhi ?_
        rcases Nat.eq_zero_or_pos c.bufferSize with h0 | h0
        · rwa [h0, Nat.add_zero]
        · exact Nat.div_le_of_le_mul (by rw [Nat.mul_comm]; omega)
      rw [← hk', hnew] at hcached
      cases hcached
    · exact hfault (hall j hj (by omega))

theorem onDevice_of_endsInside (h : d.Contains c) (hend : EndsInside d cache c) : OnDevice d cache c := by
  intro k hk
  obtain ⟨p, hlo, hhi, hp⟩ := loaded_intersects h hend hk
  refine ⟨?_, p, hlo, hhi, hp⟩
  rw [← hp]
  exact Nat.div_lt_of_lt_mul (Nat.lt_of_lt_of_le hhi (by rw [Nat.mul_comm]; exact h))

/-- Otherwise the block at its end is loaded. -/
theorem endsInside_of_onDevice (h : d.Contains c) (hon : OnDevice d cache c) : EndsInside d cache c := by
  refine ⟨h, ?_⟩
  by_contra hcon
  push Not at hcon
  obtain ⟨hmod, hnew, hmapped⟩ := hcon
  have hmem := (mem_issues (k := (c.pos + c.bufferSize) / d.blockSize c.subID) cache (d.sized _) h.fits).mpr
    ⟨Nat.div_le_div_right (Nat.le_add_right _ _), Nat.le_refl _, Bool.not_eq_true _ ▸ hnew,
      fun j hj _ => hmapped j hj⟩
  obtain ⟨-, p, hlo, hhi, hp⟩ := hon _ hmem
  have hend : (c.pos + c.bufferSize) / d.blockSize c.subID * d.blockSize c.subID = c.pos + c.bufferSize :=
    Nat.div_mul_cancel (Nat.dvd_of_mod_eq_zero (hmod (by omega)))
  have hle := Nat.div_mul_le_self p (d.blockSize c.subID)
  rw [hp, hend] at hle
  omega

/-- No call is turned down: with an empty cache it loads the block it starts in. -/
theorem not_rejected (d : RamDevice) (c : Call) : ¬ Rejected d c := by
  intro h
  obtain ⟨hres, hnone⟩ := h []
  unfold Call.issues at hnone
  cases hn : numBlocks d.toDevice c.subID c.pos c.bufferSize with
  | zero =>
      refine hres ?_
      unfold cacheCall setData getData transfer
      rw [hn]
      split_ifs
      · rfl
      · rfl
  | succ count =>
      rw [hn] at hnone
      cases (List.append_eq_nil_iff.mp hnone).1

/-- A call keeps to its device if and only if it lies on it and ends inside a block. -/
theorem block_accesses (d : RamDevice) (cache : List CachedBlock) (c : Call) :
    Kept d cache c ↔ EndsInside d cache c := by
  unfold Kept
  split_ifs with h
  · exact ⟨endsInside_of_onDevice h, onDevice_of_endsInside h⟩
  · exact ⟨fun hrej => absurd hrej (not_rejected d c), fun hend => absurd hend.1 h⟩

/-- Two blocks of four bytes. The last of them is read: the one behind it is loaded as well. -/
def twoBlocks : RamDevice where
  image := fun _ _ => 7
  blockSize := fun _ => 4
  numBlocks := fun _ => 2
  sized := fun _ => show 0 < 4 ∧ 4 < 2 ^ 64 by decide
  memory := fun _ => show 2 * 4 ≤ 2 ^ 48 by decide

def readLast : Call := ⟨false, 0, 4, ⟨fun _ => 0, fun _ => true⟩, 4, fun _ _ => 1⟩

theorem last_block :
    twoBlocks.Contains readLast ∧ readLast.issues twoBlocks.toDevice [] = [1, 2] ∧ ¬ Kept twoBlocks [] readLast := by
  have hin : twoBlocks.Contains readLast := by decide
  have hissues : readLast.issues twoBlocks.toDevice [] = [1, 2] := by decide
  refine ⟨hin, hissues, fun h => ?_⟩
  unfold Kept at h
  rw [if_pos hin] at h
  have h2 := (h 2 (by rw [hissues]; decide)).1
  exact absurd h2 (by decide)

end Ram

end BlockDevice

end SimpleOS2
