/-
  File:      SimpleOS2/Lib/WordMemory.lean
  Subject:   NUMBERS OF SEVERAL BYTES IN A BYTE MEMORY, AND COPIES OF THEM. Nothing here names the kernel.

  The memory has a byte at each address of `n` bits; address arithmetic wraps.

  * `load`, `store` -- `w` bytes at an address, the lowest one first;
  * `byteOf_load`, `store_in`, `store_out` -- the bytes one by one;
  * `load_store` -- what was stored is loaded again; `load_injective` -- two addresses whose loads always agree
    are the same;
  * `Copied` -- a range has been copied and nothing else changed; `Copied.append`, `Copied.prepend` -- a copy in two
    parts, where the first does not write what the second reads;
  * `copyUnits` -- a copy upwards in units of `w` bytes; `copyUnits_copied` -- it is right for every overlap in which
    the target is not behind the source; `copyBack_copied` -- bytewise from the end for the others.
-/
import Mathlib.Algebra.Group.Nat.Defs
import Mathlib.Data.Nat.Basic

namespace SimpleOS2.Lib

variable {n w : Nat} {mem mem' : BitVec n → BitVec 8} {a b x : BitVec n}

/-- The byte `i` of a number. -/
def byteOf (v : BitVec (8 * w)) (i : Nat) : BitVec 8 := v.extractLsb' (8 * i) 8

def load (mem : BitVec n → BitVec 8) (a : BitVec n) : (w : Nat) → BitVec (8 * w)
  | 0 => 0#0
  | w + 1 => load mem (a + 1#n) w ++ mem a

/-- The bytes at `a`, `a + 1`, up to `w` of them. -/
def store (mem : BitVec n → BitVec 8) (a : BitVec n) (w : Nat) (v : BitVec (8 * w)) : BitVec n → BitVec 8 :=
  fun x => if (x - a).toNat < w then byteOf v (x - a).toNat else mem x

theorem byteOf_append_zero (u : BitVec (8 * w)) (c : BitVec 8) : byteOf (w := w + 1) (u ++ c) 0 = c := by
  refine BitVec.eq_of_getLsbD_eq fun j hj => ?_
  unfold byteOf
  rw [BitVec.getLsbD_extractLsb', BitVec.getLsbD_append]
  simp [hj]

theorem byteOf_append_succ (u : BitVec (8 * w)) (c : BitVec 8) (i : Nat) :
    byteOf (w := w + 1) (u ++ c) (i + 1) = byteOf u i := by
  refine BitVec.eq_of_getLsbD_eq fun j hj => ?_
  unfold byteOf
  rw [BitVec.getLsbD_extractLsb', BitVec.getLsbD_append, BitVec.getLsbD_extractLsb']
  have hlt : ¬ 8 * (i + 1) + j < 8 := by omega
  have hsub : 8 * (i + 1) + j - 8 = 8 * i + j := by omega
  rw [hsub]
  simp [hj, hlt]

/-- A number is its bytes. -/
theorem eq_of_bytes {u v : BitVec (8 * w)} (h : ∀ i, i < w → byteOf u i = byteOf v i) : u = v := by
  refine BitVec.eq_of_getLsbD_eq fun j hj => ?_
  have hb := congrArg (fun c : BitVec 8 => c.getLsbD (j % 8)) (h (j / 8) (by omega))
  have hlt : j % 8 < 8 := Nat.mod_lt j (by decide)
  unfold byteOf at hb
  simp only [BitVec.getLsbD_extractLsb', hlt, decide_true, Bool.true_and, Nat.div_add_mod] at hb
  exact hb

theorem byteOf_load (mem : BitVec n → BitVec 8) (a : BitVec n) {i : Nat} (hi : i < w) :
    byteOf (load mem a w) i = mem (a + BitVec.ofNat n i) := by
  induction w generalizing a i with
  | zero => exact absurd hi (Nat.not_lt_zero i)
  | succ w ih =>
      cases i with
      | zero => exact (byteOf_append_zero _ _).trans (congrArg mem (BitVec.add_zero a).symm)
      | succ i =>
          refine (byteOf_append_succ _ _ i).trans ((ih (a + 1#n) (Nat.lt_of_succ_lt_succ hi)).trans (congrArg mem ?_))
          rw [BitVec.add_assoc, ← BitVec.ofNat_add, Nat.add_comm 1 i]

/-- A `uint32` by its bytes. -/
theorem load_four (mem : BitVec n → BitVec 8) (a : BitVec n) :
    load mem a 4 = mem (a + 3#n) ++ mem (a + 2#n) ++ mem (a + 1#n) ++ mem a := by
  have h2 : a + 1#n + 1#n = a + 2#n := by rw [BitVec.add_assoc, ← BitVec.ofNat_add]
  have h3 : a + 1#n + 1#n + 1#n = a + 3#n := by rw [h2, BitVec.add_assoc, ← BitVec.ofNat_add]
  have h0 : (0#0 ++ mem (a + 3#n) : BitVec (0 + 8)) = mem (a + 3#n) := by
    refine BitVec.eq_of_getLsbD_eq fun j hj => ?_
    rw [BitVec.getLsbD_append, if_pos hj]
  show load mem (a + 1#n + 1#n + 1#n + 1#n) 0 ++ mem (a + 1#n + 1#n + 1#n) ++ mem (a + 1#n + 1#n) ++
    mem (a + 1#n) ++ mem a = _
  rw [h3, h2]
  exact congrArg (fun u : BitVec 8 => u ++ mem (a + 2#n) ++ mem (a + 1#n) ++ mem a) h0

/-- The low bytes of a load are a load. -/
theorem setWidth_load (mem : BitVec n → BitVec 8) (a : BitVec n) {k : Nat} (hk : k ≤ w) :
    (load mem a w).setWidth (8 * k) = load mem a k :=
  eq_of_bytes fun i hi => by
    rw [byteOf_load mem a hi, ← byteOf_load mem a (Nat.lt_of_lt_of_le hi hk)]
    refine BitVec.eq_of_getLsbD_eq fun j hj => ?_
    unfold byteOf
    have hlt : 8 * i + j < 8 * k := by omega
    simp [hj, hlt]

theorem add_sub_ofNat (a : BitVec n) {i : Nat} (hi : i < 2 ^ n) : (a + BitVec.ofNat n i - a).toNat = i := by
  rw [BitVec.add_comm, BitVec.add_sub_cancel, BitVec.toNat_ofNat, Nat.mod_eq_of_lt hi]

theorem store_in (v : BitVec (8 * w)) (hw : w ≤ 2 ^ n) {i : Nat} (hi : i < w) :
    store mem a w v (a + BitVec.ofNat n i) = byteOf v i := by
  unfold store
  rw [add_sub_ofNat a (Nat.lt_of_lt_of_le hi hw), if_pos hi]

theorem store_out (v : BitVec (8 * w)) (h : ¬ (x - a).toNat < w) : store mem a w v x = mem x := if_neg h

/-- **What was stored is loaded again.** -/
theorem load_store (mem : BitVec n → BitVec 8) (a : BitVec n) (v : BitVec (8 * w)) (hw : w ≤ 2 ^ n) :
    load (store mem a w v) a w = v :=
  eq_of_bytes fun i hi => by
    rw [byteOf_load _ a hi, store_in v hw hi]

/-- **Two addresses whose loads always agree are the same.** -/
theorem load_injective (hw : 0 < w) (h : ∀ mem : BitVec n → BitVec 8, load mem a w = load mem b w) : a = b := by
  by_contra hne
  have hb := congrArg (fun v => byteOf v 0) (h fun x => if x = a then 1 else 0)
  rw [byteOf_load _ a hw, byteOf_load _ b hw, BitVec.add_zero, BitVec.add_zero, if_pos rfl,
    if_neg (Ne.symm hne)] at hb
  exact absurd hb (by decide)

/-! ## Copies -/

section Copies

variable {mem'' : BitVec n → BitVec 8} {i j k count : Nat}

/-- The `k` bytes from `a` on, also around the end of the memory. -/
def Inside (a : BitVec n) (k : Nat) (x : BitVec n) : Prop := (x - a).toNat < k

theorem sub_toNat_of_le (h : a.toNat ≤ x.toNat) : (x - a).toNat = x.toNat - a.toNat :=
  BitVec.toNat_sub_of_le (BitVec.le_def.mpr h)

theorem sub_toNat_of_lt (h : x.toNat < a.toNat) : (x - a).toNat = 2 ^ n - (a.toNat - x.toNat) :=
  BitVec.toNat_sub_of_lt (BitVec.lt_def.mpr h)

/-- A range that does not run around the end. -/
theorem inside_iff (h : a.toNat + k ≤ 2 ^ n) : Inside a k x ↔ a.toNat ≤ x.toNat ∧ x.toNat < a.toNat + k := by
  unfold Inside
  by_cases hle : a.toNat ≤ x.toNat
  · rw [sub_toNat_of_le hle]
    omega
  · have := x.isLt
    rw [sub_toNat_of_lt (Nat.lt_of_not_le hle)]
    omega

theorem inside_add_ofNat (hi : i < 2 ^ n) : Inside a k (a + BitVec.ofNat n i) ↔ i < k := by
  unfold Inside
  rw [add_sub_ofNat a hi]

theorem toNat_add_ofNat (h : a.toNat + i < 2 ^ n) : (a + BitVec.ofNat n i).toNat = a.toNat + i := by
  rw [BitVec.toNat_add, BitVec.toNat_ofNat, Nat.mod_eq_of_lt (show i < 2 ^ n by omega), Nat.mod_eq_of_lt h]

/-- The distance from a place `j` bytes further on. -/
theorem toNat_sub_add (hj : j < 2 ^ n) : (x - (a + BitVec.ofNat n j)).toNat =
    if j ≤ (x - a).toNat then (x - a).toNat - j else 2 ^ n - (j - (x - a).toNat) := by
  have hto : (BitVec.ofNat n j).toNat = j := by rw [BitVec.toNat_ofNat, Nat.mod_eq_of_lt hj]
  rw [← BitVec.sub_sub]
  split
  · next hle => rw [sub_toNat_of_le (by rw [hto]; exact hle), hto]
  · next hle => rw [sub_toNat_of_lt (by rw [hto]; exact Nat.lt_of_not_le hle), hto]

/-- Two ranges one after the other. -/
theorem inside_split (hjk : j + k ≤ 2 ^ n) :
    Inside a (j + k) x ↔ Inside a j x ∨ Inside (a + BitVec.ofNat n j) k x := by
  rcases Nat.eq_zero_or_pos k with rfl | hk
  · simp [Inside]
  · unfold Inside
    rw [toNat_sub_add (by omega)]
    split <;> omega

/-- And they do not meet. -/
theorem not_inside_after (hi : i < j) (hjk : j + k ≤ 2 ^ n) :
    ¬ Inside (a + BitVec.ofNat n j) k (a + BitVec.ofNat n i) := by
  rcases Nat.eq_zero_or_pos k with rfl | hk
  · exact Nat.not_lt_zero _
  · have hbase := add_sub_ofNat a (show i < 2 ^ n by omega)
    unfold Inside
    rw [toNat_sub_add (by omega), hbase, if_neg (Nat.not_le.mpr hi)]
    omega

/-- **`mem'` is `mem` with the `k` bytes from `a` on copied to `b`.** -/
structure Copied (mem mem' : BitVec n → BitVec 8) (b a : BitVec n) (k : Nat) : Prop where
  bytes : ∀ i, i < k → mem' (b + BitVec.ofNat n i) = mem (a + BitVec.ofNat n i)
  frame : ∀ x, ¬ Inside b k x → mem' x = mem x

theorem Copied.zero (mem : BitVec n → BitVec 8) (b a : BitVec n) : Copied mem mem b a 0 :=
  ⟨fun _ h => absurd h (Nat.not_lt_zero _), fun _ _ => rfl⟩

/-- A range onto itself. -/
theorem Copied.same (mem : BitVec n → BitVec 8) (a : BitVec n) (k : Nat) : Copied mem mem a a k :=
  ⟨fun _ _ => rfl, fun _ _ => rfl⟩

/-- A number is read as a whole before it is written. -/
theorem copied_store (mem : BitVec n → BitVec 8) (b a : BitVec n) (hw : w ≤ 2 ^ n) :
    Copied mem (store mem b w (load mem a w)) b a w :=
  ⟨fun _ hi => (store_in _ hw hi).trans (byteOf_load mem a hi), fun _ hx => store_out _ hx⟩

/-- A copy in two parts, the lower one first. -/
theorem Copied.append (h1 : Copied mem mem' b a j)
    (h2 : Copied mem' mem'' (b + BitVec.ofNat n j) (a + BitVec.ofNat n j) k) (hjk : j + k ≤ 2 ^ n)
    (hkeep : ∀ i, j ≤ i → i < j + k → ¬ Inside b j (a + BitVec.ofNat n i)) : Copied mem mem'' b a (j + k) := by
  refine ⟨fun i hi => ?_, fun x hx => ?_⟩
  · by_cases hij : i < j
    · rw [h2.frame _ (not_inside_after hij hjk), h1.bytes i hij]
    · obtain ⟨m, rfl⟩ := Nat.exists_eq_add_of_le (Nat.le_of_not_lt hij)
      have hm := h2.bytes m (Nat.lt_of_add_lt_add_left hi)
      rw [BitVec.add_assoc, BitVec.add_assoc, ← BitVec.ofNat_add] at hm
      exact hm.trans (h1.frame _ (hkeep _ (Nat.le_add_right _ _) hi))
  · rw [inside_split hjk, not_or] at hx
    exact (h2.frame x hx.2).trans (h1.frame x hx.1)

/-- The upper one first. -/
theorem Copied.prepend (h1 : Copied mem mem' (b + BitVec.ofNat n j) (a + BitVec.ofNat n j) k)
    (h2 : Copied mem' mem'' b a j) (hjk : j + k ≤ 2 ^ n)
    (hkeep : ∀ i, i < j → ¬ Inside (b + BitVec.ofNat n j) k (a + BitVec.ofNat n i)) :
    Copied mem mem'' b a (j + k) := by
  refine ⟨fun i hi => ?_, fun x hx => ?_⟩
  · by_cases hij : i < j
    · exact (h2.bytes i hij).trans (h1.frame _ (hkeep i hij))
    · -- the lower part of the target ends before it
      obtain ⟨m, rfl⟩ := Nat.exists_eq_add_of_le (Nat.le_of_not_lt hij)
      have hm := h1.bytes m (Nat.lt_of_add_lt_add_left hi)
      rw [BitVec.add_assoc, BitVec.add_assoc, ← BitVec.ofNat_add] at hm
      have hout : ¬ Inside b j (b + BitVec.ofNat n (j + m)) := fun h =>
        absurd ((inside_add_ofNat (by omega)).mp h) (Nat.not_lt.mpr (Nat.le_add_right _ _))
      exact (h2.frame _ hout).trans hm
  · rw [inside_split hjk, not_or] at hx
    exact (h2.frame x hx.1).trans (h1.frame x hx.2)

/-- A copy upwards never reads a byte it has written: no source byte at the place `i` or behind it lies in the
first `i` bytes of the target. -/
def Ahead (b a : BitVec n) (k : Nat) : Prop := ∀ j i, j ≤ i → i < k → ¬ Inside b j (a + BitVec.ofNat n i)

/-- The source begins behind the target, and does not run around the end. -/
theorem ahead_of_le (h : b.toNat ≤ a.toNat) (ha : a.toNat + k ≤ 2 ^ n) : Ahead b a k := by
  intro j i hji hi hin
  have hlt := (inside_iff (by omega)).mp hin
  rw [toNat_add_ofNat (by omega)] at hlt
  omega

/-- What is left of a copy upwards. -/
theorem Ahead.drop (h : Ahead b a (j + k)) (hjk : j + k ≤ 2 ^ n) :
    Ahead (b + BitVec.ofNat n j) (a + BitVec.ofNat n j) k := by
  intro m i hmi hi hin
  rw [BitVec.add_assoc, ← BitVec.ofNat_add] at hin
  exact h (j + m) (j + i) (by omega) (by omega) ((inside_split (by omega)).mpr (Or.inr hin))

/-- Two copies upwards, one behind the other. -/
theorem Copied.append_ahead (h1 : Copied mem mem' b a j)
    (h2 : Copied mem' mem'' (b + BitVec.ofNat n j) (a + BitVec.ofNat n j) k) (hjk : j + k ≤ 2 ^ n)
    (hk : Ahead b a (j + k)) : Copied mem mem'' b a (j + k) :=
  h1.append h2 hjk fun i hij hi => hk j i hij hi

/-- `count` units of `w` bytes, upwards. -/
def copyUnits (w : Nat) : (count : Nat) → (mem : BitVec n → BitVec 8) → (b a : BitVec n) → BitVec n → BitVec 8
  | 0, mem, _, _ => mem
  | count + 1, mem, b, a =>
      copyUnits w count (store mem b w (load mem a w)) (b + BitVec.ofNat n w) (a + BitVec.ofNat n w)

theorem copyUnits_copied (hc : w * count ≤ 2 ^ n) (h : Ahead b a (w * count)) :
    Copied mem (copyUnits w count mem b a) b a (w * count) := by
  induction count generalizing mem b a with
  | zero => exact Copied.zero mem b a
  | succ count ih =>
      rw [Nat.mul_succ, Nat.add_comm (w * count) w] at hc h ⊢
      exact (copied_store mem b a (Nat.le_trans (Nat.le_add_right _ _) hc)).append_ahead
        (ih (Nat.le_trans (Nat.le_add_left _ _) hc) (h.drop hc)) hc h

/-- Byte by byte. -/
theorem copyUnits_one (hc : count ≤ 2 ^ n) (h : Ahead b a count) :
    Copied mem (copyUnits 1 count mem b a) b a count := by
  have hunits : Copied mem (copyUnits 1 count mem b a) b a (1 * count) :=
    copyUnits_copied (by rw [Nat.one_mul]; exact hc) (by rw [Nat.one_mul]; exact h)
  rw [Nat.one_mul] at hunits
  exact hunits

/-- `i` bytes, the last one first. -/
def copyBack : (i : Nat) → (mem : BitVec n → BitVec 8) → (b a : BitVec n) → BitVec n → BitVec 8
  | 0, mem, _, _ => mem
  | i + 1, mem, b, a =>
      copyBack i (store mem (b + BitVec.ofNat n i) 1 (load mem (a + BitVec.ofNat n i) 1)) b a

/-- The target begins behind the source, and does not run around the end. -/
theorem copyBack_copied (h : a.toNat ≤ b.toNat) (hb : b.toNat + k ≤ 2 ^ n) :
    Copied mem (copyBack k mem b a) b a k := by
  induction k generalizing mem with
  | zero => exact Copied.zero mem b a
  | succ k ih =>
      refine (copied_store mem _ _ (by omega)).prepend (ih (by omega)) (by omega) fun i hi hin => ?_
      have hlt := (inside_iff (by rw [toNat_add_ofNat (by omega)]; omega)).mp hin
      rw [toNat_add_ofNat (by omega), toNat_add_ofNat (by omega)] at hlt
      omega

end Copies

end SimpleOS2.Lib
