/-
  File:      SimpleOS2/Lib/Buffer.lean
  Subject:   ARRAYS THAT KNOW THEIR BOUNDS. Nothing here names the kernel.

  The cells are a function on the indices; an access from `size` on has no result, and what is computed
  with it has none either.

  * `rd`, `wr`, `rdList`, `wrList` -- accesses;
  * `copyUp`, `copyDown` -- a range copied cell by cell, from its first cell on or from its last one on;
  * `moved` -- the array with a range copied; `copyUp_eq`, `copyDown_eq` -- the loops do that where the target does
    not lie behind, or not before, the source;
  * `Holds` -- a list stands in the array, with the rules for appending, copying and writing elsewhere.
-/
import Mathlib.Logic.Function.Basic
import Mathlib.Data.List.Basic

namespace SimpleOS2.Lib

variable {α : Type _} {size : Nat} {b b' : Nat → α}

/-! ## 1. Accesses -/

def rd (size : Nat) (b : Nat → α) (i : Nat) : Option α := if i < size then some (b i) else none

def wr (size : Nat) (b : Nat → α) (i : Nat) (x : α) : Option (Nat → α) :=
  if i < size then some (Function.update b i x) else none

theorem rd_in {i : Nat} (h : i < size) : rd size b i = some (b i) := if_pos h

theorem rd_out {i : Nat} (h : size ≤ i) : rd size b i = none := if_neg (Nat.not_lt.mpr h)

theorem wr_in {i : Nat} (h : i < size) (x : α) : wr size b i x = some (Function.update b i x) := if_pos h

theorem wr_out {i : Nat} (h : size ≤ i) (x : α) : wr size b i x = none := if_neg (Nat.not_lt.mpr h)

/-- `n` cells from `s` on. -/
def rdList (size : Nat) (b : Nat → α) : (n s : Nat) → Option (List α)
  | 0, _ => some []
  | n + 1, s => do
      let x ← rd size b s
      let xs ← rdList size b n (s + 1)
      return x :: xs

/-- The list is written from `d` on. -/
def wrList (size : Nat) : (xs : List α) → (b : Nat → α) → (d : Nat) → Option (Nat → α)
  | [], b, _ => some b
  | x :: xs, b, d => do
      let b ← wr size b d x
      wrList size xs b (d + 1)

/-- The first `n` cells from `s` on are copied to `d`, the first one first. -/
def copyUp (size : Nat) : (n : Nat) → (b : Nat → α) → (d s : Nat) → Option (Nat → α)
  | 0, b, _, _ => some b
  | n + 1, b, d, s => do
      let x ← rd size b s
      let b ← wr size b d x
      copyUp size n b (d + 1) (s + 1)

/-- The last one first. -/
def copyDown (size : Nat) : (n : Nat) → (b : Nat → α) → (d s : Nat) → Option (Nat → α)
  | 0, b, _, _ => some b
  | n + 1, b, d, s => do
      let x ← rd size b (s + n)
      let b ← wr size b (d + n) x
      copyDown size n b d s

/-! ## 2. Lists in an array -/

/-- The list stands in the array from `a` on. -/
def Holds (b : Nat → α) : (a : Nat) → List α → Prop
  | _, [] => True
  | a, x :: xs => b a = x ∧ Holds b (a + 1) xs

section Holds

variable {a : Nat} {xs ys : List α}

theorem Holds.shift {d : Nat} (h : Holds b a xs) (he : ∀ k < xs.length, b' (d + k) = b (a + k)) : Holds b' d xs := by
  induction xs generalizing a d with
  | nil => trivial
  | cons x xs ih =>
      rw [List.length_cons] at he
      refine ⟨(he 0 (Nat.succ_pos _)).trans h.1, ih h.2 fun k hk => ?_⟩
      have hnext : b' (d + k + 1) = b (a + k + 1) := he (k + 1) (Nat.succ_lt_succ hk)
      rwa [Nat.add_right_comm d, Nat.add_right_comm a] at hnext

theorem Holds.congr (h : Holds b a xs) (he : ∀ i, a ≤ i → i < a + xs.length → b' i = b i) : Holds b' a xs :=
  h.shift fun k hk => he (a + k) (Nat.le_add_right a k) (by omega)

theorem holds_append : Holds b a (xs ++ ys) ↔ Holds b a xs ∧ Holds b (a + xs.length) ys := by
  induction xs generalizing a with
  | nil => exact ⟨fun h => ⟨trivial, h⟩, fun h => h.2⟩
  | cons x xs ih =>
      have hlen : a + (x :: xs).length = a + 1 + xs.length := by
        rw [List.length_cons]
        omega
      rw [List.cons_append, hlen]
      exact (and_congr_right fun _ => ih).trans and_assoc.symm

theorem Holds.get (h : Holds b a xs) {k : Nat} (hk : k < xs.length) : b (a + k) = xs[k] := by
  induction xs generalizing a k with
  | nil => exact absurd hk (Nat.not_lt_zero _)
  | cons x xs ih =>
      cases k with
      | zero => exact h.1
      | succ k =>
          have hshift : a + (k + 1) = a + 1 + k := by omega
          rw [hshift]
          exact ih h.2 (Nat.lt_of_succ_lt_succ hk)

/-- Writing a list. -/
theorem wrList_eq (xs : List α) (b : Nat → α) (d : Nat) (h : d + xs.length ≤ size) :
    ∃ b', wrList size xs b d = some b' ∧ Holds b' d xs ∧ ∀ i, i < d ∨ d + xs.length ≤ i → b' i = b i := by
  induction xs generalizing b d with
  | nil => exact ⟨b, rfl, trivial, fun _ _ => rfl⟩
  | cons x xs ih =>
      rw [List.length_cons] at h
      obtain ⟨b', hw, hh, hf⟩ := ih (Function.update b d x) (d + 1) (by omega)
      refine ⟨b', ?_, ⟨?_, hh⟩, fun i hi => ?_⟩
      · rw [wrList, wr_in (by omega)]
        exact hw
      · rw [hf d (Or.inl (Nat.lt_succ_self d)), Function.update_self]
      · rw [List.length_cons] at hi
        rw [hf i (by omega), Function.update_of_ne (by omega)]

theorem rdList_in (n s : Nat) (h : s + n ≤ size) :
    rdList size b n s = some ((List.range n).map fun k => b (s + k)) := by
  induction n generalizing s with
  | zero => rfl
  | succ n ih =>
      have hmap : (List.range n).map (fun k => b (s + 1 + k)) = (List.range n).map ((fun k => b (s + k)) ∘ Nat.succ) :=
        List.map_congr_left fun k _ => congrArg b (by show s + 1 + k = s + (k + 1); omega)
      rw [rdList, rd_in (by omega), ih (s + 1) (by omega), List.range_succ_eq_map, List.map_cons, List.map_map, hmap]
      rfl

theorem rdList_out (n s : Nat) (h : size < s + n) (h0 : 0 < n) : rdList size b n s = none := by
  induction n generalizing s with
  | zero => exact absurd h0 (Nat.lt_irrefl 0)
  | succ n ih =>
      rw [rdList]
      by_cases hs : s < size
      · rw [rd_in hs, ih (s + 1) (by omega) (by omega)]
        rfl
      · rw [rd_out (Nat.le_of_not_lt hs)]
        rfl

end Holds

/-! ## 3. Copies -/

/-- The array with `n` cells from `s` on copied to `d`. -/
def moved (b : Nat → α) (d s n : Nat) : Nat → α := fun i => if d ≤ i ∧ i < d + n then b (s + (i - d)) else b i

section Copies

variable {d s m n : Nat}

theorem moved_zero : moved b d s 0 = b := funext fun i => if_neg (by omega)

theorem moved_out {i : Nat} (h : i < d ∨ d + n ≤ i) : moved b d s n i = b i := if_neg (by omega)

theorem moved_one : moved b d s 1 = Function.update b d (b s) := by
  funext i
  by_cases h : i = d
  · subst h
    rw [Function.update_self, moved, if_pos (by omega), Nat.sub_self, Nat.add_zero]
  · rw [Function.update_of_ne h, moved_out (by omega)]

/-- Two parts of a copy, the first one first. -/
theorem moved_up (h : d ≤ s) : moved (moved b d s m) (d + m) (s + m) n = moved b d s (m + n) := by
  funext i
  by_cases h1 : d + m ≤ i ∧ i < d + m + n
  · rw [moved, if_pos h1, moved_out (by omega), moved, if_pos (by omega)]
    exact congrArg b (by omega)
  · rw [moved, if_neg h1]
    by_cases h2 : d ≤ i ∧ i < d + m
    · rw [moved, if_pos h2, moved, if_pos (by omega)]
    · rw [moved_out (by omega), moved_out (by omega)]

/-- The last one first. -/
theorem moved_down (h : s ≤ d) : moved (moved b (d + n) (s + n) 1) d s n = moved b d s (n + 1) := by
  funext i
  by_cases h1 : d ≤ i ∧ i < d + n
  · rw [moved, if_pos h1, moved_out (by omega), moved, if_pos (by omega)]
  · rw [moved, if_neg h1]
    by_cases h2 : i = d + n
    · subst h2
      rw [moved, if_pos (by omega), moved, if_pos (by omega)]
      exact congrArg b (by omega)
    · rw [moved_out (by omega), moved_out (by omega)]

theorem copyUp_eq (h : d ≤ s) (hs : s + n ≤ size) : copyUp size n b d s = some (moved b d s n) := by
  induction n generalizing b d s with
  | zero => exact congrArg some moved_zero.symm
  | succ n ih =>
      rw [copyUp, rd_in (by omega)]
      show (do let b ← wr size b d (b s); copyUp size n b (d + 1) (s + 1)) = _
      rw [wr_in (by omega), ← moved_one]
      show copyUp size n (moved b d s 1) (d + 1) (s + 1) = _
      rw [ih (by omega) (by omega), moved_up h, Nat.add_comm 1 n]

/-- A copy that reads behind the array. -/
theorem copyUp_out (h : d ≤ s) (hs : size < s + n) (h0 : 0 < n) : copyUp size n b d s = none := by
  induction n generalizing b d s with
  | zero => exact absurd h0 (Nat.lt_irrefl 0)
  | succ n ih =>
      rw [copyUp]
      by_cases hin : s < size
      · rw [rd_in hin]
        show (do let b ← wr size b d (b s); copyUp size n b (d + 1) (s + 1)) = _
        rw [wr_in (by omega)]
        exact ih (by omega) (by omega) (by omega)
      · rw [rd_out (Nat.le_of_not_lt hin)]
        rfl

theorem copyDown_eq (h : s ≤ d) (hd : d + n ≤ size) : copyDown size n b d s = some (moved b d s n) := by
  induction n generalizing b with
  | zero => exact congrArg some moved_zero.symm
  | succ n ih =>
      rw [copyDown, rd_in (by omega)]
      show (do let b ← wr size b (d + n) (b (s + n)); copyDown size n b d s) = _
      rw [wr_in (by omega), ← moved_one]
      show copyDown size n (moved b (d + n) (s + n) 1) d s = _
      rw [ih (by omega), moved_down h]

/-- What has been read and is written somewhere else. -/
theorem rdList_wrList (hs : s + n ≤ size) (hd : d + n ≤ size) :
    (rdList size b n s).bind (fun xs => wrList size xs b d) = some (moved b d s n) := by
  rw [rdList_in n s hs]
  obtain ⟨b', hw, hh, hf⟩ := wrList_eq ((List.range n).map fun k => b (s + k)) b d (by simpa using hd)
  rw [List.length_map, List.length_range] at hf
  refine hw.trans (congrArg some (funext fun i => ?_))
  by_cases hi : d ≤ i ∧ i < d + n
  · obtain ⟨k, rfl⟩ : ∃ k, i = d + k := ⟨i - d, by omega⟩
    have hk : k < ((List.range n).map fun k => b (s + k)).length := by
      rw [List.length_map, List.length_range]
      omega
    rw [hh.get hk, moved, if_pos hi, List.getElem_map, List.getElem_range, Nat.add_sub_cancel_left]
  · rw [hf i (by omega), moved_out (by omega)]

/-- What stands in the range stands in its copy. -/
theorem holds_moved {xs : List α} (h : Holds b s xs) (hn : xs.length ≤ n) : Holds (moved b d s n) d xs :=
  h.shift fun k hk => by
    rw [moved, if_pos (by omega), Nat.add_sub_cancel_left]

end Copies

end SimpleOS2.Lib
