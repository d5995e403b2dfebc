/-
  File:      SimpleOS2/Lib/Ring.lean
  Subject:   A CIRCULAR BUFFER READ AS A LIST. Nothing here names the kernel.

  `ring c b s n` is the list of the `n` cells of the buffer `b` of capacity `c` that follow
  position `s`, wrapping at `c`. The lemmas say how the list moves when the window moves:
  a longer window appends (`ring_add`), a consumer drops from the front (`ring_drop`), and two
  buffers that agree on the window read as the same list (`ring_congr`).

  `Slots c b s l` -- with indices that only grow: what stands in the list `l` from `s` on is in the buffer.
-/
import Mathlib.Data.List.Basic
import Mathlib.Logic.Function.Basic

namespace SimpleOS2.Lib

variable {α : Type _}

/-- The `n` cells from position `s` on, wrapping at `c`. -/
def ring (c : Nat) (b : Nat → α) (s n : Nat) : List α :=
  (List.range n).map fun i => b ((s + i) % c)

@[simp] theorem ring_length (c : Nat) (b : Nat → α) (s n : Nat) : (ring c b s n).length = n := by
  simp [ring]

@[simp] theorem ring_zero (c : Nat) (b : Nat → α) (s : Nat) : ring c b s 0 = [] := rfl

theorem ring_eq_map {c s n : Nat} {b : Nat → α} {f : Nat → α}
    (h : ∀ i < n, b ((s + i) % c) = f i) : ring c b s n = (List.range n).map f := by
  unfold ring
  exact List.map_congr_left fun i hi => h i (List.mem_range.mp hi)

theorem ring_congr {c s n : Nat} {b b' : Nat → α}
    (h : ∀ i < n, b ((s + i) % c) = b' ((s + i) % c)) : ring c b s n = ring c b' s n :=
  ring_eq_map h

theorem ring_mod (c : Nat) (b : Nat → α) (s n : Nat) : ring c b (s % c) n = ring c b s n := by
  unfold ring
  refine List.map_congr_left fun i _ => ?_
  rw [Nat.mod_add_mod]

/-- A window is its first `m` cells and the window that starts behind them. -/
theorem ring_add (c : Nat) (b : Nat → α) (s m n : Nat) :
    ring c b s (m + n) = ring c b s m ++ ring c b ((s + m) % c) n := by
  unfold ring
  rw [List.range_add, List.map_append, List.map_map]
  congr 1
  refine List.map_congr_left fun i _ => ?_
  show b ((s + (m + i)) % c) = b (((s + m) % c + i) % c)
  rw [Nat.mod_add_mod, Nat.add_assoc]

theorem ring_take {c : Nat} {b : Nat → α} {s m n : Nat} (h : m ≤ n) :
    (ring c b s n).take m = ring c b s m := by
  obtain ⟨k, rfl⟩ := Nat.exists_eq_add_of_le h
  rw [ring_add, List.take_left' (ring_length c b s m)]

theorem ring_drop {c : Nat} {b : Nat → α} {s m n : Nat} (h : m ≤ n) :
    (ring c b s n).drop m = ring c b ((s + m) % c) (n - m) := by
  obtain ⟨k, rfl⟩ := Nat.exists_eq_add_of_le h
  rw [ring_add, List.drop_left' (ring_length c b s m), Nat.add_sub_cancel_left]

/-! ## Indices that only grow -/

/-- The element `i` of the list, from `s` on, is in the slot `i % c`. -/
def Slots (c : Nat) (b : Nat → α) (s : Nat) (l : List α) : Prop :=
  ∀ i, s ≤ i → i < l.length → l[i]? = some (b (i % c))

theorem mod_ne_of_lt {c i j : Nat} (hij : i < j) (hj : j < i + c) : i % c ≠ j % c := by
  intro h
  have hz : (j - i) % c = 0 := Nat.sub_mod_eq_zero_of_mod_eq h.symm
  rw [Nat.mod_eq_of_lt (by omega)] at hz
  omega

/-- **One more element**: where its slot is free, or holds this very element. -/
theorem Slots.push {c s : Nat} {b : Nat → α} {l : List α} {x : α} (h : Slots c b s l)
    (hroom : l.length < s + c ∨ b (l.length % c) = x) :
    Slots c (Function.update b (l.length % c) x) s (l ++ [x]) := by
  intro i hs hi
  rw [List.length_append, List.length_singleton] at hi
  rcases Nat.lt_or_eq_of_le (Nat.le_of_lt_succ hi) with hlt | rfl
  · rw [List.getElem?_append_left hlt, h i hs hlt]
    rcases hroom with hroom | rfl
    · rw [Function.update_of_ne (mod_ne_of_lt hlt (by omega))]
    · rw [Function.update_eq_self]
  · rw [List.getElem?_append_right (Nat.le_refl _), Nat.sub_self, Function.update_self]
    rfl

theorem Slots.pop {c s : Nat} {b : Nat → α} {l : List α} (h : Slots c b s l) : Slots c b (s + 1) l :=
  fun i hs hi => h i (Nat.le_of_succ_le hs) hi

end SimpleOS2.Lib
