/-
  File:      SimpleOS2/Lib/Fifo.lean
  Subject:   A BOUNDED QUEUE IN A RING, read as the list of what is in it. Nothing here names the kernel.

  The two positions only grow; what is put into a full queue is dropped.

  * `Fifo.put`, `Fifo.get` -- one element in, up to `k` elements out; `Fifo.putAll`;
  * `Fifo.contents` -- the abstraction; `Fifo.Ok` -- the read position is not ahead, and no more is in it than fits;
  * `put_contents`, `get_contents` -- what the operations do to the list; `putAll_sublist`, `putAll_room` -- the same
    for many elements, without and with room for them.
-/
import SimpleOS2.Lib.Ring

namespace SimpleOS2.Lib

variable {α : Type _}

structure Fifo (α : Type _) where
  buf : Nat → α
  readPos : Nat
  writePos : Nat

namespace Fifo

/-- How many elements are in the queue. -/
def size (q : Fifo α) : Nat := q.writePos - q.readPos

/-- One element in, where there is room. -/
def put (c : Nat) (q : Fifo α) (x : α) : Fifo α :=
  if q.size < c then { q with buf := Function.update q.buf (q.writePos % c) x, writePos := q.writePos + 1 } else q

/-- Up to `k` elements out. -/
def get (c : Nat) (q : Fifo α) (k : Nat) : List α × Fifo α :=
  let rem := if k < q.size then k else q.size
  ((List.range rem).map fun i => q.buf ((q.readPos + i) % c), { q with readPos := q.readPos + rem })

def putAll (c : Nat) (q : Fifo α) (xs : List α) : Fifo α := xs.foldl (put c) q

/-- What is in the queue, the oldest element first. -/
def contents (c : Nat) (q : Fifo α) : List α := ring c q.buf q.readPos q.size

structure Ok (c : Nat) (q : Fifo α) : Prop where
  order : q.readPos ≤ q.writePos
  fits : q.size ≤ c

variable {c k : Nat} {q : Fifo α} {x : α} {xs : List α}

@[simp] theorem contents_length (c : Nat) (q : Fifo α) : (q.contents c).length = q.size := ring_length _ _ _ _

theorem put_ok (h : q.Ok c) : (q.put c x).Ok c := by
  unfold put
  split_ifs with hr
  · refine ⟨Nat.le_succ_of_le h.order, ?_⟩
    have := h.order
    unfold size at hr ⊢
    show q.writePos + 1 - q.readPos ≤ c
    omega
  · exact h

theorem put_full (h : ¬ q.size < c) : q.put c x = q := if_neg h

/-- **One element in**: it is the last one, and the others are where they were. -/
theorem put_contents (h : q.Ok c) (hr : q.size < c) : (q.put c x).contents c = q.contents c ++ [x] := by
  have hle := h.order
  unfold put contents
  rw [if_pos hr]
  have hsize : size { q with buf := Function.update q.buf (q.writePos % c) x, writePos := q.writePos + 1 } =
      q.size + 1 := by
    show q.writePos + 1 - q.readPos = q.writePos - q.readPos + 1
    omega
  have hw : q.readPos + q.size = q.writePos := by
    unfold size
    omega
  rw [hsize]
  show ring c (Function.update q.buf (q.writePos % c) x) q.readPos (q.size + 1) = _
  rw [ring_add]
  congr 1
  · refine ring_congr fun i hi => ?_
    rw [Function.update_of_ne]
    exact mod_ne_of_lt (by omega) (by omega)
  · show [Function.update q.buf (q.writePos % c) x (((q.readPos + q.size) % c + 0) % c)] = [x]
    rw [Nat.add_zero, Nat.mod_mod, hw, Function.update_self]

/-- The read position moves on. -/
theorem skip_contents {r : Nat} (hr : r ≤ q.size) :
    (contents c { q with readPos := q.readPos + r }) = (q.contents c).drop r := by
  unfold contents
  rw [ring_drop hr, ring_mod]
  have hsize : size { q with readPos := q.readPos + r } = q.size - r := Nat.sub_add_eq _ _ _
  rw [hsize]

theorem get_ok (h : q.Ok c) : (q.get c k).2.Ok c := by
  have hle := h.order
  have hfit := h.fits
  unfold get
  unfold size at hfit ⊢
  split_ifs with hk
  · exact ⟨show q.readPos + k ≤ q.writePos by omega, show q.writePos - (q.readPos + k) ≤ c by omega⟩
  · exact ⟨show q.readPos + (q.writePos - q.readPos) ≤ q.writePos by omega,
      show q.writePos - (q.readPos + (q.writePos - q.readPos)) ≤ c by omega⟩

/-- **Elements out**: the oldest ones, in their order. -/
theorem get_contents (q : Fifo α) (c k : Nat) : (q.get c k).1 = (q.contents c).take k ∧
    (q.get c k).2.contents c = (q.contents c).drop k := by
  have hlen := contents_length c q
  unfold get
  split_ifs with hk
  · exact ⟨(ring_take (Nat.le_of_lt hk)).symm, skip_contents (Nat.le_of_lt hk)⟩
  · have hge := Nat.le_of_not_lt hk
    rw [List.take_of_length_le (hlen ▸ hge), List.drop_of_length_le (hlen ▸ hge)]
    exact ⟨rfl, (skip_contents (Nat.le_refl _)).trans (List.drop_of_length_le (Nat.le_of_eq hlen))⟩

theorem putAll_ok (h : q.Ok c) : (q.putAll c xs).Ok c := by
  induction xs generalizing q with
  | nil => exact h
  | cons x xs ih => exact ih (put_ok h)

/-- What is put in is there, but for what has been dropped. -/
theorem putAll_sublist (h : q.Ok c) (xs : List α) :
    ∃ ys, List.Sublist ys xs ∧ (q.putAll c xs).contents c = q.contents c ++ ys := by
  induction xs generalizing q with
  | nil => exact ⟨[], List.Sublist.slnil, (List.append_nil _).symm⟩
  | cons x xs ih =>
      obtain ⟨ys, hys, heq⟩ := ih (put_ok (x := x) h)
      change (q.putAll c (x :: xs)).contents c = _ at heq
      by_cases hr : q.size < c
      · refine ⟨x :: ys, hys.cons_cons x, ?_⟩
        rw [heq, put_contents h hr, List.append_assoc]
        rfl
      · refine ⟨ys, hys.cons x, ?_⟩
        rw [heq, put_full hr]

/-- With room for all, nothing is dropped. -/
theorem putAll_room (h : q.Ok c) (hr : q.size + xs.length ≤ c) :
    (q.putAll c xs).contents c = q.contents c ++ xs := by
  induction xs generalizing q with
  | nil => exact (List.append_nil _).symm
  | cons x xs ih =>
      rw [List.length_cons] at hr
      have hlt : q.size < c := by omega
      have hput := put_contents (x := x) h hlt
      have hsize : (q.put c x).size = q.size + 1 := by
        have := congrArg List.length hput
        rwa [contents_length, List.length_append, contents_length, List.length_singleton] at this
      show ((q.put c x).putAll c xs).contents c = _
      rw [ih (put_ok h) (by omega), hput, List.append_assoc]
      rfl

end Fifo

end SimpleOS2.Lib
