/-
  File:      SimpleOS2/Lib/Window.lean
  Subject:   A WINDOW OF A BYTE MEMORY: some bytes from an address on, read as a memory of its own that begins at 0.
             Nothing here names the kernel.

  What a program does with pointers `base + a` is what it would do with `a` at 0; it stays in the window as long as `a`
  does.

  * `Window` -- the bytes of the window are those of `img`; `Window.load`, `Window.store` -- numbers in it;
  * `writeUp` -- a loop that writes one byte a turn, upwards; `placed` -- what it leaves; `Window.writeUp`.
-/
import Mathlib.Logic.Function.Basic
import SimpleOS2.Lib.WordMemory

namespace SimpleOS2.Lib

variable {n w size start count : Nat} {mem mem' img : BitVec n → BitVec 8} {base a d x y : BitVec n}

/-- The `size` bytes at `base` are those of `img` at 0. -/
def Window (mem : BitVec n → BitVec 8) (base : BitVec n) (size : Nat) (img : BitVec n → BitVec 8) : Prop :=
  ∀ x, x.toNat < size → mem (base + x) = img x

/-- A number in the window. -/
theorem Window.load (h : Window mem base size img) (ha : a.toNat + w ≤ size) (hn : a.toNat + w ≤ 2 ^ n) :
    load mem (base + a) w = Lib.load img a w :=
  eq_of_bytes fun i hi => by
    have hto := toNat_add_ofNat (a := a) (i := i) (by omega)
    rw [byteOf_load _ _ hi, byteOf_load _ _ hi, BitVec.add_assoc]
    exact h _ (by omega)

theorem add_sub_add (base a x : BitVec n) : base + x - (base + a) = x - a := by
  rw [← BitVec.sub_sub, BitVec.add_comm base x, BitVec.add_sub_cancel]

theorem Window.store (h : Window mem base size img) (a : BitVec n) (v : BitVec (8 * w)) :
    Window (store mem (base + a) w v) base size (Lib.store img a w v) := by
  intro x hx
  unfold Lib.store
  rw [add_sub_add, h x hx]

/-- The place of a byte outside of the window. -/
theorem outside_ne (ha : a.toNat < size) (hy : ¬ Inside base size y) : y ≠ base + a := by
  rintro rfl
  refine hy ?_
  unfold Inside
  rw [BitVec.add_comm, BitVec.add_sub_cancel]
  exact ha

/-- `for(i = start; i < start + count; i++) dest[i] = f(i)`, where `f` may read the memory. -/
def writeUp (mem : BitVec n → BitVec 8) (dest : BitVec n) (f : (BitVec n → BitVec 8) → Nat → BitVec 8) (start : Nat) :
    (count : Nat) → BitVec n → BitVec 8
  | 0 => mem
  | k + 1 =>
      let m := writeUp mem dest f start k
      Function.update m (dest + BitVec.ofNat n (start + k)) (f m (start + k))

/-- The bytes `g start`, .. from `d + start` on. -/
def placed (img : BitVec n → BitVec 8) (d : BitVec n) (start count : Nat) (g : Nat → BitVec 8) : BitVec n → BitVec 8 :=
  fun x => if start ≤ (x - d).toNat ∧ (x - d).toNat < start + count then g (x - d).toNat else img x

theorem placed_succ {g : Nat → BitVec 8} (hn : start + count < 2 ^ n) :
    placed img d start (count + 1) g =
      Function.update (placed img d start count g) (d + BitVec.ofNat n (start + count)) (g (start + count)) := by
  funext x
  by_cases hx : x = d + BitVec.ofNat n (start + count)
  · have hto := add_sub_ofNat d hn
    rw [hx, Function.update_self]
    unfold placed
    rw [hto, if_pos (by omega)]
  · have hne : (x - d).toNat ≠ start + count := fun hc => hx (by
      rw [← hc, BitVec.ofNat_toNat, BitVec.setWidth_eq, BitVec.add_comm, BitVec.sub_add_cancel])
    rw [Function.update_of_ne hx]
    unfold placed
    by_cases hin : start ≤ (x - d).toNat ∧ (x - d).toNat < start + count
    · rw [if_pos hin, if_pos (by omega)]
    · rw [if_neg hin, if_neg (by omega)]

/-- **The loop, in a window**: `f` reads only what is outside of it. -/
theorem Window.writeUp (h : Window mem base size img) (start count : Nat) {f : (BitVec n → BitVec 8) → Nat → BitVec 8}
    {g : Nat → BitVec 8} (hd : d.toNat + start + count ≤ size) (hsize : size ≤ 2 ^ n)
    (hf : ∀ i, start ≤ i → i < start + count → ∀ m, (∀ y, ¬ Inside base size y → m y = mem y) → f m i = g i) :
    Window (writeUp mem (base + d) f start count) base size (placed img d start count g) ∧
      ∀ y, ¬ Inside base size y → Lib.writeUp mem (base + d) f start count y = mem y := by
  induction count with
  | zero =>
      have hnone : placed img d start 0 g = img := by
        funext x
        exact if_neg (by omega)
      rw [hnone]
      exact ⟨h, fun _ _ => rfl⟩
  | succ k ih =>
      obtain ⟨hw, hout⟩ := ih (by omega) fun i h1 h2 => hf i h1 (by omega)
      have hto := toNat_add_ofNat (a := d) (i := start + k) (by omega)
      have hplace : base + d + BitVec.ofNat n (start + k) = base + (d + BitVec.ofNat n (start + k)) :=
        BitVec.add_assoc _ _ _
      have hval := hf (start + k) (by omega) (by omega) _ hout
      refine ⟨fun x hx => ?_, fun y hy => ?_⟩
      · rw [placed_succ (by omega)]
        unfold Lib.writeUp
        dsimp only
        rw [hval, hplace]
        by_cases hxd : x = d + BitVec.ofNat n (start + k)
        · rw [hxd, Function.update_self, Function.update_self]
        · rw [Function.update_of_ne hxd, Function.update_of_ne, hw x hx]
          exact fun hc => hxd (BitVec.add_right_inj base |>.mp hc)
      · unfold Lib.writeUp
        dsimp only
        rw [hplace, Function.update_of_ne (outside_ne (by omega) hy), hout y hy]

end SimpleOS2.Lib
