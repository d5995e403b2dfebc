/-
  File:      SimpleOS2/Klib/BoundedMemory.lean
  Subject:   KLIB ON A BUFFER OF THE KERNEL'S STACK (klib/memory.cpp, klib/string.cpp, klib/memory.asm).

  The buffer has `size` bytes; what stands behind them belongs to somebody else, and a function that
  reads or writes there has no result here.

  * `kmemcpy`, `kmemmove`, `kstrlen`, `kstrcmp`, `kpathcpyUsersafe` -- the functions of the source inside one buffer;
  * `Text` -- a string and its `'\0'` stand in the buffer;
  * `kmemcpy_eq`, `kmemcpy_out` -- a copy towards the front is right, and stays inside exactly where its source does.
-/
import SimpleOS2.Lib.Buffer

namespace SimpleOS2

namespace Bounded

open Lib

/-! ## 1. Copies -/

/-- `kmemcpyq`: `rep movsq`, eight bytes at a time. -/
def kmemcpyq (size : Nat) : (count : Nat) → (b : Nat → Char) → (dest src : Nat) → Option (Nat → Char)
  | 0, b, _, _ => some b
  | count + 1, b, dest, src => do
      let q ← rdList size b 8 src
      let b ← wrList size q b dest
      kmemcpyq size count b (dest + 8) (src + 8)

/-- `kmemcpyb`: `rep movsb`. -/
def kmemcpyb (size count : Nat) (b : Nat → Char) (dest src : Nat) : Option (Nat → Char) :=
  copyUp size count b dest src

/-- `kmemcpy`. -/
def kmemcpy (size : Nat) (b : Nat → Char) (dest src n : Nat) : Option (Nat → Char) := do
  let numq := n / 8
  let b ← kmemcpyq size numq b dest src
  let rem := n % 8
  kmemcpyb size rem b (dest + numq * 8) (src + numq * 8)

/-- `kmemmove`. -/
def kmemmove (size : Nat) (b : Nat → Char) (dest src n : Nat) : Option (Nat → Char) :=
  if dest = src then some b
  else if dest < src then kmemcpy size b dest src n
  else copyDown size n b dest src

section Copies

variable {size dest src n count : Nat} {b : Nat → Char}

theorem kmemcpyq_eq (h : dest ≤ src) (hs : src + count * 8 ≤ size) :
    kmemcpyq size count b dest src = some (moved b dest src (count * 8)) := by
  induction count generalizing b dest src with
  | zero =>
      rw [Nat.zero_mul, moved_zero]
      rfl
  | succ count ih =>
      have hq : (rdList size b 8 src).bind (fun q => wrList size q b dest) = some (moved b dest src 8) :=
        rdList_wrList (by omega) (by omega)
      have hstep : kmemcpyq size (count + 1) b dest src =
          ((rdList size b 8 src).bind fun q => wrList size q b dest).bind
            fun b => kmemcpyq size count b (dest + 8) (src + 8) := (Option.bind_assoc _ _ _).symm
      rw [hstep, hq]
      show kmemcpyq size count (moved b dest src 8) (dest + 8) (src + 8) = _
      rw [ih (by omega) (by omega), moved_up h, Nat.succ_mul, Nat.add_comm 8]

theorem kmemcpyq_out (h : dest ≤ src) (hs : size < src + count * 8) (h0 : 0 < count) :
    kmemcpyq size count b dest src = none := by
  induction count generalizing b dest src with
  | zero => exact absurd h0 (Nat.lt_irrefl 0)
  | succ count ih =>
      rw [kmemcpyq]
      by_cases hin : src + 8 ≤ size
      · rw [rdList_in 8 src hin]
        have hlen : dest + ((List.range 8).map fun k => b (src + k)).length ≤ size := by
          rw [List.length_map, List.length_range]
          exact Nat.le_trans (Nat.add_le_add_right h 8) hin
        obtain ⟨b', hw, -⟩ := wrList_eq _ b dest hlen
        show (wrList size ((List.range 8).map fun k => b (src + k)) b dest).bind
          (fun b => kmemcpyq size count b (dest + 8) (src + 8)) = none
        rw [hw]
        exact ih (by omega) (by omega) (by omega)
      · rw [rdList_out 8 src (Nat.lt_of_not_le hin) (by omega)]
        rfl

/-- A copy towards the front of the buffer. The eight bytes of a step are read before they are written. -/
theorem kmemcpy_eq (h : dest ≤ src) (hs : src + n ≤ size) : kmemcpy size b dest src n = some (moved b dest src n) := by
  have hn : n / 8 * 8 + n % 8 = n := Nat.div_add_mod' n 8
  unfold kmemcpy
  dsimp only
  rw [kmemcpyq_eq h (by omega)]
  show copyUp size (n % 8) (moved b dest src (n / 8 * 8)) (dest + n / 8 * 8) (src + n / 8 * 8) = _
  rw [copyUp_eq (by omega) (by omega), moved_up h, hn]

/-- One whose source does not end inside the buffer. -/
theorem kmemcpy_out (h : dest ≤ src) (hs : size < src + n) (h0 : 0 < n) : kmemcpy size b dest src n = none := by
  have hn : n / 8 * 8 + n % 8 = n := Nat.div_add_mod' n 8
  unfold kmemcpy
  dsimp only
  by_cases hq : src + n / 8 * 8 ≤ size
  · rw [kmemcpyq_eq h hq]
    exact copyUp_out (by omega) (by omega) (by omega)
  · by_cases hz : n / 8 = 0
    · rw [hz] at hn ⊢
      exact copyUp_out (by omega) (by omega) (by omega)
    · rw [kmemcpyq_out h (by omega) (by omega)]
      rfl

/-- A move towards the end. -/
theorem kmemmove_eq (h : src < dest) (hd : dest + n ≤ size) :
    kmemmove size b dest src n = some (moved b dest src n) := by
  unfold kmemmove
  rw [if_neg (Nat.ne_of_gt h), if_neg (Nat.not_lt.mpr (Nat.le_of_lt h))]
  exact copyDown_eq (Nat.le_of_lt h) hd

end Copies

/-! ## 2. Strings -/

/-- The loop of `kstrlen`. -/
def kstrlenLoop (size : Nat) (b : Nat → Char) (a : Nat) : (fuel l : Nat) → Option Nat
  | 0, _ => none
  | fuel + 1, l => do
      let c ← rd size b (a + l)
      if c = '\x00' then some l else kstrlenLoop size b a fuel (l + 1)

/-- `kstrlen`. The loop has left the buffer after `size` rounds. -/
def kstrlen (size : Nat) (b : Nat → Char) (a : Nat) : Option Nat := kstrlenLoop size b a (size + 1) 0

/-- `kstrcmp` with a literal: whether it answers 0. -/
def kstrcmp (size : Nat) (b : Nat → Char) : (a : Nat) → (literal : List Char) → Option Bool
  | a, [] => do
      let c ← rd size b a
      return decide (c = '\x00')
  | a, x :: literal => do
      let c ← rd size b a
      if c = x then kstrcmp size b (a + 1) literal else return false

/-- The string stands in the buffer from `a` on. -/
def Text (b : Nat → Char) (a : Nat) (s : List Char) : Prop := Holds b a s ∧ b (a + s.length) = '\x00' ∧ '\x00' ∉ s

section Strings

variable {size a : Nat} {b b' : Nat → Char} {c : Char} {s literal : List Char}

theorem Text.congr (h : Text b a s) (he : ∀ i, a ≤ i → i ≤ a + s.length → b' i = b i) : Text b' a s :=
  ⟨h.1.congr fun i h1 h2 => he i h1 (Nat.le_of_lt h2), (he _ (Nat.le_add_right _ _) (Nat.le_refl _)).trans h.2.1, h.2.2⟩

theorem Text.tail (h : Text b a (c :: s)) : Text b (a + 1) s := by
  refine ⟨h.1.2, ?_, fun hm => h.2.2 (List.mem_cons_of_mem _ hm)⟩
  have hend := h.2.1
  rwa [List.length_cons, Nat.add_comm s.length, ← Nat.add_assoc] at hend

theorem Text.head (h : Text b a (c :: s)) : b a = c ∧ c ≠ '\x00' :=
  ⟨h.1.1, fun hc => h.2.2 (hc ▸ List.mem_cons_self)⟩

theorem kstrlenLoop_eq {l fuel : Nat} (h : Text b (a + l) s) (hin : a + l + s.length < size) (hf : s.length < fuel) :
    kstrlenLoop size b a fuel l = some (l + s.length) := by
  induction s generalizing l fuel with
  | nil =>
      cases fuel with
      | zero => exact absurd hf (Nat.not_lt_zero _)
      | succ fuel =>
          have hend : b (a + l) = '\x00' := h.2.1
          rw [kstrlenLoop, rd_in (by simpa using hin), hend]
          rfl
  | cons c s ih =>
      cases fuel with
      | zero => exact absurd hf (Nat.not_lt_zero _)
      | succ fuel =>
          rw [List.length_cons] at hin hf
          rw [kstrlenLoop, rd_in (by omega), h.head.1]
          show (if c = '\x00' then some l else kstrlenLoop size b a fuel (l + 1)) = _
          rw [if_neg h.head.2, ih h.tail (by omega) (by omega), List.length_cons]
          exact congrArg some (by omega)

theorem kstrlen_eq (h : Text b a s) (hin : a + s.length < size) : kstrlen size b a = some s.length := by
  unfold kstrlen
  rw [kstrlenLoop_eq (l := 0) h hin (by omega), Nat.zero_add]

theorem kstrcmp_eq (h : Text b a s) (hin : a + s.length < size) (h0 : '\x00' ∉ literal) :
    kstrcmp size b a literal = some (decide (s = literal)) := by
  induction literal generalizing a s with
  | nil =>
      cases s with
      | nil =>
          have hend : b a = '\x00' := h.2.1
          rw [kstrcmp, rd_in (by simpa using hin), hend]
          rfl
      | cons c s =>
          rw [kstrcmp, rd_in (by omega), h.head.1]
          exact congrArg some (decide_eq_decide.mpr ⟨fun hc => absurd hc h.head.2, fun hs => by cases hs⟩)
  | cons x literal ih =>
      cases s with
      | nil =>
          have hend : b a = '\x00' := h.2.1
          have hx : '\x00' ≠ x := fun he => h0 (he ▸ List.mem_cons_self)
          rw [kstrcmp, rd_in (by simpa using hin), hend]
          show (if '\x00' = x then kstrcmp size b (a + 1) literal else some false) = _
          rw [if_neg hx]
          rfl
      | cons c s =>
          rw [List.length_cons] at hin
          rw [kstrcmp, rd_in (by omega), h.head.1]
          show (if c = x then kstrcmp size b (a + 1) literal else some false) = _
          by_cases hc : c = x
          · rw [if_pos hc, ih h.tail (by omega) fun hm => h0 (List.mem_cons_of_mem _ hm)]
            exact congrArg some (decide_eq_decide.mpr ⟨fun hs => by rw [hc, hs], fun hs => (List.cons.inj hs).2⟩)
          · rw [if_neg hc]
            exact congrArg some (decide_eq_false fun hs => hc (List.cons.inj hs).1).symm

end Strings

/-! ## 3. The path of a program -/

/-- The loop of `_kpathcpy_usersafe`: `rcx` rounds are left. `user i` is `none` where the read faults. -/
def kpathcpyLoop (size : Nat) (user : Nat → Option Char) :
    (rcx i : Nat) → (b : Nat → Char) → Option (Bool × (Nat → Char))
  | 0, _, b => some (false, b)
  | rcx + 1, i, b =>
      match user i with
      | none => some (false, b)
      | some c => do
          let b ← wr size b i c
          if c = '\x00' then some (true, b) else kpathcpyLoop size user rcx (i + 1) b

/-- `_kpathcpy_usersafe`. -/
def kpathcpyUsersafe (size : Nat) (user : Nat → Option Char) (b : Nat → Char) : Option (Bool × (Nat → Char)) :=
  kpathcpyLoop size user 255 0 b

/-- The string at the program's address, if its `'\0'` is one of the next `n` bytes and all up to it can be read. -/
def userText (user : Nat → Option Char) : (n i : Nat) → Option (List Char)
  | 0, _ => none
  | n + 1, i =>
      match user i with
      | none => none
      | some c => if c = '\x00' then some [] else (userText user n (i + 1)).map (c :: ·)

section UserText

variable {size : Nat}

theorem userText_bound {user : Nat → Option Char} {n i : Nat} {path : List Char} (h : userText user n i = some path) :
    path.length < n ∧ '\x00' ∉ path := by
  induction n generalizing i path with
  | zero => cases h
  | succ n ih =>
      rw [userText] at h
      cases hu : user i with
      | none =>
          rw [hu] at h
          cases h
      | some c =>
          rw [hu] at h
          dsimp only at h
          split_ifs at h with hc
          · cases h
            exact ⟨Nat.succ_pos n, List.not_mem_nil⟩
          · obtain ⟨rest, hrest, rfl⟩ := Option.map_eq_some_iff.mp h
            obtain ⟨hlen, hnul⟩ := ih hrest
            exact ⟨Nat.succ_lt_succ hlen, fun hm => (List.mem_cons.mp hm).elim (fun he => hc he.symm) hnul⟩

/-- The copy stops at the `'\0'`, or says that there is none. -/
theorem kpathcpyLoop_eq (user : Nat → Option Char) (n i : Nat) (b : Nat → Char) (hin : i + n ≤ size) :
    ∃ b', kpathcpyLoop size user n i b = some ((userText user n i).isSome, b') ∧ (∀ x < i, b' x = b x) ∧
      ∀ path, userText user n i = some path → Text b' i path := by
  induction n generalizing i b with
  | zero => exact ⟨b, rfl, fun _ _ => rfl, fun _ h => by cases h⟩
  | succ n ih =>
      rw [kpathcpyLoop, userText]
      cases hu : user i with
      | none => exact ⟨b, rfl, fun _ _ => rfl, fun _ h => by cases h⟩
      | some c =>
          dsimp only
          rw [wr_in (by omega)]
          by_cases hc : c = '\x00'
          · rw [if_pos hc]
            refine ⟨Function.update b i c, if_pos hc, fun x hx => Function.update_of_ne (Nat.ne_of_lt hx) _ _, ?_⟩
            intro path hpath
            cases hpath
            exact ⟨trivial, (Function.update_self _ _ _).trans hc, List.not_mem_nil⟩
          · rw [if_neg hc, Option.isSome_map]
            obtain ⟨b', hloop, hframe, htext⟩ := ih (i + 1) (Function.update b i c) (by omega)
            refine ⟨b', (if_neg hc).trans hloop, fun x hx => ?_, fun path hpath => ?_⟩
            · rw [hframe x (Nat.lt_succ_of_lt hx), Function.update_of_ne (Nat.ne_of_lt hx)]
            · obtain ⟨rest, hrest, rfl⟩ := Option.map_eq_some_iff.mp hpath
              obtain ⟨hholds, hend, hnul⟩ := htext rest hrest
              refine ⟨⟨?_, hholds⟩, ?_, fun hm => (List.mem_cons.mp hm).elim (fun he => hc he.symm) hnul⟩
              · rw [hframe i (Nat.lt_succ_self i), Function.update_self]
              · rw [List.length_cons, ← Nat.add_assoc, Nat.add_right_comm]
                exact hend

end UserText

end Bounded

end SimpleOS2
