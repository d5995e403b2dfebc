/-
  File:      SimpleOS2/Exec/ArgumentBlock.lean
  Subject:   THE ARGUMENTS OF A NEW PROGRAM (DoExec of syscalls/SyscallHandler.cpp, the stack setup of
             `ELFExecHandler::CheckAndPrepare`, exec/elf/ELF.cpp).

  `DoExec` copies as many strings as it is told to, each of at most 255 bytes, and `CheckAndPrepare` puts them
  on a stack of 16 pages. Neither adds the sizes up.

  * `doExecArgs`, `doExecPrepare` -- the arguments that `DoExec` takes from the program, and the call of the
    loader with them;
  * `Machine.Keeps`, `checkAndPrepare_cases` -- what the loader keeps up to the stack, on any machine;
  * `BlockFits`, `argument_block_fits` -- what should hold of the stores to the stack pages, and when it does;
  * `many_arguments`.
-/
import SimpleOS2.Exec.ELF
import SimpleOS2.Klib.BoundedMemory

namespace SimpleOS2

open Lib

namespace ELF

/-! ## 1. The arguments that `DoExec` takes -/

/-- A pointer in the memory of the program. `user a` is `none` where a read faults. -/
def userPointer (user : Nat → Option Char) : (n a : Nat) → Option Nat
  | 0, _ => some 0
  | n + 1, a => do
      let b ← user a
      let rest ← userPointer user n (a + 1)
      return b.toNat + 256 * rest

/-- The loop over the arguments of `DoExec`, behind the copy of the pointers. `none` is `ThreadExit(1)`. What
    `kpathcpy_usersafe` leaves in a buffer of 256 bytes is the string, if it has at most 255 with its NUL. -/
def doExecArgs (user : Nat → Option Char) (argv : Nat) (argc : Int) : Option (List (List Nat)) :=
  let count := (argc * 8 % 2 ^ 64).toNat
  let c := kmemcpyUsersafe (fun j => (user (argv + j)).isSome) (fun _ => 0) argv (fun _ => 0) 0 count
  if c.1 = false then none
  else (List.range argc.toNat).mapM fun i => do
    let p ← userPointer user 8 (argv + 8 * i)
    let a ← Bounded.userText (fun j => user (p + j)) 255 0
    return a.map Char.toNat

section Loader

variable {σ P : Type} {M : Machine σ P}

/-- `DoExec` from there to the answer of the loader, with the arguments that were passed. -/
def doExecPrepare (M : Machine σ P) (user : Nat → Option Char) (argv : Nat) (argc : Int) (s : σ) :
    Option (List (List Nat) × σ × Option Registers) :=
  (doExecArgs user argv argc).bind fun args => (checkAndPrepare M args s).map fun r => (args, r)

/-! ## 2. Up to the stack, on any machine -/

/-- What the reads keep, and with a pointer in use the mapping of pages and the stores. -/
structure Machine.Keeps (M : Machine σ P) (I : σ → Prop) (J : σ → P → Prop) : Prop where
  load : ∀ s o, I s → I (M.load s o).1
  loadAt : ∀ s p o, J s p → J (M.load s o).1 p
  start : ∀ s, I s → J s M.nullptr
  mapPage : ∀ s p v r, J s p → v < 2 ^ 64 → v % 4096 = 0 → M.mapPage s v = some r → J r.1 r.2
  store : ∀ s p (o : Nat) v, J s p → o < 4096 → J (M.store s p o v) p
  leave : ∀ s p, J s p → I s

section Keeps

variable {I : σ → Prop} {J : σ → P → Prop}

theorem readBytes_keeps (hk : M.Keeps I J) (n offs : Nat) {s : σ} (hs : I s) : I (readBytes M n offs s).1 := by
  induction n generalizing offs s with
  | zero => exact hs
  | succ n ih => exact ih (offs + 1) (hk.load s _ hs)

theorem magicFrom_keeps (hk : M.Keeps I J) (bs : List Nat) (offs : Nat) {s : σ} (hs : I s) :
    I (magicFrom M bs offs s).1 := by
  induction bs generalizing offs s with
  | nil => exact hs
  | cons b bs ih =>
      have hload := hk.load s offs hs
      unfold magicFrom
      dsimp only
      split
      · exact hload
      · exact ih (offs + 1) hload

theorem enterPage_keeps (hk : M.Keeps I J) {addr : Nat} {c c' : σ × Cursor P} (haddr : addr < 2 ^ 64)
    (hc : J c.1 c.2.lastPageBuffer) (hr : enterPage M addr c = some c') : J c'.1 c'.2.lastPageBuffer := by
  unfold enterPage at hr
  dsimp only at hr
  split_ifs at hr
  · obtain ⟨r, hmap, rfl⟩ := Option.map_eq_some_iff.mp hr
    exact hk.mapPage c.1 _ _ r hc (by omega) (by omega) hmap
  · obtain rfl := Option.some.inj hr
    exact hc

theorem copyByte_keeps (hk : M.Keeps I J) {g : ElfSegmentHeader} {i : Nat} {c c' : σ × Cursor P}
    (hc : J c.1 c.2.lastPageBuffer) (hr : copyByte M g i c = some c') : J c'.1 c'.2.lastPageBuffer := by
  obtain ⟨q, hq, rfl⟩ := Option.map_eq_some_iff.mp hr
  have hin := enterPage_keeps hk (Nat.mod_lt _ (by decide)) hc hq
  exact hk.store _ _ _ _ (hk.loadAt _ _ _ hin) (Nat.mod_lt _ (by decide))

theorem zeroByte_keeps (hk : M.Keeps I J) {g : ElfSegmentHeader} {i : Nat} {c c' : σ × Cursor P}
    (hc : J c.1 c.2.lastPageBuffer) (hr : zeroByte M g i c = some c') : J c'.1 c'.2.lastPageBuffer := by
  obtain ⟨q, hq, rfl⟩ := Option.map_eq_some_iff.mp hr
  have hin := enterPage_keeps hk (Nat.mod_lt _ (by decide)) hc hq
  exact hk.store _ _ _ _ hin (Nat.mod_lt _ (by decide))

theorem copySegment_keeps (hk : M.Keeps I J) {g : ElfSegmentHeader} {s s' : σ} (hs : I s)
    (hr : copySegment M g s = some s') : I s' := by
  obtain ⟨c, hc, rfl⟩ := Option.map_eq_some_iff.mp hr
  obtain ⟨c1, h1, h2⟩ := Option.bind_eq_some_iff.mp hc
  have hcopied : J c1.1 c1.2.lastPageBuffer :=
    forLoop_keeps (B := fun c : σ × Cursor P => J c.1 c.2.lastPageBuffer) (fun _ _ _ => copyByte_keeps hk)
      (hk.start s hs) h1
  exact hk.leave _ _ (forLoop_keeps (B := fun c : σ × Cursor P => J c.1 c.2.lastPageBuffer)
    (fun _ _ _ => zeroByte_keeps hk) hcopied h2)

theorem readSegment_keeps (hk : M.Keeps I J) (t o : Nat) {s : σ} (hs : I s) : I (readSegment M t o s).1 := by
  have h1 := readBytes_keeps hk 8 (o + 8) hs
  unfold readSegment
  dsimp only
  generalize readBytes M 8 (o + 8) s = r1 at h1 ⊢
  have h2 := readBytes_keeps hk 8 (o + 16) h1
  generalize readBytes M 8 (o + 16) r1.1 = r2 at h2 ⊢
  have h3 := readBytes_keeps hk 8 (o + 32) h2
  generalize readBytes M 8 (o + 32) r2.1 = r3 at h3 ⊢
  exact readBytes_keeps hk 8 (o + 40) h3

theorem prepareSegment_keeps (hk : M.Keeps I J) {o k : Nat} {r r' : σ × ELFProgramInfo} (hs : I r.1)
    (hr : prepareSegment M o k r = some r') : I r'.1 := by
  have htype := readBytes_keeps hk 4 (o + sizeofSegment * k) hs
  unfold prepareSegment at hr
  dsimp only at hr
  generalize readBytes M 4 (o + sizeofSegment * k) r.1 = t at hr htype
  split_ifs at hr
  · obtain ⟨q, hq, rfl⟩ := Option.map_eq_some_iff.mp hr
    exact copySegment_keeps hk (readSegment_keeps hk _ _ htype) hq
  · obtain rfl := Option.some.inj hr
    exact htype

/-- **The loader, up to the stack**: it refuses the file for its magic number, or it comes to the stack. -/
theorem checkAndPrepare_cases (hk : M.Keeps I J) {argv : List (List Nat)} {s : σ} {r : σ × Option Registers}
    (hs : I s) (hr : checkAndPrepare M argv s = some r) :
    ((magicFrom M magic 0 s).2 = false ∧ I r.1 ∧ r.2 = none) ∨
      ((magicFrom M magic 0 s).2 = true ∧ ∃ info u w entryPoint, I u ∧ prepareStack M argv info u = some w ∧
        r = (w.1, some (startRegs entryPoint w.2))) := by
  have hmagic := magicFrom_keeps hk magic 0 hs
  unfold checkAndPrepare at hr
  dsimp only at hr
  generalize magicFrom M magic 0 s = m at hr hmagic ⊢
  cases hm : m.2 with
  | false =>
      rw [if_pos hm] at hr
      obtain rfl := Option.some.inj hr
      exact Or.inl ⟨rfl, hmagic, rfl⟩
  | true =>
      rw [if_neg (by rw [hm]; decide)] at hr
      obtain ⟨q, hq, hr⟩ := Option.bind_eq_some_iff.mp hr
      obtain ⟨w, hw, rfl⟩ := Option.map_eq_some_iff.mp hr
      have hcount := readBytes_keeps hk 2 56 (readBytes_keeps hk 8 32 hmagic)
      have hsegments : I q.1 := forLoop_keeps (B := fun r : σ × ELFProgramInfo => I r.1)
        (fun _ _ _ => prepareSegment_keeps hk) hcount hq
      exact Or.inr ⟨rfl, q.2, _, w, _, readBytes_keeps hk 8 24 hsegments, hw, rfl⟩

end Keeps

/-! ## 3. The stores to the stack pages -/

/-- Every store to the stack pages is inside them. -/
def StoresInside (s : σ × List Access) : Prop :=
  ∀ offs, Access.write .stack offs ∈ s.2 → 0 ≤ offs ∧ offs < 16 * 4096

/-- **What should hold of the argument block**: the stores are inside, and arguments that do not fit are refused before
    one is made. -/
structure BlockFits (args : List (List Nat)) (r : (σ × List Access) × Option Registers) : Prop where
  inside : StoresInside r.1
  refused : 16 * 4096 < argsSize args → r.2 = none ∧ ∀ offs, Access.write .stack offs ∉ r.1.2

variable {buffer : List UInt8}

/-- Nothing is stored to the stack. -/
def NoStack (s : σ × List Access) : Prop := ∀ offs, Access.write .stack offs ∉ s.2

theorem traced_noStack : (traced buffer M).Keeps NoStack fun s p => NoStack s ∧ p.2 ≠ .stack where
  load s o h := fun offs hmem => by
    rcases List.mem_cons.mp hmem with he | hmem
    · cases he
    · exact h offs hmem
  loadAt s p o h := by
    refine ⟨fun offs hmem => ?_, h.2⟩
    rcases List.mem_cons.mp hmem with he | hmem
    · cases he
    · exact h.1 offs hmem
  start s h := ⟨h, fun he => by cases he⟩
  mapPage s p v r h _ _ hr := by
    obtain ⟨q, -, rfl⟩ := Option.map_eq_some_iff.mp hr
    exact ⟨h.1, fun he => by cases he⟩
  store s p o v h _ := by
    refine ⟨fun offs hmem => ?_, h.2⟩
    rcases List.mem_cons.mp hmem with he | hmem
    · injection he with he
      exact h.2 he.symm
    · exact h.1 offs hmem
  leave s p h := h.1

/-- With room on the stack all stores are inside, and without it one is not. -/
theorem prepareStack_inside {args : List (List Nat)} {info : ELFProgramInfo} {s : σ × List Access}
    {w : (σ × List Access) × Nat} (hs : NoStack s) (hw : prepareStack (traced buffer M) args info s = some w) :
    StoresInside w.1 ↔ argsSize args ≤ 16 * 4096 := by
  constructor
  · intro h
    have hlow := (h _ (prepareStack_lowest hw)).1
    omega
  · intro hroom
    obtain ⟨a, t, ha, ht, hkeeps⟩ := prepareStack_keeps hw
    obtain ⟨a', -, rfl⟩ := Option.map_eq_some_iff.mp ha
    have hmap : t.2 = s.2 := by
      refine forLoop_keeps (B := fun t : σ × List Access => t.2 = s.2) (s := (a'.1, s.2)) (fun i x y hx hy => ?_) rfl ht
      obtain ⟨z, -, rfl⟩ := Option.map_eq_some_iff.mp hy
      exact hx
    refine hkeeps StoresInside (fun o => 0 ≤ o ∧ o < 16 * 4096) (fun u o v ho h offs hmem => ?_)
      (fun o h1 h2 => ⟨by omega, h2⟩) fun offs hmem => absurd (hmap ▸ hmem) (hs offs)
    rcases List.mem_cons.mp hmem with he | hmem
    · injection he with _ he
      rw [he]
      exact ho
    · exact h offs hmem

theorem noStack_nil (s : σ) : NoStack ((s, []) : σ × List Access) := fun _ => List.not_mem_nil

/-- **A run of the loader**: it refuses the file for its magic number with nothing on the stack, or accepts it with any
    arguments, and then it matters whether they fit. -/
theorem loader_cases {args : List (List Nat)} {s : σ} {r : (σ × List Access) × Option Registers}
    (hr : checkAndPrepare (traced buffer M) args (s, []) = some r) :
    ((magicFrom (traced buffer M) magic 0 (s, [])).2 = false ∧ NoStack r.1 ∧ r.2 = none) ∨
      ((magicFrom (traced buffer M) magic 0 (s, [])).2 = true ∧ r.2 ≠ none ∧
        (StoresInside r.1 ↔ argsSize args ≤ 16 * 4096)) := by
  rcases checkAndPrepare_cases traced_noStack (noStack_nil s) hr with h | ⟨hm, info, u, w, e, hu, hw, rfl⟩
  · exact Or.inl h
  · exact Or.inr ⟨hm, Option.some_ne_none _, prepareStack_inside hu hw⟩

/-- **When the block fits**: the file is not an ELF file, or the strings, the pointers and the structure together fit on
    the stack. Nothing else keeps the stores inside, and nothing is refused for its size. -/
theorem argument_block_fits (M : Machine σ P) (buffer : List UInt8) (user : Nat → Option Char) (argv : Nat)
    (argc : Int) (s : σ) (args : List (List Nat)) (r : (σ × List Access) × Option Registers)
    (h : doExecPrepare (traced buffer M) user argv argc (s, []) = some (args, r)) :
    (StoresInside r.1 ↔ (magicFrom (traced buffer M) magic 0 (s, [])).2 = false ∨ argsSize args ≤ 16 * 4096) ∧
      (BlockFits args r ↔ (magicFrom (traced buffer M) magic 0 (s, [])).2 = false ∨ argsSize args ≤ 16 * 4096) := by
  obtain ⟨args', -, h⟩ := Option.bind_eq_some_iff.mp h
  obtain ⟨r', hr, he⟩ := Option.map_eq_some_iff.mp h
  cases he
  rcases loader_cases hr with ⟨hm, hno, hnone⟩ | ⟨hm, hsome, hiff⟩
  · exact ⟨iff_of_true (fun offs hmem => absurd hmem (hno offs)) (Or.inl hm),
      iff_of_true ⟨fun offs hmem => absurd hmem (hno offs), fun _ => ⟨hnone, hno⟩⟩ (Or.inl hm)⟩
  · have hfalse : ¬ (magicFrom (traced buffer M) magic 0 (s, [])).2 = false := by
      rw [hm]
      decide
    rw [or_iff_right hfalse]
    refine ⟨hiff, fun h => hiff.mp h.inside, fun hroom => ⟨hiff.mpr hroom, fun hlarge => ?_⟩⟩
    exact absurd hroom (Nat.not_le_of_lt hlarge)

end Loader

section Examples

/-- 58400 bytes from 0x1000 on: pointers to 0x1000, where the first byte is a NUL. -/
def samePointers : Nat → Option Char := fun a =>
  if 0x1000 ≤ a ∧ a < 0x1000 + 58400 then some (if a % 8 = 1 then '\x10' else '\x00') else none

theorem idle_returns : idle.Returns :=
  ⟨fun _ _ => Option.some_ne_none _, fun _ _ => Option.some_ne_none _, fun _ _ _ => Option.some_ne_none _⟩

/-- Two empty strings. -/
theorem argument_block_fits_two : ∃ r, doExecPrepare (traced goodImage idle) samePointers 0x1000 2 ((), []) =
    some ([[], []], r) ∧ BlockFits [[], []] r := by
  have hret : (traced goodImage idle).Returns := traced_returns idle_returns
  obtain ⟨r, hr⟩ := checkAndPrepare_returns hret [[], []] ((), [])
  have hargs : doExecArgs samePointers 0x1000 2 = some [[], []] := by decide
  have hrun : doExecPrepare (traced goodImage idle) samePointers 0x1000 2 ((), []) = some ([[], []], r) := by
    rw [doExecPrepare, hargs, Option.bind_some, hr]
    rfl
  exact ⟨r, hrun, (argument_block_fits idle goodImage samePointers 0x1000 2 () _ r hrun).2.mpr (Or.inr (by decide))⟩

theorem samePointers_at {i k : Nat} (hi : i < 7300) (hk : k < 8) :
    samePointers (0x1000 + 8 * i + k) = some (if k = 1 then '\x10' else '\x00') := by
  have hmod : (0x1000 + 8 * i + k) % 8 = k := by omega
  unfold samePointers
  rw [if_pos (by omega), hmod]

/-- The bytes of a pointer behind the second one. -/
theorem samePointers_high {i : Nat} (hi : i < 7300) (n k : Nat) (hk : k + n = 8) (h2 : 2 ≤ k) :
    userPointer samePointers n (0x1000 + 8 * i + k) = some 0 := by
  induction n generalizing k with
  | zero => rfl
  | succ n ih =>
      have hbyte := samePointers_at hi (show k < 8 by omega)
      rw [if_neg (by omega)] at hbyte
      rw [userPointer, hbyte, Nat.add_assoc (0x1000 + 8 * i) k 1, ih (k + 1) (by omega) (by omega)]
      rfl

theorem samePointers_pointer {i : Nat} (hi : i < 7300) : userPointer samePointers 8 (0x1000 + 8 * i) = some 0x1000 := by
  have h0 : samePointers (0x1000 + 8 * i) = some '\x00' := samePointers_at hi (show 0 < 8 by decide)
  have h1 : samePointers (0x1000 + 8 * i + 1) = some '\x10' := samePointers_at hi (show 1 < 8 by decide)
  rw [userPointer, userPointer, h0, h1, Nat.add_assoc (0x1000 + 8 * i) 1 1, samePointers_high hi 6 2 rfl le_rfl]
  rfl

theorem mapM_const {f : Nat → Option (List Nat)} {a : List Nat} (l : List Nat) (h : ∀ i ∈ l, f i = some a) :
    l.mapM f = some (List.replicate l.length a) := by
  induction l with
  | nil => rfl
  | cons i l ih =>
      rw [List.mapM_cons, h i List.mem_cons_self, ih fun j hj => h j (List.mem_cons_of_mem _ hj)]
      rfl

theorem samePointers_args : doExecArgs samePointers 0x1000 7300 = some (List.replicate 7300 []) := by
  have hcount : ((7300 : Int) * 8 % 2 ^ 64).toNat = 58400 := by decide
  have hok : (kmemcpyUsersafe (fun j => (samePointers (0x1000 + j)).isSome) (fun _ => 0) 0x1000 (fun _ => 0) 0
      58400).1 = true := by
    refine (kmemcpyUsersafe_ok _ _).mpr fun j hj => ?_
    unfold samePointers
    rw [if_pos (by omega)]
    rfl
  unfold doExecArgs
  dsimp only
  rw [hcount, if_neg (by rw [hok]; decide), mapM_const _ fun i hi => ?_]
  · rw [List.length_range]
    rfl
  · have hp := samePointers_pointer (List.mem_range.mp hi)
    rw [hp]
    rfl

/-- **7300 empty strings** need 65732 bytes, and the program is started. -/
theorem many_arguments : ∃ args r,
    doExecPrepare (traced goodImage idle) samePointers 0x1000 7300 ((), []) = some (args, r) ∧
    argsSize args = 65732 ∧ r.2 ≠ none ∧ ¬ StoresInside r.1 ∧ ¬ BlockFits args r := by
  have hret : (traced goodImage idle).Returns := traced_returns idle_returns
  obtain ⟨r, hr⟩ := checkAndPrepare_returns hret (List.replicate 7300 []) ((), [])
  have hsize : argsSize (List.replicate 7300 []) = 65732 := by
    unfold argsSize
    rw [List.map_replicate, List.sum_replicate_nat, List.length_replicate]
    rfl
  rcases loader_cases hr with ⟨hm, -, -⟩ | ⟨-, hsome, hiff⟩
  · cases hm
  · have hout : ¬ StoresInside r.1 := fun h => by
      have hle := hiff.mp h
      rw [hsize] at hle
      exact absurd hle (by decide)
    refine ⟨_, r, ?_, hsize, hsome, hout, fun h => hout h.inside⟩
    rw [doExecPrepare, samePointers_args, Option.bind_some, hr]
    rfl

end Examples

end ELF

end SimpleOS2
