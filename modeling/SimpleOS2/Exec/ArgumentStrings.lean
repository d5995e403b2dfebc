/-
  File:      SimpleOS2/Exec/ArgumentStrings.lean
  Subject:   WHAT A NEW PROGRAM FINDS ON ITS STACK (the stack setup of `ELFExecHandler::CheckAndPrepare`,
             exec/elf/ELF.cpp; `__start`, libsimpleos2/simpleos_startup.cpp).

  The block is written downwards through the kernel's pointer to the stack pages, and the addresses in it are counted
  from the other end of the stack, where the program has the pages mapped. What the segments left at these addresses
  is replaced.

  * `startArgs`, `FindsArguments` -- what `__start` takes from the block, and what should stand in it;
  * `argPointers`, `argStrings`, `Filled`, `pushArgs_filled` -- the bytes that are stored;
  * `Window`, `mapStack_window` -- the stack pages, mapped over whatever was there;
  * `kernel_keeps` -- what any file leaves in order;
  * `arguments_found`.
-/
import SimpleOS2.Exec.LoadedImage
import SimpleOS2.Exec.ArgumentBlock
import SimpleOS2.Lib.ByteString

namespace SimpleOS2

open Lib FreeList

namespace ELF

open MemoryManager

/-! ## 1. What the program finds -/

/-- `argc` and `argv` of the structure at `info`, which `__start` hands to `main`. -/
def startArgs (user : Nat → Option Nat) (info : Nat) : Option (Nat × Nat) := do
  let argc ← leNumber user 4 (info + 16)
  let argv ← leNumber user 8 (info + 24)
  return (argc, argv)

/-- **The block as it should be**: the structure, the array of pointers, and the strings with their terminators. -/
structure FindsArguments (user : Nat → Option Nat) (regs : Registers) (argv : List (List Nat)) (array : Nat)
    (pointers : List Nat) : Prop where
  rdi : regs.rdi = regs.userrsp
  bottom : stackBase ≤ regs.rdi
  mapped : ∀ a, stackBase ≤ a → a < stackBase + 16 * 4096 → user a ≠ none
  info : startArgs user regs.rdi = some (argv.length, array)
  above : regs.rdi + sizeofProgramInfo ≤ array
  entries : ∀ i p, pointers[i]? = some p → leNumber user 8 (array + 8 * i) = some p
  strings : List.Forall₂ (fun a p => BytesAt user p (a ++ [0])) argv pointers
  inside : ∀ x ∈ argv.zip pointers, array + 8 * argv.length ≤ x.2 ∧
    x.2 + (x.1.length + 1) ≤ stackBase + 16 * 4096
  apart : (argv.zip pointers).Pairwise fun x y => x.2 + (x.1.length + 1) ≤ y.2

/-! ## 2. The bytes that are stored -/

/-- The strings, one behind the other. -/
def argStrings (argv : List (List Nat)) : List Nat := argv.flatMap (· ++ [0])

/-- The pointers to them. -/
def argPointers : List (List Nat) → List Nat
  | [] => []
  | a :: argv => stackAddr (argStrings (a :: argv)).length :: argPointers argv

/-- All that is on the stack. -/
def argBlock (argv : List (List Nat)) (info : ELFProgramInfo) : List Nat :=
  let args := (argPointers argv).flatMap (leBytes 8) ++ argStrings argv
  { info with argc := argv.length, argv := stackAddr args.length }.toBytes ++ args

/-- The `bytes` at the end of the stack pages are stored, behind the kernel's pointer `p`. -/
structure Filled (p : Nat) (bytes : List Nat) (t : Stack Mm) : Prop where
  argSize : t.argSize = bytes.length
  virtStack : t.virtStack = 16 * 4096 - bytes.length
  bytes : BytesAt (fun a => some (t.state.mem a)) (p + (16 * 4096 - bytes.length)) bytes

theorem argStrings_cons (a : List Nat) (argv : List (List Nat)) :
    argStrings (a :: argv) = (a ++ [0]) ++ argStrings argv := List.flatMap_cons

theorem length_argPointers (argv : List (List Nat)) : (argPointers argv).length = argv.length := by
  induction argv with
  | nil => rfl
  | cons a argv ih => exact congrArg (· + 1) ih

theorem length_argStrings (argv : List (List Nat)) :
    (argStrings argv).length = (argv.map fun a => a.length + 1).sum := by
  induction argv with
  | nil => rfl
  | cons a argv ih =>
      rw [argStrings_cons, List.length_append, ih, List.length_append, List.length_singleton, List.map_cons,
        List.sum_cons]

theorem length_pointerBytes (l : List Nat) : (l.flatMap (leBytes 8)).length = 8 * l.length := by
  induction l with
  | nil => rfl
  | cons v l ih =>
      rw [List.flatMap_cons, List.length_append, length_leBytes, ih, List.length_cons]
      omega

theorem length_argBlock (argv : List (List Nat)) (info : ELFProgramInfo) :
    (argBlock argv info).length = argsSize argv := by
  unfold argBlock argsSize
  dsimp only
  rw [List.length_append, length_toBytes, List.length_append, length_pointerBytes, length_argPointers,
    length_argStrings]
  omega

/-- **A store of some bytes**: they are there, and nothing else changes. -/
theorem storeBytes_at (p : Nat) (bs : List Nat) (n : Nat) (s : Mm) :
    BytesAt (fun a => some ((storeBytes (kernel [] 0 0) p bs (n : Int) s).mem a)) (p + n) bs ∧
      ∀ a, a < p + n ∨ p + n + bs.length ≤ a → (storeBytes (kernel [] 0 0) p bs (n : Int) s).mem a = s.mem a := by
  induction bs generalizing n s with
  | nil => exact ⟨bytesAt_nil _ _, fun _ _ => rfl⟩
  | cons b bs ih =>
      have hcell : ((p : Int) + (n : Int)).toNat = p + n := by omega
      obtain ⟨hbytes, hframe⟩ := ih (n + 1) ((kernel [] 0 0).store s p (n : Int) b)
      have hstep : storeBytes (kernel [] 0 0) p (b :: bs) (n : Int) s =
          storeBytes (kernel [] 0 0) p bs ((n + 1 : Nat) : Int) ((kernel [] 0 0).store s p (n : Int) b) := rfl
      have hmem : ((kernel [] 0 0).store s p (n : Int) b).mem = Function.update s.mem (p + n) b := by
        rw [← hcell]
        rfl
      rw [hstep]
      refine ⟨(bytesAt_cons b).mpr ⟨?_, ?_⟩, fun a ha => ?_⟩
      · rw [hframe (p + n) (Or.inl (by omega)), hmem, Function.update_self]
      · rw [Nat.add_assoc]
        exact hbytes
      · rw [List.length_cons] at ha
        rw [hframe a (by omega), hmem, Function.update_of_ne (by omega)]

/-- **What is pushed** stands below what is there. -/
theorem Filled.push {p : Nat} {bytes : List Nat} {t : Stack Mm} (h : Filled p bytes t) (bs : List Nat)
    (hroom : bs.length + bytes.length ≤ 16 * 4096) :
    BytesAt (fun a => some ((storeBytes (kernel [] 0 0) p bs (t.virtStack - bs.length) t.state).mem a))
      (p + (16 * 4096 - (bs ++ bytes).length)) (bs ++ bytes) := by
  have hoffs : t.virtStack - (bs.length : Int) = ((16 * 4096 - (bs ++ bytes).length : Nat) : Int) := by
    rw [h.virtStack, List.length_append]
    omega
  rw [hoffs]
  obtain ⟨hnew, hframe⟩ := storeBytes_at p bs (16 * 4096 - (bs ++ bytes).length) t.state
  have hend : p + (16 * 4096 - (bs ++ bytes).length) + bs.length = p + (16 * 4096 - bytes.length) := by
    rw [List.length_append]
    omega
  refine bytesAt_append.mpr ⟨hnew, ?_⟩
  rw [hend] at hframe ⊢
  exact h.bytes.congr fun c hc _ => congrArg some (hframe c (Or.inr hc))

theorem pushString_filled {p : Nat} {bytes : List Nat} {t : Stack Mm} (a : List Nat) (h : Filled p bytes t)
    (hroom : (a ++ [0] ++ bytes).length ≤ 16 * 4096) :
    Filled p (a ++ [0] ++ bytes) (pushString (kernel [] 0 0) p a t) := by
  have hlen : (a ++ [0] ++ bytes).length = a.length + 1 + bytes.length := by
    rw [List.length_append, List.length_append, List.length_singleton]
  have hstore := h.push (a ++ [0]) (by rwa [← List.length_append])
  have hadd : (a ++ [0]).length = a.length + 1 := List.length_append
  rw [hadd] at hstore
  refine ⟨?_, ?_, hstore⟩
  · rw [hlen, ← h.argSize]
    exact Nat.add_comm _ _
  · have := h.virtStack
    rw [hlen]
    unfold pushString
    dsimp only
    omega

theorem pushPointer_filled {p : Nat} {bytes : List Nat} {t : Stack Mm} (v : Nat) (h : Filled p bytes t)
    (hroom : (leBytes 8 v ++ bytes).length ≤ 16 * 4096) :
    Filled p (leBytes 8 v ++ bytes) (pushPointer (kernel [] 0 0) p v t) := by
  have hlen : (leBytes 8 v ++ bytes).length = 8 + bytes.length := by
    rw [List.length_append, length_leBytes]
  have hstore := h.push (leBytes 8 v) (by rwa [← List.length_append])
  rw [length_leBytes] at hstore
  refine ⟨?_, ?_, hstore⟩
  · rw [hlen, ← h.argSize]
    exact Nat.add_comm _ _
  · have := h.virtStack
    rw [hlen]
    unfold pushPointer
    dsimp only
    omega

/-- **The first loop**: the strings, and the pointers to them. -/
theorem pushStrings_filled (p : Nat) (argv : List (List Nat)) (s : Mm)
    (hroom : (argStrings argv).length ≤ 16 * 4096) :
    Filled p (argStrings argv) (argv.foldr (pushString (kernel [] 0 0) p) ⟨s, 16 * 4096, 0, []⟩) ∧
      (argv.foldr (pushString (kernel [] 0 0) p) ⟨s, 16 * 4096, 0, []⟩).userArgv = argPointers argv := by
  induction argv with
  | nil => exact ⟨⟨rfl, rfl, bytesAt_nil _ _⟩, rfl⟩
  | cons a argv ih =>
      rw [argStrings_cons] at hroom
      obtain ⟨hfill, hptrs⟩ := ih (by
        rw [List.length_append] at hroom
        omega)
      have hpush := pushString_filled a hfill hroom
      rw [argStrings_cons]
      refine ⟨hpush, ?_⟩
      have hsize : (List.foldr (pushString (kernel [] 0 0) p) ⟨s, 16 * 4096, 0, []⟩ argv).argSize + (a.length + 1) =
          (argStrings (a :: argv)).length := by
        rw [argStrings_cons]
        exact hpush.argSize
      rw [argPointers, ← hsize, ← hptrs]
      rfl

/-- **Both loops.** -/
theorem pushArgs_filled (p : Nat) (argv : List (List Nat)) (s : Mm) (hroom : argsSize argv ≤ 16 * 4096) :
    Filled p ((argPointers argv).flatMap (leBytes 8) ++ argStrings argv) (pushArgs (kernel [] 0 0) p argv s) := by
  have hsize : argsSize argv = (argStrings argv).length + 8 * (argPointers argv).length + sizeofProgramInfo := by
    rw [length_argStrings, length_argPointers]
    rfl
  obtain ⟨hfill, hptrs⟩ := pushStrings_filled p argv s (by omega)
  unfold pushArgs
  dsimp only
  rw [hptrs]
  generalize argv.foldr (pushString (kernel [] 0 0) p) ⟨s, 16 * 4096, 0, []⟩ = t at hfill
  have hl : 8 * (argPointers argv).length + (argStrings argv).length ≤ 16 * 4096 := by omega
  clear hptrs hsize
  generalize argPointers argv = l at hl ⊢
  induction l with
  | nil => exact hfill
  | cons v l ih =>
      rw [List.length_cons] at hl
      have hpush := pushPointer_filled v (ih (by omega)) (by
        rw [List.length_append, length_leBytes, List.length_append, length_pointerBytes]
        omega)
      rwa [← List.append_assoc] at hpush

/-! ## 3. The bytes are the block -/

theorem ofDigits_leBytes (n v : Nat) : Nat.ofDigits 256 (leBytes n v) = v % 256 ^ n := by
  induction n generalizing v with
  | zero => exact (Nat.mod_one v).symm
  | succ n ih => rw [leBytes, Nat.ofDigits_cons, ih, Nat.pow_succ', Nat.mod_mul]

section Found

variable {user : Nat → Option Nat} {argv : List (List Nat)}

theorem leNumber_leBytes {n v a : Nat} (h : BytesAt user a (leBytes n v)) : leNumber user n a = some (v % 256 ^ n) := by
  have hread := leNumber_eq h
  rwa [length_leBytes, ofDigits_leBytes] at hread

/-- The structure, as `__start` reads it. -/
theorem startArgs_found {p : ELFProgramInfo} {a : Nat} (h : BytesAt user a p.toBytes) :
    startArgs user a = some (p.argc % 256 ^ 4, p.argv % 256 ^ 8) := by
  unfold ELFProgramInfo.toBytes at h
  simp only [bytesAt_append, List.length_append, length_leBytes] at h
  obtain ⟨⟨⟨-, hargc⟩, -⟩, hargv⟩ := h
  unfold startArgs
  rw [leNumber_leBytes hargc, leNumber_leBytes hargv]
  rfl

/-- A user address is counted from the end of the stack. -/
theorem stackAddr_eq {size : Nat} (h : size ≤ 16 * 4096) : stackAddr size = stackBase + (16 * 4096 - size) := by
  unfold stackAddr stackBase u64
  omega

theorem stackAddr_lt (size : Nat) : stackAddr size < 256 ^ 8 := by
  unfold stackAddr u64
  omega

theorem argPointers_lt {i p : Nat} (h : (argPointers argv)[i]? = some p) : p < 256 ^ 8 := by
  induction argv generalizing i with
  | nil => cases h
  | cons a argv ih =>
      cases i with
      | zero =>
          obtain rfl := Option.some.inj h
          exact stackAddr_lt _
      | succ i => exact ih h

/-- **The strings**: each one at its pointer, in order, and none over another. -/
theorem argStrings_found (hroom : (argStrings argv).length ≤ 16 * 4096)
    (h : BytesAt user (stackAddr (argStrings argv).length) (argStrings argv)) :
    List.Forall₂ (fun a p => BytesAt user p (a ++ [0])) argv (argPointers argv) ∧
      (∀ x ∈ argv.zip (argPointers argv), stackAddr (argStrings argv).length ≤ x.2 ∧
        x.2 + (x.1.length + 1) ≤ stackBase + 16 * 4096) ∧
      (argv.zip (argPointers argv)).Pairwise fun x y => x.2 + (x.1.length + 1) ≤ y.2 := by
  induction argv with
  | nil => exact ⟨.nil, fun x hx => absurd hx List.not_mem_nil, .nil⟩
  | cons a argv ih =>
      have hlen : (argStrings (a :: argv)).length = a.length + 1 + (argStrings argv).length := by
        rw [argStrings_cons, List.length_append, List.length_append, List.length_singleton]
      have hnext : stackAddr (argStrings (a :: argv)).length + (a.length + 1) = stackAddr (argStrings argv).length := by
        rw [stackAddr_eq hroom, stackAddr_eq (by omega)]
        omega
      have hend : stackAddr (argStrings argv).length ≤ stackBase + 16 * 4096 := by
        rw [stackAddr_eq (by omega)]
        omega
      have hparts := h
      rw [argStrings_cons, bytesAt_append, ← argStrings_cons, List.length_append, List.length_singleton,
        hnext] at hparts
      obtain ⟨hstrings, hinside, hapart⟩ := ih (by omega) hparts.2
      rw [argPointers, List.zip_cons_cons]
      refine ⟨.cons hparts.1 hstrings, fun x hx => ?_, .cons (fun x hx => ?_) hapart⟩
      · rcases List.mem_cons.mp hx with rfl | hx
        · exact ⟨le_rfl, hnext.trans_le hend⟩
        · have := hinside x hx
          omega
      · exact hnext.trans_le (hinside x hx).1

/-- **The block is found**, where its bytes stand. -/
theorem argBlock_found {info : ELFProgramInfo} {entryPoint : Nat} (hroom : argsSize argv ≤ 16 * 4096)
    (hmapped : ∀ a, stackBase ≤ a → a < stackBase + 16 * 4096 → user a ≠ none)
    (h : BytesAt user (stackAddr (argsSize argv)) (argBlock argv info)) :
    FindsArguments user (startRegs entryPoint (stackAddr (argsSize argv))) argv
      (stackAddr ((argPointers argv).flatMap (leBytes 8) ++ argStrings argv).length) (argPointers argv) := by
  have hstrings := length_argStrings argv
  have hpointers := length_argPointers argv
  have hargs : ((argPointers argv).flatMap (leBytes 8) ++ argStrings argv).length =
      8 * argv.length + (argStrings argv).length := by
    rw [List.length_append, length_pointerBytes, hpointers]
  have hsize : argsSize argv = (argStrings argv).length + 8 * argv.length + sizeofProgramInfo := by
    rw [hstrings]
    rfl
  have hinfo : sizeofProgramInfo = 32 := rfl
  have hsp := stackAddr_eq hroom
  have harray : stackAddr (argsSize argv) + sizeofProgramInfo =
      stackAddr ((argPointers argv).flatMap (leBytes 8) ++ argStrings argv).length := by
    rw [hsp, stackAddr_eq (by omega)]
    omega
  have hfirst : stackAddr ((argPointers argv).flatMap (leBytes 8) ++ argStrings argv).length + 8 * argv.length =
      stackAddr (argStrings argv).length := by
    rw [stackAddr_eq (by omega), stackAddr_eq (by omega)]
    omega
  unfold argBlock at h
  dsimp only at h
  rw [bytesAt_append, length_toBytes, harray, bytesAt_append, length_pointerBytes, hpointers, hfirst] at h
  obtain ⟨hstruct, hentries, hstring⟩ := h
  obtain ⟨hfound, hinside, hapart⟩ := argStrings_found (by omega) hstring
  refine ⟨rfl, ?_, hmapped, ?_, harray.le, fun i p hp => ?_, hfound, fun x hx => ?_, hapart⟩
  · show stackBase ≤ stackAddr (argsSize argv)
    rw [hsp]
    exact Nat.le_add_right _ _
  · refine (startArgs_found hstruct).trans ?_
    dsimp only
    rw [Nat.mod_eq_of_lt (show argv.length < 256 ^ 4 by omega), Nat.mod_eq_of_lt (stackAddr_lt _)]
  · rw [leNumber_leBytes (bytesAt_flatMap (length_leBytes 8) hentries hp), Nat.mod_eq_of_lt (argPointers_lt hp)]
  · rw [hfirst]
    exact hinside x hx

end Found

/-! ## 4. The stack pages -/

section Window

variable {m m' : Mem} {root g n t2 t1 : Nat}

/-- The entry leads to the page `c`. -/
def LeadsTo (m : Mem) (t i c : Nat) : Prop := pmlGetP (entry m t i) = true ∧ pmlGetAddr (entry m t i) = c

/-- The walk to the stack, and its first `n` pages. -/
structure Window (m : Mem) (root g n t2 t1 : Nat) : Prop where
  second : LeadsTo m root 0 t2
  first : LeadsTo m t2 0 t1
  leaves : ∀ i, i < n → entry m t1 (1 + i) = pmlEntry (g + i * 4096)

/-- The tables on the way are not among the pages that are mapped, and the last one is none of the others. -/
structure OffStack (root g t2 t1 : Nat) : Prop where
  aligned : 4096 ∣ root ∧ 4096 ∣ t2 ∧ 4096 ∣ t1
  frames : 4096 ∣ g ∧ g + 0x10000 ≤ 2 ^ 39
  last : t1 ≠ root ∧ t1 ≠ t2
  outside : ¬ InRun g 16 root ∧ ¬ InRun g 16 t2 ∧ ¬ InRun g 16 t1

theorem stack_indices {i : Nat} (hi : i < 16) : getPml3Index (stackBase + i * 4096) = 0 ∧
    getPml2Index (stackBase + i * 4096) = 0 ∧ getPml1Index (stackBase + i * 4096) = 1 + i := by
  unfold getPml3Index getPml2Index getPml1Index stackBase
  rw [getPmlIndex_eq, getPmlIndex_eq, getPmlIndex_eq]
  omega

theorem stack_leafPath {i : Nat} (hi : i < 16) : leafPath (stackBase + i * 4096) = [0, 0, 1 + i] := by
  obtain ⟨h3, h2, h1⟩ := stack_indices hi
  unfold leafPath walkPath
  rw [h3, h2, h1]
  rfl

theorem follow_cons {c i : Nat} {π : List Nat} {t : Nat} (h : LeadsTo m t i c) :
    follow m (i :: π) t = follow m π c := by
  rw [follow, if_pos h.1, h.2]

/-- **A turn of the loop** finds the tables, and overwrites the entry. -/
theorem mapProcessPage_window {k e phys : Nat} {s : Mm} (he : pmlGetAddr e = root) (hn : n < 16)
    (h2 : LeadsTo s.mem root 0 t2) (h1 : LeadsTo s.mem t2 0 t1) :
    mapProcessPage k s e phys (stackBase + n * 4096) = some (setEntry s t1 (1 + n) (pmlEntry phys)) := by
  obtain ⟨i3, i2, i1⟩ := stack_indices hn
  unfold mapProcessPage walkTables nextTable
  rw [he, i3, i2, i1, if_pos h2.1, Option.bind_some]
  dsimp only
  rw [h2.2, if_pos h1.1, h1.2]
  rfl

theorem Window.congr (h : Window m root g n t2 t1) (hroot : entry m' root 0 = entry m root 0)
    (h2 : entry m' t2 0 = entry m t2 0) (h1 : ∀ i, i < n → entry m' t1 (1 + i) = entry m t1 (1 + i)) :
    Window m' root g n t2 t1 := by
  refine ⟨?_, ?_, fun i hi => (h1 i hi).trans (h.leaves i hi)⟩
  · unfold LeadsTo
    rw [hroot]
    exact h.second
  · unfold LeadsTo
    rw [h2]
    exact h.first

theorem Window.next {s : Mm} (ho : OffStack root g t2 t1) (hn : n < 16) (h : Window s.mem root g n t2 t1) :
    Window (setEntry s t1 (1 + n) (pmlEntry (g + n * 4096))).mem root g (n + 1) t2 t1 := by
  obtain ⟨hr, h2, h1⟩ := ho.aligned
  have hother : ∀ q i, cell q i ≠ cell t1 (1 + n) →
      entry (setEntry s t1 (1 + n) (pmlEntry (g + n * 4096))).mem q i = entry s.mem q i := fun q i hne =>
    Function.update_of_ne hne _ _
  have hkeep : Window (setEntry s t1 (1 + n) (pmlEntry (g + n * 4096))).mem root g n t2 t1 := by
    refine h.congr (hother _ _ ?_) (hother _ _ ?_) fun i hi => hother _ _ ?_
    · have := ho.last.1
      unfold cell MemoryManager.physToKernelPtr
      omega
    · have := ho.last.2
      unfold cell MemoryManager.physToKernelPtr
      omega
    · unfold cell
      omega
  refine ⟨hkeep.second, hkeep.first, fun i hi => ?_⟩
  rcases Nat.lt_succ_iff_lt_or_eq.mp hi with hi | rfl
  · exact hkeep.leaves i hi
  · exact Function.update_self _ _ _

/-- **A user address on the stack** is a byte of the pages from `g` on. -/
theorem Window.byteAt (ho : OffStack root g t2 t1) (h : Window m root g 16 t2 t1) {o : Nat} (hlt : o < 16 * 4096) :
    byteAt m root (stackBase + o) = some (m (MemoryManager.physToKernelPtr g + o)) := by
  have hi : o / 4096 < 16 := by omega
  obtain ⟨hg, hlast⟩ := ho.frames
  have hframe : pmlGetP (pmlEntry (g + o / 4096 * 4096)) = true ∧
      pmlGetAddr (pmlEntry (g + o / 4096 * 4096)) = g + o / 4096 * 4096 := pmlEntry_facts (by omega) (by omega)
  have hpage : (stackBase + o) / 4096 = (stackBase + o / 4096 * 4096) / 4096 := by
    unfold stackBase
    omega
  have hpath : leafPath (stackBase + o) = [0, 0, 1 + o / 4096] := (leafPath_page hpage).trans (stack_leafPath hi)
  have hleaf : LeadsTo m t1 (1 + o / 4096) (g + o / 4096 * 4096) := by
    unfold LeadsTo
    rw [h.leaves _ hi]
    exact hframe
  have htrans : translate m root (stackBase + o) = some (g + o / 4096 * 4096) := by
    unfold MemoryManager.translate
    rw [hpath, follow_cons h.second, follow_cons h.first, follow_cons hleaf]
    rfl
  have hoffs : MemoryManager.physToKernelPtr (g + o / 4096 * 4096) + (stackBase + o) % 4096 =
      MemoryManager.physToKernelPtr g + o := by
    unfold MemoryManager.physToKernelPtr stackBase
    omega
  unfold ELF.byteAt
  rw [htrans, Option.map_some, hoffs]

/-- The stack is filled, and the tables are not touched. -/
theorem fillStack_window (ho : OffStack root g t2 t1) {argv : List (List Nat)} (hroom : argsSize argv ≤ 16 * 4096)
    (info : ELFProgramInfo) {t : Mm} (h : Window t.mem root g 16 t2 t1) :
    Window (fillStack argv info g t).1.mem root g 16 t2 t1 := by
  obtain ⟨hr, h2, h1⟩ := ho.aligned
  obtain ⟨nr, n2, n1⟩ := ho.outside
  have hsame : ∀ q i, 4096 ∣ q → ¬ InRun g 16 q → i < 512 →
      entry (fillStack argv info g t).1.mem q i = entry t.mem q i := fun q i hq hno hi => by
    refine fillStack_aside hroom info ho.frames.1 t fun p hin hpa => ?_
    have hqa : InPage q (cell q i) := by
      unfold InPage cell
      omega
    exact hno (InPage.inj hin.1 hq hpa hqa ▸ hin)
  exact h.congr (hsame root 0 hr nr (by decide)) (hsame t2 0 h2 n2 (by decide)) fun i hi =>
    hsame t1 (1 + i) h1 n1 (by omega)

/-- **All that is stored**, behind the kernel's pointer. -/
theorem fillStack_bytes {argv : List (List Nat)} (hroom : argsSize argv ≤ 16 * 4096) (info : ELFProgramInfo) (g : Nat)
    (t : Mm) : BytesAt (fun a => some ((fillStack argv info g t).1.mem a))
        (MemoryManager.physToKernelPtr g + (16 * 4096 - argsSize argv)) (argBlock argv info) ∧
      (fillStack argv info g t).2 = stackAddr (argsSize argv) := by
  have hfill := pushArgs_filled (MemoryManager.physToKernelPtr g) argv t hroom
  have hsize := length_argBlock argv info
  rw [← hsize] at hroom ⊢
  unfold fillStack
  unfold argBlock at hroom ⊢
  dsimp only at hroom ⊢
  generalize pushArgs (kernel [] 0 0) (MemoryManager.physToKernelPtr g) argv t = u at hfill ⊢
  generalize (argPointers argv).flatMap (leBytes 8) ++ argStrings argv = args at hfill hroom ⊢
  rw [hfill.argSize]
  have hinfo := length_toBytes { info with argc := argv.length, argv := stackAddr args.length }
  have hpush := hfill.push (ELFProgramInfo.toBytes { info with
    argc := argv.length, argv := stackAddr args.length }) (by rwa [← List.length_append])
  rw [hinfo] at hpush
  refine ⟨hpush, ?_⟩
  rw [List.length_append, hinfo, Nat.add_comm]

/-- **The block at the user addresses.** -/
theorem fillStack_found (ho : OffStack root g t2 t1) {argv : List (List Nat)} (hroom : argsSize argv ≤ 16 * 4096)
    (info : ELFProgramInfo) (entryPoint : Nat) {t : Mm} (h : Window t.mem root g 16 t2 t1) :
    FindsArguments (byteAt (fillStack argv info g t).1.mem root)
      (startRegs entryPoint (fillStack argv info g t).2) argv
      (stackAddr ((argPointers argv).flatMap (leBytes 8) ++ argStrings argv).length) (argPointers argv) := by
  obtain ⟨hbytes, hsp⟩ := fillStack_bytes hroom info g t
  have hwin := fillStack_window ho hroom info h
  have hblock : BytesAt (byteAt (fillStack argv info g t).1.mem root) (stackAddr (argsSize argv))
      (argBlock argv info) := fun i hi => by
    have hstored := hbytes i hi
    rw [length_argBlock] at hi
    rw [stackAddr_eq hroom, Nat.add_assoc, hwin.byteAt ho (by omega), ← Nat.add_assoc]
    exact hstored
  rw [hsp]
  refine argBlock_found hroom (fun a h1 h2 => ?_) hblock
  obtain ⟨o, rfl⟩ := Nat.exists_eq_add_of_le h1
  rw [hwin.byteAt ho (Nat.lt_of_add_lt_add_left h2)]
  exact Option.some_ne_none _

variable {pool : Nat → Prop} {rest : Nat → Nat} {s : Mm} {ps : List Nat} {z : Nat → Nat} {e k : Nat}

/-- The first turn makes the tables that are missing. -/
theorem firstPage_window (hp : Managed pool) (he : pmlGetAddr e = root) {s1 b : Mm}
    (hg : 4096 ∣ g) (hrest : ∀ q, InRun g 16 q → pool q ∧ 0 < rest q)
    (hI : AllocInv pool s1 (treeOwn rest s1.mem root) ps z)
    (hb : mapProcessPage k s1 e (u64 (g + 0 * 4096)) (stackBase + 0 * 4096) = some b) (hok : b.failed = false) :
    ∃ t2 t1, OffStack root g t2 t1 ∧ Window b.mem root g 1 t2 t1 := by
  obtain ⟨q, hq, rfl⟩ := Option.map_eq_some_iff.mp hb
  obtain ⟨s2, t1⟩ := q
  obtain ⟨i3, i2, i1⟩ := stack_indices (show 0 < 16 by decide)
  have hok2 : s2.failed = false := hok
  obtain ⟨hm, hwalk⟩ := (walkTablesBy_made hp pmlEntry_pointsTo _ he hI).result
    ((walkTables_steady s1 e _).halts hq) (ne_true_of_eq_false hok2)
  obtain ⟨ps2, z2, hI2⟩ := hm.alloc
  dsimp only at hwalk hI2
  unfold walkPath at hwalk
  rw [i3, i2] at hwalk
  have hwf := wellFormed_owned hp hI2
  -- the two entries on the way
  obtain ⟨t2, hsecond, hfirst⟩ : ∃ t2, LeadsTo s2.mem root 0 t2 ∧ LeadsTo s2.mem t2 0 t1 := by
    simp only [follow] at hwalk
    split_ifs at hwalk with h1 h2
    exact ⟨_, ⟨h1, rfl⟩, h2, Option.some.inj hwalk⟩
  have hpath : ∀ n, Path (List.replicate n 0) := fun n j hj => by
    rw [List.eq_of_mem_replicate hj]
    decide
  have hf2 : follow s2.mem [0] root = some t2 := (follow_cons hsecond).trans rfl
  have hf1 : follow s2.mem [0, 0] root = some t1 := (follow_cons hsecond).trans ((follow_cons hfirst).trans rfl)
  -- a page of the run is no table, as it has an owner besides
  have hout : ∀ π c, Path π → π.length ≤ 3 → follow s2.mem π root = some c → 4096 ∣ c ∧ ¬ InRun g 16 c :=
    fun π c hπ hl hf => by
      refine ⟨follow_aligned hwf.aligned hf, fun hin => ?_⟩
      have hown := hI2.once c
      have huse := uses_of_follow hπ hl hf
      have hpos := (hrest c hin).2
      unfold treeOwn at hown
      omega
  have hlastPage : InRun g 16 (g + 15 * 4096) := ⟨by omega, by omega, by omega⟩
  have hbound := (hp _ (hrest _ hlastPage).1).2
  obtain ⟨d2, o2⟩ := hout [0] t2 (hpath 1) (by decide) hf2
  obtain ⟨d1, o1⟩ := hout [0, 0] t1 (hpath 2) (by decide) hf1
  obtain ⟨dr, or⟩ := hout [] root (hpath 0) (by decide) rfl
  have hoff : OffStack root g t2 t1 := by
    refine ⟨⟨dr, d2, d1⟩, ⟨hg, by omega⟩, ⟨?_, ?_⟩, or, o2, o1⟩
    · rintro rfl
      exact absurd (hwf.distinct [0, 0] [] t1 (hpath 2) (hpath 0) (by decide) (by decide) hf1 rfl) (by decide)
    · rintro rfl
      exact absurd (hwf.distinct [0, 0] [0] t1 (hpath 2) (hpath 1) (by decide) (by decide) hf1 hf2) (by decide)
  refine ⟨t2, t1, hoff, ?_⟩
  dsimp only
  have hu : u64 (g + 0 * 4096) = g + 0 * 4096 := u64_of_lt (by omega)
  rw [i1, hu]
  exact Window.next hoff (by decide) ⟨hsecond, hfirst, fun i hi => absurd hi (Nat.not_lt_zero i)⟩

/-- **The stack pages are mapped**, over whatever was there. -/
theorem mapStack_window (hp : Managed pool) (he : pmlGetAddr e = root)
    (hI : AllocInv pool s (treeOwn rest s.mem root) ps z) {a : Mm × Nat} {t : Mm}
    (ha : allocatePages k s 16 = some a)
    (ht : forLoop (fun i s => mapProcessPage k s e (u64 (a.2 + i * 4096)) (stackBase + i * 4096)) 16 0 a.1 = some t)
    (hok : t.failed = false) : ∃ t2 t1, OffStack root a.2 t2 t1 ∧ Window t.mem root a.2 16 t2 t1 := by
  obtain ⟨b, hb, hloop⟩ := Option.bind_eq_some_iff.mp ht
  have hfail : ∀ (i : Nat) (x y : Mm), x.failed = true →
      mapProcessPage k x e (u64 (a.2 + i * 4096)) (stackBase + i * 4096) = some y → y.failed = true :=
    fun i x y hx hy => mapProcessPage_failed hx hy
  have hbok : b.failed = false := eq_false_of_ne_true fun hbad =>
    ne_true_of_eq_false hok (forLoop_keeps (B := fun t : Mm => t.failed = true) hfail hbad hloop)
  have haok : ¬ a.1.failed = true := fun hbad => ne_true_of_eq_false hbok (hfail 0 _ _ hbad hb)
  obtain ⟨hg, hfree, hm⟩ := (run_made hp (n := 16) (by decide) (by decide) hI).result
    ((allocatePages_steady s 16).halts ha) haok
  obtain ⟨ps1, z1, hI1⟩ := hm.alloc
  obtain ⟨t2, t1, hoff, hwin⟩ := firstPage_window hp he hg
    (fun q hin => ⟨(hfree q hin).1, by rw [if_pos hin]; exact Nat.succ_pos _⟩) hI1 hb hbok
  refine ⟨t2, t1, hoff, forLoop_inv (J := fun n (t : Mm) => Window t.mem root a.2 n t2 t1) (fun n x y hn hx hy => ?_)
    rfl hwin hloop⟩
  rw [mapProcessPage_window he hn hx.second hx.first] at hy
  obtain rfl := Option.some.inj hy
  have hu : u64 (a.2 + n * 4096) = a.2 + n * 4096 := by
    have := hoff.frames.2
    exact u64_of_lt (by omega)
  rw [hu]
  exact hx.next hoff hn

end Window

/-! ## 5. Any file -/

section Loader

variable {pool : Nat → Prop} {rest : Nat → Nat} {root e k : Nat} {s : Mm} {ps : List Nat} {z : Nat → Nat}
  {buffer : List UInt8}

/-- The allocator and the map are in order, if no page was missing. -/
def InOrder (pool : Nat → Prop) (rest : Nat → Nat) (root : Nat) (s : Mm) : Prop :=
  s.failed = true ∨ ∃ ps z, AllocInv pool s (treeOwn rest s.mem root) ps z

/-- A pointer that the loops of a segment write through: to a frame of the map, or `nullptr`. -/
def Writable (pool : Nat → Prop) (rest : Nat → Nat) (root : Nat) (s : Mm) (p : Nat) : Prop :=
  InOrder pool rest root s ∧
    (s.failed = true ∨ p = 0 ∨ ∃ v f, translate s.mem root v = some f ∧ p = MemoryManager.physToKernelPtr f)

/-- A byte of a segment. -/
theorem Writable.store (hp : Managed pool) {p o v : Nat} (h : Writable pool rest root s p) (ho : o < 4096) :
    Writable pool rest root (storeAt s p (o : Int) v) p := by
  have hcell : ((p : Int) + (o : Int)).toNat = p + o := by omega
  unfold storeAt
  rw [hcell]
  obtain ⟨hin, hptr⟩ := h
  rcases hptr with hfail | hptr
  · exact ⟨Or.inl hfail, Or.inl hfail⟩
  · rcases hin with hfail | ⟨ps, z, hI⟩
    · exact ⟨Or.inl hfail, Or.inl hfail⟩
    · rcases hptr with rfl | ⟨w, f, hf, rfl⟩
      · obtain ⟨hI', -, -⟩ := AllocInv.store_low hI (show 0 + o < 4096 by omega) (b := v) rfl
        exact ⟨Or.inr ⟨ps, z, hI'⟩, Or.inr (Or.inl rfl)⟩
      · obtain ⟨hI', hsame⟩ := AllocInv.store_frame hp hI hf (a := MemoryManager.physToKernelPtr f + o)
          ⟨by omega, by omega⟩ (b := v) rfl
        exact ⟨Or.inr ⟨ps, z, hI'⟩, Or.inr (Or.inr ⟨w, f, (hsame w).trans hf, rfl⟩)⟩

/-- A page for a segment. -/
theorem Writable.mapAnyPage (hp : Managed pool) (he : pmlGetAddr e = root) {p v : Nat} {r : Mm × Nat}
    (h : Writable pool rest root s p) (hr : mapAnyPage k s e v = some r) : Writable pool rest root r.1 r.2 := by
  by_cases hok : r.1.failed = true
  · exact ⟨Or.inl hok, Or.inl hok⟩
  · rcases h.1 with hfail | ⟨ps, z, hI⟩
    · exact absurd (mapAnyPage_failed hfail hr) hok
    · obtain ⟨hm, f, hf, hptr⟩ := (mapAnyPage_made hp v he hI).result ((mapAnyPage_steady s e v).halts hr) hok
      exact ⟨Or.inr hm.alloc, Or.inr (Or.inr ⟨v, f, hf, hptr⟩)⟩

/-- **The segments of any file** leave the allocator and the map in order, wherever they are to be loaded. -/
theorem kernel_keeps (hp : Managed pool) (he : pmlGetAddr e = root) (buffer : List UInt8) (k : Nat) :
    (kernel buffer k e).Keeps (InOrder pool rest root) (Writable pool rest root) where
  load _ _ h := h
  loadAt _ _ _ h := h
  start _ h := ⟨h, Or.inr (Or.inl rfl)⟩
  mapPage _ _ _ _ h _ _ hr := h.mapAnyPage hp he hr
  store _ _ _ _ h ho := h.store hp ho
  leave _ _ h := h.1

/-- **The stack**, in a map that is in order. -/
theorem prepareStack_found (hp : Managed pool) (he : pmlGetAddr e = root) (hs : InOrder pool rest root s)
    {argv : List (List Nat)} (hroom : argsSize argv ≤ 16 * 4096) {info : ELFProgramInfo} {w : Mm × Nat}
    (hw : prepareStack (kernel buffer k e) argv info s = some w) (hok : w.1.failed = false) (entryPoint : Nat) :
    FindsArguments (byteAt w.1.mem root) (startRegs entryPoint w.2) argv
      (stackAddr ((argPointers argv).flatMap (leBytes 8) ++ argStrings argv).length) (argPointers argv) := by
  rcases hs with hfail | ⟨ps, z, hI⟩
  · exact absurd (prepareStack_failed hfail hw) (ne_true_of_eq_false hok)
  · rw [prepareStack_kernel] at hw
    obtain ⟨a, ha, hw⟩ := Option.bind_eq_some_iff.mp hw
    obtain ⟨t, ht, rfl⟩ := Option.map_eq_some_iff.mp hw
    obtain ⟨t2, t1, hoff, hwin⟩ := mapStack_window hp he hI ha ht (fillStack_failed.symm.trans hok)
    exact fillStack_found hoff hroom info entryPoint hwin

/-- **The program finds its arguments**: for any file that is accepted, and any map that is in order, whatever its
    segments are, and for any arguments that fit. -/
theorem arguments_found (hp : Managed pool) (hI : AllocInv pool s (treeOwn rest s.mem (pmlGetAddr e)) ps z)
    (buffer : List UInt8) (k : Nat) (argv : List (List Nat)) (hroom : argsSize argv ≤ 16 * 4096)
    {r : Mm × Option Registers} {regs : Registers} (hr : checkAndPrepare (kernel buffer k e) argv s = some r)
    (hok : r.1.failed = false) (hregs : r.2 = some regs) :
    ∃ array pointers, FindsArguments (byteAt r.1.mem (pmlGetAddr e)) regs argv array pointers := by
  have hkeeps : (kernel buffer k e).Keeps (InOrder pool rest (pmlGetAddr e)) (Writable pool rest (pmlGetAddr e)) :=
    kernel_keeps hp rfl buffer k
  rcases checkAndPrepare_cases hkeeps (Or.inr ⟨ps, z, hI⟩) hr with
    ⟨-, -, hnone⟩ | ⟨-, info, u, w, entryPoint, hu, hw, rfl⟩
  · rw [hregs] at hnone
    cases hnone
  · obtain rfl := Option.some.inj hregs
    exact ⟨_, _, prepareStack_found hp rfl hu hroom hw hok entryPoint⟩

/-- Two strings, in a new map on a machine with 40 pages. -/
theorem arguments_found_two : ∃ e regs array pointers r,
    Halts (fun k => prepareNew goodImage [[97], [98, 99]] k forty) r ∧ r.2 = (e, some regs) ∧
    FindsArguments (byteAt r.1.mem (pmlGetAddr e)) regs [[97], [98, 99]] array pointers := by
  have hover : HandedOver [⟨4096, 40⟩] := oneHanded_over (by decide) (by decide) (by decide)
  obtain ⟨ps, z, hI, -⟩ := pageInit_alloc hover (oneStart_init 4096 40 (by decide))
  obtain ⟨r, hr, hok, htrue, -⟩ := forty_run goodImage [[97], [98, 99]] (P := fun _ => true) (by decide +kernel)
  obtain ⟨N, hN⟩ := id hr
  obtain ⟨p, hmap, hload⟩ := Option.bind_eq_some_iff.mp (hN N le_rfl)
  obtain ⟨q, hq, rfl⟩ := Option.map_eq_some_iff.mp hload
  obtain ⟨regs, hregs⟩ := Option.ne_none_iff_exists'.mp htrue
  have hpok : ¬ p.1.failed = true := fun hbad => ne_true_of_eq_false hok (checkAndPrepare_failed hbad hq)
  obtain ⟨-, hnew⟩ := (createProcessMap_newMap (poolOf_managed hover) hI).result
    ((createProcessMap_steady forty).halts hmap) hpok
  obtain ⟨ps', z', hI'⟩ := hnew.alloc
  obtain ⟨array, pointers, hfound⟩ := arguments_found (poolOf_managed hover) hI' goodImage N [[97], [98, 99]]
    (by decide) hq hok hregs
  exact ⟨p.2, regs, array, pointers, _, hr, by rw [← hregs], hfound⟩

end Loader

end ELF

end SimpleOS2
