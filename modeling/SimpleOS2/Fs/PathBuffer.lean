/-
  File:      SimpleOS2/Fs/PathBuffer.lean
  Subject:   THE PREPARATION OF A PATH IN ITS BUFFER (PrepareRelativePath, PrepareAbsolutePath, NormalizePath,
             PreparePath of fs/VFS.cpp).

  `Fs/PreparePath.lean` says which string comes out. Here the same functions work on the bytes of the buffer that
  their callers have on the stack, and an access behind it, or behind the 128 entries of NormalizePath, has no
  result.

  * `preparePath` -- the function on a buffer of `size` bytes with whatever stands in it;
  * `collapseLoop_spec`, `splitLoop_spec`, `dirsLoop_spec`, `joinLoop_spec` -- what each loop leaves in the buffer;
  * `Fits` -- what the two lengths must be; `preparePath_spec` -- the function stays inside exactly then, and does
    what `VFS.preparePath` says;
  * `prepared_inside` -- so with the 255 bytes that the callers have.
-/
import SimpleOS2.Klib.BoundedMemory
import SimpleOS2.Fs.PreparePath

namespace SimpleOS2

namespace PathBuffer

open Lib Bounded

/-! ## 1. The functions -/

/-- `PrepareRelativePath`. The working directory is a string of the thread's record. -/
def prepareRelativePath (size : Nat) (cwd : List Char) (b : Nat → Char) : Option (Int × (Nat → Char)) := do
  let lengthA ← kstrlen size b 0
  let lengthB := cwd.length
  if lengthB = 0 then return (OK, b)
  if lengthA + lengthB + 2 > 256 then return (ErrorPathTooLong, b)
  let b ← kmemmove size b (lengthB + 1) 0 lengthA
  let b ← wrList size cwd b 0
  let b ← wr size b lengthB '/'
  let b ← wr size b (lengthA + lengthB + 1) '\x00'
  return (OK, b)

/-- The loop of `PrepareAbsolutePath`. -/
def slashesLoop (size : Nat) (b : Nat → Char) : (fuel numSlashes : Nat) → Option Nat
  | 0, _ => none
  | fuel + 1, numSlashes => do
      let c ← rd size b numSlashes
      if c = '/' then slashesLoop size b fuel (numSlashes + 1) else some numSlashes

/-- `PrepareAbsolutePath`. The loop over the slashes has left the buffer after `size` rounds. -/
def prepareAbsolutePath (size : Nat) (b : Nat → Char) : Option (Int × (Nat → Char)) := do
  let numSlashes ← slashesLoop size b (size + 1) 0
  let length ← kstrlen size b 0
  let b ← kmemcpy size b 0 numSlashes (length + 1)
  return (OK, b)

/-- The first loop of `NormalizePath`: the `'\0'`s are written, and the entries put on the stack. -/
def splitLoop (size : Nat) : (fuel i stackSize currentDir : Nat) → (b : Nat → Char) → (stack : Nat → Nat) →
    Option (Nat × Nat × (Nat → Char) × (Nat → Nat))
  | 0, _, _, _, _, _ => none
  | fuel + 1, i, stackSize, currentDir, b, stack => do
      let c ← rd size b i
      if c = '\x00' then some (stackSize, currentDir, b, stack)
      else if c = '/' then do
        let b ← wr size b i '\x00'
        let stack ← wr 128 stack stackSize currentDir
        splitLoop size fuel (i + 1) (stackSize + 1) (i + 1) b stack
      else splitLoop size fuel (i + 1) stackSize currentDir b stack

/-- The second loop. An entry is taken away by moving the ones behind it. -/
def dirsLoop (size : Nat) (b : Nat → Char) : (fuel i stackSize : Nat) → (stack : Nat → Nat) → Option (Nat × (Nat → Nat))
  | 0, _, _, _ => none
  | fuel + 1, i, stackSize, stack =>
      if i < stackSize then do
        let dir ← rd 128 stack i
        let isDot ← kstrcmp size b dir ['.']
        if isDot then do
          let stack ← copyUp 128 (stackSize - (i + 1)) stack i (i + 1)
          dirsLoop size b fuel i (stackSize - 1) stack
        else do
          let isDotDot ← kstrcmp size b dir ['.', '.']
          if isDotDot then
            if i = 0 then do
              let stack ← copyUp 128 (stackSize - (i + 1)) stack i (i + 1)
              dirsLoop size b fuel i (stackSize - 1) stack
            else do
              let stack ← copyUp 128 (stackSize - (i + 1)) stack (i - 1) (i + 1)
              dirsLoop size b fuel (i - 1) (stackSize - 2) stack
          else dirsLoop size b fuel (i + 1) stackSize stack
      else some (stackSize, stack)

/-- The third loop, over the entries from `i` on: the names are copied to the front. -/
def joinLoop (size : Nat) (stack : Nat → Nat) : (n i pos : Nat) → (b : Nat → Char) → Option (Nat × (Nat → Char))
  | 0, _, pos, b => some (pos, b)
  | n + 1, i, pos, b => do
      let dir ← rd 128 stack i
      let l ← kstrlen size b dir
      if i ≠ 0 then do
        let b ← wr size b pos '/'
        let b ← kmemcpy size b (pos + 1) dir l
        joinLoop size stack n (i + 1) (pos + 1 + l) b
      else do
        let b ← kmemcpy size b pos dir l
        joinLoop size stack n (i + 1) (pos + l) b

/-- `NormalizePath`. The stack is not initialised. -/
def normalizePath (size : Nat) (b : Nat → Char) (stack : Nat → Nat) : Option (Int × (Nat → Char)) := do
  let (stackSize, currentDir, b, stack) ← splitLoop size (size + 1) 0 0 0 b stack
  let stack ← wr 128 stack stackSize currentDir
  let stackSize := stackSize + 1
  let (stackSize, stack) ← dirsLoop size b (stackSize + 1) 0 stackSize stack
  let (pos, b) ← joinLoop size stack stackSize 0 0 b
  let b ← wr size b pos '\x00'
  return (OK, b)

/-- The loop of `PreparePath`: `n` characters are left. -/
def collapseLoop (size : Nat) : (n i writePos : Nat) → (lastWasSlash : Bool) → (b : Nat → Char) →
    Option (Nat × Bool × (Nat → Char))
  | 0, _, writePos, lastWasSlash, b => some (writePos, lastWasSlash, b)
  | n + 1, i, writePos, lastWasSlash, b => do
      let c ← rd size b i
      if c = '/' then
        if lastWasSlash then collapseLoop size n (i + 1) writePos true b
        else do
          let b ← wr size b writePos '/'
          collapseLoop size n (i + 1) (writePos + 1) true b
      else do
        let b ← wr size b writePos c
        collapseLoop size n (i + 1) (writePos + 1) false b

/-- The `'\0'` behind it. -/
def cutSlash (size writePos : Nat) (lastWasSlash : Bool) (b : Nat → Char) : Option (Nat → Char) :=
  if lastWasSlash then
    match writePos with
    | 0 => none
    | writePos + 1 => wr size b writePos '\x00'
  else wr size b writePos '\x00'

/-- The step of `PreparePath` that makes the path absolute (`IsPathRelative` looks at the first byte). -/
def makeAbsolute (size : Nat) (cwd : List Char) (b : Nat → Char) : Option (Int × (Nat → Char)) := do
  let first ← rd size b 0
  if first ≠ '/' then prepareRelativePath size cwd b else prepareAbsolutePath size b

/-- `PreparePath`. `b` and `stack` are what stands on the kernel's stack before. -/
def preparePath (size : Nat) (user : Nat → Option Char) (cwd : List Char) (b : Nat → Char) (stack : Nat → Nat) :
    Option (Int × (Nat → Char)) := do
  let (copied, b) ← kpathcpyUsersafe size user b
  if !copied then return (ErrorInvalidBuffer, b)
  let (err, b) ← makeAbsolute size cwd b
  if err ≠ OK then return (err, b)
  let length ← kstrlen size b 0
  let (writePos, lastWasSlash, b) ← collapseLoop size length 0 0 false b
  let b ← cutSlash size writePos lastWasSlash b
  normalizePath size b stack

/-! ## 2. The loop over the slashes -/

section Collapse

variable {size i : Nat} {b : Nat → Char} {path written : List Char}

/-- The characters not yet read are as they were: the loop never writes before it has read. -/
theorem collapseLoop_spec (lastWasSlash : Bool) (hw : Holds b 0 written) (hp : Holds b i path)
    (hle : written.length ≤ i)
    (hin : i + path.length ≤ size) : ∃ b' : Nat → Char,
    collapseLoop size path.length i written.length lastWasSlash b =
      some ((VFS.collapseLoop path written lastWasSlash).1.length, (VFS.collapseLoop path written lastWasSlash).2, b') ∧
    Holds b' 0 (VFS.collapseLoop path written lastWasSlash).1 := by
  induction path generalizing i b written lastWasSlash with
  | nil => exact ⟨b, rfl, hw⟩
  | cons c path ih =>
      rw [List.length_cons] at hin
      have hput : ∀ x : Char, ∃ b', wr size b written.length x = some b' ∧ Holds b' 0 (written ++ [x]) ∧
          Holds b' (i + 1) path := by
        intro x
        refine ⟨_, wr_in (by omega) x, holds_append.mpr ⟨hw.congr fun k _ hk => ?_, ?_, trivial⟩, hp.2.congr ?_⟩
        · exact Function.update_of_ne (by omega) _ _
        · rw [Nat.zero_add]
          exact Function.update_self _ _ _
        · intro k hk _
          exact Function.update_of_ne (by omega) _ _
      rw [List.length_cons, collapseLoop, rd_in (by omega), hp.1, VFS.collapseLoop]
      dsimp only [Option.bind_eq_bind, Option.bind_some]
      by_cases hc : c = '/'
      · rw [if_pos hc, if_pos hc]
        cases lastWasSlash with
        | true => exact ih true hw hp.2 (by omega) (by omega)
        | false =>
            obtain ⟨b', hwr, hw', hp'⟩ := hput '/'
            obtain ⟨b'', hres, hh⟩ := ih true hw' hp' (by simp; omega) (by omega)
            refine ⟨b'', ?_, hh⟩
            rw [List.length_append, List.length_singleton] at hres
            show (wr size b written.length '/').bind _ = _
            rw [hwr]
            exact hres
      · rw [if_neg hc, if_neg hc]
        obtain ⟨b', hwr, hw', hp'⟩ := hput c
        obtain ⟨b'', hres, hh⟩ := ih false hw' hp' (by simp; omega) (by omega)
        refine ⟨b'', ?_, hh⟩
        rw [List.length_append, List.length_singleton] at hres
        rw [hwr]
        exact hres

end Collapse

/-! ## 3. The loops of NormalizePath -/

/-- The names of a string, and where each of them begins. -/
def layout : (a : Nat) → (dirs : List (List Char)) → List (Nat × List Char)
  | _, [] => []
  | a, dir :: dirs => (a, dir) :: layout (a + dir.length + 1) dirs

/-- Each entry of the list is a string in the buffer, behind the one before it. -/
def Laid (size : Nat) (b : Nat → Char) : (a : Nat) → (entries : List (Nat × List Char)) → Prop
  | _, [] => True
  | a, e :: entries => a ≤ e.1 ∧ Text b e.1 e.2 ∧ e.1 + e.2.length < size ∧ Laid size b (e.1 + e.2.length + 1) entries

section Entries

variable {size a a' : Nat} {b b' : Nat → Char} {entries entries' : List (Nat × List Char)} {e : Nat × List Char}

theorem layout_names (a : Nat) (dirs : List (List Char)) : (layout a dirs).map Prod.snd = dirs := by
  induction dirs generalizing a with
  | nil => rfl
  | cons dir dirs ih => exact congrArg (dir :: ·) (ih _)

theorem layout_length (a : Nat) (dirs : List (List Char)) : (layout a dirs).length = dirs.length := by
  rw [← List.length_map Prod.snd, layout_names]

theorem Laid.lower (h : Laid size b a' entries) (ha : a ≤ a') : Laid size b a entries := by
  cases entries with
  | nil => trivial
  | cons e entries => exact ⟨Nat.le_trans ha h.1, h.2⟩

theorem Laid.congr (h : Laid size b a entries) (he : ∀ i, a ≤ i → b' i = b i) : Laid size b' a entries := by
  induction entries generalizing a with
  | nil => trivial
  | cons e entries ih =>
      exact ⟨h.1, h.2.1.congr fun i h1 _ => he i (Nat.le_trans h.1 h1), h.2.2.1, ih h.2.2.2 fun i hi => he i (by
        have := h.1
        omega)⟩

/-- Entries may be left out. -/
theorem Laid.sublist (h : Laid size b a entries) (hs : entries'.Sublist entries) : Laid size b a entries' := by
  induction hs generalizing a with
  | slnil => trivial
  | cons e _ ih =>
      have h1 := h.1
      exact ih (h.2.2.2.lower (by omega))
  | cons_cons e _ ih => exact ⟨h.1, h.2.1, h.2.2.1, ih h.2.2.2⟩

theorem Laid.entry (h : Laid size b a entries) (he : e ∈ entries) : Text b e.1 e.2 ∧ e.1 + e.2.length < size := by
  induction entries generalizing a with
  | nil => cases he
  | cons e' entries ih =>
      cases List.mem_cons.mp he with
      | inl h1 => exact h1 ▸ ⟨h.2.1, h.2.2.1⟩
      | inr h1 => exact ih h.2.2.2 h1

end Entries

section Split

variable {size a i n : Nat} {b : Nat → Char} {dir : List Char} {dirs : List (List Char)}

/-- Nothing happens at the characters of a name. -/
theorem splitLoop_name (fuel : Nat) (stack : Nat → Nat) (hh : Holds b i dir) (hs : '/' ∉ dir) (h0 : '\x00' ∉ dir)
    (hin : i + dir.length ≤ size) :
    splitLoop size (fuel + dir.length) i n a b stack = splitLoop size fuel (i + dir.length) n a b stack := by
  induction dir generalizing i with
  | nil => rfl
  | cons c dir ih =>
      rw [List.length_cons] at hin
      rw [List.length_cons, ← Nat.add_assoc, splitLoop, rd_in (by omega), hh.1]
      have hc0 : ¬ c = '\x00' := fun hc => h0 (hc ▸ List.mem_cons_self)
      have hcs : ¬ c = '/' := fun hc => hs (hc ▸ List.mem_cons_self)
      dsimp only [Option.bind_eq_bind, Option.bind_some]
      rw [if_neg hc0, if_neg hcs,
        ih hh.2 (fun hm => hs (List.mem_cons_of_mem _ hm)) (fun hm => h0 (List.mem_cons_of_mem _ hm)) (by omega)]
      exact congrArg (fun i => splitLoop size fuel i n a b stack) (by omega)

/-- The first loop, with the entry that is put on the stack behind it. -/
theorem splitLoop_spec (fuel : Nat) (stack : Nat → Nat) (hh : Holds b a (['/'].intercalate (dir :: dirs)))
    (hend : b (a + (['/'].intercalate (dir :: dirs)).length) = '\x00')
    (hs : ∀ d ∈ dir :: dirs, '/' ∉ d ∧ '\x00' ∉ d) (hin : a + (['/'].intercalate (dir :: dirs)).length < size)
    (hfuel : (['/'].intercalate (dir :: dirs)).length < fuel) (hn : n + dirs.length < 128) :
    ∃ currentDir b' stack', splitLoop size fuel a n a b stack = some (n + dirs.length, currentDir, b', stack') ∧
      (∀ x < a, b' x = b x) ∧ Laid size b' a (layout a (dir :: dirs)) ∧ (∀ x < n, stack' x = stack x) ∧
      Holds (Function.update stack' (n + dirs.length) currentDir) n ((layout a (dir :: dirs)).map Prod.fst) := by
  induction dirs generalizing a n b stack dir fuel with
  | nil =>
      have hd := hs dir List.mem_cons_self
      rw [List.intercalate_singleton] at hh hend hin hfuel
      obtain ⟨f, rfl⟩ : ∃ f, fuel = f + 1 + dir.length := ⟨fuel - 1 - dir.length, by omega⟩
      refine ⟨a, b, stack, ?_, fun _ _ => rfl, ⟨Nat.le_refl a, ⟨hh, hend, hd.2⟩, hin, trivial⟩, fun _ _ => rfl,
        Function.update_self _ _ _, trivial⟩
      rw [splitLoop_name _ _ hh hd.1 hd.2 (Nat.le_of_lt hin), splitLoop, rd_in hin, hend]
      rfl
  | cons dir' dirs ih =>
      have hd := hs dir List.mem_cons_self
      rw [List.intercalate_cons_cons, List.append_assoc] at hh hend hin hfuel
      simp only [List.length_append, List.length_singleton] at hend hin hfuel
      obtain ⟨hname, hslash, hrest⟩ := holds_append.mp hh
      rw [List.length_cons] at hn
      obtain ⟨f, rfl⟩ : ∃ f, fuel = f + 1 + dir.length := ⟨fuel - 1 - dir.length, by omega⟩
      have hcut : ∀ x, x ≠ a + dir.length → Function.update b (a + dir.length) '\x00' x = b x :=
        fun x hx => Function.update_of_ne hx _ _
      have hname' : a + dir.length < size := by omega
      obtain ⟨currentDir, b', stack', hrun, hbelow, hlaid, hkept, hstack⟩ :=
        ih (a := a + dir.length + 1) (b := Function.update b (a + dir.length) '\x00') (n := n + 1) f
          (Function.update stack n a)
          (hrest.congr fun x hx _ => hcut x (by omega))
          ((hcut _ (by omega)).trans ((congrArg b (by omega)).trans hend))
          (fun d hd => hs d (List.mem_cons_of_mem _ hd))
          (by omega) (by omega) (by omega)
      refine ⟨currentDir, b', stack', ?_, fun x hx => ?_, ⟨Nat.le_refl a, ⟨?_, ?_, hd.2⟩, hname', hlaid⟩,
        fun x hx => ?_, ?_⟩
      · rw [splitLoop_name _ _ hname hd.1 hd.2 (by omega), splitLoop, rd_in (by omega), hslash]
        show (do
          let b ← wr size b (a + dir.length) '\x00'
          let stack ← wr 128 stack n a
          splitLoop size f (a + dir.length + 1) (n + 1) (a + dir.length + 1) b stack) = _
        rw [wr_in (by omega), wr_in (by omega)]
        refine hrun.trans ?_
        rw [List.length_cons, Nat.add_right_comm n 1, Nat.add_assoc]
      · rw [hbelow x (by omega), hcut x (by omega)]
      · refine hname.congr fun x _ hx => ?_
        have hx' : x < a + dir.length := hx
        rw [hbelow x (by omega), hcut x (by omega)]
      · show b' (a + dir.length) = '\x00'
        rw [hbelow _ (by omega), Function.update_self]
      · rw [hkept x (by omega), Function.update_of_ne (Nat.ne_of_lt hx)]
      · rw [List.length_cons, ← Nat.add_assoc, Nat.add_right_comm n dirs.length]
        refine ⟨?_, hstack⟩
        rw [Function.update_of_ne (by omega), hkept n (Nat.lt_succ_self n), Function.update_self]

end Split

section Dirs

variable {size : Nat} {b : Nat → Char} {stack : Nat → Nat} {rest : List (Nat × List Char)}

/-- Entries are moved over the ones before them. -/
theorem holds_moved_entries (l l' r : List (Nat × List Char)) (h : Holds stack 0 ((l ++ l' ++ r).map Prod.fst)) :
    Holds (moved stack l.length (l.length + l'.length) r.length) 0 ((l ++ r).map Prod.fst) := by
  rw [List.map_append, holds_append] at h
  rw [List.map_append, holds_append]
  rw [List.length_map, List.length_append, Nat.zero_add] at h
  rw [List.length_map, Nat.zero_add]
  refine ⟨?_, holds_moved h.2 (by rw [List.length_map])⟩
  rw [List.map_append, holds_append] at h
  refine h.1.1.congr fun i _ hi => moved_out (Or.inl ?_)
  rwa [List.length_map, Nat.zero_add] at hi

/-- The second loop does on the stack what the list function does, one entry a round. -/
theorem dirsLoop_spec (fuel : Nat) (before : List (Nat × List Char))
    (hst : Holds stack 0 ((before.reverse ++ rest).map Prod.fst))
    (htext : ∀ e ∈ rest, Text b e.1 e.2 ∧ e.1 + e.2.length < size) (hn : before.length + rest.length ≤ 128)
    (hfuel : rest.length < fuel) : ∃ (l : List (Nat × List Char)) (stack' : Nat → Nat),
    dirsLoop size b fuel before.length (before.length + rest.length) stack = some (l.length, stack') ∧
      Holds stack' 0 (l.map Prod.fst) ∧ l.Sublist (before.reverse ++ rest) ∧
      l.map Prod.snd = VFS.normalizeLoop (before.map Prod.snd) (rest.map Prod.snd) := by
  induction rest generalizing before fuel stack with
  | nil =>
      obtain ⟨f, rfl⟩ : ∃ f, fuel = f + 1 := ⟨fuel - 1, by omega⟩
      refine ⟨before.reverse, stack, ?_, ?_, ?_, List.map_reverse⟩
      · rw [List.length_reverse, dirsLoop, if_neg (by simp)]
        rfl
      · rwa [List.append_nil] at hst
      · rw [List.append_nil]
  | cons e rest ih =>
      obtain ⟨f, rfl⟩ : ∃ f, fuel = f + 1 := ⟨fuel - 1, by omega⟩
      obtain ⟨he, hin⟩ := htext e List.mem_cons_self
      have hrest : ∀ e ∈ rest, Text b e.1 e.2 ∧ e.1 + e.2.length < size := fun e hm =>
        htext e (List.mem_cons_of_mem _ hm)
      rw [List.length_cons] at hn hfuel
      have hcell : stack before.length = e.1 := by
        have h := holds_append.mp (List.map_append ▸ hst)
        have h2 := h.2.1
        rwa [List.length_map, List.length_reverse, Nat.zero_add] at h2
      have hgone : (before.reverse ++ rest).Sublist (before.reverse ++ e :: rest) :=
        (List.Sublist.refl _).append (List.sublist_cons_self e rest)
      have hsize : before.length + (rest.length + 1) - (before.length + 1) = rest.length := by omega
      -- the entry is taken away, and nothing else
      have hdrop : Holds (moved stack before.length (before.length + 1) rest.length) 0
          ((before.reverse ++ rest).map Prod.fst) := by
        have h := holds_moved_entries before.reverse [e] rest (by simpa using hst)
        rwa [List.length_reverse, List.length_singleton] at h
      rw [List.length_cons, dirsLoop, if_pos (by omega), rd_in (by omega), hcell]
      dsimp only [Option.bind_eq_bind, Option.bind_some]
      rw [kstrcmp_eq he hin (by decide)]
      dsimp only [Option.bind_eq_bind, Option.bind_some]
      rw [kstrcmp_eq he hin (by decide), List.map_cons, VFS.normalizeLoop_cons]
      dsimp only [Option.bind_eq_bind, Option.bind_some]
      by_cases h1 : e.2 = ['.']
      · obtain ⟨l, stack', hrun, hst', hsub, hnames⟩ := ih f before hdrop hrest (by omega) (by omega)
        refine ⟨l, stack', ?_, hst', hsub.trans hgone, ?_⟩
        · rw [if_pos (decide_eq_true h1), hsize, copyUp_eq (by omega) (by omega)]
          exact hrun
        · rw [hnames, if_pos h1]
      · rw [if_neg (by simpa using h1), if_neg h1]
        by_cases h2 : e.2 = ['.', '.']
        · rw [if_pos (decide_eq_true h2), if_pos h2]
          cases before with
          | nil =>
              obtain ⟨l, stack', hrun, hst', hsub, hnames⟩ := ih f [] hdrop hrest (by omega) (by omega)
              refine ⟨l, stack', ?_, hst', hsub.trans hgone, hnames⟩
              rw [if_pos List.length_nil, hsize, copyUp_eq (by omega) (by omega)]
              exact hrun
          | cons p before =>
              rw [List.length_cons] at hn
              have hpop : Holds (moved stack before.length (before.length + 2) rest.length) 0
                  ((before.reverse ++ rest).map Prod.fst) := by
                have h := holds_moved_entries before.reverse [p, e] rest (by simpa using hst)
                rwa [List.length_reverse] at h
              obtain ⟨l, stack', hrun, hst', hsub, hnames⟩ := ih f before hpop hrest (by omega) (by omega)
              refine ⟨l, stack', ?_, hst', hsub.trans ?_, hnames⟩
              · rw [hsize, List.length_cons, if_neg (Nat.succ_ne_zero _), copyUp_eq (by omega) (by omega)]
                have hlen : before.length + 1 + (rest.length + 1) - 2 = before.length + rest.length := by omega
                show dirsLoop size b f before.length (before.length + 1 + (rest.length + 1) - 2) _ = _
                rw [hlen]
                exact hrun
              · rw [List.reverse_cons, List.append_assoc]
                exact (List.Sublist.refl _).append ((List.sublist_cons_self e rest).trans (List.sublist_cons_self p _))
        · rw [if_neg (by simpa using h2), if_neg h2]
          have hback : before.reverse ++ e :: rest = (e :: before).reverse ++ rest := by
            rw [List.reverse_cons, List.append_assoc]
            rfl
          rw [hback] at hst ⊢
          obtain ⟨l, stack', hrun, hst', hsub, hnames⟩ :=
            ih f (e :: before) hst hrest (by rw [List.length_cons]; omega) (by omega)
          refine ⟨l, stack', ?_, hst', hsub, hnames⟩
          rw [List.length_cons] at hrun
          rw [Nat.add_comm rest.length, ← Nat.add_assoc]
          exact hrun

end Dirs

section Join

variable {size : Nat} {b : Nat → Char} {stack : Nat → Nat} {entries : List (Nat × List Char)}

/-- One name is copied behind what has been written; the names behind it stay as they are. -/
theorem copy_name (written : List Char) {a pos : Nat} {name : List Char} (hw : Holds b 0 written)
    (hpos : pos = written.length)
    (ha : pos ≤ a) (ht : Text b a name) (hin : a + name.length < size)
    (hl : Laid size b (a + name.length + 1) entries) : ∃ b', kmemcpy size b pos a name.length = some b' ∧
      Holds b' 0 (written ++ name) ∧ Laid size b' (a + name.length + 1) entries := by
  refine ⟨_, kmemcpy_eq ha (Nat.le_of_lt hin), holds_append.mpr ⟨?_, ?_⟩, hl.congr fun x hx => moved_out (by omega)⟩
  · exact hw.congr fun x _ hx => moved_out (by omega)
  · rw [Nat.zero_add, ← hpos]
    exact holds_moved ht.1 (Nat.le_refl _)

/-- The third loop, where something has been written already. No name is overwritten before it is copied. -/
theorem joinLoop_spec (i : Nat) (written : List Char) (hi : i ≠ 0) (hw : Holds b 0 written)
    (hlaid : Laid size b (written.length + 1) entries)
    (hst : Holds stack i (entries.map Prod.fst)) (hn : i + entries.length ≤ 128) (hin : written.length < size) :
    ∃ b', joinLoop size stack entries.length i written.length b =
        some ((written ++ entries.flatMap fun e => '/' :: e.2).length, b') ∧
      Holds b' 0 (written ++ entries.flatMap fun e => '/' :: e.2) ∧
      (written ++ entries.flatMap fun e => '/' :: e.2).length < size := by
  induction entries generalizing i b written with
  | nil =>
      rw [List.flatMap_nil, List.append_nil]
      exact ⟨b, rfl, hw, hin⟩
  | cons e entries ih =>
      obtain ⟨ha, ht, hend, hrest⟩ := hlaid
      rw [List.length_cons] at hn
      have hcell : stack i = e.1 := hst.1
      have hslash : ∀ x, x ≠ written.length → Function.update b written.length '/' x = b x :=
        fun x hx => Function.update_of_ne hx _ _
      have hw' : Holds (Function.update b written.length '/') 0 (written ++ ['/']) := by
        refine holds_append.mpr ⟨hw.congr fun x _ hx => hslash x (by omega), ?_, trivial⟩
        rw [Nat.zero_add, Function.update_self]
      have hpos : written.length + 1 = (written ++ ['/']).length := by simp
      obtain ⟨b', hcopy, hw'', hrest'⟩ := copy_name _ hw' hpos ha (ht.congr fun x hx _ => hslash x (by omega)) hend
        (hrest.congr fun x hx => hslash x (by omega))
      obtain ⟨b'', hrun, hres⟩ := ih (i + 1) (written ++ ['/'] ++ e.2) (Nat.succ_ne_zero i) hw''
        (hrest'.lower (by simp; omega)) hst.2 (by omega) (by simp; omega)
      have hflat : written ++ (e :: entries).flatMap (fun e => '/' :: e.2) =
          written ++ ['/'] ++ e.2 ++ entries.flatMap fun e => '/' :: e.2 := by
        rw [List.flatMap_cons]
        simp only [List.append_assoc, List.cons_append, List.nil_append]
      rw [hflat]
      refine ⟨b'', ?_, hres⟩
      rw [List.length_cons, joinLoop, rd_in (by omega), hcell]
      dsimp only [Option.bind_eq_bind, Option.bind_some]
      rw [kstrlen_eq ht hend]
      dsimp only [Option.bind_eq_bind, Option.bind_some]
      rw [if_pos hi, wr_in (by omega)]
      dsimp only [Option.bind_eq_bind, Option.bind_some]
      rw [hcopy]
      have hlen : written.length + 1 + e.2.length = (written ++ ['/'] ++ e.2).length := by
        rw [List.length_append, List.length_append, List.length_singleton]
      show joinLoop size stack entries.length (i + 1) (written.length + 1 + e.2.length) b' = _
      rw [hlen]
      exact hrun

theorem intercalate_flatMap (dir : List Char) (entries : List (Nat × List Char)) :
    ['/'].intercalate (dir :: entries.map Prod.snd) = dir ++ entries.flatMap fun e => '/' :: e.2 := by
  induction entries generalizing dir with
  | nil => simp
  | cons e entries ih =>
      rw [List.map_cons, List.intercalate_cons_cons, ih, List.flatMap_cons]
      simp only [List.append_assoc, List.cons_append, List.nil_append]

/-- The whole loop. -/
theorem joinLoop_all (hlaid : Laid size b 0 entries) (hst : Holds stack 0 (entries.map Prod.fst))
    (hn : entries.length ≤ 128) (h0 : 0 < size) :
    ∃ b', joinLoop size stack entries.length 0 0 b = some ((['/'].intercalate (entries.map Prod.snd)).length, b') ∧
      Holds b' 0 (['/'].intercalate (entries.map Prod.snd)) ∧
      (['/'].intercalate (entries.map Prod.snd)).length < size := by
  cases entries with
  | nil => exact ⟨b, rfl, trivial, h0⟩
  | cons e entries =>
      obtain ⟨ha, ht, hend, hrest⟩ := hlaid
      rw [List.length_cons] at hn
      have hcell : stack 0 = e.1 := hst.1
      obtain ⟨b', hcopy, hw, hrest'⟩ := copy_name [] (b := b) trivial rfl ha ht hend hrest
      obtain ⟨b'', hrun, hres⟩ := joinLoop_spec 1 e.2 Nat.one_ne_zero hw
        (hrest'.lower (by omega)) hst.2 (by omega) (by omega)
      rw [List.map_cons, intercalate_flatMap]
      refine ⟨b'', ?_, hres⟩
      rw [List.length_cons, joinLoop, rd_in (by omega), hcell]
      dsimp only [Option.bind_eq_bind, Option.bind_some]
      rw [kstrlen_eq ht hend]
      dsimp only [Option.bind_eq_bind, Option.bind_some]
      rw [if_neg (by simp)]
      show (kmemcpy size b ([] : List Char).length e.1 e.2.length).bind _ = _
      rw [hcopy, Option.bind_some]
      show joinLoop size stack entries.length 1 (0 + e.2.length) b' = _
      rw [Nat.zero_add]
      exact hrun

end Join

/-! ## 4. NormalizePath -/

/-- `NormalizePath` leaves the normalized path in the buffer. -/
theorem normalizePath_spec {size : Nat} {b : Nat → Char} {path : List Char} (stack : Nat → Nat) (h : Text b 0 path)
    (hin : path.length < size) (hdirs : (path.splitOn '/').length ≤ 128) : ∃ b',
    normalizePath size b stack = some (OK, b') ∧ Text b' 0 (VFS.normalizePath path) ∧
      (VFS.normalizePath path).length < size := by
  obtain ⟨hh, hend, hnul⟩ := h
  obtain ⟨dir, dirs, hsplit⟩ := List.exists_cons_of_ne_nil (List.splitOn_ne_nil '/' path)
  have hpath : ['/'].intercalate (dir :: dirs) = path := hsplit ▸ List.intercalate_splitOn '/'
  have hparts : ∀ d ∈ dir :: dirs, '/' ∉ d ∧ '\x00' ∉ d := fun d hd =>
    have hd := VFS.mem_splitOn (hsplit ▸ hd)
    ⟨hd.1, fun hm => hnul (hd.2 _ hm)⟩
  rw [hsplit, List.length_cons] at hdirs
  rw [Nat.zero_add] at hend
  obtain ⟨currentDir, b', stack', hrun, -, hlaid, -, hst⟩ := splitLoop_spec (a := 0) (n := 0) (b := b) (size + 1) stack
    (by rwa [hpath]) (by rwa [hpath, Nat.zero_add]) hparts (by rwa [hpath, Nat.zero_add]) (by rw [hpath]; omega)
    (by omega)
  rw [Nat.zero_add] at hrun hst
  have hcount : (layout 0 (dir :: dirs)).length = dirs.length + 1 := layout_length 0 (dir :: dirs)
  have hnamed : (layout 0 (dir :: dirs)).map Prod.snd = dir :: dirs := layout_names 0 (dir :: dirs)
  obtain ⟨entries, hentries⟩ : ∃ entries, layout 0 (dir :: dirs) = entries := ⟨_, rfl⟩
  rw [hentries] at hcount hnamed hlaid hst
  obtain ⟨l, stack'', hrun', hst', hsub, hnames⟩ := dirsLoop_spec (dirs.length + 2) [] hst (fun e he => hlaid.entry he)
    (by rw [List.length_nil]; omega) (by omega)
  rw [List.length_nil, Nat.zero_add, hcount] at hrun'
  rw [List.map_nil, hnamed] at hnames
  have hl : l.length ≤ 128 := Nat.le_trans hsub.length_le (by
    rw [List.reverse_nil, List.nil_append]
    omega)
  obtain ⟨b'', hrun'', hh', hlen⟩ := joinLoop_all (hlaid.sublist hsub) hst' hl (Nat.zero_lt_of_lt hin)
  have hres : VFS.normalizePath path = ['/'].intercalate (l.map Prod.snd) := by
    rw [hnames, ← hsplit]
    rfl
  have hclean : '\x00' ∉ ['/'].intercalate (l.map Prod.snd) := by
    intro hm
    obtain ⟨d, hd, hm⟩ := VFS.mem_intercalate hm (by decide)
    obtain ⟨e, he, rfl⟩ := List.mem_map.mp hd
    exact (hlaid.entry (hsub.subset he)).1.2.2 hm
  rw [hres]
  refine ⟨Function.update b'' (['/'].intercalate (l.map Prod.snd)).length '\x00', ?_, ⟨hh'.congr ?_, ?_, hclean⟩, hlen⟩
  · unfold normalizePath
    rw [hrun]
    dsimp only [Option.bind_eq_bind, Option.bind_some]
    rw [wr_in (by omega)]
    dsimp only [Option.bind_eq_bind, Option.bind_some]
    rw [hrun']
    dsimp only [Option.bind_eq_bind, Option.bind_some]
    rw [hrun'']
    dsimp only [Option.bind_eq_bind, Option.bind_some]
    rw [wr_in hlen]
    rfl
  · intro x _ hx
    exact Function.update_of_ne (by omega) _ _
  · rw [Nat.zero_add, Function.update_self]

/-! ## 5. PreparePath -/

section Slashes

variable {size : Nat} {b : Nat → Char} {path : List Char}

/-- No two slashes of what the loop writes stand together, so that at most half of it are slashes. -/
theorem collapseLoop_slashes (path : List Char) {written : List Char} {lastWasSlash : Bool}
    (h : 2 * written.count '/' ≤ written.length + if lastWasSlash then 1 else 0)
    (hl : lastWasSlash = true → ∃ w, written = w ++ ['/']) :
    2 * (VFS.collapseLoop path written lastWasSlash).1.count '/' ≤
    (VFS.collapseLoop path written lastWasSlash).1.length +
      (if (VFS.collapseLoop path written lastWasSlash).2 then 1 else 0) ∧
    ((VFS.collapseLoop path written lastWasSlash).2 = true →
    ∃ w, (VFS.collapseLoop path written lastWasSlash).1 = w ++ ['/']) := by
  induction path generalizing written lastWasSlash with
  | nil => exact ⟨h, hl⟩
  | cons c path ih =>
      rw [VFS.collapseLoop]
      by_cases hc : c = '/'
      · rw [if_pos hc]
        cases lastWasSlash with
        | true => exact ih h hl
        | false =>
            refine ih ?_ fun _ => ⟨written, rfl⟩
            rw [if_neg Bool.false_ne_true] at h
            rw [List.count_append, List.count_singleton_self, List.length_append, List.length_singleton, if_pos rfl]
            omega
      · rw [if_neg hc]
        refine ih ?_ fun h => by cases h
        have hcount : ([c].count '/') = 0 := List.count_eq_zero.mpr fun hm => hc (List.mem_singleton.mp hm).symm
        rw [List.count_append, hcount, List.length_append, List.length_singleton]
        split_ifs at h ⊢ <;> omega

theorem collapseLoop_length (path written : List Char) (lastWasSlash : Bool) :
    (VFS.collapseLoop path written lastWasSlash).1.length ≤ written.length + path.length := by
  induction path generalizing written lastWasSlash with
  | nil => exact Nat.le_refl _
  | cons c path ih =>
      have hput : ∀ (x : Char) (slash : Bool), (VFS.collapseLoop path (written ++ [x]) slash).1.length ≤
          written.length + (c :: path).length := by
        intro x slash
        refine Nat.le_trans (ih _ slash) ?_
        rw [List.length_append, List.length_singleton, List.length_cons]
        omega
      rw [VFS.collapseLoop]
      by_cases hc : c = '/'
      · rw [if_pos hc]
        cases lastWasSlash with
        | true => exact Nat.le_trans (ih written true) (Nat.add_le_add_left (Nat.le_succ _) _)
        | false => exact hput '/' true
      · rw [if_neg hc]
        exact hput c false

theorem mem_collapseLoop {path written : List Char} {lastWasSlash : Bool} {c : Char}
    (h : c ∈ (VFS.collapseLoop path written lastWasSlash).1) : c ∈ written ∨ c ∈ path := by
  induction path generalizing written lastWasSlash with
  | nil => exact Or.inl h
  | cons x path ih =>
      have hput : ∀ slash, c ∈ (VFS.collapseLoop path (written ++ [x]) slash).1 → c ∈ written ∨ c ∈ x :: path := by
        intro slash hm
        rcases ih hm with hm | hm
        · rcases List.mem_append.mp hm with hm | hm
          · exact Or.inl hm
          · exact Or.inr (List.mem_singleton.mp hm ▸ List.mem_cons_self)
        · exact Or.inr (List.mem_cons_of_mem _ hm)
      rw [VFS.collapseLoop] at h
      by_cases hx : x = '/'
      · rw [if_pos hx] at h
        cases lastWasSlash with
        | true => exact (ih h).imp_right (List.mem_cons_of_mem _)
        | false => exact hput true (hx ▸ h)
      · rw [if_neg hx] at h
        exact hput false h

/-- The loop and the cut, in the buffer. -/
theorem collapse_spec (h : Text b 0 path) (hin : path.length < size) : ∃ writePos lastWasSlash b' b'',
    collapseLoop size path.length 0 0 false b = some (writePos, lastWasSlash, b') ∧
      cutSlash size writePos lastWasSlash b' = some b'' ∧ Text b'' 0 (VFS.collapseSlashes path) ∧
      (VFS.collapseSlashes path).length ≤ path.length ∧
      2 * (VFS.collapseSlashes path).count '/' ≤ (VFS.collapseSlashes path).length := by
  have hnone : Holds b 0 ([] : List Char) := trivial
  have hin' : 0 + path.length ≤ size := by omega
  have hstart : 2 * ([] : List Char).count '/' ≤ ([] : List Char).length + if false = true then 1 else 0 :=
    Nat.le_refl 0
  obtain ⟨b', hrun, hh⟩ := collapseLoop_spec false hnone h.1 (Nat.le_refl _) hin'
  obtain ⟨hcount, hlast⟩ := collapseLoop_slashes path hstart fun h => by cases h
  have hlen := collapseLoop_length path [] false
  have hmem : '\x00' ∉ (VFS.collapseLoop path [] false).1 := fun hm =>
    (mem_collapseLoop hm).elim (fun hm => by cases hm) h.2.2
  unfold VFS.collapseSlashes
  dsimp only
  obtain ⟨r, hr⟩ : ∃ r, VFS.collapseLoop path [] false = r := ⟨_, rfl⟩
  rw [hr] at hrun hh hcount hlast hlen hmem
  rw [hr]
  rw [List.length_nil, Nat.zero_add] at hlen
  rw [List.length_nil] at hrun
  obtain ⟨written, lastWasSlash⟩ := r
  dsimp only at hh hcount hlast hlen hmem
  refine ⟨written.length, lastWasSlash, b', ?_⟩
  cases lastWasSlash with
  | false =>
      rw [if_neg Bool.false_ne_true] at hcount
      refine ⟨Function.update b' written.length '\x00', hrun, wr_in (by omega) _, ⟨hh.congr ?_, ?_, hmem⟩, hlen, hcount⟩
      · intro x _ hx
        exact Function.update_of_ne (by omega) _ _
      · rw [Nat.zero_add]
        exact Function.update_self _ _ _
  | true =>
      obtain ⟨w, rfl⟩ := hlast rfl
      rw [List.length_append, List.length_singleton] at hlen hcount hrun
      rw [List.count_append, List.count_singleton_self, if_pos rfl] at hcount
      rw [if_pos rfl, List.dropLast_concat]
      refine ⟨Function.update b' w.length '\x00', ?_, ?_,
        ⟨(holds_append.mp hh).1.congr ?_, ?_, fun hm => ?_⟩, by omega, by omega⟩
      · rw [hrun, List.length_append, List.length_singleton]
      · rw [List.length_append, List.length_singleton]
        exact wr_in (by omega) _
      · intro x _ hx
        exact Function.update_of_ne (by omega) _ _
      · rw [Nat.zero_add, Function.update_self]
      · exact hmem (List.mem_append_left _ hm)

end Slashes

/-- The slashes that a path begins with. -/
def leadingSlashes (path : List Char) : Nat := (path.takeWhile (· = '/')).length

/-- The lengths with which `PreparePath` stays inside its buffer: the source of the copy over the leading slashes
    ends inside it, or so does the relative path behind the working directory. -/
def Fits (size : Nat) (cwd path : List Char) : Prop :=
  if VFS.isPathRelative path then
    cwd = [] ∨ 256 < path.length + cwd.length + 2 ∨ path.length + cwd.length + 1 < size
  else leadingSlashes path + path.length < size

instance (size : Nat) (cwd path : List Char) : Decidable (Fits size cwd path) := by
  unfold Fits
  infer_instance

/-- What a function answers for the string `path`: an error, or none and the string in the buffer. -/
def Answers (size : Nat) (path : Except Int (List Char)) (r : Int × (Nat → Char)) : Prop :=
  match path with
  | .error err => r.1 = err ∧ err ≠ OK
  | .ok path => r.1 = OK ∧ Text r.2 0 path ∧ path.length < size

section Parts

variable {size : Nat} {b : Nat → Char} {cwd path : List Char}

theorem prepareRelativePath_in (hsize : 255 ≤ size) (hcwd : '\x00' ∉ cwd) (h : Text b 0 path) (hlen : path.length < 255)
    (hfits : cwd = [] ∨ 256 < path.length + cwd.length + 2 ∨ path.length + cwd.length + 1 < size) :
    ∃ r, prepareRelativePath size cwd b = some r ∧ Answers size (VFS.prepareRelativePath cwd path) r := by
  unfold prepareRelativePath VFS.prepareRelativePath
  rw [kstrlen_eq h (by omega)]
  dsimp only [Option.bind_eq_bind, Option.bind_some]
  by_cases h0 : cwd.length = 0
  · rw [if_pos h0, if_pos h0]
    exact ⟨_, rfl, rfl, h, by omega⟩
  · rw [if_neg h0, if_neg h0]
    by_cases hlong : path.length + cwd.length + 2 > 256
    · rw [if_pos hlong, if_pos hlong]
      exact ⟨_, rfl, rfl, by decide⟩
    · rw [if_neg hlong, if_neg hlong]
      have hin : path.length + cwd.length + 1 < size := by
        rcases hfits with rfl | hfits | hfits
        · exact absurd rfl h0
        · exact absurd hfits hlong
        · exact hfits
      obtain ⟨b', hcwd', hh, hframe⟩ := wrList_eq cwd (moved b (cwd.length + 1) 0 path.length) 0
        (show 0 + cwd.length ≤ size by omega)
      dsimp only [Option.bind_eq_bind, Option.bind_some, pure]
      rw [kmemmove_eq (Nat.succ_pos _) (by omega)]
      dsimp only [Option.bind_eq_bind, Option.bind_some, pure]
      rw [hcwd']
      dsimp only [Option.bind_eq_bind, Option.bind_some, pure]
      rw [wr_in (by omega)]
      dsimp only [Option.bind_eq_bind, Option.bind_some, pure]
      rw [wr_in (by omega)]
      refine ⟨_, rfl, rfl, ⟨holds_append.mpr ⟨hh.congr fun x _ hx => ?_, ?_, ?_⟩, ?_, ?_⟩, ?_⟩
      · dsimp only
        rw [Function.update_of_ne (by omega), Function.update_of_ne (by omega)]
      · dsimp only
        rw [Nat.zero_add, Function.update_of_ne (by omega), Function.update_self]
      · rw [Nat.zero_add]
        refine (holds_moved h.1 (Nat.le_refl _)).congr fun x hx1 hx2 => ?_
        dsimp only
        rw [Function.update_of_ne (by omega), Function.update_of_ne (by omega), hframe x (by omega)]
      · dsimp only
        have hend : 0 + (cwd ++ '/' :: path).length = path.length + cwd.length + 1 := by
          rw [List.length_append, List.length_cons]
          omega
        rw [hend, Function.update_self]
      · intro hm
        rcases List.mem_append.mp hm with hm | hm
        · exact hcwd hm
        · exact (List.mem_cons.mp hm).elim (fun he => absurd he (by decide)) h.2.2
      · rw [List.length_append, List.length_cons]
        omega

/-- The `'\0'` is written behind the buffer. -/
theorem prepareRelativePath_out (hsize : 255 ≤ size) (h : Text b 0 path) (hlen : path.length < 255)
    (hfits : ¬ (cwd = [] ∨ 256 < path.length + cwd.length + 2 ∨ path.length + cwd.length + 1 < size)) :
    prepareRelativePath size cwd b = none := by
  rw [not_or, not_or] at hfits
  have h0 : ¬ cwd.length = 0 := fun he => hfits.1 (List.length_eq_zero_iff.mp he)
  obtain ⟨b', hcwd', -⟩ := wrList_eq cwd (moved b (cwd.length + 1) 0 path.length) 0
    (show 0 + cwd.length ≤ size by omega)
  unfold prepareRelativePath
  rw [kstrlen_eq h (by omega)]
  dsimp only [Option.bind_eq_bind, Option.bind_some]
  rw [if_neg h0, if_neg (by omega)]
  dsimp only [Option.bind_eq_bind, Option.bind_some, pure]
  rw [kmemmove_eq (Nat.succ_pos _) (by omega)]
  dsimp only [Option.bind_eq_bind, Option.bind_some, pure]
  rw [hcwd']
  dsimp only [Option.bind_eq_bind, Option.bind_some, pure]
  rw [wr_in (by omega)]
  dsimp only [Option.bind_eq_bind, Option.bind_some, pure]
  rw [wr_out (by omega)]
  rfl

theorem leadingSlashes_cons (c : Char) (path : List Char) :
    leadingSlashes (c :: path) = if c = '/' then leadingSlashes path + 1 else 0 := by
  unfold leadingSlashes
  rw [List.takeWhile_cons]
  by_cases hc : c = '/'
  · rw [if_pos hc, if_pos (decide_eq_true hc), List.length_cons]
  · rw [if_neg hc, if_neg (by simpa using hc), List.length_nil]

theorem slashesLoop_eq {k fuel : Nat} (h : Text b k path) (hin : k + path.length < size) (hf : path.length < fuel) :
    slashesLoop size b fuel k = some (k + leadingSlashes path) := by
  induction path generalizing k fuel with
  | nil =>
      obtain ⟨f, rfl⟩ : ∃ f, fuel = f + 1 := ⟨fuel - 1, by omega⟩
      have hend : b k = '\x00' := h.2.1
      rw [slashesLoop, rd_in (by simpa using hin), hend]
      rfl
  | cons c path ih =>
      obtain ⟨f, rfl⟩ : ∃ f, fuel = f + 1 := ⟨fuel - 1, by omega⟩
      rw [List.length_cons] at hin hf
      rw [slashesLoop, rd_in (by omega), h.head.1]
      dsimp only [Option.bind_eq_bind, Option.bind_some]
      rw [leadingSlashes_cons]
      by_cases hc : c = '/'
      · rw [if_pos hc, if_pos hc, ih h.tail (by omega) (by omega)]
        exact congrArg some (by omega)
      · rw [if_neg hc, if_neg hc]
        rfl

theorem prepareAbsolutePath_eq (h : Text b 0 path) (hlen : path.length < size) : prepareAbsolutePath size b =
    (kmemcpy size b 0 (leadingSlashes path) (path.length + 1)).map fun b => (OK, b) := by
  unfold prepareAbsolutePath
  rw [slashesLoop_eq h (by omega) (by omega)]
  dsimp only [Option.bind_eq_bind, Option.bind_some]
  rw [kstrlen_eq h (by omega), Nat.zero_add]
  dsimp only [Option.bind_eq_bind, Option.bind_some]
  cases kmemcpy size b 0 (leadingSlashes path) (path.length + 1) <;> rfl

theorem prepareAbsolutePath_in (h : Text b 0 path) (hlen : path.length < size)
    (hfits : leadingSlashes path + path.length < size) :
    ∃ r, prepareAbsolutePath size b = some r ∧ Answers size (.ok (VFS.prepareAbsolutePath path)) r := by
  have hcut : path.takeWhile (· = '/') ++ path.dropWhile (· = '/') = path := List.takeWhile_append_dropWhile
  have hsum : leadingSlashes path + (VFS.prepareAbsolutePath path).length = path.length := by
    rw [← congrArg List.length hcut, List.length_append]
    rfl
  have hrest : Holds b (leadingSlashes path) (VFS.prepareAbsolutePath path) := by
    have hh := h.1
    rw [← hcut, holds_append, Nat.zero_add] at hh
    exact hh.2
  rw [prepareAbsolutePath_eq h hlen, kmemcpy_eq (Nat.zero_le _) (by omega)]
  refine ⟨_, rfl, rfl, ⟨holds_moved hrest (by omega), ?_,
    fun hm => h.2.2 ((List.dropWhile_sublist _).subset hm)⟩, by omega⟩
  show moved b 0 (leadingSlashes path) (path.length + 1) (0 + (VFS.prepareAbsolutePath path).length) = '\x00'
  rw [moved, if_pos (by omega), Nat.zero_add, Nat.sub_zero, hsum]
  exact Nat.zero_add path.length ▸ h.2.1

end Parts

section Prepare

variable {size : Nat} {user : Nat → Option Char} {cwd path : List Char} {b : Nat → Char}

/-- The path is made absolute inside the buffer exactly where it fits. -/
theorem makeAbsolute_spec (hsize : 255 ≤ size) (hcwd : '\x00' ∉ cwd) (h : Text b 0 path) (hlen : path.length < 255) :
    (Fits size cwd path → ∃ r, makeAbsolute size cwd b = some r ∧
        Answers size (if VFS.isPathRelative path then VFS.prepareRelativePath cwd path
          else .ok (VFS.prepareAbsolutePath path)) r) ∧
    (¬ Fits size cwd path → makeAbsolute size cwd b = none) := by
  have hfirst : b 0 ≠ '/' ↔ VFS.isPathRelative path = true := by
    cases path with
    | nil =>
        have hend : b 0 = '\x00' := h.2.1
        rw [hend]
        decide
    | cons c path =>
        rw [h.head.1]
        simp [VFS.isPathRelative]
  unfold Fits makeAbsolute
  rw [rd_in (by omega)]
  dsimp only [Option.bind_eq_bind, Option.bind_some]
  by_cases hrel : VFS.isPathRelative path = true
  · rw [if_pos (hfirst.mpr hrel), if_pos hrel, if_pos hrel]
    exact ⟨prepareRelativePath_in hsize hcwd h hlen, prepareRelativePath_out hsize h hlen⟩
  · rw [if_neg (mt hfirst.mp hrel), if_neg hrel, if_neg hrel]
    refine ⟨prepareAbsolutePath_in h (Nat.lt_of_lt_of_le hlen hsize), fun hfits => ?_⟩
    rw [prepareAbsolutePath_eq h (Nat.lt_of_lt_of_le hlen hsize),
      kmemcpy_out (Nat.zero_le _) (by omega) (Nat.succ_pos _)]
    rfl

/-- Where it fits, 128 names at most are in it. -/
theorem absolute_length (hlen : path.length < 255) {s : List Char}
    (h : (if VFS.isPathRelative path then VFS.prepareRelativePath cwd path
      else .ok (VFS.prepareAbsolutePath path)) = Except.ok s) : s.length ≤ 255 := by
  split_ifs at h with hrel
  · unfold VFS.prepareRelativePath at h
    split_ifs at h with h0 hlong
    · cases h
      exact Nat.le_of_lt hlen
    · cases h
      rw [List.length_append, List.length_cons]
      omega
  · cases h
    exact Nat.le_trans (List.dropWhile_sublist _).length_le (Nat.le_of_lt hlen)

/-- **The path fits**: the function stays inside the buffer and answers what `VFS.preparePath` says. -/
theorem preparePath_in (b : Nat → Char) (stack : Nat → Nat) (hsize : 255 ≤ size) (hcwd : '\x00' ∉ cwd)
    (hfits : ∀ path, userText user 255 0 = some path → Fits size cwd path) :
    ∃ r, preparePath size user cwd b stack = some r ∧ Answers size (VFS.preparePath cwd (userText user 255 0)) r := by
  have h255 : 0 + 255 ≤ size := by omega
  obtain ⟨b', hcopy, -, htext⟩ := kpathcpyLoop_eq user 255 0 b h255
  unfold preparePath kpathcpyUsersafe
  rw [hcopy]
  dsimp only [Option.bind_eq_bind, Option.bind_some, pure]
  cases hu : userText user 255 0 with
  | none => exact ⟨_, rfl, rfl, by decide⟩
  | some path =>
      obtain ⟨hlen, hnul⟩ := userText_bound hu
      obtain ⟨hin, -⟩ := makeAbsolute_spec hsize hcwd (htext path hu) hlen
      obtain ⟨⟨err, b''⟩, hrun, hans⟩ := hin (hfits path hu)
      rw [VFS.preparePath_some hlen]
      have hbound := fun s => @absolute_length cwd path hlen s
      obtain ⟨stage, hstage⟩ : ∃ stage, (if VFS.isPathRelative path then VFS.prepareRelativePath cwd path
          else .ok (VFS.prepareAbsolutePath path)) = stage := ⟨_, rfl⟩
      rw [hstage] at hans hbound
      rw [hstage]
      show ∃ r, ((makeAbsolute size cwd b').bind fun _ => _) = some r ∧ _
      rw [hrun, Option.bind_some]
      dsimp only
      cases stage with
      | error e =>
          obtain ⟨rfl, he⟩ := hans
          rw [if_pos he]
          exact ⟨_, rfl, rfl, he⟩
      | ok s =>
          obtain ⟨rfl, hs, hsin⟩ := hans
          rw [if_neg (fun h => h rfl), kstrlen_eq hs (by omega)]
          obtain ⟨writePos, lastWasSlash, b1, b2, hloop, hcut, hs', hlen', hcount⟩ := collapse_spec hs hsin
          have hs255 := hbound s rfl
          have hin' : (VFS.collapseSlashes s).length < size := by omega
          obtain ⟨b3, hnorm, hres⟩ := normalizePath_spec stack hs' hin' (by rw [VFS.splitOn_length]; omega)
          rw [Option.bind_some, hloop, Option.bind_some]
          dsimp only
          rw [hcut, Option.bind_some, hnorm]
          exact ⟨_, rfl, rfl, hres⟩

/-- **It does not fit**: the function leaves the buffer. -/
theorem preparePath_out (b : Nat → Char) (stack : Nat → Nat) (hsize : 255 ≤ size) (hcwd : '\x00' ∉ cwd)
    (hu : userText user 255 0 = some path)
    (hfits : ¬ Fits size cwd path) : preparePath size user cwd b stack = none := by
  have h255 : 0 + 255 ≤ size := by omega
  obtain ⟨b', hcopy, -, htext⟩ := kpathcpyLoop_eq user 255 0 b h255
  obtain ⟨hlen, hnul⟩ := userText_bound hu
  obtain ⟨-, hout⟩ := makeAbsolute_spec hsize hcwd (htext path hu) hlen
  unfold preparePath kpathcpyUsersafe
  rw [hcopy, hu]
  dsimp only [Option.bind_eq_bind, Option.bind_some, pure, Option.isSome_some]
  show ((makeAbsolute size cwd b').bind fun _ => _) = none
  rw [hout hfits]
  rfl

/-- `PreparePath` with the buffer of its callers touches no byte behind it and no entry behind the 128 of the stack,
    and answers an error or leaves a string there. -/
def Inside (size : Nat) (user : Nat → Option Char) (cwd : List Char) (b : Nat → Char) (stack : Nat → Nat) : Prop :=
  ∃ r, preparePath size user cwd b stack = some r ∧ (r.1 = OK → ∃ k < size, r.2 k = '\x00')

/-- **The buffer is not left** exactly where the path fits. -/
theorem prepared_inside (user : Nat → Option Char) (cwd : List Char) (b : Nat → Char) (stack : Nat → Nat)
    (hcwd : '\x00' ∉ cwd ∧ cwd.length ≤ 255) :
    Inside 255 user cwd b stack ↔ ∀ path, userText user 255 0 = some path → Fits 255 cwd path := by
  constructor
  · intro ⟨r, hr, _⟩ path hu
    by_contra hfits
    rw [preparePath_out b stack (Nat.le_refl 255) hcwd.1 hu hfits] at hr
    cases hr
  · intro hfits
    obtain ⟨r, hr, hans⟩ := preparePath_in b stack (Nat.le_refl 255) hcwd.1 hfits
    refine ⟨r, hr, fun hok => ?_⟩
    cases hres : VFS.preparePath cwd (userText user 255 0) with
    | error err =>
        rw [hres] at hans
        exact absurd (hans.1.symm.trans hok) hans.2
    | ok s =>
        rw [hres] at hans
        exact ⟨s.length, hans.2.2, Nat.zero_add s.length ▸ hans.2.1.2.1⟩

/-- A program's path of one letter. -/
def oneLetter (i : Nat) : Option Char := some (if i = 0 then 'a' else '\x00')

theorem oneLetter_text : userText oneLetter 255 0 = some ['a'] := by decide +kernel

/-- In a folder with a short name it is prepared inside the buffer. -/
theorem prepared_inside_short : Inside 255 oneLetter ['b'] (fun _ => '\x00') fun _ => 0 := by
  refine (prepared_inside oneLetter ['b'] _ _ (by decide)).mpr fun path hu => ?_
  cases oneLetter_text.symm.trans hu
  decide

/-- In a folder whose path has 253 letters the two lengths pass the test, and byte 255 of the 255 is written. -/
theorem prepared_behind : ('\x00' ∉ List.replicate 253 'b' ∧ (List.replicate 253 'b').length ≤ 255) ∧
    ¬ Inside 255 oneLetter (List.replicate 253 'b') (fun _ => '\x00') fun _ => 0 := by
  have hcwd : '\x00' ∉ List.replicate 253 'b' := fun hm => absurd (List.eq_of_mem_replicate hm) (by decide)
  refine ⟨⟨hcwd, by rw [List.length_replicate]; decide⟩, ?_⟩
  intro ⟨r, hr, _⟩
  rw [preparePath_out _ _ (Nat.le_refl 255) hcwd oneLetter_text (by decide +kernel)] at hr
  cases hr

end Prepare

end PathBuffer

end SimpleOS2
