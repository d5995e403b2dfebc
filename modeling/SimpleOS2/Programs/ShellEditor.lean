/-
  File:      SimpleOS2/Programs/ShellEditor.lean
  Subject:   THE LINE EDITOR OF THE SHELL (Programs/Shell/main.cpp: HandleBackspace, HandleCommand, the loop of main).

  The command line is 128 bytes, the history 1024 lines of 128 bytes that fill from the last one on. An access
  outside of either has no result.

  * `strcpy`, `strcmp` -- the functions of libsimpleos2, between two arrays;
  * `recent` -- the commands that the history is to hold: neighbours that are equal count once, the last 1024;
  * `exec` -- a step of the loop: a kill, the test of `killed`, a character;
  * `EditorOk` -- the indices are in bounds, the line is terminated, the history holds the recent commands;
  * `Safe` -- the line has room and nothing stands behind it, the history has room;
  * `editor_invariant` -- where every step is safe it stays so; `editor_leftover` -- where one is not.
-/
import Mathlib.Data.List.Chain
import SimpleOS2.Lib.Run
import SimpleOS2.Programs.ShellTokens

namespace SimpleOS2

open Lib Bounded

namespace Shell

/-! ## 1. Strings between two arrays -/

/-- The loop of `strcpy`. -/
def strcpyLoop (size size' : Nat) (src : Nat → Char) : (fuel : Nat) → (b : Nat → Char) → (d s : Nat) →
    Option (Nat → Char)
  | 0, _, _, _ => none
  | fuel + 1, b, d, s => do
      let c ← rd size' src s
      let b ← wr size b d c
      if c = '\x00' then some b else strcpyLoop size size' src fuel b (d + 1) (s + 1)

/-- `strcpy` from the array `src` at `s` to the array `b` at `d`. The loop has left `src` after `size'` rounds. -/
def strcpy (size : Nat) (b : Nat → Char) (d size' : Nat) (src : Nat → Char) (s : Nat) : Option (Nat → Char) :=
  strcpyLoop size size' src (size' + 1) b d s

/-- The loop of `strcmp`: whether it answers 0. -/
def strcmpLoop (size size' : Nat) (b src : Nat → Char) : (fuel : Nat) → (d s : Nat) → Option Bool
  | 0, _, _ => none
  | fuel + 1, d, s => do
      let x ← rd size b d
      let y ← rd size' src s
      if x = y then if x = '\x00' then some true else strcmpLoop size size' b src fuel (d + 1) (s + 1)
      else some false

def strcmp (size : Nat) (b : Nat → Char) (d size' : Nat) (src : Nat → Char) (s : Nat) : Option Bool :=
  strcmpLoop size size' b src (size' + 1) d s

section Strings

variable {size size' d s fuel : Nat} {b src : Nat → Char} {t u : List Char}

theorem strcpyLoop_eq (h : Text src s t) (hs : s + t.length < size') (hd : d + t.length < size)
    (hf : t.length < fuel) : ∃ b', strcpyLoop size size' src fuel b d s = some b' ∧ Text b' d t ∧
      ∀ x, x < d ∨ d + t.length < x → b' x = b x := by
  induction t generalizing b d s fuel with
  | nil =>
      obtain ⟨fuel, rfl⟩ : ∃ n, fuel = n + 1 := ⟨fuel - 1, by omega⟩
      have hend : src s = '\x00' := h.2.1
      refine ⟨Function.update b d '\x00', ?_, ⟨trivial, Function.update_self _ _ _, List.not_mem_nil⟩, fun x hx => ?_⟩
      · rw [strcpyLoop, rd_in (by simpa using hs), hend]
        show (wr size b d '\x00').bind (fun b => if '\x00' = '\x00' then some b else _) = _
        rw [wr_in (by simpa using hd)]
        rfl
      · rw [List.length_nil] at hx
        exact Function.update_of_ne (by omega) _ _
  | cons c t ih =>
      obtain ⟨fuel, rfl⟩ : ∃ n, fuel = n + 1 := ⟨fuel - 1, by omega⟩
      rw [List.length_cons] at hs hd hf
      obtain ⟨b', hcopy, htext, hframe⟩ :=
        ih (b := Function.update b d c) h.tail (by omega) (show d + 1 + t.length < size by omega)
          (show t.length < fuel by omega)
      refine ⟨b', ?_, ⟨⟨?_, htext.1⟩, ?_, h.2.2⟩, fun x hx => ?_⟩
      · rw [strcpyLoop, rd_in (by omega), h.head.1]
        show (wr size b d c).bind (fun b => if c = '\x00' then some b else _) = _
        rw [wr_in (by omega)]
        exact (if_neg h.head.2).trans hcopy
      · rw [hframe d (Or.inl (Nat.lt_succ_self d)), Function.update_self]
      · have hend := htext.2.1
        rwa [Nat.add_right_comm] at hend
      · rw [List.length_cons] at hx
        rw [hframe x (by omega), Function.update_of_ne (by omega)]

/-- **The copy of a string**, and nothing else is written. -/
theorem strcpy_eq (h : Text src s t) (hs : s + t.length < size') (hd : d + t.length < size) :
    ∃ b', strcpy size b d size' src s = some b' ∧ Text b' d t ∧ ∀ x, x < d ∨ d + t.length < x → b' x = b x :=
  strcpyLoop_eq h hs hd (by omega)

theorem strcmpLoop_eq (h : Text b d t) (h' : Text src s u) (hd : d + t.length < size) (hs : s + u.length < size')
    (hf : u.length < fuel) : strcmpLoop size size' b src fuel d s = some (decide (t = u)) := by
  induction u generalizing d s t fuel with
  | nil =>
      obtain ⟨fuel, rfl⟩ : ∃ n, fuel = n + 1 := ⟨fuel - 1, by omega⟩
      have hend : src s = '\x00' := h'.2.1
      rw [strcmpLoop, rd_in (show d < size by omega), rd_in (by simpa using hs), hend]
      cases t with
      | nil =>
          have hend' : b d = '\x00' := h.2.1
          show (if b d = '\x00' then _ else _) = _
          rw [hend']
          rfl
      | cons c t =>
          show (if b d = '\x00' then _ else _) = _
          rw [h.head.1, if_neg h.head.2]
          exact congrArg some (decide_eq_false (List.cons_ne_nil c t)).symm
  | cons y u ih =>
      obtain ⟨fuel, rfl⟩ : ∃ n, fuel = n + 1 := ⟨fuel - 1, by omega⟩
      rw [List.length_cons] at hs hf
      rw [strcmpLoop, rd_in (show d < size by omega), rd_in (show s < size' by omega), h'.head.1]
      cases t with
      | nil =>
          have hend : b d = '\x00' := h.2.1
          show (if b d = y then _ else _) = _
          rw [hend, if_neg h'.head.2.symm]
          exact congrArg some (decide_eq_false (List.cons_ne_nil y u).symm).symm
      | cons c t =>
          rw [List.length_cons] at hd
          show (if b d = y then (if b d = '\x00' then _ else _) else _) = _
          rw [h.head.1]
          by_cases hc : c = y
          · rw [if_pos hc, if_neg h.head.2, ih h.tail h'.tail (by omega) (by omega) (by omega)]
            exact congrArg some (decide_eq_decide.mpr ⟨fun heq => by rw [hc, heq], fun heq => (List.cons.inj heq).2⟩)
          · rw [if_neg hc]
            exact congrArg some (decide_eq_false fun heq => hc (List.cons.inj heq).1).symm

/-- **The comparison of two strings.** -/
theorem strcmp_eq (h : Text b d t) (h' : Text src s u) (hd : d + t.length < size) (hs : s + u.length < size') :
    strcmp size b d size' src s = some (decide (t = u)) := strcmpLoop_eq h h' hd hs (by omega)

end Strings

/-! ## 2. The commands to remember -/

/-- A command goes behind the others unless the last one is the same. -/
def remember (commands : List (List Char)) (c : List Char) : List (List Char) :=
  if commands.getLast? = some c then commands else commands ++ [c]

/-- The commands entered, equal neighbours once. -/
def distinct (entered : List (List Char)) : List (List Char) := entered.foldl remember []

/-- The last 1024 of them. -/
def recent (entered : List (List Char)) : List (List Char) :=
  (distinct entered).drop ((distinct entered).length - 1024)

section Commands

variable {entered : List (List Char)} {c : List Char}

theorem distinct_append (entered : List (List Char)) (c : List Char) :
    distinct (entered ++ [c]) = remember (distinct entered) c := by
  unfold distinct
  rw [List.foldl_append]
  rfl

theorem distinct_chain (entered : List (List Char)) : (distinct entered).IsChain (· ≠ ·) := by
  induction entered using List.reverseRecOn with
  | nil => exact .nil
  | append_singleton entered c ih =>
      rw [distinct_append]
      unfold remember
      split_ifs with hlast
      · exact ih
      · refine List.isChain_append.mpr ⟨ih, .singleton c, fun x hx y hy => ?_⟩
        obtain rfl : c = y := by simpa using hy
        exact fun heq => hlast (heq ▸ hx)

theorem recent_chain (entered : List (List Char)) : (recent entered).IsChain (· ≠ ·) :=
  (distinct_chain entered).drop _

theorem recent_eq (h : (recent entered).length < 1024) : recent entered = distinct entered := by
  unfold recent at h ⊢
  rw [List.length_drop] at h
  rw [show (distinct entered).length - 1024 = 0 by omega]
  rfl

/-- A new command, with room for it. -/
theorem recent_push (h : (recent entered).length < 1024) (hlast : (recent entered).getLast? ≠ some c) :
    recent (entered ++ [c]) = recent entered ++ [c] := by
  have heq := recent_eq h
  rw [heq] at h hlast ⊢
  have hpush : distinct (entered ++ [c]) = distinct entered ++ [c] := by
    rw [distinct_append]
    exact if_neg hlast
  have hlen : (distinct entered ++ [c]).length - 1024 = 0 := by
    rw [List.length_append, List.length_singleton]
    omega
  unfold recent
  rw [hpush, hlen]
  rfl

/-- The command that is there already. -/
theorem recent_same (hlast : (recent entered).getLast? = some c) : recent (entered ++ [c]) = recent entered := by
  have hdistinct : (distinct entered).getLast? = some c := by
    unfold recent at hlast
    rw [List.getLast?_drop] at hlast
    split_ifs at hlast
    exact hlast
  unfold recent
  rw [distinct_append]
  unfold remember
  rw [if_pos hdistinct]

end Commands

/-! ## 3. The editor -/

/-- The bytes of a line, the lines of the history. -/
def lineSize : Nat := 128
def historySize : Nat := 1024

/-- Where the loop of `main` stands. -/
inductive Place
  | test
  | read
  | exited
  deriving DecidableEq

/-- The variables of the shell; the line `i` of `g_History` starts at `128 * i`. `entered` are the commands so far. -/
structure Editor where
  history : Nat → Char
  historyMin : Nat
  historyIndex : Nat
  cmdBuffer : Nat → Char
  cmdIndex : Nat
  killed : Bool
  place : Place
  entered : List (List Char)

/-- The shell before its first prompt; the history is not initialised. -/
structure EditorStart (s : Editor) : Prop where
  historyMin : s.historyMin = historySize
  historyIndex : s.historyIndex = historySize
  cmdBuffer : s.cmdBuffer = fun _ => '\x00'
  cmdIndex : s.cmdIndex = 0
  killed : s.killed = false
  place : s.place = .test
  entered : s.entered = []

namespace Editor

/-- The loop that zeroes `g_CmdBuffer`, and `g_CmdBufferIndex = 0`. -/
def clearLine (s : Editor) : Editor := { s with cmdBuffer := fun _ => '\x00', cmdIndex := 0 }

/-- `HandleBackspace`. -/
def handleBackspace (s : Editor) : Option Editor :=
  if 0 < s.cmdIndex then
    (wr lineSize s.cmdBuffer (s.cmdIndex - 1) '\x00').map fun b => { s with cmdBuffer := b, cmdIndex := s.cmdIndex - 1 }
  else some s

/-- The lines of the history move one place down, and the command becomes the last one. Line -1 is none. -/
def pushHistory (s : Editor) : Option Editor :=
  if s.historyMin = 0 then none
  else do
    let h ← copyUp (historySize * lineSize) (lineSize * (historySize - s.historyMin)) s.history
      (lineSize * (s.historyMin - 1)) (lineSize * s.historyMin)
    let h ← strcpy (historySize * lineSize) h (lineSize * (historySize - 1)) lineSize s.cmdBuffer 0
    some { s with history := h, historyMin := s.historyMin - 1 }

/-- The first part of `HandleCommand`. -/
def rememberCommand (s : Editor) : Option Editor :=
  if s.historyMin = historySize then s.pushHistory
  else do
    let same ← strcmp (historySize * lineSize) s.history (lineSize * (historySize - 1)) lineSize s.cmdBuffer 0
    if same then some s else s.pushHistory

/-- The rest of it. What a builtin or a child does leaves the variables as they are. -/
def runCommand (s : Editor) : Option Editor := do
  let (b, argv) ← argvLoop lineSize (lineSize + 1) s.cmdBuffer 0 []
  match argv with
  | [] => some { s with cmdBuffer := b }
  | arg :: _ =>
      let isExit ← kstrcmp lineSize b arg ['e', 'x', 'i', 't']
      if isExit then some { s with cmdBuffer := b, place := .exited } else some (clearLine s)

/-- The string in `g_CmdBuffer`. -/
def line (s : Editor) : List Char := ((List.range lineSize).map s.cmdBuffer).takeWhile fun c => c ≠ '\x00'

/-- `HandleCommand`. -/
def handleCommand (s : Editor) : Option Editor :=
  if s.cmdIndex = 0 then some s
  else do
    let s ← rememberCommand { s with entered := s.entered ++ [s.line] }
    s.runCommand

/-- The line of the history comes into `g_CmdBuffer`; the old line has been taken from the screen. -/
def showLine (s : Editor) (index : Nat) : Option Editor := do
  let _ ← kstrlen lineSize s.cmdBuffer 0
  let b ← strcpy lineSize s.cmdBuffer 0 (historySize * lineSize) s.history (lineSize * index)
  let len ← kstrlen lineSize b 0
  some { s with historyIndex := index, cmdBuffer := b, cmdIndex := len }

/-- `'\1'` and `'\2'`. -/
def historyUp (s : Editor) : Option Editor :=
  if s.historyMin < s.historyIndex then s.showLine (s.historyIndex - 1) else some s

def historyDown (s : Editor) : Option Editor :=
  if s.historyIndex < historySize - 1 then s.showLine (s.historyIndex + 1)
  else if s.historyIndex = historySize - 1 then
    (kstrlen lineSize s.cmdBuffer 0).map fun _ => clearLine { s with historyIndex := historySize }
  else some s

/-- `g_CmdBuffer[g_CmdBufferIndex++] = c`. -/
def typeChar (s : Editor) (c : Char) : Option Editor :=
  (wr lineSize s.cmdBuffer s.cmdIndex c).map fun b => { s with cmdBuffer := b, cmdIndex := s.cmdIndex + 1 }

/-- A character of the loop. -/
def readChar (s : Editor) (c : Char) : Option Editor :=
  if c = '\x08' then handleBackspace { s with historyIndex := historySize }
  else if c = '\n' then handleCommand { s with historyIndex := historySize }
  else if c = '\x01' then s.historyUp
  else if c = '\x02' then s.historyDown
  else typeChar { s with historyIndex := historySize } c

end Editor

inductive EditorEvent
  /-- `HandleKill` -/
  | kill
  /-- `if(killed)` -/
  | test
  /-- `read` gives a character; a keyboard has no `'\0'` -/
  | read (c : Char) (hc : c ≠ '\x00')
  /-- `read` gives nothing -/
  | empty

def exec (s : Editor) : EditorEvent → Option Editor
  | .kill => some { s with killed := true }
  | .test =>
      if s.place = .test then
        if s.killed then some (Editor.clearLine { s with historyIndex := historySize, killed := false })
        else some { s with place := .read }
      else none
  | .read c _ => if s.place = .read then Editor.readChar { s with place := .test } c else none
  | .empty => if s.place = .read then some { s with place := .test } else none

def editorStep (s : Editor) (e : EditorEvent) (s' : Editor) : Prop := exec s e = some s'

/-- The lines from `first` on are the entries. -/
structure Held (history : Nat → Char) (first : Nat) (entries : List (List Char)) : Prop where
  count : entries.length + first = historySize
  short : ∀ t ∈ entries, t.length < lineSize
  text : ∀ k t, entries[k]? = some t → Text history (lineSize * (first + k)) t

/-- The indices are in bounds, the line ends at the index, the history holds the recent commands. -/
structure EditorOk (s : Editor) : Prop where
  bounded : s.cmdIndex < lineSize
  terminated : s.cmdBuffer s.cmdIndex = '\x00'
  /-- no `'\0'` before (once `exit` has been cut out of the line, there is no loop any more) -/
  whole : s.place ≠ .exited → ∃ line, Text s.cmdBuffer 0 line ∧ line.length = s.cmdIndex
  index : s.historyMin ≤ s.historyIndex ∧ s.historyIndex ≤ historySize
  held : Held s.history s.historyMin (recent s.entered)
  apart : (recent s.entered).IsChain (· ≠ ·)

/-- A character that goes into the line. -/
def IsTyped (c : Char) : Prop := c ≠ '\x08' ∧ c ≠ '\n' ∧ c ≠ '\x01' ∧ c ≠ '\x02'

/-- The line has room for the character, and a `'\0'` behind it; the history has room for the command, or it is the
    last one again. -/
def Safe (s : Editor) : EditorEvent → Prop
  | .read c _ =>
      (IsTyped c → s.cmdIndex + 1 < lineSize ∧ s.cmdBuffer (s.cmdIndex + 1) = '\x00') ∧
        (c = '\n' → s.cmdIndex = 0 ∨ 0 < s.historyMin ∨
          ∃ t, Text s.history (lineSize * (historySize - 1)) t ∧ Text s.cmdBuffer 0 t)
  | _ => True

/-! ## 4. The history -/

section History

variable {s : Editor} {history : Nat → Char} {first : Nat} {entries : List (List Char)} {t u line : List Char}

theorem text_inj {b : Nat → Char} {a : Nat} (h : Text b a t) (h' : Text b a u) : t = u := by
  induction t generalizing a u with
  | nil =>
      cases u with
      | nil => rfl
      | cons y u =>
          have hend : b a = '\x00' := h.2.1
          exact absurd (h'.head.1.symm.trans hend) h'.head.2
  | cons x t ih =>
      cases u with
      | nil =>
          have hend : b a = '\x00' := h'.2.1
          exact absurd (h.head.1.symm.trans hend) h.head.2
      | cons y u => rw [h.head.1.symm.trans h'.head.1, ih h.tail h'.tail]

/-- The string in the buffer is the line. -/
theorem line_eq (h : Text s.cmdBuffer 0 line) (hlen : line.length < lineSize) : s.line = line := by
  have hrange : (List.range lineSize).map s.cmdBuffer =
      line ++ '\x00' :: (List.range (lineSize - line.length - 1)).map fun i => s.cmdBuffer (line.length + 1 + i) := by
    refine List.ext_getElem? fun i => ?_
    rcases Nat.lt_trichotomy i line.length with hlt | rfl | hgt
    · have hcell := h.1.get hlt
      rw [Nat.zero_add] at hcell
      rw [List.getElem?_append_left hlt, List.getElem?_map, List.getElem?_range (Nat.lt_trans hlt hlen),
        List.getElem?_eq_getElem hlt, ← hcell]
      rfl
    · have hend := h.2.1
      rw [Nat.zero_add] at hend
      rw [List.getElem?_append_right (Nat.le_refl _), Nat.sub_self, List.getElem?_map, List.getElem?_range hlen]
      exact congrArg some hend
    · obtain ⟨k, rfl⟩ : ∃ k, i = line.length + 1 + k := ⟨i - line.length - 1, by omega⟩
      rw [List.getElem?_append_right (by omega), show line.length + 1 + k - line.length = k + 1 by omega,
        List.getElem?_cons_succ, List.getElem?_map, List.getElem?_map]
      by_cases hk : line.length + 1 + k < lineSize
      · rw [List.getElem?_range hk, List.getElem?_range (by omega)]
        rfl
      · rw [List.getElem?_eq_none (by rw [List.length_range]; omega),
          List.getElem?_eq_none (by rw [List.length_range]; omega)]
        rfl
  have hall : ∀ c ∈ line, decide (c ≠ '\x00') = true := fun c hc => decide_eq_true fun h0 => h.2.2 (h0 ▸ hc)
  unfold Editor.line
  rw [hrange, List.takeWhile_append_of_pos hall, List.takeWhile_cons_of_neg (by decide), List.append_nil]

theorem text_shift {b b' : Nat → Char} {a d : Nat} (h : Text b a t) (he : ∀ k ≤ t.length, b' (d + k) = b (a + k)) :
    Text b' d t :=
  ⟨h.1.shift fun k hk => he k (Nat.le_of_lt hk), (he _ (Nat.le_refl _)).trans h.2.1, h.2.2⟩

/-- **One more line**: the others have moved one place down. -/
theorem Held.push (h : Held s.history s.historyMin entries) (hroom : 0 < s.historyMin)
    (hline : Text s.cmdBuffer 0 line) (hlen : line.length < lineSize) :
    ∃ history, s.pushHistory = some { s with history := history, historyMin := s.historyMin - 1 } ∧
      Held history (s.historyMin - 1) (entries ++ [line]) := by
  have hcount := h.count
  unfold historySize at hcount
  have hcopy : copyUp (historySize * lineSize) (lineSize * (historySize - s.historyMin)) s.history
      (lineSize * (s.historyMin - 1)) (lineSize * s.historyMin) = some (moved s.history
        (lineSize * (s.historyMin - 1)) (lineSize * s.historyMin) (lineSize * (historySize - s.historyMin))) := by
    unfold lineSize historySize
    exact copyUp_eq (by omega) (by omega)
  have hfits : 0 + line.length < lineSize := by omega
  have hroom' : lineSize * (historySize - 1) + line.length < historySize * lineSize := by
    unfold lineSize historySize at *
    omega
  obtain ⟨history, hstr, htext, hframe⟩ := strcpy_eq hline hfits hroom'
  refine ⟨history, ?_, ?_, fun t ht => ?_, fun k t hk => ?_⟩
  · unfold Editor.pushHistory
    rw [if_neg (Nat.ne_of_gt hroom), hcopy]
    show (strcpy _ _ _ _ _ _).bind _ = _
    rw [hstr]
    rfl
  · rw [List.length_append, List.length_singleton]
    unfold historySize
    omega
  · rcases List.mem_append.mp ht with ht | ht
    · exact h.short t ht
    · exact (List.mem_singleton.mp ht) ▸ hlen
  · rcases Nat.lt_or_ge k entries.length with hlt | hge
    · -- a line that was there: copied, and not overwritten
      rw [List.getElem?_append_left hlt] at hk
      have hshort := h.short t (List.mem_of_getElem? hk)
      refine text_shift (h.text k t hk) fun i hi => ?_
      unfold lineSize historySize at *
      rw [hframe _ (Or.inl (by omega)), moved, if_pos (by omega)]
      exact congrArg s.history (by omega)
    · rw [List.getElem?_append_right hge] at hk
      obtain ⟨hk0, hkt⟩ := List.getElem?_eq_some_iff.mp hk
      have hk0' : k - entries.length = 0 := by simpa using hk0
      have hplace : s.historyMin - 1 + k = historySize - 1 := by
        unfold historySize
        omega
      have hkt' : line = t := by simpa [hk0'] using hk
      rw [hplace, ← hkt']
      exact htext

/-- **What the first part of `HandleCommand` does.** -/
theorem rememberCommand_spec {entered : List (List Char)} (h : Held s.history s.historyMin (recent entered))
    (hline : Text s.cmdBuffer 0 line) (hlen : line.length < lineSize)
    (hroom : 0 < s.historyMin ∨
      ∃ t, Text s.history (lineSize * (historySize - 1)) t ∧ Text s.cmdBuffer 0 t) :
    ∃ history first, s.rememberCommand = some { s with history := history, historyMin := first } ∧
      first ≤ s.historyMin ∧ Held history first (recent (entered ++ [line])) := by
  have hcount := h.count
  unfold Editor.rememberCommand
  by_cases hempty : s.historyMin = historySize
  · have hnil : recent entered = [] := List.eq_nil_of_length_eq_zero (by omega)
    obtain ⟨history, hpush, hheld⟩ := h.push (by rw [hempty]; decide) hline hlen
    rw [if_pos hempty]
    refine ⟨history, _, hpush, Nat.sub_le _ _, ?_⟩
    rw [recent_push (by rw [hnil]; decide) (by rw [hnil]; exact fun hx => by cases hx)]
    exact hheld
  · rw [if_neg hempty]
    -- the newest line
    have hpos : 0 < (recent entered).length := by omega
    obtain ⟨last, hlast⟩ : ∃ last, (recent entered).getLast? = some last :=
      ⟨_, List.getLast?_eq_some_getLast (List.length_pos_iff.mp hpos)⟩
    have hget : (recent entered)[(recent entered).length - 1]? = some last := List.getLast?_eq_getElem?.symm.trans hlast
    have htext := h.text _ last hget
    rw [show s.historyMin + ((recent entered).length - 1) = historySize - 1 by omega] at htext
    have hshort := h.short last (List.mem_of_getElem? hget)
    have hcmp : strcmp (historySize * lineSize) s.history (lineSize * (historySize - 1)) lineSize s.cmdBuffer 0 =
        some (decide (last = line)) := by
      refine strcmp_eq htext hline ?_ (by omega)
      unfold lineSize historySize at *
      omega
    rw [hcmp]
    by_cases hsame : last = line
    · refine ⟨s.history, s.historyMin, ?_, Nat.le_refl _, ?_⟩
      · show (if decide (last = line) = true then some s else s.pushHistory) = _
        rw [if_pos (decide_eq_true hsame)]
      · rw [recent_same (hlast.trans (congrArg some hsame))]
        exact h
    · have hfree : 0 < s.historyMin := by
        rcases hroom with hroom | ⟨t, ht, ht'⟩
        · exact hroom
        · exact absurd ((text_inj htext ht).trans (text_inj ht' hline)) hsame
      obtain ⟨history, hpush, hheld⟩ := h.push hfree hline hlen
      refine ⟨history, s.historyMin - 1, ?_, Nat.sub_le _ _, ?_⟩
      · show (if decide (last = line) = true then some s else s.pushHistory) = _
        rw [if_neg (fun hd => hsame (of_decide_eq_true hd)), hpush]
      · rw [recent_push (by unfold historySize at *; omega) (fun hx => hsame (Option.some.inj (hlast.symm.trans hx)))]
        exact hheld

end History

/-! ## 5. One step -/

section Steps

variable {s s' : Editor} {e : EditorEvent} {line t : List Char}

/-- Between the test and the end of a line. -/
structure Editing (s : Editor) (line : List Char) : Prop where
  text : Text s.cmdBuffer 0 line
  index : s.cmdIndex = line.length
  bounded : line.length < lineSize

theorem EditorOk.editing (h : EditorOk s) (hp : s.place ≠ .exited) : ∃ line, Editing s line := by
  obtain ⟨line, htext, hlen⟩ := h.whole hp
  exact ⟨line, htext, hlen.symm, hlen ▸ h.bounded⟩

theorem Editing.ok (h : Editing s line) (hindex : s.historyMin ≤ s.historyIndex ∧ s.historyIndex ≤ historySize)
    (hheld : Held s.history s.historyMin (recent s.entered)) : EditorOk s where
  bounded := h.index ▸ h.bounded
  terminated := by
    have hend := h.text.2.1
    rwa [Nat.zero_add, ← h.index] at hend
  whole := fun _ => ⟨line, h.text, h.index.symm⟩
  index := hindex
  held := hheld
  apart := recent_chain s.entered

/-- An empty line. -/
theorem Editing.cleared (s : Editor) : Editing s.clearLine [] := ⟨⟨trivial, rfl, List.not_mem_nil⟩, rfl, by decide⟩

theorem Held.first_le (h : Held s.history s.historyMin (recent s.entered)) : s.historyMin ≤ historySize :=
  h.count ▸ Nat.le_add_left _ _

theorem handleBackspace_ok (h : Editing s line) : ∃ b n line',
    s.handleBackspace = some { s with cmdBuffer := b, cmdIndex := n } ∧
      Editing { s with cmdBuffer := b, cmdIndex := n } line' := by
  unfold Editor.handleBackspace
  by_cases hpos : 0 < s.cmdIndex
  · obtain ⟨init, c, rfl⟩ : ∃ init c, line = init ++ [c] := by
      rcases List.eq_nil_or_concat line with rfl | ⟨init, c, hline⟩
      · exact absurd h.index (Nat.ne_of_gt hpos)
      · exact ⟨init, c, hline.trans List.concat_eq_append⟩
    have hlen := h.index
    have hbound := h.bounded
    rw [List.length_append, List.length_singleton] at hlen hbound
    have hlast : s.cmdIndex - 1 = init.length := by omega
    rw [if_pos hpos, hlast, wr_in (by omega)]
    refine ⟨_, _, init, rfl, ⟨⟨?_, ?_, fun hm => h.text.2.2 (List.mem_append_left _ hm)⟩, rfl, by omega⟩⟩
    · exact (holds_append.mp h.text.1).1.congr fun i _ hi => Function.update_of_ne (by omega) _ _
    · show Function.update s.cmdBuffer init.length '\x00' (0 + init.length) = '\x00'
      rw [Nat.zero_add, Function.update_self]
  · rw [if_neg hpos]
    exact ⟨s.cmdBuffer, s.cmdIndex, line, rfl, h⟩

theorem typeChar_ok {c : Char} (h : Editing s line) (hc : c ≠ '\x00') (hroom : s.cmdIndex + 1 < lineSize)
    (hclear : s.cmdBuffer (s.cmdIndex + 1) = '\x00') : ∃ b n,
    s.typeChar c = some { s with cmdBuffer := b, cmdIndex := n } ∧
      Editing { s with cmdBuffer := b, cmdIndex := n } (line ++ [c]) := by
  have hlen := h.index
  unfold Editor.typeChar
  rw [wr_in (Nat.lt_of_succ_lt hroom)]
  refine ⟨_, _, rfl, ⟨?_, ?_, fun hm => ?_⟩, ?_, ?_⟩
  · refine holds_append.mpr ⟨h.text.1.congr fun i _ hi => Function.update_of_ne (by omega) _ _, ?_, trivial⟩
    show Function.update s.cmdBuffer s.cmdIndex c (0 + line.length) = c
    rw [Nat.zero_add, ← hlen, Function.update_self]
  · show Function.update s.cmdBuffer s.cmdIndex c (0 + (line ++ [c]).length) = '\x00'
    rw [Nat.zero_add, List.length_append, List.length_singleton, ← hlen, Function.update_of_ne (by omega)]
    exact hclear
  · rcases List.mem_append.mp hm with hm | hm
    · exact h.text.2.2 hm
    · exact hc (List.mem_singleton.mp hm).symm
  · show s.cmdIndex + 1 = (line ++ [c]).length
    rw [List.length_append, hlen]
    rfl
  · rw [List.length_append, List.length_singleton, ← hlen]
    exact hroom

/-- **A line of the history.** -/
theorem showLine_ok {i : Nat} (h : Editing s line) (hheld : Held s.history s.historyMin (recent s.entered))
    (hlow : s.historyMin ≤ i) (hhigh : i < historySize) : ∃ b n line',
    s.showLine i = some { s with historyIndex := i, cmdBuffer := b, cmdIndex := n } ∧
      Editing { s with historyIndex := i, cmdBuffer := b, cmdIndex := n } line' := by
  have hcount := hheld.count
  have hk : i - s.historyMin < (recent s.entered).length := by omega
  have hget : (recent s.entered)[i - s.historyMin]? = some (recent s.entered)[i - s.historyMin] :=
    List.getElem?_eq_getElem hk
  generalize (recent s.entered)[i - s.historyMin] = t at hget
  have htext := hheld.text _ t hget
  rw [Nat.add_sub_cancel' hlow] at htext
  have hshort := hheld.short t (List.mem_of_getElem? hget)
  have hsrc : lineSize * i + t.length < historySize * lineSize := by
    unfold lineSize historySize at *
    omega
  obtain ⟨b, hcopy, hb, -⟩ := strcpy_eq (b := s.cmdBuffer) htext hsrc (show 0 + t.length < lineSize by omega)
  refine ⟨b, t.length, t, ?_, hb, rfl, hshort⟩
  unfold Editor.showLine
  have hlen := h.bounded
  have hold : kstrlen lineSize s.cmdBuffer 0 = some line.length := kstrlen_eq h.text (by omega)
  have hnew : kstrlen lineSize b 0 = some t.length := kstrlen_eq hb (by omega)
  simp only [hold, hcopy, hnew, Option.bind_eq_bind, Option.bind_some]

/-- **The rest of `HandleCommand`**: the line is empty, or it has no token and stays, or the shell exits. -/
theorem runCommand_ok (h : Editing s line) :
    s.runCommand = some s ∨ s.runCommand = some s.clearLine ∨
      ∃ b, s.runCommand = some { s with cmdBuffer := b, place := .exited } ∧ b s.cmdIndex = '\x00' := by
  have hlen := h.bounded
  have hroom : 2 * ([] : List Nat).length + line.length ≤ 2 * argvSize := by
    unfold lineSize at hlen
    show 2 * 0 + line.length ≤ 2 * 100
    omega
  obtain ⟨b, argv, ts, hloop, -, htokens, hframe, hnone⟩ :=
    argvLoop_spec h.text (show 0 + line.length < lineSize by omega) (show line.length < lineSize + 1 by omega) hroom
  rw [List.nil_append] at hloop
  unfold Editor.runCommand
  simp only [hloop, Option.bind_eq_bind, Option.bind_some]
  cases htokens with
  | nil =>
      rw [hnone rfl]
      exact Or.inl rfl
  | @cons p t argv ts htoken _ =>
      have hcmp : kstrcmp lineSize b p ['e', 'x', 'i', 't'] = some (decide (t = ['e', 'x', 'i', 't'])) :=
        kstrcmp_eq htoken.1 (Nat.lt_of_le_of_lt htoken.2 (by omega)) (by decide)
      simp only [hcmp, Option.bind_some]
      by_cases hexit : t = ['e', 'x', 'i', 't']
      · refine Or.inr (Or.inr ⟨b, ?_, ?_⟩)
        · rw [decide_eq_true hexit]
          rfl
        · have hend := h.text.2.1
          rw [Nat.zero_add, ← h.index] at hend
          rw [hframe _ (Or.inr hend)]
          exact hend
      · rw [decide_eq_false hexit]
        exact Or.inr (Or.inl rfl)

/-- **A newline.** -/
theorem handleCommand_ok (h : Editing s line) (hheld : Held s.history s.historyMin (recent s.entered))
    (hindex : s.historyIndex = historySize) (hroom : s.cmdIndex = 0 ∨ 0 < s.historyMin ∨
      ∃ t, Text s.history (lineSize * (historySize - 1)) t ∧ Text s.cmdBuffer 0 t) :
    ∃ s', s.handleCommand = some s' ∧ EditorOk s' := by
  have hbounds : ∀ first, first ≤ s.historyMin → first ≤ s.historyIndex ∧ s.historyIndex ≤ historySize :=
    fun first hfirst => ⟨hindex ▸ Nat.le_trans hfirst hheld.first_le, hindex.le⟩
  unfold Editor.handleCommand
  by_cases hzero : s.cmdIndex = 0
  · exact ⟨s, if_pos hzero, h.ok (hbounds _ (Nat.le_refl _)) hheld⟩
  · rw [if_neg hzero, line_eq h.text h.bounded]
    obtain ⟨history, first, hremember, hfirst, hheld'⟩ := rememberCommand_spec (s :=
      { s with entered := s.entered ++ [line] }) hheld h.text h.bounded (hroom.resolve_left hzero)
    rw [hremember]
    simp only [Option.bind_eq_bind, Option.bind_some]
    have hedit : Editing { s with history := history, historyMin := first, entered := s.entered ++ [line] } line :=
      ⟨h.text, h.index, h.bounded⟩
    rcases runCommand_ok hedit with hrun | hrun | ⟨b, hrun, hend⟩
    · exact ⟨_, hrun, hedit.ok (hbounds first hfirst) hheld'⟩
    · exact ⟨_, hrun, (Editing.cleared _).ok (hbounds first hfirst) hheld'⟩
    · exact ⟨_, hrun, h.index ▸ h.bounded, hend, fun hp => absurd rfl hp, hbounds first hfirst, hheld', recent_chain _⟩

theorem readChar_ok {c : Char} (hc : c ≠ '\x00') (h : Editing s line)
    (hindex : s.historyMin ≤ s.historyIndex ∧ s.historyIndex ≤ historySize)
    (hheld : Held s.history s.historyMin (recent s.entered)) (hsafe : Safe s (.read c hc)) :
    ∃ s', s.readChar c = some s' ∧ EditorOk s' := by
  have htop : s.historyMin ≤ historySize ∧ historySize ≤ historySize := ⟨hheld.first_le, Nat.le_refl _⟩
  have hreset : Editing { s with historyIndex := historySize } line := ⟨h.text, h.index, h.bounded⟩
  unfold Editor.readChar
  split_ifs with hback hnew hup hdown
  · obtain ⟨b, n, line', hres, hedit⟩ := handleBackspace_ok hreset
    exact ⟨_, hres, hedit.ok htop hheld⟩
  · exact handleCommand_ok hreset hheld rfl (hsafe.2 hnew)
  · unfold Editor.historyUp
    split_ifs with hlow
    · obtain ⟨b, n, line', hres, hedit⟩ := showLine_ok h hheld (Nat.le_sub_one_of_lt hlow) (by omega)
      exact ⟨_, hres, hedit.ok ⟨Nat.le_sub_one_of_lt hlow, by show _ - 1 ≤ _; omega⟩ hheld⟩
    · exact ⟨s, rfl, h.ok hindex hheld⟩
  · unfold Editor.historyDown
    split_ifs with hlow hlast
    · obtain ⟨b, n, line', hres, hedit⟩ :=
        showLine_ok h hheld (Nat.le_succ_of_le hindex.1) (show s.historyIndex + 1 < historySize by omega)
      exact ⟨_, hres, hedit.ok ⟨Nat.le_succ_of_le hindex.1, by show _ + 1 ≤ _; omega⟩ hheld⟩
    · have hlen := h.bounded
      have hold : kstrlen lineSize s.cmdBuffer 0 = some line.length := kstrlen_eq h.text (by omega)
      rw [hold]
      exact ⟨_, rfl, (Editing.cleared _).ok htop hheld⟩
    · exact ⟨s, rfl, h.ok hindex hheld⟩
  · obtain ⟨hroom, hclear⟩ := hsafe.1 ⟨hback, hnew, hup, hdown⟩
    obtain ⟨b, n, hres, hedit⟩ := typeChar_ok hreset hc hroom hclear
    exact ⟨_, hres, hedit.ok htop hheld⟩

end Steps

/-! ## 6. The runs -/

section Runs

variable {s s' : Editor} {e : EditorEvent}

/-- The event can come where the loop stands. -/
def Enabled (s : Editor) : EditorEvent → Prop
  | .kill => True
  | .test => s.place = .test
  | .read _ _ => s.place = .read
  | .empty => s.place = .read

theorem enabled_of_step (h : editorStep s e s') : Enabled s e := by
  unfold editorStep exec at h
  cases e with
  | kill => trivial
  | test =>
      by_contra hnot
      exact absurd (h.symm.trans (if_neg hnot)) (Option.some_ne_none _)
  | read c hc =>
      by_contra hnot
      exact absurd (h.symm.trans (if_neg hnot)) (Option.some_ne_none _)
  | empty =>
      by_contra hnot
      exact absurd (h.symm.trans (if_neg hnot)) (Option.some_ne_none _)

theorem EditorOk.start (h : EditorStart s) : EditorOk s := by
  have hedit : Editing s [] := by
    refine ⟨⟨trivial, ?_, List.not_mem_nil⟩, h.cmdIndex, by decide⟩
    rw [h.cmdBuffer]
  refine hedit.ok ⟨by rw [h.historyMin, h.historyIndex], h.historyIndex.le⟩ ?_
  rw [h.entered, h.historyMin]
  exact ⟨rfl, fun t ht => absurd ht List.not_mem_nil, fun k t hk => by cases hk⟩

/-- **A safe step** stays inside of the arrays and keeps the line and the history. -/
theorem exec_ok (h : EditorOk s) (he : Enabled s e) (hsafe : Safe s e) : ∃ s', editorStep s e s' ∧ EditorOk s' := by
  cases e with
  | kill => exact ⟨_, rfl, h.bounded, h.terminated, h.whole, h.index, h.held, h.apart⟩
  | test =>
      have hplace : s.place = .test := he
      unfold editorStep exec
      rw [if_pos hplace]
      by_cases hk : s.killed = true
      · rw [if_pos hk]
        exact ⟨_, rfl, (Editing.cleared _).ok ⟨h.held.first_le, Nat.le_refl _⟩ h.held⟩
      · rw [if_neg hk]
        obtain ⟨line, hedit⟩ := h.editing (by rw [hplace]; decide)
        exact ⟨_, rfl, Editing.ok ⟨hedit.text, hedit.index, hedit.bounded⟩ h.index h.held⟩
  | read c hc =>
      have hplace : s.place = .read := he
      have hexec : exec s (.read c hc) = Editor.readChar { s with place := .test } c := if_pos hplace
      unfold editorStep
      rw [hexec]
      obtain ⟨line, hedit⟩ := h.editing (by rw [hplace]; decide)
      exact readChar_ok (s := { s with place := .test }) hc ⟨hedit.text, hedit.index, hedit.bounded⟩ h.index h.held
        hsafe
  | empty =>
      have hplace : s.place = .read := he
      unfold editorStep exec
      rw [if_pos hplace]
      obtain ⟨line, hedit⟩ := h.editing (by rw [hplace]; decide)
      exact ⟨_, rfl, Editing.ok ⟨hedit.text, hedit.index, hedit.bounded⟩ h.index h.held⟩

theorem EditorOk.step (h : EditorOk s) (hs : Guarded editorStep Safe s e s') : EditorOk s' := by
  obtain ⟨s1, h1, hok⟩ := exec_ok h (enabled_of_step hs.1) hs.2
  obtain rfl : s1 = s' := Option.some.inj (h1.symm.trans hs.1)
  exact hok

/-- **Where every step is safe**, the indices stay in bounds, the line ends at its index, the history holds the recent
    commands, and every further safe step stays inside of the arrays. -/
theorem editor_invariant (s : Editor) (h : Reach (Guarded editorStep Safe) EditorStart s) :
    EditorOk s ∧ ∀ e, Enabled s e → Safe s e → ∃ s', editorStep s e s' := by
  have hok : EditorOk s :=
    Reach.inv (I := EditorOk) (fun _ hs => EditorOk.start hs) (fun _ _ _ hI hs => EditorOk.step hI hs) h
  refine ⟨hok, fun e he hsafe => ?_⟩
  obtain ⟨s', hs', -⟩ := exec_ok hok he hsafe
  exact ⟨s', hs'⟩

end Runs

/-! ### A line that a shorter one came over -/

def firstPrompt : Editor where
  history := fun _ => '\x00'
  historyMin := historySize
  historyIndex := historySize
  cmdBuffer := fun _ => '\x00'
  cmdIndex := 0
  killed := false
  place := .test
  entered := []

theorem firstPrompt_start : EditorStart firstPrompt := ⟨rfl, rfl, rfl, rfl, rfl, rfl, rfl⟩

/-- The test and the character. -/
def press (c : Char) (hc : c ≠ '\x00') : List EditorEvent := [.test, .read c hc]

/-- `x` and newline; `abc`, up, `y`. -/
def recalled : List EditorEvent :=
  press 'x' (by decide) ++ press '\n' (by decide) ++ press 'a' (by decide) ++ press 'b' (by decide) ++
    press 'c' (by decide) ++ press '\x01' (by decide) ++ press 'y' (by decide)

/-- The `y` takes the place of the `'\0'` behind the `x`, and the `c` of the old line is still there. -/
theorem editor_leftover :
    ∃ s, Reach editorStep EditorStart s ∧ s.cmdIndex = 2 ∧ s.cmdBuffer 2 = 'c' ∧ ¬ EditorOk s := by
  have hrun : ((recalled.foldlM exec firstPrompt).map fun s => (s.cmdIndex, s.cmdBuffer 2)) = some (2, 'c') := by
    decide +kernel
  obtain ⟨s, hs, hres⟩ := Option.map_eq_some_iff.mp hrun
  obtain ⟨hindex, hcell⟩ := Prod.mk.inj hres
  refine ⟨s, Reach.foldlM (.start _ firstPrompt_start) (fun _ _ _ _ h => h) hs, hindex, hcell, fun hok => ?_⟩
  have hend := hok.terminated
  rw [hindex, hcell] at hend
  exact absurd hend (by decide)

/-- The first character at the first prompt. -/
theorem editor_invariant_first : ∃ s, Reach (Guarded editorStep Safe) EditorStart s ∧ s.cmdIndex = 1 ∧ EditorOk s := by
  let waiting : Editor := { firstPrompt with place := .read }
  let typed : Editor := { firstPrompt with cmdBuffer := Function.update (fun _ => '\x00') 0 'x', cmdIndex := 1 }
  have htest : Guarded editorStep Safe firstPrompt .test waiting := ⟨rfl, trivial⟩
  have hread : Guarded editorStep Safe waiting (.read 'x' (by decide)) typed :=
    ⟨rfl, fun _ => ⟨by decide, rfl⟩, fun h => absurd h (by decide)⟩
  have hreach : Reach (Guarded editorStep Safe) EditorStart typed :=
    .next _ _ _ (.next _ _ _ (.start _ firstPrompt_start) htest) hread
  exact ⟨typed, hreach, rfl, (editor_invariant typed hreach).1⟩

end Shell

end SimpleOS2
