/-
  File:      SimpleOS2/Devices/VConsole.lean
  Subject:   FROM THE KEYBOARD TO THE PROGRAM (devices/VConsoleDriver.cpp: VConsoleThread, WriteChar, Read).

  The console thread takes one key after the other from the keyboard's queue, keeps which of the shift and control keys
  are down, and puts the characters typed into a buffer of 256, from which programs read. Interrupts, the console thread
  and the programs go on beside each other.

  * `keyAction` -- what one key does; `handleKey` -- the body of the loop; `read` -- `VConsoleDriver::Read`;
  * `consoleStep` -- all of them, one event a step;
  * `charsOf` -- the characters a list of keys types;
  * `keyboard_order` -- in every run the programs read what was typed in its order, and only console characters;
    `keyboard_exact` -- while nothing is dropped, they read all of it.
-/
import SimpleOS2.Devices.PS2
import SimpleOS2.Lib.Run
import Mathlib.Algebra.Group.Nat.Defs
import Mathlib.Data.List.Induction

namespace SimpleOS2

open Lib

namespace VConsole

open PS2 (Key keyOf KEY_CTRL_LEFT KEY_CTRL_RIGHT KEY_SHIFT_LEFT KEY_SHIFT_RIGHT KEY_UP KEY_DOWN KEY_RELEASED)

/-! ## 1. The console -/

/-- The four flags of `ConsoleInfo`. -/
structure Modifiers where
  leftShift : Bool
  rightShift : Bool
  leftCtrl : Bool
  rightCtrl : Bool

/-- `ConsoleInfo`, without the terminal. -/
structure ConsoleInfo extends Modifiers where
  foregroundTid : Int
  inBuffer : Fifo Char

def inBufferSize : Nat := 256

/-- A call of the scheduler for the thread in the foreground. -/
inductive Request
  | kill (tid : Int)
  | abort (tid : Int)

/-- What the body of the loop does for a key. -/
inductive Action
  | modifiers (m : Modifiers)
  | write (c : Char)
  | kill
  | abort
  | nothing

/-- The `case` labels of a `switch` and what they write. -/
def switchKey (cases : List (Char × Char)) (key : Key) : Action :=
  match cases.find? fun e => keyOf e.1 = key with
  | some e => .write e.2
  | none => .nothing

def shiftCases : List (Char × Char) :=
  [('0', '='), ('1', '!'), ('2', '"'), ('4', '$'), ('5', '%'), ('6', '&'), ('7', '/'), ('8', '('), ('9', ')'),
   ('\'', '\x60'), ('\x08', '\x08'), ('\t', '\t'), ('\n', '\n'), ('+', '*'), ('-', '_'), (',', ';'), ('.', ':'),
   (' ', ' ')]

def plainCases : List (Char × Char) :=
  [('\'', '\''), ('\x08', '\x08'), ('\t', '\t'), ('\n', '\n'), ('+', '+'), ('-', '-'), (',', ','), ('.', '.'),
   (' ', ' ')]

/-- `first <= key && key <= last`, and the character as far behind `base`. -/
def inRange (first last : Char) (key : Key) : Bool := keyOf first ≤ key && key ≤ keyOf last

def shiftedBy (base first : Char) (key : Key) : Char := Char.ofNat (base.toNat + (key - keyOf first).toNat)

/-- The last `else`: a key that may type a character. -/
def keyTyped (m : Modifiers) (key : Key) : Action :=
  if key &&& KEY_RELEASED ≠ 0 then .nothing
  else if m.leftShift ∨ m.rightShift then
    if inRange 'a' 'z' key then .write (shiftedBy 'A' 'a' key) else switchKey shiftCases key
  else if m.leftCtrl ∨ m.rightCtrl then .nothing
  else if inRange '0' '9' key then .write (shiftedBy '0' '0' key)
  else if inRange 'a' 'z' key then .write (shiftedBy 'a' 'a' key)
  else switchKey plainCases key

/-- The branches of the loop of `VConsoleThread`. -/
def keyAction (m : Modifiers) (key : Key) : Action :=
  if key = KEY_SHIFT_LEFT then .modifiers { m with leftShift := true }
  else if key = KEY_SHIFT_LEFT ||| KEY_RELEASED then .modifiers { m with leftShift := false }
  else if key = KEY_SHIFT_RIGHT then .modifiers { m with rightShift := true }
  else if key = KEY_SHIFT_RIGHT ||| KEY_RELEASED then .modifiers { m with rightShift := false }
  else if key = KEY_CTRL_LEFT then .modifiers { m with leftCtrl := true }
  else if key = KEY_CTRL_LEFT ||| KEY_RELEASED then .modifiers { m with leftCtrl := false }
  else if key = KEY_CTRL_RIGHT then .modifiers { m with rightCtrl := true }
  else if key = KEY_CTRL_RIGHT ||| KEY_RELEASED then .modifiers { m with rightCtrl := false }
  else if key = KEY_UP then .write '\x01'
  else if key = KEY_DOWN then .write '\x02'
  else if m.leftCtrl ∧ key = keyOf 'c' then .kill
  else if m.leftCtrl ∧ key = keyOf 'a' then .abort
  else keyTyped m key

def writeChar (con : ConsoleInfo) (c : Char) : ConsoleInfo :=
  { con with inBuffer := con.inBuffer.put inBufferSize c }

/-- The body of the loop for `key`. -/
def handleKey (con : ConsoleInfo) (key : Key) : ConsoleInfo × List Request :=
  match keyAction con.toModifiers key with
  | .modifiers m => ({ con with toModifiers := m }, [])
  | .write c => (writeChar con c, [])
  | .kill => (con, if con.foregroundTid ≠ 0 then [.kill con.foregroundTid] else [])
  | .abort => (con, if con.foregroundTid ≠ 0 then [.abort con.foregroundTid] else [])
  | .nothing => (con, [])

/-- `VConsoleDriver::Read` on the console. -/
def read (con : ConsoleInfo) (bufferSize : Nat) : List Char × ConsoleInfo :=
  let r := con.inBuffer.get inBufferSize bufferSize
  (r.1, { con with inBuffer := r.2 })

/-- The keyboard, the console and the thread between them: `inHand` is the key it has read. The last four are what
    has come out, and the history. -/
structure Sys where
  driver : PS2.Driver
  con : ConsoleInfo
  inHand : Option Key
  delivered : List Char
  requests : List Request
  scans : List (BitVec 8)
  handled : List Key

inductive Event
  /-- an interrupt of the keyboard -/
  | scan (b : BitVec 8)
  /-- the console thread: `VFS::Read(desc, &key, sizeof(key))` -/
  | readKey
  | handle
  /-- a program reads the console -/
  | readChars (bufferSize : Nat)
  /-- `COMMAND_SET_FOREGROUND` -/
  | setForeground (tid : Int)

def exec (s : Sys) : Event → Option Sys
  | .scan b => some { s with driver := PS2.keyHandler s.driver b, scans := s.scans ++ [b] }
  | .readKey =>
      if s.inHand = none then
        let r := PS2.read s.driver 2
        some { s with driver := r.2, inHand := r.1.head? }
      else none
  | .handle =>
      match s.inHand with
      | some key =>
          let r := handleKey s.con key
          some { s with
            con := r.1
            inHand := none
            requests := s.requests ++ r.2
            handled := s.handled ++ [key] }
      | none => none
  | .readChars bufferSize =>
      let r := read s.con bufferSize
      some { s with con := r.2, delivered := s.delivered ++ r.1 }
  | .setForeground tid => some { s with con := { s.con with foregroundTid := tid } }

def consoleStep (s : Sys) (e : Event) (s' : Sys) : Prop := exec s e = some s'

def noModifiers : Modifiers := ⟨false, false, false, false⟩

/-- The console thread comes to its loop, and no key was pressed before. -/
structure Start (s : Sys) : Prop where
  e0Key : s.driver.e0Key = false
  queue : s.driver.queue.readPos = s.driver.queue.writePos
  inBuffer : s.con.inBuffer.readPos = s.con.inBuffer.writePos
  modifiers : s.con.toModifiers = noModifiers
  inHand : s.inHand = none
  delivered : s.delivered = []
  requests : s.requests = []
  scans : s.scans = []
  handled : s.handled = []

/-! ## 2. What a list of keys types -/

def modifiersAfter (m : Modifiers) (key : Key) : Modifiers :=
  match keyAction m key with
  | .modifiers m' => m'
  | .write _ | .kill | .abort | .nothing => m

def charOf (m : Modifiers) (key : Key) : Option Char :=
  match keyAction m key with
  | .write c => some c
  | .modifiers _ | .kill | .abort | .nothing => none

def modifiersOf (m : Modifiers) (keys : List Key) : Modifiers := keys.foldl modifiersAfter m

def charsOf : Modifiers → List Key → List Char
  | _, [] => []
  | m, key :: keys => (charOf m key).toList ++ charsOf (modifiersAfter m key) keys

/-- The characters that programs read from a console: line feed and the like, the arrows, and printable ones. -/
def IsConsoleChar (c : Char) : Prop := c ∈ ['\x01', '\x02', '\x08', '\t', '\n'] ∨ 32 ≤ c.toNat ∧ c.toNat < 127

instance decidableConsoleChar (c : Char) : Decidable (IsConsoleChar c) := inferInstanceAs (Decidable (_ ∨ _))

/-- The key is pressed or released. -/
def concerns (press key : Key) : Bool := key = press ∨ key = press ||| KEY_RELEASED

/-- The key is down: it was pressed last, and not released. -/
def isDown (press : Key) (keys : List Key) : Bool := (keys.filter (concerns press)).getLast? = some press

section Typing

variable {m : Modifiers} {key press : Key} {keys keys' : List Key} {c : Char} {con : ConsoleInfo}

theorem charsOf_append (m : Modifiers) (keys keys' : List Key) :
    charsOf m (keys ++ keys') = charsOf m keys ++ charsOf (modifiersOf m keys) keys' := by
  induction keys generalizing m with
  | nil => rfl
  | cons key keys ih =>
      show (charOf m key).toList ++ charsOf (modifiersAfter m key) (keys ++ keys') = _
      rw [ih, ← List.append_assoc]
      rfl

theorem modifiersOf_append (m : Modifiers) (keys : List Key) (key : Key) :
    modifiersOf m (keys ++ [key]) = modifiersAfter (modifiersOf m keys) key := List.foldl_append

/-- The body of the loop: the flags, and the character that goes into the buffer. -/
theorem handleKey_eq (con : ConsoleInfo) (key : Key) : (handleKey con key).1 =
    { con with
      toModifiers := modifiersAfter con.toModifiers key
      inBuffer := con.inBuffer.putAll inBufferSize (charOf con.toModifiers key).toList } := by
  unfold handleKey modifiersAfter charOf
  cases keyAction con.toModifiers key <;> rfl

theorem switchKey_char {cases : List (Char × Char)} (hall : ∀ e ∈ cases, IsConsoleChar e.2)
    (h : switchKey cases key = .write c) : IsConsoleChar c := by
  unfold switchKey at h
  cases hf : cases.find? fun e => keyOf e.1 = key with
  | none =>
      rw [hf] at h
      cases h
  | some e =>
      rw [hf] at h
      cases h
      exact hall e (List.mem_of_find?_eq_some hf)

theorem toNat_ofNat {n : Nat} (h : n < 128) : (Char.ofNat n).toNat = n := by
  have hvalid : n.isValidChar := Or.inl (by omega)
  unfold Char.ofNat
  rw [dif_pos hvalid]
  rfl

/-- A character of a range of printable ones. -/
theorem shiftedBy_char {base first last : Char} (h : inRange first last key = true)
    (hrange : first.toNat ≤ last.toNat ∧ last.toNat < 2 ^ 16)
    (hbase : 32 ≤ base.toNat ∧ base.toNat + (last.toNat - first.toNat) < 127) :
    IsConsoleChar (shiftedBy base first key) := by
  obtain ⟨h1, h2⟩ := Bool.and_eq_true_iff.mp h
  have h1 := BitVec.le_def.mp (of_decide_eq_true h1)
  have h2 := BitVec.le_def.mp (of_decide_eq_true h2)
  unfold keyOf at h1 h2
  rw [BitVec.toNat_ofNat, Nat.mod_eq_of_lt (by omega)] at h1 h2
  have hsub : (key - keyOf first).toNat = key.toNat - first.toNat := by
    unfold keyOf
    rw [BitVec.toNat_sub_of_le]
    · rw [BitVec.toNat_ofNat, Nat.mod_eq_of_lt (by omega)]
    · rw [BitVec.le_def, BitVec.toNat_ofNat, Nat.mod_eq_of_lt (by omega)]
      exact h1
  unfold shiftedBy
  rw [hsub]
  refine Or.inr ?_
  rw [toNat_ofNat (by omega)]
  omega

theorem keyTyped_char (h : keyTyped m key = .write c) : IsConsoleChar c := by
  unfold keyTyped at h
  split_ifs at h with _ _ hr _ hr hr
  · cases h
    exact shiftedBy_char hr (by decide) (by decide)
  · exact switchKey_char (by decide) h
  · cases h
    exact shiftedBy_char hr (by decide) (by decide)
  · cases h
    exact shiftedBy_char hr (by decide) (by decide)
  · exact switchKey_char (by decide) h

/-- A branch that does not write is not the one that wrote. -/
theorem write_of_else {P : Prop} [Decidable P] {a b : Action} (ha : a ≠ .write c)
    (h : (if P then a else b) = .write c) : b = .write c := by
  by_cases hP : P
  · rw [if_pos hP] at h
    exact absurd h ha
  · rwa [if_neg hP] at h

/-- **What a key types is a console character**; a NUL is never typed. -/
theorem charOf_console (h : charOf m key = some c) : IsConsoleChar c := by
  have hw : keyAction m key = .write c := by
    unfold charOf at h
    cases ha : keyAction m key <;> rw [ha] at h <;> cases h
    rfl
  unfold keyAction at hw
  iterate 8 replace hw := write_of_else Action.noConfusion hw
  by_cases hup : key = KEY_UP
  · rw [if_pos hup] at hw
    cases hw
    decide
  by_cases hdown : key = KEY_DOWN
  · rw [if_neg hup, if_pos hdown] at hw
    cases hw
    decide
  rw [if_neg hup, if_neg hdown] at hw
  exact keyTyped_char (write_of_else Action.noConfusion (write_of_else Action.noConfusion hw))

theorem charsOf_console (h : c ∈ charsOf m keys) : IsConsoleChar c := by
  induction keys generalizing m with
  | nil => cases h
  | cons key keys ih =>
      rcases List.mem_append.mp h with h | h
      · exact charOf_console (Option.mem_toList.mp h)
      · exact ih h

/-! The flags. -/

/-- A flag behind `key`, for the key that sets it. -/
def down (press : Key) (before : Bool) (key : Key) : Bool :=
  if key = press then true else if key = press ||| KEY_RELEASED then false else before

theorem isDown_append (press : Key) (keys : List Key) (key : Key) :
    isDown press (keys ++ [key]) = down press (isDown press keys) key := by
  unfold isDown down
  rw [List.filter_append]
  by_cases h1 : key = press
  · have hc : concerns press key = true := decide_eq_true (Or.inl h1)
    rw [if_pos h1, List.filter_cons_of_pos hc, List.filter_nil, List.getLast?_concat, h1]
    exact decide_eq_true rfl
  · rw [if_neg h1]
    by_cases h2 : key = press ||| KEY_RELEASED
    · have hc : concerns press key = true := decide_eq_true (Or.inr h2)
      rw [if_pos h2, List.filter_cons_of_pos hc, List.filter_nil, List.getLast?_concat]
      exact decide_eq_false fun he => h1 (Option.some.inj he)
    · have hc : ¬ concerns press key = true := fun hc => (of_decide_eq_true hc).elim h1 h2
      rw [if_neg h2, List.filter_cons_of_neg hc, List.filter_nil, List.append_nil]

theorem keyTyped_keeps (m m' : Modifiers) (key : Key) : keyTyped m key ≠ .modifiers m' := by
  have hswitch : ∀ cases, switchKey cases key ≠ .modifiers m' := by
    intro cases h
    unfold switchKey at h
    cases hf : cases.find? fun e => keyOf e.1 = key <;> rw [hf] at h <;> cases h
  intro h
  unfold keyTyped at h
  split_ifs at h
  · exact hswitch _ h
  · exact hswitch _ h

/-- **Each flag follows its own key.** -/
theorem modifiersAfter_eq (m : Modifiers) (key : Key) : modifiersAfter m key =
    ⟨down KEY_SHIFT_LEFT m.leftShift key, down KEY_SHIFT_RIGHT m.rightShift key,
      down KEY_CTRL_LEFT m.leftCtrl key, down KEY_CTRL_RIGHT m.rightCtrl key⟩ := by
  by_cases h1 : key = KEY_SHIFT_LEFT
  · subst h1
    rfl
  by_cases h2 : key = KEY_SHIFT_LEFT ||| KEY_RELEASED
  · subst h2
    rfl
  by_cases h3 : key = KEY_SHIFT_RIGHT
  · subst h3
    rfl
  by_cases h4 : key = KEY_SHIFT_RIGHT ||| KEY_RELEASED
  · subst h4
    rfl
  by_cases h5 : key = KEY_CTRL_LEFT
  · subst h5
    rfl
  by_cases h6 : key = KEY_CTRL_LEFT ||| KEY_RELEASED
  · subst h6
    rfl
  by_cases h7 : key = KEY_CTRL_RIGHT
  · subst h7
    rfl
  by_cases h8 : key = KEY_CTRL_RIGHT ||| KEY_RELEASED
  · subst h8
    rfl
  unfold modifiersAfter keyAction down
  simp only [if_neg h1, if_neg h2, if_neg h3, if_neg h4, if_neg h5, if_neg h6, if_neg h7, if_neg h8]
  split_ifs
  iterate 4 rfl
  · cases ht : keyTyped m key with
    | modifiers m' => exact absurd ht (keyTyped_keeps m m' key)
    | write _ => rfl
    | kill => rfl
    | abort => rfl
    | nothing => rfl

/-- What the flags say about the keys handled. -/
theorem modifiersOf_eq (keys : List Key) : modifiersOf noModifiers keys =
    ⟨isDown KEY_SHIFT_LEFT keys, isDown KEY_SHIFT_RIGHT keys, isDown KEY_CTRL_LEFT keys,
      isDown KEY_CTRL_RIGHT keys⟩ := by
  induction keys using List.reverseRecOn with
  | nil => rfl
  | append_singleton keys key ih =>
      rw [modifiersOf_append, ih, modifiersAfter_eq, isDown_append, isDown_append, isDown_append, isDown_append]

/-- A key that is not there is not down. -/
theorem isDown_absent (h : press ∉ keys) : isDown press keys = false := by
  refine decide_eq_false fun he => h ?_
  exact (List.mem_filter.mp (List.mem_of_getLast? he)).1

end Typing

/-! ## 3. Runs -/

structure ConsoleInv (s : Sys) : Prop where
  queue : s.driver.queue.Ok PS2.QUEUE_SIZE
  inBuffer : s.con.inBuffer.Ok inBufferSize
  e0Key : s.driver.e0Key = PS2.prefixed false s.scans
  modifiers : s.con.toModifiers = modifiersOf noModifiers s.handled
  keys : List.Sublist (s.handled ++ s.inHand.toList ++ s.driver.queue.contents PS2.QUEUE_SIZE)
    (PS2.keysOf false s.scans)
  chars : List.Sublist (s.delivered ++ s.con.inBuffer.contents inBufferSize) (charsOf noModifiers s.handled)

section Runs

variable {s s' : Sys} {e : Event}

/-- A key of two bytes is read, or none is there. -/
theorem head_of_read (d : PS2.Driver) : (PS2.read d 2).1.head?.toList ++
    (PS2.read d 2).2.queue.contents PS2.QUEUE_SIZE = d.queue.contents PS2.QUEUE_SIZE := by
  obtain ⟨h1, h2⟩ := Fifo.get_contents d.queue PS2.QUEUE_SIZE 1
  change (d.queue.get PS2.QUEUE_SIZE 1).1.head?.toList ++ (d.queue.get PS2.QUEUE_SIZE 1).2.contents PS2.QUEUE_SIZE = _
  rw [h1, h2]
  cases d.queue.contents PS2.QUEUE_SIZE <;> rfl

theorem charsOf_handled (m : Modifiers) (keys : List Key) (key : Key) :
    charsOf m (keys ++ [key]) = charsOf m keys ++ (charOf (modifiersOf m keys) key).toList := by
  rw [charsOf_append]
  congr 1
  exact List.append_nil _

theorem consoleInv_start (h : Start s) : ConsoleInv s := by
  have hempty : ∀ {α : Type} (q : Fifo α) (c : Nat), q.readPos = q.writePos → q.Ok c ∧ q.contents c = [] := by
    intro α q c heq
    have hsize : q.size = 0 := by
      unfold Fifo.size
      omega
    have hlen := (Fifo.contents_length c q).trans hsize
    exact ⟨⟨Nat.le_of_eq heq, hsize ▸ Nat.zero_le c⟩, List.eq_nil_of_length_eq_zero hlen⟩
  obtain ⟨hq, hqn⟩ := hempty s.driver.queue PS2.QUEUE_SIZE h.queue
  obtain ⟨hb, hbn⟩ := hempty s.con.inBuffer inBufferSize h.inBuffer
  refine ⟨hq, hb, ?_, ?_, ?_, ?_⟩
  · rw [h.e0Key, h.scans]
    rfl
  · rw [h.modifiers, h.handled]
    rfl
  · rw [h.handled, h.inHand, hqn]
    exact List.nil_sublist _
  · rw [h.delivered, hbn]
    exact List.nil_sublist _

/-- An interrupt: only the queue of the keyboard gets longer. -/
theorem ConsoleInv.scan (h : ConsoleInv s) (b : BitVec 8) :
    ConsoleInv { s with driver := PS2.keyHandler s.driver b, scans := s.scans ++ [b] } := by
  have hd := PS2.keyHandler_eq s.driver b
  obtain ⟨ys, hys, hput⟩ := Fifo.putAll_sublist h.queue (PS2.keys s.driver.e0Key b)
  refine ⟨?_, h.inBuffer, ?_, h.modifiers, ?_, h.chars⟩
  · rw [hd]
    exact Fifo.putAll_ok h.queue
  · rw [hd, PS2.prefixed_append]
    rfl
  · rw [hd, PS2.keysOf_append, ← h.e0Key]
    show List.Sublist (s.handled ++ s.inHand.toList ++ (s.driver.queue.putAll _ _).contents _) _
    rw [hput, ← List.append_assoc]
    exact h.keys.append hys

theorem ConsoleInv.readKey (h : ConsoleInv s) (hn : s.inHand = none) :
    ConsoleInv { s with driver := (PS2.read s.driver 2).2, inHand := (PS2.read s.driver 2).1.head? } := by
  refine ⟨Fifo.get_ok h.queue, h.inBuffer, h.e0Key, h.modifiers, ?_, h.chars⟩
  have hk := h.keys
  rw [hn] at hk
  show List.Sublist (s.handled ++ (PS2.read s.driver 2).1.head?.toList ++
    (PS2.read s.driver 2).2.queue.contents PS2.QUEUE_SIZE) _
  rw [List.append_assoc, head_of_read]
  rwa [Option.toList_none, List.append_nil] at hk

/-- The body of the loop: the flags follow, and at most one character goes into the buffer. -/
theorem ConsoleInv.handle (h : ConsoleInv s) {key : Key} (hk : s.inHand = some key) :
    ConsoleInv { s with
      con := (handleKey s.con key).1
      inHand := none
      requests := s.requests ++ (handleKey s.con key).2
      handled := s.handled ++ [key] } := by
  have hc := handleKey_eq s.con key
  obtain ⟨ys, hys, hput⟩ := Fifo.putAll_sublist h.inBuffer (charOf s.con.toModifiers key).toList
  refine ⟨h.queue, ?_, h.e0Key, ?_, ?_, ?_⟩
  · rw [hc]
    exact Fifo.putAll_ok h.inBuffer
  · rw [hc, modifiersOf_append, ← h.modifiers]
  · have hkeys := h.keys
    rw [hk] at hkeys
    show List.Sublist (s.handled ++ [key] ++ [] ++ s.driver.queue.contents PS2.QUEUE_SIZE) _
    rwa [List.append_nil]
  · rw [hc, charsOf_handled, ← h.modifiers]
    show List.Sublist (s.delivered ++ (s.con.inBuffer.putAll _ _).contents _) _
    rw [hput, ← List.append_assoc]
    exact h.chars.append hys

theorem ConsoleInv.readChars (h : ConsoleInv s) (bufferSize : Nat) :
    ConsoleInv { s with con := (read s.con bufferSize).2, delivered := s.delivered ++ (read s.con bufferSize).1 } := by
  obtain ⟨h1, h2⟩ := Fifo.get_contents s.con.inBuffer inBufferSize bufferSize
  refine ⟨h.queue, Fifo.get_ok h.inBuffer, h.e0Key, h.modifiers, h.keys, ?_⟩
  show List.Sublist (s.delivered ++ (s.con.inBuffer.get inBufferSize bufferSize).1 ++
    (s.con.inBuffer.get inBufferSize bufferSize).2.contents inBufferSize) _
  rw [h1, h2, List.append_assoc, List.take_append_drop]
  exact h.chars

theorem consoleInv_step (h : ConsoleInv s) (hs : consoleStep s e s') : ConsoleInv s' := by
  unfold consoleStep exec at hs
  cases e with
  | scan b =>
      cases hs
      exact h.scan b
  | readKey =>
      obtain ⟨hn, hs⟩ := Option.ite_none_right_eq_some.mp hs
      cases hs
      exact h.readKey hn
  | handle =>
      cases hk : s.inHand with
      | none =>
          rw [hk] at hs
          cases hs
      | some key =>
          rw [hk] at hs
          cases hs
          exact h.handle hk
  | readChars bufferSize =>
      cases hs
      exact h.readChars bufferSize
  | setForeground tid =>
      cases hs
      exact ⟨h.queue, h.inBuffer, h.e0Key, h.modifiers, h.keys, h.chars⟩

theorem consoleInv_reach (h : Reach consoleStep Start s) : ConsoleInv s :=
  Reach.inv (I := ConsoleInv) (fun _ => consoleInv_start) (fun _ _ _ => consoleInv_step) h

/-! Nothing is dropped. -/

/-- There is room for what the step puts into the queue or the buffer. -/
def Room (s : Sys) : Event → Prop
  | .scan b => s.driver.queue.size + (PS2.keys s.driver.e0Key b).length ≤ PS2.QUEUE_SIZE
  | .handle => ∀ key ∈ s.inHand, s.con.inBuffer.size + (charOf s.con.toModifiers key).toList.length ≤ inBufferSize
  | .readKey | .readChars _ | .setForeground _ => True

structure NothingLost (s : Sys) : Prop where
  keys : s.handled ++ s.inHand.toList ++ s.driver.queue.contents PS2.QUEUE_SIZE = PS2.keysOf false s.scans
  chars : s.delivered ++ s.con.inBuffer.contents inBufferSize = charsOf noModifiers s.handled

theorem nothingLost_start (h : Start s) : NothingLost s := by
  have hI := consoleInv_start h
  have hk := hI.keys
  have hc := hI.chars
  rw [h.scans] at hk
  rw [h.handled] at hc
  refine ⟨?_, ?_⟩
  · rw [h.scans]
    exact List.sublist_nil.mp hk
  · rw [h.handled]
    exact List.sublist_nil.mp hc

theorem nothingLost_step (hI : ConsoleInv s) (h : NothingLost s) (hr : Room s e) (hs : consoleStep s e s') :
    NothingLost s' := by
  unfold consoleStep exec at hs
  cases e with
  | scan b =>
      cases hs
      refine ⟨?_, h.chars⟩
      show s.handled ++ s.inHand.toList ++ (PS2.keyHandler s.driver b).queue.contents PS2.QUEUE_SIZE =
        PS2.keysOf false (s.scans ++ [b])
      rw [PS2.keyHandler_eq, PS2.keysOf_append, ← hI.e0Key, ← h.keys, List.append_assoc _ _ (PS2.keys _ _)]
      congr 1
      exact Fifo.putAll_room hI.queue hr
  | readKey =>
      obtain ⟨hn, hs⟩ := Option.ite_none_right_eq_some.mp hs
      cases hs
      refine ⟨?_, h.chars⟩
      have hk := h.keys
      rw [hn, Option.toList_none, List.append_nil] at hk
      show s.handled ++ (PS2.read s.driver 2).1.head?.toList ++
        (PS2.read s.driver 2).2.queue.contents PS2.QUEUE_SIZE = _
      rw [List.append_assoc, head_of_read, hk]
  | handle =>
      cases hk : s.inHand with
      | none =>
          rw [hk] at hs
          cases hs
      | some key =>
          rw [hk] at hs
          cases hs
          have hkeys := h.keys
          rw [hk] at hkeys
          refine ⟨?_, ?_⟩
          · show s.handled ++ [key] ++ [] ++ s.driver.queue.contents PS2.QUEUE_SIZE = _
            rw [List.append_nil]
            exact hkeys
          · show s.delivered ++ (handleKey s.con key).1.inBuffer.contents inBufferSize =
              charsOf noModifiers (s.handled ++ [key])
            rw [handleKey_eq, charsOf_handled, ← hI.modifiers, ← h.chars, List.append_assoc]
            congr 1
            exact Fifo.putAll_room hI.inBuffer (hr key hk)
  | readChars bufferSize =>
      cases hs
      obtain ⟨h1, h2⟩ := Fifo.get_contents s.con.inBuffer inBufferSize bufferSize
      refine ⟨h.keys, ?_⟩
      show s.delivered ++ (s.con.inBuffer.get inBufferSize bufferSize).1 ++
        (s.con.inBuffer.get inBufferSize bufferSize).2.contents inBufferSize = _
      rw [h1, h2, List.append_assoc, List.take_append_drop]
      exact h.chars
  | setForeground tid =>
      cases hs
      exact ⟨h.keys, h.chars⟩

end Runs

/-! ## 4. What the programs read -/

/-- What holds of the keys handled and of the characters read, whatever has been dropped. -/
structure InOrder (s : Sys) : Prop where
  keys : List.Sublist (s.handled ++ s.inHand.toList ++ s.driver.queue.contents PS2.QUEUE_SIZE)
    (PS2.keysOf false s.scans)
  chars : List.Sublist (s.delivered ++ s.con.inBuffer.contents inBufferSize) (charsOf noModifiers s.handled)
  console : ∀ c ∈ s.delivered, IsConsoleChar c
  leftShift : s.con.leftShift = isDown KEY_SHIFT_LEFT s.handled
  rightShift : s.con.rightShift = isDown KEY_SHIFT_RIGHT s.handled
  leftCtrl : s.con.leftCtrl = isDown KEY_CTRL_LEFT s.handled
  /-- the keyboard driver knows no right control key -/
  rightCtrl : s.con.rightCtrl = false

section Results

variable {s : Sys}

theorem keys_no_ctrl_right (scans : List (BitVec 8)) (e0 : Bool) : KEY_CTRL_RIGHT ∉ PS2.keysOf e0 scans := by
  induction scans generalizing e0 with
  | nil => exact List.not_mem_nil
  | cons b bs ih =>
      have hone : ∀ (e0 : Bool) (b : BitVec 8), KEY_CTRL_RIGHT ∉ PS2.keys e0 b := by decide +kernel
      exact fun h => (List.mem_append.mp h).elim (hone e0 b) (ih _)

/-- **In every run** of interrupts, the console thread and the programs: keys are handled in the order of their bytes,
    characters are read in the order of their keys, and only console characters are. -/
theorem keyboard_order (h : Reach consoleStep Start s) : InOrder s := by
  have hI := consoleInv_reach h
  have hmod := hI.modifiers.trans (modifiersOf_eq s.handled)
  have habsent : KEY_CTRL_RIGHT ∉ s.handled := fun hm => keys_no_ctrl_right s.scans false
    (hI.keys.subset (List.mem_append_left _ (List.mem_append_left _ hm)))
  exact ⟨hI.keys, hI.chars, fun c hc => charsOf_console (hI.chars.subset (List.mem_append_left _ hc)),
    congrArg Modifiers.leftShift hmod, congrArg Modifiers.rightShift hmod, congrArg Modifiers.leftCtrl hmod,
    (congrArg Modifiers.rightCtrl hmod).trans (isDown_absent habsent)⟩

/-- **While there is room, nothing is lost**: what the programs have read, what waits in the buffer and what the keys
    under way will type is what all the bytes stand for. -/
theorem keyboard_exact (h : Reach (Guarded consoleStep Room) Start s) :
    s.delivered ++ s.con.inBuffer.contents inBufferSize ++
      charsOf s.con.toModifiers (s.inHand.toList ++ s.driver.queue.contents PS2.QUEUE_SIZE) =
    charsOf noModifiers (PS2.keysOf false s.scans) := by
  obtain ⟨hI, hN⟩ := Reach.inv (I := fun s => ConsoleInv s ∧ NothingLost s)
    (fun _ hs => ⟨consoleInv_start hs, nothingLost_start hs⟩)
    (fun _ _ _ hb hs => ⟨consoleInv_step hb.1 hs.1, nothingLost_step hb.1 hb.2 hs.2 hs.1⟩) h
  rw [← hN.keys, hN.chars, hI.modifiers, ← charsOf_append, List.append_assoc s.handled]

end Results

/-! A run: the key I, and a program reads. -/

def atStart : Sys where
  driver := ⟨false, ⟨fun _ => 0, 0, 0⟩⟩
  con := ⟨noModifiers, 0, ⟨fun _ => ' ', 0, 0⟩⟩
  inHand := none
  delivered := []
  requests := []
  scans := []
  handled := []

theorem start_atStart : Start atStart := ⟨rfl, rfl, rfl, rfl, rfl, rfl, rfl, rfl, rfl⟩

def afterScan : Sys :=
  { atStart with
    driver := ⟨false, ⟨Function.update (fun _ => 0) 0 (keyOf 'i'), 0, 1⟩⟩
    scans := [0x17] }

def afterRead : Sys :=
  { afterScan with
    driver := ⟨false, ⟨Function.update (fun _ => 0) 0 (keyOf 'i'), 1, 1⟩⟩
    inHand := some (keyOf 'i') }

def afterHandle : Sys :=
  { afterRead with
    con := ⟨noModifiers, 0, ⟨Function.update (fun _ => ' ') 0 'i', 0, 1⟩⟩
    inHand := none
    handled := [keyOf 'i'] }

def afterDelivery : Sys :=
  { afterHandle with
    con := ⟨noModifiers, 0, ⟨Function.update (fun _ => ' ') 0 'i', 1, 1⟩⟩
    delivered := ['i'] }

theorem afterDelivery_reach : Reach (Guarded consoleStep Room) Start afterDelivery := by
  have h1 : Guarded consoleStep Room atStart (.scan 0x17) afterScan :=
    ⟨rfl, show 0 + (PS2.keys false 0x17).length ≤ 128 by decide⟩
  have h2 : Guarded consoleStep Room afterScan .readKey afterRead := ⟨rfl, trivial⟩
  have h3 : Guarded consoleStep Room afterRead .handle afterHandle := by
    refine ⟨rfl, fun key hk => ?_⟩
    cases hk
    show 0 + (charOf noModifiers (keyOf 'i')).toList.length ≤ 256
    decide
  have h4 : Guarded consoleStep Room afterHandle (.readChars 16) afterDelivery := ⟨rfl, trivial⟩
  exact ((((Reach.start _ start_atStart).next _ _ _ h1).next _ _ _ h2).next _ _ _ h3).next _ _ _ h4

theorem keyboard_order_i : InOrder afterDelivery :=
  keyboard_order (afterDelivery_reach.mono (fun _ h => h) fun _ _ _ h => h.1)

theorem keyboard_exact_i :
    ['i'] ++ afterDelivery.con.inBuffer.contents inBufferSize ++
      charsOf noModifiers (afterDelivery.inHand.toList ++ afterDelivery.driver.queue.contents PS2.QUEUE_SIZE) =
    charsOf noModifiers (PS2.keysOf false [0x17]) := keyboard_exact afterDelivery_reach

end VConsole

end SimpleOS2
