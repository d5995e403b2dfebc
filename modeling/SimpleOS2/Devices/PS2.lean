/-
  File:      SimpleOS2/Devices/PS2.lean
  Subject:   THE KEYBOARD (devices/ps2/PS2.cpp): from scan codes to keys.

  The keyboard sends a byte with each interrupt. `KeyHandler` makes keys of the bytes and puts them into a queue of 128;
  the only thing it keeps from one byte to the next is whether the last one was the prefix `0xE0`. `PS2Driver::Read`
  takes keys out.

  * `keyHandler`, `read` -- the two functions on the queue;
  * `keysOf` -- the keys that a list of bytes stands for; `keyHandler_eq` -- the handler puts in just these;
  * `keysOf_append`, `prefixed_append` -- decoding goes on where it stopped.
-/
import SimpleOS2.Lib.Fifo

namespace SimpleOS2

open Lib

namespace PS2

/-! ## 1. Keys and scan codes -/

abbrev Key := BitVec 16

/-- The key that has the code of a character. -/
def keyOf (c : Char) : Key := BitVec.ofNat 16 c.toNat

def KEY_CTRL_LEFT : Key := 0x0100
def KEY_CTRL_RIGHT : Key := 0x0101
def KEY_SHIFT_LEFT : Key := 0x0102
def KEY_SHIFT_RIGHT : Key := 0x0103
def KEY_UP : Key := 0x0200
def KEY_DOWN : Key := 0x0201
def KEY_RELEASED : Key := 0x8000

/-- `g_ScanMap`; the entries that are not listed are 0. -/
def scanMap : List Char :=
  ['\x00', '\x00',
   '1', '2', '3', '4', '5', '6', '7', '8', '9', '0',
   '\x00', '\'', '\x08', '\t',
   'q', 'w', 'e', 'r', 't', 'z', 'u', 'i', 'o', 'p',
   'u', '+', '\n', '\x00',
   'a', 's', 'd', 'f', 'g', 'h', 'j', 'k', 'l',
   'o', 'a', '\x00', '\x00', '\x00',
   'y', 'x', 'c', 'v', 'b', 'n', 'm', ',', '.', '-',
   '\x00', '\x00', '\x00',
   ' ']

def QUEUE_SIZE : Nat := 128

/-- The variables of the driver. -/
structure Driver where
  e0Key : Bool
  queue : Fifo Key

def writeKey (d : Driver) (key : Key) : Driver := { d with queue := d.queue.put QUEUE_SIZE key }

/-- `KeyHandler` for the byte `scan`. -/
def keyHandler (d : Driver) (scan : BitVec 8) : Driver :=
  let d := if d.e0Key then
      let d := if scan = 0x48 then writeKey d KEY_UP else if scan = 0x50 then writeKey d KEY_DOWN else d
      { d with e0Key := false }
    else d
  if scan = 0x2A then writeKey d KEY_SHIFT_LEFT
  else if scan = 0x36 then writeKey d KEY_SHIFT_RIGHT
  else if scan = 0xAA then writeKey d (KEY_SHIFT_LEFT ||| KEY_RELEASED)
  else if scan = 0xB6 then writeKey d (KEY_SHIFT_RIGHT ||| KEY_RELEASED)
  else if scan = 0x1D then writeKey d KEY_CTRL_LEFT
  else if scan = 0x9D then writeKey d (KEY_CTRL_LEFT ||| KEY_RELEASED)
  else if scan = 0xE0 then { d with e0Key := true }
  else
    let key : Key := if scan &&& 0x80 ≠ 0 then KEY_RELEASED else 0
    let scan := if scan &&& 0x80 ≠ 0 then scan &&& 0x7F else scan
    let k := keyOf (scanMap.getD scan.toNat '\x00')
    if k = 0 then d else writeKey d (key ||| k)

/-- `PS2Driver::Read`; a key has two bytes. -/
def read (d : Driver) (bufferSize : Nat) : List Key × Driver :=
  let r := d.queue.get QUEUE_SIZE (bufferSize / 2)
  (r.1, { d with queue := r.2 })

/-! ## 2. What the bytes stand for -/

/-- The key of a byte that is no prefix. -/
def plainKey (scan : BitVec 8) : Option Key :=
  if scan = 0x2A then some KEY_SHIFT_LEFT
  else if scan = 0x36 then some KEY_SHIFT_RIGHT
  else if scan = 0xAA then some (KEY_SHIFT_LEFT ||| KEY_RELEASED)
  else if scan = 0xB6 then some (KEY_SHIFT_RIGHT ||| KEY_RELEASED)
  else if scan = 0x1D then some KEY_CTRL_LEFT
  else if scan = 0x9D then some (KEY_CTRL_LEFT ||| KEY_RELEASED)
  else
    let k := keyOf (scanMap.getD (scan &&& 0x7F).toNat '\x00')
    if k = 0 then none else some ((if scan &&& 0x80 ≠ 0 then KEY_RELEASED else 0) ||| k)

/-- The key that only stands behind a prefix. -/
def arrowKey (scan : BitVec 8) : Option Key :=
  if scan = 0x48 then some KEY_UP else if scan = 0x50 then some KEY_DOWN else none

/-- The keys of one byte; `e0` says whether it stands behind a prefix. -/
def keys (e0 : Bool) (scan : BitVec 8) : List Key :=
  (if e0 then (arrowKey scan).toList else []) ++ if scan = 0xE0 then [] else (plainKey scan).toList

/-- The keys of a list of bytes. -/
def keysOf : (e0 : Bool) → List (BitVec 8) → List Key
  | _, [] => []
  | e0, scan :: scans => keys e0 scan ++ keysOf (scan == 0xE0) scans

/-- Whether the next byte stands behind a prefix. -/
def prefixed (e0 : Bool) (scans : List (BitVec 8)) : Bool := (scans.getLast?.map (· == 0xE0)).getD e0

section Decoding

variable {d : Driver} {e0 : Bool} {scan : BitVec 8} {scans : List (BitVec 8)} {k : Key}

theorem low_bits (scan : BitVec 8) (h : ¬ scan &&& 0x80 ≠ 0) : scan &&& 0x7F = scan := by
  have hall : ∀ b : BitVec 8, b &&& 0x80 = 0 → b &&& 0x7F = b := by decide
  exact hall scan (not_not.mp h)

/-- The keys of one byte, put into the queue. -/
def Driver.taken (d : Driver) (e0 : Bool) (ks : List Key) : Driver := ⟨e0, d.queue.putAll QUEUE_SIZE ks⟩

/-- The part of `KeyHandler` behind the test of `g_E0Key`. -/
theorem plain_part (d : Driver) (hd : d.e0Key = false) (scan : BitVec 8) :
    (if scan = 0x2A then writeKey d KEY_SHIFT_LEFT
    else if scan = 0x36 then writeKey d KEY_SHIFT_RIGHT
    else if scan = 0xAA then writeKey d (KEY_SHIFT_LEFT ||| KEY_RELEASED)
    else if scan = 0xB6 then writeKey d (KEY_SHIFT_RIGHT ||| KEY_RELEASED)
    else if scan = 0x1D then writeKey d KEY_CTRL_LEFT
    else if scan = 0x9D then writeKey d (KEY_CTRL_LEFT ||| KEY_RELEASED)
    else if scan = 0xE0 then { d with e0Key := true }
    else
      let key : Key := if scan &&& 0x80 ≠ 0 then KEY_RELEASED else 0
      let scan := if scan &&& 0x80 ≠ 0 then scan &&& 0x7F else scan
      let k := keyOf (scanMap.getD scan.toNat '\x00')
      if k = 0 then d else writeKey d (key ||| k)) =
    d.taken (scan == 0xE0) (if scan = 0xE0 then [] else (plainKey scan).toList) := by
  obtain ⟨e0, q⟩ := d
  subst hd
  unfold plainKey
  by_cases h0 : scan = 0xE0
  · subst h0
    rfl
  · rw [if_neg h0, if_neg h0, (beq_eq_false_iff_ne).mpr h0]
    by_cases h1 : scan = 0x2A
    · subst h1
      rfl
    by_cases h2 : scan = 0x36
    · subst h2
      rfl
    by_cases h3 : scan = 0xAA
    · subst h3
      rfl
    by_cases h4 : scan = 0xB6
    · subst h4
      rfl
    by_cases h5 : scan = 0x1D
    · subst h5
      rfl
    by_cases h6 : scan = 0x9D
    · subst h6
      rfl
    simp only [if_neg h1, if_neg h2, if_neg h3, if_neg h4, if_neg h5, if_neg h6]
    by_cases h7 : scan &&& 0x80 ≠ 0
    · simp only [if_pos h7]
      split_ifs <;> rfl
    · simp only [if_neg h7, low_bits scan h7]
      split_ifs <;> rfl

/-- **The handler puts in the keys of its byte**, and keeps whether the byte is a prefix. -/
theorem keyHandler_eq (d : Driver) (scan : BitVec 8) :
    keyHandler d scan = d.taken (scan == 0xE0) (keys d.e0Key scan) := by
  obtain ⟨e0, q⟩ := d
  cases e0 with
  | false =>
      unfold keyHandler keys
      simp only [Bool.false_eq_true, if_false, List.nil_append]
      exact plain_part ⟨false, q⟩ rfl scan
  | true =>
      unfold keyHandler keys
      simp only [if_true]
      unfold arrowKey
      by_cases h1 : scan = 0x48
      · subst h1
        exact plain_part ⟨false, q.put QUEUE_SIZE KEY_UP⟩ rfl 0x48
      by_cases h2 : scan = 0x50
      · subst h2
        exact plain_part ⟨false, q.put QUEUE_SIZE KEY_DOWN⟩ rfl 0x50
      rw [if_neg h1, if_neg h1, if_neg h2, if_neg h2]
      exact plain_part ⟨false, q⟩ rfl scan

theorem keysOf_append (e0 : Bool) (scans : List (BitVec 8)) (scan : BitVec 8) :
    keysOf e0 (scans ++ [scan]) = keysOf e0 scans ++ keys (prefixed e0 scans) scan := by
  induction scans generalizing e0 with
  | nil => exact List.append_nil _
  | cons b bs ih =>
      show keys e0 b ++ keysOf (b == 0xE0) (bs ++ [scan]) = (keys e0 b ++ keysOf (b == 0xE0) bs) ++ _
      rw [ih, List.append_assoc]
      congr 3
      unfold prefixed
      cases bs with
      | nil => rfl
      | cons b' bs => rfl

theorem prefixed_append (e0 : Bool) (scans : List (BitVec 8)) (scan : BitVec 8) :
    prefixed e0 (scans ++ [scan]) = (scan == 0xE0) := by
  unfold prefixed
  rw [List.getLast?_append]
  rfl

end Decoding

end PS2

end SimpleOS2
