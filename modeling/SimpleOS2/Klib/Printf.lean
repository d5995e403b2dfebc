/-
  File:      SimpleOS2/Klib/Printf.lean
  Subject:   THE TWO PRINTF ENGINES: `_kvprintf` (klib/stdio.cpp) prints on the terminal,
             `_kfvprintf` (klib/kfprintf.cpp) writes to a descriptor.

  The second is a copy of the first that counts lengths where the first stops at the NUL. What both files
  have word for word stands here once: the parser of directives, the digits of a number, the loop. The
  rest stands twice, under `Kvprintf` and under `Kfvprintf`.

  * `parseDirective` -- one directive: flags, width, precision, conversion;
  * `int64Text`, `uint64Text` -- a number in a buffer of 128 characters;
  * `vprintf` -- the loop over the format; `kvprintf`, `kfvprintf`;
  * `pieces`, `Along` -- a format as a list of characters and directives, with the arguments each takes;
  * `Covered` -- no directive leads an engine out of its memory;
  * `engines_agree` -- under this condition, and only then, both print the same.

  Arguments are 64-bit words; `str` is the C string that stands at an address. Where the code reads or
  writes outside a string, an array or its buffer the result is `none`. An `int` wraps. The index `i` of
  the loop (`uint32`) is left out: a format is a list of characters.
-/
import Mathlib.Algebra.Order.Ring.Int
import Mathlib.Data.List.TakeWhile
import Mathlib.Tactic.SplitIfs

namespace SimpleOS2

namespace Printf

/-! ## 1. Directives -/

/-- A number in an `int`. -/
def toInt (n : Int) : Int := Int.bmod n (2 ^ 32)

structure Format where
  leftJustify : Bool
  forceSign : Bool
  spaceIfNoSign : Bool
  leftPadWithZeroes : Bool
  argWidth : Bool
  minWidth : Int
  argPrecision : Bool
  precision : Int

/-- `Format outFormat = { 0 }`. -/
def Format.zero : Format where
  leftJustify := false
  forceSign := false
  spaceIfNoSign := false
  leftPadWithZeroes := false
  argWidth := false
  minWidth := 0
  argPrecision := false
  precision := 0

/-- `c >= '0' && c <= '9'`. -/
def isDigit (c : Char) : Bool := '0' ≤ c ∧ c ≤ '9'

/-- `stoui`: the number at the beginning of a string, and what stands behind it. -/
def stoui : (str : List Char) → (res : Int) → Int × List Char
  | [], res => (res, [])
  | c :: str, res =>
      if isDigit c then stoui str (toInt (res * 10 + ((c.toNat : Int) - 48))) else (res, c :: str)

/-- `ParseFlags`. -/
def parseFlags : (fmt : List Char) → (flags : Format) → List Char × Format
  | '-' :: fmt, flags => parseFlags fmt { flags with leftJustify := true }
  | '+' :: fmt, flags => parseFlags fmt { flags with forceSign := true }
  | ' ' :: fmt, flags => parseFlags fmt { flags with spaceIfNoSign := true }
  | '0' :: fmt, flags => parseFlags fmt { flags with leftPadWithZeroes := true }
  | fmt, flags => (fmt, flags)

/-- `ParseWidth`. -/
def parseWidth (fmt : List Char) (flags : Format) : List Char × Format :=
  match fmt with
  | [] => ([], flags)
  | c :: rest =>
      if c = '*' then (rest, { flags with argWidth := true })
      else if isDigit c then ((stoui fmt 0).2, { flags with minWidth := (stoui fmt 0).1 })
      else (fmt, flags)

/-- `ParsePrecision`. A dot with neither digits nor an asterisk behind it takes the next character along;
    at the end of the format that is the NUL. -/
def parsePrecision (fmt : List Char) (flags : Format) : Option (List Char × Format) :=
  match fmt with
  | '.' :: [] => none
  | '.' :: c :: rest =>
      if isDigit c then
        some ((stoui (c :: rest) 0).2, { flags with precision := (stoui (c :: rest) 0).1 })
      else if c = '*' then some (rest, { flags with argPrecision := true })
      else some (rest, flags)
  | fmt => some (fmt, flags)

/-- What stands behind a `%`: the format, the conversion and the rest. `none` if the format string ends
    before the conversion; the loops then read on behind its NUL. -/
def parseDirective (format : List Char) : Option (Format × Char × List Char) :=
  let flags := parseFlags format Format.zero
  let width := parseWidth flags.1 flags.2
  match parsePrecision width.1 width.2 with
  | some (f :: tmp, outFormat) => some (outFormat, f, tmp)
  | _ => none

section Parse

variable {fmt rest : List Char} {flags : Format}

theorem stoui_length (str : List Char) (res : Int) : (stoui str res).2.length ≤ str.length := by
  induction str generalizing res with
  | nil => exact Nat.le_refl _
  | cons c str ih =>
      unfold stoui
      split_ifs
      · exact (ih _).trans (Nat.le_succ _)
      · exact Nat.le_refl _

theorem parseFlags_length (fmt : List Char) (flags : Format) :
    (parseFlags fmt flags).1.length ≤ fmt.length := by
  fun_induction parseFlags fmt flags with
  | case1 fmt flags ih => exact ih.trans (Nat.le_succ _)
  | case2 fmt flags ih => exact ih.trans (Nat.le_succ _)
  | case3 fmt flags ih => exact ih.trans (Nat.le_succ _)
  | case4 fmt flags ih => exact ih.trans (Nat.le_succ _)
  | case5 => exact Nat.le_refl _

theorem parseWidth_length (fmt : List Char) (flags : Format) :
    (parseWidth fmt flags).1.length ≤ fmt.length := by
  unfold parseWidth
  split
  · exact Nat.le_refl _
  · split_ifs
    · exact Nat.le_succ _
    · exact stoui_length _ _
    · exact Nat.le_refl _

theorem parsePrecision_length {flags' : Format} (h : parsePrecision fmt flags = some (rest, flags')) :
    rest.length ≤ fmt.length := by
  unfold parsePrecision at h
  split at h
  · cases h
  · split_ifs at h
    · cases h
      exact (stoui_length _ _).trans (Nat.le_succ _)
    · cases h
      exact (Nat.le_succ _).trans (Nat.le_succ _)
    · cases h
      exact (Nat.le_succ _).trans (Nat.le_succ _)
  · cases h
    exact Nat.le_refl _

/-- A directive is not empty. -/
theorem parseDirective_length {format : List Char} {f : Char}
    (h : parseDirective format = some (flags, f, rest)) : rest.length < format.length := by
  simp only [parseDirective] at h
  split at h
  · rename_i f' tmp outFormat hp
    have h1 := parsePrecision_length hp
    have h2 := parseWidth_length (parseFlags format Format.zero).1 (parseFlags format Format.zero).2
    have h3 := parseFlags_length format Format.zero
    cases h
    rw [List.length_cons] at h1
    omega
  · cases h

end Parse

/-! ## 2. Arguments -/

/-- A string in memory, without its NUL. `kstrlen` counts in an `int`. -/
structure CString where
  chars : List Char
  noNul : '\x00' ∉ chars
  short : chars.length < 2 ^ 31

/-- `kstrlen`. -/
def kstrlen (s : CString) : Int := s.chars.length

/-- Width and precision that are given as arguments; how many arguments are used then. -/
def Format.fetch (outFormat : Format) (arg : Nat → BitVec 64) (used : Nat) : Format × Nat :=
  let width :=
    if outFormat.argWidth then ({ outFormat with minWidth := toInt (arg used).toNat }, used + 1)
    else (outFormat, used)
  if outFormat.argPrecision then
    ({ width.1 with precision := toInt (arg width.2).toNat }, width.2 + 1)
  else width

/-- `char val = va_arg(arg, uint64)`. -/
def toChar (w : BitVec 64) : Char := Char.ofNat (w.toNat % 256)

/-! ## 3. Numbers -/

/-- `*buffer = c; buffer--` from the end of an array of 128 characters with a NUL in the last. -/
def push (buffer : List Char) (c : Char) : Option (List Char) :=
  if buffer.length < 127 then some (c :: buffer) else none

/-- `digits[i]`. -/
def digitAt (digits : List Char) (i : Int) : Option Char :=
  if 0 ≤ i then digits[i.toNat]? else none

/-- The loop over the digits of a number, `%` and `/` as in C. -/
def digitLoop (digits : List Char) (base val : Int) (buffer : List Char) : Option (List Char) :=
  match digitAt digits (val.tmod base) with
  | none => none
  | some d =>
      match _h : push buffer d with
      | none => none
      | some buffer' =>
          if val.tdiv base ≠ 0 then digitLoop digits base (val.tdiv base) buffer' else some buffer'
termination_by 127 - buffer.length
decreasing_by
  unfold push at _h
  split_ifs at _h with hl
  cases _h
  rw [List.length_cons]
  omega

/-- The loop that writes zeroes up to the precision. -/
def fillLoop (digits : List Char) : (n : Nat) → (buffer : List Char) → Option (List Char)
  | 0, buffer => some buffer
  | n + 1, buffer => (digitAt digits 0).bind fun d => (push buffer d).bind (fillLoop digits n)

/-- The sign in front of a number. -/
def pushSign (neg : Bool) (fmt : Format) (buffer : List Char) : Option (List Char) :=
  if neg then push buffer '-'
  else if fmt.forceSign then push buffer '+'
  else if fmt.spaceIfNoSign then push buffer ' '
  else some buffer

/-- The digits, the zeroes and the sign of a number. The `length` that the code counts is the one of the
    text. -/
def numberText (digits : List Char) (base val : Int) (neg : Bool) (fmt : Format) : Option (List Char) :=
  (digitLoop digits base val []).bind fun buffer =>
    (fillLoop digits (fmt.precision - buffer.length).toNat buffer).bind (pushSign neg fmt)

/-- `PrintInt64Base` up to the printing. -/
def int64Text (val : BitVec 64) (digits : List Char) (base : Int) (fmt : Format) : Option (List Char) :=
  let neg := decide (val.toInt < 0)
  numberText digits base (if neg then (-val).toInt else val.toInt) neg fmt

/-- `PrintUInt64Base` up to the printing. -/
def uint64Text (val : BitVec 64) (digits : List Char) (base : Int) (fmt : Format) : Option (List Char) :=
  numberText digits base val.toNat false fmt

def decimalDigits : List Char := ['0', '1', '2', '3', '4', '5', '6', '7', '8', '9']
def octalDigits : List Char := ['0', '1', '2', '3', '4', '5', '6', '7']
def hexDigitsLower : List Char :=
  ['0', '1', '2', '3', '4', '5', '6', '7', '8', '9', 'a', 'b', 'c', 'd', 'e', 'f']
def hexDigitsUpper : List Char :=
  ['0', '1', '2', '3', '4', '5', '6', '7', '8', '9', 'A', 'B', 'C', 'D', 'E', 'F']

/-! ## 4. The loop over the format -/

/-- The loop of both engines. `σ` is what an engine keeps between directives, `ω` what it puts out;
    `used` counts the arguments taken. -/
def vprintf {σ ω : Type} (text : σ → Char → List ω)
    (directive : σ → Format → Char → Nat → Option (List ω × Nat × σ)) (format : List Char) (st : σ)
    (used : Nat) : Option (List ω × Nat) :=
  match format with
  | [] => some ([], used)
  | c :: format =>
      if c = '%' then
        match _h : parseDirective format with
        | none => none
        | some (outFormat, f, tmp) =>
            (directive st outFormat f used).bind fun r =>
              (vprintf text directive tmp r.2.2 r.2.1).map fun r' => (r.1 ++ r'.1, r'.2)
      else (vprintf text directive format st used).map fun r' => (text st c ++ r'.1, r'.2)
termination_by format.length
decreasing_by
  · have := parseDirective_length _h
    rw [List.length_cons]
    omega
  · exact Nat.lt_succ_self _

/-! ## 5. The engine of the terminal -/

/-- What is sent to the terminal. -/
inductive TermOp where
  | putChar (c : Char) (color : Nat)
  | newLine

/-- The character that stands for it. -/
def TermOp.seen : TermOp → Char
  | .putChar c _ => c
  | .newLine => '\n'

namespace Kvprintf

def emit (color : Nat) (c : Char) : TermOp := if c = '\n' then .newLine else .putChar c color

/-- `PrintString`: up to the NUL. -/
def printString (str : List Char) (color : Nat) : List TermOp :=
  (str.takeWhile (· ≠ '\x00')).map (emit color)

/-- `PrintStringMaxLength`. -/
def printStringMaxLength (str : List Char) (length : Int) (color : Nat) : List TermOp :=
  ((str.takeWhile (· ≠ '\x00')).take length.toNat).map (emit color)

/-- `PrintPadding`. -/
def printPadding (length : Int) (padWithZeroes : Bool) (color : Nat) : List TermOp :=
  List.replicate length.toNat (.putChar (if padWithZeroes then '0' else ' ') color)

/-- `PrintStringPadded`. -/
def printStringPadded (str : List Char) (length : Int) (fmt : Format) (color : Nat) : List TermOp :=
  if length < fmt.minWidth then
    if fmt.leftJustify then
      printString str color ++ printPadding (toInt (fmt.minWidth - length)) false color
    else
      printPadding (toInt (fmt.minWidth - length)) fmt.leftPadWithZeroes color ++ printString str color
  else printString str color

/-- `PrintStringPaddedPrecision`. -/
def printStringPaddedPrecision (str : List Char) (length : Int) (fmt : Format) (color : Nat) :
    List TermOp :=
  let length := if length > fmt.precision ∧ fmt.precision ≠ 0 then fmt.precision else length
  if length < fmt.minWidth then
    if fmt.leftJustify then
      printStringMaxLength str length color ++
        printPadding (toInt (fmt.minWidth - length)) false color
    else
      printPadding (toInt (fmt.minWidth - length)) fmt.leftPadWithZeroes color ++
        printStringMaxLength str length color
  else printStringMaxLength str length color

/-- `PrintStringCentered`. -/
def printStringCentered (str : CString) (color : Nat) (padding : BitVec 64) : List TermOp :=
  let len := kstrlen str
  if len > padding.toNat then printString str.chars color
  else
    let leftPadding := toInt ((padding.toNat - len) / 2)
    let rightPadding := toInt (padding.toNat - len - leftPadding)
    List.replicate leftPadding.toNat (.putChar ' ' color) ++ str.chars.map (.putChar · color) ++
      List.replicate rightPadding.toNat (.putChar ' ' color)

/-- `PrintChar`. -/
def printChar (c : Char) (fmt : Format) (color : Nat) : List TermOp :=
  printStringPadded [c] 1 fmt color

def printInt64Base (val : BitVec 64) (digits : List Char) (base : Int) (fmt : Format) (color : Nat) :
    Option (List TermOp) :=
  (int64Text val digits base fmt).map fun text => printStringPadded text text.length fmt color

def printUInt64Base (val : BitVec 64) (digits : List Char) (base : Int) (fmt : Format) (color : Nat) :
    Option (List TermOp) :=
  (uint64Text val digits base fmt).map fun text => printStringPadded text text.length fmt color

def printInt (val : BitVec 64) (fmt : Format) (color : Nat) : Option (List TermOp) :=
  printInt64Base val decimalDigits 10 fmt color

def printUInt (val : BitVec 64) (fmt : Format) (color : Nat) : Option (List TermOp) :=
  printUInt64Base val decimalDigits 10 fmt color

def printOctalInt (val : BitVec 64) (fmt : Format) (color : Nat) : Option (List TermOp) :=
  printInt64Base val octalDigits 8 fmt color

def printHexUIntLower (val : BitVec 64) (fmt : Format) (color : Nat) : Option (List TermOp) :=
  printUInt64Base val hexDigitsLower 16 fmt color

def printHexUIntUpper (val : BitVec 64) (fmt : Format) (color : Nat) : Option (List TermOp) :=
  printUInt64Base val hexDigitsUpper 16 fmt color

/-- One directive: what is printed, the arguments used so far, the color from here on. -/
def directive (str : BitVec 64 → CString) (arg : Nat → BitVec 64) (color : Nat) (outFormat : Format)
    (f : Char) (used : Nat) : Option (List TermOp × Nat × Nat) :=
  let outFormat' := (outFormat.fetch arg used).1
  let used' := (outFormat.fetch arg used).2
  let val := arg used'
  if f = 'S' then
    some (printStringCentered (str val) color (arg (used' + 1)), used' + 2, color)
  else if f = 'C' then
    some ([], used' + 3, (val.toNat % 256) <<< 16 ||| ((arg (used' + 1)).toNat % 256) <<< 8 |||
      (arg (used' + 2)).toNat % 256)
  else if f = 'c' then some (printChar (toChar val) outFormat' color, used' + 1, color)
  else if f = 'd' ∨ f = 'i' then (printInt val outFormat' color).map (·, used' + 1, color)
  else if f = 'o' then (printOctalInt val outFormat' color).map (·, used' + 1, color)
  else if f = 's' then
    some (printStringPaddedPrecision (str val).chars (kstrlen (str val)) outFormat' color, used' + 1,
      color)
  else if f = 'u' then (printUInt val outFormat' color).map (·, used' + 1, color)
  else if f = 'x' then (printHexUIntLower val outFormat' color).map (·, used' + 1, color)
  else if f = 'X' ∨ f = 'p' then (printHexUIntUpper val outFormat' color).map (·, used' + 1, color)
  else if f = '%' then some ([.putChar '%' color], used', color)
  else some ([], used', color)

end Kvprintf

/-- `_kvprintf`: what it sends to the terminal and how many arguments it takes. -/
def kvprintf (str : BitVec 64 → CString) (color : Nat) (format : List Char) (arg : Nat → BitVec 64) :
    Option (List TermOp × Nat) :=
  vprintf (fun color c => [Kvprintf.emit color c]) (Kvprintf.directive str arg) format color 0

/-! ## 6. The engine of a descriptor -/

namespace Kfvprintf

/-- `VFS::Write(fd, str, l)`, which transfers `l` bytes from `str` on; `mem` is what stands there. -/
def write (mem : List Char) (l : Int) : Option (List Char) :=
  if 0 ≤ l ∧ l ≤ mem.length then some (mem.take l.toNat) else none

/-- `PrintString`. -/
def printString (str : List Char) (l : Int) : Option (List Char) := write (str ++ ['\x00']) l

/-- `PrintPadding`, a byte at a time. -/
def printPadding (length : Int) (padWithZeroes : Bool) : List Char :=
  List.replicate length.toNat (if padWithZeroes then '0' else ' ')

/-- `PrintStringPadded`. -/
def printStringPadded (str : List Char) (length : Int) (fmt : Format) : Option (List Char) :=
  if length < fmt.minWidth then
    if fmt.leftJustify then
      (printString str length).map (· ++ printPadding (toInt (fmt.minWidth - length)) false)
    else
      (printString str length).map
        (printPadding (toInt (fmt.minWidth - length)) fmt.leftPadWithZeroes ++ ·)
  else printString str length

/-- `PrintStringPaddedPrecision`. -/
def printStringPaddedPrecision (str : List Char) (length : Int) (fmt : Format) : Option (List Char) :=
  let length := if length > fmt.precision ∧ fmt.precision ≠ 0 then fmt.precision else length
  if length < fmt.minWidth then
    if fmt.leftJustify then
      (printString str length).map (· ++ printPadding (toInt (fmt.minWidth - length)) false)
    else
      (printString str length).map
        (printPadding (toInt (fmt.minWidth - length)) fmt.leftPadWithZeroes ++ ·)
  else printString str length

/-- `PrintStringCentered`. -/
def printStringCentered (str : List Char) (length : Int) (padding : BitVec 64) : Option (List Char) :=
  if length > padding.toNat then printString str length
  else
    let leftPadding := toInt ((padding.toNat - length) / 2)
    let rightPadding := toInt (padding.toNat - length - leftPadding)
    (printString str length).map fun text =>
      printPadding leftPadding false ++ text ++ printPadding rightPadding false

/-- `PrintChar`. -/
def printChar (c : Char) (fmt : Format) : Option (List Char) := printStringPadded [c] 1 fmt

def printInt64Base (val : BitVec 64) (digits : List Char) (base : Int) (fmt : Format) :
    Option (List Char) :=
  (int64Text val digits base fmt).bind fun text => printStringPadded text text.length fmt

def printUInt64Base (val : BitVec 64) (digits : List Char) (base : Int) (fmt : Format) :
    Option (List Char) :=
  (uint64Text val digits base fmt).bind fun text => printStringPadded text text.length fmt

def printInt (val : BitVec 64) (fmt : Format) : Option (List Char) :=
  printInt64Base val decimalDigits 10 fmt

def printUInt (val : BitVec 64) (fmt : Format) : Option (List Char) :=
  printUInt64Base val decimalDigits 10 fmt

def printOctalInt (val : BitVec 64) (fmt : Format) : Option (List Char) :=
  printInt64Base val octalDigits 8 fmt

def printHexUIntLower (val : BitVec 64) (fmt : Format) : Option (List Char) :=
  printUInt64Base val hexDigitsLower 16 fmt

def printHexUIntUpper (val : BitVec 64) (fmt : Format) : Option (List Char) :=
  printUInt64Base val hexDigitsUpper 16 fmt

/-- One directive: what is written and the arguments used so far. There is no `C` here. -/
def directive (str : BitVec 64 → CString) (arg : Nat → BitVec 64) (_ : Unit) (outFormat : Format)
    (f : Char) (used : Nat) : Option (List Char × Nat × Unit) :=
  let outFormat' := (outFormat.fetch arg used).1
  let used' := (outFormat.fetch arg used).2
  let val := arg used'
  if f = 'S' then
    (printStringCentered (str val).chars (kstrlen (str val)) (arg (used' + 1))).map (·, used' + 2, ())
  else if f = 'c' then (printChar (toChar val) outFormat').map (·, used' + 1, ())
  else if f = 'd' ∨ f = 'i' then (printInt val outFormat').map (·, used' + 1, ())
  else if f = 'o' then (printOctalInt val outFormat').map (·, used' + 1, ())
  else if f = 's' then
    (printStringPaddedPrecision (str val).chars (kstrlen (str val)) outFormat').map (·, used' + 1, ())
  else if f = 'u' then (printUInt val outFormat').map (·, used' + 1, ())
  else if f = 'x' then (printHexUIntLower val outFormat').map (·, used' + 1, ())
  else if f = 'X' ∨ f = 'p' then (printHexUIntUpper val outFormat').map (·, used' + 1, ())
  else if f = '%' then some (['%'], used', ())
  else some ([], used', ())

end Kfvprintf

/-- `_kfvprintf`: the bytes it writes and how many arguments it takes. -/
def kfvprintf (str : BitVec 64 → CString) (format : List Char) (arg : Nat → BitVec 64) :
    Option (List Char × Nat) :=
  vprintf (fun _ c => [c]) (Kfvprintf.directive str arg) format () 0

/-! ## 7. When a number fits into its buffer -/

/-- The digits of a base, none of them NUL. -/
structure Table (digits : List Char) (base : Int) : Prop where
  length : (digits.length : Int) = base
  two : 2 ≤ base
  noNul : '\x00' ∉ digits

theorem decimal_table : Table decimalDigits 10 := ⟨rfl, by decide, by decide⟩
theorem octal_table : Table octalDigits 8 := ⟨rfl, by decide, by decide⟩
theorem hexLower_table : Table hexDigitsLower 16 := ⟨rfl, by decide, by decide⟩
theorem hexUpper_table : Table hexDigitsUpper 16 := ⟨rfl, by decide, by decide⟩

/-- How many characters the sign takes. -/
def signs (neg : Bool) (fmt : Format) : Int :=
  if neg then 1 else if fmt.forceSign then 1 else if fmt.spaceIfNoSign then 1 else 0

section Numbers

variable {digits : List Char} {base val : Int} {buffer : List Char} {fmt : Format} {neg : Bool}

theorem Table.digit (ht : Table digits base) {i : Int} (h0 : 0 ≤ i) (h1 : i < base) :
    ∃ d ∈ digits, digitAt digits i = some d := by
  have hl : i.toNat < digits.length := by
    have := ht.length
    omega
  refine ⟨digits[i.toNat], List.getElem_mem hl, ?_⟩
  rw [digitAt, if_pos h0, List.getElem?_eq_getElem hl]

/-- No digit has a negative index. -/
theorem digitAt_neg {i : Int} (h : i < 0) : digitAt digits i = none := if_neg (by omega)

theorem push_some {c : Char} (h : buffer.length < 127) : push buffer c = some (c :: buffer) := if_pos h

theorem push_none {c : Char} (h : 127 ≤ buffer.length) : push buffer c = none := if_neg (by omega)

theorem digitLoop_last {d : Char} (hd : digitAt digits (val.tmod base) = some d)
    (hb : buffer.length < 127) (hz : val.tdiv base = 0) :
    digitLoop digits base val buffer = some (d :: buffer) := by
  rw [digitLoop]
  split
  · rename_i h
    rw [hd] at h
    cases h
  · rename_i d' h
    rw [hd] at h
    cases h
    split
    · rename_i h
      rw [push_some hb] at h
      cases h
    · rename_i b h
      rw [push_some hb] at h
      cases h
      rw [if_neg (not_not.mpr hz)]

theorem digitLoop_next {d : Char} (hd : digitAt digits (val.tmod base) = some d)
    (hb : buffer.length < 127) (hz : val.tdiv base ≠ 0) :
    digitLoop digits base val buffer = digitLoop digits base (val.tdiv base) (d :: buffer) := by
  conv_lhs => rw [digitLoop]
  split
  · rename_i h
    rw [hd] at h
    cases h
  · rename_i d' h
    rw [hd] at h
    cases h
    split
    · rename_i h
      rw [push_some hb] at h
      cases h
    · rename_i b h
      rw [push_some hb] at h
      cases h
      rw [if_pos hz]

/-- A number below `base ^ (k + 1)` has at most `k + 1` digits. -/
theorem digitLoop_some (ht : Table digits base) (k : Nat) (h0 : 0 ≤ val) (hk : val < base ^ (k + 1))
    (hb : buffer.length + k < 127) :
    ∃ text, digitLoop digits base val buffer = some text ∧ text.length ≤ buffer.length + k + 1 ∧
      ∀ c ∈ text, c ∈ digits ∨ c ∈ buffer := by
  have hbase := ht.two
  induction k generalizing val buffer with
  | zero =>
      rw [zero_add, pow_one] at hk
      obtain ⟨d, hd, he⟩ := ht.digit h0 hk
      refine ⟨d :: buffer, digitLoop_last ?_ hb (Int.tdiv_eq_zero_of_lt h0 hk), ?_, ?_⟩
      · rw [Int.tmod_eq_of_lt h0 hk]
        exact he
      · exact Nat.le_refl _
      · intro c hc
        rcases List.mem_cons.mp hc with rfl | h
        · exact Or.inl hd
        · exact Or.inr h
  | succ k ih =>
      obtain ⟨d, hd, he⟩ := ht.digit (Int.tmod_nonneg base h0) (Int.tmod_lt_of_pos val (by omega))
      have hmem : ∀ c ∈ d :: buffer, c ∈ digits ∨ c ∈ buffer := by
        intro c hc
        rcases List.mem_cons.mp hc with rfl | h
        · exact Or.inl hd
        · exact Or.inr h
      by_cases hz : val.tdiv base = 0
      · refine ⟨d :: buffer, digitLoop_last he (by omega) hz, ?_, hmem⟩
        rw [List.length_cons]
        omega
      · rw [digitLoop_next he (by omega) hz]
        have h1 : 0 ≤ val.tdiv base := Int.tdiv_nonneg h0 (by omega)
        have h2 : val.tdiv base < base ^ (k + 1) := by
          rw [Int.tdiv_eq_ediv_of_nonneg h0]
          apply Int.ediv_lt_of_lt_mul (by omega)
          rwa [← pow_succ]
        obtain ⟨text, h3, h4, h5⟩ := @ih (val.tdiv base) (d :: buffer) h1 h2 (by rw [List.length_cons]; omega)
        refine ⟨text, h3, ?_, ?_⟩
        · rw [List.length_cons] at h4
          omega
        · intro c hc
          rcases h5 c hc with h | h
          · exact Or.inl h
          · exact hmem c h

/-- A negative digit stops the loop. -/
theorem tdiv_neg_of_digit {d : Char} (ht : Table digits base) (h : val < 0)
    (hd : digitAt digits (val.tmod base) = some d) : val.tdiv base < 0 := by
  have hbase := ht.two
  have h1 : ¬ val.tmod base < 0 := by
    intro h1
    rw [digitAt_neg h1] at hd
    cases hd
  have h2 : base * val.tdiv base + val.tmod base = val := Int.mul_tdiv_add_tmod val base
  by_contra h3
  have h4 : 0 ≤ base * val.tdiv base := Int.mul_nonneg (by omega) (by omega)
  omega

/-- A number that is still negative has no digits: `-INT64_MIN` wraps. -/
theorem digitLoop_neg (ht : Table digits base) (h : val < 0) : digitLoop digits base val buffer = none := by
  fun_induction digitLoop digits base val buffer with
  | case1 => rfl
  | case2 => rfl
  | case3 val buffer d hd buffer' _ _ ih => exact ih (tdiv_neg_of_digit ht h hd)
  | case4 val buffer d hd buffer' _ hz =>
      have := tdiv_neg_of_digit ht h hd
      omega

theorem fillLoop_some (ht : Table digits base) (n : Nat) (hb : buffer.length + n ≤ 127) :
    ∃ text, fillLoop digits n buffer = some text ∧ text.length = buffer.length + n ∧
      ∀ c ∈ text, c ∈ digits ∨ c ∈ buffer := by
  induction n generalizing buffer with
  | zero => exact ⟨buffer, rfl, rfl, fun c hc => Or.inr hc⟩
  | succ n ih =>
      obtain ⟨d, hd, he⟩ := ht.digit (Int.le_refl 0) (by have := ht.two; omega)
      obtain ⟨text, h1, h2, h3⟩ := @ih (d :: buffer) (by rw [List.length_cons]; omega)
      refine ⟨text, ?_, ?_, ?_⟩
      · rw [fillLoop, he, Option.bind_some, push_some (by omega), Option.bind_some]
        exact h1
      · rw [h2, List.length_cons]
        omega
      · intro c hc
        rcases h3 c hc with h | h
        · exact Or.inl h
        · rcases List.mem_cons.mp h with rfl | h
          · exact Or.inl hd
          · exact Or.inr h

theorem fillLoop_none (n : Nat) (hb : 127 < buffer.length + n) (hl : buffer.length ≤ 127) :
    fillLoop digits n buffer = none := by
  induction n generalizing buffer with
  | zero => omega
  | succ n ih =>
      rw [fillLoop]
      cases digitAt digits 0 with
      | none => rfl
      | some d =>
          rw [Option.bind_some]
          by_cases hf : buffer.length < 127
          · rw [push_some hf, Option.bind_some]
            exact ih (by rw [List.length_cons]; omega) (by rw [List.length_cons]; omega)
          · rw [push_none (by omega)]
            rfl

theorem pushSign_some (hb : buffer.length + signs neg fmt ≤ 127) :
    ∃ text, pushSign neg fmt buffer = some text ∧ text.length = buffer.length + signs neg fmt ∧
      ('\x00' ∉ buffer → '\x00' ∉ text) := by
  have hpush : ∀ {c : Char}, c ≠ '\x00' → (buffer.length : Int) + 1 ≤ 127 →
      ∃ text, push buffer c = some text ∧ (text.length : Int) = buffer.length + 1 ∧
        ('\x00' ∉ buffer → '\x00' ∉ text) := by
    intro c hc hl
    refine ⟨c :: buffer, push_some (by omega), by rw [List.length_cons]; omega, ?_⟩
    intro hn hm
    rcases List.mem_cons.mp hm with h | h
    · exact hc h.symm
    · exact hn h
  unfold pushSign
  unfold signs at hb ⊢
  split_ifs at hb ⊢
  · exact hpush (by decide) hb
  · exact hpush (by decide) hb
  · exact hpush (by decide) hb
  · exact ⟨buffer, rfl, by omega, id⟩

theorem pushSign_none (hb : 127 < buffer.length + signs neg fmt) (hl : buffer.length ≤ 127) :
    pushSign neg fmt buffer = none := by
  unfold pushSign
  unfold signs at hb
  split_ifs at hb ⊢
  · exact push_none (by omega)
  · exact push_none (by omega)
  · exact push_none (by omega)
  · omega

/-- A number that is not negative is printed if its precision and its sign fit into the buffer. -/
theorem numberText_some (ht : Table digits base) (h0 : 0 ≤ val) (h1 : val < 2 ^ 64)
    (hp : fmt.precision + signs neg fmt ≤ 127) :
    ∃ text, numberText digits base val neg fmt = some text ∧ '\x00' ∉ text := by
  have hk : val < base ^ (63 + 1) :=
    lt_of_lt_of_le h1 (pow_le_pow_left₀ (by omega) ht.two 64)
  obtain ⟨b1, he1, hl1, hm1⟩ := @digitLoop_some _ _ _ [] ht 63 h0 hk (by decide)
  have hl1' : b1.length ≤ 64 := hl1
  have hs : 0 ≤ signs neg fmt ∧ signs neg fmt ≤ 1 := by
    unfold signs
    split_ifs <;> omega
  obtain ⟨b2, he2, hl2, hm2⟩ := @fillLoop_some _ _ b1 ht (fmt.precision - b1.length).toNat (by omega)
  obtain ⟨text, he3, hl3, hm3⟩ := @pushSign_some b2 fmt neg (by omega)
  refine ⟨text, ?_, hm3 ?_⟩
  · rw [numberText, he1, Option.bind_some, he2, Option.bind_some, he3]
  · intro h
    rcases hm2 _ h with h | h
    · exact ht.noNul h
    · rcases hm1 _ h with h | h
      · exact ht.noNul h
      · cases h

theorem numberText_none (ht : Table digits base) (h0 : 0 ≤ val) (h1 : val < 2 ^ 64)
    (hp : 127 < fmt.precision + signs neg fmt) : numberText digits base val neg fmt = none := by
  have hk : val < base ^ (63 + 1) :=
    lt_of_lt_of_le h1 (pow_le_pow_left₀ (by omega) ht.two 64)
  obtain ⟨b1, he1, hl1, hm1⟩ := @digitLoop_some _ _ _ [] ht 63 h0 hk (by decide)
  have hl1' : b1.length ≤ 64 := hl1
  have hs : 0 ≤ signs neg fmt ∧ signs neg fmt ≤ 1 := by
    unfold signs
    split_ifs <;> omega
  rw [numberText, he1, Option.bind_some]
  by_cases hf : fmt.precision ≤ 127
  · obtain ⟨b2, he2, hl2, hm2⟩ := @fillLoop_some _ _ b1 ht (fmt.precision - b1.length).toNat (by omega)
    rw [he2, Option.bind_some]
    exact pushSign_none (by omega) (by omega)
  · rw [fillLoop_none _ (by omega) (by omega)]
    rfl

/-- What `PrintInt64Base` divides is below `2 ^ 64`, and not negative but for `INT64_MIN`. -/
theorem magnitude (w : BitVec 64) (hw : w ≠ BitVec.intMin 64) :
    0 ≤ (if decide (w.toInt < 0) then (-w).toInt else w.toInt) ∧
      (if decide (w.toInt < 0) then (-w).toInt else w.toInt) < 2 ^ 64 := by
  have h1 : w.toInt < 2 ^ 63 := BitVec.toInt_lt
  have h2 : -2 ^ 63 ≤ w.toInt := BitVec.le_toInt w
  rw [BitVec.toInt_neg_of_ne_intMin hw]
  by_cases hn : w.toInt < 0
  · rw [if_pos (decide_eq_true hn)]
    omega
  · rw [if_neg (by simpa using hn)]
    omega

theorem int64Text_some {w : BitVec 64} (ht : Table digits base) (hw : w ≠ BitVec.intMin 64)
    (hp : fmt.precision + signs (decide (w.toInt < 0)) fmt ≤ 127) :
    ∃ text, int64Text w digits base fmt = some text ∧ '\x00' ∉ text :=
  numberText_some ht (magnitude w hw).1 (magnitude w hw).2 hp

theorem int64Text_none {w : BitVec 64} (ht : Table digits base)
    (h : ¬ (w ≠ BitVec.intMin 64 ∧ fmt.precision + signs (decide (w.toInt < 0)) fmt ≤ 127)) :
    int64Text w digits base fmt = none := by
  by_cases hw : w = BitVec.intMin 64
  · subst hw
    rw [int64Text, numberText, digitLoop_neg ht (by decide)]
    rfl
  · exact numberText_none ht (magnitude w hw).1 (magnitude w hw).2 (by_contra fun hp => h ⟨hw, by omega⟩)

theorem uint64Text_some {w : BitVec 64} (ht : Table digits base)
    (hp : fmt.precision + signs false fmt ≤ 127) :
    ∃ text, uint64Text w digits base fmt = some text ∧ '\x00' ∉ text :=
  numberText_some ht (Int.natCast_nonneg _) (by have := w.isLt; omega) hp

theorem uint64Text_none {w : BitVec 64} (ht : Table digits base)
    (hp : ¬ fmt.precision + signs false fmt ≤ 127) : uint64Text w digits base fmt = none :=
  numberText_none ht (Int.natCast_nonneg _) (by have := w.isLt; omega) (by omega)

end Numbers

/-! ## 8. The printing functions of both engines -/

/-- The terminal gets what is written. -/
def Same (ops : List TermOp) (out : Option (List Char)) : Prop := out = some (ops.map TermOp.seen)

section Same

variable {s : List Char} {fmt : Format}

theorem emit_seen (color : Nat) (c : Char) : (Kvprintf.emit color c).seen = c := by
  unfold Kvprintf.emit
  split_ifs with h
  · exact h.symm
  · rfl

theorem map_emit (color : Nat) (s : List Char) : (s.map (Kvprintf.emit color)).map TermOp.seen = s := by
  rw [List.map_map]
  exact (List.map_congr_left fun c _ => emit_seen color c).trans (List.map_id s)

theorem takeWhile_noNul (h : '\x00' ∉ s) : s.takeWhile (· ≠ '\x00') = s := by
  rw [List.takeWhile_eq_self_iff]
  intro c hc
  have : c ≠ '\x00' := by
    rintro rfl
    exact h hc
  simpa using this

theorem same_maxLength (h : '\x00' ∉ s) {l : Int} (h0 : 0 ≤ l) (hl : l ≤ s.length) (color : Nat) :
    Same (Kvprintf.printStringMaxLength s l color) (Kfvprintf.printString s l) := by
  have hle : l ≤ (s ++ ['\x00']).length := by
    rw [List.length_append]
    omega
  rw [Same, Kvprintf.printStringMaxLength, takeWhile_noNul h, map_emit, Kfvprintf.printString,
    Kfvprintf.write, if_pos ⟨h0, hle⟩, List.take_append_of_le_length (by omega)]

theorem same_string (h : '\x00' ∉ s) (color : Nat) :
    Same (Kvprintf.printString s color) (Kfvprintf.printString s s.length) := by
  have h1 := same_maxLength h (Int.natCast_nonneg s.length) (Int.le_refl _) color
  have h2 : Kvprintf.printStringMaxLength s s.length color = Kvprintf.printString s color := by
    rw [Kvprintf.printStringMaxLength, Kvprintf.printString, takeWhile_noNul h, Int.toNat_natCast,
      List.take_length]
  rwa [h2] at h1

theorem seen_padding (l : Int) (z : Bool) (color : Nat) :
    (Kvprintf.printPadding l z color).map TermOp.seen = Kfvprintf.printPadding l z := by
  rw [Kvprintf.printPadding, List.map_replicate]
  rfl

theorem Same.pad_right {ops : List TermOp} {out : Option (List Char)} (h : Same ops out) (l : Int)
    (z : Bool) (color : Nat) :
    Same (ops ++ Kvprintf.printPadding l z color) (out.map (· ++ Kfvprintf.printPadding l z)) := by
  rw [Same] at h ⊢
  rw [h, Option.map_some, List.map_append, seen_padding]

theorem Same.pad_left {ops : List TermOp} {out : Option (List Char)} (h : Same ops out) (l : Int)
    (z : Bool) (color : Nat) :
    Same (Kvprintf.printPadding l z color ++ ops) (out.map (Kfvprintf.printPadding l z ++ ·)) := by
  rw [Same] at h ⊢
  rw [h, Option.map_some, List.map_append, seen_padding]

theorem same_padded (h : '\x00' ∉ s) (color : Nat) :
    Same (Kvprintf.printStringPadded s s.length fmt color)
      (Kfvprintf.printStringPadded s s.length fmt) := by
  unfold Kvprintf.printStringPadded Kfvprintf.printStringPadded
  split_ifs
  · exact (same_string h color).pad_right _ _ _
  · exact (same_string h color).pad_left _ _ _
  · exact same_string h color

theorem same_precision (h : '\x00' ∉ s) (hp : 0 ≤ fmt.precision) (color : Nat) :
    Same (Kvprintf.printStringPaddedPrecision s s.length fmt color)
      (Kfvprintf.printStringPaddedPrecision s s.length fmt) := by
  simp only [Kvprintf.printStringPaddedPrecision, Kfvprintf.printStringPaddedPrecision]
  generalize hl : (if (s.length : Int) > fmt.precision ∧ fmt.precision ≠ 0 then fmt.precision
    else (s.length : Int)) = l
  have h0 : 0 ≤ l ∧ l ≤ s.length := by
    subst hl
    split_ifs <;> omega
  split_ifs
  · exact (same_maxLength h h0.1 h0.2 color).pad_right _ _ _
  · exact (same_maxLength h h0.1 h0.2 color).pad_left _ _ _
  · exact same_maxLength h h0.1 h0.2 color

/-- With a negative precision the second engine writes `2 ^ 64` bytes less a few. -/
theorem precision_none (hp : fmt.precision < 0) :
    Kfvprintf.printStringPaddedPrecision s s.length fmt = none := by
  have hw : Kfvprintf.printString s fmt.precision = none := if_neg (by omega)
  have hl : (s.length : Int) > fmt.precision ∧ fmt.precision ≠ 0 := by omega
  simp only [Kfvprintf.printStringPaddedPrecision, if_pos hl, hw]
  split_ifs <;> rfl

theorem same_centered (str : CString) (color : Nat) (padding : BitVec 64) :
    Same (Kvprintf.printStringCentered str color padding)
      (Kfvprintf.printStringCentered str.chars (kstrlen str) padding) := by
  have hs := same_string str.noNul color
  simp only [Kvprintf.printStringCentered, Kfvprintf.printStringCentered]
  split_ifs
  · exact hs
  · -- the terminal gets the characters one by one here, a newline too
    have hs' : Same (str.chars.map (.putChar · color)) (Kfvprintf.printString str.chars (kstrlen str)) := by
      rw [Same] at hs ⊢
      rw [kstrlen, hs, Kvprintf.printString, takeWhile_noNul str.noNul, map_emit, List.map_map]
      exact congrArg some (List.map_id str.chars).symm
    have h1 := (hs'.pad_left (toInt ((padding.toNat - kstrlen str) / 2)) false color).pad_right
      (toInt (padding.toNat - kstrlen str - toInt ((padding.toNat - kstrlen str) / 2))) false color
    rw [Option.map_map] at h1
    exact h1

theorem same_char {c : Char} (h : c ≠ '\x00') (color : Nat) :
    Same (Kvprintf.printChar c fmt color) (Kfvprintf.printChar c fmt) :=
  same_padded (s := [c]) (by simpa using h.symm) color

end Same

/-! ## 9. Formats as lists of directives -/

inductive Piece where
  | char (c : Char)
  | directive (outFormat : Format) (f : Char)

/-- The pieces of a format; `none` if its last directive is cut off. -/
def pieces : (format : List Char) → Option (List Piece)
  | [] => some []
  | c :: format =>
      if c = '%' then
        match _h : parseDirective format with
        | none => none
        | some (outFormat, f, tmp) => (pieces tmp).map (.directive outFormat f :: ·)
      else (pieces format).map (.char c :: ·)
termination_by format => format.length
decreasing_by
  · have := parseDirective_length _h
    rw [List.length_cons]
    omega
  · exact Nat.lt_succ_self _

/-- The loop over the pieces. -/
def run {σ ω : Type} (text : σ → Char → List ω)
    (directive : σ → Format → Char → Nat → Option (List ω × Nat × σ)) :
    List Piece → (st : σ) → (used : Nat) → Option (List ω × Nat)
  | [], _, used => some ([], used)
  | .char c :: ps, st, used => (run text directive ps st used).map fun r => (text st c ++ r.1, r.2)
  | .directive outFormat f :: ps, st, used =>
      (directive st outFormat f used).bind fun r =>
        (run text directive ps r.2.2 r.2.1).map fun r' => (r.1 ++ r'.1, r'.2)

/-- The loop over a format is the one over its pieces. -/
theorem vprintf_pieces {σ ω : Type} {text : σ → Char → List ω}
    {directive : σ → Format → Char → Nat → Option (List ω × Nat × σ)} {format : List Char}
    {ps : List Piece} (h : pieces format = some ps) (st : σ) (used : Nat) :
    vprintf text directive format st used = run text directive ps st used := by
  fun_induction pieces format generalizing ps st used with
  | case1 =>
      cases h
      rw [vprintf]
      rfl
  | case2 format hd => cases h
  | case3 format outFormat f tmp hd ih =>
      obtain ⟨ps', hp, rfl⟩ := Option.map_eq_some_iff.mp h
      rw [vprintf, if_pos rfl]
      split
      · rename_i hd'
        rw [hd] at hd'
        cases hd'
      · rename_i hd'
        rw [hd] at hd'
        cases hd'
        rw [run]
        congr 1
        funext r
        rw [ih hp]
  | case4 c format hc ih =>
      obtain ⟨ps', hp, rfl⟩ := Option.map_eq_some_iff.mp h
      rw [vprintf, if_neg hc, run, ih hp]

/-- A format that is cut off leads both engines behind its end. -/
theorem vprintf_cut {σ ω : Type} {text : σ → Char → List ω}
    {directive : σ → Format → Char → Nat → Option (List ω × Nat × σ)} {format : List Char}
    (h : pieces format = none) (st : σ) (used : Nat) :
    vprintf text directive format st used = none := by
  fun_induction pieces format generalizing st used with
  | case1 => cases h
  | case2 format hd =>
      rw [vprintf, if_pos rfl]
      split
      · rfl
      · rename_i hd'
        rw [hd] at hd'
        cases hd'
  | case3 format outFormat f tmp hd ih =>
      rw [vprintf, if_pos rfl]
      split
      · rfl
      · rename_i hd'
        rw [hd] at hd'
        cases hd'
        rw [Option.map_eq_none_iff] at h
        cases directive st outFormat f used with
        | none => rfl
        | some r => rw [Option.bind_some, ih h, Option.map_none]
  | case4 c format hc ih =>
      rw [Option.map_eq_none_iff] at h
      rw [vprintf, if_neg hc, ih h, Option.map_none]

/-- How many arguments a conversion takes, apart from width and precision and `C`. -/
def conversionArgs (f : Char) : Nat :=
  if f = 'S' then 2
  else if f = 'c' ∨ f = 'd' ∨ f = 'i' ∨ f = 'o' ∨ f = 's' ∨ f = 'u' ∨ f = 'x' ∨ f = 'X' ∨ f = 'p' then 1
  else 0

/-- `P` holds of every directive and the number of arguments used before it. -/
def Along (arg : Nat → BitVec 64) (P : Format → Char → Nat → Prop) : List Piece → (used : Nat) → Prop
  | [], _ => True
  | .char _ :: ps, used => Along arg P ps used
  | .directive outFormat f :: ps, used =>
      P outFormat f used ∧ Along arg P ps ((outFormat.fetch arg used).2 + conversionArgs f)

/-- A character that is printed is not NUL. -/
def CharGiven (arg : Nat → BitVec 64) (outFormat : Format) (f : Char) (used : Nat) : Prop :=
  f = 'c' → toChar (arg (outFormat.fetch arg used).2) ≠ '\x00'

/-- The directive stays in its memory: a precision of a string is not negative, a number fits into its
    buffer and has a magnitude. -/
def Sound (arg : Nat → BitVec 64) (outFormat : Format) (f : Char) (used : Nat) : Prop :=
  let fmt := (outFormat.fetch arg used).1
  let val := arg (outFormat.fetch arg used).2
  if f = 's' then 0 ≤ fmt.precision
  else if f = 'd' ∨ f = 'i' ∨ f = 'o' then
    val ≠ BitVec.intMin 64 ∧ fmt.precision + signs (decide (val.toInt < 0)) fmt ≤ 127
  else if f = 'u' ∨ f = 'x' ∨ f = 'X' ∨ f = 'p' then fmt.precision + signs false fmt ≤ 127
  else True

/-- No `%C` in the format. -/
def NoColor (format : List Char) : Prop :=
  ∀ ps, pieces format = some ps → ∀ outFormat, Piece.directive outFormat 'C' ∉ ps

/-- The characters among the arguments are not NUL. -/
def CharsGiven (arg : Nat → BitVec 64) (format : List Char) : Prop :=
  ∀ ps, pieces format = some ps → Along arg (CharGiven arg) ps 0

/-- The last directive is complete, and every directive stays in its memory. -/
def Covered (arg : Nat → BitVec 64) (format : List Char) : Prop :=
  ∃ ps, pieces format = some ps ∧ Along arg (Sound arg) ps 0

/-- Both engines come to an end, the terminal shows what is written, and both have taken the same number of
    arguments. -/
def Agree (str : BitVec 64 → CString) (color : Nat) (format : List Char) (arg : Nat → BitVec 64) : Prop :=
  ∃ ops out used, kvprintf str color format arg = some (ops, used) ∧
    kfvprintf str format arg = some (out, used) ∧ ops.map TermOp.seen = out

/-! ## 10. Agreement -/

section Agreement

variable {str : BitVec 64 → CString} {arg : Nat → BitVec 64} {color used : Nat} {outFormat : Format} {f : Char}

/-- Both engines do the same with a directive. -/
def SameDirective (str : BitVec 64 → CString) (arg : Nat → BitVec 64) (color : Nat) (outFormat : Format)
    (f : Char) (used : Nat) : Prop :=
  ∃ ops, Kvprintf.directive str arg color outFormat f used =
      some (ops, (outFormat.fetch arg used).2 + conversionArgs f, color) ∧
    Kfvprintf.directive str arg () outFormat f used =
      some (ops.map TermOp.seen, (outFormat.fetch arg used).2 + conversionArgs f, ())

theorem same_int64 {digits : List Char} {base : Int} {fmt : Format} {w : BitVec 64}
    (ht : Table digits base) (hw : w ≠ BitVec.intMin 64)
    (hp : fmt.precision + signs (decide (w.toInt < 0)) fmt ≤ 127) (color : Nat) :
    ∃ ops, Kvprintf.printInt64Base w digits base fmt color = some ops ∧
      Kfvprintf.printInt64Base w digits base fmt = some (ops.map TermOp.seen) := by
  obtain ⟨text, he, hn⟩ := int64Text_some ht hw hp
  refine ⟨Kvprintf.printStringPadded text text.length fmt color, ?_, ?_⟩
  · rw [Kvprintf.printInt64Base, he, Option.map_some]
  · rw [Kfvprintf.printInt64Base, he, Option.bind_some]
    exact same_padded hn color

theorem same_uint64 {digits : List Char} {base : Int} {fmt : Format} {w : BitVec 64}
    (ht : Table digits base) (hp : fmt.precision + signs false fmt ≤ 127) (color : Nat) :
    ∃ ops, Kvprintf.printUInt64Base w digits base fmt color = some ops ∧
      Kfvprintf.printUInt64Base w digits base fmt = some (ops.map TermOp.seen) := by
  obtain ⟨text, he, hn⟩ := @uint64Text_some _ _ fmt w ht hp
  refine ⟨Kvprintf.printStringPadded text text.length fmt color, ?_, ?_⟩
  · rw [Kvprintf.printUInt64Base, he, Option.map_some]
  · rw [Kfvprintf.printUInt64Base, he, Option.bind_some]
    exact same_padded hn color

/-- The conversions. -/
def conversions : List Char := ['S', 'c', 's', 'd', 'i', 'o', 'u', 'x', 'X', 'p']

/-- A directive that stays in its memory is printed alike. -/
theorem same_directive (hf : f ≠ 'C') (hc : CharGiven arg outFormat f used)
    (h : Sound arg outFormat f used) : SameDirective str arg color outFormat f used := by
  have hnum : ∀ {out : Option (List TermOp)} {out' : Option (List Char)} {n : Nat},
      (∃ ops, out = some ops ∧ out' = some (ops.map TermOp.seen)) →
      ∃ ops, out.map (·, n, color) = some (ops, n, color) ∧
        out'.map (·, n, ()) = some (ops.map TermOp.seen, n, ()) := by
    intro out out' n hex
    obtain ⟨ops, h1, h2⟩ := hex
    exact ⟨ops, by rw [h1]; rfl, by rw [h2]; rfl⟩
  unfold CharGiven at hc
  simp only [Sound] at h
  simp only [SameDirective, Kvprintf.directive, Kfvprintf.directive]
  generalize (outFormat.fetch arg used).1 = fmt at *
  generalize (outFormat.fetch arg used).2 = n at *
  by_cases hm : f ∈ conversions
  · simp only [conversions, List.mem_cons, List.not_mem_nil, or_false] at hm
    rcases hm with rfl | rfl | rfl | rfl | rfl | rfl | rfl | rfl | rfl | rfl
    · exact ⟨_, rfl, congrArg (Option.map (·, n + 2, ())) (same_centered (str (arg n)) color _)⟩
    · exact ⟨_, rfl, congrArg (Option.map (·, n + 1, ())) (same_char (hc rfl) color)⟩
    · exact ⟨_, rfl, congrArg (Option.map (·, n + 1, ())) (same_precision (str (arg n)).noNul h color)⟩
    · have h' : arg n ≠ BitVec.intMin 64 ∧ _ := h
      exact hnum (same_int64 decimal_table h'.1 h'.2 color)
    · have h' : arg n ≠ BitVec.intMin 64 ∧ _ := h
      exact hnum (same_int64 decimal_table h'.1 h'.2 color)
    · have h' : arg n ≠ BitVec.intMin 64 ∧ _ := h
      exact hnum (same_int64 octal_table h'.1 h'.2 color)
    · exact hnum (same_uint64 decimal_table h color)
    · exact hnum (same_uint64 hexLower_table h color)
    · exact hnum (same_uint64 hexUpper_table h color)
    · exact hnum (same_uint64 hexUpper_table h color)
  · -- `%`, `n` and everything that is no conversion take no argument
    simp only [conversions, List.mem_cons, List.not_mem_nil, or_false, not_or] at hm
    obtain ⟨h1, h2, h3, h4, h5, h6, h7, h8, h9, h10⟩ := hm
    simp only [conversionArgs, h1, h2, h3, h4, h5, h6, h7, h8, h9, h10, hf, if_false, or_false]
    by_cases hp : f = '%'
    · subst hp
      exact ⟨_, rfl, rfl⟩
    · simp only [hp, if_false]
      exact ⟨_, rfl, rfl⟩

/-- Any other leads the second engine out of its memory. -/
theorem unsound_directive (h : ¬ Sound arg outFormat f used) :
    Kfvprintf.directive str arg () outFormat f used = none := by
  simp only [Sound] at h
  simp only [Kfvprintf.directive]
  generalize (outFormat.fetch arg used).1 = fmt at *
  generalize (outFormat.fetch arg used).2 = n at *
  by_cases hm : f ∈ conversions
  · simp only [conversions, List.mem_cons, List.not_mem_nil, or_false] at hm
    rcases hm with rfl | rfl | rfl | rfl | rfl | rfl | rfl | rfl | rfl | rfl
    · exact absurd trivial h
    · exact absurd trivial h
    · have h' : ¬ 0 ≤ fmt.precision := h
      have h'' := @precision_none (str (arg n)).chars fmt (by omega)
      exact congrArg (Option.map (·, n + 1, ())) h''
    · have h' := int64Text_none decimal_table h
      exact congrArg (fun o => Option.map (·, n + 1, ()) (Option.bind o _)) h'
    · have h' := int64Text_none decimal_table h
      exact congrArg (fun o => Option.map (·, n + 1, ()) (Option.bind o _)) h'
    · have h' := int64Text_none octal_table h
      exact congrArg (fun o => Option.map (·, n + 1, ()) (Option.bind o _)) h'
    · have h' := uint64Text_none (w := arg n) decimal_table h
      exact congrArg (fun o => Option.map (·, n + 1, ()) (Option.bind o _)) h'
    · have h' := uint64Text_none (w := arg n) hexLower_table h
      exact congrArg (fun o => Option.map (·, n + 1, ()) (Option.bind o _)) h'
    · have h' := uint64Text_none (w := arg n) hexUpper_table h
      exact congrArg (fun o => Option.map (·, n + 1, ()) (Option.bind o _)) h'
    · have h' := uint64Text_none (w := arg n) hexUpper_table h
      exact congrArg (fun o => Option.map (·, n + 1, ()) (Option.bind o _)) h'
  · simp only [conversions, List.mem_cons, List.not_mem_nil, or_false, not_or] at hm
    obtain ⟨h1, h2, h3, h4, h5, h6, h7, h8, h9, h10⟩ := hm
    simp only [h3, h4, h5, h6, h7, h8, h9, h10, if_false, or_false, not_true_eq_false] at h

/-- What the engines print along the pieces. -/
def kvRun (str : BitVec 64 → CString) (arg : Nat → BitVec 64) : List Piece → Nat → Nat →
    Option (List TermOp × Nat) :=
  run (fun color c => [Kvprintf.emit color c]) (Kvprintf.directive str arg)

def kfRun (str : BitVec 64 → CString) (arg : Nat → BitVec 64) : List Piece → Unit → Nat →
    Option (List Char × Nat) :=
  run (fun _ c => [c]) (Kfvprintf.directive str arg)

theorem agree_run {ps : List Piece} (hC : ∀ outFormat, Piece.directive outFormat 'C' ∉ ps)
    (hc : Along arg (CharGiven arg) ps used) (h : Along arg (Sound arg) ps used) :
    ∃ ops n, kvRun str arg ps color used = some (ops, n) ∧
      kfRun str arg ps () used = some (ops.map TermOp.seen, n) := by
  induction ps generalizing used with
  | nil => exact ⟨[], used, rfl, rfl⟩
  | cons p ps ih =>
      have hC' : ∀ outFormat, Piece.directive outFormat 'C' ∉ ps :=
        fun outFormat hm => hC outFormat (List.mem_cons_of_mem p hm)
      cases p with
      | char c =>
          obtain ⟨ops, n, h1, h2⟩ := ih hC' hc h
          refine ⟨Kvprintf.emit color c :: ops, n, ?_, ?_⟩
          · rw [kvRun, run]
            rw [kvRun] at h1
            rw [h1]
            rfl
          · rw [kfRun, run]
            rw [kfRun] at h2
            rw [h2, List.map_cons, emit_seen]
            rfl
      | directive outFormat f =>
          have hf : f ≠ 'C' := by
            rintro rfl
            exact hC outFormat List.mem_cons_self
          obtain ⟨ops, hv, hw⟩ := @same_directive str arg color _ _ _ hf hc.1 h.1
          obtain ⟨ops', n, h1, h2⟩ := ih hC' hc.2 h.2
          refine ⟨ops ++ ops', n, ?_, ?_⟩
          · rw [kvRun, run, hv, Option.bind_some]
            rw [kvRun] at h1
            rw [h1]
            rfl
          · rw [kfRun, run, hw, Option.bind_some]
            rw [kfRun] at h2
            rw [h2, List.map_append]
            rfl

/-- An engine that has come to an end has met sound directives only. -/
theorem sound_of_run {ps : List Piece} (hC : ∀ outFormat, Piece.directive outFormat 'C' ∉ ps)
    (hc : Along arg (CharGiven arg) ps used) {r : List Char × Nat}
    (h : kfRun str arg ps () used = some r) : Along arg (Sound arg) ps used := by
  induction ps generalizing used r with
  | nil => trivial
  | cons p ps ih =>
      have hC' : ∀ outFormat, Piece.directive outFormat 'C' ∉ ps :=
        fun outFormat hm => hC outFormat (List.mem_cons_of_mem p hm)
      cases p with
      | char c =>
          rw [kfRun, run] at h
          obtain ⟨r', h', -⟩ := Option.map_eq_some_iff.mp h
          exact ih hC' hc h'
      | directive outFormat f =>
          have hf : f ≠ 'C' := by
            rintro rfl
            exact hC outFormat List.mem_cons_self
          rw [kfRun, run] at h
          have hs : Sound arg outFormat f used := by
            by_contra hs
            rw [unsound_directive hs] at h
            cases h
          obtain ⟨ops, -, hw⟩ := @same_directive str arg 0 _ _ _ hf hc.1 hs
          rw [hw, Option.bind_some] at h
          obtain ⟨r', h', -⟩ := Option.map_eq_some_iff.mp h
          exact ⟨hs, ih hC' hc.2 h'⟩

end Agreement

/-- **The engines agree exactly on covered formats**: for every memory, every list of arguments and every
    format without `%C`. -/
theorem engines_agree (str : BitVec 64 → CString) (arg : Nat → BitVec 64) (color : Nat)
    (format : List Char) (hC : NoColor format) (hc : CharsGiven arg format) :
    Agree str color format arg ↔ Covered arg format := by
  constructor
  · intro hx
    obtain ⟨ops, out, n, -, h, -⟩ := hx
    cases hp : pieces format with
    | none =>
        rw [kfvprintf, vprintf_cut hp] at h
        cases h
    | some ps =>
        rw [kfvprintf, vprintf_pieces hp] at h
        exact ⟨ps, hp, sound_of_run (hC ps hp) (hc ps hp) h⟩
  · intro hx
    obtain ⟨ps, hp, hs⟩ := hx
    obtain ⟨ops, n, h1, h2⟩ := @agree_run str arg color _ _ (hC ps hp) (hc ps hp) hs
    refine ⟨ops, ops.map TermOp.seen, n, ?_, ?_, rfl⟩
    · rw [kvprintf, vprintf_pieces hp]
      exact h1
    · rw [kfvprintf, vprintf_pieces hp]
      exact h2

/-- A string of three characters. -/
def abc : CString := ⟨['a', 'b', 'c'], by decide, by decide⟩

/-- A format whose only directive is at its beginning, and its only piece. -/
theorem pieces_single {format : List Char} {outFormat : Format} {f : Char}
    (h : parseDirective format = some (outFormat, f, [])) :
    pieces ('%' :: format) = some [.directive outFormat f] := by
  rw [pieces, if_pos rfl]
  split
  · rename_i h'
    rw [h] at h'
    cases h'
  · rename_i h'
    rw [h] at h'
    cases h'
    rw [pieces]
    rfl

/-- `"%5i"`. -/
theorem pieces_width : pieces ['%', '5', 'i'] = some [.directive { Format.zero with minWidth := 5 } 'i'] :=
  pieces_single rfl

/-- `"%.*s"`. -/
theorem pieces_precision :
    pieces ['%', '.', '*', 's'] = some [.directive { Format.zero with argPrecision := true } 's'] :=
  pieces_single rfl

theorem engines_agree_number : Agree (fun _ => abc) 0 ['%', '5', 'i'] (fun _ => 42) := by
  refine (engines_agree (fun _ => abc) (fun _ => 42) 0 ['%', '5', 'i'] ?_ ?_).mpr ?_
  · intro ps hp outFormat hm
    rw [pieces_width] at hp
    cases hp
    simp at hm
  · intro ps hp
    rw [pieces_width] at hp
    cases hp
    exact ⟨(fun h => by cases h), trivial⟩
  · exact ⟨_, pieces_width, ⟨by decide, by decide⟩, trivial⟩

/-- `"%.*s"` with a precision of -1 prints nothing on the terminal; the second engine hands `VFS::Write` a
    length of `2 ^ 64 - 1`. -/
theorem negative_precision : ¬ ∀ (str : BitVec 64 → CString) (arg : Nat → BitVec 64) (color : Nat)
    (format : List Char), NoColor format → CharsGiven arg format → Agree str color format arg := by
  intro hall
  obtain ⟨ops, out, n, -, h, -⟩ := hall (fun _ => abc) (fun _ => 0xFFFFFFFFFFFFFFFF) 0 ['%', '.', '*', 's']
    (by
      intro ps hp outFormat hm
      rw [pieces_precision] at hp
      cases hp
      simp at hm)
    (by
      intro ps hp
      rw [pieces_precision] at hp
      cases hp
      exact ⟨(fun h => by cases h), trivial⟩)
  rw [kfvprintf, vprintf_pieces pieces_precision] at h
  have hn : kfRun (fun _ => abc) (fun _ => 0xFFFFFFFFFFFFFFFF)
      [.directive { Format.zero with argPrecision := true } 's'] () 0 = none := by decide
  rw [kfRun] at hn
  rw [hn] at h
  cases h

end Printf

end SimpleOS2
