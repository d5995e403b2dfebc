/-
  File:      SimpleOS2/Klib/FormatScan.lean
  Subject:   WHAT THE PRINTF LOOPS READ OF THEIR FORMAT AND WRITE INTO THEIR NUMBER BUFFER
             (klib/stdio.cpp, klib/kfprintf.cpp).

  Here the format stands in memory: a character at every address that can be read. The index of the loops
  is a `uint32`, the parsers count in an `int`.

  * `parseFlagsAt`, `parseWidthAt`, `parsePrecisionAt`, `directiveAt`, `turn`, `scan` -- the loops, as far as
    they read the format; `Stands` carries them over to the parsers on lists;
  * `Complete` -- every directive ends inside of the string; `scan_stops` -- exactly then the loop ends at
    the NUL and reads nothing behind it;
  * `NumberCall`, `writes` -- the calls of `PrintInt64Base` and `PrintUInt64Base` and the places in their
    buffer that they write; `number_buffer` -- all inside exactly if every precision leaves room.
-/
import SimpleOS2.Klib.NumberFormat
import SimpleOS2.Lib.Run

namespace SimpleOS2

open Lib

namespace Printf

/-! ## 1. The loops over a format in memory -/

/-- The characters from the address of the format on; `none` where nothing may be read. -/
abbrev Text := Nat → Option Char

/-- A string with its NUL, and nothing behind it. -/
def textOf (s : List Char) : Text := fun i => (s ++ ['\x00'])[i]?

/-- `stoui`: the number and the index behind it. `left` is how far its `int i` can still count. -/
def stouiAt (m : Text) : (left : Nat) → (i : Nat) → (res : Int) → Option (Int × Nat)
  | 0, _, _ => none
  | left + 1, i, res =>
      (m i).bind fun c =>
        if isDigit c then stouiAt m left (i + 1) (toInt (res * 10 + ((c.toNat : Int) - 48)))
        else some (res, i)

/-- What a flag sets. -/
def setFlag (c : Char) (flags : Format) : Option Format :=
  if c = '-' then some { flags with leftJustify := true }
  else if c = '+' then some { flags with forceSign := true }
  else if c = ' ' then some { flags with spaceIfNoSign := true }
  else if c = '0' then some { flags with leftPadWithZeroes := true }
  else none

/-- `ParseFlags`. -/
def parseFlagsAt (m : Text) : (left : Nat) → (i : Nat) → (flags : Format) → Option (Nat × Format)
  | 0, _, _ => none
  | left + 1, i, flags =>
      (m i).bind fun c =>
        match setFlag c flags with
        | some flags => parseFlagsAt m left (i + 1) flags
        | none => some (i, flags)

/-- `ParseWidth`. -/
def parseWidthAt (m : Text) (i : Nat) (flags : Format) : Option (Nat × Format) :=
  (m i).bind fun c =>
    if c = '*' then some (i + 1, { flags with argWidth := true })
    else if isDigit c then (stouiAt m (2 ^ 31) i 0).map fun r => (r.2, { flags with minWidth := r.1 })
    else some (i, flags)

/-- `ParsePrecision`. -/
def parsePrecisionAt (m : Text) (i : Nat) (flags : Format) : Option (Nat × Format) :=
  (m i).bind fun c =>
    if c = '.' then
      (m (i + 1)).bind fun c =>
        if isDigit c then
          (stouiAt m (2 ^ 31) (i + 1) 0).map fun r => (r.2, { flags with precision := r.1 })
        else if c = '*' then some (i + 2, { flags with argPrecision := true })
        else some (i + 2, flags)
    else some (i, flags)

/-- A directive: its format, its conversion and the index behind it. -/
def directiveAt (m : Text) (i : Nat) : Option (Format × Char × Nat) :=
  (parseFlagsAt m (2 ^ 31) i Format.zero).bind fun flags =>
    (parseWidthAt m flags.1 flags.2).bind fun width =>
      (parsePrecisionAt m width.1 width.2).bind fun precision =>
        (m precision.1).map fun f => (precision.2, f, precision.1 + 1)

/-- One turn of the loop: the end, a character, or a directive, with the next index. -/
inductive Turn where
  | stop
  | char (c : Char) (next : Nat)
  | directive (outFormat : Format) (f : Char) (next : Nat)

/-- The loop at the index `i`, a `uint32`. -/
def turn (m : Text) (i : Nat) : Option Turn :=
  (m i).bind fun c =>
    if c = '\x00' then some .stop
    else if c = '%' then
      (directiveAt m ((i + 1) % 2 ^ 32)).map fun r => .directive r.1 r.2.1 (r.2.2 % 2 ^ 32)
    else some (.char c ((i + 1) % 2 ^ 32))

/-- The whole loop: the index at which it stops. -/
def scan (m : Text) : (fuel : Nat) → (i : Nat) → Option Nat
  | 0, _ => none
  | fuel + 1, i =>
      match turn m i with
      | none => none
      | some .stop => some i
      | some (.char _ next) => scan m fuel next
      | some (.directive _ _ next) => scan m fuel next

/-! ## 2. The parsers on lists -/

/-- At the index `i` of the string stands `rest`. -/
def Stands (s rest : List Char) (i : Nat) : Prop := ∃ pre, s = pre ++ rest ∧ i = pre.length

section Parsers

variable {s rest : List Char} {i : Nat} {flags : Format}

theorem Stands.start (s : List Char) : Stands s s 0 := ⟨[], rfl, rfl⟩

theorem Stands.next {c : Char} (h : Stands s (c :: rest) i) : Stands s rest (i + 1) := by
  obtain ⟨pre, rfl, rfl⟩ := h
  exact ⟨pre ++ [c], by simp, by simp⟩

theorem Stands.length (h : Stands s rest i) : i + rest.length = s.length := by
  obtain ⟨pre, rfl, rfl⟩ := h
  rw [List.length_append]

/-- What is read there. -/
theorem Stands.read (h : Stands s rest i) : textOf s i = some (rest.headD '\x00') := by
  obtain ⟨pre, rfl, rfl⟩ := h
  rw [textOf, List.append_assoc, List.getElem?_append_right (Nat.le_refl _), Nat.sub_self]
  cases rest <;> rfl

/-- Nothing is read behind the NUL. -/
theorem textOf_none (h : s.length < i) : textOf s i = none := by
  rw [textOf, List.getElem?_eq_none]
  rw [List.length_append, List.length_singleton]
  omega

theorem stouiAt_eq (h : Stands s rest i) {left : Nat} (hl : (rest.takeWhile isDigit).length < left) (res : Int) :
    ∃ j, stouiAt (textOf s) left i res = some ((stoui rest res).1, j) ∧ Stands s (stoui rest res).2 j := by
  induction rest generalizing i left res with
  | nil =>
      obtain ⟨left, rfl⟩ : ∃ n, left = n + 1 := ⟨left - 1, by simp at hl; omega⟩
      refine ⟨i, ?_, h⟩
      rw [stouiAt, h.read]
      rfl
  | cons c rest ih =>
      obtain ⟨left, rfl⟩ : ∃ n, left = n + 1 := ⟨left - 1, by omega⟩
      rw [stouiAt, h.read, stoui, List.headD_cons, Option.bind_some]
      by_cases hc : isDigit c = true
      · rw [List.takeWhile_cons_of_pos hc, List.length_cons] at hl
        rw [if_pos hc, if_pos hc]
        exact ih h.next (by omega) _
      · rw [if_neg hc, if_neg hc]
        exact ⟨i, rfl, h⟩

/-- An `int` does not count a longer run of digits. -/
theorem stouiAt_none (h : Stands s rest i) {left : Nat} (hl : left ≤ (rest.takeWhile isDigit).length) (res : Int) :
    stouiAt (textOf s) left i res = none := by
  induction left generalizing i rest res with
  | zero => rfl
  | succ left ih =>
      cases rest with
      | nil => simp at hl
      | cons c rest =>
          have hc : isDigit c = true := by
            by_contra hc
            rw [List.takeWhile_cons_of_neg hc] at hl
            simp at hl
          rw [List.takeWhile_cons_of_pos hc, List.length_cons] at hl
          rw [stouiAt, h.read, List.headD_cons, Option.bind_some, if_pos hc]
          exact ih h.next (by omega) _

/-- `-`, `+`, a space and `0`. -/
def isFlag (c : Char) : Bool := c = '-' ∨ c = '+' ∨ c = ' ' ∨ c = '0'

theorem parseFlags_cons (c : Char) (fmt : List Char) (flags : Format) :
    parseFlags (c :: fmt) flags = match setFlag c flags with
      | some flags => parseFlags fmt flags
      | none => (c :: fmt, flags) := by
  unfold setFlag
  split_ifs with h1 h2 h3 h4
  · rw [h1, parseFlags]
  · rw [h2, parseFlags]
  · rw [h3, parseFlags]
  · rw [h4, parseFlags]
  · rw [parseFlags]
    · exact fun _ hx => h1 (List.cons.inj hx).1
    · exact fun _ hx => h2 (List.cons.inj hx).1
    · exact fun _ hx => h3 (List.cons.inj hx).1
    · exact fun _ hx => h4 (List.cons.inj hx).1

theorem setFlag_some (c : Char) (flags : Format) : (setFlag c flags).isSome = isFlag c := by
  unfold setFlag isFlag
  split_ifs with h1 h2 h3 h4 <;> simp [*]

theorem parseFlagsAt_eq (flags : Format) (h : Stands s rest i) {left : Nat}
    (hl : (rest.takeWhile isFlag).length < left) :
    ∃ j, parseFlagsAt (textOf s) left i flags = some (j, (parseFlags rest flags).2) ∧
      Stands s (parseFlags rest flags).1 j := by
  induction rest generalizing i left flags with
  | nil =>
      obtain ⟨left, rfl⟩ : ∃ n, left = n + 1 := ⟨left - 1, by simp at hl; omega⟩
      refine ⟨i, ?_, h⟩
      rw [parseFlagsAt, h.read]
      rfl
  | cons c rest ih =>
      obtain ⟨left, rfl⟩ : ∃ n, left = n + 1 := ⟨left - 1, by omega⟩
      have hc := setFlag_some c flags
      rw [parseFlagsAt, h.read, parseFlags_cons, List.headD_cons, Option.bind_some]
      cases hf : setFlag c flags with
      | none => exact ⟨i, rfl, h⟩
      | some flags' =>
          rw [hf] at hc
          rw [List.takeWhile_cons_of_pos hc.symm, List.length_cons] at hl
          exact ih _ h.next (by omega)

theorem parseFlagsAt_none (h : Stands s rest i) {left : Nat} (hl : left ≤ (rest.takeWhile isFlag).length) :
    parseFlagsAt (textOf s) left i flags = none := by
  induction left generalizing i rest flags with
  | zero => rfl
  | succ left ih =>
      cases rest with
      | nil => simp at hl
      | cons c rest =>
          have hc : isFlag c = true := by
            by_contra hc
            rw [List.takeWhile_cons_of_neg hc] at hl
            simp at hl
          rw [List.takeWhile_cons_of_pos hc, List.length_cons] at hl
          obtain ⟨flags', hf⟩ := Option.isSome_iff_exists.mp ((setFlag_some c flags).trans hc)
          rw [parseFlagsAt, h.read, List.headD_cons, Option.bind_some, hf]
          exact ih h.next (by omega)

/-- A run of digits that an `int` can count. -/
def ShortRun (str : List Char) : Prop := (str.takeWhile isDigit).length < 2 ^ 31

theorem parseWidthAt_eq (flags : Format) (h : Stands s rest i) (hr : ShortRun rest) :
    ∃ j, parseWidthAt (textOf s) i flags = some (j, (parseWidth rest flags).2) ∧
      Stands s (parseWidth rest flags).1 j := by
  unfold parseWidthAt
  rw [h.read, Option.bind_some]
  cases rest with
  | nil => exact ⟨i, rfl, h⟩
  | cons c rest =>
      rw [List.headD_cons, parseWidth]
      split_ifs with h1 h2
      · exact ⟨i + 1, rfl, h.next⟩
      · obtain ⟨j, hj, hs⟩ := stouiAt_eq h hr 0
        exact ⟨j, by rw [hj]; rfl, hs⟩
      · exact ⟨i, rfl, h⟩

theorem parseWidthAt_none (h : Stands s rest i) (hr : ¬ ShortRun rest) :
    parseWidthAt (textOf s) i flags = none := by
  have hle : 2 ^ 31 ≤ (rest.takeWhile isDigit).length := Nat.le_of_not_lt hr
  unfold parseWidthAt
  rw [h.read, Option.bind_some]
  cases rest with
  | nil => exact absurd hle (by decide)
  | cons c rest =>
      have hc : isDigit c = true := by
        by_contra hc
        rw [List.takeWhile_cons_of_neg hc] at hle
        exact absurd hle (by decide)
      have hs : c ≠ '*' := by
        rintro rfl
        exact absurd hc (by decide)
      rw [List.headD_cons, if_neg hs, if_pos hc, stouiAt_none h hle]
      rfl

/-- The precision, if there is one, is a run that an `int` can count. -/
def ShortPrecision (fmt : List Char) : Prop := ∀ rest, fmt = '.' :: rest → ShortRun rest

theorem parsePrecision_other {c : Char} (hc : c ≠ '.') (fmt : List Char) :
    parsePrecision (c :: fmt) flags = some (c :: fmt, flags) := by
  unfold parsePrecision
  split
  · next h => exact absurd (List.cons.inj h).1 hc
  · next h => exact absurd (List.cons.inj h).1 hc
  · rfl

theorem parsePrecisionAt_eq (h : Stands s rest i) (hr : ShortPrecision rest) {rest' : List Char} {flags' : Format}
    (hp : parsePrecision rest flags = some (rest', flags')) :
    ∃ j, parsePrecisionAt (textOf s) i flags = some (j, flags') ∧ Stands s rest' j := by
  unfold parsePrecisionAt
  rw [h.read, Option.bind_some]
  cases rest with
  | nil =>
      cases hp
      exact ⟨i, rfl, h⟩
  | cons c rest =>
      rw [List.headD_cons]
      by_cases hc : c = '.'
      · subst hc
        rw [if_pos rfl, h.next.read, Option.bind_some]
        cases rest with
        | nil => cases hp
        | cons d rest =>
            rw [List.headD_cons]
            rw [parsePrecision] at hp
            split_ifs at hp ⊢ with h1 h2
            · cases hp
              obtain ⟨j, hj, hs⟩ := stouiAt_eq h.next (hr _ rfl) 0
              exact ⟨j, by rw [hj]; rfl, hs⟩
            · cases hp
              exact ⟨i + 2, rfl, h.next.next⟩
            · cases hp
              exact ⟨i + 2, rfl, h.next.next⟩
      · rw [parsePrecision_other hc] at hp
        cases hp
        rw [if_neg hc]
        exact ⟨i, rfl, h⟩

/-- Behind a precision that is cut off nothing can be read. -/
theorem parsePrecisionAt_cut (h : Stands s rest i) (hp : parsePrecision rest flags = none) :
    parsePrecisionAt (textOf s) i flags = some (s.length + 1, flags) := by
  cases rest with
  | nil => cases hp
  | cons c rest =>
      by_cases hc : c = '.'
      · subst hc
        cases rest with
        | nil =>
            have hl := h.length
            rw [List.length_singleton] at hl
            rw [parsePrecisionAt, h.read, Option.bind_some, List.headD_cons, if_pos rfl, h.next.read, ← hl]
            rfl
        | cons d rest =>
            rw [parsePrecision] at hp
            split_ifs at hp
      · rw [parsePrecision_other hc] at hp
        cases hp

theorem parsePrecisionAt_none (h : Stands s rest i) (hr : ¬ ShortPrecision rest) :
    parsePrecisionAt (textOf s) i flags = none := by
  obtain ⟨rest, rfl, hlong⟩ : ∃ r, rest = '.' :: r ∧ ¬ ShortRun r := by
    by_contra hno
    exact hr fun r hr' => by_contra fun hs => hno ⟨r, hr', hs⟩
  have hle : 2 ^ 31 ≤ (rest.takeWhile isDigit).length := Nat.le_of_not_lt hlong
  cases rest with
  | nil => exact absurd hle (by decide)
  | cons c rest =>
      have hc : isDigit c = true := by
        by_contra hc
        rw [List.takeWhile_cons_of_neg hc] at hle
        exact absurd hle (by decide)
      rw [parsePrecisionAt, h.read, Option.bind_some, List.headD_cons, if_pos rfl, h.next.read, Option.bind_some,
        List.headD_cons, if_pos hc, stouiAt_none h.next hle]
      rfl

/-- No run of flags or digits in front of the conversion is too long for an `int`. -/
def RunsFit (format : List Char) : Prop :=
  let flags := parseFlags format Format.zero
  (format.takeWhile isFlag).length < 2 ^ 31 ∧ ShortRun flags.1 ∧ ShortPrecision (parseWidth flags.1 flags.2).1

/-- **A complete directive is read as on a list.** -/
theorem directiveAt_eq (h : Stands s rest i) (hr : RunsFit rest) {outFormat : Format} {f : Char} {tmp : List Char}
    (hd : parseDirective rest = some (outFormat, f, tmp)) :
    ∃ j, directiveAt (textOf s) i = some (outFormat, f, j) ∧ Stands s tmp j := by
  obtain ⟨hr1, hr2, hr3⟩ := hr
  obtain ⟨j1, e1, s1⟩ := parseFlagsAt_eq Format.zero h hr1
  obtain ⟨j2, e2, s2⟩ := parseWidthAt_eq (parseFlags rest Format.zero).2 s1 hr2
  simp only [parseDirective] at hd
  split at hd
  · next f' tmp' fmt' hp =>
      cases hd
      obtain ⟨j3, e3, s3⟩ := parsePrecisionAt_eq s2 hr3 hp
      refine ⟨j3 + 1, ?_, s3.next⟩
      rw [directiveAt, e1, Option.bind_some, e2, Option.bind_some, e3, Option.bind_some, s3.read]
      rfl
  · cases hd

/-- Too long a run is not counted to its end. -/
theorem directiveAt_none (h : Stands s rest i) (hr : ¬ RunsFit rest) : directiveAt (textOf s) i = none := by
  unfold directiveAt
  by_cases hr1 : (rest.takeWhile isFlag).length < 2 ^ 31
  · obtain ⟨j1, e1, s1⟩ := parseFlagsAt_eq Format.zero h hr1
    rw [e1, Option.bind_some]
    by_cases hr2 : ShortRun (parseFlags rest Format.zero).1
    · obtain ⟨j2, e2, s2⟩ := parseWidthAt_eq (parseFlags rest Format.zero).2 s1 hr2
      rw [e2, Option.bind_some, parsePrecisionAt_none s2 fun hr3 => hr ⟨hr1, hr2, hr3⟩]
      rfl
    · rw [parseWidthAt_none s1 hr2]
      rfl
  · rw [parseFlagsAt_none h (Nat.le_of_not_lt hr1)]
    rfl

/-- One that is cut off leads behind the NUL. -/
theorem directiveAt_cut (h : Stands s rest i) (hd : parseDirective rest = none) :
    directiveAt (textOf s) i = none ∨ ∃ outFormat f, directiveAt (textOf s) i = some (outFormat, f, s.length + 1) := by
  by_cases hr : RunsFit rest
  · obtain ⟨hr1, hr2, hr3⟩ := hr
    obtain ⟨j1, e1, s1⟩ := parseFlagsAt_eq Format.zero h hr1
    obtain ⟨j2, e2, s2⟩ := parseWidthAt_eq (parseFlags rest Format.zero).2 s1 hr2
    simp only [parseDirective] at hd
    cases hp : parsePrecision (parseWidth (parseFlags rest Format.zero).1 (parseFlags rest Format.zero).2).1
        (parseWidth (parseFlags rest Format.zero).1 (parseFlags rest Format.zero).2).2 with
    | none =>
        refine Or.inl ?_
        rw [directiveAt, e1, Option.bind_some, e2, Option.bind_some, parsePrecisionAt_cut s2 hp, Option.bind_some,
          textOf_none (Nat.lt_succ_self _)]
        rfl
    | some r =>
        obtain ⟨rest', flags'⟩ := r
        rw [hp] at hd
        cases rest' with
        | cons c rest' => cases hd
        | nil =>
            obtain ⟨j3, e3, s3⟩ := parsePrecisionAt_eq s2 hr3 hp
            have hl : j3 = s.length := s3.length
            refine Or.inr ⟨flags', '\x00', ?_⟩
            rw [directiveAt, e1, Option.bind_some, e2, Option.bind_some, e3, Option.bind_some, s3.read, hl]
            rfl
  · exact Or.inl (directiveAt_none h hr)

end Parsers

/-! ## 3. Where the loop stops -/

/-- Every directive of the string ends inside of it. -/
inductive Complete : List Char → Prop where
  | nil : Complete []
  | char (c : Char) (format : List Char) (hc : c ≠ '%') (h : Complete format) : Complete (c :: format)
  | directive (format : List Char) (outFormat : Format) (f : Char) (tmp : List Char)
      (hd : parseDirective format = some (outFormat, f, tmp)) (hr : RunsFit format) (h : Complete tmp) :
      Complete ('%' :: format)

/-- The loop ends at the NUL of the format, and all it reads is the string and its NUL. -/
def StopsAtEnd (s : List Char) : Prop := Halts (fun fuel => scan (textOf s) fuel 0) s.length

section Scan

variable {s rest : List Char} {i r fuel : Nat}

theorem scan_steady (m : Text) (i : Nat) : Steady fun fuel => scan m fuel i := by
  intro fuel
  show ∀ r, scan m fuel i = some r → scan m (fuel + 1) i = some r
  induction fuel generalizing i with
  | zero =>
      intro r h
      cases h
  | succ fuel ih =>
      intro r h
      rw [scan] at h ⊢
      split at h
      · cases h
      · exact h
      · exact ih _ r h
      · exact ih _ r h

/-- What a turn leads to. -/
theorem turn_cases {m : Text} {t : Turn} (h : turn m i = some t) :
    (m i = some '\x00' ∧ t = .stop) ∨
    (∃ c, m i = some c ∧ c ≠ '\x00' ∧ c ≠ '%' ∧ t = .char c ((i + 1) % 2 ^ 32)) ∨
    (∃ outFormat f j, m i = some '%' ∧ directiveAt m ((i + 1) % 2 ^ 32) = some (outFormat, f, j) ∧
      t = .directive outFormat f (j % 2 ^ 32)) := by
  obtain ⟨c, hc, h⟩ := Option.bind_eq_some_iff.mp h
  split_ifs at h with h1 h2
  · exact Or.inl ⟨h1 ▸ hc, (Option.some.inj h).symm⟩
  · obtain ⟨⟨outFormat, f, j⟩, hd, rfl⟩ := Option.map_eq_some_iff.mp h
    exact Or.inr (Or.inr ⟨outFormat, f, j, h2 ▸ hc, hd, rfl⟩)
  · exact Or.inr (Or.inl ⟨c, hc, h1, h2, (Option.some.inj h).symm⟩)

/-- **The loop stops at a NUL**, and its index does not leave its type. -/
theorem scan_stop {m : Text} (hi : i < 2 ^ 32) (h : scan m fuel i = some r) : m r = some '\x00' ∧ r < 2 ^ 32 := by
  induction fuel generalizing i with
  | zero => cases h
  | succ fuel ih =>
      rw [scan] at h
      split at h
      · cases h
      · next ht =>
          cases h
          rcases turn_cases ht with ⟨h0, -⟩ | ⟨_, -, -, -, he⟩ | ⟨_, _, _, -, -, he⟩
          · exact ⟨h0, hi⟩
          · cases he
          · cases he
      · next c next ht =>
          rcases turn_cases ht with ⟨-, he⟩ | ⟨_, -, -, -, he⟩ | ⟨_, _, _, -, -, he⟩
          · cases he
          · cases he
            exact ih (Nat.mod_lt _ (by decide)) h
          · cases he
      · next ht =>
          rcases turn_cases ht with ⟨-, he⟩ | ⟨_, -, -, -, he⟩ | ⟨_, _, _, -, -, he⟩
          · cases he
          · cases he
          · cases he
            exact ih (Nat.mod_lt _ (by decide)) h

/-- A complete rest is scanned to the end. -/
theorem scan_of_complete (hs : '\x00' ∉ s) (hl : s.length < 2 ^ 32) (hc : Complete rest) (h : Stands s rest i) :
    ∃ fuel, scan (textOf s) fuel i = some s.length := by
  induction hc generalizing i with
  | nil =>
      have hi : i = s.length := h.length
      refine ⟨1, ?_⟩
      rw [scan, turn, h.read, hi]
      rfl
  | char c format hc _ ih =>
      have h0 : c ≠ '\x00' := by
        rintro rfl
        obtain ⟨pre, rfl, -⟩ := h
        exact hs (by simp)
      have hi := h.length
      rw [List.length_cons] at hi
      obtain ⟨fuel, hf⟩ := ih h.next
      refine ⟨fuel + 1, ?_⟩
      rw [scan, turn, h.read, Option.bind_some, List.headD_cons, if_neg h0, if_neg hc,
        Nat.mod_eq_of_lt (by omega)]
      exact hf
  | directive format outFormat f tmp hd hr _ ih =>
      have hi := h.length
      rw [List.length_cons] at hi
      obtain ⟨j, hj, hst⟩ := directiveAt_eq h.next hr hd
      have hjl := hst.length
      obtain ⟨fuel, hf⟩ := ih hst
      refine ⟨fuel + 1, ?_⟩
      rw [scan, turn, h.read, Option.bind_some, List.headD_cons, if_neg (by decide), if_pos rfl,
        Nat.mod_eq_of_lt (show i + 1 < 2 ^ 32 by omega), hj, Option.map_some,
        Nat.mod_eq_of_lt (show j < 2 ^ 32 by omega)]
      exact hf

/-- **A scan that stops has met complete directives only**, or its index has come round to 0 again. -/
theorem complete_of_scan (hs : '\x00' ∉ s) (hl : s.length < 2 ^ 32) (h : Stands s rest i)
    (hf : scan (textOf s) fuel i = some r) : Complete rest ∨ ∃ n < fuel, scan (textOf s) n 0 = some r := by
  induction fuel generalizing i rest with
  | zero => cases hf
  | succ fuel ih =>
      cases rest with
      | nil => exact Or.inl .nil
      | cons c rest =>
          have h0 : c ≠ '\x00' := by
            rintro rfl
            obtain ⟨pre, rfl, -⟩ := h
            exact hs (by simp)
          have hi := h.length
          rw [List.length_cons] at hi
          have hmod : (i + 1) % 2 ^ 32 = i + 1 := Nat.mod_eq_of_lt (by omega)
          have hlater : ∀ {P : Prop}, (P ∨ ∃ n < fuel, scan (textOf s) n 0 = some r) → ∀ {Q : Prop}, (P → Q) →
              Q ∨ ∃ n < fuel + 1, scan (textOf s) n 0 = some r := by
            intro P hp Q hq
            rcases hp with hp | ⟨n, hn, he⟩
            · exact Or.inl (hq hp)
            · exact Or.inr ⟨n, Nat.lt_succ_of_lt hn, he⟩
          rw [scan, turn, h.read, Option.bind_some, List.headD_cons, if_neg h0, hmod] at hf
          by_cases hc : c = '%'
          · subst hc
            rw [if_pos rfl] at hf
            cases hd : parseDirective rest with
            | none =>
                rcases directiveAt_cut h.next hd with he | ⟨outFormat, f, he⟩
                · rw [he] at hf
                  cases hf
                · -- the index stands behind the NUL, or at 0 if that is the end of its type
                  rw [he] at hf
                  have hf : scan (textOf s) fuel ((s.length + 1) % 2 ^ 32) = some r := hf
                  by_cases hw : s.length + 1 < 2 ^ 32
                  · rw [Nat.mod_eq_of_lt hw] at hf
                    cases fuel with
                    | zero => cases hf
                    | succ fuel =>
                        rw [scan, turn, textOf_none (Nat.lt_succ_self _)] at hf
                        cases hf
                  · rw [show s.length + 1 = 2 ^ 32 by omega] at hf
                    exact Or.inr ⟨fuel, Nat.lt_succ_self _, hf⟩
            | some d =>
                obtain ⟨outFormat, f, tmp⟩ := d
                by_cases hr : RunsFit rest
                · obtain ⟨j, hj, hst⟩ := directiveAt_eq h.next hr hd
                  have hjl := hst.length
                  rw [hj] at hf
                  have hf : scan (textOf s) fuel (j % 2 ^ 32) = some r := hf
                  rw [Nat.mod_eq_of_lt (by omega)] at hf
                  exact hlater (ih hst hf) fun hcomp => .directive rest outFormat f tmp hd hr hcomp
                · rw [directiveAt_none h.next hr] at hf
                  cases hf
          · rw [if_neg hc] at hf
            exact hlater (ih h.next hf) fun hcomp => .char c rest hc hcomp

end Scan

theorem shortRun_of_length {str : List Char} (h : str.length < 2 ^ 31) : ShortRun str :=
  lt_of_le_of_lt (List.takeWhile_prefix _).length_le h

/-- A short string has no run that is too long. -/
theorem runsFit_of_length {format : List Char} (h : format.length < 2 ^ 31) : RunsFit format := by
  have h1 := parseFlags_length format Format.zero
  have h2 := parseWidth_length (parseFlags format Format.zero).1 (parseFlags format Format.zero).2
  refine ⟨lt_of_le_of_lt (List.takeWhile_prefix _).length_le h, shortRun_of_length (by omega), fun rest hr => ?_⟩
  rw [hr, List.length_cons] at h2
  exact shortRun_of_length (by omega)

/-- **For the engines on lists**: a string is complete exactly if it falls into pieces. -/
theorem complete_iff_pieces {s : List Char} (h : s.length < 2 ^ 31) : Complete s ↔ ∃ ps, pieces s = some ps := by
  constructor
  · intro hc
    clear h
    induction hc with
    | nil => exact ⟨[], by rw [pieces]⟩
    | char c format hc _ ih =>
        obtain ⟨ps, hp⟩ := ih
        exact ⟨.char c :: ps, by rw [pieces, if_neg hc, hp]; rfl⟩
    | directive format outFormat f tmp hd _ _ ih =>
        obtain ⟨ps, hp⟩ := ih
        refine ⟨.directive outFormat f :: ps, ?_⟩
        rw [pieces, if_pos rfl]
        split
        · next h' =>
            rw [hd] at h'
            cases h'
        · next h' =>
            rw [hd] at h'
            cases h'
            rw [hp]
            rfl
  · intro hp
    obtain ⟨ps, hp⟩ := hp
    fun_induction pieces s generalizing ps with
    | case1 => exact .nil
    | case2 format hd => cases hp
    | case3 format outFormat f tmp hd ih =>
        obtain ⟨ps', hp', -⟩ := Option.map_eq_some_iff.mp hp
        have hlt := parseDirective_length hd
        rw [List.length_cons] at h
        exact .directive format outFormat f tmp hd (runsFit_of_length (by omega)) (ih (by omega) ps' hp')
    | case4 c format hc ih =>
        obtain ⟨ps', hp', -⟩ := Option.map_eq_some_iff.mp hp
        rw [List.length_cons] at h
        exact .char c format hc (ih (by omega) ps' hp')

/-- **The loop stops at the NUL exactly if every directive is complete** (and the index of the NUL is a
    `uint32`). -/
theorem scan_stops (s : List Char) (hs : '\x00' ∉ s) : StopsAtEnd s ↔ Complete s ∧ s.length < 2 ^ 32 := by
  constructor
  · intro h
    obtain ⟨N, hN⟩ := h
    have hf : scan (textOf s) N 0 = some s.length := hN N (Nat.le_refl N)
    have hl := (scan_stop (by decide) hf).2
    refine ⟨?_, hl⟩
    induction N using Nat.strong_induction_on with
    | h N ih =>
        rcases complete_of_scan hs hl (Stands.start s) hf with hc | ⟨n, hn, he⟩
        · exact hc
        · exact ih n hn (fun k hk => (scan_steady (textOf s) 0).after he hk) he
  · intro h
    obtain ⟨fuel, hf⟩ := scan_of_complete hs h.2 h.1 (Stands.start s)
    exact (scan_steady (textOf s) 0).halts hf

/-- `"%-5d%%"`. -/
theorem scan_stops_width : StopsAtEnd ['%', '-', '5', 'd', '%', '%'] :=
  (scan_stops ['%', '-', '5', 'd', '%', '%'] (by decide)).mpr
    ⟨.directive _ { Format.zero with leftJustify := true, minWidth := 5 } 'd' _ rfl (runsFit_of_length (by decide))
      (.directive _ Format.zero '%' _ rfl (runsFit_of_length (by decide)) .nil), by decide⟩

/-- A single `%` leads behind the NUL. -/
theorem percent_not_stopped : ¬ ∀ s : List Char, '\x00' ∉ s → StopsAtEnd s := by
  intro h
  obtain ⟨N, hN⟩ := h ['%'] (by decide)
  have hf : scan (textOf ['%']) (N + 2) 0 = some 1 := hN (N + 2) (by omega)
  have hcut : scan (textOf ['%']) (N + 2) 0 = none := rfl
  rw [hcut] at hf
  cases hf

/-! ## 4. The number buffer -/

/-- A call of `PrintInt64Base` (`signed`) or `PrintUInt64Base`. -/
structure NumberCall where
  val : BitVec 64
  base : Int
  signed : Bool
  fmt : Format

/-- The call that a conversion makes. -/
def numberCall (f : Char) (val : BitVec 64) (fmt : Format) : Option NumberCall :=
  if f = 'd' ∨ f = 'i' then some ⟨val, 10, true, fmt⟩
  else if f = 'o' then some ⟨val, 8, true, fmt⟩
  else if f = 'u' then some ⟨val, 10, false, fmt⟩
  else if f = 'x' ∨ f = 'X' ∨ f = 'p' then some ⟨val, 16, false, fmt⟩
  else none

namespace NumberCall

/-- `neg`. -/
def neg (call : NumberCall) : Bool := call.signed && decide (call.val.toInt < 0)

/-- What the digits are taken from: `-val` wraps for `INT64_MIN`. -/
def start (call : NumberCall) : Int :=
  if call.signed then (if call.neg then (-call.val).toInt else call.val.toInt) else call.val.toNat

end NumberCall

/-- `buffer`, as an index into `s_Buffer`, with the indices written so far. -/
structure Cursor where
  pos : Int
  written : List Int

/-- `*buffer = c; buffer--`. -/
def Cursor.put (b : Cursor) : Cursor := ⟨b.pos - 1, b.written ++ [b.pos]⟩

/-- The loop over the digits; whatever is read at `digits[val % base]` is written. -/
def writeDigits (base : Int) : (fuel : Nat) → (val : Int) → Cursor → Option Cursor
  | 0, _, _ => none
  | fuel + 1, val, b =>
      if val.tdiv base ≠ 0 then writeDigits base fuel (val.tdiv base) b.put else some b.put

/-- The loop up to the precision, `n` turns. -/
def writeZeroes : (n : Nat) → Cursor → Cursor
  | 0, b => b
  | n + 1, b => writeZeroes n b.put

/-- The indices that a call writes. -/
def NumberCall.writes (call : NumberCall) (fuel : Nat) : Option (List Int) :=
  (writeDigits call.base fuel call.start (Cursor.put ⟨127, []⟩)).map fun b =>
    -- `length` is the number of digits: all that is written but the NUL
    let b := writeZeroes (call.fmt.precision - (b.written.length - 1)).toNat b
    let b := if call.neg || call.fmt.forceSign || call.fmt.spaceIfNoSign then b.put else b
    b.written

/-- The call comes to an end and writes inside of `s_Buffer[128]`. -/
def NumberCall.Inside (call : NumberCall) : Prop :=
  ∃ l, Halts call.writes l ∧ ∀ i ∈ l, 0 ≤ i ∧ i < 128

/-- Precision and sign leave room for the NUL. -/
def NumberCall.Fits (call : NumberCall) : Prop := call.fmt.precision + signs call.neg call.fmt ≤ 127

section Buffer

/-- `k` characters have been written, from the end downwards. -/
structure Down (k : Nat) (b : Cursor) : Prop where
  pos : b.pos = 127 - k
  length : b.written.length = k
  mem : ∀ i, i ∈ b.written ↔ 127 - (k : Int) < i ∧ i ≤ 127

theorem Down.put {k : Nat} {b : Cursor} (h : Down k b) : Down (k + 1) b.put := by
  refine ⟨?_, ?_, fun i => ?_⟩
  · show b.pos - 1 = _
    rw [h.pos]
    omega
  · rw [Cursor.put, List.length_append, h.length, List.length_singleton]
  · rw [Cursor.put, List.mem_append, h.mem, List.mem_singleton, h.pos]
    omega

theorem Down.zeroes {k : Nat} {b : Cursor} (h : Down k b) (n : Nat) : Down (k + n) (writeZeroes n b) := by
  induction n generalizing k b with
  | zero => exact h
  | succ n ih =>
      rw [writeZeroes, show k + (n + 1) = k + 1 + n by omega]
      exact ih h.put

/-- All is inside exactly if it is no more than the buffer holds. -/
theorem Down.inside_iff {k : Nat} {b : Cursor} (h : Down k b) : (∀ i ∈ b.written, 0 ≤ i ∧ i < 128) ↔ k ≤ 128 := by
  constructor
  · intro hin
    by_contra hk
    have := hin (-1) ((h.mem (-1)).mpr (by omega))
    omega
  · intro hk i hi
    have := (h.mem i).mp hi
    omega

/-- **A number below `base ^ (n + 1)` in magnitude has at most `n + 1` digits**, a negative one too. -/
theorem writeDigits_down {base : Int} (hb : 2 ≤ base) (n : Nat) {val : Int} {k : Nat} {b : Cursor}
    (hv : (val.natAbs : Int) < base ^ (n + 1)) (h : Down k b) :
    ∃ b' d, writeDigits base (n + 1) val b = some b' ∧ Down (k + d) b' ∧ 1 ≤ d ∧ d ≤ n + 1 := by
  have hq : ∀ v : Int, (v.tdiv base).natAbs = v.natAbs / base.natAbs := fun v => Int.natAbs_tdiv v base
  induction n generalizing val k b with
  | zero =>
      have hz : val.tdiv base = 0 := by
        rw [zero_add, pow_one] at hv
        rw [← Int.natAbs_eq_zero, hq, Nat.div_eq_of_lt (by omega)]
      refine ⟨b.put, 1, ?_, h.put, by omega, by omega⟩
      rw [writeDigits, if_neg (not_not.mpr hz)]
  | succ n ih =>
      by_cases hz : val.tdiv base = 0
      · refine ⟨b.put, 1, ?_, h.put, by omega, by omega⟩
        rw [writeDigits, if_neg (not_not.mpr hz)]
      · have hv' : ((val.tdiv base).natAbs : Int) < base ^ (n + 1) := by
          rw [hq, Int.natCast_ediv, Int.natAbs_of_nonneg (by omega : 0 ≤ base)]
          exact Int.ediv_lt_of_lt_mul (by omega) (by rwa [← pow_succ])
        obtain ⟨b', d, hw, hd, h1, h2⟩ := ih hv' h.put
        refine ⟨b', d + 1, ?_, ?_, by omega, by omega⟩
        · rw [writeDigits, if_pos hz]
          exact hw
        · rw [show k + (d + 1) = k + 1 + d by omega]
          exact hd

theorem writeDigits_steady (base val : Int) (b : Cursor) : Steady fun fuel => writeDigits base fuel val b := by
  intro fuel
  show ∀ r, writeDigits base fuel val b = some r → writeDigits base (fuel + 1) val b = some r
  induction fuel generalizing val b with
  | zero =>
      intro r h
      cases h
  | succ fuel ih =>
      intro r h
      rw [writeDigits] at h ⊢
      split_ifs at h ⊢
      · exact ih _ _ r h
      · exact h

theorem numberCall_base {f : Char} {val : BitVec 64} {fmt : Format} {call : NumberCall}
    (h : numberCall f val fmt = some call) : 2 ≤ call.base := by
  unfold numberCall at h
  split_ifs at h
  · cases h; exact (by decide : (2 : Int) ≤ 10)
  · cases h; exact (by decide : (2 : Int) ≤ 8)
  · cases h; exact (by decide : (2 : Int) ≤ 10)
  · cases h; exact (by decide : (2 : Int) ≤ 16)

/-- The magnitude is below `2 ^ 64`, for `INT64_MIN` too. -/
theorem NumberCall.start_lt (call : NumberCall) : (call.start.natAbs : Int) < 2 ^ 64 := by
  have h1 := @BitVec.toInt_lt 64 call.val
  have h2 := BitVec.le_toInt call.val
  have h3 := @BitVec.toInt_lt 64 (-call.val)
  have h4 := BitVec.le_toInt (-call.val)
  have h5 := call.val.isLt
  unfold start
  split_ifs <;> omega

/-- The sign, where there is one. -/
theorem Down.sign {k : Nat} {b : Cursor} (h : Down k b) (neg : Bool) (fmt : Format) :
    ∃ d : Nat, (d : Int) = signs neg fmt ∧
      Down (k + d) (if neg || fmt.forceSign || fmt.spaceIfNoSign then b.put else b) := by
  unfold signs
  by_cases h1 : neg = true
  · exact ⟨1, by rw [if_pos h1]; rfl, by rw [if_pos (by simp [h1])]; exact h.put⟩
  · rw [if_neg h1]
    by_cases h2 : fmt.forceSign = true
    · exact ⟨1, by rw [if_pos h2]; rfl, by rw [if_pos (by simp [h2])]; exact h.put⟩
    · rw [if_neg h2]
      by_cases h3 : fmt.spaceIfNoSign = true
      · exact ⟨1, by rw [if_pos h3]; rfl, by rw [if_pos (by simp [h3])]; exact h.put⟩
      · exact ⟨0, by rw [if_neg h3]; rfl, by rw [if_neg (by simp [h1, h2, h3])]; exact h⟩

/-- **A call writes inside of its buffer exactly if its precision and sign fit.** -/
theorem NumberCall.inside_iff {call : NumberCall} (hb : 2 ≤ call.base) : call.Inside ↔ call.Fits := by
  have hstart : (call.start.natAbs : Int) < call.base ^ (63 + 1) :=
    lt_of_lt_of_le call.start_lt (pow_le_pow_left₀ (by omega) hb 64)
  have hnul : Down 1 (Cursor.put ⟨127, []⟩) :=
    Down.put (k := 0) ⟨rfl, rfl, fun i => iff_of_false List.not_mem_nil (by omega)⟩
  obtain ⟨b, d, hw, hd, h1, h2⟩ := writeDigits_down hb 63 hstart hnul
  have hlen : (b.written.length : Int) - 1 = d := by
    rw [hd.length]
    omega
  obtain ⟨e, he, hs⟩ := (hd.zeroes (call.fmt.precision - d).toNat).sign call.neg call.fmt
  have hsteady : Steady call.writes := (writeDigits_steady _ _ _).map _
  have hl := hsteady.halts (N := 64) (by rw [NumberCall.writes, hw, Option.map_some, hlen])
  have hin : call.Inside ↔ 1 + d + (call.fmt.precision - d).toNat + e ≤ 128 := by
    rw [← hs.inside_iff]
    refine ⟨fun h => ?_, fun h => ⟨_, hl, h⟩⟩
    obtain ⟨l, hl', h⟩ := h
    rw [← hl.unique hl'] at h
    exact h
  have hsg := signs_nonneg call.neg call.fmt
  rw [hin, Fits]
  omega

end Buffer

/-! ## 5. Every call of a run -/

/-- The two engines; only the first one knows `C`, with three arguments. -/
inductive Engine where
  | kvprintf
  | kfvprintf

/-- How many arguments a conversion takes, apart from width and precision. -/
def Engine.takes : Engine → Char → Nat
  | .kvprintf, f => if f = 'C' then 3 else conversionArgs f
  | .kfvprintf, f => conversionArgs f

/-- The index of the loop and the number of arguments taken. -/
structure At where
  i : Nat
  used : Nat

/-- One turn that is not the last. -/
inductive scanStep (m : Text) (engine : Engine) (arg : Nat → BitVec 64) : At → Turn → At → Prop where
  | char (p : At) (c : Char) (next : Nat) (h : turn m p.i = some (.char c next)) :
      scanStep m engine arg p (.char c next) ⟨next, p.used⟩
  | directive (p : At) (outFormat : Format) (f : Char) (next : Nat)
      (h : turn m p.i = some (.directive outFormat f next)) :
      scanStep m engine arg p (.directive outFormat f next)
        ⟨next, (outFormat.fetch arg p.used).2 + engine.takes f⟩

/-- The calls of the number functions that a run makes. -/
def Calls (m : Text) (engine : Engine) (arg : Nat → BitVec 64) (call : NumberCall) : Prop :=
  ∃ p outFormat f next, Reach (scanStep m engine arg) (· = ⟨0, 0⟩) p ∧
    turn m p.i = some (.directive outFormat f next) ∧
    numberCall f (arg (outFormat.fetch arg p.used).2) (outFormat.fetch arg p.used).1 = some call

/-- **All writes of the number functions are inside of their buffers exactly if every precision that the run
    meets, from digits or from an argument, leaves room for the sign and the NUL.** The format may stand in
    any memory. -/
theorem number_buffer (m : Text) (engine : Engine) (arg : Nat → BitVec 64) :
    (∀ call, Calls m engine arg call → call.Inside) ↔ ∀ call, Calls m engine arg call → call.Fits := by
  refine forall_congr' fun call => imp_congr_right fun h => ?_
  obtain ⟨_, _, _, _, -, -, hc⟩ := h
  exact NumberCall.inside_iff (numberCall_base hc)

/-- `"%.200d"` writes in front of its buffer. -/
theorem precision_overruns : ¬ ∀ (m : Text) (engine : Engine) (arg : Nat → BitVec 64) (call : NumberCall),
    Calls m engine arg call → call.Inside := by
  intro h
  have hc : Calls (textOf ['%', '.', '2', '0', '0', 'd']) .kvprintf (fun _ => 0)
      ⟨0, 10, true, { Format.zero with precision := 200 }⟩ :=
    ⟨⟨0, 0⟩, { Format.zero with precision := 200 }, 'd', 6, .start _ rfl, rfl, rfl⟩
  have hi := (NumberCall.inside_iff (by decide)).mp (h _ _ _ _ hc)
  unfold NumberCall.Fits at hi
  exact absurd hi (by decide)

end Printf

end SimpleOS2
