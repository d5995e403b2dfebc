/-
  File:      SimpleOS2/Programs/ShellTokens.lean
  Subject:   THE ARGUMENTS OF A COMMAND (Programs/Shell/main.cpp: GetToken, the first loop of HandleCommand).

  The tokens are cut out of the command line in place: the character behind a token becomes a `'\0'`. The buffer
  has the bytes of the line and its `'\0'` and no more, so that an access behind them has no result.

  * `getToken`, `argvLoop` -- the functions;
  * `Tokens` -- the grammar of a command line, `tokens` -- its only reading; `Tokens.count`;
  * `scanToken_spec`, `getToken_spec` -- one token, with the cells that stay as they are;
  * `argv_tokens` -- the entries of `argv` are the tokens of the line.
-/
import Mathlib.Data.List.Forall2
import Mathlib.Data.List.GetD
import SimpleOS2.Klib.BoundedMemory

namespace SimpleOS2

open Lib Bounded

namespace Shell

/-! ## 1. The functions -/

/-- `while(*buf == ' ') buf++;` -/
def skipSpaces (size : Nat) (b : Nat → Char) : (fuel buf : Nat) → Option Nat
  | 0, _ => none
  | fuel + 1, buf => do
      let c ← rd size b buf
      if c = ' ' then skipSpaces size b fuel (buf + 1) else some buf

/-- The `while(true)` of `GetToken`. -/
def scanToken (size : Nat) (quotedMode : Bool) : (fuel : Nat) → (b : Nat → Char) → (buf : Nat) →
    Option ((Nat → Char) × Nat)
  | 0, _, _ => none
  | fuel + 1, b, buf => do
      let c ← rd size b buf
      if c = ' ' ∧ quotedMode = false then
        let b ← wr size b buf '\x00'
        some (b, buf + 1)
      else if c = '"' ∧ quotedMode = true then
        let b ← wr size b buf '\x00'
        some (b, buf + 1)
      else if c = '\x00' then some (b, buf)
      else scanToken size quotedMode fuel b (buf + 1)

/-- `GetToken`: the pointer it returns, the buffer, and the new `buf`. Its loops have left the buffer after `size`
    rounds. -/
def getToken (size : Nat) (b : Nat → Char) (buf : Nat) : Option (Option Nat × (Nat → Char) × Nat) := do
  let buf ← skipSpaces size b (size + 1) buf
  let c ← rd size b buf
  if c = '\x00' then some (none, b, buf)
  else
    let quotedMode := decide (c = '"')
    let res := if quotedMode then buf + 1 else buf
    let r ← scanToken size quotedMode (size + 1) b res
    some (some res, r)

/-- `char* argv[100]`. -/
def argvSize : Nat := 100

/-- The loop that fills `argv`; an entry that does not fit has no result. -/
def argvLoop (size : Nat) : (fuel : Nat) → (b : Nat → Char) → (buf : Nat) → (argv : List Nat) →
    Option ((Nat → Char) × List Nat)
  | 0, _, _, _ => none
  | fuel + 1, b, buf, argv => do
      let (arg, b, buf) ← getToken size b buf
      match arg with
      | none => some (b, argv)
      | some arg => if argv.length < argvSize then argvLoop size fuel b buf (argv ++ [arg]) else none

/-- What `HandleCommand` makes of a command line: the buffer and `argv`. -/
def splitCommand (size : Nat) (b : Nat → Char) : Option ((Nat → Char) × List Nat) := argvLoop size (size + 1) b 0 []

/-! ## 2. The grammar -/

/-- Characters without a space, the first of them no quote. -/
structure IsWord (t : List Char) : Prop where
  nonempty : t ≠ []
  unquoted : t.head? ≠ some '"'
  spaceless : ' ' ∉ t

/-- The tokens of a command line. -/
inductive Tokens : List Char → List (List Char) → Prop
  | done : Tokens [] []
  | space {s : List Char} {ts : List (List Char)} (h : Tokens s ts) : Tokens (' ' :: s) ts
  | quoted {t s : List Char} {ts : List (List Char)} (ht : '"' ∉ t) (h : Tokens s ts) :
      Tokens ('"' :: (t ++ '"' :: s)) (t :: ts)
  | unclosed {t : List Char} (ht : '"' ∉ t) : Tokens ('"' :: t) [t]
  | word {t s : List Char} {ts : List (List Char)} (ht : IsWord t) (h : Tokens s ts) :
      Tokens (t ++ ' ' :: s) (t :: ts)
  | last {t : List Char} (ht : IsWord t) : Tokens t [t]

/-- Where a reader of the line stands: between tokens, or in one that ends at the character. -/
inductive Reading
  | between
  | inside (stop : Char) (t : List Char)

def tokensFrom : Reading → List Char → List (List Char)
  | .between, [] => []
  | .between, c :: s =>
      if c = ' ' then tokensFrom .between s
      else if c = '"' then tokensFrom (.inside '"' []) s
      else tokensFrom (.inside ' ' [c]) s
  | .inside _ t, [] => [t]
  | .inside stop t, c :: s =>
      if c = stop then t :: tokensFrom .between s else tokensFrom (.inside stop (t ++ [c])) s

/-- The tokens of a command line, read from left to right. -/
def tokens (s : List Char) : List (List Char) := tokensFrom .between s

section Grammar

variable {s t u : List Char} {ts : List (List Char)} {stop : Char}

theorem tokensFrom_stop (h : stop ∉ u) : tokensFrom (.inside stop t) (u ++ stop :: s) = (t ++ u) :: tokens s := by
  induction u generalizing t with
  | nil =>
      rw [List.append_nil]
      exact if_pos rfl
  | cons c u ih =>
      have hc : c ≠ stop := fun hc => h (hc ▸ List.mem_cons_self)
      have hu : stop ∉ u := fun hu => h (List.mem_cons_of_mem _ hu)
      exact (if_neg hc).trans ((ih hu).trans (by rw [List.append_assoc]; rfl))

theorem tokensFrom_end (h : stop ∉ u) : tokensFrom (.inside stop t) u = [t ++ u] := by
  induction u generalizing t with
  | nil =>
      rw [List.append_nil]
      rfl
  | cons c u ih =>
      have hc : c ≠ stop := fun hc => h (hc ▸ List.mem_cons_self)
      have hu : stop ∉ u := fun hu => h (List.mem_cons_of_mem _ hu)
      exact (if_neg hc).trans ((ih hu).trans (by rw [List.append_assoc]; rfl))

theorem tokens_quote (s : List Char) : tokens ('"' :: s) = tokensFrom (.inside '"' []) s := rfl

/-- A word starts a token that ends at a space. -/
theorem tokens_word (ht : IsWord t) (s : List Char) :
    ∃ c u, t = c :: u ∧ ' ' ∉ u ∧ tokens (t ++ s) = tokensFrom (.inside ' ' [c]) (u ++ s) := by
  cases t with
  | nil => exact absurd rfl ht.nonempty
  | cons c u =>
      have hspace : c ≠ ' ' := fun hc => ht.spaceless (hc ▸ List.mem_cons_self)
      have hquote : c ≠ '"' := fun hc => ht.unquoted (hc ▸ rfl)
      exact ⟨c, u, rfl, fun hu => ht.spaceless (List.mem_cons_of_mem _ hu),
        (if_neg hspace).trans (if_neg hquote)⟩

/-- **The grammar has one reading.** -/
theorem Tokens.eq_tokens (h : Tokens s ts) : ts = tokens s := by
  induction h with
  | done => rfl
  | space _ ih => exact ih
  | quoted ht _ ih =>
      rw [ih, tokens_quote, tokensFrom_stop ht]
      rfl
  | unclosed ht =>
      rw [tokens_quote, tokensFrom_end ht]
      rfl
  | word ht _ ih =>
      obtain ⟨c, u, rfl, hu, heq⟩ := tokens_word ht _
      rw [heq, tokensFrom_stop hu, ih]
      rfl
  | @last t ht =>
      obtain ⟨c, u, rfl, hu, heq⟩ := tokens_word ht []
      rw [List.append_nil, List.append_nil] at heq
      rw [heq, tokensFrom_end hu]
      rfl

/-- A token and what ends it are two characters or more; only the last one may be one. -/
theorem Tokens.count (h : Tokens s ts) : 2 * ts.length ≤ s.length + 1 := by
  induction h with
  | done => exact Nat.zero_le 1
  | space _ ih =>
      rw [List.length_cons]
      omega
  | quoted _ _ ih =>
      simp only [List.length_cons, List.length_append]
      omega
  | unclosed _ =>
      simp only [List.length_cons, List.length_nil]
      omega
  | @word t _ _ ht _ ih =>
      have hpos := List.length_pos_iff.mpr ht.nonempty
      simp only [List.length_cons, List.length_append]
      omega
  | @last t ht =>
      have hpos := List.length_pos_iff.mpr ht.nonempty
      simp only [List.length_cons, List.length_nil]
      omega

/-- Spaces before a token. -/
theorem Tokens.spaces (h : Tokens s ts) (k : Nat) : Tokens (List.replicate k ' ' ++ s) ts := by
  induction k with
  | zero => exact h
  | succ k ih => exact .space ih

theorem Tokens.of_nil (h : Tokens [] ts) : ts = [] := h.eq_tokens

example : tokens ['a', ' ', '"', 'b', ' ', '"', '"', '"', ' ', 'c', '"', ' ', '"'] =
    [['a'], ['b', ' '], [], ['c', '"'], []] := by decide

end Grammar

/-! ## 3. One token -/

section Scan

variable {size a : Nat} {b : Nat → Char} {s t r : List Char} {quotedMode : Bool}

/-- The character that ends a token. -/
def stopOf (quotedMode : Bool) : Char := if quotedMode then '"' else ' '

theorem stopOf_ne (quotedMode : Bool) : stopOf quotedMode ≠ '\x00' := by cases quotedMode <;> decide

/-- A turn of the loop. -/
theorem scanToken_turn {c : Char} (fuel : Nat) (hin : a < size) (hc : b a = c) :
    scanToken size quotedMode (fuel + 1) b a =
      if c = stopOf quotedMode then some (Function.update b a '\x00', a + 1)
      else if c = '\x00' then some (b, a)
      else scanToken size quotedMode fuel b (a + 1) := by
  rw [scanToken, rd_in hin, hc]
  simp only [Option.bind_eq_bind, Option.bind_some, wr_in hin]
  cases quotedMode with
  | false =>
      rw [show stopOf false = ' ' from rfl]
      by_cases h : c = ' '
      · rw [if_pos ⟨h, rfl⟩, if_pos h]
      · rw [if_neg (fun hx => h hx.1), if_neg (fun hx => Bool.false_ne_true hx.2), if_neg h]
  | true =>
      rw [show stopOf true = '"' from rfl]
      by_cases h : c = '"'
      · rw [if_neg (fun hx => Bool.false_ne_true hx.2.symm), if_pos ⟨h, rfl⟩, if_pos h]
      · rw [if_neg (fun hx => Bool.false_ne_true hx.2.symm), if_neg (fun hx => h hx.1), if_neg h]

/-- A token that is ended by its character. -/
theorem scanToken_stop {fuel : Nat} (h : Text b a (t ++ stopOf quotedMode :: r)) (ht : stopOf quotedMode ∉ t)
    (hin : a + (t ++ stopOf quotedMode :: r).length < size) (hf : t.length < fuel) :
    scanToken size quotedMode fuel b a = some (Function.update b (a + t.length) '\x00', a + t.length + 1) := by
  induction t generalizing a fuel with
  | nil =>
      obtain ⟨fuel, rfl⟩ : ∃ n, fuel = n + 1 := ⟨fuel - 1, by omega⟩
      rw [scanToken_turn fuel (by omega) h.head.1, if_pos rfl]
      rfl
  | cons c t ih =>
      obtain ⟨fuel, rfl⟩ : ∃ n, fuel = n + 1 := ⟨fuel - 1, by omega⟩
      have hc : c ≠ stopOf quotedMode := fun hc => ht (hc ▸ List.mem_cons_self)
      have hshift : a + (c :: t).length = a + 1 + t.length := by
        rw [List.length_cons]
        omega
      rw [List.cons_append, List.length_cons] at hin
      rw [scanToken_turn fuel (by omega) h.head.1, if_neg hc, if_neg h.head.2,
        ih h.tail (fun hm => ht (List.mem_cons_of_mem _ hm)) (by omega) (by simpa using hf), hshift]

/-- One that the `'\0'` ends. -/
theorem scanToken_end {fuel : Nat} (h : Text b a t) (ht : stopOf quotedMode ∉ t) (hin : a + t.length < size)
    (hf : t.length < fuel) : scanToken size quotedMode fuel b a = some (b, a + t.length) := by
  induction t generalizing a fuel with
  | nil =>
      obtain ⟨fuel, rfl⟩ : ∃ n, fuel = n + 1 := ⟨fuel - 1, by omega⟩
      have hend : b a = '\x00' := h.2.1
      rw [scanToken_turn fuel (by simpa using hin) hend, if_neg (stopOf_ne quotedMode).symm, if_pos rfl]
      rfl
  | cons c t ih =>
      obtain ⟨fuel, rfl⟩ : ∃ n, fuel = n + 1 := ⟨fuel - 1, by omega⟩
      have hc : c ≠ stopOf quotedMode := fun hc => ht (hc ▸ List.mem_cons_self)
      have hshift : a + (c :: t).length = a + 1 + t.length := by
        rw [List.length_cons]
        omega
      rw [List.length_cons] at hin
      rw [scanToken_turn fuel (by omega) h.head.1, if_neg hc, if_neg h.head.2,
        ih h.tail (fun hm => ht (List.mem_cons_of_mem _ hm)) (by omega) (by simpa using hf), hshift]

/-- What a scan leaves: the token with its `'\0'`, the rest of the line, and every cell before the token and every
    `'\0'` as it was. -/
structure Cut (b : Nat → Char) (a : Nat) (s t : List Char) (b' : Nat → Char) (a' : Nat) (rest : List Char) : Prop where
  token : Text b' a t
  behind : Text b' a' rest
  place : a + t.length ≤ a'
  total : a' + rest.length = a + s.length
  shorter : rest.length ≤ s.length
  frame : ∀ x, x < a ∨ b x = '\x00' → b' x = b x

/-- **The scan**: up to the character that ends the token, or to the end of the line. -/
theorem scanToken_spec (quotedMode : Bool) (h : Text b a s) (hin : a + s.length < size) :
    ∃ t b' a' rest, scanToken size quotedMode (size + 1) b a = some (b', a') ∧ Cut b a s t b' a' rest ∧
      stopOf quotedMode ∉ t ∧ (s = t ++ stopOf quotedMode :: rest ∨ s = t ∧ rest = []) := by
  by_cases hmem : stopOf quotedMode ∈ s
  · obtain ⟨t, r, rfl, ht⟩ := List.eq_append_cons_of_mem hmem
    rw [List.length_append, List.length_cons] at hin
    have hcut : b (a + t.length) = stopOf quotedMode := ((holds_append.mp h.1).2).1
    have hnul : ∀ x, x < a + t.length ∨ a + t.length < x ∨ b x = '\x00' →
        Function.update b (a + t.length) '\x00' x = b x := fun x hx => by
      refine Function.update_of_ne ?_ _ _
      rintro rfl
      rcases hx with hx | hx | hx
      · exact Nat.lt_irrefl _ hx
      · exact Nat.lt_irrefl _ hx
      · exact stopOf_ne quotedMode (hcut.symm.trans hx)
    refine ⟨t, _, _, r, scanToken_stop h ht (by simpa using hin) (by omega), ⟨?_, ?_, by omega, ?_, ?_, ?_⟩, ht,
      Or.inl rfl⟩
    · refine ⟨(holds_append.mp h.1).1.congr fun i _ hi => hnul i (Or.inl hi), Function.update_self _ _ _,
        fun hm => h.2.2 (List.mem_append_left _ hm)⟩
    · have hrest : Text b (a + t.length + 1) r := by
        refine ⟨((holds_append.mp h.1).2).2, ?_, fun hm =>
          h.2.2 (List.mem_append_right _ (List.mem_cons_of_mem _ hm))⟩
        have hend := h.2.1
        rw [List.length_append, List.length_cons] at hend
        rwa [show a + t.length + 1 + r.length = a + (t.length + (r.length + 1)) by omega]
      exact hrest.congr fun i hi _ => hnul i (Or.inr (Or.inl hi))
    · rw [List.length_append, List.length_cons]
      omega
    · rw [List.length_append, List.length_cons]
      omega
    · exact fun x hx => hnul x (hx.elim (fun hx => Or.inl (by omega)) fun hx => Or.inr (Or.inr hx))
  · refine ⟨s, b, a + s.length, [], scanToken_end h hmem hin (by omega), ⟨h, ?_, Nat.le_refl _, rfl, ?_,
      fun _ _ => rfl⟩, hmem, Or.inr ⟨rfl, rfl⟩⟩
    · exact ⟨trivial, h.2.1, List.not_mem_nil⟩
    · exact Nat.zero_le _

/-- Every line is spaces and something that starts with no space. -/
theorem spaces_split (s : List Char) : ∃ k u, s = List.replicate k ' ' ++ u ∧ u.head? ≠ some ' ' := by
  induction s with
  | nil => exact ⟨0, [], rfl, by decide⟩
  | cons c s ih =>
      by_cases hc : c = ' '
      · obtain ⟨k, u, rfl, hu⟩ := ih
        exact ⟨k + 1, u, by rw [hc]; rfl, hu⟩
      · exact ⟨0, c :: s, rfl, fun h => hc (Option.some.inj h)⟩

theorem skipSpaces_eq {k fuel : Nat} (h : Text b a (List.replicate k ' ' ++ s)) (hs : s.head? ≠ some ' ')
    (hin : a + k + s.length < size) (hf : k < fuel) : skipSpaces size b fuel a = some (a + k) := by
  induction k generalizing a fuel with
  | zero =>
      obtain ⟨fuel, rfl⟩ : ∃ n, fuel = n + 1 := ⟨fuel - 1, by omega⟩
      have hne : b a ≠ ' ' := by
        cases s with
        | nil =>
            have hend : b a = '\x00' := h.2.1
            rw [hend]
            decide
        | cons c s =>
            intro hc
            rw [(show b a = c from h.1.1)] at hc
            exact hs (congrArg some hc)
      rw [skipSpaces, rd_in (by omega)]
      exact if_neg hne
  | succ k ih =>
      obtain ⟨fuel, rfl⟩ : ∃ n, fuel = n + 1 := ⟨fuel - 1, by omega⟩
      rw [List.replicate_succ, List.cons_append] at h
      have hc : b a = ' ' := h.1.1
      rw [skipSpaces, rd_in (by omega)]
      refine (if_pos hc).trans ?_
      rw [ih h.tail (by omega) (by omega), Nat.add_assoc, Nat.add_comm 1 k]

theorem text_append {u : List Char} (h : Text b a (s ++ u)) : Text b (a + s.length) u := by
  refine ⟨(holds_append.mp h.1).2, ?_, fun hm => h.2.2 (List.mem_append_right _ hm)⟩
  have hend := h.2.1
  rwa [List.length_append, ← Nat.add_assoc] at hend

/-- What a call of `GetToken` does to the line from `a` on. -/
inductive TokenRead (size : Nat) (b : Nat → Char) (a : Nat) (s : List Char) : Prop
  /-- Only spaces are left. -/
  | nothing (hread : getToken size b a = some (none, b, a + s.length)) (hs : Tokens s [])
  | token (p : Nat) (t : List Char) (b' : Nat → Char) (a' : Nat) (rest : List Char)
      (hread : getToken size b a = some (some p, b', a')) (hp : a ≤ p)
      (hshort : rest.length + 2 ≤ s.length ∨ rest = [] ∧ 0 < s.length)
      (htotal : a' + rest.length = a + s.length) (htoken : Text b' p t) (hplace : p + t.length ≤ a')
      (hbehind : Text b' a' rest) (hframe : ∀ x, x < a ∨ b x = '\x00' → b' x = b x)
      (hs : ∀ ts, Tokens rest ts → Tokens s (t :: ts))

/-- A call that finds something behind the spaces. -/
theorem getToken_at {p : Nat} {c : Char} (hskip : skipSpaces size b (size + 1) a = some p) (hp : p < size)
    (hc : b p = c) (hne : c ≠ '\x00') {quotedMode : Bool} (hq : decide (c = '"') = quotedMode) :
    getToken size b a = (scanToken size quotedMode (size + 1) b (if quotedMode then p + 1 else p)).map
      fun r => (some (if quotedMode then p + 1 else p), r) := by
  unfold getToken
  simp only [hskip, Option.bind_eq_bind, Option.bind_some, rd_in hp, hc, if_neg hne, hq]
  cases scanToken size quotedMode (size + 1) b (if quotedMode then p + 1 else p) <;> rfl

/-- A token that was cut from what stands at `p`. -/
theorem TokenRead.of_cut {p a' : Nat} {b' : Nat → Char} {u t rest : List Char}
    (hread : getToken size b a = some (some p, b', a')) (hcut : Cut b p u t b' a' rest) (hp : a ≤ p)
    (htotal : p + u.length = a + s.length) (hshort : rest.length + 2 ≤ s.length ∨ rest = [] ∧ 0 < s.length)
    (hs : ∀ ts, Tokens rest ts → Tokens s (t :: ts)) : TokenRead size b a s :=
  .token p t b' a' rest hread hp hshort (hcut.total.trans htotal) hcut.token hcut.place hcut.behind
    (fun x hx => hcut.frame x (hx.imp_left fun hx => Nat.lt_of_lt_of_le hx hp)) hs

/-- What has been scanned, up to the next character that ends it or to the end of the line. -/
theorem Tokens.scan_quoted {t u rest : List Char} {ts : List (List Char)} (ht : '"' ∉ t)
    (h : u = t ++ '"' :: rest ∨ u = t ∧ rest = []) (hts : Tokens rest ts) : Tokens ('"' :: u) (t :: ts) := by
  rcases h with rfl | ⟨rfl, rfl⟩
  · exact .quoted ht hts
  · obtain rfl := hts.of_nil
    exact .unclosed ht

theorem Tokens.scan_word {t u rest : List Char} {ts : List (List Char)} (ht : IsWord t)
    (h : u = t ++ ' ' :: rest ∨ u = t ∧ rest = []) (hts : Tokens rest ts) : Tokens u (t :: ts) := by
  rcases h with rfl | ⟨rfl, rfl⟩
  · exact .word ht hts
  · obtain rfl := hts.of_nil
    exact .last ht

/-- What is scanned from a character that is neither a space nor a quote. -/
theorem isWord_of_scan {c : Char} {t u rest : List Char} (hspace : c ≠ ' ') (hquote : c ≠ '"') (ht : ' ' ∉ t)
    (h : c :: u = t ++ ' ' :: rest ∨ c :: u = t ∧ rest = []) : IsWord t := by
  have hhead : t.head? = some c := by
    rcases h with heq | ⟨heq, -⟩
    · cases t with
      | nil => exact absurd (List.cons.inj heq).1 hspace
      | cons x t => exact congrArg some (List.cons.inj heq).1.symm
    · rw [← heq]
      rfl
  refine ⟨fun hnil => ?_, fun hq => ?_, ht⟩
  · rw [hnil] at hhead
    cases hhead
  · rw [hhead] at hq
    exact hquote (Option.some.inj hq)

/-- A quote behind the spaces: the token starts behind it. -/
theorem getToken_quoted {k : Nat} {u : List Char} (hskip : skipSpaces size b (size + 1) a = some (a + k))
    (h : Text b (a + k) ('"' :: u)) (hin : a + k + 1 + u.length < size) :
    TokenRead size b a (List.replicate k ' ' ++ '"' :: u) := by
  have hlen : (List.replicate k ' ' ++ '"' :: u).length = k + (u.length + 1) := by
    rw [List.length_append, List.length_replicate, List.length_cons]
  obtain ⟨t, b', a', rest, hscan, hcut, ht, hcases⟩ := scanToken_spec true h.tail hin
  refine .of_cut ?_ hcut (by omega) (by omega) ?_ fun ts hts => (Tokens.scan_quoted ht hcases hts).spaces k
  · rw [getToken_at hskip (by omega) h.head.1 (by decide) rfl]
    exact congrArg (Option.map _) hscan
  · rcases hcases with rfl | ⟨-, hnil⟩
    · have hcutlen : (t ++ stopOf true :: rest).length = t.length + (rest.length + 1) := List.length_append
      omega
    · exact Or.inr ⟨hnil, by omega⟩

/-- Another character: the token starts at it. -/
theorem getToken_word {k : Nat} {c : Char} {u : List Char} (hskip : skipSpaces size b (size + 1) a = some (a + k))
    (hspace : c ≠ ' ') (hquote : c ≠ '"') (h : Text b (a + k) (c :: u)) (hin : a + k + (c :: u).length < size) :
    TokenRead size b a (List.replicate k ' ' ++ c :: u) := by
  have hlen : (List.replicate k ' ' ++ c :: u).length = k + (c :: u).length := by
    rw [List.length_append, List.length_replicate]
  have hpos : 0 < (c :: u).length := Nat.succ_pos _
  obtain ⟨t, b', a', rest, hscan, hcut, ht, hcases⟩ := scanToken_spec false h hin
  have hword : IsWord t := isWord_of_scan hspace hquote ht hcases
  have htlen := List.length_pos_iff.mpr hword.nonempty
  refine .of_cut ?_ hcut (by omega) (by omega) ?_ fun ts hts => (Tokens.scan_word hword hcases hts).spaces k
  · rw [getToken_at hskip (by omega) h.head.1 h.head.2 (decide_eq_false hquote)]
    exact congrArg (Option.map _) hscan
  · rcases hcases with heq | ⟨-, hnil⟩
    · have heqlen := congrArg List.length heq
      have hcutlen : (t ++ stopOf false :: rest).length = t.length + (rest.length + 1) := List.length_append
      omega
    · exact Or.inr ⟨hnil, by omega⟩

/-- **One call of `GetToken`.** -/
theorem getToken_spec (h : Text b a s) (hin : a + s.length < size) : TokenRead size b a s := by
  obtain ⟨k, u, rfl, hu⟩ := spaces_split s
  have hlen : (List.replicate k ' ' ++ u).length = k + u.length := by rw [List.length_append, List.length_replicate]
  rw [hlen] at hin
  have hskip : skipSpaces size b (size + 1) a = some (a + k) := skipSpaces_eq h hu (by omega) (by omega)
  have hrest : Text b (a + k) u := by
    have happ := text_append h
    rwa [List.length_replicate] at happ
  cases u with
  | nil =>
      refine .nothing ?_ (Tokens.done.spaces k)
      have hend : b (a + k) = '\x00' := hrest.2.1
      unfold getToken
      rw [hskip, hlen]
      simp only [Option.bind_eq_bind, Option.bind_some, rd_in (show a + k < size by simpa using hin), hend]
      rfl
  | cons c u =>
      have hspace : c ≠ ' ' := fun hc => hu (congrArg some hc)
      by_cases hc : c = '"'
      · subst hc
        rw [List.length_cons] at hin
        exact getToken_quoted hskip hrest (by omega)
      · exact getToken_word hskip hspace hc hrest (by omega)

end Scan

/-! ## 4. The whole line -/

section Line

variable {size a : Nat} {b : Nat → Char} {s line : List Char}

/-- The token stands at the pointer and ends before the end of the line. -/
def TokenAt (b : Nat → Char) (last p : Nat) (t : List Char) : Prop := Text b p t ∧ p + t.length ≤ last

/-- **The loop over the tokens**: `argv` gets the tokens that the grammar says, as long as there is room for them. -/
theorem argvLoop_spec {fuel : Nat} {argv : List Nat} (h : Text b a s) (hin : a + s.length < size)
    (hf : s.length < fuel) (hroom : 2 * argv.length + s.length ≤ 2 * argvSize) :
    ∃ b' ps ts, argvLoop size fuel b a argv = some (b', argv ++ ps) ∧ Tokens s ts ∧
      List.Forall₂ (TokenAt b' (a + s.length)) ps ts ∧ (∀ x, x < a ∨ b x = '\x00' → b' x = b x) ∧
      (ps = [] → b' = b) := by
  induction fuel generalizing a b s argv with
  | zero => exact absurd hf (Nat.not_lt_zero _)
  | succ fuel ih =>
      cases getToken_spec h hin with
      | nothing hread hs =>
          refine ⟨b, [], [], ?_, hs, .nil, fun _ _ => rfl, fun _ => rfl⟩
          rw [argvLoop, hread, List.append_nil]
          rfl
      | token p t b1 a1 rest hread hp hshort htotal htoken hplace hbehind hframe hs =>
          have hlen : (argv ++ [p]).length = argv.length + 1 := List.length_append
          have hrest : rest.length + 2 ≤ s.length ∨ rest.length = 0 ∧ 0 < s.length :=
            hshort.imp_right fun h => ⟨congrArg List.length h.1, h.2⟩
          have hfits : argv.length < argvSize := by omega
          obtain ⟨b', ps, ts, hloop, hgrammar, htexts, hframe', -⟩ :=
            ih hbehind (by omega) (by omega) (show 2 * (argv ++ [p]).length + rest.length ≤ 2 * argvSize by omega)
          -- what follows writes neither before the rest of the line nor on a '\0'
          have hlater : ∀ x, x < a1 ∨ b1 x = '\x00' → b' x = b1 x := hframe'
          refine ⟨b', p :: ps, t :: ts, ?_, hs ts hgrammar, .cons ⟨?_, by omega⟩ (htotal ▸ htexts), fun x hx => ?_,
            fun hnil => absurd hnil (List.cons_ne_nil _ _)⟩
          · rw [argvLoop, hread]
            refine (if_pos hfits).trans (hloop.trans ?_)
            rw [List.append_assoc]
            rfl
          · refine ⟨htoken.1.congr fun i _ hi => hlater i (Or.inl (Nat.lt_of_lt_of_le hi hplace)), ?_, htoken.2.2⟩
            rw [hlater _ (Or.inr htoken.2.1)]
            exact htoken.2.1
          · have hsame := hframe x hx
            rw [← hsame]
            refine hlater x (hx.imp (fun hx => ?_) fun hx => hsame.trans hx)
            omega

/-- **The entries of `argv` are the tokens of the line**: in a line of up to 127 characters there are at most 64. -/
theorem argv_tokens (h : Text b 0 line) (hline : line.length ≤ 127) :
    ∃ b' argv, splitCommand (line.length + 1) b = some (b', argv) ∧ Tokens line (tokens line) ∧
      List.Forall₂ (Text b') argv (tokens line) ∧ argv.length ≤ 64 ∧
      ∀ ts, Tokens line ts → ts = tokens line := by
  have hin : 0 + line.length < line.length + 1 := by omega
  have hroom : 2 * ([] : List Nat).length + line.length ≤ 2 * argvSize := by
    show 2 * 0 + line.length ≤ 2 * 100
    omega
  obtain ⟨b', argv, ts, hloop, hgrammar, htexts, -, -⟩ :=
    argvLoop_spec h hin (show line.length < line.length + 1 + 1 by omega) hroom
  have htokens := hgrammar.eq_tokens
  subst htokens
  have hcount := hgrammar.count
  have hlen := htexts.length_eq
  exact ⟨b', argv, hloop, hgrammar, htexts.imp fun _ _ htoken => htoken.1, by omega, fun ts hts => hts.eq_tokens⟩

end Line

/-- A buffer that holds the line, with `'\0'` behind it. -/
def lineBuffer (line : List Char) (i : Nat) : Char := line.getD i '\x00'

theorem lineBuffer_text {line : List Char} (h : '\x00' ∉ line) : Text (lineBuffer line) 0 line := by
  refine ⟨?_, ?_, h⟩
  · clear h
    have hholds : ∀ (before l : List Char), Holds (lineBuffer (before ++ l)) before.length l := fun before l => by
      induction l generalizing before with
      | nil => trivial
      | cons c l ih =>
          refine ⟨?_, ?_⟩
          · unfold lineBuffer
            rw [List.getD_append_right _ _ _ _ (Nat.le_refl _), Nat.sub_self]
            rfl
          · have hnext := ih (before ++ [c])
            rwa [List.append_assoc, List.length_append] at hnext
    exact hholds [] line
  · unfold lineBuffer
    rw [Nat.zero_add]
    exact List.getD_eq_default _ _ (Nat.le_refl _)

/-- `put "a b" x"` -/
def putLine : List Char := ['p', 'u', 't', ' ', '"', 'a', ' ', 'b', '"', ' ', 'x', '"']

theorem argv_tokens_put : ∃ b' argv, splitCommand (putLine.length + 1) (lineBuffer putLine) = some (b', argv) ∧
    List.Forall₂ (Text b') argv [['p', 'u', 't'], ['a', ' ', 'b'], ['x', '"']] ∧ argv.length ≤ 64 := by
  have htokens : tokens putLine = [['p', 'u', 't'], ['a', ' ', 'b'], ['x', '"']] := by decide
  obtain ⟨b', argv, hsplit, -, htexts, hcount, -⟩ :=
    argv_tokens (@lineBuffer_text putLine (by decide)) (by decide)
  exact ⟨b', argv, hsplit, htokens ▸ htexts, hcount⟩

end Shell

end SimpleOS2
