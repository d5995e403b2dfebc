/-
  File:      SimpleOS2/Programs/Login.lean
  Subject:   THE LOGIN PROGRAM (Programs/Login/main.cpp; ThreadSetUser and CloneThread of scheduler/Scheduler.cpp).

  A name and a password come in character by character, into two arrays of 256 bytes that are never cleared. The arrays
  are compared with the strings of a table, and the child of a `fork` changes its user and becomes the shell. Nobody
  looks at what `changeuser` answers.

  * `inputChar`, `findUser`, `exec` -- `GetInputLine`, the loops of `main`, `RunUser`, `HandleKill`;
  * `said`, `served` -- what a typed line says, and who is let in by a list of lines;
  * `LoginInv` -- the arrays hold what was typed, and the program is where the lines have brought it;
  * `let_in` -- in every run in which no line gets too long: `RunUser` is called for those whose name and password were
    the lines typed, for all of them and in their order; a shell has their ids if the program is root's, else its own.
-/
import Mathlib.Data.List.Induction
import SimpleOS2.Klib.BoundedMemory
import SimpleOS2.Syscalls.Users

namespace SimpleOS2

open Lib Bounded

namespace Login

/-! ## 1. The program -/

structure UserInfo where
  uid : Nat
  gid : Nat
  username : List Char
  pw : List Char
  deriving DecidableEq

/-- `g_Users`. -/
def users : List UserInfo :=
  [⟨0, 0, ['r', 'o', 'o', 't'], ['1', '2', '3', '4', '5', '6']⟩,
    ⟨100, 100, ['t', 'e', 's', 't', 'u', 's', 'e', 'r'], ['p', 'w', '1', '2', '3', '4']⟩,
    ⟨101, 101, ['a', 'l', 'i', 'c', 'e'], ['b', 'a', 'd', '4', '3', '2', '1']⟩]

def bufferSize : Nat := 256

/-- In which call `main` is. -/
inductive Place
  | userName
  | password (user : UserInfo)
  | fork (user : UserInfo)
  | join
  deriving DecidableEq

/-- The program: its thread, `g_UserNameBuffer`, `g_PasswordBuffer`, and `length` of `GetInputLine`. Behind them is
    history since its start: what was typed, for whom `RunUser` was called, and the shells, with the users they are
    for. -/
structure Agent where
  thread : Lookup.Thread
  place : Place
  userName : Nat → Char
  password : Nat → Char
  length : Nat
  typed : List Char
  letIn : List UserInfo
  shells : List (UserInfo × Lookup.Thread)

/-- A character in `GetInputLine`: the array, the length, and whether the line is complete. -/
def inputChar (b : Nat → Char) (length : Nat) (c : Char) : Option ((Nat → Char) × Nat × Bool) :=
  if c = '\n' then (wr bufferSize b length '\x00').map fun b => (b, length, true)
  else if c = '\x08' then
    if length ≠ 0 then (wr bufferSize b (length - 1) '\x00').map fun b => (b, length - 1, false)
    else some (b, length, false)
  else (wr bufferSize b length c).map fun b => (b, length + 1, false)

/-- The search of the name, `strcmp` with each. -/
def findUser (b : Nat → Char) : List UserInfo → Option (Option UserInfo)
  | [] => some none
  | u :: us => do
      let same ← kstrcmp bufferSize b 0 u.username
      if same then some (some u) else findUser b us

namespace Agent

/-- A character for the line that is read. -/
def takeChar (s : Agent) (c : Char) : Option Agent :=
  match s.place with
  | .userName => do
      let (b, length, done) ← inputChar s.userName s.length c
      if done then
        let user ← findUser b users
        match user with
        | none => some { s with userName := b, length := 0 } -- "Unknown user"
        | some u => some { s with userName := b, length := 0, place := .password u }
      else some { s with userName := b, length := length }
  | .password u => do
      let (b, length, done) ← inputChar s.password s.length c
      if done then
        let same ← kstrcmp bufferSize b 0 u.pw
        if same then some { s with password := b, length := 0, place := .fork u, letIn := s.letIn ++ [u] }
        else some { s with password := b, length := 0, place := .userName } -- "Login failed"
      else some { s with password := b, length := length }
  | .fork _ | .join => none

/-- The child of the `fork`, behind `changeuser`. -/
def child (s : Agent) (u : UserInfo) : Lookup.Thread :=
  (Lookup.threadSetUser (Lookup.cloneThread s.thread) u.uid u.gid).1

end Agent

inductive Event
  /-- `read` gives a character -/
  | read (c : Char)
  /-- `read` gives nothing -/
  | empty
  /-- `read` fails, and `c` has what stands on the stack -/
  | failed (c : Char)
  /-- `fork` in `RunUser`; where it fails, `join` answers at once -/
  | fork (succeeds : Bool)
  /-- the shell has ended -/
  | joined
  /-- `HandleKill`; where its `exec` fails, the program goes on -/
  | kill (succeeds : Bool)

def exec (s : Agent) : Event → Option Agent
  | .read c => { s with typed := s.typed ++ [c] }.takeChar c
  | .empty => some s
  | .failed c => s.takeChar c
  | .fork succeeds =>
      match s.place with
      | .fork u =>
          if succeeds then some { s with place := .join, shells := s.shells ++ [(u, s.child u)] }
          else some { s with place := .userName }
      | _ => none
  | .joined => if s.place = .join then some { s with place := .userName } else none
  | .kill succeeds =>
      if succeeds then
        some { s with
          place := .userName, userName := fun _ => '\x00', password := fun _ => '\x00', length := 0
          typed := [], letIn := [], shells := [] }
      else some s

def loginStep (s : Agent) (e : Event) (s' : Agent) : Prop := exec s e = some s'

/-- `main` before the first line. The arrays may hold anything: a child whose `exec` has failed goes on here. -/
structure Start (s : Agent) : Prop where
  place : s.place = .userName
  length : s.length = 0
  typed : s.typed = []
  letIn : s.letIn = []
  shells : s.shells = []

/-- The line has room for the character and for its end, and standard input can be read. -/
def Room (s : Agent) : Event → Prop
  | .read c => c = '\n' ∨ c = '\x08' ∨ s.length + 1 < bufferSize
  | .failed _ => False
  | _ => True

/-! ## 2. What was typed -/

/-- A character of a line on the line so far: a backspace takes one away. -/
def editChar (line : List Char) (c : Char) : List Char := if c = '\x08' then line.dropLast else line ++ [c]

/-- The line as it was meant. -/
def edit (line : List Char) : List Char := line.foldl editChar []

/-- The string that the line says. -/
def said (line : List Char) : List Char := (edit line).takeWhile fun c => c ≠ '\x00'

/-- A character of the input on the lines so far, the last one of which is not complete. -/
def cutChar (p : List (List Char) × List Char) (c : Char) : List (List Char) × List Char :=
  if c = '\n' then (p.1 ++ [p.2], []) else (p.1, p.2 ++ [c])

def linesOf (typed : List Char) : List (List Char) × List Char := typed.foldl cutChar ([], [])

/-- Who is asked for a password, and who was let in; a line more. -/
def serveLine (p : Option UserInfo × List UserInfo) (line : List Char) : Option UserInfo × List UserInfo :=
  match p.1 with
  | none => (users.find? fun u => u.username = said line, p.2)
  | some u => (none, if said line = u.pw then p.2 ++ [u] else p.2)

def served (lines : List (List Char)) : Option UserInfo × List UserInfo := lines.foldl serveLine (none, [])

section Lines

variable {line : List Char} {c : Char} {typed : List Char} {lines : List (List Char)} {u : UserInfo}

theorem edit_append (line : List Char) (c : Char) : edit (line ++ [c]) = editChar (edit line) c := by
  unfold edit
  rw [List.foldl_append]
  rfl

theorem linesOf_append (typed : List Char) (c : Char) : linesOf (typed ++ [c]) = cutChar (linesOf typed) c := by
  unfold linesOf
  rw [List.foldl_append]
  rfl

theorem served_append (lines : List (List Char)) (line : List Char) :
    served (lines ++ [line]) = serveLine (served lines) line := by
  unfold served
  rw [List.foldl_append]
  rfl

/-- The user whose password is asked for has just been named. -/
theorem served_asked (h : (served lines).1 = some u) :
    u ∈ users ∧ ∃ before name, lines = before ++ [name] ∧ said name = u.username := by
  induction lines using List.reverseRecOn with
  | nil => cases h
  | append_singleton lines line _ =>
      rw [served_append] at h
      unfold serveLine at h
      split at h
      · dsimp only at h
        have hname := List.find?_some h
        exact ⟨List.mem_of_find?_eq_some h, lines, line, rfl, (of_decide_eq_true hname).symm⟩
      · cases h

/-- **Who is let in** has been named by one line, and the next one is the password. -/
theorem served_letIn (h : u ∈ (served lines).2) : u ∈ users ∧ ∃ before name pw after,
    lines = before ++ name :: pw :: after ∧ said name = u.username ∧ said pw = u.pw := by
  induction lines using List.reverseRecOn with
  | nil => cases h
  | append_singleton lines line ih =>
      have hold : u ∈ (served lines).2 → u ∈ users ∧ ∃ before name pw after,
          lines ++ [line] = before ++ name :: pw :: after ∧ said name = u.username ∧ said pw = u.pw := fun hu => by
        obtain ⟨hmem, before, name, pw, after, rfl, h1, h2⟩ := ih hu
        exact ⟨hmem, before, name, pw, after ++ [line], by simp, h1, h2⟩
      rw [served_append] at h
      unfold serveLine at h
      split at h
      · exact hold h
      · next v hasked =>
          dsimp only at h
          split_ifs at h with hpw
          · rcases List.mem_append.mp h with hu | hu
            · exact hold hu
            · obtain rfl := List.mem_singleton.mp hu
              obtain ⟨hmem, before, name, rfl, hname⟩ := served_asked hasked
              exact ⟨hmem, before, name, line, [], by simp, hname, hpw⟩
          · exact hold h

end Lines

/-! ## 3. The arrays -/

/-- The line in the array, without its end. -/
structure LineIn (b : Nat → Char) (length : Nat) (line : List Char) : Prop where
  holds : Holds b 0 (edit line)
  count : length = (edit line).length
  room : length < bufferSize

section Arrays

variable {b b' : Nat → Char} {n a : Nat} {line xs : List Char} {c : Char} {u : UserInfo}

theorem lineIn_nil (b : Nat → Char) : LineIn b 0 [] := ⟨trivial, rfl, by decide⟩

/-- The string that an array has ends at the first zero. -/
theorem text_takeWhile (h : Holds b a xs) (hend : b (a + xs.length) = '\x00') :
    Text b a (xs.takeWhile fun c => c ≠ '\x00') := by
  induction xs generalizing a with
  | nil => exact ⟨trivial, hend, List.not_mem_nil⟩
  | cons x xs ih =>
      by_cases hx : x = '\x00'
      · rw [List.takeWhile_cons_of_neg (by simpa using hx)]
        exact ⟨trivial, h.1.trans hx, List.not_mem_nil⟩
      · rw [List.takeWhile_cons_of_pos (by simpa using hx)]
        rw [List.length_cons, Nat.add_comm xs.length, ← Nat.add_assoc] at hend
        have htail := ih h.2 hend
        refine ⟨⟨h.1, htail.1⟩, ?_, fun hm => ?_⟩
        · rw [List.length_cons, Nat.add_comm _ 1, ← Nat.add_assoc]
          exact htail.2.1
        · rcases List.mem_cons.mp hm with e | hm
          · exact hx e.symm
          · exact htail.2.2 hm

/-- The end of the line. -/
theorem LineIn.done (h : LineIn b n line) : ∃ b', inputChar b n '\n' = some (b', n, true) ∧ Text b' 0 (said line) := by
  refine ⟨Function.update b n '\x00', ?_, text_takeWhile ?_ ?_⟩
  · unfold inputChar
    rw [if_pos rfl, wr_in h.room]
    rfl
  · refine h.holds.congr fun i _ hi => Function.update_of_ne ?_ _ _
    have := h.count
    omega
  · rw [Nat.zero_add, ← h.count]
    exact Function.update_self _ _ _

/-- A character more, or a backspace. -/
theorem LineIn.char (h : LineIn b n line) (hc : c ≠ '\n') (hroom : c = '\x08' ∨ n + 1 < bufferSize) :
    ∃ b' n', inputChar b n c = some (b', n', false) ∧ LineIn b' n' (line ++ [c]) := by
  have hlen := h.count
  have hn := h.room
  unfold inputChar
  rw [if_neg hc]
  by_cases hback : c = '\x08'
  · rw [if_pos hback]
    have hedit : edit (line ++ [c]) = (edit line).dropLast := by
      rw [edit_append]
      exact if_pos hback
    by_cases hz : n = 0
    · have hnil : edit line = [] := List.length_eq_zero_iff.mp (hlen.symm.trans hz)
      refine ⟨b, n, if_neg (not_not.mpr hz), ?_, ?_, hn⟩
      · rw [hedit, hnil]
        trivial
      · rw [hedit, hnil, hz]
        rfl
    · refine ⟨Function.update b (n - 1) '\x00', n - 1, ?_, ?_, ?_, by omega⟩
      · rw [if_pos hz, wr_in (by omega)]
        rfl
      · rw [hedit]
        have hprefix : Holds b 0 ((edit line).dropLast ++ (edit line).drop (n - 1)) := by
          rw [List.dropLast_eq_take, ← hlen, List.take_append_drop]
          exact h.holds
        refine (holds_append.mp hprefix).1.congr fun i _ hi => Function.update_of_ne ?_ _ _
        rw [List.length_dropLast] at hi
        omega
      · rw [hedit, List.length_dropLast, ← hlen]
  · rw [if_neg hback]
    have hlt := hroom.resolve_left hback
    have hedit : edit (line ++ [c]) = edit line ++ [c] := by
      rw [edit_append]
      exact if_neg hback
    refine ⟨Function.update b n c, n + 1, ?_, ?_, ?_, hlt⟩
    · rw [wr_in hn]
      rfl
    · rw [hedit]
      refine holds_append.mpr ⟨h.holds.congr fun i _ hi => Function.update_of_ne (by omega) _ _, ?_, trivial⟩
      rw [Nat.zero_add, ← hlen]
      exact Function.update_self _ _ _
    · rw [hedit, List.length_append, ← hlen]
      rfl

theorem said_length (h : LineIn b n line) : (said line).length < bufferSize := by
  have hle : (said line).length ≤ (edit line).length := (List.takeWhile_sublist _).length_le
  have := h.count
  have := h.room
  omega

/-- The strings of the table have no zero in them. -/
theorem users_text (h : u ∈ users) : '\x00' ∉ u.username ∧ '\x00' ∉ u.pw := by
  have hall : ∀ u ∈ users, '\x00' ∉ u.username ∧ '\x00' ∉ u.pw := by decide
  exact hall u h

theorem findUser_eq {t : List Char} (h : Text b 0 t) (hlen : t.length < bufferSize) {us : List UserInfo}
    (hus : ∀ u ∈ us, '\x00' ∉ u.username) : findUser b us = some (us.find? fun u => u.username = t) := by
  induction us with
  | nil => rfl
  | cons u us ih =>
      unfold findUser
      rw [kstrcmp_eq h (by rwa [Nat.zero_add]) (hus u List.mem_cons_self)]
      by_cases he : u.username = t
      · rw [List.find?_cons_of_pos (by simpa using he)]
        show (if decide (t = u.username) = true then _ else _) = _
        rw [if_pos (by simpa using he.symm)]
      · rw [List.find?_cons_of_neg (by simpa using he)]
        show (if decide (t = u.username) = true then _ else _) = _
        rw [if_neg (by simpa using fun e => he e.symm)]
        exact ih fun u hu => hus u (List.mem_cons_of_mem _ hu)

end Arrays

/-! ## 4. The run -/

/-- Where the lines have brought the program, and what it has in its arrays. -/
def Placed (s : Agent) : Prop :=
  match s.place with
  | .userName => (served (linesOf s.typed).1).1 = none ∧ LineIn s.userName s.length (linesOf s.typed).2
  | .password u => (served (linesOf s.typed).1).1 = some u ∧ LineIn s.password s.length (linesOf s.typed).2
  | .fork _ | .join => (served (linesOf s.typed).1).1 = none ∧ (linesOf s.typed).2 = [] ∧ s.length = 0

/-- The users that the shells are for, and the one that the next is for. -/
def shellUsers (s : Agent) : List UserInfo :=
  s.shells.map Prod.fst ++ match s.place with
    | .fork u => [u]
    | _ => []

structure LoginInv (s : Agent) : Prop where
  placed : Placed s
  letIn : s.letIn = (served (linesOf s.typed).1).2
  shells : (shellUsers s).Sublist s.letIn
  ids : ∀ p ∈ s.shells, (p.2.uid, p.2.gid) =
    if s.thread.uid = 0 then (p.1.uid, p.1.gid) else (s.thread.uid, s.thread.gid)

section Run

variable {s s' : Agent} {e : Event} {c : Char} {u : UserInfo}

theorem child_ids (s : Agent) (u : UserInfo) : ((s.child u).uid, (s.child u).gid) =
    if s.thread.uid = 0 then (u.uid, u.gid) else (s.thread.uid, s.thread.gid) := by
  have hclone : (Lookup.cloneThread s.thread).uid = s.thread.uid := rfl
  unfold Agent.child Lookup.threadSetUser
  rw [hclone]
  by_cases h : s.thread.uid = 0
  · rw [if_neg (not_not.mpr h), if_pos h]
  · rw [if_pos h, if_neg h]
    rfl

theorem LoginInv.start (h : Start s) : LoginInv s where
  placed := by
    unfold Placed
    rw [h.place, h.typed, h.length]
    exact ⟨rfl, lineIn_nil _⟩
  letIn := by
    rw [h.letIn, h.typed]
    rfl
  shells := by
    unfold shellUsers
    rw [h.place, h.shells]
    exact List.nil_sublist _
  ids p hp := by
    rw [h.shells] at hp
    cases hp

/-- The lines, with a character that does not end one. -/
theorem linesOf_char (s : Agent) (hc : c ≠ '\n') :
    linesOf (s.typed ++ [c]) = ((linesOf s.typed).1, (linesOf s.typed).2 ++ [c]) := by
  rw [linesOf_append]
  exact if_neg hc

theorem linesOf_newline (s : Agent) :
    linesOf (s.typed ++ ['\n']) = ((linesOf s.typed).1 ++ [(linesOf s.typed).2], []) := by
  rw [linesOf_append]
  exact if_pos rfl

theorem serveLine_named {p : Option UserInfo × List UserInfo} {line : List Char} (h : p.1 = none) :
    serveLine p line = (users.find? fun u => u.username = said line, p.2) := by
  unfold serveLine
  rw [h]

theorem serveLine_answered {p : Option UserInfo × List UserInfo} {line : List Char} (h : p.1 = some u) :
    serveLine p line = (none, if said line = u.pw then p.2 ++ [u] else p.2) := by
  unfold serveLine
  rw [h]

theorem shellUsers_eq (hp : ∀ u, s.place ≠ .fork u) : shellUsers s = s.shells.map Prod.fst := by
  unfold shellUsers
  cases hs : s.place with
  | fork u => exact absurd hs (hp u)
  | _ => exact List.append_nil _

/-- A step by which nobody is let in. -/
theorem LoginInv.goesOn (h : LoginInv s) (hp : ∀ u, s.place ≠ .fork u) (hp' : ∀ u, s'.place ≠ .fork u)
    (hsame : (s'.letIn, s'.shells, s'.thread) = (s.letIn, s.shells, s.thread))
    (hserved : (served (linesOf s'.typed).1).2 = (served (linesOf s.typed).1).2) (hplaced : Placed s') :
    LoginInv s' := by
  obtain ⟨hletIn, hsame⟩ := Prod.mk.inj hsame
  obtain ⟨hshells, hthread⟩ := Prod.mk.inj hsame
  refine ⟨hplaced, ?_, ?_, ?_⟩
  · rw [hletIn, hserved]
    exact h.letIn
  · rw [shellUsers_eq hp', hshells, hletIn, ← shellUsers_eq hp]
    exact h.shells
  · rw [hshells, hthread]
    exact h.ids

/-- **A character for the name.** -/
theorem LoginInv.named (h : LoginInv s) (hp : s.place = .userName) (hroom : Room s (.read c))
    (hx : exec s (.read c) = some s') : LoginInv s' := by
  obtain ⟨hnone, hline⟩ : (served (linesOf s.typed).1).1 = none ∧ LineIn s.userName s.length (linesOf s.typed).2 := by
    have hplaced := h.placed
    unfold Placed at hplaced
    rwa [hp] at hplaced
  have hfork : ∀ u, s.place ≠ .fork u := fun u => by
    rw [hp]
    nofun
  unfold exec Agent.takeChar at hx
  dsimp only at hx
  rw [hp] at hx
  by_cases hc : c = '\n'
  · subst hc
    obtain ⟨b, hin, htext⟩ := hline.done
    have hlines := linesOf_newline s
    rw [hin] at hx
    dsimp only [Option.bind_eq_bind, Option.bind_some] at hx
    rw [if_pos rfl, findUser_eq htext (said_length hline) fun u hu => (users_text hu).1, Option.bind_some] at hx
    have hserved : served (linesOf (s.typed ++ ['\n'])).1 =
        (users.find? fun u => u.username = said (linesOf s.typed).2, (served (linesOf s.typed).1).2) := by
      rw [hlines, served_append, serveLine_named hnone]
    cases hfind : users.find? fun u => u.username = said (linesOf s.typed).2 with
    | none =>
        rw [hfind] at hx hserved
        obtain rfl := Option.some.inj hx
        refine h.goesOn hfork nofun rfl ((congrArg Prod.snd hserved).trans rfl) ?_
        show (served (linesOf (s.typed ++ ['\n'])).1).1 = none ∧ LineIn b 0 (linesOf (s.typed ++ ['\n'])).2
        rw [hserved, hlines]
        exact ⟨rfl, lineIn_nil b⟩
    | some u =>
        rw [hfind] at hx hserved
        obtain rfl := Option.some.inj hx
        refine h.goesOn hfork nofun rfl ((congrArg Prod.snd hserved).trans rfl) ?_
        show (served (linesOf (s.typed ++ ['\n'])).1).1 = some u ∧
          LineIn s.password 0 (linesOf (s.typed ++ ['\n'])).2
        rw [hserved, hlines]
        exact ⟨rfl, lineIn_nil _⟩
  · obtain ⟨b, n, hin, hline'⟩ := hline.char hc (hroom.resolve_left hc)
    have hlines := linesOf_char s hc
    rw [hin] at hx
    obtain rfl := Option.some.inj hx
    refine h.goesOn hfork nofun rfl (congrArg (fun l => (served l.1).2) hlines) ?_
    show (served (linesOf (s.typed ++ [c])).1).1 = none ∧ LineIn b n (linesOf (s.typed ++ [c])).2
    rw [hlines]
    exact ⟨hnone, hline'⟩

/-- **A character for the password.** -/
theorem LoginInv.answered (h : LoginInv s) (hp : s.place = .password u) (hroom : Room s (.read c))
    (hx : exec s (.read c) = some s') : LoginInv s' := by
  obtain ⟨hasked, hline⟩ :
      (served (linesOf s.typed).1).1 = some u ∧ LineIn s.password s.length (linesOf s.typed).2 := by
    have hplaced := h.placed
    unfold Placed at hplaced
    rwa [hp] at hplaced
  have hfork : ∀ u, s.place ≠ .fork u := fun u => by
    rw [hp]
    nofun
  unfold exec Agent.takeChar at hx
  dsimp only at hx
  rw [hp] at hx
  by_cases hc : c = '\n'
  · subst hc
    obtain ⟨b, hin, htext⟩ := hline.done
    have hlines := linesOf_newline s
    have hlen := said_length hline
    rw [hin] at hx
    dsimp only [Option.bind_eq_bind, Option.bind_some] at hx
    rw [if_pos rfl, kstrcmp_eq htext (by rwa [Nat.zero_add]) (users_text (served_asked hasked).1).2,
      Option.bind_some] at hx
    have hserved : served (linesOf (s.typed ++ ['\n'])).1 = (none, if said (linesOf s.typed).2 = u.pw then
        (served (linesOf s.typed).1).2 ++ [u] else (served (linesOf s.typed).1).2) := by
      rw [hlines, served_append, serveLine_answered hasked]
    by_cases hpw : said (linesOf s.typed).2 = u.pw
    · -- the one step by which somebody is let in
      rw [if_pos hpw] at hserved
      rw [if_pos (decide_eq_true hpw)] at hx
      obtain rfl := Option.some.inj hx
      have hshells := shellUsers_eq hfork ▸ h.shells
      refine ⟨?_, ?_, ?_, h.ids⟩
      · show (served (linesOf (s.typed ++ ['\n'])).1).1 = none ∧ (linesOf (s.typed ++ ['\n'])).2 = [] ∧ 0 = 0
        rw [hserved, hlines]
        exact ⟨rfl, rfl, rfl⟩
      · show s.letIn ++ [u] = (served (linesOf (s.typed ++ ['\n'])).1).2
        rw [hserved, h.letIn]
      · show (s.shells.map Prod.fst ++ [u]).Sublist (s.letIn ++ [u])
        exact hshells.append (List.Sublist.refl _)
    · rw [if_neg hpw] at hserved
      rw [if_neg (by simpa using hpw)] at hx
      obtain rfl := Option.some.inj hx
      refine h.goesOn hfork nofun rfl ((congrArg Prod.snd hserved).trans rfl) ?_
      show (served (linesOf (s.typed ++ ['\n'])).1).1 = none ∧
        LineIn s.userName 0 (linesOf (s.typed ++ ['\n'])).2
      rw [hserved, hlines]
      exact ⟨rfl, lineIn_nil _⟩
  · obtain ⟨b, n, hin, hline'⟩ := hline.char hc (hroom.resolve_left hc)
    have hlines := linesOf_char s hc
    rw [hin] at hx
    obtain rfl := Option.some.inj hx
    refine h.goesOn hfork nofun rfl (congrArg (fun l => (served l.1).2) hlines) ?_
    show (served (linesOf (s.typed ++ [c])).1).1 = some u ∧ LineIn b n (linesOf (s.typed ++ [c])).2
    rw [hlines]
    exact ⟨hasked, hline'⟩

/-- Back to the name, with nothing typed for it. -/
theorem LoginInv.again (h : LoginInv s) (hp : s.place = .join ∨ ∃ u, s.place = .fork u) :
    LoginInv { s with place := .userName } := by
  have hplaced := h.placed
  have hshells := h.shells
  unfold Placed at hplaced
  unfold shellUsers at hshells
  refine ⟨?_, h.letIn, ?_, h.ids⟩
  · show (served (linesOf s.typed).1).1 = none ∧ LineIn s.userName s.length (linesOf s.typed).2
    rcases hp with hp | ⟨u, hp⟩
    all_goals
      rw [hp] at hplaced
      obtain ⟨h1, h2, h3⟩ := hplaced
      rw [h2, h3]
      exact ⟨h1, lineIn_nil _⟩
  · show (s.shells.map Prod.fst ++ []).Sublist s.letIn
    rw [List.append_nil]
    exact (List.sublist_append_left _ _).trans hshells

/-- **A shell more**, for the user who was let in last. -/
theorem LoginInv.forked (h : LoginInv s) (hp : s.place = .fork u) :
    LoginInv { s with place := .join, shells := s.shells ++ [(u, s.child u)] } := by
  have hplaced := h.placed
  have hshells := h.shells
  unfold Placed at hplaced
  unfold shellUsers at hshells
  rw [hp] at hplaced hshells
  refine ⟨hplaced, h.letIn, ?_, fun p hm => ?_⟩
  · show ((s.shells ++ [(u, s.child u)]).map Prod.fst ++ []).Sublist s.letIn
    rw [List.append_nil, List.map_append]
    exact hshells
  · rcases List.mem_append.mp hm with hm | hm
    · exact h.ids p hm
    · obtain rfl := List.mem_singleton.mp hm
      exact child_ids s u

theorem LoginInv.step (h : LoginInv s) (hx : Guarded loginStep Room s e s') : LoginInv s' := by
  obtain ⟨hx, hroom⟩ := hx
  unfold loginStep at hx
  cases e with
  | read c =>
      cases hp : s.place with
      | userName => exact h.named hp hroom hx
      | password u => exact h.answered hp hroom hx
      | fork u =>
          unfold exec Agent.takeChar at hx
          dsimp only at hx
          rw [hp] at hx
          cases hx
      | join =>
          unfold exec Agent.takeChar at hx
          dsimp only at hx
          rw [hp] at hx
          cases hx
  | empty =>
      obtain rfl := Option.some.inj hx
      exact h
  | failed c => exact hroom.elim
  | fork succeeds =>
      unfold exec at hx
      dsimp only at hx
      split at hx
      · next u hp =>
          split_ifs at hx
          · obtain rfl := Option.some.inj hx
            exact h.forked hp
          · obtain rfl := Option.some.inj hx
            exact h.again (Or.inr ⟨u, hp⟩)
      · cases hx
  | joined =>
      obtain ⟨hp, hx⟩ := Option.ite_none_right_eq_some.mp hx
      obtain rfl := Option.some.inj hx
      exact h.again (Or.inl hp)
  | kill succeeds =>
      unfold exec at hx
      dsimp only at hx
      split_ifs at hx
      · obtain rfl := Option.some.inj hx
        exact .start ⟨rfl, rfl, rfl, rfl, rfl⟩
      · obtain rfl := Option.some.inj hx
        exact h

end Run

/-- **Who is let in, and as whom.** -/
structure LetIn (s : Agent) : Prop where
  all : s.letIn = (served (linesOf s.typed).1).2
  shells : (s.shells.map Prod.fst).Sublist s.letIn
  lines : ∀ u ∈ s.letIn, u ∈ users ∧ ∃ before name pw after,
    (linesOf s.typed).1 = before ++ name :: pw :: after ∧ said name = u.username ∧ said pw = u.pw
  ids : ∀ p ∈ s.shells, (p.2.uid, p.2.gid) =
    if s.thread.uid = 0 then (p.1.uid, p.1.gid) else (s.thread.uid, s.thread.gid)

theorem let_in (s : Agent) (h : Reach (Guarded loginStep Room) Start s) : LetIn s := by
  have hinv : LoginInv s := h.inv (fun _ h0 => .start h0) fun _ _ _ hs hx => hs.step hx
  refine ⟨hinv.letIn, (List.sublist_append_left _ _).trans hinv.shells, fun u hu => ?_, hinv.ids⟩
  rw [hinv.letIn] at hu
  exact served_letIn hu

/-! ### Alice, who corrects herself -/

section Shown

instance instDecidableRoom (s : Agent) (e : Event) : Decidable (Room s e) :=
  match e with
  | .read c => inferInstanceAs (Decidable (c = '\n' ∨ c = '\x08' ∨ s.length + 1 < bufferSize))
  | .failed _ => isFalse id
  | .empty => isTrue trivial
  | .fork _ => isTrue trivial
  | .joined => isTrue trivial
  | .kill _ => isTrue trivial

def execRoom (s : Agent) (e : Event) : Option Agent := if Room s e then exec s e else none

/-- The program of root, with rests of an earlier line in its arrays. -/
def shown : Agent :=
  ⟨⟨0, 0, .idle, [], [], false, none⟩, .userName, fun _ => 'x', fun _ => 'x', 0, [], [], []⟩

theorem shown_start : Start shown := ⟨rfl, rfl, rfl, rfl, rfl⟩

def shownEvents : List Event :=
  ['b', 'o', 'b', '\n', 'a', 'l', 'i', 'c', 'e', '\n', 'b', 'a', 'd', '4', '3', '2', '2', '\x08', '1', '\n'].map
    .read ++ [.fork true, .empty]

theorem let_in_alice : ∃ s, (s.shells.map fun p => (p.2.uid, p.2.gid)) = [(101, 101)] ∧ LetIn s := by
  have hids : ((shownEvents.foldlM execRoom shown).map fun s => s.shells.map fun p => (p.2.uid, p.2.gid)) =
      some [(101, 101)] := by decide
  obtain ⟨s, hs, hshells⟩ := Option.map_eq_some_iff.mp hids
  have hreach : Reach (Guarded loginStep Room) Start s := (Reach.start _ shown_start).foldlM (fun _ _ _ _ hx =>
    have ⟨hg, hx⟩ := Option.ite_none_right_eq_some.mp hx
    ⟨hx, hg⟩) hs
  exact ⟨s, hshells, let_in s hreach⟩

end Shown

end Login

end SimpleOS2
