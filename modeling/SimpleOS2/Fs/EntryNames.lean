/-
  File:      SimpleOS2/Fs/EntryNames.lean
  Subject:   THE NAMES OF ENTRIES (fs/VFS.cpp): `Delete` removes what it has found.

  `Delete` finds its node by walking the path, and later removes the first entry whose name is the last part
  of the path. Both denote the same node, because the names in a directory are different.

  * `pathWalk_iff`, `getFileName_tail` -- the two comparisons of names;
  * `Pc.tail` -- what is left of a path is its end; `Pc.aim` -- the entry that a `Delete` is going to remove;
  * `Named` -- names are different and proper, a `Delete` aims at its own entry, and a name that a call
    misses is still free; `sharp` -- under this condition on insertions it stays so; `named_step` -- the step;
  * `Named.careful` -- so the removal takes an entry of the node that `Delete` has found.
-/
import Mathlib.Data.List.TakeWhile
import SimpleOS2.Fs.NodeCounts

namespace SimpleOS2

open Lib

namespace Lookup

/-! ## 1. Paths and names -/

/-- What is left is the end of the path, behind a slash. -/
def Tail (path rest : List Char) : Prop := rest = path ∨ ∃ pre, path = pre ++ '/' :: rest

section Names

variable {path rest entry name : List Char}

theorem pathWalk_iff : pathWalk path entry = some rest ↔
    (path = entry ∧ rest = []) ∨ path = entry ++ '/' :: rest := by
  induction path generalizing entry with
  | nil =>
      cases entry with
      | nil => simp [pathWalk, eq_comm]
      | cons e entry => simp [pathWalk]
  | cons c path ih =>
      cases entry with
      | nil =>
          simp only [pathWalk, Option.ite_none_right_eq_some, Option.some.injEq, List.cons_ne_nil, false_and,
            false_or, List.nil_append, List.cons.injEq]
      | cons e entry =>
          simp only [pathWalk, List.cons_append, List.cons.injEq]
          by_cases hc : e = c
          · subst hc
            simp only [ne_eq, not_true_eq_false, if_false, true_and]
            exact ih
          · have hc' : ¬ c = e := fun h => hc h.symm
            simp [hc, hc']

theorem Tail.next (h : Tail path rest) (hw : rest = entry ++ '/' :: name) : Tail path name := by
  rcases h with rfl | ⟨pre, rfl⟩
  · exact Or.inr ⟨entry, hw⟩
  · refine Or.inr ⟨pre ++ '/' :: entry, ?_⟩
    rw [hw]
    simp

theorem getFileName_slash (pre rest : List Char) : getFileName (pre ++ '/' :: rest) = getFileName rest := by
  unfold getFileName
  congr 1
  rw [List.reverse_append, List.reverse_cons, List.append_assoc, List.takeWhile_append]
  split_ifs with hlen
  · have hself : rest.reverse.takeWhile (· ≠ '/') = rest.reverse :=
      (List.takeWhile_prefix _).eq_of_length hlen
    rw [hself]
    simp
  · rfl

theorem getFileName_of_not_mem (h : '/' ∉ name) : getFileName name = name := by
  have hall : ∀ c ∈ name.reverse, decide (c ≠ '/') = true := fun c hc =>
    decide_eq_true fun e => h (e ▸ List.mem_reverse.mp hc)
  rw [getFileName, List.takeWhile_eq_self_iff.mpr hall, List.reverse_reverse]

/-- The last part of a path is the last part of its end. -/
theorem getFileName_tail (h : Tail path rest) : getFileName path = getFileName rest := by
  rcases h with rfl | ⟨pre, rfl⟩
  · rfl
  · exact getFileName_slash pre rest

end Names

/-! ## 2. What a thread aims at -/

/-- A proper name: not empty, and without a slash. -/
def ProperName (name : List Char) : Prop := name ≠ [] ∧ '/' ∉ name

/-- What is left of the path is its end. -/
def Pc.tail : Pc → Prop
  | .root _ path _ rest => rest = [] ∨ Tail path rest
  | .walk _ path _ _ rest => rest ≠ [] ∧ Tail path rest
  | .search _ path _ _ rest => rest ≠ [] ∧ Tail path rest
  | .entry _ path _ _ _ rest => rest = [] ∨ Tail path rest
  | .arrived _ path _ _ _ rest => rest = [] ∨ Tail path rest
  | _ => True

/-- A `Delete` that has found its node: the path, the folder and the node. -/
def Pc.aim : Pc → Option (List Char × Nat × Nat × Nat)
  | .entry .delete path mp cur id [] => some (path, mp, cur, id)
  | .arrived .delete path mp cur id [] => some (path, mp, cur, id)
  | .done .delete path mp (some id) (some p) _ => some (path, mp, p, id)
  | .checkEmpty path mp id p => some (path, mp, p, id)
  | .remove path mp id p => some (path, mp, p, id)
  | _ => none

section Plans

variable {s : Sys} {t : Nat} {g : Garbage} {mp cur id p : Nat} {path rest name : List Char} {op : Op}
  {node parent : Option Nat}

theorem advance_tail (hT : VFS.Tree s.mounts) {count : Nat → Int}
    (hf : VFS.findMountPoint s.mounts path = some (mp, count)) :
    VFS.advancePath path (s.mounts.mp mp).path = [] ∨ Tail path (VFS.advancePath path (s.mounts.mp mp).path) := by
  obtain ⟨m, hm, hlong, -⟩ := VFS.find_spec hT path
  rw [hm] at hf
  cases hf
  rcases VFS.advance_spec hT hlong.covers with ⟨-, h⟩ | h | ⟨-, h⟩
  · exact Or.inl h
  · exact Or.inr (Or.inr ⟨_, h⟩)
  · exact Or.inr (Or.inl h)

theorem tail_of_rests {pc : Pc} (h : pc.rests = true) : pc.tail := by
  cases pc with
  | root op path mp rest => cases h
  | walk op path mp cur rest => cases h
  | search op path mp cur rest => cases h
  | entry op path mp cur id rest => cases h
  | arrived op path mp cur id rest => cases h
  | _ => trivial

theorem planAt_tail (hT : VFS.Tree s.mounts) {pc : Pc} (h : pc.tail) : (s.planAt t g pc).2.tail := by
  cases pc with
  | find op path =>
      show (s.planFind op path).2.tail
      unfold Sys.planFind
      split
      · rename_i hf
        exact advance_tail hT hf
      · trivial
  | root op path mp rest =>
      show (s.planRoot op path mp rest).tail
      unfold Sys.planRoot
      split_ifs with hr
      · trivial
      · exact ⟨hr, Or.resolve_left h hr⟩
  | walk op path mp cur rest =>
      show (s.planWalk t op path mp cur rest).tail
      unfold Sys.planWalk
      split_ifs
      · trivial
      · trivial
      · exact h
  | search op path mp cur rest =>
      show (s.locked mp cur (.search op path mp cur rest) (.none, s.planSearch op path mp cur rest)).2.tail
      unfold Sys.locked
      split_ifs
      · exact h
      · show (s.planSearch op path mp cur rest).tail
        unfold Sys.planSearch
        split
        · rename_i hf
          obtain ⟨e, -, -, hw⟩ := findEntry_spec hf
          rcases pathWalk_iff.mp hw with ⟨-, hr⟩ | hr
          · exact Or.inl hr
          · exact Or.inr (h.2.next hr)
        · split_ifs <;> trivial
  | entry op path mp cur id rest => exact h
  | arrived op path mp cur id rest =>
      show (s.planArrived op path mp cur id rest).2.tail
      unfold Sys.planArrived
      split_ifs with h1 h2 h3 h4
      · trivial
      · trivial
      · trivial
      · trivial
      · exact ⟨h4, Or.resolve_left h h4⟩
  | _ => exact tail_of_rests (planAt_rests rfl fun op path hx => by cases hx)

theorem aim_op {pc : Pc} {x : List Char × Nat × Nat × Nat} (h : pc.aim = some x) : pc.op = some .delete := by
  unfold Pc.aim at h
  split at h
  all_goals first
    | rfl
    | cases h

/-- **Where an aim comes from**: it was there before, or the search has just found it. -/
theorem planAt_aim {pc : Pc} {x : List Char × Nat × Nat × Nat} (h : (s.planAt t g pc).2.aim = some x) :
    pc.aim = some x ∨ ∃ path mp cur id rest, pc = .search .delete path mp cur rest ∧ x = (path, mp, cur, id) ∧
      findEntry rest (s.node mp cur).cachedDir = some (id, []) := by
  have hop : pc.op = some .delete := by
    have hop' := aim_op h
    rcases planAt_op s t g pc with he | ⟨path, mp, id, -, he⟩
    · rw [← he]
      exact hop'
    · rw [he] at hop'
      cases hop'
  cases pc with
  | idle => cases h
  | find op path =>
      change (s.planFind op path).2.aim = _ at h
      unfold Sys.planFind at h
      split at h <;> cases h
  | root op path mp rest =>
      cases hop
      change (s.planRoot .delete path mp rest).aim = _ at h
      unfold Sys.planRoot at h
      split_ifs at h <;> cases h
  | walk op path mp cur rest =>
      change (s.planWalk t op path mp cur rest).aim = _ at h
      unfold Sys.planWalk at h
      split_ifs at h <;> cases h
  | search op path mp cur rest =>
      cases hop
      change (s.locked mp cur (.search .delete path mp cur rest)
          (.none, s.planSearch .delete path mp cur rest)).2.aim = _ at h
      unfold Sys.locked at h
      split_ifs at h
      · cases h
      · change (s.planSearch .delete path mp cur rest).aim = _ at h
        unfold Sys.planSearch at h
        split at h
        · rename_i id rest' hf
          cases rest' with
          | nil =>
              cases h
              exact Or.inr ⟨path, mp, cur, id, rest, rfl, rfl, hf⟩
          | cons c rest' => cases h
        · split_ifs at h <;> cases h
  | entry op path mp cur id rest =>
      cases hop
      left
      cases rest with
      | nil => exact h
      | cons c rest => cases h
  | arrived op path mp cur id rest =>
      cases hop
      left
      change (s.planArrived .delete path mp cur id rest).2.aim = _ at h
      unfold Sys.planArrived at h
      split_ifs at h with h1 h2 h3 h4
      · rw [h1.2]
        exact h
      · cases h
      · cases h
      · rw [h4]
        exact h
      · cases h
  | relink op path todo => cases todo <;> cases h
  | done op path mp node parent rest =>
      cases hop
      left
      change (s.planDelete t path mp node parent rest).aim = _ at h
      unfold Sys.planDelete at h
      split at h
      · cases h
      · split_ifs at h
        · cases h
        · exact h
        · exact h
      · cases h
  | make op mp parent name =>
      cases hop
      cases h
  | insert op mp parent id name =>
      cases hop
      change (s.locked mp parent (.insert .delete mp parent id name) _).2.aim = _ at h
      unfold Sys.locked at h
      split_ifs at h <;> cases h
  | leaveFolder mode mp id parent => cases h
  | opened mode mp id => cases hop
  | lookAt op mp id =>
      cases hop
      cases h
  | listing mp id n writable => cases hop
  | checkEmpty path mp id parent =>
      left
      change (s.locked mp id (.checkEmpty path mp id parent) (.none, s.planCheckEmpty path mp id parent)).2.aim = _ at h
      unfold Sys.locked at h
      split_ifs at h
      · exact h
      · change (s.planCheckEmpty path mp id parent).aim = _ at h
        unfold Sys.planCheckEmpty at h
        split_ifs at h
        · cases h
        · exact h
  | remove path mp id parent =>
      left
      change (s.locked mp parent (.remove path mp id parent) (s.planRemove path mp id parent)).2.aim = _ at h
      unfold Sys.locked at h
      split_ifs at h
      · exact h
      · obtain ⟨i, e, -, -, -, hr⟩ | ⟨-, hr⟩ := planRemove_cases s path mp id parent
        · rw [hr] at h
          cases h
        · rw [hr] at h
          cases h
  | unlink mp id parent => cases h
  | cleanup op todo after => cases todo <;> cases h
  | returned op res => cases h

/-- A `Delete` holds the folder. -/
theorem aim_owed {pc : Pc} {id : Nat} (h : pc.aim = some (path, mp, p, id)) : Ref.node mp p ∈ pc.owed := by
  unfold Pc.aim at h
  split at h
  · cases h
    simp [Pc.owed]
  · cases h
    simp [Pc.owed]
  · cases h
    simp [Pc.owed]
  · cases h
    simp [Pc.owed]
  · cases h
    simp [Pc.owed]
  · cases h

end Plans

/-! ## 3. The invariant -/

/-- **Names are different and proper**, a `Delete` aims at its own entry, and a missed name is free. -/
structure Named (s : Sys) : Prop where
  mounts : VFS.Tree s.mounts
  names : ∀ mp dir, s.alive mp dir = true →
    (names (s.node mp dir).cachedDir).Nodup ∧ ∀ name ∈ names (s.node mp dir).cachedDir, ProperName name
  tail : ∀ t, (s.thread t).pc.tail
  aim : ∀ t path mp p id, (s.thread t).pc.aim = some (path, mp, p, id) →
    ∀ e ∈ (s.node mp p).cachedDir, getFileName path = e.name → e.nodeID = id
  free : ∀ t mp p name, (s.thread t).pc.missed = some (mp, p, name) →
    name ∉ Lookup.names (s.node mp p).cachedDir ∧ ProperName name

/-- **The condition on an insertion**: the name fits, and no other thread is going to insert or to remove the
    same name in the folder. The mount points stay a tree. -/
def sharp (s : Sys) : Event → Prop
  | .run t _ => ∀ op mp p id name, (s.thread t).pc = .insert op mp p id name → name.length ≤ 49 ∧ ∀ u, u ≠ t →
      (s.thread u).pc.missed ≠ some (mp, p, name) ∧
        ∀ path i, (s.thread u).pc.aim = some (path, mp, p, i) → getFileName path ≠ name
  | .remount mounts => VFS.Tree mounts
  | _ => True

section Steps

variable {s : Sys} {t : Nat} {g : Garbage} {mp dir id p : Nat} {path rest name : List Char} {e : Effect}

theorem plain_dirAt (he : e.plain = true) : e.dirAt s mp dir = (s.node mp dir).cachedDir := by
  cases e with
  | make m node => cases he
  | addEntry m i name d => cases he
  | removeEntry m i d => cases he
  | _ => rfl

/-- **What a step does to a directory.** -/
theorem next_dir (hfit : ∀ op mp p id name, (s.thread t).pc = .insert op mp p id name → name.length ≤ 49)
    (ha : (s.next t g).alive mp dir = true) :
    (((s.next t g).node mp dir).cachedDir.Sublist (s.node mp dir).cachedDir ∧ s.alive mp dir = true) ∨
    (∃ op id name, (s.thread t).pc = .insert op mp dir id name ∧ (s.plan t g).2 = Sys.afterInsert mp dir id op ∧
      ((s.next t g).node mp dir).cachedDir = (s.node mp dir).cachedDir ++ [⟨name, id⟩] ∧ s.alive mp dir = true) ∨
    (((s.next t g).node mp dir).cachedDir = [] ∧ dir = s.nextID mp) := by
  have hdir : ((s.next t g).node mp dir).cachedDir = (s.plan t g).1.dirAt s mp dir := perform_dir ha
  have halive := perform_alive ha
  have hstep : LinkStep s t g (s.thread t).pc (s.plan t g) := planAt_linkStep s t g _
  obtain ⟨q, hq⟩ : ∃ q, s.plan t g = q := ⟨_, rfl⟩
  rw [hq] at hdir halive hstep ⊢
  rw [hdir]
  generalize hpc : (s.thread t).pc = pc at hstep hfit
  cases hstep with
  | plain pc q he hp =>
      left
      rw [plain_dirAt he]
      refine ⟨List.Sublist.refl _, halive.resolve_right ?_⟩
      rintro ⟨node, hm, -⟩
      rw [hm] at he
      cases he
  | link m i p path rest => exact Or.inl ⟨List.Sublist.refl _, halive.resolve_right (by rintro ⟨node, hm, -⟩; cases hm)⟩
  | make op m p name node hn =>
      by_cases hx : mp = m ∧ dir = s.nextID m
      · obtain ⟨rfl, rfl⟩ := hx
        right; right
        exact ⟨(if_pos ⟨rfl, rfl⟩).trans (newNode_fields hn).2, rfl⟩
      · left
        have hsame : (Effect.make m node).dirAt s mp dir = (s.node mp dir).cachedDir := if_neg hx
        rw [hsame]
        refine ⟨List.Sublist.refl _, halive.resolve_right ?_⟩
        rintro ⟨node', hm, hid⟩
        cases hm
        exact hx ⟨rfl, hid⟩
  | insert op m p i name =>
      have hold : s.alive mp dir = true := halive.resolve_right (by rintro ⟨node, hm, -⟩; cases hm)
      by_cases hx : mp = m ∧ dir = p
      · obtain ⟨rfl, rfl⟩ := hx
        right; left
        refine ⟨op, i, name, rfl, rfl, ?_, hold⟩
        have hself : (Effect.addEntry mp dir name
            (Sys.insertEntry (s.node mp dir).cachedDir name i g.dir)).dirAt s mp dir =
            Sys.insertEntry (s.node mp dir).cachedDir name i g.dir := if_pos ⟨rfl, rfl⟩
        rw [hself, Sys.insertEntry, if_pos (hfit op mp dir i name rfl)]
      · left
        have hsame : (Effect.addEntry m p name (Sys.insertEntry (s.node m p).cachedDir name i g.dir)).dirAt s mp dir =
            (s.node mp dir).cachedDir := if_neg hx
        rw [hsame]
        exact ⟨List.Sublist.refl _, hold⟩
  | remove path m i p j e he hn =>
      have hold : s.alive mp dir = true := halive.resolve_right (by rintro ⟨node, hm, -⟩; cases hm)
      left
      refine ⟨?_, hold⟩
      by_cases hx : mp = m ∧ dir = p
      · obtain ⟨rfl, rfl⟩ := hx
        have hself : (Effect.removeEntry mp dir ((s.node mp dir).cachedDir.eraseIdx j)).dirAt s mp dir =
            (s.node mp dir).cachedDir.eraseIdx j := if_pos ⟨rfl, rfl⟩
        rw [hself]
        exact List.eraseIdx_sublist _ _
      · have hsame : (Effect.removeEntry m p ((s.node m p).cachedDir.eraseIdx j)).dirAt s mp dir =
            (s.node mp dir).cachedDir := if_neg hx
        rw [hsame]
  | unlink m i p => exact Or.inl ⟨List.Sublist.refl _, halive.resolve_right (by rintro ⟨node, hm, -⟩; cases hm)⟩

/-- An entry after a step was there before, or it is the one that the step has inserted. -/
theorem next_entry (hok : sharp s (.run t g)) (ha : (s.next t g).alive mp dir = true) {e : DirectoryEntry}
    (he : e ∈ ((s.next t g).node mp dir).cachedDir) :
    e ∈ (s.node mp dir).cachedDir ∨ ∃ op id name, (s.thread t).pc = .insert op mp dir id name ∧
      (s.plan t g).2 = Sys.afterInsert mp dir id op ∧ e.name = name := by
  rcases next_dir (fun op mp p id name h => (hok op mp p id name h).1) ha with
    ⟨hsub, -⟩ | ⟨op, id, name, hpc, hafter, hd, -⟩ | ⟨hd, -⟩
  · exact Or.inl (hsub.subset he)
  · rw [hd] at he
    rcases List.mem_append.mp he with he | he
    · exact Or.inl he
    · exact Or.inr ⟨op, id, name, hpc, hafter, congrArg DirectoryEntry.name (List.mem_singleton.mp he)⟩
  · rw [hd] at he
    cases he

theorem afterInsert_aim {op : Op} : (Sys.afterInsert mp p id op).aim = none := by
  cases op <;> rfl

/-- **The search finds the entry of the name.** -/
theorem found_aim (hn : (names (s.node mp dir).cachedDir).Nodup)
    (hp : ∀ name ∈ names (s.node mp dir).cachedDir, ProperName name) (ht : Tail path rest)
    (hf : findEntry rest (s.node mp dir).cachedDir = some (id, [])) {e : DirectoryEntry}
    (he : e ∈ (s.node mp dir).cachedDir) (hname : getFileName path = e.name) : e.nodeID = id := by
  obtain ⟨e', he', hid, hw⟩ := findEntry_spec hf
  have hproper : ∀ {x : DirectoryEntry}, x ∈ (s.node mp dir).cachedDir → ProperName x.name :=
    fun hx => hp _ (List.mem_map_of_mem hx)
  rw [getFileName_tail ht] at hname
  rcases pathWalk_iff.mp hw with ⟨rfl, -⟩ | rfl
  · rw [getFileName_of_not_mem (hproper he').2] at hname
    rw [← hid, List.inj_on_of_nodup_map hn he he' hname.symm]
  · -- nothing is behind the slash
    rw [getFileName_slash] at hname
    exact absurd hname.symm (hproper he).1

/-- **The step of a thread.** -/
theorem Named.run (h : Named s) (hC : Counted s) (hC' : Counted (s.next t g)) (hok : sharp s (.run t g)) :
    Named (s.next t g) where
  mounts := next_tree s t g h.mounts
  names := fun mp dir ha => by
    rcases next_dir (fun op mp p id name h => (hok op mp p id name h).1) ha with
      ⟨hsub, hold⟩ | ⟨op, id, name, hpc, -, hd, hold⟩ | ⟨hd, -⟩
    · obtain ⟨hnd, hp⟩ := h.names mp dir hold
      have hsub' := hsub.map DirectoryEntry.name
      exact ⟨hnd.sublist hsub', fun name hm => hp name (hsub'.subset hm)⟩
    · obtain ⟨hnd, hp⟩ := h.names mp dir hold
      obtain ⟨hfree, hproper⟩ := h.free t mp dir name (by rw [hpc]; rfl)
      rw [hd, Lookup.names, List.map_append]
      refine ⟨hnd.append (List.nodup_singleton _) (by simpa using hfree), fun n hm => ?_⟩
      rcases List.mem_append.mp hm with hm | hm
      · exact hp n hm
      · rw [List.mem_singleton.mp hm]
        exact hproper
    · rw [hd]
      exact ⟨List.nodup_nil, fun name hm => by cases hm⟩
  tail := fun u => by
    by_cases hu : u = t
    · subst hu
      rw [next_self]
      exact planAt_tail h.mounts (h.tail u)
    · rw [next_other s g hu]
      exact h.tail u
  aim := fun u path mp p id hpc e he hname => by
    have ha := hC'.owed_alive (aim_owed hpc)
    rcases next_entry hok ha he with hold | ⟨op, i, name, hins, hafter, hnew⟩
    · by_cases hu : u = t
      · subst hu
        rw [next_self] at hpc
        rcases planAt_aim hpc with haim | ⟨path', mp', cur, id', rest, hsearch, heq, hf⟩
        · exact h.aim u path mp p id haim e hold hname
        · cases heq
          have hcur : s.alive mp p = true := hC.owed_alive (t := u) (by rw [hsearch]; exact List.mem_cons_self)
          obtain ⟨hnd, hp⟩ := h.names mp p hcur
          have htail := h.tail u
          rw [hsearch] at htail
          exact found_aim hnd hp htail.2 hf hold hname
      · rw [next_other s g hu] at hpc
        exact h.aim u path mp p id hpc e hold hname
    · by_cases hu : u = t
      · subst hu
        rw [next_self] at hpc
        have hnone : ((s.plan u g).2).aim = some (path, mp, p, id) := hpc
        rw [hafter, afterInsert_aim] at hnone
        cases hnone
      · rw [next_other s g hu] at hpc
        exact absurd (hname.trans hnew) (((hok op mp p i name hins).2 u hu).2 path id hpc)
  free := fun u mp p name hpc => by
    have ha := hC'.owed_alive (missed_owed hpc)
    constructor
    · intro hm
      obtain ⟨e, he, rfl⟩ := List.mem_map.mp hm
      rcases next_entry hok ha he with hold | ⟨op, i, name, hins, hafter, rfl⟩
      · by_cases hu : u = t
        · subst hu
          rw [next_self] at hpc
          rcases planAt_missed hpc with hmiss | ⟨hout, -⟩
          · exact (h.free u mp p _ hmiss).1 (List.mem_map_of_mem hold)
          · exact hout (List.mem_map_of_mem hold)
        · rw [next_other s g hu] at hpc
          exact (h.free u mp p _ hpc).1 (List.mem_map_of_mem hold)
      · by_cases hu : u = t
        · subst hu
          rw [next_self] at hpc
          have hnone : ((s.plan u g).2).missed = some (mp, p, e.name) := hpc
          rw [hafter, afterInsert_plain.1] at hnone
          cases hnone
        · rw [next_other s g hu] at hpc
          exact ((hok op mp p i e.name hins).2 u hu).1 hpc
    · by_cases hu : u = t
      · subst hu
        rw [next_self] at hpc
        rcases planAt_missed hpc with hmiss | ⟨-, -, hlast, op, path, hsearch⟩
        · exact (h.free u mp p name hmiss).2
        · have htail := h.tail u
          rw [hsearch] at htail
          exact ⟨htail.1, of_decide_eq_true hlast⟩
      · rw [next_other s g hu] at hpc
        exact (h.free u mp p name hpc).2

/-- **The removal of `Delete` takes an entry of the node that it has found.** -/
theorem Named.careful {ev : Event} (h : Named s) (hok : sharp s ev) (hs : spares s ev) : careful s ev := by
  cases ev with
  | run t g =>
      refine ⟨fun op mp p id name hpc => (hok op mp p id name hpc).1, fun path mp id p hpc => ?_, hs⟩
      exact h.aim t path mp p id (by rw [hpc]; rfl)
  | _ => trivial

/-- A step at the border of a call. -/
theorem Named.goto {s' : Sys} {th : Thread} (h : Named s) (hm : s'.mounts = s.mounts) (ha : s'.alive = s.alive)
    (hd : ∀ mp id, (s'.node mp id).cachedDir = (s.node mp id).cachedDir)
    (hth : s'.thread = Function.update s.thread t th) (htail : th.pc.tail) (haim : th.pc.aim = none)
    (hmiss : th.pc.missed = none) : Named s' := by
  have hcase : ∀ u, s'.thread u = th ∨ s'.thread u = s.thread u := by
    intro u
    rw [hth, Function.update_apply]
    split_ifs
    · exact Or.inl rfl
    · exact Or.inr rfl
  refine ⟨hm ▸ h.mounts, fun mp dir hal => ?_, fun u => ?_, fun u path mp p id hpc => ?_, fun u mp p name hpc => ?_⟩
  · rw [hd]
    exact h.names mp dir (ha ▸ hal)
  · rcases hcase u with he | he <;> rw [he]
    · exact htail
    · exact h.tail u
  · rw [hd]
    rcases hcase u with he | he
    · rw [he, haim] at hpc
      cases hpc
    · exact h.aim u path mp p id (he ▸ hpc)
  · rw [hd]
    rcases hcase u with he | he
    · rw [he, hmiss] at hpc
      cases hpc
    · exact h.free u mp p name (he ▸ hpc)

/-- The threads and directories stay as they are. -/
theorem Named.same {s' : Sys} (h : Named s) (hm : VFS.Tree s'.mounts) (ha : s'.alive = s.alive)
    (hd : ∀ mp id, (s'.node mp id).cachedDir = (s.node mp id).cachedDir) (hth : s'.thread = s.thread) : Named s' := by
  refine ⟨hm, fun mp dir hal => ?_, fun u => hth ▸ h.tail u, fun u path mp p id hpc => ?_, fun u mp p name hpc => ?_⟩
  · rw [hd]
    exact h.names mp dir (ha ▸ hal)
  · rw [hd]
    exact h.aim u path mp p id (hth ▸ hpc)
  · rw [hd]
    exact h.free u mp p name (hth ▸ hpc)

/-- **The step.** -/
theorem named_step {s' : Sys} {ev : Event} (h : Named s) (hC : Counted s) (hC' : Counted s')
    (hs : sysStep s ev s') (hok : sharp s ev) : Named s' := by
  cases hs with
  | start t op path ht hop => exact h.goto rfl rfl (fun _ _ => rfl) rfl trivial rfl rfl
  | refuse t op res ht hop hres => exact h.goto rfl rfl (fun _ _ => rfl) rfl trivial rfl rfl
  | run t g => exact h.run hC hC' hok
  | leave t op res ht => exact h.goto rfl rfl (fun _ _ => rfl) rfl trivial rfl rfl
  | addRef i d hd => exact h.same h.mounts rfl (fun _ _ => rfl) rfl
  | closeShared t i d ht hd hr => exact h.same h.mounts rfl (fun _ _ => rfl) rfl
  | closeLast t i d ht hd hr => exact h.goto rfl rfl (fun _ _ => rfl) rfl trivial rfl rfl
  | write i pos buffer bufferSize d hd hw htype =>
      exact h.same h.mounts rfl (fun mp id => setNode_dir_same rfl) rfl
  | remount mounts => exact h.same hok rfl (fun _ _ => rfl) rfl

end Steps

end Lookup

end SimpleOS2
