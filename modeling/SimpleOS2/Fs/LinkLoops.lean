/-
  File:      SimpleOS2/Fs/LinkLoops.lean
  Subject:   LINKS THAT LEAD IN CIRCLES (AcquirePath of fs/VFS.cpp).

  The loop of `AcquirePath` ends with a node, with an error, or where the path has become too long.

  * `linkStep` -- one turn: the path it starts with and the one it puts into the buffer;
  * `lookup_total` -- each turn ends by itself;
  * `Cycle` -- links lead from a path back to it; `onlyShort` -- the paths the links lead to are finitely many;
  * `links_end_iff`, `links_circle` -- the loop ends exactly where no path on the way is on a cycle, and a link to
    itself that a create call has made.
-/
import Mathlib.Data.Set.Finite.List
import SimpleOS2.Fs.LinkTargets
import SimpleOS2.Fs.SymLinks
import SimpleOS2.Fs.Traversal
import SimpleOS2.Lib.Progress

namespace SimpleOS2

open Lib Relation

namespace SymLinks

open VFS Lookup

/-! ## 1. One turn -/

/-- A turn of the loop that puts `path'` into the buffer. -/
def linkStep (s : Lookup.Sys) (rq : Request) (path path' : List Char) : Prop :=
  ∃ target rest, linkOf s rq path = some (target, rest) ∧ target.length + rest.length + 2 ≤ 255 ∧
    linkedPath target rest = path'

/-- Links lead from the path back to it. -/
def Cycle (s : Lookup.Sys) (rq : Request) (path : List Char) : Prop :=
  ∃ path', linkStep s rq path path' ∧ Leads s rq path' path

section Turns

variable {s : Lookup.Sys} {rq : Request} {mp : Nat} {path path' : List Char}

theorem findEntry_length {dir : List DirectoryEntry} {id : Nat} {rest : List Char}
    (h : findEntry path dir = some (id, rest)) (hne : path ≠ []) : rest.length < path.length := by
  induction dir with
  | nil => cases h
  | cons e dir ih =>
      rw [findEntry] at h
      split at h
      · rename_i hw
        cases h
        exact pathWalk_length hw hne
      · exact ih h

/-- The loop of `_AcquirePathRec` takes a character in each turn. -/
theorem recLoop_total (fuel cur : Nat) (rest : List Char) (hne : rest ≠ []) (hf : rest.length ≤ fuel) :
    ∃ r, recLoop s rq mp fuel cur rest = some r := by
  induction fuel generalizing cur rest with
  | zero => exact absurd (List.length_eq_zero_iff.mp (Nat.le_zero.mp hf)) hne
  | succ fuel ih =>
      rw [recLoop]
      by_cases hdir : (s.node mp cur).type ≠ .directory
      · rw [if_pos hdir]
        exact ⟨_, rfl⟩
      rw [if_neg hdir]
      by_cases hperm : checkPermissions rq.uid rq.gid (s.node mp cur) permExecute = false
      · rw [if_pos hperm]
        exact ⟨_, rfl⟩
      rw [if_neg hperm]
      cases hfound : findEntry rest (s.node mp cur).cachedDir with
      | none =>
          dsimp only
          split_ifs <;> exact ⟨_, rfl⟩
      | some found =>
          obtain ⟨id, rest'⟩ := found
          dsimp only
          split_ifs with h1 h2 h3
          · exact ⟨_, rfl⟩
          · exact ⟨_, rfl⟩
          · exact ⟨_, rfl⟩
          · have hlen := findEntry_length hfound hne
            exact ih id rest' h3 (by omega)

/-- **A lookup ends.** -/
theorem lookup_total (hT : Tree s.mounts) (path : List Char) : ∃ r, lookup s rq path = some r := by
  obtain ⟨mp, hmp, -⟩ := find_spec hT path
  obtain ⟨rest, hrest⟩ : ∃ rest, advancePath path (s.mounts.mp mp).path = rest := ⟨_, rfl⟩
  have hrec : ∃ r, acquirePathRec s rq mp rest = some r := by
    rw [acquirePathRec]
    by_cases hr : rest = []
    · rw [if_pos hr]
      exact ⟨_, rfl⟩
    · rw [if_neg hr]
      exact recLoop_total _ _ rest hr le_rfl
  obtain ⟨r, hr⟩ := hrec
  refine ⟨(mp, r), ?_⟩
  rw [lookup, hmp]
  show (do let r ← acquirePathRec s rq mp (advancePath path (s.mounts.mp mp).path); return (mp, r)) = _
  rw [hrest, hr]
  rfl

theorem linkStep_det {path'' : List Char} (h : linkStep s rq path path') (h' : linkStep s rq path path'') :
    path' = path'' := by
  obtain ⟨target, rest, hl, -, rfl⟩ := h
  obtain ⟨target', rest', hl', -, rfl⟩ := h'
  rw [hl] at hl'
  cases hl'
  rfl

/-- A turn puts a path of at most 254 characters into the buffer. -/
theorem linkStep_length (h : linkStep s rq path path') : path'.length < 255 := by
  obtain ⟨target, rest, -, hfit, rfl⟩ := h
  unfold linkedPath
  split_ifs with hr
  · omega
  · rw [List.length_append, List.length_cons]
    omega

theorem acquirePath_step (h : linkStep s rq path path') (n : Nat) :
    acquirePath s rq (n + 1) path = acquirePath s rq n path' := by
  obtain ⟨target, rest, hl, hfit, rfl⟩ := h
  exact acquirePath_link hl hfit n

/-- Where there is no further turn, the loop has ended. -/
theorem acquirePath_last (hT : Tree s.mounts) (h : ∀ path', ¬ linkStep s rq path path') :
    ∃ r, ∀ n, acquirePath s rq (n + 1) path = some r := by
  have hends : ∃ r, lookup s rq path = some r := lookup_total hT path
  obtain ⟨⟨mp, r⟩, hr⟩ := hends
  cases r with
  | ok node parent rest => exact ⟨_, fun n => by rw [acquirePath, hr]⟩
  | error res => exact ⟨_, fun n => by rw [acquirePath, hr]⟩
  | symlink id rest =>
      have hlink : linkOf s rq path = some ((s.node mp id).linkPath, rest) := by rw [linkOf, hr]
      have hlong : (s.node mp id).linkPath.length + rest.length + 2 > 255 := by
        by_contra hfit
        exact h _ ⟨_, _, hlink, by omega, rfl⟩
      refine ⟨.error ErrorPathTooLong, fun n => ?_⟩
      rw [acquirePath, hr]
      exact if_pos hlong

/-- The links lead to a path turn by turn. -/
theorem leads_iff : Leads s rq path path' ↔ ReflTransGen (linkStep s rq) path path' := by
  constructor
  · intro h
    induction h with
    | refl => exact .refl
    | link path' target rest _ hl hfit ih => exact ih.tail ⟨target, rest, hl, hfit, rfl⟩
  · intro h
    induction h with
    | refl => exact .refl
    | tail _ hs ih =>
        obtain ⟨target, rest, hl, hfit, rfl⟩ := hs
        exact .link _ target rest ih hl hfit

theorem cycle_iff : Cycle s rq path ↔ TransGen (linkStep s rq) path path := by
  rw [TransGen.head'_iff]
  exact exists_congr fun path' => and_congr_right fun _ => leads_iff

/-! ## 2. Whole loops -/

instance finiteChar : Finite Char := by
  have hlt : ∀ c : Char, c.toNat < 0x110000 := fun c => by
    rcases c.valid with h | ⟨-, h⟩
    · exact h.trans (by decide)
    · exact h
  exact Finite.of_injective (fun c : Char => (⟨c.toNat, hlt c⟩ : Fin 0x110000)) fun c d h =>
    Char.toNat_inj.mp (Fin.mk.inj h)

/-- The links of a path lead to finitely many paths. -/
theorem onlyShort (path : List Char) : {path' | ReflTransGen (linkStep s rq) path path'}.Finite := by
  refine ((List.finite_length_lt Char 255).insert path).subset fun path' h => ?_
  rcases ReflTransGen.cases_tail h with rfl | ⟨before, -, hs⟩
  · exact Set.mem_insert _ _
  · exact Set.mem_insert_of_mem _ (linkStep_length hs)

theorem acquirePath_acc (hT : Tree s.mounts) (h : Acc (flip (linkStep s rq)) path) :
    ∃ r, Halts (fun n => acquirePath s rq n path) r := by
  induction h with
  | intro path _ ih =>
      by_cases hs : ∃ path', linkStep s rq path path'
      · obtain ⟨path', hs⟩ := hs
        obtain ⟨r, hr⟩ := ih path' hs
        exact ⟨r, (Halts.succ_iff (acquirePath_step hs) r).mpr hr⟩
      · obtain ⟨r, hr⟩ := acquirePath_last hT fun path' h => hs ⟨path', h⟩
        refine ⟨r, 1, fun n hn => ?_⟩
        obtain ⟨n, rfl⟩ : ∃ k, n = k + 1 := ⟨n - 1, by omega⟩
        exact hr n

/-- On a cycle there is always a further turn. -/
theorem acquirePath_cycle (h : TransGen (linkStep s rq) path path) (n : Nat) : acquirePath s rq n path = none := by
  induction n generalizing path with
  | zero => rfl
  | succ n ih =>
      obtain ⟨path', hs, -⟩ := TransGen.head'_iff.mp h
      rw [acquirePath_step hs]
      exact ih (cycle_next linkStep_det hs h)

end Turns

/-! ## 3. Results -/

/-- **Symlink resolution terminates** exactly where the links lead to no path from which they lead back. -/
theorem links_end_iff {s : Lookup.Sys} (hT : Tree s.mounts) (rq : Request) (path : List Char) :
    (∃ r, Halts (fun n => acquirePath s rq n path) r) ↔ ∀ path', Leads s rq path path' → ¬ Cycle s rq path' := by
  constructor
  · intro hx path' hlead hcycle
    obtain ⟨r, hr⟩ := hx
    obtain ⟨N, hN⟩ := (acquirePath_leads hlead r).mp hr
    have hsome : acquirePath s rq N path' = some r := hN N le_rfl
    rw [acquirePath_cycle (cycle_iff.mp hcycle) N] at hsome
    cases hsome
  · intro h
    refine acquirePath_acc hT (acc_of_acyclic (onlyShort path) fun path' hlead hcycle => ?_)
    exact h path' (leads_iff.mpr hlead) (cycle_iff.mpr hcycle)

/-- `l` leads to the folder `a`, and from there nothing leads back. -/
theorem links_end_file : (∃ r, Halts (fun n => acquirePath (folders initMounts) asRoot n ['l', '/', 'f']) r) ∧
    ∀ path', Leads (folders initMounts) asRoot ['l', '/', 'f'] path' → ¬ Cycle (folders initMounts) asRoot path' := by
  have hends : ∃ r, Halts (fun n => acquirePath (folders initMounts) asRoot n ['l', '/', 'f']) r := by
    refine ⟨.ok ⟨0, some 5, some 1, []⟩, 2, fun n hn => ?_⟩
    obtain ⟨n, rfl⟩ : ∃ k, n = k + 2 := ⟨n - 2, by omega⟩
    rfl
  exact ⟨hends, (links_end_iff tree_init asRoot _).mp hends⟩

/-- **A link to itself**: after `CreateSymLink` of `l` with the target `l`, `AcquirePath` on `l` does not return. -/
theorem links_circle : ∃ s, Reach sysStep noLinks s ∧ (s.thread 0).pc = .returned (makeLink ['l']) OK ∧
    Tree s.mounts ∧ ¬ ∃ r, Halts (fun n => acquirePath s asRoot n ['l']) r := by
  refine ⟨linked ['l'], made_reach ['l'], rfl, tree_init, ?_⟩
  intro hx
  obtain ⟨r, N, hN⟩ := hx
  have hloop : ∀ n, acquirePath (linked ['l']) asRoot n ['l'] = none := by
    intro n
    induction n with
    | zero => rfl
    | succ n ih =>
        have hl : linkOf (linked ['l']) asRoot ['l'] = some (['l'], []) := by decide
        exact (acquirePath_link hl (by decide) n).trans ih
  have hsome : acquirePath (linked ['l']) asRoot N ['l'] = some r := hN N le_rfl
  rw [hloop N] at hsome
  cases hsome

end SymLinks

end SimpleOS2
