/-
  File:      SimpleOS2/Memory/Fork.lean
  Subject:   WHAT `ForkProcessMap` MAKES (memory/MemoryManager.cpp), with any allocator that hands out fresh pages.

  Three nested loops go through the tables of the current map. For each leaf the address is put together from the
  three indices, a page is copied and mapped there.

  * `forkProcessMapWith` -- the function, with the allocator as an argument;
  * `Separate` -- all pages of a map are pairwise distinct;
  * `Copied` -- a leaf of the new map is a copy of the leaf of the old one;
  * `Forked` -- where the loops stand, `forkPage_fresh` -- one page;
  * `fork_isolation` -- the new map is a copy that shares nothing with the old one.
-/
import SimpleOS2.Memory.PageTables

namespace SimpleOS2

open Lib FreeList

namespace MemoryManager

/-! ## 1. The function, with the allocator as an argument -/

def createProcessMapWith (alloc : Alloc) (s : Mm) : Option (Mm × Nat) :=
  (alloc s).map fun r => (zeroTable r.1 r.2, pmlEntry r.2)

def forkPageWith (alloc : Alloc) (new i j pml1 k : Nat) (s : Mm) : Option Mm :=
  let e := entry s.mem pml1 k
  if pmlGetP e then
    let virt := (k <<< 12) ||| (j <<< 21) ||| (i <<< 30)
    (alloc s).bind fun r =>
      mapProcessPageWith alloc (copyPage r.1 r.2 (pmlGetAddr e)) new r.2 virt
  else some s

/-- The two inner loops, the outer loop. -/
def forkTableWith (alloc : Alloc) (new i pml2 j : Nat) (s : Mm) : Option Mm :=
  let e := entry s.mem pml2 j
  if pmlGetP e then forLoop (forkPageWith alloc new i j (pmlGetAddr e)) 512 0 s else some s

def forkDirWith (alloc : Alloc) (new pml3 i : Nat) (s : Mm) : Option Mm :=
  let e := entry s.mem pml3 i
  if pmlGetP e then forLoop (forkTableWith alloc new i (pmlGetAddr e)) 512 0 s else some s

/-- `ForkProcessMap`. -/
def forkProcessMapWith (alloc : Alloc) (s : Mm) : Option (Mm × Nat) :=
  (createProcessMapWith alloc s).bind fun r =>
    (forLoop (forkDirWith alloc r.2 (pmlGetAddr r.1.pml4)) 512 0 r.1).map fun s => (s, r.2)

theorem forkProcessMap_alloc (fuel : Nat) (s : Mm) :
    forkProcessMap fuel s = forkProcessMapWith (fun s => allocatePages fuel s 1) s := rfl

/-! ## 2. Copies -/

/-- The table pages and frames are pairwise distinct. -/
def Separate (m : Mem) (root : Nat) : Prop :=
  ∀ π π' c, Path π → Path π' → π.length ≤ 3 → π'.length ≤ 3 →
    follow m π root = some c → follow m π' root = some c → π = π'

/-- The same 4096 bytes. -/
def SameContents (m : Mem) (f : Nat) (m' : Mem) (f' : Nat) : Prop :=
  ∀ o, o < 4096 → m' (physToKernelPtr f' + o) = m (physToKernelPtr f + o)

/-- A leaf of the new map is there if one of the old map is, with the same bytes. -/
def Copied (m : Mem) (root : Nat) (m' : Mem) (root' : Nat) (π : List Nat) : Prop :=
  (follow m π root = none ∧ follow m' π root' = none) ∨
    ∃ f f', follow m π root = some f ∧ follow m' π root' = some f' ∧ SameContents m f m' f'

section Copies

variable {s : Mm} {p f q : Nat}

theorem copyPage_contents (s : Mm) (p f : Nat) : SameContents s.mem f (copyPage s p f).mem p := by
  intro o ho
  have hin : physToKernelPtr p ≤ physToKernelPtr p + o ∧ physToKernelPtr p + o < physToKernelPtr p + 4096 := by
    omega
  unfold copyPage
  dsimp only
  rw [if_pos hin, Nat.add_sub_cancel_left, Nat.add_comm]

theorem samePage_copy (s : Mm) (f : Nat) (hp : 4096 ∣ p) (hq : 4096 ∣ q) (hne : q ≠ p) :
    SamePage s.mem (copyPage s p f).mem q := by
  intro a h1 h2
  refine if_neg fun h => hne ?_
  exact InPage.inj hq hp ⟨h1, h2⟩ h

theorem writesUsed_copy (s : Mm) (f : Nat) (used : Nat → Prop) (hp : used p) :
    WritesUsed used s.mem (copyPage s p f).mem := by
  intro a ha
  exact if_neg (ha p hp)

theorem SameContents.then {m m' m'' : Mem} (h : SameContents m f m' p) (hs : SamePage m' m'' p) :
    SameContents m f m'' p := by
  intro o ho
  rw [hs _ (by omega) (by omega)]
  exact h o ho

theorem SameContents.after {m m' m'' : Mem} (h : SameContents m' f m'' p) (hs : SamePage m m' f) :
    SameContents m f m'' p := by
  intro o ho
  rw [h o ho, hs _ (by omega) (by omega)]

end Copies

/-! ## 3. Where the loops stand -/

/-- The leaf at a position, and how many leaves a map has from a position on. -/
def posPath (n : Nat) : List Nat := [n / 512 / 512, n / 512 % 512, n % 512]

@[irreducible] def leavesFrom (m : Mem) (root n : Nat) : Nat :=
  ((Finset.range (512 ^ 3)).filter fun p => n ≤ p ∧ (follow m (posPath p) root).isSome = true).card

theorem posPath_leafPos {i j k : Nat} (hj : j < 512) (hk : k < 512) : posPath (leafPos i j k) = [i, j, k] := by
  unfold posPath leafPos
  rw [show ((i * 512 + j) * 512 + k) / 512 = i * 512 + j by omega, show (i * 512 + j) / 512 = i by omega,
    show (i * 512 + j) % 512 = j by omega, show ((i * 512 + j) * 512 + k) % 512 = k by omega]

theorem leavesFrom_le (m : Mem) (root : Nat) {n n' : Nat} (h : n ≤ n') :
    leavesFrom m root n' ≤ leavesFrom m root n := by
  unfold leavesFrom
  refine Finset.card_le_card fun p hp => ?_
  obtain ⟨h1, h2, h3⟩ := Finset.mem_filter.mp hp
  exact Finset.mem_filter.mpr ⟨h1, h.trans h2, h3⟩

theorem leavesFrom_bound (m : Mem) (root n : Nat) : leavesFrom m root n ≤ 512 ^ 3 := by
  unfold leavesFrom
  exact (Finset.card_filter_le _ _).trans (Nat.le_of_eq (Finset.card_range _))

theorem leavesFrom_lt {m : Mem} {root n : Nat} (hn : n < 512 ^ 3) (h : (follow m (posPath n) root).isSome = true) :
    leavesFrom m root (n + 1) < leavesFrom m root n := by
  unfold leavesFrom
  refine Finset.card_lt_card (Finset.ssubset_iff_subset_ne.mpr ⟨fun p hp => ?_, fun heq => ?_⟩)
  · obtain ⟨h1, h2, h3⟩ := Finset.mem_filter.mp hp
    exact Finset.mem_filter.mpr ⟨h1, (Nat.le_succ n).trans h2, h3⟩
  · have hmem : n ∈ (Finset.range (512 ^ 3)).filter fun p => n ≤ p ∧ (follow m (posPath p) root).isSome = true :=
      Finset.mem_filter.mpr ⟨Finset.mem_range.mpr hn, le_rfl, h⟩
    rw [← heq] at hmem
    exact absurd (Finset.mem_filter.mp hmem).2.1 (Nat.not_succ_le_self n)

/-- All leaves before the position `n` are copied, and none after it. -/
structure Forked (alloc : Alloc) (s₀ : Mm) (root root' n : Nat) (used : Nat → Prop) (s : Mm) : Prop where
  ready : Ready alloc root' (3 * leavesFrom s₀.mem root n) used s
  frames : ∀ π π' f, Path π → Path π' → π.length = 3 → π'.length = 3 →
    follow s.mem π root' = some f → follow s.mem π' root' = some f → π = π'
  parent : ∀ q, IsPage s₀.mem root q → used q ∧ SamePage s₀.mem s.mem q
  apart : ∀ q, IsPage s.mem root' q → ¬ IsPage s₀.mem root q
  copied : ∀ i j k, i < 512 → j < 512 → k < 512 → leafPos i j k < n →
    Copied s₀.mem root s.mem root' [i, j, k]
  later : ∀ i j k, i < 512 → j < 512 → k < 512 → n ≤ leafPos i j k → follow s.mem [i, j, k] root' = none

section Loops

variable {alloc : Alloc} {s₀ s : Mm} {root root' n : Nat} {used : Nat → Prop}

theorem leafPos_inj {i j k i' j' k' : Nat} (hj : j < 512) (hk : k < 512) (hj' : j' < 512) (hk' : k' < 512)
    (h : leafPos i j k = leafPos i' j' k') : i = i' ∧ j = j' ∧ k = k' := by
  unfold leafPos at h
  omega

theorem path_three {i j k : Nat} (hi : i < 512) (hj : j < 512) (hk : k < 512) : Path [i, j, k] := by
  intro x hx
  simp only [List.mem_cons, List.not_mem_nil, or_false] at hx
  omega

/-- The parent reads as at the start. -/
theorem Forked.entry (h : Forked alloc s₀ root root' n used s) {t i : Nat} (ht : IsPage s₀.mem root t) (hi : i < 512) :
    entry s.mem t i = entry s₀.mem t i :=
  (h.parent t ht).2.entry hi

/-- Leaves that are not in the old map are skipped. -/
theorem Forked.skip (h : Forked alloc s₀ root root' n used s) {n' : Nat} (hn : n ≤ n')
    (hnone : ∀ i j k, i < 512 → j < 512 → k < 512 → n ≤ leafPos i j k → leafPos i j k < n' →
      follow s₀.mem [i, j, k] root = none) : Forked alloc s₀ root root' n' used s where
  ready := ⟨h.ready.wf, h.ready.aligned, h.ready.pages,
    h.ready.supplies.mono (Nat.mul_le_mul_left 3 (leavesFrom_le _ _ hn))⟩
  frames := h.frames
  parent := h.parent
  apart := h.apart
  copied := by
    intro i j k hi hj hk hlt
    by_cases hlt' : leafPos i j k < n
    · exact h.copied i j k hi hj hk hlt'
    · exact Or.inl ⟨hnone i j k hi hj hk (by omega) hlt, h.later i j k hi hj hk (by omega)⟩
  later := fun i j k hi hj hk hle => h.later i j k hi hj hk (by omega)

/-- The page `f` of the old map also stands on the fresh page `p`, and nothing else has changed. -/
structure PageCopied (alloc : Alloc) (s₀ : Mm) (root root' n : Nat) (used : Nat → Prop) (s s' : Mm) (f p : Nat) :
    Prop where
  page : 4096 ∣ p ∧ p < 2 ^ 52
  fresh : ¬ used p
  ready : Ready alloc root' (3 * leavesFrom s₀.mem root (n + 1) + 2) (fun q => used q ∨ q = p) s'
  noTable : ¬ IsTable s'.mem root' p
  same : ∀ q, used q → SamePage s.mem s'.mem q
  contents : SameContents s₀.mem f s'.mem p
  paths : ∀ π, Path π → π.length ≤ 3 → follow s'.mem π root' = follow s.mem π root'

/-- The copy, before it is mapped. -/
theorem Forked.copy (h : Forked alloc s₀ root root' n used s) {i j k f : Nat} (hi : i < 512) (hj : j < 512)
    (hk : k < 512) (hn : n = leafPos i j k) (hf : follow s₀.mem [i, j, k] root = some f) :
    ∃ s1 p, alloc s = some (s1, p) ∧ PageCopied alloc s₀ root root' n used s (copyPage s1 p f) f p := by
  have hpos : n < 512 ^ 3 := by
    rw [hn]
    unfold leafPos
    omega
  have hcount : 3 * leavesFrom s₀.mem root (n + 1) + 2 + 1 ≤ 3 * leavesFrom s₀.mem root n := by
    have hsome : (follow s₀.mem (posPath n) root).isSome = true := by
      rw [hn, posPath_leafPos hj hk, hf]
      rfl
    have := leavesFrom_lt hpos hsome
    omega
  obtain ⟨s1, p, halloc, hpd, hp52, hpu, hpml, hsame1, hsup1⟩ := (h.ready.supplies.mono hcount).page
  have hfp : IsPage s₀.mem root f := ⟨[i, j, k], path_three hi hj hk, le_rfl, hf⟩
  have hsame : ∀ q, used q → SamePage s.mem (copyPage s1 p f).mem q := by
    intro q hq a h1 h2
    have hqp : q ≠ p := fun heq => hpu (heq ▸ hq)
    exact (samePage_copy s1 f hpd (h.ready.aligned q hq) hqp a h1 h2).trans (hsame1 q hq a h1 h2)
  have hfol : ∀ π, Path π → π.length ≤ 3 →
      follow (copyPage s1 p f).mem π root' = follow s.mem π root' :=
    fun π hπ hl => follow_same (fun q hq => hsame q (h.ready.pages q hq.page)) hπ hl
  have hpage : ∀ q, IsPage (copyPage s1 p f).mem root' q → IsPage s.mem root' q := by
    intro q hx
    obtain ⟨π, hπ, hl, hq⟩ := hx
    exact ⟨π, hπ, hl, hfol π hπ hl ▸ hq⟩
  refine ⟨s1, p, halloc, ⟨hpd, hp52⟩, hpu,
    ⟨h.ready.wf.congr hfol, ?_, fun q hq => Or.inl (h.ready.pages q (hpage q hq)),
    hsup1.write (writesUsed_copy s1 f (fun q => used q ∨ q = p) (Or.inr rfl)) (copyPage_fields s1 p f)⟩,
    fun ht => hpu (h.ready.pages p (hpage p ht.page)), hsame, ?_, hfol⟩
  · intro q hx
    rcases hx with hq | rfl
    · exact h.ready.aligned q hq
    · exact hpd
  · exact ((copyPage_contents s1 p f).after (hsame1 f (h.parent f hfp).1)).after (h.parent f hfp).2

section Link

variable {s2 s3 : Mm} {used3 : Nat → Prop} {virt i j k f p q : Nat}

theorem PageCopied.isPage (hc : PageCopied alloc s₀ root root' n used s s2 f p) (h : IsPage s2.mem root' q) :
    IsPage s.mem root' q := by
  obtain ⟨π, hπ, hl, hq⟩ := h
  exact ⟨π, hπ, hl, hc.paths π hπ hl ▸ hq⟩

/-- The other leaves lead where they led before the copy, -/
theorem PageCopied.other (hc : PageCopied alloc s₀ root root' n used s s2 f p)
    (hm : MapsOne root' virt p (fun q => used q ∨ q = p) used3 s2 s3) {π : List Nat} (hπ : Path π)
    (hl : π.length = 3) (hne : π ≠ leafPath virt) : follow s3.mem π root' = follow s.mem π root' :=
  (hm.other π hπ hl hne).trans (hc.paths π hπ (by omega))

/-- and a page that is no table of the new map has its bytes. -/
theorem PageCopied.samePage (hc : PageCopied alloc s₀ root root' n used s s2 f p)
    (hm : MapsOne root' virt p (fun q => used q ∨ q = p) used3 s2 s3) (hq : used q) (ht : ¬ IsTable s2.mem root' q) :
    SamePage s.mem s3.mem q := fun a h1 h2 =>
  (hm.same q (Or.inl hq) ht a h1 h2).trans (hc.same q hq a h1 h2)

/-- The fresh page is a frame of the new leaf only. -/
theorem PageCopied.frames (h : Forked alloc s₀ root root' n used s)
    (hc : PageCopied alloc s₀ root root' n used s s2 f p)
    (hm : MapsOne root' virt p (fun q => used q ∨ q = p) used3 s2 s3) {π π' : List Nat} {d : Nat} (hπ : Path π)
    (hπ' : Path π') (hl : π.length = 3) (hl' : π'.length = 3) (h1 : follow s3.mem π root' = some d)
    (h2 : follow s3.mem π' root' = some d) : π = π' := by
  have hnew : ∀ π d, Path π → π.length = 3 → follow s3.mem π root' = some d →
      (π = leafPath virt ∧ d = p) ∨ (follow s.mem π root' = some d ∧ d ≠ p) := by
    intro π d hπ hl hd
    by_cases heq : π = leafPath virt
    · rw [heq] at hd
      exact Or.inl ⟨heq, Option.some.inj (hd.symm.trans hm.here)⟩
    · rw [hc.other hm hπ hl heq] at hd
      exact Or.inr ⟨hd, fun hdp => hc.fresh (hdp ▸ h.ready.pages d ⟨π, hπ, by omega, hd⟩)⟩
  rcases hnew π d hπ hl h1 with ⟨o1, o2⟩ | ⟨o1, o2⟩
  · rcases hnew π' d hπ' hl' h2 with ⟨o3, -⟩ | ⟨-, o4⟩
    · rw [o1, o3]
    · exact absurd o2 o4
  · rcases hnew π' d hπ' hl' h2 with ⟨-, o4⟩ | ⟨o3, -⟩
    · exact absurd o4 o2
    · exact h.frames π π' d hπ hπ' hl hl' o1 o3

/-- No page of the old map becomes one of the new map. -/
theorem PageCopied.apart (h : Forked alloc s₀ root root' n used s)
    (hc : PageCopied alloc s₀ root root' n used s s2 f p)
    (hm : MapsOne root' virt p (fun q => used q ∨ q = p) used3 s2 s3) (hx : IsPage s3.mem root' q) :
    ¬ IsPage s₀.mem root q := by
  intro hpar
  obtain ⟨π, hπ, hl, hq⟩ := hx
  by_cases hl3 : π.length = 3
  · by_cases heq : π = leafPath virt
    · rw [heq] at hq
      exact hc.fresh (Option.some.inj (hq.symm.trans hm.here) ▸ (h.parent q hpar).1)
    · rw [hc.other hm hπ hl3 heq] at hq
      exact h.apart q ⟨π, hπ, hl, hq⟩ hpar
  · rcases hm.tables q ⟨π, hπ, by omega, hq⟩ with ht | ht
    · exact h.apart q (hc.isPage ht.page) hpar
    · exact ht (Or.inl (h.parent q hpar).1)

/-- A leaf that was copied before is still a copy. -/
theorem PageCopied.copied (h : Forked alloc s₀ root root' n used s)
    (hc : PageCopied alloc s₀ root root' n used s s2 f p)
    (hm : MapsOne root' virt p (fun q => used q ∨ q = p) used3 s2 s3) {π : List Nat} (hπ : Path π)
    (hl : π.length = 3) (hne : π ≠ leafPath virt) (hold : Copied s₀.mem root s.mem root' π) :
    Copied s₀.mem root s3.mem root' π := by
  have hfol := hc.other hm hπ hl hne
  rcases hold with ⟨h1, h2⟩ | ⟨g, g', h1, h2, h3⟩
  · exact Or.inl ⟨h1, hfol.trans h2⟩
  · -- a frame of the new map is no table of it
    have hgp : IsPage s.mem root' g' := ⟨π, hπ, Nat.le_of_eq hl, h2⟩
    have hgt : ¬ IsTable s2.mem root' g' := by
      intro hx
      obtain ⟨π', hπ', hl', hg⟩ := hx
      rw [hc.paths π' hπ' (by omega)] at hg
      exact h.ready.wf.apart π' π g' hπ' hπ hl' hl hg h2
    exact Or.inr ⟨g, g', h1, hfol.trans h2, h3.then (hc.samePage hm (h.ready.pages g' hgp) hgt)⟩

end Link

/-- One page is copied and mapped. -/
theorem forkPage_copy (h : Forked alloc s₀ root root' n used s) {new i j k f : Nat} (hnew : pmlGetAddr new = root')
    (hi : i < 512) (hj : j < 512) (hk : k < 512) (hn : n = leafPos i j k)
    (hf : follow s₀.mem [i, j, k] root = some f) :
    ∃ s' used', ((alloc s).bind fun r => mapProcessPageWith alloc (copyPage r.1 r.2 f) new r.2
        ((k <<< 12) ||| (j <<< 21) ||| (i <<< 30))) = some s' ∧
      Forked alloc s₀ root root' (n + 1) used' s' := by
  obtain ⟨s1, p, halloc, hc⟩ := h.copy hi hj hk hn hf
  obtain ⟨s3, used3, hmap, hr3, hm⟩ := mapProcessPage_fresh hc.ready ((k <<< 12) ||| (j <<< 21) ||| (i <<< 30)) hnew
    hc.page (Or.inr rfl) hc.noTable
  have hleaf : leafPath ((k <<< 12) ||| (j <<< 21) ||| (i <<< 30)) = [i, j, k] := by
    obtain ⟨e1, e2, e3⟩ := forkVirt_indices hi hj hk
    unfold leafPath walkPath
    rw [e1, e2, e3]
    rfl
  have hne_of : ∀ i' j' k', leafPos i' j' k' ≠ n →
      [i', j', k'] ≠ leafPath ((k <<< 12) ||| (j <<< 21) ||| (i <<< 30)) := by
    intro i' j' k' hne heq
    rw [hleaf] at heq
    simp only [List.cons.injEq, and_true] at heq
    obtain ⟨rfl, rfl, rfl⟩ := heq
    exact hne hn.symm
  refine ⟨s3, used3, ?_, hr3, fun π π' d hπ hπ' hl hl' => hc.frames h hm hπ hπ' hl hl', fun q hq => ?_,
    fun q => hc.apart h hm, fun i' j' k' hi' hj' hk' hlt => ?_, fun i' j' k' hi' hj' hk' hle => ?_⟩
  · rw [halloc, Option.bind_some]
    exact hmap
  · obtain ⟨hqu, hqs⟩ := h.parent q hq
    have hqt : ¬ IsTable (copyPage s1 p f).mem root' q := fun ht => h.apart q (hc.isPage ht.page) hq
    exact ⟨hm.mono q (Or.inl hqu), fun a h1 h2 => (hc.samePage hm hqu hqt a h1 h2).trans (hqs a h1 h2)⟩
  · by_cases heq : leafPos i' j' k' = n
    · obtain ⟨rfl, rfl, rfl⟩ := leafPos_inj hj' hk' hj hk (heq.trans hn)
      exact Or.inr ⟨f, p, hf, hleaf ▸ hm.here, hc.contents.then (hm.same p (Or.inr rfl) hc.noTable)⟩
    · exact hc.copied h hm (path_three hi' hj' hk') rfl (hne_of i' j' k' heq)
        (h.copied i' j' k' hi' hj' hk' (by omega))
  · rw [hc.other hm (path_three hi' hj' hk') rfl (hne_of i' j' k' (by omega))]
    exact h.later i' j' k' hi' hj' hk' (by omega)

/-- A path that ends at an entry which is not there. -/
theorem follow_absent {m : Mem} {π ρ : List Nat} {t c i : Nat} (h : follow m π t = some c)
    (hP : pmlGetP (entry m c i) = false) : follow m (π ++ i :: ρ) t = none := by
  rw [follow_append, h]
  simp only [Option.bind_some, follow, hP]
  rfl

/-- The innermost body. -/
theorem forkPage_fresh {new i j pml1 : Nat} (hnew : pmlGetAddr new = root') (hi : i < 512) (hj : j < 512)
    (hpml1 : follow s₀.mem [i, j] root = some pml1) {k : Nat} (hk : k < 512)
    (h : ∃ used, Forked alloc s₀ root root' (leafPos i j k) used s) :
    ∃ s', forkPageWith alloc new i j pml1 k s = some s' ∧
      ∃ used, Forked alloc s₀ root root' (leafPos i j (k + 1)) used s' := by
  obtain ⟨used, h⟩ := h
  have hij : Path [i, j] := fun x hx => path_three hi hj hk x (List.mem_append_left [k] hx)
  have hent := h.entry ⟨[i, j], hij, Nat.le_succ 2, hpml1⟩ hk
  unfold forkPageWith
  dsimp only
  rw [hent]
  cases hP : pmlGetP (entry s₀.mem pml1 k) with
  | true =>
      have hf : follow s₀.mem [i, j, k] root = some (pmlGetAddr (entry s₀.mem pml1 k)) := by
        rw [show [i, j, k] = [i, j] ++ [k] from rfl, follow_snoc s₀.mem [i, j] k root pml1 hpml1, hP, if_pos rfl]
      obtain ⟨s', used', h1, h2⟩ := forkPage_copy h hnew hi hj hk rfl hf
      rw [show leafPos i j k + 1 = leafPos i j (k + 1) by unfold leafPos; omega] at h2
      rw [if_pos rfl]
      exact ⟨s', h1, used', h2⟩
  | false =>
      rw [if_neg Bool.false_ne_true]
      refine ⟨s, rfl, used, h.skip (by unfold leafPos; omega) fun i' j' k' hi' hj' hk' h1 h2 => ?_⟩
      obtain ⟨rfl, rfl, rfl⟩ := leafPos_inj hj' hk' hj hk
        (show leafPos i' j' k' = leafPos i j k by unfold leafPos at *; omega)
      exact follow_absent (ρ := []) hpml1 hP

/-- The middle body. -/
theorem forkTable_fresh {new i pml2 : Nat} (hnew : pmlGetAddr new = root') (hi : i < 512)
    (hpml2 : follow s₀.mem [i] root = some pml2) {j : Nat} (hj : j < 512)
    (h : ∃ used, Forked alloc s₀ root root' (leafPos i j 0) used s) :
    ∃ s', forkTableWith alloc new i pml2 j s = some s' ∧
      ∃ used, Forked alloc s₀ root root' (leafPos i (j + 1) 0) used s' := by
  have hent : entry s.mem pml2 j = entry s₀.mem pml2 j := by
    obtain ⟨used, h⟩ := h
    exact h.entry ⟨[i], fun x hx => List.mem_singleton.mp hx ▸ hi, show 1 ≤ 3 by decide, hpml2⟩ hj
  unfold forkTableWith
  dsimp only
  rw [hent]
  cases hP : pmlGetP (entry s₀.mem pml2 j) with
  | true =>
      have hpml1 : follow s₀.mem [i, j] root = some (pmlGetAddr (entry s₀.mem pml2 j)) := by
        rw [show [i, j] = [i] ++ [j] from rfl, follow_snoc s₀.mem [i] j root pml2 hpml2, hP, if_pos rfl]
      rw [if_pos rfl, ← leafPos_row]
      exact forLoop_ends (J := fun k s => ∃ used, Forked alloc s₀ root root' (leafPos i j k) used s)
        (fun k s' hk h' => forkPage_fresh hnew hi hj hpml1 hk h') 512 0 s rfl h
  | false =>
      obtain ⟨used, h⟩ := h
      rw [if_neg Bool.false_ne_true]
      refine ⟨s, rfl, used, h.skip (by unfold leafPos; omega) fun i' j' k' hi' hj' hk' h1 h2 => ?_⟩
      obtain ⟨rfl, rfl⟩ : i' = i ∧ j' = j := by
        unfold leafPos at *
        omega
      exact follow_absent (ρ := [k']) hpml2 hP

/-- The outer body. -/
theorem forkDir_fresh {new : Nat} (hnew : pmlGetAddr new = root') {i : Nat} (hi : i < 512)
    (h : ∃ used, Forked alloc s₀ root root' (leafPos i 0 0) used s) :
    ∃ s', forkDirWith alloc new root i s = some s' ∧
      ∃ used, Forked alloc s₀ root root' (leafPos (i + 1) 0 0) used s' := by
  have hent : entry s.mem root i = entry s₀.mem root i := by
    obtain ⟨used, h⟩ := h
    exact h.entry ⟨[], fun _ hx => absurd hx List.not_mem_nil, by decide, rfl⟩ hi
  unfold forkDirWith
  dsimp only
  rw [hent]
  cases hP : pmlGetP (entry s₀.mem root i) with
  | true =>
      have hpml2 : follow s₀.mem [i] root = some (pmlGetAddr (entry s₀.mem root i)) := by
        simp only [follow, hP, if_true]
      rw [if_pos rfl, ← leafPos_plane]
      exact forLoop_ends (J := fun j s => ∃ used, Forked alloc s₀ root root' (leafPos i j 0) used s)
        (fun j s' hj h' => forkTable_fresh hnew hi hpml2 hj h') 512 0 s rfl h
  | false =>
      obtain ⟨used, h⟩ := h
      rw [if_neg Bool.false_ne_true]
      refine ⟨s, rfl, used, h.skip (by unfold leafPos; omega) fun i' j' k' hi' hj' hk' h1 h2 => ?_⟩
      obtain rfl : i' = i := by
        unfold leafPos at *
        omega
      exact follow_absent (π := []) (ρ := [j', k']) rfl hP

end Loops

/-! ## 4. The new map -/

section Isolation

variable {alloc : Alloc} {s : Mm} {used : Nat → Prop}

/-- `CreateProcessMap`: a root table, and nothing mapped. -/
theorem createProcessMap_fresh (haligned : ∀ q, used q → 4096 ∣ q)
    (hpages : ∀ q, IsPage s.mem (pmlGetAddr s.pml4) q → used q)
    (hsup : Supplies alloc (1 + 3 * leavesFrom s.mem (pmlGetAddr s.pml4) 0) used s) :
    ∃ s1 root', createProcessMapWith alloc s = some (s1, pmlEntry root') ∧ pmlGetAddr (pmlEntry root') = root' ∧
      s1.pml4 = s.pml4 ∧
      ∃ used', Forked alloc s (pmlGetAddr s.pml4) root' (leafPos 0 0 0) used' s1 := by
  rw [Nat.add_comm] at hsup
  obtain ⟨s1, p, halloc, hpd, hp52, hpu, hpml, hsame, hsup1⟩ := hsup.page
  obtain ⟨s2, hs2⟩ : ∃ s2, zeroTable s1 p = s2 := ⟨_, rfl⟩
  have hfields2 := zeroTable_fields s1 p
  have hwrites2 : WritesUsed (fun q => used q ∨ q = p) s1.mem (zeroTable s1 p).mem := writesUsed_zero s1 (Or.inr rfl)
  have hzero2 : ∀ j, j < 512 → entry (zeroTable s1 p).mem p j = 0 := fun j hj => entry_zeroTable s1 hj
  have hsame2 : ∀ q, used q → SamePage s.mem (zeroTable s1 p).mem q := by
    intro q hq a h1 h2
    have hqp : q ≠ p := fun heq => hpu (heq ▸ hq)
    exact (samePage_zero s1 hpd (haligned q hq) hqp a h1 h2).trans (hsame q hq a h1 h2)
  rw [hs2] at hfields2 hwrites2 hzero2 hsame2
  have hfol : ∀ π c, Path π → follow s2.mem π p = some c → π = [] ∧ c = p := by
    intro π c hπ h
    by_cases hne : π = []
    · rw [hne] at h
      exact ⟨hne, (Option.some.inj h).symm⟩
    · rw [follow_cleared hzero2 hπ hne] at h
      cases h
  refine ⟨s2, p, ?_, (pmlEntry_facts hpd hp52).2, hfields2.2.1.trans hpml, fun q => used q ∨ q = p,
    ⟨⟨hpd, ?_, ?_⟩, ?_, ?_, ?_⟩, ?_, ?_, ?_, ?_, ?_⟩
  · unfold createProcessMapWith
    rw [halloc, Option.map_some, hs2]
  · intro π π' c hπ hπ' _ _ h1 h2
    rw [(hfol π c hπ h1).1, (hfol π' c hπ' h2).1]
  · intro π π' c _ hπ' _ hl' _ h2
    rw [(hfol π' c hπ' h2).1] at hl'
    cases hl'
  · intro q hx
    rcases hx with hq | rfl
    · exact haligned q hq
    · exact hpd
  · intro q hx
    obtain ⟨π, hπ, -, h⟩ := hx
    exact Or.inr (hfol π q hπ h).2
  · exact hsup1.write hwrites2 hfields2
  · intro π π' f hπ hπ' _ _ h1 h2
    rw [(hfol π f hπ h1).1, (hfol π' f hπ' h2).1]
  · exact fun q hq => ⟨Or.inl (hpages q hq), hsame2 q (hpages q hq)⟩
  · intro q hx hq
    obtain ⟨π, hπ, -, h⟩ := hx
    rw [(hfol π q hπ h).2] at hq
    exact hpu (hpages p hq)
  · intro i j k _ _ _ hlt
    exact absurd hlt (by unfold leafPos; omega)
  · intro i j k hi hj hk _
    exact follow_cleared hzero2 (path_three hi hj hk) (List.cons_ne_nil _ _)

/-- A write to a page leaves another page alone. -/
theorem samePage_write {m : Mem} {p q a v : Nat} (hp : 4096 ∣ p) (hq : 4096 ∣ q) (hne : p ≠ q) (ha : InPage p a) :
    SamePage m (Function.update m a v) q := by
  intro b h1 h2
  refine Function.update_of_ne ?_ _ _
  rintro rfl
  exact hne (InPage.inj hp hq ha ⟨h1, h2⟩)

end Isolation

/-- **Fork isolation**, with an allocator that hands out pages which are not in use: the new map maps the same user
    pages with the same bytes, shares no page with the current one, which is as it was, and a write to a page of the
    one is not seen in any page of the other. -/
theorem fork_isolation (alloc : Alloc) (s : Mm) (used : Nat → Prop) (haligned : ∀ q, used q → 4096 ∣ q)
    (hpages : ∀ q, IsPage s.mem (pmlGetAddr s.pml4) q → used q)
    (hsup : Supplies alloc (1 + 3 * leavesFrom s.mem (pmlGetAddr s.pml4) 0) used s) :
    ∃ s' new, forkProcessMapWith alloc s = some (s', new) ∧ Separate s'.mem (pmlGetAddr new) ∧
      (∀ virt < 2 ^ 39, Copied s.mem (pmlGetAddr s.pml4) s'.mem (pmlGetAddr new) (leafPath virt)) ∧
      (∀ q, IsPage s.mem (pmlGetAddr s.pml4) q → SamePage s.mem s'.mem q) ∧
      (∀ π, Path π → π.length ≤ 3 →
        follow s'.mem π (pmlGetAddr s.pml4) = follow s.mem π (pmlGetAddr s.pml4)) ∧
      (∀ q, IsPage s'.mem (pmlGetAddr new) q → ¬ IsPage s'.mem (pmlGetAddr s.pml4) q) ∧
      ∀ p q a v, IsPage s'.mem (pmlGetAddr new) p → IsPage s'.mem (pmlGetAddr s.pml4) q →
        (InPage p a → SamePage s'.mem (Function.update s'.mem a v) q) ∧
        (InPage q a → SamePage s'.mem (Function.update s'.mem a v) p) := by
  obtain ⟨s1, root', hcreate, hroot', hpml, hstart⟩ := createProcessMap_fresh haligned hpages hsup
  obtain ⟨s', hloop, used', hf⟩ :=
    forLoop_ends (J := fun i s' => ∃ used', Forked alloc s (pmlGetAddr s.pml4) root' (leafPos i 0 0) used' s')
      (fun i s' hi h => forkDir_fresh hroot' hi h) 512 0 s1 rfl hstart
  have hfol : ∀ π, Path π → π.length ≤ 3 →
      follow s'.mem π (pmlGetAddr s.pml4) = follow s.mem π (pmlGetAddr s.pml4) :=
    fun π hπ hl => follow_same (fun q hq => (hf.parent q hq.page).2) hπ hl
  have hapart : ∀ q, IsPage s'.mem root' q → ¬ IsPage s'.mem (pmlGetAddr s.pml4) q := by
    intro q hq hx
    obtain ⟨π, hπ, hl, h⟩ := hx
    exact hf.apart q hq ⟨π, hπ, hl, hfol π hπ hl ▸ h⟩
  refine ⟨s', pmlEntry root', ?_, ?_⟩
  · unfold forkProcessMapWith
    rw [hcreate, Option.bind_some, hpml, hloop, Option.map_some]
  rw [hroot']
  refine ⟨?_, ?_, fun q hq => (hf.parent q hq).2, hfol, hapart, ?_⟩
  · intro π π' c hπ hπ' hl hl' h1 h2
    by_cases h3 : π.length = 3
    · by_cases h3' : π'.length = 3
      · exact hf.frames π π' c hπ hπ' h3 h3' h1 h2
      · exact absurd h1 (hf.ready.wf.apart π' π c hπ' hπ (by omega) h3 h2)
    · by_cases h3' : π'.length = 3
      · exact absurd h2 (hf.ready.wf.apart π π' c hπ hπ' (by omega) h3' h1)
      · exact hf.ready.wf.distinct π π' c hπ hπ' (by omega) (by omega) h1 h2
  · intro virt _
    have hi : getPml3Index virt < 512 := getPmlIndex_lt _ _
    have hj : getPml2Index virt < 512 := getPmlIndex_lt _ _
    have hk : getPml1Index virt < 512 := getPmlIndex_lt _ _
    exact hf.copied _ _ _ hi hj hk (by unfold leafPos; omega)
  · intro p q a v hp hq
    have hpa : 4096 ∣ p := by
      obtain ⟨π, -, -, h⟩ := hp
      exact follow_aligned hf.ready.wf.aligned h
    have hqa : 4096 ∣ q := by
      obtain ⟨π, -, -, h⟩ := hq
      exact follow_aligned (pmlGetAddr_facts _).1 h
    have hne : p ≠ q := fun heq => hapart p hp (heq ▸ hq)
    exact ⟨samePage_write hpa hqa hne, samePage_write hqa hpa hne.symm⟩

/-! ## 5. A map with one page -/

/-- The page at the address 0 is the frame 0x4000. -/
def onePage : Mm :=
  ⟨fun a =>
      if a = cell 0x1000 0 then pmlEntry 0x2000
      else if a = cell 0x2000 0 then pmlEntry 0x3000
      else if a = cell 0x3000 0 then pmlEntry 0x4000 else 0,
    ⟨0x5000, 0⟩, pmlEntry 0x1000, false⟩

theorem onePage_follow {π : List Nat} {t q : Nat} (ht : t ∈ [0x1000, 0x2000, 0x3000, 0x4000])
    (h : follow onePage.mem π t = some q) : q ∈ [0x1000, 0x2000, 0x3000, 0x4000] := by
  induction π generalizing t with
  | nil => exact Option.some.inj h ▸ ht
  | cons i π ih =>
      simp only [follow] at h
      split_ifs at h with hP
      refine ih ?_ h
      have hval : entry onePage.mem t i ∈ [pmlEntry 0x2000, pmlEntry 0x3000, pmlEntry 0x4000, 0] := by
        unfold entry onePage
        dsimp only
        split_ifs <;> simp only [List.mem_cons, true_or, or_true]
      simp only [List.mem_cons, List.not_mem_nil, or_false] at hval
      rcases hval with hv | hv | hv | hv
      · rw [hv, (pmlEntry_facts (by decide) (by decide)).2]
        decide
      · rw [hv, (pmlEntry_facts (by decide) (by decide)).2]
        decide
      · rw [hv, (pmlEntry_facts (by decide) (by decide)).2]
        decide
      · rw [hv] at hP
        exact absurd hP (by decide)

theorem onePage_supplies (n : Nat) (hn : n ≤ 512 ^ 3) :
    Supplies bumpAlloc (1 + 3 * n) (fun q => 4096 ∣ q ∧ q < 0x5000) onePage := by
  refine supplies_bump _ _ _ (by decide) ?_ fun q hq => hq.2
  show 0x5000 + 4096 * (1 + 3 * n) ≤ 2 ^ 52
  omega

theorem onePage_root : pmlGetAddr onePage.pml4 = 0x1000 := (pmlEntry_facts (by decide) (by decide)).2

theorem onePage_pages (q : Nat) (h : IsPage onePage.mem (pmlGetAddr onePage.pml4) q) :
    4096 ∣ q ∧ q < 0x5000 := by
  obtain ⟨π, -, -, h⟩ := h
  rw [onePage_root] at h
  have hq := onePage_follow (by decide) h
  simp only [List.mem_cons, List.not_mem_nil, or_false] at hq
  omega

theorem fork_isolation_one_page : ∃ s' new f', forkProcessMapWith bumpAlloc onePage = some (s', new) ∧
    translate s'.mem (pmlGetAddr new) 0 = some f' ∧ f' ≠ 0x4000 ∧ SameContents onePage.mem 0x4000 s'.mem f' := by
  have hleaf : translate onePage.mem (pmlGetAddr onePage.pml4) 0 = some 0x4000 := by
    rw [onePage_root]
    decide
  obtain ⟨s', new, h1, -, h3, -, h5, h6, -⟩ := fork_isolation bumpAlloc onePage (fun q => 4096 ∣ q ∧ q < 0x5000)
    (fun q hq => hq.1) onePage_pages (onePage_supplies _ (leavesFrom_bound _ _ _))
  rcases h3 0 (by decide) with ⟨h, -⟩ | ⟨f, f', hf, hf', hsame⟩
  · rw [show follow onePage.mem (leafPath 0) (pmlGetAddr onePage.pml4) = some 0x4000 from hleaf] at h
    cases h
  · obtain rfl : f = 0x4000 := Option.some.inj (hf.symm.trans hleaf)
    refine ⟨s', new, f', h1, hf', ?_, hsame⟩
    rintro rfl
    refine h6 0x4000 ⟨_, leafPath_path 0, le_rfl, hf'⟩ ⟨_, leafPath_path 0, le_rfl, ?_⟩
    rw [h5 _ (leafPath_path 0) le_rfl]
    exact hleaf

end MemoryManager

end SimpleOS2
