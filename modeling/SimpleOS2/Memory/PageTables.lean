/-
  File:      SimpleOS2/Memory/PageTables.lean
  Subject:   WHAT `MapProcessPage` DOES TO A TRANSLATION, with any allocator that hands out fresh pages.

  A process map translates a user address through three tables. `MapProcessPage` walks them, makes
  the ones that are missing, and writes one leaf. Which pages it makes tables of is up to
  `AllocatePages`: the functions take it as an argument here, and `nextTable_alloc` etc. give the
  functions of MemoryManager.lean back.

  * `Supplies` -- the allocator has a number of fresh pages to hand out, whatever is written to the
    pages in use;
  * `WellFormed` -- no page is a table twice, none is a table and a frame; `translate`;
  * `follow_inj`, `follow_set` -- a table stands in one place, so one entry is read on one path;
  * `nextTable_step`, `walk_step` -- a step of the walk, the walk;
  * `mapping_law` -- the page of the address is mapped, every other one is where it was.
-/
import SimpleOS2.Memory.Conservation

namespace SimpleOS2

open Lib FreeList

namespace MemoryManager

/-! ## 1. The functions, with the allocator as an argument -/

/-- `AllocatePages(1)`. -/
abbrev Alloc := Mm → Option (Mm × Nat)

def nextTableWith (alloc : Alloc) (s : Mm) (t i : Nat) : Option (Mm × Nat) :=
  if pmlGetP (entry s.mem t i) then some (s, pmlGetAddr (entry s.mem t i))
  else (alloc s).map fun r => (setEntry (zeroTable r.1 r.2) t i (pmlEntry r.2), r.2)

def walkTablesWith (alloc : Alloc) (s : Mm) (pml4Entry virt : Nat) : Option (Mm × Nat) :=
  (nextTableWith alloc s (pmlGetAddr pml4Entry) (getPml3Index virt)).bind fun r =>
    nextTableWith alloc r.1 r.2 (getPml2Index virt)

/-- `MapProcessPage(pml4Entry, phys, virt, invalidate)`. -/
def mapProcessPageWith (alloc : Alloc) (s : Mm) (pml4Entry phys virt : Nat) : Option Mm :=
  (walkTablesWith alloc s pml4Entry virt).map fun r =>
    setEntry r.1 r.2 (getPml1Index virt) (pmlEntry phys)

/-- `MapProcessPage(pml4Entry, virt, invalidate)`. -/
def mapAnyPageWith (alloc : Alloc) (s : Mm) (pml4Entry virt : Nat) : Option (Mm × Nat) :=
  (walkTablesWith alloc s pml4Entry virt).bind fun r =>
    let e := entry r.1.mem r.2 (getPml1Index virt)
    if pmlGetP e then some (r.1, physToKernelPtr (pmlGetAddr e))
    else (alloc r.1).map fun q =>
      (setEntry q.1 r.2 (getPml1Index virt) (pmlEntry q.2), physToKernelPtr q.2)

/-- With the allocator of the kernel these are the functions of MemoryManager.lean. -/
theorem mapProcessPage_alloc (fuel : Nat) (s : Mm) (pml4Entry phys virt : Nat) :
    mapProcessPage fuel s pml4Entry phys virt =
      mapProcessPageWith (fun s => allocatePages fuel s 1) s pml4Entry phys virt := rfl

theorem mapAnyPage_alloc (fuel : Nat) (s : Mm) (pml4Entry virt : Nat) :
    mapAnyPage fuel s pml4Entry virt =
      mapAnyPageWith (fun s => allocatePages fuel s 1) s pml4Entry virt := rfl

/-! ## 2. Fresh pages -/

/-- Only the pages in use are written to. -/
def WritesUsed (used : Nat → Prop) (m m' : Mem) : Prop :=
  ∀ a, (∀ q, used q → ¬ InPage q a) → m' a = m a

/-- The allocator has `k` pages to hand out that are not in use. It leaves the pages in use alone, and the
    writes to them do not disturb it. -/
def Supplies (alloc : Alloc) : (k : Nat) → (used : Nat → Prop) → Mm → Prop
  | 0, _, _ => True
  | k + 1, used, s => ∀ m, WritesUsed used s.mem m →
      ∃ s' p, alloc { s with mem := m } = some (s', p) ∧ 4096 ∣ p ∧ p < 2 ^ 52 ∧ ¬ used p ∧
        s'.pml4 = s.pml4 ∧ (∀ q, used q → SamePage m s'.mem q) ∧ Supplies alloc k (fun q => used q ∨ q = p) s'

section Supplies

variable {alloc : Alloc} {k : Nat} {used : Nat → Prop} {s : Mm} {m m' m'' : Mem}

theorem WritesUsed.trans (h : WritesUsed used m m') (h' : WritesUsed used m' m'') : WritesUsed used m m'' :=
  fun a ha => (h' a ha).trans (h a ha)

theorem Supplies.write (h : Supplies alloc k used s) {s' : Mm} (hm : WritesUsed used s.mem s'.mem)
    (hf : s'.freeList = s.freeList ∧ s'.pml4 = s.pml4 ∧ s'.failed = s.failed) : Supplies alloc k used s' := by
  obtain ⟨m, fl, p4, b⟩ := s'
  obtain ⟨rfl, rfl, rfl⟩ := hf
  cases k with
  | zero => trivial
  | succ k => exact fun m' hm' => h m' (hm.trans hm')

/-- One page, from the state as it is. -/
theorem Supplies.page (h : Supplies alloc (k + 1) used s) :
    ∃ s' p, alloc s = some (s', p) ∧ 4096 ∣ p ∧ p < 2 ^ 52 ∧ ¬ used p ∧ s'.pml4 = s.pml4 ∧
      (∀ q, used q → SamePage s.mem s'.mem q) ∧ Supplies alloc k (fun q => used q ∨ q = p) s' :=
  h s.mem fun _ _ => rfl

theorem Supplies.less (h : Supplies alloc (k + 1) used s) : Supplies alloc k used s := by
  induction k generalizing used s with
  | zero => trivial
  | succ k ih =>
      intro m hm
      obtain ⟨s', p, h1, h2, h3, h4, h5, h6, h7⟩ := h m hm
      exact ⟨s', p, h1, h2, h3, h4, h5, h6, ih h7⟩

theorem Supplies.mono {j : Nat} (h : Supplies alloc k used s) (hj : j ≤ k) : Supplies alloc j used s := by
  induction k with
  | zero => exact (Nat.le_zero.mp hj) ▸ h
  | succ k ih =>
      by_cases heq : j = k + 1
      · exact heq ▸ h
      · exact ih h.less (by omega)

end Supplies

/-! ## 3. Well-formed maps -/

/-- The pages of a map. -/
def IsTable (m : Mem) (root q : Nat) : Prop := ∃ π, Path π ∧ π.length < 3 ∧ follow m π root = some q

def IsPage (m : Mem) (root q : Nat) : Prop := ∃ π, Path π ∧ π.length ≤ 3 ∧ follow m π root = some q

/-- The tables are pairwise distinct and different from all mapped frames. -/
structure WellFormed (m : Mem) (root : Nat) : Prop where
  aligned : 4096 ∣ root
  distinct : ∀ π π' c, Path π → Path π' → π.length < 3 → π'.length < 3 →
    follow m π root = some c → follow m π' root = some c → π = π'
  apart : ∀ π π' c, Path π → Path π' → π.length < 3 → π'.length = 3 →
    follow m π root = some c → follow m π' root ≠ some c

/-- The frame behind the page of a user address. -/
def translate (m : Mem) (root virt : Nat) : Option Nat := follow m (leafPath virt) root

section Paths

variable {m m' : Mem} {root : Nat}

/-- A path is read from the entries along it. -/
theorem follow_congr {π : List Nat} {t : Nat}
    (h : ∀ ρ j σ c, π = ρ ++ j :: σ → follow m ρ t = some c → entry m' c j = entry m c j) :
    follow m' π t = follow m π t := by
  induction π generalizing t with
  | nil => rfl
  | cons i π ih =>
      have hi : entry m' t i = entry m t i := h [] i π t rfl rfl
      simp only [follow, hi]
      split_ifs with hp
      · refine ih fun ρ j σ c hπ hρ => h (i :: ρ) j σ c (by rw [hπ]; rfl) ?_
        simp only [follow, hp, if_true]
        exact hρ
      · rfl

/-- Every page below the root is aligned and addressable. -/
theorem follow_aligned {π : List Nat} {t c : Nat} (ht : 4096 ∣ t) (h : follow m π t = some c) : 4096 ∣ c := by
  induction π generalizing t with
  | nil => exact Option.some.inj h ▸ ht
  | cons i π ih =>
      simp only [follow] at h
      split_ifs at h with hp
      exact ih (pmlGetAddr_facts _).1 h

theorem follow_snoc (m : Mem) (π : List Nat) (i t c : Nat) (h : follow m π t = some c) :
    follow m (π ++ [i]) t = if pmlGetP (entry m c i) then some (pmlGetAddr (entry m c i)) else none := by
  rw [follow_append, h]
  rfl

/-- **One entry.** A write to the entry behind `path ++ [i]` is read on no other path. -/
theorem follow_set (hw : WellFormed m root) {path : List Nat} {c i v : Nat} (hpath : Path path)
    (hlen : path.length < 3) (hi : i < 512) (hc : follow m path root = some c)
    (hm : m' = Function.update m (cell c i) v) :
    (∀ π, Path π → π.length ≤ 3 → ¬ path ++ [i] <+: π → follow m' π root = follow m π root) ∧
      follow m' (path ++ [i]) root = if pmlGetP v then some (pmlGetAddr v) else none := by
  have hca := follow_aligned hw.aligned hc
  have hother : ∀ π, Path π → π.length ≤ 3 → ¬ path ++ [i] <+: π → follow m' π root = follow m π root := by
    intro π hπ hl hno
    refine follow_congr fun ρ j σ d hsplit hρ => ?_
    have hρp : Path ρ := fun x hx => hπ x (by rw [hsplit]; exact List.mem_append_left _ hx)
    have hj : j < 512 := hπ j (by rw [hsplit]; exact List.mem_append_right _ List.mem_cons_self)
    have hρl : ρ.length < 3 := by
      rw [hsplit, List.length_append, List.length_cons] at hl
      omega
    have hne : cell d j ≠ cell c i := by
      intro heq
      have hda := follow_aligned hw.aligned hρ
      have hdc : d = c ∧ j = i := by
        unfold cell physToKernelPtr at heq
        omega
      rw [hdc.1] at hρ
      refine hno ?_
      rw [hsplit, hw.distinct ρ path c hρp hpath hρl hlen hρ hc, hdc.2]
      exact ⟨σ, by rw [List.append_assoc]; rfl⟩
    unfold entry
    rw [hm, Function.update_of_ne hne]
  refine ⟨hother, ?_⟩
  have hpre : follow m' path root = some c := by
    refine (hother path hpath (by omega) fun h => ?_).trans hc
    have := h.length_le
    rw [List.length_append, List.length_singleton] at this
    omega
  rw [follow_snoc m' path i root c hpre]
  have hent : entry m' c i = v := by
    unfold entry
    rw [hm, Function.update_self (cell c i) _ _]
  rw [hent]

/-- A memory that agrees on the tables has the same paths. -/
theorem follow_same (h : ∀ q, IsTable m root q → SamePage m m' q) {π : List Nat} (hπ : Path π)
    (hl : π.length ≤ 3) : follow m' π root = follow m π root := by
  refine follow_congr fun ρ j σ c hsplit hρ => ?_
  have hρp : Path ρ := fun x hx => hπ x (by rw [hsplit]; exact List.mem_append_left _ hx)
  have hj : j < 512 := hπ j (by rw [hsplit]; exact List.mem_append_right _ List.mem_cons_self)
  have hρl : ρ.length < 3 := by
    rw [hsplit, List.length_append, List.length_cons] at hl
    omega
  exact (h c ⟨ρ, hρp, hρl, hρ⟩).entry hj

theorem WellFormed.congr (hw : WellFormed m root)
    (h : ∀ π, Path π → π.length ≤ 3 → follow m' π root = follow m π root) : WellFormed m' root where
  aligned := hw.aligned
  distinct := fun π π' c hπ hπ' hl hl' h1 h2 =>
    hw.distinct π π' c hπ hπ' hl hl' (h π hπ (by omega) ▸ h1) (h π' hπ' (by omega) ▸ h2)
  apart := fun π π' c hπ hπ' hl hl' h1 h2 =>
    hw.apart π π' c hπ hπ' hl hl' (h π hπ (by omega) ▸ h1) (h π' hπ' (by omega) ▸ h2)

end Paths

/-! ## 4. The walk -/

/-- The map is in order, its pages are in use, and there are `k` fresh ones. -/
structure Ready (alloc : Alloc) (root k : Nat) (used : Nat → Prop) (s : Mm) : Prop where
  wf : WellFormed s.mem root
  aligned : ∀ q, used q → 4096 ∣ q
  pages : ∀ q, IsPage s.mem root q → used q
  supplies : Supplies alloc k used s

/-- What a walk may change: new tables are fresh pages, and nothing else is written but tables of the map. -/
structure Walks (root : Nat) (used used' : Nat → Prop) (s s' : Mm) : Prop where
  pml4 : s'.pml4 = s.pml4
  mono : ∀ q, used q → used' q
  same : ∀ q, used q → ¬ IsTable s.mem root q → SamePage s.mem s'.mem q
  leaves : SameLeaves s.mem s'.mem root
  tables : ∀ q, IsTable s'.mem root q → IsTable s.mem root q ∨ ¬ used q

section Walk

variable {alloc : Alloc} {root k : Nat} {used used' used'' : Nat → Prop} {s s' s'' : Mm}

theorem IsTable.page {m : Mem} {q : Nat} (h : IsTable m root q) : IsPage m root q := by
  obtain ⟨π, hπ, hl, hf⟩ := h
  exact ⟨π, hπ, by omega, hf⟩

theorem Walks.refl (root : Nat) (used : Nat → Prop) (s : Mm) : Walks root used used s s :=
  ⟨rfl, fun _ h => h, fun _ _ _ _ _ _ => rfl, fun _ _ _ => rfl, fun _ h => Or.inl h⟩

theorem Walks.trans (h : Walks root used used' s s') (h' : Walks root used' used'' s' s'') :
    Walks root used used'' s s'' where
  pml4 := h'.pml4.trans h.pml4
  mono := fun q hq => h'.mono q (h.mono q hq)
  same := by
    intro q hq hnt a h1 h2
    have hnt' : ¬ IsTable s'.mem root q := by
      intro ht
      rcases h.tables q ht with h3 | h3
      · exact hnt h3
      · exact h3 hq
    exact (h'.same q (h.mono q hq) hnt' a h1 h2).trans (h.same q hq hnt a h1 h2)
  leaves := fun π hπ hl => (h'.leaves π hπ hl).trans (h.leaves π hπ hl)
  tables := by
    intro q hq
    rcases h'.tables q hq with h1 | h1
    · exact h.tables q h1
    · exact Or.inr fun h2 => h1 (h.mono q h2)

/-- A cleared page leads nowhere. -/
theorem follow_cleared {m : Mem} {f : Nat} (h : ∀ j, j < 512 → entry m f j = 0) {π : List Nat} (hπ : Path π)
    (hne : π ≠ []) : follow m π f = none := by
  cases π with
  | nil => exact absurd rfl hne
  | cons j π =>
      simp only [follow, h j (hπ j List.mem_cons_self)]
      rfl

/-- A new table `f` behind the entry `i` of a table: the paths afterwards. -/
theorem follow_link {m m' : Mem} (hw : WellFormed m root) {path : List Nat} {c i f : Nat} (hpath : Path path)
    (hlen : path.length < 3) (hi : i < 512) (hc : follow m path root = some c)
    (habs : pmlGetP (entry m c i) = false) (hf : 4096 ∣ f ∧ f < 2 ^ 52) (hfc : f ≠ c)
    (hzero : ∀ j, j < 512 → entry m f j = 0)
    (hm : m' = Function.update m (cell c i) (pmlEntry f)) :
    follow m' (path ++ [i]) root = some f ∧
      ∀ π, Path π → π.length ≤ 3 → π ≠ path ++ [i] → follow m' π root = follow m π root := by
  obtain ⟨hother, hnew⟩ := follow_set hw hpath hlen hi hc hm
  obtain ⟨hP, hA⟩ := pmlEntry_facts hf.1 hf.2
  rw [hP, hA, if_pos rfl] at hnew
  refine ⟨hnew, fun π hπ hl hne => ?_⟩
  by_cases hpre : path ++ [i] <+: π
  · -- beyond the new table there is nothing, and there was nothing before
    obtain ⟨ρ, rfl⟩ := hpre
    have hρ : ρ ≠ [] := by
      rintro rfl
      exact hne (List.append_nil _)
    have hρp : Path ρ := fun x hx => hπ x (List.mem_append_right _ hx)
    have hzero' : ∀ j, j < 512 → entry m' f j = 0 := by
      intro j hj
      have hca := follow_aligned hw.aligned hc
      have hcell : cell f j ≠ cell c i := by
        unfold cell physToKernelPtr
        omega
      unfold entry
      rw [hm, Function.update_of_ne hcell]
      exact hzero j hj
    rw [follow_append, hnew, follow_append, follow_snoc m path i root c hc, habs]
    simp only [Option.bind_some, Bool.false_eq_true, if_false, Option.bind_none]
    exact follow_cleared hzero' hρp hρ
  · exact hother π hπ hl hpre

/-- A map with a new table is in order. -/
theorem WellFormed.link {m m' : Mem} (hw : WellFormed m root) {path : List Nat} {i f : Nat} (hlen : path.length < 2)
    (hf : ¬ IsPage m root f) (hnew : follow m' (path ++ [i]) root = some f)
    (hold : ∀ π, Path π → π.length ≤ 3 → π ≠ path ++ [i] → follow m' π root = follow m π root) :
    WellFormed m' root := by
  have hcases : ∀ π c, Path π → π.length ≤ 3 → follow m' π root = some c →
      (π = path ++ [i] ∧ c = f) ∨ (follow m π root = some c ∧ c ≠ f) := by
    intro π c hπ hl h
    by_cases heq : π = path ++ [i]
    · rw [heq, hnew] at h
      exact Or.inl ⟨heq, (Option.some.inj h).symm⟩
    · rw [hold π hπ hl heq] at h
      exact Or.inr ⟨h, fun hcf => hf ⟨π, hπ, hl, hcf ▸ h⟩⟩
  refine ⟨hw.aligned, fun π π' c hπ hπ' hl hl' h1 h2 => ?_, fun π π' c hπ hπ' hl hl' h1 h2 => ?_⟩
  · rcases hcases π c hπ (by omega) h1 with ⟨e1, ec⟩ | ⟨o1, ne1⟩
    · rcases hcases π' c hπ' (by omega) h2 with ⟨e2, -⟩ | ⟨-, ne2⟩
      · rw [e1, e2]
      · exact absurd ec ne2
    · rcases hcases π' c hπ' (by omega) h2 with ⟨-, ec⟩ | ⟨o2, -⟩
      · exact absurd ec ne1
      · exact hw.distinct π π' c hπ hπ' hl hl' o1 o2
  · rcases hcases π' c hπ' (by omega) h2 with ⟨e2, -⟩ | ⟨o2, ne2⟩
    · rw [e2, List.length_append, List.length_singleton] at hl'
      omega
    · rcases hcases π c hπ (by omega) h1 with ⟨-, ec⟩ | ⟨o1, -⟩
      · exact absurd ec ne2
      · exact hw.apart π π' c hπ hπ' hl hl' o1 o2

/-- A write to a page in use disturbs neither another page nor the allocator. -/
theorem writesUsed_update {used : Nat → Prop} {m : Mem} {c i v : Nat} (hc : used c) (hi : i < 512) :
    WritesUsed used m (Function.update m (cell c i) v) := by
  intro a ha
  refine Function.update_of_ne ?_ _ _
  rintro rfl
  exact ha c hc ⟨by unfold cell; omega, by unfold cell; omega⟩

theorem writesUsed_zero (s : Mm) {used : Nat → Prop} {f : Nat} (hf : used f) :
    WritesUsed used s.mem (zeroTable s f).mem := by
  intro a ha
  exact if_neg (ha f hf)

theorem samePage_zero (s : Mm) {f q : Nat} (hf : 4096 ∣ f) (hq : 4096 ∣ q) (hne : q ≠ f) :
    SamePage s.mem (zeroTable s f).mem q := by
  intro a h1 h2
  refine if_neg fun h => hne ?_
  exact InPage.inj hq hf ⟨h1, h2⟩ h

/-- A step of the walk, with the paths that it leaves alone. -/
theorem nextTable_step (hr : Ready alloc root (k + 1) used s) (path : List Nat) {c i : Nat} (hpath : Path path)
    (hlen : path.length < 2) (hi : i < 512) (hc : follow s.mem path root = some c) :
    ∃ s' d used', nextTableWith alloc s c i = some (s', d) ∧ Ready alloc root k used' s' ∧
      Walks root used used' s s' ∧ follow s'.mem (path ++ [i]) root = some d ∧
      (pmlGetP (entry s.mem c i) = true → s' = s) ∧
      ∀ π, Path π → π.length ≤ 3 → π ≠ path ++ [i] → follow s'.mem π root = follow s.mem π root := by
  unfold nextTableWith
  cases hP : pmlGetP (entry s.mem c i) with
  | true =>
      refine ⟨s, _, used, rfl, ⟨hr.wf, hr.aligned, hr.pages, hr.supplies.less⟩, Walks.refl _ _ _, ?_, fun _ => rfl,
        fun _ _ _ _ => rfl⟩
      rw [follow_snoc s.mem path i root c hc, hP, if_pos rfl]
  | false =>
      obtain ⟨s1, f, halloc, hfd, hf52, hfu, hpml, hsame, hsup⟩ := hr.supplies.page
      have hct : IsTable s.mem root c := ⟨path, hpath, by omega, hc⟩
      have hcu : used c := hr.pages c hct.page
      have hfc : f ≠ c := fun h => hfu (h ▸ hcu)
      have hca := hr.aligned c hcu
      -- the cleared page is not in use
      obtain ⟨s2, hs2⟩ : ∃ s2, zeroTable s1 f = s2 := ⟨_, rfl⟩
      have hfields2 := zeroTable_fields s1 f
      have hwrites2 : WritesUsed (fun q => used q ∨ q = f) s1.mem (zeroTable s1 f).mem :=
        writesUsed_zero s1 (Or.inr rfl)
      have hzero2 : ∀ j, j < 512 → entry (zeroTable s1 f).mem f j = 0 := fun j hj => entry_zeroTable s1 hj
      have hsame2 : ∀ q, used q → SamePage s.mem (zeroTable s1 f).mem q := by
        intro q hq a h1 h2
        have hqf : q ≠ f := fun h => hfu (h ▸ hq)
        exact (samePage_zero s1 hfd (hr.aligned q hq) hqf a h1 h2).trans (hsame q hq a h1 h2)
      rw [hs2] at hfields2 hwrites2 hzero2 hsame2
      have hfol2 : ∀ π, Path π → π.length ≤ 3 → follow s2.mem π root = follow s.mem π root :=
        fun π hπ hl => follow_same (fun q hq => hsame2 q (hr.pages q hq.page)) hπ hl
      have habs2 : pmlGetP (entry s2.mem c i) = false := by
        rw [(hsame2 c hcu).entry hi]
        exact hP
      obtain ⟨s3, hs3⟩ : ∃ s3, setEntry s2 c i (pmlEntry f) = s3 := ⟨_, rfl⟩
      have hfields3 := setEntry_fields s2 c i (pmlEntry f)
      have hmem3 : (setEntry s2 c i (pmlEntry f)).mem = Function.update s2.mem (cell c i) (pmlEntry f) := rfl
      rw [hs3] at hfields3 hmem3
      obtain ⟨hnew, hold⟩ := follow_link (hr.wf.congr hfol2) hpath (by omega) hi
        ((hfol2 path hpath (by omega)).trans hc) habs2 ⟨hfd, hf52⟩ hfc hzero2 hmem3
      have hold' : ∀ π, Path π → π.length ≤ 3 → π ≠ path ++ [i] → follow s3.mem π root = follow s.mem π root :=
        fun π hπ hl hne => (hold π hπ hl hne).trans (hfol2 π hπ hl)
      have hfp : ¬ IsPage s.mem root f := fun h => hfu (hr.pages f h)
      have hcases : ∀ π q, Path π → π.length ≤ 3 → follow s3.mem π root = some q →
          q = f ∨ follow s.mem π root = some q := by
        intro π q hπ hl h
        by_cases heq : π = path ++ [i]
        · rw [heq, hnew] at h
          exact Or.inl (Option.some.inj h).symm
        · rw [hold' π hπ hl heq] at h
          exact Or.inr h
      refine ⟨s3, f, fun q => used q ∨ q = f, ?_, ⟨?_, ?_, ?_, ?_⟩,
        ⟨hfields3.2.1.trans (hfields2.2.1.trans hpml), fun q hq => Or.inl hq, ?_, ?_, ?_⟩,
        hnew, fun h => absurd h (by decide), hold'⟩
      · rw [halloc, if_neg (by decide), Option.map_some]
        simp only [hs2, hs3]
      · exact hr.wf.link hlen hfp hnew hold'
      · intro q hx
        rcases hx with hq | rfl
        · exact hr.aligned q hq
        · exact hfd
      · intro q hx
        obtain ⟨π, hπ, hl, h⟩ := hx
        rcases hcases π q hπ hl h with h | h
        · exact Or.inr h
        · exact Or.inl (hr.pages q ⟨π, hπ, hl, h⟩)
      · refine hsup.write (hwrites2.trans ?_) ⟨hfields3.1.trans hfields2.1, hfields3.2.1.trans hfields2.2.1,
          hfields3.2.2.trans hfields2.2.2⟩
        rw [hmem3]
        exact writesUsed_update (Or.inl hcu) hi
      · intro q hq hnt a h1 h2
        have hqc : q ≠ c := fun h => hnt (h ▸ hct)
        rw [hmem3]
        exact (samePage_set hca (hr.aligned q hq) hqc hi a h1 h2).trans (hsame2 q hq a h1 h2)
      · intro π hπ hl
        refine hold' π hπ (by omega) fun h => ?_
        rw [h, List.length_append, List.length_singleton] at hl
        omega
      · intro q hx
        obtain ⟨π, hπ, hl, h⟩ := hx
        rcases hcases π q hπ (by omega) h with rfl | h
        · exact Or.inr hfu
        · exact Or.inl ⟨π, hπ, hl, h⟩

/-- The walk down to the PML1. It makes nothing if the address is mapped, and no table of another address. -/
theorem walk_step (hr : Ready alloc root (k + 2) used s) {e : Nat} (virt : Nat) (he : pmlGetAddr e = root) :
    ∃ s' c used', walkTablesWith alloc s e virt = some (s', c) ∧ Ready alloc root k used' s' ∧
      Walks root used used' s s' ∧ follow s'.mem (walkPath virt) root = some c ∧
      (translate s.mem root virt ≠ none → s' = s) ∧
      ∀ π, Path π → π.length ≤ 3 → ¬ π <+: walkPath virt → follow s'.mem π root = follow s.mem π root := by
  obtain ⟨s1, c1, used1, h1, hr1, hw1, hf1, hsame1, hold1⟩ :=
    nextTable_step hr [] (fun _ h => absurd h List.not_mem_nil) (show 0 < 2 by decide)
      (show getPml3Index virt < 512 from getPmlIndex_lt _ _) rfl
  obtain ⟨s2, c2, used2, h2, hr2, hw2, hf2, hsame2, hold2⟩ :=
    nextTable_step hr1 [getPml3Index virt] (fun x hx => by rw [List.mem_singleton.mp hx]; exact getPmlIndex_lt _ _)
      (show 1 < 2 by decide) (show getPml2Index virt < 512 from getPmlIndex_lt _ _) hf1
  refine ⟨s2, c2, used2, ?_, hr2, hw1.trans hw2, hf2, fun hne => ?_, fun π hπ hl hno => ?_⟩
  · unfold walkTablesWith
    rw [he, h1, Option.bind_some]
    exact h2
  · -- a mapped address has its tables
    have hp1 : pmlGetP (entry s.mem root (getPml3Index virt)) = true := by
      by_contra hP
      refine hne ?_
      unfold translate leafPath walkPath
      simp only [List.cons_append, follow, hP]
      rfl
    obtain rfl := hsame1 hp1
    refine hsame2 ?_
    by_contra hP
    refine hne ?_
    unfold translate leafPath walkPath
    simp only [List.cons_append, List.nil_append] at hf1 ⊢
    rw [show [getPml3Index virt, getPml2Index virt, getPml1Index virt] =
      [getPml3Index virt] ++ [getPml2Index virt, getPml1Index virt] from rfl, follow_append, hf1]
    simp only [Option.bind_some, follow, hP]
    rfl
  · refine (hold2 π hπ hl fun h => hno (h ▸ List.prefix_refl _)).trans (hold1 π hπ hl fun h => hno ?_)
    exact h ▸ ⟨[getPml2Index virt], rfl⟩

theorem walk_fresh (hr : Ready alloc root (k + 2) used s) {e : Nat} (virt : Nat) (he : pmlGetAddr e = root) :
    ∃ s' c used', walkTablesWith alloc s e virt = some (s', c) ∧ Ready alloc root k used' s' ∧
      Walks root used used' s s' ∧ follow s'.mem (walkPath virt) root = some c ∧
      (translate s.mem root virt ≠ none → s' = s) := by
  obtain ⟨s', c, used', h1, h2, h3, h4, h5, -⟩ := walk_step hr virt he
  exact ⟨s', c, used', h1, h2, h3, h4, h5⟩

/-- The write of the leaf. -/
theorem leaf_fresh (hr : Ready alloc root k used s) {virt c phys : Nat}
    (hc : follow s.mem (walkPath virt) root = some c) (hphys : 4096 ∣ phys ∧ phys < 2 ^ 52) (hu : used phys)
    (hnt : ¬ IsTable s.mem root phys) {s' : Mm} (hs' : setEntry s c (getPml1Index virt) (pmlEntry phys) = s') :
    Ready alloc root k used s' ∧ translate s'.mem root virt = some phys ∧
      (∀ π, Path π → π.length ≤ 3 → π ≠ leafPath virt → follow s'.mem π root = follow s.mem π root) ∧
      s'.pml4 = s.pml4 ∧ ∀ q, used q → ¬ IsTable s.mem root q → SamePage s.mem s'.mem q := by
  have hfields := setEntry_fields s c (getPml1Index virt) (pmlEntry phys)
  have hmem : (setEntry s c (getPml1Index virt) (pmlEntry phys)).mem =
      Function.update s.mem (cell c (getPml1Index virt)) (pmlEntry phys) := rfl
  rw [hs'] at hfields hmem
  clear hs'
  have hi : getPml1Index virt < 512 := getPmlIndex_lt _ _
  have hct : IsTable s.mem root c := ⟨walkPath virt, walkPath_path virt, Nat.lt_succ_self 2, hc⟩
  have hcu := hr.pages c hct.page
  obtain ⟨hother, hnew⟩ := follow_set hr.wf (walkPath_path virt) (Nat.lt_succ_self 2) hi hc hmem
  obtain ⟨hP, hA⟩ := pmlEntry_facts hphys.1 hphys.2
  rw [hP, hA, if_pos rfl] at hnew
  have hold : ∀ π, Path π → π.length ≤ 3 → π ≠ leafPath virt → follow s'.mem π root = follow s.mem π root := by
    intro π hπ hl hne
    refine hother π hπ hl fun hpre => hne ?_
    exact (hpre.eq_of_length (Nat.le_antisymm hpre.length_le hl)).symm
  have hshort : ∀ π : List Nat, π.length < 3 → π ≠ leafPath virt := by
    rintro π hl rfl
    exact absurd hl (Nat.lt_irrefl 3)
  refine ⟨⟨⟨hr.wf.aligned, ?_, ?_⟩, hr.aligned, ?_, ?_⟩, hnew, hold, hfields.2.1, ?_⟩
  · intro π π' d hπ hπ' hl hl' h1 h2
    rw [hold π hπ (by omega) (hshort π hl)] at h1
    rw [hold π' hπ' (by omega) (hshort π' hl')] at h2
    exact hr.wf.distinct π π' d hπ hπ' hl hl' h1 h2
  · intro π π' d hπ hπ' hl hl' h1 h2
    rw [hold π hπ (by omega) (hshort π hl)] at h1
    by_cases heq : π' = leafPath virt
    · rw [heq] at h2
      obtain rfl : phys = d := Option.some.inj (hnew.symm.trans h2)
      exact hnt ⟨π, hπ, hl, h1⟩
    · rw [hold π' hπ' (by omega) heq] at h2
      exact hr.wf.apart π π' d hπ hπ' hl hl' h1 h2
  · intro q hx
    obtain ⟨π, hπ, hl, h⟩ := hx
    by_cases heq : π = leafPath virt
    · rw [heq] at h
      exact Option.some.inj (hnew.symm.trans h) ▸ hu
    · rw [hold π hπ hl heq] at h
      exact hr.pages q ⟨π, hπ, hl, h⟩
  · refine hr.supplies.write ?_ hfields
    rw [hmem]
    exact writesUsed_update hcu hi
  · intro q hq hqt
    rw [hmem]
    exact samePage_set (hr.aligned c hcu) (hr.aligned q hq) (fun h => hqt (h ▸ hct)) hi

/-- What a mapping changes. -/
structure MapsOne (root virt phys : Nat) (used used' : Nat → Prop) (s s' : Mm) : Prop where
  pml4 : s'.pml4 = s.pml4
  mono : ∀ q, used q → used' q
  here : translate s'.mem root virt = some phys
  other : ∀ π, Path π → π.length = 3 → π ≠ leafPath virt → follow s'.mem π root = follow s.mem π root
  same : ∀ q, used q → ¬ IsTable s.mem root q → SamePage s.mem s'.mem q
  tables : ∀ q, IsTable s'.mem root q → IsTable s.mem root q ∨ ¬ used q

theorem length_leafPath (virt : Nat) : (leafPath virt).length = 3 := rfl

/-- The leaf behind a walk. -/
theorem Walks.leaf (hw : Walks root used used' s s') (hr : Ready alloc root k used' s') {virt c phys : Nat}
    (hc : follow s'.mem (walkPath virt) root = some c) (hphys : 4096 ∣ phys ∧ phys < 2 ^ 52) (hu : used' phys)
    (hnt : ¬ IsTable s'.mem root phys)
    (hs'' : setEntry s' c (getPml1Index virt) (pmlEntry phys) = s'') :
    Ready alloc root k used' s'' ∧ MapsOne root virt phys used used' s s'' := by
  obtain ⟨hr', hhere, hold, hpml, hsame⟩ := leaf_fresh hr hc hphys hu hnt hs''
  refine ⟨hr', hpml.trans hw.pml4, hw.mono, hhere, ?_, ?_, ?_⟩
  · intro π hπ hl hne
    exact (hold π hπ (by omega) hne).trans (hw.leaves π hπ hl)
  · intro q hq hqt a h1 h2
    have hqt' : ¬ IsTable s'.mem root q := by
      intro ht
      rcases hw.tables q ht with h | h
      · exact hqt h
      · exact h hq
    exact (hsame q (hw.mono q hq) hqt' a h1 h2).trans (hw.same q hq hqt a h1 h2)
  · intro q hx
    obtain ⟨π, hπ, hl, h⟩ := hx
    rw [hold π hπ (by omega) (fun heq => by rw [heq, length_leafPath] at hl; omega)] at h
    exact hw.tables q ⟨π, hπ, hl, h⟩

/-- `MapProcessPage(pml4Entry, phys, virt)`. -/
theorem mapProcessPage_fresh (hr : Ready alloc root (k + 2) used s) {e phys : Nat} (virt : Nat)
    (he : pmlGetAddr e = root) (hphys : 4096 ∣ phys ∧ phys < 2 ^ 52) (hu : used phys)
    (hnt : ¬ IsTable s.mem root phys) :
    ∃ s' used', mapProcessPageWith alloc s e phys virt = some s' ∧ Ready alloc root k used' s' ∧
      MapsOne root virt phys used used' s s' := by
  obtain ⟨s1, c, used1, hwalk, hr1, hw1, hc, -⟩ := walk_fresh hr virt he
  have hnt1 : ¬ IsTable s1.mem root phys := by
    intro ht
    rcases hw1.tables phys ht with h | h
    · exact hnt h
    · exact h hu
  obtain ⟨hr2, hm⟩ := hw1.leaf hr1 hc hphys (hw1.mono phys hu) hnt1 rfl
  refine ⟨_, used1, ?_, hr2, hm⟩
  unfold mapProcessPageWith
  rw [hwalk, Option.map_some]

/-- `MapProcessPage(pml4Entry, virt)`. -/
theorem mapAnyPage_fresh (hr : Ready alloc root (k + 3) used s) {e : Nat} (virt : Nat) (he : pmlGetAddr e = root) :
    (∀ p, translate s.mem root virt = some p → mapAnyPageWith alloc s e virt = some (s, physToKernelPtr p)) ∧
    (translate s.mem root virt = none → ∃ s' p used', ¬ used p ∧
      mapAnyPageWith alloc s e virt = some (s', physToKernelPtr p) ∧ Ready alloc root k used' s' ∧
      MapsOne root virt p used used' s s') := by
  obtain ⟨s1, c, used1, hwalk, hr1, hw1, hc, hsame⟩ := walk_fresh hr virt he
  have hleaf : follow s1.mem (leafPath virt) root =
      if pmlGetP (entry s1.mem c (getPml1Index virt)) then some (pmlGetAddr (entry s1.mem c (getPml1Index virt)))
      else none := follow_snoc s1.mem (walkPath virt) _ root c hc
  unfold mapAnyPageWith
  rw [hwalk, Option.bind_some]
  dsimp only
  constructor
  · intro p hp
    obtain rfl := hsame (by rw [hp]; exact Option.some_ne_none p)
    rw [show follow s1.mem (leafPath virt) root = some p from hp] at hleaf
    split_ifs at hleaf ⊢ with hP
    rw [Option.some.inj hleaf]
  · intro hnone
    have hP : pmlGetP (entry s1.mem c (getPml1Index virt)) = false := by
      rw [hw1.leaves _ (leafPath_path virt) (length_leafPath virt)] at hleaf
      rw [show follow s.mem (leafPath virt) root = none from hnone] at hleaf
      split_ifs at hleaf with hP
      exact Bool.eq_false_iff.mpr hP
    obtain ⟨s2, p, halloc, hpd, hp52, hpu, hpml, hsame2, hsup⟩ := hr1.supplies.page
    have hfol : ∀ π, Path π → π.length ≤ 3 → follow s2.mem π root = follow s1.mem π root :=
      fun π hπ hl => follow_same (fun q hq => hsame2 q (hr1.pages q hq.page)) hπ hl
    have htab : ∀ q, IsTable s2.mem root q → IsTable s1.mem root q := by
      intro q hx
      obtain ⟨π, hπ, hl, h⟩ := hx
      exact ⟨π, hπ, hl, hfol π hπ (by omega) ▸ h⟩
    have hr2 : Ready alloc root k (fun q => used1 q ∨ q = p) s2 := by
      refine ⟨hr1.wf.congr hfol, ?_, ?_, hsup⟩
      · intro q hx
        rcases hx with hq | rfl
        · exact hr1.aligned q hq
        · exact hpd
      · intro q hx
        obtain ⟨π, hπ, hl, h⟩ := hx
        exact Or.inl (hr1.pages q ⟨π, hπ, hl, hfol π hπ hl ▸ h⟩)
    have hw2 : Walks root used (fun q => used1 q ∨ q = p) s s2 := by
      refine hw1.trans ⟨hpml, fun q hq => Or.inl hq, fun q hq _ => hsame2 q hq, ?_, fun q hq => Or.inl (htab q hq)⟩
      exact fun π hπ hl => hfol π hπ (by omega)
    have hnt : ¬ IsTable s2.mem root p := fun h => hpu (hr1.pages p (htab p h).page)
    obtain ⟨hr3, hm⟩ := hw2.leaf hr2 ((hfol _ (walkPath_path virt) (Nat.le_succ 2)).trans hc) ⟨hpd, hp52⟩
      (Or.inr rfl) hnt rfl
    refine ⟨_, p, _, fun h => hpu (hw1.mono p h), ?_, hr3, hm⟩
    rw [hP, halloc, if_neg (by decide), Option.map_some]

end Walk

/-! ## 5. The law -/

/-- Different pages below 2 ^ 39 have different paths. -/
theorem leafPath_inj {virt virt' : Nat} (hv : virt < 2 ^ 39) (hv' : virt' < 2 ^ 39)
    (h : leafPath virt = leafPath virt') : virt / 4096 = virt' / 4096 := by
  unfold leafPath walkPath getPml3Index getPml2Index getPml1Index at h
  simp only [getPmlIndex_eq, List.cons_append, List.nil_append, List.cons.injEq, and_true] at h
  norm_num at h
  omega

/-- **`MapProcessPage` maps one page.** The map has its tables apart from one another and from its frames, the
    allocator hands out pages that are not in use, and `phys` is in use but not as a table. -/
theorem mapping_law (alloc : Alloc) (s : Mm) (e phys virt : Nat) (used : Nat → Prop)
    (hr : Ready alloc (pmlGetAddr e) 3 used s) (hphys : 4096 ∣ phys ∧ phys < 2 ^ 52) (hu : used phys)
    (hnt : ¬ IsTable s.mem (pmlGetAddr e) phys) (hv : virt < 2 ^ 39) :
    (∃ s', mapProcessPageWith alloc s e phys virt = some s' ∧ WellFormed s'.mem (pmlGetAddr e) ∧
      translate s'.mem (pmlGetAddr e) virt = some phys ∧
      ∀ virt' < 2 ^ 39, virt' / 4096 ≠ virt / 4096 →
        translate s'.mem (pmlGetAddr e) virt' = translate s.mem (pmlGetAddr e) virt') ∧
    (∀ p, translate s.mem (pmlGetAddr e) virt = some p →
      mapAnyPageWith alloc s e virt = some (s, physToKernelPtr p)) ∧
    (translate s.mem (pmlGetAddr e) virt = none →
      ∃ s' p, ¬ used p ∧ mapAnyPageWith alloc s e virt = some (s', physToKernelPtr p) ∧
        WellFormed s'.mem (pmlGetAddr e) ∧ translate s'.mem (pmlGetAddr e) virt = some p ∧
        ∀ virt' < 2 ^ 39, virt' / 4096 ≠ virt / 4096 →
          translate s'.mem (pmlGetAddr e) virt' = translate s.mem (pmlGetAddr e) virt') := by
  have hother : ∀ {p s' used'}, MapsOne (pmlGetAddr e) virt p used used' s s' →
      ∀ virt' < 2 ^ 39, virt' / 4096 ≠ virt / 4096 →
        translate s'.mem (pmlGetAddr e) virt' = translate s.mem (pmlGetAddr e) virt' := by
    intro p s' used' hm virt' hv' hne
    exact hm.other _ (leafPath_path virt') (length_leafPath virt') fun h => hne (leafPath_inj hv' hv h)
  obtain ⟨hany1, hany2⟩ := mapAnyPage_fresh hr virt rfl
  refine ⟨?_, hany1, fun hnone => ?_⟩
  · obtain ⟨s', used', h1, hr', hm⟩ :=
      mapProcessPage_fresh ⟨hr.wf, hr.aligned, hr.pages, hr.supplies.less⟩ virt rfl hphys hu hnt
    exact ⟨s', h1, hr'.wf, hm.here, hother hm⟩
  · obtain ⟨s', p, used', hpu, h1, hr', hm⟩ := hany2 hnone
    exact ⟨s', p, hpu, h1, hr'.wf, hm.here, hother hm⟩

/-! ## 6. A map with nothing in it -/

/-- An allocator that counts upwards. -/
def bumpAlloc : Alloc := fun s =>
  some ({ s with freeList := { s.freeList with head := s.freeList.head + 4096 } }, s.freeList.head)

theorem supplies_bump (k : Nat) (used : Nat → Prop) (s : Mm) (hd : 4096 ∣ s.freeList.head)
    (hroom : s.freeList.head + 4096 * k ≤ 2 ^ 52) (hused : ∀ q, used q → q < s.freeList.head) :
    Supplies bumpAlloc k used s := by
  induction k generalizing used s with
  | zero => trivial
  | succ k ih =>
      intro m hm
      have hlt : s.freeList.head < 2 ^ 52 := by omega
      refine ⟨_, _, rfl, hd, hlt, fun h => Nat.lt_irrefl _ (hused _ h), rfl, fun _ _ _ _ _ => rfl, ?_⟩
      refine ih _ _ ?_ ?_ ?_
      · exact Nat.dvd_add hd (Nat.dvd_refl 4096)
      · show s.freeList.head + 4096 + 4096 * k ≤ 2 ^ 52
        omega
      · intro q hx
        rcases hx with hq | rfl
        · exact Nat.lt_add_right 4096 (hused q hq)
        · exact Nat.lt_add_of_pos_right (by decide)

/-- The root table is the page 0x1000, and there are two pages in use. -/
def emptyMap : Mm := ⟨fun _ => 0, ⟨0x2000, 0⟩, pmlEntry 0x1000, false⟩

def firstPages (q : Nat) : Prop := q = 0 ∨ q = 0x1000

theorem emptyMap_root : pmlGetAddr (pmlEntry 0x1000) = 0x1000 := (pmlEntry_facts (by decide) (by decide)).2

theorem emptyMap_follow {π : List Nat} {c : Nat} (h : follow emptyMap.mem π 0x1000 = some c) :
    π = [] ∧ c = 0x1000 := by
  cases π with
  | nil => exact ⟨rfl, (Option.some.inj h).symm⟩
  | cons i π =>
      have hP : pmlGetP (entry emptyMap.mem 0x1000 i) = false := by
        rw [show entry emptyMap.mem 0x1000 i = 0 from rfl]
        decide
      simp only [follow, hP, Bool.false_eq_true, if_false] at h
      cases h

theorem emptyMap_ready : Ready bumpAlloc (pmlGetAddr (pmlEntry 0x1000)) 3 firstPages emptyMap := by
  rw [emptyMap_root]
  refine ⟨⟨by decide, ?_, ?_⟩, ?_, ?_, supplies_bump 3 _ _ (by decide) (by decide) ?_⟩
  · intro π π' c _ _ _ _ h h'
    rw [(emptyMap_follow h).1, (emptyMap_follow h').1]
  · intro π π' c _ _ _ hl _ h'
    rw [(emptyMap_follow h').1] at hl
    cases hl
  · rintro q (rfl | rfl) <;> decide
  · intro q hx
    obtain ⟨π, -, -, h⟩ := hx
    exact Or.inr (emptyMap_follow h).2
  · rintro q (rfl | rfl) <;> decide

theorem mapping_law_empty :
    ∃ s', mapProcessPageWith bumpAlloc emptyMap (pmlEntry 0x1000) 0 0x400000 = some s' ∧
      translate s'.mem (pmlGetAddr (pmlEntry 0x1000)) 0x400000 = some 0 := by
  have hnt : ¬ IsTable emptyMap.mem (pmlGetAddr (pmlEntry 0x1000)) 0 := by
    rw [emptyMap_root]
    intro hx
    obtain ⟨π, -, -, h⟩ := hx
    exact absurd (emptyMap_follow h).2 (by decide)
  obtain ⟨⟨s', h1, -, h2, -⟩, -⟩ := mapping_law bumpAlloc emptyMap (pmlEntry 0x1000) 0 0x400000 firstPages
    emptyMap_ready ⟨by decide, by decide⟩ (Or.inl rfl) hnt (by decide)
  exact ⟨s', h1, h2⟩

/-- **A table of the map as the frame**: the root is mapped at the address 0, and is a table and a frame. -/
theorem maps_own_table :
    ¬ ∀ (alloc : Alloc) (s : Mm) (e phys virt : Nat) (used : Nat → Prop),
      Ready alloc (pmlGetAddr e) 3 used s → 4096 ∣ phys ∧ phys < 2 ^ 52 → used phys → virt < 2 ^ 39 →
      ∃ s', mapProcessPageWith alloc s e phys virt = some s' ∧ WellFormed s'.mem (pmlGetAddr e) ∧
        translate s'.mem (pmlGetAddr e) virt = some phys := by
  intro h
  obtain ⟨s', -, hw, ht⟩ := h bumpAlloc emptyMap (pmlEntry 0x1000) 0x1000 0 firstPages emptyMap_ready
    ⟨by decide, by decide⟩ (Or.inr rfl) (by decide)
  rw [emptyMap_root] at hw ht
  refine hw.apart [] (leafPath 0) 0x1000 (fun _ h => absurd h List.not_mem_nil) (leafPath_path 0) (by decide) ?_ rfl ht
  exact length_leafPath 0

end MemoryManager

end SimpleOS2
