/-
  File:      SimpleOS2/Memory/NewNodes.lean
  Subject:   WHAT A MAP COSTS (memory/MemoryManager.cpp): one page for each node that is missing.

  A node of a map is a list of at most three indices: a table, or a frame behind a leaf. The functions of the memory
  manager make nodes, each on a page of its own. Here they are counted, so that a call is known to run out of pages
  exactly when there are fewer free ones than nodes to make.

  * `spare_take` -- pages that are handed out are no longer free, and no others;
  * `missing` -- how many of the nodes in a set are not there;
  * `Made` -- from one state to another the nodes of a set were made, at a number of pages; `Made.trans`,
    `missing_add` -- one after the other;
  * `nextTableBy_made`, `walkTablesBy_made`, `leaf_made` -- one table, the walk, the leaf.
-/
import SimpleOS2.Memory.PageRuns
import SimpleOS2.Memory.PageTables

namespace SimpleOS2

open Lib FreeList

namespace MemoryManager

/-! ## 1. Free pages, counted -/

section Count

variable {pool : Nat → Prop} {s : Mm} {own own' : Nat → Nat} {ps : List Nat} {z : Nat → Nat} {n : Nat}

theorem spare_take {R : Finset Nat} (hR : ∀ p ∈ R, pool p ∧ own p = 0)
    (h : ∀ p, own' p = own p + if p ∈ R then 1 else 0) (j : Nat) : Spare pool own' j ↔ Spare pool own (j + R.card) := by
  constructor
  · intro hx
    obtain ⟨S, hc, hS⟩ := hx
    have hout : ∀ p ∈ S, p ∉ R ∧ pool p ∧ own p = 0 := fun p hp => by
      obtain ⟨h1, h2⟩ := hS p hp
      have h3 := h p
      split_ifs at h3 with hin
      · omega
      · exact ⟨hin, h1, by omega⟩
    refine ⟨S ∪ R, ?_, fun p hp => ?_⟩
    · rw [Finset.card_union_of_disjoint (Finset.disjoint_left.mpr fun p hp => (hout p hp).1)]
      exact Nat.add_le_add_right hc _
    · rcases Finset.mem_union.mp hp with hp | hp
      · exact (hout p hp).2
      · exact hR p hp
  · intro hx
    obtain ⟨S, hc, hS⟩ := hx
    refine ⟨S \ R, ?_, fun p hp => ?_⟩
    · have := Finset.le_card_sdiff R S
      omega
    · obtain ⟨hp, hin⟩ := Finset.mem_sdiff.mp hp
      refine ⟨(hS p hp).1, ?_⟩
      rw [h p, if_neg hin, (hS p hp).2]

theorem spare_zero : Spare pool own 0 := ⟨∅, Nat.zero_le _, fun p hp => absurd hp (Finset.notMem_empty p)⟩

/-- The pages of a run. -/
def runPages (b n : Nat) : Finset Nat := (Finset.range n).image fun i => b + i * 4096

theorem mem_runPages {b p : Nat} (hb : 4096 ∣ b) : p ∈ runPages b n ↔ InRun b n p := by
  unfold runPages InRun
  rw [Finset.mem_image]
  constructor
  · intro hx
    obtain ⟨i, hi, rfl⟩ := hx
    have := Finset.mem_range.mp hi
    omega
  · intro hx
    obtain ⟨h1, h2, h3⟩ := hx
    exact ⟨(p - b) / 4096, Finset.mem_range.mpr (by omega), by omega⟩

theorem card_runPages (b n : Nat) : (runPages b n).card = n := by
  unfold runPages
  rw [Finset.card_image_of_injective _ fun i j (h : b + i * 4096 = b + j * 4096) => by omega, Finset.card_range]

/-- `AllocatePages` writes only into free memory. -/
theorem allocatePages_frame (hI : AllocInv pool s own ps z) (h0 : 0 < n) (hn : n * 4096 < 2 ^ 64) {r : Mm × Nat}
    (hr : Halts (fun k => allocatePages k s n) r) (a : Nat) (ha : r.1.mem a ≠ s.mem a) :
    ∃ q, InPage q a ∧ pool q ∧ own q = 0 := by
  obtain ⟨hnone, hsome⟩ := allocatePages_find hI h0 hn
  have hcov : Cover ps z a := by
    by_contra hno
    refine ha ?_
    cases hfind : ps.find? fun p => n * 4096 ≤ z p with
    | none =>
        rw [hr.unique ⟨ps.length + 1, fun k hk => hnone hfind k hk⟩]
    | some c =>
        obtain ⟨q, ps', z', hq, hD⟩ := hsome c hfind
        rw [hr.unique ⟨ps.length + 1, fun k hk => hq k hk⟩]
        exact hD.frame a hno
  obtain ⟨q, h1, h2, h3⟩ := (hI.cover a).mp hcov
  exact ⟨q, h3, h1, h2⟩

end Count

/-! ## 2. Nodes that are made -/

/-- How many of the nodes are not there. -/
def missing (m : Mem) (root : Nat) (W : Finset (List Nat)) : Nat := (W.filter fun π => follow m π root = none).card

/-- A managed page that neither the rest nor the map has. -/
def Unowned (pool : Nat → Prop) (rest : Nat → Nat) (m : Mem) (root p : Nat) : Prop :=
  pool p ∧ treeOwn rest m root p = 0

/-- **From `s` to `s'` the nodes `W` were made**, and `k` free pages taken. The rest is what other owners have; pages
    may come into it, or go from it into the map. -/
structure Made (pool : Nat → Prop) (root : Nat) (rest rest' : Nat → Nat) (W : Finset (List Nat)) (k : Nat)
    (s s' : Mm) : Prop where
  alloc : ∃ ps z, AllocInv pool s' (treeOwn rest' s'.mem root) ps z
  pml4 : s'.pml4 = s.pml4
  failed : s'.failed = s.failed
  gives : ∀ p, 0 < rest' p → 0 < rest p ∨ Unowned pool rest s.mem root p
  keeps : ∀ q, 0 < rest q → 0 < rest' q → SamePage s.mem s'.mem q
  kept : ∀ π c, Path π → π.length ≤ 3 → follow s.mem π root = some c → follow s'.mem π root = some c
  nodes : ∀ π, Path π → π.length ≤ 3 → (follow s'.mem π root ≠ none ↔ follow s.mem π root ≠ none ∨ π ∈ W)
  fresh : ∀ π c, Path π → π.length ≤ 3 → follow s'.mem π root = some c →
    follow s.mem π root = some c ∨ (0 < rest c ∧ rest' c = 0 ∧ π.length = 3) ∨ Unowned pool rest s.mem root c
  le : ∀ p, treeOwn rest s.mem root p ≤ treeOwn rest' s'.mem root p
  spare : ∀ j, Spare pool (treeOwn rest' s'.mem root) j ↔ Spare pool (treeOwn rest s.mem root) (j + k)
  writes : ∀ a, s'.mem a ≠ s.mem a →
    ∃ q, InPage q a ∧ (Unowned pool rest s.mem root q ∨ IsTable s.mem root q)

section Made

variable {pool : Nat → Prop} {root : Nat} {rest rest' rest'' : Nat → Nat} {W W' A B : Finset (List Nat)} {k k' : Nat}
  {s s' s'' : Mm} {ps : List Nat} {z : Nat → Nat} {q : Nat}

theorem Unowned.back (h : Unowned pool rest' s'.mem root q)
    (hle : ∀ p, treeOwn rest s.mem root p ≤ treeOwn rest' s'.mem root p) : Unowned pool rest s.mem root q :=
  ⟨h.1, Nat.le_zero.mp (h.2 ▸ hle q)⟩

theorem Made.refl (hI : AllocInv pool s (treeOwn rest s.mem root) ps z)
    (hW : ∀ π ∈ W, follow s.mem π root ≠ none) : Made pool root rest rest W 0 s s where
  alloc := ⟨ps, z, hI⟩
  pml4 := rfl
  failed := rfl
  gives _ h := Or.inl h
  keeps _ _ _ _ _ _ := rfl
  kept _ _ _ _ h := h
  nodes π _ _ := ⟨Or.inl, fun h => h.elim id (hW π)⟩
  fresh _ _ _ _ h := Or.inl h
  le _ := Nat.le_refl _
  spare _ := Iff.rfl
  writes _ h := absurd rfl h

/-- **One after the other.** -/
theorem Made.trans (h : Made pool root rest rest' W k s s') (h' : Made pool root rest' rest'' W' k' s' s'') :
    Made pool root rest rest'' (W ∪ W') (k + k') s s'' where
  alloc := h'.alloc
  pml4 := h'.pml4.trans h.pml4
  failed := h'.failed.trans h.failed
  gives p hp := by
    rcases h'.gives p hp with h1 | h1
    · exact h.gives p h1
    · exact Or.inr (h1.back h.le)
  keeps q hq hq'' := by
    have hq' : 0 < rest' q := by
      rcases h'.gives q hq'' with h1 | h1
      · exact h1
      · have := (h1.back h.le).2
        unfold treeOwn at this
        omega
    exact fun a h1 h2 => (h'.keeps q hq' hq'' a h1 h2).trans (h.keeps q hq hq' a h1 h2)
  kept π c hπ hl hf := h'.kept π c hπ hl (h.kept π c hπ hl hf)
  nodes π hπ hl := by
    rw [h'.nodes π hπ hl, h.nodes π hπ hl, Finset.mem_union, or_assoc]
  fresh π c hπ hl hf := by
    rcases h'.fresh π c hπ hl hf with h1 | ⟨h1, h2, h3⟩ | h1
    · rcases h.fresh π c hπ hl h1 with h4 | ⟨h4, h5, h6⟩ | h4
      · exact Or.inl h4
      · -- what has left the rest does not come back
        refine Or.inr (Or.inl ⟨h4, Nat.eq_zero_of_not_pos fun h7 => ?_, h6⟩)
        rcases h'.gives c h7 with h8 | h8
        · omega
        · have := (h8.back h.le).2
          unfold treeOwn at this
          omega
      · exact Or.inr (Or.inr h4)
    · rcases h.gives c h1 with h4 | h4
      · exact Or.inr (Or.inl ⟨h4, h2, h3⟩)
      · exact Or.inr (Or.inr h4)
    · exact Or.inr (Or.inr (h1.back h.le))
  le p := (h.le p).trans (h'.le p)
  spare j := by
    rw [h'.spare j, h.spare (j + k'), Nat.add_assoc, Nat.add_comm k' k]
  writes a ha := by
    by_cases h1 : s'.mem a = s.mem a
    · obtain ⟨q, hq, h2 | h2⟩ := h'.writes a fun h3 => ha (h3.trans h1)
      · exact ⟨q, hq, Or.inl (h2.back h.le)⟩
      · obtain ⟨π, hπ, hl, hf⟩ := h2
        rcases h.fresh π q hπ (by omega) hf with h3 | h3 | h3
        · exact ⟨q, hq, Or.inr ⟨π, hπ, hl, h3⟩⟩
        · exact absurd h3.2.2 hl.ne
        · exact ⟨q, hq, Or.inl h3⟩
    · exact h.writes a h1

/-- The cost of the nodes `A ∪ B`, if those of `A` are made first. -/
theorem missing_add (h : Made pool root rest rest' W k s s') (hA : A ⊆ W)
    (hB : ∀ π ∈ B, Path π ∧ π.length ≤ 3 ∧ (π ∈ W → π ∈ A)) :
    missing s.mem root (A ∪ B) = missing s.mem root A + missing s'.mem root B := by
  have hnone : ∀ π ∈ B, follow s'.mem π root = none ↔ follow s.mem π root = none ∧ π ∉ A := fun π hπ => by
    obtain ⟨h1, h2, h3⟩ := hB π hπ
    have hn := h.nodes π h1 h2
    constructor
    · intro h4
      have h5 := not_or.mp fun h6 => (hn.mpr h6) h4
      exact ⟨not_not.mp h5.1, fun h6 => h5.2 (hA h6)⟩
    · intro h4
      by_contra h5
      rcases hn.mp h5 with h6 | h6
      · exact h6 h4.1
      · exact h4.2 (h3 h6)
  unfold missing
  rw [← Finset.card_union_of_disjoint]
  · congr 1
    ext π
    simp only [Finset.mem_union, Finset.mem_filter]
    constructor
    · intro h1
      by_cases hin : π ∈ A
      · exact Or.inl ⟨hin, h1.2⟩
      · have hB' := h1.1.resolve_left hin
        exact Or.inr ⟨hB', (hnone π hB').mpr ⟨h1.2, hin⟩⟩
    · intro h1
      rcases h1 with h1 | h1
      · exact ⟨Or.inl h1.1, h1.2⟩
      · exact ⟨Or.inr h1.1, ((hnone π h1.1).mp h1.2).1⟩
  · refine Finset.disjoint_left.mpr fun π h1 h2 => ?_
    have h3 := Finset.mem_filter.mp h2
    exact ((hnone π h3.1).mp h3.2).2 (Finset.mem_filter.mp h1).1

theorem missing_mono {m : Mem} (h : A ⊆ B) : missing m root A ≤ missing m root B :=
  Finset.card_le_card (Finset.filter_subset_filter _ h)

theorem missing_empty (m : Mem) (root : Nat) : missing m root ∅ = 0 := rfl

theorem missing_singleton (m : Mem) (root : Nat) (π : List Nat) :
    missing m root {π} = if follow m π root = none then 1 else 0 := by
  unfold missing
  rw [Finset.filter_singleton]
  split_ifs <;> rfl

/-- **A run of pages is taken**, for the rest so far. -/
theorem run_made (hp : Managed pool) {n : Nat} (h0 : 0 < n) (hn : n * 4096 < 2 ^ 64)
    (hI : AllocInv pool s (treeOwn rest s.mem root) ps z) :
    Settles (∀ c ∈ ps, z c < n * 4096) (fun k => allocatePages k s n) (fun r => r.1.failed = true)
      fun r => 4096 ∣ r.2 ∧ (∀ p, InRun r.2 n p → Unowned pool rest s.mem root p) ∧
        Made pool root rest (fun p => rest p + if InRun r.2 n p then 1 else 0) ∅ n s r.1 := by
  rcases allocatePages_spec hp hI h0 hn with ⟨r, hr, ⟨ps', z', hI'⟩, hpml, hfail, hd, hfree, hk⟩ | hbad
  · have hsame := hk.uses (uses_le_treeOwn rest s.mem root)
    have hown : ∀ p, treeOwn (fun p => rest p + if InRun r.2 n p then 1 else 0) r.1.mem root p =
        treeOwn rest s.mem root p + if InRun r.2 n p then 1 else 0 := fun p => by
      unfold treeOwn
      rw [hsame.1 p]
      exact Nat.add_right_comm _ _ _
    refine Or.inl ⟨r, hr, hd, hfree, ⟨ps', z', hI'.congr hown⟩, hpml, hfail, fun p h => ?_,
      fun q hq _ => hk q ?_, fun π c hπ hl hf => (hsame.2 π hπ hl).trans hf, fun π hπ hl => ?_,
      fun π c hπ hl hf => Or.inl ((hsame.2 π hπ hl).symm.trans hf), fun p => ?_, fun j => ?_, fun a ha => ?_⟩
    · split_ifs at h with hin
      · exact Or.inr (hfree p hin)
      · exact Or.inl h
    · exact Nat.lt_of_lt_of_le hq (Nat.le_add_right _ _)
    · rw [hsame.2 π hπ hl]
      exact (or_iff_left (Finset.notMem_empty π)).symm
    · rw [hown p]
      exact Nat.le_add_right _ _
    · have hR : ∀ p ∈ runPages r.2 n, pool p ∧ treeOwn rest s.mem root p = 0 := fun p hp =>
        hfree p ((mem_runPages hd).mp hp)
      refine (spare_take hR (fun p => ?_) j).trans (by rw [card_runPages])
      rw [hown p]
      simp only [mem_runPages hd]
    · obtain ⟨q, h1, h2, h3⟩ := allocatePages_frame hI h0 hn hr a ha
      exact ⟨q, h1, Or.inl ⟨h2, h3⟩⟩
  · exact Or.inr hbad

/-- One page. -/
theorem page_made (hp : Managed pool) (hI : AllocInv pool s (treeOwn rest s.mem root) ps z) :
    Settles (¬ Spare pool (treeOwn rest s.mem root) 1) (fun k => allocatePages k s 1) (fun r => r.1.failed = true)
      fun r => Unowned pool rest s.mem root r.2 ∧
        Made pool root rest (fun p => rest p + if p = r.2 then 1 else 0) ∅ 1 s r.1 := by
  refine (run_made hp Nat.one_pos (by decide) hI).mono (fun hsmall hS => ?_) ?_
  · obtain ⟨c, hcp, h1⟩ := hI.segment_of_spare hS
    have h2 := hsmall c hcp
    omega
  · intro r hx
    obtain ⟨hd, hfree, hm⟩ := hx
    simp only [inRun_one hd] at hm
    exact ⟨hfree _ ((inRun_one hd).mpr rfl), hm⟩

/-- What is written into a page that came into the rest changes nothing else. -/
theorem Made.into (hp : Managed pool) (h : Made pool root rest rest' W k s s') {f : Nat}
    (hf : Unowned pool rest s.mem root f) (hf' : 0 < rest' f) (hl : s''.freeList = s'.freeList)
    (hpml : s''.pml4 = s'.pml4) (hfail : s''.failed = s'.failed)
    (hw : ∀ a, ¬ InPage f a → s''.mem a = s'.mem a) : Made pool root rest rest' W k s s'' := by
  obtain ⟨ps, z, hI⟩ := h.alloc
  have hrf : rest f = 0 := by
    have := hf.2
    unfold treeOwn at this
    omega
  have hfd := (hp f hf.1).1
  have hother : ∀ q, 4096 ∣ q → q ≠ f → SamePage s'.mem s''.mem q := fun q hq hne a h1 h2 =>
    hw a fun ha => hne (InPage.inj hq hfd ⟨h1, h2⟩ ha)
  have hone : ∀ q, 0 < uses s'.mem 3 root q → 4096 ∣ q ∧ q ≠ f := fun q hq => by
    refine ⟨(hp q (hI.managed q (by unfold treeOwn; omega))).1, ?_⟩
    rintro rfl
    have := hI.once q
    unfold treeOwn at this
    omega
  have hpages : ∀ q, 0 < tables s'.mem 3 root q → SamePage s'.mem s''.mem q := fun q hq => by
    have h1 := hone q (Nat.lt_of_lt_of_le hq (tables_le_uses 3 root q))
    exact hother q h1.1 h1.2
  have hsame := uses_congr hpages
  have hown : ∀ p, treeOwn rest' s''.mem root p = treeOwn rest' s'.mem root p := fun p => by
    unfold treeOwn
    rw [hsame.1 p]
  have hfun : treeOwn rest' s''.mem root = treeOwn rest' s'.mem root := funext hown
  refine ⟨⟨ps, z, ?_⟩, hpml.trans h.pml4, hfail.trans h.failed, h.gives, fun q hq hq' a h1 h2 => ?_,
    fun π c hπ hl hf => (hsame.2.2 π hπ hl).trans (h.kept π c hπ hl hf), fun π hπ hl => ?_,
    fun π c hπ hl hf => h.fresh π c hπ hl ((hsame.2.2 π hπ hl).symm.trans hf), fun p => ?_, fun j => ?_,
    fun a ha => ?_⟩
  · rw [hfun]
    exact hI.write hp (q := f) (by unfold treeOwn; omega) hl hw
  · have hqf : q ≠ f := by
      rintro rfl
      omega
    have hqd := (hp q (hI.managed q (by unfold treeOwn; omega))).1
    exact (hother q hqd hqf a h1 h2).trans (h.keeps q hq hq' a h1 h2)
  · rw [hsame.2.2 π hπ hl]
    exact h.nodes π hπ hl
  · rw [hown p]
    exact h.le p
  · rw [hfun]
    exact h.spare j
  · by_cases hin : InPage f a
    · exact ⟨f, hin, Or.inl hf⟩
    · exact h.writes a fun heq => ha ((hw a hin).trans heq)

/-! ## 3. One node -/

/-- An entry that points to a page: `PML_SET_ADDR(addr)` and some flags, among them `PML_SET_P(1)`. -/
def PointsTo (mk : Nat → Nat) : Prop := ∀ p, 4096 ∣ p → p < 2 ^ 52 → pmlGetP (mk p) = true ∧ pmlGetAddr (mk p) = p

theorem pmlEntry_pointsTo : PointsTo pmlEntry := fun _ hd hp => pmlEntry_facts hd hp

/-- What one new entry changes, the page behind it being a frame or cleared. -/
theorem entry_link (hp : Managed pool) {path : List Nat} {n c i f v : Nat} (hlen : path.length + n + 1 = 3)
    (hpath : Path path) (hi : i < 512) (hf : follow s.mem path root = some c)
    (habs : follow s.mem (path ++ [i]) root = none) (hv : pmlGetP v = true ∧ pmlGetAddr v = f)
    (hclear : 0 < n → ∀ j, j < 512 → entry s.mem f j = 0)
    (hI : AllocInv pool s (fun p => treeOwn rest s.mem root p + if p = f then 1 else 0) ps z) :
    Grown pool rest root s (setEntry s c i v) ∧
      (∀ p, uses (setEntry s c i v).mem 3 root p = uses s.mem 3 root p + if p = f then 1 else 0) ∧
      follow (setEntry s c i v).mem (path ++ [i]) root = some f ∧
      ∀ π, Path π → π.length ≤ 3 → π ≠ path ++ [i] →
        follow (setEntry s c i v).mem π root = follow s.mem π root := by
  have habsP : pmlGetP (entry s.mem c i) = false := by
    by_contra hc
    rw [follow_snoc s.mem path i root c hf, if_pos (by simpa using hc)] at habs
    cases habs
  have hvia : ∀ p, usesVia s.mem n v p = if p = f then 1 else 0 := fun p => by
    unfold usesVia
    rw [if_pos hv.1, hv.2]
    cases n with
    | zero => rfl
    | succ n => exact uses_cleared (hclear (Nat.succ_pos n))
  obtain ⟨hg, hu, hfol, hthru⟩ := link_spec hp hlen hpath hi hf habsP hvia hI
  refine ⟨hg, hu, ?_, fun π hπ hl hne => ?_⟩
  · rw [hthru [] (fun j hj => absurd hj List.not_mem_nil) (Nat.zero_le n), if_pos hv.1, hv.2]
    rfl
  · by_cases hpre : path ++ [i] <+: π
    · -- beyond the new entry there is nothing, and there was nothing before
      obtain ⟨ρ, rfl⟩ := hpre
      have hρ : ρ ≠ [] := by
        rintro rfl
        exact hne (List.append_nil _)
      have hρp : Path ρ := fun j hj => hπ j (List.mem_append_right _ hj)
      have hρl : ρ.length ≤ n := by
        rw [List.length_append, List.length_append, List.length_singleton] at hl
        omega
      have hn : 0 < n := Nat.lt_of_lt_of_le (List.length_pos_iff.mpr hρ) hρl
      rw [List.append_assoc, List.singleton_append, hthru ρ hρp hρl, if_pos hv.1, hv.2,
        follow_cleared (hclear hn) hρp hρ, follow_through hf, habsP]
      rfl
    · exact hfol π hπ hl hpre

/-- A path is there or not there afterwards, by what one new entry changes. -/
theorem nodes_link {m m' : Mem} {π₀ : List Nat} {f : Nat} (hnew : follow m' π₀ root = some f)
    (hold : ∀ π, Path π → π.length ≤ 3 → π ≠ π₀ → follow m' π root = follow m π root) (π : List Nat) (hπ : Path π)
    (hl : π.length ≤ 3) : follow m' π root ≠ none ↔ follow m π root ≠ none ∨ π ∈ ({π₀} : Finset (List Nat)) := by
  rw [Finset.mem_singleton]
  by_cases heq : π = π₀
  · subst heq
    exact iff_of_true (by rw [hnew]; exact Option.some_ne_none f) (Or.inr rfl)
  · rw [hold π hπ hl heq]
    exact (or_iff_left heq).symm

theorem kept_link {m m' : Mem} {π₀ : List Nat} (habs : follow m π₀ root = none)
    (hold : ∀ π, Path π → π.length ≤ 3 → π ≠ π₀ → follow m' π root = follow m π root) (π : List Nat) (c : Nat)
    (hπ : Path π) (hl : π.length ≤ 3) (hf : follow m π root = some c) : follow m' π root = some c := by
  refine (hold π hπ hl ?_).trans hf
  rintro rfl
  rw [habs] at hf
  cases hf

/-- An entry is written in its table. -/
theorem writes_setEntry {c i v a : Nat} (hi : i < 512) (ha : (setEntry s c i v).mem a ≠ s.mem a) : InPage c a := by
  by_contra hno
  refine ha (Function.update_of_ne ?_ _ _)
  rintro rfl
  exact hno (by unfold InPage cell; omega)

/-- **A frame of the rest is hung into a leaf.** -/
theorem frame_made (hp : Managed pool) {path : List Nat} {c i f v : Nat} (hlen : path.length = 2) (hpath : Path path)
    (hi : i < 512) (hf : follow s.mem path root = some c) (habs : follow s.mem (path ++ [i]) root = none)
    (hv : pmlGetP v = true ∧ pmlGetAddr v = f) (hr : ∀ p, rest p = rest' p + if p = f then 1 else 0)
    (hI : AllocInv pool s (treeOwn rest s.mem root) ps z) :
    Made pool root rest rest' {path ++ [i]} 0 s (setEntry s c i v) ∧
      follow (setEntry s c i v).mem (path ++ [i]) root = some f := by
  have hown : ∀ p, treeOwn rest s.mem root p = treeOwn rest' s.mem root p + if p = f then 1 else 0 := fun p => by
    unfold treeOwn
    rw [hr p]
    exact Nat.add_right_comm _ _ _
  obtain ⟨hg, hu, hnew, hold⟩ := entry_link (n := 0) hp (by omega) hpath hi hf habs hv
    (fun h => absurd h (Nat.lt_irrefl 0)) (hI.congr fun p => (hown p).symm)
  have hown' : treeOwn rest' (setEntry s c i v).mem root = treeOwn rest s.mem root := by
    funext p
    rw [hown p]
    unfold treeOwn
    rw [hu p, Nat.add_assoc]
  refine ⟨⟨hg.alloc, hg.pml4, hg.failed, fun p h => Or.inl ?_, fun q _ hq => hg.keeps q hq, kept_link habs hold,
    nodes_link hnew hold, fun π d hπ hl hd => ?_, fun p => ?_, fun j => ?_, fun a ha => ?_⟩, hnew⟩
  · rw [hr p]
    exact Nat.lt_of_lt_of_le h (Nat.le_add_right _ _)
  · by_cases heq : π = path ++ [i]
    · subst heq
      obtain rfl : f = d := Option.some.inj (hnew.symm.trans hd)
      have h1 := hr f
      have h2 := hI.once f
      rw [if_pos rfl] at h1
      unfold treeOwn at h2
      exact Or.inr (Or.inl ⟨by omega, by omega, by rw [List.length_append, hlen]; rfl⟩)
    · exact Or.inl ((hold π hπ hl heq).symm.trans hd)
  · rw [hown']
  · rw [hown', Nat.add_zero]
  · exact ⟨c, writes_setEntry hi ha, Or.inr ⟨path, hpath, by omega, hf⟩⟩

/-- **A new page is hung into the tree** behind an entry that was not present. -/
theorem Made.hang (hp : Managed pool) {path : List Nat} {n c i f v : Nat}
    (h : Made pool root rest (fun p => rest p + if p = f then 1 else 0) ∅ 1 s s')
    (hfu : Unowned pool rest s.mem root f) (hlen : path.length + n + 1 = 3) (hpath : Path path) (hi : i < 512)
    (hf : follow s.mem path root = some c) (habs : follow s.mem (path ++ [i]) root = none)
    (hv : pmlGetP v = true ∧ pmlGetAddr v = f) (hclear : 0 < n → ∀ j, j < 512 → entry s'.mem f j = 0) :
    Made pool root rest rest {path ++ [i]} 1 s (setEntry s' c i v) ∧
      follow (setEntry s' c i v).mem (path ++ [i]) root = some f := by
  obtain ⟨ps, z, hI⟩ := h.alloc
  have hpi : Path (path ++ [i]) := fun j hj => by
    rcases List.mem_append.mp hj with hj | hj
    · exact hpath j hj
    · exact List.mem_singleton.mp hj ▸ hi
  have hpil : (path ++ [i]).length ≤ 3 := by
    rw [List.length_append, List.length_singleton]
    omega
  -- the tree has not changed so far
  have hsame : ∀ π, Path π → π.length ≤ 3 → follow s'.mem π root = follow s.mem π root := fun π hπ hl => by
    cases hcase : follow s.mem π root with
    | some d => exact h.kept π d hπ hl hcase
    | none =>
        by_contra hne
        rcases (h.nodes π hπ hl).mp hne with h1 | h1
        · exact h1 hcase
        · exact Finset.notMem_empty π h1
  have hown : ∀ p, treeOwn (fun p => rest p + if p = f then 1 else 0) s'.mem root p =
      treeOwn rest s'.mem root p + if p = f then 1 else 0 := fun p => Nat.add_right_comm _ _ _
  obtain ⟨hg, hu, hnew, hold⟩ := entry_link hp hlen hpath hi ((hsame path hpath (by omega)).trans hf)
    ((hsame _ hpi hpil).trans habs) hv hclear (hI.congr fun p => (hown p).symm)
  have hold' : ∀ π, Path π → π.length ≤ 3 → π ≠ path ++ [i] →
      follow (setEntry s' c i v).mem π root = follow s.mem π root := fun π hπ hl hne =>
    (hold π hπ hl hne).trans (hsame π hπ hl)
  have hown' : treeOwn rest (setEntry s' c i v).mem root =
      treeOwn (fun p => rest p + if p = f then 1 else 0) s'.mem root := by
    funext p
    rw [hown p]
    unfold treeOwn
    rw [hu p, Nat.add_assoc]
  refine ⟨⟨hg.alloc, hg.pml4.trans h.pml4, hg.failed.trans h.failed, fun p h => Or.inl h, fun q hq _ a h1 h2 => ?_,
    kept_link habs hold', nodes_link hnew hold', fun π d hπ hl hd => ?_, fun p => ?_, fun j => ?_, fun a ha => ?_⟩,
    hnew⟩
  · exact (hg.keeps q hq a h1 h2).trans
      (h.keeps q hq (Nat.lt_of_lt_of_le hq (Nat.le_add_right _ _)) a h1 h2)
  · by_cases heq : π = path ++ [i]
    · subst heq
      obtain rfl : f = d := Option.some.inj (hnew.symm.trans hd)
      exact Or.inr (Or.inr hfu)
    · exact Or.inl ((hold' π hπ hl heq).symm.trans hd)
  · rw [hown']
    exact h.le p
  · rw [hown']
    exact h.spare j
  · by_cases h1 : s'.mem a = s.mem a
    · exact ⟨c, writes_setEntry hi fun h2 => ha (h2.trans h1), Or.inr ⟨path, hpath, by omega, hf⟩⟩
    · exact h.writes a h1

/-! ## 4. The walk -/

/-- The nodes of the walk to an address, and with its leaf. -/
def walkNodes (virt : Nat) : Finset (List Nat) := {[getPml3Index virt]} ∪ {walkPath virt}

def leafNodes (virt : Nat) : Finset (List Nat) := walkNodes virt ∪ {leafPath virt}

/-- `MapProcessPage` and `MapKernelPage` make tables alike, up to the flags of the entry. -/
def nextTableBy (mk : Nat → Nat) (fuel : Nat) (s : Mm) (t i : Nat) : Option (Mm × Nat) :=
  if pmlGetP (entry s.mem t i) then some (s, pmlGetAddr (entry s.mem t i))
  else (allocatePages fuel s 1).map fun r => (setEntry (zeroTable r.1 r.2) t i (mk r.2), r.2)

def walkTablesBy (mk : Nat → Nat) (fuel : Nat) (s : Mm) (pml4Entry virt : Nat) : Option (Mm × Nat) :=
  (nextTableBy mk fuel s (pmlGetAddr pml4Entry) (getPml3Index virt)).bind fun r =>
    nextTableBy mk fuel r.1 r.2 (getPml2Index virt)

theorem nextTableBy_failed {mk : Nat → Nat} {fuel t i : Nat} {r : Mm × Nat} (h : s.failed = true)
    (hr : nextTableBy mk fuel s t i = some r) : r.1.failed = true := by
  unfold nextTableBy at hr
  split_ifs at hr
  · rw [← Option.some.inj hr]
    exact h
  · obtain ⟨q, hq, rfl⟩ := Option.map_eq_some_iff.mp hr
    have h1 := allocatePages_failed h hq
    simpa using h1

theorem walkTablesBy_failed {mk : Nat → Nat} {fuel e virt : Nat} {r : Mm × Nat} (h : s.failed = true)
    (hr : walkTablesBy mk fuel s e virt = some r) : r.1.failed = true := by
  obtain ⟨q, hq, hr⟩ := Option.bind_eq_some_iff.mp hr
  exact nextTableBy_failed (nextTableBy_failed h hq) hr

variable {mk : Nat → Nat}

theorem path_snoc {path : List Nat} {i : Nat} (hpath : Path path) (hi : i < 512) : Path (path ++ [i]) := fun j hj => by
  rcases List.mem_append.mp hj with hj | hj
  · exact hpath j hj
  · exact List.mem_singleton.mp hj ▸ hi

/-- **One table**, if it is missing. -/
theorem nextTableBy_made (hp : Managed pool) (hmk : PointsTo mk) (path : List Nat) {t i : Nat}
    (hlen : path.length < 2) (hpath : Path path) (hi : i < 512) (hf : follow s.mem path root = some t)
    (hI : AllocInv pool s (treeOwn rest s.mem root) ps z) :
    Settles (¬ Spare pool (treeOwn rest s.mem root) (missing s.mem root {path ++ [i]}))
      (fun k => nextTableBy mk k s t i) (fun r => r.1.failed = true)
      fun r => Made pool root rest rest {path ++ [i]} (missing s.mem root {path ++ [i]}) s r.1 ∧
        follow r.1.mem (path ++ [i]) root = some r.2 := by
  rw [missing_singleton, follow_snoc s.mem path i root t hf]
  cases hP : pmlGetP (entry s.mem t i) with
  | true =>
      have hthere : follow s.mem (path ++ [i]) root = some (pmlGetAddr (entry s.mem t i)) := by
        rw [follow_snoc s.mem path i root t hf, if_pos hP]
      have hrun : (fun k => nextTableBy mk k s t i) = fun _ => some (s, pmlGetAddr (entry s.mem t i)) := by
        funext k
        rw [nextTableBy, if_pos hP]
      rw [hrun]
      refine Or.inl ⟨_, Halts.const _, Made.refl hI fun π hπ => ?_, hthere⟩
      rw [Finset.mem_singleton.mp hπ, hthere]
      exact Option.some_ne_none _
  | false =>
      have habs : follow s.mem (path ++ [i]) root = none := by
        rw [follow_snoc s.mem path i root t hf, hP]
        rfl
      have hrun : (fun k => nextTableBy mk k s t i) = fun k =>
          (allocatePages k s 1).map fun r => (setEntry (zeroTable r.1 r.2) t i (mk r.2), r.2) := by
        funext k
        rw [nextTableBy, hP]
        rfl
      rw [hrun]
      refine (page_made hp hI).map ?_ fun a ha => by simpa using ha
      intro x hx
      obtain ⟨s1, f⟩ := x
      obtain ⟨hfu, hm⟩ := hx
      have hfields := zeroTable_fields s1 f
      have hm2 := hm.into hp hfu (by rw [if_pos rfl]; exact Nat.succ_pos _) hfields.1 hfields.2.1 hfields.2.2
        fun a ha => if_neg ha
      have hfd := hp f hfu.1
      exact hm2.hang hp hfu (n := 2 - path.length) (by omega) hpath
        hi hf habs (hmk f hfd.1 (by omega)) fun _ j hj => entry_zeroTable s1 hj

theorem walkNodes_path {virt : Nat} : ∀ π ∈ walkNodes virt, Path π ∧ π.length ≤ 2 := by
  intro π hπ
  have h3 : getPml3Index virt < 512 := getPmlIndex_lt 2 virt
  rcases Finset.mem_union.mp hπ with h | h
  · rw [Finset.mem_singleton.mp h]
    exact ⟨fun j hj => List.mem_singleton.mp hj ▸ h3, Nat.le_succ 1⟩
  · rw [Finset.mem_singleton.mp h]
    exact ⟨walkPath_path virt, Nat.le_refl 2⟩

/-- **Sequence**: the second part makes the nodes `B` after the first made the nodes `A`. -/
theorem made_bind {α β : Type} {f : Nat → Option α} {g : α → Nat → Option β} {F : α → Mm} {G : β → Mm}
    {R : α → Prop} {R' : β → Prop} (hA : A ⊆ W)
    (hB : ∀ π ∈ B, Path π ∧ π.length ≤ 3 ∧ (π ∈ W → π ∈ A))
    (h : Settles (¬ Spare pool (treeOwn rest s.mem root) (missing s.mem root A)) f (fun a => (F a).failed = true)
      fun a => Made pool root rest rest' W (missing s.mem root A) s (F a) ∧ R a)
    (hg : ∀ a, Made pool root rest rest' W (missing s.mem root A) s (F a) → R a →
      Settles (¬ Spare pool (treeOwn rest' (F a).mem root) (missing (F a).mem root B)) (g a)
        (fun b => (G b).failed = true)
        fun b => Made pool root rest' rest'' W' (missing (F a).mem root B) (F a) (G b) ∧ R' b)
    (hb : ∀ a n b, (F a).failed = true → g a n = some b → (G b).failed = true) :
    Settles (¬ Spare pool (treeOwn rest s.mem root) (missing s.mem root (A ∪ B)))
      (fun n => (f n).bind fun a => g a n) (fun b => (G b).failed = true)
      fun b => Made pool root rest rest'' (W ∪ W') (missing s.mem root (A ∪ B)) s (G b) ∧ R' b := by
  refine Settles.bind (h.mono (fun hn hS => hn (hS.mono ?_)) fun a ha => ha) ?_ hb
  · exact missing_mono Finset.subset_union_left
  · intro a hx
    obtain ⟨hm, hR⟩ := hx
    have hadd := missing_add hm hA hB
    refine (hg a hm hR).mono (fun hn hS => hn ?_) fun b hb => ⟨?_, hb.2⟩
    · rw [hm.spare, Nat.add_comm, ← hadd]
      exact hS
    · rw [hadd]
      exact hm.trans hb.1

/-- **The walk.** -/
theorem walkTablesBy_made (hp : Managed pool) (hmk : PointsTo mk) {e : Nat} (virt : Nat) (he : pmlGetAddr e = root)
    (hI : AllocInv pool s (treeOwn rest s.mem root) ps z) :
    Settles (¬ Spare pool (treeOwn rest s.mem root) (missing s.mem root (walkNodes virt)))
      (fun k => walkTablesBy mk k s e virt) (fun r => r.1.failed = true)
      fun r => Made pool root rest rest (walkNodes virt) (missing s.mem root (walkNodes virt)) s r.1 ∧
        follow r.1.mem (walkPath virt) root = some r.2 := by
  have h3 : getPml3Index virt < 512 := getPmlIndex_lt 2 virt
  have h2 : getPml2Index virt < 512 := getPmlIndex_lt 1 virt
  have hpath : Path [getPml3Index virt] := fun j hj => List.mem_singleton.mp hj ▸ h3
  unfold walkTablesBy
  rw [he]
  refine made_bind (F := Prod.fst) (G := Prod.fst) Finset.Subset.rfl (fun π hπ => ?_)
    (nextTableBy_made hp hmk [] (Nat.succ_pos 1) (fun j hj => absurd hj List.not_mem_nil) h3 rfl hI)
    (fun a hm ha => ?_) fun a n b ha hb => nextTableBy_failed ha hb
  · rw [Finset.mem_singleton.mp hπ]
    exact ⟨walkPath_path virt, Nat.le_succ 2, fun h => h⟩
  · obtain ⟨ps', z', hI'⟩ := hm.alloc
    exact nextTableBy_made hp hmk [getPml3Index virt] (Nat.lt_succ_self 1) hpath h2 ha hI'

/-- `MapProcessPage(pml4Entry, phys, virt)` and `MapKernelPage(phys, virt)`. -/
def mapPageBy (mk : Nat → Nat) (fuel : Nat) (s : Mm) (pml4Entry phys virt : Nat) : Option Mm :=
  (walkTablesBy mk fuel s pml4Entry virt).map fun r => setEntry r.1 r.2 (getPml1Index virt) (mk phys)

theorem mapProcessPage_by (fuel : Nat) (s : Mm) (pml4Entry phys virt : Nat) :
    mapProcessPage fuel s pml4Entry phys virt = mapPageBy pmlEntry fuel s pml4Entry phys virt := rfl

theorem mapPageBy_failed {fuel e phys virt : Nat} {r : Mm} (h : s.failed = true)
    (hr : mapPageBy mk fuel s e phys virt = some r) : r.failed = true := by
  obtain ⟨q, hq, rfl⟩ := Option.map_eq_some_iff.mp hr
  have h1 := walkTablesBy_failed h hq
  simpa using h1

/-- **A page of the rest is mapped** at an address that has no frame. -/
theorem mapPageBy_made (hp : Managed pool) (hmk : PointsTo mk) {e phys : Nat} (virt : Nat) (he : pmlGetAddr e = root)
    (hr : ∀ p, rest p = rest' p + if p = phys then 1 else 0) (habs : follow s.mem (leafPath virt) root = none)
    (hI : AllocInv pool s (treeOwn rest s.mem root) ps z) :
    Settles (¬ Spare pool (treeOwn rest s.mem root) (missing s.mem root (walkNodes virt)))
      (fun k => mapPageBy mk k s e phys virt) (fun r => r.failed = true)
      fun r => Made pool root rest rest' (leafNodes virt) (missing s.mem root (walkNodes virt)) s r ∧
        follow r.mem (leafPath virt) root = some phys := by
  have hphys : pool phys := hI.managed phys (by unfold treeOwn; rw [hr phys, if_pos rfl]; omega)
  have hd := hp phys hphys
  refine (walkTablesBy_made hp hmk virt he hI).map ?_ fun a ha => by simpa using ha
  intro x hx
  obtain ⟨s1, c⟩ := x
  obtain ⟨hm, hc⟩ := hx
  obtain ⟨ps1, z1, hI1⟩ := hm.alloc
  have habs1 : follow s1.mem (walkPath virt ++ [getPml1Index virt]) root = none := by
    by_contra hne
    rcases (hm.nodes _ (leafPath_path virt) (length_leafPath virt).le).mp hne with h | h
    · exact h habs
    · exact absurd (walkNodes_path _ h).2 (by rw [length_leafPath]; decide)
  obtain ⟨hm2, hnew⟩ := frame_made hp rfl (walkPath_path virt) (getPmlIndex_lt 0 virt) hc habs1
    (hmk phys hd.1 (by omega)) hr hI1
  exact ⟨hm.trans hm2, hnew⟩

/-- **`MapProcessPage(pml4Entry, virt)`** makes the walk and the leaf, and answers a pointer to
    its page. -/
theorem mapAnyPage_made (hp : Managed pool) {e : Nat} (virt : Nat) (he : pmlGetAddr e = root)
    (hI : AllocInv pool s (treeOwn rest s.mem root) ps z) :
    Settles (¬ Spare pool (treeOwn rest s.mem root) (missing s.mem root (leafNodes virt)))
      (fun k => mapAnyPage k s e virt) (fun r => r.1.failed = true)
      fun r => Made pool root rest rest (leafNodes virt) (missing s.mem root (leafNodes virt)) s r.1 ∧
        ∃ f, follow r.1.mem (leafPath virt) root = some f ∧ r.2 = physToKernelPtr f := by
  refine made_bind (F := Prod.fst) (G := Prod.fst) Finset.Subset.rfl (fun π hπ => ?_)
    (walkTablesBy_made hp pmlEntry_pointsTo virt he hI) (fun a hm hc => ?_) fun a n b ha hb => ?_
  · rw [Finset.mem_singleton.mp hπ]
    exact ⟨leafPath_path virt, (length_leafPath virt).le, fun h => h⟩
  · obtain ⟨ps', z', hI'⟩ := hm.alloc
    have hleaf : follow a.1.mem (leafPath virt) root = if pmlGetP (entry a.1.mem a.2 (getPml1Index virt)) then
        some (pmlGetAddr (entry a.1.mem a.2 (getPml1Index virt))) else none := leaf_entry hc
    rw [missing_singleton, hleaf]
    dsimp only
    cases hP : pmlGetP (entry a.1.mem a.2 (getPml1Index virt)) with
    | true =>
        rw [hP, if_pos rfl] at hleaf
        refine Or.inl ⟨_, Halts.const _, Made.refl hI' fun π hπ => ?_, _, hleaf, rfl⟩
        rw [Finset.mem_singleton.mp hπ, hleaf]
        exact Option.some_ne_none _
    | false =>
        rw [hP, if_neg (by decide)] at hleaf
        refine (page_made hp hI').map ?_ fun a ha => by simpa using ha
        intro x hx
        obtain ⟨s1, f⟩ := x
        obtain ⟨hfu, hm1⟩ := hx
        have hfd := hp f hfu.1
        obtain ⟨hm2, hnew⟩ := hm1.hang hp hfu (n := 0) rfl (walkPath_path virt) (getPmlIndex_lt 0 virt) hc hleaf
          (pmlEntry_facts hfd.1 (by omega)) fun h => absurd h (Nat.lt_irrefl 0)
        exact ⟨hm2, f, hnew, rfl⟩
  · dsimp only at hb
    split_ifs at hb
    · rw [← Option.some.inj hb]
      exact ha
    · obtain ⟨q, hq, rfl⟩ := Option.map_eq_some_iff.mp hb
      have h1 := allocatePages_failed ha hq
      simpa using h1

/-! ## 5. Loops -/

/-- The sets of the turns before `i`. -/
@[irreducible] def upto (V : Nat → Finset (List Nat)) (i : Nat) : Finset (List Nat) := (Finset.range i).biUnion V

theorem mem_upto {V : Nat → Finset (List Nat)} {i : Nat} {π : List Nat} : π ∈ upto V i ↔ ∃ j, j < i ∧ π ∈ V j := by
  unfold upto
  rw [Finset.mem_biUnion]
  simp only [Finset.mem_range]

theorem upto_succ (V : Nat → Finset (List Nat)) (i : Nat) : upto V (i + 1) = upto V i ∪ V i := by
  ext π
  rw [Finset.mem_union, mem_upto, mem_upto]
  constructor
  · intro hx
    obtain ⟨j, hj, h⟩ := hx
    by_cases heq : j = i
    · exact Or.inr (heq ▸ h)
    · exact Or.inl ⟨j, by omega, h⟩
  · intro hx
    rcases hx with ⟨j, hj, h⟩ | h
    · exact ⟨j, by omega, h⟩
    · exact ⟨i, Nat.lt_succ_self i, h⟩

theorem upto_zero (V : Nat → Finset (List Nat)) : upto V 0 = ∅ := by
  unfold upto
  rfl

theorem upto_subset (V : Nat → Finset (List Nat)) {i e : Nat} (h : i ≤ e) : upto V i ⊆ upto V e := fun π hπ => by
  obtain ⟨j, hj, h1⟩ := mem_upto.mp hπ
  exact mem_upto.mpr ⟨j, by omega, h1⟩

/-- **The loop rule**: the turn `i` makes the nodes `V i`, of which `A i` are on pages that it takes. -/
theorem made_forLoop {α : Type} {F : α → Mm} {g : Nat → Nat → α → Option α} {V A : Nat → Finset (List Nat)}
    {R : Nat → Nat → Nat} {J : Nat → α → Prop} {e : Nat} {x : α} (hA : ∀ i, A i ⊆ V i)
    (hB : ∀ i, i < e → ∀ π ∈ A i, Path π ∧ π.length ≤ 3 ∧ ∀ j, π ∈ V j → π ∈ A j)
    (hturn : ∀ i a, i < e → J i a →
      Made pool root (R 0) (R i) (upto V i) (missing (F x).mem root (upto A i)) (F x) (F a) →
      Settles (¬ Spare pool (treeOwn (R i) (F a).mem root) (missing (F a).mem root (A i))) (fun n => g n i a)
        (fun b => (F b).failed = true)
        fun b => Made pool root (R i) (R (i + 1)) (V i) (missing (F a).mem root (A i)) (F a) (F b) ∧ J (i + 1) b)
    (hb : ∀ n i a b, (F a).failed = true → g n i a = some b → (F b).failed = true)
    (hI : AllocInv pool (F x) (treeOwn (R 0) (F x).mem root) ps z) (hJ : J 0 x) :
    Settles (¬ Spare pool (treeOwn (R 0) (F x).mem root) (missing (F x).mem root (upto A e)))
      (fun n => forLoop (g n) e 0 x) (fun b => (F b).failed = true)
      fun b => Made pool root (R 0) (R e) (upto V e) (missing (F x).mem root (upto A e)) (F x) (F b) ∧ J e b := by
  have h0 : Made pool root (R 0) (R 0) (upto V 0) (missing (F x).mem root (upto A 0)) (F x) (F x) := by
    rw [upto_zero, upto_zero, missing_empty]
    exact Made.refl hI fun π hπ => absurd hπ (Finset.notMem_empty π)
  refine Settles.forLoop (J := fun i a => Made pool root (R 0) (R i) (upto V i)
    (missing (F x).mem root (upto A i)) (F x) (F a) ∧ J i a) (fun i a hi h => ?_) hb e 0 x (Nat.zero_add e)
    ⟨h0, hJ⟩
  obtain ⟨hm, hJi⟩ := h
  have hsub : upto A i ⊆ upto V i := fun π hπ => by
    obtain ⟨j, hj, h1⟩ := mem_upto.mp hπ
    exact mem_upto.mpr ⟨j, hj, hA j h1⟩
  have hadd := missing_add hm hsub (B := A i) fun π hπ => by
    obtain ⟨h1, h2, h3⟩ := hB i hi π hπ
    refine ⟨h1, h2, fun h4 => ?_⟩
    obtain ⟨j, hj, h5⟩ := mem_upto.mp h4
    exact mem_upto.mpr ⟨j, hj, h3 j h5⟩
  refine (hturn i a hi hJi hm).mono (fun hn hS => hn ?_) fun b hb => ⟨?_, hb.2⟩
  · rw [hm.spare, Nat.add_comm, ← hadd, ← upto_succ]
    exact hS.mono (missing_mono (upto_subset A hi))
  · rw [upto_succ, upto_succ, hadd]
    exact hm.trans hb.1

/-- **A run of pages is mapped**, one after the other, at addresses that have no frame. -/
theorem runLoop_made (hp : Managed pool) (hmk : PointsTo mk) {e g n : Nat} {v : Nat → Nat}
    {b : Nat → Nat → Mm → Option Mm} (he : pmlGetAddr e = root) (hg : 4096 ∣ g)
    (hinj : ∀ i j, i < n → j < n → leafPath (v i) = leafPath (v j) → i = j)
    (habs : ∀ i, i < n → follow s.mem (leafPath (v i)) root = none)
    (hb : ∀ k i a, i < n → b k i a = mapPageBy mk k a e (g + 4096 * i) (v i))
    (hfail : ∀ k i a a', a.failed = true → b k i a = some a' → a'.failed = true)
    (hI : AllocInv pool s (treeOwn (fun p => rest p + if InRun g n p then 1 else 0) s.mem root) ps z) :
    Settles (¬ Spare pool (treeOwn (fun p => rest p + if InRun g n p then 1 else 0) s.mem root)
        (missing s.mem root (upto (fun i => walkNodes (v i)) n)))
      (fun k => forLoop (b k) n 0 s) (fun r => r.failed = true)
      fun r => Made pool root (fun p => rest p + if InRun g n p then 1 else 0) rest
        (upto (fun i => leafNodes (v i)) n) (missing s.mem root (upto (fun i => walkNodes (v i)) n)) s r := by
  -- the pages of the run that are still to be mapped
  obtain ⟨R, hR⟩ : ∃ R : Nat → Nat → Nat, (fun i p => rest p + if InRun (g + 4096 * i) (n - i) p then 1 else 0) = R :=
    ⟨_, rfl⟩
  have hR0 : R 0 = fun p => rest p + if InRun g n p then 1 else 0 := by
    rw [← hR]
    simp only [Nat.mul_zero, Nat.add_zero, Nat.sub_zero]
  have hRn : R n = rest := by
    rw [← hR]
    funext p
    have hno : ¬ InRun (g + 4096 * n) (n - n) p := by
      unfold InRun
      omega
    simp only [if_neg hno, Nat.add_zero]
  have hRstep : ∀ i, i < n → ∀ p, R i p = R (i + 1) p + if p = g + 4096 * i then 1 else 0 := by
    intro i hi p
    rw [← hR]
    dsimp only
    rw [Nat.add_assoc]
    congr 1
    by_cases hpi : p = g + 4096 * i
    · have h1 : InRun (g + 4096 * i) (n - i) p := ⟨by omega, by omega, by omega⟩
      have h2 : ¬ InRun (g + 4096 * (i + 1)) (n - (i + 1)) p := by
        unfold InRun
        omega
      rw [if_pos h1, if_neg h2, if_pos hpi]
    · have h1 : InRun (g + 4096 * i) (n - i) p ↔ InRun (g + 4096 * (i + 1)) (n - (i + 1)) p := by
        unfold InRun
        omega
      rw [if_neg hpi, Nat.add_zero]
      simp only [h1]
  rw [← hR0] at hI ⊢
  refine (made_forLoop (F := id) (g := b) (A := fun i => walkNodes (v i)) (V := fun i => leafNodes (v i)) (R := R)
    (J := fun _ _ => True) (x := s) (fun i => Finset.subset_union_left) (fun i hi π hπ => ?_) (fun i a hi _ hm => ?_)
    hfail hI trivial).mono id fun r hr => ?_
  · refine ⟨(walkNodes_path π hπ).1, (walkNodes_path π hπ).2.trans (Nat.le_succ 2), fun j hj => ?_⟩
    rcases Finset.mem_union.mp hj with hj | hj
    · exact hj
    · have h1 := (walkNodes_path π hπ).2
      rw [Finset.mem_singleton.mp hj, length_leafPath] at h1
      exact absurd h1 (by decide)
  · obtain ⟨ps', z', hI'⟩ := hm.alloc
    have habs' : follow a.mem (leafPath (v i)) root = none := by
      by_contra hne
      rcases (hm.nodes _ (leafPath_path _) (length_leafPath _).le).mp hne with h1 | h1
      · exact h1 (habs i hi)
      · obtain ⟨j, hj, h2⟩ := mem_upto.mp h1
        rcases Finset.mem_union.mp h2 with h3 | h3
        · have h4 := (walkNodes_path _ h3).2
          rw [length_leafPath] at h4
          exact absurd h4 (by decide)
        · have h4 := hinj i j hi (by omega) (Finset.mem_singleton.mp h3)
          omega
    simp only [hb _ _ _ hi]
    exact (mapPageBy_made hp hmk (v i) he (hRstep i hi) habs' hI').mono id fun r hr => ⟨hr.1, trivial⟩
  · rw [hRn] at hr
    exact hr.1

end Made

end MemoryManager

end SimpleOS2
