/-
  File:      SimpleOS2/Memory/UserRanges.lean
  Subject:   THE SYSCALLS FOR RANGES OF PAGES (`syscall_alloc` and `syscall_free` of memory/MemoryManager.cpp).

  Both take the pages of a range one after the other, after a test of the alignment that reads
  `base & (0xFFF != 0)`, the lowest bit.

  * `supplies_kernel`, `ready_kernel` -- the allocator of the kernel hands out fresh pages as long as there are free
    ones, so what PageTables.lean says of any such allocator holds of it;
  * `Maps` -- what mapping a set of pages changes; `Maps.step`, `syscallAlloc_loop`;
  * `Unmaps`, `syscallFree_loop` -- the same for unmapping;
  * `AllocatesRange`, `FreesRange`, `syscall_ranges` -- what the calls should do, and the alignments for which they
    do it; `alloc_half_aligned`.
-/
import SimpleOS2.Memory.PageRuns
import SimpleOS2.Memory.UserPages

namespace SimpleOS2

open Lib FreeList

namespace MemoryManager

/-! ## 1. The allocator of the kernel -/

/-- `AllocatePages(1)`. -/
def kernelAlloc (fuel : Nat) : Alloc := fun s => allocatePages fuel s 1

section Supply

variable {pool : Nat → Prop} {s : Mm} {own : Nat → Nat} {ps : List Nat} {z : Nat → Nat} {used : Nat → Prop}
  {fuel k root : Nat}

/-- The window has room for 2^27 segments. -/
theorem segments_le (hI : AllocInv pool s own ps z) : ps.length ≤ 2 ^ 27 := by
  have hh := highMemBase_eq
  have hin : ∀ c ∈ ps, 4096 ∣ c ∧ highMemBase ≤ c ∧ c < 2 ^ 64 := fun c hc =>
    ⟨(hI.geo.aligned c hc).1, hI.segment_high hc, by have := hI.geo.bound c hc; omega⟩
  have hnd : (ps.map fun c => (c - highMemBase) / 4096).Nodup := by
    refine hI.free.rep.nodup.map_on fun c hc d hd heq => ?_
    obtain ⟨h1, h2, -⟩ := hin c hc
    obtain ⟨h3, h4, -⟩ := hin d hd
    omega
  have hsub : (ps.map fun c => (c - highMemBase) / 4096) ⊆ List.range (2 ^ 27) := by
    intro x hx
    obtain ⟨c, hc, rfl⟩ := List.mem_map.mp hx
    have := hin c hc
    rw [List.mem_range]
    omega
  have hle := (hnd.subperm hsub).length_le
  rwa [List.length_map, List.length_range] at hle

/-- A page, with any fuel past the number of segments. -/
theorem kernelAlloc_spec (hp : Managed pool) (hI : AllocInv pool s own ps z) (hsp : Spare pool own 1)
    (hf : 2 ^ 27 < fuel) : ∃ r ps' z', kernelAlloc fuel s = some r ∧
      AllocInv pool r.1 (fun p => own p + if p = r.2 then 1 else 0) ps' z' ∧ r.1.pml4 = s.pml4 ∧ pool r.2 ∧
      own r.2 = 0 ∧ Keeps own s.mem r.1.mem := by
  obtain ⟨r, hr, ⟨ps', z', hI'⟩, hpml, -, hpool, hown, hk⟩ := (allocatePage_spec hp hI).halts (not_not.mpr hsp)
  obtain ⟨hnone, hsome⟩ := allocatePages_find hI (n := 1) (by decide) (by decide)
  have hlt : ps.length < fuel := Nat.lt_of_le_of_lt (segments_le hI) hf
  refine ⟨r, ps', z', ?_, hI', hpml, hpool, hown, hk⟩
  cases hfind : ps.find? fun p => 1 * 4096 ≤ z p with
  | none =>
      have hH : Halts (fun k => allocatePages k s 1) ({ s with failed := true }, 0) :=
        ⟨ps.length + 1, fun k hk => hnone hfind k hk⟩
      rw [kernelAlloc, hr.unique hH]
      exact hnone hfind fuel hlt
  | some c =>
      obtain ⟨q, -, -, hq, -⟩ := hsome c hfind
      have hH : Halts (fun k => allocatePages k s 1) ({ s with mem := q.1, freeList := q.2 }, kernelToPhysPtr c) :=
        ⟨ps.length + 1, fun k hk => hq k hk⟩
      rw [kernelAlloc, hr.unique hH]
      exact hq fuel hlt

/-- **The allocator of the kernel supplies** as many pages as are free. -/
theorem supplies_kernel (hp : Managed pool) (hI : AllocInv pool s own ps z) (hsp : Spare pool own k)
    (hf : 2 ^ 27 < fuel) (hused : ∀ q, used q → 0 < own q) : Supplies (kernelAlloc fuel) k used s := by
  induction k generalizing s own ps z used with
  | zero => trivial
  | succ k ih =>
      intro m hm
      -- the list lies in pages that are not in use
      have hI1 : AllocInv pool { s with mem := m } own ps z := by
        refine ⟨free_congr hI.free fun p hpp d hd => hm _ fun q hq hin => ?_, hI.geo, hI.cover, hI.once, hI.managed⟩
        have hle := hI.geo.unit_le hpp
        exact hI.not_cover hp (hused q hq) hin ⟨p, hpp, by omega, by omega⟩
      obtain ⟨r, ps', z', hr, hI', hpml, hpool, hown, hk⟩ := kernelAlloc_spec hp hI1 (hsp.mono (by omega)) hf
      have hd := hp r.2 hpool
      refine ⟨r.1, r.2, hr, hd.1, by omega, fun h => ?_, hpml, fun q hq => hk q (hused q hq),
        ih hI' (hsp.less fun p => Nat.le_refl _) fun q hq => ?_⟩
      · have := hused _ h
        omega
      · rcases hq with hq | rfl
        · exact Nat.lt_of_lt_of_le (hused q hq) (Nat.le_add_right _ _)
        · rw [if_pos rfl]
          exact Nat.succ_pos _

/-- A cleared page is a map with nothing in it. -/
theorem cleared_map {m : Mem} (hd : 4096 ∣ root) (hzero : ∀ j, j < 512 → entry m root j = 0) :
    WellFormed m root ∧ ∀ q, IsPage m root q → q = root := by
  have hfol : ∀ π c, Path π → follow m π root = some c → π = [] ∧ c = root := by
    intro π c hπ h
    by_cases hne : π = []
    · subst hne
      exact ⟨rfl, (Option.some.inj h).symm⟩
    · rw [follow_cleared hzero hπ hne] at h
      cases h
  refine ⟨⟨hd, fun π π' c hπ hπ' _ _ h h' => ?_, fun π π' c hπ hπ' _ hl _ h' => ?_⟩, ?_⟩
  · rw [(hfol π c hπ h).1, (hfol π' c hπ' h').1]
  · rw [(hfol π' c hπ' h').1] at hl
    cases hl
  · intro q hx
    obtain ⟨π, hπ, -, h⟩ := hx
    exact (hfol π q hπ h).2

/-- **`CreateProcessMap`** with a free page: a map with nothing in it, whose root had no owner. -/
theorem createProcessMap_new (hp : Managed pool) (hI : AllocInv pool s own ps z) (hsp : Spare pool own 1)
    (hf : 2 ^ 27 < fuel) : ∃ s' root ps' z', createProcessMap fuel s = some (s', pmlEntry root) ∧
      pmlGetAddr (pmlEntry root) = root ∧ AllocInv pool s' (fun p => own p + if p = root then 1 else 0) ps' z' ∧
      s'.pml4 = s.pml4 ∧ WellFormed s'.mem root ∧ ∀ q, IsPage s'.mem root q → q = root := by
  obtain ⟨r, ps', z', hr, hI', hpml, hpool, hown, -⟩ := kernelAlloc_spec hp hI hsp hf
  have hd := hp r.2 hpool
  obtain ⟨hw, hpages⟩ := cleared_map hd.1 fun j hj => entry_zeroTable r.1 (t := r.2) hj
  have hfields := zeroTable_fields r.1 r.2
  refine ⟨zeroTable r.1 r.2, r.2, ps', z', ?_, (pmlEntry_facts hd.1 (by omega)).2,
    hI'.write hp (q := r.2) (by rw [if_pos rfl]; exact Nat.succ_pos _) hfields.1 fun a ha => if_neg ha,
    hfields.2.1.trans hpml, hw, hpages⟩
  have hr' : allocatePages fuel s 1 = some r := hr
  rw [createProcessMap, hr', Option.map_some]

/-- A map whose pages have owners. -/
theorem ready_kernel (hp : Managed pool) (hI : AllocInv pool s own ps z) (hsp : Spare pool own k)
    (hf : 2 ^ 27 < fuel) (hw : WellFormed s.mem root) (hpages : ∀ q, IsPage s.mem root q → 0 < own q) :
    Ready (kernelAlloc fuel) root k (fun q => 0 < own q) s :=
  ⟨hw, fun q hq => (hp q (hI.managed q hq)).1, hpages, supplies_kernel hp hI hsp hf fun _ h => h⟩

end Supply

/-! ## 2. Mapping a set of pages -/

/-- What changes where the pages in `P` are mapped: a page that has a frame keeps it, and its contents. -/
structure Maps (root : Nat) (P used used' : Nat → Prop) (s s' : Mm) : Prop where
  pml4 : s'.pml4 = s.pml4
  mono : ∀ q, used q → used' q
  mapped : ∀ virt < 2 ^ 39, P (virt / 4096) → translate s'.mem root virt ≠ none
  kept : ∀ virt < 2 ^ 39, ∀ f, translate s.mem root virt = some f → translate s'.mem root virt = some f
  other : ∀ virt < 2 ^ 39, ¬ P (virt / 4096) → translate s'.mem root virt = translate s.mem root virt
  same : ∀ q, used q → ¬ IsTable s.mem root q → SamePage s.mem s'.mem q
  tables : ∀ q, IsTable s'.mem root q → IsTable s.mem root q ∨ ¬ used q

section Maps

variable {alloc : Alloc} {root k : Nat} {P Q used used' used'' : Nat → Prop} {s s' s'' : Mm} {virt phys : Nat}

theorem Maps.refl (root : Nat) (used : Nat → Prop) (s : Mm) : Maps root (fun _ => False) used used s s :=
  ⟨rfl, fun _ h => h, fun _ _ h => h.elim, fun _ _ _ h => h, fun _ _ _ => rfl, fun _ _ _ _ _ _ => rfl,
    fun _ h => Or.inl h⟩

theorem Maps.congr (h : Maps root P used used' s s') (hPQ : ∀ x, P x ↔ Q x) : Maps root Q used used' s s' := by
  obtain rfl : P = Q := funext fun x => propext (hPQ x)
  exact h

/-- One page more. -/
theorem Maps.step (h : Maps root P used used' s s') (h' : MapsOne root virt phys used' used'' s' s'')
    (hv : virt < 2 ^ 39) (hnone : translate s'.mem root virt = none) :
    Maps root (fun x => P x ∨ x = virt / 4096) used used'' s s'' := by
  have hother : ∀ v < 2 ^ 39, v / 4096 ≠ virt / 4096 → translate s''.mem root v = translate s'.mem root v :=
    fun v hv' hne => h'.other _ (leafPath_path v) (length_leafPath v) fun heq => hne (leafPath_inj hv' hv heq)
  have hsame : ∀ v, v / 4096 = virt / 4096 → ∀ m, translate m root v = translate m root virt := by
    intro v hpage m
    rw [translate, translate, leafPath_page hpage]
  refine ⟨h'.pml4.trans h.pml4, fun q hq => h'.mono q (h.mono q hq), fun v hv' hP => ?_, fun v hv' f hf => ?_,
    fun v hv' hno => ?_, fun q hq hnt a h1 h2 => ?_, fun q hq => ?_⟩
  · by_cases hpage : v / 4096 = virt / 4096
    · rw [hsame v hpage, h'.here]
      exact Option.some_ne_none _
    · rw [hother v hv' hpage]
      exact h.mapped v hv' (hP.resolve_right hpage)
  · have hf' := h.kept v hv' f hf
    by_cases hpage : v / 4096 = virt / 4096
    · rw [hsame v hpage, hnone] at hf'
      cases hf'
    · rw [hother v hv' hpage]
      exact hf'
  · rw [hother v hv' fun hpage => hno (Or.inr hpage)]
    exact h.other v hv' fun hP => hno (Or.inl hP)
  · have hnt' : ¬ IsTable s'.mem root q := by
      intro ht
      rcases h.tables q ht with h3 | h3
      · exact hnt h3
      · exact h3 hq
    exact (h'.same q (h.mono q hq) hnt' a h1 h2).trans (h.same q hq hnt a h1 h2)
  · rcases h'.tables q hq with h1 | h1
    · exact h.tables q h1
    · exact Or.inr fun h2 => h1 (h.mono q h2)

/-- One page more, which has its frame already. -/
theorem Maps.again (h : Maps root P used used' s s') (hsome : translate s'.mem root virt ≠ none) :
    Maps root (fun x => P x ∨ x = virt / 4096) used used' s s' := by
  refine ⟨h.pml4, h.mono, fun v hv' hP => ?_, h.kept, fun v hv' hno => h.other v hv' fun hP => hno (Or.inl hP),
    h.same, h.tables⟩
  rcases hP with hP | hpage
  · exact h.mapped v hv' hP
  · rw [translate, leafPath_page hpage]
    exact hsome

/-- A user address. -/
theorem isUserPtr_of_lt (h : virt < 2 ^ 39) : isUserPtr virt = true := by
  unfold isUserPtr getPml4Index
  rw [getPmlIndex_eq]
  exact decide_eq_true (by omega)

/-- The page of the `i`th address of a range. -/
theorem page_of_range (base i : Nat) : (base + i * 4096) / 4096 = base / 4096 + i := by omega

/-- **The loop of `syscall_alloc`** over a range of the user half. -/
theorem syscallAlloc_loop {fuel base n : Nat} (hin : base + n * 4096 ≤ 2 ^ 39) (he : pmlGetAddr s.pml4 = root)
    (hr : Ready (kernelAlloc fuel) root (3 * n) used s) (h1 : ¬ base &&& 1 ≠ 0) :
    ∃ s' used', syscallAlloc fuel s base n = some (s', .ret 0) ∧ Ready (kernelAlloc fuel) root 0 used' s' ∧
      Maps root (fun x => base / 4096 ≤ x ∧ x < base / 4096 + n) used used' s s' := by
  have hturns := (syscallAlloc_turns fuel s base n).trans (if_neg h1)
  have hloop := forLoop_ends (e := n) (f := allocTurn fuel base)
    (J := fun i r => r.2 = .ret 0 ∧ ∃ used', Ready (kernelAlloc fuel) root (3 * (n - i)) used' r.1 ∧
      Maps root (fun x => base / 4096 ≤ x ∧ x < base / 4096 + i) used used' s r.1) ?_ n 0
      (s, .ret 0) (Nat.zero_add n) ?_
  · obtain ⟨⟨s', o⟩, hrun, rfl, used', hr', hm⟩ := hloop
    exact ⟨s', used', hturns.trans hrun, by rwa [Nat.sub_self] at hr', hm⟩
  · intro i x hi hx
    obtain ⟨s1, o⟩ := x
    obtain ⟨rfl, used1, hr1, hm1⟩ := hx
    have hv : base + i * 4096 < 2 ^ 39 := by omega
    have hk : 3 * (n - i) = 3 * (n - (i + 1)) + 3 := by omega
    rw [hk] at hr1
    have he1 : pmlGetAddr s1.pml4 = root := by rw [hm1.pml4, he]
    obtain ⟨hany1, hany2⟩ := mapAnyPage_fresh hr1 (base + i * 4096) he1
    have hset : ∀ x, (base / 4096 ≤ x ∧ x < base / 4096 + i) ∨ x = (base + i * 4096) / 4096 ↔
        base / 4096 ≤ x ∧ x < base / 4096 + (i + 1) := by
      intro x
      rw [page_of_range]
      omega
    unfold allocTurn
    dsimp only
    rw [u64_of_lt (Nat.lt_trans hv (by decide)), isUserPtr_of_lt hv, if_pos rfl]
    cases hcase : translate s1.mem root (base + i * 4096) with
    | some f =>
        have hcall : mapAnyPage fuel s1 s1.pml4 (base + i * 4096) = some (s1, physToKernelPtr f) := hany1 f hcase
        rw [hcall]
        refine ⟨_, rfl, rfl, used1, ⟨hr1.wf, hr1.aligned, hr1.pages, hr1.supplies.mono (Nat.le_add_right _ _)⟩,
          (hm1.again ?_).congr hset⟩
        rw [hcase]
        exact Option.some_ne_none f
    | none =>
        obtain ⟨s2, f, used2, -, hcall, hr2, hone⟩ := hany2 hcase
        have hcall' : mapAnyPage fuel s1 s1.pml4 (base + i * 4096) = some (s2, physToKernelPtr f) := hcall
        rw [hcall']
        exact ⟨_, rfl, rfl, used2, hr2, (hm1.step hone hv hcase).congr hset⟩
  · refine ⟨rfl, used, hr, (Maps.refl root used s).congr fun x => ?_⟩
    exact ⟨False.elim, fun h => by omega⟩

end Maps

/-! ## 3. Unmapping a set of pages -/

/-- What changes where the pages in `P` are unmapped. The tables stay, and no other page is written to. -/
structure Unmaps (root : Nat) (P : Nat → Prop) (s s' : Mm) : Prop where
  pml4 : s'.pml4 = s.pml4
  wf : WellFormed s'.mem root
  unmapped : ∀ virt < 2 ^ 39, P (virt / 4096) → translate s'.mem root virt = none
  other : ∀ virt < 2 ^ 39, ¬ P (virt / 4096) → translate s'.mem root virt = translate s.mem root virt
  walks : ∀ virt, follow s'.mem (walkPath virt) root = follow s.mem (walkPath virt) root
  same : ∀ q, 4096 ∣ q → ¬ IsTable s.mem root q → SamePage s.mem s'.mem q
  tables : ∀ q, IsTable s'.mem root q → IsTable s.mem root q

section Unmaps

variable {root : Nat} {P Q : Nat → Prop} {s s' : Mm} {virt : Nat}

theorem Unmaps.refl (hw : WellFormed s.mem root) : Unmaps root (fun _ => False) s s :=
  ⟨rfl, hw, fun _ _ h => h.elim, fun _ _ _ => rfl, fun _ => rfl, fun _ _ _ _ _ _ => rfl, fun _ h => h⟩

theorem Unmaps.congr (h : Unmaps root P s s') (hPQ : ∀ x, P x ↔ Q x) : Unmaps root Q s s' := by
  obtain rfl : P = Q := funext fun x => propext (hPQ x)
  exact h

/-- One page more, if there is a table for it. -/
theorem Unmaps.step (h : Unmaps root P s s') {e : Nat} (he : pmlGetAddr e = root) (hv : virt < 2 ^ 39)
    (htab : follow s.mem (walkPath virt) root ≠ none) :
    Unmaps root (fun x => P x ∨ x = virt / 4096) s (unmapProcessPage s' e virt) := by
  subst he
  obtain ⟨c, hc⟩ := Option.ne_none_iff_exists'.mp htab
  have hc' : follow s'.mem (walkPath virt) (pmlGetAddr e) = some c := (h.walks virt).trans hc
  have hct : IsTable s'.mem (pmlGetAddr e) c := ⟨walkPath virt, walkPath_path virt, Nat.lt_succ_self 2, hc'⟩
  obtain ⟨hhere, hold, hother⟩ := unmap_walk h.wf hv hc'
  have hshort : ∀ π : List Nat, π.length < 3 → π ≠ leafPath virt := by
    rintro π hl rfl
    exact absurd hl (Nat.lt_irrefl 3)
  refine ⟨h.pml4, h.wf.unmap hhere hold, fun v hv' hP => ?_, fun v hv' hno => ?_, fun v => ?_,
    fun q hq hnt a h1 h2 => ?_, ?_⟩
  · by_cases hpage : v / 4096 = virt / 4096
    · rw [translate, leafPath_page hpage]
      exact hhere
    · rw [hother v hv' hpage]
      exact h.unmapped v hv' (hP.resolve_right hpage)
  · rw [hother v hv' fun hpage => hno (Or.inr hpage)]
    exact h.other v hv' fun hP => hno (Or.inl hP)
  · exact (hold _ (walkPath_path v) (Nat.le_succ 2) (walkPath_ne_leafPath v virt)).trans (h.walks v)
  · have hqc : q ≠ c := fun heq => hnt (h.tables q (heq ▸ hct))
    rw [unmapProcessPage_mem, unmapCell_walk hc']
    exact (samePage_set (follow_aligned h.wf.aligned hc') hq hqc (getPmlIndex_lt _ _) a h1 h2).trans
      (h.same q hq hnt a h1 h2)
  · intro q hx
    obtain ⟨π, hπ, hl, hf⟩ := hx
    rw [hold π hπ (by omega) (hshort π hl)] at hf
    exact h.tables q ⟨π, hπ, hl, hf⟩

/-- **The loop of `syscall_free`** over a range of the user half with its tables. -/
theorem syscallFree_loop {base n : Nat} (hin : base + n * 4096 ≤ 2 ^ 39) (he : pmlGetAddr s.pml4 = root)
    (hw : WellFormed s.mem root)
    (htab : ∀ virt < 2 ^ 39, base / 4096 ≤ virt / 4096 → virt / 4096 < base / 4096 + n →
      follow s.mem (walkPath virt) root ≠ none) (h1 : ¬ base &&& 1 ≠ 0) :
    ∃ s', syscallFree s base n = some (s', .ret 0) ∧
      Unmaps root (fun x => base / 4096 ≤ x ∧ x < base / 4096 + n) s s' := by
  have hturns := (syscallFree_turns s base n).trans (if_neg h1)
  have hloop := forLoop_ends (e := n) (f := freeTurn base)
    (J := fun i r => r.2 = .ret 0 ∧ Unmaps root (fun x => base / 4096 ≤ x ∧ x < base / 4096 + i) s r.1)
    ?_ n 0 (s, .ret 0) (Nat.zero_add n) ?_
  · obtain ⟨⟨s', o⟩, hrun, rfl, hm⟩ := hloop
    exact ⟨s', hturns.trans hrun, hm⟩
  · intro i x hi hx
    obtain ⟨s1, o⟩ := x
    obtain ⟨rfl, hm1⟩ := hx
    have hv : base + i * 4096 < 2 ^ 39 := by omega
    have he1 : pmlGetAddr s1.pml4 = root := by rw [hm1.pml4, he]
    have hpage := page_of_range base i
    unfold freeTurn
    dsimp only
    rw [u64_of_lt (Nat.lt_trans hv (by decide)), isUserPtr_of_lt hv, if_pos rfl]
    refine ⟨_, rfl, rfl, (hm1.step he1 hv (htab _ hv (by omega) (by omega))).congr fun x => ?_⟩
    rw [hpage]
    omega
  · refine ⟨rfl, (Unmaps.refl hw).congr fun x => ?_⟩
    exact ⟨False.elim, fun h => by omega⟩

end Unmaps

/-! ## 4. The calls -/

/-- `virt` is on one of the `n` pages from `base` on. -/
def InRange (base n virt : Nat) : Prop := base / 4096 ≤ virt / 4096 ∧ virt / 4096 < base / 4096 + n

/-- Exactly the pages of the range are mapped in addition; a page that was mapped keeps its frame and its contents. -/
structure Extended (root base n : Nat) (s s' : Mm) : Prop where
  mapped : ∀ virt < 2 ^ 39, InRange base n virt → translate s'.mem root virt ≠ none
  other : ∀ virt < 2 ^ 39, ¬ InRange base n virt → translate s'.mem root virt = translate s.mem root virt
  kept : ∀ virt < 2 ^ 39, ∀ f, translate s.mem root virt = some f →
    translate s'.mem root virt = some f ∧ SamePage s.mem s'.mem f

/-- Exactly the pages of the range are unmapped; what the frames hold stays. -/
structure Removed (root base n : Nat) (s s' : Mm) : Prop where
  unmapped : ∀ virt < 2 ^ 39, InRange base n virt → translate s'.mem root virt = none
  other : ∀ virt < 2 ^ 39, ¬ InRange base n virt → translate s'.mem root virt = translate s.mem root virt
  kept : ∀ virt < 2 ^ 39, ∀ f, translate s.mem root virt = some f → SamePage s.mem s'.mem f

/-- The specification of `syscall_alloc`, and of `syscall_free`. -/
def AllocatesRange (fuel : Nat) (s : Mm) (base n : Nat) : Prop :=
  if 4096 ∣ base then
    ∃ s', syscallAlloc fuel s base n = some (s', .ret 0) ∧ Extended (pmlGetAddr s.pml4) base n s s'
  else syscallAlloc fuel s base n = some (s, .ret ErrorAddressNotPageAligned)

def FreesRange (s : Mm) (base n : Nat) : Prop :=
  if 4096 ∣ base then ∃ s', syscallFree s base n = some (s', .ret 0) ∧ Removed (pmlGetAddr s.pml4) base n s s'
  else syscallFree s base n = some (s, .ret ErrorAddressNotPageAligned)

section Calls

variable {used : Nat → Prop} {s : Mm} {fuel base n root : Nat}

/-- A frame is no table. -/
theorem frame_not_table {m : Mem} {virt f : Nat} (hw : WellFormed m root) (h : translate m root virt = some f) :
    ¬ IsTable m root f := by
  intro hx
  obtain ⟨π, hπ, hl, hf⟩ := hx
  exact hw.apart π (leafPath virt) f hπ (leafPath_path virt) hl (length_leafPath virt) hf h

theorem odd_of_bit (base : Nat) : base &&& 1 ≠ 0 ↔ base % 2 = 1 := by
  rw [Nat.and_one_is_mod]
  omega

theorem allocatesRange_iff (hin : base + n * 4096 ≤ 2 ^ 39)
    (hr : Ready (kernelAlloc fuel) (pmlGetAddr s.pml4) (3 * n) used s) :
    AllocatesRange fuel s base n ↔ 4096 ∣ base ∨ base % 2 = 1 := by
  unfold AllocatesRange
  by_cases hodd : base % 2 = 1
  · have hd : ¬ 4096 ∣ base := by omega
    refine iff_of_true ?_ (Or.inr hodd)
    rw [if_neg hd]
    unfold syscallAlloc
    rw [if_pos ((odd_of_bit base).mpr hodd)]
  · have h1 : ¬ base &&& 1 ≠ 0 := fun h => hodd ((odd_of_bit base).mp h)
    obtain ⟨s', used', hcall, -, hm⟩ := syscallAlloc_loop hin rfl hr h1
    by_cases hd : 4096 ∣ base
    · refine iff_of_true ?_ (Or.inl hd)
      rw [if_pos hd]
      refine ⟨s', hcall, hm.mapped, hm.other, fun virt hv f hf => ⟨hm.kept virt hv f hf, ?_⟩⟩
      have hpage : IsPage s.mem (pmlGetAddr s.pml4) f :=
        ⟨leafPath virt, leafPath_path virt, Nat.le_of_eq (length_leafPath virt), hf⟩
      exact hm.same f (hr.pages f hpage) (frame_not_table hr.wf hf)
    · refine iff_of_false ?_ (not_or.mpr ⟨hd, hodd⟩)
      rw [if_neg hd, hcall]
      intro h
      have hret : Outcome.ret 0 = Outcome.ret ErrorAddressNotPageAligned := congrArg Prod.snd (Option.some.inj h)
      exact absurd hret (by decide)

theorem freesRange_iff (hin : base + n * 4096 ≤ 2 ^ 39) (hw : WellFormed s.mem (pmlGetAddr s.pml4))
    (htab : ∀ virt < 2 ^ 39, InRange base n virt → follow s.mem (walkPath virt) (pmlGetAddr s.pml4) ≠ none) :
    FreesRange s base n ↔ 4096 ∣ base ∨ base % 2 = 1 := by
  unfold FreesRange
  by_cases hodd : base % 2 = 1
  · have hd : ¬ 4096 ∣ base := by omega
    refine iff_of_true ?_ (Or.inr hodd)
    rw [if_neg hd]
    unfold syscallFree
    rw [if_pos ((odd_of_bit base).mpr hodd)]
  · have h1 : ¬ base &&& 1 ≠ 0 := fun h => hodd ((odd_of_bit base).mp h)
    obtain ⟨s', hcall, hm⟩ := syscallFree_loop hin rfl hw (fun virt hv h2 h3 => htab virt hv ⟨h2, h3⟩) h1
    by_cases hd : 4096 ∣ base
    · refine iff_of_true ?_ (Or.inl hd)
      rw [if_pos hd]
      refine ⟨s', hcall, hm.unmapped, hm.other, fun virt hv f hf => ?_⟩
      exact hm.same f (follow_aligned hw.aligned hf) (frame_not_table hw hf)
    · refine iff_of_false ?_ (not_or.mpr ⟨hd, hodd⟩)
      rw [if_neg hd, hcall]
      intro h
      have hret : Outcome.ret 0 = Outcome.ret ErrorAddressNotPageAligned := congrArg Prod.snd (Option.some.inj h)
      exact absurd hret (by decide)

/-- **`syscall_alloc` and `syscall_free` on a range of the user half** do what they should if and only if the base is
    a multiple of the page size or odd: the one with three free pages for each page of the range, the other where the
    range has its tables. -/
theorem syscall_ranges (fuel : Nat) (s : Mm) (base n : Nat) (hin : base + n * 4096 ≤ 2 ^ 39) :
    (∀ used, Ready (kernelAlloc fuel) (pmlGetAddr s.pml4) (3 * n) used s →
      (AllocatesRange fuel s base n ↔ 4096 ∣ base ∨ base % 2 = 1)) ∧
    (WellFormed s.mem (pmlGetAddr s.pml4) →
      (∀ virt < 2 ^ 39, InRange base n virt → follow s.mem (walkPath virt) (pmlGetAddr s.pml4) ≠ none) →
      (FreesRange s base n ↔ 4096 ∣ base ∨ base % 2 = 1)) :=
  ⟨fun _ hr => allocatesRange_iff hin hr, fun hw htab => freesRange_iff hin hw htab⟩

end Calls

section OneSegment

/-- The pages of one segment. -/
theorem spare_one {base n : Nat} (hd : 4096 ∣ base) : Spare (poolOf [⟨base, n⟩]) (fun _ => 0) n := by
  refine ⟨(Finset.range n).image fun i => base + i * 4096, ?_, fun p hp => ?_⟩
  · rw [Finset.card_image_of_injective _ fun i j (h : base + i * 4096 = base + j * 4096) => by omega, Finset.card_range]
  · obtain ⟨i, hi, rfl⟩ := Finset.mem_image.mp hp
    have := Finset.mem_range.mp hi
    have hin : InRun base n (base + i * 4096) := ⟨by omega, by omega, by omega⟩
    exact ⟨⟨_, List.mem_singleton_self _, hin⟩, rfl⟩

/-- A machine with eight pages and a new map. -/
theorem newMap_ready : ∃ s used, Ready (kernelAlloc (2 ^ 27 + 1)) (pmlGetAddr s.pml4) 3 used s := by
  have hh : HandedOver [⟨4096, 8⟩] := oneHanded_over (by decide) (by decide) (by decide)
  have hp := poolOf_managed hh
  have hf : 2 ^ 27 < 2 ^ 27 + 1 := Nat.lt_succ_self _
  obtain ⟨s, hs, -⟩ := oneHanded_init 4096 8 (by decide)
  obtain ⟨ps, z, hI, -⟩ := pageInit_alloc hh hs
  have hsp : Spare (poolOf [⟨4096, 8⟩]) (fun _ => 0) 8 := spare_one (by decide)
  obtain ⟨s', root, ps', z', -, hroot, hI', -, hw, hpages⟩ :=
    createProcessMap_new hp hI (hsp.mono (by decide)) hf
  have hI2 : AllocInv (poolOf [⟨4096, 8⟩]) { s' with pml4 := pmlEntry root }
      (fun p => 0 + if p = root then 1 else 0) ps' z' := ⟨hI'.free, hI'.geo, hI'.cover, hI'.once, hI'.managed⟩
  have hsp' : Spare (poolOf [⟨4096, 8⟩]) (fun p => 0 + if p = root then 1 else 0) 3 :=
    Spare.mono (Spare.less (k := 7) hsp fun p => Nat.le_refl _) (by decide)
  have hr : Ready (kernelAlloc (2 ^ 27 + 1)) root 3 (fun q => 0 < 0 + if q = root then 1 else 0)
      { s' with pml4 := pmlEntry root } := by
    refine ready_kernel hp hI2 hsp' hf hw fun q hq => ?_
    rw [hpages q hq, if_pos rfl]
    exact Nat.succ_pos _
  refine ⟨{ s' with pml4 := pmlEntry root }, fun q => 0 < 0 + if q = root then 1 else 0, ?_⟩
  show Ready _ (pmlGetAddr (pmlEntry root)) 3 _ _
  rw [hroot]
  exact hr

/-- The first page of the user half is allocated, and freed. -/
theorem syscall_ranges_page : ∃ s s', AllocatesRange (2 ^ 27 + 1) s 0 1 ∧
    syscallAlloc (2 ^ 27 + 1) s 0 1 = some (s', .ret 0) ∧ FreesRange s' 0 1 := by
  obtain ⟨s, used, hr⟩ := newMap_ready
  have halloc := ((syscall_ranges (2 ^ 27 + 1) s 0 1 (by decide)).1 used hr).mpr (Or.inl (by decide))
  obtain ⟨s', used', hcall, hr', hm⟩ :=
    syscallAlloc_loop (n := 1) (by decide : 0 + 1 * 4096 ≤ 2 ^ 39) rfl hr (by decide)
  have hpml : s'.pml4 = s.pml4 := hm.pml4
  refine ⟨s, s', halloc, hcall, ((syscall_ranges (2 ^ 27 + 1) s' 0 1 (by decide)).2 ?_ ?_).mpr (Or.inl (by decide))⟩
  · rw [hpml]
    exact hr'.wf
  · intro virt hv hin
    rw [hpml]
    exact walk_of_translate (hm.mapped virt hv hin)

/-- The base 2 is accepted. -/
theorem alloc_half_aligned : ∃ s used, Ready (kernelAlloc (2 ^ 27 + 1)) (pmlGetAddr s.pml4) 3 used s ∧
    ¬ AllocatesRange (2 ^ 27 + 1) s 2 1 := by
  obtain ⟨s, used, hr⟩ := newMap_ready
  refine ⟨s, used, hr, fun h => ?_⟩
  rcases (allocatesRange_iff (n := 1) (by decide) hr).mp h with h | h
  · exact absurd h (by decide)
  · exact absurd h (by decide)

end OneSegment

end MemoryManager

end SimpleOS2
