/-
  File:      SimpleOS2/Memory/UserPages.lean
  Subject:   TWO WALKS THAT DO NOT ASK EVERYTHING (`UnmapProcessPage` and `UserToKernelPtr` of
             memory/MemoryManager.cpp).

  `UnmapProcessPage` follows the entries of a map without asking whether they are present, and clears the cell it ends
  at. `UserToKernelPtr` asks at the first two levels, and takes the entry of the third one as it is.

  * `unmapCell`, `Harmless`, `unmap_harmless` -- the cell that is cleared, and when clearing it does no harm;
    `unmap_nothing`;
  * `userToKernelPtr`, `expectedPtr`, `userToKernelPtr_cases` -- what is answered with and without a table;
  * `Tracked`, `callStep`, `Tracks` -- the calls that map and unmap, with their effect: the frame of each page, and
    the ranges that have a table;
  * `user_pointers` -- in one state, and after any of these calls; `neighbour_pointer`.
-/
import SimpleOS2.Lib.Run
import SimpleOS2.Memory.PageTables

namespace SimpleOS2

open Lib

namespace MemoryManager

/-! ## 1. `UnmapProcessPage` -/

/-- The cell that `UnmapProcessPage` clears. An entry that is absent leads on to the page its bits name. -/
def unmapCell (m : Mem) (pml4Entry virt : Nat) : Nat :=
  let pml3 := pmlGetAddr pml4Entry
  let pml2 := pmlGetAddr (entry m pml3 (getPml3Index virt))
  let pml1 := pmlGetAddr (entry m pml2 (getPml2Index virt))
  cell pml1 (getPml1Index virt)

/-- What `UnmapProcessPage` should do: a mapped page is unmapped by the entry of its leaf, every other one stays where
    it is, and without a mapping nothing is written. -/
structure Harmless (s : Mm) (pml4Entry virt : Nat) : Prop where
  mapped : translate s.mem (pmlGetAddr pml4Entry) virt ≠ none →
    translate (unmapProcessPage s pml4Entry virt).mem (pmlGetAddr pml4Entry) virt = none ∧
    (∀ virt' < 2 ^ 39, virt' / 4096 ≠ virt / 4096 →
      translate (unmapProcessPage s pml4Entry virt).mem (pmlGetAddr pml4Entry) virt' =
        translate s.mem (pmlGetAddr pml4Entry) virt') ∧
    ∃ pml1, follow s.mem (walkPath virt) (pmlGetAddr pml4Entry) = some pml1 ∧
      ∀ a, a ≠ cell pml1 (getPml1Index virt) → (unmapProcessPage s pml4Entry virt).mem a = s.mem a
  absent : translate s.mem (pmlGetAddr pml4Entry) virt = none → (unmapProcessPage s pml4Entry virt).mem = s.mem

section Unmap

variable {m : Mem} {s : Mm} {e root virt c : Nat}

theorem unmapProcessPage_mem (s : Mm) (e virt : Nat) :
    (unmapProcessPage s e virt).mem = Function.update s.mem (unmapCell s.mem e virt) 0 := rfl

/-- The walk through two tables. -/
theorem follow_walkPath (m : Mem) (root virt : Nat) : follow m (walkPath virt) root =
    if pmlGetP (entry m root (getPml3Index virt)) then
      if pmlGetP (entry m (pmlGetAddr (entry m root (getPml3Index virt))) (getPml2Index virt)) then
        some (pmlGetAddr (entry m (pmlGetAddr (entry m root (getPml3Index virt))) (getPml2Index virt)))
      else none
    else none := rfl

theorem translate_no_walk (hc : follow m (walkPath virt) root = none) : translate m root virt = none := by
  unfold translate leafPath
  rw [follow_append, hc]
  rfl

/-- With its tables, a page has its leaf in the cell that is cleared. -/
theorem unmapCell_walk (hc : follow m (walkPath virt) (pmlGetAddr e) = some c) :
    unmapCell m e virt = cell c (getPml1Index virt) := by
  rw [follow_walkPath] at hc
  split_ifs at hc with h1 h2
  obtain rfl := Option.some.inj hc
  rfl

/-- Clearing the leaf of a page. -/
theorem unmap_walk (hw : WellFormed s.mem (pmlGetAddr e)) (hv : virt < 2 ^ 39)
    (hc : follow s.mem (walkPath virt) (pmlGetAddr e) = some c) :
    translate (unmapProcessPage s e virt).mem (pmlGetAddr e) virt = none ∧
      (∀ π, Path π → π.length ≤ 3 → π ≠ leafPath virt →
        follow (unmapProcessPage s e virt).mem π (pmlGetAddr e) = follow s.mem π (pmlGetAddr e)) ∧
      ∀ virt' < 2 ^ 39, virt' / 4096 ≠ virt / 4096 →
        translate (unmapProcessPage s e virt).mem (pmlGetAddr e) virt' = translate s.mem (pmlGetAddr e) virt' := by
  have hmem : (unmapProcessPage s e virt).mem = Function.update s.mem (cell c (getPml1Index virt)) 0 := by
    rw [unmapProcessPage_mem, unmapCell_walk hc]
  obtain ⟨hother, hhere⟩ := follow_set hw (walkPath_path virt) (Nat.lt_succ_self 2) (getPmlIndex_lt _ _) hc hmem
  have hold : ∀ π, Path π → π.length ≤ 3 → π ≠ leafPath virt →
      follow (unmapProcessPage s e virt).mem π (pmlGetAddr e) = follow s.mem π (pmlGetAddr e) := by
    intro π hπ hl hne
    refine hother π hπ hl fun hpre => hne ?_
    exact (hpre.eq_of_length (Nat.le_antisymm hpre.length_le hl)).symm
  refine ⟨hhere.trans (if_neg (by decide)), hold, fun virt' hv' hne => ?_⟩
  exact hold _ (leafPath_path virt') (Nat.le_of_eq (length_leafPath virt')) fun h => hne (leafPath_inj hv' hv h)

/-- A map without one of its leaves is in order. -/
theorem WellFormed.unmap {m' : Mem} (hw : WellFormed m root) (hhere : translate m' root virt = none)
    (hold : ∀ π, Path π → π.length ≤ 3 → π ≠ leafPath virt → follow m' π root = follow m π root) :
    WellFormed m' root := by
  have hshort : ∀ π : List Nat, π.length < 3 → π ≠ leafPath virt := by
    rintro π hl rfl
    exact absurd hl (Nat.lt_irrefl 3)
  refine ⟨hw.aligned, fun π π' c hπ hπ' hl hl' h1 h2 => ?_, fun π π' c hπ hπ' hl hl' h1 h2 => ?_⟩
  · rw [hold π hπ (by omega) (hshort π hl)] at h1
    rw [hold π' hπ' (by omega) (hshort π' hl')] at h2
    exact hw.distinct π π' c hπ hπ' hl hl' h1 h2
  · rw [hold π hπ (by omega) (hshort π hl)] at h1
    by_cases heq : π' = leafPath virt
    · rw [heq, show follow m' (leafPath virt) root = none from hhere] at h2
      cases h2
    · rw [hold π' hπ' (by omega) heq] at h2
      exact hw.apart π π' c hπ hπ' hl hl' h1 h2

/-- **`UnmapProcessPage` is harmless** if and only if the page is mapped, or the cell that its walk ends at, through
    whatever the entries on the way hold, is 0 already. -/
theorem unmap_harmless (s : Mm) (e virt : Nat) (hw : WellFormed s.mem (pmlGetAddr e)) (hv : virt < 2 ^ 39) :
    Harmless s e virt ↔ translate s.mem (pmlGetAddr e) virt ≠ none ∨ s.mem (unmapCell s.mem e virt) = 0 := by
  constructor
  · intro h
    by_cases ht : translate s.mem (pmlGetAddr e) virt = none
    · have hsame := congrFun (h.absent ht) (unmapCell s.mem e virt)
      rw [unmapProcessPage_mem, Function.update_self] at hsame
      exact Or.inr hsame.symm
    · exact Or.inl ht
  · intro h
    refine ⟨fun ht => ?_, fun ht => ?_⟩
    · obtain ⟨c, hc⟩ := Option.ne_none_iff_exists'.mp fun hno => ht (translate_no_walk hno)
      obtain ⟨h1, -, h2⟩ := unmap_walk hw hv hc
      refine ⟨h1, h2, c, hc, fun a ha => ?_⟩
      rw [unmapProcessPage_mem, unmapCell_walk hc]
      exact Function.update_of_ne ha _ _
    · rcases h with h | h
      · exact absurd ht h
      · rw [unmapProcessPage_mem, ← h]
        exact Function.update_eq_self _ _

end Unmap

/-- A map with its root at 0x1000 and nothing in it, and a word in the first page of the memory. -/
def strayMap : Mm := { emptyMap with mem := fun a => if a = cell 0 3 then 0xBEEF else 0 }

theorem strayMap_follow {π : List Nat} {c : Nat} (hπ : Path π) (h : follow strayMap.mem π 0x1000 = some c) :
    π = [] ∧ c = 0x1000 := by
  cases π with
  | nil => exact ⟨rfl, (Option.some.inj h).symm⟩
  | cons i π =>
      have hi : i < 512 := hπ i List.mem_cons_self
      have hcell : cell 0x1000 i ≠ cell 0 3 := by
        unfold cell physToKernelPtr
        omega
      have hP : pmlGetP (entry strayMap.mem 0x1000 i) = false := by
        rw [show entry strayMap.mem 0x1000 i = 0 from if_neg hcell]
        decide
      simp only [follow, hP, Bool.false_eq_true, if_false] at h
      cases h

theorem strayMap_wellFormed : WellFormed strayMap.mem (pmlGetAddr (pmlEntry 0x1000)) := by
  rw [emptyMap_root]
  refine ⟨by decide, ?_, ?_⟩
  · intro π π' c hπ hπ' _ _ h h'
    rw [(strayMap_follow hπ h).1, (strayMap_follow hπ' h').1]
  · intro π π' c _ hπ' _ hl _ h'
    rw [(strayMap_follow hπ' h').1] at hl
    cases hl

/-- Nothing is mapped, and the word is cleared. -/
theorem unmap_nothing : WellFormed strayMap.mem (pmlGetAddr (pmlEntry 0x1000)) ∧
    translate strayMap.mem (pmlGetAddr (pmlEntry 0x1000)) 0x3000 = none ∧
    ¬ Harmless strayMap (pmlEntry 0x1000) 0x3000 := by
  have hnone : translate strayMap.mem (pmlGetAddr (pmlEntry 0x1000)) 0x3000 = none := by
    rw [emptyMap_root]
    by_contra h
    obtain ⟨c, hc⟩ := Option.ne_none_iff_exists'.mp h
    have := (strayMap_follow (leafPath_path 0x3000) hc).1
    cases this
  refine ⟨strayMap_wellFormed, hnone, fun h => ?_⟩
  have hsame := congrFun (h.absent hnone) (cell 0 3)
  revert hsame
  decide

/-- The same map with nothing in the first page. -/
theorem unmap_harmless_empty : Harmless emptyMap (pmlEntry 0x1000) 0x3000 :=
  (unmap_harmless emptyMap (pmlEntry 0x1000) 0x3000 emptyMap_ready.wf (by decide)).mpr (Or.inr rfl)

/-! ## 2. `UserToKernelPtr` -/

/-- `UserToKernelPtr`, with the map of the core. -/
def userToKernelPtr (s : Mm) (virt : Nat) : Nat :=
  let offs := virt &&& 0xFFF
  let pml3 := pmlGetAddr s.pml4
  let pml3Entry := entry s.mem pml3 (getPml3Index virt)
  if pmlGetP pml3Entry then
    let pml2 := pmlGetAddr pml3Entry
    let pml2Entry := entry s.mem pml2 (getPml2Index virt)
    if pmlGetP pml2Entry then
      let pml1 := pmlGetAddr pml2Entry
      let pml1Entry := entry s.mem pml1 (getPml1Index virt)
      physToKernelPtr (pmlGetAddr pml1Entry ||| offs)
    else 0
  else 0

/-- The pointer to an address in a frame, `nullptr` without one. -/
def expectedPtr (frame : Option Nat) (virt : Nat) : Nat :=
  match frame with
  | some f => physToKernelPtr f + virt % 4096
  | none => 0

section Pointer

variable {m : Mem} {s : Mm} {e root virt c : Nat}

theorem or_offset {f : Nat} (hf : 4096 ∣ f) (virt : Nat) : f ||| (virt &&& 0xFFF) = f + virt % 4096 := by
  obtain ⟨q, rfl⟩ := hf
  have h := Nat.shiftLeft_add_eq_or_of_lt (i := 12) (b := virt % 4096) (Nat.mod_lt _ (by decide)) q
  rw [Nat.shiftLeft_eq] at h
  rw [show (0xFFF : Nat) = 2 ^ 12 - 1 from rfl, Nat.and_two_pow_sub_one_eq_mod, Nat.mul_comm 4096 q]
  exact h.symm

/-- With a table for the address the answer is a pointer, whatever the last entry is; without one it is `nullptr`. -/
theorem userToKernelPtr_cases (s : Mm) (virt : Nat) : userToKernelPtr s virt =
    match follow s.mem (walkPath virt) (pmlGetAddr s.pml4) with
    | some c => physToKernelPtr (pmlGetAddr (entry s.mem c (getPml1Index virt))) + virt % 4096
    | none => 0 := by
  rw [follow_walkPath]
  unfold userToKernelPtr
  dsimp only
  split_ifs with h1 h2
  · dsimp only
    rw [or_offset (pmlGetAddr_facts _).1]
    exact Nat.add_right_comm _ _ _
  · rfl
  · rfl

/-- **`UserToKernelPtr` translates** if and only if the page is mapped, or there is no table for its address. -/
theorem userToKernelPtr_iff (s : Mm) (virt : Nat) :
    userToKernelPtr s virt = expectedPtr (translate s.mem (pmlGetAddr s.pml4) virt) virt ↔
      translate s.mem (pmlGetAddr s.pml4) virt ≠ none ∨ follow s.mem (walkPath virt) (pmlGetAddr s.pml4) = none := by
  rw [userToKernelPtr_cases]
  cases hc : follow s.mem (walkPath virt) (pmlGetAddr s.pml4) with
  | none =>
      rw [translate_no_walk hc]
      exact ⟨fun _ => Or.inr rfl, fun _ => rfl⟩
  | some c =>
      have hleaf : translate s.mem (pmlGetAddr s.pml4) virt = _ := leaf_entry hc
      dsimp only
      rw [hleaf]
      cases hP : pmlGetP (entry s.mem c (getPml1Index virt)) with
      | true => exact ⟨fun _ => Or.inl (Option.some_ne_none _), fun _ => rfl⟩
      | false =>
          refine ⟨fun h => ?_, fun h => ?_⟩
          · have h0 : physToKernelPtr (pmlGetAddr (entry s.mem c (getPml1Index virt))) + virt % 4096 = 0 := h
            have hb := highMemBase_eq
            unfold physToKernelPtr at h0
            omega
          · rcases h with h | h
            · exact absurd rfl h
            · cases h

end Pointer

/-! ## 3. Calls that map and unmap -/

/-- The kernel, with what the calls have done to the map of the core: the frame of each page, and the ranges of 2 MiB
    that have a table. -/
structure Tracked where
  mm : Mm
  frames : Nat → Option Nat
  touched : Nat → Prop

def Tracked.root (t : Tracked) : Nat := pmlGetAddr t.mm.pml4

inductive MapCall where
  | map (phys virt : Nat)
  | mapAny (virt : Nat)
  | unmap (virt : Nat)
  | elsewhere
  deriving DecidableEq

/-- One call. A call that maps finds fresh pages, and is given a page in use that is no table; `elsewhere` is anything
    that leaves the tables of the map alone. -/
inductive callStep (alloc : Alloc) : Tracked → MapCall → Tracked → Prop where
  | map (t : Tracked) (used : Nat → Prop) (phys virt : Nat) (s' : Mm) (hr : Ready alloc t.root 2 used t.mm)
      (hphys : 4096 ∣ phys ∧ phys < 2 ^ 52) (hu : used phys) (hnt : ¬ IsTable t.mm.mem t.root phys)
      (hv : virt < 2 ^ 39) (h : mapProcessPageWith alloc t.mm t.mm.pml4 phys virt = some s') :
      callStep alloc t (.map phys virt)
        ⟨s', Function.update t.frames (virt / 4096) (some phys), fun r => t.touched r ∨ r = virt / 2 ^ 21⟩
  | mapAny (t : Tracked) (used : Nat → Prop) (virt : Nat) (s' : Mm) (ptr : Nat)
      (hr : Ready alloc t.root 3 used t.mm) (hv : virt < 2 ^ 39)
      (h : mapAnyPageWith alloc t.mm t.mm.pml4 virt = some (s', ptr)) :
      callStep alloc t (.mapAny virt)
        ⟨s', Function.update t.frames (virt / 4096) (some (kernelToPhysPtr ptr)),
          fun r => t.touched r ∨ r = virt / 2 ^ 21⟩
  | unmap (t : Tracked) (virt : Nat) (hv : virt < 2 ^ 39) :
      callStep alloc t (.unmap virt)
        ⟨unmapProcessPage t.mm t.mm.pml4 virt, Function.update t.frames (virt / 4096) none, t.touched⟩
  | elsewhere (t : Tracked) (s' : Mm) (hpml : s'.pml4 = t.mm.pml4)
      (hsame : ∀ q, IsTable t.mm.mem t.root q → SamePage t.mm.mem s'.mem q) :
      callStep alloc t .elsewhere { t with mm := s' }

/-- A page is unmapped only in a range that has a table. -/
def hasTable (t : Tracked) : MapCall → Prop
  | .unmap virt => t.touched (virt / 2 ^ 21)
  | _ => True

/-- The map is in order, and is what the calls have made it. -/
structure Tracks (t : Tracked) : Prop where
  wf : WellFormed t.mm.mem t.root
  frames : ∀ virt < 2 ^ 39, translate t.mm.mem t.root virt = t.frames (virt / 4096)
  touched : ∀ virt < 2 ^ 39, follow t.mm.mem (walkPath virt) t.root ≠ none ↔ t.touched (virt / 2 ^ 21)

section Calls

variable {alloc : Alloc} {root k : Nat} {used : Nat → Prop} {s s' : Mm} {t t' : Tracked}

theorem length_walkPath (virt : Nat) : (walkPath virt).length = 2 := rfl

theorem walkPath_ne_leafPath (virt virt' : Nat) : walkPath virt ≠ leafPath virt' := by
  intro h
  have := congrArg List.length h
  rw [length_walkPath, length_leafPath] at this
  omega

/-- Addresses with the same two upper indices. -/
theorem walkPath_inj {virt virt' : Nat} (hv : virt < 2 ^ 39) (hv' : virt' < 2 ^ 39) :
    walkPath virt = walkPath virt' ↔ virt / 2 ^ 21 = virt' / 2 ^ 21 := by
  unfold walkPath getPml3Index getPml2Index
  simp only [getPmlIndex_eq, List.cons.injEq, and_true]
  norm_num
  omega

/-- The addresses of one page have one leaf. -/
theorem leafPath_page {virt virt' : Nat} (h : virt' / 4096 = virt / 4096) : leafPath virt' = leafPath virt := by
  unfold leafPath walkPath getPml3Index getPml2Index getPml1Index
  simp only [getPmlIndex_eq]
  norm_num
  omega

/-- A leaf has a table. -/
theorem walk_of_translate {m : Mem} {virt : Nat} (h : translate m root virt ≠ none) :
    follow m (walkPath virt) root ≠ none := fun hno => h (translate_no_walk hno)

/-- The tables that a mapping leaves alone. -/
theorem mapProcessPage_tables (hr : Ready alloc root (k + 2) used s) {e phys virt : Nat} (he : pmlGetAddr e = root)
    (h : mapProcessPageWith alloc s e phys virt = some s') {π : List Nat} (hπ : Path π) (hl : π.length = 2)
    (hne : π ≠ walkPath virt) : follow s'.mem π root = follow s.mem π root := by
  obtain ⟨s1, c, used1, hwalk, hr1, -, hc, -, hold⟩ := walk_step hr virt he
  unfold mapProcessPageWith at h
  rw [hwalk, Option.map_some] at h
  obtain rfl := Option.some.inj h
  obtain ⟨hset, -⟩ := follow_set hr1.wf (walkPath_path virt) (Nat.lt_succ_self 2) (getPmlIndex_lt _ _) hc
    (show (setEntry s1 c (getPml1Index virt) (pmlEntry phys)).mem = _ from rfl)
  refine (hset π hπ (by omega) fun hpre => ?_).trans (hold π hπ (by omega) fun hpre => ?_)
  · have := hpre.length_le
    rw [List.length_append, length_walkPath, hl, List.length_singleton] at this
    exact absurd this (by decide)
  · exact hne (hpre.eq_of_length hl)

theorem mapAnyPage_tables (hr : Ready alloc root (k + 3) used s) {e virt ptr : Nat} (he : pmlGetAddr e = root)
    (h : mapAnyPageWith alloc s e virt = some (s', ptr)) {π : List Nat} (hπ : Path π) (hl : π.length = 2)
    (hne : π ≠ walkPath virt) : follow s'.mem π root = follow s.mem π root := by
  obtain ⟨s1, c, used1, hwalk, hr1, -, hc, -, hold⟩ := walk_step hr virt he
  have hwalked : follow s1.mem π root = follow s.mem π root :=
    hold π hπ (by omega) fun hpre => hne (hpre.eq_of_length hl)
  unfold mapAnyPageWith at h
  rw [hwalk, Option.bind_some] at h
  dsimp only at h
  split_ifs at h with hP
  · obtain ⟨rfl, -⟩ := Prod.mk.inj (Option.some.inj h)
    exact hwalked
  · obtain ⟨s2, p, halloc, -, -, -, -, hsame2, -⟩ := hr1.supplies.page
    have hfol : ∀ π, Path π → π.length ≤ 3 → follow s2.mem π root = follow s1.mem π root :=
      fun π hπ hl => follow_same (fun q hq => hsame2 q (hr1.pages q hq.page)) hπ hl
    rw [halloc, Option.map_some] at h
    obtain ⟨rfl, -⟩ := Prod.mk.inj (Option.some.inj h)
    obtain ⟨hset, -⟩ := follow_set (hr1.wf.congr hfol) (walkPath_path virt) (Nat.lt_succ_self 2) (getPmlIndex_lt _ _)
      ((hfol _ (walkPath_path virt) (Nat.le_succ 2)).trans hc)
      (show (setEntry s2 c (getPml1Index virt) (pmlEntry p)).mem = _ from rfl)
    refine (hset π hπ (by omega) fun hpre => ?_).trans ((hfol π hπ (by omega)).trans hwalked)
    have := hpre.length_le
    rw [List.length_append, length_walkPath, hl, List.length_singleton] at this
    exact absurd this (by decide)

/-- A mapping, by what it does to the paths. -/
theorem Tracks.mapped (ht : Tracks t) {virt phys : Nat} (hv : virt < 2 ^ 39) (hpml : s'.pml4 = t.mm.pml4)
    (hwf : WellFormed s'.mem t.root) (hhere : translate s'.mem t.root virt = some phys)
    (hother : ∀ virt' < 2 ^ 39, virt' / 4096 ≠ virt / 4096 →
      translate s'.mem t.root virt' = translate t.mm.mem t.root virt')
    (htab : ∀ π, Path π → π.length = 2 → π ≠ walkPath virt → follow s'.mem π t.root = follow t.mm.mem π t.root) :
    Tracks ⟨s', Function.update t.frames (virt / 4096) (some phys), fun r => t.touched r ∨ r = virt / 2 ^ 21⟩ := by
  have hroot : pmlGetAddr s'.pml4 = t.root := by rw [hpml, Tracked.root]
  refine ⟨?_, fun virt' hv' => ?_, fun virt' hv' => ?_⟩
  · rwa [Tracked.root, hroot]
  · rw [Tracked.root, hroot]
    dsimp only
    by_cases hpage : virt' / 4096 = virt / 4096
    · rw [hpage, Function.update_self, ← hhere, translate, translate, leafPath_page hpage]
    · rw [Function.update_of_ne hpage, hother virt' hv' hpage]
      exact ht.frames virt' hv'
  · rw [Tracked.root, hroot]
    dsimp only
    by_cases hrange : virt' / 2 ^ 21 = virt / 2 ^ 21
    · rw [(walkPath_inj hv' hv).mpr hrange]
      refine ⟨fun _ => Or.inr hrange, fun _ => walk_of_translate ?_⟩
      rw [hhere]
      exact Option.some_ne_none _
    · have hne : walkPath virt' ≠ walkPath virt := fun h => hrange ((walkPath_inj hv' hv).mp h)
      rw [htab _ (walkPath_path virt') (length_walkPath virt') hne, ht.touched virt' hv', or_iff_left hrange]

/-- A frame as `MapProcessPage` answers it. -/
theorem kernelToPhysPtr_physToKernelPtr (p : Nat) : kernelToPhysPtr (physToKernelPtr p) = p := Nat.add_sub_cancel p _

/-- Each call keeps the map in order and does what it says. -/
theorem tracks_step {call : MapCall} (ht : Tracks t) (hs : Guarded (callStep alloc) hasTable t call t') :
    Tracks t' := by
  obtain ⟨hs, hok⟩ := hs
  cases hs with
  | map used phys virt s' hr hphys hu hnt hv h =>
      obtain ⟨s1, used1, h1, hr1, hm⟩ := mapProcessPage_fresh (k := 0) hr virt rfl hphys hu hnt
      obtain rfl : s1 = s' := Option.some.inj (h1.symm.trans h)
      refine ht.mapped hv hm.pml4 hr1.wf hm.here (fun virt' hv' hne => ?_) fun π hπ hl hne =>
        mapProcessPage_tables (k := 0) hr rfl h hπ hl hne
      exact hm.other _ (leafPath_path virt') (length_leafPath virt') fun h => hne (leafPath_inj hv' hv h)
  | mapAny used virt s' ptr hr hv h =>
      obtain ⟨hany1, hany2⟩ := mapAnyPage_fresh (k := 0) hr virt rfl
      have htab : ∀ π, Path π → π.length = 2 → π ≠ walkPath virt → follow s'.mem π t.root = follow t.mm.mem π t.root :=
        fun π hπ hl hne => mapAnyPage_tables (k := 0) hr rfl h hπ hl hne
      cases hcase : translate t.mm.mem t.root virt with
      | some p =>
          obtain ⟨rfl, rfl⟩ := Prod.mk.inj (Option.some.inj ((hany1 p hcase).symm.trans h))
          rw [kernelToPhysPtr_physToKernelPtr]
          exact ht.mapped hv rfl ht.wf hcase (fun _ _ _ => rfl) htab
      | none =>
          obtain ⟨s1, p, used1, -, h1, hr1, hm⟩ := hany2 hcase
          obtain ⟨rfl, rfl⟩ := Prod.mk.inj (Option.some.inj (h1.symm.trans h))
          rw [kernelToPhysPtr_physToKernelPtr]
          refine ht.mapped hv hm.pml4 hr1.wf hm.here (fun virt' hv' hne => ?_) htab
          exact hm.other _ (leafPath_path virt') (length_leafPath virt') fun h => hne (leafPath_inj hv' hv h)
  | unmap virt hv =>
      obtain ⟨c, hc⟩ := Option.ne_none_iff_exists'.mp ((ht.touched virt hv).mpr hok)
      obtain ⟨hhere, hold, hother⟩ := unmap_walk ht.wf hv hc
      refine ⟨?_, fun virt' hv' => ?_, fun virt' hv' => ?_⟩
      · exact ht.wf.unmap hhere hold
      · show translate (unmapProcessPage t.mm t.mm.pml4 virt).mem t.root virt' = _
        dsimp only
        by_cases hpage : virt' / 4096 = virt / 4096
        · rw [hpage, Function.update_self, translate, leafPath_page hpage]
          exact hhere
        · rw [Function.update_of_ne hpage]
          exact (hother virt' hv' hpage).trans (ht.frames virt' hv')
      · have hwalk : follow (unmapProcessPage t.mm t.mm.pml4 virt).mem (walkPath virt') t.root = _ :=
          hold _ (walkPath_path virt') (Nat.le_succ 2) (walkPath_ne_leafPath virt' virt)
        show follow (unmapProcessPage t.mm t.mm.pml4 virt).mem (walkPath virt') t.root ≠ none ↔ _
        rw [hwalk]
        exact ht.touched virt' hv'
  | elsewhere s' hpml hsame =>
      have hfol : ∀ π, Path π → π.length ≤ 3 → follow s'.mem π t.root = follow t.mm.mem π t.root :=
        fun π hπ hl => follow_same hsame hπ hl
      have hroot : pmlGetAddr s'.pml4 = t.root := by rw [hpml, Tracked.root]
      refine ⟨?_, fun virt hv => ?_, fun virt hv => ?_⟩
      · rw [Tracked.root, hroot]
        exact ht.wf.congr hfol
      · rw [Tracked.root, hroot]
        exact (hfol _ (leafPath_path virt) (Nat.le_refl 3)).trans (ht.frames virt hv)
      · rw [Tracked.root, hroot]
        dsimp only
        rw [hfol _ (walkPath_path virt) (Nat.le_succ 2)]
        exact ht.touched virt hv

/-- **`UserToKernelPtr` translates faithfully**, in any state, if and only if the page is mapped or its range has no
    table; and after any calls that map, and unmap where there is a table, it agrees with their effect if and only if
    the page is mapped by them or none of its range has ever been. -/
theorem user_pointers (alloc : Alloc) :
    (∀ s virt, userToKernelPtr s virt = expectedPtr (translate s.mem (pmlGetAddr s.pml4) virt) virt ↔
      translate s.mem (pmlGetAddr s.pml4) virt ≠ none ∨
        follow s.mem (walkPath virt) (pmlGetAddr s.pml4) = none) ∧
    ∀ t, Reach (Guarded (callStep alloc) hasTable) Tracks t → Tracks t ∧ ∀ virt < 2 ^ 39,
      (userToKernelPtr t.mm virt = expectedPtr (t.frames (virt / 4096)) virt ↔
        t.frames (virt / 4096) ≠ none ∨ ¬ t.touched (virt / 2 ^ 21)) := by
  refine ⟨userToKernelPtr_iff, fun t h => ?_⟩
  have ht : Tracks t := h.inv (fun _ h0 => h0) fun _ _ _ h hs => tracks_step h hs
  refine ⟨ht, fun virt hv => ?_⟩
  rw [← ht.frames virt hv, ← ht.touched virt hv, not_not]
  exact userToKernelPtr_iff t.mm virt

end Calls

/-- A new map, before any call. -/
def noCalls : Tracked := ⟨emptyMap, fun _ => none, fun _ => False⟩

theorem noCalls_tracks : Tracks noCalls := by
  have hfollow : ∀ virt, follow emptyMap.mem (walkPath virt) 0x1000 = none := by
    intro virt
    by_contra h
    obtain ⟨c, hc⟩ := Option.ne_none_iff_exists'.mp h
    exact List.cons_ne_nil _ _ (emptyMap_follow hc).1
  have hroot : noCalls.root = 0x1000 := emptyMap_root
  refine ⟨emptyMap_ready.wf, fun virt _ => ?_, fun virt _ => ?_⟩
  · rw [hroot]
    exact translate_no_walk (hfollow virt)
  · rw [hroot]
    exact ⟨fun h => h (hfollow virt), fun h => h.elim⟩

/-- After a call that maps the page 0x400000. -/
theorem noCalls_map : ∃ t, Reach (Guarded (callStep bumpAlloc) hasTable) Tracks t ∧
    t.frames (0x400000 / 4096) = some 0 ∧
    t.frames (0x401000 / 4096) = none ∧ t.touched (0x401000 / 2 ^ 21) := by
  have hr : Ready bumpAlloc noCalls.root 2 firstPages noCalls.mm :=
    ⟨emptyMap_ready.wf, emptyMap_ready.aligned, emptyMap_ready.pages, emptyMap_ready.supplies.less⟩
  have hnt : ¬ IsTable noCalls.mm.mem noCalls.root 0 := by
    rw [show noCalls.root = 0x1000 from emptyMap_root]
    intro hx
    obtain ⟨π, -, -, h⟩ := hx
    exact absurd (emptyMap_follow h).2 (by decide)
  obtain ⟨s', used', h, -, -⟩ := mapProcessPage_fresh (k := 0) hr 0x400000 rfl ⟨by decide, by decide⟩ (Or.inl rfl) hnt
  have hstep := callStep.map noCalls firstPages 0 0x400000 s' hr ⟨by decide, by decide⟩ (Or.inl rfl) hnt (by decide) h
  exact ⟨_, Reach.next _ _ _ (Reach.start _ noCalls_tracks) ⟨hstep, trivial⟩, rfl, rfl, Or.inr (by decide)⟩

theorem user_pointers_map : ∃ t, Tracks t ∧ userToKernelPtr t.mm 0x400123 = physToKernelPtr 0 + 0x123 := by
  obtain ⟨t, ht, hframe, -, -⟩ := noCalls_map
  obtain ⟨htr, hptr⟩ := (user_pointers bumpAlloc).2 t ht
  refine ⟨t, htr, ?_⟩
  rw [(hptr 0x400123 (by decide)).mpr (Or.inl (by rw [show 0x400123 / 4096 = 0x400000 / 4096 from rfl, hframe]
                                                  exact Option.some_ne_none 0)),
    show 0x400123 / 4096 = 0x400000 / 4096 from rfl, hframe]
  rfl

/-- The page next to it is not mapped, and has a pointer. -/
theorem neighbour_pointer : ∃ t, Tracks t ∧ translate t.mm.mem t.root 0x401000 = none ∧
    userToKernelPtr t.mm 0x401000 ≠ expectedPtr (t.frames (0x401000 / 4096)) 0x401000 := by
  obtain ⟨t, ht, -, hnone, htable⟩ := noCalls_map
  have htr : Tracks t := ht.inv (fun _ h0 => h0) fun _ _ _ h hs => tracks_step h hs
  have hframe := htr.frames 0x401000 (by decide)
  refine ⟨t, htr, hframe.trans hnone, fun h => ?_⟩
  rw [← hframe] at h
  rcases (userToKernelPtr_iff t.mm 0x401000).mp h with h1 | h1
  · exact h1 (hframe.trans hnone)
  · exact (htr.touched 0x401000 (by decide)).mpr htable h1

end MemoryManager

end SimpleOS2
