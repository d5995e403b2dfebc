/-
  File:      SimpleOS2/Bootloader/PhysicalMap.lean
  Subject:   THE MEMORY MAP OF THE BOOT LOADER (`CleanupMemMap` of Bootloader/physicalMap.cpp).

  The firmware's descriptors are changed where they stand: an entry is given up by the start `(uint64)-1`. A usable
  entry takes in the entries behind it that touch it, one a turn, and is looked at again after each; then the entries
  that were given up are closed up.

  * `markUsable`, `joinFrom`, `joinLoop`, `shiftDown`, `compactLoop`, `cleanupMemMap` -- the three loops;
  * `Entries` -- the entries in use: disjoint ranges, with a given union; `Joined` -- those before `s` touch no other;
  * `joinFrom_spec`, `Joined.join`, `joinLoop_spec` -- the second loop: a turn, and the loop with its measure;
  * `Entries.close`, `compactLoop_spec` -- the third loop;
  * `memory_map` -- the list that is left.
-/
import Mathlib.Data.Finset.Card
import Mathlib.Data.Finset.Range
import Mathlib.Logic.Function.Basic
import Mathlib.Tactic.IntervalCases
import SimpleOS2.Klib.Memory
import SimpleOS2.Lib.Run

namespace SimpleOS2

open Lib

namespace PhysicalMap

/-! ## 1. The loops -/

/-- `EFI_MEMORY_DESCRIPTOR`. -/
structure Descriptor where
  type : Nat
  physicalStart : Nat
  virtualStart : Nat
  numberOfPages : Nat
  attributes : Nat
  deriving DecidableEq

/-- `EFI_MEMORY_TYPE`, as far as it is used. -/
def EfiLoaderCode : Nat := 1
def EfiLoaderData : Nat := 2
def EfiBootServicesCode : Nat := 3
def EfiBootServicesData : Nat := 4
def EfiConventionalMemory : Nat := 7
def EfiUnusableMemory : Nat := 8

/-- `(uint64)-1`. -/
def noStart : Nat := 2 ^ 64 - 1

/-- The array of descriptors, `entrySize` bytes apart. -/
abbrev Map := Nat → Descriptor

/-- The types the kernel can use. -/
def Usable (type : Nat) : Prop :=
  type = EfiLoaderCode ∨ type = EfiLoaderData ∨ type = EfiBootServicesCode ∨ type = EfiBootServicesData ∨
    type = EfiConventionalMemory

instance (type : Nat) : Decidable (Usable type) := by unfold Usable; infer_instance

/-- The body of the first loop. -/
def markUsable (seg : Descriptor) : Descriptor :=
  if Usable seg.type then { seg with type := EfiConventionalMemory }
  else { seg with type := EfiUnusableMemory, physicalStart := noStart }

/-- The first loop, from `s` on. -/
def markLoop : (n : Nat) → (s : Nat) → Map → Map
  | 0, _, map => map
  | n + 1, s, map => markLoop n (s + 1) (Function.update map s (markUsable (map s)))

/-- `seg->PhysicalStart + seg->NumberOfPages * 4096`. -/
def Descriptor.stop (seg : Descriptor) : Nat := u64 (seg.physicalStart + u64 (seg.numberOfPages * 4096))

/-- The search for an entry that touches `map[s]`, from `c` on: the array after it has been taken in. -/
def joinFrom (map : Map) (s start stop : Nat) : (n : Nat) → (c : Nat) → Option Map
  | 0, _ => none
  | n + 1, c =>
      let seg := map s
      let cmp := map c
      if cmp.type ≠ EfiConventionalMemory then joinFrom map s start stop n (c + 1)
      else if cmp.physicalStart = noStart then joinFrom map s start stop n (c + 1)
      else if cmp.physicalStart = stop then
        some (Function.update
          (Function.update map s { seg with numberOfPages := u64 (seg.numberOfPages + cmp.numberOfPages) })
          c { cmp with physicalStart := noStart })
      else if cmp.stop = start then
        some (Function.update
          (Function.update map s { seg with
            physicalStart := cmp.physicalStart, numberOfPages := u64 (seg.numberOfPages + cmp.numberOfPages) })
          c { cmp with physicalStart := noStart })
      else joinFrom map s start stop n (c + 1)

/-- `s--`, `s++`. -/
def pred64 (s : Nat) : Nat := u64 (s + noStart)

def succ64 (s : Nat) : Nat := u64 (s + 1)

/-- The second loop. -/
def joinLoop (count : Nat) : (fuel : Nat) → (s : Nat) → Map → Option Map
  | 0, _, _ => none
  | fuel + 1, s, map =>
      if s < count then
        let seg := map s
        if seg.type ≠ EfiConventionalMemory then joinLoop count fuel (succ64 s) map
        else if seg.physicalStart = noStart then joinLoop count fuel (succ64 s) map
        else
          match joinFrom map s seg.physicalStart seg.stop (count - (s + 1)) (s + 1) with
          | some map' => joinLoop count fuel (succ64 (pred64 s)) map'
          | none => joinLoop count fuel (succ64 s) map
      else some map

/-- `for(m = ..; m < count; m++) map[m - 1] = map[m];` -/
def shiftDown : (n : Nat) → (m : Nat) → Map → Map
  | 0, _, map => map
  | n + 1, m, map => shiftDown n (m + 1) (Function.update map (m - 1) (map m))

/-- The third loop. -/
def compactLoop : (fuel : Nat) → (s count : Nat) → Map → Option (Map × Nat)
  | 0, _, _, _ => none
  | fuel + 1, s, count, map =>
      if s < count then
        if (map s).physicalStart ≠ noStart then compactLoop fuel (succ64 s) count map
        else compactLoop fuel (succ64 (pred64 s)) (pred64 count) (shiftDown (count - (s + 1)) (s + 1) map)
      else some (map, count)

/-- `CleanupMemMap`: the array and the count. -/
def cleanupMemMap (fuel : Nat) (map : Map) (count : Nat) : Option (Map × Nat) :=
  (joinLoop count fuel 0 (markLoop count 0 map)).bind fun map => compactLoop fuel 0 count map

section Steps

variable {map map' : Map} {s n c count : Nat}

theorem markLoop_eq (n s : Nat) (map : Map) (i : Nat) :
    markLoop n s map i = if s ≤ i ∧ i < s + n then markUsable (map i) else map i := by
  induction n generalizing s map with
  | zero => exact (if_neg (by omega)).symm
  | succ n ih =>
      rw [markLoop, ih]
      by_cases hi : i = s
      · subst hi
        rw [if_neg (by omega), Function.update_self, if_pos (by omega)]
      · rw [Function.update_of_ne hi]
        split_ifs <;> first | rfl | omega

theorem shiftDown_eq (n m : Nat) (map : Map) (hm : 0 < m) (i : Nat) :
    shiftDown n m map i = if m ≤ i + 1 ∧ i + 1 < m + n then map (i + 1) else map i := by
  induction n generalizing m map with
  | zero => exact (if_neg (by omega)).symm
  | succ n ih =>
      rw [shiftDown, ih (m + 1) _ (Nat.succ_pos m)]
      by_cases hi : i + 1 = m
      · subst hi
        rw [if_neg (by omega), Nat.add_sub_cancel, Function.update_self, if_pos (by omega)]
      · rw [Function.update_of_ne (by omega : i ≠ m - 1)]
        by_cases hin : m + 1 ≤ i + 1 ∧ i + 1 < m + 1 + n
        · rw [if_pos hin, if_pos (by omega), Function.update_of_ne (by omega : i + 1 ≠ m - 1)]
        · rw [if_neg hin, if_neg (by omega)]

theorem succ64_of_lt (h : s < count) (hc : count < 2 ^ 64) : succ64 s = s + 1 := u64_of_lt (by omega)

/-- A decrement before the increment takes the loop back to its entry, also from 0. -/
theorem succ64_pred64 (h : s < 2 ^ 64) : succ64 (pred64 s) = s := by
  unfold succ64 pred64 noStart u64
  omega

theorem pred64_of_pos (h : 0 < s) (hs : s < 2 ^ 64) : pred64 s = s - 1 := by
  unfold pred64 noStart u64
  omega

end Steps

/-! ## 2. The entries in use -/

/-- The end of the range, as a number. -/
def Descriptor.limit (seg : Descriptor) : Nat := seg.physicalStart + seg.numberOfPages * 4096

/-- The addresses of the range. -/
def Descriptor.Holds (seg : Descriptor) (p : Nat) : Prop := seg.physicalStart ≤ p ∧ p < seg.limit

/-- At least one page, and an end that the code computes without a wrap. -/
structure Descriptor.Valid (seg : Descriptor) : Prop where
  pages : 1 ≤ seg.numberOfPages
  limit : seg.limit < 2 ^ 64

/-- The entry was not given up. -/
def Live (map : Map) (i : Nat) : Prop := (map i).physicalStart ≠ noStart

instance (map : Map) (i : Nat) : Decidable (Live map i) := by unfold Live; infer_instance

/-- The entries in use: conventional memory in disjoint ranges, with the union `U`. -/
structure Entries (U : Nat → Prop) (map : Map) (count : Nat) : Prop where
  type : ∀ i, i < count → Live map i → (map i).type = EfiConventionalMemory
  valid : ∀ i, i < count → Live map i → (map i).Valid
  apart : ∀ i j, i < count → j < count → i ≠ j → Live map i → Live map j → ∀ p, (map i).Holds p → ¬ (map j).Holds p
  union : ∀ p, U p ↔ ∃ i, i < count ∧ Live map i ∧ (map i).Holds p

/-- The entries before `s` touch no other entry. -/
def Joined (map : Map) (count s : Nat) : Prop :=
  ∀ i j, i < s → j < count → i ≠ j → Live map i → Live map j → ∀ p,
    ((map i).Holds p → ¬ (map j).Holds (p + 1)) ∧ ((map j).Holds p → ¬ (map i).Holds (p + 1))

section Ranges

variable {U : Nat → Prop} {map map' : Map} {seg cmp : Descriptor} {s c count : Nat}

theorem Descriptor.Valid.stop_eq (h : seg.Valid) : seg.stop = seg.limit := by
  have h1 := h.limit
  unfold Descriptor.limit at h1
  unfold Descriptor.stop Descriptor.limit
  rw [u64_of_lt (by omega : seg.numberOfPages * 4096 < 2 ^ 64), u64_of_lt h1]

theorem Descriptor.Valid.live (h : (map s).Valid) : Live map s := by
  have h1 := h.limit
  have h2 := h.pages
  unfold Descriptor.limit at h1
  unfold Live noStart
  omega

theorem Joined.mono (h : Joined map count s) (hs : c ≤ s) : Joined map count c :=
  fun i j hi hj => h i j (Nat.lt_of_lt_of_le hi hs) hj

/-- Two disjoint ranges that do not touch leave a gap. -/
theorem Descriptor.Valid.gap (h1 : seg.Valid) (h2 : cmp.Valid) (hd : ∀ p, seg.Holds p → ¬ cmp.Holds p)
    (ht : ∀ p, (seg.Holds p → ¬ cmp.Holds (p + 1)) ∧ (cmp.Holds p → ¬ seg.Holds (p + 1))) :
    seg.limit < cmp.physicalStart ∨ cmp.limit < seg.physicalStart := by
  have a1 := h1.pages
  have a2 := h2.pages
  have b1 := hd seg.physicalStart
  have b2 := hd cmp.physicalStart
  have b3 := (ht (seg.limit - 1)).1
  have b4 := (ht (cmp.limit - 1)).2
  unfold Descriptor.Holds Descriptor.limit at *
  omega

/-- `map'` is `map` after the entry `s` has taken in the entry `c`. -/
structure Join (map map' : Map) (s c : Nat) : Prop where
  type : (map' s).type = (map s).type
  valid : (map' s).Valid
  given : ¬ Live map' c
  holds : ∀ p, (map' s).Holds p ↔ (map s).Holds p ∨ (map c).Holds p
  other : ∀ i, i ≠ s → i ≠ c → map' i = map i

theorem Join.live_iff (h : Join map map' s c) (hs : Live map s) (i : Nat) :
    Live map' i ↔ i ≠ c ∧ Live map i := by
  by_cases hc : i = c
  · subst hc
    exact iff_of_false h.given fun h => h.1 rfl
  · by_cases hi : i = s
    · subst hi
      exact iff_of_true h.valid.live ⟨hc, hs⟩
    · unfold Live
      rw [h.other i hi hc]
      exact (and_iff_right hc).symm

theorem Entries.join (he : Entries U map count) (h : Join map map' s c) (hs : s < count) (hc : c < count)
    (hl : Live map s) (hlc : Live map c) (hsc : s ≠ c) : Entries U map' count := by
  have hlive := h.live_iff hl
  -- the entry `s` against another one
  have hone : ∀ j, j < count → j ≠ s → Live map' j → ∀ p, (map' s).Holds p → ¬ (map' j).Holds p := by
    intro j hj hjs hlj p hp
    obtain ⟨hjc, hlj⟩ := (hlive j).mp hlj
    rw [h.other j hjs hjc]
    rcases (h.holds p).mp hp with hp | hp
    · exact he.apart s j hs hj (Ne.symm hjs) hl hlj p hp
    · exact he.apart c j hc hj (Ne.symm hjc) hlc hlj p hp
  refine ⟨fun i hi hli => ?_, fun i hi hli => ?_, fun i j hi hj hij hli hlj p hp hp' => ?_, fun p => ?_⟩
  · by_cases his : i = s
    · subst his
      rw [h.type]
      exact he.type i hs hl
    · obtain ⟨hic, hli⟩ := (hlive i).mp hli
      rw [h.other i his hic]
      exact he.type i hi hli
  · by_cases his : i = s
    · subst his
      exact h.valid
    · obtain ⟨hic, hli⟩ := (hlive i).mp hli
      rw [h.other i his hic]
      exact he.valid i hi hli
  · by_cases his : i = s
    · subst his
      exact hone j hj (Ne.symm hij) hlj p hp hp'
    · by_cases hjs : j = s
      · subst hjs
        exact hone i hi hij hli p hp' hp
      · obtain ⟨hic, hli⟩ := (hlive i).mp hli
        obtain ⟨hjc, hlj⟩ := (hlive j).mp hlj
        rw [h.other i his hic] at hp
        rw [h.other j hjs hjc] at hp'
        exact he.apart i j hi hj hij hli hlj p hp hp'
  · rw [he.union p]
    constructor
    · intro h'
      obtain ⟨i, hi, hli, hp⟩ := h'
      by_cases hsi : i = s ∨ i = c
      · refine ⟨s, hs, h.valid.live, (h.holds p).mpr ?_⟩
        rcases hsi with rfl | rfl
        · exact Or.inl hp
        · exact Or.inr hp
      · obtain ⟨his, hic⟩ := not_or.mp hsi
        refine ⟨i, hi, (hlive i).mpr ⟨hic, hli⟩, ?_⟩
        rw [h.other i his hic]
        exact hp
    · intro h'
      obtain ⟨i, hi, hli, hp⟩ := h'
      obtain ⟨hic, hli⟩ := (hlive i).mp hli
      by_cases his : i = s
      · subst his
        rcases (h.holds p).mp hp with hp | hp
        · exact ⟨i, hi, hli, hp⟩
        · exact ⟨c, hc, hlc, hp⟩
      · rw [h.other i his hic] at hp
        exact ⟨i, hi, hli, hp⟩

/-- What is taken in was not next to an entry before `s`. -/
theorem Joined.join (hj : Joined map count s) (h : Join map map' s c) (hs : s < count) (hc : c < count)
    (hl : Live map s) (hlc : Live map c) (hsc : s < c) : Joined map' count s := by
  have hlive := h.live_iff hl
  intro i j hi hjc hij hli hlj p
  obtain ⟨hic, hli⟩ := (hlive i).mp hli
  rw [h.other i hi.ne hic]
  by_cases hjs : j = s
  · subst hjs
    have h1 := hj i j hi hs hij hli hl p
    have h2 := hj i c hi hc hic hli hlc p
    refine ⟨fun hp hp' => ?_, fun hp hp' => ?_⟩
    · rcases (h.holds _).mp hp' with hp' | hp'
      · exact h1.1 hp hp'
      · exact h2.1 hp hp'
    · rcases (h.holds _).mp hp with hp | hp
      · exact h1.2 hp hp'
      · exact h2.2 hp hp'
  · obtain ⟨hjc', hlj⟩ := (hlive j).mp hlj
    rw [h.other j hjs hjc']
    exact hj i j hi hjc hij hli hlj p

end Ranges

/-! ## 3. Taking entries in -/

section Joining

variable {U : Nat → Prop} {map map' : Map} {s c count start stop : Nat}

/-- What the search passes over does not touch. -/
theorem joinFrom_none {n : Nat} (h : joinFrom map s start stop n c = none) (i : Nat) (h1 : c ≤ i) (h2 : i < c + n)
    (ht : (map i).type = EfiConventionalMemory) (hl : Live map i) :
    (map i).physicalStart ≠ stop ∧ (map i).stop ≠ start := by
  induction n generalizing c with
  | zero => omega
  | succ n ih =>
      unfold joinFrom at h
      dsimp only at h
      split_ifs at h with g1 g2 g3 g4
      · exact ih h (Nat.lt_of_le_of_ne h1 fun e => g1 (e ▸ ht)) (by omega)
      · exact ih h (Nat.lt_of_le_of_ne h1 fun e => hl (e ▸ g2)) (by omega)
      · by_cases hci : c = i
        · subst hci
          exact ⟨g3, g4⟩
        · exact ih h (Nat.lt_of_le_of_ne h1 hci) (by omega)

/-- `map'` is `map` after the entry `i`, on one side or the other of `start` to `stop`, went into the entry `s`. -/
def Taken (map : Map) (s start stop i : Nat) (map' : Map) : Prop :=
  ∃ first, ((map i).physicalStart = stop ∧ first = (map s).physicalStart ∨
      (map i).stop = start ∧ first = (map i).physicalStart) ∧
    map' = Function.update
      (Function.update map s { map s with
        physicalStart := first, numberOfPages := u64 ((map s).numberOfPages + (map i).numberOfPages) })
      i { map i with physicalStart := noStart }

theorem joinFrom_some {n : Nat} (h : joinFrom map s start stop n c = some map') :
    ∃ i, c ≤ i ∧ i < c + n ∧ Live map i ∧ Taken map s start stop i map' := by
  induction n generalizing c with
  | zero => cases h
  | succ n ih =>
      have hnext : joinFrom map s start stop n (c + 1) = some map' →
          ∃ i, c ≤ i ∧ i < c + (n + 1) ∧ Live map i ∧ Taken map s start stop i map' := fun h => by
        obtain ⟨i, h1, h2, hrest⟩ := ih h
        exact ⟨i, Nat.le_of_succ_le h1, by omega, hrest⟩
      unfold joinFrom at h
      dsimp only at h
      split_ifs at h with g1 g2 g3 g4
      · exact hnext h
      · exact hnext h
      · exact ⟨c, le_rfl, by omega, g2, _, Or.inl ⟨g3, rfl⟩, (Option.some.inj h).symm⟩
      · exact ⟨c, le_rfl, by omega, g2, _, Or.inr ⟨g4, rfl⟩, (Option.some.inj h).symm⟩
      · exact hnext h

/-- **A turn that finds an entry** takes it in. -/
theorem joinFrom_join (he : Entries U map count) (hs : s < count) (hl : Live map s)
    (h : joinFrom map s (map s).physicalStart (map s).stop (count - (s + 1)) (s + 1) = some map') :
    ∃ c, s < c ∧ c < count ∧ Live map c ∧ Join map map' s c := by
  obtain ⟨c, h1, h2, hlc, first, htouch, rfl⟩ := joinFrom_some h
  have hc : c < count := by omega
  have hsc : s ≠ c := by omega
  have vs := he.valid s hs hl
  have vc := he.valid c hc hlc
  rw [vs.stop_eq, vc.stop_eq] at htouch
  have hpages : u64 ((map s).numberOfPages + (map c).numberOfPages) = (map s).numberOfPages +
      (map c).numberOfPages := by
    have h1 := vs.limit
    have h2 := vc.limit
    unfold Descriptor.limit at h1 h2
    exact u64_of_lt (by omega)
  refine ⟨c, h1, hc, hlc, ?_⟩
  have hself : ∀ d d' : Descriptor, Function.update (Function.update map s d) c d' s = d := fun d d' => by
    rw [Function.update_of_ne hsc, Function.update_self]
  rw [hpages]
  have a1 := vs.pages
  have a2 := vs.limit
  have a3 := vc.limit
  unfold Descriptor.limit at htouch a2 a3
  refine ⟨?_, ⟨?_, ?_⟩, ?_, fun p => ?_, fun i his hic => ?_⟩
  · rw [hself]
  · rw [hself]
    exact Nat.le_add_right_of_le a1
  · rw [hself]
    show first + ((map s).numberOfPages + (map c).numberOfPages) * 4096 < 2 ^ 64
    omega
  · unfold Live
    rw [Function.update_self]
    exact not_not.mpr rfl
  · rw [hself]
    unfold Descriptor.Holds Descriptor.limit
    show first ≤ p ∧ p < first + ((map s).numberOfPages + (map c).numberOfPages) * 4096 ↔ _
    omega
  · rw [Function.update_of_ne hic, Function.update_of_ne his]

/-- **A turn that finds none**: the entry touches no other. -/
theorem joinFrom_joined (he : Entries U map count) (hj : Joined map count s) (hs : s < count) (hl : Live map s)
    (h : joinFrom map s (map s).physicalStart (map s).stop (count - (s + 1)) (s + 1) = none) :
    Joined map count (s + 1) := by
  intro i j hi hjc hij hli hlj p
  by_cases his : i = s
  · subst his
    by_cases hjs : j < i
    · exact (hj j i hjs hs (Ne.symm hij) hlj hl p).symm
    · have vi := he.valid i hs hl
      have vj := he.valid j hjc hlj
      have hd := he.apart i j hs hjc hij hl hlj
      obtain ⟨h1, h2⟩ := joinFrom_none h j (by omega) (by omega) (he.type j hjc hlj) hlj
      rw [vi.stop_eq] at h1
      rw [vj.stop_eq] at h2
      have d1 := hd p
      have d2 := hd (p + 1)
      unfold Descriptor.Holds at *
      omega
  · exact hj i j (by omega) hjc hij hli hlj p

theorem Joined.given (hj : Joined map count s) (hl : ¬ Live map s) : Joined map count (s + 1) := by
  intro i j hi hjc hij hli hlj p
  have his : i ≠ s := fun e => hl (e ▸ hli)
  exact hj i j (by omega) hjc hij hli hlj p

/-- The entries in use, counted. -/
def alive (map : Map) (count : Nat) : Nat := ((Finset.range count).filter fun i => Live map i).card

theorem Join.alive_lt (h : Join map map' s c) (hl : Live map s) (hc : c < count) (hlc : Live map c) :
    alive map' count < alive map count := by
  refine Finset.card_lt_card (Finset.ssubset_iff_of_subset (fun i hi => ?_) |>.mpr ⟨c, ?_, ?_⟩)
  · obtain ⟨h1, h2⟩ := Finset.mem_filter.mp hi
    exact Finset.mem_filter.mpr ⟨h1, ((h.live_iff hl i).mp h2).2⟩
  · exact Finset.mem_filter.mpr ⟨Finset.mem_range.mpr hc, hlc⟩
  · exact fun h' => h.given (Finset.mem_filter.mp h').2

/-- **The second loop**: every turn goes one entry on or has one entry less in use. -/
theorem joinLoop_spec (hc : count < 2 ^ 64) (n : Nat) (he : Entries U map count) (hj : Joined map count s)
    (hs : s ≤ count) (hn : count - s + alive map count < n) :
    ∃ map', Halts (fun fuel => joinLoop count fuel s map) map' ∧ Entries U map' count ∧ Joined map' count count := by
  induction n generalizing s map with
  | zero => omega
  | succ n ih =>
      by_cases hsc : s < count
      · -- one turn of the loop
        have hturn : ∀ s' map', (∀ fuel, joinLoop count (fuel + 1) s map = joinLoop count fuel s' map') →
            Entries U map' count → Joined map' count s' → s' ≤ count → count - s' + alive map' count < n →
            ∃ map', Halts (fun fuel => joinLoop count fuel s map) map' ∧ Entries U map' count ∧
              Joined map' count count := by
          intro s' map' hstep he' hj' hs' hn'
          obtain ⟨r, hr, hrest⟩ := ih he' hj' hs' hn'
          exact ⟨r, (Halts.succ_iff hstep r).mpr hr, hrest⟩
        have hon : (∀ fuel, joinLoop count (fuel + 1) s map = joinLoop count fuel (succ64 s) map) →
            Joined map count (s + 1) → _ := fun hstep hj' =>
          hturn (s + 1) map (fun fuel => succ64_of_lt hsc hc ▸ hstep fuel) he hj' hsc (by omega)
        by_cases hl : Live map s
        · have ht : ¬ (map s).type ≠ EfiConventionalMemory := not_not.mpr (he.type s hsc hl)
          cases hf : joinFrom map s (map s).physicalStart (map s).stop (count - (s + 1)) (s + 1) with
          | none =>
              refine hon (fun fuel => ?_) (joinFrom_joined he hj hsc hl hf)
              rw [joinLoop, if_pos hsc]
              simp only [if_neg ht, if_neg hl, hf]
          | some map' =>
              obtain ⟨c, hsc', hcc, hlc, hjoin⟩ := joinFrom_join he hsc hl hf
              have hless := hjoin.alive_lt hl hcc hlc
              refine hturn s map' (fun fuel => ?_) (he.join hjoin hsc hcc hl hlc hsc'.ne)
                (hj.join hjoin hsc hcc hl hlc hsc') hs (by omega)
              rw [joinLoop, if_pos hsc]
              simp only [if_neg ht, if_neg hl, hf]
              rw [succ64_pred64 (by omega)]
        · refine hon (fun fuel => ?_) (hj.given hl)
          rw [joinLoop, if_pos hsc]
          simp only [if_pos (not_not.mp hl), ite_self]
      · obtain rfl : s = count := by omega
        refine ⟨map, ⟨1, fun fuel hf => ?_⟩, he, hj⟩
        obtain ⟨fuel, rfl⟩ : ∃ k, fuel = k + 1 := ⟨fuel - 1, by omega⟩
        show joinLoop s (fuel + 1) s map = some map
        rw [joinLoop, if_neg hsc]

end Joining

/-! ## 4. Closing up -/

section Closing

variable {U : Nat → Prop} {map map' : Map} {s count count' : Nat}

/-- `map'` has the entries of `map` in other places; only entries that were given up are left out. -/
structure Moved (map : Map) (count : Nat) (map' : Map) (count' : Nat) (place : Nat → Nat) : Prop where
  lt : ∀ i, i < count' → place i < count
  eq : ∀ i, i < count' → map' i = map (place i)
  inj : ∀ i j, i ≠ j → place i ≠ place j
  all : ∀ j, j < count → Live map j → ∃ i, i < count' ∧ place i = j

variable {place : Nat → Nat}

theorem Moved.live (h : Moved map count map' count' place) {i : Nat} (hi : i < count') (hl : Live map' i) :
    Live map (place i) := by
  unfold Live at *
  rwa [h.eq i hi] at hl

theorem Entries.moved (he : Entries U map count) (h : Moved map count map' count' place) :
    Entries U map' count' := by
  refine ⟨fun i hi hl => ?_, fun i hi hl => ?_, fun i j hi hj hij hli hlj p => ?_, fun p => ?_⟩
  · rw [h.eq i hi]
    exact he.type _ (h.lt i hi) (h.live hi hl)
  · rw [h.eq i hi]
    exact he.valid _ (h.lt i hi) (h.live hi hl)
  · rw [h.eq i hi, h.eq j hj]
    exact he.apart _ _ (h.lt i hi) (h.lt j hj) (h.inj i j hij) (h.live hi hli) (h.live hj hlj) p
  · rw [he.union p]
    constructor
    · intro h'
      obtain ⟨j, hj, hl, hp⟩ := h'
      obtain ⟨i, hi, rfl⟩ := h.all j hj hl
      rw [← h.eq i hi] at hp
      exact ⟨i, hi, by unfold Live at *; rwa [h.eq i hi], hp⟩
    · intro h'
      obtain ⟨i, hi, hl, hp⟩ := h'
      rw [h.eq i hi] at hp
      exact ⟨place i, h.lt i hi, h.live hi hl, hp⟩

theorem Joined.moved (hj : Joined map count count) (h : Moved map count map' count' place) :
    Joined map' count' count' := by
  intro i j hi hjc hij hli hlj p
  rw [h.eq i hi, h.eq j hjc]
  exact hj _ _ (h.lt i hi) (h.lt j hjc) (h.inj i j hij) (h.live hi hli) (h.live hjc hlj) p

/-- The entries behind `s` one place down. -/
theorem moved_shiftDown (hs : s < count) (hl : ¬ Live map s) :
    Moved map count (shiftDown (count - (s + 1)) (s + 1) map) (count - 1) fun i => if i < s then i else i + 1 := by
  refine ⟨fun i hi => ?_, fun i hi => ?_, fun i j hij => ?_, fun j hj hlj => ?_⟩
  · split_ifs <;> omega
  · rw [shiftDown_eq _ _ _ (Nat.succ_pos s)]
    by_cases his : i < s
    · rw [if_neg (by omega), if_pos his]
    · rw [if_pos (by omega), if_neg his]
  · split_ifs <;> omega
  · have hjs : j ≠ s := fun e => hl (e ▸ hlj)
    by_cases hlt : j < s
    · exact ⟨j, by omega, if_pos hlt⟩
    · refine ⟨j - 1, by omega, ?_⟩
      rw [if_neg (by omega)]
      omega

/-- **The third loop**: the entries before `s` are in use. -/
theorem compactLoop_spec (hc : count < 2 ^ 64) (n : Nat) (he : Entries U map count) (hj : Joined map count count)
    (ha : ∀ i, i < s → Live map i) (hs : s ≤ count) (hn : count - s < n) :
    ∃ map' count', Halts (fun fuel => compactLoop fuel s count map) (map', count') ∧ count' ≤ count ∧
      Entries U map' count' ∧ Joined map' count' count' ∧ ∀ i, i < count' → Live map' i := by
  induction n generalizing s count map with
  | zero => omega
  | succ n ih =>
      by_cases hsc : s < count
      · by_cases hl : Live map s
        · have ha' : ∀ i, i < s + 1 → Live map i := fun i hi => by
            by_cases his : i = s
            · exact his ▸ hl
            · exact ha i (by omega)
          obtain ⟨map', count', hr, hrest⟩ := ih hc he hj ha' hsc (by omega)
          refine ⟨map', count', (Halts.succ_iff (fun fuel => ?_) _).mpr hr, hrest⟩
          rw [compactLoop, if_pos hsc, if_pos (show (map s).physicalStart ≠ noStart from hl), succ64_of_lt hsc hc]
        · have hm := moved_shiftDown hsc hl
          have ha' : ∀ i, i < s → Live (shiftDown (count - (s + 1)) (s + 1) map) i := fun i hi => by
            unfold Live
            rw [hm.eq i (by omega), if_pos hi]
            exact ha i hi
          obtain ⟨map', count', hr, hle, hrest⟩ := ih (by omega) (he.moved hm) (hj.moved hm) ha' (by omega) (by omega)
          refine ⟨map', count', (Halts.succ_iff (fun fuel => ?_) _).mpr hr, hle.trans (Nat.sub_le count 1), hrest⟩
          rw [compactLoop, if_pos hsc, if_neg (show ¬ (map s).physicalStart ≠ noStart from hl),
            succ64_pred64 (by omega), pred64_of_pos (by omega) hc]
      · obtain rfl : s = count := by omega
        refine ⟨map, s, ⟨1, fun fuel hf => ?_⟩, le_rfl, he, hj, ha⟩
        obtain ⟨fuel, rfl⟩ : ∃ k, fuel = k + 1 := ⟨fuel - 1, by omega⟩
        show compactLoop (fuel + 1) s s map = some (map, s)
        rw [compactLoop, if_neg hsc]

/-- After the first loop the entries in use are the usable ones. -/
theorem entries_markLoop (hv : ∀ i, i < count → (map i).Valid)
    (hd : ∀ i j, i < count → j < count → i ≠ j → ∀ p, (map i).Holds p → ¬ (map j).Holds p) :
    Entries (fun p => ∃ i, i < count ∧ Usable (map i).type ∧ (map i).Holds p) (markLoop count 0 map) count := by
  have heq : ∀ i, i < count → markLoop count 0 map i = markUsable (map i) := fun i hi => by
    rw [markLoop_eq, if_pos (by omega)]
  have hmark : ∀ i, i < count → (Live (markLoop count 0 map) i ↔ Usable (map i).type) := fun i hi => by
    have h := (hv i hi).live
    unfold Live at *
    rw [heq i hi]
    unfold markUsable
    split_ifs with hu
    · exact iff_of_true h hu
    · exact iff_of_false (fun h => h rfl) hu
  have hin : ∀ i, i < count → Live (markLoop count 0 map) i →
      markLoop count 0 map i = { map i with type := EfiConventionalMemory } := fun i hi hl => by
    rw [heq i hi]
    exact if_pos ((hmark i hi).mp hl)
  refine ⟨fun i hi hl => ?_, fun i hi hl => ?_, fun i j hi hj hij hli hlj p => ?_, fun p => ?_⟩
  · rw [hin i hi hl]
  · rw [hin i hi hl]
    exact ⟨(hv i hi).pages, (hv i hi).limit⟩
  · rw [hin i hi hli, hin j hj hlj]
    exact hd i j hi hj hij p
  · constructor
    · intro h
      obtain ⟨i, hi, hu, hp⟩ := h
      have hl := (hmark i hi).mpr hu
      exact ⟨i, hi, hl, by rw [hin i hi hl]; exact hp⟩
    · intro h
      obtain ⟨i, hi, hl, hp⟩ := h
      rw [hin i hi hl] at hp
      exact ⟨i, hi, (hmark i hi).mp hl, hp⟩

/-- **`CleanupMemMap` ends, with the usable memory** in ranges that are disjoint and do not touch. -/
theorem memory_map {map : Map} {count : Nat} (hc : count < 2 ^ 64) (hv : ∀ i, i < count → (map i).Valid)
    (hd : ∀ i j, i < count → j < count → i ≠ j → ∀ p, (map i).Holds p → ¬ (map j).Holds p) :
    ∃ map' count', Halts (fun fuel => cleanupMemMap fuel map count) (map', count') ∧ count' ≤ count ∧
      (∀ i, i < count' → (map' i).type = EfiConventionalMemory ∧ (map' i).Valid) ∧
      (∀ i j, i < count' → j < count' → i ≠ j →
        (map' i).limit < (map' j).physicalStart ∨ (map' j).limit < (map' i).physicalStart) ∧
      ∀ p, (∃ i, i < count' ∧ (map' i).Holds p) ↔ ∃ i, i < count ∧ Usable (map i).type ∧ (map i).Holds p := by
  have h0 := entries_markLoop hv hd
  have hj0 : Joined (markLoop count 0 map) count 0 := fun i j hi => absurd hi (Nat.not_lt_zero i)
  obtain ⟨map1, h1, he1, hj1⟩ := joinLoop_spec hc _ h0 hj0 (Nat.zero_le count) (Nat.lt_succ_self _)
  obtain ⟨map2, count2, h2, hle, he2, hj2, hl⟩ := compactLoop_spec (s := 0) hc _ he1 hj1
    (fun i hi => absurd hi (Nat.not_lt_zero i)) (Nat.zero_le count) (Nat.lt_succ_self _)
  refine ⟨map2, count2, h1.bind h2, hle, fun i hi => ⟨he2.type i hi (hl i hi), he2.valid i hi (hl i hi)⟩,
    fun i j hi hj hij => ?_, fun p => ?_⟩
  · exact (he2.valid i hi (hl i hi)).gap (he2.valid j hj (hl j hj)) (he2.apart i j hi hj hij (hl i hi) (hl j hj))
      (hj2 i j hi hj hij (hl i hi) (hl j hj))
  · rw [he2.union p]
    constructor
    · intro h
      obtain ⟨i, hi, hp⟩ := h
      exact ⟨i, hi, hl i hi, hp⟩
    · intro h
      obtain ⟨i, hi, -, hp⟩ := h
      exact ⟨i, hi, hp⟩

/-- Pages 2 and 3, a page of the firmware, page 4 and page 1. -/
def fourEntries : Map := fun i => match i with
  | 0 => ⟨EfiLoaderCode, 0x2000, 0, 2, 0⟩
  | 1 => ⟨0, 0x5000, 0, 1, 0⟩
  | 2 => ⟨EfiConventionalMemory, 0x4000, 0, 1, 0⟩
  | _ => ⟨EfiBootServicesData, 0x1000, 0, 1, 0⟩

/-- One range is left. -/
example : (cleanupMemMap 20 fourEntries 4).map (fun r => (r.1 0, r.2)) =
    some (⟨EfiConventionalMemory, 0x1000, 0, 4, 0⟩, 1) := by decide

theorem memory_map_four :
    ∃ map' count', Halts (fun fuel => cleanupMemMap fuel fourEntries 4) (map', count') ∧ count' ≤ 4 ∧
      (∀ i, i < count' → (map' i).type = EfiConventionalMemory ∧ (map' i).Valid) ∧
      (∀ i j, i < count' → j < count' → i ≠ j →
        (map' i).limit < (map' j).physicalStart ∨ (map' j).limit < (map' i).physicalStart) ∧
      ∀ p, (∃ i, i < count' ∧ (map' i).Holds p) ↔
        ∃ i, i < 4 ∧ Usable (fourEntries i).type ∧ (fourEntries i).Holds p := by
  refine memory_map (by decide) (fun i hi => ?_) fun i j hi hj hij p hp hp' => ?_
  · interval_cases i <;> exact ⟨by decide, by decide⟩
  · have h1 : (fourEntries i).physicalStart ≤ p ∧ p < (fourEntries i).limit := hp
    have h2 : (fourEntries j).physicalStart ≤ p ∧ p < (fourEntries j).limit := hp'
    interval_cases i <;> interval_cases j <;> simp [fourEntries, Descriptor.limit] at h1 h2 hij <;> omega

end Closing

end PhysicalMap

end SimpleOS2
