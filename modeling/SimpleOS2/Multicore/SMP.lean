/-
  File:      SimpleOS2/Multicore/SMP.lean
  Subject:   THE CPU CORES IN THE MADT (acpi/ACPI.cpp, MADT::GetNextEntry; multicore/SMP.cpp, GatherInfo).

  `GatherInfo` goes from entry to entry by the length bytes of the table and records every LAPIC entry whose flags
  are not zero. Every byte it reads is noted.

  * `MADT.getNextEntry`, `recordEntry`, `gather` -- the functions;
  * `starts` -- where the entries of a table start; `enabledCores` -- the cores of its enabled LAPIC entries;
  * `EntrySound` -- an entry that the walk gets over; `gather_settles` -- over a table of these it comes to the end,
    over any other it does not or has read behind the table;
  * `gather_cores` -- when the enabled cores are listed.
-/
import Mathlib.Data.List.Basic
import SimpleOS2.Lib.Run
import SimpleOS2.Lib.WordMemory

namespace SimpleOS2

open Lib

namespace SMP

/-! ## 1. The walk -/

/-- A table: `header.length`, and the byte at `entries[pos]`, in the table or behind it. -/
structure MADT where
  length : BitVec 32
  entries : BitVec 64 → BitVec 8

/-- `sizeof(MADT)`: the header, the address of the LAPIC, the flags. -/
def sizeofMADT : Nat := 44

def MaxCoreCount : Nat := 128

/-- `MADTEntryHeader::TYPE_LAPIC`. -/
def TYPE_LAPIC : BitVec 8 := 0

/-- `struct CoreInfo`. -/
structure CoreInfo where
  apicID : BitVec 64
  coreID : BitVec 64
  deriving DecidableEq

/-- `g_NumCores`, `g_Info` (cells behind `MaxCoreCount` are other memory), and the bytes of the table read so far. -/
structure CoreTable where
  numCores : Nat
  info : Nat → CoreInfo
  reads : List (BitVec 64)

/-- `MADT::GetNextEntry`: where the entry is, and the new `pos`. -/
def MADT.getNextEntry (m : MADT) (pos : BitVec 64) : Option (BitVec 64 × BitVec 64) :=
  if m.length.setWidth 64 - BitVec.ofNat 64 sizeofMADT ≤ pos then none
  else some (pos, pos + (m.entries (pos + 1)).setWidth 64)

/-- The bytes that the body of the loop reads from a LAPIC entry. -/
def lapicBytes (entry : BitVec 64) : List (BitVec 64) :=
  [entry + 2, entry + 3, entry + 4, entry + 5, entry + 6, entry + 7]

/-- The body of the loop in `GatherInfo`. -/
def recordEntry (m : MADT) (entry : BitVec 64) (s : CoreTable) : CoreTable :=
  if m.entries entry = TYPE_LAPIC then
    if load m.entries (entry + 4) 4 = 0 then { s with reads := s.reads ++ entry :: lapicBytes entry }
    else
      { numCores := s.numCores + 1
        info := Function.update s.info s.numCores
          { apicID := (m.entries (entry + 3)).setWidth 64, coreID := (m.entries (entry + 2)).setWidth 64 }
        reads := s.reads ++ entry :: lapicBytes entry }
  else { s with reads := s.reads ++ [entry] }

/-- The loop from `pos` on; `GetNextEntry` has read the length byte. -/
def gather (m : MADT) : (fuel : Nat) → (pos : BitVec 64) → CoreTable → Option CoreTable
  | 0, _, _ => none
  | fuel + 1, pos, s =>
      match m.getNextEntry pos with
      | none => some s
      | some (entry, pos) => gather m fuel pos (recordEntry m entry { s with reads := s.reads ++ [entry + 1] })

/-- `GatherInfo`. -/
def gatherInfo (m : MADT) (info : Nat → CoreInfo) (fuel : Nat) : Option CoreTable :=
  gather m fuel 0 { numCores := 0, info := info, reads := [] }

/-! ## 2. The entries of a table -/

/-- The bytes of the table behind its header. -/
def MADT.bytes (m : MADT) : List (BitVec 8) :=
  (List.range (m.length.toNat - sizeofMADT)).map fun i => m.entries (BitVec.ofNat 64 i)

section Entries

/-- The parts of an entry, and of the table from an entry on. -/
def typeOf (t : List (BitVec 8)) : BitVec 8 := t.getD 0 0
def lengthOf (t : List (BitVec 8)) : Nat := (t.getD 1 0).toNat
def flagsOf (t : List (BitVec 8)) : BitVec 32 := t.getD 7 0 ++ t.getD 6 0 ++ t.getD 5 0 ++ t.getD 4 0
def coreOf (t : List (BitVec 8)) : CoreInfo := ⟨(t.getD 3 0).setWidth 64, (t.getD 2 0).setWidth 64⟩

/-- The table from each of its first `n` entries on; an entry of length 0 is the last one. -/
def startsUpTo : Nat → List (BitVec 8) → List (List (BitVec 8))
  | 0, _ => []
  | n + 1, t =>
      if t = [] then []
      else t :: if lengthOf t = 0 then [] else startsUpTo n (t.drop (lengthOf t))

/-- The table from each of its entries on. -/
def starts (bytes : List (BitVec 8)) : List (List (BitVec 8)) := startsUpTo bytes.length bytes

/-- The core of an entry: a LAPIC of eight bytes, enabled. -/
def enabledCore (entry : List (BitVec 8)) : Option CoreInfo :=
  if typeOf entry = TYPE_LAPIC ∧ 8 ≤ entry.length ∧ flagsOf entry ≠ 0 then some (coreOf entry) else none

/-- The cores of the enabled LAPIC entries, in the table's order. -/
def enabledCores (bytes : List (BitVec 8)) : List CoreInfo :=
  (starts bytes).filterMap fun t => enabledCore (t.take (lengthOf t))

/-- The walk gets over the entry and stays inside of the table. -/
structure Passed (t : List (BitVec 8)) : Prop where
  header : 2 ≤ t.length
  advances : lengthOf t ≠ 0
  lapic : typeOf t = TYPE_LAPIC → 8 ≤ t.length

/-- And an entry that is recorded is a whole one. -/
structure EntrySound (t : List (BitVec 8)) : Prop extends Passed t where
  complete : typeOf t = TYPE_LAPIC → 8 ≤ lengthOf t ∨ flagsOf t = 0

end Entries

/-- `g_Info[0 .. g_NumCores - 1]`. -/
def CoreTable.cores (s : CoreTable) : List CoreInfo := (List.range s.numCores).map s.info

/-- Nothing behind the table was read, and the cores are the enabled ones. -/
structure CoresListed (m : MADT) (s : CoreTable) : Prop where
  inside : ∀ pos ∈ s.reads, pos.toNat < m.bytes.length
  cores : s.cores = enabledCores m.bytes
  bounded : s.numCores ≤ MaxCoreCount

/-! ## 3. One entry -/

section Entry

variable {m : MADT} {s s' : CoreTable} {k i n : Nat} {t : List (BitVec 8)}

theorem bytes_length (m : MADT) : m.bytes.length = m.length.toNat - sizeofMADT := by
  unfold MADT.bytes
  rw [List.length_map, List.length_range]

theorem bytes_short (m : MADT) : m.bytes.length < 2 ^ 32 := by
  have hlt := m.length.isLt
  have hlen := bytes_length m
  omega

/-- The byte `i` behind an entry. -/
theorem suffix_byte (h : k + i < m.bytes.length) :
    (m.bytes.drop k).getD i 0 = m.entries (BitVec.ofNat 64 k + BitVec.ofNat 64 i) := by
  have hrange : k + i < (List.range (m.length.toNat - sizeofMADT)).length := by
    rw [List.length_range, ← bytes_length m]
    exact h
  rw [List.getD_eq_getElem?_getD, List.getElem?_drop, ← BitVec.ofNat_add]
  unfold MADT.bytes
  rw [List.getElem?_map, List.getElem?_eq_getElem hrange, List.getElem_range]
  rfl

theorem offset_toNat (h : k + i < 2 ^ 64) : (BitVec.ofNat 64 k + BitVec.ofNat 64 i).toNat = k + i := by
  rw [← BitVec.ofNat_add, BitVec.toNat_ofNat]
  exact Nat.mod_eq_of_lt h

/-- `GetNextEntry` in a table that has its header. -/
theorem getNextEntry_at (hm : sizeofMADT ≤ m.length.toNat) (hk : k < 2 ^ 64) :
    m.getNextEntry (BitVec.ofNat 64 k) = if k < m.bytes.length then
      some (BitVec.ofNat 64 k, BitVec.ofNat 64 k + (m.entries (BitVec.ofNat 64 k + 1)).setWidth 64) else none := by
  have hlimit : (m.length.setWidth 64 - BitVec.ofNat 64 sizeofMADT).toNat = m.bytes.length := by
    have hlt := m.length.isLt
    rw [bytes_length]
    unfold sizeofMADT at *
    bv_omega
  unfold MADT.getNextEntry
  have hiff : m.length.setWidth 64 - BitVec.ofNat 64 sizeofMADT ≤ BitVec.ofNat 64 k ↔ m.bytes.length ≤ k := by
    rw [BitVec.le_def, hlimit, BitVec.toNat_ofNat, Nat.mod_eq_of_lt hk]
  by_cases h : k < m.bytes.length
  · rw [if_neg (fun hle => Nat.not_le.mpr h (hiff.mp hle)), if_pos h]
  · rw [if_pos (hiff.mpr (Nat.le_of_not_lt h)), if_neg h]

/-- The core that the code takes from an entry, with flags from wherever they stand. -/
def recordedCore (t : List (BitVec 8)) : Option CoreInfo :=
  if typeOf t = TYPE_LAPIC ∧ flagsOf t ≠ 0 then some (coreOf t) else none

theorem flags_load (h : k + 7 < m.bytes.length) :
    load m.entries (BitVec.ofNat 64 k + 4) 4 = flagsOf (m.bytes.drop k) := by
  rw [load_four]
  unfold flagsOf
  rw [suffix_byte (by omega), suffix_byte (by omega), suffix_byte (by omega), suffix_byte (by omega),
    BitVec.add_assoc, BitVec.add_assoc, BitVec.add_assoc]
  rfl

theorem cores_update (s : CoreTable) (c : CoreInfo) (reads : List (BitVec 64)) :
    CoreTable.cores ⟨s.numCores + 1, Function.update s.info s.numCores c, reads⟩ = s.cores ++ [c] := by
  show (List.range (s.numCores + 1)).map (Function.update s.info s.numCores c) =
    (List.range s.numCores).map s.info ++ [c]
  rw [List.range_succ, List.map_append, List.map_singleton, Function.update_self]
  congr 1
  refine List.map_congr_left fun i hi => ?_
  exact Function.update_of_ne (Nat.ne_of_lt (List.mem_range.mp hi)) c s.info

/-- **What the body of the loop does with an entry** whose bytes are in the table. -/
theorem recordEntry_spec (hlt : k < m.bytes.length)
    (hlapic : typeOf (m.bytes.drop k) = TYPE_LAPIC → 8 ≤ (m.bytes.drop k).length) (s : CoreTable) :
    (recordEntry m (BitVec.ofNat 64 k) s).cores = s.cores ++ (recordedCore (m.bytes.drop k)).toList ∧
      ∀ pos ∈ (recordEntry m (BitVec.ofNat 64 k) s).reads, pos ∈ s.reads ∨ pos.toNat < m.bytes.length := by
  have htype : m.entries (BitVec.ofNat 64 k) = typeOf (m.bytes.drop k) := by
    unfold typeOf
    rw [suffix_byte (by omega)]
    exact congrArg m.entries (BitVec.add_zero _).symm
  have hshort := bytes_short m
  have hself : (BitVec.ofNat 64 k).toNat < m.bytes.length := by
    rw [BitVec.toNat_ofNat, Nat.mod_eq_of_lt (by omega)]
    exact hlt
  unfold recordEntry recordedCore
  rw [htype]
  by_cases ht : typeOf (m.bytes.drop k) = TYPE_LAPIC
  · have hlen := hlapic ht
    rw [List.length_drop] at hlen
    have hin : ∀ pos ∈ BitVec.ofNat 64 k :: lapicBytes (BitVec.ofNat 64 k), pos.toNat < m.bytes.length := by
      intro pos hpos
      have hoff : ∀ i, i < 8 → (BitVec.ofNat 64 k + BitVec.ofNat 64 i).toNat < m.bytes.length := fun i hi => by
        rw [offset_toNat (by omega)]
        omega
      simp only [lapicBytes, List.mem_cons, List.not_mem_nil, or_false] at hpos
      rcases hpos with rfl | rfl | rfl | rfl | rfl | rfl | rfl
      · exact hself
      all_goals exact hoff _ (by decide)
    rw [if_pos ht, flags_load (by omega)]
    by_cases hf : flagsOf (m.bytes.drop k) = 0
    · rw [if_pos hf, if_neg (fun h => h.2 hf)]
      refine ⟨(List.append_nil _).symm, fun pos hpos => ?_⟩
      exact (List.mem_append.mp hpos).imp_right fun h => hin pos h
    · rw [if_neg hf, if_pos ⟨ht, hf⟩]
      refine ⟨?_, fun pos hpos => (List.mem_append.mp hpos).imp_right fun h => hin pos h⟩
      unfold coreOf
      rw [cores_update, suffix_byte (by omega), suffix_byte (by omega)]
      rfl
  · rw [if_neg ht, if_neg (fun h => ht h.1)]
    refine ⟨(List.append_nil _).symm, fun pos hpos => ?_⟩
    rcases List.mem_append.mp hpos with h | h
    · exact Or.inl h
    · exact Or.inr (List.mem_singleton.mp h ▸ hself)

/-- What was read stays read. -/
theorem recordEntry_reads (m : MADT) (entry : BitVec 64) (s : CoreTable) {pos : BitVec 64} (h : pos ∈ s.reads) :
    pos ∈ (recordEntry m entry s).reads := by
  unfold recordEntry
  split_ifs
  all_goals exact List.mem_append_left _ h

theorem gather_reads {fuel : Nat} {start pos : BitVec 64} (h : pos ∈ s.reads) (hr : gather m fuel start s = some s') :
    pos ∈ s'.reads := by
  induction fuel generalizing start s with
  | zero => cases hr
  | succ fuel ih =>
      unfold gather at hr
      cases hnext : m.getNextEntry start with
      | none =>
          rw [hnext] at hr
          obtain rfl := Option.some.inj hr
          exact h
      | some e =>
          rw [hnext] at hr
          exact ih (recordEntry_reads m _ _ (List.mem_append_left _ h)) hr

end Entry

/-! ## 4. The whole table -/

section Walk

variable {m : MADT} {s s' : CoreTable} {k n : Nat} {t : List (BitVec 8)}

/-- A byte behind the table was read. -/
def ReadBehind (m : MADT) (s : CoreTable) : Prop := ∃ pos ∈ s.reads, ¬ pos.toNat < m.bytes.length

/-- The turn at the entry `k`. -/
def turnAt (m : MADT) (k : Nat) (s : CoreTable) : CoreTable :=
  recordEntry m (BitVec.ofNat 64 k) { s with reads := s.reads ++ [BitVec.ofNat 64 k + 1] }

theorem gather_end (hm : sizeofMADT ≤ m.length.toNat) (hk : ¬ k < m.bytes.length) (hk' : k < 2 ^ 64) (fuel : Nat) :
    gather m (fuel + 1) (BitVec.ofNat 64 k) s = some s := by
  unfold gather
  rw [getNextEntry_at hm hk', if_neg hk]

theorem gather_turn (hm : sizeofMADT ≤ m.length.toNat) (hk : k < m.bytes.length) (hk' : k < 2 ^ 64) (fuel : Nat) :
    gather m (fuel + 1) (BitVec.ofNat 64 k) s =
      gather m fuel (BitVec.ofNat 64 k + (m.entries (BitVec.ofNat 64 k + 1)).setWidth 64) (turnAt m k s) := by
  conv_lhs => unfold gather
  rw [getNextEntry_at hm hk', if_pos hk]
  rfl

/-- An entry of length 0 is met again and again. -/
theorem gather_stuck (hm : sizeofMADT ≤ m.length.toNat) (hk : k < m.bytes.length) (hk' : k < 2 ^ 64)
    (hzero : m.entries (BitVec.ofNat 64 k + 1) = 0) (fuel : Nat) : gather m fuel (BitVec.ofNat 64 k) s = none := by
  induction fuel generalizing s with
  | zero => rfl
  | succ fuel ih =>
      have hstay : BitVec.ofNat 64 k + (0 : BitVec 8).setWidth 64 = BitVec.ofNat 64 k := BitVec.add_zero _
      rw [gather_turn hm hk hk', hzero, hstay]
      exact ih

/-- The length byte is read whatever the entry is, and the eight bytes of every LAPIC. -/
theorem turnAt_reads (m : MADT) (k : Nat) (s : CoreTable) : BitVec.ofNat 64 k + 1 ∈ (turnAt m k s).reads ∧
    (m.entries (BitVec.ofNat 64 k) = TYPE_LAPIC → BitVec.ofNat 64 k + 7 ∈ (turnAt m k s).reads) := by
  refine ⟨recordEntry_reads m _ _ (List.mem_append_right _ (List.mem_singleton_self _)), fun htype => ?_⟩
  unfold turnAt recordEntry
  rw [if_pos htype]
  split_ifs
  all_goals exact List.mem_append_right _ (by simp [lapicBytes])

/-- Once a byte behind the table was read, every result has it. -/
theorem gather_behind {pos : BitVec 64} {fuel : Nat} (hm : sizeofMADT ≤ m.length.toNat) (hk : k < m.bytes.length)
    (hk' : k < 2 ^ 64) (hread : pos ∈ (turnAt m k s).reads) (hpos : ¬ pos.toNat < m.bytes.length) (hfuel : 1 ≤ fuel)
    (hr : gather m fuel (BitVec.ofNat 64 k) s = some s') : ReadBehind m s' := by
  obtain ⟨fuel, rfl⟩ : ∃ n, fuel = n + 1 := ⟨fuel - 1, by omega⟩
  rw [gather_turn hm hk hk'] at hr
  exact ⟨pos, gather_reads hread hr, hpos⟩

/-- **The walk gets over an entry, or it has no end or reads behind the table.** -/
theorem passed_or (hm : sizeofMADT ≤ m.length.toNat) (hk : k < m.bytes.length) (s : CoreTable) :
    Passed (m.bytes.drop k) ∨ ¬ Passed (m.bytes.drop k) ∧
      ∀ fuel, 1 ≤ fuel → ∀ r, gather m fuel (BitVec.ofNat 64 k) s = some r → ReadBehind m r := by
  have hshort := bytes_short m
  have hk' : k < 2 ^ 64 := by omega
  have hlen : (m.bytes.drop k).length = m.bytes.length - k := List.length_drop
  obtain ⟨hread1, hread7⟩ := turnAt_reads m k s
  rcases Nat.lt_or_ge (m.bytes.drop k).length 2 with h2 | h2
  · refine Or.inr ⟨fun h => Nat.not_le.mpr h2 h.header, fun fuel hfuel r hr => ?_⟩
    refine gather_behind hm hk hk' hread1 ?_ hfuel hr
    rw [show BitVec.ofNat 64 k + 1 = BitVec.ofNat 64 k + BitVec.ofNat 64 1 from rfl, offset_toNat (by omega)]
    omega
  by_cases hzero : lengthOf (m.bytes.drop k) = 0
  · refine Or.inr ⟨fun h => h.advances hzero, fun fuel _ r hr => ?_⟩
    have hbyte : m.entries (BitVec.ofNat 64 k + 1) = 0 := by
      unfold lengthOf at hzero
      rw [suffix_byte (by omega)] at hzero
      exact BitVec.eq_of_toNat_eq hzero
    rw [gather_stuck hm hk hk' hbyte] at hr
    cases hr
  by_cases htype : typeOf (m.bytes.drop k) = TYPE_LAPIC
  · rcases Nat.lt_or_ge (m.bytes.drop k).length 8 with h8 | h8
    · refine Or.inr ⟨fun h => Nat.not_le.mpr h8 (h.lapic htype), fun fuel hfuel r hr => ?_⟩
      have hentry : m.entries (BitVec.ofNat 64 k) = TYPE_LAPIC := by
        rw [← htype]
        unfold typeOf
        rw [suffix_byte (by omega)]
        exact congrArg m.entries (BitVec.add_zero _).symm
      refine gather_behind hm hk hk' (hread7 hentry) ?_ hfuel hr
      rw [show BitVec.ofNat 64 k + 7 = BitVec.ofNat 64 k + BitVec.ofNat 64 7 from rfl, offset_toNat (by omega)]
      omega
    · exact Or.inl ⟨h2, hzero, fun _ => h8⟩
  · exact Or.inl ⟨h2, hzero, fun h => absurd h htype⟩

/-- What the walk has when it comes to the end. -/
structure Walked (m : MADT) (ts : List (List (BitVec 8))) (s r : CoreTable) : Prop where
  passed : ∀ t ∈ ts, Passed t
  cores : r.cores = s.cores ++ ts.filterMap recordedCore
  reads : ∀ pos ∈ r.reads, pos ∈ s.reads ∨ pos.toNat < m.bytes.length

theorem startsUpTo_cons (n : Nat) (ht : t ≠ []) :
    startsUpTo (n + 1) t = t :: if lengthOf t = 0 then [] else startsUpTo n (t.drop (lengthOf t)) := if_neg ht

/-- What the turn at an entry does that the walk gets over. -/
theorem turnAt_passed (hlt : k < m.bytes.length) (hp : Passed (m.bytes.drop k)) (s : CoreTable) :
    (turnAt m k s).cores = s.cores ++ (recordedCore (m.bytes.drop k)).toList ∧
      ∀ pos ∈ (turnAt m k s).reads, pos ∈ s.reads ∨ pos.toNat < m.bytes.length := by
  have hshort := bytes_short m
  have hheader := hp.header
  rw [List.length_drop] at hheader
  obtain ⟨hcores, hreads⟩ :=
    recordEntry_spec hlt hp.lapic { s with reads := s.reads ++ [BitVec.ofNat 64 k + 1] }
  refine ⟨hcores, fun pos hpos => ?_⟩
  rcases hreads pos hpos with h | h
  · refine (List.mem_append.mp h).imp_right fun h => ?_
    obtain rfl := List.mem_singleton.mp h
    rw [show BitVec.ofNat 64 k + 1 = BitVec.ofNat 64 k + BitVec.ofNat 64 1 from rfl, offset_toNat (by omega)]
    omega
  · exact Or.inr h

/-- The place of the next entry. -/
theorem next_offset (h : k + 1 < m.bytes.length) :
    BitVec.ofNat 64 k + (m.entries (BitVec.ofNat 64 k + 1)).setWidth 64 =
      BitVec.ofNat 64 (k + lengthOf (m.bytes.drop k)) := by
  unfold lengthOf
  rw [suffix_byte h, BitVec.ofNat_add]
  congr 1
  exact BitVec.eq_of_toNat_eq (by rw [BitVec.toNat_setWidth, BitVec.toNat_ofNat]; rfl)

theorem Walked.cons {r : CoreTable} {ts : List (List (BitVec 8))} (hlt : k < m.bytes.length)
    (hp : Passed (m.bytes.drop k)) (h : Walked m ts (turnAt m k s) r) : Walked m (m.bytes.drop k :: ts) s r := by
  obtain ⟨hcores, hreads⟩ := turnAt_passed hlt hp s
  refine ⟨fun t ht => ?_, ?_, fun pos hpos => ?_⟩
  · rcases List.mem_cons.mp ht with rfl | ht
    · exact hp
    · exact h.passed t ht
  · rw [h.cores, hcores, List.append_assoc]
    congr 1
    rw [List.filterMap_cons]
    cases recordedCore (m.bytes.drop k) <;> rfl
  · rcases h.reads pos hpos with hr | hr
    · exact hreads pos hr
    · exact Or.inr hr

theorem gather_settles_end (hm : sizeofMADT ≤ m.length.toNat) (hend : ¬ k < m.bytes.length) (hk : k < 2 ^ 33)
    (n : Nat) (s : CoreTable) :
    Settles (¬ ∀ t ∈ startsUpTo n (m.bytes.drop k), Passed t) (fun fuel => gather m fuel (BitVec.ofNat 64 k) s)
      (ReadBehind m) (Walked m (startsUpTo n (m.bytes.drop k)) s) := by
  have hnil : startsUpTo n (m.bytes.drop k) = [] := by
    rw [List.drop_eq_nil_of_le (Nat.le_of_not_lt hend)]
    cases n <;> rfl
  rw [hnil]
  refine Or.inl ⟨s, ⟨1, fun fuel hfuel => ?_⟩, fun t ht => absurd ht List.not_mem_nil,
    (List.append_nil _).symm, fun pos h => Or.inl h⟩
  obtain ⟨fuel, rfl⟩ : ∃ n, fuel = n + 1 := ⟨fuel - 1, by omega⟩
  exact gather_end hm hend (by omega) fuel

/-- **The walk from an entry on.** It comes to the end with the cores that the code takes from the entries, or there
    is one that it does not get over. -/
theorem gather_settles (hm : sizeofMADT ≤ m.length.toNat) (hn : m.bytes.length ≤ k + n) (hk : k < 2 ^ 33)
    (s : CoreTable) :
    Settles (¬ ∀ t ∈ startsUpTo n (m.bytes.drop k), Passed t) (fun fuel => gather m fuel (BitVec.ofNat 64 k) s)
      (ReadBehind m) (Walked m (startsUpTo n (m.bytes.drop k)) s) := by
  have hshort := bytes_short m
  -- induction on the entries that there may still be
  induction n generalizing k s with
  | zero => exact gather_settles_end hm (by omega) hk 0 s
  | succ n ih =>
      by_cases hlt : k < m.bytes.length
      · have ht : m.bytes.drop k ≠ [] := fun h => by
          have hnil := List.drop_eq_nil_iff.mp h
          omega
        rw [startsUpTo_cons n ht]
        rcases passed_or hm hlt s with hp | ⟨hnot, hbad⟩
        · have hheader := hp.header
          have hstep := hp.advances
          have hbyte : lengthOf (m.bytes.drop k) < 256 := (List.getD (m.bytes.drop k) 1 0).isLt
          rw [List.length_drop] at hheader
          rw [if_neg hp.advances, List.drop_drop]
          refine Settles.succ (g := fun fuel => gather m fuel (BitVec.ofNat 64 (k + lengthOf (m.bytes.drop k)))
            (turnAt m k s)) (fun fuel => ?_) ((ih (by omega) (by omega) _).mono ?_ fun r hr => hr.cons hlt hp)
          · rw [gather_turn hm hlt (by omega), next_offset (by omega)]
          · exact fun hsome hall => hsome fun t ht => hall t (List.mem_cons_of_mem _ ht)
        · exact Or.inr ⟨fun h => hnot (h _ List.mem_cons_self), 1, hbad⟩
      · exact gather_settles_end hm hlt hk (n + 1) s

end Walk

/-! ## 5. The enabled cores -/

section Enabled

variable {t : List (BitVec 8)} {ts : List (List (BitVec 8))}

theorem getD_take {i n : Nat} (hi : i < n) : (t.take n).getD i 0 = t.getD i 0 := by
  rw [List.getD_eq_getElem?_getD, List.getD_eq_getElem?_getD, List.getElem?_take_of_lt hi]

/-- A whole entry has the parts that the code sees. -/
theorem enabledCore_take (hp : Passed t) (h8 : 8 ≤ lengthOf t) :
    enabledCore (t.take (lengthOf t)) = recordedCore t := by
  have htype : typeOf (t.take (lengthOf t)) = typeOf t := getD_take (by omega)
  have hflags : flagsOf (t.take (lengthOf t)) = flagsOf t := by
    unfold flagsOf
    rw [getD_take (by omega), getD_take (by omega), getD_take (by omega), getD_take (by omega)]
  have hcore : coreOf (t.take (lengthOf t)) = coreOf t := by
    unfold coreOf
    rw [getD_take (by omega), getD_take (by omega)]
  unfold enabledCore recordedCore
  rw [htype, hflags, hcore, List.length_take]
  by_cases ht : typeOf t = TYPE_LAPIC
  · have hlen := hp.lapic ht
    simp [ht, hlen, h8]
  · simp [ht]

theorem enabledCore_short (h8 : ¬ 8 ≤ lengthOf t) : enabledCore (t.take (lengthOf t)) = none := by
  unfold enabledCore
  rw [if_neg fun h => h8 (Nat.le_trans h.2.1 (by rw [List.length_take]; exact Nat.min_le_left _ _))]

/-- What the code records of an entry is its core exactly if the entry is sound. -/
theorem sound_iff (hp : Passed t) : EntrySound t ↔ enabledCore (t.take (lengthOf t)) = recordedCore t := by
  constructor
  · intro h
    by_cases h8 : 8 ≤ lengthOf t
    · exact enabledCore_take hp h8
    · rw [enabledCore_short h8]
      unfold recordedCore
      rw [if_neg]
      exact fun hrec => (h.complete hrec.1).elim h8 hrec.2
  · intro h
    refine ⟨hp, fun htype => ?_⟩
    by_cases h8 : 8 ≤ lengthOf t
    · exact Or.inl h8
    · rw [enabledCore_short h8] at h
      unfold recordedCore at h
      by_contra hnot
      rw [if_pos ⟨htype, fun hz => hnot (Or.inr hz)⟩] at h
      cases h

/-- The code records every enabled core and may record more. -/
theorem recorded_of_enabled (hp : Passed t) : enabledCore (t.take (lengthOf t)) = none ∨
    enabledCore (t.take (lengthOf t)) = recordedCore t := by
  by_cases h8 : 8 ≤ lengthOf t
  · exact Or.inr (enabledCore_take hp h8)
  · exact Or.inl (enabledCore_short h8)

/-- `f` leaves out some of what `g` picks: its list is no longer. -/
theorem filterMap_length_le {α β : Type} {f g : α → Option β} {l : List α} (h : ∀ a ∈ l, f a = none ∨ f a = g a) :
    (l.filterMap f).length ≤ (l.filterMap g).length := by
  induction l with
  | nil => exact Nat.le_refl 0
  | cons a l ih =>
      have hrest := ih fun b hb => h b (List.mem_cons_of_mem _ hb)
      rw [List.filterMap_cons, List.filterMap_cons]
      rcases h a List.mem_cons_self with hnone | hsame
      · rw [hnone]
        cases g a with
        | none => exact hrest
        | some b => exact Nat.le_succ_of_le hrest
      · rw [hsame]
        cases g a with
        | none => exact hrest
        | some b => exact Nat.succ_le_succ hrest

/-- The lists are the same where it leaves out nothing. -/
theorem filterMap_eq_iff {α β : Type} {f g : α → Option β} {l : List α} (h : ∀ a ∈ l, f a = none ∨ f a = g a) :
    l.filterMap f = l.filterMap g ↔ ∀ a ∈ l, f a = g a := by
  refine ⟨fun heq => ?_, List.filterMap_congr⟩
  induction l with
  | nil => exact fun a ha => absurd ha List.not_mem_nil
  | cons a l ih =>
      have hrest : ∀ b ∈ l, f b = none ∨ f b = g b := fun b hb => h b (List.mem_cons_of_mem _ hb)
      rw [List.filterMap_cons, List.filterMap_cons] at heq
      have hhead : f a = g a := by
        rcases h a List.mem_cons_self with hnone | hsame
        · rw [hnone] at heq ⊢
          cases hg : g a with
          | none => rfl
          | some b =>
              rw [hg] at heq
              change l.filterMap f = b :: l.filterMap g at heq
              have hlen := congrArg List.length heq
              have hshort := filterMap_length_le hrest
              rw [List.length_cons] at hlen
              omega
        · exact hsame
      refine List.forall_mem_cons.mpr ⟨hhead, ih hrest ?_⟩
      rw [hhead] at heq
      cases hg : g a with
      | none => rwa [hg] at heq
      | some b =>
          rw [hg] at heq
          exact (List.cons.inj heq).2

/-- **The code records the enabled cores exactly where every entry is sound.** -/
theorem recorded_iff (hp : ∀ t ∈ ts, Passed t) :
    (ts.filterMap recordedCore = ts.filterMap fun t => enabledCore (t.take (lengthOf t))) ↔
      ∀ t ∈ ts, EntrySound t := by
  rw [eq_comm, filterMap_eq_iff fun t ht => recorded_of_enabled (hp t ht)]
  exact forall₂_congr fun t ht => (sound_iff (hp t ht)).symm

end Enabled

/-! ## 6. The results -/

/-- A table that is shorter than its header has no bound: the first length byte is read behind it. -/
theorem short_table {m : MADT} {info : Nat → CoreInfo} {s : CoreTable} (hm : ¬ sizeofMADT ≤ m.length.toNat)
    (hs : Halts (gatherInfo m info) s) : ReadBehind m s := by
  have hlen : m.bytes.length = 0 := by
    rw [bytes_length]
    omega
  have hnext : m.getNextEntry 0 = some (0, 0 + (m.entries (0 + 1)).setWidth 64) := by
    unfold MADT.getNextEntry
    refine if_neg fun hle => ?_
    unfold sizeofMADT at *
    bv_omega
  obtain ⟨N, hN⟩ := hs
  have hr := hN (N + 1) (Nat.le_succ N)
  unfold gatherInfo gather at hr
  rw [hnext] at hr
  refine ⟨0 + 1, gather_reads (recordEntry_reads m _ _ ?_) hr, by omega⟩
  exact List.mem_append_right _ (List.mem_singleton_self _)

/-- **When the enabled cores are listed.** -/
theorem gather_cores (m : MADT) (info : Nat → CoreInfo) :
    (∃ s, Halts (gatherInfo m info) s ∧ CoresListed m s) ↔
      sizeofMADT ≤ m.length.toNat ∧ (∀ t ∈ starts m.bytes, EntrySound t) ∧
        (enabledCores m.bytes).length ≤ MaxCoreCount := by
  by_cases hm : sizeofMADT ≤ m.length.toNat
  · have hsettles := gather_settles (n := m.bytes.length) (k := 0) hm (by omega) (by decide)
      { numCores := 0, info := info, reads := [] }
    rw [List.drop_zero] at hsettles
    have hcount : ∀ s : CoreTable, s.cores.length = s.numCores := fun s => by
      unfold CoreTable.cores
      rw [List.length_map, List.length_range]
    constructor
    · intro h
      obtain ⟨s, hs, hlisted⟩ := h
      have hwalked := hsettles.result hs fun hbehind => by
        obtain ⟨pos, hpos, hnot⟩ := hbehind
        exact hnot (hlisted.inside pos hpos)
      refine ⟨hm, (recorded_iff hwalked.passed).mp ?_, ?_⟩
      · exact hwalked.cores.symm.trans hlisted.cores
      · rw [← hlisted.cores, hcount]
        exact hlisted.bounded
    · intro h
      obtain ⟨-, hsound, hbound⟩ := h
      obtain ⟨s, hs, hwalked⟩ := hsettles.halts fun hnot => hnot fun t ht => (hsound t ht).toPassed
      have hcores : s.cores = enabledCores m.bytes :=
        hwalked.cores.trans ((recorded_iff hwalked.passed).mpr hsound)
      refine ⟨s, hs, fun pos hpos => ?_, hcores, ?_⟩
      · exact (hwalked.reads pos hpos).resolve_left List.not_mem_nil
      · rw [← hcount, hcores]
        exact hbound
  · constructor
    · intro h
      obtain ⟨s, hs, hlisted⟩ := h
      obtain ⟨pos, hpos, hnot⟩ := short_table hm hs
      exact absurd (hlisted.inside pos hpos) hnot
    · exact fun h => absurd h.1 hm

/-- A table of one entry whose length byte is 0 (an entry of type 1, say). -/
def zeroLength : MADT where
  length := 46
  entries := fun pos => if pos = 0 then 1 else 0

/-- The walk does not come to the end. -/
theorem gather_endless : (∀ info fuel, gatherInfo zeroLength info fuel = none) ∧
    ¬ ∀ m info, sizeofMADT ≤ m.length.toNat → ∃ s, Halts (gatherInfo m info) s ∧ CoresListed m s := by
  have hnone : ∀ info fuel, gatherInfo zeroLength info fuel = none := fun info fuel =>
    gather_stuck (k := 0) (by decide) (by decide) (by decide) rfl fuel
  refine ⟨hnone, fun h => ?_⟩
  obtain ⟨s, ⟨N, hN⟩, -⟩ := h zeroLength (fun _ => ⟨0, 0⟩) (by decide)
  have hsome := hN N (Nat.le_refl N)
  rw [hnone] at hsome
  cases hsome

end SMP

end SimpleOS2
