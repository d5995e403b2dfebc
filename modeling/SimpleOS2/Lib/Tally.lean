/-
  File:      SimpleOS2/Lib/Tally.lean
  Subject:   A SUM OVER AS MANY OWNERS AS THERE ARE. Nothing here names the kernel.

  * `Tally` -- all but finitely many owners have nothing, together they have `n`;
  * `Tally.update` -- one owner gets more or less, the others keep what they have;
  * `Tally.le`, `Tally.le_two` -- what one owner has at most, or two; `Tally.encard` -- owners of one each;
  * `sum_range_update` -- one number in a row of numbers changes;
  * `countP_eraseIdx`, `countP_set_same` -- an element leaves a list, or is replaced by one that counts as it does.
-/
import Mathlib.Algebra.BigOperators.Group.Finset.Basic
import Mathlib.Algebra.Order.BigOperators.Group.Finset
import Mathlib.Data.Set.Card

namespace SimpleOS2.Lib

variable {ι : Type _} {f f' : ι → Nat} {n n' : Nat}

/-- All but finitely many owners have nothing, together they have `n`. -/
def Tally (f : ι → Nat) (n : Nat) : Prop := ∃ T : Finset ι, (∀ i, i ∉ T → f i = 0) ∧ ∑ i ∈ T, f i = n

theorem tally_zero (h : ∀ i, f i = 0) : Tally f 0 := ⟨∅, fun i _ => h i, rfl⟩

/-- One owner and the rest. -/
theorem Tally.rest (h : Tally f n) (i : ι) :
    ∃ T : Finset ι, i ∉ T ∧ (∀ j, j ≠ i → j ∉ T → f j = 0) ∧ f i + ∑ j ∈ T, f j = n := by
  classical
  obtain ⟨T, hT, hn⟩ := h
  refine ⟨T.erase i, Finset.notMem_erase i T, fun j hj hm => hT j fun hmT => hm (Finset.mem_erase.mpr ⟨hj, hmT⟩), ?_⟩
  by_cases hi : i ∈ T
  · rw [Finset.add_sum_erase T f hi]
    exact hn
  · rw [Finset.erase_eq_of_notMem hi, hT i hi, Nat.zero_add]
    exact hn

/-- **One owner gets more or less.** -/
theorem Tally.update (h : Tally f n) (i : ι) (hf : ∀ j, j ≠ i → f' j = f j) (hn : n' + f i = n + f' i) :
    Tally f' n' := by
  classical
  obtain ⟨T, hi, hT, hsum⟩ := h.rest i
  have hrest : ∑ j ∈ T, f' j = ∑ j ∈ T, f j :=
    Finset.sum_congr rfl fun j hj => hf j fun e => hi (e ▸ hj)
  refine ⟨insert i T, fun j hj => ?_, ?_⟩
  · obtain ⟨hne, hj'⟩ := not_or.mp fun hx => hj (Finset.mem_insert.mpr hx)
    rw [hf j hne]
    exact hT j hne hj'
  · rw [Finset.sum_insert hi, hrest]
    omega

theorem Tally.same (h : Tally f n) (hf : ∀ i, f' i = f i) : Tally f' n := by
  have he : f' = f := funext hf
  rw [he]
  exact h

theorem Tally.le (h : Tally f n) (i : ι) : f i ≤ n := by
  obtain ⟨T, -, -, hsum⟩ := h.rest i
  omega

/-- What two owners have at most. -/
theorem Tally.le_two (h : Tally f n) {i j : ι} (hij : i ≠ j) : f i + f j ≤ n := by
  obtain ⟨T, -, hT, hsum⟩ := h.rest i
  by_cases hj : j ∈ T
  · have hle : f j ≤ ∑ k ∈ T, f k := Finset.single_le_sum (fun _ _ => Nat.zero_le _) hj
    omega
  · have h0 := hT j hij.symm hj
    have hle : f i ≤ n := h.le i
    omega

/-- Somebody has what there is. -/
theorem Tally.exists_pos (h : Tally f n) (hn : 0 < n) : ∃ i, 0 < f i := by
  obtain ⟨T, -, rfl⟩ := h
  obtain ⟨i, -, hi⟩ := Finset.sum_pos_iff.mp hn
  exact ⟨i, hi⟩

/-- Owners that have one each or nothing are counted. -/
theorem Tally.encard (h : Tally f n) {p : ι → Prop} (hf : ∀ i, f i = 1 ∧ p i ∨ f i = 0 ∧ ¬ p i) :
    (n : ENat) = {i | p i}.encard := by
  classical
  obtain ⟨T, hT, rfl⟩ := h
  have hset : {i | p i} = ((T.filter fun i => p i : Finset ι) : Set ι) := by
    ext i
    rw [Finset.mem_coe, Finset.mem_filter]
    refine ⟨fun hp => ⟨?_, hp⟩, fun hp => hp.2⟩
    by_contra hi
    rcases hf i with ⟨h1, -⟩ | ⟨-, hn⟩
    · rw [hT i hi] at h1
      cases h1
    · exact hn hp
  have hsum : ∑ i ∈ T, f i = ∑ i ∈ T, if p i then 1 else 0 := by
    refine Finset.sum_congr rfl fun i _ => ?_
    rcases hf i with ⟨h1, hp⟩ | ⟨h0, hp⟩
    · rw [if_pos hp, h1]
    · rw [if_neg hp, h0]
  rw [hset, Set.encard_coe_eq_coe_finsetCard, hsum, Finset.card_filter]

/-- What each has is of two kinds. -/
theorem Tally.split {g k : ι → Nat} (h : Tally f n) (hf : ∀ i, f i = g i + k i) :
    ∃ a b, Tally g a ∧ Tally k b ∧ n = a + b := by
  obtain ⟨T, hT, rfl⟩ := h
  refine ⟨∑ i ∈ T, g i, ∑ i ∈ T, k i, ⟨T, fun i hi => ?_, rfl⟩, ⟨T, fun i hi => ?_, rfl⟩, ?_⟩
  · have := hT i hi
    have := hf i
    omega
  · have := hT i hi
    have := hf i
    omega
  · rw [← Finset.sum_add_distrib]
    exact Finset.sum_congr rfl fun i _ => hf i

theorem Tally.unique (h : Tally f n) (h' : Tally f n') : n = n' := by
  classical
  obtain ⟨T, hT, rfl⟩ := h
  obtain ⟨T', hT', rfl⟩ := h'
  have h1 : ∑ i ∈ T, f i = ∑ i ∈ T ∪ T', f i :=
    Finset.sum_subset Finset.subset_union_left fun i _ hi => hT i hi
  have h2 : ∑ i ∈ T', f i = ∑ i ∈ T ∪ T', f i :=
    Finset.sum_subset Finset.subset_union_right fun i _ hi => hT' i hi
  rw [h1, h2]

/-- A number in a row of numbers changes. -/
theorem sum_range_update (f f' : Nat → Nat) {n i : Nat} (hi : i < n)
    (hf : ∀ j, j < n → j ≠ i → f' j = f j) : ∑ j ∈ Finset.range n, f' j + f i = ∑ j ∈ Finset.range n, f j + f' i := by
  have hmem : i ∈ Finset.range n := Finset.mem_range.mpr hi
  have h1 := Finset.add_sum_erase (Finset.range n) f hmem
  have h2 := Finset.add_sum_erase (Finset.range n) f' hmem
  have h3 : ∑ j ∈ (Finset.range n).erase i, f' j = ∑ j ∈ (Finset.range n).erase i, f j :=
    Finset.sum_congr rfl fun j hj =>
      hf j (Finset.mem_range.mp (Finset.mem_of_mem_erase hj)) (Finset.ne_of_mem_erase hj)
  omega

/-- An element leaves a list. -/
theorem countP_eraseIdx {α : Type _} (p : α → Bool) (l : List α) {i : Nat} {a : α} (h : l[i]? = some a) :
    (l.eraseIdx i).countP p + (if p a then 1 else 0) = l.countP p := by
  induction l generalizing i with
  | nil => cases h
  | cons b l ih =>
      cases i with
      | zero =>
          cases h
          rw [List.eraseIdx_zero, List.tail_cons, List.countP_cons]
      | succ i =>
          have hi := ih (i := i) h
          rw [List.eraseIdx_cons_succ, List.countP_cons, List.countP_cons]
          omega

/-- An element is replaced by one that counts as it does. -/
theorem countP_set_same {α : Type _} (p : α → Bool) (l : List α) {i : Nat} {a a' : α} (h : l[i]? = some a)
    (hp : p a' = p a) : (l.set i a').countP p = l.countP p := by
  obtain ⟨hi, rfl⟩ := List.getElem?_eq_some_iff.mp h
  have hle : (if p l[i] = true then 1 else 0) ≤ l.countP p := by
    split_ifs with hx
    · exact List.countP_pos_iff.mpr ⟨l[i], List.getElem_mem hi, hx⟩
    · exact Nat.zero_le _
  rw [List.countP_set hi, hp]
  omega

end SimpleOS2.Lib
