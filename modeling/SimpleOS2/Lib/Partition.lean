/-
  File:      SimpleOS2/Lib/Partition.lean
  Subject:   A RANGE OF ADDRESSES CUT INTO BLOCKS AND FREE SPACE. Nothing here names the kernel.

  Blocks of any type stand at addresses, `start` and `stop` say where. Together with a set of free
  addresses they partition `[lo, hi)`.

  * `Taken` -- the addresses of the blocks; `Partition` -- the invariant;
  * `Partition.take`, `Partition.give` -- a free interval becomes a block, a block becomes free;
  * `Partition.grow` -- the range grows by a free interval;
  * `Partition.block_free`, `Partition.all_free` -- what follows from it.
-/
import Mathlib.Data.List.Pairwise
import Mathlib.Data.List.Nodup

namespace SimpleOS2.Lib

variable {β : Type _} {start stop : β → Nat}

/-- The addresses that the blocks occupy. -/
def Taken (start stop : β → Nat) (blocks : List β) (a : Nat) : Prop :=
  ∃ b ∈ blocks, start b ≤ a ∧ a < stop b

/-- The blocks and the free addresses partition `[lo, hi)`. -/
structure Partition (start stop : β → Nat) (lo hi : Nat) (free : Nat → Prop) (blocks : List β) : Prop where
  nonempty : ∀ b ∈ blocks, start b < stop b
  disjoint : blocks.Pairwise fun b c => stop b ≤ start c ∨ stop c ≤ start b
  whole : ∀ a, free a ∨ Taken start stop blocks a ↔ lo ≤ a ∧ a < hi
  once : ∀ a, free a → ¬ Taken start stop blocks a

section Rules

variable {lo hi : Nat} {free : Nat → Prop} {blocks : List β} {b : β}

theorem partition_nil (lo : Nat) : Partition start stop lo lo (fun _ => False) [] where
  nonempty := by simp
  disjoint := .nil
  whole a := by
    constructor
    · intro hx
      rcases hx with h | ⟨b, hb, -⟩
      · exact h.elim
      · cases hb
    · intro h
      omega
  once a h := h.elim

/-- Another description of the free addresses. -/
theorem Partition.congr {free' : Nat → Prop} (h : Partition start stop lo hi free blocks)
    (he : ∀ a, free' a ↔ free a) : Partition start stop lo hi free' blocks where
  nonempty := h.nonempty
  disjoint := h.disjoint
  whole a := by rw [he a]; exact h.whole a
  once a ha := h.once a ((he a).mp ha)

/-- A block lies in the range. -/
theorem Partition.bounds (h : Partition start stop lo hi free blocks) (hb : b ∈ blocks) :
    lo ≤ start b ∧ start b < stop b ∧ stop b ≤ hi := by
  have h1 := h.nonempty b hb
  have h2 := (h.whole (start b)).mp (Or.inr ⟨b, hb, Nat.le_refl _, h1⟩)
  have h3 := (h.whole (stop b - 1)).mp (Or.inr ⟨b, hb, by omega, by omega⟩)
  omega

theorem Partition.not_free (h : Partition start stop lo hi free blocks) (hb : b ∈ blocks) {a : Nat}
    (h1 : start b ≤ a) (h2 : a < stop b) : ¬ free a := fun hf => h.once a hf ⟨b, hb, h1, h2⟩

/-- A block and an interval of free addresses do not overlap. -/
theorem Partition.block_free (h : Partition start stop lo hi free blocks) (hb : b ∈ blocks) {p q : Nat}
    (hpq : p < q) (hf : ∀ a, p ≤ a → a < q → free a) : q ≤ start b ∨ stop b ≤ p := by
  by_contra hno
  have h1 := h.nonempty b hb
  exact h.not_free hb (a := max p (start b)) (by omega) (by omega) (hf _ (by omega) (by omega))

theorem Partition.two (h : Partition start stop lo hi free blocks) {c : β} (hb : b ∈ blocks)
    (hc : c ∈ blocks) (hne : b ≠ c) : stop b ≤ start c ∨ stop c ≤ start b :=
  have : Std.Symm fun b c : β => stop b ≤ start c ∨ stop c ≤ start b := ⟨fun _ _ h => h.symm⟩
  h.disjoint.forall hb hc hne

/-- No block is there twice. -/
theorem Partition.nodup (h : Partition start stop lo hi free blocks) : blocks.Nodup := by
  refine (List.Pairwise.and_mem.mp h.disjoint).imp fun {x y} hxy e => ?_
  subst e
  have := h.nonempty x hxy.1
  omega

/-- **A free interval becomes a block.** -/
theorem Partition.take (h : Partition start stop lo hi free blocks) (hb : start b < stop b)
    (hf : ∀ a, start b ≤ a → a < stop b → free a) :
    Partition start stop lo hi (fun a => free a ∧ ¬ (start b ≤ a ∧ a < stop b)) (b :: blocks) where
  nonempty c hc := by
    rcases List.mem_cons.mp hc with rfl | hc
    · exact hb
    · exact h.nonempty c hc
  disjoint := by
    refine List.pairwise_cons.mpr ⟨fun c hc => ?_, h.disjoint⟩
    exact h.block_free hc hb hf
  whole a := by
    rw [← h.whole a]
    constructor
    · intro hx
      rcases hx with ⟨h1, -⟩ | ⟨c, hc, h1, h2⟩
      · exact Or.inl h1
      · rcases List.mem_cons.mp hc with rfl | hc
        · exact Or.inl (hf a h1 h2)
        · exact Or.inr ⟨c, hc, h1, h2⟩
    · intro hx
      rcases hx with h1 | ⟨c, hc, h1, h2⟩
      · by_cases hin : start b ≤ a ∧ a < stop b
        · exact Or.inr ⟨b, List.mem_cons_self, hin⟩
        · exact Or.inl ⟨h1, hin⟩
      · exact Or.inr ⟨c, List.mem_cons_of_mem b hc, h1, h2⟩
  once a ha := by
    intro hx
    obtain ⟨c, hc, h1, h2⟩ := hx
    rcases List.mem_cons.mp hc with rfl | hc
    · exact ha.2 ⟨h1, h2⟩
    · exact h.not_free hc h1 h2 ha.1

/-- The addresses of the blocks without one of them. -/
theorem Partition.taken_erase [DecidableEq β] (h : Partition start stop lo hi free blocks) (hb : b ∈ blocks)
    (a : Nat) : Taken start stop (blocks.erase b) a ↔
      Taken start stop blocks a ∧ ¬ (start b ≤ a ∧ a < stop b) := by
  constructor
  · intro hx
    obtain ⟨c, hc, h1, h2⟩ := hx
    obtain ⟨hcb, hc'⟩ := h.nodup.mem_erase_iff.mp hc
    have := h.two hc' hb hcb
    exact ⟨⟨c, hc', h1, h2⟩, by omega⟩
  · intro hx
    obtain ⟨⟨c, hc, h1, h2⟩, hno⟩ := hx
    by_cases hcb : c = b
    · subst hcb
      exact absurd ⟨h1, h2⟩ hno
    · exact ⟨c, h.nodup.mem_erase_iff.mpr ⟨hcb, hc⟩, h1, h2⟩

/-- **A block becomes free.** -/
theorem Partition.give [DecidableEq β] (h : Partition start stop lo hi free blocks) (hb : b ∈ blocks) :
    Partition start stop lo hi (fun a => free a ∨ start b ≤ a ∧ a < stop b) (blocks.erase b) where
  nonempty c hc := h.nonempty c (List.mem_of_mem_erase hc)
  disjoint := h.disjoint.sublist List.erase_sublist
  whole a := by
    rw [h.taken_erase hb a, ← h.whole a]
    constructor
    · intro hx
      rcases hx with (h1 | h1) | ⟨h1, -⟩
      exacts [Or.inl h1, Or.inr ⟨b, hb, h1⟩, Or.inr h1]
    · intro hx
      rcases hx with h1 | h1
      · exact Or.inl (Or.inl h1)
      · by_cases h2 : start b ≤ a ∧ a < stop b
        · exact Or.inl (Or.inr h2)
        · exact Or.inr ⟨h1, h2⟩
  once a ha := by
    intro ht
    obtain ⟨h1, h2⟩ := (h.taken_erase hb a).mp ht
    rcases ha with ha | ha
    · exact h.once a ha h1
    · exact h2 ha

/-- **The range grows by a free interval.** -/
theorem Partition.grow (h : Partition start stop lo hi free blocks) (hle : lo ≤ hi) (n : Nat) :
    Partition start stop lo (hi + n) (fun a => free a ∨ hi ≤ a ∧ a < hi + n) blocks where
  nonempty := h.nonempty
  disjoint := h.disjoint
  whole a := by
    rw [or_right_comm, h.whole a]
    omega
  once a ha ht := by
    rcases ha with ha | ha
    · exact h.once a ha ht
    · have := (h.whole a).mp (Or.inr ht)
      omega

/-- Without a block everything is free. -/
theorem Partition.all_free (h : Partition start stop lo hi free []) {a : Nat} (h1 : lo ≤ a) (h2 : a < hi) :
    free a := by
  rcases (h.whole a).mpr ⟨h1, h2⟩ with h3 | ⟨b, hb, -⟩
  · exact h3
  · cases hb

/-- An interval of free addresses lies in the range. -/
theorem Partition.free_bounds (h : Partition start stop lo hi free blocks) {p q : Nat} (hpq : p < q)
    (hf : ∀ a, p ≤ a → a < q → free a) : lo ≤ p ∧ q ≤ hi := by
  have h1 := (h.whole p).mp (Or.inl (hf p (Nat.le_refl _) hpq))
  have h2 := (h.whole (q - 1)).mp (Or.inl (hf (q - 1) (by omega) (by omega)))
  omega

end Rules

end SimpleOS2.Lib
