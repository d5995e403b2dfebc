/-
  File:      SimpleOS2/Ktl/FreeList.lean
  Subject:   THE FREE LIST (ktl/FreeList.h over ktl/AnchorList.h): free memory that lists itself.

  A free segment begins with its own list node, `FreeListSegment`: the two links, `base` and
  `size`, four 8-byte cells at the start of the memory the node describes. `Mem` is that memory,
  one value per 8-byte cell, named by the cell's byte address.

  * `findFree`, `markFree`, `markUsed`, `joinAdjacent` -- the four operations as pointer programs;
    every scan over the list runs on fuel, and the specifications say that fuel past the length of
    the list is enough;
  * `Free m l ps z` -- the list with ends `l` in memory `m` is the sequence of the segments at
    `ps`, the one at `p` being `z p` bytes long;
  * `Geo u ps z` -- the segments are blocks of whole units of `u` bytes, pairwise disjoint;
    `Apart` -- no two of them touch;
  * `joinAdjacent_spec`, `markFree_spec`, `markUsed_spec` -- each operation returns, its list is
    again disjoint and without two segments that touch, the covered addresses are what they should
    be, and no cell outside the covered addresses is written.
-/
import Mathlib.Data.List.Pairwise
import SimpleOS2.Lib.IntrusiveList
import SimpleOS2.Klib.Memory

namespace SimpleOS2

open Lib

/-- Memory, by the byte address of its 8-byte cells. -/
abbrev Mem := Nat → Nat

namespace FreeList

/-! ## 1. The node and the operations -/

/-- `FreeListSegment::anchor`: `next` in the first cell of the node, `prev` in the second. -/
def anchor : LinkField Mem Nat where
  null := 0
  next m p := m p
  prev m p := m (p + 8)
  setNext m p v := Function.update m p v
  setPrev m p v := Function.update m (p + 8) v
  apart p q := p + 32 ≤ q ∨ q + 32 ≤ p
  apart_symm h := h.symm
  apart_irrefl p h := by omega
  next_setNext m p v := Function.update_self _ _ _
  next_setNext_of m {p q} v h := Function.update_of_ne (by omega) _ _
  next_setPrev m p v := Function.update_of_ne (by omega) _ _
  next_setPrev_of m {p q} v h := Function.update_of_ne (by omega) _ _
  prev_setPrev m p v := Function.update_self _ _ _
  prev_setPrev_of m {p q} v h := Function.update_of_ne (by omega) _ _
  prev_setNext m p v := Function.update_of_ne (by omega) _ _
  prev_setNext_of m {p q} v h := Function.update_of_ne (by omega) _ _

/-- `seg.base`. -/
def base (m : Mem) (p : Nat) : Nat := m (p + 16)

/-- `seg.size`. -/
def size (m : Mem) (p : Nat) : Nat := m (p + 24)

def setSize (m : Mem) (p v : Nat) : Mem := Function.update m (p + 24) v

/-- `node->base = b; node->size = n;` -/
def setSegment (m : Mem) (p b n : Nat) : Mem := setSize (Function.update m (p + 16) b) p n

/-- The scan of `FindFree` from `seg` on: the first segment that holds `n` bytes, 0 if none. -/
def findFreeFrom (m : Mem) (n : Nat) : (fuel : Nat) → (seg : Nat) → Option Nat
  | 0, _ => none
  | fuel + 1, seg =>
      if seg = 0 then some 0
      else if size m seg ≥ n then some seg
      else findFreeFrom m n fuel (m seg)

/-- `FindFree`. -/
def findFree (fuel : Nat) (m : Mem) (l : Ends Nat) (n : Nat) : Option Nat :=
  findFreeFrom m n fuel l.head

/-- The scan of `JoinAdjacent` from `tmp` on: the first segment that touches `[start, stop)`, the
    segment of `cmp`. The answer is the pair (segment that grows, segment that goes). -/
def touching (m : Mem) (cmp start stop : Nat) : (fuel : Nat) → (tmp : Nat) → Option (Option (Nat × Nat))
  | 0, _ => none
  | fuel + 1, tmp =>
      if tmp = 0 then some none
      else if base m tmp = stop then some (some (cmp, tmp))
      else if u64 (base m tmp + size m tmp) = start then some (some (tmp, cmp))
      else touching m cmp start stop fuel (m tmp)

/-- `dst->size += src->size; erase(src);` -/
def absorb (fuel : Nat) (m : Mem) (l : Ends Nat) (dst src : Nat) : Option (Mem × Ends Nat) :=
  erasePtr anchor fuel (setSize m dst (u64 (size m dst + size m src))) l src

/-- `JoinAdjacent`. -/
def joinAdjacent : (fuel : Nat) → Mem → Ends Nat → (cmp : Nat) → Option (Mem × Ends Nat)
  | 0, _, _, _ => none
  | fuel + 1, m, l, cmp =>
      (touching m cmp (base m cmp) (u64 (base m cmp + size m cmp)) (fuel + 1) l.head).bind fun
        | none => some (m, l)
        | some (dst, src) =>
            (absorb (fuel + 1) m l dst src).bind fun r => joinAdjacent fuel r.1 r.2 dst

/-- `MarkFree`. -/
def markFree (fuel : Nat) (m : Mem) (l : Ends Nat) (b n : Nat) : Option (Mem × Ends Nat) :=
  let r := pushBack anchor (setSegment m b b n) l b
  joinAdjacent fuel r.1 r.2 b

/-- `MarkUsed`. -/
def markUsed (fuel : Nat) (m : Mem) (l : Ends Nat) (b n : Nat) : Option (Mem × Ends Nat) :=
  (erasePtr anchor fuel m l b).bind fun r =>
    if size r.1 b > n then
      let node := b + n
      let m := Function.update r.1 (node + 16) (u64 (base r.1 b + n))
      let q := pushBack anchor (setSize m node (size m b - n)) r.2 node
      joinAdjacent fuel q.1 q.2 node
    else some r

/-! Fuel that is left over changes nothing. -/

theorem findFree_steady (m : Mem) (l : Ends Nat) (k : Nat) : Steady fun n => findFree n m l k := by
  intro n
  show ∀ r, findFreeFrom m k n l.head = some r → findFreeFrom m k (n + 1) l.head = some r
  generalize l.head = seg
  induction n generalizing seg with
  | zero => intro r h; simp [findFreeFrom] at h
  | succ n ih =>
      intro r h
      unfold findFreeFrom at h ⊢
      split_ifs at h ⊢ <;> first | exact h | exact ih _ r h

theorem touching_steady (m : Mem) (c start stop tmp : Nat) :
    Steady fun n => touching m c start stop n tmp := by
  intro n
  show ∀ r, touching m c start stop n tmp = some r → touching m c start stop (n + 1) tmp = some r
  induction n generalizing tmp with
  | zero => intro r h; simp [touching] at h
  | succ n ih =>
      intro r h
      unfold touching at h ⊢
      split_ifs at h ⊢ <;> first | exact h | exact ih _ r h

theorem joinAdjacent_steady (m : Mem) (l : Ends Nat) (c : Nat) :
    Steady fun n => joinAdjacent n m l c := by
  intro n
  show ∀ r, joinAdjacent n m l c = some r → joinAdjacent (n + 1) m l c = some r
  induction n generalizing m l c with
  | zero => intro r h; simp [joinAdjacent] at h
  | succ n ih =>
      intro r h
      unfold joinAdjacent at h ⊢
      obtain ⟨t, ht, h⟩ := Option.bind_eq_some_iff.mp h
      refine Option.bind_eq_some_iff.mpr ⟨t, touching_steady _ _ _ _ _ _ _ ht, ?_⟩
      cases t with
      | none => exact h
      | some t =>
          obtain ⟨q, hq, h⟩ := Option.bind_eq_some_iff.mp h
          exact Option.bind_eq_some_iff.mpr ⟨q, erasePtr_steady _ _ _ _ _ _ hq, ih _ _ _ r h⟩

theorem markFree_steady (m : Mem) (l : Ends Nat) (b n : Nat) :
    Steady fun k => markFree k m l b n := joinAdjacent_steady _ _ _

theorem markUsed_steady (m : Mem) (l : Ends Nat) (b n : Nat) :
    Steady fun k => markUsed k m l b n := by
  refine Steady.bind (erasePtr_steady anchor m l b) fun r => ?_
  intro k q h
  split_ifs at h ⊢
  · exact joinAdjacent_steady _ _ _ k q h
  · exact h

/-! ## 2. The list as segments -/

/-- The list with ends `l` holds the segments at `ps`, the one at `p` of `z p` bytes. -/
structure Free (m : Mem) (l : Ends Nat) (ps : List Nat) (z : Nat → Nat) : Prop where
  rep : Rep anchor m l ps
  base : ∀ p ∈ ps, base m p = p
  size : ∀ p ∈ ps, size m p = z p

/-- Segments of whole units of `u` bytes, away from address 0, below `2 ^ 64`, disjoint. -/
structure Geo (u : Nat) (ps : List Nat) (z : Nat → Nat) : Prop where
  aligned : ∀ p ∈ ps, u ∣ p ∧ u ∣ z p
  pos : ∀ p ∈ ps, 0 < p ∧ 0 < z p
  bound : ∀ p ∈ ps, p + z p < 2 ^ 64
  disjoint : ∀ p ∈ ps, ∀ q ∈ ps, p ≠ q → p + z p ≤ q ∨ q + z q ≤ p

/-- The segments at `p` and `q` do not touch. -/
def Sep (z : Nat → Nat) (p q : Nat) : Prop := p + z p < q ∨ q + z q < p

/-- No two segments touch. -/
def Apart (ps : List Nat) (z : Nat → Nat) : Prop := ∀ p ∈ ps, ∀ q ∈ ps, p ≠ q → Sep z p q

/-- No two segments but the one at `c` touch. -/
def ApartBut (ps : List Nat) (z : Nat → Nat) (c : Nat) : Prop :=
  ∀ p ∈ ps, ∀ q ∈ ps, p ≠ q → p ≠ c → q ≠ c → Sep z p q

/-- The addresses the segments cover. -/
def Cover (ps : List Nat) (z : Nat → Nat) (a : Nat) : Prop := ∃ p ∈ ps, p ≤ a ∧ a < p + z p

section Spec

variable {u : Nat} {m : Mem} {l : Ends Nat} {ps : List Nat} {z : Nat → Nat}

theorem Geo.unit_le (hG : Geo u ps z) {p : Nat} (hp : p ∈ ps) : u ≤ z p :=
  Nat.le_of_dvd (hG.pos p hp).2 (hG.aligned p hp).2

/-- The four cells of a node lie inside the segment it describes. -/
theorem Geo.node_cover (hG : Geo u ps z) (hu : 32 ≤ u) {p a : Nat} (hp : p ∈ ps) (h1 : p ≤ a)
    (h2 : a < p + 32) : Cover ps z a :=
  ⟨p, hp, h1, by have := hG.unit_le hp; omega⟩

/-- Two nodes of the list are apart. -/
theorem Geo.apart (hG : Geo u ps z) (hu : 32 ≤ u) {p q : Nat} (hp : p ∈ ps) (hq : q ∈ ps)
    (hne : p ≠ q) : p + 32 ≤ q ∨ q + 32 ≤ p := by
  have h1 := hG.unit_le hp
  have h2 := hG.unit_le hq
  have h3 := hG.disjoint p hp q hq hne
  omega

/-- When no two segments touch, an interval of free addresses lies in one segment. -/
theorem Apart.interval (hA : Apart ps z) (hG : Geo u ps z) {a b p : Nat} (hp : p ∈ ps) (h1 : p ≤ a)
    (h2 : a < p + z p) (hcov : ∀ x, a ≤ x → x < b → Cover ps z x) : b ≤ p + z p := by
  by_contra hlt
  obtain ⟨q, hq, h3, h4⟩ := hcov (p + z p) (by omega) (by omega)
  have hne : p ≠ q := by rintro rfl; omega
  have h5 := hG.disjoint p hp q hq hne
  have h6 := hA p hp q hq hne
  unfold Sep at h6
  omega

/-! ## 3. The scans -/

/-- **`FindFree`** answers a segment that is large enough, or 0 when there is none. -/
theorem findFreeFrom_spec {n p : Nat} {xs : List Nat} (hL : Linked anchor m p xs 0)
    (hn : ∀ x ∈ xs, x ≠ 0) (hz : ∀ x ∈ xs, size m x = z x) {fuel : Nat} (hf : xs.length < fuel) :
    ∃ r, findFreeFrom m n fuel (xs.headD 0) = some r ∧
      ((r = 0 ∧ ∀ x ∈ xs, z x < n) ∨ (r ∈ xs ∧ n ≤ z r)) := by
  induction xs generalizing p fuel with
  | nil =>
      obtain ⟨f, rfl⟩ : ∃ f, fuel = f + 1 := ⟨fuel - 1, by simp at hf; omega⟩
      exact ⟨0, rfl, Or.inl ⟨rfl, by simp⟩⟩
  | cons x xs ih =>
      obtain ⟨f, rfl⟩ : ∃ f, fuel = f + 1 := ⟨fuel - 1, by simp at hf; omega⟩
      obtain ⟨-, h2, h3⟩ := hL
      have h2' : m x = xs.headD 0 := h2
      have hx := hz x List.mem_cons_self
      simp only [findFreeFrom, List.headD_cons, hn x List.mem_cons_self, if_false, h2', hx]
      by_cases hge : z x ≥ n
      · exact ⟨x, by simp [hge], Or.inr ⟨by simp, hge⟩⟩
      · obtain ⟨r, hr, hcase⟩ := ih h3 (fun y hy => hn y (List.mem_cons_of_mem _ hy))
          (fun y hy => hz y (List.mem_cons_of_mem _ hy)) (by simpa using hf)
        refine ⟨r, by rw [if_neg hge]; exact hr, ?_⟩
        rcases hcase with ⟨h0, hall⟩ | ⟨hmem, hle⟩
        · refine Or.inl ⟨h0, fun y hy => ?_⟩
          rcases List.mem_cons.mp hy with rfl | hy
          · omega
          · exact hall y hy
        · exact Or.inr ⟨List.mem_cons_of_mem _ hmem, hle⟩

theorem findFree_spec (hF : Free m l ps z) (n : Nat) {fuel : Nat} (hf : ps.length < fuel) :
    ∃ r, findFree fuel m l n = some r ∧
      ((r = 0 ∧ ∀ p ∈ ps, z p < n) ∨ (r ∈ ps ∧ n ≤ z r)) := by
  unfold findFree
  rw [hF.rep.head]
  exact findFreeFrom_spec hF.rep.linked hF.rep.notNull hF.size hf

/-- **The scan of `JoinAdjacent`** answers the first element that touches, on the right side. -/
theorem touching_spec (c start stop : Nat) {p : Nat} {xs : List Nat} (hL : Linked anchor m p xs 0)
    (hn : ∀ x ∈ xs, x ≠ 0) (hb : ∀ x ∈ xs, base m x = x) (hz : ∀ x ∈ xs, size m x = z x)
    (hlt : ∀ x ∈ xs, x + z x < 2 ^ 64) {fuel : Nat} (hf : xs.length < fuel) :
    ∃ r, touching m c start stop fuel (xs.headD 0) = some r ∧
      ((r = none ∧ ∀ x ∈ xs, x ≠ stop ∧ x + z x ≠ start) ∨
        (∃ x ∈ xs, r = some (c, x) ∧ x = stop) ∨
        (∃ x ∈ xs, r = some (x, c) ∧ x + z x = start)) := by
  induction xs generalizing p fuel with
  | nil =>
      obtain ⟨f, rfl⟩ : ∃ f, fuel = f + 1 := ⟨fuel - 1, by simp at hf; omega⟩
      exact ⟨none, rfl, Or.inl ⟨rfl, by simp⟩⟩
  | cons x xs ih =>
      obtain ⟨f, rfl⟩ : ∃ f, fuel = f + 1 := ⟨fuel - 1, by simp at hf; omega⟩
      obtain ⟨-, h2, h3⟩ := hL
      have h2' : m x = xs.headD 0 := h2
      have hx := hz x List.mem_cons_self
      have hbx := hb x List.mem_cons_self
      simp only [touching, List.headD_cons, hn x List.mem_cons_self, if_false, h2', hx, hbx,
        u64_of_lt (hlt x List.mem_cons_self)]
      by_cases h4 : x = stop
      · exact ⟨some (c, x), by simp [h4], Or.inr (Or.inl ⟨x, by simp, rfl, h4⟩)⟩
      by_cases h5 : x + z x = start
      · exact ⟨some (x, c), by simp [h4, h5], Or.inr (Or.inr ⟨x, by simp, rfl, h5⟩)⟩
      obtain ⟨r, hr, hcase⟩ := ih h3 (fun y hy => hn y (List.mem_cons_of_mem _ hy))
        (fun y hy => hb y (List.mem_cons_of_mem _ hy)) (fun y hy => hz y (List.mem_cons_of_mem _ hy))
        (fun y hy => hlt y (List.mem_cons_of_mem _ hy)) (by simpa using hf)
      refine ⟨r, by rw [if_neg h4, if_neg h5]; exact hr, ?_⟩
      rcases hcase with ⟨h0, hall⟩ | ⟨y, hy, h6⟩ | ⟨y, hy, h6⟩
      · refine Or.inl ⟨h0, fun y hy => ?_⟩
        rcases List.mem_cons.mp hy with rfl | hy
        · exact ⟨h4, h5⟩
        · exact hall y hy
      · exact Or.inr (Or.inl ⟨y, List.mem_cons_of_mem _ hy, h6⟩)
      · exact Or.inr (Or.inr ⟨y, List.mem_cons_of_mem _ hy, h6⟩)

/-! ## 4. Relinking keeps the fields and everything outside the covered addresses -/

/-- A cell that is no link of a node of the list survives `pushBack`. -/
theorem pushBack_cell (hR : Rep anchor m l ps) {t a : Nat}
    (ha : ∀ p ∈ t :: ps, a ≠ p ∧ a ≠ p + 8) : (pushBack anchor m l t).1 a = m a :=
  pushBack_frame hR (fun m => m a) (fun _ _ p hp => Function.update_of_ne (ha p hp).1 _ _)
    (fun _ _ p hp => Function.update_of_ne (ha p hp).2 _ _)

theorem erase_cell (hR : Rep anchor m l ps) {t a : Nat} (ht : t ∈ ps)
    (ha : ∀ p ∈ ps, a ≠ p ∧ a ≠ p + 8) : (erase anchor m l t).1 a = m a :=
  erase_frame hR ht (fun m => m a) (fun _ _ p hp => Function.update_of_ne (ha p hp).1 _ _)
    (fun _ _ p hp => Function.update_of_ne (ha p hp).2 _ _)

/-- The links are read from the first two cells of each node. -/
theorem rep_congr {m' : Mem} (hR : Rep anchor m l ps)
    (h : ∀ p ∈ ps, m' p = m p ∧ m' (p + 8) = m (p + 8)) : Rep anchor m' l ps :=
  hR.congr fun p hp => ⟨(h p hp).2, (h p hp).1⟩

/-- The list is read from the four cells of each node. -/
theorem free_congr {m' : Mem} (hF : Free m l ps z)
    (h : ∀ p ∈ ps, ∀ d, d < 32 → m' (p + d) = m (p + d)) : Free m' l ps z :=
  ⟨rep_congr hF.rep fun p hp => ⟨h p hp 0 (by omega), h p hp 8 (by omega)⟩,
    fun p hp => (h p hp 16 (by omega)).trans (hF.base p hp),
    fun p hp => (h p hp 24 (by omega)).trans (hF.size p hp)⟩

/-- Two nodes of one list do not share a cell. -/
theorem nodes_apart (hR : Rep anchor m l ps) {p q : Nat} (hp : p ∈ ps) (hq : q ∈ ps) (hne : p ≠ q) :
    p + 32 ≤ q ∨ q + 32 ≤ p :=
  have : Std.Symm anchor.apart := ⟨fun _ _ h => anchor.apart_symm h⟩
  hR.apart.forall hp hq hne

/-- Writing the size of a segment. -/
theorem free_setSize (hF : Free m l ps z) {dst : Nat} (hd : dst ∈ ps) (v : Nat) :
    Free (setSize m dst v) l ps (Function.update z dst v) := by
  have hcell : ∀ p ∈ ps, ∀ k, k < 24 → setSize m dst v (p + k) = m (p + k) := by
    intro p hp k hk
    refine Function.update_of_ne ?_ _ _
    by_cases hpd : p = dst
    · omega
    · have := nodes_apart hF.rep hp hd hpd
      omega
  refine ⟨rep_congr hF.rep fun p hp => ⟨hcell p hp 0 (by omega), hcell p hp 8 (by omega)⟩,
    fun p hp => ?_, fun p hp => ?_⟩
  · unfold base
    rw [hcell p hp 16 (by omega)]
    exact hF.base p hp
  · unfold size setSize
    by_cases hpd : p = dst
    · subst hpd
      rw [Function.update_self, Function.update_self]
    · have := nodes_apart hF.rep hp hd hpd
      rw [Function.update_of_ne (by omega), Function.update_of_ne hpd]
      exact hF.size p hp

/-- Unlinking a segment writes links only: the fields of every node stay, its own included. -/
theorem erase_segment (hF : Free m l ps z) {c : Nat} (hc : c ∈ ps) :
    Free (erase anchor m l c).1 (erase anchor m l c).2 (ps.erase c) z ∧
      (∀ p ∈ ps, base (erase anchor m l c).1 p = p ∧ size (erase anchor m l c).1 p = z p) ∧
      ∀ a, (∀ p ∈ ps, a < p ∨ p + 32 ≤ a) → (erase anchor m l c).1 a = m a := by
  have hcell : ∀ p ∈ ps, ∀ k, 16 ≤ k → k < 32 → (erase anchor m l c).1 (p + k) = m (p + k) := by
    intro p hp k h1 h2
    refine erase_cell hF.rep hc fun q hq => ?_
    by_cases hpq : p = q
    · omega
    · have := nodes_apart hF.rep hp hq hpq
      omega
  have hfld : ∀ p ∈ ps, base (erase anchor m l c).1 p = p ∧
      size (erase anchor m l c).1 p = z p := fun p hp => by
    unfold base size
    rw [hcell p hp 16 (by omega) (by omega), hcell p hp 24 (by omega) (by omega)]
    exact ⟨hF.base p hp, hF.size p hp⟩
  refine ⟨⟨erase_rep hF.rep hc, fun p hp => (hfld p (List.mem_of_mem_erase hp)).1,
    fun p hp => (hfld p (List.mem_of_mem_erase hp)).2⟩, hfld, fun a ha => ?_⟩
  refine erase_cell hF.rep hc fun p hp => ?_
  have := ha p hp
  omega

/-- **Absorbing a neighbour**: `dst` grows by `src`, which begins where `dst` ends. -/
theorem absorb_spec (hu : 32 ≤ u) (hF : Free m l ps z) (hG : Geo u ps z) {dst src : Nat}
    (hd : dst ∈ ps) (hs : src ∈ ps) (hadj : src = dst + z dst) {fuel : Nat}
    (hf : ps.length < fuel) :
    ∃ m' l', absorb fuel m l dst src = some (m', l') ∧
      Free m' l' (ps.erase src) (Function.update z dst (z dst + z src)) ∧
      ∀ a, ¬ Cover ps z a → m' a = m a := by
  have hval : u64 (size m dst + size m src) = z dst + z src := by
    rw [hF.size dst hd, hF.size src hs, u64_of_lt]
    have := hG.bound src hs
    omega
  have hF1 := free_setSize hF hd (z dst + z src)
  obtain ⟨hF2, -, hfr⟩ := erase_segment hF1 hs
  unfold absorb
  rw [hval, erasePtr_mem hF1.rep hs hf]
  refine ⟨(erase anchor (setSize m dst (z dst + z src)) l src).1,
    (erase anchor (setSize m dst (z dst + z src)) l src).2, rfl, hF2, fun a ha => ?_⟩
  have hout : ∀ p ∈ ps, a < p ∨ p + 32 ≤ a := fun p hp => by
    by_contra h
    exact ha (hG.node_cover hu hp (by omega) (by omega))
  have := hout dst hd
  rw [hfr a hout, setSize, Function.update_of_ne (by omega)]

/-- Absorbing keeps the covered addresses. -/
theorem absorb_cover (hnd : ps.Nodup) {dst src : Nat} (hd : dst ∈ ps) (hs : src ∈ ps)
    (hne : dst ≠ src) (hadj : src = dst + z dst) (a : Nat) :
    Cover (ps.erase src) (Function.update z dst (z dst + z src)) a ↔ Cover ps z a := by
  constructor
  · intro hx
    obtain ⟨p, hp, h1, h2⟩ := hx
    by_cases hpd : p = dst
    · subst hpd
      rw [Function.update_self] at h2
      by_cases h3 : a < p + z p
      · exact ⟨p, hd, h1, h3⟩
      · exact ⟨src, hs, by omega, by omega⟩
    · rw [Function.update_of_ne hpd] at h2
      exact ⟨p, List.mem_of_mem_erase hp, h1, h2⟩
  · intro hx
    obtain ⟨p, hp, h1, h2⟩ := hx
    by_cases hps : p = src
    · subst hps
      refine ⟨dst, (hnd.mem_erase_iff).mpr ⟨hne, hd⟩, by omega, ?_⟩
      rw [Function.update_self]
      omega
    · by_cases hpd : p = dst
      · subst hpd
        refine ⟨p, (hnd.mem_erase_iff).mpr ⟨hne, hd⟩, h1, ?_⟩
        rw [Function.update_self]
        omega
      · refine ⟨p, (hnd.mem_erase_iff).mpr ⟨hps, hp⟩, h1, ?_⟩
        rw [Function.update_of_ne hpd]
        exact h2

/-- Absorbing keeps the geometry. -/
theorem absorb_geo (hnd : ps.Nodup) (hG : Geo u ps z) {dst src : Nat} (hd : dst ∈ ps) (hs : src ∈ ps)
    (hadj : src = dst + z dst) :
    Geo u (ps.erase src) (Function.update z dst (z dst + z src)) := by
  have hin : ∀ p ∈ ps.erase src, p ≠ src ∧ p ∈ ps := fun p hp => (hnd.mem_erase_iff).mp hp
  have hzd : ∀ p ∈ ps.erase src, p ≠ dst →
      Function.update z dst (z dst + z src) p = z p := fun p _ h => Function.update_of_ne h _ _
  -- a segment disjoint from both halves is disjoint from the whole
  have key : ∀ q ∈ ps.erase src, q ≠ dst → dst + (z dst + z src) ≤ q ∨ q + z q ≤ dst := by
    intro q hq hqd
    obtain ⟨hqs, hq'⟩ := hin q hq
    have h1 := hG.disjoint dst hd q hq' (Ne.symm hqd)
    have h2 := hG.disjoint src hs q hq' (Ne.symm hqs)
    have h3 := (hG.pos q hq').2
    omega
  refine ⟨fun p hp => ?_, fun p hp => ?_, fun p hp => ?_, fun p hp q hq hpq => ?_⟩
  · by_cases hpd : p = dst
    · subst hpd
      rw [Function.update_self]
      exact ⟨(hG.aligned p hd).1, Nat.dvd_add (hG.aligned p hd).2 (hG.aligned src hs).2⟩
    · rw [hzd p hp hpd]; exact hG.aligned p (hin p hp).2
  · by_cases hpd : p = dst
    · subst hpd
      rw [Function.update_self]
      have := hG.pos p hd
      omega
    · rw [hzd p hp hpd]; exact hG.pos p (hin p hp).2
  · by_cases hpd : p = dst
    · subst hpd
      rw [Function.update_self]
      have := hG.bound src hs
      omega
    · rw [hzd p hp hpd]; exact hG.bound p (hin p hp).2
  · by_cases hpd : p = dst
    · subst hpd
      rw [Function.update_self, hzd q hq (Ne.symm hpq)]
      exact key q hq (Ne.symm hpq)
    · by_cases hqd : q = dst
      · subst hqd
        rw [Function.update_self, hzd p hp hpd]
        exact (key p hp hpd).symm
      · rw [hzd p hp hpd, hzd q hq hqd]
        exact hG.disjoint p (hin p hp).2 q (hin q hq).2 hpq

/-! ## 5. The operations -/

/-- What an operation leaves behind: a list of disjoint segments that cover exactly `C`, of which no
    two touch if `A` held before, and no cell outside `W` written. -/
structure Done (u : Nat) (m : Mem) (A : Prop) (C W : Nat → Prop) (m' : Mem) (l' : Ends Nat)
    (ps' : List Nat) (z' : Nat → Nat) : Prop where
  free : Free m' l' ps' z'
  geo : Geo u ps' z'
  apart : A → Apart ps' z'
  cover : ∀ a, Cover ps' z' a ↔ C a
  frame : ∀ a, ¬ W a → m' a = m a

/-- **`JoinAdjacent` returns**, and with full coalescing when only the segment it is called on may
    touch another one. Each recursion takes one segment off the list. -/
theorem joinAdjacent_spec (hu : 32 ≤ u) {fuel : Nat} {c : Nat} (hF : Free m l ps z)
    (hG : Geo u ps z) (hc : c ∈ ps) (hf : ps.length < fuel) :
    ∃ r ps' z', joinAdjacent fuel m l c = some r ∧
      Done u m (ApartBut ps z c) (Cover ps z) (Cover ps z) r.1 r.2 ps' z' := by
  induction fuel generalizing m l ps z c with
  | zero => omega
  | succ fuel ih =>
      have hstart : base m c = c := hF.base c hc
      have hstop : u64 (base m c + size m c) = c + z c := by
        rw [hstart, hF.size c hc, u64_of_lt (hG.bound c hc)]
      have hnd := hF.rep.nodup
      obtain ⟨r, hr, hcase⟩ := touching_spec c c (c + z c) hF.rep.linked hF.rep.notNull hF.base hF.size hG.bound hf
      have hhead : l.head = ps.headD 0 := hF.rep.head
      unfold joinAdjacent
      rw [hstop, hstart, hhead, hr]
      -- one absorption, then the recursive call
      have step : ∀ dst src, dst ∈ ps → src ∈ ps → src = dst + z dst → (dst = c ∨ src = c) →
          ∃ r ps' z', ((absorb (fuel + 1) m l dst src).bind fun r =>
            joinAdjacent fuel r.1 r.2 dst) = some r ∧
          Done u m (ApartBut ps z c) (Cover ps z) (Cover ps z) r.1 r.2 ps' z' := by
        intro dst src hd hs hadj hdc
        have hne : dst ≠ src := by have := (hG.pos dst hd).2; omega
        obtain ⟨m1, l1, he, hF1, hfr⟩ := absorb_spec hu hF hG hd hs hadj hf
        have hcov := absorb_cover hnd hd hs hne hadj
        have hlen : (ps.erase src).length < fuel := by
          rw [List.length_erase_of_mem hs]
          have := List.length_pos_of_mem hs
          omega
        have hsep : ApartBut ps z c →
            ApartBut (ps.erase src) (Function.update z dst (z dst + z src)) dst := by
          intro hA p hp q hq hpq hpd hqd
          obtain ⟨hps, hp'⟩ := (hnd.mem_erase_iff).mp hp
          obtain ⟨hqs, hq'⟩ := (hnd.mem_erase_iff).mp hq
          unfold Sep
          rw [Function.update_of_ne hpd, Function.update_of_ne hqd]
          rcases hdc with hdc | hdc
          · exact hA p hp' q hq' hpq (hdc ▸ hpd) (hdc ▸ hqd)
          · exact hA p hp' q hq' hpq (hdc ▸ hps) (hdc ▸ hqs)
        obtain ⟨r, ps', z', hj, hD⟩ := ih hF1 (absorb_geo hnd hG hd hs hadj)
          ((hnd.mem_erase_iff).mpr ⟨hne, hd⟩) hlen
        rw [he]
        refine ⟨r, ps', z', hj, hD.free, hD.geo, fun hA => hD.apart (hsep hA), fun a => (hD.cover a).trans (hcov a),
          fun a ha => ?_⟩
        rw [hD.frame a (fun h => ha ((hcov a).mp h)), hfr a ha]
      rcases hcase with ⟨rfl, hnone⟩ | ⟨t, ht, rfl, hstop'⟩ | ⟨t, ht, rfl, hstart'⟩
      · -- nothing touches `c`
        refine ⟨(m, l), ps, z, rfl, hF, hG, fun hA p hp q hq hpq => ?_, fun a => Iff.rfl,
          fun a _ => rfl⟩
        have hd := hG.disjoint p hp q hq hpq
        by_cases hpc : p = c
        · subst hpc
          have := hnone q hq
          unfold Sep
          omega
        · by_cases hqc : q = c
          · subst hqc
            have := hnone p hp
            unfold Sep
            omega
          · exact hA p hp q hq hpq hpc hqc
      · exact step c t hc ht hstop' (Or.inl rfl)
      · exact step t c ht hc hstart'.symm (Or.inr rfl)

/-- Writing a fresh node and appending it: the list with one more segment. -/
theorem push_segment (hu : 32 ≤ u) (hF : Free m l ps z) (hG : Geo u ps z) {b n : Nat}
    (hb : 0 < b) (hn : 32 ≤ n) (hdis : ∀ p ∈ ps, p + z p ≤ b ∨ b + n ≤ p) :
    Free (pushBack anchor (setSegment m b b n) l b).1 (pushBack anchor (setSegment m b b n) l b).2
        (ps ++ [b]) (Function.update z b n) ∧
      ∀ a, ¬ (Cover ps z a ∨ b ≤ a ∧ a < b + n) →
        (pushBack anchor (setSegment m b b n) l b).1 a = m a := by
  have hap : ∀ p ∈ ps, b + 32 ≤ p ∨ p + 32 ≤ b := fun p hp => by
    have := hG.unit_le hp
    have := hdis p hp
    omega
  have hset : ∀ a, a ≠ b + 16 → a ≠ b + 24 → setSegment m b b n a = m a := fun a h1 h2 => by
    unfold setSegment setSize
    rw [Function.update_of_ne h2, Function.update_of_ne h1]
  have hR : Rep anchor (setSegment m b b n) l ps := rep_congr hF.rep fun p hp => by
    have := hap p hp
    exact ⟨hset p (by omega) (by omega), hset (p + 8) (by omega) (by omega)⟩
  have hcell : ∀ p ∈ ps ++ [b], ∀ k, 16 ≤ k → k < 32 →
      (pushBack anchor (setSegment m b b n) l b).1 (p + k) = setSegment m b b n (p + k) := by
    intro p hp k h1 h2
    refine pushBack_cell hR fun q hq => ?_
    have hpq : p = q ∨ p + 32 ≤ q ∨ q + 32 ≤ p := by
      rcases List.mem_append.mp hp with hp | hp <;> rcases List.mem_cons.mp hq with hqb | hq
      · have := hap p hp; omega
      · by_cases e : p = q
        · exact Or.inl e
        · exact Or.inr (hG.apart hu hp hq e)
      · exact Or.inl ((List.mem_singleton.mp hp).trans hqb.symm)
      · rw [List.mem_singleton.mp hp]
        exact Or.inr (hap q hq)
    omega
  have hbp : ∀ p ∈ ps, p ≠ b := fun p hp => by have := hap p hp; omega
  refine ⟨⟨pushBack_rep hR (by show b ≠ 0; omega) hap, fun p hp => ?_, fun p hp => ?_⟩,
    fun a ha => ?_⟩
  · unfold base
    rw [hcell p hp 16 (by omega) (by omega)]
    rcases List.mem_append.mp hp with hp | hp
    · have := hap p hp
      rw [hset _ (by omega) (by omega)]
      exact hF.base p hp
    · rw [List.mem_singleton.mp hp, setSegment, setSize, Function.update_of_ne (by omega),
        Function.update_self]
  · unfold size
    rw [hcell p hp 24 (by omega) (by omega)]
    rcases List.mem_append.mp hp with hp | hp
    · have := hap p hp
      rw [hset _ (by omega) (by omega), Function.update_of_ne (hbp p hp)]
      exact hF.size p hp
    · rw [List.mem_singleton.mp hp, setSegment, setSize, Function.update_self,
        Function.update_self]
  · have hout : ∀ p ∈ ps, ∀ k, k < 32 → a ≠ p + k := fun p hp k hk e =>
      ha (Or.inl (hG.node_cover hu hp (by omega) (by omega)))
    have houtb : ∀ k, k < 32 → a ≠ b + k := fun k hk e => ha (Or.inr ⟨by omega, by omega⟩)
    rw [pushBack_cell hR, hset a (houtb 16 (by omega)) (houtb 24 (by omega))]
    intro p hp
    rcases List.mem_cons.mp hp with rfl | hp
    · exact ⟨houtb 0 (by omega), houtb 8 (by omega)⟩
    · exact ⟨hout p hp 0 (by omega), hout p hp 8 (by omega)⟩

/-- The geometry with one more segment. -/
theorem geo_snoc (hG : Geo u ps z) {b n : Nat} (hal : u ∣ b ∧ u ∣ n) (hb : 0 < b) (hn : 0 < n)
    (hlt : b + n < 2 ^ 64) (hnew : b ∉ ps) (hdis : ∀ p ∈ ps, p + z p ≤ b ∨ b + n ≤ p) :
    Geo u (ps ++ [b]) (Function.update z b n) := by
  have hne : ∀ p ∈ ps, p ≠ b := fun p hp e => hnew (e ▸ hp)
  have hz : ∀ p ∈ ps, Function.update z b n p = z p := fun p hp => Function.update_of_ne (hne p hp) _ _
  refine ⟨fun p hp => ?_, fun p hp => ?_, fun p hp => ?_, fun p hp q hq hpq => ?_⟩
  · rcases List.mem_append.mp hp with hp | hp
    · rw [hz p hp]; exact hG.aligned p hp
    · rw [List.mem_singleton.mp hp, Function.update_self]; exact hal
  · rcases List.mem_append.mp hp with hp | hp
    · rw [hz p hp]; exact hG.pos p hp
    · rw [List.mem_singleton.mp hp, Function.update_self]; exact ⟨hb, hn⟩
  · rcases List.mem_append.mp hp with hp | hp
    · rw [hz p hp]; exact hG.bound p hp
    · rw [List.mem_singleton.mp hp, Function.update_self]; exact hlt
  · rcases List.mem_append.mp hp with hp | hp <;> rcases List.mem_append.mp hq with hq | hq
    · rw [hz p hp, hz q hq]; exact hG.disjoint p hp q hq hpq
    · rw [List.mem_singleton.mp hq, Function.update_self, hz p hp]; exact hdis p hp
    · rw [List.mem_singleton.mp hp, Function.update_self, hz q hq]; exact (hdis q hq).symm
    · exact absurd ((List.mem_singleton.mp hp).trans (List.mem_singleton.mp hq).symm) hpq

theorem cover_snoc {b n : Nat} (hnew : b ∉ ps) (a : Nat) :
    Cover (ps ++ [b]) (Function.update z b n) a ↔ Cover ps z a ∨ b ≤ a ∧ a < b + n := by
  have hne : ∀ p ∈ ps, p ≠ b := fun p hp e => hnew (e ▸ hp)
  constructor
  · intro hx
    obtain ⟨p, hp, h1, h2⟩ := hx
    rcases List.mem_append.mp hp with hp | hp
    · rw [Function.update_of_ne (hne p hp)] at h2
      exact Or.inl ⟨p, hp, h1, h2⟩
    · rw [List.mem_singleton.mp hp] at h1 h2
      rw [Function.update_self] at h2
      exact Or.inr ⟨h1, h2⟩
  · intro hx
    rcases hx with ⟨p, hp, h1, h2⟩ | ⟨h1, h2⟩
    · exact ⟨p, List.mem_append_left _ hp, h1, by rw [Function.update_of_ne (hne p hp)]; exact h2⟩
    · exact ⟨b, by simp, h1, by rw [Function.update_self]; exact h2⟩

/-- **`MarkFree`** of memory that is not free: afterwards it is, and nothing else is. -/
theorem markFree_spec (hu : 32 ≤ u) (hF : Free m l ps z) (hG : Geo u ps z) {b n : Nat}
     (hal : u ∣ b ∧ u ∣ n) (hb : 0 < b) (hn : 0 < n) (hlt : b + n < 2 ^ 64)
    (hdis : ∀ p ∈ ps, p + z p ≤ b ∨ b + n ≤ p) {fuel : Nat} (hf : ps.length + 1 < fuel) :
    ∃ r ps' z', markFree fuel m l b n = some r ∧
      Done u m (Apart ps z) (fun a => Cover ps z a ∨ b ≤ a ∧ a < b + n)
        (fun a => Cover ps z a ∨ b ≤ a ∧ a < b + n) r.1 r.2 ps' z' := by
  have hnew : b ∉ ps := fun h => by
    have := hdis b h
    have := (hG.pos b h).2
    omega
  have hn32 : 32 ≤ n := le_trans hu (Nat.le_of_dvd hn hal.2)
  obtain ⟨hF', hfr⟩ := push_segment hu hF hG hb hn32 hdis
  have hne : ∀ p ∈ ps ++ [b], p ≠ b → p ∈ ps := fun p hp h =>
    (List.mem_append.mp hp).resolve_right fun h' => h (List.mem_singleton.mp h')
  have hlen : (ps ++ [b]).length < fuel := by simpa using hf
  have hsep : Apart ps z → ApartBut (ps ++ [b]) (Function.update z b n) b := by
    intro hA p hp q hq hpq hpb hqb
    unfold Sep
    rw [Function.update_of_ne hpb, Function.update_of_ne hqb]
    exact hA p (hne p hp hpb) q (hne q hq hqb) hpq
  obtain ⟨r, ps', z', hj, hD⟩ := joinAdjacent_spec hu (c := b) hF'
    (geo_snoc hG hal hb hn hlt hnew hdis) (by simp) hlen
  refine ⟨r, ps', z', hj, hD.free, hD.geo, fun hA => hD.apart (hsep hA),
    fun a => (hD.cover a).trans (cover_snoc hnew a), fun a ha => ?_⟩
  rw [hD.frame a (fun h => ha ((cover_snoc hnew a).mp h)), hfr a ha]

/-- Taking a whole segment out of the list. -/
theorem geo_erase (hG : Geo u ps z) (c : Nat) : Geo u (ps.erase c) z :=
  ⟨fun p hp => hG.aligned p (List.mem_of_mem_erase hp), fun p hp => hG.pos p (List.mem_of_mem_erase hp),
    fun p hp => hG.bound p (List.mem_of_mem_erase hp), fun p hp q hq =>
      hG.disjoint p (List.mem_of_mem_erase hp) q (List.mem_of_mem_erase hq)⟩

theorem cover_erase (hnd : ps.Nodup) (hG : Geo u ps z) {c : Nat} (hc : c ∈ ps) (a : Nat) :
    Cover (ps.erase c) z a ↔ Cover ps z a ∧ ¬ (c ≤ a ∧ a < c + z c) := by
  constructor
  · intro hx
    obtain ⟨p, hp, h1, h2⟩ := hx
    obtain ⟨hpc, hp'⟩ := (hnd.mem_erase_iff).mp hp
    have := hG.disjoint p hp' c hc hpc
    exact ⟨⟨p, hp', h1, h2⟩, by omega⟩
  · intro hx
    obtain ⟨⟨p, hp, h1, h2⟩, hno⟩ := hx
    by_cases hpc : p = c
    · subst hpc
      exact absurd ⟨h1, h2⟩ hno
    · exact ⟨p, (hnd.mem_erase_iff).mpr ⟨hpc, hp⟩, h1, h2⟩

/-- **`MarkUsed`** of the first `n` bytes of a segment: they are no longer free, all other free
    memory still is. -/
theorem markUsed_spec (hu : 32 ≤ u) (hF : Free m l ps z) (hG : Geo u ps z) {c n : Nat}
     (hc : c ∈ ps) (hal : u ∣ n) (hn : 0 < n) (hle : n ≤ z c) {fuel : Nat}
    (hf : ps.length < fuel) :
    ∃ r ps' z', markUsed fuel m l c n = some r ∧
      Done u m (Apart ps z) (fun a => Cover ps z a ∧ ¬ (c ≤ a ∧ a < c + n)) (Cover ps z)
        r.1 r.2 ps' z' := by
  have hnd := hF.rep.nodup
  have hn32 : 32 ≤ n := le_trans hu (Nat.le_of_dvd hn hal)
  have hcov := cover_erase hnd hG hc
  obtain ⟨hF1, hfld, hfr⟩ := erase_segment hF hc
  have hout : ∀ a, ¬ Cover ps z a → (erase anchor m l c).1 a = m a := fun a ha => by
    refine hfr a fun p hp => ?_
    by_contra h
    exact ha (hG.node_cover hu hp (by omega) (by omega))
  have hA1 : Apart ps z → Apart (ps.erase c) z := fun hA p hp q hq =>
    hA p (List.mem_of_mem_erase hp) q (List.mem_of_mem_erase hq)
  unfold markUsed
  rw [erasePtr_mem hF.rep hc hf]
  dsimp only [Option.bind]
  rw [(hfld c hc).1, (hfld c hc).2]
  have hcl := hG.bound c hc
  by_cases hgt : z c > n
  · -- the remainder is a segment of its own, and it may touch others
    rw [if_pos hgt]
    have hsz : size (Function.update (erase anchor m l c).1 (c + n + 16) (u64 (c + n))) c = z c := by
      unfold size
      rw [Function.update_of_ne (by omega)]
      exact (hfld c hc).2
    rw [hsz, u64_of_lt (by omega)]
    have hdis : ∀ p ∈ ps.erase c, p + z p ≤ c + n ∨ c + n + (z c - n) ≤ p := fun p hp => by
      obtain ⟨hpc, hp'⟩ := (hnd.mem_erase_iff).mp hp
      have := hG.disjoint p hp' c hc hpc
      omega
    have hlen : (ps.erase c).length + 1 < fuel := by
      rw [List.length_erase_of_mem hc]
      have := List.length_pos_of_mem hc
      omega
    obtain ⟨r, ps', z', hj, hD⟩ := markFree_spec hu hF1 (geo_erase hG c) (b := c + n)
      (n := z c - n) ⟨Nat.dvd_add (hG.aligned c hc).1 hal, Nat.dvd_sub (hG.aligned c hc).2 hal⟩
      (by omega) (by omega) (by omega) hdis hlen
    have hin : ∀ a, (Cover (ps.erase c) z a ∨ c + n ≤ a ∧ a < c + n + (z c - n)) ↔
        (Cover ps z a ∧ ¬ (c ≤ a ∧ a < c + n)) := fun a => by
      rw [hcov a]
      constructor
      · intro hx
        rcases hx with ⟨h1, h2⟩ | ⟨h1, h2⟩
        · exact ⟨h1, by omega⟩
        · exact ⟨⟨c, hc, by omega, by omega⟩, by omega⟩
      · intro hx
        obtain ⟨h1, h2⟩ := hx
        by_cases h3 : c ≤ a ∧ a < c + z c
        · exact Or.inr (by omega)
        · exact Or.inl ⟨h1, h3⟩
    refine ⟨r, ps', z', hj, hD.free, hD.geo, fun hA => hD.apart (hA1 hA),
      fun a => (hD.cover a).trans (hin a),
      fun a ha => ?_⟩
    rw [hD.frame a (fun h => ha ((hin a).mp h).1), hout a ha]
  · have hzn : z c = n := by omega
    rw [if_neg hgt]
    refine ⟨erase anchor m l c, ps.erase c, z, rfl, hF1, geo_erase hG c, hA1, fun a => ?_, hout⟩
    rw [hcov a, hzn]

end Spec

end FreeList

end SimpleOS2
