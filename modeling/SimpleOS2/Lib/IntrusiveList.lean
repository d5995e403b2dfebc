/-
  File:      SimpleOS2/Lib/IntrusiveList.lean
  Subject:   DOUBLY LINKED LISTS WHOSE LINKS LIVE IN THEIR ELEMENTS. Nothing here names the kernel.

  A memory `M` holds objects named by pointers `P`; an object carries a `next` and a `prev` link
  (`LinkField`). The list itself is two pointers, head and tail (`Ends`). The operations are the
  pointer programs: `pushBack`, `erase` and `takePlace` relink, `erasePtr` looks its argument up first.

  * `Rep A m l ps` -- the list with ends `l` in memory `m` is the sequence `ps`;
  * `pushBack_rep`, `erase_rep`, `erasePtr_rep` -- the operations on the sequence;
  * `pushBack_frame`, `erase_frame` -- a reading of the memory that the links of the list's
    elements do not matter to is not changed by an operation;
  * `traverse` -- a traversal over one of the two links; `Rep.traverse_next`, `Rep.traverse_prev`: forwards it meets the
    sequence, backwards its reverse.

  Two objects may be so close that their links overlap (a memory of plain cells), so the laws of
  `LinkField` ask for `apart` and not for `≠`; `Rep` keeps the elements pairwise apart.
-/
import Mathlib.Data.List.Induction
import Mathlib.Data.List.Nodup
import SimpleOS2.Lib.Run

namespace SimpleOS2.Lib

/-- The link fields of a memory. -/
structure LinkField (M P : Type) where
  null : P
  next : M → P → P
  prev : M → P → P
  setNext : M → P → P → M
  setPrev : M → P → P → M
  apart : P → P → Prop
  apart_symm : ∀ {p q}, apart p q → apart q p
  apart_irrefl : ∀ p, ¬ apart p p
  next_setNext : ∀ m p v, next (setNext m p v) p = v
  next_setNext_of : ∀ m {p q} v, apart p q → next (setNext m p v) q = next m q
  next_setPrev : ∀ m p v, next (setPrev m p v) p = next m p
  next_setPrev_of : ∀ m {p q} v, apart p q → next (setPrev m p v) q = next m q
  prev_setPrev : ∀ m p v, prev (setPrev m p v) p = v
  prev_setPrev_of : ∀ m {p q} v, apart p q → prev (setPrev m p v) q = prev m q
  prev_setNext : ∀ m p v, prev (setNext m p v) p = prev m p
  prev_setNext_of : ∀ m {p q} v, apart p q → prev (setNext m p v) q = prev m q

/-- The two ends of a list. -/
structure Ends (P : Type) where
  head : P
  tail : P

variable {M P : Type} [DecidableEq P] (A : LinkField M P)

/-! ## 1. The pointer programs -/

/-- Append the object `t`. -/
def pushBack (m : M) (l : Ends P) (t : P) : M × Ends P :=
  let m := A.setPrev (A.setNext m t A.null) t l.tail
  if l.head = A.null then (m, ⟨t, t⟩) else (A.setNext m l.tail t, ⟨l.head, t⟩)

/-- Unlink the object `t`. The links of `t` are read again after the first write. -/
def erase (m : M) (l : Ends P) (t : P) : M × Ends P :=
  let r := if A.prev m t ≠ A.null then (A.setNext m (A.prev m t) (A.next m t), l)
    else (m, { l with head := A.next m t })
  if A.next r.1 t ≠ A.null then (A.setPrev r.1 (A.next r.1 t) (A.prev r.1 t), r.2)
  else (r.1, { r.2 with tail := A.prev r.1 t })

/-- Let the neighbours of `t` name `t'`, which has its links already. -/
def takePlace (m : M) (l : Ends P) (t t' : P) : M × Ends P :=
  let r := if A.prev m t ≠ A.null then (A.setNext m (A.prev m t) t', l) else (m, { l with head := t' })
  if A.next r.1 t ≠ A.null then (A.setPrev r.1 (A.next r.1 t) t', r.2)
  else (r.1, { r.2 with tail := t' })

/-- The forward scan for `t` from `a` on; `none` when `fuel` does not reach the end. -/
def scanFor (m : M) (t : P) : (fuel : Nat) → (a : P) → Option Bool
  | 0, _ => none
  | fuel + 1, a =>
      if a = A.null then some false
      else if a = t then some true
      else scanFor m t fuel (A.next m a)

/-- Unlink `t` if the forward scan meets it. -/
def erasePtr (fuel : Nat) (m : M) (l : Ends P) (t : P) : Option (M × Ends P) :=
  (scanFor A m t fuel l.head).map fun found => if found then erase A m l t else (m, l)

theorem scanFor_steady (m : M) (t a : P) : Steady fun n => scanFor A m t n a := by
  intro n
  show ∀ r, scanFor A m t n a = some r → scanFor A m t (n + 1) a = some r
  induction n generalizing a with
  | zero => intro r h; simp [scanFor] at h
  | succ n ih =>
      intro r h
      unfold scanFor at h ⊢
      split_ifs at h ⊢ <;> first | exact h | exact ih _ r h

theorem erasePtr_steady (m : M) (l : Ends P) (t : P) : Steady fun n => erasePtr A n m l t := by
  intro n r h
  obtain ⟨b, hb, hr⟩ := Option.map_eq_some_iff.mp h
  exact Option.map_eq_some_iff.mpr ⟨b, scanFor_steady A m t l.head n b hb, hr⟩

/-! ## 2. A list segment -/

/-- The objects `ps` are linked in this order, behind `p` and in front of `n`. -/
def Linked (m : M) : P → List P → P → Prop
  | _, [], _ => True
  | p, x :: xs, n => A.prev m x = p ∧ A.next m x = xs.headD n ∧ Linked m x xs n

omit [DecidableEq P] in
theorem linked_append (m : M) (p n : P) (xs ys : List P) :
    Linked A m p (xs ++ ys) n ↔
      Linked A m p xs (ys.headD n) ∧ Linked A m (xs.getLastD p) ys n := by
  induction xs generalizing p with
  | nil => simp [Linked]
  | cons x xs ih =>
      simp only [List.cons_append, Linked, ih]
      have h1 : (xs ++ ys).headD n = xs.headD (ys.headD n) := by cases xs <;> rfl
      have h2 : (x :: xs).getLastD p = xs.getLastD x := by cases xs <;> rfl
      rw [h1, h2]
      tauto

omit [DecidableEq P] in
/-- A segment is read from the links of its own objects. -/
theorem linked_congr {m m' : M} {p n : P} {xs : List P}
    (h : ∀ x ∈ xs, A.prev m' x = A.prev m x ∧ A.next m' x = A.next m x)
    (hL : Linked A m p xs n) : Linked A m' p xs n := by
  induction xs generalizing p with
  | nil => trivial
  | cons x xs ih =>
      obtain ⟨h1, h2, h3⟩ := hL
      obtain ⟨hp, hn⟩ := h x List.mem_cons_self
      exact ⟨hp.trans h1, hn.trans h2, ih (fun y hy => h y (List.mem_cons_of_mem _ hy)) h3⟩

omit [DecidableEq P] in
/-- Redirecting the last object of a segment moves what the segment stands in front of. -/
theorem linked_setNext_last {m : M} {p n v : P} {xs : List P} {z : P}
    (hap : ∀ x ∈ xs, A.apart z x) (hL : Linked A m p (xs ++ [z]) n) :
    Linked A (A.setNext m z v) p (xs ++ [z]) v := by
  rw [linked_append] at hL ⊢
  obtain ⟨h1, h2, h3, -⟩ := hL
  refine ⟨linked_congr A (fun x hx => ?_) h1, ?_, A.next_setNext m z v, trivial⟩
  · exact ⟨A.prev_setNext_of m v (hap x hx), A.next_setNext_of m v (hap x hx)⟩
  · rw [A.prev_setNext]; exact h2

omit [DecidableEq P] in
/-- Redirecting the first object of a segment moves what the segment stands behind. -/
theorem linked_setPrev_first {m : M} {p n v : P} {x : P} {xs : List P}
    (hap : ∀ y ∈ xs, A.apart x y) (hL : Linked A m p (x :: xs) n) :
    Linked A (A.setPrev m x v) v (x :: xs) n := by
  obtain ⟨-, h2, h3⟩ := hL
  refine ⟨A.prev_setPrev m x v, by rw [A.next_setPrev]; exact h2, linked_congr A (fun y hy => ?_) h3⟩
  exact ⟨A.prev_setPrev_of m v (hap y hy), A.next_setPrev_of m v (hap y hy)⟩

omit [DecidableEq P] in
/-- A link of an object apart from a whole segment does not matter to it. -/
theorem linked_setNext_of {m : M} {p n t v : P} {xs : List P} (hap : ∀ x ∈ xs, A.apart t x)
    (hL : Linked A m p xs n) : Linked A (A.setNext m t v) p xs n :=
  linked_congr A (fun x hx =>
    ⟨A.prev_setNext_of m v (hap x hx), A.next_setNext_of m v (hap x hx)⟩) hL

omit [DecidableEq P] in
theorem linked_setPrev_of {m : M} {p n t v : P} {xs : List P} (hap : ∀ x ∈ xs, A.apart t x)
    (hL : Linked A m p xs n) : Linked A (A.setPrev m t v) p xs n :=
  linked_congr A (fun x hx =>
    ⟨A.prev_setPrev_of m v (hap x hx), A.next_setPrev_of m v (hap x hx)⟩) hL

/-! ## 3. The whole list -/

/-- The list with ends `l` is the sequence `ps` of pairwise apart objects. -/
structure Rep (m : M) (l : Ends P) (ps : List P) : Prop where
  linked : Linked A m A.null ps A.null
  head : l.head = ps.headD A.null
  tail : l.tail = ps.getLastD A.null
  notNull : ∀ p ∈ ps, p ≠ A.null
  apart : ps.Pairwise A.apart

section Rules

variable {A} {m : M} {l : Ends P} {ps : List P} {t : P}

omit [DecidableEq P] in
theorem rep_nil (m : M) : Rep A m ⟨A.null, A.null⟩ [] :=
  ⟨trivial, rfl, rfl, fun _ h => absurd h List.not_mem_nil, .nil⟩

omit [DecidableEq P] in
theorem linked_unique {p p' : P} {xs ys : List P} (hx : Linked A m p xs A.null)
    (hy : Linked A m p' ys A.null) (hnx : ∀ x ∈ xs, x ≠ A.null) (hny : ∀ y ∈ ys, y ≠ A.null)
    (hh : xs.headD A.null = ys.headD A.null) : xs = ys := by
  induction xs generalizing p p' ys with
  | nil =>
      cases ys with
      | nil => rfl
      | cons y ys => exact absurd hh.symm (hny y List.mem_cons_self)
  | cons x xs ih =>
      cases ys with
      | nil => exact absurd hh (hnx x List.mem_cons_self)
      | cons y ys =>
          obtain rfl : x = y := hh
          have := ih hx.2.2 hy.2.2 (fun z hz => hnx z (List.mem_cons_of_mem _ hz))
            (fun z hz => hny z (List.mem_cons_of_mem _ hz)) (hx.2.1.symm.trans hy.2.1)
          rw [this]

omit [DecidableEq P] in
/-- The links determine the sequence. -/
theorem Rep.unique {qs : List P} (h : Rep A m l ps) (h' : Rep A m l qs) : ps = qs :=
  linked_unique h.linked h'.linked h.notNull h'.notNull (h.head.symm.trans h'.head)

omit [DecidableEq P] in
theorem Rep.nodup (h : Rep A m l ps) : ps.Nodup :=
  h.apart.imp (S := (· ≠ ·)) fun {a b} hap e => A.apart_irrefl a (by rw [← e] at hap; exact hap)

omit [DecidableEq P] in
/-- The representation is read from the links of its own elements. -/
theorem Rep.congr {m' : M} (h : Rep A m l ps)
    (he : ∀ x ∈ ps, A.prev m' x = A.prev m x ∧ A.next m' x = A.next m x) : Rep A m' l ps :=
  ⟨linked_congr A he h.linked, h.head, h.tail, h.notNull, h.apart⟩

/-- **Appending an object that is apart from the elements.** -/
theorem pushBack_rep (h : Rep A m l ps) (ht : t ≠ A.null) (hap : ∀ p ∈ ps, A.apart t p) :
    Rep A (pushBack A m l t).1 (pushBack A m l t).2 (ps ++ [t]) := by
  have hpw : (ps ++ [t]).Pairwise A.apart := by
    rw [List.pairwise_append]
    refine ⟨h.apart, List.pairwise_singleton _ _, fun p hp q hq => ?_⟩
    rw [List.mem_singleton.mp hq]
    exact A.apart_symm (hap p hp)
  have hnn : ∀ p ∈ ps ++ [t], p ≠ A.null := by
    intro p hp
    rcases List.mem_append.mp hp with hp | hp
    · exact h.notNull p hp
    · rw [List.mem_singleton.mp hp]; exact ht
  -- the memory after the two writes to `t` itself
  have hold : Linked A (A.setPrev (A.setNext m t A.null) t l.tail) A.null ps A.null :=
    linked_setPrev_of A hap (linked_setNext_of A hap h.linked)
  have hnx : A.next (A.setPrev (A.setNext m t A.null) t l.tail) t = A.null := by
    rw [A.next_setPrev, A.next_setNext]
  have hpv : A.prev (A.setPrev (A.setNext m t A.null) t l.tail) t = ps.getLastD A.null := by
    rw [A.prev_setPrev, h.tail]
  rcases List.eq_nil_or_concat ps with rfl | ⟨xs, z, rfl⟩
  · have hh : l.head = A.null := h.head
    simp only [pushBack, hh, if_true]
    exact ⟨⟨hpv, hnx, trivial⟩, rfl, rfl, hnn, hpw⟩
  · have hz : l.tail = z := by rw [h.tail]; simp
    have hh : l.head ≠ A.null := by
      rw [h.head]
      cases xs with
      | nil => exact h.notNull z (by simp)
      | cons x xs => exact h.notNull x (by simp)
    have hzx : ∀ x ∈ xs, A.apart z x := by
      intro x hx
      have := h.apart
      rw [List.concat_eq_append, List.pairwise_append] at this
      exact A.apart_symm (this.2.2 x hx z (by simp))
    have hzt : A.apart z t := A.apart_symm (hap z (by simp))
    simp only [pushBack, hh, if_false]
    rw [hz] at hold hnx hpv ⊢
    simp only [List.concat_eq_append] at *
    refine ⟨?_, ?_, by simp, hnn, hpw⟩
    · rw [linked_append]
      refine ⟨linked_setNext_last A hzx hold, ?_, ?_, trivial⟩
      · rw [A.prev_setNext_of _ _ hzt, hpv]
      · rw [A.next_setNext_of _ _ hzt, hnx]; rfl
    · rw [h.head]
      cases xs <;> rfl

/-- **Unlinking an element.** -/
theorem erase_rep_split {xs ys : List P} (h : Rep A m l (xs ++ t :: ys)) :
    Rep A (erase A m l t).1 (erase A m l t).2 (xs ++ ys) := by
  have hpw := h.apart
  rw [List.pairwise_append, List.pairwise_cons] at hpw
  obtain ⟨hxs, ⟨hty, hys⟩, hxty⟩ := hpw
  have hxy : ∀ x ∈ xs, ∀ y ∈ ys, A.apart x y := fun x hx y hy =>
    hxty x hx y (List.mem_cons_of_mem _ hy)
  have hxt : ∀ x ∈ xs, A.apart x t := fun x hx => hxty x hx t List.mem_cons_self
  have hL := h.linked
  rw [linked_append] at hL
  obtain ⟨hLx, hpv, hnx, hLy⟩ := hL
  -- the first write: the predecessor of `t` now stands in front of `ys`
  obtain ⟨m1, l1, hr, hLx1, hLy1, hpv1, hnx1, hh1, ht1⟩ :
      ∃ m1 l1, (if A.prev m t ≠ A.null then (A.setNext m (A.prev m t) (A.next m t), l)
          else (m, { l with head := A.next m t })) = (m1, l1) ∧
        Linked A m1 A.null xs (ys.headD A.null) ∧ Linked A m1 t ys A.null ∧
        A.prev m1 t = xs.getLastD A.null ∧ A.next m1 t = ys.headD A.null ∧
        l1.head = (xs ++ ys).headD A.null ∧ l1.tail = (xs ++ t :: ys).getLastD A.null := by
    rcases List.eq_nil_or_concat xs with rfl | ⟨zs, z, rfl⟩
    · rw [if_neg (by rw [hpv]; simp)]
      exact ⟨_, _, rfl, trivial, hLy, hpv, hnx, by simpa using hnx, h.tail⟩
    · have hzn : z ≠ A.null := h.notNull z (by simp)
      have hz : A.prev m t = z := by rw [hpv]; simp
      simp only [List.concat_eq_append] at *
      rw [if_pos (by rw [hz]; exact hzn), hz, hnx]
      have hzz : ∀ x ∈ zs, A.apart z x := fun x hx => by
        rw [List.pairwise_append] at hxs
        exact A.apart_symm (hxs.2.2 x hx z (by simp))
      refine ⟨_, _, rfl, linked_setNext_last A hzz hLx, ?_, ?_, ?_, ?_, h.tail⟩
      · exact linked_setNext_of A (fun y hy => hxy z (by simp) y hy) hLy
      · rw [A.prev_setNext_of _ _ (hxt z (by simp)), hpv]
      · rw [A.next_setNext_of _ _ (hxt z (by simp)), hnx]
      · rw [h.head]; cases zs <;> rfl
  have hnn : ∀ p ∈ xs ++ ys, p ≠ A.null := fun p hp => h.notNull p (by
    rcases List.mem_append.mp hp with hp | hp
    · exact List.mem_append_left _ hp
    · exact List.mem_append_right _ (List.mem_cons_of_mem _ hp))
  have hpw' : (xs ++ ys).Pairwise A.apart := List.pairwise_append.mpr ⟨hxs, hys, hxy⟩
  -- the second write: the successor of `t` now stands behind `xs`
  unfold erase
  rw [hr]
  dsimp only
  rw [hnx1, hpv1]
  cases ys with
  | nil =>
      rw [if_neg (by simp)]
      exact ⟨by simpa using hLx1, hh1, by simp, hnn, hpw'⟩
  | cons y ys =>
      have hy : (y :: ys).headD A.null ≠ A.null := h.notNull y (by simp)
      rw [if_pos hy]
      refine ⟨?_, hh1, ?_, hnn, hpw'⟩
      · rw [linked_append]
        refine ⟨linked_setPrev_of A (fun x hx => A.apart_symm (hxy x hx y List.mem_cons_self)) hLx1, ?_⟩
        exact linked_setPrev_first A (List.pairwise_cons.mp hys).1 hLy1
      · rw [ht1]; simp [List.getLastD_eq_getLast?]

theorem erase_rep (h : Rep A m l ps) (ht : t ∈ ps) :
    Rep A (erase A m l t).1 (erase A m l t).2 (ps.erase t) := by
  obtain ⟨xs, ys, rfl⟩ := List.append_of_mem ht
  have hx : t ∉ xs := by
    have := h.nodup
    rw [List.nodup_append] at this
    exact fun hx => this.2.2 t hx t List.mem_cons_self rfl
  rw [List.erase_append_right _ hx, List.erase_cons_head]
  exact erase_rep_split h

/-- **Putting `t'` in the place of an element.** -/
theorem takePlace_rep {xs ys : List P} {t' : P} (h : Rep A m l (xs ++ t :: ys)) (hn : t' ≠ A.null)
    (hap : ∀ p ∈ xs ++ ys, A.apart t' p) (hpv' : A.prev m t' = A.prev m t)
    (hnx' : A.next m t' = A.next m t) :
    Rep A (takePlace A m l t t').1 (takePlace A m l t t').2 (xs ++ t' :: ys) := by
  have hpw := h.apart
  rw [List.pairwise_append, List.pairwise_cons] at hpw
  obtain ⟨hxs, ⟨hty, hys⟩, hxty⟩ := hpw
  have hxy : ∀ x ∈ xs, ∀ y ∈ ys, A.apart x y := fun x hx y hy =>
    hxty x hx y (List.mem_cons_of_mem _ hy)
  have hxt : ∀ x ∈ xs, A.apart x t := fun x hx => hxty x hx t List.mem_cons_self
  have hxt' : ∀ x ∈ xs, A.apart x t' := fun x hx => A.apart_symm (hap x (List.mem_append_left _ hx))
  have hyt' : ∀ y ∈ ys, A.apart y t' := fun y hy => A.apart_symm (hap y (List.mem_append_right _ hy))
  have hL := h.linked
  rw [linked_append] at hL
  obtain ⟨hLx, hpv, hnx, hLy⟩ := hL
  -- the first write: the predecessor now stands in front of `t'`
  obtain ⟨m1, l1, hr, hLx1, hLy1, hpv1, hnx1, hnx2, hh1, ht1⟩ :
      ∃ m1 l1, (if A.prev m t ≠ A.null then (A.setNext m (A.prev m t) t', l)
          else (m, { l with head := t' })) = (m1, l1) ∧
        Linked A m1 A.null xs t' ∧ Linked A m1 t ys A.null ∧
        A.prev m1 t' = xs.getLastD A.null ∧ A.next m1 t' = ys.headD A.null ∧
        A.next m1 t = ys.headD A.null ∧ l1.head = (xs ++ t' :: ys).headD A.null ∧
        l1.tail = (xs ++ t :: ys).getLastD A.null := by
    rcases List.eq_nil_or_concat xs with rfl | ⟨zs, z, rfl⟩
    · rw [if_neg (by rw [hpv]; simp)]
      exact ⟨_, _, rfl, trivial, hLy, hpv'.trans hpv, hnx'.trans hnx, hnx, rfl, h.tail⟩
    · have hzn : z ≠ A.null := h.notNull z (by simp)
      have hz : A.prev m t = z := by rw [hpv]; simp
      simp only [List.concat_eq_append] at *
      rw [if_pos (by rw [hz]; exact hzn), hz]
      have hzz : ∀ x ∈ zs, A.apart z x := fun x hx => by
        rw [List.pairwise_append] at hxs
        exact A.apart_symm (hxs.2.2 x hx z (by simp))
      refine ⟨_, _, rfl, linked_setNext_last A hzz hLx, ?_, ?_, ?_, ?_, ?_, h.tail⟩
      · exact linked_setNext_of A (fun y hy => hxy z (by simp) y hy) hLy
      · rw [A.prev_setNext_of _ _ (hxt' z (by simp)), hpv', hpv]
      · rw [A.next_setNext_of _ _ (hxt' z (by simp)), hnx', hnx]
      · rw [A.next_setNext_of _ _ (hxt z (by simp)), hnx]
      · rw [h.head]; cases zs <;> rfl
  have hnn : ∀ p ∈ xs ++ t' :: ys, p ≠ A.null := fun p hp => by
    rcases List.mem_append.mp hp with hp | hp
    · exact h.notNull p (List.mem_append_left _ hp)
    · rcases List.mem_cons.mp hp with rfl | hp
      · exact hn
      · exact h.notNull p (List.mem_append_right _ (List.mem_cons_of_mem _ hp))
  have hpw' : (xs ++ t' :: ys).Pairwise A.apart := by
    refine List.pairwise_append.mpr ⟨hxs, List.pairwise_cons.mpr ⟨?_, hys⟩, fun x hx y hy => ?_⟩
    · exact fun y hy => hap y (List.mem_append_right _ hy)
    · rcases List.mem_cons.mp hy with rfl | hy
      · exact hxt' x hx
      · exact hxy x hx y hy
  -- the second write: the successor now stands behind `t'`
  unfold takePlace
  rw [hr]
  dsimp only
  rw [hnx2]
  cases ys with
  | nil =>
      rw [if_neg (by simp)]
      refine ⟨?_, hh1, by simp, hnn, hpw'⟩
      rw [linked_append]
      exact ⟨hLx1, hpv1, hnx1, trivial⟩
  | cons y ys =>
      have hy : (y :: ys).headD A.null ≠ A.null := h.notNull y (by simp)
      rw [if_pos hy]
      refine ⟨?_, hh1, ?_, hnn, hpw'⟩
      · rw [linked_append]
        refine ⟨linked_setPrev_of A (fun x hx => A.apart_symm (hxy x hx y List.mem_cons_self)) hLx1, ?_, ?_,
          linked_setPrev_first A (List.pairwise_cons.mp hys).1 hLy1⟩
        · exact (A.prev_setPrev_of m1 _ (hyt' y List.mem_cons_self)).trans hpv1
        · exact (A.next_setPrev_of m1 _ (hyt' y List.mem_cons_self)).trans hnx1
      · rw [ht1]; simp [List.getLastD_eq_getLast?]

/-- The scan sees exactly the elements, given fuel past the length of the list. -/
theorem scanFor_linked {p : P} {xs : List P} (hL : Linked A m p xs A.null)
    (hn : ∀ x ∈ xs, x ≠ A.null) {fuel : Nat} (hf : xs.length < fuel) :
    scanFor A m t fuel (xs.headD A.null) = some (decide (t ∈ xs)) := by
  induction xs generalizing p fuel with
  | nil =>
      obtain ⟨f, rfl⟩ : ∃ f, fuel = f + 1 := ⟨fuel - 1, by simp at hf; omega⟩
      simp [scanFor]
  | cons x xs ih =>
      obtain ⟨f, rfl⟩ : ∃ f, fuel = f + 1 := ⟨fuel - 1, by simp at hf; omega⟩
      obtain ⟨-, h2, h3⟩ := hL
      show (if x = A.null then some false else if x = t then some true
        else scanFor A m t f (A.next m x)) = _
      rw [if_neg (hn x List.mem_cons_self)]
      by_cases hx : x = t
      · simp [hx]
      · rw [if_neg hx, h2, ih h3 (fun y hy => hn y (List.mem_cons_of_mem _ hy))
          (by simpa using hf)]
        simp [Ne.symm hx]

/-- **`erasePtr` of an element** unlinks it. -/
theorem erasePtr_mem (h : Rep A m l ps) (ht : t ∈ ps) {fuel : Nat} (hf : ps.length < fuel) :
    erasePtr A fuel m l t = some (erase A m l t) := by
  unfold erasePtr
  rw [h.head, scanFor_linked h.linked h.notNull hf]
  simp [ht]

omit [DecidableEq P] in
/-- The neighbours an element's links name are elements. -/
theorem Rep.neighbours (h : Rep A m l ps) (ht : t ∈ ps) :
    (A.prev m t ≠ A.null → A.prev m t ∈ ps ∧ A.apart (A.prev m t) t) ∧
      (A.next m t ≠ A.null → A.next m t ∈ ps) := by
  obtain ⟨xs, ys, rfl⟩ := List.append_of_mem ht
  have hL := h.linked
  rw [linked_append] at hL
  obtain ⟨-, hpv, hnx, -⟩ := hL
  refine ⟨fun hne => ?_, fun hne => ?_⟩
  · rw [hpv] at hne ⊢
    rcases List.eq_nil_or_concat xs with rfl | ⟨zs, z, rfl⟩
    · exact absurd rfl hne
    · have hpw := h.apart
      rw [List.pairwise_append] at hpw
      have hz : (zs.concat z).getLastD A.null = z := by simp
      rw [hz]
      exact ⟨by simp, hpw.2.2 z (by simp) t List.mem_cons_self⟩
  · rw [hnx] at hne ⊢
    cases ys with
    | nil => exact absurd rfl hne
    | cons y ys => simp

/-! ## 4. What an operation leaves alone -/

/-- Appending `t` touches the links of `t` and of the elements only. -/
theorem pushBack_frame {β : Type} (h : Rep A m l ps) (f : M → β)
    (hN : ∀ m v, ∀ p ∈ t :: ps, f (A.setNext m p v) = f m)
    (hP : ∀ m v, ∀ p ∈ t :: ps, f (A.setPrev m p v) = f m) : f (pushBack A m l t).1 = f m := by
  have h0 : f (A.setPrev (A.setNext m t A.null) t l.tail) = f m := by
    rw [hP _ _ t List.mem_cons_self, hN _ _ t List.mem_cons_self]
  unfold pushBack
  dsimp only
  split_ifs with hh
  · exact h0
  · have hl : l.tail ∈ ps := by
      rw [h.tail]
      rw [h.head] at hh
      cases ps with
      | nil => exact absurd rfl hh
      | cons x xs => simp [List.getLastD_eq_getLast?, List.getLast?_eq_getLast_of_ne_nil]
    rw [hN _ _ _ (List.mem_cons_of_mem _ hl)]
    exact h0

/-- Unlinking an element touches the links of the elements only. -/
theorem erase_frame {β : Type} (h : Rep A m l ps) (ht : t ∈ ps) (f : M → β)
    (hN : ∀ m v, ∀ p ∈ ps, f (A.setNext m p v) = f m)
    (hP : ∀ m v, ∀ p ∈ ps, f (A.setPrev m p v) = f m) : f (erase A m l t).1 = f m := by
  obtain ⟨hpv, hnx⟩ := h.neighbours ht
  unfold erase
  dsimp only
  by_cases h1 : A.prev m t = A.null
  · simp only [h1, ne_eq, not_true, if_false]
    split_ifs with h2
    · rfl
    · exact hP _ _ _ (hnx h2)
  · obtain ⟨hm, hap⟩ := hpv h1
    simp only [h1, ne_eq, not_false_iff, if_true, A.next_setNext_of _ _ hap]
    split_ifs with h2
    · exact hN _ _ _ hm
    · rw [hP _ _ _ (hnx h2)]
      exact hN _ _ _ hm

/-- Taking the place of an element touches the links of the elements only. -/
theorem takePlace_frame {β : Type} {t' : P} (h : Rep A m l ps) (ht : t ∈ ps) (f : M → β)
    (hN : ∀ m v, ∀ p ∈ ps, f (A.setNext m p v) = f m)
    (hP : ∀ m v, ∀ p ∈ ps, f (A.setPrev m p v) = f m) : f (takePlace A m l t t').1 = f m := by
  obtain ⟨hpv, hnx⟩ := h.neighbours ht
  unfold takePlace
  dsimp only
  by_cases h1 : A.prev m t = A.null
  · simp only [h1, ne_eq, not_true, if_false]
    split_ifs with h2
    · rfl
    · exact hP _ _ _ (hnx h2)
  · obtain ⟨hm, hap⟩ := hpv h1
    simp only [h1, ne_eq, not_false_iff, if_true, A.next_setNext_of _ _ hap]
    split_ifs with h2
    · exact hN _ _ _ hm
    · rw [hP _ _ _ (hnx h2)]
      exact hN _ _ _ hm

/-- **`erasePtr` of an object that is no element** changes nothing. -/
theorem erasePtr_not_mem (h : Rep A m l ps) (ht : t ∉ ps) {fuel : Nat} (hf : ps.length < fuel) :
    erasePtr A fuel m l t = some (m, l) := by
  unfold erasePtr
  rw [h.head, scanFor_linked h.linked h.notNull hf]
  simp [ht]

/-! ## 5. Traversals -/

/-- The objects met from `a` on, one link after the other, up to the null pointer. -/
def traverse (null : P) (link : P → P) : (fuel : Nat) → (a : P) → Option (List P)
  | 0, _ => none
  | fuel + 1, a => if a = null then some [] else (traverse null link fuel (link a)).map (a :: ·)

theorem traverse_next_linked {p : P} {xs : List P} (hL : Linked A m p xs A.null) (hn : ∀ x ∈ xs, x ≠ A.null)
    {fuel : Nat} (hf : xs.length < fuel) : traverse A.null (A.next m) fuel (xs.headD A.null) = some xs := by
  induction xs generalizing p fuel with
  | nil =>
      obtain ⟨f, rfl⟩ : ∃ f, fuel = f + 1 := ⟨fuel - 1, by simp at hf; omega⟩
      exact if_pos rfl
  | cons x xs ih =>
      obtain ⟨f, rfl⟩ : ∃ f, fuel = f + 1 := ⟨fuel - 1, by simp at hf; omega⟩
      obtain ⟨-, h2, h3⟩ := hL
      have hrest := ih h3 (fun y hy => hn y (List.mem_cons_of_mem _ hy)) (Nat.lt_of_succ_lt_succ hf)
      refine (if_neg (hn x List.mem_cons_self)).trans ?_
      rw [List.headD_cons, h2, hrest]
      rfl

theorem traverse_prev_linked {n : P} {xs : List P} (hL : Linked A m A.null xs n) (hn : ∀ x ∈ xs, x ≠ A.null)
    {fuel : Nat} (hf : xs.length < fuel) : traverse A.null (A.prev m) fuel (xs.getLastD A.null) = some xs.reverse := by
  induction xs using List.reverseRecOn generalizing n fuel with
  | nil =>
      obtain ⟨f, rfl⟩ : ∃ f, fuel = f + 1 := ⟨fuel - 1, by simp at hf; omega⟩
      exact if_pos rfl
  | append_singleton xs z ih =>
      obtain ⟨f, rfl⟩ : ∃ f, fuel = f + 1 := ⟨fuel - 1, by simp at hf; omega⟩
      obtain ⟨h1, h2, -, -⟩ := (linked_append A m A.null n xs [z]).mp hL
      have hlast : (xs ++ [z]).getLastD A.null = z := by simp
      rw [List.length_append, List.length_singleton] at hf
      have hrest := ih h1 (fun y hy => hn y (List.mem_append_left _ hy)) (show xs.length < f by omega)
      rw [hlast, List.reverse_append]
      refine (if_neg (hn z (by simp))).trans ?_
      rw [h2, hrest]
      rfl

/-- **Forwards the traversal meets the sequence.** -/
theorem Rep.traverse_next (h : Rep A m l ps) : Halts (fun fuel => traverse A.null (A.next m) fuel l.head) ps :=
  ⟨ps.length + 1, fun _ hf => h.head ▸ traverse_next_linked h.linked h.notNull hf⟩

/-- **Backwards, its reverse.** -/
theorem Rep.traverse_prev (h : Rep A m l ps) : Halts (fun fuel => traverse A.null (A.prev m) fuel l.tail) ps.reverse :=
  ⟨ps.length + 1, fun _ hf => h.tail ▸ traverse_prev_linked h.linked h.notNull hf⟩

omit [DecidableEq P] in
/-- The ends are null exactly in the empty list. -/
theorem Rep.ends_null (h : Rep A m l ps) : (l.head = A.null ↔ ps = []) ∧ (l.tail = A.null ↔ ps = []) := by
  rcases List.eq_nil_or_concat ps with rfl | ⟨xs, z, rfl⟩
  · exact ⟨iff_of_true h.head rfl, iff_of_true h.tail rfl⟩
  · have hz : l.tail = z := by rw [h.tail]; simp
    have hne : xs.concat z ≠ [] := by simp
    refine ⟨iff_of_false ?_ hne, iff_of_false (hz ▸ h.notNull z (by simp)) hne⟩
    rw [h.head]
    cases xs with
    | nil => exact h.notNull z (by simp)
    | cons x xs => exact h.notNull x (by simp)

end Rules

end SimpleOS2.Lib
