/-
  File:      SimpleOS2/Libsimpleos2/FreeList.lean
  Subject:   THE FREE LIST OF USER PROGRAMS (libsimpleos2/internal/FreeList.h).

  The node has the fields of the kernel's list node (Ktl/FreeList.lean) and the scans read alike. What
  differs: nodes are appended and unlinked by hand, without looking them up first, and `MarkUsed` puts
  the remainder of a segment in the place of its node instead of appending it.

  * `addNode`, `joinAdjacent`, `markFree`, `markUsed` -- the operations;
  * `addNode_eq`, `joinAdjacent_eq` -- on a well-formed list they do what the kernel's do;
  * `markFree_spec`, `markUsed_spec` -- what the operations leave behind.
-/
import SimpleOS2.Ktl.FreeList

namespace SimpleOS2

open Lib FreeList

namespace UserFreeList

/-! ## 1. The operations -/

/-- `RemoveNode`. -/
def removeNode (m : Mem) (l : Ends Nat) (node : Nat) : Mem × Ends Nat := erase anchor m l node

/-- `AddNode`. -/
def addNode (m : Mem) (l : Ends Nat) (node : Nat) : Mem × Ends Nat :=
  if l.head = 0 then (anchor.setNext (anchor.setPrev m node 0) node 0, ⟨node, node⟩)
  else
    let m := anchor.setNext m l.tail node
    let m := anchor.setPrev m node l.tail
    (anchor.setNext m node 0, ⟨l.head, node⟩)

/-- `dst->seg.size += src->seg.size; RemoveNode(src);` -/
def absorb (m : Mem) (l : Ends Nat) (dst src : Nat) : Mem × Ends Nat :=
  removeNode (setSize m dst (u64 (size m dst + size m src))) l src

/-- `JoinAdjacent`. -/
def joinAdjacent : (fuel : Nat) → Mem → Ends Nat → (cmp : Nat) → Option (Mem × Ends Nat)
  | 0, _, _, _ => none
  | fuel + 1, m, l, cmp =>
      (touching m cmp (base m cmp) (u64 (base m cmp + size m cmp)) (fuel + 1) l.head).bind fun
        | none => some (m, l)
        | some (dst, src) => joinAdjacent fuel (absorb m l dst src).1 (absorb m l dst src).2 dst

/-- `MarkFree`. -/
def markFree (fuel : Nat) (m : Mem) (l : Ends Nat) (b n : Nat) : Option (Mem × Ends Nat) :=
  let r := addNode (setSegment m b b n) l b
  joinAdjacent fuel r.1 r.2 b

/-- The node of the remainder in `MarkUsed`. -/
def newNode (m : Mem) (b n : Nat) : Mem :=
  let m := anchor.setNext m (b + n) (anchor.next m b)
  let m := anchor.setPrev m (b + n) (anchor.prev m b)
  setSegment m (b + n) (u64 (base m b + n)) (size m b - n)

/-- `MarkUsed`. -/
def markUsed (m : Mem) (l : Ends Nat) (b n : Nat) : Mem × Ends Nat :=
  if size m b > n then takePlace anchor (newNode m b n) l b (b + n) else removeNode m l b

theorem joinAdjacent_steady (m : Mem) (l : Ends Nat) (c : Nat) : Steady fun n => joinAdjacent n m l c := by
  intro n
  show ∀ r, joinAdjacent n m l c = some r → joinAdjacent (n + 1) m l c = some r
  induction n generalizing m l c with
  | zero => intro r h; simp [joinAdjacent] at h
  | succ n ih =>
      intro r h
      unfold joinAdjacent at h ⊢
      obtain ⟨t, ht, h⟩ := Option.bind_eq_some_iff.mp h
      refine Option.bind_eq_some_iff.mpr ⟨t, touching_steady _ _ _ _ _ _ _ ht, ?_⟩
      cases t with
      | none => exact h
      | some t => exact ih _ _ _ r h

theorem markFree_steady (m : Mem) (l : Ends Nat) (b n : Nat) : Steady fun k => markFree k m l b n :=
  joinAdjacent_steady _ _ _

section Spec

variable {u : Nat} {m : Mem} {l : Ends Nat} {ps : List Nat} {z : Nat → Nat}

/-! ## 2. What is as in the kernel -/

/-- **`AddNode`** writes the links in another order. -/
theorem addNode_eq (hR : Rep anchor m l ps) {t : Nat} (ht : ∀ p ∈ ps, t + 32 ≤ p ∨ p + 32 ≤ t) :
    addNode m l t = pushBack anchor m l t := by
  have hown : ∀ (m : Mem) (v w : Nat), Function.update (Function.update m t v) (t + 8) w =
      Function.update (Function.update m (t + 8) w) t v :=
    fun m v w => Function.update_comm (by omega) _ _ _
  have htail : l.tail = ps.getLastD 0 := hR.tail
  have hhead : l.head = ps.headD 0 := hR.head
  unfold addNode pushBack
  by_cases hh : l.head = 0
  · have hps : ps = [] := by
      cases ps with
      | nil => rfl
      | cons p ps => exact absurd (hhead.symm.trans hh) (hR.notNull p List.mem_cons_self)
    subst hps
    have htail : l.tail = 0 := htail
    rw [if_pos hh, if_pos (show l.head = anchor.null from hh), htail]
    exact congrArg (·, (⟨t, t⟩ : Ends Nat)) (hown m 0 0).symm
  · have hmem : l.tail ∈ ps := by
      cases ps with
      | nil => exact absurd hhead hh
      | cons p ps =>
          rw [htail]
          simp [List.getLastD_eq_getLast?, List.getLast?_eq_getLast_of_ne_nil]
    have hap := ht l.tail hmem
    have h1 : t ≠ l.tail := by omega
    have h2 : t + 8 ≠ l.tail := by omega
    rw [if_neg hh, if_neg (show ¬ l.head = anchor.null from hh)]
    refine congrArg (·, (⟨l.head, t⟩ : Ends Nat)) ?_
    show Function.update (Function.update (Function.update m l.tail t) (t + 8) l.tail) t 0 =
      Function.update (Function.update (Function.update m t 0) (t + 8) l.tail) l.tail t
    rw [hown m 0 l.tail, Function.update_comm h1, Function.update_comm h2]

/-- **`JoinAdjacent`** unlinks elements of the list only, so that it need not look them up. -/
theorem joinAdjacent_eq (hu : 32 ≤ u) {fuel : Nat} {c : Nat} (hF : Free m l ps z) (hG : Geo u ps z)
    (hc : c ∈ ps) (hf : ps.length < fuel) :
    joinAdjacent fuel m l c = FreeList.joinAdjacent fuel m l c := by
  induction fuel generalizing m l ps z c with
  | zero => rfl
  | succ fuel ih =>
      have hstart : base m c = c := hF.base c hc
      have hstop : u64 (base m c + size m c) = c + z c := by
        rw [hstart, hF.size c hc, u64_of_lt (hG.bound c hc)]
      have hnd := hF.rep.nodup
      obtain ⟨r, hr, hcase⟩ :=
        touching_spec c c (c + z c) hF.rep.linked hF.rep.notNull hF.base hF.size hG.bound hf
      have hhead : l.head = ps.headD 0 := hF.rep.head
      unfold joinAdjacent FreeList.joinAdjacent
      rw [hstop, hstart, hhead, hr]
      -- one absorption, then the recursive call
      have step : ∀ dst src, dst ∈ ps → src ∈ ps → src = dst + z dst →
          joinAdjacent fuel (absorb m l dst src).1 (absorb m l dst src).2 dst =
            (FreeList.absorb (fuel + 1) m l dst src).bind fun r =>
              FreeList.joinAdjacent fuel r.1 r.2 dst := by
        intro dst src hd hs hadj
        have hne : dst ≠ src := by have := (hG.pos dst hd).2; omega
        obtain ⟨m1, l1, he, hF1, -⟩ := absorb_spec hu hF hG hd hs hadj hf
        have hlen : (ps.erase src).length < fuel := by
          rw [List.length_erase_of_mem hs]
          have := List.length_pos_of_mem hs
          omega
        have hab : FreeList.absorb (fuel + 1) m l dst src = some (absorb m l dst src) :=
          erasePtr_mem (free_setSize hF hd _).rep hs hf
        obtain ⟨r1, hr1⟩ : ∃ r1, absorb m l dst src = r1 := ⟨_, rfl⟩
        rw [hr1] at hab ⊢
        rw [hab] at he ⊢
        obtain rfl := Option.some.inj he
        rw [Option.bind_some]
        exact ih hF1 (absorb_geo hnd hG hd hs hadj) (hnd.mem_erase_iff.mpr ⟨hne, hd⟩) hlen
      rcases hcase with ⟨rfl, -⟩ | ⟨t, ht, rfl, hstop'⟩ | ⟨t, ht, rfl, hstart'⟩
      · rfl
      · exact step c t hc ht hstop'
      · exact step t c ht hc hstart'.symm

/-- **`MarkFree`** of memory that is not free: afterwards it is, and nothing else is. -/
theorem markFree_spec (hu : 32 ≤ u) (hF : Free m l ps z) (hG : Geo u ps z) {b n : Nat}
    (hal : u ∣ b ∧ u ∣ n) (hb : 0 < b) (hn : 0 < n) (hlt : b + n < 2 ^ 64)
    (hdis : ∀ p ∈ ps, p + z p ≤ b ∨ b + n ≤ p) {fuel : Nat} (hf : ps.length + 1 < fuel) :
    ∃ r ps' z', markFree fuel m l b n = some r ∧
      Done u m (Apart ps z) (fun a => Cover ps z a ∨ b ≤ a ∧ a < b + n)
        (fun a => Cover ps z a ∨ b ≤ a ∧ a < b + n) r.1 r.2 ps' z' := by
  have hn32 : 32 ≤ n := le_trans hu (Nat.le_of_dvd hn hal.2)
  have hnew : b ∉ ps := fun h => by
    have := hdis b h
    have := (hG.pos b h).2
    omega
  have hap : ∀ p ∈ ps, b + 32 ≤ p ∨ p + 32 ≤ b := fun p hp => by
    have := hG.unit_le hp
    have := hdis p hp
    omega
  have hR : Rep anchor (setSegment m b b n) l ps := rep_congr hF.rep fun p hp => by
    have := hap p hp
    unfold setSegment setSize
    rw [Function.update_of_ne (by omega), Function.update_of_ne (by omega),
      Function.update_of_ne (by omega), Function.update_of_ne (by omega)]
    exact ⟨rfl, rfl⟩
  obtain ⟨hF', -⟩ := push_segment hu hF hG hb hn32 hdis
  have hlen : (ps ++ [b]).length < fuel := by simpa using hf
  obtain ⟨r, ps', z', hr, hD⟩ := FreeList.markFree_spec hu hF hG hal hb hn hlt hdis hf
  refine ⟨r, ps', z', ?_, hD⟩
  rw [← hr]
  unfold markFree FreeList.markFree
  rw [addNode_eq hR hap]
  exact joinAdjacent_eq hu hF' (geo_snoc hG hal hb hn hlt hnew hdis) (by simp) hlen

/-! ## 3. A remainder in the place of its segment -/

/-- The sizes when `n` bytes of the segment at `c` are gone: the remainder stands at `c + n`. -/
def cutSize (z : Nat → Nat) (c n : Nat) : Nat → Nat := Function.update z (c + n) (z c - n)

variable {xs ys : List Nat} {c n : Nat}

/-- What a segment of the list with a remainder is. -/
theorem mem_cut (hG : Geo u (xs ++ c :: ys) z) (hnd : (xs ++ c :: ys).Nodup) {p : Nat}
    (hp : p ∈ xs ++ (c + n) :: ys) :
    p = c + n ∧ cutSize z c n p = z c - n ∨
      p ∈ xs ++ c :: ys ∧ p ≠ c ∧ cutSize z c n p = z p ∧ (p + z p ≤ c ∨ c + z c ≤ p) := by
  have hc : c ∈ xs ++ c :: ys := by simp
  by_cases hpc : p = c + n
  · subst hpc
    exact Or.inl ⟨rfl, Function.update_self _ _ _⟩
  · have hpin : p ∈ xs ++ ys := by
      rcases List.mem_append.mp hp with hp | hp
      · exact List.mem_append_left _ hp
      · rcases List.mem_cons.mp hp with hp | hp
        · exact absurd hp hpc
        · exact List.mem_append_right _ hp
    have hne : p ≠ c := by
      intro hpc'
      subst hpc'
      rw [List.nodup_append, List.nodup_cons] at hnd
      obtain ⟨-, ⟨hy, -⟩, hx⟩ := hnd
      rcases List.mem_append.mp hpin with hp | hp
      · exact hx p hp p List.mem_cons_self rfl
      · exact hy hp
    have hpm : p ∈ xs ++ c :: ys := by
      rcases List.mem_append.mp hpin with hp | hp
      · exact List.mem_append_left _ hp
      · exact List.mem_append_right _ (List.mem_cons_of_mem c hp)
    exact Or.inr ⟨hpm, hne, Function.update_of_ne hpc _ _, hG.disjoint p hpm c hc hne⟩

theorem geo_cut (hG : Geo u (xs ++ c :: ys) z) (hnd : (xs ++ c :: ys).Nodup) (hal : u ∣ n) (hn : 0 < n)
    (hlt : n < z c) : Geo u (xs ++ (c + n) :: ys) (cutSize z c n) := by
  have hc : c ∈ xs ++ c :: ys := by simp
  obtain ⟨hc1, hc2⟩ := hG.aligned c hc
  have hc3 := hG.bound c hc
  constructor
  · intro p hp
    rcases mem_cut hG hnd hp with ⟨rfl, hz⟩ | ⟨hp, -, hz, -⟩
    · rw [hz]
      exact ⟨Nat.dvd_add hc1 hal, Nat.dvd_sub hc2 hal⟩
    · rw [hz]
      exact hG.aligned p hp
  · intro p hp
    rcases mem_cut hG hnd hp with ⟨rfl, hz⟩ | ⟨hp, -, hz, -⟩
    · omega
    · rw [hz]
      exact hG.pos p hp
  · intro p hp
    rcases mem_cut hG hnd hp with ⟨rfl, hz⟩ | ⟨hp, -, hz, -⟩
    · omega
    · rw [hz]
      exact hG.bound p hp
  · intro p hp q hq hne
    rcases mem_cut hG hnd hp with ⟨rfl, hz⟩ | ⟨hp, -, hz, hd⟩ <;>
      rcases mem_cut hG hnd hq with ⟨rfl, hz'⟩ | ⟨hq, -, hz', hd'⟩
    · exact absurd rfl hne
    · rw [hz, hz']
      omega
    · rw [hz, hz']
      omega
    · rw [hz, hz']
      exact hG.disjoint p hp q hq hne

theorem apart_cut (hG : Geo u (xs ++ c :: ys) z) (hnd : (xs ++ c :: ys).Nodup) (hn : 0 < n)
    (hlt : n < z c) (hA : Apart (xs ++ c :: ys) z) : Apart (xs ++ (c + n) :: ys) (cutSize z c n) := by
  have hc : c ∈ xs ++ c :: ys := by simp
  intro p hp q hq hne
  unfold FreeList.Sep
  rcases mem_cut hG hnd hp with ⟨rfl, hz⟩ | ⟨hp, hpc, hz, hd⟩ <;>
    rcases mem_cut hG hnd hq with ⟨rfl, hz'⟩ | ⟨hq, hqc, hz', hd'⟩
  · exact absurd rfl hne
  · have := hA q hq c hc hqc
    unfold FreeList.Sep at this
    omega
  · have := hA p hp c hc hpc
    unfold FreeList.Sep at this
    omega
  · rw [hz, hz']
    exact hA p hp q hq hne

theorem cover_cut (hG : Geo u (xs ++ c :: ys) z) (hnd : (xs ++ c :: ys).Nodup) (hn : 0 < n)
    (hlt : n < z c) (a : Nat) :
    Cover (xs ++ (c + n) :: ys) (cutSize z c n) a ↔
      Cover (xs ++ c :: ys) z a ∧ ¬ (c ≤ a ∧ a < c + n) := by
  have hc : c ∈ xs ++ c :: ys := by simp
  constructor
  · intro hx
    obtain ⟨p, hp, h1, h2⟩ := hx
    rcases mem_cut hG hnd hp with ⟨rfl, hz⟩ | ⟨hp, -, hz, hd⟩
    · exact ⟨⟨c, hc, by omega, by omega⟩, by omega⟩
    · rw [hz] at h2
      exact ⟨⟨p, hp, h1, h2⟩, by omega⟩
  · intro hx
    obtain ⟨⟨p, hp, h1, h2⟩, hno⟩ := hx
    by_cases hpc : p = c
    · subst hpc
      refine ⟨p + n, by simp, by omega, ?_⟩
      rw [cutSize, Function.update_self]
      omega
    · have hpm : p ∈ xs ++ (c + n) :: ys := by
        rcases List.mem_append.mp hp with hp | hp
        · exact List.mem_append_left _ hp
        · rcases List.mem_cons.mp hp with hp | hp
          · exact absurd hp hpc
          · exact List.mem_append_right _ (List.mem_cons_of_mem _ hp)
      rcases mem_cut hG hnd hpm with ⟨rfl, -⟩ | ⟨-, -, hz, -⟩
      · have := hG.disjoint _ hp c hc hpc
        have := (hG.pos _ hp).2
        omega
      · exact ⟨p, hpm, h1, by rw [hz]; exact h2⟩

/-- The new node is written in its own four cells. -/
theorem newNode_frame {a : Nat} (h : a < c + n ∨ c + n + 32 ≤ a) : newNode m c n a = m a := by
  unfold newNode setSegment setSize
  rw [Function.update_of_ne (by omega), Function.update_of_ne (by omega)]
  exact (Function.update_of_ne (by omega) _ _).trans (Function.update_of_ne (by omega) _ _)

theorem newNode_old {p d : Nat} (hd : d < 32) (h : p + 32 ≤ c + n ∨ c + n + 32 ≤ p) :
    newNode m c n (p + d) = m (p + d) := newNode_frame (by omega)

theorem newNode_fields (hb : base m c = c) (hz : size m c = z c) (hn : 32 ≤ n) (hlt : c + n < 2 ^ 64) :
    newNode m c n (c + n) = m c ∧ newNode m c n (c + n + 8) = m (c + 8) ∧
      newNode m c n (c + n + 16) = c + n ∧ newNode m c n (c + n + 24) = z c - n := by
  obtain ⟨m2, hm2⟩ : ∃ m2, anchor.setPrev (anchor.setNext m (c + n) (anchor.next m c)) (c + n)
      (anchor.prev (anchor.setNext m (c + n) (anchor.next m c)) c) = m2 := ⟨_, rfl⟩
  have hold : ∀ a, a < c + n → m2 a = m a := by
    intro a ha
    rw [← hm2]
    exact (Function.update_of_ne (by omega) _ _).trans (Function.update_of_ne (by omega) _ _)
  have hnx : m2 (c + n) = m c := by
    rw [← hm2]
    exact (Function.update_of_ne (by omega) _ _).trans (Function.update_self _ _ _)
  have hpv : m2 (c + n + 8) = m (c + 8) := by
    rw [← hm2]
    exact (Function.update_self _ _ _).trans (Function.update_of_ne (by omega) _ _)
  have he : newNode m c n = setSegment m2 (c + n) (u64 (base m2 c + n)) (size m2 c - n) := by
    rw [← hm2]
    rfl
  have hb2 : u64 (base m2 c + n) = c + n := by
    have hbase : base m2 c = base m c := hold (c + 16) (by omega)
    rw [hbase, hb, u64_of_lt hlt]
  have hz2 : size m2 c - n = z c - n := by
    have hsize : size m2 c = size m c := hold (c + 24) (by omega)
    rw [hsize, hz]
  rw [he, hb2, hz2]
  unfold setSegment setSize
  refine ⟨?_, ?_, ?_, Function.update_self _ _ _⟩
  · rw [Function.update_of_ne (by omega), Function.update_of_ne (by omega), hnx]
  · rw [Function.update_of_ne (by omega), Function.update_of_ne (by omega), hpv]
  · rw [Function.update_of_ne (by omega), Function.update_self]

/-- **`MarkUsed`** of the first `n` bytes of a segment: they are no longer free, all other free memory still
    is. -/
theorem markUsed_spec (hu : 32 ≤ u) (hF : Free m l ps z) (hG : Geo u ps z) (hc : c ∈ ps) (hal : u ∣ n)
    (hn : 0 < n) (hle : n ≤ z c) :
    ∃ ps' z', Done u m (Apart ps z) (fun a => Cover ps z a ∧ ¬ (c ≤ a ∧ a < c + n)) (Cover ps z)
      (markUsed m l c n).1 (markUsed m l c n).2 ps' z' := by
  have hnd := hF.rep.nodup
  have hn32 : 32 ≤ n := le_trans hu (Nat.le_of_dvd hn hal)
  unfold markUsed
  rw [hF.size c hc]
  by_cases hgt : z c > n
  · rw [if_pos hgt]
    obtain ⟨xs, ys, rfl⟩ := List.append_of_mem hc
    have hbound := hG.bound c hc
    have hrest : 32 ≤ z c - n := by
      have h1 : u ∣ z c - n := Nat.dvd_sub (hG.aligned c hc).2 hal
      exact le_trans hu (Nat.le_of_dvd (by omega) h1)
    have hap : ∀ p ∈ xs ++ c :: ys, p + 32 ≤ c + n ∨ c + n + 32 ≤ p := by
      intro p hp
      by_cases hpc : p = c
      · omega
      · have h1 := hG.disjoint p hp c hc hpc
        have h2 := hG.unit_le hp
        omega
    have hold : ∀ p ∈ xs ++ c :: ys, ∀ d, d < 32 → newNode m c n (p + d) = m (p + d) := fun p hp d hd => by
      have := hap p hp
      exact newNode_old (by omega) (by omega)
    have hF1 : Free (newNode m c n) l (xs ++ c :: ys) z := free_congr hF hold
    obtain ⟨hnx, hpv, hb, hz⟩ := newNode_fields (m := m) (hF.base c hc) (hF.size c hc) hn32 (by omega)
    have hR : Rep anchor (takePlace anchor (newNode m c n) l c (c + n)).1
        (takePlace anchor (newNode m c n) l c (c + n)).2 (xs ++ (c + n) :: ys) := by
      refine takePlace_rep hF1.rep (show c + n ≠ 0 by omega) (fun p hp => ?_) ?_ ?_
      · refine (hap p ?_).symm
        rcases List.mem_append.mp hp with hp | hp
        · exact List.mem_append_left _ hp
        · exact List.mem_append_right _ (List.mem_cons_of_mem c hp)
      · exact hpv.trans (hold c hc 8 (by omega)).symm
      · exact hnx.trans (hold c hc 0 (by omega)).symm
    -- taking the place writes links of nodes of the list
    have hcell : ∀ a, (∀ p ∈ xs ++ c :: ys, a ≠ p ∧ a ≠ p + 8) →
        (takePlace anchor (newNode m c n) l c (c + n)).1 a = newNode m c n a := fun a ha =>
      takePlace_frame hF1.rep hc (fun m => m a) (fun _ _ p hp => Function.update_of_ne (ha p hp).1 _ _)
        (fun _ _ p hp => Function.update_of_ne (ha p hp).2 _ _)
    have hfield : ∀ p ∈ xs ++ (c + n) :: ys, ∀ d, 16 ≤ d → d < 32 →
        (takePlace anchor (newNode m c n) l c (c + n)).1 (p + d) = newNode m c n (p + d) := by
      intro p hp d hd1 hd2
      refine hcell _ fun q hq => ?_
      rcases mem_cut hG hnd hp with ⟨rfl, -⟩ | ⟨hp, -, -, -⟩
      · have := hap q hq
        omega
      · by_cases hpq : p = q
        · omega
        · have := hG.apart hu hp hq hpq
          omega
    refine ⟨xs ++ (c + n) :: ys, cutSize z c n, ⟨hR, fun p hp => ?_, fun p hp => ?_⟩,
      geo_cut hG hnd hal hn hgt, apart_cut hG hnd hn hgt, cover_cut hG hnd hn hgt, fun a ha => ?_⟩
    · rw [base, hfield p hp 16 (by omega) (by omega)]
      rcases mem_cut hG hnd hp with ⟨rfl, -⟩ | ⟨hp, -, -, -⟩
      · exact hb
      · exact hF1.base p hp
    · rw [size, hfield p hp 24 (by omega) (by omega)]
      rcases mem_cut hG hnd hp with ⟨rfl, hz'⟩ | ⟨hp, -, hz', -⟩
      · rw [hz']
        exact hz
      · rw [hz']
        exact hF1.size p hp
    · have hout : ∀ p ∈ xs ++ c :: ys, a < p ∨ p + 32 ≤ a := fun p hp => by
        by_contra h
        exact ha (hG.node_cover hu hp (by omega) (by omega))
      rw [hcell a fun p hp => by have := hout p hp; omega]
      refine newNode_frame ?_
      by_contra h
      exact ha ⟨c, hc, by omega, by omega⟩
  · have hzn : z c = n := by omega
    rw [if_neg hgt]
    obtain ⟨hF1, -, hfr⟩ := erase_segment hF hc
    refine ⟨ps.erase c, z, hF1, geo_erase hG c, fun hA p hp q hq =>
      hA p (List.mem_of_mem_erase hp) q (List.mem_of_mem_erase hq), fun a => ?_, fun a ha => ?_⟩
    · rw [cover_erase hnd hG hc a, hzn]
    · refine hfr a fun p hp => ?_
      by_contra h
      exact ha (hG.node_cover hu hp (by omega) (by omega))

end Spec

end UserFreeList

end SimpleOS2
