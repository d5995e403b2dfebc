/-
  File:      SimpleOS2/Scheduler/DescriptorCounts.lean
  Subject:   REFERENCE COUNTS OF THE VFS DESCRIPTORS.

  * `entries` -- how often a descriptor stands in a table, over all tables;
  * `Exact` -- the counts, the objects and the releases agree with a number of references, and the
    rules for `Close` and `AddRef`;
  * `CountInv`, `countInv_step`, `countInv_reach` -- the counts are exact in every state between two
    calls, as long as no entry is inserted into a full vector while a pointer into it is in use;
  * `count_wrong` -- without that: the pointer reads storage that was given back.
-/
import SimpleOS2.Lib.Tally
import SimpleOS2.Scheduler.Descriptors

namespace SimpleOS2

open Lib

namespace Descriptors

/-! ## 1. Counting -/

/-- How often the descriptor stands in a list of entries. -/
def occurs (es : List ThreadFileDescriptor) (d : Nat) : Nat := (es.map (·.sysDesc)).count d

/-- How often it stands in the tables. A table that was deleted has no entries. -/
def entries (s : Sys) (d : Nat) : Nat := ∑ k ∈ Finset.range s.next, occurs (s.tables k).fds.elems d

/-- All references: those of the tables, and those of the kernel's own code. -/
def refs (s : Sys) (d : Nat) : Nat := s.held d + entries s d

section Occurs

variable {es : List ThreadFileDescriptor} {fd : ThreadFileDescriptor} {i : Nat}

theorem occurs_insert (fd : ThreadFileDescriptor) (hi : i ≤ es.length) (d : Nat) :
    occurs (es.insertIdx i fd) d = occurs es d + if d = fd.sysDesc then 1 else 0 := by
  have hperm := (List.perm_insertIdx fd es hi).map (·.sysDesc)
  have hc := hperm.count_eq d
  rw [List.map_cons, List.count_cons] at hc
  simp only [beq_iff_eq] at hc
  rw [occurs, occurs, hc]
  simp only [eq_comm]

theorem occurs_set (h : es[i]? = some fd) (id : Int) (x d : Nat) :
    occurs (es.set i ⟨id, x⟩) d + (if d = fd.sysDesc then 1 else 0) =
      occurs es d + if d = x then 1 else 0 := by
  induction es generalizing i with
  | nil => exact absurd h (by simp)
  | cons a rest ih =>
      cases i with
      | zero =>
          obtain rfl : a = fd := by simpa using h
          simp only [List.set_cons_zero, occurs, List.map_cons, List.count_cons, beq_iff_eq]
          simp only [eq_comm (a := d)]
          omega
      | succ i =>
          have hrec := ih (by simpa using h)
          simp only [List.set_cons_succ, occurs, List.map_cons, List.count_cons] at hrec ⊢
          omega

theorem occurs_pos (h : es[i]? = some fd) : 0 < occurs es fd.sysDesc := by
  have hmem : fd ∈ es := List.mem_of_getElem? h
  exact List.count_pos_iff.mpr (List.mem_map.mpr ⟨fd, hmem, rfl⟩)

theorem occurs_filter (es : List ThreadFileDescriptor) {d : Nat} (hd : d ≠ 0) :
    occurs (es.filter fun fd => fd.sysDesc ≠ 0) d = occurs es d := by
  induction es with
  | nil => rfl
  | cons a rest ih =>
      by_cases ha : a.sysDesc ≠ 0
      · rw [List.filter_cons_of_pos (by simpa using ha)]
        simp only [occurs, List.map_cons, List.count_cons] at ih ⊢
        rw [ih]
      · have hne : ¬ a.sysDesc = d := fun h => ha (h ▸ hd)
        rw [List.filter_cons_of_neg (by simpa using ha)]
        simp only [occurs, List.map_cons, List.count_cons, beq_iff_eq, hne, if_false] at ih ⊢
        exact ih

end Occurs

/-- One table changes. -/
theorem sum_setTable {n k : Nat} (hk : k < n) (f : Table → Nat) (g : Nat → Table) (t : Table) :
    ∑ i ∈ Finset.range n, f (Function.update g k t i) + f (g k) =
      ∑ i ∈ Finset.range n, f (g i) + f t := by
  have hsum := sum_range_update (fun i => f (g i)) (fun i => f (Function.update g k t i)) hk fun i _ hi => by
    rw [Function.update_of_ne hi]
  rwa [Function.update_self] at hsum

/-! ## 2. Exact counts -/

/-- The objects agree with the number of references `r`. -/
structure Exact (D : Descs) (r : Nat → Nat) (nextDesc : Nat) : Prop where
  count : ∀ d, d ≠ 0 → D.refCount d = r d
  live : ∀ d, d ≠ 0 → (D.live d = true ↔ 0 < r d)
  released : ∀ d, d ≠ 0 → D.released d = if d < nextDesc ∧ r d = 0 then 1 else 0
  fresh : ∀ d, d ≠ 0 → nextDesc ≤ d → r d = 0

section Exact

variable {D : Descs} {r r' : Nat → Nat} {n d : Nat}

theorem Exact.congr (h : Exact D r n) (he : ∀ x, x ≠ 0 → r' x = r x) : Exact D r' n := by
  refine ⟨fun x hx => ?_, fun x hx => ?_, fun x hx => ?_, fun x hx => ?_⟩ <;> rw [he x hx]
  · exact h.count x hx
  · exact h.live x hx
  · exact h.released x hx
  · exact h.fresh x hx

/-- `Close` takes one reference away, and the object with the last one. -/
theorem Exact.close (h : Exact D r n) (hd : d ≠ 0)
    (hr : ∀ x, x ≠ 0 → r x = r' x + if x = d then 1 else 0) : Exact (close D d) r' n := by
  have hrd : r d = r' d + 1 := by rw [hr d hd, if_pos rfl]
  have hlt : d < n := by
    by_contra hge
    have := h.fresh d hd (by omega)
    omega
  have hother : ∀ x, x ≠ 0 → x ≠ d → r' x = r x := fun x hx hxd => by
    rw [hr x hx, if_neg hxd, Nat.add_zero]
  have hfresh : ∀ x, x ≠ 0 → n ≤ x → r' x = 0 := fun x hx hge => by
    rw [hother x hx (by omega)]
    exact h.fresh x hx hge
  have hc := h.count d hd
  by_cases hz : r' d = 0
  · have hclose : Descriptors.close D d = ⟨Function.update D.refCount d 0,
        Function.update D.live d false, Function.update D.released d (D.released d + 1)⟩ := by
      simp only [Descriptors.close, hd, if_false]
      rw [if_pos (by omega)]
    rw [hclose]
    refine ⟨fun x hx => ?_, fun x hx => ?_, fun x hx => ?_, hfresh⟩ <;> by_cases hxd : x = d
    · simp [hxd, hz]
    · simp [hxd, hother x hx hxd, h.count x hx]
    · simp [hxd, hz]
    · simp [hxd, hother x hx hxd, h.live x hx]
    · have h0 : D.released d = 0 := by
        rw [h.released d hd, if_neg (by omega)]
      simp [hxd, hz, h0, hlt]
    · simp [hxd, hother x hx hxd, h.released x hx]
  · have hclose : Descriptors.close D d =
        { D with refCount := Function.update D.refCount d (D.refCount d - 1) } := by
      simp only [Descriptors.close, hd, if_false]
      rw [if_neg (by omega)]
    rw [hclose]
    refine ⟨fun x hx => ?_, fun x hx => ?_, fun x hx => ?_, hfresh⟩ <;> by_cases hxd : x = d
    · subst hxd
      simp only [Function.update_self]
      omega
    · simp [hxd, hother x hx hxd, h.count x hx]
    · subst hxd
      rw [h.live x hx]
      omega
    · rw [hother x hx hxd]
      exact h.live x hx
    · subst hxd
      simp only
      rw [h.released x hx, if_neg (by omega), if_neg (by omega)]
    · rw [hother x hx hxd]
      exact h.released x hx

/-- `AddRef` of an object that exists adds one reference. -/
theorem Exact.addRef (h : Exact D r n) (hpos : d ≠ 0 → 0 < r d)
    (hr : ∀ x, x ≠ 0 → r' x = r x + if x = d then 1 else 0) : Exact (addRef D d) r' n := by
  by_cases hd : d = 0
  · have : Descriptors.addRef D d = D := by simp [Descriptors.addRef, hd]
    rw [this]
    refine h.congr fun x hx => ?_
    rw [hr x hx, if_neg fun e => hx (e.trans hd), Nat.add_zero]
  · have hp := hpos hd
    have hadd : Descriptors.addRef D d =
        { D with refCount := Function.update D.refCount d (D.refCount d + 1) } := by
      simp only [Descriptors.addRef, hd, if_false]
    have hrd : r' d = r d + 1 := by rw [hr d hd, if_pos rfl]
    have hother : ∀ x, x ≠ 0 → x ≠ d → r' x = r x := fun x hx hxd => by
      rw [hr x hx, if_neg hxd, Nat.add_zero]
    rw [hadd]
    refine ⟨fun x hx => ?_, fun x hx => ?_, fun x hx => ?_, fun x hx hge => ?_⟩ <;> by_cases hxd : x = d
    · subst hxd
      simp [hrd, h.count x hx]
    · simp [hxd, hother x hx hxd, h.count x hx]
    · subst hxd
      rw [h.live x hx]
      omega
    · rw [hother x hx hxd]
      exact h.live x hx
    · subst hxd
      simp only
      rw [h.released x hx, if_neg (by omega), if_neg (by omega)]
    · rw [hother x hx hxd]
      exact h.released x hx
    · subst hxd
      have := h.fresh x hx hge
      omega
    · rw [hother x hx hxd]
      exact h.fresh x hx hge

/-- The closing loop of `ThreadExit`. -/
theorem Exact.exitTable (es : List ThreadFileDescriptor) (c : Nat) (h : Exact D r n)
    (hr : ∀ x, x ≠ 0 → r x = r' x + occurs es x) : Exact (exitTable ⟨es, c⟩ D) r' n := by
  induction es generalizing D r with
  | nil => exact h.congr fun x hx => by rw [hr x hx]; rfl
  | cons a rest ih =>
      have hstep : ∀ x, x ≠ 0 → r x = (r' x + occurs rest x) + if x = a.sysDesc then 1 else 0 :=
        fun x hx => by
          have := hr x hx
          simp only [occurs, List.map_cons, List.count_cons, beq_iff_eq] at this ⊢
          simp only [eq_comm (a := x)]
          omega
      by_cases ha : a.sysDesc = 0
      · have hnext := ih (h.congr fun x hx => by
          rw [hstep x hx, if_neg fun e => hx (e.trans ha), Nat.add_zero]) fun x _ => rfl
        have heq : Descriptors.exitTable ⟨a :: rest, c⟩ D = Descriptors.exitTable ⟨rest, c⟩ D := by
          simp [Descriptors.exitTable, ha]
        rw [heq]
        exact hnext
      · have hnext := ih (h.close ha hstep) fun x _ => rfl
        have heq : Descriptors.exitTable ⟨a :: rest, c⟩ D =
            Descriptors.exitTable ⟨rest, c⟩ (Descriptors.close D a.sysDesc) := by
          simp [Descriptors.exitTable, ha]
        rw [heq]
        exact hnext

end Exact

/-- One turn of the copying loop of `CloneThread`. -/
def cloneStep (q : Vec × Descs) (fd : ThreadFileDescriptor) : Vec × Descs :=
  if fd.sysDesc ≠ 0 then (q.1.insertAt q.1.elems.length fd, addRef q.2 fd.sysDesc) else q

theorem cloneTable_eq (v : Vec) (d : Descs) :
    cloneTable v d = v.elems.foldl cloneStep (⟨[], 0⟩, d) := rfl

/-- The copy has the open entries in their order. -/
theorem clone_elems (es : List ThreadFileDescriptor) (q : Vec × Descs) :
    (es.foldl cloneStep q).1.elems = q.1.elems ++ es.filter fun fd => fd.sysDesc ≠ 0 := by
  induction es generalizing q with
  | nil => simp
  | cons a rest ih =>
      rw [List.foldl_cons, ih]
      by_cases ha : a.sysDesc ≠ 0
      · rw [List.filter_cons_of_pos (by simpa using ha)]
        simp [cloneStep, ha, Vec.insertAt]
      · rw [List.filter_cons_of_neg (by simpa using ha)]
        simp [cloneStep, ha]

theorem clone_exact {es : List ThreadFileDescriptor} {q : Vec × Descs} {r r' : Nat → Nat} {n : Nat}
    (h : Exact q.2 r n) (hpos : ∀ fd ∈ es, fd.sysDesc ≠ 0 → 0 < r fd.sysDesc)
    (hr : ∀ x, x ≠ 0 → r' x = r x + occurs es x) : Exact (es.foldl cloneStep q).2 r' n := by
  induction es generalizing q r with
  | nil => exact h.congr fun x hx => by rw [hr x hx]; rfl
  | cons a rest ih =>
      have hcons : ∀ x, occurs (a :: rest) x = occurs rest x + if x = a.sysDesc then 1 else 0 :=
        fun x => by
          simp only [occurs, List.map_cons, List.count_cons, beq_iff_eq, eq_comm (a := x)]
      rw [List.foldl_cons]
      by_cases ha : a.sysDesc = 0
      · have hq : cloneStep q a = q := by simp [cloneStep, ha]
        rw [hq]
        refine ih h (fun fd hfd => hpos fd (List.mem_cons_of_mem _ hfd)) fun x hx => ?_
        rw [hr x hx, hcons x, if_neg fun e => hx (e.trans ha), Nat.add_zero]
      · have hq : (cloneStep q a).2 = addRef q.2 a.sysDesc := by simp [cloneStep, ha]
        have hadd : Exact (cloneStep q a).2 (fun x => r x + if x = a.sysDesc then 1 else 0) n := by
          rw [hq]
          exact h.addRef (hpos a List.mem_cons_self) fun x _ => rfl
        refine ih hadd (fun fd hfd hne => ?_) fun x hx => ?_
        · exact Nat.lt_of_lt_of_le (hpos fd (List.mem_cons_of_mem _ hfd) hne) (Nat.le_add_right _ _)
        · rw [hr x hx, hcons x]
          omega

/-! ## 3. One call -/

/-- `ThreadReplaceFileDescriptor` inserts an entry into a full vector and then uses `newFD`, which
    points into the storage the vector had before. -/
def insertsFull (v : Vec) (old new : Int) : Prop :=
  old ≠ new ∧ (∃ n, lastWith new v.elems = some n ∧ v.sysDescAt n ≠ 0) ∧
    lastWith old v.elems = none ∧ v.full

/-- What `ThreadReplaceFileDescriptor` can do: nothing, install a descriptor of the table under an id
    that had none, or replace one descriptor by another. -/
theorem replace_cases {v : Vec} {old new : Int} (D : Descs) (stale : Nat)
    (hroom : ¬ insertsFull v old new) :
    let q := threadReplaceFileDescriptor v D old new stale
    (q.1.elems = v.elems ∧ q.2.1 = D) ∨
      (∃ y, (y ≠ 0 → 0 < occurs v.elems y) ∧ q.2.1 = addRef D y ∧
        ∀ e, e ≠ 0 → occurs q.1.elems e = occurs v.elems e + if e = y then 1 else 0) ∨
      ∃ x y, x ≠ 0 ∧ x ≠ y ∧ 0 < occurs v.elems y ∧ q.2.1 = addRef (close D x) y ∧
        ∀ e, occurs q.1.elems e + (if e = x then 1 else 0) =
          occurs v.elems e + if e = y then 1 else 0 := by
  intro q
  by_cases hon : old = new
  · have hq : q = (v, D, OK) := if_pos hon
    exact Or.inl ⟨by rw [hq], by rw [hq]⟩
  · cases hn : lastWith new v.elems with
    | none =>
        have hq : q = (v, D, ErrorInvalidFD) := by
          simp only [q, threadReplaceFileDescriptor, hon, if_false, hn]
        exact Or.inl ⟨by rw [hq], by rw [hq]⟩
    | some n =>
        obtain ⟨fn, hfn, -⟩ := lastWith_some hn
        have hsn := sysDescAt_eq (v := v) hfn
        by_cases hz : v.sysDescAt n = 0
        · have hq : q = (v, D, ErrorInvalidFD) := by
            simp only [q, threadReplaceFileDescriptor, hon, if_false, hn, hz, if_true]
          exact Or.inl ⟨by rw [hq], by rw [hq]⟩
        · cases ho : lastWith old v.elems with
          | none =>
              -- there is room, so `newFD` reads a cell of the table
              have hnf : ¬ v.full := fun hf => hroom ⟨hon, ⟨n, hn, hz⟩, ho, hf⟩
              let i := insertPos old v.elems
              have hi : i ≤ v.elems.length := insertPos_le old v.elems
              let y := (v.insertAt i ⟨old, 0⟩).sysDescAt n
              have hq : q = ((v.insertAt i ⟨old, 0⟩).setSysDesc i y, addRef D y, OK) := by
                simp only [q, threadReplaceFileDescriptor, hon, if_false, hn, hz, ho, cellAfter, hnf]
                rfl
              refine Or.inr (Or.inl ⟨y, fun hy => ?_, by rw [hq], fun e _ => ?_⟩)
              · cases hc : (v.insertAt i ⟨old, 0⟩).elems[n]? with
                | none =>
                    have : y = 0 := by simp only [y, Vec.sysDescAt, hc]; rfl
                    exact absurd this hy
                | some fd =>
                    have hyfd : y = fd.sysDesc := sysDescAt_eq hc
                    have hpos := occurs_pos hc
                    have hins := occurs_insert ⟨old, 0⟩ hi fd.sysDesc
                    rw [if_neg (by rw [← hyfd]; exact hy)] at hins
                    rw [hyfd, ← Nat.add_zero (occurs v.elems fd.sysDesc), ← hins]
                    exact hpos
              · rw [hq]
                dsimp only
                rw [insertAt_setSysDesc hi]
                exact occurs_insert _ hi e
          | some o =>
              obtain ⟨fo, hfo, -⟩ := lastWith_some ho
              have hso := sysDescAt_eq (v := v) hfo
              have hset := occurs_set hfo fo.id (v.sysDescAt n)
              have helems := setSysDesc_elems (x := v.sysDescAt n) hfo
              have hpos : 0 < occurs v.elems (v.sysDescAt n) := by rw [hsn]; exact occurs_pos hfn
              by_cases hoz : v.sysDescAt o = 0
              · have hq : q = (v.setSysDesc o (v.sysDescAt n), addRef D (v.sysDescAt n), OK) := by
                  simp only [q, threadReplaceFileDescriptor, hon, if_false, hn, hz, ho, hoz, if_true]
                refine Or.inr (Or.inl ⟨v.sysDescAt n, fun _ => hpos, by rw [hq], fun e he => ?_⟩)
                rw [hq]
                dsimp only
                rw [helems, ← hset e, if_neg (by rw [← hso, hoz]; exact he)]
                rfl
              · by_cases hsame : v.sysDescAt o = v.sysDescAt n
                · have hq : q = (v, D, OK) := by
                    simp only [q, threadReplaceFileDescriptor, hon, if_false, hn, hz, ho, hsame,
                      if_true]
                  exact Or.inl ⟨by rw [hq], by rw [hq]⟩
                · have hq : q = (v.setSysDesc o (v.sysDescAt n),
                      addRef (close D (v.sysDescAt o)) (v.sysDescAt n), OK) := by
                    simp only [q, threadReplaceFileDescriptor, hon, if_false, hn, hz, ho, hoz, hsame]
                  refine Or.inr (Or.inr ⟨v.sysDescAt o, v.sysDescAt n, hoz, hsame, hpos, by rw [hq],
                    fun e => ?_⟩)
                  rw [hq]
                  dsimp only
                  rw [helems, hso]
                  exact hset e

/-- What `ThreadCloseFileDescriptor` can do. -/
theorem close_cases (v : Vec) (D : Descs) (id : Int) :
    let q := threadCloseFileDescriptor v D id
    (q.1.elems = v.elems ∧ q.2.1 = D) ∨
      ∃ x, x ≠ 0 ∧ q.2.1 = close D x ∧
        ∀ e, e ≠ 0 → occurs v.elems e = occurs q.1.elems e + if e = x then 1 else 0 := by
  intro q
  cases hi : firstWith id v.elems with
  | none =>
      have hq : q = (v, D, ErrorInvalidFD) := by simp only [q, threadCloseFileDescriptor, hi]
      exact Or.inl ⟨by rw [hq], by rw [hq]⟩
  | some i =>
      obtain ⟨fd, hfd, -⟩ := firstWith_some hi
      have hs := sysDescAt_eq (v := v) hfd
      by_cases hz : v.sysDescAt i = 0
      · have hq : q = (v, D, ErrorInvalidFD) := by
          simp only [q, threadCloseFileDescriptor, hi, hz, if_true]
        exact Or.inl ⟨by rw [hq], by rw [hq]⟩
      · have hq : q = (v.setSysDesc i 0, close D (v.sysDescAt i), OK) := by
          simp only [q, threadCloseFileDescriptor, hi, hz, if_false]
        refine Or.inr ⟨v.sysDescAt i, hz, by rw [hq], fun e he => ?_⟩
        have hset := occurs_set hfd fd.id 0 e
        rw [if_neg he] at hset
        rw [hq]
        dsimp only
        rw [setSysDesc_elems hfd, hs]
        exact hset.symm

/-! ## 4. The invariant -/

/-- The counts are exact, a table counts its threads, and a table without a thread is empty. -/
structure CountInv (s : Sys) : Prop where
  exact : Exact s.descs (refs s) s.nextDesc
  users : ∀ k, (s.tables k).refCount = s.threads.count k
  bound : ∀ k ∈ s.threads, k < s.next
  unused : ∀ k, k ∉ s.threads → (s.tables k).fds.elems = []
  zero : s.held 0 = 0
  named : 0 < s.nextDesc

/-- No pointer into given-back storage is used. -/
def keepsPointer (s : Sys) : Event → Prop
  | .replace k old new _ => ¬ insertsFull (s.tables k).fds old new
  | _ => True

section Inv

variable {s : Sys}

/-- The references after the entries of one table changed. -/
theorem refs_setTable {k : Nat} (hk : k < s.next) (t : Table) (d : Nat) :
    refs (s.setTable k t) d + occurs (s.tables k).fds.elems d = refs s d + occurs t.fds.elems d := by
  have h := sum_setTable hk (fun t => occurs t.fds.elems d) s.tables t
  simp only [refs, entries, Sys.setTable]
  omega

theorem occurs_le_refs {k : Nat} (hk : k < s.next) (d : Nat) :
    occurs (s.tables k).fds.elems d ≤ refs s d := by
  have h := Finset.single_le_sum (f := fun i => occurs (s.tables i).fds.elems d)
    (fun _ _ => Nat.zero_le _) (Finset.mem_range.mpr hk)
  exact Nat.le_trans h (Nat.le_add_left _ _)

/-- A step that changes only the entries and descriptors of one table in use. -/
theorem countInv_table (hI : CountInv s) {k : Nat} (hk : k ∈ s.threads) {v : Vec} {D : Descs}
    {last : Int → Nat} {held : Nat → Nat} (hz : held 0 = 0)
    (hE : ∀ r, (∀ d, d ≠ 0 → r d + s.held d + occurs (s.tables k).fds.elems d =
      refs s d + held d + occurs v.elems d) → Exact D r s.nextDesc) :
    CountInv { s.setTable k { s.tables k with fds := v, last := last } with descs := D, held := held } := by
  have hset := refs_setTable (hI.bound k hk) { s.tables k with fds := v, last := last }
  refine ⟨hE _ fun d _ => ?_, fun j => ?_, hI.bound, fun j hj => ?_, hz, hI.named⟩
  · have h1 : _ + _ = refs s d + occurs v.elems d := hset d
    have h2 : refs { s.setTable k { s.tables k with fds := v, last := last } with
        descs := D, held := held } d + s.held d =
        refs (s.setTable k { s.tables k with fds := v, last := last }) d + held d := by
      show held d + _ + s.held d = s.held d + _ + held d
      simp only [entries]
      omega
    omega
  · by_cases hjk : j = k
    · subst hjk
      simp only [Sys.setTable, Function.update_self]
      exact hI.users j
    · simp only [Sys.setTable, Function.update_of_ne hjk]
      exact hI.users j
  · have hjk : j ≠ k := fun e => hj (e ▸ hk)
    simp only [Sys.setTable, Function.update_of_ne hjk]
    exact hI.unused j hj

theorem countInv_fds (hI : CountInv s) {k : Nat} (hk : k ∈ s.threads) {v : Vec} {D : Descs}
    {last : Int → Nat} (hE : ∀ r, (∀ d, d ≠ 0 → r d + occurs (s.tables k).fds.elems d =
      refs s d + occurs v.elems d) → Exact D r s.nextDesc) :
    CountInv { s.setTable k { s.tables k with fds := v, last := last } with descs := D } := by
  have h : CountInv { s.setTable k { s.tables k with fds := v, last := last } with
      descs := D, held := s.held } :=
    countInv_table hI hk hI.zero fun r hr => hE r fun d h0 => by
      have := hr d h0
      omega
  exact h

theorem countInv_init (h : sysInit s) : CountInv s := by
  obtain ⟨ht, hn, hd, htab, hdesc, hh⟩ := h
  have hr : ∀ d, refs s d = 0 := fun d => by simp [refs, entries, hn, hh d]
  refine ⟨⟨fun d _ => ?_, fun d _ => ?_, fun d h0 => ?_, fun d _ _ => hr d⟩, fun k => ?_, ?_,
    fun k _ => ?_, hh 0, by omega⟩
  · rw [hdesc, hr d]
  · simp [hdesc, hr d]
  · rw [hdesc, hd, if_neg (by omega)]
  · rw [htab k, ht]
    rfl
  · rw [ht]
    exact fun k hk => absurd hk List.not_mem_nil
  · rw [htab k]

/-- A new table for a new thread, with the entries `v` and the objects `D`. -/
theorem countInv_newTable (hI : CountInv s) {v : Vec} {D : Descs} {last : Int → Nat}
    (hE : ∀ r, (∀ d, r d = refs s d + occurs v.elems d) → Exact D r s.nextDesc) :
    CountInv { s.setTable s.next ⟨1, v, last⟩ with
      next := s.next + 1, threads := s.next :: s.threads, descs := D } := by
  have hnew : s.next ∉ s.threads := fun h => Nat.lt_irrefl _ (hI.bound _ h)
  refine ⟨hE _ fun d => ?_, fun j => ?_, fun j hj => ?_, fun j hj => ?_, hI.zero, hI.named⟩
  · have hsum : ∑ i ∈ Finset.range s.next,
        occurs (Function.update s.tables s.next ⟨1, v, last⟩ i).fds.elems d =
          ∑ i ∈ Finset.range s.next, occurs (s.tables i).fds.elems d :=
      Finset.sum_congr rfl fun i hi => by
        rw [Function.update_of_ne (Nat.ne_of_lt (Finset.mem_range.mp hi))]
    simp only [refs, entries, Sys.setTable]
    rw [Finset.sum_range_succ, hsum, Function.update_self, Nat.add_assoc]
  · by_cases hj : j = s.next
    · subst hj
      simp only [Sys.setTable, Function.update_self, List.count_cons_self]
      rw [List.count_eq_zero_of_not_mem hnew]
    · simp only [Sys.setTable, Function.update_of_ne hj]
      rw [List.count_cons_of_ne (fun e => hj e.symm)]
      exact hI.users j
  · cases List.mem_cons.mp hj with
    | inl h => rw [h]; exact Nat.lt_succ_self _
    | inr h => exact Nat.lt_succ_of_lt (hI.bound j h)
  · have hj1 : j ≠ s.next := fun e => hj (e ▸ List.mem_cons_self)
    simp only [Sys.setTable, Function.update_of_ne hj1]
    exact hI.unused j fun h => hj (List.mem_cons_of_mem _ h)

/-- The threads of a table change, and its count with them. A table that nobody uses any more is empty. -/
theorem countInv_users (hI : CountInv s) {k c : Nat} {l : List Nat} {v : Vec} {D : Descs} {last : Int → Nat}
    (hk : k ∈ s.threads) (hc : c = l.count k) (hl : ∀ j, j ≠ k → l.count j = s.threads.count j)
    (hempty : c = 0 → v.elems = [])
    (hE : ∀ r, (∀ d, r d + occurs (s.tables k).fds.elems d = refs s d + occurs v.elems d) → Exact D r s.nextDesc) :
    CountInv { s.setTable k ⟨c, v, last⟩ with threads := l, descs := D } := by
  have hmem : ∀ j, j ≠ k → (j ∈ l ↔ j ∈ s.threads) := fun j hj => by
    rw [← List.count_pos_iff, hl j hj, List.count_pos_iff]
  refine ⟨hE _ (refs_setTable (hI.bound k hk) ⟨c, v, last⟩), fun j => ?_, fun j hj => ?_, fun j hj => ?_,
    hI.zero, hI.named⟩
  · by_cases hjk : j = k
    · subst hjk
      simp only [Sys.setTable, Function.update_self]
      exact hc
    · simp only [Sys.setTable, Function.update_of_ne hjk]
      rw [hl j hjk]
      exact hI.users j
  · by_cases hjk : j = k
    · exact hjk ▸ hI.bound k hk
    · exact hI.bound j ((hmem j hjk).mp hj)
  · by_cases hjk : j = k
    · subst hjk
      simp only [Sys.setTable, Function.update_self]
      exact hempty (hc.trans (List.count_eq_zero_of_not_mem hj))
    · simp only [Sys.setTable, Function.update_of_ne hjk]
      exact hI.unused j fun h => hj ((hmem j hjk).mpr h)

/-- A reference that the kernel's code holds is not one to descriptor 0. -/
theorem CountInv.held_ne (hI : CountInv s) {desc : Nat} (h : 0 < s.held desc) : desc ≠ 0 := fun e => by
  rw [e, hI.zero] at h
  exact Nat.lt_irrefl 0 h

/-! ### The calls, one by one -/

theorem countInv_openFile (hI : CountInv s) : CountInv { s with
    descs := ⟨Function.update s.descs.refCount s.nextDesc 1, Function.update s.descs.live s.nextDesc true,
      s.descs.released⟩
    nextDesc := s.nextDesc + 1
    held := Function.update s.held s.nextDesc 1 } := by
  have hne : s.nextDesc ≠ 0 := Nat.pos_iff_ne_zero.mp hI.named
  have hr : ∀ d, refs { s with
      descs := ⟨Function.update s.descs.refCount s.nextDesc 1,
        Function.update s.descs.live s.nextDesc true, s.descs.released⟩
      nextDesc := s.nextDesc + 1
      held := Function.update s.held s.nextDesc 1 } d =
      if d = s.nextDesc then 1 else refs s d := fun d => by
    by_cases hd : d = s.nextDesc
    · have h0 := hI.exact.fresh d (hd ▸ hne) (Nat.le_of_eq hd.symm)
      simp only [refs] at h0
      subst hd
      simp only [refs, Function.update_self, if_true]
      show 1 + entries s s.nextDesc = 1
      omega
    · simp only [refs, Function.update_of_ne hd, hd, if_false]
      rfl
  have hE := hI.exact
  refine ⟨⟨fun d h0 => ?_, fun d h0 => ?_, fun d h0 => ?_, fun d h0 hge => ?_⟩, hI.users, hI.bound,
    hI.unused, ?_, Nat.succ_pos _⟩
  · rw [hr d]
    by_cases hd : d = s.nextDesc
    · simp [hd]
    · simp only [Function.update_of_ne hd, hd, if_false]
      exact hE.count d h0
  · rw [hr d]
    by_cases hd : d = s.nextDesc
    · simp [hd]
    · simp only [Function.update_of_ne hd, hd, if_false]
      exact hE.live d h0
  · rw [hr d]
    by_cases hd : d = s.nextDesc
    · have := hE.released d h0
      simp only [hd, if_true] at this ⊢
      rw [this]
      simp
    · simp only [hd, if_false]
      rw [hE.released d h0]
      have hiff : d < s.nextDesc + 1 ↔ d < s.nextDesc := by omega
      simp only [hiff]
  · have hge : s.nextDesc + 1 ≤ d := hge
    rw [hr d, if_neg (by omega)]
    exact hE.fresh d h0 (by omega)
  · show Function.update s.held s.nextDesc 1 0 = 0
    rw [Function.update_of_ne hne.symm]
    exact hI.zero

theorem countInv_closeFile (hI : CountInv s) {desc : Nat} (h : 0 < s.held desc) : CountInv { s with
    descs := close s.descs desc
    held := Function.update s.held desc (s.held desc - 1) } := by
  have hne := hI.held_ne h
  refine ⟨hI.exact.close hne fun d _ => ?_, hI.users, hI.bound, hI.unused, ?_, hI.named⟩
  · show refs s d = Function.update s.held desc (s.held desc - 1) d + entries s d + _
    by_cases hd : d = desc
    · subst hd
      simp only [refs, Function.update_self, if_true]
      omega
    · simp only [refs, Function.update_of_ne hd, hd, if_false, Nat.add_zero]
  · show Function.update s.held desc (s.held desc - 1) 0 = 0
    rw [Function.update_of_ne hne.symm]
    exact hI.zero

/-- The reference goes from the kernel's code to the table. -/
theorem countInv_add (hI : CountInv s) {k desc : Nat} (hk : k ∈ s.threads) (h : 0 < s.held desc)
    {last : Int → Nat} : CountInv { s.setTable k { s.tables k with
      fds := (threadAddFileDescriptor (s.tables k).fds desc).1, last := last } with
      held := Function.update s.held desc (s.held desc - 1) } := by
  have hne := hI.held_ne h
  have hle := freeSlot_le (-1) (s.tables k).fds.elems
  have hocc : ∀ d, occurs (threadAddFileDescriptor (s.tables k).fds desc).1.elems d =
      occurs (s.tables k).fds.elems d + if d = desc then 1 else 0 := fun d => by
    simp only [threadAddFileDescriptor, findFreeFD]
    rw [insertAt_setSysDesc hle, occurs_insert _ hle]
  refine countInv_table hI hk ?_ fun r hr => hI.exact.congr fun d h0 => ?_
  · rw [Function.update_of_ne hne.symm]
    exact hI.zero
  · have h1 := hr d h0
    rw [hocc d] at h1
    by_cases hd : d = desc
    · subst hd
      simp only [Function.update_self, if_true] at h1
      omega
    · simp only [Function.update_of_ne hd, hd, if_false] at h1
      omega

/-- The entries lose a reference to `x` and get one to `y`, which is there already. -/
theorem Exact.swap {D : Descs} {r r' : Nat → Nat} {n x y : Nat} (h : Exact D r n) {es es' : List ThreadFileDescriptor}
    (hx : x ≠ 0) (hxy : x ≠ y) (hy : 0 < occurs es y) (hle : ∀ d, occurs es d ≤ r d)
    (hocc : ∀ d, occurs es' d + (if d = x then 1 else 0) = occurs es d + if d = y then 1 else 0)
    (hr : ∀ d, d ≠ 0 → r' d + occurs es d = r d + occurs es' d) :
    Exact (Descriptors.addRef (Descriptors.close D x) y) r' n := by
  have hsplit : ∀ d, d ≠ 0 → r d = (r' d - if d = y then 1 else 0) + if d = x then 1 else 0 := fun d h0 => by
    have h1 := hr d h0
    have h2 := hocc d
    have h3 := hle d
    by_cases hd : d = y
    · subst hd
      rw [if_pos rfl] at h2 ⊢
      rw [if_neg (fun e => hxy e.symm)] at h2 ⊢
      omega
    · rw [if_neg hd] at h2 ⊢
      omega
  refine (h.close hx hsplit).addRef (fun h0 => ?_) fun d h0 => ?_
  · have h1 := hr y h0
    have h2 := hocc y
    have h3 := hle y
    rw [if_pos rfl, if_neg (fun e => hxy e.symm)] at h2
    rw [if_pos rfl]
    omega
  · have h1 := hr d h0
    have h2 := hocc d
    have h3 := hle d
    by_cases hd : d = y
    · subst hd
      rw [if_pos rfl, if_neg (fun e => hxy e.symm)] at h2
      rw [if_pos rfl]
      omega
    · rw [if_neg hd]
      omega

theorem countInv_replace (hI : CountInv s) {k : Nat} {old new : Int} (stale : Nat) (hk : k ∈ s.threads)
    (hok : ¬ insertsFull (s.tables k).fds old new) : CountInv (s.replace k old new stale) := by
  have hkn := hI.bound k hk
  refine countInv_fds hI hk fun r hr => ?_
  rcases replace_cases s.descs stale hok with ⟨hsame, hD⟩ | ⟨y, hy, hD, hocc⟩ | ⟨x, y, hx, hxy, hy, hD, hocc⟩
  · rw [hD]
    refine hI.exact.congr fun d h0 => ?_
    have h1 := hr d h0
    rw [hsame] at h1
    omega
  · rw [hD]
    refine hI.exact.addRef (fun h0 => Nat.lt_of_lt_of_le (hy h0) (occurs_le_refs hkn y)) fun d h0 => ?_
    have h1 := hr d h0
    rw [hocc d h0] at h1
    omega
  · rw [hD]
    exact hI.exact.swap hx hxy hy (occurs_le_refs hkn) hocc hr

theorem countInv_close (hI : CountInv s) {k : Nat} (id : Int) (hk : k ∈ s.threads) : CountInv (s.closeId k id) := by
  refine countInv_fds hI hk fun r hr => ?_
  rcases close_cases (s.tables k).fds s.descs id with ⟨hsame, hD⟩ | ⟨x, hx, hD, hocc⟩
  · rw [hD]
    refine hI.exact.congr fun d h0 => ?_
    have h1 := hr d h0
    rw [hsame] at h1
    omega
  · rw [hD]
    refine hI.exact.close hx fun d h0 => ?_
    have h1 := hr d h0
    have h2 := hocc d h0
    omega

theorem countInv_cloneCopy (hI : CountInv s) {k : Nat} (hk : k ∈ s.threads) : CountInv (s.cloneCopy k) := by
  refine countInv_newTable hI fun r hr => ?_
  have hclone : (cloneTable (s.tables k).fds s.descs).1.elems =
      (s.tables k).fds.elems.filter fun fd => fd.sysDesc ≠ 0 := by
    rw [cloneTable_eq, clone_elems]
    rfl
  rw [cloneTable_eq]
  refine clone_exact hI.exact (fun fd hfd _ => ?_) fun d h0 => ?_
  · have hpos : 0 < occurs (s.tables k).fds.elems fd.sysDesc :=
      List.count_pos_iff.mpr (List.mem_map.mpr ⟨fd, hfd, rfl⟩)
    exact Nat.lt_of_lt_of_le hpos (occurs_le_refs (hI.bound k hk) _)
  · rw [hr d, hclone, occurs_filter _ h0]

/-- With the last thread its table goes. -/
theorem countInv_exit (hI : CountInv s) {k : Nat} (hk : k ∈ s.threads) : CountInv (s.exitThread k) := by
  have hcount := hI.users k
  have hpos := List.count_pos_iff.mpr hk
  have hself : (s.threads.erase k).count k = s.threads.count k - 1 := List.count_erase_self
  have hother : ∀ j, j ≠ k → (s.threads.erase k).count j = s.threads.count j := fun j hj => List.count_erase_of_ne hj
  by_cases hz : (s.tables k).refCount - 1 = 0
  · have heq : s.exitThread k = { s.setTable k ⟨0, ⟨[], 0⟩, fun _ => 0⟩ with
        threads := s.threads.erase k, descs := exitTable (s.tables k).fds s.descs } := if_pos hz
    rw [heq]
    refine countInv_users hI hk (by omega) hother (fun _ => rfl) fun r hr => ?_
    exact Exact.exitTable (s.tables k).fds.elems (s.tables k).fds.cap hI.exact fun d _ => (hr d).symm
  · have heq : s.exitThread k = { s.setTable k
        { s.tables k with refCount := (s.tables k).refCount - 1 } with
        threads := s.threads.erase k } := if_neg hz
    rw [heq]
    exact countInv_users hI hk (by omega) hother (fun h => absurd h hz) fun r hr =>
      hI.exact.congr fun d _ => Nat.add_right_cancel (hr d)

/-- **Every call keeps the counts exact.** -/
theorem countInv_step {s' : Sys} {ev : Event} (hI : CountInv s)
    (hs : Guarded sysStep keepsPointer s ev s') : CountInv s' := by
  obtain ⟨hs, hok⟩ := hs
  cases hs with
  | createThread => exact countInv_newTable hI fun r hr => hI.exact.congr fun d _ => by rw [hr d]; rfl
  | openFile => exact countInv_openFile hI
  | closeFile desc h => exact countInv_closeFile hI h
  | add k desc hk h => exact countInv_add hI hk h
  | replace k old new stale hk => exact countInv_replace hI stale hk hok
  | close k id hk => exact countInv_close hI id hk
  | cloneShare k hk =>
      exact countInv_users hI hk (by rw [hI.users k, List.count_cons_self])
        (fun j hj => List.count_cons_of_ne (Ne.symm hj)) (fun h => absurd h (Nat.succ_ne_zero _)) fun r hr =>
        hI.exact.congr fun d _ => Nat.add_right_cancel (hr d)
  | cloneCopy k hk => exact countInv_cloneCopy hI hk
  | exit k hk => exact countInv_exit hI hk

theorem countInv_reach (h : Reach (Guarded sysStep keepsPointer) sysInit s) : CountInv s :=
  Reach.inv (I := CountInv) (fun _ h0 => countInv_init h0) (fun _ _ _ hI hs => countInv_step hI hs) h

end Inv

/-! ## 5. Whole runs -/

/-- What holds of the VFS descriptors between two calls. -/
structure CountsExact (s : Sys) : Prop where
  /-- The count of a descriptor is the number of entries with it over all tables that exist, and the
      references the kernel's own code holds. -/
  count : ∀ d, d ≠ 0 → s.descs.refCount d = s.held d + entries s d
  /-- A descriptor is there as long as the number is not zero. -/
  live : ∀ d, d ≠ 0 → (s.descs.live d = true ↔ 0 < s.held d + entries s d)
  /-- With the last reference, and only then, its node is released, once. -/
  released : ∀ d, 0 < d → d < s.nextDesc →
    s.descs.released d = if s.held d + entries s d = 0 then 1 else 0

/-- **The counts are exact** in every state of every run in which `ThreadReplaceFileDescriptor` never
    inserts into a full vector. -/
theorem descriptor_counts {s : Sys} (h : Reach (Guarded sysStep keepsPointer) sysInit s) :
    CountsExact s := by
  have hE := (countInv_reach h).exact
  refine ⟨hE.count, hE.live, fun d h0 hlt => ?_⟩
  have hr := hE.released d (Nat.pos_iff_ne_zero.mp h0)
  simp only [hlt, true_and] at hr
  exact hr

/-- The empty system. -/
def emptySys : Sys :=
  ⟨fun _ => ⟨0, ⟨[], 0⟩, fun _ => 0⟩, 0, [], ⟨fun _ => 0, fun _ => false, fun _ => 0⟩, 1, fun _ => 0⟩

theorem emptySys_init : sysInit emptySys := ⟨rfl, rfl, rfl, fun _ => rfl, rfl, fun _ => rfl⟩

/-- A thread opens a file, and a second thread gets a copy of its table: the count is 2. -/
theorem descriptor_counts_copied : ∃ s, Reach (Guarded sysStep keepsPointer) sysInit s ∧
    s.descs.refCount 1 = 2 ∧ CountsExact s := by
  have h0 : Reach (Guarded sysStep keepsPointer) sysInit emptySys := .start _ emptySys_init
  have h1 := Reach.next _ _ _ h0 ⟨sysStep.createThread _, trivial⟩
  have h2 := Reach.next _ _ _ h1 ⟨sysStep.openFile _, trivial⟩
  have h3 := Reach.next _ _ _ h2 ⟨sysStep.add _ 0 1 (by decide) (by decide), trivial⟩
  have h4 := Reach.next _ _ _ h3 ⟨sysStep.cloneCopy _ 0 (by decide), trivial⟩
  exact ⟨_, h4, by decide, descriptor_counts h4⟩

/-- **A freed descriptor gets an entry**: the table has one entry and no room. `copyfd(5, 0)` inserts
    an entry and then reads the descriptor of id 0 through a pointer into the storage that was given
    back; here it reads the number of a descriptor that was closed before. -/
theorem count_wrong : ¬ ∀ s, Reach sysStep sysInit s → CountsExact s := by
  intro hall
  have h0 : Reach sysStep sysInit emptySys := .start _ emptySys_init
  have h1 := Reach.next _ _ _ h0 (sysStep.createThread _)
  have h2 := Reach.next _ _ _ h1 (sysStep.openFile _)
  have h3 := Reach.next _ _ _ h2 (sysStep.openFile _)
  have h4 := Reach.next _ _ _ h3 (sysStep.closeFile _ 2 (by decide))
  have h5 := Reach.next _ _ _ h4 (sysStep.add _ 0 1 (by decide) (by decide))
  have h6 := Reach.next _ _ _ h5 (sysStep.replace _ 0 5 0 2 (by decide))
  have hlive := (hall _ h6).live 2 (by decide)
  exact absurd (hlive.mpr (by decide)) (by decide)

end Descriptors

end SimpleOS2
