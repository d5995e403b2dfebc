/-
  File:      SimpleOS2/Scheduler/DescriptorTables.lean
  Subject:   THE DESCRIPTOR TABLES ARE SORTED.

  * `look` -- the descriptor under an id, as a function of the list of entries;
  * `TableOk` -- ids strictly increasing from 0 on, and a lookup finds what was last installed;
  * `goodCall` -- the calls that keep a table in order: an id that is inserted is not negative, and
    the pointer to the entry it is copied from survives the insertion;
  * `tablesOk_reach`, `descriptor_table_wf`; `table_broken` -- a negative id makes a duplicate.
-/
import Mathlib.Order.Bounds.Defs
import SimpleOS2.Scheduler.DescriptorCounts

namespace SimpleOS2

open Lib

namespace Descriptors

/-! ## 1. Lookups -/

/-- The descriptor of the first entry with this id. -/
def look (es : List ThreadFileDescriptor) (id : Int) : Nat :=
  ((es.find? fun a => a.id = id).map (·.sysDesc)).getD 0

theorem get_eq_look (v : Vec) (id : Int) : threadGetSystemFileDescriptor v id = look v.elems id := by
  have key : ∀ es : List ThreadFileDescriptor,
      ((es.findIdx? fun a => a.id = id).map fun i => ((es[i]?).map (·.sysDesc)).getD 0).getD 0 =
        look es id := by
    intro es
    induction es with
    | nil => rfl
    | cons a rest ih =>
        by_cases ha : a.id = id
        · simp [List.findIdx?_cons, look, ha]
        · have h1 : look (a :: rest) id = look rest id := by simp [look, ha]
          rw [h1, ← ih, List.findIdx?_cons, if_neg (by simpa using ha), Option.map_map]
          congr 2
  exact key v.elems

/-- Entries with strictly increasing ids. -/
def Sorted (es : List ThreadFileDescriptor) : Prop := es.Pairwise fun a b => a.id < b.id

section Look

variable {es pre post : List ThreadFileDescriptor} {a : ThreadFileDescriptor}

theorem look_absent {id : Int} (h : ∀ e ∈ es, e.id ≠ id) : look es id = 0 := by
  have hnone : (es.find? fun a => a.id = id) = none := List.find?_eq_none.mpr fun e he => by
    simpa using h e he
  simp [look, hnone]

/-- An entry that is the first with its id, among the others. -/
theorem look_middle (h : ∀ e ∈ pre, e.id ≠ a.id) (id : Int) :
    look (pre ++ a :: post) id = if id = a.id then a.sysDesc else look (pre ++ post) id := by
  induction pre with
  | nil =>
      by_cases hid : id = a.id
      · simp [look, hid]
      · have hne : ¬ a.id = id := fun e => hid e.symm
        simp [look, hid, hne]
  | cons b pre ih =>
      have hrec := ih fun e he => h e (List.mem_cons_of_mem _ he)
      have hb := h b List.mem_cons_self
      by_cases hbi : b.id = id
      · have hid : ¬ id = a.id := fun e => hb (hbi.trans e)
        simp [look, hbi, hid]
      · have h1 : ∀ l, look (b :: l) id = look l id := fun l => by simp [look, hbi]
        rw [List.cons_append, List.cons_append, h1, h1, hrec]

theorem look_mem (hs : Sorted es) (h : a ∈ es) : look es a.id = a.sysDesc := by
  obtain ⟨pre, post, rfl⟩ := List.append_of_mem h
  have hne : ∀ e ∈ pre, e.id ≠ a.id := fun e he =>
    Int.ne_of_lt ((List.pairwise_append.mp hs).2.2 e he a List.mem_cons_self)
  rw [look_middle hne, if_pos rfl]

/-- The closed ids are left out without being missed. -/
theorem look_filter (hs : Sorted es) (id : Int) :
    look (es.filter fun fd => fd.sysDesc ≠ 0) id = look es id := by
  induction es with
  | nil => rfl
  | cons b rest ih =>
      obtain ⟨hb, hrest⟩ := List.pairwise_cons.mp hs
      by_cases h0 : b.sysDesc = 0
      · rw [List.filter_cons_of_neg (by simp [h0]), ih hrest]
        by_cases hid : b.id = id
        · have habs : look rest id = 0 :=
            look_absent fun e he => Int.ne_of_gt (hid ▸ hb e he)
          rw [habs]
          simp [look, hid, h0]
        · simp [look, hid]
      · rw [List.filter_cons_of_pos (by simp [h0])]
        by_cases hid : b.id = id
        · simp [look, hid]
        · have h1 : ∀ l, look (b :: l) id = look l id := fun l => by simp [look, hid]
          rw [h1, h1, ih hrest]

theorem insertIdx_split (pre post : List ThreadFileDescriptor) (a : ThreadFileDescriptor) :
    (pre ++ post).insertIdx pre.length a = pre ++ a :: post := by
  induction pre with
  | nil => rfl
  | cons b pre ih =>
      rw [List.cons_append, List.length_cons, List.insertIdx_succ_cons, ih]
      rfl

theorem split_at {i : Nat} (h : es[i]? = some a) :
    ∃ pre post, es = pre ++ a :: post ∧ pre.length = i ∧ ∀ x, es.set i x = pre ++ x :: post := by
  induction es generalizing i with
  | nil => exact absurd h (by simp)
  | cons b rest ih =>
      cases i with
      | zero =>
          obtain rfl : b = a := by simpa using h
          exact ⟨[], rest, rfl, rfl, fun x => rfl⟩
      | succ i =>
          obtain ⟨pre, post, h1, h2, h3⟩ := ih (by simpa using h)
          refine ⟨b :: pre, post, by rw [h1]; rfl, by rw [List.length_cons, h2], fun x => ?_⟩
          rw [List.set_cons_succ, h3]
          rfl

/-- An entry in the middle of a sorted table. -/
theorem sorted_middle (hs : Sorted (pre ++ post)) (h1 : ∀ e ∈ pre, e.id < a.id)
    (h2 : ∀ e ∈ post, a.id < e.id) : Sorted (pre ++ a :: post) := by
  obtain ⟨hp, hq, hpq⟩ := List.pairwise_append.mp hs
  refine List.pairwise_append.mpr ⟨hp, List.pairwise_cons.mpr ⟨h2, hq⟩, fun x hx y hy => ?_⟩
  cases List.mem_cons.mp hy with
  | inl h => rw [h]; exact h1 x hx
  | inr h => exact hpq x hx y h

theorem sorted_remove (hs : Sorted (pre ++ a :: post)) :
    Sorted (pre ++ post) ∧ (∀ e ∈ pre, e.id < a.id) ∧ ∀ e ∈ post, a.id < e.id := by
  obtain ⟨hp, hq, hpq⟩ := List.pairwise_append.mp hs
  obtain ⟨h2, hq⟩ := List.pairwise_cons.mp hq
  exact ⟨List.pairwise_append.mpr ⟨hp, hq, fun x hx y hy => hpq x hx y (List.mem_cons_of_mem _ hy)⟩,
    fun e he => hpq e he a List.mem_cons_self, h2⟩

end Look

/-! ## 2. The free id -/

/-- **The scan of `FindFreeFD`** on a sorted table: the ids before the position are all there, the
    ids behind it are larger than the new one. -/
theorem freeSlot_spec {es : List ThreadFileDescriptor} {lastFD : Int} (hs : Sorted es)
    (hgt : ∀ e ∈ es, lastFD < e.id) :
    ∃ pre post, es = pre ++ post ∧ pre.length = (freeSlot lastFD es).1 ∧
      (∀ e ∈ pre, e.id < (freeSlot lastFD es).2) ∧ (∀ e ∈ post, (freeSlot lastFD es).2 < e.id) ∧
      lastFD < (freeSlot lastFD es).2 ∧
      ∀ x, lastFD < x → x < (freeSlot lastFD es).2 → ∃ e ∈ pre, e.id = x := by
  induction es generalizing lastFD with
  | nil =>
      refine ⟨[], [], rfl, rfl, by simp, by simp, Int.lt_succ lastFD, fun x h1 h2 => ?_⟩
      have h2 : x < lastFD + 1 := h2
      omega
  | cons a rest ih =>
      obtain ⟨ha, hrest⟩ := List.pairwise_cons.mp hs
      have hal := hgt a List.mem_cons_self
      by_cases h : a.id ≠ lastFD + 1
      · have heq : freeSlot lastFD (a :: rest) = (0, lastFD + 1) := by simp [freeSlot, h]
        rw [heq]
        refine ⟨[], a :: rest, rfl, rfl, by simp, fun e he => ?_, Int.lt_succ lastFD, fun x h1 h2 => ?_⟩
        · cases List.mem_cons.mp he with
          | inl he => rw [he]; show lastFD + 1 < a.id; omega
          | inr he => have := ha e he; show lastFD + 1 < e.id; omega
        · have h2 : x < lastFD + 1 := h2
          omega
      · have h : a.id = lastFD + 1 := not_not.mp h
        have heq : freeSlot lastFD (a :: rest) =
            ((freeSlot a.id rest).1 + 1, (freeSlot a.id rest).2) := by simp [freeSlot, h]
        obtain ⟨pre, post, h1, h2, h3, h4, h5, h6⟩ := ih hrest ha
        rw [heq]
        refine ⟨a :: pre, post, by rw [h1]; rfl, by rw [List.length_cons, h2], fun e he => ?_, h4,
          Int.lt_trans hal h5, fun x hx1 hx2 => ?_⟩
        · cases List.mem_cons.mp he with
          | inl he => rw [he]; exact h5
          | inr he => exact h3 e he
        · by_cases hxa : x = a.id
          · exact ⟨a, List.mem_cons_self, hxa.symm⟩
          · obtain ⟨e, he, hex⟩ := h6 x (by omega) hx2
            exact ⟨e, List.mem_cons_of_mem _ he, hex⟩

/-- The position `ThreadReplaceFileDescriptor` inserts at, in a sorted table without the id. -/
theorem insertPos_spec {es : List ThreadFileDescriptor} {id : Int} (hs : Sorted es)
    (habs : ∀ e ∈ es, e.id ≠ id) :
    ∃ pre post, es = pre ++ post ∧ pre.length = insertPos id es ∧ (∀ e ∈ pre, e.id < id) ∧
      ∀ e ∈ post, id < e.id := by
  induction es with
  | nil => exact ⟨[], [], rfl, rfl, by simp, by simp⟩
  | cons a rest ih =>
      obtain ⟨ha, hrest⟩ := List.pairwise_cons.mp hs
      by_cases h : a.id > id
      · refine ⟨[], a :: rest, rfl, ?_, by simp, fun e he => ?_⟩
        · simp [insertPos, List.findIdx_cons, h]
        · cases List.mem_cons.mp he with
          | inl he => rw [he]; exact h
          | inr he => exact Int.lt_trans h (ha e he)
      · obtain ⟨pre, post, h1, h2, h3, h4⟩ := ih hrest fun e he => habs e (List.mem_cons_of_mem _ he)
        refine ⟨a :: pre, post, by rw [h1]; rfl, ?_, fun e he => ?_, h4⟩
        · have : insertPos id (a :: rest) = insertPos id rest + 1 := by
            simp [insertPos, List.findIdx_cons, h]
          rw [List.length_cons, h2, this]
        · cases List.mem_cons.mp he with
          | inl he =>
              have := habs a List.mem_cons_self
              rw [he]
              omega
          | inr he => exact h3 e he

/-! ## 3. One call -/

/-- Ids strictly increasing from 0 on; a lookup finds what was last installed. -/
structure TableOk (es : List ThreadFileDescriptor) (last : Int → Nat) : Prop where
  sorted : Sorted es
  nonneg : ∀ e ∈ es, 0 ≤ e.id
  finds : ∀ id, look es id = last id

/-- Every closed id has a missing one below it. -/
def ClosedAboveGap (es : List ThreadFileDescriptor) : Prop :=
  ∀ e ∈ es, e.sysDesc = 0 → ∃ j, 0 ≤ j ∧ j < e.id ∧ ∀ e' ∈ es, e'.id ≠ j

/-- The call inserts an entry for `old`. -/
def inserts (v : Vec) (old new : Int) : Prop :=
  old ≠ new ∧ (∃ n, lastWith new v.elems = some n ∧ v.sysDescAt n ≠ 0) ∧ lastWith old v.elems = none

section Calls

variable {v : Vec} {last : Int → Nat}

/-- **`ThreadAddFileDescriptor`** puts the descriptor under the first missing id. -/
theorem add_spec (hT : TableOk v.elems last) (d : Nat) :
    TableOk (threadAddFileDescriptor v d).1.elems
        (Function.update last (threadAddFileDescriptor v d).2 d) ∧
      (IsLeast {id : Int | 0 ≤ id ∧ look v.elems id = 0} (threadAddFileDescriptor v d).2 ↔
        ClosedAboveGap v.elems) := by
  have hgt : ∀ e ∈ v.elems, (-1 : Int) < e.id := fun e he => by
    have := hT.nonneg e he
    omega
  obtain ⟨pre, post, h1, h2, h3, h4, h5, h6⟩ := freeSlot_spec hT.sorted hgt
  have hle := freeSlot_le (-1) v.elems
  have hid : (threadAddFileDescriptor v d).2 = (freeSlot (-1) v.elems).2 := rfl
  have helems : (threadAddFileDescriptor v d).1.elems =
      pre ++ ⟨(freeSlot (-1) v.elems).2, d⟩ :: post := by
    simp only [threadAddFileDescriptor, findFreeFD]
    rw [insertAt_setSysDesc hle, ← h2]
    nth_rewrite 1 [h1]
    exact insertIdx_split pre post _
  rw [hid, helems]
  generalize (freeSlot (-1) v.elems).2 = j at *
  have hj0 : 0 ≤ j := by omega
  have habs : ∀ e ∈ v.elems, e.id ≠ j := fun e he => by
    rw [h1] at he
    cases List.mem_append.mp he with
    | inl he => exact Int.ne_of_lt (h3 e he)
    | inr he => exact Int.ne_of_gt (h4 e he)
  have hpre : ∀ e ∈ pre, e.id ≠ j := fun e he => Int.ne_of_lt (h3 e he)
  refine ⟨⟨sorted_middle (h1 ▸ hT.sorted) h3 h4, fun e he => ?_, fun id => ?_⟩, fun h => ?_, fun h => ?_⟩
  · cases List.mem_append.mp he with
    | inl he => exact hT.nonneg e (h1 ▸ List.mem_append_left _ he)
    | inr he =>
        cases List.mem_cons.mp he with
        | inl he => rw [he]; exact hj0
        | inr he => exact hT.nonneg e (h1 ▸ List.mem_append_right _ he)
  · rw [look_middle hpre, ← h1, hT.finds id]
    simp only [Function.update_apply]
  · -- a closed id below the new one would be smaller and not open
    intro e he h0
    refine ⟨j, hj0, ?_, habs⟩
    by_contra hlt
    have hmem : 0 ≤ e.id ∧ look v.elems e.id = 0 :=
      ⟨hT.nonneg e he, by rw [look_mem hT.sorted he, h0]⟩
    have := h.2 hmem
    have := habs e he
    omega
  · refine ⟨⟨hj0, look_absent habs⟩, fun x hx => ?_⟩
    obtain ⟨hx0, hxl⟩ : 0 ≤ x ∧ look v.elems x = 0 := hx
    by_contra hlt
    obtain ⟨e, he, hex⟩ := h6 x (by omega) (by omega)
    have hemem : e ∈ v.elems := h1 ▸ List.mem_append_left _ he
    have hz : e.sysDesc = 0 := by rw [← look_mem hT.sorted hemem, hex, hxl]
    obtain ⟨y, hy0, hye, hyabs⟩ := h e hemem hz
    obtain ⟨e', he', hey⟩ := h6 y (by omega) (by omega)
    exact hyabs e' (h1 ▸ List.mem_append_left _ he') hey

/-- Setting the descriptor of an entry. -/
theorem set_spec (hT : TableOk v.elems last) {i : Nat} {fd : ThreadFileDescriptor}
    (h : v.elems[i]? = some fd) (x : Nat) :
    TableOk (v.setSysDesc i x).elems (Function.update last fd.id x) := by
  obtain ⟨pre, post, h1, -, h3⟩ := split_at h
  have hs := hT.sorted
  rw [h1] at hs
  obtain ⟨hrem, hlt, hgt⟩ := sorted_remove hs
  rw [setSysDesc_elems h, h3]
  refine ⟨sorted_middle hrem hlt hgt, fun e he => ?_, fun id => ?_⟩
  · have hall : ∀ e ∈ pre ++ fd :: post, 0 ≤ e.id := fun e he => hT.nonneg e (h1 ▸ he)
    cases List.mem_append.mp he with
    | inl he => exact hall e (List.mem_append_left _ he)
    | inr he =>
        cases List.mem_cons.mp he with
        | inl he => rw [he]; exact hall fd (List.mem_append_right _ List.mem_cons_self)
        | inr he => exact hall e (List.mem_append_right _ (List.mem_cons_of_mem _ he))
  · have hne : ∀ e ∈ pre, e.id ≠ fd.id := fun e he => Int.ne_of_lt (hlt e he)
    have hold := hT.finds id
    rw [h1, look_middle hne] at hold
    have hnew : look (pre ++ ⟨fd.id, x⟩ :: post) id =
        if id = fd.id then x else look (pre ++ post) id :=
      look_middle (a := ⟨fd.id, x⟩) hne id
    rw [hnew]
    by_cases hid : id = fd.id
    · simp [hid]
    · rw [Function.update_of_ne hid, ← hold, if_neg hid, if_neg hid]

theorem look_of_lastWith (hT : TableOk v.elems last) {id : Int} {n : Nat}
    (h : lastWith id v.elems = some n) : v.sysDescAt n = last id := by
  obtain ⟨fd, hfd, hid⟩ := lastWith_some h
  rw [sysDescAt_eq hfd, ← hT.finds id, ← hid, look_mem hT.sorted (List.mem_of_getElem? hfd)]

/-- **`ThreadReplaceFileDescriptor`** installs the descriptor of `new` under `old`, if the id it
    inserts is a good one and the pointer to the entry of `new` survives the insertion. -/
theorem replace_spec (hT : TableOk v.elems last) {old new : Int} (D : Descs) (stale : Nat)
    (hok : inserts v old new → 0 ≤ old ∧ new < old ∧ ¬ v.full) :
    TableOk (threadReplaceFileDescriptor v D old new stale).1.elems
      (if (threadReplaceFileDescriptor v D old new stale).2.2 = OK ∧ old ≠ new then
        Function.update last old (last new) else last) := by
  by_cases hon : old = new
  · have hq : threadReplaceFileDescriptor v D old new stale = (v, D, OK) := if_pos hon
    rw [hq, if_neg (fun h => h.2 hon)]
    exact hT
  · have herr : ErrorInvalidFD ≠ OK := by decide
    cases hn : lastWith new v.elems with
    | none =>
        have hq : threadReplaceFileDescriptor v D old new stale = (v, D, ErrorInvalidFD) := by
          simp only [threadReplaceFileDescriptor, hon, if_false, hn]
        rw [hq, if_neg (fun h => herr h.1)]
        exact hT
    | some n =>
        have hsn := look_of_lastWith hT hn
        by_cases hz : v.sysDescAt n = 0
        · have hq : threadReplaceFileDescriptor v D old new stale = (v, D, ErrorInvalidFD) := by
            simp only [threadReplaceFileDescriptor, hon, if_false, hn, hz, if_true]
          rw [hq, if_neg (fun h => herr h.1)]
          exact hT
        · cases ho : lastWith old v.elems with
          | none =>
              obtain ⟨h0, hlt, hnf⟩ := hok ⟨hon, ⟨n, hn, hz⟩, ho⟩
              have habs := lastWith_none ho
              obtain ⟨pre, post, h1, h2, h3, h4⟩ := insertPos_spec hT.sorted habs
              have hle := insertPos_le old v.elems
              -- the entry of `new` lies in front of the new one and does not move
              have hcell : (v.insertAt (insertPos old v.elems) ⟨old, 0⟩).sysDescAt n = last new := by
                obtain ⟨fn, hfn, hid⟩ := lastWith_some hn
                have hnlt : n < insertPos old v.elems := by
                  by_contra hge
                  rw [h1, List.getElem?_append_right (by omega)] at hfn
                  have := h4 fn (List.mem_of_getElem? hfn)
                  omega
                have hsame : (v.insertAt (insertPos old v.elems) ⟨old, 0⟩).elems[n]? = some fn := by
                  simp only [Vec.insertAt]
                  rw [List.getElem?_insertIdx_of_lt hnlt]
                  exact hfn
                rw [sysDescAt_eq hsame, ← sysDescAt_eq hfn]
                exact hsn
              have hq : threadReplaceFileDescriptor v D old new stale =
                  ((v.insertAt (insertPos old v.elems) ⟨old, 0⟩).setSysDesc (insertPos old v.elems)
                    (last new), addRef D (last new), OK) := by
                simp only [threadReplaceFileDescriptor, hon, if_false, hn, hz, ho, cellAfter, hnf, hcell]
              rw [hq, if_pos ⟨rfl, hon⟩]
              dsimp only
              rw [insertAt_setSysDesc hle, ← h2]
              nth_rewrite 1 [h1]
              rw [insertIdx_split]
              have hpre : ∀ e ∈ pre, e.id ≠ old := fun e he => Int.ne_of_lt (h3 e he)
              refine ⟨sorted_middle (h1 ▸ hT.sorted) h3 h4, fun e he => ?_, fun id => ?_⟩
              · cases List.mem_append.mp he with
                | inl he => exact hT.nonneg e (h1 ▸ List.mem_append_left _ he)
                | inr he =>
                    cases List.mem_cons.mp he with
                    | inl he => rw [he]; exact h0
                    | inr he => exact hT.nonneg e (h1 ▸ List.mem_append_right _ he)
              · rw [look_middle hpre, ← h1, hT.finds id]
                simp only [Function.update_apply]
          | some o =>
              obtain ⟨fo, hfo, hid⟩ := lastWith_some ho
              have hso := look_of_lastWith hT ho
              have hset := set_spec hT hfo (v.sysDescAt n)
              rw [hid, hsn] at hset
              by_cases hoz : v.sysDescAt o = 0
              · have hq : threadReplaceFileDescriptor v D old new stale =
                    (v.setSysDesc o (v.sysDescAt n), addRef D (v.sysDescAt n), OK) := by
                  simp only [threadReplaceFileDescriptor, hon, if_false, hn, hz, ho, hoz, if_true]
                rw [hq, if_pos ⟨rfl, hon⟩]
                dsimp only
                rw [hsn]
                exact hset
              · by_cases hsame : v.sysDescAt o = v.sysDescAt n
                · have hq : threadReplaceFileDescriptor v D old new stale = (v, D, OK) := by
                    simp only [threadReplaceFileDescriptor, hon, if_false, hn, hz, ho, hsame,
                      if_true]
                  have hupd : Function.update last old (last new) = last := by
                    rw [← hsn, ← hsame, hso, Function.update_eq_self]
                  rw [hq, if_pos ⟨rfl, hon⟩, hupd]
                  exact hT
                · have hq : threadReplaceFileDescriptor v D old new stale =
                      (v.setSysDesc o (v.sysDescAt n),
                        addRef (close D (v.sysDescAt o)) (v.sysDescAt n), OK) := by
                    simp only [threadReplaceFileDescriptor, hon, if_false, hn, hz, ho, hoz, hsame]
                  rw [hq, if_pos ⟨rfl, hon⟩]
                  dsimp only
                  rw [hsn]
                  exact hset

/-- **`ThreadCloseFileDescriptor`** leaves nothing under the id. -/
theorem close_spec (hT : TableOk v.elems last) (D : Descs) (id : Int) :
    TableOk (threadCloseFileDescriptor v D id).1.elems (Function.update last id 0) := by
  have hkeep : look v.elems id = 0 → TableOk v.elems (Function.update last id 0) := fun h => by
    have hupd : Function.update last id 0 = last := by
      rw [← h, hT.finds id, Function.update_eq_self]
    rw [hupd]
    exact hT
  have hget : threadGetSystemFileDescriptor v id = look v.elems id := get_eq_look v id
  cases hi : firstWith id v.elems with
  | none =>
      have hq : threadCloseFileDescriptor v D id = (v, D, ErrorInvalidFD) := by
        simp only [threadCloseFileDescriptor, hi]
      rw [hq]
      refine hkeep ?_
      rw [← hget]
      simp [threadGetSystemFileDescriptor, hi]
  | some i =>
      obtain ⟨fd, hfd, hid⟩ := firstWith_some hi
      by_cases hz : v.sysDescAt i = 0
      · have hq : threadCloseFileDescriptor v D id = (v, D, ErrorInvalidFD) := by
          simp only [threadCloseFileDescriptor, hi, hz, if_true]
        rw [hq]
        refine hkeep ?_
        rw [← hget]
        simp [threadGetSystemFileDescriptor, hi, hz]
      · have hq : threadCloseFileDescriptor v D id =
            (v.setSysDesc i 0, close D (v.sysDescAt i), OK) := by
          simp only [threadCloseFileDescriptor, hi, hz, if_false]
        rw [hq, ← hid]
        exact set_spec hT hfd 0

/-- **The copy of `CloneThread`** has the same descriptors under the same ids. -/
theorem clone_spec (hT : TableOk v.elems last) (D : Descs) :
    TableOk (cloneTable v D).1.elems last := by
  have helems : (cloneTable v D).1.elems = v.elems.filter fun fd => fd.sysDesc ≠ 0 := by
    rw [cloneTable_eq, clone_elems]
    rfl
  rw [helems]
  refine ⟨hT.sorted.filter _, fun e he => hT.nonneg e (List.mem_of_mem_filter he), fun id => ?_⟩
  rw [look_filter hT.sorted, hT.finds id]

end Calls

/-! ## 4. Whole runs -/

/-- An id that `ThreadReplaceFileDescriptor` inserts is not negative and larger than the id it is
    copied from, and the vector has room. -/
def goodCall (s : Sys) : Event → Prop
  | .replace k old new _ =>
      inserts (s.tables k).fds old new → 0 ≤ old ∧ new < old ∧ ¬ (s.tables k).fds.full
  | _ => True

def TablesOk (s : Sys) : Prop := ∀ k, TableOk (s.tables k).fds.elems (s.tables k).last

section Runs

variable {s : Sys}

theorem tableOk_empty : TableOk [] fun _ => 0 := ⟨List.Pairwise.nil, by simp, fun _ => rfl⟩

theorem tablesOk_init (h : sysInit s) : TablesOk s := fun k => by
  rw [h.2.2.2.1 k]
  exact tableOk_empty

theorem tablesOk_set (hT : TablesOk s) {k : Nat} {t : Table} (h : TableOk t.fds.elems t.last) (j : Nat) :
    TableOk ((s.setTable k t).tables j).fds.elems ((s.setTable k t).tables j).last := by
  by_cases hj : j = k
  · subst hj
    simp only [Sys.setTable, Function.update_self]
    exact h
  · simp only [Sys.setTable, Function.update_of_ne hj]
    exact hT j

theorem tablesOk_step {s' : Sys} {ev : Event} (hT : TablesOk s)
    (hs : Guarded sysStep goodCall s ev s') : TablesOk s' := by
  obtain ⟨hs, hok⟩ := hs
  cases hs with
  | createThread => exact tablesOk_set hT tableOk_empty
  | openFile => exact hT
  | closeFile desc h => exact hT
  | add k desc hk h => exact tablesOk_set hT (add_spec (hT k) desc).1
  | replace k old new stale hk =>
      have hspec := replace_spec (hT k) s.descs stale hok
      refine tablesOk_set hT ?_
      dsimp only
      rw [get_eq_look, (hT k).finds new]
      exact hspec
  | close k id hk => exact tablesOk_set hT (close_spec (hT k) s.descs id)
  | cloneShare k hk => exact tablesOk_set hT (hT k)
  | cloneCopy k hk => exact tablesOk_set hT (clone_spec (hT k) s.descs)
  | exit k hk =>
      unfold Sys.exitThread
      dsimp only
      split_ifs
      · exact tablesOk_set hT tableOk_empty
      · exact tablesOk_set hT (hT k)

theorem tablesOk_reach (h : Reach (Guarded sysStep goodCall) sysInit s) : TablesOk s :=
  Reach.inv (I := TablesOk) (fun _ h0 => tablesOk_init h0) (fun _ _ _ hT hs => tablesOk_step hT hs) h

end Runs

/-- A well-formed table. -/
structure WellFormed (t : Table) : Prop where
  /-- The ids are strictly increasing, hence distinct. -/
  sorted : Sorted t.fds.elems
  /-- A lookup finds the one descriptor last installed under the id, none after a close. -/
  finds : ∀ id, threadGetSystemFileDescriptor t.fds id = t.last id
  /-- The next `ThreadAddFileDescriptor` returns the smallest id that is not open, exactly if every
      closed id has a missing one below it. -/
  adds : ∀ d, IsLeast {id : Int | 0 ≤ id ∧ threadGetSystemFileDescriptor t.fds id = 0}
      (threadAddFileDescriptor t.fds d).2 ↔ ClosedAboveGap t.fds.elems

/-- **Every table is well-formed** in every state of every run of good calls. -/
theorem descriptor_table_wf {s : Sys} (h : Reach (Guarded sysStep goodCall) sysInit s) (k : Nat) :
    WellFormed (s.tables k) := by
  have hT := tablesOk_reach h k
  refine ⟨hT.sorted, fun id => ?_, fun d => ?_⟩
  · rw [get_eq_look, hT.finds id]
  · have hadd := (add_spec hT d).2
    simp only [get_eq_look]
    exact hadd

/-- A thread opens two files and copies the first descriptor to the id 5. -/
theorem descriptor_table_wf_copied : ∃ s, Reach (Guarded sysStep goodCall) sysInit s ∧
    (s.tables 0).fds.elems = [⟨0, 1⟩, ⟨1, 2⟩, ⟨2, 3⟩, ⟨5, 1⟩] ∧ WellFormed (s.tables 0) := by
  have h0 : Reach (Guarded sysStep goodCall) sysInit emptySys := .start _ emptySys_init
  have h1 := Reach.next _ _ _ h0 ⟨sysStep.createThread _, trivial⟩
  have h2 := Reach.next _ _ _ h1 ⟨sysStep.openFile _, trivial⟩
  have h3 := Reach.next _ _ _ h2 ⟨sysStep.add _ 0 1 (by decide) (by decide), trivial⟩
  have h4 := Reach.next _ _ _ h3 ⟨sysStep.openFile _, trivial⟩
  have h5 := Reach.next _ _ _ h4 ⟨sysStep.add _ 0 2 (by decide) (by decide), trivial⟩
  have h6 := Reach.next _ _ _ h5 ⟨sysStep.openFile _, trivial⟩
  have h7 := Reach.next _ _ _ h6 ⟨sysStep.add _ 0 3 (by decide) (by decide), trivial⟩
  have h8 := Reach.next _ _ _ h7 ⟨sysStep.replace _ 0 5 0 0 (by decide),
    fun _ => ⟨by decide, by decide, by decide⟩⟩
  exact ⟨_, h8, by decide, descriptor_table_wf h8 0⟩

/-- **A table gets the id 0 twice**: `copyfd(-1, 0)` puts an entry with a negative id in front, and
    the scan of the next `ThreadAddFileDescriptor` stops at it. -/
theorem table_broken : ¬ ∀ s, Reach sysStep sysInit s → ∀ k, Sorted (s.tables k).fds.elems := by
  intro hall
  have h0 : Reach sysStep sysInit emptySys := .start _ emptySys_init
  have h1 := Reach.next _ _ _ h0 (sysStep.createThread _)
  have h2 := Reach.next _ _ _ h1 (sysStep.openFile _)
  have h3 := Reach.next _ _ _ h2 (sysStep.openFile _)
  have h4 := Reach.next _ _ _ h3 (sysStep.add _ 0 1 (by decide) (by decide))
  have h5 := Reach.next _ _ _ h4 (sysStep.replace _ 0 (-1) 0 1 (by decide))
  have h6 := Reach.next _ _ _ h5 (sysStep.add _ 0 2 (by decide) (by decide))
  have hs := hall _ h6 0
  exact absurd hs (by unfold Sorted; decide)

end Descriptors

end SimpleOS2
