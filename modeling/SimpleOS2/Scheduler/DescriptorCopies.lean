/-
  File:      SimpleOS2/Scheduler/DescriptorCopies.lean
  Subject:   COPYING A DESCRIPTOR (ThreadReplaceFileDescriptor).

  The function looks both ids up, inserts an entry for `old` if there is none, and then reads the
  descriptor of `new` through the pointer it has kept.

  * `Copied` -- what the call is for; on any table, also one with an id in two entries;
  * `PointerReads` -- the pointer still reads the descriptor of `new`; `CopyOk` -- the condition;
  * `replace_eq` -- the three cases of an entry that is there are one;
  * `copied_iff`, `copyOk_distinct` -- the call copies exactly under the condition, which for a table with
    distinct ids is about the pointer; `neighbour_copied` -- a table of a forked thread where it fails.
-/
import SimpleOS2.Scheduler.DescriptorTables

namespace SimpleOS2

open Lib

namespace Descriptors

/-! ## 1. The purpose of the call -/

/-- The references after the descriptor `o` under an id has given way to `n`: `o` is closed once. -/
def copied (D : Descs) (o n : Nat) : Descs := if o = n then D else addRef (close D o) n

/-- The result `r` of copying `new` to `old`. -/
structure Copied (v : Vec) (D : Descs) (old new : Int) (r : Vec × Descs × Int) : Prop where
  invalid : look v.elems new = 0 → r = (v, D, ErrorInvalidFD)
  res : look v.elems new ≠ 0 → r.2.2 = OK
  finds : look v.elems new ≠ 0 → look r.1.elems old = look v.elems new
  others : look v.elems new ≠ 0 → ∀ id, id ≠ old → look r.1.elems id = look v.elems id
  descs : look v.elems new ≠ 0 → r.2.1 = copied D (look v.elems old) (look v.elems new)

/-- The pointer to position `n` reads `x` after the insertion for `old`: the storage is given back and its
    memory still says `x`, or the cell holds an entry with `x`, either one that stays where it is or one
    that has moved there. -/
def PointerReads (v : Vec) (old : Int) (n stale x : Nat) : Prop :=
  if v.full then stale = x
  else n < insertPos old v.elems ∧ v.sysDescAt n = x ∨ insertPos old v.elems < n ∧ v.sysDescAt (n - 1) = x

/-- **The condition.** The function works on the last entry with an id, a lookup finds the first one. -/
def CopyOk (v : Vec) (old new : Int) (stale : Nat) : Prop :=
  match lastWith new v.elems with
  | none => True
  | some n =>
      if v.sysDescAt n = 0 then look v.elems new = 0
      else look v.elems new ≠ 0 ∧
        match lastWith old v.elems with
        | none => PointerReads v old n stale (look v.elems new)
        | some o =>
            if firstWith old v.elems = some o then v.sysDescAt n = look v.elems new
            else look v.elems old = look v.elems new ∧ v.sysDescAt o = v.sysDescAt n

section Steps

variable {v : Vec} {D : Descs} {old new : Int} {n o x stale : Nat} {es : List ThreadFileDescriptor}

/-! ## 2. What the writes do to a lookup -/

theorem look_cons (a : ThreadFileDescriptor) (id : Int) :
    look (a :: es) id = if a.id = id then a.sysDesc else look es id := by
  by_cases h : a.id = id
  · simp [look, h]
  · simp [look, h]

theorem firstWith_cons (a : ThreadFileDescriptor) (id : Int) :
    firstWith id (a :: es) = if a.id = id then some 0 else (firstWith id es).map (· + 1) := by
  unfold firstWith
  rw [List.findIdx?_cons]
  by_cases h : a.id = id
  · simp [h]
  · simp [h]

/-- Setting the descriptor of an entry shows where the entry is the first one with its id. -/
theorem look_modify (id : Int) :
    look (es.modify o fun fd => { fd with sysDesc := x }) id =
      if firstWith id es = some o then x else look es id := by
  induction es generalizing o with
  | nil =>
      rw [List.modify_nil]
      rfl
  | cons a rest ih =>
      rw [firstWith_cons]
      cases o with
      | zero =>
          rw [List.modify_zero_cons, look_cons, look_cons]
          by_cases h : a.id = id
          · simp [h]
          · simp [h]
      | succ o =>
          rw [List.modify_succ_cons, look_cons, look_cons, ih]
          by_cases h : a.id = id
          · simp [h]
          · simp [h]

theorem look_setSysDesc (id : Int) :
    look (v.setSysDesc o x).elems id = if firstWith id v.elems = some o then x else look v.elems id :=
  look_modify id

/-- Inserting the first entry for an id. -/
theorem look_inserted (habs : ∀ e ∈ v.elems, e.id ≠ old) (id : Int) :
    look ((v.insertAt (insertPos old v.elems) ⟨old, 0⟩).setSysDesc (insertPos old v.elems) x).elems id =
      if id = old then x else look v.elems id := by
  have hle := insertPos_le old v.elems
  have hlen : (v.elems.take (insertPos old v.elems)).length = insertPos old v.elems := by
    rw [List.length_take, Nat.min_eq_left hle]
  have hsplit := insertIdx_split (v.elems.take (insertPos old v.elems)) (v.elems.drop (insertPos old v.elems)) ⟨old, x⟩
  rw [List.take_append_drop, hlen] at hsplit
  rw [insertAt_setSysDesc hle, hsplit, look_middle fun e he => habs e (List.mem_of_mem_take he),
    List.take_append_drop]

/-- What the pointer reads, cell by cell. -/
theorem cellAfter_iff (hx : x ≠ 0) :
    cellAfter v (insertPos old v.elems) ⟨old, 0⟩ n stale = x ↔ PointerReads v old n stale x := by
  have hle := insertPos_le old v.elems
  unfold cellAfter PointerReads
  split_ifs
  · exact Iff.rfl
  · show (((v.elems.insertIdx (insertPos old v.elems) ⟨old, 0⟩)[n]?).map (·.sysDesc)).getD 0 = x ↔ _
    rcases Nat.lt_trichotomy n (insertPos old v.elems) with hlt | heq | hgt
    · have hno : ¬ insertPos old v.elems < n := by omega
      rw [List.getElem?_insertIdx_of_lt hlt]
      exact ⟨fun h => Or.inl ⟨hlt, h⟩, fun h => (h.resolve_right fun h => hno h.1).2⟩
    · rw [heq, List.getElem?_insertIdx_self, if_pos hle]
      constructor
      · intro h
        exact absurd h.symm hx
      · intro hx
        rcases hx with h | h
        · exact absurd h.1 (Nat.lt_irrefl _)
        · exact absurd h.1 (Nat.lt_irrefl _)
    · have hno : ¬ n < insertPos old v.elems := by omega
      rw [List.getElem?_insertIdx_of_gt hgt]
      exact ⟨fun h => Or.inr ⟨hgt, h⟩, fun h => (h.resolve_left fun h => hno h.1).2⟩

/-! ## 3. The references -/

/-- Replacing a descriptor by another one is seen in the reference counts. -/
theorem copied_ne (hn : n ≠ 0) (hne : o ≠ n) : copied D o n ≠ D := by
  intro h
  have hcount : (close D o).refCount n = D.refCount n := by
    unfold close
    split_ifs
    · rfl
    · exact Function.update_of_ne (Ne.symm hne) _ _
    · exact Function.update_of_ne (Ne.symm hne) _ _
  have hadd : (copied D o n).refCount n = D.refCount n + 1 := by
    rw [copied, if_neg hne, addRef, if_neg hn]
    show Function.update (close D o).refCount n _ n = _
    rw [Function.update_self, hcount]
  rw [h] at hadd
  omega

theorem copied_zero (hn : n ≠ 0) : copied D 0 n = addRef D n := by
  rw [copied, if_neg (Ne.symm hn)]
  rfl

theorem setSysDesc_same {fd : ThreadFileDescriptor} (h : v.elems[o]? = some fd) :
    v.setSysDesc o (v.sysDescAt o) = v := by
  have helems : (v.setSysDesc o (v.sysDescAt o)).elems = v.elems := by
    rw [setSysDesc_elems h, sysDescAt_eq h]
    obtain ⟨pre, post, h1, -, h3⟩ := split_at h
    rw [h3]
    exact h1.symm
  cases v
  exact congrArg (fun e => Vec.mk e _) helems

/-! ## 4. Results -/

theorem replace_none (hne : old ≠ new) (hn : lastWith new v.elems = none) :
    threadReplaceFileDescriptor v D old new stale = (v, D, ErrorInvalidFD) := by
  simp only [threadReplaceFileDescriptor, hne, if_false, hn]

theorem replace_closed (hne : old ≠ new) (hn : lastWith new v.elems = some n) (hz : v.sysDescAt n = 0) :
    threadReplaceFileDescriptor v D old new stale = (v, D, ErrorInvalidFD) := by
  simp only [threadReplaceFileDescriptor, hne, if_false, hn, hz, if_true]

theorem replace_insert (hne : old ≠ new) (hn : lastWith new v.elems = some n)
    (hz : v.sysDescAt n ≠ 0) (ho : lastWith old v.elems = none)
    (hx : cellAfter v (insertPos old v.elems) ⟨old, 0⟩ n stale = x) :
    threadReplaceFileDescriptor v D old new stale =
      ((v.insertAt (insertPos old v.elems) ⟨old, 0⟩).setSysDesc (insertPos old v.elems) x, addRef D x, OK) := by
  simp only [threadReplaceFileDescriptor, hne, if_false, hn, hz, ho, hx]

/-- **The three cases of an entry that is there** do one thing: the descriptor gives way. -/
theorem replace_eq (hne : old ≠ new) (hn : lastWith new v.elems = some n) (hz : v.sysDescAt n ≠ 0)
    (ho : lastWith old v.elems = some o) :
    threadReplaceFileDescriptor v D old new stale =
      (v.setSysDesc o (v.sysDescAt n), copied D (v.sysDescAt o) (v.sysDescAt n), OK) := by
  by_cases hoz : v.sysDescAt o = 0
  · rw [hoz, copied_zero hz]
    simp only [threadReplaceFileDescriptor, hne, if_false, hn, hz, ho, hoz, if_true]
  · by_cases hsame : v.sysDescAt o = v.sysDescAt n
    · obtain ⟨fd, hfd, -⟩ := lastWith_some ho
      rw [copied, if_pos hsame, ← hsame, setSysDesc_same hfd]
      simp only [threadReplaceFileDescriptor, hne, if_false, hn, hz, ho, hsame, if_true]
    · rw [copied, if_neg hsame]
      simp only [threadReplaceFileDescriptor, hne, if_false, hn, hz, ho, hoz, hsame]

/-- A refusal is right for an id that is not open. -/
theorem copied_refused (r : Vec × Descs × Int) (hr : r = (v, D, ErrorInvalidFD)) :
    Copied v D old new r ↔ look v.elems new = 0 := by
  subst hr
  constructor
  · intro h
    by_contra hopen
    have hres : ErrorInvalidFD = OK := h.res hopen
    cases hres
  · intro h
    exact ⟨fun _ => rfl, fun hopen => absurd h hopen, fun hopen => absurd h hopen, fun hopen => absurd h hopen,
      fun hopen => absurd h hopen⟩

/-- A call that ends well is right for an id that is open, if it does what is asked. -/
theorem copied_done {v' : Vec} {D' : Descs} :
    Copied v D old new (v', D', OK) ↔ look v.elems new ≠ 0 ∧ look v'.elems old = look v.elems new ∧
      (∀ id, id ≠ old → look v'.elems id = look v.elems id) ∧
      D' = copied D (look v.elems old) (look v.elems new) := by
  constructor
  · intro h
    have hopen : look v.elems new ≠ 0 := fun hz => by
      have hres : OK = ErrorInvalidFD := congrArg (fun r => r.2.2) (h.invalid hz)
      cases hres
    exact ⟨hopen, h.finds hopen, h.others hopen, h.descs hopen⟩
  · intro hx
    obtain ⟨hopen, h1, h2, h3⟩ := hx
    exact ⟨fun hz => absurd hz hopen, fun _ => rfl, fun _ => h1, fun _ => h2, fun _ => h3⟩

/-- A lookup of `old` reads the entry the function works on, if that is the first one. -/
theorem look_firstWith {id : Int} (h : firstWith id v.elems = some o) : look v.elems id = v.sysDescAt o := by
  rw [← get_eq_look, threadGetSystemFileDescriptor, h]
  rfl

theorem firstWith_old {id : Int} (ho : lastWith old v.elems = some o) (h : firstWith id v.elems = some o) :
    id = old := by
  obtain ⟨fd, h1, h2⟩ := lastWith_some ho
  obtain ⟨fd', h3, h4⟩ := firstWith_some h
  rw [h1] at h3
  rw [← h2, ← h4, Option.some.inj h3]

/-- **Copying a descriptor copies the right one**, exactly under the condition. -/
theorem copied_iff (v : Vec) (D : Descs) {old new : Int} (stale : Nat) (hne : old ≠ new) :
    Copied v D old new (threadReplaceFileDescriptor v D old new stale) ↔ CopyOk v old new stale := by
  unfold CopyOk
  cases hn : lastWith new v.elems with
  | none =>
      rw [copied_refused _ (replace_none hne hn)]
      exact iff_true_intro (look_absent (lastWith_none hn))
  | some n =>
      dsimp only
      by_cases hz : v.sysDescAt n = 0
      · rw [if_pos hz]
        exact copied_refused _ (replace_closed hne hn hz)
      · rw [if_neg hz]
        cases ho : lastWith old v.elems with
        | none =>
            have habs := lastWith_none ho
            rw [replace_insert hne hn hz ho rfl, copied_done]
            refine and_congr_right fun hopen => ?_
            rw [look_inserted habs, if_pos rfl, look_absent habs, copied_zero hopen, ← cellAfter_iff hopen]
            refine ⟨fun h => h.1, fun h => ⟨h, fun id hid => ?_, by rw [h]⟩⟩
            rw [look_inserted habs, if_neg hid]
        | some o =>
            rw [replace_eq hne hn hz ho, copied_done]
            refine and_congr_right fun hopen => ?_
            have hother : ∀ id, id ≠ old →
                look (v.setSysDesc o (v.sysDescAt n)).elems id = look v.elems id := fun id hid => by
              rw [look_setSysDesc, if_neg fun h => hid (firstWith_old ho h)]
            dsimp only
            by_cases hf : firstWith old v.elems = some o
            · rw [if_pos hf, look_setSysDesc, if_pos hf, look_firstWith hf]
              exact ⟨fun h => h.1, fun h => ⟨h, hother, by rw [h]⟩⟩
            · -- the entry that a lookup finds is not touched
              rw [if_neg hf, look_setSysDesc, if_neg hf]
              refine and_congr_right fun hsame => ?_
              have hkeep : copied D (look v.elems old) (look v.elems new) = D := by rw [copied, if_pos hsame]
              rw [hkeep]
              constructor
              · intro h
                by_contra hdiff
                exact copied_ne hz hdiff h.2
              · intro h
                refine ⟨hother, ?_⟩
                rw [copied, if_pos h]

/-- With distinct ids the condition is about the pointer alone. -/
theorem copyOk_distinct (hd : (v.elems.map (·.id)).Nodup) :
    CopyOk v old new stale ↔
      ∀ n, lastWith new v.elems = some n → v.sysDescAt n ≠ 0 → lastWith old v.elems = none →
        PointerReads v old n stale (v.sysDescAt n) := by
  have hfirst : ∀ {id : Int} {i : Nat}, lastWith id v.elems = some i → firstWith id v.elems = some i := by
    intro id i hi
    obtain ⟨fd, h1, h2⟩ := lastWith_some hi
    have hlt := (List.getElem?_eq_some_iff.mp h1).1
    cases hf : firstWith id v.elems with
    | none =>
        have hnone := List.findIdx?_eq_none_iff.mp hf fd (List.mem_of_getElem? h1)
        exact absurd h2 (by simpa using hnone)
    | some j =>
        obtain ⟨fd', h3, h4⟩ := firstWith_some hf
        have hlt' := (List.getElem?_eq_some_iff.mp h3).1
        have heq : (v.elems.map (·.id))[j]? = (v.elems.map (·.id))[i]? := by
          rw [List.getElem?_map, List.getElem?_map, h1, h3, Option.map_some, Option.map_some, h2, h4]
        rw [(List.getElem?_inj (by rwa [List.length_map]) hd).mp heq]
  unfold CopyOk
  cases hn : lastWith new v.elems with
  | none => exact ⟨fun _ n h => (by cases h), fun _ => trivial⟩
  | some n =>
      have hlook := look_firstWith (hfirst hn)
      dsimp only
      rw [hlook]
      by_cases hz : v.sysDescAt n = 0
      · rw [if_pos hz]
        exact ⟨fun _ m hm hnz => absurd (Option.some.inj hm ▸ hz) hnz, fun _ => hz⟩
      · rw [if_neg hz]
        cases ho : lastWith old v.elems with
        | none =>
            exact ⟨fun h m hm _ _ => Option.some.inj hm ▸ h.2, fun h => ⟨hz, h n rfl hz rfl⟩⟩
        | some o =>
            dsimp only
            rw [if_pos (hfirst ho)]
            exact ⟨fun _ _ _ _ h => (by cases h), fun _ => ⟨hz, rfl⟩⟩

end Steps

/-- A table with room, and an id that is inserted behind the one it is copied from. -/
theorem copied_five : Copied ⟨[⟨0, 1⟩, ⟨1, 2⟩, ⟨2, 3⟩], 4⟩ ⟨fun _ => 1, fun _ => true, fun _ => 0⟩ 5 0
    (threadReplaceFileDescriptor ⟨[⟨0, 1⟩, ⟨1, 2⟩, ⟨2, 3⟩], 4⟩ ⟨fun _ => 1, fun _ => true, fun _ => 0⟩ 5 0 0) :=
  (copied_iff _ _ 0 (by decide)).mpr ((copyOk_distinct (by decide)).mpr fun n hn _ _ => by
    cases hn
    exact Or.inl ⟨by decide, rfl⟩)

/-- **The neighbour is copied**: a process with the ids 0 to 3 closes 1 and forks; the child copies 3 to 1, and
    1 is then what 2 is. -/
theorem neighbour_copied : ∃ s, Reach sysStep sysInit s ∧ 1 ∈ s.threads ∧
    (s.tables 1).fds.elems = [⟨0, 1⟩, ⟨2, 3⟩, ⟨3, 4⟩] ∧
    ((s.replace 1 1 3 0).tables 1).fds.elems = [⟨0, 1⟩, ⟨1, 3⟩, ⟨2, 3⟩, ⟨3, 4⟩] ∧
    ¬ Copied (s.tables 1).fds s.descs 1 3 (threadReplaceFileDescriptor (s.tables 1).fds s.descs 1 3 0) := by
  have h0 : Reach sysStep sysInit emptySys := .start _ emptySys_init
  have h1 := Reach.next _ _ _ h0 (sysStep.createThread _)
  have h2 := Reach.next _ _ _ h1 (sysStep.openFile _)
  have h3 := Reach.next _ _ _ h2 (sysStep.add _ 0 1 (by decide) (by decide))
  have h4 := Reach.next _ _ _ h3 (sysStep.openFile _)
  have h5 := Reach.next _ _ _ h4 (sysStep.add _ 0 2 (by decide) (by decide))
  have h6 := Reach.next _ _ _ h5 (sysStep.openFile _)
  have h7 := Reach.next _ _ _ h6 (sysStep.add _ 0 3 (by decide) (by decide))
  have h8 := Reach.next _ _ _ h7 (sysStep.openFile _)
  have h9 := Reach.next _ _ _ h8 (sysStep.add _ 0 4 (by decide) (by decide))
  have h10 := Reach.next _ _ _ h9 (sysStep.close _ 0 1 (by decide))
  have h11 := Reach.next _ _ _ h10 (sysStep.cloneCopy _ 0 (by decide))
  exact ⟨_, h11, by decide, by decide, by decide, fun h => absurd (h.finds (by decide)) (by decide)⟩

end Descriptors

end SimpleOS2
