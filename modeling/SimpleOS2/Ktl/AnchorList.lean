/-
  File:      SimpleOS2/Ktl/AnchorList.lean
  Subject:   LISTS OVER ANCHORS (ktl/AnchorList.h).

  An object carries an anchor for each kind of list it may be in; a list is two pointers and goes over one of the
  anchors. The operations are the pointer programs of Lib/IntrusiveList at this anchor.

  * `anchor` -- the links of an anchor member; `pushBack`, `erase`, `eraseObject`, `popFront`, `popBack` -- the
    operations; `forward`, `backward` -- the traversals;
  * `ListOp.apply` -- what an operation does to a sequence, `ListOp.Valid` -- when it may be called;
  * `Carries` -- both traversals show the sequence, the ends are null in the empty list only, and no other anchor is
    touched; `step_carries`, `anchor_list` -- it is so after every sequence of operations.
-/
import SimpleOS2.Lib.IntrusiveList

namespace SimpleOS2

open Lib

namespace AnchorList

/-! ## 1. The list -/

/-- `struct Anchor`. -/
structure Anchor (P : Type) where
  next : P
  prev : P

/-- The anchors of all objects; `K` names the anchor members. -/
abbrev Objects (K P : Type) := P → K → Anchor P

variable {K P : Type} [DecidableEq K] [DecidableEq P]

/-- `t->*AnchorMember = anchor`. -/
def setAnchor (m : Objects K P) (t : P) (k : K) (anchor : Anchor P) : Objects K P :=
  Function.update m t (Function.update (m t) k anchor)

theorem setAnchor_self (m : Objects K P) (t : P) (k : K) (x : Anchor P) :
    setAnchor m t k x t k = x := by
  unfold setAnchor
  rw [Function.update_self, Function.update_self]

theorem setAnchor_of {m : Objects K P} {t u : P} {k k' : K} {x : Anchor P} (h : u ≠ t ∨ k' ≠ k) :
    setAnchor m t k x u k' = m u k' := by
  unfold setAnchor
  by_cases hu : u = t
  · subst hu
    rw [Function.update_self, Function.update_of_ne (h.resolve_left fun hne => hne rfl)]
  · rw [Function.update_of_ne hu]

/-- The links of the anchor member `k`. -/
def anchor (null : P) (k : K) : LinkField (Objects K P) P where
  null := null
  next m p := (m p k).next
  prev m p := (m p k).prev
  setNext m p v := setAnchor m p k { m p k with next := v }
  setPrev m p v := setAnchor m p k { m p k with prev := v }
  apart p q := p ≠ q
  apart_symm h := h.symm
  apart_irrefl p h := h rfl
  next_setNext m p v := by rw [setAnchor_self]
  next_setNext_of m {p q} v h := by rw [setAnchor_of (Or.inl h.symm)]
  next_setPrev m p v := by rw [setAnchor_self]
  next_setPrev_of m {p q} v h := by rw [setAnchor_of (Or.inl h.symm)]
  prev_setPrev m p v := by rw [setAnchor_self]
  prev_setPrev_of m {p q} v h := by rw [setAnchor_of (Or.inl h.symm)]
  prev_setNext m p v := by rw [setAnchor_self]
  prev_setNext_of m {p q} v h := by rw [setAnchor_of (Or.inl h.symm)]

/-- The memory, and `m_Head` and `m_Tail` of the list. -/
structure ListState (K P : Type) where
  mem : Objects K P
  ends : Ends P

section Operations

variable (null : P) (k : K)

/-- `AnchorList()`. -/
def init (m : Objects K P) : ListState K P := ⟨m, ⟨null, null⟩⟩

/-- `push_back`. -/
def pushBack (s : ListState K P) (t : P) : ListState K P :=
  let r := Lib.pushBack (anchor null k) s.mem s.ends t
  ⟨r.1, r.2⟩

/-- `erase` of an iterator that stands at `t`. -/
def erase (s : ListState K P) (t : P) : ListState K P :=
  let r := Lib.erase (anchor null k) s.mem s.ends t
  ⟨r.1, r.2⟩

/-- `erase` of a pointer. -/
def eraseObject (fuel : Nat) (s : ListState K P) (t : P) : Option (ListState K P) :=
  (Lib.erasePtr (anchor null k) fuel s.mem s.ends t).map fun r => ⟨r.1, r.2⟩

/-- `pop_front`: `erase(begin())`. -/
def popFront (s : ListState K P) : ListState K P := erase null k s s.ends.head

/-- `pop_back`: `erase(before_end())`. -/
def popBack (s : ListState K P) : ListState K P := erase null k s s.ends.tail

/-- From `begin()` by `++` to `end()`. -/
def forward (s : ListState K P) (fuel : Nat) : Option (List P) :=
  traverse null (fun p => (s.mem p k).next) fuel s.ends.head

/-- From `before_end()` by `--` to the null pointer. -/
def backward (s : ListState K P) (fuel : Nat) : Option (List P) :=
  traverse null (fun p => (s.mem p k).prev) fuel s.ends.tail

end Operations

/-! ## 2. Sequences -/

/-- A call of one of the operations. -/
inductive ListOp (P : Type)
  | pushBack (t : P)
  | erase (t : P)
  | eraseObject (t : P)
  | popFront
  | popBack

namespace ListOp

/-- What the operation does to the sequence. -/
def apply (ps : List P) : ListOp P → List P
  | pushBack t => ps ++ [t]
  | erase t => ps.erase t
  | eraseObject t => ps.erase t
  | popFront => ps.tail
  | popBack => ps.dropLast

/-- Only an object that is not in the list is pushed, an iterator stands at an element, only what is there is
    popped. Any pointer may be erased. -/
def Valid (null : P) (ps : List P) : ListOp P → Prop
  | pushBack t => t ≠ null ∧ t ∉ ps
  | erase t => t ∈ ps
  | eraseObject _ => True
  | popFront => ps ≠ []
  | popBack => ps ≠ []

def exec (null : P) (k : K) (fuel : Nat) (s : ListState K P) : ListOp P → Option (ListState K P)
  | pushBack t => some (AnchorList.pushBack null k s t)
  | erase t => some (AnchorList.erase null k s t)
  | eraseObject t => AnchorList.eraseObject null k fuel s t
  | popFront => some (AnchorList.popFront null k s)
  | popBack => some (AnchorList.popBack null k s)

/-- The object that the operation pushes. -/
def pushed : ListOp P → List P
  | pushBack t => [t]
  | _ => []

/-- Every operation is valid where it is called. -/
def AllValid (null : P) : (ps : List P) → List (ListOp P) → Prop
  | _, [] => True
  | ps, op :: ops => op.Valid null ps ∧ AllValid null (op.apply ps) ops

/-- The operations one after the other. -/
def run (null : P) (k : K) (fuel : Nat) (s : ListState K P) (ops : List (ListOp P)) : Option (ListState K P) :=
  ops.foldlM (fun s op => op.exec null k fuel s) s

end ListOp

/-- The list shows the sequence. `m` is the memory at the start, `touched` are the objects that were in the list. -/
structure Carries (null : P) (k : K) (m : Objects K P) (touched : List P) (s : ListState K P) (ps : List P) :
    Prop where
  forward : Halts (forward null k s) ps
  backward : Halts (backward null k s) ps.reverse
  head : s.ends.head = null ↔ ps = []
  tail : s.ends.tail = null ↔ ps = []
  absent : ∀ t, t ∉ ps → Halts (fun fuel => eraseObject null k fuel s t) s
  /-- the anchors of other lists through the same objects -/
  others : ∀ p k', k' ≠ k → s.mem p k' = m p k'
  /-- and of lists of other objects -/
  outside : ∀ p, p ∉ touched → s.mem p k = m p k

/-! ## 3. The operations on the sequence -/

section Step

variable {null : P} {k : K} {m : Objects K P} {touched ps : List P} {s : ListState K P} {t : P}

/-- What every operation keeps. -/
structure ListInv (null : P) (k : K) (m : Objects K P) (touched : List P) (s : ListState K P) (ps : List P) :
    Prop where
  rep : Rep (anchor null k) s.mem s.ends ps
  others : ∀ p k', k' ≠ k → s.mem p k' = m p k'
  outside : ∀ p, p ∉ touched → s.mem p k = m p k
  inside : ∀ p ∈ ps, p ∈ touched

theorem ListInv.init (null : P) (k : K) (m : Objects K P) : ListInv null k m [] (init null m) [] :=
  ⟨rep_nil m, fun _ _ _ => rfl, fun _ _ => rfl, fun _ h => absurd h List.not_mem_nil⟩

theorem ListInv.carries (h : ListInv null k m touched s ps) : Carries null k m touched s ps where
  forward := h.rep.traverse_next
  backward := h.rep.traverse_prev
  head := h.rep.ends_null.1
  tail := h.rep.ends_null.2
  absent := fun t ht => ⟨ps.length + 1, fun fuel hf => by
    show eraseObject null k fuel s t = some s
    unfold eraseObject
    rw [erasePtr_not_mem h.rep ht hf]
    rfl⟩
  others := h.others
  outside := h.outside

/-- A link of the member `k` in an object of the list is neither an anchor of another member nor one of an object
    outside. -/
theorem reads_elsewhere {q : List P} {p : P} {k' : K} (h : p ∉ q ∨ k' ≠ k) :
    (∀ (m : Objects K P) v, ∀ x ∈ q, ((anchor null k).setNext m x v) p k' = m p k') ∧
      ∀ (m : Objects K P) v, ∀ x ∈ q, ((anchor null k).setPrev m x v) p k' = m p k' := by
  have hne : ∀ x ∈ q, p ≠ x ∨ k' ≠ k := fun x hx => h.imp_left fun hp he => hp (he ▸ hx)
  exact ⟨fun _ _ x hx => setAnchor_of (hne x hx), fun _ _ x hx => setAnchor_of (hne x hx)⟩

theorem ListInv.pushBack (h : ListInv null k m touched s ps) (hnull : t ≠ null) (ht : t ∉ ps) :
    ListInv null k m (touched ++ [t]) (pushBack null k s t) (ps ++ [t]) := by
  have hframe : ∀ p k', p ∉ t :: ps ∨ k' ≠ k → (AnchorList.pushBack null k s t).mem p k' = s.mem p k' :=
    fun p k' hp => pushBack_frame h.rep (fun m => m p k') (reads_elsewhere hp).1 (reads_elsewhere hp).2
  refine ⟨pushBack_rep h.rep hnull fun p hp he => ht (he ▸ hp), fun p k' hk => ?_, fun p hp => ?_, fun p hp => ?_⟩
  · exact (hframe p k' (Or.inr hk)).trans (h.others p k' hk)
  · have hout : p ∉ touched ∧ p ≠ t := by simpa using hp
    refine (hframe p k (Or.inl fun hmem => ?_)).trans (h.outside p hout.1)
    rcases List.mem_cons.mp hmem with he | hmem
    · exact hout.2 he
    · exact hout.1 (h.inside p hmem)
  · rcases List.mem_append.mp hp with hp | hp
    · exact List.mem_append_left _ (h.inside p hp)
    · exact List.mem_append_right _ hp

/-- Whatever way an element is named when it is unlinked. -/
theorem ListInv.unlink {qs : List P} (h : ListInv null k m touched s ps) (ht : t ∈ ps)
    (hrep : Rep (anchor null k) (erase null k s t).mem (erase null k s t).ends qs) (hqs : ∀ p ∈ qs, p ∈ ps) :
    ListInv null k m touched (erase null k s t) qs := by
  have hframe : ∀ p k', p ∉ ps ∨ k' ≠ k → (erase null k s t).mem p k' = s.mem p k' :=
    fun p k' hp => erase_frame h.rep ht (fun m => m p k') (reads_elsewhere hp).1 (reads_elsewhere hp).2
  refine ⟨hrep, fun p k' hk => ?_, fun p hp => ?_, fun p hp => h.inside p (hqs p hp)⟩
  · exact (hframe p k' (Or.inr hk)).trans (h.others p k' hk)
  · exact (hframe p k (Or.inl fun hmem => hp (h.inside p hmem))).trans (h.outside p hp)

theorem ListInv.erase (h : ListInv null k m touched s ps) (ht : t ∈ ps) :
    ListInv null k m touched (erase null k s t) (ps.erase t) :=
  h.unlink ht (erase_rep h.rep ht) fun _ hp => List.mem_of_mem_erase hp

theorem ListInv.popFront (h : ListInv null k m touched s ps) (hne : ps ≠ []) :
    ListInv null k m touched (popFront null k s) ps.tail := by
  obtain ⟨x, xs, rfl⟩ := List.exists_cons_of_ne_nil hne
  have hhead : s.ends.head = x := h.rep.head
  have herase := h.erase (t := x) List.mem_cons_self
  rw [List.erase_cons_head] at herase
  unfold AnchorList.popFront
  rw [hhead]
  exact herase

theorem ListInv.popBack (h : ListInv null k m touched s ps) (hne : ps ≠ []) :
    ListInv null k m touched (popBack null k s) ps.dropLast := by
  obtain ⟨xs, z, rfl⟩ := (List.eq_nil_or_concat' ps).resolve_left hne
  have htail : s.ends.tail = z := by
    rw [h.rep.tail]
    simp
  have hsplit : Rep (anchor null k) (AnchorList.erase null k s z).mem (AnchorList.erase null k s z).ends (xs ++ []) :=
    erase_rep_split h.rep
  rw [List.append_nil] at hsplit
  unfold AnchorList.popBack
  rw [htail, List.dropLast_concat]
  exact h.unlink (by simp) hsplit fun p hp => List.mem_append_left _ hp

/-- **One operation.** -/
theorem step_inv {op : ListOp P} (h : ListInv null k m touched s ps) (hop : op.Valid null ps) :
    ∃ s', Halts (fun fuel => op.exec null k fuel s) s' ∧
      ListInv null k m (touched ++ op.pushed) s' (op.apply ps) := by
  cases op with
  | pushBack t => exact ⟨_, Halts.const _, h.pushBack hop.1 hop.2⟩
  | erase t => exact ⟨_, Halts.const _, (List.append_nil touched).symm ▸ h.erase hop⟩
  | eraseObject t =>
      rw [show touched ++ (ListOp.eraseObject t).pushed = touched from List.append_nil touched]
      by_cases ht : t ∈ ps
      · refine ⟨_, ⟨ps.length + 1, fun fuel hf => ?_⟩, h.erase ht⟩
        show eraseObject null k fuel s t = _
        unfold eraseObject
        rw [erasePtr_mem h.rep ht hf]
        rfl
      · refine ⟨s, h.carries.absent t ht, ?_⟩
        rw [show (ListOp.eraseObject t).apply ps = ps from List.erase_of_not_mem ht]
        exact h
  | popFront => exact ⟨_, Halts.const _, (List.append_nil touched).symm ▸ h.popFront hop⟩
  | popBack => exact ⟨_, Halts.const _, (List.append_nil touched).symm ▸ h.popBack hop⟩

/-- **Every sequence of operations.** -/
theorem run_inv {ops : List (ListOp P)} (h : ListInv null k m touched s ps) (hops : ListOp.AllValid null ps ops) :
    ∃ s', Halts (fun fuel => ListOp.run null k fuel s ops) s' ∧
      ListInv null k m (touched ++ ops.flatMap ListOp.pushed) s' (ops.foldl ListOp.apply ps) := by
  induction ops generalizing touched s ps with
  | nil => exact ⟨s, Halts.const s, by rw [List.flatMap_nil, List.append_nil]; exact h⟩
  | cons op ops ih =>
      obtain ⟨s1, h1, hinv1⟩ := step_inv h hops.1
      obtain ⟨s2, h2, hinv2⟩ := ih hinv1 hops.2
      refine ⟨s2, h1.bind h2, ?_⟩
      rw [List.flatMap_cons, ← List.append_assoc]
      exact hinv2

end Step

/-- **The list is a sequence**: after any valid operations, it shows what the operations make of the empty sequence. -/
theorem anchor_list (null : P) (k : K) (m : Objects K P) (ops : List (ListOp P))
    (hops : ListOp.AllValid null [] ops) :
    ∃ s, Halts (fun fuel => ListOp.run null k fuel (init null m) ops) s ∧
      Carries null k m (ops.flatMap ListOp.pushed) s (ops.foldl ListOp.apply []) := by
  obtain ⟨s, hrun, hinv⟩ := run_inv (ListInv.init null k m) hops
  exact ⟨s, hrun, hinv.carries⟩

/-- Three objects, the middle one erased, and a pointer erased that is not in the list. -/
def middleErased : List (ListOp Nat) := [.pushBack 1, .pushBack 2, .pushBack 3, .erase 2, .eraseObject 2]

theorem anchor_list_middle : ∃ s, Halts (fun fuel => ListOp.run 0 true fuel (init 0 fun _ _ => ⟨7, 8⟩) middleErased) s ∧
    Carries 0 true (fun _ _ => ⟨7, 8⟩) [1, 2, 3] s [1, 3] :=
  anchor_list 0 true (fun _ _ => ⟨7, 8⟩) middleErased
    ⟨⟨by decide, by decide⟩, ⟨by decide, by decide⟩, ⟨by decide, by decide⟩, show 2 ∈ [1, 2, 3] by decide, trivial,
      trivial⟩

end AnchorList

end SimpleOS2
