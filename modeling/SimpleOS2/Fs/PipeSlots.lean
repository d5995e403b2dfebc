/-
  File:      SimpleOS2/Fs/PipeSlots.lean
  Subject:   THE SLOTS OF m_Pipes (CreateNode and DestroyNode of fs/PipeFS.cpp; CreatePipe, Close, AddRef and
             ReleaseNode of fs/VFS.cpp).

  A pipe node holds a slot. It is destroyed with its last reference, of which `CreatePipe` gives one to each
  of the two descriptors; a descriptor gives its own back with its last `Close`.

  * `createNode`, `destroyNode`, `Sys.createPipe`, `Sys.addRef`, `Sys.close` -- the source's functions; a slot is
    a `Log` of `Fs.PipeFS`, with the bytes that have gone through it since it was taken;
  * `slotStep` -- any sequence of these calls, with reads and writes in between;
  * `SlotInv`, `slotInv_step` -- nodes, descriptors and slots agree;
  * `pipe_slots` -- so slots are not shared, and a new pipe is empty.
-/
import SimpleOS2.Fs.AcquirePath
import SimpleOS2.Fs.PipeFS
import SimpleOS2.Lib.Tally

namespace SimpleOS2

open Lib

namespace PipeSlots

open PipeFS
open Lookup (permRead permWrite)

/-! ## 1. The functions -/

/-- `Node` of a pipe. -/
structure Node where
  id : Nat
  refCount : Nat
  linkCount : Nat

/-- `FileDescriptor`; `node` is the address of its node. -/
structure FileDescriptor where
  node : Nat
  refCount : Nat
  permissions : Nat

/-- `m_Pipes`, the nodes by address, and the descriptors. -/
structure Sys where
  pipes : List Log
  node : Nat → Option Node
  descs : List FileDescriptor

/-- The loop of `PipeFS::CreateNode`. -/
def takeFree : List Log → Option (List Log × Nat)
  | [] => none
  | l :: ls =>
      if l.pipe.free then
        some (⟨{ l.pipe with free := false, readPos := 0, writePos := 0 }, [], []⟩ :: ls, l.pipe.id)
      else (takeFree ls).map fun r => (l :: r.1, r.2)

/-- `PipeFS::CreateNode`: the pipes and the id of the node. `buffer` is what a new pipe's memory holds. -/
def createNode (pipes : List Log) (buffer : Nat → UInt8) : List Log × Nat :=
  match takeFree pipes with
  | some r => r
  | none => (pipes ++ [⟨⟨pipes.length, false, 0, 0, buffer⟩, [], []⟩], pipes.length)

/-- `PipeFS::DestroyNode`. -/
def destroyNode (pipes : List Log) (id : Nat) : List Log :=
  pipes.modify id fun l => { l with pipe := { l.pipe with free := true } }

namespace Sys

/-- `CreatePipe`, with the node at `a`. -/
def createPipe (s : Sys) (a : Nat) (buffer : Nat → UInt8) : Sys where
  pipes := (createNode s.pipes buffer).1
  node := Function.update s.node a (some ⟨(createNode s.pipes buffer).2, 2, 0⟩)
  descs := ⟨a, 1, permRead⟩ :: ⟨a, 1, permWrite⟩ :: s.descs

/-- `ReleaseNode`. -/
def releaseNode (s : Sys) (a : Nat) (n : Node) : Sys :=
  if n.refCount - 1 = 0 ∧ n.linkCount = 0 then
    { s with
      node := Function.update s.node a none
      pipes := destroyNode s.pipes n.id }
  else { s with node := Function.update s.node a (some { n with refCount := n.refCount - 1 }) }

/-- `AddRef`. -/
def addRef (s : Sys) (i : Nat) (d : FileDescriptor) : Sys :=
  { s with descs := s.descs.set i { d with refCount := d.refCount + 1 } }

/-- `Close` on a descriptor of the node `n`. -/
def close (s : Sys) (i : Nat) (d : FileDescriptor) (n : Node) : Sys :=
  if d.refCount - 1 = 0 then releaseNode { s with descs := s.descs.eraseIdx i } d.node n
  else { s with descs := s.descs.set i { d with refCount := d.refCount - 1 } }

end Sys

/-- What the descriptor has to permit. -/
def perm : Op → Nat
  | .read _ _ _ => permRead
  | .write _ _ _ _ => permWrite

inductive Event where
  | createPipe (a : Nat) (buffer : Nat → UInt8)
  | addRef (i : Nat)
  | close (i : Nat)
  | null
  | transfer (i : Nat) (op : Op)

inductive slotStep : Sys → Event → Sys → Prop where
  /-- `new Node()` gives an address that is not in use. -/
  | createPipe (s : Sys) (a : Nat) (buffer : Nat → UInt8) (ha : s.node a = none) :
      slotStep s (.createPipe a buffer) (s.createPipe a buffer)
  | addRef (s : Sys) (i : Nat) (d : FileDescriptor) (hd : s.descs[i]? = some d) :
      slotStep s (.addRef i) (s.addRef i d)
  | close (s : Sys) (i : Nat) (d : FileDescriptor) (n : Node) (hd : s.descs[i]? = some d)
      (hn : s.node d.node = some n) : slotStep s (.close i) (s.close i d n)
  /-- `AddRef` and `Close` of the null pointer. -/
  | null (s : Sys) : slotStep s .null s
  /-- A `_Read` or `_Write` through a descriptor. -/
  | transfer (s : Sys) (i : Nat) (op : Op) (d : FileDescriptor) (n : Node) (hd : s.descs[i]? = some d)
      (hp : d.permissions &&& perm op ≠ 0) (hn : s.node d.node = some n) :
      slotStep s (.transfer i op) { s with pipes := s.pipes.modify n.id (Log.apply · op) }

/-- No pipe has been created. -/
def slotInit (s : Sys) : Prop := s.pipes = [] ∧ (∀ a, s.node a = none) ∧ s.descs = []

/-- The descriptors of a node. -/
def openOn (descs : List FileDescriptor) (a : Nat) : Nat := descs.countP fun d => d.node = a

/-! ## 2. Slots -/

section Slots

variable {pipes pipes' : List Log} {id i : Nat} {l : Log} {buffer : Nat → UInt8}

theorem takeFree_some (h : takeFree pipes = some (pipes', id)) :
    ∃ i l, pipes[i]? = some l ∧ l.pipe.free = true ∧ id = l.pipe.id ∧
      pipes' = pipes.set i ⟨{ l.pipe with free := false, readPos := 0, writePos := 0 }, [], []⟩ := by
  induction pipes generalizing pipes' with
  | nil => cases h
  | cons l ls ih =>
      rw [takeFree] at h
      split_ifs at h with hfree
      · cases h
        exact ⟨0, l, rfl, hfree, rfl, rfl⟩
      · obtain ⟨⟨ls', id'⟩, hr, he⟩ := Option.map_eq_some_iff.mp h
        cases he
        obtain ⟨i, l', hl, hf, hid, hset⟩ := ih hr
        refine ⟨i + 1, l', hl, hf, hid, ?_⟩
        rw [hset]
        rfl

/-- **`CreateNode`** takes a slot that is free or new; the pipe in it is empty. -/
structure Taken (pipes : List Log) (r : List Log × Nat) (l : Log) : Prop where
  slot : r.1[r.2]? = some l
  id : l.pipe.id = r.2
  free : l.pipe.free = false
  init : logInit l
  other : ∀ j, j ≠ r.2 → r.1[j]? = pipes[j]?
  wasFree : ∀ l' : Log, pipes[r.2]? = some l' → l'.pipe.free = true

theorem createNode_taken (hids : ∀ i (l : Log), pipes[i]? = some l → l.pipe.id = i) (buffer : Nat → UInt8) :
    ∃ l, Taken pipes (createNode pipes buffer) l := by
  unfold createNode
  split
  · rename_i r hr
    obtain ⟨i, l, hl, hfree, hid, hset⟩ := takeFree_some hr
    obtain ⟨pipes', id⟩ := r
    obtain rfl : id = i := hid.trans (hids i l hl)
    obtain rfl := hset
    have hlt : id < pipes.length := (List.getElem?_eq_some_iff.mp hl).1
    refine ⟨_, List.getElem?_set_self hlt, hids id l hl, rfl, ⟨rfl, rfl, rfl, rfl⟩, fun j hj => ?_, fun l' hl' => ?_⟩
    · exact List.getElem?_set_ne (Ne.symm hj)
    · rw [hl] at hl'
      cases hl'
      exact hfree
  · refine ⟨_, List.getElem?_concat_length, rfl, rfl, ⟨rfl, rfl, rfl, rfl⟩, fun j hj => ?_, fun l' hl' => ?_⟩
    · rcases Nat.lt_or_ge j pipes.length with hlt | hge
      · exact List.getElem?_append_left hlt
      · have hj' : j ≠ pipes.length := hj
        rw [List.getElem?_eq_none hge, List.getElem?_eq_none]
        rw [List.length_append, List.length_singleton]
        omega
    · rw [List.getElem?_eq_none (Nat.le_refl _)] at hl'
      cases hl'

theorem modify_get (f : Log → Log) (j : Nat) :
    (pipes.modify i f)[j]? = if i = j then pipes[j]?.map f else pipes[j]? := by
  rw [List.getElem?_modify]
  split_ifs
  · rfl
  · exact Option.map_id_apply

/-- A `_Read` or `_Write` keeps the slot. -/
theorem apply_slot (l : Log) (op : Op) : (l.apply op).pipe.id = l.pipe.id ∧ (l.apply op).pipe.free = l.pipe.free := by
  cases op with
  | read t buf n =>
      show (PipeFS.read l.pipe buf n).2.1.id = _ ∧ (PipeFS.read l.pipe buf n).2.1.free = _
      unfold PipeFS.read
      dsimp only
      split_ifs <;> exact ⟨rfl, rfl⟩
  | write t buf o n =>
      show (PipeFS.write l.pipe buf o n).2.id = _ ∧ (PipeFS.write l.pipe buf o n).2.free = _
      unfold PipeFS.write
      dsimp only
      split_ifs <;> exact ⟨rfl, rfl⟩

end Slots

/-! ## 3. The invariant -/

/-- What belongs to a node at `a`: its slot, and as many references as it has descriptors. -/
structure NodeOk (s : Sys) (a : Nat) (n : Node) : Prop where
  linkCount : n.linkCount = 0
  refCount : n.refCount = openOn s.descs a
  used : 0 < n.refCount
  slot : ∃ l, s.pipes[n.id]? = some l ∧ l.pipe.free = false ∧ Fifo l

structure SlotInv (s : Sys) : Prop where
  ids : ∀ i (l : Log), s.pipes[i]? = some l → l.pipe.id = i
  node : ∀ a n, s.node a = some n → NodeOk s a n
  one : ∀ a b n m, s.node a = some n → s.node b = some m → n.id = m.id → a = b
  taken : ∀ i (l : Log), s.pipes[i]? = some l → l.pipe.free = false → ∃ a n, s.node a = some n ∧ n.id = i
  desc : ∀ d ∈ s.descs, 0 < d.refCount ∧ ∃ n, s.node d.node = some n

section Inv

variable {s s' : Sys} {ev : Event} {i a : Nat} {d d' : FileDescriptor} {n : Node} {buffer : Nat → UInt8}

theorem slotInv_init (h : slotInit s) : SlotInv s := by
  obtain ⟨hp, hn, hd⟩ := h
  refine ⟨fun i l hl => ?_, fun a n ha => ?_, fun a b n m ha => ?_, fun i l hl => ?_, fun d hm => ?_⟩
  · rw [hp] at hl
    cases hl
  · rw [hn] at ha
    cases ha
  · rw [hn] at ha
    cases ha
  · rw [hp] at hl
    cases hl
  · rw [hd] at hm
    cases hm

/-- The node of a descriptor that is set stays. -/
theorem openOn_set (hd : s.descs[i]? = some d) (hn : d'.node = d.node) (a : Nat) :
    openOn (s.descs.set i d') a = openOn s.descs a := by
  exact countP_set_same _ s.descs hd (by rw [hn])

/-- A descriptor counts otherwise. -/
theorem SlotInv.recount (hI : SlotInv s) (hd : s.descs[i]? = some d) {r : Nat} (hr : 0 < r) :
    SlotInv { s with descs := s.descs.set i { d with refCount := r } } := by
  refine ⟨hI.ids, fun a n ha => ?_, hI.one, hI.taken, fun d' hm => ?_⟩
  · have h := hI.node a n ha
    refine ⟨h.linkCount, h.refCount.trans (Eq.symm ?_), h.used, h.slot⟩
    exact openOn_set hd (show ({ d with refCount := r } : FileDescriptor).node = d.node from rfl) a
  · rcases List.mem_or_eq_of_mem_set hm with hm | rfl
    · exact hI.desc d' hm
    · exact ⟨hr, (hI.desc d (List.mem_of_getElem? hd)).2⟩

/-- A node after one address has changed. -/
theorem update_some {f : Nat → Option Node} {o : Option Node} {b : Nat} {m : Node}
    (h : Function.update f a o b = some m) : b = a ∧ o = some m ∨ b ≠ a ∧ f b = some m := by
  by_cases hba : b = a
  · subst hba
    rw [Function.update_self] at h
    exact Or.inl ⟨rfl, h⟩
  · rw [Function.update_of_ne hba] at h
    exact Or.inr ⟨hba, h⟩

theorem SlotInv.createPipe (hI : SlotInv s) (ha : s.node a = none) (buffer : Nat → UInt8) :
    SlotInv (s.createPipe a buffer) := by
  obtain ⟨l, hl⟩ := createNode_taken hI.ids buffer
  generalize hr : createNode s.pipes buffer = r at hl
  have hnew : s.createPipe a buffer = ⟨r.1, Function.update s.node a (some ⟨r.2, 2, 0⟩),
      ⟨a, 1, permRead⟩ :: ⟨a, 1, permWrite⟩ :: s.descs⟩ := by
    rw [← hr]
    rfl
  -- nobody stands at the address yet, and nobody in the slot
  have hnone : openOn s.descs a = 0 := List.countP_eq_zero.mpr fun d hd he => by
    obtain ⟨-, n, hn⟩ := hI.desc d hd
    rw [of_decide_eq_true he, ha] at hn
    cases hn
  have hslot : ∀ b m, s.node b = some m → m.id ≠ r.2 := fun b m hb he => by
    obtain ⟨l', hl', hfree, -⟩ := (hI.node b m hb).slot
    rw [he] at hl'
    rw [hl.wasFree l' hl'] at hfree
    cases hfree
  rw [hnew]
  refine ⟨fun i l' hl' => ?_, fun b m hb => ?_, fun b c m k hb hc he => ?_, fun i l' hl' hfree => ?_, fun d hd => ?_⟩
  · by_cases hi : i = r.2
    · subst hi
      rw [hl.slot] at hl'
      cases hl'
      exact hl.id
    · exact hI.ids i l' ((hl.other i hi).symm.trans hl')
  · obtain ⟨rfl, hm⟩ | ⟨hba, hb⟩ := update_some hb
    · cases hm
      refine ⟨rfl, ?_, Nat.succ_pos 1, l, hl.slot, hl.free, fifo_init hl.init⟩
      show 2 = openOn (⟨b, 1, permRead⟩ :: ⟨b, 1, permWrite⟩ :: s.descs) b
      unfold openOn at hnone ⊢
      rw [List.countP_cons, List.countP_cons, hnone]
      simp
    · obtain ⟨hlink, href, hused, l', hl', hrest⟩ := hI.node b m hb
      refine ⟨hlink, href.trans ?_, hused, l', (hl.other _ (hslot b m hb)).trans hl', hrest⟩
      show openOn s.descs b = openOn (⟨a, 1, permRead⟩ :: ⟨a, 1, permWrite⟩ :: s.descs) b
      unfold openOn
      rw [List.countP_cons, List.countP_cons]
      simp [Ne.symm hba]
  · obtain ⟨hba, hm⟩ | ⟨-, hb⟩ := update_some hb
    · obtain ⟨hca, -⟩ | ⟨-, hc⟩ := update_some hc
      · rw [hba, hca]
      · cases hm
        exact absurd he.symm (hslot c k hc)
    · obtain ⟨-, hk⟩ | ⟨-, hc⟩ := update_some hc
      · cases hk
        exact absurd he (hslot b m hb)
      · exact hI.one b c m k hb hc he
  · by_cases hi : i = r.2
    · exact ⟨a, _, Function.update_self _ _ _, hi.symm⟩
    · obtain ⟨b, m, hb, hid⟩ := hI.taken i l' ((hl.other i hi).symm.trans hl') hfree
      have hba : b ≠ a := fun e => by rw [e, ha] at hb; cases hb
      exact ⟨b, m, (Function.update_of_ne hba _ _).trans hb, hid⟩
  · rcases List.mem_cons.mp hd with rfl | hd
    · exact ⟨Nat.one_pos, _, Function.update_self _ _ _⟩
    · rcases List.mem_cons.mp hd with rfl | hd
      · exact ⟨Nat.one_pos, _, Function.update_self _ _ _⟩
      · obtain ⟨hpos, m, hm⟩ := hI.desc d hd
        have hne : d.node ≠ a := fun e => by rw [e, ha] at hm; cases hm
        exact ⟨hpos, m, (Function.update_of_ne hne _ _).trans hm⟩

/-- The descriptors of a node without one of them. -/
theorem openOn_erase (hd : s.descs[i]? = some d) (a : Nat) :
    openOn (s.descs.eraseIdx i) a + (if d.node = a then 1 else 0) = openOn s.descs a := by
  have h := countP_eraseIdx (fun d : FileDescriptor => decide (d.node = a)) s.descs hd
  simp only [decide_eq_true_eq] at h
  exact h

/-- `Close` of the last reference to the last descriptor of a node. -/
theorem SlotInv.destroy (hI : SlotInv s) (hd : s.descs[i]? = some d) (hn : s.node d.node = some n)
    (hlast : n.refCount = 1) : SlotInv
      { pipes := destroyNode s.pipes n.id
        node := Function.update s.node d.node none
        descs := s.descs.eraseIdx i } := by
  have hok := hI.node d.node n hn
  have herase := openOn_erase hd
  have hzero : openOn (s.descs.eraseIdx i) d.node = 0 := by
    have h := herase d.node
    rw [if_pos rfl, ← hok.refCount, hlast] at h
    omega
  have hslot : ∀ b m, s.node b = some m → b ≠ d.node → n.id ≠ m.id := fun b m hb hne he =>
    hne (hI.one b d.node m n hb hn he.symm)
  refine ⟨fun j l hl => ?_, fun b m hb => ?_, fun b c m k hb hc he => ?_, fun j l hl hfree => ?_, fun d' hd' => ?_⟩
  · change (s.pipes.modify n.id _)[j]? = some l at hl
    rw [modify_get] at hl
    split_ifs at hl with hj
    · obtain ⟨l', hl', rfl⟩ := Option.map_eq_some_iff.mp hl
      exact hI.ids j l' hl'
    · exact hI.ids j l hl
  · obtain ⟨-, hm⟩ | ⟨hne, hb⟩ := update_some hb
    · cases hm
    · obtain ⟨hlink, href, hused, l, hl, hrest⟩ := hI.node b m hb
      have hb' := herase b
      rw [if_neg (Ne.symm hne), Nat.add_zero] at hb'
      refine ⟨hlink, href.trans hb'.symm, hused, l, ?_, hrest⟩
      show (s.pipes.modify n.id _)[m.id]? = some l
      rw [modify_get, if_neg (hslot b m hb hne)]
      exact hl
  · obtain ⟨-, hm⟩ | ⟨-, hb⟩ := update_some hb
    · cases hm
    · obtain ⟨-, hk⟩ | ⟨-, hc⟩ := update_some hc
      · cases hk
      · exact hI.one b c m k hb hc he
  · change (s.pipes.modify n.id _)[j]? = some l at hl
    rw [modify_get] at hl
    split_ifs at hl with hj
    · obtain ⟨l', -, rfl⟩ := Option.map_eq_some_iff.mp hl
      cases hfree
    · obtain ⟨b, m, hb, hid⟩ := hI.taken j l hl hfree
      have hne : b ≠ d.node := fun e => by
        rw [e, hn] at hb
        cases hb
        exact hj hid
      exact ⟨b, m, (Function.update_of_ne hne _ _).trans hb, hid⟩
  · obtain ⟨hpos, m, hm⟩ := hI.desc d' ((List.eraseIdx_sublist _ _).subset hd')
    have hne : d'.node ≠ d.node := fun e => List.countP_eq_zero.mp hzero d' hd' (decide_eq_true e)
    exact ⟨hpos, m, (Function.update_of_ne hne _ _).trans hm⟩

/-- `Close` of the last reference to a descriptor, with another one left on the node. -/
theorem SlotInv.drop (hI : SlotInv s) (hd : s.descs[i]? = some d) (hn : s.node d.node = some n)
    (hmore : 1 < n.refCount) : SlotInv
      { s with
        node := Function.update s.node d.node (some { n with refCount := n.refCount - 1 })
        descs := s.descs.eraseIdx i } := by
  have hok := hI.node d.node n hn
  have herase := openOn_erase hd
  refine ⟨hI.ids, fun b m hb => ?_, fun b c m k hb hc he => ?_, fun j l hl hfree => ?_, fun d' hd' => ?_⟩
  · obtain ⟨rfl, hm⟩ | ⟨hne, hb⟩ := update_some hb
    · cases hm
      have h := herase d.node
      rw [if_pos rfl, ← hok.refCount] at h
      refine ⟨hok.linkCount, ?_, Nat.sub_pos_of_lt hmore, hok.slot⟩
      show n.refCount - 1 = openOn (s.descs.eraseIdx i) d.node
      omega
    · obtain ⟨hlink, href, hused, hslot⟩ := hI.node b m hb
      have hb' := herase b
      rw [if_neg (Ne.symm hne), Nat.add_zero] at hb'
      exact ⟨hlink, href.trans hb'.symm, hused, hslot⟩
  · obtain ⟨hbd, hm⟩ | ⟨-, hb⟩ := update_some hb
    · cases hm
      obtain ⟨hcd, -⟩ | ⟨-, hc⟩ := update_some hc
      · rw [hbd, hcd]
      · rw [hbd]
        exact hI.one d.node c n k hn hc he
    · obtain ⟨hcd, hk⟩ | ⟨-, hc⟩ := update_some hc
      · cases hk
        rw [hcd]
        exact hI.one b d.node m n hb hn he
      · exact hI.one b c m k hb hc he
  · obtain ⟨b, m, hb, hid⟩ := hI.taken j l hl hfree
    by_cases hbd : b = d.node
    · subst hbd
      rw [hn] at hb
      cases hb
      exact ⟨d.node, _, Function.update_self _ _ _, hid⟩
    · exact ⟨b, m, (Function.update_of_ne hbd _ _).trans hb, hid⟩
  · obtain ⟨hpos, m, hm⟩ := hI.desc d' ((List.eraseIdx_sublist _ _).subset hd')
    refine ⟨hpos, ?_⟩
    by_cases he : d'.node = d.node
    · rw [he]
      exact ⟨_, Function.update_self _ _ _⟩
    · exact ⟨m, (Function.update_of_ne he _ _).trans hm⟩

theorem SlotInv.close (hI : SlotInv s) (hd : s.descs[i]? = some d) (hn : s.node d.node = some n) :
    SlotInv (s.close i d n) := by
  have hok := hI.node d.node n hn
  have hused := hok.used
  obtain ⟨hpos, -⟩ := hI.desc d (List.mem_of_getElem? hd)
  unfold Sys.close
  split_ifs with hlast
  · unfold Sys.releaseNode
    split_ifs with hz
    · exact hI.destroy hd hn (by omega)
    · have hmore : ¬ n.refCount - 1 = 0 := fun h => hz ⟨h, hok.linkCount⟩
      exact hI.drop hd hn (by omega)
  · exact hI.recount hd (Nat.pos_of_ne_zero hlast)

/-- A transfer changes the bytes in a slot. -/
theorem SlotInv.transfer (hI : SlotInv s) (id : Nat) (op : Op) :
    SlotInv { s with pipes := s.pipes.modify id (Log.apply · op) } := by
  refine ⟨fun j l hl => ?_, fun b m hb => ?_, hI.one, fun j l hl hfree => ?_, hI.desc⟩
  · change (s.pipes.modify id _)[j]? = some l at hl
    rw [modify_get] at hl
    split_ifs at hl with hj
    · obtain ⟨l', hl', rfl⟩ := Option.map_eq_some_iff.mp hl
      exact (apply_slot l' op).1.trans (hI.ids j l' hl')
    · exact hI.ids j l hl
  · obtain ⟨hlink, href, hused, l, hl, hfree, hfifo⟩ := hI.node b m hb
    refine ⟨hlink, href, hused, ?_⟩
    show ∃ l', (s.pipes.modify id _)[m.id]? = some l' ∧ _
    rw [modify_get]
    split_ifs with hj
    · rw [hl]
      exact ⟨_, rfl, (apply_slot l op).2.trans hfree, fifo_step hfifo op⟩
    · exact ⟨l, hl, hfree, hfifo⟩
  · change (s.pipes.modify id _)[j]? = some l at hl
    rw [modify_get] at hl
    split_ifs at hl with hj
    · obtain ⟨l', hl', rfl⟩ := Option.map_eq_some_iff.mp hl
      exact hI.taken j l' hl' ((apply_slot l' op).2.symm.trans hfree)
    · exact hI.taken j l hl hfree

theorem slotInv_step (hI : SlotInv s) (hs : slotStep s ev s') : SlotInv s' := by
  cases hs with
  | createPipe a buffer ha => exact hI.createPipe ha buffer
  | addRef i d hd => exact hI.recount hd (Nat.succ_pos _)
  | close i d n hd hn => exact hI.close hd hn
  | null => exact hI
  | transfer i op d n hd hp hn => exact hI.transfer n.id op

theorem slotInv_reach (h : Reach slotStep slotInit s) : SlotInv s :=
  h.inv (fun _ => slotInv_init) fun _ _ _ hI hs => slotInv_step hI hs

/-- **Slots are not shared**, in every run: a slot is free exactly if no descriptor is on it, live nodes have
    different slots, what goes through a pipe was written since it was created, and a new pipe is empty. -/
theorem pipe_slots (h : Reach slotStep slotInit s) :
    (∀ i (l : Log), s.pipes[i]? = some l →
      (l.pipe.free = true ↔ ∀ d ∈ s.descs, ∀ n, s.node d.node = some n → n.id ≠ i)) ∧
    (∀ a b n m, s.node a = some n → s.node b = some m → a ≠ b → n.id ≠ m.id) ∧
    (∀ d ∈ s.descs, ∃ n l, s.node d.node = some n ∧ s.pipes[n.id]? = some l ∧
      l.delivered.map (·.2) ++ contents l.pipe = l.accepted.map (·.2)) ∧
    ∀ a buffer, s.node a = none → ∃ n l, (s.createPipe a buffer).node a = some n ∧
      (s.createPipe a buffer).pipes[n.id]? = some l ∧ contents l.pipe = [] ∧ l.accepted = [] ∧ l.delivered = [] := by
  have hI := slotInv_reach h
  refine ⟨fun i l hl => ⟨fun hfree d hd n hn he => ?_, fun hall => ?_⟩, fun a b n m ha hb hab he => ?_,
    fun d hd => ?_, fun a buffer ha => ?_⟩
  · obtain ⟨l', hl', hfree', -⟩ := (hI.node _ n hn).slot
    rw [he, hl] at hl'
    cases hl'
    rw [hfree] at hfree'
    cases hfree'
  · by_contra hused
    obtain ⟨a, n, ha, hid⟩ := hI.taken i l hl (eq_false_of_ne_true hused)
    have hok := hI.node a n ha
    obtain ⟨d, hd, hda⟩ := List.countP_pos_iff.mp (hok.refCount ▸ hok.used)
    exact hall d hd n ((of_decide_eq_true hda).symm ▸ ha) hid
  · exact hab (hI.one a b n m ha hb he)
  · obtain ⟨-, n, hn⟩ := hI.desc d hd
    obtain ⟨l, hl, -, hfifo⟩ := (hI.node _ n hn).slot
    exact ⟨n, l, hn, hl, hfifo.order⟩
  · obtain ⟨l, hl⟩ := createNode_taken hI.ids buffer
    have hfifo := (fifo_init hl.init).order
    obtain ⟨-, -, hacc, hdel⟩ := hl.init
    rw [hacc, hdel] at hfifo
    exact ⟨_, l, Function.update_self _ _ _, hl.slot, hfifo, hacc, hdel⟩

end Inv

/-- The pipe is closed, one end after the other, and the next one takes its slot. -/
def closedOnce : Sys :=
  let s0 : Sys := ⟨[], fun _ => none, []⟩
  let s1 := s0.createPipe 5 fun _ => 0
  let s2 := s1.close 1 ⟨5, 1, permWrite⟩ ⟨0, 2, 0⟩
  s2.close 0 ⟨5, 1, permRead⟩ ⟨0, 1, 0⟩

theorem closedOnce_reach : Reach slotStep slotInit closedOnce := by
  have h0 : Reach slotStep slotInit ⟨[], fun _ => none, []⟩ := .start _ ⟨rfl, fun _ => rfl, rfl⟩
  have h1 := Reach.next _ _ _ h0 (slotStep.createPipe _ 5 (fun _ => 0) rfl)
  have h2 := Reach.next _ _ _ h1 (slotStep.close _ 1 ⟨5, 1, permWrite⟩ ⟨0, 2, 0⟩ rfl rfl)
  exact Reach.next _ _ _ h2 (slotStep.close _ 0 ⟨5, 1, permRead⟩ ⟨0, 1, 0⟩ rfl rfl)

theorem pipe_slots_again : closedOnce.pipes.map (fun l => l.pipe.free) = [true] ∧
    ∃ n l, (closedOnce.createPipe 6 fun _ => 0).node 6 = some n ∧ n.id = 0 ∧
      (closedOnce.createPipe 6 fun _ => 0).pipes[0]? = some l ∧ contents l.pipe = [] := by
  obtain ⟨n, l, hn, hl, hempty, -⟩ := (pipe_slots closedOnce_reach).2.2.2 6 (fun _ => 0) rfl
  have hid : n = ⟨0, 2, 0⟩ := Option.some.inj (hn.symm.trans rfl)
  subst hid
  exact ⟨rfl, _, l, hn, rfl, hl, hempty⟩

end PipeSlots

end SimpleOS2
