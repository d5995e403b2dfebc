/-
  File:      SimpleOS2/Fs/LinkTargets.lean
  Subject:   THE TARGETS OF SYMBOLIC LINKS (CreateSymLink, Stat of fs/VFS.cpp).

  `CreateSymLink` keeps a target of any length. `Stat` copies it into the 255 bytes of
  `NodeStats::linkPath` with `kstrcpy`.

  * `statLinkPath` -- the copy of `Stat`; `StaysInside` -- it writes no byte behind the field;
  * `shortTargets` -- the condition: the targets given to `CreateSymLink` have at most 254 characters;
  * `LinkInv`, `linkInv_step` -- then the targets of all links do;
  * `link_targets_fit`, `target_past_field` -- the law, and a link with a target of 255 characters.
-/
import SimpleOS2.Fs.DeleteRaces
import SimpleOS2.Fs.Nodes
import SimpleOS2.Klib.String

namespace SimpleOS2

open Lib

namespace Lookup

/-! ## 1. The copy -/

/-- `sizeof(NodeStats::linkPath)`. -/
def linkPathSize : Nat := 255

/-- `if(outStats.type == Node::TYPE_SYMLINK) kstrcpy(outStats.linkPath, ...)`, on the bytes from `linkPath` on. -/
def statLinkPath (node : Node) (stats : Nat → Nat) : Nat → Nat :=
  if node.type = .symlink then kstrcpy node.linkPath stats 0 else stats

/-- The copy changes no byte behind the field. -/
def StaysInside (node : Node) : Prop :=
  ∀ stats : Nat → Nat, ∀ x, linkPathSize ≤ x → statLinkPath node stats x = stats x

/-- The target fits into the field, with the 0 behind it. -/
def FitsField (linkPath : List Char) : Prop := linkPath.length + 1 ≤ linkPathSize

/-- The copy stays inside exactly for targets that fit with the 0 behind them. -/
theorem staysInside_iff {node : Node} (ht : node.type = .symlink) :
    StaysInside node ↔ FitsField node.linkPath := by
  constructor
  · intro h
    by_contra hfit
    have hlen : linkPathSize < node.linkPath.length + 1 := Nat.lt_of_not_le hfit
    -- the 0 is written where a 1 was
    have h1 := h (fun _ => 1) node.linkPath.length (by omega)
    have h0 := kstrcpy_end node.linkPath (fun _ => 1) 0
    rw [Nat.zero_add] at h0
    rw [statLinkPath, if_pos ht, h0] at h1
    cases h1
  · intro hfit stats x hx
    have hlen : node.linkPath.length + 1 ≤ linkPathSize := hfit
    rw [statLinkPath, if_pos ht]
    exact kstrcpy_frame (Or.inr (by omega))

/-! ## 2. The condition and the invariant -/

/-- The call makes no link with a longer target. -/
def Op.shortTarget : Op → Prop
  | .create .symlink _ linkPath => FitsField linkPath
  | _ => True

/-- **The condition**: the targets given to `CreateSymLink` fit. -/
def shortTargets (_ : Sys) : Event → Prop
  | .start _ op _ => op.shortTarget
  | .refuse _ op _ => op.shortTarget
  | _ => True

structure LinkInv (s : Sys) : Prop where
  ops : ∀ t op, (s.thread t).pc.op = some op → op.shortTarget
  links : ∀ mp id, s.alive mp id = true → (s.node mp id).type = .symlink → FitsField (s.node mp id).linkPath

/-- No call is under way, and there are no links. -/
def noLinks (s : Sys) : Prop :=
  quiet s ∧ ∀ mp id, s.alive mp id = true → (s.node mp id).type ≠ .symlink

section Steps

variable {s s' : Sys} {ev : Event} {t mp id : Nat} {g : Garbage} {e : Effect}

/-- The type of a node and its target. -/
def Node.link (n : Node) : NodeType × List Char := (n.type, n.linkPath)

theorem Like.link {n n' : Node} (h : Like n n') : n'.link = n.link := by
  rw [h]
  rfl

theorem setNode_link {mp' id' : Nat} {n : Node} (h : n.link = (s.node mp' id').link) :
    ((s.setNode mp' id' n).node mp id).link = (s.node mp id).link := by
  show (update₂ s.node mp' id' n mp id).link = _
  by_cases hx : mp = mp' ∧ id = id'
  · obtain ⟨rfl, rfl⟩ := hx
    rw [update₂_self]
    exact h
  · rw [update₂_of_ne _ _ hx]

theorem file_link (n : Node) (file : TempFS.TestNode) : Node.link { n with file := file } = n.link := rfl

/-- **A node that is there keeps its type and its target, or has just been made.** -/
theorem perform_link (ha : (s.perform g e).alive mp id = true) :
    s.alive mp id = true ∧ ((s.perform g e).node mp id).link = (s.node mp id).link ∨
      ∃ node, e = .make mp node ∧ (s.perform g e).node mp id = node := by
  cases e with
  | make mp' node =>
      by_cases hx : mp = mp' ∧ id = s.nextID mp'
      · obtain ⟨rfl, rfl⟩ := hx
        exact Or.inr ⟨node, rfl, update₂_self _ _ _ _⟩
      · left
        have ha' : update₂ s.alive mp' (s.nextID mp') true mp id = true := ha
        rw [update₂_of_ne _ _ hx] at ha'
        refine ⟨ha', ?_⟩
        show (update₂ s.node mp' (s.nextID mp') node mp id).link = _
        rw [update₂_of_ne _ _ hx]
  | acquire mp' id' =>
      left
      have ha' : s.alive mp id = true := by
        rw [← acquire_alive s mp' id' g.node]
        exact ha
      refine ⟨ha', ?_⟩
      by_cases hx : mp = mp' ∧ id = id'
      · obtain ⟨rfl, rfl⟩ := hx
        exact (acquire_like ha' g.node mp id).link
      · show ((s.acquireNode mp' id' g.node).node mp id).link = _
        unfold Sys.acquireNode
        split_ifs <;> exact congrArg Node.link (update₂_of_ne _ _ hx)
  | release r =>
      left
      cases r with
      | node mp' id' => exact ⟨release_alive_le ha, (release_like s mp' id' mp id).link⟩
      | mount mp' => exact ⟨ha, rfl⟩
  | openDesc clear desc =>
      cases clear with
      | false => exact Or.inl ⟨ha, rfl⟩
      | true => exact Or.inl ⟨ha, setNode_link rfl⟩
  | link mp' id' n => exact Or.inl ⟨ha, setNode_link rfl⟩
  | addEntry mp' id' name dir => exact Or.inl ⟨ha, setNode_link rfl⟩
  | removeEntry mp' id' dir => exact Or.inl ⟨ha, setNode_link rfl⟩
  | changeOwner mp' id' uid gid => exact Or.inl ⟨ha, setNode_link rfl⟩
  | changePermissions mp' id' permissions => exact Or.inl ⟨ha, setNode_link rfl⟩
  | none => exact Or.inl ⟨ha, rfl⟩
  | find mp' count => exact Or.inl ⟨ha, rfl⟩
  | keepLock mp' id' => exact Or.inl ⟨ha, rfl⟩
  | stat stats => exact Or.inl ⟨ha, rfl⟩

/-- A new link has the target of its call. -/
theorem newNode_link {p : Nat} {op : Op} {node : Node} (h : s.newNode t mp p op = some node)
    (ht : node.type = .symlink) (hop : op.shortTarget) : FitsField node.linkPath := by
  cases op with
  | create type permissions linkPath =>
      cases h
      obtain rfl : type = .symlink := ht
      exact hop
  | openFile mode =>
      cases h
      cases ht
  | _ => cases h

theorem linkInv_init (h : noLinks s) : LinkInv s where
  ops t op hop := by
    rw [(h.1 t).1] at hop
    cases hop
  links mp id ha ht := absurd ht (h.2 mp id ha)

theorem LinkInv.run (h : LinkInv s) (mp id : Nat) (ha : (s.next t g).alive mp id = true)
    (ht : ((s.next t g).node mp id).type = .symlink) : FitsField ((s.next t g).node mp id).linkPath := by
  obtain ⟨e, he⟩ : ∃ e, (s.plan t g).1 = e := ⟨_, rfl⟩
  have heff : EffectOf s t g (s.thread t).pc e := he ▸ planAt_effect s t g _
  have hnode : (s.next t g).node mp id = (s.perform g e).node mp id := he ▸ rfl
  have ha' : (s.perform g e).alive mp id = true := he ▸ ha
  rw [hnode] at ht ⊢
  rcases perform_link ha' with ⟨halive, hlink⟩ | ⟨node, rfl, hmade⟩
  · rw [Node.link, Node.link, Prod.mk.injEq] at hlink
    rw [hlink.1] at ht
    rw [hlink.2]
    exact h.links mp id halive ht
  · rw [hmade] at ht ⊢
    generalize hpc : (s.thread t).pc = pc at heff
    cases heff with
    | make op mp p name node hn => exact newNode_link hn ht (h.ops t op (by rw [hpc]; rfl))

theorem linkInv_step (h : LinkInv s) (hs : Guarded sysStep shortTargets s ev s') : LinkInv s' := by
  obtain ⟨hs, hok⟩ := hs
  have hops : ∀ u op, (s'.thread u).pc.op = some op → op.shortTarget := fun u op hop =>
    op_step (P := Op.shortTarget) hs (fun t op path he => by subst he; exact hok)
      (fun t op res he => by subst he; exact hok) (fun _ _ => trivial) trivial h.ops u op hop
  refine ⟨hops, ?_⟩
  cases hs with
  | run t g => exact h.run
  | write i pos buffer bufferSize d hd hw htype =>
      intro mp id ha ht
      have hlink : ((s.setNode d.mp d.id { s.node d.mp d.id with
          file := (TempFS.writeNodeData (s.node d.mp d.id).file pos buffer bufferSize).2 }).node mp id).link =
          (s.node mp id).link := setNode_link (file_link _ _)
      rw [Node.link, Node.link, Prod.mk.injEq] at hlink
      rw [hlink.1] at ht
      rw [hlink.2]
      exact h.links mp id ha ht
  | start t op path ht hop => exact h.links
  | refuse t op res ht hop hres => exact h.links
  | leave t op res ht => exact h.links
  | addRef i d hd => exact h.links
  | closeShared t i d ht hd hr => exact h.links
  | closeLast t i d ht hd hr => exact h.links
  | remount mounts => exact h.links

end Steps

/-! ## 3. Results -/

/-- **The targets of links fit**, in every run in which those given to `CreateSymLink` do: `Stat` writes no byte
    behind `NodeStats::linkPath`. -/
theorem link_targets_fit {s : Sys} (h : Reach (Guarded sysStep shortTargets) noLinks s) {mp id : Nat}
    (ha : s.alive mp id = true) (ht : (s.node mp id).type = .symlink) :
    (s.node mp id).linkPath.length + 1 ≤ 255 ∧ StaysInside (s.node mp id) := by
  have hI : LinkInv s := h.inv (fun _ h0 => linkInv_init h0) fun _ _ _ hI hs => linkInv_step hI hs
  have hlen := hI.links mp id ha ht
  exact ⟨hlen, (staysInside_iff ht).mpr hlen⟩

section Runs

theorem oneFile_noLinks : noLinks oneFile := by
  refine ⟨oneFile_quiet, fun mp id ha => ?_⟩
  by_cases hid : id = 0
  · simp only [oneFile, hid, if_true]
    exact fun h => by cases h
  · simp only [oneFile, hid, if_false]
    exact fun h => by cases h

/-- `CreateSymLink` of the link `l`. -/
def makeLink (target : List Char) : Op := .create .symlink ⟨3, 3, 3, 0⟩ target

/-- The link is there. -/
def linked (target : List Char) : Sys := (oneFile.begin 0 (makeLink target) ['l']).runs 0 noGarbage 11

theorem linked_reach {ok : Sys → Event → Prop} {target : List Char}
    (hok : ∀ s, ok s (.start 0 (makeLink target) ['l'])) (hrun : ∀ s, ok s (.run 0 noGarbage)) :
    Reach (Guarded sysStep ok) noLinks (linked target) :=
  runs_reach ((Reach.start _ oneFile_noLinks).guarded (.start oneFile 0 (makeLink target) ['l'] rfl rfl) (hok _))
    fun _ _ => ⟨.run _ _ _, hrun _⟩

/-- The same among all runs. -/
theorem made_reach (target : List Char) : Reach sysStep noLinks (linked target) := by
  have hr : Reach (Guarded sysStep fun _ _ => True) noLinks (linked target) :=
    linked_reach (fun _ => trivial) fun _ => trivial
  exact hr.mono (fun _ h => h) fun _ _ _ h => h.1

theorem link_fits : (makeLink ['f']).shortTarget := by
  show ['f'].length + 1 ≤ 255
  decide

/-- A link to `f`. -/
theorem link_targets_fit_f : ((linked ['f']).thread 0).pc = .returned (makeLink ['f']) OK ∧
    ((linked ['f']).node 0 2).linkPath = ['f'] ∧ StaysInside ((linked ['f']).node 0 2) :=
  ⟨rfl, rfl, (link_targets_fit (linked_reach (fun _ => link_fits) fun _ => trivial) rfl rfl).2⟩

/-- **A target of 255 characters**: `Stat` writes behind the field. -/
theorem target_past_field : ¬ ∀ s, Reach sysStep noLinks s → ∀ mp id, s.alive mp id = true →
    (s.node mp id).type = .symlink → (s.node mp id).linkPath.length + 1 ≤ 255 ∧ StaysInside (s.node mp id) := by
  intro h
  have hlen := (h _ (made_reach (List.replicate 255 'a')) 0 2 rfl rfl).1
  have hlink : ((linked (List.replicate 255 'a')).node 0 2).linkPath = List.replicate 255 'a' := rfl
  rw [hlink, List.length_replicate] at hlen
  exact absurd hlen (by decide)

end Runs

end Lookup

end SimpleOS2
