/-
  File:      SimpleOS2/Fs/MountPoint.lean
  Subject:   MOUNT POINTS AND THE SEARCH FOR THEM (fs/VFS.cpp, fs/MountPoint.h).

  The mount points are a tree. `FindMountPoint` goes down from the root and takes the FIRST child whose
  path is a prefix of the path it looks for.

  * `mountCmp`, `advancePath`, `findMountPoint` -- the functions of the source; a path is a list of
    characters, its end is the `'\0'`;
  * `Under` -- one path is a component-wise prefix of another;
  * `Below` -- one mount point is in the subtree of another; `Tree` -- what every `Mount` and `Unmount`
    keeps: a child's path extends its parent's, and no mount point in the subtree of a LATER sibling
    lies under the path of an earlier one;
  * `find_spec` -- on such a tree the first match at each level leads to the longest prefix;
  * `mountStep`, `mountInv_reach` -- all sequences of `Mount` and `Unmount`.
-/
import Mathlib.Data.List.Nodup
import Mathlib.Data.List.Pairwise
import Mathlib.Data.Int.Order.Basic
import SimpleOS2.Lib.Run

namespace SimpleOS2

open Lib

namespace VFS

/-! ## 1. The functions -/

/-- `MountCmp(path, mount)`. -/
def mountCmp : (path mount : List Char) → Bool
  | [], [] => true
  | c :: _, [] => c = '/'
  | [], _ :: _ => false
  | c :: path, m :: mount => if m ≠ c then false else mountCmp path mount

/-- `AdvancePath(path, mp)`. -/
def advancePath : (path mp : List Char) → List Char
  | path, _ :: mp => advancePath path.tail mp
  | [], [] => []
  | c :: path, [] => if c = '/' then path else c :: path

/-- `struct MountPoint`, without its reference count, file system and node cache. -/
structure MountPoint where
  parent : Nat
  path : List Char
  childMounts : List Nat

/-- The mount points by number, which of them exist, and their reference counts. -/
structure Mounts where
  mp : Nat → MountPoint
  live : Nat → Bool
  next : Nat
  refCount : Nat → Int

/-- `g_RootMount`. -/
def rootMount : Nat := 0

/-- `refCount.Inc()` and, with `-1`, `refCount.Dec()`. A count below zero stands for one that has
    wrapped. -/
def addCount (count : Nat → Int) (m : Nat) (n : Int) : Nat → Int :=
  Function.update count m (count m + n)

/-- `ReleaseMountPoint`. -/
def releaseMountPoint (count : Nat → Int) (m : Nat) : Nat → Int :=
  if m ≠ rootMount then addCount count m (-1) else count

/-- The first child that covers the path. -/
def matching (M : Mounts) (path : List Char) (current : Nat) : Option Nat :=
  (M.mp current).childMounts.find? fun c => mountCmp path (M.mp c).path

/-- The loop of `FindMountPoint`, `fuel` turns of it at most. -/
def findLoop (M : Mounts) (path : List Char) : (fuel current : Nat) → (Nat → Int) →
    Option (Nat × (Nat → Int))
  | 0, _, _ => none
  | fuel + 1, current, count =>
      match matching M path current with
      | some next => findLoop M path fuel next (releaseMountPoint (addCount count next 1) current)
      | none => some (current, count)

/-- `FindMountPoint`: the mount point, and the counts afterwards. A turn goes to a longer path, so there
    are not more turns than characters. -/
def findMountPoint (M : Mounts) (path : List Char) : Option (Nat × (Nat → Int)) :=
  findLoop M path (path.length + 1) rootMount M.refCount

def Mounts.setCount (M : Mounts) (count : Nat → Int) : Mounts := { M with refCount := count }

/-- The insertion of `Mount`: a new mount point for the path, with the reference to `m` that the search
    has taken. -/
def Mounts.insert (M : Mounts) (m : Nat) (path : List Char) : Mounts where
  mp := Function.update
    (Function.update M.mp m { M.mp m with childMounts := (M.mp m).childMounts ++ [M.next] })
    M.next ⟨m, path, []⟩
  live := Function.update M.live M.next true
  next := M.next + 1
  refCount := Function.update M.refCount M.next 0

/-- The removal of `Unmount`. -/
def Mounts.erase (M : Mounts) (m : Nat) : Mounts :=
  let p := (M.mp m).parent
  { M with
    mp := Function.update M.mp p { M.mp p with childMounts := (M.mp p).childMounts.erase m }
    live := Function.update M.live m false }

/-- `Init`: the root, which counts 2 for ever. -/
def initMounts : Mounts where
  mp := fun _ => ⟨rootMount, [], []⟩
  live := fun m => m = rootMount
  next := 1
  refCount := fun m => if m = rootMount then 2 else 0

inductive MountEvent where
  | mount (path : List Char)
  | unmount (path : List Char)

/-- A successful `Mount` or `Unmount`. The path of a `Mount` is the one that the symbolic links on the
    way have led to; the folder it names is not a mount point, so something remains of the path. -/
inductive mountStep : Mounts → MountEvent → Mounts → Prop where
  | mount (M : Mounts) (path : List Char) (m : Nat) (count : Nat → Int)
      (h : findMountPoint M path = some (m, count))
      (hrest : advancePath path (M.mp m).path ≠ []) :
      mountStep M (.mount path) ((M.setCount count).insert m path)
  | unmount (M : Mounts) (path : List Char) (m : Nat) (count : Nat → Int)
      (h : findMountPoint M path = some (m, count)) (hroot : m ≠ rootMount)
      (hrest : advancePath path (M.mp m).path = []) (hone : count m = 1) :
      mountStep M (.unmount path) ((M.setCount count).erase m)

/-! ## 2. Prefixes -/

/-- `mount` is a component-wise prefix of `path`. -/
def Under (mount path : List Char) : Prop := path = mount ∨ ∃ rest, path = mount ++ '/' :: rest

section Prefixes

variable {a b p : List Char}

/-- `MountCmp` tests for a component-wise prefix. -/
theorem mountCmp_iff (path mount : List Char) : mountCmp path mount = true ↔ Under mount path := by
  induction mount generalizing path with
  | nil =>
      cases path with
      | nil => simp [mountCmp, Under]
      | cons c path => simp [mountCmp, Under]
  | cons m mount ih =>
      cases path with
      | nil => simp [mountCmp, Under]
      | cons c path =>
          by_cases h : m = c
          · subst h
            simp only [mountCmp, ne_eq, not_true_eq_false, if_false, ih]
            simp [Under]
          · have hc : ¬ c = m := fun e => h e.symm
            simp [mountCmp, Under, h, hc]

theorem Under.trans (h : Under a b) (h' : Under b p) : Under a p := by
  cases h with
  | inl h => exact h ▸ h'
  | inr h =>
      obtain ⟨r, rfl⟩ := h
      cases h' with
      | inl h' => exact Or.inr ⟨r, h'⟩
      | inr h' =>
          obtain ⟨r', rfl⟩ := h'
          exact Or.inr ⟨r ++ '/' :: r', by simp⟩

theorem Under.length_le (h : Under a b) : a.length ≤ b.length := by
  cases h with
  | inl h => rw [h]
  | inr h =>
      obtain ⟨r, rfl⟩ := h
      simp

/-- Of two prefixes of one path the longer is under the shorter. -/
theorem Under.under_or_lt (h : Under a p) (h' : Under b p) : Under a b ∨ b.length < a.length := by
  by_cases hlt : b.length < a.length
  · exact Or.inr hlt
  · refine Or.inl ?_
    have hp : ∀ {c}, Under c p → c <+: p := fun h => by
      cases h with
      | inl h => exact h ▸ List.prefix_rfl
      | inr h =>
          obtain ⟨r, rfl⟩ := h
          exact List.prefix_append _ _
    obtain ⟨r, rfl⟩ := List.prefix_of_prefix_length_le (hp h) (hp h') (Nat.le_of_not_lt hlt)
    cases r with
    | nil => exact Or.inl (List.append_nil a)
    | cons c r =>
        -- the character behind `a` is the one behind `a` in the path
        have hc : c = '/' := by
          obtain ⟨q, hq⟩ := hp h'
          cases h with
          | inl h =>
              have := congrArg List.length hq
              rw [h] at this
              simp at this
          | inr h =>
              obtain ⟨s, hs⟩ := h
              rw [← hq, List.append_assoc] at hs
              have := List.append_cancel_left hs
              exact (List.cons.inj this).1
        exact Or.inr ⟨r, by rw [hc]⟩

/-- `AdvancePath` skips the prefix, and one slash behind it. -/
theorem advancePath_append (mount rest : List Char) :
    advancePath (mount ++ rest) mount = advancePath rest [] := by
  induction mount with
  | nil => rfl
  | cons c mount ih => exact ih

end Prefixes

/-! ## 3. The tree -/

/-- `z` is in the subtree of `y`. -/
inductive Below (M : Mounts) (y : Nat) : Nat → Prop where
  | refl : Below M y y
  | child (z w : Nat) (h : Below M y z) (hw : w ∈ (M.mp z).childMounts) : Below M y w

/-- A mount point and a child of it. -/
structure Edge (M : Mounts) (m c : Nat) : Prop where
  parent_live : M.live m = true
  live : M.live c = true
  parent : (M.mp c).parent = m
  not_root : c ≠ rootMount
  longer : (M.mp m).path.length < (M.mp c).path.length
  under : m = rootMount ∨ Under (M.mp m).path (M.mp c).path

structure Tree (M : Mounts) : Prop where
  root_live : M.live rootMount = true
  root_path : (M.mp rootMount).path = []
  edge : ∀ m c, c ∈ (M.mp m).childMounts → Edge M m c
  parent : ∀ m, M.live m = true → m ≠ rootMount → m ∈ (M.mp (M.mp m).parent).childMounts
  nodup : ∀ m, (M.mp m).childMounts.Nodup
  /-- Nothing in the subtree of a later child is under the path of an earlier one. -/
  order : ∀ m x y, [x, y].Sublist (M.mp m).childMounts →
    ∀ z, Below M y z → ¬ Under (M.mp x).path (M.mp z).path
  fresh : ∀ m, M.live m = true → m < M.next

section Tree

variable {M : Mounts} {y z : Nat}

/-- A subtree is its root and the subtrees of the children. -/
theorem below_cases (h : Below M y z) : z = y ∨ ∃ c ∈ (M.mp y).childMounts, Below M c z := by
  induction h with
  | refl => exact Or.inl rfl
  | child z w _ hw ih =>
      refine Or.inr ?_
      cases ih with
      | inl e => exact ⟨w, e ▸ hw, .refl⟩
      | inr e =>
          obtain ⟨c, hc, hz⟩ := e
          exact ⟨c, hc, .child z w hz hw⟩

theorem path_ne_nil (hT : Tree M) (hy : M.live y = true) (h0 : y ≠ rootMount) : (M.mp y).path ≠ [] := by
  intro hp
  have hlong := (hT.edge _ _ (hT.parent y hy h0)).longer
  rw [hp] at hlong
  exact absurd hlong (Nat.not_lt_zero _)

theorem below_under (hT : Tree M) (hy : M.live y = true) (h : Below M y z) :
    y = rootMount ∨ Under (M.mp y).path (M.mp z).path := by
  induction h with
  | refl => exact Or.inr (Or.inl rfl)
  | child z w _ hw ih =>
      cases ih with
      | inl e => exact Or.inl e
      | inr e =>
          cases (hT.edge z w hw).under with
          | inl hz =>
              -- only the root is above the root
              refine Or.inl (by_contra fun h0 => path_ne_nil hT hy h0 ?_)
              have hlen := e.length_le
              rw [hz, hT.root_path] at hlen
              exact List.length_eq_zero_iff.mp (Nat.le_zero.mp hlen)
          | inr hz => exact Or.inr (e.trans hz)

theorem below_root (hT : Tree M) (n : Nat) (m : Nat) (hn : (M.mp m).path.length ≤ n)
    (hm : M.live m = true) : Below M rootMount m := by
  induction n generalizing m with
  | zero =>
      by_cases h0 : m = rootMount
      · rw [h0]
        exact .refl
      · have hE := hT.edge _ _ (hT.parent m hm h0)
        have := hE.longer
        omega
  | succ n ih =>
      by_cases h0 : m = rootMount
      · rw [h0]
        exact .refl
      · have hmem := hT.parent m hm h0
        have hE := hT.edge _ _ hmem
        have := hE.longer
        exact .child _ _ (ih (M.mp m).parent (by omega) hE.parent_live) hmem

end Tree

/-! ## 4. The search -/

/-- **The mount point of a path**: it covers the path, and every other one that does is shorter. -/
structure IsLongest (M : Mounts) (path : List Char) (m : Nat) : Prop where
  live : M.live m = true
  covers : m = rootMount ∨ Under (M.mp m).path path
  longest : ∀ y, M.live y = true → Under (M.mp y).path path →
    y = m ∨ (M.mp y).path.length < (M.mp m).path.length

/-- No mount point that the search has passed over covers the path. -/
def PassedOver (M : Mounts) (path : List Char) (m : Nat) : Prop :=
  ∀ q x y, [x, y].Sublist (M.mp q).childMounts → Below M y m → ¬ Under (M.mp x).path path

/-- Where the search stands: everything that covers the path is further down or shorter. -/
structure Trail (M : Mounts) (path : List Char) (m : Nat) : Prop where
  live : M.live m = true
  covers : m = rootMount ∨ Under (M.mp m).path path
  seen : ∀ y, M.live y = true → Under (M.mp y).path path →
    Below M m y ∨ (M.mp y).path.length < (M.mp m).path.length
  passed : PassedOver M path m

/-- What stands before `y` in a list without repetition stands in the part in front of it. -/
theorem mem_of_before {α : Type _} {pre post : List α} {x y : α} (hnd : (pre ++ y :: post).Nodup)
    (h : [x, y].Sublist (pre ++ y :: post)) : x ∈ pre := by
  induction pre with
  | nil =>
      have hy : y ∉ post := (List.nodup_cons.mp hnd).1
      cases h with
      | cons _ h => exact absurd (h.subset (by simp)) hy
      | cons_cons _ h => exact absurd (h.subset (by simp)) hy
  | cons a pre ih =>
      cases h with
      | cons _ h => exact List.mem_cons_of_mem _ (ih (List.nodup_cons.mp hnd).2 h)
      | cons_cons _ _ => exact List.mem_cons_self

section Search

variable {M : Mounts} {path : List Char} {m : Nat}

/-- The root has no parent. -/
theorem below_root_eq (hT : Tree M) {y : Nat} (h : Below M y rootMount) : y = rootMount := by
  have hall : ∀ z, Below M y z → z = rootMount → y = rootMount := fun z hz => by
    cases hz with
    | refl => exact fun e => e
    | child z _ _ hw => exact fun e => absurd e (hT.edge z _ hw).not_root
  exact hall _ h rfl

theorem trail_start (hT : Tree M) (path : List Char) : Trail M path rootMount := by
  refine ⟨hT.root_live, Or.inl rfl, fun y hy _ => Or.inl (below_root hT _ y le_rfl hy),
    fun q x y hxy hy => ?_⟩
  have hmem : y ∈ (M.mp q).childMounts := hxy.subset (by simp)
  exact absurd (below_root_eq hT hy) (hT.edge q y hmem).not_root

/-- What the search matches. -/
theorem matching_some {next : Nat} (h : matching M path m = some next) :
    Under (M.mp next).path path ∧
      ∃ pre post, (M.mp m).childMounts = pre ++ next :: post ∧ ∀ c ∈ pre, ¬ Under (M.mp c).path path := by
  obtain ⟨h1, pre, post, h2, h3⟩ := List.find?_eq_some_iff_append.mp h
  refine ⟨(mountCmp_iff _ _).mp h1, pre, post, h2, fun c hc hu => ?_⟩
  have := h3 c hc
  rw [(mountCmp_iff _ _).mpr hu] at this
  exact absurd this (by decide)

theorem matching_none (h : matching M path m = none) :
    ∀ c ∈ (M.mp m).childMounts, ¬ Under (M.mp c).path path := fun c hc hu => by
  have := List.find?_eq_none.mp h c hc
  exact this ((mountCmp_iff _ _).mpr hu)

theorem IsLongest.unique (hT : Tree M) {r : Nat} (h : IsLongest M path m) (h' : IsLongest M path r) :
    m = r := by
  have hzero : (M.mp rootMount).path.length = 0 := by rw [hT.root_path]; rfl
  cases h.covers with
  | inl e =>
      cases h'.covers with
      | inl e' => rw [e, e']
      | inr hu =>
          cases h.longest r h'.live hu with
          | inl e' => exact e'.symm
          | inr hlt =>
              rw [e, hzero] at hlt
              exact absurd hlt (Nat.not_lt_zero _)
  | inr hu =>
      cases h'.longest m h.live hu with
      | inl e => exact e
      | inr hlt =>
          cases h'.covers with
          | inl e =>
              rw [e, hzero] at hlt
              exact absurd hlt (Nat.not_lt_zero _)
          | inr hu' =>
              cases h.longest r h'.live hu' with
              | inl e => exact e.symm
              | inr hlt' => exact absurd (hlt.trans hlt') (Nat.lt_irrefl _)

/-- **One turn**: the first child that covers the path is on the way to the longest. -/
theorem trail_next (hT : Tree M) (h : Trail M path m) {next : Nat} (hn : matching M path m = some next) :
    Trail M path next ∧ (M.mp m).path.length < (M.mp next).path.length := by
  obtain ⟨hu, pre, post, hsplit, hpre⟩ := matching_some hn
  have hmem : next ∈ (M.mp m).childMounts := by rw [hsplit]; simp
  have hE := hT.edge m next hmem
  refine ⟨⟨hE.live, Or.inr hu, fun y hy hyu => ?_, fun q x y hxy hy => ?_⟩, hE.longer⟩
  · cases h.seen y hy hyu with
    | inr hlt => exact Or.inr (hlt.trans hE.longer)
    | inl hb =>
        cases below_cases hb with
        | inl e => exact Or.inr (e ▸ hE.longer)
        | inr hc =>
            obtain ⟨c, hc, hcy⟩ := hc
            have hEc := hT.edge m c hc
            have hcu : Under (M.mp c).path path := by
              cases below_under hT hEc.live hcy with
              | inl e => exact absurd e hEc.not_root
              | inr e => exact e.trans hyu
            rw [hsplit] at hc
            cases List.mem_append.mp hc with
            | inl hin => exact absurd hcu (hpre c hin)
            | inr hin =>
                cases List.mem_cons.mp hin with
                | inl e => exact Or.inl (e ▸ hcy)
                | inr hin =>
                    -- `y` hangs below a later sibling: it is not under the path of `next`
                    have hsub : [next, c].Sublist (M.mp m).childMounts := by
                      rw [hsplit]
                      refine List.Sublist.trans ?_ (List.sublist_append_right pre _)
                      exact (List.singleton_sublist.mpr hin).cons_cons next
                    have hnot := hT.order m next c hsub y hcy
                    cases hu.under_or_lt hyu with
                    | inl e => exact absurd e hnot
                    | inr e => exact Or.inr e
  · -- a mount point above `next` is `next` itself or above `m`
    have hup : y = next ∨ Below M y m := by
      cases hy with
      | refl => exact Or.inl rfl
      | child z w hz hw =>
          have hzm : z = m := (hT.edge z _ hw).parent.symm.trans hE.parent
          exact Or.inr (hzm ▸ hz)
    cases hup with
    | inr hb => exact h.passed q x y hxy hb
    | inl e =>
        subst e
        have hq : q = m := by
          have hyq : y ∈ (M.mp q).childMounts := hxy.subset (by simp)
          exact (hT.edge q y hyq).parent.symm.trans hE.parent
        subst hq
        exact hpre x (mem_of_before (hsplit ▸ hT.nodup q) (hsplit ▸ hxy))

theorem trail_end (hT : Tree M) (h : Trail M path m) (hn : matching M path m = none) :
    IsLongest M path m := by
  refine ⟨h.live, h.covers, fun y hy hyu => ?_⟩
  cases h.seen y hy hyu with
  | inr hlt => exact Or.inr hlt
  | inl hb =>
      cases below_cases hb with
      | inl e => exact Or.inl e
      | inr hc =>
          obtain ⟨c, hc, hcy⟩ := hc
          have hEc := hT.edge m c hc
          cases below_under hT hEc.live hcy with
          | inl e => exact absurd e hEc.not_root
          | inr e => exact absurd (e.trans hyu) (matching_none hn c hc)

/-- The counts after a search that has gone from `m` to `r`: the reference has moved. -/
def movedTo (count : Nat → Int) (m r : Nat) : Nat → Int :=
  fun x => count x + (if x = r ∧ r ≠ rootMount then 1 else 0) - if x = m ∧ m ≠ rootMount then 1 else 0

/-- A whole search takes a reference to what it has found. -/
theorem movedTo_root {count : Nat → Int} {x r : Nat} (h0 : x ≠ rootMount) :
    movedTo count rootMount r x = count x + if x = r then 1 else 0 := by
  by_cases hx : x = r
  · simp [movedTo, ← hx, h0]
  · simp [movedTo, hx]

theorem moved_next (count : Nat → Int) {next : Nat} (h0 : next ≠ rootMount) (m r : Nat) :
    movedTo (releaseMountPoint (addCount count next 1) m) next r = movedTo count m r := by
  funext x
  by_cases hm : m = rootMount
  · have hrel : releaseMountPoint (addCount count next 1) m = addCount count next 1 :=
      if_neg (fun h => h hm)
    rw [hrel]
    by_cases hx : x = next
    · subst hx
      simp only [movedTo, addCount, Function.update_self, hm]
      simp [h0]
      omega
    · simp only [movedTo, addCount, Function.update_of_ne hx, hm]
      simp [hx]
  · have hrel : releaseMountPoint (addCount count next 1) m = addCount (addCount count next 1) m (-1) :=
      if_pos hm
    rw [hrel]
    simp only [movedTo, addCount, Function.update_apply]
    by_cases hx : x = next
    · by_cases hxm : x = m
      · subst hx
        subst hxm
        have hcancel : count x + 1 + -1 = count x := by omega
        simp only [if_true, hcancel]
      · subst hx
        have : ¬ m = x := fun e => hxm e.symm
        simp [hxm, h0]
        omega
    · by_cases hxm : x = m
      · subst hxm
        simp [hx, hm]
        omega
      · simp [hx, hxm]

/-- **The loop ends**, with the longest prefix and its reference taken. -/
theorem findLoop_spec (hT : Tree M) (h : Trail M path m) {fuel : Nat}
    (hf : path.length < fuel + (M.mp m).path.length) (count : Nat → Int) :
    ∃ r, findLoop M path fuel m count = some (r, movedTo count m r) ∧ IsLongest M path r ∧
      PassedOver M path r ∧ ∀ c ∈ (M.mp r).childMounts, ¬ Under (M.mp c).path path := by
  induction fuel generalizing m count with
  | zero =>
      -- a mount point that covers the path is not longer
      cases h.covers with
      | inl e =>
          rw [e, hT.root_path] at hf
          exact absurd hf (by simp)
      | inr e =>
          have := e.length_le
          omega
  | succ fuel ih =>
      cases hn : matching M path m with
      | none =>
          refine ⟨m, ?_, trail_end hT h hn, h.passed, matching_none hn⟩
          have hsame : movedTo count m m = count := by
            funext x
            simp [movedTo]
          simp only [findLoop, hn, hsame]
      | some next =>
          obtain ⟨h', hlong⟩ := trail_next hT h hn
          obtain ⟨hu, pre, post, hsplit, -⟩ := matching_some hn
          have hnr : next ≠ rootMount := (hT.edge m next (by rw [hsplit]; simp)).not_root
          obtain ⟨r, hr, hrest⟩ := ih h' (by omega) (releaseMountPoint (addCount count next 1) m)
          refine ⟨r, ?_, hrest⟩
          rw [moved_next count hnr] at hr
          simp only [findLoop, hn]
          exact hr

/-- **`FindMountPoint`** returns the longest prefix. -/
theorem find_spec (hT : Tree M) (path : List Char) :
    ∃ r, findMountPoint M path = some (r, movedTo M.refCount rootMount r) ∧ IsLongest M path r ∧
      PassedOver M path r ∧ ∀ c ∈ (M.mp r).childMounts, ¬ Under (M.mp c).path path :=
  findLoop_spec hT (trail_start hT path) (by rw [hT.root_path]; simp) M.refCount

/-- **`AdvancePath`** returns what is behind the prefix. -/
theorem advance_spec (hT : Tree M) (h : m = rootMount ∨ Under (M.mp m).path path) :
    path = (M.mp m).path ∧ advancePath path (M.mp m).path = [] ∨
      path = (M.mp m).path ++ '/' :: advancePath path (M.mp m).path ∨
      m = rootMount ∧ advancePath path (M.mp m).path = path := by
  have hunder : Under (M.mp m).path path →
      path = (M.mp m).path ∧ advancePath path (M.mp m).path = [] ∨
        path = (M.mp m).path ++ '/' :: advancePath path (M.mp m).path := fun hu => by
    cases hu with
    | inl e =>
        have hadv := advancePath_append (M.mp m).path []
        rw [List.append_nil] at hadv
        exact Or.inl ⟨e, by rw [e, hadv]; rfl⟩
    | inr e =>
        obtain ⟨rest, hrest⟩ := e
        have hadv : advancePath path (M.mp m).path = rest := by
          rw [hrest, advancePath_append]
          rfl
        exact Or.inr (by rw [hadv]; exact hrest)
  cases h with
  | inr hu =>
      cases hunder hu with
      | inl h => exact Or.inl h
      | inr h => exact Or.inr (Or.inl h)
  | inl e =>
      subst e
      by_cases hu : Under (M.mp rootMount).path path
      · cases hunder hu with
        | inl h => exact Or.inl h
        | inr h => exact Or.inr (Or.inl h)
      · refine Or.inr (Or.inr ⟨rfl, ?_⟩)
        rw [hT.root_path] at hu ⊢
        cases path with
        | nil => rfl
        | cons c path =>
            have hc : ¬ c = '/' := fun e => hu (Or.inr ⟨path, by rw [e]; rfl⟩)
            simp [advancePath, hc]

end Search

/-! ## 5. Insertion and removal -/

section Insert

variable {M : Mounts} {path : List Char} {m : Nat}

theorem insert_new (M : Mounts) (m : Nat) (path : List Char) :
    (M.insert m path).mp M.next = ⟨m, path, []⟩ := Function.update_self _ _ _

theorem insert_other {x : Nat} (hx : x ≠ M.next) :
    (M.insert m path).mp x =
      if x = m then { M.mp m with childMounts := (M.mp m).childMounts ++ [M.next] } else M.mp x := by
  simp only [Mounts.insert, Function.update_of_ne hx, Function.update_apply]

theorem insert_path {x : Nat} (hx : x ≠ M.next) : ((M.insert m path).mp x).path = (M.mp x).path := by
  rw [insert_other hx]
  split_ifs with h
  · rw [h]
  · rfl

theorem insert_parent {x : Nat} (hx : x ≠ M.next) :
    ((M.insert m path).mp x).parent = (M.mp x).parent := by
  rw [insert_other hx]
  split_ifs with h
  · rw [h]
  · rfl

theorem insert_live {x : Nat} (hx : x ≠ M.next) : (M.insert m path).live x = M.live x :=
  Function.update_of_ne hx _ _

theorem Tree.ne_next (hT : Tree M) {x : Nat} (h : M.live x = true) : x ≠ M.next :=
  Nat.ne_of_lt (hT.fresh x h)

/-- The children after the insertion: the old ones, and the new one of `m`. -/
theorem mem_insert_children {x c : Nat} (h : c ∈ ((M.insert m path).mp x).childMounts) :
    c ∈ (M.mp x).childMounts ∨ x = m ∧ c = M.next := by
  by_cases hx : x = M.next
  · rw [hx, insert_new] at h
    exact absurd h List.not_mem_nil
  · rw [insert_other hx] at h
    by_cases hm : x = m
    · rw [if_pos hm] at h
      cases List.mem_append.mp h with
      | inl h => exact Or.inl (hm ▸ h)
      | inr h => exact Or.inr ⟨hm, List.mem_singleton.mp h⟩
    · rw [if_neg hm] at h
      exact Or.inl h

theorem below_insert (hT : Tree M) (hm : M.live m = true) {y z : Nat}
    (h : Below (M.insert m path) y z) :
    z ≠ M.next ∧ Below M y z ∨ z = M.next ∧ (y = M.next ∨ Below M y m) := by
  induction h with
  | refl =>
      by_cases hy : y = M.next
      · exact Or.inr ⟨hy, Or.inl hy⟩
      · exact Or.inl ⟨hy, .refl⟩
  | child z w _ hw ih =>
      cases mem_insert_children hw with
      | inl hin =>
          have hE := hT.edge z w hin
          refine Or.inl ⟨hT.ne_next hE.live, ?_⟩
          cases ih with
          | inl ih => exact .child z w ih.2 hin
          | inr ih => exact absurd ih.1 (hT.ne_next hE.parent_live)
      | inr hnew =>
          refine Or.inr ⟨hnew.2, Or.inr ?_⟩
          cases ih with
          | inl ih => exact hnew.1 ▸ ih.2
          | inr ih => exact absurd (ih.1.symm.trans hnew.1).symm (hT.ne_next hm)

/-- Two children in their order after the insertion. -/
theorem before_insert {q x y : Nat} (h : [x, y].Sublist ((M.insert m path).mp q).childMounts) :
    [x, y].Sublist (M.mp q).childMounts ∨ q = m ∧ x ∈ (M.mp m).childMounts ∧ y = M.next := by
  by_cases hq : q = M.next
  · rw [hq, insert_new] at h
    exact absurd h (by simp)
  · rw [insert_other hq] at h
    by_cases hm : q = m
    · rw [if_pos hm] at h
      obtain ⟨l1, l2, hl, h1, h2⟩ := List.sublist_append_iff.mp h
      cases l2 with
      | nil =>
          rw [List.append_nil] at hl
          exact Or.inl (hm ▸ hl ▸ h1)
      | cons a l2 =>
          have ha := List.Sublist.eq_of_length_le h2 (by simp)
          rw [ha] at hl
          have hl' : [x] ++ [y] = l1 ++ [M.next] := hl
          obtain ⟨hx, hy⟩ := List.append_inj' hl' rfl
          exact Or.inr ⟨hm, List.singleton_sublist.mp (hx ▸ h1), List.singleton_inj.mp hy⟩
    · rw [if_neg hm] at h
      exact Or.inl h

/-- A new mount point at the end of the children keeps the tree. -/
theorem tree_insert (hT : Tree M) (hm : M.live m = true)
    (hlong : (M.mp m).path.length < path.length) (hunder : m = rootMount ∨ Under (M.mp m).path path)
    (hpassed : PassedOver M path m) (hnone : ∀ c ∈ (M.mp m).childMounts, ¬ Under (M.mp c).path path) :
    Tree (M.insert m path) := by
  have hr := hT.ne_next hT.root_live
  have hmn := hT.ne_next hm
  have hchild : ∀ q c, c ∈ (M.mp q).childMounts → c ∈ ((M.insert m path).mp q).childMounts :=
    fun q c hc => by
      rw [insert_other (hT.ne_next (hT.edge q c hc).parent_live)]
      split_ifs with h
      · exact List.mem_append_left _ (h ▸ hc)
      · exact hc
  refine ⟨?_, ?_, fun q c hc => ?_, fun x hx h0 => ?_, fun q => ?_, fun q x y hxy z hz => ?_,
    fun x hx => ?_⟩
  · rw [insert_live hr]
    exact hT.root_live
  · rw [insert_path hr]
    exact hT.root_path
  · cases mem_insert_children hc with
    | inl hin =>
        have hE := hT.edge q c hin
        have hq := hT.ne_next hE.parent_live
        have hcn := hT.ne_next hE.live
        refine ⟨?_, ?_, ?_, hE.not_root, ?_, ?_⟩
        · rw [insert_live hq]
          exact hE.parent_live
        · rw [insert_live hcn]
          exact hE.live
        · rw [insert_parent hcn]
          exact hE.parent
        · rw [insert_path hq, insert_path hcn]
          exact hE.longer
        · rw [insert_path hq, insert_path hcn]
          exact hE.under
    | inr hnew =>
        obtain ⟨rfl, rfl⟩ := hnew
        refine ⟨?_, Function.update_self _ _ _, ?_, fun e => hr e.symm, ?_, ?_⟩
        · rw [insert_live hmn]
          exact hm
        · rw [insert_new]
        · rw [insert_path hmn, insert_new]
          exact hlong
        · rw [insert_path hmn, insert_new]
          exact hunder
  · by_cases hxn : x = M.next
    · subst hxn
      rw [insert_new]
      show M.next ∈ ((M.insert m path).mp m).childMounts
      rw [insert_other hmn, if_pos rfl]
      exact List.mem_append_right _ (List.mem_singleton.mpr rfl)
    · rw [insert_live hxn] at hx
      rw [insert_parent hxn]
      exact hchild _ x (hT.parent x hx h0)
  · by_cases hq : q = M.next
    · rw [hq, insert_new]
      exact List.nodup_nil
    · rw [insert_other hq]
      split_ifs with h
      · refine List.nodup_append.mpr ⟨hT.nodup m, List.nodup_singleton _, fun a ha b hb e => ?_⟩
        rw [List.mem_singleton.mp hb] at e
        exact hT.ne_next (hT.edge m a ha).live e
      · exact hT.nodup q
  · have hxlive : x ≠ M.next := by
      cases before_insert hxy with
      | inl h => exact hT.ne_next (hT.edge q x (h.subset (by simp))).live
      | inr h => exact hT.ne_next (hT.edge m x h.2.1).live
    rw [insert_path hxlive]
    cases below_insert hT hm hz with
    | inl h =>
        rw [insert_path h.1]
        cases before_insert hxy with
        | inl hold => exact hT.order q x y hold z h.2
        | inr hnew =>
            -- nothing old is below the new mount point
            have hno : ∀ w, Below M M.next w → w = M.next := fun w hw => by
              induction hw with
              | refl => rfl
              | child z w _ hw ih => exact absurd ih (hT.ne_next (hT.edge z w hw).parent_live)
            exact absurd (hno z (hnew.2.2 ▸ h.2)) h.1
    | inr h =>
        rw [h.1, insert_new]
        cases before_insert hxy with
        | inl hold =>
            have hyl := hT.ne_next (hT.edge q y (hold.subset (by simp))).live
            cases h.2 with
            | inl e => exact absurd e hyl
            | inr hb => exact hpassed q x y hold hb
        | inr hnew => exact hnone x hnew.2.1
  · by_cases hxn : x = M.next
    · rw [hxn]
      exact Nat.lt_succ_self _
    · rw [insert_live hxn] at hx
      exact Nat.lt_succ_of_lt (hT.fresh x hx)

end Insert

section Erase

variable {M : Mounts} {m : Nat}

theorem erase_mp (M : Mounts) (m x : Nat) : (M.erase m).mp x =
    if x = (M.mp m).parent then
      { M.mp (M.mp m).parent with childMounts := (M.mp (M.mp m).parent).childMounts.erase m }
    else M.mp x := by
  simp only [Mounts.erase, Function.update_apply]

theorem erase_path (M : Mounts) (m x : Nat) : ((M.erase m).mp x).path = (M.mp x).path := by
  rw [erase_mp]
  split_ifs with h
  · rw [h]
  · rfl

theorem erase_parent (M : Mounts) (m x : Nat) : ((M.erase m).mp x).parent = (M.mp x).parent := by
  rw [erase_mp]
  split_ifs with h
  · rw [h]
  · rfl

theorem erase_children (M : Mounts) (m x : Nat) :
    ((M.erase m).mp x).childMounts.Sublist (M.mp x).childMounts := by
  rw [erase_mp]
  split_ifs with h
  · rw [h]
    exact List.erase_sublist
  · exact List.Sublist.refl _

theorem mem_erase_children {x c : Nat} (hc : c ∈ (M.mp x).childMounts) (hne : c ≠ m) :
    c ∈ ((M.erase m).mp x).childMounts := by
  rw [erase_mp]
  split_ifs with h
  · exact (List.mem_erase_of_ne hne).mpr (h ▸ hc)
  · exact hc

theorem erase_live {x : Nat} (hx : x ≠ m) : (M.erase m).live x = M.live x :=
  Function.update_of_ne hx _ _

theorem below_erase {y z : Nat} (h : Below (M.erase m) y z) : Below M y z := by
  induction h with
  | refl => exact .refl
  | child z w _ hw ih => exact .child z w ih ((erase_children M m z).subset hw)

/-- **`Unmount` of a mount point without children keeps the tree.** -/
theorem tree_erase (hT : Tree M) (hm : M.live m = true) (h0 : m ≠ rootMount)
    (hleaf : (M.mp m).childMounts = []) : Tree (M.erase m) := by
  -- the mount point is gone from the one list it was in
  have hgone : ∀ q, m ∉ ((M.erase m).mp q).childMounts := fun q hq => by
    have hold := (erase_children M m q).subset hq
    have hp : q = (M.mp m).parent := (hT.edge q m hold).parent.symm
    rw [erase_mp, if_pos hp] at hq
    exact (hT.nodup _).not_mem_erase hq
  have hne : ∀ q c, c ∈ ((M.erase m).mp q).childMounts → q ≠ m ∧ c ≠ m := fun q c hc => by
    refine ⟨fun e => ?_, fun e => hgone q (e ▸ hc)⟩
    have hold := (erase_children M m q).subset hc
    rw [e, hleaf] at hold
    exact absurd hold List.not_mem_nil
  refine ⟨?_, ?_, fun q c hc => ?_, fun x hx hx0 => ?_, fun q => ?_, fun q x y hxy z hz => ?_,
    fun x hx => ?_⟩
  · rw [erase_live (fun e => h0 e.symm)]
    exact hT.root_live
  · rw [erase_path]
    exact hT.root_path
  · obtain ⟨hq, hcm⟩ := hne q c hc
    have hE := hT.edge q c ((erase_children M m q).subset hc)
    refine ⟨?_, ?_, ?_, hE.not_root, ?_, ?_⟩
    · rw [erase_live hq]
      exact hE.parent_live
    · rw [erase_live hcm]
      exact hE.live
    · rw [erase_parent]
      exact hE.parent
    · rw [erase_path, erase_path]
      exact hE.longer
    · rw [erase_path, erase_path]
      exact hE.under
  · have hxm : x ≠ m := fun e => by
      rw [e] at hx
      simp [Mounts.erase] at hx
    rw [erase_live hxm] at hx
    rw [erase_parent]
    exact mem_erase_children (hT.parent x hx hx0) hxm
  · exact (hT.nodup q).sublist (erase_children M m q)
  · rw [erase_path, erase_path]
    exact hT.order q x y (hxy.trans (erase_children M m q)) z (below_erase hz)
  · by_cases hxm : x = m
    · exact hT.fresh x (hxm ▸ hm)
    · rw [erase_live hxm] at hx
      exact hT.fresh x hx

end Erase

/-! ## 6. Whole runs -/

/-- The tree, and counts that count at least the children. -/
structure MountInv (M : Mounts) : Prop where
  tree : Tree M
  pinned : ∀ m, M.live m = true → m ≠ rootMount → ((M.mp m).childMounts.length : Int) ≤ M.refCount m

section Runs

variable {M : Mounts}

theorem below_setCount {count : Nat → Int} {y z : Nat} (h : Below (M.setCount count) y z) :
    Below M y z := by
  induction h with
  | refl => exact .refl
  | child z w _ hw ih => exact .child z w ih hw

theorem Tree.setCount (h : Tree M) (count : Nat → Int) : Tree (M.setCount count) := by
  refine ⟨h.root_live, h.root_path, fun q c hc => ?_, h.parent, h.nodup,
    fun q x y hxy z hz => h.order q x y hxy z (below_setCount hz), h.fresh⟩
  have hE := h.edge q c hc
  exact ⟨hE.parent_live, hE.live, hE.parent, hE.not_root, hE.longer, hE.under⟩

/-- The new mount point takes over the reference to its parent. -/
theorem pinned_insert {m : Nat} {path : List Char} (hm : m ≠ M.next)
    (h : ∀ x, M.live x = true → x ≠ rootMount →
      ((M.mp x).childMounts.length : Int) + (if x = m then 1 else 0) ≤ M.refCount x)
    (x : Nat) (hx : (M.insert m path).live x = true) (h0 : x ≠ rootMount) :
    (((M.insert m path).mp x).childMounts.length : Int) ≤ (M.insert m path).refCount x := by
  by_cases hxn : x = M.next
  · rw [hxn, insert_new]
    simp [Mounts.insert]
  · rw [insert_live hxn] at hx
    have hcount : (M.insert m path).refCount x = M.refCount x := Function.update_of_ne hxn _ _
    have hpin := h x hx h0
    rw [hcount, insert_other hxn]
    by_cases hxm : x = m
    · subst hxm
      rw [if_pos rfl] at hpin
      rw [if_pos rfl, List.length_append, List.length_singleton, Int.natCast_add]
      exact hpin
    · rw [if_neg hxm, Int.add_zero] at hpin
      rw [if_neg hxm]
      exact hpin

theorem pinned_erase {m : Nat}
    (h : ∀ x, M.live x = true → x ≠ rootMount → x ≠ m →
      ((M.mp x).childMounts.length : Int) ≤ M.refCount x)
    (x : Nat) (hx : (M.erase m).live x = true) (h0 : x ≠ rootMount) :
    (((M.erase m).mp x).childMounts.length : Int) ≤ (M.erase m).refCount x := by
  have hxm : x ≠ m := fun e => by
    rw [e] at hx
    simp [Mounts.erase] at hx
  rw [erase_live hxm] at hx
  have hlen := (erase_children M m x).length_le
  exact (Int.ofNat_le.mpr hlen).trans (h x hx h0 hxm)

theorem tree_init : Tree initMounts := by
  have hlive : ∀ m, initMounts.live m = true → m = rootMount := fun m h => by
    simpa [initMounts] using h
  refine ⟨rfl, rfl, fun q c hc => absurd hc List.not_mem_nil, fun m hm h0 => absurd (hlive m hm) h0,
    fun q => List.nodup_nil, fun q x y hxy => absurd hxy (by simp [initMounts]), fun m hm => ?_⟩
  rw [hlive m hm]
  exact Nat.one_pos

/-- What remains of a path is behind the path of its mount point. -/
theorem longer_of_rest (hT : Tree M) {path : List Char} {m : Nat}
    (hc : m = rootMount ∨ Under (M.mp m).path path) (hrest : advancePath path (M.mp m).path ≠ []) :
    (M.mp m).path.length < path.length := by
  obtain h | h | h := advance_spec hT hc
  · exact absurd h.2 hrest
  · have hlen := congrArg List.length h
    rw [List.length_append, List.length_cons] at hlen
    omega
  · rw [h.1, hT.root_path] at hrest ⊢
    rw [h.1, hT.root_path] at h
    rw [h.2] at hrest
    exact List.length_pos_iff.mpr hrest

/-- **`Mount` keeps the tree**, where something of the path is left behind the mount point it has found. -/
theorem tree_mount (hT : Tree M) {path : List Char} {m : Nat} {count : Nat → Int}
    (h : findMountPoint M path = some (m, count)) (hrest : advancePath path (M.mp m).path ≠ []) :
    Tree ((M.setCount count).insert m path) := by
  obtain ⟨r, hr, hlong, hpassed, hnone⟩ := find_spec hT path
  rw [hr] at h
  cases h
  exact tree_insert (hT.setCount _) hlong.live (longer_of_rest hT hlong.covers hrest) hlong.covers
    (fun q x y hxy hy => hpassed q x y hxy (below_setCount hy)) hnone

theorem mountInv_init : MountInv initMounts := by
  refine ⟨tree_init, fun m hm h0 => absurd ?_ h0⟩
  simpa [initMounts] using hm

theorem mountInv_step {M' : Mounts} {ev : MountEvent} (hI : MountInv M) (hs : mountStep M ev M') :
    MountInv M' := by
  have hT := hI.tree
  cases hs with
  | mount path m count h hrest =>
      have hT' := tree_mount hT h hrest
      obtain ⟨r, hr, hlong, -, -⟩ := find_spec hT path
      rw [hr] at h
      cases h
      refine ⟨hT', pinned_insert (hT.ne_next hlong.live) fun x hx h0 => ?_⟩
      have hpin := hI.pinned x hx h0
      show _ ≤ movedTo M.refCount rootMount m x
      rw [movedTo_root h0]
      exact Int.add_le_add_right hpin _
  | unmount path m count h hroot hrest hone =>
      obtain ⟨r, hr, hlong, -, -⟩ := find_spec hT path
      rw [hr] at h
      cases h
      rw [movedTo_root hroot, if_pos rfl] at hone
      have hpin := hI.pinned m hlong.live hroot
      have hleaf : (M.mp m).childMounts = [] := List.length_eq_zero_iff.mp (by omega)
      refine ⟨tree_erase (hT.setCount _) hlong.live hroot hleaf, pinned_erase fun x hx h0 hxm => ?_⟩
      show _ ≤ movedTo M.refCount rootMount m x
      rw [movedTo_root h0, if_neg hxm, Int.add_zero]
      exact hI.pinned x hx h0

theorem mountInv_reach (h : Reach mountStep (· = initMounts) M) : MountInv M :=
  Reach.inv (I := MountInv) (fun M (h0 : M = initMounts) => h0 ▸ mountInv_init)
    (fun _ _ _ hI hs => mountInv_step hI hs) h

end Runs

/-- **Longest-prefix selection**, in every state that `Mount` and `Unmount` reach and for every path:
    `FindMountPoint` ends with the longest mounted prefix, and `AdvancePath` returns what is behind it. -/
theorem find_longest_prefix {M : Mounts} (h : Reach mountStep (· = initMounts) M) (path : List Char) :
    ∃ m count, Halts (fun fuel => findLoop M path fuel rootMount M.refCount) (m, count) ∧
      findMountPoint M path = some (m, count) ∧ IsLongest M path m ∧
      (path = (M.mp m).path ∧ advancePath path (M.mp m).path = [] ∨
        path = (M.mp m).path ++ '/' :: advancePath path (M.mp m).path ∨
        m = rootMount ∧ advancePath path (M.mp m).path = path) := by
  have hT := (mountInv_reach h).tree
  obtain ⟨m, hm, hlong, -, -⟩ := find_spec hT path
  refine ⟨m, movedTo M.refCount rootMount m, ⟨path.length + 1, fun fuel hfuel => ?_⟩, hm, hlong,
    advance_spec hT hlong.covers⟩
  have hf : path.length < fuel + (M.mp rootMount).path.length := by omega
  obtain ⟨r, hr, hlong', -, -⟩ := findLoop_spec hT (trail_start hT path) hf M.refCount
  rw [← hlong'.unique hT hlong]
  exact hr

/-- `a/b` is mounted first and the folder `a` over it later: `a/b/c` is still found on `a/b`. -/
theorem find_longest_prefix_nested : ∃ M, Reach mountStep (· = initMounts) M ∧
    (M.mp rootMount).childMounts = [1, 2] ∧
    ∃ count, findMountPoint M "a/b/c".toList = some (1, count) ∧ IsLongest M "a/b/c".toList 1 := by
  have h0 : Reach mountStep (· = initMounts) initMounts := .start _ rfl
  have h1 := Reach.next _ _ _ h0 (mountStep.mount _ "a/b".toList rootMount _ rfl (by decide))
  have h2 := Reach.next _ _ _ h1 (mountStep.mount _ "a".toList rootMount _ rfl (by decide))
  obtain ⟨m, count, -, hfind, hlong, -⟩ := find_longest_prefix h2 "a/b/c".toList
  have hm : (findMountPoint _ "a/b/c".toList).map Prod.fst = some m := congrArg (Option.map Prod.fst) hfind
  obtain rfl : 1 = m := Option.some.inj hm
  exact ⟨_, h2, rfl, count, hfind, hlong⟩

end VFS

end SimpleOS2
