/-
  File:      SimpleOS2/Fs/NodeLifetime.lean
  Subject:   HOW LONG A NODE LIVES (fs/VFS.cpp), with one call after the other.

  Between two calls `refCount` is the number of descriptors and `linkCount` the number of entries, and a node is
  there exactly while one of them is not zero.

  * `Lifetimes` -- this; `alone` -- one call at a time; `shortNames` -- the condition: inserted names fit;
  * `Pc.buffer`, `planAt_buffer` -- the path of a `Delete` never ends with a slash, so its name is the one that
    it has found;
  * `refs_drop`, `links_drop` -- the only steps that take a count down;
  * `AloneInv`, `aloneInv_step` -- the invariant;
  * `node_lifetime`, `long_name_lifetime` -- the law, and a name that does not fit.
-/
import SimpleOS2.Fs.DeadNodes
import SimpleOS2.Fs.PreparePath
import SimpleOS2.Fs.WriteProtection

namespace SimpleOS2

open Lib

namespace Lookup

/-! ## 1. The property -/

/-- No call is under way. -/
def Sys.atRest (s : Sys) : Prop := ∀ t, (s.thread t).pc = .idle

/-- The entry by which the root of a file system is reached without a name. -/
def Sys.rootEntry (s : Sys) (mp id : Nat) : Nat := if id = s.rootNode mp then 1 else 0

/-- **The counts of nodes, and which ids denote nodes.** -/
structure Lifetimes (s : Sys) : Prop where
  refCount : ∀ mp id, s.cached mp id = true → (s.node mp id).refCount = heldOpen s.descs mp id
  linkCount : ∀ mp id, s.cached mp id = true → (s.node mp id).linkCount = s.entriesOf mp id + s.rootEntry mp id
  alive : ∀ mp id, s.alive mp id = true ↔ 0 < heldOpen s.descs mp id + (s.entriesOf mp id + s.rootEntry mp id)
  entry : ∀ mp dir, s.alive mp dir = true → ∀ e ∈ (s.node mp dir).cachedDir, s.alive mp e.nodeID = true

/-- The event writes to the file, or clears it. -/
def Event.stores (s : Sys) (mp id : Nat) : Event → Prop
  | .write i _ _ _ => ∃ d, s.descs[i]? = some d ∧ d.mp = mp ∧ d.id = id
  | .run t g => ∃ desc, (s.plan t g).1 = .openDesc true desc ∧ desc.mp = mp ∧ desc.id = id
  | _ => False

/-- **An open file stays**: its node is there, and it is what it was but for writes to it. -/
structure StaysOpen (s : Sys) : Prop where
  alive : ∀ d ∈ s.descs, s.alive d.mp d.id = true
  file : ∀ d ∈ s.descs, ∀ ev s', sysStep s ev s' → ¬ ev.stores s d.mp d.id →
    (s'.node d.mp d.id).content = (s.node d.mp d.id).content

/-- One call after the other, with prepared paths, on one tree of mount points. -/
def alone (s : Sys) : Event → Prop
  | .start _ _ path => s.atRest ∧ ∃ cwd p, VFS.preparePath cwd p = .ok path
  | .refuse _ _ _ => s.atRest
  | .addRef _ => s.atRest
  | .close _ _ => s.atRest
  | .write _ _ _ _ => s.atRest
  | .remount _ => False
  | _ => True

/-- **The condition**: a name that is inserted fits into `DirectoryEntry::name`. -/
def shortNames (s : Sys) : Event → Prop
  | .run t _ => ∀ op mp p id name, (s.thread t).pc = .insert op mp p id name → name.length ≤ 49
  | _ => True

/-- Before the first call: a settled tree in which every node has an entry or a descriptor. -/
structure settledTree (s : Sys) : Prop extends settled s where
  used : ∀ mp id, s.alive mp id = true → 0 < s.refs mp id ∨ 0 < s.linksOf mp id

/-! ## 2. The path of a `Delete` -/

/-- What the buffer holds on the way to a node. -/
def Pc.buffer : Pc → Option (List Char)
  | .find _ path => some path
  | .root _ path _ _ => some path
  | .walk _ path _ _ _ => some path
  | .search _ path _ _ _ => some path
  | .entry _ path _ _ _ _ => some path
  | .arrived _ path _ _ _ _ => some path
  | .relink _ path _ => some path
  | _ => none

section Plans

variable {s : Sys} {t : Nat} {g : Garbage} {mp id p : Nat} {path rest : List Char}

/-- The buffer of a `Delete` changes at symbolic links only, and something is left behind them. -/
theorem planAt_buffer {pc : Pc} (hop : pc.op = some .delete) (h : (s.planAt t g pc).2.buffer = some path) :
    pc.buffer = some path ∨ ∃ path' mp cur id rest target, pc = .arrived .delete path' mp cur id rest ∧ rest ≠ [] ∧
      path = linkedPath target rest := by
  cases pc with
  | idle => cases hop
  | find op path' =>
      left
      change (s.planFind op path').2.buffer = _ at h
      unfold Sys.planFind at h
      split at h <;> exact h
  | root op path' mp rest =>
      left
      change (s.planRoot op path' mp rest).buffer = _ at h
      unfold Sys.planRoot at h
      split_ifs at h
      · cases h
      · exact h
  | walk op path' mp cur rest =>
      left
      change (s.planWalk t op path' mp cur rest).buffer = _ at h
      unfold Sys.planWalk at h
      split_ifs at h
      · cases h
      · cases h
      · exact h
  | search op path' mp cur rest =>
      left
      change (s.locked mp cur (.search op path' mp cur rest)
          (.none, s.planSearch op path' mp cur rest)).2.buffer = _ at h
      unfold Sys.locked at h
      split_ifs at h
      · exact h
      · change (s.planSearch op path' mp cur rest).buffer = _ at h
        unfold Sys.planSearch at h
        split at h
        · exact h
        · split_ifs at h <;> cases h
  | entry op path' mp cur id rest => exact Or.inl h
  | arrived op path' mp cur id rest =>
      cases hop
      change (s.planArrived .delete path' mp cur id rest).2.buffer = _ at h
      unfold Sys.planArrived at h
      split_ifs at h with h1 h2 h3 h4
      · cases h
      · cases h
      · cases h
        exact Or.inr ⟨path', mp, cur, id, rest, _, rfl, fun hr => h1 ⟨rfl, hr⟩, rfl⟩
      · cases h
      · exact Or.inl h
  | relink op path' todo =>
      left
      cases todo <;> exact h
  | done op path' mp node parent rest =>
      cases hop
      change (s.planDelete t path' mp node parent rest).buffer = _ at h
      unfold Sys.planDelete at h
      split at h
      · cases h
      · split_ifs at h <;> cases h
      · cases h
  | make op mp parent name =>
      cases hop
      cases h
  | insert op mp parent id name =>
      cases hop
      change (s.locked mp parent (.insert .delete mp parent id name) _).2.buffer = _ at h
      unfold Sys.locked at h
      split_ifs at h <;> cases h
  | leaveFolder mode mp id parent => cases h
  | opened mode mp id => cases hop
  | lookAt op mp id =>
      cases hop
      cases h
  | listing mp id n writable => cases hop
  | checkEmpty path' mp id parent =>
      change (s.locked mp id (.checkEmpty path' mp id parent)
          (.none, s.planCheckEmpty path' mp id parent)).2.buffer = _ at h
      unfold Sys.locked at h
      split_ifs at h
      · cases h
      · change (s.planCheckEmpty path' mp id parent).buffer = _ at h
        unfold Sys.planCheckEmpty at h
        split_ifs at h <;> cases h
  | remove path' mp id parent =>
      change (s.locked mp parent (.remove path' mp id parent) (s.planRemove path' mp id parent)).2.buffer = _ at h
      unfold Sys.locked at h
      split_ifs at h
      · cases h
      · obtain ⟨i, e, -, -, -, hr⟩ | ⟨-, hr⟩ := planRemove_cases s path' mp id parent <;> rw [hr] at h <;> cases h
  | unlink mp id parent => cases h
  | cleanup op todo after => cases todo <;> cases h
  | returned op res => cases h

theorem Tail.getLast (h : Tail path rest) (hne : rest ≠ []) : rest.getLast? = path.getLast? := by
  rcases h with rfl | ⟨pre, rfl⟩
  · rfl
  · rw [List.getLast?_append_of_ne_nil _ (List.cons_ne_nil _ _), List.getLast?_cons_of_ne_nil hne]

theorem linkedPath_getLast {target : List Char} (hne : rest ≠ []) :
    (linkedPath target rest).getLast? = rest.getLast? := by
  rw [linkedPath, if_neg hne]
  exact ((@Tail.getLast _ rest (Or.inr ⟨target, rfl⟩)) hne).symm

/-- **What `Delete` has found has the name that it looks for.** -/
theorem found_name (ht : Tail path rest) (hslash : path.getLast? ≠ some '/') (hne : rest ≠ [])
    (hp : ∀ name ∈ names (s.node mp p).cachedDir, ProperName name)
    (hf : findEntry rest (s.node mp p).cachedDir = some (id, [])) :
    getFileName path ∈ names (s.node mp p).cachedDir := by
  obtain ⟨e, he, -, hw⟩ := findEntry_spec hf
  have hm : e.name ∈ names (s.node mp p).cachedDir := List.mem_map_of_mem he
  rcases pathWalk_iff.mp hw with ⟨rfl, -⟩ | rfl
  · rw [getFileName_tail ht, getFileName_of_not_mem (hp _ hm).2]
    exact hm
  · rw [← ht.getLast hne] at hslash
    exact absurd List.getLast?_concat hslash

end Plans

/-! ## 3. Where counts go down -/

section Drops

variable {s : Sys} {t : Nat} {g : Garbage} {mp id : Nat} {e : Effect} {held : List Ref}

/-- **Only `ReleaseNode` takes a reference count down.** -/
theorem refs_drop (hfit : Fit s held e) (h : (s.perform g e).refs mp id < s.refs mp id) :
    e = .release (.node mp id) := by
  cases e with
  | acquire m i =>
      change (s.acquireNode m i g.node).refs mp id < _ at h
      rw [acquire_refs] at h
      split_ifs at h <;> omega
  | release r =>
      cases r with
      | mount m => exact absurd h (lt_irrefl _)
      | node m i =>
          change (s.releaseNode m i).refs mp id < _ at h
          rw [release_refs (hfit.cached m i (hfit.release _ rfl))] at h
          by_cases hx : mp = m ∧ id = i
          · rw [hx.1, hx.2]
          · rw [if_neg hx] at h
            omega
  | make m node =>
      obtain ⟨hzero, hone⟩ := hfit.make m node rfl
      rw [make_refs] at h
      by_cases hx : mp = m ∧ id = s.nextID m
      · obtain ⟨rfl, rfl⟩ := hx
        rw [if_pos ⟨rfl, rfl⟩, hzero, hone] at h
        omega
      · rw [if_neg hx] at h
        exact absurd h (lt_irrefl _)
  | openDesc clear desc =>
      cases clear with
      | false => exact absurd h (lt_irrefl _)
      | true =>
          change (s.setNode desc.mp desc.id _).refs mp id < _ at h
          exact (h.ne (setNode_refs_same rfl)).elim
  | link m i n => exact (h.ne (setNode_refs_same rfl)).elim
  | addEntry m i name dir =>
      change (s.setNode m i _).refs mp id < _ at h
      exact (h.ne (setNode_refs_same rfl)).elim
  | removeEntry m i dir => exact (h.ne (setNode_refs_same rfl)).elim
  | changeOwner m i uid gid => exact (h.ne (setNode_refs_same rfl)).elim
  | changePermissions m i permissions => exact (h.ne (setNode_refs_same rfl)).elim
  | none => exact absurd h (lt_irrefl _)
  | find m count => exact absurd h (lt_irrefl _)
  | keepLock m i => exact absurd h (lt_irrefl _)
  | stat stats => exact absurd h (lt_irrefl _)

/-- **Only `Delete` takes a link count down**, of the node that it holds. -/
theorem links_drop {pc : Pc} {q : Effect × Pc} (hl : LinkStep s t g pc q) (hF : Fresh s)
    (hacq : ∀ m i, q.1 = .acquire m i → s.alive m i = true) (h : (s.perform g q.1).linksOf mp id < s.linksOf mp id) :
    Ref.node mp id ∈ pc.owed ∧ q.1 = .link mp id (-1) := by
  cases hl with
  | plain pc q he hp => exact absurd (plain_links (g := g) he hacq mp id).1 h.ne
  | link m i p path rest =>
      change (s.setNode m i _).linksOf mp id < _ at h
      rw [setNode_links] at h
      by_cases hx : mp = m ∧ id = i
      · obtain ⟨rfl, rfl⟩ := hx
        simp only [and_self, if_true, Sys.linksOf] at h
        split_ifs at h <;> omega
      · rw [if_neg hx] at h
        exact absurd h (lt_irrefl _)
  | make op m p name node hn =>
      have ha : s.alive m (s.nextID m) = false := eq_false_of_ne_true fun ha => (hF m _ ha).ne rfl
      change (s.perform g (.make m node)).linksOf mp id < _ at h
      rw [make_links ha, (newNode_fields hn).1] at h
      split_ifs at h <;> omega
  | insert op m p i name =>
      change (s.setNode m p _).linksOf mp id < _ at h
      exact (h.ne (setNode_links_same rfl)).elim
  | remove path m i p j e he hn => exact (h.ne (setNode_links_same rfl)).elim
  | unlink m i p =>
      change (s.setNode m i _).linksOf mp id < _ at h
      rw [setNode_links] at h
      by_cases hx : mp = m ∧ id = i
      · rw [hx.1, hx.2]
        exact ⟨List.mem_cons_self, rfl⟩
      · rw [if_neg hx] at h
        exact absurd h (lt_irrefl _)

/-- **A node that no longer counts anything is destroyed.** -/
theorem next_used (hC : Counted s) (hC' : Counted (s.next t g))
    (h : ∀ mp id, s.alive mp id = true → 0 < s.refs mp id ∨ 0 < s.linksOf mp id)
    (ha : (s.next t g).alive mp id = true) : 0 < (s.next t g).refs mp id ∨ 0 < (s.next t g).linksOf mp id := by
  have hR : (s.next t g).refs mp id = (s.perform g (s.plan t g).1).refs mp id := rfl
  have hL : (s.next t g).linksOf mp id = (s.perform g (s.plan t g).1).linksOf mp id := rfl
  have hfit := hC.plan_fit (t := t) (g := g)
  obtain ⟨n, -, hrefs⟩ := hC'.refs mp id
  obtain ⟨m, -, hlinks⟩ := hC'.links mp id
  rcases perform_alive ha with hold | ⟨node, he, rfl⟩
  · by_contra hno
    have hzero : (s.next t g).refs mp id = 0 ∧ (s.next t g).linksOf mp id = 0 := by omega
    rcases h mp id hold with hpos | hpos
    · -- the last reference is given back, and the node has no link
      have he := @refs_drop s g mp id _ _ hfit (by omega)
      have hcached := hC.held_cached (hfit.release _ he)
      have hcount : s.refs mp id = (s.node mp id).refCount := if_pos hcached
      have hlast : s.Last mp id := by
        rw [hR, he] at hzero
        rw [hL, he] at hzero
        have h1 : (s.releaseNode mp id).refs mp id = 0 := hzero.1
        have h2 : (s.releaseNode mp id).linksOf mp id = 0 := hzero.2
        rw [release_refs hcached, if_pos ⟨rfl, rfl⟩, hcount] at h1
        rw [release_links, Sys.linksOf, if_pos hold] at h2
        exact ⟨h1, h2⟩
      have hdead : (s.next t g).alive mp id = (s.perform g (s.plan t g).1).alive mp id := rfl
      rw [hdead, he] at ha
      exact Bool.false_ne_true ((last_dead hlast).symm.trans ha)
    · -- `Delete` takes the last link away, and still holds the node
      have hstep : LinkStep s t g (s.thread t).pc (s.plan t g) := planAt_linkStep s t g _
      obtain ⟨howed, he⟩ := @links_drop s t g mp id _ _ hstep hC.fresh (fun _ _ he => hC.plan_acquire he) (by omega)
      have hrefs' : (s.next t g).refs mp id = s.refs mp id := by
        rw [hR, he]
        exact setNode_refs_same rfl
      have hcached := hC.held_cached (hC.owed_held howed)
      obtain ⟨k, hk, hcount⟩ := hC.refs mp id
      have hle := hk.le t
      have hpos' : 0 < (s.thread t).held.count (.node mp id) := List.count_pos_iff.mpr (hC.owed_held howed)
      omega
  · left
    rw [hR, he, make_refs, if_pos ⟨rfl, rfl⟩, (hfit.make mp node he).2]
    exact Int.one_pos

/-- **Open files stay**, in every state with exact counts. -/
theorem Counted.staysOpen (hC : Counted s) : StaysOpen s := by
  refine ⟨fun d hd => hC.desc_alive hd, fun d hd ev s' hs hno => ?_⟩
  cases hs with
  | run t g =>
      rcases perform_content (g := g) hC.fresh (hC.desc_alive hd) (s.plan t g).1 with h | h
      · exact h
      · exact absurd h hno
  | write i pos buffer bufferSize d' hd' hw htype =>
      exact setNode_content_other _ fun hx => hno ⟨d', hd', hx.1.symm, hx.2.symm⟩
  | _ => rfl

end Drops

/-! ## 4. The invariant -/

/-- One thread at most is in a call. It owes what it holds, and a `Delete` finds what it has found. -/
structure AloneInv (s : Sys) : Prop where
  kept : KeptInv s
  balanced : ∀ t, Balanced (s.thread t) []
  one : ∃ t, ∀ u, u ≠ t → (s.thread u).pc = .idle
  slash : ∀ t path, (s.thread t).pc.op = some .delete → (s.thread t).pc.buffer = some path → path.getLast? ≠ some '/'
  there : ∀ t path mp p id, (s.thread t).pc.aim = some (path, mp, p, id) →
    getFileName path ∈ names (s.node mp p).cachedDir
  used : ∀ mp id, s.alive mp id = true → 0 < s.refs mp id ∨ 0 < s.linksOf mp id

section Steps

variable {s s' : Sys} {t : Nat} {g : Garbage} {ev : Event} {mp id p : Nat} {path : List Char}

theorem aloneInv_init (h : settledTree s) : AloneInv s := by
  have hpc : ∀ t, (s.thread t).pc = .idle := fun t => (h.quiet t).1
  refine ⟨keptInv_init h.tosettled, fun t => ?_, ⟨0, fun u _ => hpc u⟩, fun t path _ hb => ?_,
    fun t path mp p id ha => ?_, h.used⟩
  · rw [Balanced, hpc, (h.quiet t).2.1]
    exact List.Perm.refl _
  · rw [hpc] at hb
    cases hb
  · rw [hpc] at ha
    cases ha

/-- An idle thread has no step. -/
theorem next_idle (ht : (s.thread t).pc = .idle) (g : Garbage) : s.next t g = s := by
  have hplan : s.plan t g = (.none, .idle) := by
    rw [Sys.plan, ht]
    rfl
  have hth : (s.thread t).after s .none .idle = s.thread t := by
    rw [← ht]
    rfl
  rw [Sys.next, hplan, hth]
  show { s with thread := Function.update s.thread t (s.thread t) } = s
  rw [Function.update_eq_self]

/-- A `Delete` that goes on to its removal leaves the folder as it is. -/
theorem aim_dir {pc : Pc} {q : Effect × Pc} (hl : LinkStep s t g pc q) (ha : pc.aim ≠ none) (hq : q.2.aim ≠ none) :
    q.1.plain = true := by
  cases hl with
  | plain pc q he hp => exact he
  | link mp id p path rest => exact absurd rfl ha
  | make op mp p name node hn => exact absurd rfl ha
  | insert op mp p id name => exact absurd rfl ha
  | remove path mp id p i e he hn => exact absurd rfl hq
  | unlink mp id p => exact absurd rfl ha

/-- **The removal finds its entry.** -/
theorem AloneInv.finds (h : AloneInv s) (t : Nat) : ¬ Missing s (s.thread t).pc := by
  intro hm
  cases hpc : (s.thread t).pc with
  | remove path mp id p =>
      rw [hpc] at hm
      obtain ⟨e, he, hname⟩ := List.mem_map.mp (h.there t path mp p id (by rw [hpc]; rfl))
      exact hm.2 e he hname.symm
  | _ =>
      rw [hpc] at hm
      exact hm

/-- **The step of the thread that is in a call.** -/
theorem AloneInv.run (h : AloneInv s) (hok : shortNames s (.run t g)) : AloneInv (s.next t g) := by
  by_cases ht : (s.thread t).pc = .idle
  · rw [next_idle ht]
    exact h
  · obtain ⟨t', hothers⟩ := h.one
    obtain rfl : t = t' := by
      by_contra hne
      exact ht (hothers t hne)
    have hsharp : sharp s (.run t g) := by
      refine fun op mp p id name hpc => ⟨hok op mp p id name hpc, fun u hu => ?_⟩
      rw [hothers u hu]
      constructor
      · intro hx
        cases hx
      · intro path i hx
        cases hx
    have hspares : spares s (.run t g) := by
      intro mp id he _ u op path cur rest hpc
      by_cases hu : u = t
      · subst hu
        have hacq : (s.plan u g).1 = .acquire mp id := by rw [Sys.plan, hpc]; rfl
        rw [he] at hacq
        cases hacq
      · rw [hothers u hu] at hpc
        cases hpc
    have hkept : KeptInv (s.next t g) := keptInv_step h.kept (.run s t g) hsharp hspares
    refine ⟨hkept, fun u => ?_, ⟨t, fun u hu => ?_⟩, fun u path hop hb => ?_, fun u path mp p id ha => ?_,
      fun mp id hal => next_used h.kept.counted hkept.counted h.used hal⟩
    · obtain ⟨lost, hb, hl⟩ := balanced_step (.run s t g) u (h.balanced u)
      rcases hl with ⟨g', he, hm⟩ | rfl
      · exact absurd hm (h.finds u)
      · exact hb
    · rw [next_other s g hu]
      exact hothers u hu
    · by_cases hu : u = t
      · subst hu
        rw [next_self] at hop hb
        have hdel : (s.thread u).pc.op = some .delete := by
          rcases planAt_op s u g (s.thread u).pc with he | ⟨path', mp, id, -, he⟩
          · exact he.symm.trans hop
          · exact absurd (he.symm.trans hop) (by simp)
        rcases planAt_buffer hdel hb with hold | ⟨path', mp, cur, id, rest, target, hpc, hne, rfl⟩
        · exact h.slash u path hdel hold
        · have htail := h.kept.named.tail u
          rw [hpc] at htail
          have hlast := h.slash u path' hdel (by rw [hpc]; rfl)
          rw [linkedPath_getLast hne, (htail.resolve_left hne).getLast hne]
          exact hlast
      · rw [next_other s g hu, hothers u hu] at hb
        cases hb
    · by_cases hu : u = t
      · subst hu
        have hal := hkept.counted.owed_alive (aim_owed ha)
        rw [next_self] at ha
        have hdir : ((s.next u g).node mp p).cachedDir = (s.plan u g).1.dirAt s mp p := perform_dir hal
        rcases planAt_aim ha with hold | ⟨path', mp', cur, id', rest, hsearch, heq, hf⟩
        · have hstep : LinkStep s u g (s.thread u).pc (s.plan u g) := planAt_linkStep s u g _
          have hq : (s.plan u g).2.aim = some (path, mp, p, id) := ha
          have hplain := aim_dir hstep (by rw [hold]; exact Option.some_ne_none _)
              (by rw [hq]; exact Option.some_ne_none _)
          rw [hdir, plain_dirAt hplain]
          exact h.there u path mp p id hold
        · cases heq
          have hcur : s.alive mp p = true := h.kept.counted.owed_alive (t := u)
              (by rw [hsearch]; exact List.mem_cons_self)
          have htail := h.kept.named.tail u
          rw [hsearch] at htail
          have hlast := h.slash u path (by rw [hsearch]; rfl) (by rw [hsearch]; rfl)
          have hplain : (s.plan u g).1.plain = true := by
            have he : (s.plan u g).1 = .none := by
              rw [Sys.plan, hsearch]
              show (s.locked mp p _ (.none, _)).1 = _
              unfold Sys.locked
              split_ifs <;> rfl
            rw [he]
            rfl
          rw [hdir, plain_dirAt hplain]
          exact found_name htail.2 hlast htail.1 (h.kept.named.names mp p hcur).2 hf
      · rw [next_other s g hu, hothers u hu] at ha
        cases ha

/-- A thread is set where no call is under way. -/
theorem aloneInv_goto {th : Thread} (hkept : KeptInv s') (hbal : ∀ u, Balanced (s'.thread u) [])
    (hrest : ∀ u, u ≠ t → (s.thread u).pc = .idle) (hth : s'.thread = Function.update s.thread t th)
    (hslash : ∀ path, th.pc.buffer = some path → path.getLast? ≠ some '/') (haim : th.pc.aim = none)
    (hused : ∀ mp id, s'.alive mp id = true → 0 < s'.refs mp id ∨ 0 < s'.linksOf mp id) : AloneInv s' := by
  have hself : s'.thread t = th := by rw [hth, Function.update_self]
  have hother : ∀ u, u ≠ t → s'.thread u = s.thread u := fun u hu => by rw [hth, Function.update_of_ne hu]
  refine ⟨hkept, hbal, ⟨t, fun u hu => ?_⟩, fun u path _ hb => ?_, fun u path mp p id ha => ?_, hused⟩
  · rw [hother u hu]
    exact hrest u hu
  · by_cases hu : u = t
    · rw [hu, hself] at hb
      exact hslash path hb
    · rw [hother u hu, hrest u hu] at hb
      cases hb
  · by_cases hu : u = t
    · rw [hu, hself, haim] at ha
      cases ha
    · rw [hother u hu, hrest u hu] at ha
      cases ha

theorem aloneInv_step (h : AloneInv s) (hs : Guarded sysStep (fun s ev => alone s ev ∧ shortNames s ev) s ev s') :
    AloneInv s' := by
  obtain ⟨hs, halone, hok⟩ := hs
  have hbal : (∀ u, ¬ Missing s (s.thread u).pc) → ∀ u, Balanced (s'.thread u) [] := by
    intro hm u
    obtain ⟨lost, hb, hl⟩ := balanced_step hs u (h.balanced u)
    rcases hl with ⟨g', he, hm'⟩ | rfl
    · exact absurd hm' (hm u)
    · exact hb
  have hbal' := hbal h.finds
  have hrests : s.atRest → ∀ t u, u ≠ t → (s.thread u).pc = .idle := fun hr t u _ => hr u
  cases id hs with
  | start t op path ht hop =>
      obtain ⟨hr, cwd, p, hprep⟩ := halone
      have hkept := keptInv_step h.kept hs trivial trivial
      refine aloneInv_goto hkept hbal' (hrests hr t) rfl (fun path' hb => ?_) rfl h.used
      cases hb
      exact VFS.preparePath_last hprep
  | refuse t op res ht hop hres =>
      exact aloneInv_goto (keptInv_step h.kept hs trivial trivial) hbal' (hrests halone t) rfl
        (fun path' hb => by cases hb) rfl
        h.used
  | run t g => exact h.run hok
  | leave t op res ht =>
      obtain ⟨t', hothers⟩ := h.one
      obtain rfl : t = t' := by
        by_contra hne
        rw [hothers t hne] at ht
        cases ht
      exact aloneInv_goto (keptInv_step h.kept hs trivial trivial) hbal' hothers rfl
        (fun path' hb => by cases hb) rfl h.used
  | addRef i d hd =>
      exact ⟨keptInv_step h.kept hs trivial trivial, hbal', h.one, h.slash, h.there, h.used⟩
  | closeShared t i d ht hd hr =>
      exact ⟨keptInv_step h.kept hs trivial trivial, hbal', h.one, h.slash, h.there, h.used⟩
  | closeLast t i d ht hd hr =>
      exact aloneInv_goto (keptInv_step h.kept hs trivial trivial) hbal' (hrests halone t) rfl
        (fun path' hb => by cases hb) rfl
        h.used
  | write i pos buffer bufferSize d hd hw htype =>
      obtain ⟨file, hfile⟩ : ∃ file, (TempFS.writeNodeData (s.node d.mp d.id).file pos buffer bufferSize).2 = file :=
        ⟨_, rfl⟩
      have hkept := keptInv_step h.kept hs trivial trivial
      rw [hfile] at hkept hbal' ⊢
      refine ⟨hkept, hbal', h.one, h.slash, fun t path mp p id ha => ?_, fun mp id hal => ?_⟩
      · have hdir : ((s.setNode d.mp d.id { s.node d.mp d.id with file := file }).node mp p).cachedDir =
            (s.node mp p).cachedDir := setNode_dir_same rfl
        rw [hdir]
        exact h.there t path mp p id ha
      · have hrefs : (s.setNode d.mp d.id { s.node d.mp d.id with file := file }).refs mp id = s.refs mp id :=
          setNode_refs_same rfl
        have hlinks : (s.setNode d.mp d.id { s.node d.mp d.id with file := file }).linksOf mp id = s.linksOf mp id :=
          setNode_links_same rfl
        rw [hrefs, hlinks]
        exact h.used mp id hal
  | remount mounts => exact halone.elim

/-- **Between calls the counts are what they count.** -/
theorem AloneInv.lifetimes (h : AloneInv s) (hr : s.atRest) : Lifetimes s := by
  have hheld : ∀ t, (s.thread t).held = [] := by
    intro t
    have hb := h.balanced t
    rw [Balanced, hr t] at hb
    exact hb.eq_nil
  have hrefs : ∀ mp id, s.refs mp id = heldOpen s.descs mp id := by
    intro mp id
    obtain ⟨n, hn, hcount⟩ := h.kept.counted.refs mp id
    obtain rfl : n = 0 := hn.unique (tally_zero fun t => by rw [hheld t]; rfl)
    exact hcount.trans (Int.zero_add _)
  have hlinks : ∀ mp id, s.linksOf mp id = s.entriesOf mp id + s.rootEntry mp id := by
    intro mp id
    obtain ⟨n, hn, hcount⟩ := h.kept.counted.links mp id
    obtain rfl : n = 0 := hn.unique (tally_zero fun t => by rw [hr t]; rfl)
    exact hcount
  refine ⟨fun mp id hc => ?_, fun mp id hc => ?_, fun mp id => ⟨fun ha => ?_, fun hpos => ?_⟩,
    fun mp dir ha e he => h.kept.counted.entry_alive ha he⟩
  · rw [← hrefs, Sys.refs, if_pos hc]
  · rw [← hlinks, Sys.linksOf, if_pos (h.kept.counted.cached mp id hc)]
  · have h1 := h.used mp id ha
    rw [hrefs, hlinks] at h1
    omega
  · have h1 := hrefs mp id
    have h2 := hlinks mp id
    by_cases hzero : heldOpen s.descs mp id = 0
    · exact Sys.alive_of_links (by omega)
    · exact h.kept.counted.cached mp id (Counted.cached_of_refs (by omega))

end Steps

/-! ## 5. Results -/

/-- **The lifetime of nodes**, in every run of one call after the other in which all inserted names fit: between
    calls the counts are exact and a node is there exactly while it has a descriptor or an entry, and at all times
    the file of a descriptor stays what it was but for writes to it. -/
theorem node_lifetime {s : Sys} (h : Reach (Guarded sysStep fun s ev => alone s ev ∧ shortNames s ev) settledTree s) :
    (s.atRest → Lifetimes s) ∧ StaysOpen s := by
  have hI : AloneInv s := h.inv (fun _ h0 => aloneInv_init h0) fun _ _ _ hI hs => aloneInv_step hI hs
  exact ⟨hI.lifetimes, hI.kept.counted.staysOpen⟩

section Runs

theorem storedFile_tree : settledTree storedFile where
  tosettled := storedFile_settled
  used mp id ha := by
    have hid : id ≤ 1 := of_decide_eq_true ha
    refine Or.inr ?_
    show (0 : Int) < if decide (id ≤ 1) = true then (if id = 0 then _ else _ : Node).linkCount else 0
    rw [if_pos (decide_eq_true hid)]
    split_ifs <;> exact Int.one_pos

/-- The call ends. -/
def Sys.leaves (s : Sys) (t : Nat) : Sys := s.setThread t { s.thread t with pc := .idle }

/-- One call of thread 0, beside threads that are idle. -/
theorem leaves_rest {op : Op} {path : List Char} {g : Garbage} {n : Nat} :
    (((storedFile.begin 0 op path).runs 0 g n).leaves 0).atRest := by
  intro u
  by_cases hu : u = 0
  · rw [hu]
    exact congrArg Thread.pc (setThread_self _ 0 _)
  · rw [Sys.leaves, setThread_other _ _ hu, runs_other g hu, Sys.begin, setThread_other _ _ hu]
    rfl

/-- `Delete` of the only file. -/
theorem node_lifetime_delete : ∃ s, Reach (Guarded sysStep fun s ev => alone s ev ∧ shortNames s ev) settledTree s ∧
    (s.node 0 0).cachedDir = [] ∧ s.alive 0 1 = false ∧ Lifetimes s := by
  have h0 : Reach (Guarded sysStep fun s ev => alone s ev ∧ shortNames s ev) settledTree
      (storedFile.begin 0 .delete ['f']) :=
    (Reach.start _ storedFile_tree).guarded (.start storedFile 0 .delete ['f'] rfl rfl)
      ⟨⟨fun _ => rfl, [], some ['/', 'f'], by decide⟩, trivial⟩
  have h1 := runs_reach (g := noGarbage) (n := 13) h0 fun k hk =>
    ⟨.run _ 0 noGarbage, trivial, fun op mp p id name hpc => by
    interval_cases k <;> cases hpc⟩
  have h2 := h1.guarded (.leave _ 0 .delete OK rfl) ⟨trivial, trivial⟩
  exact ⟨_, h2, rfl, rfl, (node_lifetime h2).1 leaves_rest⟩

/-- **A name that does not fit**: `CreateFile` of 60 characters, where what `kstrcpy` writes behind the entry leaves
    the directory empty. -/
theorem long_name_lifetime : ¬ ∀ s, Reach (Guarded sysStep alone) settledTree s →
    (s.atRest → Lifetimes s) ∧ StaysOpen s := by
  intro hall
  have h0 : Reach (Guarded sysStep alone) settledTree (storedFile.begin 0 makeX (List.replicate 60 'x')) :=
    (Reach.start _ storedFile_tree).guarded (.start storedFile 0 makeX _ rfl rfl)
      ⟨fun _ => rfl, [], some ('/' :: List.replicate 60 'x'), by decide⟩
  have h1 := runs_reach (g := noGarbage) (n := 11) h0 fun k hk => ⟨.run _ 0 noGarbage, trivial⟩
  have h2 := h1.guarded (.leave _ 0 makeX OK rfl) trivial
  have hlinks := ((hall _ h2).1 leaves_rest).linkCount 0 2 rfl
  exact absurd hlinks (by decide)

end Runs

end Lookup

end SimpleOS2
