/-
  File:      SimpleOS2/Fs/Directory.lean
  Subject:   DIRECTORIES AS BYTES (fs/Directory.h, fs/Directory.cpp), and the name of a new entry.

  A `DirectoryEntry` has 50 bytes for its name, 6 that nobody uses, and 8 for the node id. Six calls add an
  entry; each stores the id and then copies the name with `kstrcpy`, however long it is.

  * `Dir`, `addEntry`, `addNamed` -- the bytes, `Directory::AddEntry`, and the lines behind it in the calls;
  * `pathWalkAt`, `findEntryAt` -- `PathWalk` and `FindEntry` on the bytes;
  * `Represents` -- the bytes of a list of entries; `findEntryAt_eq`, `addNamed_represents` -- the functions on
    lists do what those on bytes do;
  * `NameFits` -- the copy of the name stays in its field; `stored_names_fit` -- it does up to 49 characters;
  * `name_over_id` -- a name of 56 characters.
-/
import SimpleOS2.Fs.DeleteRaces
import SimpleOS2.Fs.Nodes
import SimpleOS2.Fs.PreparePath
import SimpleOS2.Klib.String

namespace SimpleOS2

open Lib

namespace Lookup

/-! ## 1. The functions -/

/-- `class Directory`; `mem` has the bytes of `entries`. -/
structure Dir where
  numEntries : Nat
  capacity : Nat
  mem : Nat → Nat

/-- `sizeof(DirectoryEntry)`, and the places of the two fields of an entry. -/
def entrySize : Nat := 64
def nameAt (i : Nat) : Nat := entrySize * i
def nodeIDAt (i : Nat) : Nat := entrySize * i + 56

/-- `newDir->entries[i] = dir->entries[i]`: both fields. -/
def copyEntry (src : Nat → Nat) (i : Nat) (dst : Nat → Nat) : Nat → Nat := fun x =>
  if nameAt i ≤ x ∧ x < nameAt i + 50 ∨ nodeIDAt i ≤ x ∧ x < nodeIDAt i + 8 then src x else dst x

/-- The loop of `AddEntry`. -/
def copyEntries (src : Nat → Nat) : (count : Nat) → (dst : Nat → Nat) → Nat → Nat
  | 0, dst => dst
  | n + 1, dst => copyEntry src n (copyEntries src n dst)

/-- `Directory::AddEntry`: the directory, and the index of the new entry. `garbage` is what new memory holds. -/
def addEntry (dir : Dir) (garbage : Nat → Nat) : Dir × Nat :=
  if dir.capacity > dir.numEntries then ({ dir with numEntries := dir.numEntries + 1 }, dir.numEntries)
  else (⟨dir.numEntries + 1, dir.capacity + 16, copyEntries dir.mem dir.numEntries garbage⟩, dir.numEntries)

/-- `newEntry->nodeID = id; kstrcpy(newEntry->name, name);` -/
def storeEntry (dir : Dir) (i id : Nat) (name : List Char) : Dir :=
  { dir with mem := kstrcpy name (writeU64 dir.mem (nodeIDAt i) id) (nameAt i) }

/-- The lines under the `dirLock` of the calls that add an entry. -/
def addNamed (dir : Dir) (id : Nat) (name : List Char) (garbage : Nat → Nat) : Dir :=
  storeEntry (addEntry dir garbage).1 (addEntry dir garbage).2 id name

/-- `PathWalk` along the name at an address. -/
def pathWalkAt (mem : Nat → Nat) : (addr : Nat) → (path : List Char) → Option (List Char)
  | addr, [] => if mem addr = 0 then some [] else none
  | addr, c :: path =>
      if mem addr = 0 then (if c = '/' then some path else none)
      else if c.toNat ≠ mem addr then none
      else pathWalkAt mem (addr + 1) path

/-- The loop over the entries from the `i`th on. -/
def findFrom (mem : Nat → Nat) (path : List Char) : (count i : Nat) → Option (Nat × List Char)
  | 0, _ => none
  | count + 1, i =>
      match pathWalkAt mem (nameAt i) path with
      | some rest => some (readU64 mem (nodeIDAt i), rest)
      | none => findFrom mem path count (i + 1)

def findEntryAt (dir : Dir) (path : List Char) : Option (Nat × List Char) := findFrom dir.mem path dir.numEntries 0

/-! ## 2. Lists of entries and their bytes -/

/-- An entry stands at index `i`. -/
structure Stored (mem : Nat → Nat) (i : Nat) (e : DirectoryEntry) : Prop where
  name : Str mem (nameAt i) e.name
  fits : e.name.length ≤ 49
  plain : '\x00' ∉ e.name
  nodeID : readU64 mem (nodeIDAt i) = e.nodeID

structure Represents (dir : Dir) (es : List DirectoryEntry) : Prop where
  numEntries : dir.numEntries = es.length
  capacity : dir.numEntries ≤ dir.capacity
  stored : ∀ i e, es[i]? = some e → Stored dir.mem i e

section Bytes

variable {mem mem' : Nat → Nat} {i j n addr x : Nat} {e : DirectoryEntry} {es : List DirectoryEntry}
  {dir : Dir} {path name : List Char} {garbage : Nat → Nat} {id : Nat}

/-- An entry is read in its two fields only. -/
theorem Stored.congr (h : Stored mem i e) (h1 : ∀ x, nameAt i ≤ x → x < nameAt i + 50 → mem' x = mem x)
    (h2 : ∀ x, nodeIDAt i ≤ x → x < nodeIDAt i + 8 → mem' x = mem x) : Stored mem' i e := by
  have hfits := h.fits
  exact ⟨h.name.congr fun x hx hx' => h1 x hx (by omega), hfits, h.plain, (readU64_congr h2).trans h.nodeID⟩

theorem copyEntry_in {src dst : Nat → Nat}
    (h : nameAt i ≤ x ∧ x < nameAt i + 50 ∨ nodeIDAt i ≤ x ∧ x < nodeIDAt i + 8) : copyEntry src i dst x = src x :=
  if_pos h

/-- The loop copies every entry. -/
theorem copyEntries_in {src dst : Nat → Nat} (hi : i < n)
    (h : nameAt i ≤ x ∧ x < nameAt i + 50 ∨ nodeIDAt i ≤ x ∧ x < nodeIDAt i + 8) :
    copyEntries src n dst x = src x := by
  induction n with
  | zero => omega
  | succ n ih =>
      by_cases hn : i = n
      · subst hn
        exact copyEntry_in h
      · show (if _ then src x else copyEntries src n dst x) = src x
        rw [ih (by omega)]
        exact ite_self _

theorem addEntry_num (dir : Dir) (garbage : Nat → Nat) :
    (addEntry dir garbage).1.numEntries = dir.numEntries + 1 ∧ (addEntry dir garbage).2 = dir.numEntries := by
  unfold addEntry
  split_ifs <;> exact ⟨rfl, rfl⟩

theorem addEntry_capacity (dir : Dir) (garbage : Nat → Nat) (h : dir.numEntries ≤ dir.capacity) :
    (addEntry dir garbage).1.numEntries ≤ (addEntry dir garbage).1.capacity := by
  unfold addEntry
  split_ifs with hc
  · exact hc
  · show dir.numEntries + 1 ≤ dir.capacity + 16
    omega

/-- `AddEntry` keeps the entries. -/
theorem addEntry_stored (hi : i < dir.numEntries) (h : Stored dir.mem i e) :
    Stored (addEntry dir garbage).1.mem i e := by
  unfold addEntry
  split_ifs
  · exact h
  · exact h.congr (fun x h1 h2 => copyEntries_in hi (Or.inl ⟨h1, h2⟩))
      fun x h1 h2 => copyEntries_in hi (Or.inr ⟨h1, h2⟩)

/-- What the store of an entry changes: its id, and the bytes of the name from the start of the entry on. -/
theorem storeEntry_frame (h1 : x < nameAt i ∨ nameAt i + name.length < x)
    (h2 : x < nodeIDAt i ∨ nodeIDAt i + 8 ≤ x) : (storeEntry dir i id name).mem x = dir.mem x :=
  (kstrcpy_frame h1).trans (if_neg (by omega))

theorem storeEntry_nodeID (hlen : name.length ≤ 49) (hid : id < 2 ^ 64) :
    readU64 (storeEntry dir i id name).mem (nodeIDAt i) = id := by
  refine (readU64_congr fun x hx _ => ?_).trans (readU64_write dir.mem (nodeIDAt i) hid)
  refine kstrcpy_frame (Or.inr ?_)
  unfold nodeIDAt at hx
  unfold nameAt
  omega

/-- The new entry. -/
theorem storeEntry_stored (hlen : name.length ≤ 49) (hplain : '\x00' ∉ name) (hid : id < 2 ^ 64) :
    Stored (storeEntry dir i id name).mem i ⟨name, id⟩ :=
  ⟨kstrcpy_str _ _ _, hlen, hplain, storeEntry_nodeID hlen hid⟩

/-- The other ones, where the name fits. -/
theorem storeEntry_other (hlen : name.length ≤ 49) (hj : j ≠ i) (h : Stored dir.mem j e) :
    Stored (storeEntry dir i id name).mem j e := by
  have hlt := Nat.lt_or_gt_of_ne hj
  refine h.congr (fun x h1 h2 => storeEntry_frame ?_ ?_) fun x h1 h2 => storeEntry_frame ?_ ?_
  all_goals
    simp only [nodeIDAt, nameAt, entrySize] at h1 h2 ⊢
    omega

/-- **Adding an entry**, on the bytes and on the list. -/
theorem addNamed_represents (hd : Represents dir es) (hlen : name.length ≤ 49) (hplain : '\x00' ∉ name)
    (hid : id < 2 ^ 64) : Represents (addNamed dir id name garbage) (es ++ [⟨name, id⟩]) := by
  obtain ⟨hnum, hidx⟩ := addEntry_num dir garbage
  refine ⟨?_, addEntry_capacity dir garbage hd.capacity, fun i e he => ?_⟩
  · show (addEntry dir garbage).1.numEntries = _
    rw [hnum, hd.numEntries, List.length_append]
    rfl
  · show Stored (storeEntry _ (addEntry dir garbage).2 id name).mem i e
    rw [hidx]
    by_cases hi : i < es.length
    · rw [List.getElem?_append_left hi] at he
      rw [← hd.numEntries] at hi
      exact storeEntry_other hlen (Nat.ne_of_lt hi) (addEntry_stored hi (hd.stored i e he))
    · rw [List.getElem?_append_right (Nat.not_lt.mp hi)] at he
      obtain ⟨h0, rfl⟩ : i - es.length = 0 ∧ ⟨name, id⟩ = e := by
        rcases h : i - es.length with _ | k
        · rw [h] at he
          exact ⟨rfl, Option.some.inj he⟩
        · rw [h] at he
          cases he
      obtain rfl : i = dir.numEntries := by
        rw [hd.numEntries]
        omega
      exact storeEntry_stored hlen hplain hid

/-- `PathWalk` on the bytes of a name. -/
theorem pathWalkAt_eq (hname : Str mem addr name) (hplain : '\x00' ∉ name) (path : List Char) :
    pathWalkAt mem addr path = pathWalk path name := by
  induction name generalizing addr path with
  | nil =>
      have h0 : mem addr = 0 := hname
      cases path with
      | nil => exact if_pos h0
      | cons c path => exact if_pos h0
  | cons e name ih =>
      obtain ⟨hc, hrest⟩ := hname
      have hne : mem addr ≠ 0 := by
        rw [hc]
        intro h0
        exact hplain (List.mem_cons.mpr (Or.inl (Char.toNat_inj.mp (by rw [h0]; rfl))))
      cases path with
      | nil => exact if_neg hne
      | cons c path =>
          rw [pathWalkAt, if_neg hne, pathWalk, hc, ih hrest (fun h => hplain (List.mem_cons_of_mem _ h)) path]
          by_cases hec : e = c
          · subst hec
            rw [if_neg (not_not.mpr rfl), if_neg (not_not.mpr rfl)]
          · rw [if_pos (fun h => hec (Char.toNat_inj.mp h).symm), if_pos hec]

theorem findFrom_eq (hs : ∀ k e, es[k]? = some e → Stored mem (i + k) e) :
    findFrom mem path es.length i = findEntry path es := by
  induction es generalizing i with
  | nil => rfl
  | cons e es ih =>
      have h0 : Stored mem i e := hs 0 e rfl
      have htail : ∀ k e', es[k]? = some e' → Stored mem (i + 1 + k) e' := by
        intro k e' hk
        have h1 := hs (k + 1) e' hk
        rwa [Nat.add_comm k 1, ← Nat.add_assoc] at h1
      show findFrom mem path (es.length + 1) i = _
      rw [findFrom, findEntry, pathWalkAt_eq h0.name h0.plain, ih htail]
      cases pathWalk path e.name with
      | none => rfl
      | some rest =>
          show some (readU64 mem (nodeIDAt i), rest) = _
          rw [h0.nodeID]

/-- **Looking an entry up**, on the bytes and on the list. -/
theorem findEntryAt_eq (hd : Represents dir es) (path : List Char) : findEntryAt dir path = findEntry path es := by
  unfold findEntryAt
  rw [hd.numEntries]
  refine findFrom_eq fun k e hk => ?_
  rw [Nat.zero_add]
  exact hd.stored k e hk

end Bytes

/-! ## 3. The name of a new entry -/

/-- The name of the new entry stays in its field: the id and the bytes around the entry are as before the
    copy, and a name that was free finds the new node. -/
structure NameFits (dir : Dir) (id : Nat) (name : List Char) (garbage : Nat → Nat) : Prop where
  size : name.length + 1 ≤ 50
  nodeID : readU64 (addNamed dir id name garbage).mem (nodeIDAt dir.numEntries) = id
  around : ∀ x, x < nameAt dir.numEntries ∨ nameAt dir.numEntries + entrySize ≤ x →
    (addNamed dir id name garbage).mem x = (addEntry dir garbage).1.mem x
  found : findEntryAt dir name = none → findEntryAt (addNamed dir id name garbage) name = some (id, [])

section Names

variable {s : Sys} {t mp p id : Nat} {g : Garbage} {op : Op} {name : List Char} {dir : Dir} {es : List DirectoryEntry}

theorem findEntry_append {e : DirectoryEntry} (h : findEntry name es = none) (hn : e.name = name) :
    findEntry name (es ++ [e]) = some (e.nodeID, []) := by
  induction es with
  | nil =>
      show (match pathWalk name e.name with | some rest => some (e.nodeID, rest) | none => none) = _
      rw [hn, pathWalk_self]
  | cons e' es ih =>
      rw [findEntry] at h
      split at h
      · cases h
      · rename_i hw
        rw [List.cons_append, findEntry, hw]
        exact ih h

theorem nameFits_of_length (hd : Represents dir es) (hlen : name.length ≤ 49) (hplain : '\x00' ∉ name)
    (hid : id < 2 ^ 64) (garbage : Nat → Nat) : NameFits dir id name garbage := by
  have hidx := (addEntry_num dir garbage).2
  refine ⟨Nat.succ_le_succ hlen, ?_, fun x hx => ?_, fun hfree => ?_⟩
  · have h : readU64 (addNamed dir id name garbage).mem (nodeIDAt (addEntry dir garbage).2) = id :=
      storeEntry_nodeID hlen hid
    rwa [hidx] at h
  · have hx' : x < nameAt (addEntry dir garbage).2 ∨ nameAt (addEntry dir garbage).2 + entrySize ≤ x := hidx ▸ hx
    refine storeEntry_frame ?_ ?_
    all_goals
      simp only [nodeIDAt, nameAt, entrySize] at hx' ⊢
      omega
  · rw [findEntryAt_eq hd] at hfree
    rw [findEntryAt_eq (addNamed_represents hd hlen hplain hid)]
    exact findEntry_append hfree rfl

/-- The directory after an insertion, where the name fits. -/
theorem next_inserted (hpc : (s.thread t).pc = .insert op mp p id name) (hlock : s.dirLock mp p = false)
    (hlen : name.length ≤ 49) :
    ((s.next t g).node mp p).cachedDir = (s.node mp p).cachedDir ++ [⟨name, id⟩] := by
  have hplan : (s.plan t g).1 = .addEntry mp p name ((s.node mp p).cachedDir ++ [⟨name, id⟩]) := by
    rw [Sys.plan, hpc]
    show (s.locked mp p (.insert op mp p id name) (.addEntry mp p name _, _)).1 = _
    rw [Sys.locked, hlock, Sys.insertEntry, if_pos hlen]
    rfl
  show ((s.perform g (s.plan t g).1).node mp p).cachedDir = _
  rw [hplan]
  exact (setNode_dir s mp p mp p _).trans (if_pos ⟨rfl, rfl⟩)

/-- **Stored names fit** where they have at most 49 characters: a call is about to add its entry to a folder,
    whose entries stand in `dir`. Then the bytes go on as the list of entries does. -/
theorem stored_names_fit (hpc : (s.thread t).pc = .insert op mp p id name) (hlock : s.dirLock mp p = false)
    (hd : Represents dir (s.node mp p).cachedDir) (hplain : '\x00' ∉ name) (hid : id < 2 ^ 64)
    (garbage : Nat → Nat) :
    (NameFits dir id name garbage ↔ name.length ≤ 49) ∧
      (name.length ≤ 49 → Represents (addNamed dir id name garbage) ((s.next t g).node mp p).cachedDir) := by
  refine ⟨⟨fun h => Nat.le_of_succ_le_succ h.size, fun h => nameFits_of_length hd h hplain hid garbage⟩, fun h => ?_⟩
  rw [next_inserted hpc hlock h]
  exact addNamed_represents hd h hplain hid

end Names

section Runs

/-- The calls begin with paths that `PreparePath` has accepted. -/
def prepared (_ : Sys) : Event → Prop
  | .start _ _ path => ∃ cwd userPath, VFS.preparePath cwd userPath = .ok path
  | _ => True

/-- The folder of `oneFile`, in memory with room for ten entries. -/
def oneFileDir : Dir := ⟨1, 10, fun x => if x = 0 then 102 else if x = 56 then 1 else 0⟩

theorem oneFileDir_represents : Represents oneFileDir [⟨['f'], 1⟩] where
  numEntries := rfl
  capacity := by decide
  stored i e he := by
    rcases i with _ | i
    · cases he
      exact ⟨⟨rfl, rfl⟩, by decide, by decide, by decide⟩
    · cases he

/-- `CreateFile`. -/
def createFile : Op := .create .file ⟨3, 3, 3, 0⟩ []

/-- The thread is about to insert the name. -/
def atInsert (name : List Char) : Sys := (oneFile.begin 0 createFile name).runs 0 noGarbage 6

theorem atInsert_reach {name : List Char} (h : ∃ cwd userPath, VFS.preparePath cwd userPath = .ok name) :
    Reach (Guarded sysStep prepared) quiet (atInsert name) :=
  runs_reach ((Reach.start _ oneFile_quiet).guarded (.start oneFile 0 createFile name rfl rfl) h)
    fun _ _ => ⟨.run _ _ _, trivial⟩

/-- The file `x`. -/
theorem stored_names_fit_x : NameFits oneFileDir 2 ['x'] (fun _ => 0) :=
  (stored_names_fit (s := atInsert ['x']) (t := 0) (g := noGarbage) rfl rfl oneFileDir_represents (by decide)
    (by decide) _).1.mpr (by decide)

def longName : List Char := List.replicate 56 'a'

/-- **The name is written over the id**: the new file is node 2, and its name finds node 0. -/
theorem name_over_id : ∃ s, Reach (Guarded sysStep prepared) quiet s ∧
    (s.thread 0).pc = .insert createFile 0 0 2 longName ∧ Represents oneFileDir (s.node 0 0).cachedDir ∧
    findEntryAt (addNamed oneFileDir 2 longName fun _ => 0) longName = some (0, []) ∧
    ¬ NameFits oneFileDir 2 longName fun _ => 0 :=
  ⟨atInsert longName, atInsert_reach ⟨[], some ('/' :: longName), by decide⟩, rfl, oneFileDir_represents, by decide,
    fun h => absurd h.size (by decide)⟩

end Runs

end Lookup

end SimpleOS2
