/-
  File:      SimpleOS2/Devices/DevFS.lean
  Subject:   THE DIRECTORY OF DEVICES (devices/DevFS.cpp).

  A registration goes into a pending directory; the next read of the root puts the pending directory in
  the place of the current one. Each function is one section under `g_Lock`.

  * `Directory` -- a directory with its capacity (fs/Directory.cpp);
  * `registerDevice`, `updateDir`, `readNode` -- the functions; `devStep` -- the system;
  * `Lists` -- what a read should show; `beforeShown` -- the condition: devices are registered before any
    is shown;
  * `PendingInv`, `lists_devices` -- under the condition every read shows all devices;
  * `read_forgets` -- a device registered after a read takes the place of the others.
-/
import Mathlib.Data.List.Induction
import SimpleOS2.Fs.AcquirePath
import SimpleOS2.Lib.Run

namespace SimpleOS2

open Lib

namespace DevFS

open Lookup (DirectoryEntry NodeType Permissions)

/-! ## 1. Directories -/

/-- `class Directory`. -/
structure Directory where
  capacity : Nat
  entries : List DirectoryEntry
  deriving DecidableEq

namespace Directory

/-- `Directory::Create`. -/
def create (capacity : Nat) : Directory := ⟨capacity, []⟩

/-- `Directory::AddEntry`, with what the caller stores in the new entry. -/
def addEntry (dir : Directory) (e : DirectoryEntry) : Directory :=
  if dir.entries.length < dir.capacity then { dir with entries := dir.entries ++ [e] }
  else { capacity := dir.capacity + 16, entries := dir.entries ++ [e] }

theorem addEntry_entries (dir : Directory) (e : DirectoryEntry) : (dir.addEntry e).entries = dir.entries ++ [e] := by
  unfold addEntry
  split_ifs <;> rfl

end Directory

/-! ## 2. The file system -/

/-- `struct DevReg`. -/
structure DevReg where
  name : List Char
  blockDev : Bool
  driverID : Nat
  devID : Nat
  index : Nat
  deriving DecidableEq

/-- `g_Devices`, `g_CurrentDir`, `g_NewDir`. -/
structure State where
  devices : List DevReg
  currentDir : Directory
  newDir : Option Directory

/-- `GetSuperBlock`. -/
def rootID : Nat := 0xFFFF

/-- `RegisterCharDevice`, `RegisterBlockDevice`. A name of more than 49 characters does not fit into
    `DirectoryEntry::name`; what the pending directory holds then is left open. -/
def registerDevice (blockDev : Bool) (s : State) (name : List Char) (driverID devID : Nat)
    (garbage : Directory) : State where
  devices := s.devices ++ [⟨name, blockDev, driverID, devID, s.devices.length⟩]
  currentDir := s.currentDir
  newDir := some (if name.length ≤ 49 then
      (s.newDir.getD (Directory.create 10)).addEntry ⟨name, s.devices.length + 1⟩
    else garbage)

def registerCharDevice := registerDevice false
def registerBlockDevice := registerDevice true

/-- `UpdateDir`: the directory that the node gets. -/
def updateDir (s : State) : State × Directory :=
  let current := s.newDir.getD s.currentDir
  ({ s with currentDir := current, newDir := none }, current)

/-- What `ReadNode` stores in a node. -/
structure NodeInfo where
  type : NodeType
  cachedDir : Option Directory
  driverID : Option Nat
  subID : Option Nat
  ownerUID : Nat
  ownerGID : Nat
  permissions : Permissions
  id : Nat
  linkCount : Nat
  deriving DecidableEq

/-- The second half of `ReadNode`: the node of a device. -/
def deviceNode (id : Nat) (dr : DevReg) : NodeInfo where
  type := if dr.blockDev then .deviceBlock else .deviceChar
  cachedDir := none
  driverID := some dr.driverID
  subID := some dr.devID
  ownerUID := 0
  ownerGID := 0
  permissions := ⟨1, 1, 1, 0⟩
  id := id
  linkCount := 1

/-- `ReadNode`; `none` where `g_Devices[id - 1]` is out of bounds. -/
def readNode (s : State) (id : Nat) : State × Option NodeInfo :=
  if id = rootID then
    ((updateDir s).1, some ⟨.directory, some (updateDir s).2, none, none, 0, 0, ⟨5, 5, 5, 0⟩, rootID, 1⟩)
  else if id = 0 then (s, none)
  else (s, s.devices[id - 1]?.map (deviceNode id))

inductive Event where
  | registerCharDevice (name : List Char) (driverID devID : Nat) (garbage : Directory)
  | registerBlockDevice (name : List Char) (driverID devID : Nat) (garbage : Directory)
  | updateDir
  | readNode (id : Nat)

inductive devStep : State → Event → State → Prop where
  | registerCharDevice (s : State) (name : List Char) (driverID devID : Nat) (garbage : Directory) :
      devStep s (.registerCharDevice name driverID devID garbage)
        (registerCharDevice s name driverID devID garbage)
  | registerBlockDevice (s : State) (name : List Char) (driverID devID : Nat) (garbage : Directory) :
      devStep s (.registerBlockDevice name driverID devID garbage)
        (registerBlockDevice s name driverID devID garbage)
  | updateDir (s : State) : devStep s .updateDir (updateDir s).1
  | readNode (s : State) (id : Nat) : devStep s (.readNode id) (readNode s id).1

/-- After the constructor. -/
def devInit (s : State) : Prop := s = ⟨[], Directory.create 10, none⟩

/-! ## 3. The property and the condition -/

/-- The next read of the root shows every device once, under an id that leads to it. -/
def Lists (s : State) : Prop :=
  ∀ i dr, s.devices[i]? = some dr →
    (updateDir s).2.entries.filter (fun e => e.nodeID = i + 1) = [⟨dr.name, i + 1⟩] ∧
      (readNode s (i + 1)).2 = some (deviceNode (i + 1) dr)

/-- A device can be registered: none has been shown yet, the name fits, and its id is not the root's. -/
def Registrable (s : State) (name : List Char) : Prop :=
  s.currentDir.entries = [] ∧ name.length ≤ 49 ∧ s.devices.length + 1 ≠ rootID

/-- **The condition.** -/
def beforeShown (s : State) : Event → Prop
  | .registerCharDevice name _ _ _ => Registrable s name
  | .registerBlockDevice name _ _ _ => Registrable s name
  | _ => True

/-! ## 4. The invariant -/

/-- The entries of all devices. -/
def listing (devices : List DevReg) : List DirectoryEntry :=
  devices.mapIdx fun i dr => ⟨dr.name, i + 1⟩

/-- Between the steps all devices stand in one directory: in the pending one, with nothing in the
    current one, or in the current one. -/
structure PendingInv (s : State) : Prop where
  current : s.newDir = none → s.currentDir.entries = listing s.devices
  pending : ∀ dir, s.newDir = some dir → s.currentDir.entries = [] ∧ dir.entries = listing s.devices
  ids : s.devices.length < rootID

section Run

variable {s s' : State}

theorem pendingInv_init (h : devInit s) : PendingInv s := by
  rw [devInit] at h
  subst h
  exact ⟨fun _ => rfl, (fun dir hd => by cases hd), by decide⟩

theorem listing_append (devices : List DevReg) (dr : DevReg) :
    listing (devices ++ [dr]) = listing devices ++ [⟨dr.name, devices.length + 1⟩] := by
  simp [listing, List.mapIdx_append]

theorem pendingInv_register (hI : PendingInv s) {name : List Char} (hr : Registrable s name) (blockDev : Bool)
    (driverID devID : Nat) (garbage : Directory) :
    PendingInv (registerDevice blockDev s name driverID devID garbage) := by
  obtain ⟨hcur, hlen, hid⟩ := hr
  have hpend : (s.newDir.getD (Directory.create 10)).entries = listing s.devices := by
    cases hn : s.newDir with
    | none =>
        have h1 := hI.current hn
        rw [hcur] at h1
        rw [← h1]
        rfl
    | some dir => exact (hI.pending dir hn).2
  refine ⟨(fun h => by cases h), fun dir hd => ⟨hcur, ?_⟩, ?_⟩
  · unfold registerDevice at hd ⊢
    rw [← Option.some.inj hd, if_pos hlen, Directory.addEntry_entries, hpend, listing_append]
  · have := hI.ids
    simp only [registerDevice, List.length_append, List.length_singleton]
    omega

theorem pendingInv_updateDir (hI : PendingInv s) : PendingInv (updateDir s).1 := by
  refine ⟨fun _ => ?_, (fun dir hd => by cases hd), hI.ids⟩
  show (s.newDir.getD s.currentDir).entries = listing s.devices
  cases hn : s.newDir with
  | none => exact hI.current hn
  | some dir => exact (hI.pending dir hn).2

theorem pendingInv_step {ev : Event} (hI : PendingInv s) (hs : Guarded devStep beforeShown s ev s') :
    PendingInv s' := by
  obtain ⟨hs, hok⟩ := hs
  cases hs with
  | registerCharDevice name driverID devID garbage =>
      exact pendingInv_register hI hok false driverID devID garbage
  | registerBlockDevice name driverID devID garbage =>
      exact pendingInv_register hI hok true driverID devID garbage
  | updateDir => exact pendingInv_updateDir hI
  | readNode id =>
      unfold readNode
      split_ifs
      · exact pendingInv_updateDir hI
      · exact hI
      · exact hI

/-- The entry of a device stands in the listing once. -/
theorem listing_filter {devices : List DevReg} {i : Nat} {dr : DevReg} (h : devices[i]? = some dr) :
    (listing devices).filter (fun e => e.nodeID = i + 1) = [⟨dr.name, i + 1⟩] := by
  induction devices using List.reverseRecOn generalizing i with
  | nil => cases h
  | append_singleton devices d ih =>
      rw [listing_append, List.filter_append]
      by_cases hi : i < devices.length
      · rw [List.getElem?_append_left hi] at h
        rw [ih h]
        have hne : devices.length ≠ i := Nat.ne_of_gt hi
        simp [hne]
      · have hlt := (List.getElem?_eq_some_iff.mp h).1
        rw [List.length_append, List.length_singleton] at hlt
        have hi' : i = devices.length := by omega
        subst hi'
        rw [List.getElem?_append_right (Nat.le_refl _), Nat.sub_self] at h
        have hd : d = dr := Option.some.inj h
        have hnil : (listing devices).filter (fun e => e.nodeID = devices.length + 1) = [] := by
          rw [List.filter_eq_nil_iff]
          intro e he
          obtain ⟨k, hk, rfl⟩ := List.mem_mapIdx.mp he
          simp only [decide_eq_true_eq]
          omega
        rw [hnil, hd]
        simp

end Run

/-! ## 5. Results -/

/-- **A read shows every device**, in every run in which devices are registered before any is shown. -/
theorem lists_devices {s : State} (h : Reach (Guarded devStep beforeShown) devInit s) : Lists s := by
  have hI : PendingInv s := h.inv (fun _ h0 => pendingInv_init h0) fun _ _ _ hI hs => pendingInv_step hI hs
  intro i dr hdr
  have hlt : i < s.devices.length := (List.getElem?_eq_some_iff.mp hdr).1
  constructor
  · have hdir : (updateDir s).2.entries = listing s.devices := (pendingInv_updateDir hI).current rfl
    rw [hdir]
    exact listing_filter hdr
  · have hid : i + 1 ≠ rootID := by
      have := hI.ids
      omega
    unfold readNode
    rw [if_neg hid, if_neg (Nat.succ_ne_zero i), Nat.add_sub_cancel, hdr]
    rfl

section Late

def boot : State := ⟨[], Directory.create 10, none⟩

/-- The terminal, then the ram disk. -/
def registered : State :=
  registerBlockDevice (registerCharDevice boot ['t', 't', 'y'] 0 0 boot.currentDir) ['r', 'a', 'm', '0'] 1 0
    boot.currentDir

theorem registered_reach : Reach (Guarded devStep beforeShown) devInit registered := by
  have h1 : Reach (Guarded devStep beforeShown) devInit
      (registerCharDevice boot ['t', 't', 'y'] 0 0 boot.currentDir) :=
    .next boot (Event.registerCharDevice ['t', 't', 'y'] 0 0 boot.currentDir) _ (.start _ rfl)
      ⟨.registerCharDevice _ _ _ _ _, rfl, by decide, by decide⟩
  exact .next _ (Event.registerBlockDevice ['r', 'a', 'm', '0'] 1 0 boot.currentDir) _ h1
    ⟨.registerBlockDevice _ _ _ _ _, rfl, by decide, by decide⟩

/-- Both are shown. -/
theorem lists_devices_registered :
    (updateDir registered).2.entries = [⟨['t', 't', 'y'], 1⟩, ⟨['r', 'a', 'm', '0'], 2⟩] ∧ Lists registered :=
  ⟨rfl, lists_devices registered_reach⟩

/-- The terminal, a read, then the ram disk. -/
def late : State :=
  registerBlockDevice (updateDir (registerCharDevice boot ['t', 't', 'y'] 0 0 boot.currentDir)).1
    ['r', 'a', 'm', '0'] 1 0 boot.currentDir

theorem late_reach : Reach devStep devInit late :=
  .next _ (Event.registerBlockDevice ['r', 'a', 'm', '0'] 1 0 boot.currentDir) _
    (.next _ Event.updateDir _
      (.next boot (Event.registerCharDevice ['t', 't', 'y'] 0 0 boot.currentDir) _ (.start _ rfl)
        (.registerCharDevice _ _ _ _ _)) (.updateDir _))
    (.registerBlockDevice _ _ _ _ _)

/-- **The next read shows the ram disk alone.** -/
theorem read_forgets : ¬ ∀ s, Reach devStep devInit s → Lists s := by
  intro h
  obtain ⟨h1, -⟩ := h late late_reach 0 ⟨['t', 't', 'y'], false, 0, 0, 0⟩ rfl
  have h2 : (updateDir late).2.entries.filter (fun e => e.nodeID = 0 + 1) = [] := by decide
  rw [h2] at h1
  cases h1

end Late

end DevFS

end SimpleOS2
