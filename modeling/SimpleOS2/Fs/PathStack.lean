/-
  File:      SimpleOS2/Fs/PathStack.lean
  Subject:   WHAT A PATH NAMES (PreparePath of fs/VFS.cpp).

  The meaning of a path is a stack of names: nothing and `.` leave it as it is, `..` takes its last name away,
  every other component is put on it.

  * `walk`, `resolve`, `resolved` -- the stack, the components of a path and of the working directory, the string;
  * `names_collapse` -- the loop over the slashes drops the empty components and no other;
  * `normalizeLoop_walk` -- the loops of `NormalizePath` are the stack;
  * `preparePath_resolved` -- so `PreparePath` answers the string of the stack;
  * `prepared_resolved` -- that is what it leaves in the buffer, and what it makes of it once more.
-/
import SimpleOS2.Fs.PathBuffer

namespace SimpleOS2

namespace VFS

/-! ## 1. The stack -/

/-- One component of a path. -/
def walk (stack : List (List Char)) (dir : List Char) : List (List Char) :=
  if dir = [] ∨ dir = ['.'] then stack
  else if dir = ['.', '.'] then stack.dropLast
  else stack ++ [dir]

/-- The stack behind all components. -/
def resolve (dirs : List (List Char)) : List (List Char) := dirs.foldl walk []

/-- The components of a path, behind those of the working directory if it is relative. -/
def components (cwd path : List Char) : List (List Char) :=
  if isPathRelative path then cwd.splitOn '/' ++ path.splitOn '/' else path.splitOn '/'

/-- The string of the stack. -/
def resolved (cwd path : List Char) : List Char := ['/'].intercalate (resolve (components cwd path))

/-- The components that are not empty. -/
def names (path : List Char) : List (List Char) := (path.splitOn '/').filter (· ≠ [])

section Stack

variable {a b path dir : List Char} {dirs : List (List Char)}

theorem walk_nil (stack : List (List Char)) : walk stack [] = stack := if_pos (Or.inl rfl)

theorem walk_proper (stack : List (List Char)) (h : Proper dir) : walk stack dir = stack ++ [dir] := by
  unfold walk
  rw [if_neg (not_or.mpr ⟨h.1, h.2.1⟩), if_neg h.2.2]

/-- Empty components make no difference. -/
theorem walk_filter (stack dirs : List (List Char)) :
    (dirs.filter (· ≠ [])).foldl walk stack = dirs.foldl walk stack := by
  induction dirs generalizing stack with
  | nil => rfl
  | cons dir dirs ih =>
      rw [List.foldl_cons]
      by_cases h : dir = []
      · rw [List.filter_cons_of_neg (by simpa using h), ih, h, walk_nil]
      · rw [List.filter_cons_of_pos (by simpa using h), List.foldl_cons, ih]

theorem resolve_names (path : List Char) : resolve (names path) = resolve (path.splitOn '/') := walk_filter [] _

/-- Names that are put on the stack stay there. -/
theorem walk_all (stack : List (List Char)) (h : ∀ dir ∈ dirs, Proper dir) : dirs.foldl walk stack = stack ++ dirs := by
  induction dirs generalizing stack with
  | nil => exact (List.append_nil stack).symm
  | cons dir dirs ih =>
      rw [List.foldl_cons, walk_proper _ (h dir List.mem_cons_self), ih _ fun d hd => h d (List.mem_cons_of_mem _ hd),
        List.append_assoc]
      rfl

/-- The loop of `NormalizePath` is the stack, with its last name first. -/
theorem normalizeLoop_walk (before : List (List Char)) (h : ∀ dir ∈ dirs, dir ≠ []) :
    normalizeLoop before dirs = dirs.foldl walk before.reverse := by
  induction dirs generalizing before with
  | nil => rfl
  | cons dir dirs ih =>
      have h0 := h dir List.mem_cons_self
      have hrest : ∀ d ∈ dirs, d ≠ [] := fun d hd => h d (List.mem_cons_of_mem _ hd)
      rw [normalizeLoop_cons, List.foldl_cons, walk]
      by_cases h1 : dir = ['.']
      · rw [if_pos h1, if_pos (Or.inr h1), ih before hrest]
      · rw [if_neg h1, if_neg (not_or.mpr ⟨h0, h1⟩)]
        by_cases h2 : dir = ['.', '.']
        · rw [if_pos h2, if_pos h2, ih before.tail hrest, List.dropLast_reverse]
        · rw [if_neg h2, if_neg h2, ih (dir :: before) hrest, List.reverse_cons]

end Stack

/-! ## 2. The loop over the slashes -/

section Names

variable {a b path written : List Char} {dirs : List (List Char)}

theorem names_nil : names [] = [] := rfl

theorem names_slash (a b : List Char) : names (a ++ '/' :: b) = names a ++ names b := by
  unfold names
  rw [List.splitOn_append_cons_self, List.filter_append]

/-- A second slash adds nothing. -/
theorem names_slashes (a b : List Char) : names (a ++ '/' :: '/' :: b) = names (a ++ '/' :: b) := by
  have h : names ('/' :: b) = names b := names_slash [] b
  rw [names_slash, names_slash, h]

theorem names_intercalate (h : ∀ dir ∈ dirs, dir ≠ [] ∧ '/' ∉ dir) : names (['/'].intercalate dirs) = dirs := by
  by_cases h0 : dirs = []
  · subst h0
    rfl
  · unfold names
    rw [List.splitOn_intercalate '/' (fun dir hd => (h dir hd).2) h0]
    exact List.filter_eq_self.mpr fun dir hd => decide_eq_true (h dir hd).1

theorem names_collapseLoop (path : List Char) {lastWasSlash : Bool}
    (hl : lastWasSlash = true → ∃ w, written = w ++ ['/']) :
    names (collapseLoop path written lastWasSlash).1 = names (written ++ path) ∧
      ((collapseLoop path written lastWasSlash).2 = true →
      ∃ w, (collapseLoop path written lastWasSlash).1 = w ++ ['/']) := by
  induction path generalizing written lastWasSlash with
  | nil => exact ⟨by rw [List.append_nil]; rfl, hl⟩
  | cons c path ih =>
      have hput : written ++ [c] ++ path = written ++ c :: path := by rw [List.append_assoc]; rfl
      rw [collapseLoop]
      by_cases hc : c = '/'
      · subst hc
        rw [if_pos rfl]
        cases lastWasSlash with
        | true =>
            obtain ⟨w, rfl⟩ := hl rfl
            obtain ⟨hnames, hlast⟩ := @ih (w ++ ['/']) true hl
            refine ⟨hnames.trans ?_, hlast⟩
            rw [List.append_assoc, List.append_assoc]
            exact (names_slashes w path).symm
        | false =>
            obtain ⟨hnames, hlast⟩ := @ih (written ++ ['/']) true fun _ => ⟨written, rfl⟩
            exact ⟨hnames.trans (congrArg names hput), hlast⟩
      · rw [if_neg hc]
        obtain ⟨hnames, hlast⟩ := @ih (written ++ [c]) false fun h => (by cases h)
        exact ⟨hnames.trans (congrArg names hput), hlast⟩

/-- The names are the same, and there is nothing else left. -/
theorem names_collapse (path : List Char) : names (collapseSlashes path) = names path := by
  obtain ⟨hnames, hlast⟩ := @names_collapseLoop [] path false fun h => (by cases h)
  unfold collapseSlashes
  dsimp only
  split_ifs with hl
  · obtain ⟨w, hw⟩ := hlast hl
    rw [hw] at hnames ⊢
    rw [List.dropLast_concat, ← List.nil_append path, ← hnames, names_slash, names_nil, List.append_nil]
  · exact hnames

theorem normalize_resolve (h : path.head? ≠ some '/') :
    normalizePath (collapseSlashes path) = ['/'].intercalate (resolve (path.splitOn '/')) := by
  obtain ⟨dirs, heq, hdirs⟩ := collapseSlashes_spec h
  have hnames : names path = dirs := by rw [← names_collapse, heq, names_intercalate hdirs]
  rw [← resolve_names, hnames, heq]
  unfold normalizePath
  by_cases h0 : dirs = []
  · subst h0
    rfl
  · rw [List.splitOn_intercalate '/' (fun dir hd => (hdirs dir hd).2) h0,
      normalizeLoop_walk [] fun dir hd => (hdirs dir hd).1]
    rfl

theorem names_dropSlashes (path : List Char) : names (prepareAbsolutePath path) = names path := by
  induction path with
  | nil => rfl
  | cons c path ih =>
      unfold prepareAbsolutePath at ih ⊢
      by_cases hc : c = '/'
      · subst hc
        rw [List.dropWhile_cons_of_pos (by decide), ih]
        exact (names_slash [] path).symm
      · rw [List.dropWhile_cons_of_neg (by simpa using hc)]

end Names

/-! ## 3. PreparePath -/

section Prepare

variable {cwd path : List Char}

/-- **`PreparePath` answers the string of the stack**, if it does not answer an error. -/
theorem preparePath_resolved (hcwd : Canonical cwd) (hlen : path.length < 255)
    (hfit : isPathRelative path = true → cwd = [] ∨ path.length + cwd.length + 2 ≤ 256) :
    preparePath cwd (some path) = .ok (resolved cwd path) := by
  rw [preparePath_some hlen]
  unfold resolved components
  by_cases hrel : isPathRelative path = true
  · rw [if_pos hrel, if_pos hrel]
    by_cases h0 : cwd = []
    · subst h0
      have hhead : path.head? ≠ some '/' := by simpa [isPathRelative] using hrel
      show Except.ok (normalizePath (collapseSlashes path)) = _
      rw [normalize_resolve hhead]
      rfl
    · have hshort : path.length + cwd.length + 2 ≤ 256 := (hfit hrel).resolve_left h0
      have hjoin : prepareRelativePath cwd path = .ok (cwd ++ '/' :: path) := by
        unfold prepareRelativePath
        rw [if_neg fun h => h0 (List.length_eq_zero_iff.mp h), if_neg (Nat.not_lt.mpr hshort)]
      rw [hjoin]
      show Except.ok (normalizePath (collapseSlashes (cwd ++ '/' :: path))) = _
      rw [normalize_resolve (prepareRelativePath_head hcwd hrel hjoin), List.splitOn_append_cons_self]
  · rw [if_neg hrel, if_neg hrel]
    show Except.ok (normalizePath (collapseSlashes (prepareAbsolutePath path))) = _
    rw [normalize_resolve (prepareAbsolutePath_head path), ← resolve_names, names_dropSlashes, resolve_names]

/-- A canonical path is what its absolute form names. -/
theorem resolved_canonical (h : Canonical path) (cwd : List Char) : resolved cwd ('/' :: path) = path := by
  have habs : isPathRelative ('/' :: path) = false := rfl
  have hnames : names ('/' :: path) = names path := names_slash [] path
  unfold resolved components
  rw [if_neg (by rw [habs]; exact Bool.false_ne_true), ← resolve_names, hnames, resolve_names]
  rcases h with rfl | h
  · rfl
  · unfold resolve
    rw [walk_all [] h, List.nil_append]
    exact List.intercalate_splitOn '/'

/-- So is a single name in the root. -/
theorem resolved_name (hs : '/' ∉ path) (hp : Proper path) : resolved [] path = path := by
  have hsplit : path.splitOn '/' = [path] := List.splitOn_eq_singleton hs
  have hrel : isPathRelative path = true := by
    rcases path with _ | ⟨c, path⟩
    · rfl
    · have hc : c ≠ '/' := fun hc => hs (hc ▸ List.mem_cons_self)
      simpa [isPathRelative] using hc
  unfold resolved components
  rw [if_pos hrel, hsplit, List.splitOn_nil]
  show ['/'].intercalate (walk (walk [] []) path) = path
  rw [walk_nil, walk_proper _ hp, List.nil_append, List.intercalate_singleton]

end Prepare

end VFS

/-! ## 4. In the buffer -/

namespace PathBuffer

open Bounded

/-- The path, behind the working directory if it is relative, fits: it is not too long, and in `size` bytes there is
    room for what the functions do with it. -/
def Combined (size : Nat) (cwd path : List Char) : Prop :=
  Fits size cwd path ∧ (VFS.isPathRelative path = true → cwd = [] ∨ path.length + cwd.length + 2 ≤ 256)

/-- The string is left in the buffer. -/
def Leaves (size : Nat) (user : Nat → Option Char) (cwd : List Char) (b : Nat → Char) (stack : Nat → Nat)
    (s : List Char) : Prop :=
  ∃ b', preparePath size user cwd b stack = some (OK, b') ∧ Text b' 0 s

section Prepare

variable {size : Nat} {user : Nat → Option Char} {cwd path : List Char}

theorem leaves_resolved (b : Nat → Char) (stack : Nat → Nat) (hsize : 255 ≤ size) (hcwd : '\x00' ∉ cwd)
    (hu : userText user 255 0 = some path) (hfits : Fits size cwd path) {s : List Char}
    (hs : VFS.preparePath cwd (some path) = .ok s) : Leaves size user cwd b stack s := by
  obtain ⟨⟨err, b'⟩, hr, hans⟩ := preparePath_in b stack hsize hcwd fun p hp => by
    cases hu.symm.trans hp
    exact hfits
  rw [hu, hs] at hans
  obtain ⟨rfl, htext, -⟩ := hans
  exact ⟨b', hr, htext⟩

/-- **PreparePath leaves the string of the stack in the buffer.** It is canonical, and with a slash before it it is
    prepared to itself again, if a program can pass that and its copy fits too. -/
theorem prepared_resolved (b : Nat → Char) (stack : Nat → Nat) (hsize : 255 ≤ size)
    (hcwd : '\x00' ∉ cwd ∧ VFS.Canonical cwd) (hu : userText user 255 0 = some path) (hfit : Combined size cwd path) :
    Leaves size user cwd b stack (VFS.resolved cwd path) ∧
    VFS.Canonical (VFS.resolved cwd path) ∧
    (VFS.resolved cwd path).head? ≠ some '/' ∧ (VFS.resolved cwd path).getLast? ≠ some '/' ∧
    ∀ (user' : Nat → Option Char) (b' : Nat → Char) (stack' : Nat → Nat),
      userText user' 255 0 = some ('/' :: VFS.resolved cwd path) → (VFS.resolved cwd path).length + 2 < size →
        Leaves size user' cwd b' stack' (VFS.resolved cwd path) := by
  have hres := VFS.preparePath_resolved hcwd.2 (userText_bound hu).1 hfit.2
  have hcan := VFS.preparePath_canonical hcwd.2 hres
  refine ⟨leaves_resolved b stack hsize hcwd.1 hu hfit.1 hres, hcan, hcan.head, hcan.last, ?_⟩
  intro user' b' stack' hu' hroom
  have habs : VFS.isPathRelative ('/' :: VFS.resolved cwd path) = false := rfl
  have hagain : VFS.preparePath cwd (some ('/' :: VFS.resolved cwd path)) =
      .ok (VFS.resolved cwd ('/' :: VFS.resolved cwd path)) :=
    VFS.preparePath_resolved hcwd.2 (userText_bound hu').1 fun h => absurd (habs.symm.trans h) Bool.false_ne_true
  rw [VFS.resolved_canonical hcan] at hagain
  refine leaves_resolved b' stack' hsize hcwd.1 hu' ?_ hagain
  unfold Fits
  rw [if_neg (by rw [habs]; exact Bool.false_ne_true), leadingSlashes_cons, if_pos rfl, List.length_cons]
  have hone : leadingSlashes (VFS.resolved cwd path) = 0 := by
    rcases hp : VFS.resolved cwd path with _ | ⟨c, p⟩
    · rfl
    · rw [leadingSlashes_cons, if_neg fun hc => hcan.head (by rw [hp, hc]; rfl)]
  rw [hone]
  omega

/-- A string in a program's memory. -/
def stringAt (s : List Char) (i : Nat) : Option Char := some (s.getD i '\x00')

theorem userText_eq {user : Nat → Option Char} {n i : Nat} {s : List Char} (hs : '\x00' ∉ s)
    (h : ∀ k, user (i + k) = stringAt s k) : userText user n i = if s.length < n then some s else none := by
  induction n generalizing i s with
  | zero => exact (if_neg (Nat.not_lt_zero _)).symm
  | succ n ih =>
      have hfirst : user i = stringAt s 0 := h 0
      rw [userText, hfirst]
      cases s with
      | nil => exact (if_pos (Nat.succ_pos n)).symm
      | cons c s =>
          have hc : ¬ c = '\x00' := fun hc => hs (hc ▸ List.mem_cons_self)
          have hrest : ∀ k, user (i + 1 + k) = stringAt s k := fun k => by
            have hk := h (1 + k)
            rw [Nat.add_assoc, hk, Nat.add_comm 1 k]
            rfl
          show (if c = '\x00' then some [] else (userText user n (i + 1)).map (c :: ·)) = _
          rw [if_neg hc, ih (fun hm => hs (List.mem_cons_of_mem _ hm)) hrest, List.length_cons]
          by_cases hlen : s.length < n
          · rw [if_pos hlen, if_pos (Nat.succ_lt_succ hlen)]
            rfl
          · rw [if_neg hlen, if_neg (fun h => hlen (Nat.lt_of_succ_lt_succ h))]
            rfl

theorem userText_stringAt {s : List Char} (hs : '\x00' ∉ s) :
    userText (stringAt s) 255 0 = if s.length < 255 then some s else none :=
  userText_eq hs fun k => by rw [Nat.zero_add]

/-- `../x` in the folder `a/b`. -/
theorem prepared_resolved_above : Leaves 255 (stringAt ['.', '.', '/', 'x']) ['a', '/', 'b'] (fun _ => '\x00')
    (fun _ => 0) ['a', '/', 'x'] := by
  have hu : userText (stringAt ['.', '.', '/', 'x']) 255 0 = some ['.', '.', '/', 'x'] :=
    (userText_stringAt (by decide)).trans (if_pos (by decide))
  have hcwd : '\x00' ∉ ['a', '/', 'b'] ∧ VFS.Canonical ['a', '/', 'b'] := by decide
  have hfit : Combined 255 ['a', '/', 'b'] ['.', '.', '/', 'x'] := ⟨by decide, fun _ => Or.inr (by decide)⟩
  exact (prepared_resolved _ _ (Nat.le_refl 255) hcwd hu hfit).1

/-- A name of 254 letters is prepared to itself, and refused with a slash before it. -/
theorem prepared_once :
    (userText (stringAt (List.replicate 254 'a')) 255 0 = some (List.replicate 254 'a') ∧
      Combined 255 [] (List.replicate 254 'a')) ∧
    Leaves 255 (stringAt (List.replicate 254 'a')) [] (fun _ => '\x00') (fun _ => 0) (List.replicate 254 'a') ∧
    ¬ Leaves 255 (stringAt ('/' :: List.replicate 254 'a')) [] (fun _ => '\x00') (fun _ => 0)
    (List.replicate 254 'a') := by
  obtain ⟨path, hpath⟩ : ∃ path, List.replicate 254 'a' = path := ⟨_, rfl⟩
  have hlen : path.length = 254 := hpath ▸ List.length_replicate
  have hmem : ∀ c ∈ path, c = 'a' := fun c hc => List.eq_of_mem_replicate (hpath ▸ hc)
  rw [hpath]
  have hnul : '\x00' ∉ path := fun hm => absurd (hmem _ hm) (by decide)
  have hslash : '/' ∉ path := fun hm => absurd (hmem _ hm) (by decide)
  have hproper : VFS.Proper path := by
    refine ⟨fun h => ?_, fun h => ?_, fun h => ?_⟩ <;> rw [h] at hlen <;> cases hlen
  have hu : userText (stringAt path) 255 0 = some path := by
    rw [userText_stringAt hnul, if_pos (by omega)]
  have hfits : Fits 255 [] path := by
    unfold Fits
    split_ifs with hrel
    · exact Or.inl rfl
    · cases path with
      | nil => cases hlen
      | cons c path => exact absurd (hmem c List.mem_cons_self) fun hc => hrel (by rw [hc]; rfl)
  have hres : VFS.preparePath [] (some path) = .ok (VFS.resolved [] path) :=
    VFS.preparePath_resolved VFS.canonical_nil (by omega) fun _ => Or.inl rfl
  rw [VFS.resolved_name hslash hproper] at hres
  refine ⟨⟨hu, hfits, fun _ => Or.inl rfl⟩, leaves_resolved _ _ (Nat.le_refl 255) List.not_mem_nil hu hfits hres, ?_⟩
  have hnul' : '\x00' ∉ '/' :: path := fun hm => (List.mem_cons.mp hm).elim (fun h => absurd h (by decide)) hnul
  have hu' : userText (stringAt ('/' :: path)) 255 0 = none := by
    rw [userText_stringAt hnul', if_neg (by rw [List.length_cons]; omega)]
  obtain ⟨r, hr, hans⟩ := preparePath_in (fun _ => '\x00') (fun _ => 0) (Nat.le_refl 255) List.not_mem_nil
    fun p hp => by cases hu'.symm.trans hp
  rw [hu'] at hans
  intro ⟨b', hb, _⟩
  rw [hr] at hb
  obtain rfl := Option.some.inj hb
  have herr : OK = ErrorInvalidBuffer := hans.1
  exact absurd herr (by decide)

end Prepare

end PathBuffer

end SimpleOS2
