/-
  File:      SimpleOS2/Fs/PreparePath.lean
  Subject:   THE PREPARATION OF A PATH (PrepareRelativePath, PrepareAbsolutePath, NormalizePath, PreparePath of
             fs/VFS.cpp; _kpathcpy_usersafe of klib/memory.asm).

  * `kpathcpyUsersafe`, `prepareRelativePath`, `prepareAbsolutePath`, `collapseLoop`, `normalizeLoop`,
    `preparePath` -- the functions of the source, on the string that the buffer holds;
  * `Canonical` -- no leading or trailing slash, no empty component, no `.` and no `..`;
  * `preparePath_canonical` -- what `PreparePath` returns for a canonical working directory;
  * `preparePath_relative` -- a relative path is prepared as the absolute path that names it.
-/
import Mathlib.Data.List.Basic
import SimpleOS2.Klib.Memory

namespace SimpleOS2

namespace VFS

/-! ## 1. The functions -/

/-- `kpathcpy_usersafe`: 255 bytes at most, the `'\0'` among them. `none` is memory that cannot be read. -/
def kpathcpyUsersafe (userPath : Option (List Char)) : Except Int (List Char) :=
  match userPath with
  | none => .error ErrorInvalidBuffer
  | some path => if path.length < 255 then .ok path else .error ErrorInvalidBuffer

/-- `IsPathRelative`. -/
def isPathRelative (path : List Char) : Bool := path.head? ≠ some '/'

/-- `PrepareRelativePath`. -/
def prepareRelativePath (cwd pathBuffer : List Char) : Except Int (List Char) :=
  if cwd.length = 0 then .ok pathBuffer
  else if pathBuffer.length + cwd.length + 2 > 256 then .error ErrorPathTooLong
  else .ok (cwd ++ '/' :: pathBuffer)

/-- `PrepareAbsolutePath`. -/
def prepareAbsolutePath (pathBuffer : List Char) : List Char := pathBuffer.dropWhile (· = '/')

/-- The loop of `PreparePath` over the characters: what it has written, and `lastWasSlash`. -/
def collapseLoop : (path written : List Char) → (lastWasSlash : Bool) → List Char × Bool
  | [], written, lastWasSlash => (written, lastWasSlash)
  | c :: path, written, lastWasSlash =>
      if c = '/' then
        if lastWasSlash then collapseLoop path written true else collapseLoop path (written ++ ['/']) true
      else collapseLoop path (written ++ [c]) false

/-- The loop and the cut behind it. -/
def collapseSlashes (path : List Char) : List Char :=
  let r := collapseLoop path [] false
  if r.2 then r.1.dropLast else r.1

/-- The second loop of `NormalizePath`. The stack is the part before `i`, the last entry first, and the
    part from `i` on. -/
def normalizeLoop : (before stack : List (List Char)) → List (List Char)
  | before, [] => before.reverse
  | before, dir :: stack =>
      if dir = ['.'] then normalizeLoop before stack
      else if dir = ['.', '.'] then
        match before with
        | [] => normalizeLoop [] stack
        | _ :: before => normalizeLoop before stack
      else normalizeLoop (dir :: before) stack

/-- `NormalizePath`: the first loop cuts at the slashes, the last one writes them again. -/
def normalizePath (pathBuffer : List Char) : List Char :=
  ['/'].intercalate (normalizeLoop [] (pathBuffer.splitOn '/'))

/-- `PreparePath`. -/
def preparePath (cwd : List Char) (userPath : Option (List Char)) : Except Int (List Char) := do
  let pathBuffer ← kpathcpyUsersafe userPath
  let pathBuffer ←
    if isPathRelative pathBuffer then prepareRelativePath cwd pathBuffer
    else .ok (prepareAbsolutePath pathBuffer)
  return normalizePath (collapseSlashes pathBuffer)

/-! ## 2. Canonical paths -/

/-- What the names of a path consist of. -/
theorem mem_splitOn {path dir : List Char} (h : dir ∈ path.splitOn '/') : '/' ∉ dir ∧ ∀ c ∈ dir, c ∈ path := by
  induction path generalizing dir with
  | nil =>
      rw [List.splitOn_nil, List.mem_singleton] at h
      subst h
      exact ⟨List.not_mem_nil, fun _ hc => hc⟩
  | cons x path ih =>
      rw [List.splitOn_cons_eq_if_modifyHead] at h
      by_cases hx : x = '/'
      · rw [if_pos (beq_iff_eq.mpr hx)] at h
        rcases List.mem_cons.mp h with rfl | h
        · exact ⟨List.not_mem_nil, fun _ hc => by cases hc⟩
        · exact ⟨(ih h).1, fun c hc => List.mem_cons_of_mem _ ((ih h).2 c hc)⟩
      · rw [if_neg (fun he => hx (beq_iff_eq.mp he))] at h
        obtain ⟨d, ds, hsplit⟩ := List.exists_cons_of_ne_nil (List.splitOn_ne_nil '/' path)
        rw [hsplit, List.modifyHead_cons] at h
        rcases List.mem_cons.mp h with rfl | h
        · have hd : d ∈ path.splitOn '/' := hsplit ▸ List.mem_cons_self
          obtain ⟨hs, hsub⟩ := ih hd
          exact ⟨fun hm => (List.mem_cons.mp hm).elim (fun he => hx he.symm) hs,
            fun c hc => (List.mem_cons.mp hc).elim (fun he => he ▸ List.mem_cons_self)
              fun hc => List.mem_cons_of_mem _ (hsub c hc)⟩
        · have hd := ih (hsplit ▸ List.mem_cons_of_mem d h)
          exact ⟨hd.1, fun c hc => List.mem_cons_of_mem _ (hd.2 c hc)⟩

theorem splitOn_length (path : List Char) : (path.splitOn '/').length = path.count '/' + 1 := by
  induction path with
  | nil => rfl
  | cons x path ih =>
      rw [List.splitOn_cons_eq_if_modifyHead, List.count_cons]
      by_cases hx : x = '/'
      · rw [if_pos (beq_iff_eq.mpr hx), if_pos (beq_iff_eq.mpr hx), List.length_cons, ih]
      · rw [if_neg (fun he => hx (beq_iff_eq.mp he)), if_neg (fun he => hx (beq_iff_eq.mp he)),
          List.length_modifyHead, ih]

theorem mem_intercalate {dirs : List (List Char)} {c : Char} (h : c ∈ ['/'].intercalate dirs) (hc : c ≠ '/') :
    ∃ dir ∈ dirs, c ∈ dir := by
  induction dirs with
  | nil => cases h
  | cons d dirs ih =>
      rcases dirs with _ | ⟨d', dirs⟩
      · exact ⟨d, List.mem_cons_self, by rwa [List.intercalate_singleton] at h⟩
      · rw [List.intercalate_cons_cons, List.append_assoc] at h
        rcases List.mem_append.mp h with h | h
        · exact ⟨d, List.mem_cons_self, h⟩
        · rcases List.mem_append.mp h with h | h
          · exact absurd (List.mem_singleton.mp h) hc
          · obtain ⟨dir, hd, hm⟩ := ih h
            exact ⟨dir, List.mem_cons_of_mem _ hd, hm⟩

/-- A name, none of the two that mean a folder itself or the one above it. -/
def Proper (dir : List Char) : Prop := dir ≠ [] ∧ dir ≠ ['.'] ∧ dir ≠ ['.', '.']

instance (dir : List Char) : Decidable (Proper dir) := inferInstanceAs (Decidable (_ ∧ _))

/-- The root, or proper names with a slash between each two. -/
def Canonical (path : List Char) : Prop := path = [] ∨ ∀ dir ∈ path.splitOn '/', Proper dir

instance (path : List Char) : Decidable (Canonical path) := inferInstanceAs (Decidable (_ ∨ _))

section Canonical

variable {a b path : List Char}

theorem canonical_nil : Canonical [] := Or.inl rfl

/-- No leading slash. -/
theorem Canonical.head (h : Canonical path) : path.head? ≠ some '/' := by
  rcases path with _ | ⟨c, path⟩
  · simp
  · intro hc
    obtain rfl : c = '/' := by simpa using hc
    rcases h with h | h
    · cases h
    · refine (h [] ?_).1 rfl
      have := List.splitOn_append_cons_self ([] : List Char) path (a := '/')
      simp at this
      simp [this]

/-- No trailing slash. -/
theorem Canonical.last (h : Canonical path) : path.getLast? ≠ some '/' := by
  intro hl
  obtain ⟨a, rfl⟩ := List.getLast?_eq_some_iff.mp hl
  rcases h with h | h
  · simp at h
  · refine (h [] ?_).1 rfl
    rw [show a ++ ['/'] = a ++ '/' :: [] from rfl, List.splitOn_append_cons_self]
    simp

/-- A canonical path, cut at a slash. -/
theorem Canonical.split (h : Canonical (a ++ '/' :: b)) : Canonical a ∧ Canonical b ∧ a ≠ [] ∧ b ≠ [] := by
  rcases h with h | h
  · simp at h
  · rw [List.splitOn_append_cons_self] at h
    have ha : ∀ dir ∈ a.splitOn '/', Proper dir := fun dir hd => h dir (List.mem_append_left _ hd)
    have hb : ∀ dir ∈ b.splitOn '/', Proper dir := fun dir hd => h dir (List.mem_append_right _ hd)
    refine ⟨Or.inr ha, Or.inr hb, ?_, ?_⟩
    · rintro rfl
      exact (ha [] (by simp)).1 rfl
    · rintro rfl
      exact (hb [] (by simp)).1 rfl

/-- Two canonical paths, joined by a slash. -/
theorem Canonical.join (ha : Canonical a) (hb : Canonical b) (h0 : a ≠ []) (h1 : b ≠ []) :
    Canonical (a ++ '/' :: b) := by
  right
  rw [List.splitOn_append_cons_self]
  intro dir hd
  rcases List.mem_append.mp hd with hd | hd
  · exact (ha.resolve_left h0) dir hd
  · exact (hb.resolve_left h1) dir hd

/-- Proper names without a slash. -/
theorem canonical_intercalate {dirs : List (List Char)} (hs : ∀ dir ∈ dirs, '/' ∉ dir)
    (hp : ∀ dir ∈ dirs, Proper dir) : Canonical (['/'].intercalate dirs) := by
  by_cases h0 : dirs = []
  · subst h0
    exact canonical_nil
  · right
    rw [List.splitOn_intercalate '/' hs h0]
    exact hp

end Canonical

/-! ## 3. The loops -/

section Loops

/-- What the loop of `PreparePath` has written: names, with a slash between each two, and one more slash
    if that came last. -/
structure Written (dirs : List (List Char)) (written : List Char) (lastWasSlash : Bool) : Prop where
  eq : written = ['/'].intercalate dirs ++ if lastWasSlash then ['/'] else []
  named : ∀ dir ∈ dirs, dir ≠ [] ∧ '/' ∉ dir
  slash : lastWasSlash = true → dirs ≠ []

variable {dirs : List (List Char)} {written path : List Char} {lastWasSlash : Bool}

theorem intercalate_snoc (dirs : List (List Char)) (dir : List Char) (h : dirs ≠ []) :
    ['/'].intercalate (dirs ++ [dir]) = ['/'].intercalate dirs ++ '/' :: dir := by
  induction dirs with
  | nil => exact absurd rfl h
  | cons d dirs ih =>
      rcases dirs with _ | ⟨d', dirs⟩
      · simp
      · have := ih (by simp)
        simp only [List.cons_append, List.intercalate_cons_cons] at this ⊢
        rw [this]
        simp

/-- One more character, no slash. -/
theorem Written.char (h : Written dirs written lastWasSlash) {c : Char} (hc : c ≠ '/') :
    ∃ dirs', Written dirs' (written ++ [c]) false ∧ dirs' ≠ [] := by
  have hs : '/' ∉ [c] := by simpa using Ne.symm hc
  cases lastWasSlash with
  | true =>
      refine ⟨dirs ++ [[c]], ⟨?_, fun dir hd => ?_, fun h => by cases h⟩, by simp⟩
      · rw [intercalate_snoc dirs [c] (h.slash rfl), h.eq]
        simp
      · rcases List.mem_append.mp hd with hd | hd
        · exact h.named dir hd
        · cases List.mem_singleton.mp hd
          exact ⟨by simp, hs⟩
  | false =>
      rcases List.eq_nil_or_concat dirs with rfl | ⟨ds, d, rfl⟩
      · refine ⟨[[c]], ⟨?_, fun dir hd => ?_, fun h => by cases h⟩, by simp⟩
        · rw [h.eq]
          simp
        · cases List.mem_singleton.mp hd
          exact ⟨by simp, hs⟩
      · refine ⟨ds ++ [d ++ [c]], ⟨?_, fun dir hd => ?_, fun h => by cases h⟩, by simp⟩
        · rw [h.eq]
          by_cases hds : ds = []
          · subst hds
            simp
          · rw [intercalate_snoc ds _ hds, List.concat_eq_append, intercalate_snoc ds _ hds]
            simp
        · rcases List.mem_append.mp hd with hd | hd
          · exact h.named dir (by simp [hd])
          · cases List.mem_singleton.mp hd
            have := h.named d (by simp)
            exact ⟨by simp, by simp [this.2, Ne.symm hc]⟩

theorem collapseLoop_written (h : Written dirs written lastWasSlash)
    (h0 : dirs = [] → path.head? ≠ some '/') :
    ∃ dirs', Written dirs' (collapseLoop path written lastWasSlash).1 (collapseLoop path written lastWasSlash).2 := by
  induction path generalizing dirs written lastWasSlash with
  | nil => exact ⟨dirs, h⟩
  | cons c path ih =>
      unfold collapseLoop
      by_cases hc : c = '/'
      · subst hc
        have hne : dirs ≠ [] := fun e => h0 e rfl
        rw [if_pos rfl]
        cases lastWasSlash with
        | true => exact ih h fun e => absurd e hne
        | false =>
            refine @ih dirs _ _ ⟨?_, h.named, fun _ => hne⟩ fun e => absurd e hne
            rw [h.eq]
            simp
      · obtain ⟨dirs', h', hne⟩ := h.char hc
        rw [if_neg hc]
        exact ih h' fun e => absurd e hne

/-- What is left of the slashes. -/
theorem collapseSlashes_spec (h : path.head? ≠ some '/') :
    ∃ dirs, collapseSlashes path = ['/'].intercalate dirs ∧ ∀ dir ∈ dirs, dir ≠ [] ∧ '/' ∉ dir := by
  have h0 : Written [] [] false := ⟨rfl, fun _ hd => (by cases hd), fun h => (by cases h)⟩
  obtain ⟨dirs, hw⟩ := collapseLoop_written h0 fun _ => h
  refine ⟨dirs, ?_, hw.named⟩
  unfold collapseSlashes
  dsimp only
  split_ifs with hl
  · rw [hw.eq, if_pos hl, List.dropLast_concat]
  · rw [hw.eq, if_neg hl, List.append_nil]

/-- One entry of the stack. `..` takes the last one before it along, where there is one. -/
theorem normalizeLoop_cons (before stack : List (List Char)) (dir : List Char) :
    normalizeLoop before (dir :: stack) =
      if dir = ['.'] then normalizeLoop before stack
      else if dir = ['.', '.'] then normalizeLoop before.tail stack
      else normalizeLoop (dir :: before) stack := by
  cases before <;> rfl

/-- What stays on the stack. -/
theorem mem_normalizeLoop {before stack : List (List Char)} {dir : List Char}
    (h : dir ∈ normalizeLoop before stack) : dir ∈ before ∨ dir ∈ stack ∧ dir ≠ ['.'] ∧ dir ≠ ['.', '.'] := by
  induction stack generalizing before with
  | nil => exact Or.inl (List.mem_reverse.mp h)
  | cons d stack ih =>
      have lift : dir ∈ stack ∧ dir ≠ ['.'] ∧ dir ≠ ['.', '.'] →
          dir ∈ d :: stack ∧ dir ≠ ['.'] ∧ dir ≠ ['.', '.'] := fun h => ⟨List.mem_cons_of_mem _ h.1, h.2⟩
      unfold normalizeLoop at h
      split_ifs at h with h1 h2
      · exact (ih h).imp_right lift
      · rcases before with _ | ⟨b, before⟩
        · exact (ih h).imp_right lift
        · exact (ih h).imp (List.mem_cons_of_mem b) lift
      · rcases ih h with hm | hm
        · rcases List.mem_cons.mp hm with rfl | hm
          · exact Or.inr ⟨List.mem_cons_self, h1, h2⟩
          · exact Or.inl hm
        · exact Or.inr (lift hm)

theorem normalizePath_canonical (hs : ∀ dir ∈ dirs, dir ≠ [] ∧ '/' ∉ dir) :
    Canonical (normalizePath (['/'].intercalate dirs)) := by
  unfold normalizePath
  by_cases h0 : dirs = []
  · subst h0
    exact Or.inl rfl
  · rw [List.splitOn_intercalate '/' (fun dir hd => (hs dir hd).2) h0]
    refine canonical_intercalate (fun dir hd => ?_) fun dir hd => ?_
    · obtain h | h := mem_normalizeLoop hd
      · cases h
      · exact (hs dir h.1).2
    · obtain h | h := mem_normalizeLoop hd
      · cases h
      · exact ⟨(hs dir h.1).1, h.2⟩

theorem collapseLoop_append (w path written : List Char) (lastWasSlash : Bool) :
    collapseLoop path (w ++ written) lastWasSlash =
      (w ++ (collapseLoop path written lastWasSlash).1, (collapseLoop path written lastWasSlash).2) := by
  induction path generalizing written lastWasSlash with
  | nil => rfl
  | cons c path ih =>
      simp only [collapseLoop, List.append_assoc, ih]
      split_ifs <;> rfl

/-- A leading slash stays in front of the names, if there is one. -/
theorem collapseSlashes_slash (path : List Char) : collapseSlashes ('/' :: path) = [] ∨
    ∃ dirs, collapseSlashes ('/' :: path) = ['/'].intercalate ([] :: dirs) ∧ ∀ dir ∈ dirs, dir ≠ [] ∧ '/' ∉ dir := by
  induction path with
  | nil => exact Or.inl rfl
  | cons c path ih =>
      by_cases hc : c = '/'
      · subst hc
        exact ih
      · -- behind the slash it is the loop from its start
        have hstart : collapseLoop (c :: path) [] false = collapseLoop path [c] false := if_neg hc
        have hloop : collapseLoop ('/' :: c :: path) [] false =
            ('/' :: (collapseLoop (c :: path) [] false).1, (collapseLoop (c :: path) [] false).2) := by
          rw [hstart]
          show (if c = '/' then _ else _) = _
          rw [if_neg hc]
          exact collapseLoop_append ['/'] path [c] false
        have h0 : Written [] [] false := ⟨rfl, fun _ hd => (by cases hd), fun h => (by cases h)⟩
        have hhead : (c :: path).head? ≠ some '/' := fun h => hc (Option.some.inj h)
        obtain ⟨dirs, hw⟩ := collapseLoop_written h0 fun _ => hhead
        have hne : dirs ≠ [] := by
          intro h
          have hnil : (collapseLoop path [c] false).1 = [] := by
            have heq := hw.eq
            rw [hstart] at heq
            cases hl : (collapseLoop path [c] false).2 with
            | true => exact absurd h (hw.slash (hstart ▸ hl))
            | false =>
                rw [heq, h, hl]
                rfl
          have hpre := congrArg Prod.fst (collapseLoop_append [c] path [] false)
          rw [List.append_nil, hnil] at hpre
          cases hpre
        refine Or.inr ⟨dirs, ?_, hw.named⟩
        have hcons : ['/'].intercalate ([] :: dirs) = '/' :: ['/'].intercalate dirs := by
          obtain ⟨d, ds, rfl⟩ := List.exists_cons_of_ne_nil hne
          rw [List.intercalate_cons_cons]
          rfl
        unfold collapseSlashes
        rw [hloop, hcons]
        dsimp only
        split_ifs with hl
        · rw [hw.eq, if_pos hl, ← List.cons_append, List.dropLast_concat]
        · rw [hw.eq, if_neg hl, List.append_nil]

/-- Only the first entry can be empty, where the first of the stack is. -/
theorem normalizeLoop_tail {before stack : List (List Char)} (hs : ∀ dir ∈ stack, dir ≠ [])
    (hb : ∀ dir ∈ before.dropLast, dir ≠ []) : ∀ dir ∈ (normalizeLoop before stack).tail, dir ≠ [] := by
  induction stack generalizing before with
  | nil =>
      intro dir hd
      rw [normalizeLoop, List.tail_reverse, List.mem_reverse] at hd
      exact hb dir hd
  | cons d stack ih =>
      have hs' : ∀ dir ∈ stack, dir ≠ [] := fun dir hd => hs dir (List.mem_cons_of_mem _ hd)
      rw [normalizeLoop_cons]
      split_ifs
      · exact ih hs' hb
      · refine ih hs' fun dir hd => hb dir ?_
        rcases before with _ | ⟨b, _ | ⟨b', before⟩⟩
        · cases hd
        · cases hd
        · exact List.mem_cons_of_mem _ hd
      · refine ih hs' fun dir hd => ?_
        rcases before with _ | ⟨b, before⟩
        · cases hd
        · rcases List.mem_cons.mp hd with rfl | hd
          · exact hs _ List.mem_cons_self
          · exact hb dir hd

theorem intercalate_last {dirs : List (List Char)} (hs : ∀ dir ∈ dirs, '/' ∉ dir) (ht : ∀ dir ∈ dirs.tail, dir ≠ []) :
    (['/'].intercalate dirs).getLast? ≠ some '/' := by
  have hdir : ∀ dir : List Char, '/' ∉ dir → dir.getLast? ≠ some '/' := fun dir hd h => hd (List.mem_of_getLast? h)
  rcases List.eq_nil_or_concat dirs with rfl | ⟨ds, d, rfl⟩
  · exact fun h => by cases h
  · rw [List.concat_eq_append] at hs ht ⊢
    have hd := hs d (List.mem_append_right _ List.mem_cons_self)
    by_cases h0 : ds = []
    · subst h0
      rw [List.nil_append, List.intercalate_singleton]
      exact hdir d hd
    · have hne : d ≠ [] := by
        refine ht d ?_
        rw [List.tail_append_of_ne_nil h0]
        exact List.mem_append_right _ List.mem_cons_self
      rw [intercalate_snoc ds d h0, List.getLast?_append_of_ne_nil _ (List.cons_ne_nil _ _), List.getLast?_cons,
        List.getLast?_eq_some_getLast hne]
      intro h
      exact hd (Option.some.inj h ▸ List.getLast_mem hne)

/-- No trailing slash is left, whatever the loops begin with. -/
theorem normalized_last (path : List Char) : (normalizePath (collapseSlashes path)).getLast? ≠ some '/' := by
  by_cases hhead : path.head? = some '/'
  · obtain ⟨rest, rfl⟩ : ∃ rest, path = '/' :: rest := by
      rcases path with _ | ⟨c, path⟩
      · cases hhead
      · exact ⟨path, by rw [Option.some.inj hhead]⟩
    rcases collapseSlashes_slash rest with h | ⟨dirs, h, hnamed⟩
    · rw [h]
      decide
    · have hs : ∀ dir ∈ [] :: dirs, '/' ∉ dir := fun dir hd =>
        (List.mem_cons.mp hd).elim (fun h => h ▸ List.not_mem_nil) fun hd => (hnamed dir hd).2
      rw [h, normalizePath, List.splitOn_intercalate '/' hs (List.cons_ne_nil _ _)]
      refine intercalate_last (fun dir hd => ?_) ?_
      · rcases mem_normalizeLoop hd with hd | hd
        · cases hd
        · exact hs dir hd.1
      · rw [normalizeLoop_cons, if_neg (by decide), if_neg (by decide)]
        exact normalizeLoop_tail (fun dir hd => (hnamed dir hd).1) fun dir hd => by cases hd
  · obtain ⟨dirs, heq, hnamed⟩ := collapseSlashes_spec hhead
    rw [heq]
    exact (normalizePath_canonical hnamed).last

end Loops

/-! ## 4. PreparePath -/

section Prepare

variable {cwd path : List Char}

/-- The path that the loops work on. -/
theorem preparePath_some (hlen : path.length < 255) : preparePath cwd (some path) =
    (if isPathRelative path then prepareRelativePath cwd path else .ok (prepareAbsolutePath path)).map
      fun pathBuffer => normalizePath (collapseSlashes pathBuffer) := by
  have hcpy : kpathcpyUsersafe (some path) = .ok path := if_pos hlen
  unfold preparePath
  rw [hcpy]
  simp only [bind, Except.bind, pure, Except.pure]
  cases isPathRelative path with
  | true =>
      rw [if_pos rfl, if_pos rfl]
      cases prepareRelativePath cwd path <;> rfl
  | false => rfl

/-- The working directory is not part of an absolute path. -/
theorem preparePath_absolute (h : isPathRelative path = false) (cwd cwd' : List Char) :
    preparePath cwd (some path) = preparePath cwd' (some path) := by
  by_cases hlen : path.length < 255
  · rw [preparePath_some hlen, preparePath_some hlen, h]
    rfl
  · simp only [preparePath, kpathcpyUsersafe, if_neg hlen]
    rfl

/-- Before the loops there is no leading slash. -/
theorem prepareAbsolutePath_head (path : List Char) : (prepareAbsolutePath path).head? ≠ some '/' := by
  unfold prepareAbsolutePath
  intro h
  have := List.head?_dropWhile_not (fun c : Char => decide (c = '/')) path
  rw [h] at this
  simp at this

theorem prepareRelativePath_head (hcwd : Canonical cwd) (hrel : isPathRelative path = true) {pathBuffer : List Char}
    (h : prepareRelativePath cwd path = .ok pathBuffer) : pathBuffer.head? ≠ some '/' := by
  have hp : path.head? ≠ some '/' := by simpa [isPathRelative] using hrel
  unfold prepareRelativePath at h
  split_ifs at h with h0
  · cases h
    exact hp
  · cases h
    rcases cwd with _ | ⟨c, cwd⟩
    · exact absurd rfl h0
    · exact hcwd.head

/-- **What `PreparePath` returns is canonical**, where the working directory is. -/
theorem preparePath_canonical (hcwd : Canonical cwd) {userPath : Option (List Char)}
    (h : preparePath cwd userPath = .ok path) : Canonical path := by
  rcases userPath with _ | user
  · cases h
  · by_cases hlen : user.length < 255
    · rw [preparePath_some hlen] at h
      have hbuf : ∀ {pathBuffer : List Char}, pathBuffer.head? ≠ some '/' →
          Canonical (normalizePath (collapseSlashes pathBuffer)) := by
        intro pathBuffer hhead
        obtain ⟨dirs, heq, hnamed⟩ := collapseSlashes_spec hhead
        rw [heq]
        exact normalizePath_canonical hnamed
      split_ifs at h with hrel
      · rcases hr : prepareRelativePath cwd user with e | pathBuffer
        · rw [hr] at h
          cases h
        · rw [hr] at h
          cases h
          exact hbuf (prepareRelativePath_head hcwd hrel hr)
      · cases h
        exact hbuf (prepareAbsolutePath_head user)
    · simp only [preparePath, kpathcpyUsersafe, if_neg hlen] at h
      cases h

/-- From any working directory, a prepared path has no trailing slash. -/
theorem preparePath_last {userPath : Option (List Char)} (h : preparePath cwd userPath = .ok path) :
    path.getLast? ≠ some '/' := by
  rcases userPath with _ | user
  · cases h
  · by_cases hlen : user.length < 255
    · rw [preparePath_some hlen] at h
      cases hr : (if isPathRelative user then prepareRelativePath cwd user else .ok (prepareAbsolutePath user)) with
      | error e =>
          rw [hr] at h
          cases h
      | ok pathBuffer =>
          rw [hr] at h
          cases h
          exact normalized_last pathBuffer
    · simp only [preparePath, kpathcpyUsersafe, if_neg hlen] at h
      cases h

/-- **A relative path** is prepared as the absolute path `/cwd/path`, from whatever directory that is
    used, where the latter is not too long for the buffer. -/
theorem preparePath_relative (hcwd : Canonical cwd) (hrel : isPathRelative path = true)
    (hlen : cwd.length + path.length + 2 < 255) (cwd' : List Char) :
    preparePath cwd (some path) = preparePath cwd' (some ('/' :: cwd ++ '/' :: path)) := by
  have hp : path.head? ≠ some '/' := by simpa [isPathRelative] using hrel
  have hdrop : ∀ l : List Char, l.head? ≠ some '/' → l.dropWhile (· = '/') = l := by
    intro l hl
    rcases l with _ | ⟨c, l⟩
    · rfl
    · have hc : ¬ c = '/' := by simpa using hl
      simp [List.dropWhile, hc]
  rw [preparePath_some (by omega), preparePath_some (by simp; omega), if_pos hrel,
    if_neg (by simp [isPathRelative])]
  congr 1
  unfold prepareRelativePath prepareAbsolutePath
  rcases cwd with _ | ⟨c, cwd⟩
  · simp [hdrop path hp]
  · have hc : ¬ c = '/' := by simpa using hcwd.head
    rw [if_neg (by simp), if_neg (by simp at hlen ⊢; omega)]
    simp [hc]

end Prepare

end VFS

end SimpleOS2
