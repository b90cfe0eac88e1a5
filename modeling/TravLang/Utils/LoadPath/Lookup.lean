import TravLang.Utils.LoadPath.Basic

/-!
# What the load-path caches answer

The four tables are caches: a lookup should answer from the first visible directory that has the
file, and from the first hidden one when no visible directory has it. Two tables hold the names
themselves and two hold normalized names, so everything is stated for a function `key` that is
either the identity or `normalizedUnitFilename`.

`add` does not keep this. For a file of a hidden directory whose name is already in the hidden
table, `update` goes on to its `else` branch and enters the file in the *visible* table.
`Clash` says when this happens. In every run without such a step the caches answer from the
load path that the operations describe (`lookup_of_run`).
-/

namespace TravLang.LoadPath

open List

variable {C : Type} {key : Bytes → Bytes} {dirs hidden visible : List Dir} {file k : Bytes}
  {reg hid vis : Registry} {dir : Dir} {s : State C} {env : Env}

/-! ## Answers -/

/-- No directory of the path has a file for `k`. -/
def Misses (key : Bytes → Bytes) (dirs : List Dir) (k : Bytes) : Prop :=
  ∀ d ∈ dirs, ∀ base ∈ d.files, key base ≠ k

/-- `file` is a file for `k` in the first directory of the path that has one. -/
def FromFirst (key : Bytes → Bytes) (dirs : List Dir) (k file : Bytes) : Prop :=
  ∃ before d after base, dirs = before ++ d :: after ∧ Misses key before k ∧
    base ∈ d.files ∧ key base = k ∧ file = Filename.concat d.path base

/-- What a lookup must answer, from the visible and the hidden part of the load path. -/
def Answers (key : Bytes → Bytes) (visible hidden : List Dir) (k : Bytes) :
    Option (Bytes × Visibility) → Prop
  | some (file, .visible) => FromFirst key visible k file
  | some (file, .hidden) => Misses key visible k ∧ FromFirst key hidden k file
  | none => Misses key visible k ∧ Misses key hidden k

/-- A table that answers from the first directory of the path. -/
def Caches (key : Bytes → Bytes) (reg : Registry) (dirs : List Dir) : Prop :=
  ∀ k, match reg k with
    | some file => FromFirst key dirs k file
    | none => Misses key dirs k

theorem FromFirst.not_misses (h : FromFirst key dirs k file) :
    ¬ Misses key dirs k := by
  obtain ⟨before, d, after, base, rfl, -, hmem, hk, -⟩ := h
  intro hmiss
  exact hmiss d (by simp) base hmem hk

theorem FromFirst.append (h : FromFirst key dirs k file) (more : List Dir) :
    FromFirst key (dirs ++ more) k file := by
  obtain ⟨before, d, after, base, rfl, hb⟩ := h
  exact ⟨before, d, after ++ more, base, by simp, hb⟩

/-- A table agrees with its directories on which names are there. -/
theorem Caches.mem_iff (h : Caches key reg dirs) (k : Bytes) :
    reg.mem k = true ↔ ¬ Misses key dirs k := by
  have hk := h k
  unfold Registry.mem
  cases hr : reg k with
  | none =>
    rw [hr] at hk
    simpa using hk
  | some file =>
    rw [hr] at hk
    simpa using FromFirst.not_misses hk

theorem caches_nil (key : Bytes → Bytes) : Caches key .empty [] := by
  intro k
  simp [Registry.empty, Misses]

/-- **Two consistent tables answer as the load path demands.** -/
theorem answers_findFileInCache (hv : Caches key vis visible) (hh : Caches key hid hidden)
    (k : Bytes) :
    Answers key visible hidden k (findFileInCache k vis hid) := by
  have hvk := hv k
  have hhk := hh k
  unfold findFileInCache
  cases hr : vis k with
  | some file =>
    rw [hr] at hvk
    exact hvk
  | none =>
    rw [hr] at hvk
    cases hr' : hid k with
    | some file | none =>
      rw [hr'] at hhk
      exact ⟨hvk, hhk⟩

/-! ## Putting a directory in front -/

/-- The effect of `prepend_add` on one table. -/
def replaceAll (key : Bytes → Bytes) (dir : Dir) (reg : Registry) : Registry :=
  dir.files.foldl (fun reg base => reg.replace (key base) (Filename.concat dir.path base)) reg

/-- The last file with a name is the one that stays. -/
theorem replaceAll_apply (key : Bytes → Bytes) (dir : Dir) (reg : Registry) (k : Bytes) :
    replaceAll key dir reg k =
      ((dir.files.reverse.find? fun base => key base = k).map (Filename.concat dir.path)).or
        (reg k) := by
  unfold replaceAll
  induction dir.files generalizing reg with
  | nil => rfl
  | cons base files ih =>
    rw [foldl_cons, ih, reverse_cons, find?_append, find?_singleton]
    by_cases hk : key base = k
    · subst hk
      cases files.reverse.find? _ <;> simp
    · simp [hk, Registry.replace_of_ne reg _ (Ne.symm hk)]

theorem Caches.prepend (h : Caches key reg dirs) (dir : Dir) :
    Caches key (replaceAll key dir reg) (dir :: dirs) := by
  intro k
  have hk := h k
  rw [replaceAll_apply]
  cases hf : dir.files.reverse.find? fun base => key base = k with
  | some base =>
    exact ⟨[], dir, dirs, base, rfl, nofun, mem_reverse.mp (mem_of_find?_eq_some hf),
      by simpa using find?_some hf, rfl⟩
  | none =>
    have hne : ∀ base ∈ dir.files, key base ≠ k := by simpa using hf
    rw [Option.map_none, Option.none_or]
    cases hr : reg k with
    | none =>
      rw [hr] at hk
      exact forall_mem_cons.mpr ⟨hne, hk⟩
    | some file =>
      rw [hr] at hk
      obtain ⟨before, d, after, base, rfl, hb, hrest⟩ := hk
      exact ⟨dir :: before, d, after, base, rfl, forall_mem_cons.mpr ⟨hne, hb⟩, hrest⟩

/-! ## Putting a directory at the end -/

/-- Enters the files of a directory under the names that are not taken yet. -/
def addAll (key : Bytes → Bytes) (dir : Dir) (reg : Registry) : Registry :=
  dir.files.foldl (fun reg base =>
    if reg.mem (key base) then reg else reg.replace (key base) (Filename.concat dir.path base)) reg

/-- The first file with a name is the one that is entered. -/
theorem addAll_apply (key : Bytes → Bytes) (dir : Dir) (reg : Registry) (k : Bytes) :
    addAll key dir reg k =
      (reg k).or ((dir.files.find? fun base => key base = k).map (Filename.concat dir.path)) := by
  unfold addAll
  induction dir.files generalizing reg with
  | nil => simp
  | cons base files ih =>
    rw [foldl_cons, ih, find?_cons]
    by_cases hk : key base = k
    · subst hk
      cases hr : reg (key base) <;> simp [Registry.mem, hr]
    · have hsame : (if reg.mem (key base) then reg
          else reg.replace (key base) (Filename.concat dir.path base)) k = reg k := by
        split
        · rfl
        · exact Registry.replace_of_ne _ _ (Ne.symm hk)
      simp [hk, hsame]

theorem Caches.append (h : Caches key reg dirs) (dir : Dir) :
    Caches key (addAll key dir reg) (dirs ++ [dir]) := by
  intro k
  have hk := h k
  rw [addAll_apply]
  cases hr : reg k with
  | some file =>
    rw [hr] at hk
    exact hk.append [dir]
  | none =>
    rw [hr] at hk
    rw [Option.none_or]
    cases hf : dir.files.find? fun base => key base = k with
    | some base =>
      exact ⟨dirs, dir, [], base, rfl, hk, mem_of_find?_eq_some hf,
        by simpa using find?_some hf, rfl⟩
    | none => exact forall_mem_append.mpr ⟨hk, forall_mem_singleton.mpr (by simpa using hf)⟩

/-! ## The loops on whole states -/

/-- The tables of a state agree with its directories, taken in load-path order. -/
structure Consistent (s : State C) : Prop where
  visible : Caches id s.visibleFiles s.visibleDirs.reverse
  visibleUncap : Caches normalizedUnitFilename s.visibleFilesUncap s.visibleDirs.reverse
  hidden : Caches id s.hiddenFiles s.hiddenDirs.reverse
  hiddenUncap : Caches normalizedUnitFilename s.hiddenFilesUncap s.hiddenDirs.reverse
  visible_flag : ∀ d ∈ s.visibleDirs, d.hidden = false
  hidden_flag : ∀ d ∈ s.hiddenDirs, d.hidden = true

theorem consistent_reset : Consistent (reset : State C) where
  visible := caches_nil id
  visibleUncap := caches_nil normalizedUnitFilename
  hidden := caches_nil id
  hiddenUncap := caches_nil normalizedUnitFilename
  visible_flag := by simp [reset]
  hidden_flag := by simp [reset]

/-- A change of both visible tables, or of both hidden ones -/
def State.onTables (s : State C) (hidden : Bool) (f : (Bytes → Bytes) → Registry → Registry) :
    State C :=
  if hidden then
    { s with
      hiddenFiles := f id s.hiddenFiles
      hiddenFilesUncap := f normalizedUnitFilename s.hiddenFilesUncap }
  else
    { s with
      visibleFiles := f id s.visibleFiles
      visibleFilesUncap := f normalizedUnitFilename s.visibleFilesUncap }

theorem prependAdd_eq (dir : Dir) (s : State C) :
    prependAdd s dir = s.onTables dir.hidden fun key => replaceAll key dir := by
  unfold prependAdd replaceAll State.onTables
  induction dir.files generalizing s with
  | nil => simp
  | cons base files ih =>
    rw [foldl_cons, ih]
    cases hd : dir.hidden <;> simp [prependFile, hd]

theorem Consistent.prependDir {s : State C} (h : Consistent s) (dir : Dir) :
    Consistent (prependDir dir s) := by
  unfold LoadPath.prependDir
  rw [prependAdd_eq]
  cases hd : dir.hidden with
  | false =>
    refine { h with visible := ?_, visibleUncap := ?_, visible_flag := ?_ }
    · simpa [State.onTables] using h.visible.prepend dir
    · simpa [State.onTables] using h.visibleUncap.prepend dir
    · exact forall_mem_append.mpr ⟨h.visible_flag, forall_mem_singleton.mpr hd⟩
  | true =>
    refine { h with hidden := ?_, hiddenUncap := ?_, hidden_flag := ?_ }
    · simpa [State.onTables] using h.hidden.prepend dir
    · simpa [State.onTables] using h.hiddenUncap.prepend dir
    · exact forall_mem_append.mpr ⟨h.hidden_flag, forall_mem_singleton.mpr hd⟩

/-- What `init` and `remove_dir` do after `reset`. -/
def rebuild (visible hidden : List Dir) : State C :=
  visible.foldl prependAdd (hidden.foldl prependAdd
    { reset with visibleDirs := visible, hiddenDirs := hidden })

/-- The table for some directories, the last one of the path first. -/
def tableOf (key : Bytes → Bytes) (dirs : List Dir) (reg : Registry) : Registry :=
  dirs.foldl (fun reg dir => replaceAll key dir reg) reg

/-- The state for a load path. -/
def cached (autoInclude : Callback C) (visible hidden : List Dir) : State C where
  visibleFiles := tableOf id visible .empty
  visibleFilesUncap := tableOf normalizedUnitFilename visible .empty
  hiddenFiles := tableOf id hidden .empty
  hiddenFilesUncap := tableOf normalizedUnitFilename hidden .empty
  visibleDirs := visible
  hiddenDirs := hidden
  autoIncludeCallback := autoInclude

theorem foldl_prependAdd {hidden : Bool} : ∀ (dirs : List Dir) (s : State C),
    (∀ d ∈ dirs, d.hidden = hidden) →
    dirs.foldl prependAdd s = s.onTables hidden fun key => tableOf key dirs
  | [], s, _ => by cases hidden <;> rfl
  | d :: dirs, s, h => by
    obtain ⟨rfl, hdirs⟩ := forall_mem_cons.mp h
    rw [foldl_cons, prependAdd_eq, foldl_prependAdd dirs _ hdirs]
    cases d.hidden <;> rfl

theorem rebuild_eq_cached (hv : ∀ d ∈ visible, d.hidden = false)
    (hh : ∀ d ∈ hidden, d.hidden = true) :
    rebuild visible hidden = (cached .noAutoInclude visible hidden : State C) := by
  rw [rebuild, foldl_prependAdd hidden _ hh, foldl_prependAdd visible _ hv]
  rfl

theorem foldl_prependAdd_dirs (dirs : List Dir) (s : State C) :
    (dirs.foldl prependAdd s).visibleDirs = s.visibleDirs ∧
    (dirs.foldl prependAdd s).hiddenDirs = s.hiddenDirs := by
  induction dirs generalizing s with
  | nil => exact ⟨rfl, rfl⟩
  | cons dir dirs ih =>
    rw [foldl_cons, (ih _).1, (ih _).2, prependAdd_eq]
    cases dir.hidden <;> exact ⟨rfl, rfl⟩

theorem rebuild_dirs (visible hidden : List Dir) :
    (rebuild visible hidden : State C).visibleDirs = visible ∧
    (rebuild visible hidden : State C).hiddenDirs = hidden := by
  simp [rebuild, foldl_prependAdd_dirs]

theorem init_eq_rebuild (env : Env) (autoInclude : Callback C) (visible hidden : List Bytes) :
    init env autoInclude visible hidden =
      { (rebuild (visible.map (Dir.create env false)).reverse
          (hidden.map (Dir.create env true)).reverse : State C) with
        autoIncludeCallback := autoInclude } := by
  unfold init rebuild
  dsimp only
  rw [(foldl_prependAdd_dirs _ _).1]

theorem Caches.tableOf : ∀ {dirs dirs0 : List Dir} {reg : Registry},
    Caches key reg dirs0 → Caches key (tableOf key dirs reg) (dirs.reverse ++ dirs0)
  | [], _, _, h => h
  | d :: dirs, dirs0, reg, h => by
    rw [reverse_cons, append_assoc, singleton_append]
    exact Caches.tableOf (h.prepend d)

theorem consistent_rebuild (hv : ∀ d ∈ visible, d.hidden = false)
    (hh : ∀ d ∈ hidden, d.hidden = true) : Consistent (rebuild visible hidden : State C) := by
  rw [rebuild_eq_cached hv hh]
  have hcaches : ∀ key dirs, Caches key (tableOf key dirs .empty) dirs.reverse := by
    intro key dirs
    simpa using @Caches.tableOf key dirs [] .empty (caches_nil key)
  exact ⟨hcaches _ _, hcaches _ _, hcaches _ _, hcaches _ _, hv, hh⟩

/-! ## The load path as the operations describe it -/

/-- The visible and the hidden directories, first directory first. -/
structure Path where
  visible : List Dir
  hidden : List Dir

/-- The operations that change the load path. -/
inductive Op (C : Type) where
  | init (autoInclude : Callback C) (visible hidden : List Bytes)
  | addDir (hidden : Bool) (dir : Bytes)
  | appendDir (dir : Dir)
  | prependDir (dir : Dir)
  | removeDir (dir : Bytes)

def step (env : Env) (s : State C) : Op C → State C
  | .init autoInclude visible hidden => init env autoInclude visible hidden
  | .addDir hidden dir => addDir env hidden dir s
  | .appendDir dir => appendDir dir s
  | .prependDir dir => prependDir dir s
  | .removeDir dir => removeDir dir s

def run (env : Env) (ops : List (Op C)) : State C := ops.foldl (step env) reset

namespace Path

def empty : Path := ⟨[], []⟩

def append (p : Path) (dir : Dir) : Path :=
  if dir.hidden then { p with hidden := p.hidden ++ [dir] }
  else { p with visible := p.visible ++ [dir] }

def prepend (p : Path) (dir : Dir) : Path :=
  if dir.hidden then { p with hidden := dir :: p.hidden }
  else { p with visible := dir :: p.visible }

def step (env : Env) (p : Path) : Op C → Path
  | .init _ visible hidden =>
    ⟨visible.map (Dir.create env false), hidden.map (Dir.create env true)⟩
  | .addDir hidden dir => p.append (Dir.create env hidden dir)
  | .appendDir dir => p.append dir
  | .prependDir dir => p.prepend dir
  | .removeDir dir =>
    ⟨p.visible.filter fun d => d.path ≠ dir, p.hidden.filter fun d => d.path ≠ dir⟩

end Path

/-- The load path that a sequence of operations describes. -/
def pathOf (env : Env) (ops : List (Op C)) : Path := ops.foldl (Path.step env) .empty

def State.path (s : State C) : Path := ⟨s.visibleDirs.reverse, s.hiddenDirs.reverse⟩

/-! ## Appending a directory -/

/-- The loop of `add` on one pair of tables. -/
def updateAll (key : Bytes → Bytes) (dir : Dir) (tables : Registry × Registry) :
    Registry × Registry :=
  dir.files.foldl (fun tables base =>
    update dir.hidden (key base) (Filename.concat dir.path base) tables) tables

theorem foldl_addFile (dir : Dir) (s : State C) :
    dir.files.foldl (addFile dir) s =
      { s with
        visibleFiles := (updateAll id dir (s.visibleFiles, s.hiddenFiles)).1
        hiddenFiles := (updateAll id dir (s.visibleFiles, s.hiddenFiles)).2
        visibleFilesUncap := (updateAll normalizedUnitFilename dir
          (s.visibleFilesUncap, s.hiddenFilesUncap)).1
        hiddenFilesUncap := (updateAll normalizedUnitFilename dir
          (s.visibleFilesUncap, s.hiddenFilesUncap)).2 } := by
  unfold updateAll
  induction dir.files generalizing s with
  | nil => rfl
  | cons base files ih =>
    rw [foldl_cons, ih]
    rfl

theorem updateAll_visible (key : Bytes → Bytes) (hd : dir.hidden = false) (vis hid : Registry) :
    updateAll key dir (vis, hid) = (addAll key dir vis, hid) := by
  unfold updateAll addAll
  induction dir.files generalizing vis with
  | nil => rfl
  | cons base files ih =>
    rw [foldl_cons, foldl_cons, ← ih]
    congr 1
    cases hm : vis.mem (key base) <;> simp [update, hd, hm]

/-- A file of the hidden directory `dir`, when `dir` is appended to the path `p`, finds its name
taken by a hidden file (of `p`, or an earlier one of `dir`) but by no visible one. -/
def Clash (key : Bytes → Bytes) (p : Path) (dir : Dir) : Prop :=
  dir.hidden = true ∧ ∃ before base after, dir.files = before ++ base :: after ∧
    (key base ∈ before.map key ∨ ¬ Misses key p.hidden (key base)) ∧
    Misses key p.visible (key base)

theorem updateAll_hidden (key : Bytes → Bytes) (hd : dir.hidden = true) (vis hid : Registry)
    (hno : ∀ before base after, dir.files = before ++ base :: after →
      (key base ∈ before.map key ∨ hid.mem (key base) = true) → vis.mem (key base) = true) :
    updateAll key dir (vis, hid) = (vis, addAll key dir hid) := by
  unfold updateAll addAll
  generalize dir.files = files at hno ⊢
  -- the condition on the rest of the files only speaks of the hidden table after the first file
  induction files generalizing hid with
  | nil => rfl
  | cons base files ih =>
    rw [foldl_cons, foldl_cons]
    cases hm : hid.mem (key base) with
    | true =>
      have hv : vis.mem (key base) = true := hno [] base files rfl (Or.inr hm)
      have hupd : update dir.hidden (key base) (Filename.concat dir.path base) (vis, hid)
          = (vis, hid) := by simp [update, hd, hm, hv]
      rw [hupd, if_pos rfl]
      apply ih
      rintro before b after rfl hb
      refine hno (base :: before) b after rfl ?_
      rcases hb with hb | hb
      · exact Or.inl (mem_cons_of_mem _ hb)
      · exact Or.inr hb
    | false =>
      have hupd : update dir.hidden (key base) (Filename.concat dir.path base) (vis, hid)
          = (vis, hid.replace (key base) (Filename.concat dir.path base)) := by
        simp [update, hd, hm]
      rw [hupd, if_neg Bool.false_ne_true]
      apply ih
      rintro before b after rfl hb
      refine hno (base :: before) b after rfl ?_
      by_cases hk : key b = key base
      · exact Or.inl (by simp [hk])
      · rcases hb with hb | hb
        · exact Or.inl (mem_cons_of_mem _ hb)
        · exact Or.inr (by simpa [Registry.mem, Registry.replace, hk] using hb)

/-- Without a clash, appending a hidden directory only changes the hidden table. -/
theorem updateAll_of_not_clash {p : Path} (hv : Caches key vis p.visible)
    (hh : Caches key hid p.hidden) (hd : dir.hidden = true) (hno : ¬ Clash key p dir) :
    updateAll key dir (vis, hid) = (vis, addAll key dir hid) := by
  refine updateAll_hidden key hd vis hid ?_
  intro before base after hsplit hb
  rw [hv.mem_iff]
  intro hmiss
  refine hno ⟨hd, before, base, after, hsplit, ?_, hmiss⟩
  rwa [← hh.mem_iff]

theorem Consistent.add (h : Consistent s) (hid : ¬ Clash id s.path dir)
    (huncap : ¬ Clash normalizedUnitFilename s.path dir) : Consistent (add dir s) := by
  unfold LoadPath.add
  rw [foldl_addFile]
  cases hd : dir.hidden with
  | false =>
    rw [updateAll_visible id hd, updateAll_visible normalizedUnitFilename hd]
    refine { h with visible := ?_, visibleUncap := ?_, visible_flag := ?_ }
    · simpa using h.visible.append dir
    · simpa using h.visibleUncap.append dir
    · exact forall_mem_cons.mpr ⟨hd, h.visible_flag⟩
  | true =>
    rw [updateAll_of_not_clash (p := s.path) h.visible h.hidden hd hid,
      updateAll_of_not_clash (p := s.path) h.visibleUncap h.hiddenUncap hd huncap]
    refine { h with hidden := ?_, hiddenUncap := ?_, hidden_flag := ?_ }
    · simpa using h.hidden.append dir
    · simpa using h.hiddenUncap.append dir
    · exact forall_mem_cons.mpr ⟨hd, h.hidden_flag⟩

/-! ## Runs -/

/-- The operation does not append a hidden directory that clashes. -/
def StepOk (env : Env) (p : Path) : Op C → Prop
  | .addDir hidden dir =>
    ¬ Clash id p (Dir.create env hidden dir) ∧
      ¬ Clash normalizedUnitFilename p (Dir.create env hidden dir)
  | .appendDir dir => ¬ Clash id p dir ∧ ¬ Clash normalizedUnitFilename p dir
  | _ => True

def RunOk (env : Env) : Path → List (Op C) → Prop
  | _, [] => True
  | p, op :: ops => StepOk env p op ∧ RunOk env (p.step env op) ops

theorem removeDir_eq_self_of_length {dir : Bytes}
    (h : (dirs.filter fun d => d.path ≠ dir).length = dirs.length) :
    dirs.filter (fun d => d.path ≠ dir) = dirs :=
  filter_eq_self.mpr (length_filter_eq_length_iff.mp h)

theorem path_add (dir : Dir) (s : State C) : (add dir s).path = s.path.append dir := by
  unfold add
  rw [foldl_addFile]
  cases hd : dir.hidden <;> simp [State.path, Path.append, hd]

/-- **The directory lists are the load path that the operations describe.** -/
theorem path_step (env : Env) (s : State C) (op : Op C) :
    (step env s op).path = s.path.step env op := by
  cases op with
  | init autoInclude visible hidden =>
    show (init env autoInclude visible hidden).path = _
    rw [init_eq_rebuild]
    simp [State.path, Path.step, rebuild_dirs]
  | addDir hidden dir => exact path_add _ s
  | appendDir dir => exact path_add dir s
  | prependDir dir =>
    show (prependDir dir s).path = s.path.prepend dir
    unfold prependDir
    rw [prependAdd_eq]
    cases hd : dir.hidden <;> simp [State.onTables, State.path, Path.prepend, hd]
  | removeDir dir =>
    show (removeDir dir s).path = _
    unfold removeDir
    dsimp only
    split
    · simp [State.path, Path.step, foldl_prependAdd_dirs]
    · next hlen =>
      obtain ⟨hlv, hlh⟩ := not_or.mp hlen
      have hv := removeDir_eq_self_of_length (Decidable.not_not.mp hlv)
      have hh := removeDir_eq_self_of_length (Decidable.not_not.mp hlh)
      show State.path s = ⟨s.visibleDirs.reverse.filter _, s.hiddenDirs.reverse.filter _⟩
      rw [filter_reverse, filter_reverse, hv, hh]
      rfl

theorem Consistent.step {env : Env} (h : Consistent s) {op : Op C}
    (hok : StepOk env s.path op) : Consistent (step env s op) := by
  cases op with
  | init autoInclude visible hidden =>
    show Consistent (init env autoInclude visible hidden)
    rw [init_eq_rebuild]
    refine { consistent_rebuild ?_ ?_ with }
    · simp [Dir.create]
    · simp [Dir.create]
  | addDir hidden dir => exact h.add hok.1 hok.2
  | appendDir dir => exact h.add hok.1 hok.2
  | prependDir dir => exact h.prependDir dir
  | removeDir dir =>
    show Consistent (removeDir dir s)
    unfold removeDir
    dsimp only
    split
    · refine consistent_rebuild ?_ ?_
      · intro d hd
        exact h.visible_flag d (mem_filter.mp hd).1
      · intro d hd
        exact h.hidden_flag d (mem_filter.mp hd).1
    · exact h

theorem Consistent.foldl_step (ops : List (Op C)) (h : Consistent s) (hok : RunOk env s.path ops) :
    Consistent (ops.foldl (LoadPath.step env) s) := by
  induction ops generalizing s with
  | nil => exact h
  | cons op ops ih =>
    refine ih (h.step hok.1) ?_
    rw [path_step]
    exact hok.2

theorem path_run (env : Env) (ops : List (Op C)) : (run env ops).path = pathOf env ops := by
  unfold run pathOf
  suffices h : ∀ s : State C, (ops.foldl (step env) s).path = ops.foldl (Path.step env) s.path from
    h reset
  induction ops with
  | nil => exact fun _ => rfl
  | cons op ops ih =>
    intro s
    rw [foldl_cons, foldl_cons, ih, path_step]

/-! ## The lookups after a run -/

/-- The cached lookups of `fn` answer from the load path `p`, and ask the callback when no
directory of `p` has the file. -/
def LookupOk (env : Env) (meaning : CallbackMeaning C) (p : Path) (s : State C) (fn : Bytes) :
    Prop :=
  (∃ answer, Answers id p.visible p.hidden fn answer ∧
    find env meaning fn s =
      match answer with
      | some (file, _) => (some file, s)
      | none => runCallback meaning Dir.find fn s) ∧
  (∃ answer, Answers normalizedUnitFilename p.visible p.hidden (normalizedUnitFilename fn) answer ∧
    findNormalizedWithVisibility env meaning fn s =
      match answer with
      | some answer => (some answer, s)
      | none =>
        let (file, s) := runCallback meaning Dir.findNormalized (normalizedUnitFilename fn) s
        (file.map fun file => (file, .visible), s))

theorem Consistent.lookupOk (h : Consistent s) (hi : env.interactive = false)
    (meaning : CallbackMeaning C) {fn : Bytes} (hfn : isBasename fn = true) :
    LookupOk env meaning s.path s fn := by
  have hcached : (isBasename fn && !env.interactive) = true := by simp [hfn, hi]
  constructor
  · refine ⟨_, answers_findFileInCache h.visible h.hidden fn, ?_⟩
    rw [find, if_pos hcached]
    cases findFileInCache fn s.visibleFiles s.hiddenFiles <;> rfl
  · refine ⟨_, answers_findFileInCache h.visibleUncap h.hiddenUncap _, ?_⟩
    rewrite [findNormalizedWithVisibility, if_pos hcached]
    cases findFileInCache (normalizedUnitFilename fn) s.visibleFilesUncap s.hiddenFilesUncap <;> rfl

/-- **In every run without a clash, the cached lookups answer from the load path that the
operations describe.** -/
theorem lookup_of_run (env : Env) (hi : env.interactive = false) (meaning : CallbackMeaning C)
    (ops : List (Op C)) (hok : RunOk env .empty ops) (fn : Bytes) (hfn : isBasename fn = true) :
    LookupOk env meaning (pathOf env ops) (run env ops) fn := by
  have hc : Consistent (run env ops) := consistent_reset.foldl_step ops hok
  rw [← path_run]
  exact hc.lookupOk hi meaning hfn

/-- Directories `1` and `2`, both with the file `a`. -/
def twoDirs : Env where
  readdir := fun dir => if dir = [49] ∨ dir = [50] then some [[97]] else none
  fileExists := fun _ => false
  interactive := false

/-- Directory `1`, hidden or not, and then directory `2`, hidden. -/
def addTwo (hidden : Bool) : List (Op Bytes) := [.addDir hidden [49], .addDir true [50]]

/-- A callback that is a fixed file name. -/
def constantCallback : CallbackMeaning Bytes := fun c _ _ s => (some c, s)

theorem lookup_of_run_twoDirs :
    LookupOk twoDirs constantCallback (pathOf twoDirs (addTwo false)) (run twoDirs (addTwo false))
      [97] := by
  have hno : ∀ key : Bytes → Bytes,
      ¬ Clash key (pathOf twoDirs [(.addDir false [49] : Op Bytes)])
        (Dir.create twoDirs true [50]) := by
    rintro key ⟨-, before, base, after, hsplit, -, hmiss⟩
    -- the visible directory has every file of the hidden one
    have hmem : base ∈ (Dir.create twoDirs true [50]).files := by simp [hsplit]
    exact hmiss _ (mem_singleton.mpr rfl) base hmem rfl
  refine lookup_of_run twoDirs rfl _ (addTwo false) ⟨⟨?_, ?_⟩, ⟨hno id, hno _⟩, trivial⟩ [97] rfl
  · exact fun h => Bool.false_ne_true h.1
  · exact fun h => Bool.false_ne_true h.1

/-- Two hidden directories with a common file: it is found in the second one, and visible. -/
theorem two_hidden_dirs_visible :
    (findNormalizedWithVisibility twoDirs constantCallback [97] (run twoDirs (addTwo true))).1 =
        some (Filename.concat [50] [97], .visible) ∧
    (find twoDirs constantCallback [97] (run twoDirs (addTwo true))).1 =
        some (Filename.concat [50] [97]) ∧
    ¬ LookupOk twoDirs constantCallback (pathOf twoDirs (addTwo true))
      (run twoDirs (addTwo true)) [97] := by
  refine ⟨rfl, rfl, ?_⟩
  rintro ⟨-, answer, hanswer, hfind⟩
  -- the answer says Visible, but no directory of the path is visible
  cases answer with
  | none => cases congrArg Prod.fst hfind
  | some answer =>
    cases congrArg Prod.fst hfind
    refine FromFirst.not_misses hanswer ?_
    intro d hd
    cases hd

end TravLang.LoadPath
