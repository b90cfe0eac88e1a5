import TravLang.Utils.LoadPath.Lookup

/-!
# Removing a directory from the load path

`remove_dir` empties the module with `reset` and enters the other directories again. The callback
for missing files is emptied as well, and is not put back.
-/

namespace TravLang.LoadPath

open List

variable {C : Type} {hidden : Bool} {env : Env} {dirs : List Dir}

/-- The states reached by `init` and `prepend_dir`. -/
inductive Prepared (env : Env) : State C → Prop where
  | init (autoInclude : Callback C) (visible hidden : List Bytes) :
      Prepared env (init env autoInclude visible hidden)
  | prependDir {s : State C} (hidden : Bool) (path : Bytes) :
      Prepared env s → Prepared env (prependDir (Dir.create env hidden path) s)

/-- Directories as `Dir.create` makes them. -/
def Created (env : Env) (hidden : Bool) (dirs : List Dir) : Prop :=
  ∀ d ∈ dirs, d = Dir.create env hidden d.path

theorem Created.hidden_eq (h : Created env hidden dirs) : ∀ d ∈ dirs, d.hidden = hidden := by
  intro d hd
  rw [h d hd]
  rfl

/-- Reading the directories of a path again gives the same directories. -/
theorem Created.map_create (h : Created env hidden dirs) (dir : Bytes) :
    ((((dirs.map Dir.path).reverse.filter fun p => p ≠ dir).map (Dir.create env hidden)).reverse) =
      dirs.filter fun d => d.path ≠ dir := by
  rw [filter_reverse, map_reverse, reverse_reverse, filter_map, map_map]
  refine (map_congr_left fun d hd => ?_).trans (map_id _)
  exact (h d (mem_filter.mp hd).1).symm

theorem init_eq_cached (env : Env) (autoInclude : Callback C) {visible hidden : List Dir}
    (hv : Created env false visible) (hh : Created env true hidden) (dir : Bytes) :
    init env autoInclude ((visible.map Dir.path).reverse.filter fun p => p ≠ dir)
        ((hidden.map Dir.path).reverse.filter fun p => p ≠ dir) =
      cached autoInclude (visible.filter fun d => d.path ≠ dir)
        (hidden.filter fun d => d.path ≠ dir) := by
  rw [init_eq_rebuild, hv.map_create, hh.map_create, rebuild_eq_cached]
  · rfl
  · exact fun d hd => hv.hidden_eq d (mem_filter.mp hd).1
  · exact fun d hd => hh.hidden_eq d (mem_filter.mp hd).1

/-- **The tables of a state are those of its path**, whatever has been put in front of it. -/
theorem Prepared.eq_cached {s : State C} (h : Prepared env s) :
    s = cached s.autoIncludeCallback s.visibleDirs s.hiddenDirs ∧
      Created env false s.visibleDirs ∧ Created env true s.hiddenDirs := by
  induction h with
  | init autoInclude visible hidden =>
    have hcreated : ∀ (flag : Bool) (paths : List Bytes),
        Created env flag (paths.map (Dir.create env flag)).reverse := by
      intro flag paths d hd
      obtain ⟨p, -, rfl⟩ := mem_map.mp (mem_reverse.mp hd)
      rfl
    rw [init_eq_rebuild, rebuild_eq_cached (hcreated _ _).hidden_eq (hcreated _ _).hidden_eq]
    exact ⟨rfl, hcreated _ _, hcreated _ _⟩
  | @prependDir s hidden path _ ih =>
    obtain ⟨hs, hv, hh⟩ := ih
    have hlast : ∀ {flag : Bool} {dirs : List Dir}, Created env flag dirs →
        Created env flag (dirs ++ [Dir.create env flag path]) := by
      intro flag dirs hdirs
      exact forall_mem_append.mpr ⟨hdirs, forall_mem_singleton.mpr rfl⟩
    rw [LoadPath.prependDir, prependAdd_eq, hs]
    cases hidden with
    | false => exact ⟨by simp [cached, tableOf, Dir.create, State.onTables], hlast hv, hh⟩
    | true => exact ⟨by simp [cached, tableOf, Dir.create, State.onTables], hv, hlast hh⟩

theorem length_filter_path (dirs : List Dir) (dir : Bytes) :
    (dirs.filter fun d => d.path ≠ dir).length = dirs.length ↔
      dir ∉ (dirs.map Dir.path).reverse := by
  rw [length_filter_eq_length_iff, mem_reverse, mem_map]
  simp

/-- **`remove_dir` is `init` on the other directories, except for the callback**: the two states
agree once the callback is put back, and agree as they are exactly if there is no callback or the
directory is not in the path. -/
theorem removeDir_eq_init {env : Env} {s : State C} (h : Prepared env s) (dir : Bytes) :
    { removeDir dir s with autoIncludeCallback := s.autoIncludeCallback } =
      init env s.autoIncludeCallback ((getVisiblePathList s).filter fun p => p ≠ dir)
        ((getHiddenPathList s).filter fun p => p ≠ dir) ∧
    (removeDir dir s =
        init env s.autoIncludeCallback ((getVisiblePathList s).filter fun p => p ≠ dir)
          ((getHiddenPathList s).filter fun p => p ≠ dir) ↔
      s.autoIncludeCallback = .noAutoInclude ∨ dir ∉ getPathList s) := by
  obtain ⟨hs, hv, hh⟩ := h.eq_cached
  rw [getPathList, mem_append, not_or, getVisiblePathList, getHiddenPathList,
    init_eq_cached env _ hv hh, ← length_filter_path, ← length_filter_path]
  by_cases hsame : (s.visibleDirs.filter fun d => d.path ≠ dir).length = s.visibleDirs.length ∧
      (s.hiddenDirs.filter fun d => d.path ≠ dir).length = s.hiddenDirs.length
  · have hremove : removeDir dir s = s := by
      rw [removeDir, if_neg (not_or.mpr ⟨not_not_intro hsame.1, not_not_intro hsame.2⟩)]
    rw [hremove, removeDir_eq_self_of_length hsame.1, removeDir_eq_self_of_length hsame.2]
    exact ⟨hs, fun _ => .inr ⟨rfl, rfl⟩, fun _ => hs⟩
  · have hremove : removeDir dir s = cached .noAutoInclude
        (s.visibleDirs.filter fun d => d.path ≠ dir)
        (s.hiddenDirs.filter fun d => d.path ≠ dir) := by
      rw [removeDir, if_pos (Decidable.not_and_iff_not_or_not.mp hsame)]
      exact rebuild_eq_cached (fun d hd => hv.hidden_eq d (mem_filter.mp hd).1)
        (fun d hd => hh.hidden_eq d (mem_filter.mp hd).1)
    rw [hremove]
    exact ⟨rfl, fun heq => .inl (congrArg State.autoIncludeCallback heq).symm,
      fun hcase => by rw [hcase.resolve_right hsame]⟩

theorem removeDir_eq_init_two :
    removeDir [49] (init twoDirs (.noAutoInclude : Callback Bytes) [[49], [50]] [[49]]) =
      init twoDirs .noAutoInclude [[50]] [] :=
  (removeDir_eq_init (Prepared.init .noAutoInclude [[49], [50]] [[49]]) [49]).2.mpr (.inl rfl)

/-- The callback answers for a missing file before a directory is removed, and would do so after
`init` on the rest of the path, but does not after `remove_dir`. -/
theorem removeDir_loses_callback :
    let s := init twoDirs (.autoInclude [99]) [[49]] []
    Prepared twoDirs s ∧ (find twoDirs constantCallback [98] s).1 = some [99] ∧
      (find twoDirs constantCallback [98] (init twoDirs s.autoIncludeCallback [] [])).1 =
        some [99] ∧
      (find twoDirs constantCallback [98] (removeDir [49] s)).1 = none :=
  ⟨.init _ _ _, rfl, rfl, rfl⟩

end TravLang.LoadPath
