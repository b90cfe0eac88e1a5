import TravLang.Stdlib.Filename

/-!
# The load path (`utils/load_path.ml`)

The references of the module are the fields of `State`. A hash table from names to full file
names is only ever used through `find`, `mem`, `replace` and `clear`, so it is a partial function.
The lists of directories are in reverse order, as in the source.

What the module asks of the system (`Sys.readdir`, `Sys.file_exists`, `Sys.interactive`) is in
`Env`, which does not change. The callback for missing files is a value of type `C`; it may change
the load path, so its meaning is a function on states.
-/

namespace TravLang.LoadPath

/-- What the module asks of the system. `readdir` gives `none` for `Sys_error`. -/
structure Env where
  readdir : Bytes → Option (List Bytes)
  fileExists : Bytes → Bool
  interactive : Bool

/-- `Misc.normalized_unit_filename`. -/
def normalizedUnitFilename (fn : Bytes) : Bytes := uncapitalizeAscii fn

/-! ## Directories -/

structure Dir where
  path : Bytes
  files : List Bytes
  hidden : Bool
  deriving DecidableEq

namespace Dir

def find (t : Dir) (fn : Bytes) : Option Bytes :=
  if t.files.contains fn then some (Filename.concat t.path fn) else none

def findNormalized (t : Dir) (fn : Bytes) : Option Bytes :=
  let fn := normalizedUnitFilename fn
  t.files.findSome? fun base =>
    if normalizedUnitFilename base = fn then some (Filename.concat t.path base) else none

def readdirCompat (env : Env) (dir : Bytes) : List Bytes :=
  (env.readdir (if dir = [] then Filename.currentDirName else dir)).getD []

def create (env : Env) (hidden : Bool) (path : Bytes) : Dir :=
  { path, files := readdirCompat env path, hidden }

end Dir

/-! ## The state -/

/-- A table from names to full file names. -/
abbrev Registry := Bytes → Option Bytes

namespace Registry

def empty : Registry := fun _ => none

def mem (t : Registry) (base : Bytes) : Bool := (t base).isSome

def replace (t : Registry) (base fn : Bytes) : Registry :=
  fun b => if b = base then some fn else t b

@[simp] theorem replace_self (t : Registry) (base fn : Bytes) : t.replace base fn base = some fn :=
  if_pos rfl

theorem replace_of_ne (t : Registry) {base b : Bytes} (fn : Bytes) (h : b ≠ base) :
    t.replace base fn b = t b := if_neg h

end Registry

inductive Callback (C : Type) where
  | noAutoInclude
  | autoInclude (c : C)

structure State (C : Type) where
  visibleFiles : Registry
  visibleFilesUncap : Registry
  hiddenFiles : Registry
  hiddenFilesUncap : Registry
  visibleDirs : List Dir
  hiddenDirs : List Dir
  autoIncludeCallback : Callback C

variable {C : Type}

/-- The state in which the program starts, and which `reset` restores. -/
def reset : State C where
  visibleFiles := .empty
  visibleFilesUncap := .empty
  hiddenFiles := .empty
  hiddenFilesUncap := .empty
  visibleDirs := []
  hiddenDirs := []
  autoIncludeCallback := .noAutoInclude

def getVisiblePathList (s : State C) : List Bytes := (s.visibleDirs.map Dir.path).reverse

def getHiddenPathList (s : State C) : List Bytes := (s.hiddenDirs.map Dir.path).reverse

def getPathList (s : State C) : List Bytes := getVisiblePathList s ++ getHiddenPathList s

/-! ## Changes of the path -/

/-- One step of the loop of `prepend_add`. -/
def prependFile (dir : Dir) (s : State C) (base : Bytes) : State C :=
  let fn := Filename.concat dir.path base
  let filename := normalizedUnitFilename base
  if dir.hidden then
    { s with
      hiddenFiles := s.hiddenFiles.replace base fn
      hiddenFilesUncap := s.hiddenFilesUncap.replace filename fn }
  else
    { s with
      visibleFiles := s.visibleFiles.replace base fn
      visibleFilesUncap := s.visibleFilesUncap.replace filename fn }

def prependAdd (s : State C) (dir : Dir) : State C := dir.files.foldl (prependFile dir) s

def init (env : Env) (autoInclude : Callback C) (visible hidden : List Bytes) : State C :=
  let s : State C :=
    { reset with
      visibleDirs := (visible.map (Dir.create env false)).reverse
      hiddenDirs := (hidden.map (Dir.create env true)).reverse }
  let s := s.hiddenDirs.foldl prependAdd s
  let s := s.visibleDirs.foldl prependAdd s
  { s with autoIncludeCallback := autoInclude }

def removeDir (dir : Bytes) (s : State C) : State C :=
  let visible := s.visibleDirs.filter fun d => d.path ≠ dir
  let hidden := s.hiddenDirs.filter fun d => d.path ≠ dir
  if visible.length ≠ s.visibleDirs.length ∨ hidden.length ≠ s.hiddenDirs.length then
    let s : State C := { reset with visibleDirs := visible, hiddenDirs := hidden }
    let s := hidden.foldl prependAdd s
    visible.foldl prependAdd s
  else
    s

/-- The local function `update` of `add`, on the two tables it is applied to. -/
def update (hidden : Bool) (base fn : Bytes) (tables : Registry × Registry) :
    Registry × Registry :=
  let (visibleFiles, hiddenFiles) := tables
  if hidden && !hiddenFiles.mem base then
    (visibleFiles, hiddenFiles.replace base fn)
  else if !visibleFiles.mem base then
    (visibleFiles.replace base fn, hiddenFiles)
  else
    (visibleFiles, hiddenFiles)

/-- One step of the loop of `add`. -/
def addFile (dir : Dir) (s : State C) (base : Bytes) : State C :=
  let fn := Filename.concat dir.path base
  let (visibleFiles, hiddenFiles) := update dir.hidden base fn (s.visibleFiles, s.hiddenFiles)
  let ubase := normalizedUnitFilename base
  let (visibleFilesUncap, hiddenFilesUncap) :=
    update dir.hidden ubase fn (s.visibleFilesUncap, s.hiddenFilesUncap)
  { s with visibleFiles, hiddenFiles, visibleFilesUncap, hiddenFilesUncap }

def add (dir : Dir) (s : State C) : State C :=
  let s := dir.files.foldl (addFile dir) s
  if dir.hidden then
    { s with hiddenDirs := dir :: s.hiddenDirs }
  else
    { s with visibleDirs := dir :: s.visibleDirs }

def appendDir (dir : Dir) (s : State C) : State C := add dir s

def addDir (env : Env) (hidden : Bool) (dir : Bytes) (s : State C) : State C :=
  add (Dir.create env hidden dir) s

def prependDir (dir : Dir) (s : State C) : State C :=
  let s := prependAdd s dir
  if dir.hidden then
    { s with hiddenDirs := s.hiddenDirs ++ [dir] }
  else
    { s with visibleDirs := s.visibleDirs ++ [dir] }

/-! ## Lookups -/

inductive Visibility where
  | visible
  | hidden
  deriving DecidableEq, Repr

/-- `none` is the exception `Not_found`. -/
def findFileInCache (fn : Bytes) (visibleFiles hiddenFiles : Registry) :
    Option (Bytes × Visibility) :=
  match visibleFiles fn with
  | some file => some (file, .visible)
  | none => (hiddenFiles fn).map fun file => (file, .hidden)

def isBasename (fn : Bytes) : Bool := Filename.basename fn = fn

/-- `Misc.find_in_path`. -/
def findInPath (env : Env) (path : List Bytes) (name : Bytes) : Option Bytes :=
  if !Filename.isImplicit name then
    if env.fileExists name then some name else none
  else
    (path.map fun dir => Filename.concat dir name).find? env.fileExists

/-- `Misc.find_in_path_normalized`. -/
def findInPathNormalized (env : Env) (path : List Bytes) (name : Bytes) : Option Bytes :=
  path.findSome? fun dir =>
    let ufullname := Filename.concat dir (normalizedUnitFilename name)
    let fullname := Filename.concat dir name
    if env.fileExists ufullname then some ufullname
    else if env.fileExists fullname then some fullname
    else none

/-- What a callback does with a function on directories and a name. -/
abbrev CallbackMeaning (C : Type) :=
  C → (Dir → Bytes → Option Bytes) → Bytes → State C → Option Bytes × State C

def runCallback (meaning : CallbackMeaning C) (findInDir : Dir → Bytes → Option Bytes)
    (fn : Bytes) (s : State C) : Option Bytes × State C :=
  match s.autoIncludeCallback with
  | .noAutoInclude => (none, s)
  | .autoInclude c => meaning c findInDir fn s

def find (env : Env) (meaning : CallbackMeaning C) (fn : Bytes) (s : State C) :
    Option Bytes × State C :=
  let found :=
    if isBasename fn && !env.interactive then
      (findFileInCache fn s.visibleFiles s.hiddenFiles).map Prod.fst
    else
      findInPath env (getPathList s) fn
  match found with
  | some file => (some file, s)
  | none => runCallback meaning Dir.find fn s

def findNormalizedWithVisibility (env : Env) (meaning : CallbackMeaning C) (fn : Bytes)
    (s : State C) : Option (Bytes × Visibility) × State C :=
  let found :=
    if isBasename fn && !env.interactive then
      findFileInCache (normalizedUnitFilename fn) s.visibleFilesUncap s.hiddenFilesUncap
    else
      match findInPathNormalized env (getVisiblePathList s) fn with
      | some file => some (file, .visible)
      | none => (findInPathNormalized env (getHiddenPathList s) fn).map fun file => (file, .hidden)
  match found with
  | some answer => (some answer, s)
  | none =>
    let (file, s) := runCallback meaning Dir.findNormalized (normalizedUnitFilename fn) s
    (file.map fun file => (file, .visible), s)

end TravLang.LoadPath
