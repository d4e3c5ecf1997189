import BrBackup.HandleFineGrained

/-! `SetStorage` and `CheckBackupStorageIsLocked`: a backup refuses a storage
that already holds one. What `storage.New` returns is a parameter, and so are
the names `metautil.MetaFile` and `metautil.LockFile`, which are not among the
sources. -/

namespace BrBackup

/-- `storage.ExternalStorage`, as far as the checks use it. -/
structure ExternalStorage where
  uri : String
  fileExists : String → Except BrError Bool
  walkDir : (String → Option BrError) → Option BrError

/-- `strings.HasSuffix`. -/
def hasSuffix (s suffix : String) : Bool := suffix.data.isSuffixOf s.data

section Check

variable (metaFile lockFile : String)

def checkBackupStorageIsLocked (s : ExternalStorage) : Option BrError :=
  match s.fileExists lockFile with
  | .error err => some (err.annotate s!"error occurred when checking {lockFile} file")
  | .ok false => none
  | .ok true =>
    let path := s.uri ++ "/" ++ lockFile
    s.walkDir fun p =>
      if hasSuffix p ".sst" then
        some (errInvalidArgument.annotate (s!"backup lock file and sst file exist in {path}, " ++
          "there are some backup files in the path already, " ++
          "please specify a correct backup directory!"))
      else none

/-- What `SetStorage` leaves in `bc` and `bc.storage`, and its error. -/
structure SetStorageResult where
  client : Client
  storage : Option ExternalStorage
  err : Option BrError

def setStorage (newStorage : StorageBackend → Except BrError ExternalStorage) (bc : Client)
    (backend : StorageBackend) : SetStorageResult :=
  match newStorage backend with
  | .error err => ⟨bc, none, some err⟩
  | .ok s =>
    match s.fileExists metaFile with
    | .error err => ⟨bc, some s, some (err.annotate s!"error occurred when checking {metaFile} file")⟩
    | .ok true =>
      let path := s.uri ++ "/" ++ metaFile
      ⟨bc, some s, some (errInvalidArgument.annotate (s!"backup meta file exists in {path}, " ++
        "there may be some backup files in the path already, " ++
        "please specify a correct backup directory!"))⟩
    | .ok false =>
      match checkBackupStorageIsLocked lockFile s with
      | some err => ⟨bc, some s, some err⟩
      | none => ⟨{ bc with backend := some backend }, some s, none⟩

end Check

/-! ### A storage holding a list of paths -/

/-- `WalkDir` over `paths` in order, stopping at the first error of `fn`. -/
def walkPaths (fn : String → Option BrError) : List String → Option BrError
  | [] => none
  | p :: ps =>
    match fn p with
    | some err => some err
    | none => walkPaths fn ps

/-- A storage whose files are `paths`, listed by `WalkDir` in that order, and
whose `FileExists` and `WalkDir` succeed. -/
def storageOf (uri : String) (paths : List String) : ExternalStorage where
  uri := uri
  fileExists name := .ok (paths.contains name)
  walkDir fn := walkPaths fn paths

theorem walkPaths_eq_none (fn : String → Option BrError) (paths : List String) :
    walkPaths fn paths = none ↔ ∀ p ∈ paths, fn p = none := by
  induction paths with
  | nil => simp [walkPaths]
  | cons p ps ih =>
    simp only [walkPaths, List.mem_cons, forall_eq_or_imp]
    cases fn p <;> simp [ih]

theorem checkBackupStorageIsLocked_storageOf (lockFile uri : String) (paths : List String) :
    checkBackupStorageIsLocked lockFile (storageOf uri paths) = none ↔
      ¬(lockFile ∈ paths ∧ ∃ p ∈ paths, hasSuffix p ".sst" = true) := by
  unfold checkBackupStorageIsLocked
  by_cases hl : lockFile ∈ paths
  · simp [storageOf, hl, walkPaths_eq_none]
  · simp [storageOf, hl]

/-- On a storage that answers as `paths` do, `SetStorage` returns nil exactly
when the paths hold no `backupmeta` and do not hold both the lock file and an
`.sst` file, and only then sets `bc.backend`. -/
theorem setStorage_storageOf (metaFile lockFile : String)
    (newStorage : StorageBackend → Except BrError ExternalStorage) (bc : Client)
    (backend : StorageBackend) {uri : String} {paths : List String}
    (h : newStorage backend = .ok (storageOf uri paths)) :
    ((setStorage metaFile lockFile newStorage bc backend).err = none ↔
      metaFile ∉ paths ∧ ¬(lockFile ∈ paths ∧ ∃ p ∈ paths, hasSuffix p ".sst" = true)) ∧
    (setStorage metaFile lockFile newStorage bc backend).client =
      if (setStorage metaFile lockFile newStorage bc backend).err = none then
        { bc with backend := some backend } else bc := by
  have hlock := checkBackupStorageIsLocked_storageOf lockFile uri paths
  unfold setStorage
  rw [h]
  by_cases hm : metaFile ∈ paths
  · simp [storageOf, hm]
  · have hfalse : (storageOf uri paths).fileExists metaFile = .ok false := by simp [storageOf, hm]
    simp only [hfalse]
    cases hc : checkBackupStorageIsLocked lockFile (storageOf uri paths) with
    | some err => simp_all
    | none => simp_all

theorem setStorage_storageOf_locked :
    let newStorage : StorageBackend → Except BrError ExternalStorage :=
      fun _ => .ok (storageOf "local:///backup" ["LOCK", "1.sst"])
    let r := setStorage "backupmeta" "LOCK" newStorage plainClient ⟨"local:///backup"⟩
    (r.err = none ↔ "backupmeta" ∉ ["LOCK", "1.sst"] ∧
        ¬("LOCK" ∈ ["LOCK", "1.sst"] ∧ ∃ p ∈ ["LOCK", "1.sst"], hasSuffix p ".sst" = true)) ∧
      r.client = if r.err = none then { plainClient with backend := some ⟨"local:///backup"⟩ }
        else plainClient :=
  setStorage_storageOf "backupmeta" "LOCK" (fun _ => .ok (storageOf "local:///backup" ["LOCK", "1.sst"]))
    plainClient ⟨"local:///backup"⟩ rfl

end BrBackup
