import BrBackup.Basic

/-! `OnBackupResponse`: the classifier mapping one response of a store to the
response to keep, a backoff in milliseconds and a fatal error. -/

namespace BrBackup

/-- `lockResolver.ResolveLocks(bo, backupTS, [lock])`: the milliseconds before
the lock expires, or an error. -/
abbrev LockResolver := Nat → LockInfo → Except BrError Int

/-- The region errors that `OnBackupResponse` ignores. -/
def RegionError.allowed (e : RegionError) : Bool :=
  e.epochNotMatch || e.notLeader || e.regionNotFound || e.serverIsBusy || e.staleCommand ||
    e.storeNotMatch || e.readIndexNotReady || e.proposalInMergingMode

/-- The three results of `OnBackupResponse`. -/
structure Classified where
  response : Option BackupResponse
  backoffMs : Nat
  err : Option BrError
  deriving DecidableEq, Repr

/-- `errors.Annotatef(berrors.ErrKVUnknown, "storeID: %d OnBackupResponse error %v", storeID, v)`,
where `detail` is fmt's rendering of `v`. -/
def kvUnknownOn (storeID : Nat) (detail : String) : BrError :=
  ⟨.kvUnknown, s!"storeID: {storeID} OnBackupResponse error {detail}"⟩

/-- `OnBackupResponse`. `isRetryableStorageError` is
`utils.MessageIsRetryableStorageError`, and `fmtDetail` and `fmtError` are what
fmt's `%v` prints for the `Detail` of a `backuppb.Error` and for the error
itself (its protobuf text); none of them is among the sources here. -/
def onBackupResponse (isRetryableStorageError : String → Bool) (fmtDetail : ErrorDetail → String)
    (fmtError : PbError → String) (storeID backupTS : Nat) (lockResolver : LockResolver)
    (resp : BackupResponse) : Classified :=
  match resp.error with
  | none => ⟨some resp, 0, none⟩
  | some pe =>
    match pe.detail with
    | some (.kvError kv) =>
      match kv.locked with
      | some lockErr =>
        match lockResolver backupTS lockErr with
        | .error e => ⟨none, 0, some e⟩
        | .ok msBeforeExpired => ⟨none, if 0 < msBeforeExpired then msBeforeExpired.toNat else 0, none⟩
      | none => ⟨none, 0, some (kvUnknownOn storeID (fmtDetail (.kvError kv)))⟩
    | some (.regionError regionErr) =>
      if regionErr.allowed then ⟨none, 1000, none⟩
      else ⟨none, 0, some (kvUnknownOn storeID (fmtDetail (.regionError regionErr)))⟩
    | some (.clusterIdError _) =>
      ⟨none, 0, some ⟨.kvClusterIDMismatch, s!"{fmtError pe} on storeID: {storeID}"⟩⟩
    | none =>
      if isRetryableStorageError pe.msg then ⟨none, 3000, none⟩
      else ⟨none, 0, some ⟨.kvUnknown, s!"{fmtError pe} on storeID: {storeID}"⟩⟩

section Spec

variable {isRetryableStorageError : String → Bool} {fmtDetail : ErrorDetail → String}
  {fmtError : PbError → String} {storeID backupTS : Nat}
  {lockResolver : LockResolver} {resp : BackupResponse}

/-- A response is kept only when it carries no error, and then unchanged. -/
theorem onBackupResponse_response_eq {r : BackupResponse}
    (h : (onBackupResponse isRetryableStorageError fmtDetail fmtError storeID backupTS lockResolver
      resp).response = some r) : r = resp ∧ resp.error = none := by
  unfold onBackupResponse at h
  split at h
  · exact ⟨(Option.some.inj h).symm, ‹_›⟩
  · split at h
    · split at h
      · split at h <;> cases h
      · cases h
    · split at h <;> cases h
    · cases h
    · split at h <;> cases h

/-- A dropped response without a fatal error and without a backoff is a lock
whose resolution left no time before its expiry. -/
theorem onBackupResponse_zero_drop
    (h : onBackupResponse isRetryableStorageError fmtDetail fmtError storeID backupTS lockResolver resp =
      ⟨none, 0, none⟩) :
    ∃ pe lock ms, resp.error = some pe ∧ pe.detail = some (.kvError ⟨some lock⟩) ∧
      lockResolver backupTS lock = .ok ms ∧ ms ≤ 0 := by
  unfold onBackupResponse at h
  split at h
  · cases h
  · rename_i pe hpe
    split at h
    · rename_i kv hkv
      split at h
      · rename_i lock hlock
        split at h
        · cases h
        · rename_i ms hms
          refine ⟨pe, lock, ms, hpe, ?_, hms, ?_⟩
          · obtain ⟨l⟩ := kv
            simp only at hlock
            rw [hkv, hlock]
          · simp only [Classified.mk.injEq, true_and, and_true] at h
            split at h
            · omega
            · exact not_lt.mp ‹_›
      · cases h
    · split at h <;> cases h
    · cases h
    · split at h <;> cases h

end Spec

end BrBackup
