import BrBackup.OnBackupResponse
import BrBackup.SendBackupProtocol

/-! `findRegionLeader` and `handleFineGrained`: one hole left by the push-down
phase is backed up again from the leader of the region holding its start key.
What PD and the stores answer is a parameter of the model. -/

namespace BrBackup

structure Peer where
  storeId : Nat
  deriving DecidableEq, Repr

structure Region where
  leader : Option Peer
  deriving DecidableEq, Repr

/-- The fields of `backup.Client` that the model reads, with the library
helpers it calls, which are not among the sources here: `codec.EncodeBytes`,
`utils.MessageIsRetryableStorageError`, and what fmt's `%v` prints for the
`Detail` of a `backuppb.Error` and for the error itself. `gcTTL` is a
`time.Duration` in nanoseconds. -/
structure Client where
  clusterID : Nat
  curAPIVer : ApiVersion
  backend : Option StorageBackend
  gcTTL : Int
  encodeBytes : Key → Key
  isRetryableStorageError : String → Bool
  fmtDetail : ErrorDetail → String
  fmtError : PbError → String

/-- The request parameters that `fineGrainedBackup` receives and passes on to
every `handleFineGrained` call. -/
structure FineGrainedParams where
  dstAPIVersion : ApiVersion
  lastBackupTS : Nat
  backupTS : Nat
  compressType : CompressionType
  compressionLevel : Int
  rateLimit : Nat
  concurrency : Nat
  isRawKv : Bool
  cipherInfo : Option CipherInfo
  deriving DecidableEq, Repr

/-- What PD, the connection manager and the stores answer during one
`handleFineGrained` call: `getRegion key i` is the `i`-th answer of
`GetRegion(key)`, `backup s req k` the outcome of attempt `k` of the stream to
store `s`, and `resetBackupClient s k` the error of the reset after it. -/
structure StoreEnv where
  getRegion : Key → Nat → Except BrError (Option Region)
  getBackupClient : Nat → Option BrError
  backup : Nat → BackupRequest → Nat → Attempt
  resetBackupClient : Nat → Nat → Option BrError
  lockResolver : LockResolver

/-- The loop of `findRegionLeader`, from lookup `i` with `left` lookups remaining. -/
def findLeaderFrom (getRegion : Key → Nat → Except BrError (Option Region)) (key : Key) :
    Nat → Nat → Except BrError Peer
  | 0, _ => .error ⟨.backupNoLeader, "can not find leader"⟩
  | left + 1, i =>
    match getRegion key i with
    | .ok (some ⟨some leader⟩) => .ok leader
    | _ => findLeaderFrom getRegion key left (i + 1)

def findRegionLeader (bc : Client) (getRegion : Key → Nat → Except BrError (Option Region))
    (key : Key) (needEncodeKey : Bool) : Except BrError Peer :=
  findLeaderFrom getRegion (if needEncodeKey then bc.encodeBytes key else key) 5 0

section FindLeader

variable (getRegion : Key → Nat → Except BrError (Option Region)) (key : Key)

theorem findLeaderFrom_eq_ok (leader : Peer) (left i : Nat) :
    findLeaderFrom getRegion key left i = .ok leader ↔
      ∃ j, i ≤ j ∧ j < i + left ∧ getRegion key j = .ok (some ⟨some leader⟩) ∧
        ∀ j', i ≤ j' → j' < j → ∀ q, getRegion key j' ≠ .ok (some ⟨some q⟩) := by
  induction left generalizing i with
  | zero => simp only [findLeaderFrom, reduceCtorEq, false_iff]; omega
  | succ left ih =>
    by_cases hi : ∃ q, getRegion key i = .ok (some ⟨some q⟩)
    · obtain ⟨q, hq⟩ := hi
      simp only [findLeaderFrom, hq, Except.ok.injEq]
      constructor
      · rintro rfl
        exact ⟨i, le_rfl, by omega, hq, fun j' h1 h2 => absurd h2 (by omega)⟩
      · rintro ⟨j, hij, -, hj, hfirst⟩
        rcases Nat.eq_or_lt_of_le hij with rfl | hlt
        · simpa [hq] using hj
        · exact absurd hq (hfirst i le_rfl hlt q)
    · push_neg at hi
      have hstep : findLeaderFrom getRegion key (left + 1) i =
          findLeaderFrom getRegion key left (i + 1) := by
        rw [findLeaderFrom.eq_2]
        split
        · exact absurd ‹_› (hi _)
        · rfl
      rw [hstep, ih]
      constructor
      · rintro ⟨j, hij, hj, hget, hfirst⟩
        refine ⟨j, by omega, by omega, hget, fun j' h1 h2 q => ?_⟩
        rcases Nat.eq_or_lt_of_le h1 with rfl | hlt
        · exact hi q
        · exact hfirst j' hlt h2 q
      · rintro ⟨j, hij, hj, hget, hfirst⟩
        rcases Nat.eq_or_lt_of_le hij with rfl | hlt
        · exact absurd hget (hi leader)
        · exact ⟨j, hlt, by omega, hget, fun j' h1 h2 => hfirst j' (by omega) h2⟩

theorem findLeaderFrom_error {e : BrError} {left i : Nat}
    (h : findLeaderFrom getRegion key left i = .error e) :
    e = ⟨.backupNoLeader, "can not find leader"⟩ := by
  induction left generalizing i with
  | zero => simpa [findLeaderFrom] using h.symm
  | succ left ih =>
    unfold findLeaderFrom at h
    split at h
    · cases h
    · exact ih h

end FindLeader

/-- `findRegionLeader` looks the (encoded) key up at most five times and returns
the first leader PD names; when none of the five answers names one it fails
with `ErrBackupNoLeader`, whatever errors PD returned. -/
theorem findRegionLeader_first_leader (bc : Client)
    (getRegion : Key → Nat → Except BrError (Option Region)) (key : Key) (needEncodeKey : Bool) :
    let k := if needEncodeKey then bc.encodeBytes key else key
    (∀ leader, findRegionLeader bc getRegion key needEncodeKey = .ok leader ↔
      ∃ i < 5, getRegion k i = .ok (some ⟨some leader⟩) ∧
        ∀ j < i, ∀ q, getRegion k j ≠ .ok (some ⟨some q⟩)) ∧
    (∀ e, findRegionLeader bc getRegion key needEncodeKey = .error e →
      e = ⟨.backupNoLeader, "can not find leader"⟩) :=
  ⟨fun leader => (findLeaderFrom_eq_ok getRegion _ leader 5 0).trans
    (by simp only [Nat.zero_le, Nat.zero_add, true_and, true_implies]),
    fun _ => findLeaderFrom_error getRegion _⟩

/-- The request `handleFineGrained` sends for the hole `rg`; `Cf` is not set. -/
def fineGrainedRequest (bc : Client) (p : FineGrainedParams) (rg : Range) : BackupRequest where
  clusterId := bc.clusterID
  startKey := rg.startKey
  endKey := rg.endKey
  startVersion := p.lastBackupTS
  endVersion := p.backupTS
  storageBackend := bc.backend
  rateLimit := p.rateLimit
  concurrency := p.concurrency
  isRawKv := p.isRawKv
  cf := ""
  dstApiVersion := p.dstAPIVersion
  compressionType := p.compressType
  compressionLevel := p.compressionLevel
  cipherInfo := p.cipherInfo

/-- The variables the response callback of `handleFineGrained` updates. -/
structure CallbackState where
  backoffMill : Nat
  hasProgress : Bool
  forwarded : List BackupResponse
  deriving DecidableEq, Repr

/-- The response callback of `handleFineGrained`; `forwarded` records what it
sends on `respCh`. -/
def fineGrainedRespFn (bc : Client) (storeID backupTS : Nat) (lockResolver : LockResolver)
    (s : CallbackState) (resp : BackupResponse) : Except BrError CallbackState :=
  let c := onBackupResponse bc.isRetryableStorageError bc.fmtDetail bc.fmtError storeID backupTS
    lockResolver resp
  match c.err with
  | some err1 => .error err1
  | none => .ok ⟨max s.backoffMill c.backoffMs, true, s.forwarded ++ c.response.toList⟩

/-- What one `handleFineGrained` call does: the responses the store streamed to
its callback, those it forwards on `respCh`, in order, and its two results. -/
structure CallOutcome where
  received : List BackupResponse
  forwarded : List BackupResponse
  backoffMs : Nat
  err : Option BrError
  deriving DecidableEq, Repr

/-- The `SendBackup` call of `handleFineGrained` for the hole `rg` on store `storeID`. -/
def fineGrainedRun (bc : Client) (p : FineGrainedParams) (env : StoreEnv) (rg : Range)
    (storeID : Nat) : SendRun CallbackState :=
  sendBackup (fineGrainedRespFn bc storeID p.backupTS env.lockResolver) storeID
    (env.backup storeID (fineGrainedRequest bc p rg)) (env.resetBackupClient storeID) ⟨0, false, []⟩

def handleFineGrained (bc : Client) (p : FineGrainedParams) (env : StoreEnv) (rg : Range) :
    CallOutcome :=
  match findRegionLeader bc env.getRegion rg.startKey (!p.isRawKv || bc.curAPIVer == .v2) with
  | .error pderr => ⟨[], [], 0, some pderr⟩
  | .ok leader =>
    let storeID := leader.storeId
    match env.getBackupClient storeID with
    | some err =>
      if err.cls = .failedToConnect then ⟨[], [], 20000, none⟩
      else ⟨[], [], 0, some (err.annotate s!"failed to connect to store {storeID}")⟩
    | none =>
      let run := fineGrainedRun bc p env rg storeID
      match run.err with
      | some err =>
        if err.cls = .failedToConnect then ⟨recvsOf run.events, run.state.forwarded, 20000, none⟩
        else ⟨recvsOf run.events, run.state.forwarded, 0,
          some (err.annotate "failed to send fine-grained backup")⟩
      | none => ⟨recvsOf run.events, run.state.forwarded,
          if run.state.hasProgress then run.state.backoffMill else 10000, none⟩

/-- A response carrying a lock whose resolution left no time before it expires. -/
def ResolvedLock (lockResolver : LockResolver) (backupTS : Nat) (r : BackupResponse) : Prop :=
  ∃ pe lock ms, r.error = some pe ∧ pe.detail = some (.kvError ⟨some lock⟩) ∧
    lockResolver backupTS lock = .ok ms ∧ ms ≤ 0

section Callback

variable {bc : Client} {storeID backupTS : Nat} {lockResolver : LockResolver}

/-- Folding the callback over the responses it accepted. -/
theorem fineGrainedRespFn_foldlM {rs : List BackupResponse} {s₀ s : CallbackState}
    (h : rs.foldlM (fineGrainedRespFn bc storeID backupTS lockResolver) s₀ = .ok s) :
    s.forwarded = s₀.forwarded ++ rs.filterMap (fun r => (onBackupResponse
      bc.isRetryableStorageError bc.fmtDetail bc.fmtError storeID backupTS lockResolver r).response) ∧
    s.hasProgress = (s₀.hasProgress || !rs.isEmpty) ∧
    (s.backoffMill = 0 ↔ s₀.backoffMill = 0 ∧ ∀ r ∈ rs, (onBackupResponse
      bc.isRetryableStorageError bc.fmtDetail bc.fmtError storeID backupTS lockResolver r).backoffMs = 0) ∧
    ∀ r ∈ rs, (onBackupResponse
      bc.isRetryableStorageError bc.fmtDetail bc.fmtError storeID backupTS lockResolver r).err = none := by
  induction rs generalizing s₀ with
  | nil =>
    cases h
    simp
  | cons r rs ih =>
    simp only [List.foldlM_cons] at h
    cases hc : (onBackupResponse bc.isRetryableStorageError bc.fmtDetail bc.fmtError storeID
      backupTS lockResolver r).err with
    | some e => simp [fineGrainedRespFn, hc] at h
    | none =>
      simp only [fineGrainedRespFn, hc, except_ok_bind] at h
      obtain ⟨hf, hp, hb, he⟩ := ih h
      refine ⟨?_, ?_, ?_, ?_⟩
      · rw [hf]
        cases hr : (onBackupResponse bc.isRetryableStorageError bc.fmtDetail bc.fmtError storeID
          backupTS lockResolver r).response <;> simp [List.filterMap_cons, hr]
      · simp [hp]
      · rw [hb]
        simp [Nat.max_eq_zero_iff, and_assoc]
      · simp only [List.mem_cons, forall_eq_or_imp]
        exact ⟨hc, he⟩

/-- The callback's backoff is the largest `OnBackupResponse` asked for. -/
theorem fineGrainedRespFn_foldlM_backoff {rs : List BackupResponse} {s₀ s : CallbackState}
    (h : rs.foldlM (fineGrainedRespFn bc storeID backupTS lockResolver) s₀ = .ok s) :
    s.backoffMill = max s₀.backoffMill ((rs.map fun r => (onBackupResponse
      bc.isRetryableStorageError bc.fmtDetail bc.fmtError storeID backupTS lockResolver r).backoffMs).foldr
        max 0) := by
  induction rs generalizing s₀ with
  | nil =>
    cases h
    simp
  | cons r rs ih =>
    simp only [List.foldlM_cons] at h
    cases hc : (onBackupResponse bc.isRetryableStorageError bc.fmtDetail bc.fmtError storeID
      backupTS lockResolver r).err with
    | some e => simp [fineGrainedRespFn, hc] at h
    | none =>
      simp only [fineGrainedRespFn, hc, except_ok_bind] at h
      rw [ih h]
      simp only [List.map_cons, List.foldr_cons, max_assoc]

end Callback

/-- A call either ends before `SendBackup` with nothing received, or its
outcome is read off the `SendBackup` run it made. -/
theorem handleFineGrained_cases (bc : Client) (p : FineGrainedParams) (env : StoreEnv)
    (rg : Range) :
    ((handleFineGrained bc p env rg).received = [] ∧ (handleFineGrained bc p env rg).forwarded = [] ∧
      ((handleFineGrained bc p env rg).err ≠ none ∨
        (handleFineGrained bc p env rg).backoffMs = 20000)) ∨
    ∃ storeID attempts resetFn,
      let run := sendBackup (fineGrainedRespFn bc storeID p.backupTS env.lockResolver) storeID
        attempts resetFn ⟨0, false, []⟩
      (handleFineGrained bc p env rg).received = recvsOf run.events ∧
      (handleFineGrained bc p env rg).forwarded = run.state.forwarded ∧
      (run.err = none → (handleFineGrained bc p env rg).err = none ∧
        (handleFineGrained bc p env rg).backoffMs =
          if run.state.hasProgress then run.state.backoffMill else 10000) ∧
      (run.err ≠ none → (handleFineGrained bc p env rg).err ≠ none ∨
        (handleFineGrained bc p env rg).backoffMs = 20000) := by
  unfold handleFineGrained
  split
  · exact .inl ⟨rfl, rfl, .inl Option.noConfusion⟩
  · rename_i leader _
    dsimp only
    split
    · split
      · exact .inl ⟨rfl, rfl, .inr rfl⟩
      · exact .inl ⟨rfl, rfl, .inl Option.noConfusion⟩
    · refine .inr ⟨leader.storeId, env.backup leader.storeId (fineGrainedRequest bc p rg),
        env.resetBackupClient leader.storeId, ?_⟩
      split
      · rename_i err herr
        split
        · exact ⟨rfl, rfl, fun h => Option.noConfusion (herr.symm.trans h), fun _ => .inr rfl⟩
        · exact ⟨rfl, rfl, fun h => Option.noConfusion (herr.symm.trans h),
            fun _ => .inl Option.noConfusion⟩
      · rename_i herr
        exact ⟨rfl, rfl, fun _ => ⟨rfl, rfl⟩, fun h => absurd herr h⟩

/-- Every response a call forwards on `respCh` carries no error. -/
theorem handleFineGrained_forwarded_error (bc : Client) (p : FineGrainedParams) (env : StoreEnv)
    (rg : Range) : ∀ r ∈ (handleFineGrained bc p env rg).forwarded, r.error = none := by
  intro r hr
  rcases handleFineGrained_cases bc p env rg with
    ⟨-, hf, -⟩ | ⟨storeID, attempts, resetFn, -, hf, -, -⟩
  · simp [hf] at hr
  · obtain ⟨rs, -, hfold, -⟩ := backupLoop_state (fineGrainedRespFn bc storeID p.backupTS
      env.lockResolver) storeID attempts resetFn backupRetryTimes 0 ⟨0, false, []⟩
    rw [hf, sendBackup, (fineGrainedRespFn_foldlM hfold).1, List.nil_append] at hr
    obtain ⟨r₀, -, hr₀⟩ := List.mem_filterMap.mp hr
    obtain ⟨rfl, h⟩ := onBackupResponse_response_eq hr₀
    exact h

/-- A call that returns neither an error nor a backoff and forwards nothing was
streamed at least one response, and every one was a lock resolved with no time
left before it expires. -/
theorem handleFineGrained_zero_backoff (bc : Client) (p : FineGrainedParams) (env : StoreEnv)
    (rg : Range) (herr : (handleFineGrained bc p env rg).err = none)
    (hms : (handleFineGrained bc p env rg).backoffMs = 0)
    (hfw : (handleFineGrained bc p env rg).forwarded = []) :
    (handleFineGrained bc p env rg).received ≠ [] ∧
      ∀ r ∈ (handleFineGrained bc p env rg).received, ResolvedLock env.lockResolver p.backupTS r := by
  rcases handleFineGrained_cases bc p env rg with
    ⟨-, -, h | h⟩ | ⟨storeID, attempts, resetFn, hrecv, hf, hok, hfail⟩
  · exact absurd herr h
  · omega
  · by_cases hrun : (sendBackup (fineGrainedRespFn bc storeID p.backupTS env.lockResolver) storeID
        attempts resetFn ⟨0, false, []⟩).err = none
    · have hb := (hok hrun).2
      have hno : ∀ e, .respFnFailed e ∉ (sendBackup (fineGrainedRespFn bc storeID p.backupTS
          env.lockResolver) storeID attempts resetFn ⟨0, false, []⟩).events := fun e he =>
        Option.some_ne_none e ((backupLoop_respFnStop _ _ _ _ _ _ _ e he).1.symm.trans hrun)
      obtain ⟨rs, -, hfold, hall⟩ := backupLoop_state (fineGrainedRespFn bc storeID p.backupTS
        env.lockResolver) storeID attempts resetFn backupRetryTimes 0 ⟨0, false, []⟩
      rw [hall hno] at hfold
      obtain ⟨hfw', hp, hbz, herrs⟩ := fineGrainedRespFn_foldlM hfold
      rw [← sendBackup, ← hrecv] at hfw' hp hbz herrs
      rw [hf] at hfw
      have hprog : (sendBackup (fineGrainedRespFn bc storeID p.backupTS env.lockResolver) storeID
          attempts resetFn ⟨0, false, []⟩).state.hasProgress = true := by
        by_contra hc
        simp [hc] at hb
        omega
      simp only [hprog, if_true] at hb
      refine ⟨by simpa using hp.symm.trans hprog, fun r hr => ?_⟩
      have hzero := (hbz.mp (hb.symm.trans hms)).2 r hr
      have hnone : (onBackupResponse bc.isRetryableStorageError bc.fmtDetail bc.fmtError storeID
          p.backupTS env.lockResolver r).response = none := by
        rw [hfw, List.nil_append, eq_comm, List.filterMap_eq_nil_iff] at hfw'
        exact hfw' r hr
      exact onBackupResponse_zero_drop (by rw [← hnone, ← hzero, ← herrs r hr])
    · rcases hfail hrun with h | h
      · exact absurd herr h
      · omega

/-- A `SendBackup` that returns nil has folded `respFn` over every response it received. -/
theorem sendBackup_foldlM_of_ok {σ : Type} (respFn : σ → BackupResponse → Except BrError σ)
    (storeID : Nat) (attempts : Nat → Attempt) (resetFn : Nat → Option BrError) (st : σ)
    (h : (sendBackup respFn storeID attempts resetFn st).err = none) :
    (recvsOf (sendBackup respFn storeID attempts resetFn st).events).foldlM respFn st =
      .ok (sendBackup respFn storeID attempts resetFn st).state := by
  obtain ⟨rs, -, hfold, hall⟩ :=
    backupLoop_state respFn storeID attempts resetFn backupRetryTimes 0 st
  rwa [hall fun e he => Option.some_ne_none e
    ((backupLoop_respFnStop _ _ _ _ _ _ _ e he).1.symm.trans h)] at hfold

/-- The backoff of a call that returns no error, with its cause. The call found
the leader of `rg`'s region. It backs off 20 s when the connection to the leader's
store, or its `SendBackup` run, failed with a connection error. It backs off 10 s
when the run streamed no response. Otherwise it takes the largest backoff that
`OnBackupResponse` asked for among the responses streamed. -/
theorem handleFineGrained_backoff (bc : Client) (p : FineGrainedParams) (env : StoreEnv)
    (rg : Range) (herr : (handleFineGrained bc p env rg).err = none) :
    ∃ leader, findRegionLeader bc env.getRegion rg.startKey (!p.isRawKv || bc.curAPIVer == .v2) =
        .ok leader ∧
      ((∃ e, env.getBackupClient leader.storeId = some e ∧ e.cls = .failedToConnect ∧
          (handleFineGrained bc p env rg).backoffMs = 20000) ∨
        (env.getBackupClient leader.storeId = none ∧
          ((∃ e, (fineGrainedRun bc p env rg leader.storeId).err = some e ∧
              e.cls = .failedToConnect ∧ (handleFineGrained bc p env rg).backoffMs = 20000) ∨
            ((fineGrainedRun bc p env rg leader.storeId).err = none ∧
              (handleFineGrained bc p env rg).received = [] ∧
              (handleFineGrained bc p env rg).backoffMs = 10000) ∨
            ((fineGrainedRun bc p env rg leader.storeId).err = none ∧
              (handleFineGrained bc p env rg).received ≠ [] ∧
              (handleFineGrained bc p env rg).backoffMs = ((handleFineGrained bc p env rg).received.map
                fun r => (onBackupResponse bc.isRetryableStorageError bc.fmtDetail bc.fmtError
                  leader.storeId p.backupTS env.lockResolver r).backoffMs).foldr max 0)))) := by
  cases hpd : findRegionLeader bc env.getRegion rg.startKey (!p.isRawKv || bc.curAPIVer == .v2) with
  | error pderr => simp [handleFineGrained, hpd] at herr
  | ok leader =>
    refine ⟨leader, rfl, ?_⟩
    cases hcl : env.getBackupClient leader.storeId with
    | some e =>
      by_cases hcls : e.cls = .failedToConnect
      · exact .inl ⟨e, rfl, hcls, by simp [handleFineGrained, hpd, hcl, hcls]⟩
      · simp [handleFineGrained, hpd, hcl, hcls] at herr
    | none =>
      refine .inr ⟨rfl, ?_⟩
      cases hr : (fineGrainedRun bc p env rg leader.storeId).err with
      | some e =>
        by_cases hcls : e.cls = .failedToConnect
        · exact .inl ⟨e, rfl, hcls, by simp [handleFineGrained, hpd, hcl, hr, hcls]⟩
        · simp [handleFineGrained, hpd, hcl, hr, hcls] at herr
      | none =>
        have hfold := sendBackup_foldlM_of_ok _ _ _ _ _ hr
        have hrecv : (handleFineGrained bc p env rg).received =
            recvsOf (fineGrainedRun bc p env rg leader.storeId).events := by
          simp [handleFineGrained, hpd, hcl, hr]
        have hms : (handleFineGrained bc p env rg).backoffMs =
            if (fineGrainedRun bc p env rg leader.storeId).state.hasProgress then
              (fineGrainedRun bc p env rg leader.storeId).state.backoffMill else 10000 := by
          simp [handleFineGrained, hpd, hcl, hr]
        have hp := (fineGrainedRespFn_foldlM hfold).2.1
        have hmax := fineGrainedRespFn_foldlM_backoff hfold
        rw [← fineGrainedRun, ← hrecv] at hp hmax
        rw [hms]
        cases hrc : (handleFineGrained bc p env rg).received with
        | nil => exact .inr (.inl ⟨rfl, rfl, by simp [hp, hrc]⟩)
        | cons r rs => exact .inr (.inr ⟨rfl, List.cons_ne_nil _ _, by simp [hp, hmax, hrc]⟩)

/-! ### Sample stores -/

/-- A client of cluster 1 on API V1 with no storage backend set; fmt prints an
error as its message and a detail as nothing. -/
def plainClient : Client := ⟨1, .v1, none, 0, id, fun _ => false, fun _ => "", PbError.msg⟩

def plainParams : FineGrainedParams := ⟨.v1, 0, 1, .unknown, 0, 0, 0, false, none⟩

/-- PD names store 1 as the leader of every region, and the store ends every
stream at once with `io.EOF`. -/
def eofStore : StoreEnv where
  getRegion _ _ := .ok (some ⟨some ⟨1⟩⟩)
  getBackupClient _ := none
  backup _ _ _ := .stream [] .eof
  resetBackupClient _ _ := none
  lockResolver _ _ := .ok 0

example :
    handleFineGrained plainClient plainParams eofStore ⟨[], [], []⟩ = ⟨[], [], 10000, none⟩ := by
  decide

/-- A response reporting that the request went to a store of cluster 2. -/
def clusterMismatchResp : BackupResponse :=
  ⟨some ⟨"cluster mismatch", some (.clusterIdError ⟨2, 1⟩)⟩, [], [], []⟩

/-- The leader store answers every stream with a `ClusterIdError`. -/
def mismatchStore : StoreEnv := { eofStore with backup := fun _ _ _ => .stream [clusterMismatchResp] .eof }

example : (handleFineGrained plainClient plainParams mismatchStore ⟨[], [], []⟩).err.map BrError.cls =
    some .kvClusterIDMismatch := by
  decide

/-- A response reporting a lock on the first key. -/
def lockedResp : BackupResponse :=
  ⟨some ⟨"locked", some (.kvError ⟨some ⟨[], 0, [], 0⟩⟩)⟩, [], [], []⟩

/-- The leader store answers every stream with a lock, and resolving it leaves
0 ms before it expires. -/
def expiredLockStore : StoreEnv := { eofStore with backup := fun _ _ _ => .stream [lockedResp] .eof }

example : handleFineGrained plainClient plainParams expiredLockStore ⟨[], [], []⟩ =
    ⟨[lockedResp], [], 0, none⟩ := by
  decide

/-- The same lock with 500 ms left before it expires: the call asks for a
500 ms backoff. -/
example : handleFineGrained plainClient plainParams
      { expiredLockStore with lockResolver := fun _ _ => .ok 500 } ⟨[], [], []⟩ =
    ⟨[lockedResp], [], 500, none⟩ := by
  decide

theorem handleFineGrained_backoff_lock :
    let env : StoreEnv := { expiredLockStore with lockResolver := fun _ _ => .ok 500 }
    (handleFineGrained plainClient plainParams env ⟨[], [], []⟩).err = none ∧
      ∃ leader, findRegionLeader plainClient env.getRegion []
        (!plainParams.isRawKv || plainClient.curAPIVer == .v2) = .ok leader ∧
      ((∃ e, env.getBackupClient leader.storeId = some e ∧ e.cls = .failedToConnect ∧
          (handleFineGrained plainClient plainParams env ⟨[], [], []⟩).backoffMs = 20000) ∨
        (env.getBackupClient leader.storeId = none ∧
          ((∃ e, (fineGrainedRun plainClient plainParams env ⟨[], [], []⟩ leader.storeId).err =
              some e ∧ e.cls = .failedToConnect ∧
              (handleFineGrained plainClient plainParams env ⟨[], [], []⟩).backoffMs = 20000) ∨
            ((fineGrainedRun plainClient plainParams env ⟨[], [], []⟩ leader.storeId).err = none ∧
              (handleFineGrained plainClient plainParams env ⟨[], [], []⟩).received = [] ∧
              (handleFineGrained plainClient plainParams env ⟨[], [], []⟩).backoffMs = 10000) ∨
            ((fineGrainedRun plainClient plainParams env ⟨[], [], []⟩ leader.storeId).err = none ∧
              (handleFineGrained plainClient plainParams env ⟨[], [], []⟩).received ≠ [] ∧
              (handleFineGrained plainClient plainParams env ⟨[], [], []⟩).backoffMs =
                ((handleFineGrained plainClient plainParams env ⟨[], [], []⟩).received.map fun r =>
                  (onBackupResponse plainClient.isRetryableStorageError plainClient.fmtDetail
                    plainClient.fmtError leader.storeId plainParams.backupTS env.lockResolver
                    r).backoffMs).foldr max 0)))) :=
  have herr : (handleFineGrained plainClient plainParams
      { expiredLockStore with lockResolver := fun _ _ => .ok 500 } ⟨[], [], []⟩).err = none := by
    decide
  ⟨herr, handleFineGrained_backoff plainClient plainParams _ _ herr⟩

end BrBackup
