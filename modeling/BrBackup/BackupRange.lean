import BrBackup.FineGrainedLoop

/-! `BackupRange`: the stores are listed, push-down backs up the range, the
fine-grained loop fills the holes it left, and the nodes of the tree are sent
to the metaWriter in `Ascend` order. Push-down (`pushBackup`) and the
metaWriter are not among the sources: push-down is modelled as the spec
describes it, a fresh tree into which the responses it collects are `Put`. -/

namespace BrBackup

/-- The request of the push-down phase: `req` with the range's keys and the
client's storage backend. -/
def pushDownRequest (bc : Client) (req : BackupRequest) (startKey endKey : Key) : BackupRequest :=
  { req with startKey := startKey, endKey := endKey, storageBackend := bc.backend }

/-- The arguments `BackupRange` passes on to `fineGrainedBackup`. -/
def fineGrainedParamsOf (req : BackupRequest) : FineGrainedParams where
  dstAPIVersion := req.dstApiVersion
  lastBackupTS := req.startVersion
  backupTS := req.endVersion
  compressType := req.compressionType
  compressionLevel := req.compressionLevel
  rateLimit := req.rateLimit
  concurrency := req.concurrency
  isRawKv := req.isRawKv
  cipherInfo := req.cipherInfo

/-- The request `handleFineGrained` sends for a hole is the push-down request
with the hole's keys, except that its `Cf` is empty. -/
theorem fineGrainedRequest_eq_pushDown (bc : Client) (req : BackupRequest) (startKey endKey : Key)
    (rg : Range) (h : req.clusterId = bc.clusterID) :
    fineGrainedRequest bc (fineGrainedParamsOf req) rg =
      { pushDownRequest bc req startKey endKey with
        startKey := rg.startKey, endKey := rg.endKey, cf := "" } := by
  cases req
  subst h
  rfl

/-- A raw-KV request for the `default` column family of cluster 1. -/
def rawKvRequest : BackupRequest where
  clusterId := 1
  startKey := []
  endKey := []
  startVersion := 0
  endVersion := 1
  storageBackend := none
  rateLimit := 0
  concurrency := 0
  isRawKv := true
  cf := "default"
  dstApiVersion := .v1
  compressionType := .unknown
  compressionLevel := 0
  cipherInfo := none

/-- For a raw-KV backup of the `default` column family the request of a hole
differs from the push-down request in `Cf`, which it leaves empty. -/
theorem fineGrained_request_drops_cf :
    rawKvRequest.clusterId = plainClient.clusterID ∧
      (pushDownRequest plainClient rawKvRequest [] []).cf = "default" ∧
      (fineGrainedRequest plainClient (fineGrainedParamsOf rawKvRequest) (hole [] [])).cf = "" ∧
      fineGrainedRequest plainClient (fineGrainedParamsOf rawKvRequest) (hole [] []) ≠
        { pushDownRequest plainClient rawKvRequest [] [] with startKey := [], endKey := [] } :=
  ⟨rfl, rfl, rfl, by decide⟩

/-! ### One range -/

/-- What `BackupRange` does, in order: the `Put`s into its tree with their
progress calls, `progressCallBack(RangeUnit)`, `metaWriter.Send` of a node's
files, and the error of a `Send` that failed. -/
inductive RangeEvent
  | effect (e : Effect)
  | send (files : List File)
  | sendFailed (e : BrError)
  deriving DecidableEq, Repr

def RangeEvent.sent : RangeEvent → Option (List File)
  | .send files => some files
  | _ => none

def RangeEvent.put : RangeEvent → Option Effect
  | .effect e => some e
  | _ => none

/-- What the stores and the metaWriter do during one `BackupRange` call:
`getAllStores` answers `GetAllTiKVStoresWithRetry`, `pushBackup req stores` is
what push-down `Put` and the error it returned, and `send k` is the error of
the `k`-th `metaWriter.Send`. -/
structure RangeEnv where
  getAllStores : Except BrError (List Nat)
  pushBackup : BackupRequest → List Nat → List BackupResponse × Option BrError
  send : Nat → Option BrError

/-- Modelled from the spec: the tree push-down returns, a fresh tree into which
its collector `Put` each response it received. -/
def pushTree (rs : List BackupResponse) : RangeTree :=
  putAll .empty (rs.flatMap putEffects)

/-- `results.Ascend` from the `k`-th `Send`: each node's files are sent, and the
walk stops at the first `Send` that fails. -/
def ascendSend (send : Nat → Option BrError) (k : Nat) : List Range → List RangeEvent × Option BrError
  | [] => ([], none)
  | r :: rs =>
    match send k with
    | some e => ([.send r.files, .sendFailed e], some e)
    | none =>
      let rest := ascendSend send (k + 1) rs
      (.send r.files :: rest.1, rest.2)

/-- A run of `BackupRange`: what it did, its tree, and the error it returned. -/
structure RangeOutcome where
  events : List RangeEvent
  tree : RangeTree
  err : Option BrError

section Range

variable (bc : Client) (startKey endKey : Key) (req : BackupRequest)

/-- The runs of `BackupRange(startKey, endKey, req)`, for every behaviour `env`
of the stores and the metaWriter and every run of the fine-grained loop. -/
inductive BackupRangeRun : RangeOutcome → Prop
  | storesFailed (env : RangeEnv) {e : BrError} :
    env.getAllStores = .error e → BackupRangeRun ⟨[], .empty, some e⟩
  | pushFailed (env : RangeEnv) {stores : List Nat} {rs : List BackupResponse} {e : BrError} :
    env.getAllStores = .ok stores →
    env.pushBackup (pushDownRequest bc req startKey endKey) stores = (rs, some e) →
    BackupRangeRun ⟨(rs.flatMap putEffects).map .effect, pushTree rs, some e⟩
  | fineGrainedFailed (env : RangeEnv) {stores : List Nat} {rs : List BackupResponse} {e : BrError}
    {t : RangeTree} {es : List Effect} : env.getAllStores = .ok stores →
    env.pushBackup (pushDownRequest bc req startKey endKey) stores = (rs, none) →
    FineGrainedBackup bc (fineGrainedParamsOf req) startKey endKey (pushTree rs) (some e) t es →
    BackupRangeRun ⟨(rs.flatMap putEffects ++ es).map .effect, t, some e⟩
  | ascended (env : RangeEnv) {stores : List Nat} {rs : List BackupResponse} {t : RangeTree}
    {es : List Effect} : env.getAllStores = .ok stores →
    env.pushBackup (pushDownRequest bc req startKey endKey) stores = (rs, none) →
    FineGrainedBackup bc (fineGrainedParamsOf req) startKey endKey (pushTree rs) none t es →
    BackupRangeRun ⟨(rs.flatMap putEffects ++ es ++ [Effect.progress .range]).map .effect ++
      (ascendSend env.send 0 t.ascend).1, t, (ascendSend env.send 0 t.ascend).2⟩

end Range

section Ascend

variable (send : Nat → Option BrError)

theorem ascendSend_puts (k : Nat) (nodes : List Range) :
    (ascendSend send k nodes).1.filterMap RangeEvent.put = [] := by
  induction nodes generalizing k with
  | nil => rfl
  | cons r rs ih =>
    simp only [ascendSend]
    split
    · rfl
    · simp [RangeEvent.put, ih]

/-- The walk returns nil exactly when every `Send` succeeds, and then it has
sent every node's files once, in order. -/
theorem ascendSend_ok (k : Nat) (nodes : List Range) :
    ((ascendSend send k nodes).2 = none ↔ ∀ j < nodes.length, send (k + j) = none) ∧
      ((ascendSend send k nodes).2 = none →
        (ascendSend send k nodes).1.filterMap RangeEvent.sent = nodes.map (·.files)) := by
  induction nodes generalizing k with
  | nil => simp [ascendSend]
  | cons r rs ih =>
    obtain ⟨hiff, hsent⟩ := ih (k + 1)
    cases hk : send k with
    | some e =>
      simp only [ascendSend, hk]
      refine ⟨⟨fun h => (Option.some_ne_none e h).elim, fun h => ?_⟩,
        fun h => (Option.some_ne_none e h).elim⟩
      have := h 0 (Nat.succ_pos _)
      simp [hk] at this
    | none =>
      simp only [ascendSend, hk]
      refine ⟨hiff.trans ⟨fun h j hj => ?_, fun h j hj => ?_⟩, fun h => ?_⟩
      · cases j with
        | zero => exact hk
        | succ j =>
          have := h j (by simpa using hj)
          rwa [show k + 1 + j = k + (j + 1) by omega] at this
      · have := h (j + 1) (by simp; omega)
        rwa [show k + (j + 1) = k + 1 + j by omega] at this
      · simp [RangeEvent.sent, hsent h]

/-- When the `j`-th `Send` is the first to fail, the walk sends the files of
the nodes up to that one, records the failure, and returns its error. -/
theorem ascendSend_first_failure (k : Nat) (nodes : List Range) (j : Nat) {e : BrError}
    (hj : j < nodes.length) (he : send (k + j) = some e) (hbefore : ∀ i < j, send (k + i) = none) :
    ascendSend send k nodes =
      ((nodes.take (j + 1)).map (fun n => RangeEvent.send n.files) ++ [.sendFailed e], some e) := by
  induction nodes generalizing k j with
  | nil => cases hj
  | cons r rs ih =>
    cases j with
    | zero =>
      have he' : send k = some e := by simpa using he
      simp [ascendSend, he']
    | succ j =>
      have hk : send k = none := by simpa using hbefore 0 (Nat.succ_pos _)
      have := ih (k + 1) j (by simpa using hj) (by rwa [show k + 1 + j = k + (j + 1) by omega])
        fun i hi => by
          have := hbefore (i + 1) (by omega)
          rwa [show k + (i + 1) = k + 1 + i by omega] at this
      simp [ascendSend, hk, this]

/-- A failed `Send` is the walk's last event, right after the `Send` that
failed, and its error is the one the walk returns. -/
theorem ascendSend_sendFailed (k : Nat) (nodes : List Range) {e : BrError}
    (h : RangeEvent.sendFailed e ∈ (ascendSend send k nodes).1) :
    (ascendSend send k nodes).2 = some e ∧
      ∃ pre files, (ascendSend send k nodes).1 = pre ++ [.send files, .sendFailed e] := by
  induction nodes generalizing k with
  | nil => cases h
  | cons r rs ih =>
    simp only [ascendSend] at h ⊢
    split at h
    · rename_i e' _
      obtain rfl : e = e' := by simpa using h
      exact ⟨rfl, [], r.files, rfl⟩
    · have h' : RangeEvent.sendFailed e ∈ (ascendSend send (k + 1) rs).1 := by simpa using h
      obtain ⟨herr, pre, files, hev⟩ := ih (k + 1) h'
      exact ⟨herr, .send r.files :: pre, files, by rw [hev]; rfl⟩

end Ascend

theorem count_range_putEffects (rs : List BackupResponse) :
    ((rs.flatMap putEffects).map RangeEvent.effect).count (.effect (.progress .range)) = 0 :=
  List.count_eq_zero.mpr (by simp [putEffects])

theorem count_range_sends (k : Nat) (send : Nat → Option BrError) (nodes : List Range) :
    (ascendSend send k nodes).1.count (.effect (.progress .range)) = 0 := by
  induction nodes generalizing k with
  | nil => rfl
  | cons r rs ih =>
    simp only [ascendSend]
    split
    · simp
    · simp [ih]

/-- A `BackupRange` call that returns nil leaves no hole in its range, in the
tree made of every `Put` it did, push-down's and fine-grained's; it sends the
files of each node of that tree once, in `Ascend` order; and it calls
`progressCallBack(RangeUnit)` once. -/
theorem backupRange_ok {bc : Client} {startKey endKey : Key} {req : BackupRequest}
    {o : RangeOutcome} (h : BackupRangeRun bc startKey endKey req o) (hok : o.err = none) :
    o.tree.getIncompleteRange startKey endKey = [] ∧
      o.tree = putAll .empty (o.events.filterMap RangeEvent.put) ∧
      o.events.filterMap RangeEvent.sent = o.tree.ascend.map (·.files) ∧
      o.events.count (.effect (.progress .range)) = 1 := by
  cases h with
  | storesFailed => cases hok
  | pushFailed => cases hok
  | fineGrainedFailed => cases hok
  | ascended env _ _ hfg =>
    obtain ⟨hholes, htree, rcv, hes⟩ := fineGrainedBackup_nil_complete hfg
    have hput : ∀ l : List Effect, (l.map RangeEvent.effect).filterMap RangeEvent.put = l := fun l => by
      induction l with
      | nil => rfl
      | cons e l ih => simp [RangeEvent.put, ih]
    have hsent : ∀ l : List Effect, (l.map RangeEvent.effect).filterMap RangeEvent.sent = [] :=
      fun l => by simp [RangeEvent.sent]
    refine ⟨hholes, ?_, ?_, ?_⟩
    · simp only [List.filterMap_append, hput, ascendSend_puts, List.append_nil, putAll_append]
      rw [htree]
      rfl
    · simp only [List.filterMap_append, hsent, List.nil_append]
      exact (ascendSend_ok env.send 0 _).2 hok
    · simp only [List.map_append, List.count_append, count_range_putEffects, hes,
        count_range_sends]
      simp

end BrBackup
