import BrBackup.FineGrainedInvariant

/-! An iteration whose calls all return without error completes: every run is
shorter than a potential that each step lowers, no reachable state is stuck
short of Step 3, and when the collector leaves the select loop every hole has
had its call, every forwarded response has been `Put` once, and `max.ms` is the
largest backoff. -/

namespace BrBackup

/-! ### The potential -/

/-- The steps a call can still take: its receipt, a forward per response, its return. -/
def callWeight (o : CallOutcome) : CallPc → Nat
  | .pending => 2 * o.forwarded.length + 4
  | .running k => 2 * (o.forwarded.length - k) + 2
  | .returned => 0

def workerWeight : WorkerPc → Nat
  | .idle => 2
  | .busy _ => 1
  | .exiting => 1
  | .exited => 0

def dispatcherWeight : DispatcherPc → Nat
  | .sending => 2
  | .waiting => 1
  | .closed => 0

def collectorWeight : CollectorPc → Nat
  | .selecting => 1
  | _ => 0

/-- An upper bound on the number of steps left to an iteration over `n` holes. -/
def iterPotential (n : Nat) (out : Nat → CallOutcome) (s : IterState) : Nat :=
  (n - s.next) + dispatcherWeight s.dispatcher +
    ((List.range n).map fun i => callWeight (out i) (s.calls i)).sum +
    ((List.finRange 4).map fun w => workerWeight (s.workers w)).sum +
    s.respCh.length + collectorWeight s.collector

/-- The run of the actions `acts`, one after the other. -/
def iterRun (n : Nat) (out : Nat → CallOutcome) (s : IterState) (acts : List IterAction) :
    Option IterState :=
  acts.foldlM (iterStep n out) s

section Potential

variable {n : Nat} {out : Nat → CallOutcome} {s t : IterState}

theorem sum_workers_update (ws : Fin 4 → WorkerPc) (w : Fin 4) (x : WorkerPc) :
    ((List.finRange 4).map fun v => workerWeight (Function.update ws w x v)).sum + workerWeight (ws w) =
      ((List.finRange 4).map fun v => workerWeight (ws v)).sum + workerWeight x :=
  sum_map_update (List.nodup_finRange 4) (List.mem_finRange w) ws x fun _ c => workerWeight c

theorem sum_calls_update (out : Nat → CallOutcome) {i : Nat} (hi : i < n) (calls : Nat → CallPc)
    (x : CallPc) :
    ((List.range n).map fun j => callWeight (out j) (Function.update calls i x j)).sum +
        callWeight (out i) (calls i) =
      ((List.range n).map fun j => callWeight (out j) (calls j)).sum + callWeight (out i) x :=
  sum_map_update (List.nodup_range n) (List.mem_range.mpr hi) calls x fun j c => callWeight (out j) c

/-- Every step lowers the potential. -/
theorem iterPotential_lt (hs : IterInv n out s) {a : IterAction}
    (h : iterStep n out s a = some t) : iterPotential n out t < iterPotential n out s := by
  cases a with
  | dispatch =>
    obtain ⟨-, hlt, -, rfl⟩ := iterStep_dispatch h
    simp only [iterPotential]
    omega
  | closeRetry =>
    obtain ⟨hd, -, rfl⟩ := iterStep_closeRetry h
    simp only [iterPotential, hd, dispatcherWeight]
    omega
  | closeResp =>
    obtain ⟨hd, -, rfl⟩ := iterStep_closeResp h
    simp only [iterPotential, hd, dispatcherWeight]
    omega
  | recv w =>
    obtain ⟨hw, ⟨i, rest, hr, rfl⟩ | ⟨-, -, rfl⟩⟩ := iterStep_recv h
    · have hi : i < n := lt_of_lt_of_le
        (List.mem_range.mp (hs.fifo ▸ List.mem_append_right _ (by simp [hr]))) hs.next_le
      have hpend : s.calls i = .pending := (hs.pairing.pending_iff i).mpr fun hm =>
        List.disjoint_of_nodup_append (hs.fifo ▸ List.nodup_range _) hm (by simp [hr])
      have hc := sum_calls_update out hi s.calls (.running 0)
      have hw' := sum_workers_update s.workers w (.busy i)
      rw [hpend] at hc
      rw [hw] at hw'
      simp only [callWeight.eq_1, callWeight.eq_2, workerWeight.eq_1, workerWeight.eq_2] at hc hw'
      simp only [iterPotential]
      omega
    · have hw' := sum_workers_update s.workers w .exiting
      rw [hw] at hw'
      simp only [workerWeight.eq_1, workerWeight.eq_3] at hw'
      simp only [iterPotential]
      omega
  | forward w =>
    obtain ⟨i, k, r, -, hc, hr, -, rfl⟩ := iterStep_forward h
    have hk := (List.getElem?_eq_some_iff.mp hr).1
    have hi : i < n := hs.started_lt (by simp [hc])
    have hs' := sum_calls_update out hi s.calls (.running (k + 1))
    rw [hc] at hs'
    simp only [callWeight.eq_2] at hs'
    simp only [iterPotential, List.length_append, List.length_singleton]
    omega
  | finish w =>
    obtain ⟨i, hw, hc, hret⟩ := iterStep_finish h
    have hi : i < n := hs.started_lt (by simp [hc])
    have hs' := sum_calls_update out hi s.calls .returned
    rw [hc] at hs'
    simp only [callWeight.eq_2, callWeight.eq_3, Nat.sub_self] at hs'
    rcases hret with ⟨e, -, -, rfl⟩ | ⟨-, rfl⟩
    · have hw' := sum_workers_update s.workers w .exiting
      rw [hw] at hw'
      simp only [workerWeight.eq_2, workerWeight.eq_3] at hw'
      simp only [iterPotential]
      omega
    · have hw' := sum_workers_update s.workers w .idle
      rw [hw] at hw'
      simp only [workerWeight.eq_1, workerWeight.eq_2] at hw'
      simp only [iterPotential, raiseMax]
      omega
  | done w =>
    obtain ⟨hw, rfl⟩ := iterStep_done h
    have hw' := sum_workers_update s.workers w .exited
    rw [hw] at hw'
    simp only [workerWeight.eq_3, workerWeight.eq_4] at hw'
    simp only [iterPotential]
    omega
  | takeErr =>
    obtain ⟨e, rest, hc, -, rfl⟩ := iterStep_takeErr h
    simp only [iterPotential, hc, collectorWeight]
    omega
  | takeResp =>
    obtain ⟨hc, ⟨r, rest, hr, ⟨-, rfl⟩ | ⟨-, rfl⟩⟩ | ⟨hr, -, rfl⟩⟩ :=
      iterStep_takeResp h <;>
    · simp only [iterPotential, hc, hr, collectorWeight, List.length_cons, List.length_nil]
      omega

theorem iterRun_reachable {acts : List IterAction} :
    iterRun n out s acts = some t → Relation.ReflTransGen (IterStep n out) s t := by
  induction acts generalizing s with
  | nil => exact fun h => (Option.some.inj h) ▸ .refl
  | cons a acts ih =>
    intro h
    cases ha : iterStep n out s a with
    | none => simp [iterRun, ha] at h
    | some s₁ =>
      simp only [iterRun, List.foldlM_cons, ha, Option.bind_eq_bind, Option.some_bind] at h
      exact .head ⟨a, ha⟩ (ih h)

variable (hfwd : ∀ i, ∀ r ∈ (out i).forwarded, r.error = none)
include hfwd

/-- The potential pays for every step of a run from a reachable state. -/
theorem iterRun_length_le {acts : List IterAction} (hr : IterReachable n out iterInit s)
    (h : iterRun n out s acts = some t) :
    acts.length + iterPotential n out t ≤ iterPotential n out s := by
  induction acts generalizing s with
  | nil => cases h; simp
  | cons a acts ih =>
    cases ha : iterStep n out s a with
    | none => simp [iterRun, ha] at h
    | some s₁ =>
      simp only [iterRun, List.foldlM_cons, ha, Option.bind_eq_bind, Option.some_bind] at h
      have hlt := iterPotential_lt (iterInv_reachable hfwd hr) ha
      have := ih (hr.tail ⟨a, ha⟩) h
      simp only [List.length_cons]
      omega

end Potential

/-! ### No error -/

section Progress

variable {n : Nat} {out : Nat → CallOutcome} {s t : IterState}

def WorkerPc.isDone : WorkerPc → Bool
  | .exiting | .exited => true
  | .idle | .busy _ => false

/-- What holds while no call returns an error: `errCh` stays empty and a worker
leaves its loop only after `retry` was closed and drained. -/
structure ErrFree (s : IterState) : Prop where
  errCh_nil : s.errCh = []
  not_returned : ∀ e, s.collector ≠ .returned e
  parked : ∀ w, (s.workers w).isDone → s.dispatcher ≠ .sending ∧ s.retry = []

theorem update_isDone {ws : Fin 4 → WorkerPc} {w v : Fin 4} {x : WorkerPc}
    (h : (Function.update ws w x v).isDone) : (v = w ∧ x.isDone) ∨ (ws v).isDone := by
  by_cases hv : v = w
  · subst hv
    exact .inl ⟨rfl, by simpa using h⟩
  · exact .inr (by rwa [Function.update_noteq hv] at h)

theorem stepOf_ne_none (a : IterAction) (h : iterStep n out s a ≠ none) :
    ∃ t, IterStep n out s t :=
  (Option.ne_none_iff_exists'.mp h).imp fun _ ht => ⟨a, ht⟩

variable (hnoerr : ∀ i < n, (out i).err = none)
include hnoerr

theorem errFree_step (hs : IterInv n out s) (he : ErrFree s) {a : IterAction}
    (h : iterStep n out s a = some t) : ErrFree t := by
  cases a with
  | dispatch =>
    obtain ⟨hd, -, -, rfl⟩ := iterStep_dispatch h
    exact { he with parked := fun w hw => absurd hd (he.parked w hw).1 }
  | closeRetry =>
    obtain ⟨hd, -, rfl⟩ := iterStep_closeRetry h
    exact { he with parked := fun w hw => absurd hd (he.parked w hw).1 }
  | closeResp =>
    obtain ⟨-, -, rfl⟩ := iterStep_closeResp h
    exact { he with parked := fun w hw => ⟨by simp, (he.parked w hw).2⟩ }
  | recv w =>
    obtain ⟨hw, ⟨i, rest, hr, rfl⟩ | ⟨hr, hd, rfl⟩⟩ := iterStep_recv h
    · refine { he with parked := fun v hv => ?_ }
      rcases update_isDone hv with ⟨-, hx⟩ | hv
      · simp [WorkerPc.isDone] at hx
      · simp [(he.parked v hv).2] at hr
    · exact { he with parked := fun v hv => (update_isDone hv).elim (fun _ => ⟨hd, hr⟩) (he.parked v) }
  | forward w =>
    obtain ⟨i, k, r, -, -, -, -, rfl⟩ := iterStep_forward h
    exact { he with }
  | finish w =>
    obtain ⟨i, hw, hc, ⟨e, herr, -, -⟩ | ⟨-, rfl⟩⟩ := iterStep_finish h
    · simp [hnoerr i (hs.started_lt (by simp [hc]))] at herr
    · refine { he with parked := fun v hv => ?_ }
      rcases update_isDone hv with ⟨-, hx⟩ | hv
      · simp [WorkerPc.isDone] at hx
      · exact he.parked v hv
  | done w =>
    obtain ⟨hw, rfl⟩ := iterStep_done h
    exact { he with parked := fun v hv =>
      (update_isDone hv).elim (fun hx => he.parked w (by simp [hw, WorkerPc.isDone])) (he.parked v) }
  | takeErr =>
    obtain ⟨e, rest, -, hec, -⟩ := iterStep_takeErr h
    simp [he.errCh_nil] at hec
  | takeResp =>
    obtain ⟨-, ⟨r, rest, -, ⟨-, rfl⟩ | ⟨-, rfl⟩⟩ | ⟨-, -, rfl⟩⟩ := iterStep_takeResp h
    · exact { he with }
    all_goals exact { he with not_returned := fun e => by simp }

/-- A worker running a call can always move: forward its next response while
`respCh` is empty, or return. -/
theorem busy_can_step (hs : IterInv n out s) (hresp : s.respCh = []) {w : Fin 4} {i : Nat}
    (hw : s.workers w = .busy i) : ∃ t, IterStep n out s t := by
  obtain ⟨k, hc⟩ := hs.pairing.busy_running w i hw
  rcases Nat.lt_or_ge k (out i).forwarded.length with hk | hk
  · refine stepOf_ne_none (.forward w) ?_
    simp [iterStep, hw, hc, List.getElem?_eq_getElem hk, hresp, chanCap]
  · have hL : k = (out i).forwarded.length := le_antisymm (hs.running_le i k hc) hk
    refine stepOf_ne_none (.finish w) ?_
    simp [iterStep, hw, hc, hL, hnoerr i (hs.started_lt (by simp [hc]))]

/-- No state reachable while no call errs is stuck short of Step 3. -/
theorem iter_progress (hs : IterInv n out s) (he : ErrFree s) (hok : RespOk s)
    (hd : s.collector ≠ .drained) : ∃ t, IterStep n out s t := by
  have hsel : s.collector = .selecting := by
    cases hc : s.collector with
    | selecting => rfl
    | returned e => exact absurd hc (he.not_returned e)
    | drained => exact absurd hc hd
    | panicked => exact absurd hc hok.2
  cases hresp : s.respCh with
  | cons r rest =>
    refine stepOf_ne_none .takeResp ?_
    simp only [iterStep, hsel, hresp]
    split <;> simp
  | nil =>
    by_cases hclosed : s.dispatcher = .closed
    · exact stepOf_ne_none .takeResp (by simp [iterStep, hsel, hresp, hclosed])
    by_cases hbusy : ∃ w i, s.workers w = .busy i
    · obtain ⟨w, i, hw⟩ := hbusy
      exact busy_can_step hnoerr hs hresp hw
    by_cases hidle : ∃ w, s.workers w = .idle
    · obtain ⟨w, hw⟩ := hidle
      cases hr : s.retry with
      | cons i rest => exact stepOf_ne_none (.recv w) (by simp [iterStep, hw, hr])
      | nil =>
        by_cases hsend : s.dispatcher = .sending
        · rcases Nat.lt_or_ge s.next n with hlt | hge
          · exact stepOf_ne_none .dispatch (by simp [iterStep, hsend, hlt, hr, chanCap])
          · exact stepOf_ne_none .closeRetry (by simp [iterStep, hsend, hge])
        · exact stepOf_ne_none (.recv w) (by simp [iterStep, hw, hr, hsend])
    by_cases hexiting : ∃ w, s.workers w = .exiting
    · obtain ⟨w, hw⟩ := hexiting
      exact stepOf_ne_none (.done w) (by simp [iterStep, hw])
    have hexited : ∀ w, s.workers w = .exited := fun w => by
      cases h : s.workers w with
      | idle => exact absurd ⟨w, h⟩ hidle
      | busy i => exact absurd ⟨w, i, h⟩ hbusy
      | exiting => exact absurd ⟨w, h⟩ hexiting
      | exited => rfl
    have hwait : s.dispatcher = .waiting := by
      cases hd' : s.dispatcher with
      | sending => exact absurd hd' (he.parked 0 (by simp [hexited, WorkerPc.isDone])).1
      | waiting => rfl
      | closed => exact absurd hd' hclosed
    exact stepOf_ne_none .closeResp (by simp [iterStep, hwait, hexited])

/-- When the collector leaves the select loop every hole has been received in
order, every call has returned, the collector has `Put` each forwarded response
once, and `max.ms` is the largest backoff of the calls. -/
theorem drained_outcome (hs : IterInv n out s) (he : ErrFree s) (hd : s.collector = .drained) :
    s.handled = List.range n ∧ (∀ i < n, s.calls i = .returned) ∧
      (∃ rcv : List BackupResponse, rcv.Perm ((List.range n).flatMap fun i => (out i).forwarded) ∧
        s.effects = rcv.flatMap fun r => [.put r.startKey r.endKey r.files, .progress .region]) ∧
      s.maxMs = ((List.range n).map fun i => (out i).backoffMs).foldr max 0 := by
  obtain ⟨hc, hresp⟩ := hs.drained_closed hd
  have hexited := hs.exited_of_closed hc
  have hretry : s.retry = [] := (he.parked 0 (by simp [hexited, WorkerPc.isDone])).2
  have hhandled : s.handled = List.range n := by
    simpa [hretry, hs.next_of_closed (by simp [hc])] using hs.fifo
  have hret : ∀ i < n, s.calls i = .returned := fun i hi => by
    cases h : s.calls i with
    | pending => exact absurd ((hs.pairing.pending_iff i).mp h) (by simp [hhandled, hi])
    | running k =>
      obtain ⟨w, hw⟩ := hs.pairing.running_busy i k h
      simp [hexited w] at hw
    | returned => rfl
  obtain ⟨rcv, heff, hrcv⟩ := hs.effects_sent
  have hsent : ((List.range n).flatMap fun i => (out i).forwardedAt (s.calls i)) =
      (List.range n).flatMap fun i => (out i).forwarded :=
    List.flatMap_congr fun i hi => by rw [hret i (List.mem_range.mp hi)]; rfl
  have hmax : ((List.range n).map fun i => (out i).backoffAt (s.calls i)) =
      (List.range n).map fun i => (out i).backoffMs :=
    List.map_congr_left fun i hi => by
      simp [hret i (List.mem_range.mp hi), CallOutcome.backoffAt, hnoerr i (List.mem_range.mp hi)]
  refine ⟨hhandled, hret, ⟨rcv, ?_, heff⟩, hmax ▸ hs.max_eq⟩
  have hrcv' : rcv = s.sent := by simpa [hresp] using hrcv
  rw [← hsent, hrcv']
  exact hs.sent_perm

end Progress

/-! ### The iteration completes -/

/-- What one iteration over `n` holes guarantees: its runs are bounded, it is
never stuck short of Step 3, and Step 3 sees every hole handled once, every
forwarded response `Put` once, and the largest backoff. -/
structure FanIn (n : Nat) (out : Nat → CallOutcome) : Prop where
  run_length_le : ∀ acts t, iterRun n out iterInit acts = some t →
    acts.length ≤ iterPotential n out iterInit
  progress : ∀ s, IterReachable n out iterInit s → s.collector ≠ .drained →
    ∃ t, IterStep n out s t
  handled_eq : ∀ s, IterReachable n out iterInit s → s.collector = .drained →
    s.handled = List.range n
  put_once : ∀ s, IterReachable n out iterInit s → s.collector = .drained →
    ∃ rcv : List BackupResponse, rcv.Perm ((List.range n).flatMap fun i => (out i).forwarded) ∧
      s.effects = rcv.flatMap fun r => [.put r.startKey r.endKey r.files, .progress .region]
  maxMs_eq : ∀ s, IterReachable n out iterInit s → s.collector = .drained →
    s.maxMs = ((List.range n).map fun i => (out i).backoffMs).foldr max 0

section Complete

variable {n : Nat} {out : Nat → CallOutcome}
  (hfwd : ∀ i, ∀ r ∈ (out i).forwarded, r.error = none) (hnoerr : ∀ i < n, (out i).err = none)
include hfwd hnoerr

theorem errFree_reachable {s : IterState} (h : IterReachable n out iterInit s) : ErrFree s := by
  induction h with
  | refl => exact ⟨rfl, by simp [iterInit], fun w hw => by simp [iterInit, WorkerPc.isDone] at hw⟩
  | tail hr hst ih =>
    obtain ⟨a, ha⟩ := hst
    exact errFree_step hnoerr (iterInv_reachable hfwd hr) ih ha

theorem fanIn_of_noError : FanIn n out :=
  have hdrained := fun s (h : IterReachable n out iterInit s) =>
    drained_outcome hnoerr (iterInv_reachable hfwd h) (errFree_reachable hfwd hnoerr h)
  { run_length_le := fun acts t h => by
      have := iterRun_length_le hfwd .refl h
      omega
    progress := fun s h hd => iter_progress hnoerr (iterInv_reachable hfwd h)
      (errFree_reachable hfwd hnoerr h) (respOk_reachable hfwd h) hd
    handled_eq := fun s h hd => (hdrained s h hd).1
    put_once := fun s h hd => (hdrained s h hd).2.2.1
    maxMs_eq := fun s h hd => (hdrained s h hd).2.2.2 }

/-- From every reachable state the iteration can go on to Step 3. -/
theorem reaches_drained {s : IterState} (h : IterReachable n out iterInit s) :
    ∃ t, Relation.ReflTransGen (IterStep n out) s t ∧ t.collector = .drained := by
  obtain ⟨p, hp⟩ : ∃ p, iterPotential n out s = p := ⟨_, rfl⟩
  induction p using Nat.strong_induction_on generalizing s with
  | _ p ih =>
    by_cases hd : s.collector = .drained
    · exact ⟨s, .refl, hd⟩
    obtain ⟨t, a, ha⟩ := (fanIn_of_noError hfwd hnoerr).progress s h hd
    obtain ⟨u, htu, hu⟩ := ih _ (hp ▸ iterPotential_lt (iterInv_reachable hfwd h) ha)
      (h.tail ⟨a, ha⟩) rfl
    exact ⟨u, .head ⟨a, ha⟩ htu, hu⟩

end Complete

theorem reaches_drained_eof :
    let out := fineGrainedOut plainClient plainParams (fun _ => eofStore) [⟨[], [], []⟩]
    (∀ i, ∀ r ∈ (out i).forwarded, r.error = none) ∧ (∀ i < 1, (out i).err = none) ∧
      IterReachable 1 out iterInit iterInit ∧
      ∃ t, Relation.ReflTransGen (IterStep 1 out) iterInit t ∧ t.collector = .drained :=
  have hfwd : ∀ i, ∀ r ∈ (fineGrainedOut plainClient plainParams (fun _ => eofStore)
      [⟨[], [], []⟩] i).forwarded, r.error = none :=
    fun i => handleFineGrained_forwarded_error plainClient plainParams eofStore _
  have hnoerr : ∀ i < 1,
      (fineGrainedOut plainClient plainParams (fun _ => eofStore) [⟨[], [], []⟩] i).err = none := by
    decide
  ⟨hfwd, hnoerr, .refl, reaches_drained hfwd hnoerr .refl⟩

/-- The call for hole `i` is `handleFineGrained` on the `i`-th hole. -/
theorem fineGrainedOut_of_getElem? {bc : Client} {p : FineGrainedParams} {envs : Nat → StoreEnv}
    {holes : List Range} {i : Nat} {r : Range} (h : holes[i]? = some r) :
    fineGrainedOut bc p envs holes i = handleFineGrained bc p (envs i) r := by
  simp [fineGrainedOut, List.getD_eq_getElem?_getD, h]

/-- An iteration of `fineGrainedBackup` over the holes `holes`, in which no
`handleFineGrained` call returns an error, runs at most a bounded number of
steps in every interleaving, is never stuck before Step 3, and reaches Step 3
with each hole handled once, each forwarded response `Put` once and followed by
one `RegionUnit` progress call, and `max.ms` the largest backoff returned. The
call for hole `i` is `handleFineGrained` on `holes[i]`. -/
theorem fineGrained_iteration_fan_in (bc : Client) (p : FineGrainedParams)
    (envs : Nat → StoreEnv) (holes : List Range)
    (hnoerr : ∀ i r, holes[i]? = some r → (handleFineGrained bc p (envs i) r).err = none) :
    (∀ i r, holes[i]? = some r → fineGrainedOut bc p envs holes i = handleFineGrained bc p (envs i) r) ∧
      FanIn holes.length (fineGrainedOut bc p envs holes) :=
  ⟨fun _ _ h => fineGrainedOut_of_getElem? h,
    fanIn_of_noError (fun i => handleFineGrained_forwarded_error bc p (envs i) _) fun i hi => by
      rw [fineGrainedOut_of_getElem? (List.getElem?_eq_getElem hi)]
      exact hnoerr i _ (List.getElem?_eq_getElem hi)⟩

theorem fineGrained_iteration_fan_in_eof :
    (∀ (i : Nat) r, [(⟨[], [], []⟩ : Range)][i]? = some r →
      (handleFineGrained plainClient plainParams eofStore r).err = none) ∧
    (∀ (i : Nat) r, [(⟨[], [], []⟩ : Range)][i]? = some r →
      fineGrainedOut plainClient plainParams (fun _ => eofStore) [⟨[], [], []⟩] i =
        handleFineGrained plainClient plainParams eofStore r) ∧
    FanIn 1 (fineGrainedOut plainClient plainParams (fun _ => eofStore) [⟨[], [], []⟩]) :=
  have hnoerr : ∀ (i : Nat) r, [(⟨[], [], []⟩ : Range)][i]? = some r →
      (handleFineGrained plainClient plainParams eofStore r).err = none := fun
    | 0, _, h => by
      cases Option.some.inj h
      decide
    | _ + 1, _, h => by simp at h
  ⟨hnoerr, fineGrained_iteration_fan_in plainClient plainParams (fun _ => eofStore)
    [⟨[], [], []⟩] hnoerr⟩

end BrBackup
