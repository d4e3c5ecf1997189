import BrBackup.FineGrainedLoop

/-! What the fine-grained phase never does, whatever PD and the stores answer
and in whatever order its goroutines run. An iteration `Put`s only responses
that its calls forwarded, never one carrying an error, and hands no hole to
two calls. The error `fineGrainedBackup` returns is the Backoffer's, or one
that a `handleFineGrained` call returned, and so never `ErrFailedToConnect`:
a store that cannot be reached only ever costs a backoff. -/

namespace BrBackup

theorem CallOutcome.forwardedAt_subset (o : CallOutcome) (c : CallPc) :
    o.forwardedAt c ⊆ o.forwarded := by
  cases c with
  | pending => exact List.nil_subset _
  | running k => exact List.take_subset _ _
  | returned => exact List.Subset.refl _

/-! ### What an iteration `Put`s -/

/-- In every reachable state of an iteration, whatever the calls return, no
hole was handed to two calls, and the collector's side effects are a `Put` and
a RegionUnit progress call for each response it took from `respCh`. Those
responses, with the ones still in `respCh`, are up to order exactly what the
calls have forwarded so far, and none of them carries an error. The call for
hole `i` is `handleFineGrained` on `holes[i]`. -/
theorem fineGrained_iteration_puts (bc : Client) (p : FineGrainedParams) (envs : Nat → StoreEnv)
    (holes : List Range) {s : IterState}
    (h : IterReachable holes.length (fineGrainedOut bc p envs holes) iterInit s) :
    (∀ i r, holes[i]? = some r → fineGrainedOut bc p envs holes i = handleFineGrained bc p (envs i) r) ∧
    s.handled.Nodup ∧
    ∃ rcv, s.effects = (rcv.flatMap fun r => [.put r.startKey r.endKey r.files, .progress .region]) ∧
      (∀ r ∈ rcv, r.error = none) ∧
      (rcv ++ s.respCh).Perm ((List.range holes.length).flatMap fun i =>
        (fineGrainedOut bc p envs holes i).forwardedAt (s.calls i)) := by
  have hfwd i := handleFineGrained_forwarded_error bc p (envs i) (holes.getD i ⟨[], [], []⟩)
  have hs := iterInv_reachable hfwd h
  obtain ⟨rcv, heff, hsent⟩ := hs.effects_sent
  have hperm : (rcv ++ s.respCh).Perm _ := hsent ▸ hs.sent_perm
  refine ⟨fun _ _ hr => fineGrainedOut_of_getElem? hr,
    (List.nodup_append.mp (hs.fifo ▸ List.nodup_range s.next)).1, rcv, heff, fun r hr => ?_, hperm⟩
  obtain ⟨i, -, hi⟩ := List.mem_flatMap.mp (hperm.subset (List.mem_append_left _ hr))
  exact hfwd i r (CallOutcome.forwardedAt_subset _ _ hi)

theorem fineGrained_iteration_puts_mismatch :
    let out := fineGrainedOut plainClient plainParams (fun _ => mismatchStore) [hole [] []]
    let s := (iterRun 1 out iterInit (oneHoleSchedule true)).getD iterInit
    IterReachable [hole [] []].length out iterInit s ∧
      (∀ i r, [hole [] []][i]? = some r → out i = handleFineGrained plainClient plainParams
        mismatchStore r) ∧ s.handled.Nodup ∧
      ∃ rcv, s.effects = (rcv.flatMap fun r => [.put r.startKey r.endKey r.files, .progress .region]) ∧
        (∀ r ∈ rcv, r.error = none) ∧
        (rcv ++ s.respCh).Perm ((List.range [hole [] []].length).flatMap fun i =>
          (out i).forwardedAt (s.calls i)) := by
  intro out s
  have hr : IterReachable [hole [] []].length out iterInit s :=
    iterRun_reachable (Option.getD_of_ne_none (Option.ne_none_iff_isSome.mpr (by decide)) iterInit).symm
  exact ⟨hr, fineGrained_iteration_puts plainClient plainParams (fun _ => mismatchStore) _ hr⟩

/-! ### Where an error comes from -/

/-- The errors a `handleFineGrained` call returns: `findRegionLeader`'s, or an
error of `GetBackupClient` or of `SendBackup` that is not
`ErrFailedToConnect`, annotated. -/
theorem handleFineGrained_err {bc : Client} {p : FineGrainedParams} {env : StoreEnv} {rg : Range}
    {e : BrError} (h : (handleFineGrained bc p env rg).err = some e) :
    e = ⟨.backupNoLeader, "can not find leader"⟩ ∨
      ∃ (storeID : Nat) (err : BrError), err.cls ≠ .failedToConnect ∧
        (e = err.annotate s!"failed to connect to store {storeID}" ∨
          e = err.annotate "failed to send fine-grained backup") := by
  revert h
  unfold handleFineGrained
  split
  · rename_i hpd
    rintro ⟨⟩
    exact .inl (findLeaderFrom_error _ _ hpd)
  · dsimp only
    split
    · split
      · rintro ⟨⟩
      · rintro ⟨⟩
        exact .inr ⟨_, _, ‹_›, .inl rfl⟩
    · split
      · split
        · rintro ⟨⟩
        · rintro ⟨⟩
          exact .inr ⟨0, _, ‹_›, .inr rfl⟩
      · rintro ⟨⟩

theorem handleFineGrained_err_cls {bc : Client} {p : FineGrainedParams} {env : StoreEnv}
    {rg : Range} {e : BrError} (h : (handleFineGrained bc p env rg).err = some e) :
    e.cls ≠ .failedToConnect := by
  rcases handleFineGrained_err h with rfl | ⟨_, err, hcls, rfl | rfl⟩
  · decide
  all_goals simpa using hcls

section Errors

variable {n : Nat} {out : Nat → CallOutcome} {s t : IterState}

/-- Every error in `errCh`, and the one the collector returned, is the error of
one of the iteration's calls. -/
structure ErrsFromCalls (n : Nat) (out : Nat → CallOutcome) (s : IterState) : Prop where
  errCh : ∀ e ∈ s.errCh, ∃ i < n, (out i).err = some e
  returned : ∀ e, s.collector = .returned e → ∃ i < n, (out i).err = some e

theorem errsFromCalls_step (hs : IterInv n out s) (he : ErrsFromCalls n out s) {a : IterAction}
    (h : iterStep n out s a = some t) : ErrsFromCalls n out t := by
  obtain ⟨hch, hcol⟩ := he
  cases a with
  | dispatch => obtain ⟨-, -, -, rfl⟩ := iterStep_dispatch h; exact ⟨hch, hcol⟩
  | closeRetry => obtain ⟨-, -, rfl⟩ := iterStep_closeRetry h; exact ⟨hch, hcol⟩
  | closeResp => obtain ⟨-, -, rfl⟩ := iterStep_closeResp h; exact ⟨hch, hcol⟩
  | recv w =>
    obtain ⟨-, ⟨_, _, -, rfl⟩ | ⟨-, -, rfl⟩⟩ := iterStep_recv h <;> exact ⟨hch, hcol⟩
  | forward w => obtain ⟨_, _, _, -, -, -, -, rfl⟩ := iterStep_forward h; exact ⟨hch, hcol⟩
  | finish w =>
    obtain ⟨i, -, hc, ⟨e, hei, -, rfl⟩ | ⟨-, rfl⟩⟩ := iterStep_finish h
    · have hi : i < n := hs.started_lt (by simp [hc])
      refine ⟨fun e' he' => ?_, hcol⟩
      rcases List.mem_append.mp he' with he' | he'
      · exact hch e' he'
      · exact ⟨i, hi, List.eq_of_mem_singleton he' ▸ hei⟩
    · exact ⟨hch, hcol⟩
  | done w => obtain ⟨-, rfl⟩ := iterStep_done h; exact ⟨hch, hcol⟩
  | takeErr =>
    obtain ⟨e, rest, -, hce, rfl⟩ := iterStep_takeErr h
    refine ⟨fun e' he' => hch e' (hce ▸ List.mem_cons_of_mem _ he'), fun e' he' => ?_⟩
    cases he'
    exact hch e (hce ▸ List.mem_cons_self _ _)
  | takeResp =>
    obtain ⟨-, ⟨_, _, -, ⟨-, rfl⟩ | ⟨-, rfl⟩⟩ | ⟨-, -, rfl⟩⟩ := iterStep_takeResp h
    · exact ⟨hch, hcol⟩
    all_goals exact ⟨hch, fun _ h' => by cases h'⟩

theorem errsFromCalls_reachable (hfwd : ∀ i, ∀ r ∈ (out i).forwarded, r.error = none)
    (h : IterReachable n out iterInit s) : ErrsFromCalls n out s := by
  induction h with
  | refl => exact ⟨fun _ h => (List.not_mem_nil _ h).elim, fun _ h => by cases h⟩
  | tail hr hst ih =>
    obtain ⟨a, hst⟩ := hst
    exact errsFromCalls_step (iterInv_reachable hfwd hr) ih hst

end Errors

/-- The error of Step 3 when the Backoffer's budget is used up. -/
theorem backoffStep_error {bo : Backoffer} {ms : Nat} {e : BrError}
    (h : backoffStep bo ms = .error e) :
    e = ⟨.unknown, s!"backoffer.maxSleep {backupFineGrainedMaxBackoff}ms is exceeded"⟩ := by
  unfold backoffStep Backoffer.backoff at h
  split_ifs at h
  cases h
  rfl

section Loop

variable {bc : Client} {p : FineGrainedParams} {startKey endKey : Key}

theorem loopStep_returned_some {x y : LoopState} (h : LoopStep bc p startKey endKey x y)
    {e : BrError} {t' : RangeTree} {es : List Effect} (hy : y = .returned (some e) t' es) :
    e = ⟨.unknown, s!"backoffer.maxSleep {backupFineGrainedMaxBackoff}ms is exceeded"⟩ ∨
      ∃ env rg, (handleFineGrained bc p env rg).err = some e := by
  cases h with
  | complete => cases hy
  | collectorReturned envs _ hr hcol =>
    cases hy
    obtain ⟨i, -, hi⟩ := (errsFromCalls_reachable
      (fun i => handleFineGrained_forwarded_error bc p (envs i) _) hr).returned _ hcol
    exact .inr ⟨_, _, hi⟩
  | drained =>
    unfold afterIteration at hy
    split at hy
    · cases hy
    · cases hy
      exact .inl (backoffStep_error ‹_›)

/-- When `fineGrainedBackup` returns an error, it is the Backoffer's once
`backupFineGrainedMaxBackoff` ms of sleep are used up, `findRegionLeader`'s, or
an annotated error of `GetBackupClient` or `SendBackup` of one call; in no case
is it `ErrFailedToConnect`, whichever iteration and interleaving it came from. -/
theorem fineGrainedBackup_error {t t' : RangeTree} {e : BrError} {es : List Effect}
    (h : FineGrainedBackup bc p startKey endKey t (some e) t' es) :
    e.cls ≠ .failedToConnect ∧
      (e = ⟨.unknown, s!"backoffer.maxSleep {backupFineGrainedMaxBackoff}ms is exceeded"⟩ ∨
        e = ⟨.backupNoLeader, "can not find leader"⟩ ∨
        ∃ (storeID : Nat) (err : BrError), err.cls ≠ .failedToConnect ∧
          (e = err.annotate s!"failed to connect to store {storeID}" ∨
            e = err.annotate "failed to send fine-grained backup")) := by
  rcases Relation.ReflTransGen.cases_tail h with h | ⟨x, -, hx⟩
  · cases h
  · rcases loopStep_returned_some hx rfl with rfl | ⟨env, rg, he⟩
    · exact ⟨by decide, .inl rfl⟩
    · exact ⟨handleFineGrained_err_cls he, .inr (handleFineGrained_err he)⟩

end Loop

/-- The schedule in which worker 0's failing call fills `errCh` and the
collector's select takes the error. -/
theorem fineGrainedBackup_error_mismatch :
    let e : BrError :=
      ⟨.kvClusterIDMismatch, "failed to send fine-grained backup: cluster mismatch on storeID: 1"⟩
    ∃ t' es, FineGrainedBackup plainClient plainParams [] [] .empty (some e) t' es ∧
      e.cls ≠ .failedToConnect ∧
      (e = ⟨.unknown, s!"backoffer.maxSleep {backupFineGrainedMaxBackoff}ms is exceeded"⟩ ∨
        e = ⟨.backupNoLeader, "can not find leader"⟩ ∨
        ∃ (storeID : Nat) (err : BrError), err.cls ≠ .failedToConnect ∧
          (e = err.annotate s!"failed to connect to store {storeID}" ∨
            e = err.annotate "failed to send fine-grained backup")) := by
  intro e
  let holes := RangeTree.empty.getIncompleteRange [] []
  let out := fineGrainedOut plainClient plainParams (fun _ => mismatchStore) holes
  let s := (iterRun holes.length out iterInit
    [.dispatch, .closeRetry, .recv 0, .finish 0, .takeErr]).getD iterInit
  have hr : IterReachable holes.length out iterInit s :=
    iterRun_reachable (Option.getD_of_ne_none (Option.ne_none_iff_isSome.mpr (by decide)) iterInit).symm
  have hcol : s.collector = .returned e := by decide
  have h : FineGrainedBackup plainClient plainParams [] [] .empty (some e) _ _ :=
    .single (.collectorReturned (fun _ => mismatchStore) (by decide) hr hcol)
  exact ⟨_, _, h, fineGrainedBackup_error h⟩

end BrBackup
