import BrBackup.FineGrainedFanIn
import BrBackup.RangeTree

/-! The loop of `fineGrainedBackup`: Step 1 asks the range tree for its holes,
Step 2 is one iteration of the goroutines, and Step 3 backs off by `max.ms`.
`tikv.Backoffer` is not among the sources; it is modelled as the spec
describes it, a budget of `backupFineGrainedMaxBackoff` ms of sleep shared by
all iterations. -/

namespace BrBackup

/-- Modelled from the spec: the Backoffer of the loop, which counts the
milliseconds slept so far. -/
structure Backoffer where
  totalSleep : Nat
  deriving DecidableEq, Repr

/-- Modelled from the spec: `BackoffWithMaxSleepTxnLockFast(ms, ErrUnknown)`
fails once the sleeps so far have used up the budget, and otherwise sleeps `ms`. -/
def Backoffer.backoff (bo : Backoffer) (ms : Nat) : Except BrError Backoffer :=
  if backupFineGrainedMaxBackoff ≤ bo.totalSleep then
    .error ⟨.unknown, s!"backoffer.maxSleep {backupFineGrainedMaxBackoff}ms is exceeded"⟩
  else .ok ⟨bo.totalSleep + ms⟩

/-- Step 3: back off when `max.ms` is not zero. -/
def backoffStep (bo : Backoffer) (ms : Nat) : Except BrError Backoffer :=
  if ms ≠ 0 then bo.backoff ms else .ok bo

/-- The range tree after the collector's `Put`s. -/
def putAll (t : RangeTree) : List Effect → RangeTree
  | [] => t
  | .put s e files :: es => putAll (t.put s e files) es
  | .progress _ :: es => putAll t es

theorem putAll_append (t : RangeTree) (es es' : List Effect) :
    putAll t (es ++ es') = putAll (putAll t es) es' := by
  induction es generalizing t with
  | nil => rfl
  | cons e es ih => cases e <;> exact ih _

/-- The state of the loop: the range tree, the Backoffer and the collector's
side effects so far, or what `fineGrainedBackup` returned. -/
inductive LoopState
  | running (t : RangeTree) (bo : Backoffer) (effects : List Effect)
  | returned (err : Option BrError) (t : RangeTree) (effects : List Effect)

/-- Step 3 after an iteration whose collector left the select loop in state `s`. -/
def afterIteration (t : RangeTree) (bo : Backoffer) (es : List Effect) (s : IterState) :
    LoopState :=
  match backoffStep bo s.maxMs with
  | .ok bo' => .running (putAll t s.effects) bo' (es ++ s.effects)
  | .error e => .returned (some e) (putAll t s.effects) (es ++ s.effects)

section Loop

variable (bc : Client) (p : FineGrainedParams) (startKey endKey : Key)

/-- One turn of the loop. The stores answer the calls of the iteration as
`envs`, which may change from turn to turn, and the iteration ends in any
state its goroutines can reach. -/
inductive LoopStep : LoopState → LoopState → Prop
  | complete {t : RangeTree} {bo : Backoffer} {es : List Effect} :
    t.getIncompleteRange startKey endKey = [] → LoopStep (.running t bo es) (.returned none t es)
  | collectorReturned {t : RangeTree} {bo : Backoffer} {es : List Effect} (envs : Nat → StoreEnv)
    {s : IterState} {e : BrError} : t.getIncompleteRange startKey endKey ≠ [] →
    IterReachable (t.getIncompleteRange startKey endKey).length
      (fineGrainedOut bc p envs (t.getIncompleteRange startKey endKey)) iterInit s →
    s.collector = .returned e →
    LoopStep (.running t bo es) (.returned (some e) (putAll t s.effects) (es ++ s.effects))
  | drained {t : RangeTree} {bo : Backoffer} {es : List Effect} (envs : Nat → StoreEnv)
    {s : IterState} : t.getIncompleteRange startKey endKey ≠ [] →
    IterReachable (t.getIncompleteRange startKey endKey).length
      (fineGrainedOut bc p envs (t.getIncompleteRange startKey endKey)) iterInit s →
    s.collector = .drained → LoopStep (.running t bo es) (afterIteration t bo es s)

abbrev LoopReachable := Relation.ReflTransGen (LoopStep bc p startKey endKey)

/-- `fineGrainedBackup` on the tree `t` returns `err`, leaving the tree `t'`,
after the collectors' side effects `es`. -/
def FineGrainedBackup (t : RangeTree) (err : Option BrError) (t' : RangeTree)
    (es : List Effect) : Prop :=
  LoopReachable bc p startKey endKey (.running t ⟨0⟩ []) (.returned err t' es)

variable {bc p startKey endKey}

theorem afterIteration_ne_nil (t : RangeTree) (bo : Backoffer) (es : List Effect)
    (s : IterState) (t' : RangeTree) (es' : List Effect) :
    afterIteration t bo es s ≠ .returned none t' es' := by
  unfold afterIteration
  split <;> simp

/-- The loop returns nil only from Step 1, on a tree with no hole left. -/
theorem loopStep_returned_nil {x y : LoopState} (h : LoopStep bc p startKey endKey x y)
    {t' : RangeTree} {es : List Effect} (hy : y = .returned none t' es) :
    t'.getIncompleteRange startKey endKey = [] := by
  cases h with
  | complete hc => cases hy; exact hc
  | collectorReturned => cases hy
  | drained => exact absurd hy (afterIteration_ne_nil _ _ _ _ _ _)

/-- The tree of a loop state, and the side effects that led to it. -/
def LoopState.tree : LoopState → RangeTree
  | .running t _ _ | .returned _ t _ => t

def LoopState.effects : LoopState → List Effect
  | .running _ _ es | .returned _ _ es => es

/-- The collector's side effects are `Put`s each followed by a progress call,
and the tree is the starting tree after those `Put`s. -/
def LoopState.PutsFrom (t₀ : RangeTree) (x : LoopState) : Prop :=
  (∃ rcv : List BackupResponse, x.effects = rcv.flatMap putEffects) ∧ x.tree = putAll t₀ x.effects

theorem iter_effects_putEffects {n : Nat} {out : Nat → CallOutcome}
    (hfwd : ∀ i, ∀ r ∈ (out i).forwarded, r.error = none) {s : IterState}
    (h : IterReachable n out iterInit s) :
    ∃ rcv : List BackupResponse, s.effects = rcv.flatMap putEffects :=
  (iterInv_reachable hfwd h).effects_sent.imp fun _ h => h.1

theorem loopStep_putsFrom {t₀ : RangeTree} {x y : LoopState} (h : LoopStep bc p startKey endKey x y)
    (hx : x.PutsFrom t₀) : y.PutsFrom t₀ := by
  obtain ⟨⟨rcv, hrcv⟩, htree⟩ := hx
  cases h with
  | complete => exact ⟨⟨rcv, hrcv⟩, htree⟩
  | collectorReturned envs _ hr _ =>
    obtain ⟨rcv', h'⟩ := iter_effects_putEffects (fun i => handleFineGrained_forwarded_error _ _ _ _) hr
    simp only [LoopState.tree, LoopState.effects] at hrcv htree
    exact ⟨⟨rcv ++ rcv', by simp [LoopState.effects, hrcv, h']⟩, by
      simp only [LoopState.tree, LoopState.effects, putAll_append, ← htree]⟩
  | drained envs _ hr _ =>
    obtain ⟨rcv', h'⟩ := iter_effects_putEffects (fun i => handleFineGrained_forwarded_error _ _ _ _) hr
    simp only [LoopState.tree, LoopState.effects] at hrcv htree
    unfold afterIteration
    split <;>
    · exact ⟨⟨rcv ++ rcv', by simp [LoopState.effects, hrcv, h']⟩, by
        simp only [LoopState.tree, LoopState.effects, putAll_append, ← htree]⟩

theorem loopReachable_putsFrom {t₀ : RangeTree} {bo : Backoffer} {y : LoopState}
    (h : LoopReachable bc p startKey endKey (.running t₀ bo []) y) : y.PutsFrom t₀ := by
  induction h with
  | refl => exact ⟨⟨[], rfl⟩, rfl⟩
  | tail _ hst ih => exact loopStep_putsFrom hst ih

/-- When `fineGrainedBackup` returns nil, no hole is left in its range, and the
tree it leaves is the one it was given after every `Put` of its collectors,
each followed by one progress call. -/
theorem fineGrainedBackup_nil_complete {t t' : RangeTree} {es : List Effect}
    (h : FineGrainedBackup bc p startKey endKey t none t' es) :
    t'.getIncompleteRange startKey endKey = [] ∧ t' = putAll t es ∧
      ∃ rcv : List BackupResponse, es = rcv.flatMap putEffects := by
  obtain ⟨hrcv, htree⟩ := loopReachable_putsFrom h
  refine ⟨?_, htree, hrcv⟩
  rcases Relation.ReflTransGen.cases_tail h with h | ⟨x, -, hx⟩
  · cases h
  · exact loopStep_returned_nil hx rfl

/-- An iteration that ends at Step 3 with nothing `Put` and no backoff leaves
the loop where it was. -/
theorem loopStep_self {t : RangeTree} {bo : Backoffer} {es : List Effect} {envs : Nat → StoreEnv}
    {s : IterState}
    (hholes : t.getIncompleteRange startKey endKey ≠ [])
    (hr : IterReachable (t.getIncompleteRange startKey endKey).length
      (fineGrainedOut bc p envs (t.getIncompleteRange startKey endKey)) iterInit s)
    (hd : s.collector = .drained) (he : s.effects = []) (hm : s.maxMs = 0) :
    LoopStep bc p startKey endKey (.running t bo es) (.running t bo es) := by
  have h : LoopStep bc p startKey endKey (.running t bo es) (afterIteration t bo es s) :=
    .drained envs hholes hr hd
  simpa [afterIteration, backoffStep, hm, he, putAll] using h

end Loop

/-- The order in which the goroutines of an iteration over one hole can run
when its call forwards nothing: the dispatcher hands the hole out and closes
`retry`, worker 0 runs the call, the workers leave, and the collector finds
`respCh` closed. -/
def oneHoleSchedule (callFails : Bool) : List IterAction :=
  [.dispatch, .closeRetry, .recv 0, .finish 0] ++ (if callFails then [] else [.recv 0]) ++
    [.recv 1, .recv 2, .recv 3, .done 0, .done 1, .done 2, .done 3, .closeResp, .takeResp]

/-- The call of an iteration fails with a cluster-ID mismatch, and the
collector can still leave the select loop through the closed `respCh` with the
error unread in `errCh`; Step 3 then charges nothing and the loop is back at
its start instead of returning the error. -/
theorem fineGrained_worker_error_dropped :
    ∃ s, IterReachable 1 (fineGrainedOut plainClient plainParams (fun _ => mismatchStore)
        [hole [] []]) iterInit s ∧
      s.collector = .drained ∧ s.errCh.map BrError.cls = [.kvClusterIDMismatch] ∧
      LoopStep plainClient plainParams [] [] (.running .empty ⟨0⟩ []) (.running .empty ⟨0⟩ []) := by
  have hrun : (iterRun 1 (fineGrainedOut plainClient plainParams (fun _ => mismatchStore)
      [hole [] []]) iterInit (oneHoleSchedule true)).map
        (fun s => (s.collector, s.errCh.map BrError.cls, s.effects, s.maxMs)) =
      some (.drained, [.kvClusterIDMismatch], [], 0) := by
    decide
  obtain ⟨s, hs, hp⟩ := Option.map_eq_some'.mp hrun
  simp only [Prod.mk.injEq] at hp
  exact ⟨s, iterRun_reachable hs, hp.1, hp.2.1,
    loopStep_self (by decide) (iterRun_reachable hs) hp.1 hp.2.2.1 hp.2.2.2⟩

/-- An iteration that `Put`s nothing reaches Step 3 with `max.ms = 0` when the
store answers with a lock that has already expired, and the loop is back at
its start: it can turn forever without adding to the tree and without charging
the Backoffer. -/
theorem fineGrained_idle_iteration_repeats :
    ∃ s, IterReachable 1 (fineGrainedOut plainClient plainParams (fun _ => expiredLockStore)
        [hole [] []]) iterInit s ∧
      s.collector = .drained ∧ s.errCh = [] ∧ s.effects = [] ∧ s.maxMs = 0 ∧
      LoopStep plainClient plainParams [] [] (.running .empty ⟨0⟩ []) (.running .empty ⟨0⟩ []) := by
  have hrun : (iterRun 1 (fineGrainedOut plainClient plainParams (fun _ => expiredLockStore)
      [hole [] []]) iterInit (oneHoleSchedule false)).map
        (fun s => (s.collector, s.errCh, s.effects, s.maxMs)) =
      some (.drained, [], [], 0) := by
    decide
  obtain ⟨s, hs, hp⟩ := Option.map_eq_some'.mp hrun
  simp only [Prod.mk.injEq] at hp
  exact ⟨s, iterRun_reachable hs, hp.1, hp.2.1, hp.2.2.1, hp.2.2.2,
    loopStep_self (by decide) (iterRun_reachable hs) hp.1 hp.2.2.1 hp.2.2.2⟩

/-- An iteration that reaches Step 3 with no call failing and nothing `Put`
charges a positive backoff, unless the call for every hole was streamed at
least one response and each was a lock resolved with no time left. -/
theorem fineGrained_idle_iteration_backoff (bc : Client) (p : FineGrainedParams)
    (envs : Nat → StoreEnv) (holes : List Range)
    (hnoerr : ∀ i < holes.length, (fineGrainedOut bc p envs holes i).err = none) {s : IterState}
    (hr : IterReachable holes.length (fineGrainedOut bc p envs holes) iterInit s)
    (hd : s.collector = .drained) (hput : s.effects = []) :
    0 < s.maxMs ∨ ∀ i < holes.length, (fineGrainedOut bc p envs holes i).received ≠ [] ∧
      ∀ r ∈ (fineGrainedOut bc p envs holes i).received,
        ResolvedLock (envs i).lockResolver p.backupTS r := by
  have hf := fanIn_of_noError (fun i => handleFineGrained_forwarded_error bc p (envs i) _) hnoerr
  rcases Nat.eq_zero_or_pos s.maxMs with hm | hm
  · obtain ⟨rcv, hperm, heff⟩ := hf.put_once s hr hd
    have hrcv : rcv = [] := by
      rw [hput, eq_comm, List.flatMap_eq_nil_iff] at heff
      cases rcv with
      | nil => rfl
      | cons r _ => exact absurd (heff r (List.mem_cons_self _ _)) (by simp [putEffects])
    have hfw : ∀ i < holes.length, (fineGrainedOut bc p envs holes i).forwarded = [] := fun i hi =>
      List.flatMap_eq_nil_iff.mp (hrcv ▸ hperm).nil_eq.symm i (List.mem_range.mpr hi)
    have hms : ∀ i < holes.length, (fineGrainedOut bc p envs holes i).backoffMs = 0 := fun i hi =>
      foldr_max_eq_zero.mp ((hf.maxMs_eq s hr hd).symm.trans hm) _
        (List.mem_map_of_mem _ (List.mem_range.mpr hi))
    exact .inr fun i hi =>
      handleFineGrained_zero_backoff bc p (envs i) _ (hnoerr i hi) (hms i hi) (hfw i hi)
  · exact .inl hm

theorem fineGrained_idle_iteration_backoff_expired_lock :
    let out := fineGrainedOut plainClient plainParams (fun _ => expiredLockStore) [hole [] []]
    let s := (iterRun 1 out iterInit (oneHoleSchedule false)).getD iterInit
    (∀ i < 1, (out i).err = none) ∧ IterReachable 1 out iterInit s ∧ s.collector = .drained ∧
      s.effects = [] ∧ (0 < s.maxMs ∨ ∀ i < 1, (out i).received ≠ [] ∧
        ∀ r ∈ (out i).received, ResolvedLock expiredLockStore.lockResolver plainParams.backupTS r) := by
  intro out s
  have hnoerr : ∀ i < 1, (out i).err = none := by decide
  have hr : IterReachable 1 out iterInit s :=
    iterRun_reachable (Option.getD_of_ne_none (Option.ne_none_iff_isSome.mpr (by decide)) iterInit).symm
  have hd : s.collector = .drained := by decide
  have he : s.effects = [] := by decide
  exact ⟨hnoerr, hr, hd, he,
    fineGrained_idle_iteration_backoff plainClient plainParams (fun _ => expiredLockStore)
      [hole [] []] hnoerr hr hd he⟩

theorem foldr_max_replicate (c : Nat) : ∀ n, 0 < n → (List.replicate n c).foldr max 0 = c
  | 1, _ => by simp
  | n + 2, _ => by
    rw [List.replicate_succ, List.foldr_cons, foldr_max_replicate c (n + 1) (by omega), max_self]

/-- An iteration whose calls all return nothing, without error, with the 10 s
backoff of a store that streamed no response, cannot fail, `Put`s nothing,
and at Step 3 charges the Backoffer 10 s, or returns its error once 80 s have
been slept. From a fresh Backoffer the ninth such iteration returns that error,
so stores that answer every stream with EOF at once cannot keep the loop
running forever. This holds of the Backoffer the spec describes, which sleeps
exactly `max.ms` at each step; client-go's `BackoffWithMaxSleepTxnLockFast`
sleeps less per step, so with it more such iterations run before the error. -/
theorem fineGrained_silent_iteration (bc : Client) (p : FineGrainedParams) (envs : Nat → StoreEnv)
    (holes : List Range) (hholes : holes ≠ [])
    (hsilent : ∀ i < holes.length, fineGrainedOut bc p envs holes i = ⟨[], [], 10000, none⟩)
    {s : IterState} (hr : IterReachable holes.length (fineGrainedOut bc p envs holes) iterInit s)
    (t : RangeTree) (bo : Backoffer) (es : List Effect) :
    (∀ e, s.collector ≠ .returned e) ∧
    (s.collector = .drained → afterIteration t bo es s =
      if backupFineGrainedMaxBackoff ≤ bo.totalSleep then
        .returned (some ⟨.unknown, s!"backoffer.maxSleep {backupFineGrainedMaxBackoff}ms is exceeded"⟩)
          t es
      else .running t ⟨bo.totalSleep + 10000⟩ es) := by
  have hfwd : ∀ i, ∀ r ∈ (fineGrainedOut bc p envs holes i).forwarded, r.error = none :=
    fun i => handleFineGrained_forwarded_error bc p (envs i) _
  have hnoerr : ∀ i < holes.length, (fineGrainedOut bc p envs holes i).err = none :=
    fun i hi => by rw [hsilent i hi]
  have hf := fanIn_of_noError hfwd hnoerr
  refine ⟨(errFree_reachable hfwd hnoerr hr).not_returned, fun hd => ?_⟩
  obtain ⟨rcv, hperm, heff⟩ := hf.put_once s hr hd
  have hnil : (List.range holes.length).flatMap
      (fun i => (fineGrainedOut bc p envs holes i).forwarded) = [] :=
    List.flatMap_eq_nil_iff.mpr fun i hi => by rw [hsilent i (List.mem_range.mp hi)]
  have hrcv : rcv = [] := List.Perm.eq_nil (by rwa [hnil] at hperm)
  have he : s.effects = [] := by rw [heff, hrcv, List.flatMap_nil]
  have hmap : ((List.range holes.length).map fun i => (fineGrainedOut bc p envs holes i).backoffMs) =
      List.replicate holes.length 10000 :=
    List.eq_replicate_iff.mpr ⟨by simp, fun b hb => by
      obtain ⟨i, hi, rfl⟩ := List.mem_map.mp hb
      rw [hsilent i (List.mem_range.mp hi)]⟩
  have hm : s.maxMs = 10000 := by
    rw [hf.maxMs_eq s hr hd, hmap]
    exact foldr_max_replicate 10000 _ (List.length_pos.mpr hholes)
  unfold afterIteration backoffStep Backoffer.backoff
  simp only [hm, he, putAll, List.append_nil, if_pos (show (10000 : Nat) ≠ 0 by decide)]
  split_ifs <;> rfl

/-- The one hole's call to a store that ends its stream at once, with the
Backoffer at its budget: the iteration reaches Step 3, which returns the
Backoffer's error. -/
theorem fineGrained_silent_iteration_eof :
    let out := fineGrainedOut plainClient plainParams (fun _ => eofStore) [hole [] []]
    let s := (iterRun 1 out iterInit (oneHoleSchedule false)).getD iterInit
    [hole [] []] ≠ [] ∧ (∀ i < 1, out i = ⟨[], [], 10000, none⟩) ∧ IterReachable 1 out iterInit s ∧
      s.collector = .drained ∧ (∀ e, s.collector ≠ .returned e) ∧
      (s.collector = .drained → afterIteration .empty ⟨80000⟩ [] s =
        if backupFineGrainedMaxBackoff ≤ 80000 then
          .returned (some ⟨.unknown, s!"backoffer.maxSleep {backupFineGrainedMaxBackoff}ms is exceeded"⟩)
            .empty []
        else .running .empty ⟨80000 + 10000⟩ []) := by
  intro out s
  have hsilent : ∀ i < 1, out i = ⟨[], [], 10000, none⟩ := by decide
  have hr : IterReachable 1 out iterInit s :=
    iterRun_reachable (Option.getD_of_ne_none (Option.ne_none_iff_isSome.mpr (by decide)) iterInit).symm
  have hd : s.collector = .drained := by decide
  exact ⟨List.cons_ne_nil _ _, hsilent, hr, hd, fineGrained_silent_iteration plainClient plainParams
    (fun _ => eofStore) [hole [] []] (List.cons_ne_nil _ _) hsilent hr .empty ⟨80000⟩ []⟩

end BrBackup
