import BrBackup.HandleFineGrained

/-! One iteration of the loop of `fineGrainedBackup` as a system of goroutines:
the dispatcher sending the holes on `retry` and closing the channels, the four
workers running `handleFineGrained` on the holes they receive, and the
collector, the select loop over `errCh` and `respCh`. A step is one channel
operation, one `wg.Done`, the return of one `handleFineGrained` call or one
turn of the select loop. What each call does is given by `out`. -/

namespace BrBackup

/-- The capacity of `respCh`, `errCh` and `retry`. -/
def chanCap : Nat := 4

/-- The dispatcher sends holes, waits on `wg` after `close(retry)`, and is done
after `close(respCh)`. -/
inductive DispatcherPc
  | sending | waiting | closed
  deriving DecidableEq, Repr

inductive WorkerPc
  | idle
  | busy (hole : Nat)
  | exiting
  | exited
  deriving DecidableEq, Repr

/-- How far the `handleFineGrained` call for one hole has got: `running k` has
forwarded `k` responses. -/
inductive CallPc
  | pending
  | running (k : Nat)
  | returned
  deriving DecidableEq, Repr

inductive CollectorPc
  | selecting
  | returned (e : BrError)
  | drained
  | panicked
  deriving DecidableEq, Repr

/-- A side effect of the collector: `rangeTree.Put` or `progressCallBack`. -/
inductive Effect
  | put (startKey endKey : Key) (files : List File)
  | progress (u : ProgressUnit)
  deriving DecidableEq, Repr

/-- The state of one iteration. `handled`, `sent` and `effects` record, in
order, the holes handed to `handleFineGrained`, the responses sent on `respCh`
and the collector's side effects. -/
structure IterState where
  next : Nat
  dispatcher : DispatcherPc
  retry : List Nat
  workers : Fin 4 → WorkerPc
  calls : Nat → CallPc
  respCh : List BackupResponse
  errCh : List BrError
  maxMs : Nat
  collector : CollectorPc
  handled : List Nat
  sent : List BackupResponse
  effects : List Effect

def iterInit : IterState where
  next := 0
  dispatcher := .sending
  retry := []
  workers := fun _ => .idle
  calls := fun _ => .pending
  respCh := []
  errCh := []
  maxMs := 0
  collector := .selecting
  handled := []
  sent := []
  effects := []

inductive IterAction
  | dispatch
  | closeRetry
  | closeResp
  | recv (w : Fin 4)
  | forward (w : Fin 4)
  | finish (w : Fin 4)
  | done (w : Fin 4)
  | takeErr
  | takeResp
  deriving DecidableEq, Repr

/-- The collector's `Put` of a response followed by `progressCallBack(RegionUnit)`. -/
def putEffects (r : BackupResponse) : List Effect := [.put r.startKey r.endKey r.files, .progress .region]

/-- `max.ms` after a worker's call returned `backoffMs` without error. -/
def raiseMax (ms backoffMs : Nat) : Nat :=
  if backoffMs ≠ 0 then (if ms < backoffMs then backoffMs else ms) else ms

section Step

variable (n : Nat) (out : Nat → CallOutcome)

/-- The steps of the iteration over holes `0, ..., n - 1`. -/
def iterStep (s : IterState) : IterAction → Option IterState
  | .dispatch =>
    if s.dispatcher = .sending ∧ s.next < n ∧ s.retry.length < chanCap then
      some { s with next := s.next + 1, retry := s.retry ++ [s.next] }
    else none
  | .closeRetry =>
    if s.dispatcher = .sending ∧ n ≤ s.next then some { s with dispatcher := .waiting } else none
  | .closeResp =>
    if s.dispatcher = .waiting ∧ ∀ w, s.workers w = .exited then
      some { s with dispatcher := .closed }
    else none
  | .recv w =>
    match s.workers w, s.retry with
    | .idle, i :: rest =>
      some { s with
        retry := rest, workers := Function.update s.workers w (.busy i)
        calls := Function.update s.calls i (.running 0), handled := s.handled ++ [i] }
    | .idle, [] =>
      if s.dispatcher ≠ .sending then some { s with workers := Function.update s.workers w .exiting }
      else none
    | _, _ => none
  | .forward w =>
    match s.workers w with
    | .busy i =>
      match s.calls i with
      | .running k =>
        match (out i).forwarded[k]? with
        | some r =>
          if s.respCh.length < chanCap then
            some { s with
              respCh := s.respCh ++ [r], calls := Function.update s.calls i (.running (k + 1))
              sent := s.sent ++ [r] }
          else none
        | none => none
      | _ => none
    | _ => none
  | .finish w =>
    match s.workers w with
    | .busy i =>
      if s.calls i = .running (out i).forwarded.length then
        match (out i).err with
        | some e =>
          if s.errCh.length < chanCap then
            some { s with
              errCh := s.errCh ++ [e], workers := Function.update s.workers w .exiting
              calls := Function.update s.calls i .returned }
          else none
        | none =>
          some { s with
            maxMs := raiseMax s.maxMs (out i).backoffMs
            workers := Function.update s.workers w .idle
            calls := Function.update s.calls i .returned }
      else none
    | _ => none
  | .done w =>
    if s.workers w = .exiting then some { s with workers := Function.update s.workers w .exited }
    else none
  | .takeErr =>
    match s.collector, s.errCh with
    | .selecting, e :: rest => some { s with errCh := rest, collector := .returned e }
    | _, _ => none
  | .takeResp =>
    match s.collector, s.respCh with
    | .selecting, r :: rest =>
      if r.error = none then some { s with respCh := rest, effects := s.effects ++ putEffects r }
      else some { s with respCh := rest, collector := .panicked }
    | .selecting, [] =>
      if s.dispatcher = .closed then some { s with collector := .drained } else none
    | _, _ => none

/-- The call for hole `i` of `holes`, made while PD and the stores behave as `envs i`. -/
def fineGrainedOut (bc : Client) (p : FineGrainedParams) (envs : Nat → StoreEnv)
    (holes : List Range) (i : Nat) : CallOutcome :=
  handleFineGrained bc p (envs i) (holes.getD i ⟨[], [], []⟩)

def IterStep (s t : IterState) : Prop := ∃ a, iterStep n out s a = some t

abbrev IterReachable := Relation.ReflTransGen (IterStep n out)

/-! ### What each action can do -/

variable {n out} {s t : IterState}

theorem iterStep_dispatch (h : iterStep n out s .dispatch = some t) :
    s.dispatcher = .sending ∧ s.next < n ∧ s.retry.length < chanCap ∧
      t = { s with next := s.next + 1, retry := s.retry ++ [s.next] } := by
  simp only [iterStep] at h
  split at h
  · rename_i hc
    exact ⟨hc.1, hc.2.1, hc.2.2, (Option.some.inj h).symm⟩
  · cases h

theorem iterStep_closeRetry (h : iterStep n out s .closeRetry = some t) :
    s.dispatcher = .sending ∧ n ≤ s.next ∧ t = { s with dispatcher := .waiting } := by
  simp only [iterStep] at h
  split at h
  · rename_i hc
    exact ⟨hc.1, hc.2, (Option.some.inj h).symm⟩
  · cases h

theorem iterStep_closeResp (h : iterStep n out s .closeResp = some t) :
    s.dispatcher = .waiting ∧ (∀ w, s.workers w = .exited) ∧
      t = { s with dispatcher := .closed } := by
  simp only [iterStep] at h
  split at h
  · rename_i hc
    exact ⟨hc.1, hc.2, (Option.some.inj h).symm⟩
  · cases h

theorem iterStep_recv {w : Fin 4} (h : iterStep n out s (.recv w) = some t) :
    s.workers w = .idle ∧
      ((∃ i rest, s.retry = i :: rest ∧ t = { s with
          retry := rest, workers := Function.update s.workers w (.busy i)
          calls := Function.update s.calls i (.running 0), handled := s.handled ++ [i] }) ∨
        (s.retry = [] ∧ s.dispatcher ≠ .sending ∧
          t = { s with workers := Function.update s.workers w .exiting })) := by
  simp only [iterStep] at h
  split at h
  · exact ⟨‹_›, .inl ⟨_, _, ‹_›, (Option.some.inj h).symm⟩⟩
  · split at h
    · exact ⟨‹_›, .inr ⟨‹_›, ‹_›, (Option.some.inj h).symm⟩⟩
    · cases h
  · cases h

theorem iterStep_forward {w : Fin 4} (h : iterStep n out s (.forward w) = some t) :
    ∃ i k r, s.workers w = .busy i ∧ s.calls i = .running k ∧ (out i).forwarded[k]? = some r ∧
      s.respCh.length < chanCap ∧ t = { s with
        respCh := s.respCh ++ [r], calls := Function.update s.calls i (.running (k + 1))
        sent := s.sent ++ [r] } := by
  simp only [iterStep] at h
  split at h <;> try cases h
  split at h <;> try cases h
  split at h <;> try cases h
  split at h
  · exact ⟨_, _, _, ‹_›, ‹_›, ‹_›, ‹_›, (Option.some.inj h).symm⟩
  · cases h

theorem iterStep_finish {w : Fin 4} (h : iterStep n out s (.finish w) = some t) :
    ∃ i, s.workers w = .busy i ∧ s.calls i = .running (out i).forwarded.length ∧
      ((∃ e, (out i).err = some e ∧ s.errCh.length < chanCap ∧ t = { s with
          errCh := s.errCh ++ [e], workers := Function.update s.workers w .exiting
          calls := Function.update s.calls i .returned }) ∨
        ((out i).err = none ∧ t = { s with
          maxMs := raiseMax s.maxMs (out i).backoffMs
          workers := Function.update s.workers w .idle
          calls := Function.update s.calls i .returned })) := by
  simp only [iterStep] at h
  split at h <;> try cases h
  split at h <;> try cases h
  rename_i hc
  split at h
  · split at h
    · exact ⟨_, ‹_›, hc, .inl ⟨_, ‹_›, ‹_›, (Option.some.inj h).symm⟩⟩
    · cases h
  · exact ⟨_, ‹_›, hc, .inr ⟨‹_›, (Option.some.inj h).symm⟩⟩

theorem iterStep_done {w : Fin 4} (h : iterStep n out s (.done w) = some t) :
    s.workers w = .exiting ∧ t = { s with workers := Function.update s.workers w .exited } := by
  simp only [iterStep] at h
  split at h
  · exact ⟨‹_›, (Option.some.inj h).symm⟩
  · cases h

theorem iterStep_takeErr (h : iterStep n out s .takeErr = some t) :
    ∃ e rest, s.collector = .selecting ∧ s.errCh = e :: rest ∧
      t = { s with errCh := rest, collector := .returned e } := by
  simp only [iterStep] at h
  split at h
  · exact ⟨_, _, ‹_›, ‹_›, (Option.some.inj h).symm⟩
  · cases h

theorem iterStep_takeResp (h : iterStep n out s .takeResp = some t) :
    s.collector = .selecting ∧
      ((∃ r rest, s.respCh = r :: rest ∧
        ((r.error = none ∧ t = { s with respCh := rest, effects := s.effects ++ putEffects r }) ∨
          (r.error ≠ none ∧ t = { s with respCh := rest, collector := .panicked }))) ∨
        (s.respCh = [] ∧ s.dispatcher = .closed ∧ t = { s with collector := .drained })) := by
  simp only [iterStep] at h
  split at h
  · split at h
    · exact ⟨‹_›, .inl ⟨_, _, ‹_›, .inl ⟨‹_›, (Option.some.inj h).symm⟩⟩⟩
    · exact ⟨‹_›, .inl ⟨_, _, ‹_›, .inr ⟨‹_›, (Option.some.inj h).symm⟩⟩⟩
  · split at h
    · exact ⟨‹_›, .inr ⟨‹_›, ‹_›, (Option.some.inj h).symm⟩⟩
    · cases h
  · cases h

end Step

end BrBackup
