import BrBackup.SendBackup

/-! The retry protocol that `SendBackup` follows, read off its events: at most
`backupRetryTimes` attempts, `resetFn` right after each retryable failure,
`CloseSend` once on every opened stream, the callback fed every received
response in stream order, and the cases in which it returns nil. -/

namespace BrBackup

def SendEvent.isAttempt : SendEvent → Bool
  | .open _ | .openFailed _ _ => true
  | .recv _ | .respFnFailed _ | .eof | .recvFailed _ | .sleep _ | .reset | .closeSend => false

def attemptCount (ev : List SendEvent) : Nat := ev.countP SendEvent.isAttempt

/-- Whether a stream is open: `CloseSend` closes the stream that `open` opened. -/
def closeStep : Bool → SendEvent → Option Bool
  | false, .open _ => some false.not
  | true, .closeSend => some false
  | true, .open _ | false, .closeSend | true, .openFailed _ _ => none
  | o, _ => some o

/-- Every opened stream gets exactly one `CloseSend`, before the next attempt
or the return. -/
def CloseSendOnce (ev : List SendEvent) : Prop := ev.foldlM closeStep false = some false

inductive ResetPhase
  | idle | failed | slept
  deriving DecidableEq, Repr

/-- A retryable failure must be followed by the 3 s sleep and one `resetFn`
call, and `resetFn` is called nowhere else. -/
def resetStep : ResetPhase → SendEvent → Option ResetPhase
  | .idle, .openFailed _ e | .idle, .recvFailed e =>
    some (if isRetryableError e then .failed else .idle)
  | .idle, .reset => none
  | .idle, _ => some .idle
  | .failed, .sleep ms => if ms = 3000 then some .slept else none
  | .failed, _ => none
  | .slept, .reset => some .idle
  | .slept, _ => none

def ResetsFollowFailures (ev : List SendEvent) : Prop := ev.foldlM resetStep .idle = some .idle

def SendEvent.received : SendEvent → Option BackupResponse
  | .recv r => some r
  | .open _ | .openFailed _ _ | .respFnFailed _ | .eof | .recvFailed _ | .sleep _ | .reset
  | .closeSend => none

/-- The responses handed to `respFn`, in order. -/
def recvsOf (ev : List SendEvent) : List BackupResponse := ev.filterMap SendEvent.received

/-- `e` is the error of a failed `client.Backup` or `Recv` among the events. -/
def FailedWith (ev : List SendEvent) (e : RpcError) : Prop :=
  (∃ k, .openFailed k e ∈ ev) ∨ .recvFailed e ∈ ev

@[simp] theorem foldlM_closeStep_recvs (xs : List BackupResponse) (o : Bool) :
    (xs.map SendEvent.recv).foldlM closeStep o = some o := by
  induction xs with
  | nil => rfl
  | cons x xs ih => cases o <;> simpa [closeStep] using ih

@[simp] theorem foldlM_resetStep_recvs (xs : List BackupResponse) :
    (xs.map SendEvent.recv).foldlM resetStep .idle = some .idle := by
  induction xs with
  | nil => rfl
  | cons x xs ih => simpa [resetStep] using ih

@[simp] theorem recvsOf_cons (e : SendEvent) (ev : List SendEvent) :
    recvsOf (e :: ev) = e.received.toList ++ recvsOf ev := by
  cases e <;> rfl

@[simp] theorem recvsOf_nil : recvsOf [] = [] := rfl

@[simp] theorem recvsOf_append (a b : List SendEvent) :
    recvsOf (a ++ b) = recvsOf a ++ recvsOf b := List.filterMap_append _ _ _

@[simp] theorem recvsOf_map_recv (xs : List BackupResponse) :
    recvsOf (xs.map SendEvent.recv) = xs := by
  induction xs with
  | nil => rfl
  | cons x xs ih => simpa [SendEvent.received] using ih

@[simp] theorem attemptCount_cons (e : SendEvent) (ev : List SendEvent) :
    attemptCount (e :: ev) = attemptCount ev + if e.isAttempt then 1 else 0 := List.countP_cons _ _ _

@[simp] theorem attemptCount_append (a b : List SendEvent) :
    attemptCount (a ++ b) = attemptCount a + attemptCount b := List.countP_append _ _ _

@[simp] theorem attemptCount_map_recv (xs : List BackupResponse) :
    attemptCount (xs.map SendEvent.recv) = 0 := by
  simp [attemptCount, List.countP_eq_zero, SendEvent.isAttempt]

def Attempt.resps : Attempt → List BackupResponse
  | .openFail _ => []
  | .stream rs _ => rs

/-- The attempt ends in a failure that `isRetryableError` accepts. -/
def Attempt.retryableEnd : Attempt → Bool
  | .openFail e | .stream _ (.fail e) => isRetryableError e
  | .stream _ .eof => false

def Attempt.reachesEof : Attempt → Bool
  | .stream _ .eof => true
  | _ => false

section Legs

variable {σ : Type} (respFn : σ → BackupResponse → Except BrError σ) (storeID : Nat)

/-- The receive loop either hands every response to `respFn` and ends as the
stream does, or stops at the first response that `respFn` rejects. -/
theorem recvLoop_spec (reset : Option BrError) (retry : Nat) (st : σ)
    (rs : List BackupResponse) (fin : StreamEnd) :
    (∃ st', rs.foldlM respFn st = .ok st' ∧
      recvLoop respFn storeID reset retry st rs fin =
        ⟨rs.map .recv ++ (streamEnd storeID reset retry st' fin).events,
          (streamEnd storeID reset retry st' fin).state,
          (streamEnd storeID reset retry st' fin).flow⟩) ∨
    (∃ pre r post st' e, rs = pre ++ r :: post ∧ pre.foldlM respFn st = .ok st' ∧
      respFn st' r = .error e ∧
      recvLoop respFn storeID reset retry st rs fin =
        ⟨(pre ++ [r]).map .recv ++ [.respFnFailed e, .closeSend], st', .stop (some e)⟩) := by
  induction rs generalizing st with
  | nil => exact .inl ⟨st, rfl, rfl⟩
  | cons r rs ih =>
    cases h : respFn st r with
    | error e => exact .inr ⟨[], r, rs, st, e, rfl, rfl, h, by simp [recvLoop, h]⟩
    | ok st₁ =>
      rcases ih st₁ with ⟨st', hf, he⟩ | ⟨pre, r', post, st', e, rfl, hf, hr, he⟩
      · exact .inl ⟨st', by simp [h, hf], by simp [recvLoop, h, he]⟩
      · exact .inr ⟨r :: pre, r', post, st', e, rfl, by simp [h, hf], hr,
          by simp [recvLoop, h, he]⟩

/-- What one attempt guarantees, whatever the store and the callback do. -/
structure LegFacts (a : Attempt) (reset : Option BrError) (l : Leg σ) : Prop where
  count : attemptCount l.events = 1
  close : l.events.foldlM closeStep false = some false
  resets : l.events.foldlM resetStep .idle = some .idle
  respFnStop : ∀ e, .respFnFailed e ∈ l.events →
    l.flow = .stop (some e) ∧ ∃ pre, l.events = pre ++ [.respFnFailed e, .closeSend]
  fatal : ∀ e, FailedWith l.events e → isRetryableError e = false →
    ∃ m, l.flow = .stop (some (failedToConnect m))
  recvs : ∃ m, recvsOf l.events = a.resps.take m ∧
    (a.resps.length ≤ m ∨ ∃ e, .respFnFailed e ∈ l.events)
  next_iff : l.flow = .next ↔ a.retryableEnd ∧ reset = none ∧ ∀ e, .respFnFailed e ∉ l.events
  nil_iff : l.flow = .stop none ↔ a.reachesEof ∧ ∀ e, .respFnFailed e ∉ l.events

/-- What the end of an opened stream does after its last response. -/
structure EndFacts (fin : StreamEnd) (reset : Option BrError) (l : Leg σ) : Prop where
  count : attemptCount l.events = 0
  close : l.events.foldlM closeStep true = some false
  resets : l.events.foldlM resetStep .idle = some .idle
  recvs : recvsOf l.events = []
  no_respFn : ∀ e, .respFnFailed e ∉ l.events
  fatal : ∀ e, FailedWith l.events e → isRetryableError e = false →
    ∃ m, l.flow = .stop (some (failedToConnect m))
  next_iff : l.flow = .next ↔ (Attempt.stream [] fin).retryableEnd ∧ reset = none
  nil_iff : l.flow = .stop none ↔ fin = .eof

theorem streamEnd_facts (reset : Option BrError) (retry : Nat) (st : σ) (fin : StreamEnd) :
    EndFacts fin reset (streamEnd storeID reset retry st fin) := by
  cases fin with
  | eof => exact ⟨rfl, rfl, rfl, rfl, by simp [streamEnd], by simp [streamEnd, FailedWith],
      by simp [streamEnd, Attempt.retryableEnd], by simp [streamEnd]⟩
  | fail e =>
    by_cases hr : isRetryableError e
    · cases reset <;> simp only [streamEnd, hr, if_true] <;>
        exact ⟨rfl, rfl, by simp [resetStep, hr], rfl, by simp, by simp [FailedWith, hr],
          by simp [Attempt.retryableEnd, hr], by simp⟩
    · simp only [streamEnd, hr, Bool.false_eq_true, if_false]
      exact ⟨rfl, rfl, by simp [resetStep, hr], rfl, by simp,
        fun _ _ _ => ⟨_, rfl⟩, by simp [Attempt.retryableEnd, hr], by simp⟩

theorem attemptStep_facts (reset : Option BrError) (retry : Nat) (st : σ) (a : Attempt) :
    LegFacts a reset (attemptStep respFn storeID reset retry st a) := by
  cases a with
  | openFail e =>
    by_cases hr : isRetryableError e
    · cases reset <;> simp only [attemptStep, hr, if_true] <;>
        exact ⟨rfl, rfl, by simp [resetStep, hr], by simp, by simp [FailedWith, hr],
          ⟨0, rfl, .inl le_rfl⟩, by simp [Attempt.retryableEnd, hr], by simp [Attempt.reachesEof]⟩
    · simp only [attemptStep, hr, Bool.false_eq_true, if_false]
      exact ⟨rfl, rfl, by simp [resetStep, hr], by simp, fun _ _ _ => ⟨_, rfl⟩,
        ⟨0, rfl, .inl le_rfl⟩, by simp [Attempt.retryableEnd, hr], by simp [Attempt.reachesEof]⟩
  | stream rs fin =>
    rcases recvLoop_spec respFn storeID reset retry st rs fin with
      ⟨st', -, he⟩ | ⟨pre, r, post, st', e, rfl, -, -, he⟩
    · have hf := streamEnd_facts storeID reset retry st' fin
      set l := streamEnd storeID reset retry st' fin
      have hno : ∀ e, .respFnFailed e ∉ (attemptStep respFn storeID reset retry st
          (.stream rs fin)).events := by
        simpa [attemptStep, he] using hf.no_respFn
      have hend : (Attempt.stream rs fin).retryableEnd = (Attempt.stream [] fin).retryableEnd ∧
          (Attempt.stream rs fin).reachesEof = (fin == .eof) := by
        cases fin <;> simp [Attempt.retryableEnd, Attempt.reachesEof]
      refine ⟨?_, ?_, ?_, fun e he' => absurd he' (hno e), fun e hfe hr => ?_, ⟨rs.length, ?_⟩,
        ?_, ?_⟩
      · simp [attemptStep, he, List.countP_cons, SendEvent.isAttempt, hf.count]
      · simp [attemptStep, he, closeStep, List.foldlM_append, hf.close]
      · simp [attemptStep, he, resetStep, List.foldlM_append, hf.resets]
      · simp only [attemptStep, he] at hfe ⊢
        exact hf.fatal e (by simpa [FailedWith] using hfe) hr
      · simp [attemptStep, he, hf.recvs, SendEvent.received, Attempt.resps]
      · simp [attemptStep, he, hf.next_iff, hend.1, hf.no_respFn]
      · simp [attemptStep, he, hf.nil_iff, hend.2, hf.no_respFn]
    · have hev : (attemptStep respFn storeID reset retry st (.stream (pre ++ r :: post) fin)).events =
          (.open retry :: (pre ++ [r]).map .recv) ++ [.respFnFailed e, .closeSend] := by
        simp [attemptStep, he]
      refine ⟨?_, ?_, ?_, fun e' he' => ?_, ?_, ⟨pre.length + 1, ?_⟩, ?_, ?_⟩
      · simp [hev, attemptCount, SendEvent.isAttempt]
      · simp [hev, closeStep]
      · simp [hev, resetStep]
      · simp only [hev, List.mem_append, List.mem_cons, List.mem_map, List.mem_singleton] at he'
        have he' : e' = e := by simpa using he'
        subst he'
        exact ⟨by simp [attemptStep, he], _, hev⟩
      all_goals simp [attemptStep, he, FailedWith, Attempt.resps, Attempt.retryableEnd,
        Attempt.reachesEof, SendEvent.received, List.take_append_eq_append_take]

/-- The callback's state after an attempt is the fold of `respFn` over the
responses it accepted: all those handed to it unless it failed. -/
theorem attemptStep_state (reset : Option BrError) (retry : Nat) (st : σ) (a : Attempt) :
    ∃ rs, rs <+: recvsOf (attemptStep respFn storeID reset retry st a).events ∧
      rs.foldlM respFn st = .ok (attemptStep respFn storeID reset retry st a).state ∧
      ((∀ e, .respFnFailed e ∉ (attemptStep respFn storeID reset retry st a).events) →
        rs = recvsOf (attemptStep respFn storeID reset retry st a).events) := by
  cases a with
  | openFail e =>
    refine ⟨[], List.nil_prefix, ?_, fun _ => ?_⟩ <;> by_cases hr : isRetryableError e <;>
      cases reset <;> simp [attemptStep, hr, SendEvent.received]
  | stream rs fin =>
    rcases recvLoop_spec respFn storeID reset retry st rs fin with
      ⟨st', hf, he⟩ | ⟨pre, r, post, st', e, rfl, hf, -, he⟩
    · have hend : recvsOf (streamEnd storeID reset retry st' fin).events = [] ∧
          (streamEnd storeID reset retry st' fin).state = st' := by
        cases fin with
        | eof => simp [streamEnd, SendEvent.received]
        | fail e =>
          by_cases hr : isRetryableError e
          · cases reset <;> simp [streamEnd, hr, SendEvent.received]
          · simp [streamEnd, hr, SendEvent.received]
      refine ⟨rs, ?_, ?_, fun _ => ?_⟩ <;> simp [attemptStep, he, hend, SendEvent.received, hf]
    · refine ⟨pre, ?_, by simpa [attemptStep, he] using hf, fun hno => ?_⟩
      · simp [attemptStep, he, SendEvent.received]
      · simp [attemptStep, he] at hno

end Legs

theorem failedWith_append {a b : List SendEvent} {e : RpcError} :
    FailedWith (a ++ b) e ↔ FailedWith a e ∨ FailedWith b e := by
  simp only [FailedWith, List.mem_append]
  constructor
  · rintro (⟨k, hk | hk⟩ | hk | hk)
    exacts [.inl (.inl ⟨k, hk⟩), .inr (.inl ⟨k, hk⟩), .inl (.inr hk), .inr (.inr hk)]
  · rintro ((⟨k, hk⟩ | hk) | (⟨k, hk⟩ | hk))
    exacts [.inl ⟨k, .inl hk⟩, .inr (.inl hk), .inl ⟨k, .inr hk⟩, .inr (.inr hk)]

theorem Attempt.not_reachesEof_of_retryableEnd {a : Attempt} (h : a.retryableEnd) :
    a.reachesEof = false := by
  cases a with
  | openFail e => rfl
  | stream rs fin => cases fin <;> simp_all [Attempt.retryableEnd, Attempt.reachesEof]

/-- Attempts `retry`, ..., `retry + j - 1` all ended in a retryable failure
after which `resetFn` succeeded. -/
def Retried (attempts : Nat → Attempt) (resetFn : Nat → Option BrError) (retry j : Nat) : Prop :=
  ∀ i < j, (attempts (retry + i)).retryableEnd ∧ resetFn (retry + i) = none

theorem retried_succ {attempts : Nat → Attempt} {resetFn : Nat → Option BrError} {retry j : Nat} :
    Retried attempts resetFn retry (j + 1) ↔
      ((attempts retry).retryableEnd ∧ resetFn retry = none) ∧
        Retried attempts resetFn (retry + 1) j := by
  constructor
  · intro h
    exact ⟨h 0 (Nat.succ_pos j), fun i hi => by
      simpa only [Nat.add_right_comm] using h (i + 1) (by omega)⟩
  · rintro ⟨h0, h⟩ i hi
    rcases i with _ | i
    · exact h0
    · simpa only [Nat.add_right_comm, Nat.add_assoc] using h i (by omega)

section Loop

variable {σ : Type} (respFn : σ → BackupResponse → Except BrError σ) (storeID : Nat)
  (attempts : Nat → Attempt) (resetFn : Nat → Option BrError)

theorem backupLoop_stop {left retry : Nat} {st : σ} {l : Leg σ} {r : Option BrError}
    (h : l.flow = .stop r)
    (hl : attemptStep respFn storeID (resetFn retry) retry st (attempts retry) = l) :
    backupLoop respFn storeID attempts resetFn (left + 1) retry st = ⟨l.events, l.state, r⟩ := by
  subst hl
  simp [backupLoop, h]

theorem backupLoop_next {left retry : Nat} {st : σ} {l : Leg σ}
    (h : l.flow = .next)
    (hl : attemptStep respFn storeID (resetFn retry) retry st (attempts retry) = l) :
    backupLoop respFn storeID attempts resetFn (left + 1) retry st =
      ⟨l.events ++ (backupLoop respFn storeID attempts resetFn left (retry + 1) l.state).events,
        (backupLoop respFn storeID attempts resetFn left (retry + 1) l.state).state,
        (backupLoop respFn storeID attempts resetFn left (retry + 1) l.state).err⟩ := by
  subst hl
  simp [backupLoop, h]

theorem backupLoop_count (left retry : Nat) (st : σ) :
    attemptCount (backupLoop respFn storeID attempts resetFn left retry st).events ≤ left := by
  induction left, retry, st using backupLoop.induct respFn storeID attempts resetFn with
  | case1 => simp [backupLoop, attemptCount]
  | case2 left retry st l r h =>
    have hf : LegFacts (attempts retry) (resetFn retry) l := attemptStep_facts ..
    rw [backupLoop_stop respFn storeID attempts resetFn h rfl, hf.count]
    omega
  | case3 left retry st l h ih =>
    have hf : LegFacts (attempts retry) (resetFn retry) l := attemptStep_facts ..
    rw [backupLoop_next respFn storeID attempts resetFn h rfl, attemptCount_append, hf.count]
    omega

theorem backupLoop_closeSendOnce (left retry : Nat) (st : σ) :
    CloseSendOnce (backupLoop respFn storeID attempts resetFn left retry st).events := by
  induction left, retry, st using backupLoop.induct respFn storeID attempts resetFn with
  | case1 => rfl
  | case2 left retry st l r h =>
    rw [backupLoop_stop respFn storeID attempts resetFn h rfl]
    exact (attemptStep_facts ..).close
  | case3 left retry st l h ih =>
    have hf : LegFacts (attempts retry) (resetFn retry) l := attemptStep_facts ..
    rw [backupLoop_next respFn storeID attempts resetFn h rfl]
    simpa [CloseSendOnce, List.foldlM_append, hf.close] using ih

theorem backupLoop_resetsFollowFailures (left retry : Nat) (st : σ) :
    ResetsFollowFailures (backupLoop respFn storeID attempts resetFn left retry st).events := by
  induction left, retry, st using backupLoop.induct respFn storeID attempts resetFn with
  | case1 => rfl
  | case2 left retry st l r h =>
    rw [backupLoop_stop respFn storeID attempts resetFn h rfl]
    exact (attemptStep_facts ..).resets
  | case3 left retry st l h ih =>
    have hf : LegFacts (attempts retry) (resetFn retry) l := attemptStep_facts ..
    rw [backupLoop_next respFn storeID attempts resetFn h rfl]
    simpa [ResetsFollowFailures, List.foldlM_append, hf.resets] using ih

theorem backupLoop_respFnStop (left retry : Nat) (st : σ) (e : BrError)
    (he : .respFnFailed e ∈ (backupLoop respFn storeID attempts resetFn left retry st).events) :
    (backupLoop respFn storeID attempts resetFn left retry st).err = some e ∧
      ∃ pre, (backupLoop respFn storeID attempts resetFn left retry st).events =
        pre ++ [.respFnFailed e, .closeSend] := by
  induction left, retry, st using backupLoop.induct respFn storeID attempts resetFn with
  | case1 => simp [backupLoop] at he
  | case2 left retry st l r h =>
    have hf : LegFacts (attempts retry) (resetFn retry) l := attemptStep_facts ..
    rw [backupLoop_stop respFn storeID attempts resetFn h rfl] at he ⊢
    obtain ⟨hfl, hpre⟩ := hf.respFnStop e he
    obtain rfl : r = some e := by simpa [h] using hfl
    exact ⟨rfl, hpre⟩
  | case3 left retry st l h ih =>
    have hf : LegFacts (attempts retry) (resetFn retry) l := attemptStep_facts ..
    rw [backupLoop_next respFn storeID attempts resetFn h rfl] at he ⊢
    rcases List.mem_append.mp he with hl | hk
    · exact absurd hl ((hf.next_iff.mp h).2.2 e)
    · obtain ⟨herr, pre, hpre⟩ := ih hk
      exact ⟨herr, l.events ++ pre, by rw [hpre, List.append_assoc]⟩

theorem backupLoop_fatal (left retry : Nat) (st : σ) (e : RpcError)
    (he : FailedWith (backupLoop respFn storeID attempts resetFn left retry st).events e)
    (hr : isRetryableError e = false) :
    ∃ m, (backupLoop respFn storeID attempts resetFn left retry st).err =
      some (failedToConnect m) := by
  induction left, retry, st using backupLoop.induct respFn storeID attempts resetFn with
  | case1 => simp [backupLoop, FailedWith] at he
  | case2 left retry st l r h =>
    have hf : LegFacts (attempts retry) (resetFn retry) l := attemptStep_facts ..
    rw [backupLoop_stop respFn storeID attempts resetFn h rfl] at he ⊢
    obtain ⟨m, hm⟩ := hf.fatal e he hr
    exact ⟨m, by simpa [h] using hm⟩
  | case3 left retry st l h ih =>
    have hf : LegFacts (attempts retry) (resetFn retry) l := attemptStep_facts ..
    rw [backupLoop_next respFn storeID attempts resetFn h rfl] at he ⊢
    rcases failedWith_append.mp he with hl | hk
    · obtain ⟨m, hm⟩ := hf.fatal e hl hr
      simp [h] at hm
    · exact ih hk

/-- `respFn` gets, in order, every response of the attempts before the last,
and a prefix of the last attempt's responses that is all of them unless
`respFn` failed. -/
theorem backupLoop_recvs (left retry : Nat) (st : σ) (hleft : 0 < left) :
    ∃ j m, attemptCount (backupLoop respFn storeID attempts resetFn left retry st).events = j + 1 ∧
      recvsOf (backupLoop respFn storeID attempts resetFn left retry st).events =
        (List.range' retry j).flatMap (fun i => (attempts i).resps) ++
          (attempts (retry + j)).resps.take m ∧
      ((attempts (retry + j)).resps.length ≤ m ∨
        ∃ e, .respFnFailed e ∈ (backupLoop respFn storeID attempts resetFn left retry st).events) := by
  induction left, retry, st using backupLoop.induct respFn storeID attempts resetFn with
  | case1 => omega
  | case2 left retry st l r h =>
    have hf : LegFacts (attempts retry) (resetFn retry) l := attemptStep_facts ..
    rw [backupLoop_stop respFn storeID attempts resetFn h rfl]
    obtain ⟨m, hm, hc⟩ := hf.recvs
    exact ⟨0, m, hf.count, by simpa using hm, hc⟩
  | case3 left retry st l h ih =>
    have hf : LegFacts (attempts retry) (resetFn retry) l := attemptStep_facts ..
    have hno := (hf.next_iff.mp h).2.2
    obtain ⟨m, hm, hc⟩ := hf.recvs
    have hfull : recvsOf l.events = (attempts retry).resps := by
      rw [hm, List.take_of_length_le (hc.resolve_right fun ⟨e, he⟩ => hno e he)]
    rw [backupLoop_next respFn storeID attempts resetFn h rfl]
    rcases Nat.eq_zero_or_pos left with rfl | hpos
    · exact ⟨0, (attempts retry).resps.length, by simp [backupLoop, hf.count],
        by simp [backupLoop, hfull], .inl le_rfl⟩
    · obtain ⟨j, m', hj, hr, hc'⟩ := ih hpos
      refine ⟨j + 1, m', by rw [attemptCount_append, hf.count, hj]; omega, ?_, ?_⟩
      · rw [recvsOf_append, hfull, hr, List.range'_succ, List.flatMap_cons, List.append_assoc,
          Nat.add_right_comm, Nat.add_assoc]
      · rw [Nat.add_right_comm, Nat.add_assoc] at hc'
        exact hc'.imp_right fun ⟨e, he⟩ => ⟨e, List.mem_append_right _ he⟩

/-- When the loop returns nil: an attempt reached EOF after retried ones, or
every attempt was retried, and `respFn` never failed. -/
theorem backupLoop_err_eq_none_iff (left retry : Nat) (st : σ) :
    (backupLoop respFn storeID attempts resetFn left retry st).err = none ↔
      (∀ e, .respFnFailed e ∉ (backupLoop respFn storeID attempts resetFn left retry st).events) ∧
      ((∃ j < left, (attempts (retry + j)).reachesEof ∧ Retried attempts resetFn retry j) ∨
        Retried attempts resetFn retry left) := by
  induction left, retry, st using backupLoop.induct respFn storeID attempts resetFn with
  | case1 => simp [backupLoop, Retried]
  | case2 left retry st l r h =>
    have hf : LegFacts (attempts retry) (resetFn retry) l := attemptStep_facts ..
    have hnext : ¬ ((attempts retry).retryableEnd ∧ resetFn retry = none ∧
        ∀ e, .respFnFailed e ∉ l.events) := fun hn => by simp [hf.next_iff.mpr hn] at h
    rw [backupLoop_stop respFn storeID attempts resetFn h rfl]
    have hnil := hf.nil_iff
    rw [h] at hnil
    simp only [Flow.stop.injEq] at hnil
    rw [hnil]
    constructor
    · rintro ⟨heof, hno⟩
      exact ⟨hno, .inl ⟨0, Nat.succ_pos left, by simpa using heof, fun i hi => absurd hi (by omega)⟩⟩
    · rintro ⟨hno, ⟨j, hj, heof, hret⟩ | hret⟩
      · rcases j with _ | j
        · exact ⟨by simpa using heof, hno⟩
        · exact absurd ⟨(retried_succ.mp hret).1.1, (retried_succ.mp hret).1.2, hno⟩ hnext
      · exact absurd ⟨(retried_succ.mp hret).1.1, (retried_succ.mp hret).1.2, hno⟩ hnext
  | case3 left retry st l h ih =>
    have hf : LegFacts (attempts retry) (resetFn retry) l := attemptStep_facts ..
    obtain ⟨hend, hreset, hno⟩ := hf.next_iff.mp h
    rw [backupLoop_next respFn storeID attempts resetFn h rfl]
    simp only [ih, List.mem_append, not_or, hno, not_false_eq_true, true_and]
    refine and_congr_right fun _ => or_congr ?_ (by rw [retried_succ]; simp [hend, hreset])
    constructor
    · rintro ⟨j, hj, heof, hret⟩
      exact ⟨j + 1, by omega, by simpa [Nat.add_right_comm, Nat.add_assoc] using heof,
        retried_succ.mpr ⟨⟨hend, hreset⟩, hret⟩⟩
    · rintro ⟨j, hj, heof, hret⟩
      rcases j with _ | j
      · simp [Attempt.not_reachesEof_of_retryableEnd hend] at heof
      · exact ⟨j, by omega, by simpa [Nat.add_right_comm, Nat.add_assoc] using heof,
          (retried_succ.mp hret).2⟩

theorem backupLoop_state (left retry : Nat) (st : σ) :
    ∃ rs, rs <+: recvsOf (backupLoop respFn storeID attempts resetFn left retry st).events ∧
      rs.foldlM respFn st = .ok (backupLoop respFn storeID attempts resetFn left retry st).state ∧
      ((∀ e, .respFnFailed e ∉ (backupLoop respFn storeID attempts resetFn left retry st).events) →
        rs = recvsOf (backupLoop respFn storeID attempts resetFn left retry st).events) := by
  induction left, retry, st using backupLoop.induct respFn storeID attempts resetFn with
  | case1 => exact ⟨[], List.nil_prefix, rfl, fun _ => rfl⟩
  | case2 left retry st l r h =>
    rw [backupLoop_stop respFn storeID attempts resetFn h rfl]
    exact attemptStep_state ..
  | case3 left retry st l h ih =>
    have hf : LegFacts (attempts retry) (resetFn retry) l := attemptStep_facts ..
    obtain ⟨rs, -, hfold, hall⟩ := attemptStep_state respFn storeID (resetFn retry) retry st
      (attempts retry)
    have hrs : rs = recvsOf l.events := hall (hf.next_iff.mp h).2.2
    obtain ⟨rs', hpre, hfold', hall'⟩ := ih
    rw [backupLoop_next respFn storeID attempts resetFn h rfl]
    refine ⟨rs ++ rs', ?_, ?_, fun hno => ?_⟩
    · rw [recvsOf_append, hrs]
      exact (List.prefix_append_right_inj _).mpr hpre
    · rw [List.foldlM_append, hfold]
      exact hfold'
    · rw [recvsOf_append, hrs, hall' fun e he => hno e (List.mem_append_right _ he)]

end Loop

end BrBackup

namespace BrBackup

/-- The first `client.Backup` fails with `Unavailable`, the reset succeeds, and
the second stream yields two responses and EOF: two attempts, with the 3 s
sleep and the reset between them. -/
example :
    let r : BackupResponse := ⟨none, [], [], []⟩
    sendBackup (fun (n : Nat) _ => .ok (n + 1)) 1
      (fun k => if k = 0 then .openFail ⟨.unavailable, ""⟩ else .stream [r, r] .eof)
      (fun _ => none) 0 =
    ⟨[.openFailed 0 ⟨.unavailable, ""⟩, .sleep 3000, .reset, .open 1, .recv r, .recv r, .eof,
      .closeSend], 2, none⟩ :=
  rfl

end BrBackup
