import BrBackup.FineGrainedStep

/-! The `Panic` of the collector on a response with an error is unreachable:
the callback of `handleFineGrained` forwards only responses without error, so
no such response is ever on `respCh`. -/

namespace BrBackup

/-- Every response on `respCh` is free of errors and the collector has not panicked. -/
def RespOk (s : IterState) : Prop :=
  (∀ r ∈ s.respCh, r.error = none) ∧ s.collector ≠ .panicked

section
variable {n : Nat} {out : Nat → CallOutcome}

theorem respOk_step (hfwd : ∀ i, ∀ r ∈ (out i).forwarded, r.error = none) {s t : IterState}
    (hs : RespOk s) (h : IterStep n out s t) : RespOk t := by
  obtain ⟨hr, hp⟩ := hs
  obtain ⟨a, h⟩ := h
  cases a with
  | dispatch => obtain ⟨-, -, -, rfl⟩ := iterStep_dispatch h; exact ⟨hr, hp⟩
  | closeRetry => obtain ⟨-, -, rfl⟩ := iterStep_closeRetry h; exact ⟨hr, hp⟩
  | closeResp => obtain ⟨-, -, rfl⟩ := iterStep_closeResp h; exact ⟨hr, hp⟩
  | recv w =>
    obtain ⟨-, ⟨i, rest, -, rfl⟩ | ⟨-, -, rfl⟩⟩ := iterStep_recv h <;> exact ⟨hr, hp⟩
  | forward w =>
    obtain ⟨i, k, r, -, -, hget, -, rfl⟩ := iterStep_forward h
    refine ⟨fun r' hr' => ?_, hp⟩
    rcases List.mem_append.mp hr' with hr' | hr'
    · exact hr r' hr'
    · rw [List.mem_singleton.mp hr']
      exact hfwd i r (List.getElem?_mem hget)
  | finish w =>
    obtain ⟨i, -, -, ⟨e, -, -, rfl⟩ | ⟨-, rfl⟩⟩ := iterStep_finish h <;> exact ⟨hr, hp⟩
  | done w => obtain ⟨-, rfl⟩ := iterStep_done h; exact ⟨hr, hp⟩
  | takeErr => obtain ⟨e, rest, -, -, rfl⟩ := iterStep_takeErr h; exact ⟨hr, by simp⟩
  | takeResp =>
    obtain ⟨-, ⟨r, rest, hrs, ⟨-, rfl⟩ | ⟨hne, -⟩⟩ | ⟨-, -, rfl⟩⟩ := iterStep_takeResp h
    · exact ⟨fun r' hr' => hr r' (by simp [hrs, hr']), hp⟩
    · exact absurd (hr r (by simp [hrs])) hne
    · exact ⟨hr, by simp⟩

theorem respOk_reachable (hfwd : ∀ i, ∀ r ∈ (out i).forwarded, r.error = none) {s : IterState}
    (h : IterReachable n out iterInit s) : RespOk s := by
  induction h with
  | refl => exact ⟨by simp [iterInit], by simp [iterInit]⟩
  | tail _ hst ih => exact respOk_step hfwd ih hst

end

/-- Every response that `handleFineGrained` forwards has a nil `Error`, whatever
the stores return, so in every interleaving of every iteration the collector
never reaches its `Panic`. -/
theorem fineGrained_collector_never_panics :
    (∀ bc p env rg, ∀ r ∈ (handleFineGrained bc p env rg).forwarded, r.error = none) ∧
    ∀ bc p envs holes s, IterReachable holes.length (fineGrainedOut bc p envs holes) iterInit s →
      s.collector ≠ .panicked :=
  ⟨handleFineGrained_forwarded_error, fun bc p envs _ _ h =>
    (respOk_reachable (fun i => handleFineGrained_forwarded_error bc p (envs i) _) h).2⟩

end BrBackup
