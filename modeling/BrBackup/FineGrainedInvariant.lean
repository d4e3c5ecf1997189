import BrBackup.FineGrainedPanic

/-! The invariant of one iteration: the holes leave `retry` in the order the
dispatcher sent them and each reaches one call, every running call has exactly
one worker, what is on `respCh` or already `Put` is what the calls forwarded,
and `max.ms` is the largest backoff returned so far. -/

namespace BrBackup

section Update

variable {α β γ : Type} [DecidableEq α]

theorem map_update_of_not_mem {l : List α} {i : α} (hi : i ∉ l) (c : α → β) (x : β)
    (g : α → β → γ) :
    (l.map fun j => g j (Function.update c i x j)) = l.map fun j => g j (c j) :=
  List.map_congr_left fun j hj => by rw [Function.update_noteq (ne_of_mem_of_not_mem hj hi)]

theorem map_update_of_eq {l : List α} {i : α} (c : α → β) (x : β) (g : α → β → γ)
    (hx : g i x = g i (c i)) :
    (l.map fun j => g j (Function.update c i x j)) = l.map fun j => g j (c j) :=
  List.map_congr_left fun j _ => by
    by_cases hj : j = i
    · subst hj; rw [Function.update_same, hx]
    · rw [Function.update_noteq hj]

theorem flatMap_update_of_eq {l : List α} {i : α} (c : α → β) (x : β) (f : α → β → List γ)
    (hx : f i x = f i (c i)) :
    (l.flatMap fun j => f j (Function.update c i x j)) = l.flatMap fun j => f j (c j) :=
  List.flatMap_congr fun j _ => by
    by_cases hj : j = i
    · subst hj; rw [Function.update_same, hx]
    · rw [Function.update_noteq hj]

theorem sum_map_update {l : List α} (hl : l.Nodup) {i : α} (hi : i ∈ l) (c : α → β) (x : β)
    (g : α → β → Nat) :
    (l.map fun j => g j (Function.update c i x j)).sum + g i (c i) =
      (l.map fun j => g j (c j)).sum + g i x := by
  induction l with
  | nil => cases hi
  | cons j l ih =>
    obtain ⟨hj, hl⟩ := List.nodup_cons.mp hl
    rcases List.mem_cons.mp hi with rfl | hi
    · simp only [List.map_cons, List.sum_cons, Function.update_same, map_update_of_not_mem hj]
      omega
    · have hne : j ≠ i := fun h => hj (h ▸ hi)
      simp only [List.map_cons, List.sum_cons, Function.update_noteq hne]
      have := ih hl hi
      omega

theorem flatMap_update_perm {l : List α} (hl : l.Nodup) {i : α} (hi : i ∈ l)
    (c : α → β) (x : β) (f : α → β → List γ) (r : List γ) (hx : f i x = f i (c i) ++ r) :
    (l.flatMap fun j => f j (Function.update c i x j)).Perm
      ((l.flatMap fun j => f j (c j)) ++ r) := by
  induction l with
  | nil => cases hi
  | cons j l ih =>
    obtain ⟨hj, hl⟩ := List.nodup_cons.mp hl
    rcases List.mem_cons.mp hi with rfl | hi
    · have hrest : (l.flatMap fun k => f k (Function.update c i x k)) =
          l.flatMap fun k => f k (c k) :=
        List.flatMap_congr fun k hk => by rw [Function.update_noteq (ne_of_mem_of_not_mem hk hj)]
      simp only [List.flatMap_cons, Function.update_same, hrest, hx, List.append_assoc]
      exact List.perm_append_comm.append_left _
    · have hne : j ≠ i := fun h => hj (h ▸ hi)
      simp only [List.flatMap_cons, Function.update_noteq hne, List.append_assoc]
      exact (ih hl hi).append_left _

theorem foldr_max_update {l : List α} (hl : l.Nodup) {i : α} (hi : i ∈ l) (c : α → β) (x : β)
    (g : α → β → Nat) (hle : g i (c i) ≤ g i x) :
    (l.map fun j => g j (Function.update c i x j)).foldr max 0 =
      max ((l.map fun j => g j (c j)).foldr max 0) (g i x) := by
  induction l with
  | nil => cases hi
  | cons j l ih =>
    obtain ⟨hj, hl⟩ := List.nodup_cons.mp hl
    rcases List.mem_cons.mp hi with rfl | hi
    · simp only [List.map_cons, List.foldr_cons, Function.update_same, map_update_of_not_mem hj]
      omega
    · have hne : j ≠ i := fun h => hj (h ▸ hi)
      simp only [List.map_cons, List.foldr_cons, Function.update_noteq hne, ih hl hi]
      omega

end Update

/-- The responses a call has forwarded, at each point of the call. -/
def CallOutcome.forwardedAt (o : CallOutcome) : CallPc → List BackupResponse
  | .pending => []
  | .running k => o.forwarded.take k
  | .returned => o.forwarded

/-- What a call has added to `max.ms`: its backoff, once it returned without error. -/
def CallOutcome.backoffAt (o : CallOutcome) : CallPc → Nat
  | .returned => if o.err = none then o.backoffMs else 0
  | .pending | .running _ => 0

theorem raiseMax_eq_max (ms backoffMs : Nat) : raiseMax ms backoffMs = max ms backoffMs := by
  unfold raiseMax
  split_ifs <;> omega

theorem foldr_max_map_zero {α : Type} (l : List α) : (l.map fun _ => (0 : Nat)).foldr max 0 = 0 := by
  induction l with
  | nil => rfl
  | cons _ l ih => simp only [List.map_cons, List.foldr_cons, ih, max_self]

/-! ### Holes, workers and calls -/

section Pairing

variable {handled : List Nat} {ws : Fin 4 → WorkerPc} {calls : Nat → CallPc}

/-- How the holes received so far, the workers and the calls are paired: a
hole's call starts when a worker receives it, and each running call is run by
exactly one busy worker. -/
structure Pairing (handled : List Nat) (ws : Fin 4 → WorkerPc) (calls : Nat → CallPc) : Prop where
  pending_iff : ∀ i, calls i = .pending ↔ i ∉ handled
  busy_running : ∀ w i, ws w = .busy i → ∃ k, calls i = .running k
  running_busy : ∀ i k, calls i = .running k → ∃ w, ws w = .busy i
  busy_inj : ∀ w w' i, ws w = .busy i → ws w' = .busy i → w = w'

theorem update_eq_busy {w w' : Fin 4} {x : WorkerPc} {i : Nat} (hx : ∀ j, x ≠ .busy j)
    (h : Function.update ws w x w' = .busy i) : w' ≠ w ∧ ws w' = .busy i := by
  by_cases hw : w' = w
  · subst hw
    exact absurd (by simpa using h) (hx i)
  · exact ⟨hw, by rwa [Function.update_noteq hw] at h⟩

theorem Pairing.mem_of_started (hp : Pairing handled ws calls) {i : Nat}
    (hi : calls i ≠ .pending) : i ∈ handled :=
  by_contra fun h => hi ((hp.pending_iff i).mpr h)

theorem Pairing.pending_iff_update (hp : Pairing handled ws calls) {i : Nat} {x : CallPc}
    (hi : calls i ≠ .pending) (hx : x ≠ .pending) (j : Nat) :
    Function.update calls i x j = .pending ↔ j ∉ handled := by
  by_cases hj : j = i
  · subst hj
    simp only [Function.update_same, hx, false_iff, not_not]
    exact hp.mem_of_started hi
  · rw [Function.update_noteq hj, hp.pending_iff]

/-- A worker that runs no call changes its state, to one that runs none. -/
theorem Pairing.park (hp : Pairing handled ws calls) {w : Fin 4} {x : WorkerPc}
    (hw : ∀ i, ws w ≠ .busy i) (hx : ∀ i, x ≠ .busy i) :
    Pairing handled (Function.update ws w x) calls where
  pending_iff := hp.pending_iff
  busy_running w' i h := hp.busy_running w' i (update_eq_busy hx h).2
  running_busy i k h := (hp.running_busy i k h).imp fun w' h' => by
    rwa [Function.update_noteq fun e => hw i (by subst e; exact h')]
  busy_inj w₁ w₂ i h₁ h₂ :=
    hp.busy_inj w₁ w₂ i (update_eq_busy hx h₁).2 (update_eq_busy hx h₂).2

/-- An idle worker receives hole `i` and starts its call. -/
theorem Pairing.start (hp : Pairing handled ws calls) {w : Fin 4} {i : Nat}
    (hw : ws w = .idle) (hi : i ∉ handled) :
    Pairing (handled ++ [i]) (Function.update ws w (.busy i))
      (Function.update calls i (.running 0)) where
  pending_iff j := by
    by_cases hj : j = i
    · subst hj; simp
    · simp [Function.update_noteq hj, hj, hp.pending_iff]
  busy_running w' j h := by
    by_cases hj : j = i
    · subst hj; exact ⟨0, by simp⟩
    · have hw' : w' ≠ w := fun e => hj (by subst e; simpa using h.symm)
      rw [Function.update_noteq hw'] at h
      simpa [Function.update_noteq hj] using hp.busy_running w' j h
  running_busy j k h := by
    by_cases hj : j = i
    · subst hj; exact ⟨w, by simp⟩
    · rw [Function.update_noteq hj] at h
      obtain ⟨w', hw'⟩ := hp.running_busy j k h
      exact ⟨w', by rwa [Function.update_noteq fun e => by subst e; simp [hw] at hw']⟩
  busy_inj w₁ w₂ j h₁ h₂ := by
    have hpend : calls i = .pending := (hp.pending_iff i).mpr hi
    have other : ∀ w', w' ≠ w → Function.update ws w (.busy i) w' = .busy j →
        Function.update ws w (.busy i) w = .busy j → False := fun w' hne h' hw' => by
      rw [Function.update_noteq hne] at h'
      obtain rfl : i = j := by simpa using hw'
      obtain ⟨k, hk⟩ := hp.busy_running w' i h'
      simp [hpend] at hk
    by_cases e₁ : w₁ = w <;> by_cases e₂ : w₂ = w
    · exact e₁.trans e₂.symm
    · exact (other w₂ e₂ h₂ (e₁ ▸ h₁)).elim
    · exact (other w₁ e₁ h₁ (e₂ ▸ h₂)).elim
    · rw [Function.update_noteq e₁] at h₁
      rw [Function.update_noteq e₂] at h₂
      exact hp.busy_inj w₁ w₂ j h₁ h₂

/-- A running call forwards one more response. -/
theorem Pairing.advance (hp : Pairing handled ws calls) {i k : Nat} (hc : calls i = .running k) :
    Pairing handled ws (Function.update calls i (.running (k + 1))) where
  pending_iff := hp.pending_iff_update (by simp [hc]) (by simp)
  busy_running w j h := by
    by_cases hj : j = i
    · subst hj; exact ⟨k + 1, by simp⟩
    · simpa [Function.update_noteq hj] using hp.busy_running w j h
  running_busy j k' h := by
    by_cases hj : j = i
    · subst hj; exact hp.running_busy _ k hc
    · exact hp.running_busy j k' (by rwa [Function.update_noteq hj] at h)
  busy_inj := hp.busy_inj

/-- The call of busy worker `w` returns, and `w` stops running it. -/
theorem Pairing.retire (hp : Pairing handled ws calls) {w : Fin 4} {i k : Nat} {x : WorkerPc}
    (hw : ws w = .busy i) (hc : calls i = .running k) (hx : ∀ j, x ≠ .busy j) :
    Pairing handled (Function.update ws w x) (Function.update calls i .returned) where
  pending_iff := hp.pending_iff_update (by simp [hc]) (by simp)
  busy_running w' j h := by
    obtain ⟨hne, h'⟩ := update_eq_busy hx h
    have hj : j ≠ i := fun e => hne (hp.busy_inj w' w j h' (e ▸ hw))
    simpa [Function.update_noteq hj] using hp.busy_running w' j h'
  running_busy j k' h := by
    have hj : j ≠ i := fun e => by subst e; simp at h
    rw [Function.update_noteq hj] at h
    obtain ⟨w', hw'⟩ := hp.running_busy j k' h
    exact ⟨w', by rwa [Function.update_noteq fun e => hj (by subst e; simpa [hw] using hw'.symm)]⟩
  busy_inj w₁ w₂ j h₁ h₂ :=
    hp.busy_inj w₁ w₂ j (update_eq_busy hx h₁).2 (update_eq_busy hx h₂).2

theorem running_le_update {bound : Nat → Nat}
    (h : ∀ j k, calls j = .running k → k ≤ bound j) {i : Nat} {x : CallPc}
    (hx : ∀ k, x = .running k → k ≤ bound i) :
    ∀ j k, Function.update calls i x j = .running k → k ≤ bound j := by
  intro j k hj
  by_cases e : j = i
  · subst e
    exact hx k (by simpa using hj)
  · exact h j k (by rwa [Function.update_noteq e] at hj)

end Pairing

theorem foldr_max_eq_zero {l : List Nat} : l.foldr max 0 = 0 ↔ ∀ x ∈ l, x = 0 := by
  induction l with
  | nil => simp
  | cons x l ih => simp [Nat.max_eq_zero_iff, ih]

section Inv

variable (n : Nat) (out : Nat → CallOutcome)

/-- The invariant of every reachable state of an iteration over `n` holes. -/
structure IterInv (s : IterState) : Prop where
  fifo : s.handled ++ s.retry = List.range s.next
  next_le : s.next ≤ n
  pairing : Pairing s.handled s.workers s.calls
  running_le : ∀ i k, s.calls i = .running k → k ≤ (out i).forwarded.length
  sent_perm : s.sent.Perm ((List.range n).flatMap fun i => (out i).forwardedAt (s.calls i))
  effects_sent : ∃ rcv, s.effects = rcv.flatMap putEffects ∧ rcv ++ s.respCh = s.sent
  max_eq : s.maxMs = ((List.range n).map fun i => (out i).backoffAt (s.calls i)).foldr max 0
  next_of_closed : s.dispatcher ≠ .sending → s.next = n
  exited_of_closed : s.dispatcher = .closed → ∀ w, s.workers w = .exited
  drained_closed : s.collector = .drained → s.dispatcher = .closed ∧ s.respCh = []

variable {n out} {s t : IterState}

theorem iterInv_init : IterInv n out iterInit where
  fifo := rfl
  next_le := Nat.zero_le n
  pairing := ⟨fun _ => by simp [iterInit], fun _ _ h => by simp [iterInit] at h,
    fun _ _ h => by simp [iterInit] at h, fun _ _ _ h => by simp [iterInit] at h⟩
  running_le _ _ h := by simp [iterInit] at h
  sent_perm := by simp [iterInit, CallOutcome.forwardedAt]
  effects_sent := ⟨[], rfl, rfl⟩
  max_eq := (foldr_max_map_zero _).symm
  next_of_closed h := absurd rfl h
  exited_of_closed h := by simp [iterInit] at h
  drained_closed h := by simp [iterInit] at h

theorem IterInv.handled_lt (hs : IterInv n out s) {i : Nat} (hi : i ∈ s.handled) : i < n :=
  lt_of_lt_of_le (List.mem_range.mp (hs.fifo ▸ List.mem_append_left _ hi)) hs.next_le

theorem IterInv.started_lt (hs : IterInv n out s) {i : Nat} (hi : s.calls i ≠ .pending) : i < n :=
  hs.handled_lt (hs.pairing.mem_of_started hi)

theorem IterInv.not_closed_of_busy (hs : IterInv n out s) {w : Fin 4} {i : Nat}
    (hw : s.workers w = .busy i) : s.dispatcher ≠ .closed := fun hc => by
  simp [hs.exited_of_closed hc w] at hw

theorem IterInv.dispatch (hs : IterInv n out s) (h : iterStep n out s .dispatch = some t) :
    IterInv n out t := by
  obtain ⟨hd, hlt, -, rfl⟩ := iterStep_dispatch h
  exact { hs with
    fifo := by rw [← List.append_assoc, hs.fifo, List.range_succ]
    next_le := hlt
    next_of_closed := fun h' => absurd hd h'
    exited_of_closed := fun h' => absurd (hd ▸ h') (by simp)
    drained_closed := fun h' => absurd (hd ▸ (hs.drained_closed h').1) (by simp) }

theorem IterInv.closeRetry (hs : IterInv n out s) (h : iterStep n out s .closeRetry = some t) :
    IterInv n out t := by
  obtain ⟨hd, hle, rfl⟩ := iterStep_closeRetry h
  exact { hs with
    next_of_closed := fun _ => le_antisymm hs.next_le hle
    exited_of_closed := fun h' => absurd h' (by simp)
    drained_closed := fun h' => absurd (hd ▸ (hs.drained_closed h').1) (by simp) }

theorem IterInv.closeResp (hs : IterInv n out s) (h : iterStep n out s .closeResp = some t) :
    IterInv n out t := by
  obtain ⟨hd, hall, rfl⟩ := iterStep_closeResp h
  exact { hs with
    next_of_closed := fun _ => hs.next_of_closed (by simp [hd])
    exited_of_closed := fun _ => hall
    drained_closed := fun h' => ⟨rfl, (hs.drained_closed h').2⟩ }

theorem IterInv.recv (hs : IterInv n out s) {w : Fin 4} (h : iterStep n out s (.recv w) = some t) :
    IterInv n out t := by
  obtain ⟨hw, ⟨i, rest, hr, rfl⟩ | ⟨-, -, rfl⟩⟩ := iterStep_recv h
  · have hnd : (s.handled ++ s.retry).Nodup := hs.fifo ▸ List.nodup_range _
    have hi : i ∉ s.handled := fun hm => List.disjoint_of_nodup_append hnd hm (by simp [hr])
    have hpend : s.calls i = .pending := (hs.pairing.pending_iff i).mpr hi
    exact { hs with
      fifo := by simp [← hs.fifo, hr]
      pairing := hs.pairing.start hw hi
      running_le := running_le_update hs.running_le fun k hk => by simp at hk; omega
      sent_perm := by
        dsimp only
        rw [flatMap_update_of_eq s.calls _ (fun j c => (out j).forwardedAt c)
          (by simp [hpend, CallOutcome.forwardedAt])]
        exact hs.sent_perm
      max_eq := by
        dsimp only
        rw [map_update_of_eq s.calls _ (fun j c => (out j).backoffAt c)
          (by simp [hpend, CallOutcome.backoffAt])]
        exact hs.max_eq
      exited_of_closed := fun hc => absurd (hs.exited_of_closed hc w) (by simp [hw]) }
  · exact { hs with
      pairing := hs.pairing.park (by simp [hw]) (by simp)
      exited_of_closed := fun hc => absurd (hs.exited_of_closed hc w) (by simp [hw]) }

theorem IterInv.forward (hs : IterInv n out s) {w : Fin 4}
    (h : iterStep n out s (.forward w) = some t) : IterInv n out t := by
  obtain ⟨i, k, r, hw, hc, hr, -, rfl⟩ := iterStep_forward h
  have hi : i < n := hs.started_lt (by simp [hc])
  have htake : (out i).forwarded.take (k + 1) = (out i).forwarded.take k ++ [r] := by
    rw [List.take_succ, hr]; rfl
  obtain ⟨rcv, he, hrcv⟩ := hs.effects_sent
  exact { hs with
    pairing := hs.pairing.advance hc
    running_le := running_le_update hs.running_le fun k' hk' => by
      simp only [CallPc.running.injEq] at hk'
      have := (List.getElem?_eq_some_iff.mp hr).1
      omega
    sent_perm := (hs.sent_perm.append_right [r]).trans
      (flatMap_update_perm (List.nodup_range n) (List.mem_range.mpr hi) s.calls _
        (fun j c => (out j).forwardedAt c) [r] (by simp [CallOutcome.forwardedAt, hc, htake])).symm
    effects_sent := ⟨rcv, he, by simp [← hrcv]⟩
    max_eq := by
      dsimp only
      rw [map_update_of_eq s.calls _ (fun j c => (out j).backoffAt c)
        (by simp [hc, CallOutcome.backoffAt])]
      exact hs.max_eq
    drained_closed := fun hd => absurd (hs.drained_closed hd).1 (hs.not_closed_of_busy hw) }

theorem IterInv.finish (hs : IterInv n out s) {w : Fin 4}
    (h : iterStep n out s (.finish w) = some t) : IterInv n out t := by
  obtain ⟨i, hw, hc, hret⟩ := iterStep_finish h
  have hi : i < n := hs.started_lt (by simp [hc])
  have hsent : ((List.range n).flatMap fun j =>
      (out j).forwardedAt (Function.update s.calls i .returned j)) =
      (List.range n).flatMap fun j => (out j).forwardedAt (s.calls j) :=
    flatMap_update_of_eq s.calls _ (fun j c => (out j).forwardedAt c)
      (by simp [CallOutcome.forwardedAt, hc])
  have hopen := hs.not_closed_of_busy hw
  rcases hret with ⟨e, he, -, rfl⟩ | ⟨he, rfl⟩
  · exact { hs with
      pairing := hs.pairing.retire hw hc (by simp)
      running_le := running_le_update hs.running_le fun _ h => by simp at h
      sent_perm := hsent ▸ hs.sent_perm
      max_eq := by
        dsimp only
        rw [map_update_of_eq s.calls _ (fun j c => (out j).backoffAt c)
          (by simp [CallOutcome.backoffAt, hc, he])]
        exact hs.max_eq
      exited_of_closed := fun hc' => absurd hc' hopen }
  · exact { hs with
      pairing := hs.pairing.retire hw hc (by simp)
      running_le := running_le_update hs.running_le fun _ h => by simp at h
      sent_perm := hsent ▸ hs.sent_perm
      max_eq := by
        dsimp only
        rw [raiseMax_eq_max, foldr_max_update (List.nodup_range n) (List.mem_range.mpr hi) s.calls _
          (fun j c => (out j).backoffAt c) (by simp [CallOutcome.backoffAt, hc]), hs.max_eq]
        simp [CallOutcome.backoffAt, he]
      exited_of_closed := fun hc' => absurd hc' hopen }

theorem IterInv.done (hs : IterInv n out s) {w : Fin 4} (h : iterStep n out s (.done w) = some t) :
    IterInv n out t := by
  obtain ⟨hw, rfl⟩ := iterStep_done h
  exact { hs with
    pairing := hs.pairing.park (by simp [hw]) (by simp)
    exited_of_closed := fun hc => absurd (hs.exited_of_closed hc w) (by simp [hw]) }

theorem IterInv.takeErr (hs : IterInv n out s) (h : iterStep n out s .takeErr = some t) :
    IterInv n out t := by
  obtain ⟨e, rest, -, -, rfl⟩ := iterStep_takeErr h
  exact { hs with drained_closed := fun h' => absurd h' (by simp) }

theorem IterInv.takeResp (hs : IterInv n out s) (hok : RespOk s)
    (h : iterStep n out s .takeResp = some t) : IterInv n out t := by
  obtain ⟨hsel, ⟨r, rest, hrs, ⟨-, rfl⟩ | ⟨hne, -⟩⟩ | ⟨hr, hd, rfl⟩⟩ :=
    iterStep_takeResp h
  · obtain ⟨rcv, he, hrcv⟩ := hs.effects_sent
    exact { hs with
      effects_sent := ⟨rcv ++ [r], by simp [he], by simp [← hrcv, hrs]⟩
      drained_closed := fun h' => absurd (hsel ▸ h') (by simp) }
  · exact absurd (hok.1 r (by simp [hrs])) hne
  · exact { hs with drained_closed := fun _ => ⟨hd, hr⟩ }

theorem IterInv.step (hs : IterInv n out s) (hok : RespOk s) (h : IterStep n out s t) :
    IterInv n out t := by
  obtain ⟨a, h⟩ := h
  cases a with
  | dispatch => exact hs.dispatch h
  | closeRetry => exact hs.closeRetry h
  | closeResp => exact hs.closeResp h
  | recv w => exact hs.recv h
  | forward w => exact hs.forward h
  | finish w => exact hs.finish h
  | done w => exact hs.done h
  | takeErr => exact hs.takeErr h
  | takeResp => exact hs.takeResp hok h

/-- The invariant holds in every reachable state when the calls forward only
responses without error, as `handleFineGrained` does. -/
theorem iterInv_reachable (hfwd : ∀ i, ∀ r ∈ (out i).forwarded, r.error = none)
    (h : IterReachable n out iterInit s) : IterInv n out s := by
  induction h with
  | refl => exact iterInv_init
  | tail hr hst ih => exact ih.step (respOk_reachable hfwd hr) hst

end Inv

end BrBackup
