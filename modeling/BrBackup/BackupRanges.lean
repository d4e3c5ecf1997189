import BrBackup.BackupRange

/-! `BackupRanges`: the `for` loop hands each range to a worker pool of size
`concurrency`, each task runs `BackupRange` on its range, and the errgroup
keeps the first error a task returns. A step is one `ApplyOnErrorGroup`, the
return of one task, or the return of `eg.Wait`. -/

namespace BrBackup

/-- The state of `BackupRanges`: the loop has handed ranges `[0, next)` to the
pool, the tasks in `running` hold a worker, `finished` lists the tasks that
returned, in order, `outcome i` is what the call for range `i` returned, and
`firstErr` is the errgroup's error. `waited` is set when `eg.Wait` returns. -/
structure RangesState where
  next : Nat
  running : List Nat
  finished : List Nat
  outcome : Nat → Option RangeOutcome
  firstErr : Option BrError
  waited : Bool

def rangesInit : RangesState := ⟨0, [], [], fun _ => none, none, false⟩

/-- The range the loop hands to task `i`. -/
def rangeAt (ranges : List Range) (i : Nat) : Range := ranges.getD i ⟨[], [], []⟩

theorem rangeAt_of_getElem? {ranges : List Range} {i : Nat} {r : Range} (h : ranges[i]? = some r) :
    rangeAt ranges i = r := by
  simp [rangeAt, List.getD_eq_getElem?_getD, h]

section Pool

variable (bc : Client) (ranges : List Range) (req : BackupRequest) (concurrency : Nat)

inductive RangesStep : RangesState → RangesState → Prop
  | apply {s : RangesState} : s.next < ranges.length → s.running.length < concurrency →
    RangesStep s { s with next := s.next + 1, running := s.running ++ [s.next] }
  | finish {s : RangesState} {i : Nat} {o : RangeOutcome} : i ∈ s.running →
    BackupRangeRun bc (rangeAt ranges i).startKey (rangeAt ranges i).endKey req o →
    RangesStep s { s with
      running := s.running.erase i, finished := s.finished ++ [i]
      outcome := Function.update s.outcome i (some o), firstErr := s.firstErr.or o.err }
  | wait {s : RangesState} : s.next = ranges.length → s.running = [] → s.waited = false →
    RangesStep s { s with waited := true }

abbrev RangesReachable := Relation.ReflTransGen (RangesStep bc ranges req concurrency)

/-- What every reachable state of `BackupRanges` satisfies. -/
structure RangesInv (s : RangesState) : Prop where
  next_le : s.next ≤ ranges.length
  started : (s.running ++ s.finished).Perm (List.range s.next)
  running_nodup : s.running.Nodup
  running_le : s.running.length ≤ concurrency
  outcome_iff : ∀ i, s.outcome i ≠ none ↔ i ∈ s.finished
  outcome_run : ∀ i o, s.outcome i = some o →
    BackupRangeRun bc (rangeAt ranges i).startKey (rangeAt ranges i).endKey req o
  firstErr_none : s.firstErr = none ↔ ∀ i o, s.outcome i = some o → o.err = none
  waited_done : s.waited = true → s.next = ranges.length ∧ s.running = []

/-- An upper bound on the steps left. -/
def rangesPotential (s : RangesState) : Nat :=
  2 * (ranges.length - s.next) + s.running.length + (if s.waited then 0 else 1)

variable {bc ranges req concurrency} {s t : RangesState}

theorem rangesInv_init : RangesInv bc ranges req concurrency rangesInit where
  next_le := Nat.zero_le _
  started := .refl _
  running_nodup := List.nodup_nil
  running_le := Nat.zero_le _
  outcome_iff _ := by simp [rangesInit]
  outcome_run _ _ h := by simp [rangesInit] at h
  firstErr_none := by simp [rangesInit]
  waited_done h := by simp [rangesInit] at h

theorem RangesInv.not_finished_of_running (hs : RangesInv bc ranges req concurrency s) {i : Nat}
    (hi : i ∈ s.running) : i ∉ s.finished :=
  (List.nodup_append.mp (hs.started.nodup_iff.mpr (List.nodup_range _))).2.2 hi

/-- Every step lowers the potential: the pool never runs forever. -/
theorem rangesPotential_lt (h : RangesStep bc ranges req concurrency s t) :
    rangesPotential ranges t < rangesPotential ranges s := by
  cases h with
  | apply hn _ =>
    simp only [rangesPotential, List.length_append, List.length_singleton]
    split <;> omega
  | finish hi _ =>
    have := List.length_erase_of_mem hi
    have := List.length_pos_of_mem hi
    simp only [rangesPotential]
    omega
  | wait _ _ hw => simp [rangesPotential, hw]

theorem RangesInv.step (hs : RangesInv bc ranges req concurrency s)
    (h : RangesStep bc ranges req concurrency s t) : RangesInv bc ranges req concurrency t := by
  cases h with
  | apply hn hc =>
    exact { hs with
      next_le := hn
      started := calc (s.running ++ [s.next]) ++ s.finished
          _ = s.running ++ ([s.next] ++ s.finished) := List.append_assoc _ _ _
          List.Perm _ (s.running ++ (s.finished ++ [s.next])) := List.perm_append_comm.append_left _
          _ = (s.running ++ s.finished) ++ [s.next] := (List.append_assoc _ _ _).symm
          List.Perm _ (List.range s.next ++ [s.next]) := hs.started.append_right _
          _ = List.range (s.next + 1) := (List.range_succ _).symm
      running_nodup := hs.running_nodup.append (List.nodup_singleton _) fun i hi hj => by
        have := List.mem_range.mp (hs.started.subset (List.mem_append_left _ hi))
        simp only [List.mem_singleton] at hj
        omega
      running_le := by simp only [List.length_append, List.length_singleton]; omega
      waited_done := fun hw => absurd (hs.waited_done hw).1 (by omega) }
  | @finish i o hi hrun =>
    have hnot : s.outcome i = none := by
      by_contra h'
      exact hs.not_finished_of_running hi ((hs.outcome_iff i).mp h')
    exact { hs with
      started := calc s.running.erase i ++ (s.finished ++ [i])
          _ = (s.running.erase i ++ s.finished) ++ [i] := (List.append_assoc _ _ _).symm
          List.Perm _ (i :: (s.running.erase i ++ s.finished)) := List.perm_append_singleton _ _
          _ = (i :: s.running.erase i) ++ s.finished := rfl
          List.Perm _ (s.running ++ s.finished) := (List.perm_cons_erase hi).symm.append_right _
          List.Perm _ (List.range s.next) := hs.started
      running_nodup := hs.running_nodup.erase i
      running_le := (List.length_erase_le _ _).trans hs.running_le
      outcome_iff := fun j => by
        by_cases hj : j = i
        · subst hj
          simp
        · simp [Function.update_noteq hj, hs.outcome_iff j, hj]
      outcome_run := fun j o' h' => by
        by_cases hj : j = i
        · subst hj
          obtain rfl : o = o' := by simpa using h'
          exact hrun
        · exact hs.outcome_run j o' (by simpa [Function.update_noteq hj] using h')
      firstErr_none := by
        rw [Option.or_eq_none, hs.firstErr_none]
        constructor
        · rintro ⟨hall, ho⟩ j o' h'
          by_cases hj : j = i
          · subst hj
            obtain rfl : o = o' := by simpa using h'
            exact ho
          · exact hall j o' (by simpa [Function.update_noteq hj] using h')
        · intro hall
          refine ⟨fun j o' h' => hall j o' ?_, hall i o (by simp)⟩
          have hj : j ≠ i := fun e => by simp [e, hnot] at h'
          simpa [Function.update_noteq hj] using h'
      waited_done := fun hw => absurd hi (by simp [(hs.waited_done hw).2]) }
  | wait hn hr _ => exact { hs with waited_done := fun _ => ⟨hn, hr⟩ }

theorem rangesInv_reachable (h : RangesReachable bc ranges req concurrency rangesInit s) :
    RangesInv bc ranges req concurrency s := by
  induction h with
  | refl => exact rangesInv_init
  | tail _ hst ih => exact ih.step hst

/-- Some `BackupRange` run exists for every range: the store listing can fail. -/
theorem backupRangeRun_nonempty (bc : Client) (req : BackupRequest) (startKey endKey : Key) :
    ∃ o, BackupRangeRun bc startKey endKey req o :=
  ⟨_, .storesFailed ⟨.error ⟨.unknown, ""⟩, fun _ _ => ([], none), fun _ => none⟩ rfl⟩

/-- With at least one worker, `BackupRanges` is never stuck before `eg.Wait` returns. -/
theorem ranges_progress (hc : 0 < concurrency) (hs : RangesInv bc ranges req concurrency s)
    (hw : s.waited = false) : ∃ t, RangesStep bc ranges req concurrency s t := by
  by_cases happly : s.next < ranges.length ∧ s.running.length < concurrency
  · exact ⟨_, .apply happly.1 happly.2⟩
  cases hr : s.running with
  | cons i rest =>
    obtain ⟨o, ho⟩ := backupRangeRun_nonempty bc req (rangeAt ranges i).startKey
      (rangeAt ranges i).endKey
    exact ⟨_, .finish (by simp [hr]) ho⟩
  | nil =>
    have hn : s.next = ranges.length := by
      have := hs.next_le
      simp only [hr, List.length_nil] at happly
      omega
    exact ⟨_, .wait hn hr hw⟩

/-- When `eg.Wait` has returned, the call for every range has returned once,
with that range's keys, and the errgroup's error is nil exactly when every call
returned nil. -/
theorem ranges_waited (hs : RangesInv bc ranges req concurrency s) (hw : s.waited = true) :
    s.finished.Perm (List.range ranges.length) ∧
      (∀ i < ranges.length, ∃ o, s.outcome i = some o ∧
        BackupRangeRun bc (rangeAt ranges i).startKey (rangeAt ranges i).endKey req o) ∧
      (s.firstErr = none ↔ ∀ i < ranges.length, ∀ o, s.outcome i = some o → o.err = none) := by
  obtain ⟨hn, hr⟩ := hs.waited_done hw
  have hfin : s.finished.Perm (List.range ranges.length) := by
    simpa [hr, hn] using hs.started
  have hdone : ∀ i, s.outcome i ≠ none ↔ i < ranges.length := fun i => by
    rw [hs.outcome_iff, hfin.mem_iff, List.mem_range]
  refine ⟨hfin, fun i hi => ?_, ?_⟩
  · obtain ⟨o, ho⟩ := Option.ne_none_iff_exists'.mp ((hdone i).mpr hi)
    exact ⟨o, ho, hs.outcome_run i o ho⟩
  · rw [hs.firstErr_none]
    refine ⟨fun h i _ => h i, fun h i o ho => h i ?_ o ho⟩
    exact (hdone i).mp (by simp [ho])

end Pool

/-- What `BackupRanges` guarantees, with what each `BackupRange` call it makes
guarantees when it returns nil, and how a failed `Send` ends the call. -/
structure RangesContract (bc : Client) (ranges : List Range) (req : BackupRequest)
    (concurrency : Nat) : Prop where
  potential_lt : ∀ s t, RangesStep bc ranges req concurrency s t →
    rangesPotential ranges t < rangesPotential ranges s
  progress : ∀ s, RangesReachable bc ranges req concurrency rangesInit s → s.waited = false →
    ∃ t, RangesStep bc ranges req concurrency s t
  one_call_each : ∀ s, RangesReachable bc ranges req concurrency rangesInit s → s.waited = true →
    s.finished.Perm (List.range ranges.length) ∧
      ∀ i r, ranges[i]? = some r → ∃ o, s.outcome i = some o ∧
        BackupRangeRun bc r.startKey r.endKey req o
  nil_iff : ∀ s, RangesReachable bc ranges req concurrency rangesInit s → s.waited = true →
    (s.firstErr = none ↔ ∀ i < ranges.length, ∀ o, s.outcome i = some o → o.err = none)
  range_ok : ∀ startKey endKey o, BackupRangeRun bc startKey endKey req o → o.err = none →
    o.tree.getIncompleteRange startKey endKey = [] ∧
      o.tree = putAll .empty (o.events.filterMap RangeEvent.put) ∧
      o.events.filterMap RangeEvent.sent = o.tree.ascend.map (·.files) ∧
      StartSorted o.tree.ascend ∧ o.events.count (.effect (.progress .range)) = 1
  send_failure : ∀ startKey endKey o e, BackupRangeRun bc startKey endKey req o →
    RangeEvent.sendFailed e ∈ o.events →
      o.err = some e ∧ ∃ pre files, o.events = pre ++ [.send files, .sendFailed e]
  first_failure : ∀ send nodes j e, j < nodes.length → send j = some e →
    (∀ i < j, send i = none) → ascendSend send 0 nodes =
      ((nodes.take (j + 1)).map (fun n => RangeEvent.send n.files) ++ [.sendFailed e], some e)

/-- A failed `Send` ends a `BackupRange` run: it is the run's last event, right
after the `Send` that failed, and the run returns its error. -/
theorem backupRangeRun_sendFailed {bc : Client} {startKey endKey : Key} {req : BackupRequest}
    {o : RangeOutcome} {e : BrError} (h : BackupRangeRun bc startKey endKey req o)
    (he : RangeEvent.sendFailed e ∈ o.events) :
    o.err = some e ∧ ∃ pre files, o.events = pre ++ [.send files, .sendFailed e] := by
  cases h with
  | storesFailed => cases he
  | pushFailed | fineGrainedFailed => simp at he
  | ascended env _ _ _ =>
    have he' := (List.mem_append.mp he).resolve_left (by simp)
    obtain ⟨herr, pre, files, hev⟩ := ascendSend_sendFailed env.send 0 _ he'
    refine ⟨herr, ?_⟩
    simp only [hev]
    exact ⟨_, files, (List.append_assoc _ pre _).symm⟩

end BrBackup
