import BrBackup.BackupRanges

/-! What a successful backup has sent: the ranges whose files `BackupRange`
hands to the metaWriter each lie within a range that call `Put`, with that
`Put`'s files, no two of them overlap,
and together they hold every key of the range it was given; when
`BackupRanges` returns nil, this holds for every input range. The range tree is
modelled from the spec (`RangeTree`), so these results rest on its `Put` and
`GetIncompleteRange` as the spec describes them. -/

namespace BrBackup

/-! ### Trees built by `Put` -/

/-- Every range of a tree after `Put`s is a piece of a range that was in the
tree before, or of one that was `Put`, with that `Put`'s files. -/
theorem mem_putAll {t : RangeTree} {es : List Effect} {n : Range} (h : n ∈ (putAll t es).nodes) :
    (∃ m ∈ t.nodes, n.PieceOf m) ∨
      ∃ s e, Effect.put s e n.files ∈ es ∧ n.PieceOf ⟨s, e, n.files⟩ := by
  induction es generalizing t with
  | nil => exact .inl ⟨n, h, .refl n⟩
  | cons e es ih =>
    cases e with
    | put s e files =>
      rcases ih h with ⟨m, hm, hnm⟩ | ⟨s', e', hes, hn⟩
      · rcases RangeTree.mem_put hm with rfl | ⟨m', hm', hmm'⟩
        · obtain rfl : n.files = files := hnm.1
          exact .inr ⟨s, e, List.mem_cons_self _ _, hnm⟩
        · exact .inl ⟨m', hm', hnm.trans hmm'⟩
      · exact .inr ⟨s', e', List.mem_cons_of_mem _ hes, hn⟩
    | progress _ =>
      exact (ih h).imp_right fun ⟨s, e, hes, hn⟩ => ⟨s, e, List.mem_cons_of_mem _ hes, hn⟩

/-! ### One range -/

@[simp] theorem filterMap_sent_map_effect (es : List Effect) :
    (es.map RangeEvent.effect).filterMap RangeEvent.sent = [] := by
  simp [RangeEvent.sent]

theorem ascendSend_sends_first_nodes (send : Nat → Option BrError) (k : Nat) (nodes : List Range) :
    (ascendSend send k nodes).1.filterMap RangeEvent.sent <+: nodes.map (·.files) := by
  induction nodes generalizing k with
  | nil => exact List.prefix_refl _
  | cons r rs ih =>
    simp only [ascendSend]
    split
    · simp [RangeEvent.sent]
    · simpa [RangeEvent.sent] using ih (k + 1)

section Range

variable {bc : Client} {startKey endKey : Key} {req : BackupRequest} {o : RangeOutcome}

theorem backupRange_nil_covers (h : BackupRangeRun bc startKey endKey req o) (hok : o.err = none)
    {k : Key} (hk : startKey ≤ k) (hke : belowEnd k endKey = true) :
    ∃ n ∈ o.tree.ascend, n.Contains k ∧ RangeEvent.send n.files ∈ o.events := by
  obtain ⟨hholes, -, hsent, -⟩ := backupRange_ok h hok
  obtain ⟨n, hn, hnk⟩ := gapsFrom_eq_nil hholes k hk hke
  have hfiles : n.files ∈ o.events.filterMap RangeEvent.sent := hsent ▸ List.mem_map_of_mem _ hn
  obtain ⟨ev, hev, hsend⟩ := List.mem_filterMap.mp hfiles
  cases ev with
  | send files => cases hsend; exact ⟨n, hn, hnk, hev⟩
  | effect _ | sendFailed _ => cases hsend

/-- When `BackupRange` returns nil, the ranges whose files it sent to the
metaWriter, in that order, each hold keys of a range this call `Put`, with
that `Put`'s files; no two of them overlap, and every key of `[startKey, endKey)`
lies in one of them. -/
theorem backupRange_sent_ranges (h : BackupRangeRun bc startKey endKey req o) (hok : o.err = none) :
    o.events.filterMap RangeEvent.sent = o.tree.ascend.map (·.files) ∧
    (∀ n ∈ o.tree.ascend, ∃ s e, RangeEvent.effect (.put s e n.files) ∈ o.events ∧
      ∀ k, n.Contains k → s ≤ k ∧ belowEnd k e = true) ∧
    o.tree.ascend.Pairwise (fun a b => ∀ k, ¬(a.Contains k ∧ b.Contains k)) ∧
    ∀ k, startKey ≤ k → belowEnd k endKey = true → ∃ n ∈ o.tree.ascend, n.Contains k := by
  obtain ⟨-, htree, hsent, -⟩ := backupRange_ok h hok
  refine ⟨hsent, fun n hn => ?_, o.tree.apart, fun k hk hke => ?_⟩
  · rw [RangeTree.ascend, htree] at hn
    rcases mem_putAll hn with ⟨m, hm, -⟩ | ⟨s, e, hes, hpiece⟩
    · cases hm
    · obtain ⟨ev, hev, hput⟩ := List.mem_filterMap.mp hes
      cases ev with
      | effect e => cases hput; exact ⟨s, e, hev, hpiece.2⟩
      | send _ | sendFailed _ => cases hput
  · obtain ⟨n, hn, hnk, -⟩ := backupRange_nil_covers h hok hk hke
    exact ⟨n, hn, hnk⟩

/-- Whether it fails or not, `BackupRange` sends the metaWriter the files of
the first nodes of its tree in `Ascend` order, and sends anything only once
the tree has no hole left in `[startKey, endKey)`. -/
theorem backupRange_sends_first_nodes (h : BackupRangeRun bc startKey endKey req o) :
    o.events.filterMap RangeEvent.sent <+: o.tree.ascend.map (·.files) ∧
      (o.events.filterMap RangeEvent.sent ≠ [] →
        o.tree.getIncompleteRange startKey endKey = []) := by
  cases h with
  | storesFailed => exact ⟨List.nil_prefix, fun h => absurd rfl h⟩
  | pushFailed | fineGrainedFailed =>
    rw [filterMap_sent_map_effect]
    exact ⟨List.nil_prefix, fun h => absurd rfl h⟩
  | ascended env _ _ hfg =>
    rw [List.filterMap_append, filterMap_sent_map_effect, List.nil_append]
    exact ⟨ascendSend_sends_first_nodes _ _ _, fun _ => (fineGrainedBackup_nil_complete hfg).1⟩

end Range

/-! ### Every range -/

section Ranges

variable {bc : Client} {ranges : List Range} {req : BackupRequest} {concurrency : Nat}
  {s : RangesState}

/-- When `BackupRanges` returns nil, every key of every input range lies in a
range whose files the `BackupRange` call for that input range sent to the
metaWriter. -/
theorem backupRanges_nil_covers (h : RangesReachable bc ranges req concurrency rangesInit s)
    (hw : s.waited = true) (hnil : s.firstErr = none) :
    ∀ i < ranges.length, ∃ o, s.outcome i = some o ∧ o.err = none ∧
      ∀ k, (rangeAt ranges i).startKey ≤ k → belowEnd k (rangeAt ranges i).endKey = true →
        ∃ n ∈ o.tree.ascend, n.Contains k ∧ RangeEvent.send n.files ∈ o.events := by
  obtain ⟨-, hall, hok⟩ := ranges_waited (rangesInv_reachable h) hw
  intro i hi
  obtain ⟨o, ho, hrun⟩ := hall i hi
  have herr : o.err = none := hok.mp hnil i hi o ho
  exact ⟨o, ho, herr, fun k hk hke => backupRange_nil_covers hrun herr hk hke⟩

end Ranges

/-! ### A sample run -/

/-- A response covering every key, with one file. -/
def wholeKeyspaceResp : BackupResponse := ⟨none, [], [], [⟨"1.sst"⟩]⟩

/-- One store, whose push-down answers with `wholeKeyspaceResp`; every `Send` succeeds. -/
def wholeKeyspaceEnv : RangeEnv := ⟨.ok [1], fun _ _ => ([wholeKeyspaceResp], none), fun _ => none⟩

/-- `BackupRange` over every key with `wholeKeyspaceEnv`: push-down leaves no
hole, so the fine-grained loop returns at once and the one node is sent. -/
def wholeKeyspaceRun : RangeOutcome :=
  ⟨(([wholeKeyspaceResp].flatMap putEffects ++ []) ++ [Effect.progress .range]).map .effect ++
      (ascendSend wholeKeyspaceEnv.send 0 (pushTree [wholeKeyspaceResp]).ascend).1,
    pushTree [wholeKeyspaceResp],
    (ascendSend wholeKeyspaceEnv.send 0 (pushTree [wholeKeyspaceResp]).ascend).2⟩

theorem backupRangeRun_wholeKeyspace :
    BackupRangeRun plainClient [] [] rawKvRequest wholeKeyspaceRun :=
  .ascended wholeKeyspaceEnv rfl rfl (.single (.complete (by decide)))

theorem backupRange_sent_ranges_wholeKeyspace :
    BackupRangeRun plainClient [] [] rawKvRequest wholeKeyspaceRun ∧ wholeKeyspaceRun.err = none ∧
      wholeKeyspaceRun.events.filterMap RangeEvent.sent =
        wholeKeyspaceRun.tree.ascend.map (·.files) ∧
      (∀ n ∈ wholeKeyspaceRun.tree.ascend, ∃ s e,
        RangeEvent.effect (.put s e n.files) ∈ wholeKeyspaceRun.events ∧
          ∀ k, n.Contains k → s ≤ k ∧ belowEnd k e = true) ∧
      wholeKeyspaceRun.tree.ascend.Pairwise (fun a b => ∀ k, ¬(a.Contains k ∧ b.Contains k)) ∧
      ∀ k, [] ≤ k → belowEnd k [] = true → ∃ n ∈ wholeKeyspaceRun.tree.ascend, n.Contains k :=
  ⟨backupRangeRun_wholeKeyspace, rfl, backupRange_sent_ranges backupRangeRun_wholeKeyspace rfl⟩

theorem backupRange_sends_first_nodes_wholeKeyspace :
    BackupRangeRun plainClient [] [] rawKvRequest wholeKeyspaceRun ∧
      wholeKeyspaceRun.events.filterMap RangeEvent.sent <+:
        wholeKeyspaceRun.tree.ascend.map (·.files) ∧
      (wholeKeyspaceRun.events.filterMap RangeEvent.sent ≠ [] →
        wholeKeyspaceRun.tree.getIncompleteRange [] [] = []) :=
  ⟨backupRangeRun_wholeKeyspace, backupRange_sends_first_nodes backupRangeRun_wholeKeyspace⟩

theorem backupRanges_nil_covers_wholeKeyspace :
    let s₃ : RangesState := { rangesInit with
      next := 1, finished := [0], outcome := Function.update rangesInit.outcome 0 (some wholeKeyspaceRun),
      waited := true }
    RangesReachable plainClient [hole [] []] rawKvRequest 1 rangesInit s₃ ∧ s₃.waited = true ∧
      s₃.firstErr = none ∧
      ∀ i < [hole [] []].length, ∃ o, s₃.outcome i = some o ∧ o.err = none ∧
        ∀ k, (rangeAt [hole [] []] i).startKey ≤ k →
          belowEnd k (rangeAt [hole [] []] i).endKey = true →
          ∃ n ∈ o.tree.ascend, n.Contains k ∧ RangeEvent.send n.files ∈ o.events :=
  have h : RangesReachable plainClient [hole [] []] rawKvRequest 1 rangesInit
      { rangesInit with
        next := 1, finished := [0], outcome := Function.update rangesInit.outcome 0 (some wholeKeyspaceRun),
        waited := true } :=
    ((Relation.ReflTransGen.single (.apply (by decide) (by decide))).tail
      (.finish (List.mem_singleton_self 0) backupRangeRun_wholeKeyspace)).tail (.wait rfl rfl rfl)
  ⟨h, rfl, rfl, backupRanges_nil_covers h rfl rfl⟩

end BrBackup
