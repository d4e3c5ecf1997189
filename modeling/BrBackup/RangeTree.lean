import BrBackup.Basic

/-! The range tree of `br/pkg/rtree`, which is not among the sources here, as
the spec describes it: an interval set kept in ascending start-key order, in
which a later `put` subsumes earlier ranges for the region it overlaps,
`getIncompleteRange` returns the gaps of a key interval and `ascend` walks the
ranges in key order. -/

namespace BrBackup

/-- `k` lies below the end bound `e`; the empty end key is unbounded. -/
def belowEnd (k e : Key) : Bool := e.isEmpty || decide (k < e)

theorem belowEnd_of_le {a k e : Key} (h : a ≤ k) (hk : belowEnd k e = true) : belowEnd a e = true := by
  simp only [belowEnd, Bool.or_eq_true, decide_eq_true_eq] at hk ⊢
  exact hk.imp_right (lt_of_le_of_lt h)

theorem belowEnd_eq_false {k e : Key} : belowEnd k e = false ↔ e ≠ [] ∧ e ≤ k := by
  simp [belowEnd, List.isEmpty_iff]

theorem belowEnd_iff_lt {k e : Key} (he : e ≠ []) : belowEnd k e = true ↔ k < e := by
  simp [belowEnd, List.isEmpty_iff, he]

/-! ### Which keys a range holds -/

/-- The range holds key `k`: `startKey ≤ k`, below its end bound. -/
def Range.Contains (r : Range) (k : Key) : Prop := r.startKey ≤ k ∧ belowEnd k r.endKey = true

instance (r : Range) (k : Key) : Decidable (r.Contains k) := inferInstanceAs (Decidable (_ ∧ _))

/-- `n` is a piece of `m`: it carries `m`'s files and holds only keys of `m`. -/
def Range.PieceOf (n m : Range) : Prop := n.files = m.files ∧ ∀ k, n.Contains k → m.Contains k

theorem Range.PieceOf.refl (n : Range) : n.PieceOf n := ⟨rfl, fun _ h => h⟩

theorem Range.PieceOf.trans {a b c : Range} (hab : a.PieceOf b) (hbc : b.PieceOf c) : a.PieceOf c :=
  ⟨hab.1.trans hbc.1, fun k hk => hbc.2 k (hab.2 k hk)⟩

/-- No key lies in two ranges of the list. -/
def NoOverlap (ns : List Range) : Prop := ns.Pairwise fun a b => ∀ k, ¬(a.Contains k ∧ b.Contains k)

theorem noOverlap_symm {a b : Range} (h : ∀ k, ¬(a.Contains k ∧ b.Contains k)) :
    ∀ k, ¬(b.Contains k ∧ a.Contains k) :=
  fun k hk => h k hk.symm

/-! ### Ascending start keys -/

def StartSorted (ns : List Range) : Prop :=
  ns.Pairwise (fun a b => a.startKey ≤ b.startKey)

def insertByStart (r : Range) : List Range → List Range
  | [] => [r]
  | n :: ns => if r.startKey < n.startKey then r :: n :: ns else n :: insertByStart r ns

/-- Insertion sort by start key. -/
def sortByStart (ns : List Range) : List Range := ns.foldr insertByStart []

theorem insertByStart_perm (r : Range) (ns : List Range) :
    (insertByStart r ns).Perm (r :: ns) := by
  induction ns with
  | nil => rfl
  | cons n ns ih =>
    by_cases hlt : r.startKey < n.startKey
    · simp only [insertByStart, hlt, if_true, List.Perm.refl]
    · simpa only [insertByStart, hlt, if_false] using (ih.cons n).trans (List.Perm.swap r n ns)

theorem insertByStart_sorted {r : Range} {ns : List Range} (h : StartSorted ns) :
    StartSorted (insertByStart r ns) := by
  induction ns with
  | nil => exact List.pairwise_singleton _ r
  | cons n ns ih =>
    have hns := List.pairwise_cons.mp h
    by_cases hlt : r.startKey < n.startKey
    · simp only [insertByStart, hlt, if_true]
      refine List.Pairwise.cons (fun m hm => ?_) h
      rcases List.mem_cons.mp hm with rfl | hm
      · exact hlt.le
      · exact hlt.le.trans (hns.1 m hm)
    · simp only [insertByStart, hlt, if_false]
      refine List.Pairwise.cons (fun m hm => ?_) (ih hns.2)
      rcases List.mem_cons.mp ((insertByStart_perm r ns).subset hm) with rfl | hm
      · exact not_lt.mp hlt
      · exact hns.1 m hm

theorem sortByStart_perm (ns : List Range) : (sortByStart ns).Perm ns := by
  induction ns with
  | nil => rfl
  | cons n ns ih => exact (insertByStart_perm n _).trans (ih.cons n)

theorem sortByStart_sorted (ns : List Range) : StartSorted (sortByStart ns) := by
  induction ns with
  | nil => exact List.Pairwise.nil
  | cons n ns ih => exact insertByStart_sorted ih

/-! ### The tree -/

/-- Modelled from the spec: `rtree.RangeTree`, an interval set keyed by start
key in which no key lies in two ranges. A value of `RangeTree` (a struct around
a B-tree pointer) shares its nodes with every copy, so the model threads one
tree through the callers. -/
structure RangeTree where
  nodes : List Range
  sorted : StartSorted nodes
  apart : NoOverlap nodes

def RangeTree.empty : RangeTree := ⟨[], List.Pairwise.nil, List.Pairwise.nil⟩

/-- The part of `n` below `s`. -/
def Range.leftOf (s : Key) (n : Range) : List Range :=
  if n.startKey < s then [⟨n.startKey, if belowEnd s n.endKey then s else n.endKey, n.files⟩]
  else []

/-- The part of `n` from `e` on; nothing when `e` is the unbounded end. -/
def Range.rightOf (e : Key) (n : Range) : List Range :=
  if !e.isEmpty && (decide (e ≤ n.startKey) || belowEnd e n.endKey) then
    [⟨max n.startKey e, n.endKey, n.files⟩]
  else []

/-- What a `put` of `[s, e)` leaves of the range `n`: the parts of `n` outside
`[s, e)`. A `put` whose range holds no key replaces only the range at its own
start key. -/
def Range.trim (s e : Key) (n : Range) : List Range :=
  if belowEnd s e then n.leftOf s ++ n.rightOf e
  else if n.startKey = s then [] else [n]

theorem Range.mem_leftOf {s : Key} {n m : Range} (h : m ∈ n.leftOf s) :
    m.PieceOf n ∧ ∀ k, m.Contains k → k < s := by
  unfold Range.leftOf at h
  split at h
  · rename_i hs
    obtain rfl := List.mem_singleton.mp h
    have hs0 : s ≠ [] := by
      rintro rfl
      exact not_lt.mpr List.nil_le hs
    have hlt : ∀ k, belowEnd k (if belowEnd s n.endKey then s else n.endKey) = true →
        k < s ∧ belowEnd k n.endKey = true := fun k hk => by
      split at hk
      · have hks := (belowEnd_iff_lt hs0).mp hk
        exact ⟨hks, belowEnd_of_le hks.le ‹_›⟩
      · obtain ⟨hne, hle⟩ := belowEnd_eq_false.mp (Bool.eq_false_iff.mpr ‹_›)
        exact ⟨lt_of_lt_of_le ((belowEnd_iff_lt hne).mp hk) hle, hk⟩
    exact ⟨⟨rfl, fun k hk => ⟨hk.1, (hlt k hk.2).2⟩⟩, fun k hk => (hlt k hk.2).1⟩
  · cases h

theorem Range.mem_rightOf {e : Key} {n m : Range} (h : m ∈ n.rightOf e) :
    m.PieceOf n ∧ ∀ k, m.Contains k → belowEnd k e = false := by
  unfold Range.rightOf at h
  split at h
  · rename_i he
    obtain rfl := List.mem_singleton.mp h
    have hne : e ≠ [] := fun h => by simp [h] at he
    refine ⟨⟨rfl, fun k hk => ⟨le_trans (le_max_left _ _) hk.1, hk.2⟩⟩, fun k hk => ?_⟩
    exact belowEnd_eq_false.mpr ⟨hne, le_trans (le_max_right _ _) hk.1⟩
  · cases h

/-- Each piece that `put` leaves of `n` lies inside `n` and outside the new range. -/
theorem Range.mem_trim {s e : Key} {n m : Range} (h : m ∈ n.trim s e) :
    m.PieceOf n ∧ ∀ k, m.Contains k → ¬(s ≤ k ∧ belowEnd k e = true) := by
  unfold Range.trim at h
  split at h
  · rcases List.mem_append.mp h with h | h
    · obtain ⟨hp, hlt⟩ := Range.mem_leftOf h
      exact ⟨hp, fun k hk hin => absurd (hlt k hk) (not_lt.mpr hin.1)⟩
    · obtain ⟨hp, hge⟩ := Range.mem_rightOf h
      exact ⟨hp, fun k hk hin => by simp [hge k hk] at hin⟩
  · rename_i hse
    split at h
    · cases h
    · obtain rfl := List.mem_singleton.mp h
      exact ⟨.refl _, fun k _ hin => hse (belowEnd_of_le hin.1 hin.2)⟩

/-- The pieces that `put` leaves of one range share no key. -/
theorem Range.trim_noOverlap (s e : Key) (n : Range) : NoOverlap (n.trim s e) := by
  unfold Range.trim
  split
  · rename_i hse
    refine List.pairwise_append.mpr ⟨?_, ?_, fun a ha b hb k hk => ?_⟩
    · unfold Range.leftOf; split <;> simp [NoOverlap]
    · unfold Range.rightOf; split <;> simp [NoOverlap]
    · have hlt := (Range.mem_leftOf ha).2 k hk.1
      have hge := (Range.mem_rightOf hb).2 k hk.2
      simp [belowEnd_of_le hlt.le hse] at hge
  · split <;> simp [NoOverlap]

theorem NoOverlap.flatMap_trim {ns : List Range} (h : NoOverlap ns) (s e : Key) :
    NoOverlap (ns.flatMap (Range.trim s e)) :=
  List.pairwise_flatMap.mpr ⟨fun n _ => Range.trim_noOverlap s e n,
    h.imp fun hab _ ha _ hb k hk =>
      hab k ⟨((Range.mem_trim ha).1.2 k hk.1), ((Range.mem_trim hb).1.2 k hk.2)⟩⟩

/-- The nodes after `put`: the new range, with what is left of the others. -/
def RangeTree.putNodes (t : RangeTree) (startKey endKey : Key) (files : List File) : List Range :=
  insertByStart ⟨startKey, endKey, files⟩ (sortByStart (t.nodes.flatMap (Range.trim startKey endKey)))

theorem RangeTree.putNodes_perm (t : RangeTree) (startKey endKey : Key) (files : List File) :
    (t.putNodes startKey endKey files).Perm
      (⟨startKey, endKey, files⟩ :: t.nodes.flatMap (Range.trim startKey endKey)) :=
  (insertByStart_perm _ _).trans ((sortByStart_perm _).cons _)

theorem RangeTree.putNodes_noOverlap (t : RangeTree) (startKey endKey : Key) (files : List File) :
    NoOverlap (t.putNodes startKey endKey files) := by
  refine ((t.putNodes_perm startKey endKey files).pairwise_iff noOverlap_symm).mpr
    (.cons (fun m hm k hk => ?_) (t.apart.flatMap_trim startKey endKey))
  obtain ⟨n, -, hn⟩ := List.mem_flatMap.mp hm
  exact (Range.mem_trim hn).2 k hk.2 hk.1

/-- Modelled from the spec: `Put(start, end, files)` inserts the range, and
what it overlaps of earlier ranges is subsumed: each keeps only its parts
outside `[start, end)`. -/
def RangeTree.put (t : RangeTree) (startKey endKey : Key) (files : List File) : RangeTree where
  nodes := t.putNodes startKey endKey files
  sorted := insertByStart_sorted (sortByStart_sorted _)
  apart := t.putNodes_noOverlap startKey endKey files

theorem RangeTree.mem_put {t : RangeTree} {startKey endKey : Key} {files : List File} {n : Range}
    (h : n ∈ (t.put startKey endKey files).nodes) :
    n = ⟨startKey, endKey, files⟩ ∨ ∃ m ∈ t.nodes, n.PieceOf m := by
  rcases List.mem_cons.mp ((t.putNodes_perm startKey endKey files).subset h) with rfl | h
  · exact .inl rfl
  · obtain ⟨m, hm, hn⟩ := List.mem_flatMap.mp h
    exact .inr ⟨m, hm, (Range.mem_trim hn).1⟩

/-- Modelled from the spec: `Ascend` visits the ranges in ascending start-key order. -/
def RangeTree.ascend (t : RangeTree) : List Range := t.nodes

theorem RangeTree.ascend_sorted (t : RangeTree) : StartSorted t.ascend := t.sorted

/-! ### Gaps -/

def hole (s e : Key) : Range := ⟨s, e, []⟩

/-- The gaps of `[cur, e)` left by the ascending ranges `ns`. -/
def gapsFrom (e : Key) : Key → List Range → List Range
  | cur, [] => if belowEnd cur e then [hole cur e] else []
  | cur, n :: ns =>
    if belowEnd cur e then
      (if cur < n.startKey then [hole cur (if belowEnd n.startKey e then n.startKey else e)]
        else []) ++
      (if n.endKey.isEmpty then [] else gapsFrom e (max cur n.endKey) ns)
    else []

/-- Modelled from the spec: `GetIncompleteRange(s, e)` returns the gaps inside
`[s, e)` not covered by any range of the tree. -/
def RangeTree.getIncompleteRange (t : RangeTree) (startKey endKey : Key) : List Range :=
  gapsFrom endKey startKey t.nodes

/-- `GetIncompleteRange` loses no key: when it finds no gap in `[cur, e)`, some
range holds each key of it. -/
theorem gapsFrom_eq_nil {e : Key} :
    ∀ {cur : Key} {ns : List Range}, gapsFrom e cur ns = [] →
      ∀ k, cur ≤ k → belowEnd k e = true → ∃ n ∈ ns, n.Contains k
  | cur, [], h, k, hk, hke => by
    rw [gapsFrom, if_pos (belowEnd_of_le hk hke)] at h
    cases h
  | cur, n :: ns, h, k, hk, hke => by
    rw [gapsFrom, if_pos (belowEnd_of_le hk hke), List.append_eq_nil] at h
    have hn : n.startKey ≤ cur := by
      by_contra hlt
      rw [if_pos (not_le.mp hlt)] at h
      cases h.1
    by_cases hin : belowEnd k n.endKey = true
    · exact ⟨n, List.mem_cons_self _ _, hn.trans hk, hin⟩
    simp only [belowEnd, Bool.or_eq_true, decide_eq_true_eq, not_or] at hin
    rw [if_neg hin.1] at h
    obtain ⟨m, hm, hmk⟩ := gapsFrom_eq_nil h.2 k (max_le hk (not_lt.mp hin.2)) hke
    exact ⟨m, List.mem_cons_of_mem _ hm, hmk⟩

end BrBackup
