import BrBackup.Basic

/-! `GetTS`: the backup timestamp, PD's clock rewound by `timeago`. A timestamp
is a `uint64` whose bits above 18 hold the physical time in milliseconds. PD's
answer, after its retries, and the GC safepoint check are parameters. -/

namespace BrBackup

def physicalShiftBits : Nat := 18

/-- `oracle.ComposeTS`: `uint64((physical << 18) + logical)`, in int64 arithmetic. -/
def composeTS (physical logical : Int) : Nat :=
  ((physical * 2 ^ physicalShiftBits + logical) % 2 ^ 64).toNat

/-- `oracle.ExtractPhysical`: `int64(ts >> 18)`. -/
def extractPhysical (ts : Nat) : Int := (ts / 2 ^ physicalShiftBits : Nat)

/-- `oracle.GetTimeFromTS`: the instant `time.Unix(ms/1e3, (ms%1e3)*1e6)`, as
its exact Unix time in nanoseconds, which a `time.Time` holds without loss. -/
def getTimeFromTS (ts : Nat) : Int := extractPhysical ts * 1000000

/-- The `int64` that int64 arithmetic leaves of an integer: its residue modulo
`2^64`, read as a signed number. -/
def toInt64 (x : Int) : Int := (x + 2 ^ 63) % 2 ^ 64 - 2 ^ 63

/-- `oracle.GetPhysical`: `t.UnixNano() / int64(time.Millisecond)`. `UnixNano`
computes the nanoseconds of the instant `t` in int64 arithmetic, which wraps
around outside the int64 range, and Go's division truncates toward zero. -/
def getPhysical (t : Int) : Int := (toInt64 t).tdiv 1000000

/-- What PD and the GC safepoint check answer. -/
structure TsEnv where
  pdGetTS : Except BrError (Int × Int)
  checkGCSafePoint : Nat → Option BrError

/-- The timestamp before the GC safepoint check. -/
def backupTSOf (env : TsEnv) (duration : Int) (ts : Nat) : Except BrError Nat :=
  if ts > 0 then .ok ts else
    match env.pdGetTS with
    | .error err => .error err
    | .ok (physical, logical) =>
      let backupTS := composeTS physical logical
      if duration < 0 then .error (errInvalidArgument.annotate "negative timeago is not allowed")
      else if duration > 0 then
        let backupAgo := getTimeFromTS backupTS - duration
        if backupTS < composeTS (getPhysical backupAgo) logical then
          .error (errInvalidArgument.annotate "backup ts overflow please choose a smaller timeago")
        else .ok (composeTS (getPhysical backupAgo) logical)
      else .ok backupTS

def getTS (env : TsEnv) (duration : Int) (ts : Nat) : Except BrError Nat :=
  match backupTSOf env duration ts with
  | .error err => .error err
  | .ok backupTS =>
    match env.checkGCSafePoint backupTS with
    | some err => .error err
    | none => .ok backupTS

/-! ### Timestamps of a PD answer -/

/-- The largest physical time whose nanoseconds fit in an int64. -/
def maxPhysical : Int := (2 ^ 63 - 1) / 1000000

theorem composeTS_eq {physical logical : Int} (hp : 0 ≤ physical) (hp' : physical ≤ maxPhysical)
    (hl : 0 ≤ logical) (hl' : logical < 2 ^ 18) :
    (composeTS physical logical : Int) = physical * 2 ^ 18 + logical := by
  simp only [composeTS, physicalShiftBits, maxPhysical] at *
  rw [Int.toNat_of_nonneg (Int.emod_nonneg _ (by omega))]
  omega

/-- A negative physical time wraps around to a timestamp above every valid one. -/
theorem composeTS_neg {physical logical : Int} (hp : physical < 0) (hp' : -maxPhysical ≤ physical)
    (hl : 0 ≤ logical) (hl' : logical < 2 ^ 18) :
    (composeTS physical logical : Int) = physical * 2 ^ 18 + logical + 2 ^ 64 := by
  simp only [composeTS, physicalShiftBits, maxPhysical] at *
  rw [Int.toNat_of_nonneg (Int.emod_nonneg _ (by omega))]
  omega

theorem extractPhysical_composeTS {physical logical : Int} (hp : 0 ≤ physical)
    (hp' : physical ≤ maxPhysical) (hl : 0 ≤ logical) (hl' : logical < 2 ^ 18) :
    extractPhysical (composeTS physical logical) = physical := by
  have h := composeTS_eq hp hp' hl hl'
  simp only [extractPhysical, physicalShiftBits, Int.ofNat_ediv] at *
  push_cast
  omega

theorem toInt64_of_mem {x : Int} (h : -2 ^ 63 ≤ x) (h' : x < 2 ^ 63) : toInt64 x = x := by
  unfold toInt64
  omega

/-- Within the int64 range `GetPhysical` is the division truncated toward zero. -/
theorem getPhysical_eq {x : Int} (h : -2 ^ 63 ≤ x) (h' : x < 2 ^ 63) :
    getPhysical x = if 0 ≤ x then x / 1000000 else -((-x) / 1000000) := by
  rw [getPhysical, toInt64_of_mem h h']
  split
  · exact Int.tdiv_eq_ediv ‹_› (by omega)
  · rw [← Int.neg_neg x, Int.neg_tdiv, Int.neg_neg, Int.tdiv_eq_ediv (by omega) (by omega)]

/-- PD's physical time `p` rewound by `d` ns: `p - ⌈d / 1 ms⌉` while that is not
negative, then `0` for less than a millisecond more, and negative beyond. -/
theorem getPhysical_rewind {p d : Int} (hp : 0 ≤ p) (hp' : p ≤ maxPhysical) (hd : 0 < d)
    (hd' : d < 2 ^ 63) :
    (d ≤ p * 1000000 → getPhysical (p * 1000000 - d) = p - (d + 999999) / 1000000) ∧
      (p * 1000000 < d → d < (p + 1) * 1000000 → getPhysical (p * 1000000 - d) = 0) ∧
      (d < (p + 1) * 1000000 → 0 ≤ getPhysical (p * 1000000 - d) ∧
        getPhysical (p * 1000000 - d) ≤ p) ∧
      ((p + 1) * 1000000 ≤ d → getPhysical (p * 1000000 - d) < 0 ∧
        -maxPhysical ≤ getPhysical (p * 1000000 - d)) := by
  simp only [maxPhysical] at *
  rw [getPhysical_eq (by omega) (by omega)]
  split <;> omega

/-- `GetTS(d, 0)` for `d > 0`: the physical time `q` of the result is PD's
rewound by `d` and truncated toward zero, between `0` and PD's own; the call
fails with `ErrInvalidArgument` exactly when the rewind reaches a millisecond
before time 0. -/
theorem getTS_rewind (env : TsEnv) {p l d : Int} (hp : 0 ≤ p) (hp' : p ≤ maxPhysical) (hl : 0 ≤ l)
    (hl' : l < 2 ^ 18) (hd : 0 < d) (hd' : d < 2 ^ 63) (hpd : env.pdGetTS = .ok (p, l)) :
    ((p + 1) * 1000000 ≤ d → ∃ e, getTS env d 0 = .error e ∧ e.cls = .invalidArgument) ∧
    (d < (p + 1) * 1000000 → ∃ q, 0 ≤ q ∧ q ≤ p ∧
      (d ≤ p * 1000000 → q = p - (d + 999999) / 1000000) ∧ (p * 1000000 < d → q = 0) ∧
      getTS env d 0 = (match env.checkGCSafePoint (composeTS q l) with
        | some err => .error err
        | none => .ok (composeTS q l)) ∧
      extractPhysical (composeTS q l) = q ∧ composeTS q l % 2 ^ 18 = l ∧
      composeTS q l ≤ composeTS p l) := by
  obtain ⟨hexact, hzero, hrange, hfar⟩ := getPhysical_rewind hp hp' hd hd'
  have hts := composeTS_eq hp hp' hl hl'
  have hphys : getTimeFromTS (composeTS p l) = p * 1000000 := by
    rw [getTimeFromTS, extractPhysical_composeTS hp hp' hl hl']
  have hmax : maxPhysical = 9223372036854 := by decide
  have hget : getTS env d 0 =
      if composeTS p l < composeTS (getPhysical (p * 1000000 - d)) l then
        .error (errInvalidArgument.annotate "backup ts overflow please choose a smaller timeago")
      else match env.checkGCSafePoint (composeTS (getPhysical (p * 1000000 - d)) l) with
        | some err => .error err
        | none => .ok (composeTS (getPhysical (p * 1000000 - d)) l) := by
    simp only [getTS, backupTSOf, hpd, hphys, if_neg (show ¬(0 : Nat) > 0 by omega),
      if_neg (show ¬d < 0 by omega), if_pos hd]
    split_ifs <;> rfl
  generalize getPhysical (p * 1000000 - d) = q at *
  constructor
  · intro h
    obtain ⟨hneg, hlow⟩ := hfar h
    have hwrap := composeTS_neg hneg hlow hl hl'
    exact ⟨_, by rw [hget, if_pos (by omega)], rfl⟩
  · intro h
    obtain ⟨hq0, hqp⟩ := hrange h
    have hq := composeTS_eq hq0 (hqp.trans hp') hl hl'
    exact ⟨q, hq0, hqp, hexact, fun h' => hzero h' h, by rw [hget, if_neg (by omega)],
      extractPhysical_composeTS hq0 (hqp.trans hp') hl hl', by omega, by omega⟩

theorem getTS_rewind_one_ms :
    let env : TsEnv := ⟨.ok (1, 1), fun _ => none⟩
    ((1 + 1) * 1000000 ≤ (1000000 : Int) →
        ∃ e, getTS env 1000000 0 = .error e ∧ e.cls = .invalidArgument) ∧
      ((1000000 : Int) < (1 + 1) * 1000000 → ∃ q, 0 ≤ q ∧ q ≤ 1 ∧
        ((1000000 : Int) ≤ 1 * 1000000 → q = 1 - (1000000 + 999999) / 1000000) ∧
        (1 * 1000000 < (1000000 : Int) → q = 0) ∧
        getTS env 1000000 0 = (match env.checkGCSafePoint (composeTS q 1) with
          | some err => .error err
          | none => .ok (composeTS q 1)) ∧
        extractPhysical (composeTS q 1) = q ∧ (composeTS q 1 : Int) % 2 ^ 18 = 1 ∧
        composeTS q 1 ≤ composeTS 1 1) :=
  getTS_rewind ⟨.ok (1, 1), fun _ => none⟩ (by decide) (by decide) (by decide) (by decide)
    (by decide) (by decide) rfl

/-- PD at physical time 0: a rewind of 1 ns gives physical time 0, rounded
toward zero, and is accepted, where rounding down would give -1. -/
theorem getTS_sub_millisecond_rewind :
    getTS ⟨.ok (0, 1), fun _ => none⟩ 1 0 = .ok 1 ∧ extractPhysical 1 = 0 ∧
      ((0 : Int) * 1000000 - 1) / 1000000 = -1 :=
  ⟨rfl, rfl, by decide⟩

end BrBackup
