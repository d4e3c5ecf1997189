import BrBackup.GetTS
import BrBackup.HandleFineGrained

/-! `SetGCTTL`, `GetGCTTL` and `UpdateBRGCSafePoint`: on API V2 a backup keeps
GC away from its snapshot by a service safepoint at `GetTS(safeInterval)`,
with the client's GC TTL in whole seconds, `int64(d.Seconds())`. `Seconds`
computes in `float64`, modelled as exact rationals rounded to the nearest
double after each conversion and operation. `utils.DefaultBRGCSafePointTTL`
and PD's answer to `UpdateServiceSafePoint` are parameters; the safepoint's ID
is left out. -/

namespace BrBackup

/-- `utils.BRServiceSafePoint`, without its ID. -/
structure BRServiceSafePoint where
  backupTS : Nat
  ttl : Int
  deriving DecidableEq, Repr

/-! ### `int64(d.Seconds())` -/

/-- Rounding to the nearest integer, ties to the even one. -/
def roundHalfEven (y : ℚ) : Int :=
  if (⌊y⌋ : ℚ) + 1 / 2 < y ∨ (y = ⌊y⌋ + 1 / 2 ∧ ⌊y⌋ % 2 = 1) then ⌊y⌋ + 1 else ⌊y⌋

/-- The exponent of the last bit of the 53-bit significand of the double
nearest `x`. The values rounded here lie far inside the normal range, so
neither overflow nor subnormals arise. -/
def f64Quantum (x : ℚ) : Int := Int.log 2 |x| - 52

/-- The double nearest `x`, ties to even: a `float64` conversion, or the result
of a `float64` operation whose exact value is `x`. -/
def toFloat64 (x : ℚ) : ℚ := roundHalfEven (x / 2 ^ f64Quantum x) * 2 ^ f64Quantum x

/-- `Duration.Seconds`: `float64(sec) + float64(nsec)/1e9`, where `sec` and
`nsec` are `d / Second` and `d % Second`, which truncate toward zero. -/
def durationFloatSeconds (d : Int) : ℚ :=
  toFloat64 (toFloat64 (d.tdiv 1000000000 : Int) +
    toFloat64 (toFloat64 (d.tmod 1000000000 : Int) / 1000000000))

/-- Go's conversion of a float inside the int64 range to `int64`: the fraction
is discarded. -/
def truncToInt64 (x : ℚ) : Int := if 0 ≤ x then ⌊x⌋ else ⌈x⌉

/-- `int64(d.Seconds())` for a `time.Duration` `d` in nanoseconds. From `2^24` s
on, `Seconds` can round a fraction close to a whole second up to it, and the
result is then one second more than `d / Second`. -/
def durationSeconds (d : Int) : Int := truncToInt64 (durationFloatSeconds d)

def setGCTTL (defaultTTL : Int) (bc : Client) (ttl : Int) : Client :=
  { bc with gcTTL := if ttl ≤ 0 then defaultTTL else ttl }

def getGCTTL (bc : Client) : Int := bc.gcTTL

/-- The safepoint `UpdateBRGCSafePoint` asks PD to register, if it gets that
far, and what it returns. -/
structure SafePointUpdate where
  registered : Option BRServiceSafePoint
  result : Except BrError Nat

def updateBRGCSafePoint (env : TsEnv) (updateServiceSafePoint : BRServiceSafePoint → Option BrError)
    (bc : Client) (safeInterval : Int) : SafePointUpdate :=
  if bc.curAPIVer ≠ .v2 then ⟨none, .ok 0⟩ else
    match getTS env safeInterval 0 with
    | .error err => ⟨none, .error err⟩
    | .ok backupTS =>
      let sp : BRServiceSafePoint := ⟨backupTS, durationSeconds (getGCTTL bc)⟩
      match updateServiceSafePoint sp with
      | some err => ⟨some sp, .error err⟩
      | none => ⟨some sp, .ok backupTS⟩

/-! ### Whole seconds -/

theorem floor_le_roundHalfEven (y : ℚ) : ⌊y⌋ ≤ roundHalfEven y := by
  unfold roundHalfEven
  split <;> omega

theorem roundHalfEven_le (y : ℚ) : (roundHalfEven y : ℚ) ≤ y + 1 / 2 := by
  have := Int.floor_le y
  unfold roundHalfEven
  split
  · rename_i h
    push_cast
    rcases h with h | ⟨h, -⟩ <;> linarith
  · linarith

@[simp] theorem roundHalfEven_intCast (z : Int) : roundHalfEven z = z := by
  simp [roundHalfEven]

theorem f64Quantum_le {x : ℚ} (hx : 0 < x) {j : Int} (h : x < 2 ^ (j + 1)) :
    f64Quantum x ≤ j - 52 := by
  have := (Int.lt_zpow_iff_log_lt (by norm_num : 1 < 2) hx).mp (by exact_mod_cast h)
  simp only [f64Quantum, abs_of_pos hx]
  omega

@[simp] theorem toFloat64_zero : toFloat64 0 = 0 := by simp [toFloat64, roundHalfEven]

theorem toFloat64_le (x : ℚ) : toFloat64 x ≤ x + 2 ^ f64Quantum x / 2 := by
  have hq : (0 : ℚ) < 2 ^ f64Quantum x := zpow_pos (by norm_num) _
  have := mul_le_mul_of_nonneg_right (roundHalfEven_le (x / 2 ^ f64Quantum x)) hq.le
  rw [add_mul, div_mul_cancel₀ _ hq.ne'] at this
  unfold toFloat64
  linarith

/-- Rounding a value below `2^(j+1)` adds at most half a unit in the last place. -/
theorem toFloat64_le_of_lt {x : ℚ} (hx : 0 ≤ x) {j : Int} (h : x < 2 ^ (j + 1)) :
    toFloat64 x ≤ x + 2 ^ (j - 53) := by
  rcases hx.eq_or_lt with rfl | hx
  · simpa using (zpow_pos (by norm_num : (0 : ℚ) < 2) _).le
  · calc toFloat64 x ≤ x + 2 ^ f64Quantum x / 2 := toFloat64_le x
      _ ≤ x + 2 ^ (j - 53) := by
        have := zpow_le_zpow_right₀ (by norm_num : (1 : ℚ) ≤ 2) (f64Quantum_le hx h)
        rw [show j - 53 = j - 52 - 1 by ring, zpow_sub₀ two_ne_zero, zpow_one]
        linarith

theorem le_toFloat64 {x : ℚ} {m : Int} (h : (m : ℚ) * 2 ^ f64Quantum x ≤ x) :
    (m : ℚ) * 2 ^ f64Quantum x ≤ toFloat64 x := by
  have hq : (0 : ℚ) < 2 ^ f64Quantum x := zpow_pos (by norm_num) _
  have hm : m ≤ roundHalfEven (x / 2 ^ f64Quantum x) :=
    (Int.le_floor.mpr ((le_div_iff₀ hq).mpr h)).trans (floor_le_roundHalfEven _)
  exact mul_le_mul_of_nonneg_right (by exact_mod_cast hm) hq.le

/-- Integers below `2^53` are doubles. -/
theorem toFloat64_intCast {z : Int} (h0 : 0 ≤ z) (h : z < 2 ^ 53) : toFloat64 z = z := by
  rcases h0.eq_or_lt with rfl | h0
  · simp
  obtain ⟨n, hn⟩ : ∃ n : Nat, f64Quantum z = -n :=
    ⟨(-f64Quantum z).toNat, by
      have := f64Quantum_le (show (0 : ℚ) < z by exact_mod_cast h0)
        (show (z : ℚ) < 2 ^ ((52 : Int) + 1) by exact_mod_cast h)
      omega⟩
  have hz : (z : ℚ) / 2 ^ f64Quantum z = ((z * 2 ^ n : Int) : ℚ) := by
    rw [hn, zpow_neg, zpow_natCast, div_inv_eq_mul]
    push_cast
    rfl
  rw [toFloat64, hz, roundHalfEven_intCast, ← hz, div_mul_cancel₀ _ (zpow_ne_zero _ two_ne_zero)]

theorem toFloat64_nonneg {x : ℚ} (hx : 0 ≤ x) : 0 ≤ toFloat64 x := by
  simpa using le_toFloat64 (m := 0) (by simpa using hx)

/-- While the unit in the last place is at most 1, rounding never goes below an
integer under the exact value. -/
theorem intCast_le_toFloat64 {x : ℚ} {z : Int} (hz : (z : ℚ) ≤ x) (hk : f64Quantum x ≤ 0) :
    (z : ℚ) ≤ toFloat64 x := by
  obtain ⟨K, hK⟩ : ∃ K : Nat, f64Quantum x = -K := ⟨(-f64Quantum x).toNat, by omega⟩
  have hgrid : ((z * 2 ^ K : Int) : ℚ) * 2 ^ f64Quantum x = z := by
    rw [hK, zpow_neg, zpow_natCast]
    push_cast
    field_simp
  have := le_toFloat64 (m := z * 2 ^ K) (by rwa [hgrid])
  rwa [hgrid] at this

theorem f64Quantum_nonpos {x : ℚ} (hx : 0 ≤ x) (h : x < 2 ^ 53) : f64Quantum x ≤ 0 := by
  rcases hx.eq_or_lt with rfl | hx
  · simp [f64Quantum]
  · have := f64Quantum_le hx (show x < 2 ^ ((52 : Int) + 1) by exact_mod_cast h)
    omega

/-- `float64(nsec)/1e9` for `0 ≤ nsec < 1e9` stays below `1 - 2^-30`. -/
theorem toFloat64_nsec_lt {n : Int} (h0 : 0 ≤ n) (h1 : n < 1000000000) :
    0 ≤ toFloat64 ((n : ℚ) / 1000000000) ∧ toFloat64 ((n : ℚ) / 1000000000) + 2 ^ (-30 : Int) < 1 := by
  have hn : (n : ℚ) + 1 ≤ 1000000000 := by exact_mod_cast h1
  have hx0 : (0 : ℚ) ≤ n / 1000000000 := div_nonneg (Int.cast_nonneg.mpr h0) (by norm_num)
  have hx1 : (n : ℚ) / 1000000000 ≤ 1 - 1 / 1000000000 := by
    rw [div_le_iff₀ (by norm_num)]
    linarith only [hn]
  have hq := toFloat64_le_of_lt hx0 (show (n : ℚ) / 1000000000 < 2 ^ ((-1 : Int) + 1) by
    norm_num; linarith only [hx1])
  refine ⟨toFloat64_nonneg hx0, ?_⟩
  norm_num at hq ⊢
  linarith only [hq, hx1]

/-- A whole number of seconds below `2^24` plus a fraction below `1 - 2^-30`
rounds to a double that truncates back to the whole seconds. -/
theorem truncToInt64_toFloat64_add {s : Int} {q : ℚ} (hs0 : 0 ≤ s) (hs1 : s < 2 ^ 24)
    (hq0 : 0 ≤ q) (hq1 : q + 2 ^ (-30 : Int) < 1) : truncToInt64 (toFloat64 (s + q)) = s := by
  have hs : (0 : ℚ) ≤ s ∧ (s : ℚ) + 1 ≤ 2 ^ 24 := ⟨Int.cast_nonneg.mpr hs0, by exact_mod_cast hs1⟩
  have hpos : (0 : ℚ) < 2 ^ (-30 : Int) := zpow_pos (by norm_num) _
  have hy0 : (0 : ℚ) ≤ s + q := add_nonneg hs.1 hq0
  have hy1 : (s : ℚ) + q < 2 ^ ((23 : Int) + 1) := by norm_num; linarith only [hs.2, hq1, hpos]
  have hr0 := intCast_le_toFloat64 (le_add_of_nonneg_right hq0)
    (f64Quantum_nonpos hy0 (hy1.trans (by norm_num)))
  have hr1 := toFloat64_le_of_lt hy0 hy1
  rw [truncToInt64, if_pos (hs.1.trans hr0)]
  refine Int.floor_eq_iff.mpr ⟨hr0, ?_⟩
  norm_num at hr1 hq1
  linarith only [hr1, hq1]

/-- For a duration of less than `2^24` s, `int64(d.Seconds())` is the number of
whole seconds, `d / Second`: the rounding of `Seconds` never reaches the next
second. -/
theorem durationSeconds_eq_tdiv {d : Int} (h0 : 0 ≤ d) (h : d < 2 ^ 24 * 1000000000) :
    durationSeconds d = d.tdiv 1000000000 := by
  have hs : d.tdiv 1000000000 = d / 1000000000 := Int.tdiv_eq_ediv h0 (by norm_num)
  have hn : d.tmod 1000000000 = d % 1000000000 := Int.tmod_eq_emod h0 (by norm_num)
  obtain ⟨hq0, hq1⟩ := toFloat64_nsec_lt (show 0 ≤ d.tmod 1000000000 by omega) (by omega)
  rw [durationSeconds, durationFloatSeconds, toFloat64_intCast (by omega) (by omega),
    toFloat64_intCast (by omega) (by omega)]
  exact truncToInt64_toFloat64_add (by omega) (by omega) hq0 hq1

end BrBackup
