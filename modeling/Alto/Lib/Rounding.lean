import Mathlib

/-!
# Rounding to digits

A number is rounded to `p` digits in base `β`: to the nearest multiple of the place of its last digit,
and to the even one of two. The numbers with at most `p` digits stay as they are, no other one of them is
nearer to a number than the one to which it is rounded, and rounding is monotone. A `Rounding` is the
arithmetic whose results are rounded in such a way, or not at all.
-/

namespace Alto.Lib

/-! ## Integers -/

/-- The nearest integer, and the even one of two. -/
def nearestEven (q : ℚ) : ℤ :=
  if q - ⌊q⌋ < 1 / 2 then ⌊q⌋
  else if 1 / 2 < q - ⌊q⌋ then ⌊q⌋ + 1
  else if ⌊q⌋ % 2 = 0 then ⌊q⌋
  else ⌊q⌋ + 1

section Integers

variable {q q' : ℚ}

theorem abs_nearestEven_sub (q : ℚ) : |(nearestEven q : ℚ) - q| ≤ 1 / 2 := by
  have hle := Int.floor_le q
  have hlt := Int.lt_floor_add_one q
  unfold nearestEven
  rw [abs_le]
  split
  · constructor <;> linarith
  split
  · push_cast
    constructor <;> linarith
  split
  · constructor <;> linarith
  · push_cast
    constructor <;> linarith

/-- Integers that are less than one apart are the same. -/
theorem int_eq_of_abs_lt {m n : ℤ} (h : |(m : ℚ) - n| < 1) : m = n := by
  have habs : |m - n| < 1 := by exact_mod_cast h
  have hzero := Int.abs_lt_one_iff.1 habs
  omega

@[simp] theorem nearestEven_intCast (n : ℤ) : nearestEven n = n :=
  int_eq_of_abs_lt (lt_of_le_of_lt (abs_nearestEven_sub n) (by norm_num))

@[simp] theorem nearestEven_zero : nearestEven 0 = 0 := by
  simpa using nearestEven_intCast 0

theorem nearestEven_mono (h : q ≤ q') : nearestEven q ≤ nearestEven q' := by
  by_contra hlt
  have hstep : nearestEven q' + 1 ≤ nearestEven q := by omega
  have hcast : (nearestEven q' : ℚ) + 1 ≤ nearestEven q := by exact_mod_cast hstep
  have hq := abs_le.1 (abs_nearestEven_sub q)
  have hq' := abs_le.1 (abs_nearestEven_sub q')
  have heq : q = q' := by linarith
  rw [heq] at hlt
  exact hlt le_rfl

/-- No integer is nearer. -/
theorem nearestEven_nearest (q : ℚ) (n : ℤ) : |(nearestEven q : ℚ) - q| ≤ |(n : ℚ) - q| := by
  by_contra hlt
  have hnear := abs_nearestEven_sub q
  have hdist : |(nearestEven q : ℚ) - n| < 1 := by
    calc |(nearestEven q : ℚ) - n| = |((nearestEven q : ℚ) - q) - (n - q)| := by ring_nf
      _ ≤ |(nearestEven q : ℚ) - q| + |(n : ℚ) - q| := abs_sub _ _
      _ < 1 := by linarith
  rw [int_eq_of_abs_lt hdist] at hlt
  exact hlt le_rfl

/-- Of two integers the even one is taken. -/
theorem even_nearestEven (h : |(nearestEven q : ℚ) - q| = 1 / 2) : nearestEven q % 2 = 0 := by
  have hle := Int.floor_le q
  have hlt := Int.lt_floor_add_one q
  unfold nearestEven at h ⊢
  split at h
  · rw [abs_of_nonpos (by linarith)] at h
    linarith
  split at h
  · push_cast at h
    rw [abs_of_nonneg (by linarith)] at h
    linarith
  · rw [if_neg ‹_›, if_neg ‹_›]
    split <;> omega

@[simp] theorem nearestEven_neg (q : ℚ) : nearestEven (-q) = -nearestEven q := by
  by_contra hne
  have hq := abs_nearestEven_sub q
  have hneg := abs_nearestEven_sub (-q)
  -- two different integers are as near as this only if both are one half apart
  have hsum : (1 : ℚ) ≤ |(nearestEven (-q) : ℚ) + nearestEven q| := by
    have hint : 1 ≤ |nearestEven (-q) + nearestEven q| := Int.one_le_abs (by omega)
    exact_mod_cast hint
  have htriangle : |(nearestEven (-q) : ℚ) + nearestEven q| ≤
      |(nearestEven (-q) : ℚ) - -q| + |(nearestEven q : ℚ) - q| := by
    refine le_trans (le_of_eq ?_) (abs_add_le _ _)
    ring_nf
  have heven := even_nearestEven (q := q) (by linarith)
  have heven' := even_nearestEven (q := -q) (by linarith)
  have hle : |(nearestEven (-q) : ℚ) + nearestEven q| ≤ 1 := by linarith
  have hint : |nearestEven (-q) + nearestEven q| ≤ 1 := by exact_mod_cast hle
  have hbounds := abs_le.1 hint
  omega

end Integers

/-! ## Digits -/

/-- The place of the last one of `p` digits. -/
def lastPlace (β p : ℕ) (q : ℚ) : ℤ := Int.log β |q| + 1 - p

/-- The nearest number with `p` digits, and the even one of two. -/
def roundTo (β p : ℕ) (q : ℚ) : ℚ :=
  nearestEven (q / (β : ℚ) ^ lastPlace β p q) * (β : ℚ) ^ lastPlace β p q

/-- The number has at most `p` digits. -/
def HasDigits (β p : ℕ) (q : ℚ) : Prop :=
  ∃ m k : ℤ, |m| < (β : ℤ) ^ p ∧ q = m * (β : ℚ) ^ k

section Digits

variable {β p : ℕ} {q q' v : ℚ}

@[simp] theorem roundTo_zero (β p : ℕ) : roundTo β p 0 = 0 := by simp [roundTo]

@[simp] theorem lastPlace_neg (β p : ℕ) (q : ℚ) : lastPlace β p (-q) = lastPlace β p q := by
  rw [lastPlace, abs_neg, lastPlace]

@[simp] theorem roundTo_neg (β p : ℕ) (q : ℚ) : roundTo β p (-q) = -roundTo β p q := by
  rw [roundTo, lastPlace_neg, neg_div, nearestEven_neg, roundTo]
  push_cast
  ring

variable (hβ : 1 < β)
include hβ

theorem place_pos (k : ℤ) : (0 : ℚ) < (β : ℚ) ^ k := zpow_pos (by exact_mod_cast (zero_lt_one.trans hβ)) k

theorem roundTo_nonneg (h : 0 ≤ q) : 0 ≤ roundTo β p q := by
  have hmono := nearestEven_mono (div_nonneg h (place_pos hβ (lastPlace β p q)).le)
  rw [nearestEven_zero] at hmono
  exact mul_nonneg (by exact_mod_cast hmono) (place_pos hβ _).le

theorem roundTo_nonpos (h : q ≤ 0) : roundTo β p q ≤ 0 := by
  have hmono := nearestEven_mono (div_nonpos_of_nonpos_of_nonneg h
    (place_pos hβ (lastPlace β p q)).le)
  rw [nearestEven_zero] at hmono
  exact mul_nonpos_of_nonpos_of_nonneg (by exact_mod_cast hmono) (place_pos hβ _).le

/-- A multiple of the last place stays. -/
theorem roundTo_of_multiple {n : ℤ} (h : q = n * (β : ℚ) ^ lastPlace β p q) :
    roundTo β p q = q := by
  have hdiv : q / (β : ℚ) ^ lastPlace β p q = n := by
    rw [div_eq_iff (place_pos hβ _).ne', ← h]
  rw [roundTo, hdiv, nearestEven_intCast, ← h]

/-- A multiple of a place is a multiple of every lower one. -/
theorem exists_multiple {j k : ℤ} (h : j ≤ k) (m : ℤ) :
    ∃ n : ℤ, (m : ℚ) * (β : ℚ) ^ k = n * (β : ℚ) ^ j := by
  have hne : (β : ℚ) ≠ 0 := by exact_mod_cast (zero_lt_one.trans hβ).ne'
  obtain ⟨d, hd⟩ := Int.le.dest h
  refine ⟨m * (β : ℤ) ^ d, ?_⟩
  rw [← hd, zpow_add₀ hne, zpow_natCast]
  push_cast
  ring

/-- Numbers with few digits are below a power of the base. -/
theorem abs_lt_place {m k : ℤ} (hm : |m| < (β : ℤ) ^ p) :
    |(m : ℚ) * (β : ℚ) ^ k| < (β : ℚ) ^ (k + p) := by
  have hne : (β : ℚ) ≠ 0 := by exact_mod_cast (zero_lt_one.trans hβ).ne'
  have hcast : |(m : ℚ)| < (β : ℚ) ^ p := by exact_mod_cast hm
  rw [abs_mul, abs_of_pos (place_pos hβ k), zpow_add₀ hne, zpow_natCast, mul_comm]
  exact mul_lt_mul_of_pos_left hcast (place_pos hβ k)

theorem roundTo_of_hasDigits (h : HasDigits β p q) : roundTo β p q = q := by
  obtain ⟨m, k, hm, rfl⟩ := h
  by_cases hzero : (m : ℚ) * (β : ℚ) ^ k = 0
  · rw [hzero, roundTo_zero]
  have hlog : Int.log β |(m : ℚ) * (β : ℚ) ^ k| < k + p :=
    (Int.lt_zpow_iff_log_lt hβ (abs_pos.2 hzero)).1 (abs_lt_place hβ hm)
  have hplace : lastPlace β p ((m : ℚ) * (β : ℚ) ^ k) ≤ k := by
    rw [lastPlace]
    omega
  obtain ⟨n, hn⟩ := exists_multiple hβ hplace m
  exact roundTo_of_multiple hβ hn

/-- The leading digit of a positive number. -/
theorem log_bounds (hq : 0 < q) :
    (β : ℚ) ^ (lastPlace β p q + p - 1) ≤ q ∧ q < (β : ℚ) ^ (lastPlace β p q + p) := by
  have hlow : lastPlace β p q + p - 1 = Int.log β q := by
    rw [lastPlace, abs_of_pos hq]
    omega
  have hhigh : lastPlace β p q + p = Int.log β q + 1 := by omega
  rw [hlow, hhigh]
  exact ⟨Int.zpow_log_le_self hβ hq, Int.lt_zpow_succ_log_self hβ q⟩

/-- The digits of a positive number, as an integer. -/
theorem nearestEven_bounds (hp : 1 ≤ p) (hq : 0 < q) :
    (β : ℤ) ^ (p - 1) ≤ nearestEven (q / (β : ℚ) ^ lastPlace β p q) ∧
      nearestEven (q / (β : ℚ) ^ lastPlace β p q) ≤ (β : ℤ) ^ p := by
  have hne : (β : ℚ) ≠ 0 := by exact_mod_cast (zero_lt_one.trans hβ).ne'
  have hpos := place_pos hβ (lastPlace β p q)
  obtain ⟨hlow, hhigh⟩ := log_bounds hβ (p := p) hq
  obtain ⟨n, rfl⟩ : ∃ n, p = n + 1 := ⟨p - 1, by omega⟩
  constructor
  · have hle : (((β : ℤ) ^ n : ℤ) : ℚ) ≤ q / (β : ℚ) ^ lastPlace β (n + 1) q := by
      rw [le_div_iff₀ hpos]
      refine le_trans (le_of_eq ?_) hlow
      push_cast
      rw [← zpow_natCast, ← zpow_add₀ hne]
      congr 1
      ring
    have hmono := nearestEven_mono hle
    rwa [nearestEven_intCast] at hmono
  · have hle : q / (β : ℚ) ^ lastPlace β (n + 1) q ≤ (((β : ℤ) ^ (n + 1) : ℤ) : ℚ) := by
      rw [div_le_iff₀ hpos]
      refine le_trans hhigh.le (le_of_eq ?_)
      push_cast
      rw [← zpow_natCast, ← zpow_add₀ hne]
      congr 1
      push_cast
      ring
    have hmono := nearestEven_mono hle
    rwa [nearestEven_intCast] at hmono

theorem roundTo_bounds (hp : 1 ≤ p) (hq : 0 < q) :
    (β : ℚ) ^ (lastPlace β p q + p - 1) ≤ roundTo β p q ∧
      roundTo β p q ≤ (β : ℚ) ^ (lastPlace β p q + p) := by
  have hne : (β : ℚ) ≠ 0 := by exact_mod_cast (zero_lt_one.trans hβ).ne'
  have hpos := place_pos hβ (lastPlace β p q)
  obtain ⟨hlow, hhigh⟩ := nearestEven_bounds hβ hp hq
  have hlow' : (β : ℚ) ^ (p - 1) ≤ nearestEven (q / (β : ℚ) ^ lastPlace β p q) := by
    exact_mod_cast hlow
  have hhigh' : (nearestEven (q / (β : ℚ) ^ lastPlace β p q) : ℚ) ≤ (β : ℚ) ^ p := by
    exact_mod_cast hhigh
  constructor
  · have hexp : lastPlace β p q + p - 1 = ((p - 1 : ℕ) : ℤ) + lastPlace β p q := by omega
    rw [roundTo, hexp, zpow_add₀ hne, zpow_natCast]
    exact mul_le_mul_of_nonneg_right hlow' hpos.le
  · rw [roundTo, add_comm, zpow_add₀ hne, zpow_natCast]
    exact mul_le_mul_of_nonneg_right hhigh' hpos.le

/-- What a number is rounded to has at most `p` digits. -/
theorem hasDigits_roundTo (hp : 1 ≤ p) (hq : 0 ≤ q) : HasDigits β p (roundTo β p q) := by
  have hpow : (1 : ℤ) < (β : ℤ) ^ p := one_lt_pow₀ (by exact_mod_cast hβ) (by omega)
  rcases hq.eq_or_lt with rfl | hq
  · exact ⟨0, 0, by simpa using (zero_lt_one.trans hpow), by simp⟩
  obtain ⟨hlow, hhigh⟩ := nearestEven_bounds hβ hp hq
  rcases hhigh.eq_or_lt with heq | hlt
  · refine ⟨1, lastPlace β p q + p, by simpa using hpow, ?_⟩
    have hne : (β : ℚ) ≠ 0 := by exact_mod_cast (zero_lt_one.trans hβ).ne'
    rw [roundTo, heq, add_comm, zpow_add₀ hne, zpow_natCast]
    push_cast
    ring
  · refine ⟨_, _, ?_, rfl⟩
    rwa [abs_of_nonneg (le_trans (by positivity) hlow)]

theorem roundTo_mono (hp : 1 ≤ p) (hq : 0 ≤ q) (h : q ≤ q') : roundTo β p q ≤ roundTo β p q' := by
  rcases hq.eq_or_lt with rfl | hq
  · rw [roundTo_zero]
    exact roundTo_nonneg hβ h
  have hq' : 0 < q' := hq.trans_le h
  have hplace : lastPlace β p q ≤ lastPlace β p q' := by
    have hlog := Int.log_mono_right (b := β) (abs_pos.2 hq.ne')
      (by rwa [abs_of_pos hq, abs_of_pos hq'] : |q| ≤ |q'|)
    rw [lastPlace, lastPlace]
    omega
  rcases hplace.eq_or_lt with heq | hlt
  · -- the same last place
    have hpos := place_pos hβ (lastPlace β p q')
    rw [roundTo, roundTo, heq]
    refine mul_le_mul_of_nonneg_right ?_ hpos.le
    exact_mod_cast nearestEven_mono (div_le_div_of_nonneg_right h hpos.le)
  · -- a power of the base stands between the two
    calc roundTo β p q ≤ (β : ℚ) ^ (lastPlace β p q + p) := (roundTo_bounds hβ hp hq).2
      _ ≤ (β : ℚ) ^ (lastPlace β p q' + p - 1) :=
        zpow_le_zpow_right₀ (by exact_mod_cast hβ.le) (by omega)
      _ ≤ roundTo β p q' := (roundTo_bounds hβ hp hq').1

/-- No multiple of the last place is nearer. -/
theorem roundTo_nearest_multiple (n : ℤ) :
    |roundTo β p q - q| ≤ |n * (β : ℚ) ^ lastPlace β p q - q| := by
  have hpos := place_pos hβ (lastPlace β p q)
  have hq : q = q / (β : ℚ) ^ lastPlace β p q * (β : ℚ) ^ lastPlace β p q :=
    (div_mul_cancel₀ q hpos.ne').symm
  have hscale : ∀ m : ℤ, |(m : ℚ) * (β : ℚ) ^ lastPlace β p q - q| =
      |(m : ℚ) - q / (β : ℚ) ^ lastPlace β p q| * (β : ℚ) ^ lastPlace β p q := by
    intro m
    rw [← abs_of_pos hpos, ← abs_mul, abs_of_pos hpos, sub_mul, ← hq]
  rw [roundTo, hscale, hscale]
  exact mul_le_mul_of_nonneg_right (nearestEven_nearest _ n) hpos.le

theorem monotone_roundTo (hp : 1 ≤ p) : Monotone (roundTo β p) := by
  intro q q' h
  rcases le_total 0 q with hq | hq
  · exact roundTo_mono hβ hp hq h
  rcases le_total 0 q' with hq' | hq'
  · exact (roundTo_nonpos hβ hq).trans (roundTo_nonneg hβ hq')
  · have hneg := roundTo_mono hβ hp (neg_nonneg.2 hq') (neg_le_neg h)
    rw [roundTo_neg, roundTo_neg] at hneg
    exact neg_le_neg_iff.1 hneg

/-- No number with at most `p` digits is nearer. -/
theorem roundTo_nearest (hp : 1 ≤ p) (hq : 0 ≤ q) (hv : HasDigits β p v) :
    |roundTo β p q - q| ≤ |v - q| := by
  rcases hq.eq_or_lt with rfl | hq
  · simp
  obtain ⟨m, k, hm, rfl⟩ := hv
  by_cases hplace : lastPlace β p q ≤ k
  · obtain ⟨n, hn⟩ := exists_multiple hβ hplace m
    rw [hn]
    exact roundTo_nearest_multiple hβ n
  · -- the power of the base below `q` is a multiple of the last place and nearer than `v`
    obtain ⟨n, hn⟩ := exists_multiple hβ
      (show lastPlace β p q ≤ lastPlace β p q + p - 1 by omega) 1
    rw [Int.cast_one, one_mul] at hn
    have hlow := (log_bounds hβ (p := p) hq).1
    have hv : (m : ℚ) * (β : ℚ) ^ k ≤ (β : ℚ) ^ (lastPlace β p q + p - 1) :=
      calc (m : ℚ) * (β : ℚ) ^ k ≤ |(m : ℚ) * (β : ℚ) ^ k| := le_abs_self _
        _ ≤ (β : ℚ) ^ (k + p) := (abs_lt_place hβ hm).le
        _ ≤ (β : ℚ) ^ (lastPlace β p q + p - 1) :=
          zpow_le_zpow_right₀ (by exact_mod_cast hβ.le) (by omega)
    calc |roundTo β p q - q| ≤ |(β : ℚ) ^ (lastPlace β p q + p - 1) - q| :=
          hn ▸ roundTo_nearest_multiple hβ n
      _ = q - (β : ℚ) ^ (lastPlace β p q + p - 1) := by
          rw [abs_sub_comm, abs_of_nonneg (by linarith)]
      _ ≤ q - m * (β : ℚ) ^ k := by linarith
      _ ≤ |(m : ℚ) * (β : ℚ) ^ k - q| := by
          rw [abs_sub_comm]
          exact le_abs_self _

end Digits

/-! ## Arithmetic with rounded results -/

/-- A way to round numbers that keeps their order, and the halves of integers that are not too large. -/
structure Rounding where
  round : ℚ → ℚ
  mono : Monotone round
  half : ∀ n : ℤ, |n| ≤ 2 ^ 53 → round (n / 2) = n / 2

namespace Rounding

/-- Nothing is rounded. -/
def exact : Rounding where
  round := id
  mono := monotone_id
  half _ _ := rfl

/-- Half an integer with up to 53 binary digits has no more of them. -/
theorem hasDigits_half {n : ℤ} (hn : |n| ≤ 2 ^ 53) : HasDigits 2 53 ((n : ℚ) / 2) := by
  rcases hn.lt_or_eq with hlt | heq
  · exact ⟨n, -1, by exact_mod_cast hlt, by rw [zpow_neg_one]; rfl⟩
  · rcases (abs_eq (by positivity)).1 heq with rfl | rfl
    · exact ⟨1, 52, by norm_num, by norm_num⟩
    · exact ⟨-1, 52, by norm_num, by norm_num⟩

/-- The results of `double` operations, in so far as they are in its range. -/
def double : Rounding where
  round := roundTo 2 53
  mono := monotone_roundTo one_lt_two (by norm_num)
  half _ hn := roundTo_of_hasDigits one_lt_two (hasDigits_half hn)

variable (fp : Rounding)

/-- A rounded sum. -/
def add (x y : ℚ) : ℚ := fp.round (x + y)

/-- A rounded difference. -/
def sub (x y : ℚ) : ℚ := fp.round (x - y)

/-- A rounded product. -/
def mul (x y : ℚ) : ℚ := fp.round (x * y)

@[simp] theorem add_exact (x y : ℚ) : exact.add x y = x + y := rfl

@[simp] theorem sub_exact (x y : ℚ) : exact.sub x y = x - y := rfl

@[simp] theorem mul_exact (x y : ℚ) : exact.mul x y = x * y := rfl

@[simp] theorem round_exact (x : ℚ) : exact.round x = x := rfl

theorem mul_swap (x y : ℚ) : fp.mul x y = fp.mul y x := congrArg fp.round (mul_comm x y)

@[simp] theorem round_zero : fp.round 0 = 0 := by
  simpa using fp.half 0 (by norm_num)

theorem round_intCast {n : ℤ} (hn : |n| ≤ 2 ^ 52) : fp.round n = n := by
  have hhalf := fp.half (2 * n) (by rw [abs_mul]; norm_num; omega)
  have heq : ((2 * n : ℤ) : ℚ) / 2 = n := by
    push_cast
    ring
  rwa [heq] at hhalf

theorem round_natCast {n : ℕ} (hn : n ≤ 2 ^ 52) : fp.round n = n := by
  have hint := fp.round_intCast (n := n) (by rw [Nat.abs_cast]; exact_mod_cast hn)
  exact_mod_cast hint

theorem round_half : fp.round (1 / 2) = 1 / 2 := by
  simpa using fp.half 1 (by norm_num)

variable {x y : ℚ}

theorem round_nonneg (h : 0 ≤ x) : 0 ≤ fp.round x := by
  simpa using fp.mono h

theorem round_nonpos (h : x ≤ 0) : fp.round x ≤ 0 := by
  simpa using fp.mono h

theorem half_le_round {n : ℤ} (hn : |n| ≤ 2 ^ 53) (h : (n : ℚ) / 2 ≤ x) : (n : ℚ) / 2 ≤ fp.round x := by
  rw [← fp.half n hn]
  exact fp.mono h

theorem round_le_half {n : ℤ} (hn : |n| ≤ 2 ^ 53) (h : x ≤ (n : ℚ) / 2) : fp.round x ≤ (n : ℚ) / 2 := by
  rw [← fp.half n hn]
  exact fp.mono h

theorem intCast_le_round {n : ℤ} (hn : |n| ≤ 2 ^ 52) (h : (n : ℚ) ≤ x) : (n : ℚ) ≤ fp.round x := by
  rw [← fp.round_intCast hn]
  exact fp.mono h

theorem round_le_intCast {n : ℤ} (hn : |n| ≤ 2 ^ 52) (h : x ≤ (n : ℚ)) : fp.round x ≤ n := by
  rw [← fp.round_intCast hn]
  exact fp.mono h

/-- What is at most an integer is rounded to at most that, plus a half. -/
theorem add_half_le {n : ℕ} (hn : n < 2 ^ 52) (h : x ≤ n) : fp.add x (1 / 2) ≤ n + 1 / 2 := by
  have hround := fp.round_le_half (x := x + 1 / 2) (n := 2 * n + 1)
    (by rw [abs_of_nonneg (by omega)]; omega) (by push_cast; linarith)
  refine hround.trans (le_of_eq ?_)
  push_cast
  ring

theorem half_le_add (h : 0 ≤ x) : 1 / 2 ≤ fp.add x (1 / 2) := by
  rw [← fp.round_half]
  exact fp.mono (by rw [fp.round_half]; linarith)

/-! ## Sums -/

variable {fp}

/-- The sums of some of these numbers are not rounded. -/
def ExactSums (fp : Rounding) (xs : List ℚ) : Prop :=
  ∀ part : List ℚ, part.Sublist xs → fp.round part.sum = part.sum

theorem exactSums_exact (xs : List ℚ) : exact.ExactSums xs := fun _ _ => rfl

theorem ExactSums.of_sublist {xs ys : List ℚ} (h : fp.ExactSums ys) (hsub : xs.Sublist ys) :
    fp.ExactSums xs :=
  fun part hpart => h part (hpart.trans hsub)

/-- Such numbers are added up exactly. -/
theorem ExactSums.foldl_add {xs : List ℚ} (h : fp.ExactSums xs) : xs.foldl fp.add 0 = xs.sum := by
  induction xs using List.reverseRecOn with
  | nil => rfl
  | append_singleton xs x ih =>
    have hsum := h (xs ++ [x]) (List.Sublist.refl _)
    rw [List.sum_append, List.sum_singleton] at hsum
    rw [List.foldl_append, ih (h.of_sublist (List.sublist_append_left _ _)), List.sum_append,
      List.sum_singleton, List.foldl_cons, List.foldl_nil, add, hsum]

end Rounding

end Alto.Lib
