import Mathlib.Data.Nat.Fib.Basic
import Mathlib.Order.Monotone.Basic
import Fibers.Backoff

/-!
# Delays between attempts

A delay is computed with operations that stay at the end of the range of words
where they would leave it.  Here it is compared with what it stands for, which is
computed with natural numbers and cut off once at the end: the first delay times
what the growth makes of the number of the attempt.

The two agree as long as the growth itself can tell attempts apart.  The number of
a linear attempt is counted in a 32-bit word, which cannot hold one more than its
largest value, and a power of two is taken as a shift by 63 at most, which is half
of what a word would be cut off at.  So each growth has a horizon, beyond which an
attempt is treated like the last one before it, and this shows only if the product
has not been cut off before.

## Main definitions

* `Growth.factor`, `Backoff.ideal` — what a delay stands for.
* `Growth.horizon` — the last attempt a growth tells apart from those before it.
* `Backoff.FallsShort` — where the horizon shows.
* `Backoff.bounded` — a delay before it is spread.
* `Backoff.Spreads`, `Backoff.Bounds` — what holds of a delay that is spread, and
  of the delays of a policy.

## Main results

* `Backoff.toNat_raw` — a delay is the ideal one of the attempt at the horizon at
  the latest.
* `Backoff.toNat_raw_eq_ideal_iff` — it is the ideal one exactly where it does not
  fall short.
* `Backoff.spreads`, `Backoff.delays_bounded` — how far delays are from what they are
  spread from, and that they grow up to the limit.
-/

namespace Fibers

/-! ### Products that are cut off -/

/-- A product that is cut off may have its second factor cut off at the same place
before. -/
theorem min_mul_min (base factor limit : Nat) :
    min (base * min factor limit) limit = min (base * factor) limit := by
  obtain rfl | hbase := Nat.eq_zero_or_pos base
  · simp
  rcases Nat.le_total factor limit with h | h
  · rw [Nat.min_eq_left h]
  · have hlimit : limit ≤ base * limit := Nat.le_mul_of_pos_left limit hbase
    have hfactor : base * limit ≤ base * factor := Nat.mul_le_mul_left base h
    rw [Nat.min_eq_right h, Nat.min_eq_right hlimit, Nat.min_eq_right (hlimit.trans hfactor)]

/-- A product with a word that is itself cut off. -/
theorem toNat_mulUpTo_of_toNat (base factor : UInt64) (n : Nat)
    (h : factor.toNat = min n (UInt64.size - 1)) :
    (mulUpTo base factor).toNat = min (base.toNat * n) (UInt64.size - 1) := by
  rw [toNat_mulUpTo, h, min_mul_min]

/-- The sequence from two words that are Fibonacci numbers, cut off, goes on with
the Fibonacci numbers, cut off. -/
theorem toNat_fibonacciFrom (n k : Nat) (a b : UInt64)
    (ha : a.toNat = min (Nat.fib k) (UInt64.size - 1))
    (hb : b.toNat = min (Nat.fib (k + 1)) (UInt64.size - 1)) :
    (fibonacciFrom a b n).toNat = min (Nat.fib (k + n)) (UInt64.size - 1) := by
  induction n generalizing k a b with
  | zero => exact ha
  | succ n ih =>
    have hmax : maxWord.toNat = UInt64.size - 1 := by decide
    unfold fibonacciFrom
    split
    · next hstays =>
      -- the sequence has been cut off at `k` already, and it does not fall again
      have hgrows : Nat.fib k ≤ Nat.fib (k + (n + 1)) := Nat.fib_mono (by omega)
      subst hstays
      omega
    · have hsum : (addUpTo a b).toNat = min (Nat.fib (k + 1 + 1)) (UInt64.size - 1) := by
        rw [toNat_addUpTo, ha, hb, Nat.fib_add_two]
        omega
      rw [ih (k + 1) b (addUpTo a b) hb hsum]
      congr 2
      omega

/-! ### What a delay stands for -/

namespace Growth

/-- What the first delay is multiplied with for the attempt of the given number. -/
def factor : Growth → Nat → Nat
  | .constant, _ => 1
  | .linear, n => n + 1
  | .exponential, n => 2 ^ n
  | .fibonacci, n => Nat.fib (n + 1)

/-- The last attempt that a growth tells apart from those before it. -/
def horizon : Growth → Nat
  | .constant | .fibonacci => UInt32.size - 1
  | .linear => UInt32.size - 2
  | .exponential => 63

theorem factor_mono (g : Growth) : Monotone g.factor := by
  intro m n hmn
  cases g with
  | constant => exact Nat.le_refl 1
  | linear => exact Nat.succ_le_succ hmn
  | exponential => exact Nat.pow_le_pow_right (by decide) hmn
  | fibonacci => exact Nat.fib_mono (Nat.succ_le_succ hmn)

end Growth

namespace Backoff

/-- The delay of a policy before the attempt of the given number, as a number that
is cut off once. -/
def ideal (p : Backoff) (n : Nat) : Nat :=
  min (p.base.toNat * p.growth.factor n) (UInt64.size - 1)

theorem ideal_mono (p : Backoff) : Monotone p.ideal := by
  intro m n hmn
  have hproduct : p.base.toNat * p.growth.factor m ≤ p.base.toNat * p.growth.factor n :=
    Nat.mul_le_mul_left _ (p.growth.factor_mono hmn)
  unfold ideal
  omega

/-- A shift of one by less than the length of a word is a power of two. -/
theorem toNat_one_shiftLeft {n : Nat} (h : n ≤ 63) :
    ((1 : UInt64) <<< UInt64.ofNat n).toNat = 2 ^ n := by
  have hlength : n < 64 := Nat.lt_succ_of_le h
  have hword : n < 2 ^ 64 := hlength.trans (by decide)
  have hpower : 2 ^ n < 2 ^ 64 := Nat.pow_lt_pow_right (by decide) hlength
  rw [UInt64.toNat_shiftLeft, UInt64.toNat_ofNat_of_lt' hword, Nat.mod_eq_of_lt hlength]
  show 1 <<< n % 2 ^ 64 = 2 ^ n
  rw [Nat.one_shiftLeft, Nat.mod_eq_of_lt hpower]

/-- A delay is the ideal one, of the attempt at the horizon at the latest. -/
theorem toNat_raw (p : Backoff) (attempt : UInt32) :
    (p.raw attempt).toNat = p.ideal (min attempt.toNat p.growth.horizon) := by
  have hattempt : attempt.toNat < UInt32.size := attempt.toNat_lt
  have hsize : UInt32.size < UInt64.size := by decide
  unfold raw ideal
  cases hgrowth : p.growth with
  | constant =>
    have hbase : p.base.toNat < UInt64.size := p.base.toNat_lt
    simp only [Growth.factor]
    omega
  | linear =>
    have hcount : min (attempt.toNat + 1) (UInt32.size - 1) < UInt64.size := by omega
    refine toNat_mulUpTo_of_toNat _ _ _ ?_
    rw [UInt64.toNat_ofNat_of_lt' hcount]
    simp only [Growth.factor, Growth.horizon, UInt32.size, UInt64.size] at hattempt ⊢
    omega
  | exponential =>
    have hshift : min attempt.toNat 63 ≤ 63 := Nat.min_le_right _ _
    have hpower : 2 ^ min attempt.toNat 63 ≤ 2 ^ 63 := Nat.pow_le_pow_right (by decide) hshift
    have hword : (2 : Nat) ^ 63 ≤ UInt64.size - 1 := by decide
    refine toNat_mulUpTo_of_toNat _ _ _ ?_
    rw [toNat_one_shiftLeft hshift]
    exact (Nat.min_eq_left (hpower.trans hword)).symm
  | fibonacci =>
    have hlast : min attempt.toNat (UInt32.size - 1) = attempt.toNat := by omega
    have hterm := toNat_fibonacciFrom attempt.toNat 1 1 1 (by decide) (by decide)
    refine toNat_mulUpTo_of_toNat _ _ _ ?_
    simp only [Growth.factor, Growth.horizon]
    rw [hterm, hlast, Nat.add_comm]

/-- Where a delay is less than it stands for: the attempt lies beyond the horizon
of the growth, and the first delay is too small for the product to be cut off
before. -/
def FallsShort (p : Backoff) (attempt : UInt32) : Prop :=
  match p.growth with
  | .constant | .fibonacci => False
  | .linear => attempt.toNat = UInt32.size - 1 ∧ 0 < p.base.toNat ∧ p.base.toNat ≤ UInt32.size
  | .exponential => 64 ≤ attempt.toNat ∧ p.base.toNat = 1

/-- A delay is what it stands for exactly where it does not fall short of it. -/
theorem toNat_raw_eq_ideal_iff (p : Backoff) (attempt : UInt32) :
    (p.raw attempt).toNat = p.ideal attempt.toNat ↔ ¬ p.FallsShort attempt := by
  have hattempt : attempt.toNat ≤ UInt32.size - 1 := Nat.le_sub_one_of_lt attempt.toNat_lt
  rw [toNat_raw]
  unfold ideal FallsShort
  cases hgrowth : p.growth with
  | constant => simp [Growth.factor]
  | fibonacci => simp only [Growth.horizon, Nat.min_eq_left hattempt, not_false_iff]
  | linear =>
    simp only [Growth.factor, Growth.horizon]
    by_cases hlast : attempt.toNat = UInt32.size - 1
    · have hhorizon : min (UInt32.size - 1) (UInt32.size - 2) + 1 = UInt32.size - 1 := by decide
      rw [hlast, hhorizon]
      simp only [UInt32.size, UInt64.size, true_and]
      omega
    · have hbefore : attempt.toNat ≤ UInt32.size - 2 := by omega
      simp only [Nat.min_eq_left hbefore, hlast, false_and, not_false_iff]
  | exponential =>
    simp only [Growth.factor, Growth.horizon]
    by_cases hfar : 64 ≤ attempt.toNat
    · have hpower : (2 : Nat) ^ 64 ≤ 2 ^ attempt.toNat := Nat.pow_le_pow_right (by decide) hfar
      have hproduct : p.base.toNat * 2 ^ 64 ≤ p.base.toNat * 2 ^ attempt.toNat :=
        Nat.mul_le_mul_left _ hpower
      have hnone : p.base.toNat = 0 → p.base.toNat * 2 ^ attempt.toNat = 0 := fun h => by
        rw [h, Nat.zero_mul]
      rw [Nat.min_eq_right (Nat.le_of_succ_le hfar)]
      simp only [UInt64.size, hfar, true_and]
      omega
    · have hbefore : attempt.toNat ≤ 63 := by omega
      simp only [Nat.min_eq_left hbefore, hfar, false_and, not_false_iff]

/-- A delay of one millisecond that doubles is 2⁶³ milliseconds before attempt 64,
for which a word has room, but not for the 2⁶⁴ it stands for. -/
theorem not_every_raw_eq_ideal :
    ¬ ∀ (p : Backoff) (attempt : UInt32), (p.raw attempt).toNat = p.ideal attempt.toNat := by
  intro h
  have hraw : (raw { base := 1, growth := .exponential } 64).toNat = 2 ^ 63 := by decide
  have hideal : ideal { base := 1, growth := .exponential } 64 = 2 ^ 64 - 1 := by decide
  have hsame := h { base := 1, growth := .exponential } 64
  rw [hraw] at hsame
  exact absurd (hsame.trans hideal) (by decide)

/-! ### Delays that are spread -/

/-- How far a delay is moved up before it is moved down by a quarter. -/
def offset (delay seed : UInt64) : UInt64 :=
  (seed * 6364136223846793005 + 1442695040888963407) % addUpTo (mulUpTo (delay / 4) 2) 1

/-- What holds of a delay that is spread with a seed: the steps of the computation
stay in the range of words, but for the sum, which is cut off, and what comes out
is within a quarter of the delay. -/
structure Spreads (delay seed : UInt64) : Prop where
  /-- The divisor is exact, and so not zero. -/
  divisor : (addUpTo (mulUpTo (delay / 4) 2) 1).toNat = 2 * (delay.toNat / 4) + 1
  /-- The delay is moved up by half of it at most. -/
  offset_le : (offset delay seed).toNat ≤ 2 * (delay.toNat / 4)
  /-- The quarter can be taken from what it is moved up to. -/
  quarter_le : delay.toNat / 4 ≤ min (delay.toNat + (offset delay seed).toNat) (UInt64.size - 1)
  /-- What comes out, as a number. -/
  toNat_spread : (spread delay seed).toNat =
    min (delay.toNat + (offset delay seed).toNat) (UInt64.size - 1) - delay.toNat / 4
  /-- It is not more than a quarter below the delay. -/
  lower : delay.toNat - delay.toNat / 4 ≤ (spread delay seed).toNat
  /-- It is not more than a quarter above the delay. -/
  upper : (spread delay seed).toNat ≤ delay.toNat + delay.toNat / 4

theorem toNat_divisor (delay : UInt64) :
    (addUpTo (mulUpTo (delay / 4) 2) 1).toNat = 2 * (delay.toNat / 4) + 1 := by
  have hdelay : delay.toNat < UInt64.size := delay.toNat_lt
  have htwo : (2 : UInt64).toNat = 2 := by decide
  have hone : (1 : UInt64).toNat = 1 := by decide
  have hfour : (4 : UInt64).toNat = 4 := by decide
  rw [toNat_addUpTo, toNat_mulUpTo, UInt64.toNat_div, htwo, hone, hfour]
  simp only [UInt64.size] at hdelay ⊢
  omega

theorem toNat_offset_le (delay seed : UInt64) :
    (offset delay seed).toNat ≤ 2 * (delay.toNat / 4) := by
  unfold offset
  rw [UInt64.toNat_mod, toNat_divisor]
  exact Nat.le_of_lt_succ (Nat.mod_lt _ (Nat.succ_pos _))

/-- What is spread as a number.  A delay without a whole quarter is not moved, as
its offset is zero. -/
theorem toNat_spread (delay seed : UInt64) :
    (spread delay seed).toNat =
      min (delay.toNat + (offset delay seed).toNat) (UInt64.size - 1) - delay.toNat / 4 := by
  have hdelay : delay.toNat < UInt64.size := delay.toNat_lt
  have hoffset := toNat_offset_le delay seed
  have hquarter : (delay / 4).toNat = delay.toNat / 4 := UInt64.toNat_div delay 4
  by_cases hnone : delay / 4 = 0
  · have hzero : delay.toNat / 4 = 0 := by
      rw [← hquarter, hnone]
      rfl
    have hstays : spread delay seed = delay := if_pos hnone
    rw [hstays]
    omega
  · have hmoves : spread delay seed = subDownTo (addUpTo delay (offset delay seed)) (delay / 4) :=
      if_neg hnone
    rw [hmoves, toNat_subDownTo, toNat_addUpTo, hquarter]

/-- A delay is spread by a quarter of it at most. -/
theorem spreads (delay seed : UInt64) : Spreads delay seed := by
  have hdelay : delay.toNat < UInt64.size := delay.toNat_lt
  have hoffset := toNat_offset_le delay seed
  have hspread := toNat_spread delay seed
  have hquarter : delay.toNat / 4 ≤ delay.toNat := Nat.div_le_self _ _
  refine ⟨toNat_divisor delay, hoffset, ?_, hspread, ?_, ?_⟩
  · show delay.toNat / 4 ≤ min (delay.toNat + (offset delay seed).toNat) (UInt64.size - 1)
    omega
  · rw [hspread]
    omega
  · rw [hspread]
    omega

/-! ### The delays of a policy -/

/-- The delay before an attempt, not yet spread. -/
def bounded (p : Backoff) (attempt : UInt32) : UInt64 := min (p.raw attempt) p.limit

/-- Delays do not get shorter before they are spread. -/
theorem bounded_mono (p : Backoff) {m n : UInt32} (hmn : m ≤ n) :
    p.bounded m ≤ p.bounded n := by
  have hattempts : m.toNat ≤ n.toNat := UInt32.le_iff_toNat_le.1 hmn
  have hraw : (p.raw m).toNat ≤ (p.raw n).toNat := by
    rw [toNat_raw, toNat_raw]
    exact p.ideal_mono (min_le_min_right p.growth.horizon hattempts)
  unfold bounded
  rw [UInt64.le_iff_toNat_le, UInt64.toNat_min, UInt64.toNat_min]
  exact min_le_min_right p.limit.toNat hraw

/-- What holds of the delays of a policy. -/
structure Bounds (p : Backoff) : Prop where
  /-- There is none exactly when no attempts are left. -/
  none_iff : ∀ attempt, p.delay? attempt = none ↔ p.maxRetries ≤ attempt
  /-- Before they are spread they do not get shorter. -/
  mono : ∀ m n, m ≤ n → p.bounded m ≤ p.bounded n
  /-- They are not spread unless the policy says so. -/
  plain : ∀ attempt < p.maxRetries, p.jitter = false →
    p.delay? attempt = some (p.bounded attempt)
  /-- They are spread by a quarter at most if it does. -/
  spread : ∀ attempt < p.maxRetries, p.jitter = true → ∃ delay, p.delay? attempt = some delay ∧
    (p.bounded attempt).toNat - (p.bounded attempt).toNat / 4 ≤ delay.toNat ∧
    delay.toNat ≤ (p.bounded attempt).toNat + (p.bounded attempt).toNat / 4
  /-- Whatever is spread is spread by a quarter at most. -/
  spreads : ∀ delay seed, Spreads delay seed

/-- The delay before an attempt, by whether attempts are left. -/
theorem delay?_of_lt {p : Backoff} {attempt : UInt32} (h : attempt < p.maxRetries) :
    p.delay? attempt = some (if p.jitter then Backoff.spread (p.bounded attempt) attempt.toUInt64
      else p.bounded attempt) :=
  if_neg (UInt32.not_le.2 h)

theorem delay?_eq_none_iff (p : Backoff) (attempt : UInt32) :
    p.delay? attempt = none ↔ p.maxRetries ≤ attempt := by
  refine ⟨fun h => ?_, fun h => if_pos h⟩
  by_contra hleft
  have hsome := delay?_of_lt (UInt32.not_le.1 hleft)
  rw [h] at hsome
  cases hsome

/-- The delays of a policy, before and after they are spread. -/
theorem delays_bounded (p : Backoff) : p.Bounds where
  none_iff := p.delay?_eq_none_iff
  mono _ _ := p.bounded_mono
  plain attempt hleft hplain := by
    rw [delay?_of_lt hleft]
    simp only [hplain, Bool.false_eq_true, if_false]
  spread attempt hleft hjitter := by
    have hspread := spreads (p.bounded attempt) attempt.toUInt64
    refine ⟨_, ?_, hspread.lower, hspread.upper⟩
    rw [delay?_of_lt hleft, if_pos hjitter]
  spreads := spreads

end Backoff

end Fibers
