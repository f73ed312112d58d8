/-!
# Backoff

How long to wait before a failed attempt is made again.  A policy says how often
to try, which delay to start from, how the delay grows, where it stops growing
and whether it is spread.  Delays are whole milliseconds in 64-bit words, and
every operation that could leave that range stays at its end instead.

## Main definitions

* `Growth` — how a delay grows from attempt to attempt.
* `Backoff` — a policy, with `Backoff.constant` and `Backoff.exponential`.
* `Backoff.raw` — the delay before it is bounded and spread.
* `Backoff.spread` — a delay moved by up to a quarter either way.
* `Backoff.delay?` — the delay before an attempt, while attempts are left.

## Main results

* `toNat_addUpTo`, `toNat_mulUpTo`, `toNat_subDownTo` — the operations on words are
  those on numbers, cut off at the ends of the range.
-/

namespace Fibers

/-- The largest 64-bit word. -/
def maxWord : UInt64 := 0xffffffffffffffff

/-- The sum, or the largest word if the sum is larger. -/
def addUpTo (a b : UInt64) : UInt64 :=
  if a.toNat + b.toNat < UInt64.size then a + b else maxWord

/-- The product, or the largest word if the product is larger. -/
def mulUpTo (a b : UInt64) : UInt64 :=
  if a.toNat * b.toNat < UInt64.size then a * b else maxWord

/-- The difference, or zero if it would be negative. -/
def subDownTo (a b : UInt64) : UInt64 := if b ≤ a then a - b else 0

theorem toNat_addUpTo (a b : UInt64) :
    (addUpTo a b).toNat = min (a.toNat + b.toNat) (UInt64.size - 1) := by
  unfold addUpTo
  split
  · next h =>
    rw [UInt64.toNat_add, Nat.mod_eq_of_lt h]
    omega
  · next h =>
    have : maxWord.toNat = UInt64.size - 1 := by decide
    omega

theorem toNat_mulUpTo (a b : UInt64) :
    (mulUpTo a b).toNat = min (a.toNat * b.toNat) (UInt64.size - 1) := by
  unfold mulUpTo
  split
  · next h =>
    rw [UInt64.toNat_mul, Nat.mod_eq_of_lt h]
    omega
  · next h =>
    have : maxWord.toNat = UInt64.size - 1 := by decide
    omega

theorem toNat_subDownTo (a b : UInt64) : (subDownTo a b).toNat = a.toNat - b.toNat := by
  unfold subDownTo
  split
  · next h => exact UInt64.toNat_sub_of_le _ _ h
  · next h =>
    have hlt := UInt64.not_le.1 h
    rw [UInt64.lt_iff_toNat_lt] at hlt
    simp
    omega

/-- How a delay grows from attempt to attempt. -/
inductive Growth where
  /-- It stays. -/
  | constant
  /-- By the first delay each time. -/
  | linear
  /-- By its double each time. -/
  | exponential
  /-- By the Fibonacci numbers. -/
  | fibonacci
  deriving DecidableEq, Repr, Inhabited

/-- The name of a growth when its structure is shown. -/
def Growth.name : Growth → String
  | .constant => "Constant"
  | .linear => "Linear"
  | .exponential => "Exponential"
  | .fibonacci => "Fibonacci"

/-- How often and how patiently to try again. -/
structure Backoff where
  /-- How many attempts may follow the first one. -/
  maxRetries : UInt32 := 3
  /-- The first delay. -/
  base : UInt64 := 100
  /-- What a delay does not exceed before it is spread. -/
  limit : UInt64 := 10000
  /-- How delays grow. -/
  growth : Growth := .exponential
  /-- Whether delays are spread. -/
  jitter : Bool := true
  deriving DecidableEq, Repr, Inhabited

/-- A length of time in whole milliseconds, as far as a word can hold it. -/
def millis (seconds nanos : Nat) : UInt64 :=
  UInt64.ofNat (min ((seconds * 1000000000 + nanos) / 1000000) (UInt64.size - 1))

/-- The `n`-th number of the sequence that starts with `a` and `b` and goes on
with the sum of the last two.  The sequence stays at the largest word once it has
reached it. -/
def fibonacciFrom (a b : UInt64) : Nat → UInt64
  | 0 => a
  | n + 1 => if a = maxWord then maxWord else fibonacciFrom b (addUpTo a b) n

namespace Backoff

/-- The same delay each time. -/
def constant (maxRetries : UInt32) (delay : UInt64) : Backoff :=
  { maxRetries, base := delay, limit := delay, growth := .constant, jitter := false }

/-- Twice the delay each time. -/
def exponential (maxRetries : UInt32) (base : UInt64) : Backoff := { maxRetries, base }

/-- The delay before the given attempt, counted from zero, not yet bounded and
spread. -/
def raw (p : Backoff) (attempt : UInt32) : UInt64 :=
  match p.growth with
  | .constant => p.base
  | .linear => mulUpTo p.base (UInt64.ofNat (min (attempt.toNat + 1) (UInt32.size - 1)))
  | .exponential => mulUpTo p.base ((1 : UInt64) <<< UInt64.ofNat (min attempt.toNat 63))
  | .fibonacci => mulUpTo p.base (fibonacciFrom 1 1 attempt.toNat)

/-- Moves a delay by up to a quarter of it either way, always alike for the same
seed. -/
def spread (delay seed : UInt64) : UInt64 :=
  let quarter := delay / 4
  if quarter = 0 then delay
  else
    let hash := seed * 6364136223846793005 + 1442695040888963407
    let offset := hash % addUpTo (mulUpTo quarter 2) 1
    subDownTo (addUpTo delay offset) quarter

/-- The delay before the given attempt, while attempts are left. -/
def delay? (p : Backoff) (attempt : UInt32) : Option UInt64 :=
  if p.maxRetries ≤ attempt then none
  else
    let bounded := min (p.raw attempt) p.limit
    some (if p.jitter then spread bounded attempt.toUInt64 else bounded)

end Backoff

end Fibers
