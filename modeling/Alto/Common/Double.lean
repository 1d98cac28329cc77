import Mathlib

/-!
# Doubles

A `double` as the number it denotes. Sums round; `rnd` is the rounding of an exact sum and is a
parameter wherever the code adds.
-/

namespace Alto

/-- A `double`: not a number, an infinity, or a finite value. -/
inductive Double where
  | nan
  | inf (negative : Bool)
  | fin (q : ℚ)
  deriving DecidableEq

namespace Double

/-- `std::numeric_limits<double>::infinity()`. -/
def infinity : Double := inf false

instance (n : Nat) : OfNat Double n := ⟨fin n⟩

/-- The sum of two doubles, rounded. -/
def add (rnd : ℚ → Double) : Double → Double → Double
  | nan, _ => nan
  | _, nan => nan
  | inf s, inf t => if s = t then inf s else nan
  | inf s, fin _ => inf s
  | fin _, inf t => inf t
  | fin p, fin q => rnd (p + q)

/-- `std::numeric_limits<double>::max()`. -/
def max : Double := fin ((2 ^ 53 - 1) * 2 ^ 971)

/-- `x < y`; false for a NaN. -/
def lt : Double → Double → Bool
  | nan, _ => false
  | _, nan => false
  | inf s, inf t => s && !t
  | inf s, fin _ => s
  | fin _, inf t => !t
  | fin p, fin q => decide (p < q)

/-- `x <= y`; false for a NaN. -/
def le : Double → Double → Bool
  | nan, _ => false
  | _, nan => false
  | inf s, inf t => s || !t
  | inf s, fin _ => s
  | fin _, inf t => !t
  | fin p, fin q => decide (p ≤ q)

/-- `x == y`; false for a NaN. -/
def eq : Double → Double → Bool
  | nan, _ => false
  | x, y => decide (x = y)

/-- The negated double. -/
def neg : Double → Double
  | nan => nan
  | inf s => inf !s
  | fin q => fin (-q)

/-- The difference of two doubles, rounded. -/
def sub (rnd : ℚ → Double) (x y : Double) : Double := x.add rnd y.neg

/-- The product of two doubles, rounded. -/
def mul (rnd : ℚ → Double) : Double → Double → Double
  | nan, _ => nan
  | _, nan => nan
  | inf s, inf t => inf (s != t)
  | inf s, fin q => if q = 0 then nan else inf (s != decide (q < 0))
  | fin p, inf t => if p = 0 then nan else inf (t != decide (p < 0))
  | fin p, fin q => rnd (p * q)

/-- The quotient of two doubles, rounded. A zero has no sign here. -/
def div (rnd : ℚ → Double) : Double → Double → Double
  | nan, _ => nan
  | _, nan => nan
  | inf _, inf _ => nan
  | inf s, fin q => inf (s != decide (q < 0))
  | fin _, inf _ => fin 0
  | fin p, fin q => if q = 0 then if p = 0 then nan else inf (decide (p < 0)) else rnd (p / q)

/-- The conversion to `unsigned int`, which drops the fraction; it is undefined if the rest does not
fit. -/
def toUInt32 : Double → Option Nat
  | fin q => if -1 < q ∧ q < 2 ^ 32 then some q.floor.toNat else none
  | _ => none

/-- `x < 0`; false for a NaN. -/
def isNeg : Double → Bool
  | nan => false
  | inf s => s
  | fin q => decide (q < 0)

end Double

end Alto
