/-! The shortest decimal that still names one particular number.

    A number known only up to an interval of neighbours is written with as few digits as possible:
    for one digit, then two, and so on, the two points of that decimal grid around the number are
    tried, and the first grid with a point in the interval wins. Of two such points the nearer one
    is taken, and the upper one when both are equally near. -/

namespace VideoWall.Decimal

/-- A positive number `value / unit` with the interval of numbers that it stands for. -/
structure Span where
  low : Nat
  value : Nat
  high : Nat
  unit : Nat
  closed : Bool
  deriving DecidableEq, Repr

/-- A decimal: `digits` times ten to the `exponent`. -/
structure Scientific where
  digits : Nat
  exponent : Int
  deriving DecidableEq, Repr

/-- How often `value` has to be multiplied by ten to reach `unit`, in at most `fuel` steps. -/
def liftSteps : Nat → Nat → Nat → Nat
  | 0, _, _ => 0
  | fuel + 1, value, unit => if unit ≤ value then 0 else liftSteps fuel (value * 10) unit + 1

/-- The power of ten of the first digit of `value / unit`. -/
def leading (value unit : Nat) : Int :=
  if unit ≤ value then ((Nat.toDigits 10 (value / unit)).length : Int) - 1
  else -(liftSteps unit value unit : Int)

/-- The points of the grid `10 ^ g` are the multiples of `step.1 / step.2`. -/
def gridStep (g : Int) : Nat × Nat :=
  if 0 ≤ g then (Nat.pow 10 g.toNat, 1) else (1, Nat.pow 10 (-g).toNat)

/-- Whether `n` steps of the grid `10 ^ g` lie in the interval. -/
def Span.holds (s : Span) (g : Int) (n : Nat) : Bool :=
  let (a, b) := gridStep g
  let x := n * a * s.unit
  if s.closed then decide (s.low * b ≤ x ∧ x ≤ s.high * b)
  else decide (s.low * b < x ∧ x < s.high * b)

/-- The better of the two points of the grid `10 ^ g` around the number, if one of them is in the
    interval. -/
def Span.nearest? (s : Span) (g : Int) : Option Nat :=
  let (a, b) := gridStep g
  let down := s.value * b / (a * s.unit)
  let up := down + 1
  match s.holds g down && down != 0, s.holds g up with
  | true, true =>
    if s.value * b - down * a * s.unit < up * a * s.unit - s.value * b then some down else some up
  | true, false => some down
  | false, true => some up
  | false, false => none

/-- The shortest decimal in the interval, among decimals of at most `most` digits. -/
def Span.shortest? (s : Span) (most : Nat) : Option Scientific :=
  let top := leading s.value s.unit
  (List.range most).findSome? fun (k : Nat) => (s.nearest? (top - k)).map fun n => ⟨n, top - k⟩

end VideoWall.Decimal
