import VideoWall.Decimal.Layout

/-! A coordinate on the canvas, kept as the 64 bits of a binary floating-point number.

    A finite coordinate is a whole number of units of 2 ^ -1074, so comparing it with a canvas edge,
    which is a whole number of pixels, is a comparison of integers. A coordinate that is not a
    number compares with nothing. -/

namespace VideoWall

/-- One coordinate, by its bits: sign, 11 bits of exponent, 52 bits of fraction. -/
structure Coordinate where
  bits : UInt64
  deriving DecidableEq, Repr

namespace Coordinate

/-- What the bits stand for; a finite value is counted in units of 2 ^ -1074. -/
inductive Value where | nan | infinite (negative : Bool) | finite (units : Int)
  deriving DecidableEq, Repr

/-- The sign bit. -/
def negative (c : Coordinate) : Bool := c.bits.toNat >>> 63 == 1

/-- The exponent bits; all ones mark what is not finite. -/
def exponent (c : Coordinate) : Nat := c.bits.toNat >>> 52 % 2048

/-- The fraction bits. -/
def fraction (c : Coordinate) : Nat := c.bits.toNat % 1 <<< 52

/-- The distance from zero of a finite coordinate, in units; exponent 0 has no hidden bit. -/
def magnitude (c : Coordinate) : Nat :=
  if c.exponent = 0 then c.fraction else (1 <<< 52 + c.fraction) <<< (c.exponent - 1)

/-- What a coordinate stands for. -/
def value (c : Coordinate) : Value :=
  if c.exponent = 2047 then if c.fraction = 0 then .infinite c.negative else .nan
  else .finite (if c.negative then -(c.magnitude : Int) else c.magnitude)

/-- One pixel, in units. -/
def pixel : Int := (1 <<< 1074 : Nat)

/-- The coordinate is at or left of an edge. -/
def atMost (c : Coordinate) (edge : Int) : Bool :=
  match c.value with
  | .nan => false
  | .infinite neg => neg
  | .finite u => decide (u ≤ edge * pixel)

/-- The coordinate is strictly right of an edge. -/
def above (c : Coordinate) (edge : Int) : Bool :=
  match c.value with
  | .nan => false
  | .infinite neg => !neg
  | .finite u => decide (edge * pixel < u)

/-! ### Text -/

/-- Coordinates from 10 ^ -4 up to 10 ^ 16 are written out, others in exponent notation. -/
def layout : Decimal.Layout := ⟨-4, 15⟩

/-- The numbers nearer to this magnitude than to its neighbours, in quarter units; the ends belong
    to it when its last bit is even. -/
def span (c : Coordinate) : Decimal.Span :=
  let gap := 1 <<< (c.exponent - 1)
  let below := if c.fraction = 0 ∧ 1 < c.exponent then gap else 2 * gap
  { low := 4 * c.magnitude - below
    value := 4 * c.magnitude
    high := 4 * c.magnitude + 2 * gap
    unit := 1 <<< 1076
    closed := c.fraction % 2 == 0 }

/-- The text of a magnitude: the fewest digits that name it, of which there are at most 17. -/
def describeMagnitude (c : Coordinate) : String :=
  if c.magnitude = 0 then "0.0" else
    match c.span.shortest? 17 with
    | some x => layout.text x
    | none => ""

/-- The text of a coordinate; a zero keeps its sign. -/
def describe (c : Coordinate) : String :=
  match c.value with
  | .nan => "NaN"
  | .infinite neg => if neg then "-inf" else "inf"
  | .finite _ => if c.negative then "-" ++ c.describeMagnitude else c.describeMagnitude

/-- An edge further right keeps every coordinate at or left of it. -/
theorem atMost_mono {c : Coordinate} {a b : Int} (hab : a ≤ b) (h : c.atMost a = true) :
    c.atMost b = true := by
  unfold atMost at *
  cases hv : c.value with
  | nan => simp_all
  | infinite neg => simp_all
  | finite u =>
    simp only [hv, decide_eq_true_eq] at h ⊢
    exact Int.le_trans h (Int.mul_le_mul_of_nonneg_right hab (by decide))

end Coordinate

end VideoWall
