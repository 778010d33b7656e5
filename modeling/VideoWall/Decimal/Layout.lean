import VideoWall.Decimal.Shortest

/-! The text of a decimal: its digits laid out around a point, or in exponent notation when the
    number is very large or very small. -/

namespace VideoWall.Decimal

/-- Which powers of ten of the first digit are written out positionally: from `least` to `most`. -/
structure Layout where
  least : Int
  most : Int
  deriving DecidableEq, Repr

/-- The digits without the zeros at their end; the first digit always stays. -/
def trimZeros (ds : List Char) : List Char :=
  match ds with
  | [] => []
  | d :: rest => d :: (rest.reverse.dropWhile (· == '0')).reverse

/-- Positional text always has a digit on each side of the point. -/
def positional (ds : List Char) (p : Int) : List Char :=
  if p < 0 then '0' :: '.' :: (List.replicate ((-p).toNat - 1) '0' ++ ds)
  else
    let whole := p.toNat + 1
    if ds.length ≤ whole then ds ++ List.replicate (whole - ds.length) '0' ++ ['.', '0']
    else ds.take whole ++ '.' :: ds.drop whole

/-- Exponent notation has one digit before the point, and no point when nothing follows it. -/
def exponential (ds : List Char) (p : Int) : List Char :=
  let mantissa := match ds with
    | d :: e :: rest => d :: '.' :: e :: rest
    | _ => ds
  mantissa ++ 'e' :: (toString p).toList

/-- The text of a positive decimal. -/
def Layout.text (l : Layout) (x : Scientific) : String :=
  let all := Nat.toDigits 10 x.digits
  let p := x.exponent + (all.length : Int) - 1
  let ds := trimZeros all
  String.ofList (if l.least ≤ p ∧ p ≤ l.most then positional ds p else exponential ds p)

end VideoWall.Decimal
