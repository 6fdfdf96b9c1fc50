import CommandTemplate.Decimal.Rounding
import CommandTemplate.Text.Decimal

namespace CommandTemplate

namespace Double

/-- Whether the decimal `digits * 10 ^ e` reads back as the double `m * 2 ^ q`: it lies between
the halfway points to the neighbours, which count if `m` is even. -/
def readsBack (m : Nat) (q : Int) (digits : Nat) (e : Int) : Bool :=
  let below := if m == leastMantissa && minExponent < q then 1 else 2
  -- Everything is measured in quarters of a unit in the last place.
  let unit := q - 2
  let two := Nat.pow 2 unit.toNat
  let twoDen := Nat.pow 2 (-unit).toNat
  let ten := Nat.pow 10 e.toNat
  let tenDen := Nat.pow 10 (-e).toNat
  let x := digits * ten * twoDen
  let low := (4 * m - below) * two * tenDen
  let high := (4 * m + 2) * two * tenDen
  if m % 2 == 0 then low ≤ x && x ≤ high else low < x && x < high

/-- The whole part of `m * 2 ^ q / 10 ^ e`, and whether the rest is a half or more. -/
def cut (m : Nat) (q e : Int) : Nat × Bool :=
  let num := m * Nat.pow 2 q.toNat * Nat.pow 10 (-e).toNat
  let den := Nat.pow 2 (-q).toNat * Nat.pow 10 e.toNat
  (num / den, den ≤ 2 * (num % den))

/-- The exponent `e` with `10 ^ e ≤ m * 2 ^ q < 10 ^ (e + 1)`, for positive `m`. -/
def magnitude (m : Nat) (q : Int) : Int :=
  let num := m * Nat.pow 2 q.toNat
  let den := Nat.pow 2 (-q).toNat
  if den ≤ num then ((decimal (num / den)).length : Int) - 1
  else -((decimal ((den - 1) / num)).length : Int)

/-- The fewest digits that read back as `m * 2 ^ q`, starting with `count` digits, and their
exponent. Seventeen digits are always enough. -/
def shortestFrom (m : Nat) (q : Int) : Nat → Nat → Nat × Int
  | 0, count => ((cut m q (magnitude m q + 1 - count)).1, magnitude m q + 1 - count)
  | tries + 1, count =>
    let e := magnitude m q + 1 - (count : Int)
    let (low, upper) := cut m q e
    let near := if upper then low + 1 else low
    let far := if upper then low else low + 1
    if readsBack m q near e then (near, e)
    else if readsBack m q far e then (far, e)
    else shortestFrom m q tries (count + 1)

/-- The same decimal without zeros at the end of its digits, of which `tries` at most are
dropped. -/
def dropZeros : Nat → Nat × Int → Nat × Int
  | 0, d => d
  | tries + 1, d => if d.1 % 10 == 0 then dropZeros tries (d.1 / 10, d.2 + 1) else d

/-- Writes `digits * 10 ^ e` with a point and no exponent, and at least one digit on each side. -/
def positional (digits : Nat) (e : Int) : List Char :=
  let ds := decimal digits
  match e with
  | .ofNat k => ds ++ List.replicate k '0' ++ ['.', '0']
  | .negSucc k =>
    let places := k + 1
    if places < ds.length then
      ds.take (ds.length - places) ++ ['.'] ++ ds.drop (ds.length - places)
    else ['0', '.'] ++ List.replicate (places - ds.length) '0' ++ ds

/-- The shortest decimal that reads back as the same number. -/
def shortest : Double → String
  | .nan => "NaN"
  | .infinite negative => if negative then "-inf" else "inf"
  | .finite negative m q =>
    let digits := if m = 0 then ['0', '.', '0'] else
      let (d, e) := dropZeros 17 (shortestFrom m q 17 1)
      positional d e
    String.ofList (if negative then '-' :: digits else digits)

end Double

end CommandTemplate
