namespace CommandTemplate

/-- A double-precision number: `mantissa * 2 ^ exponent` with a sign, an infinity, or none. -/
inductive Double
  | finite (negative : Bool) (mantissa : Nat) (exponent : Int)
  | infinite (negative : Bool)
  | nan
deriving DecidableEq

namespace Double

/-- The smallest exponent of a double. -/
def minExponent : Int := -1074

/-- The largest exponent of a double. -/
def maxExponent : Int := 971

/-- Mantissas go from here to twice as much, those of the smallest doubles apart. -/
def leastMantissa : Nat := Nat.pow 2 52

/-- `num / den` rounded to a whole number. A half goes to the even neighbour. -/
def roundDiv (num den : Nat) : Nat :=
  let q := num / den
  let r := num % den
  if den < 2 * r || (den == 2 * r && q % 2 == 1) then q + 1 else q

/-- `num / den` divided by `2 ^ e`, as a quotient. -/
def scale (num den : Nat) (e : Int) : Nat × Nat :=
  match e with
  | .ofNat k => (num, den * Nat.pow 2 k)
  | .negSucc k => (num * Nat.pow 2 (k + 1), den)

/-- The double nearest to `num / den`, for positive `num` and `den`. -/
def ofQuotient (negative : Bool) (num den : Nat) : Double :=
  let size : Int := (num.log2 : Int) - (den.log2 : Int)
  let high := scale num den (size - 52)
  let e := if high.1 / high.2 < leastMantissa then size - 53 else size - 52
  let e := max e minExponent
  let scaled := scale num den e
  let m := roundDiv scaled.1 scaled.2
  let carry := m == 2 * leastMantissa
  let m := if carry then leastMantissa else m
  let e := if carry then e + 1 else e
  if maxExponent < e then .infinite negative else .finite negative m e

/-- The double nearest to `digits * 10 ^ e`, where `digits` has `count` decimal digits. Far
exponents are decided without computing the power. -/
def ofDecimal (negative : Bool) (digits count : Nat) (e : Int) : Double :=
  if digits = 0 || (count : Int) + e < -400 then .finite negative 0 minExponent
  else if 400 < e then .infinite negative
  else match e with
    | .ofNat k => ofQuotient negative (digits * Nat.pow 10 k) 1
    | .negSucc k => ofQuotient negative digits (Nat.pow 10 (k + 1))

end Double

end CommandTemplate
