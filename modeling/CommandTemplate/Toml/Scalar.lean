import CommandTemplate.Toml.Text
import CommandTemplate.Toml.Value

namespace CommandTemplate

namespace Toml

open Reader

/-- Digits, between which single underscores may stand. -/
def digitsFrom (p : Char → Bool) : Reader (List Char) := do
  let d ← satisfy p
  let ds ← many (do
    let _ ← Reader.optional (exactly "_")
    satisfy p)
  pure (d :: ds)

/-- A sign, if there is one. -/
def sign : Reader Bool :=
  (do exactly "-"; pure true) <|> (do exactly "+"; pure false) <|> pure false

/-- Decimal digits without leading zeros. -/
def wholeDigits : Reader (List Char) := do
  match ← peek with
  | some '0' => do
    let c ← satisfy Char.isDigit
    pure [c]
  | _ => digitsFrom Char.isDigit

/-- Integers have 64 bits. -/
def fits (n : Int) : Bool :=
  -9223372036854775808 ≤ n && n < 9223372036854775808

def integerOf (n : Int) : Reader Value :=
  if fits n then pure (.integer n) else failure

/-- An integer in another base, behind the mark of the base. -/
def basedInteger (mark : String) (base : Nat) (p : Char → Bool) : Reader Value := do
  exactly mark
  let ds ← digitsFrom p
  integerOf (Int.ofNat (ds.foldl (fun n c => n * base + hexValue c) 0))

def decimalInteger : Reader Value := do
  let negative ← sign
  let ds ← wholeDigits
  let n := Int.ofNat (decimalValue ds)
  integerOf (if negative then -n else n)

def integer : Reader Value :=
  basedInteger "0x" 16 isHexDigit
  <|> basedInteger "0o" 8 (fun c => '0' ≤ c && c ≤ '7')
  <|> basedInteger "0b" 2 (fun c => c == '0' || c == '1')
  <|> decimalInteger

/-- The digits behind a point. -/
def fraction : Reader (List Char) := do
  exactly "."
  digitsFrom Char.isDigit

/-- An exponent of ten. -/
def exponent : Reader Int := do
  exactly "e" <|> exactly "E"
  let negative ← sign
  let ds ← digitsFrom Char.isDigit
  let n := Int.ofNat (decimalValue ds)
  pure (if negative then -n else n)

/-- A number with a fraction, an exponent or both. It may not be too large. -/
def decimalFloat : Reader Value := do
  let negative ← sign
  let whole ← wholeDigits
  let part ← Reader.optional fraction
  let e ← match part with
    | some _ => do
      let e ← Reader.optional exponent
      pure (e.getD 0)
    | none => exponent
  let places := part.getD []
  let ds := whole ++ places
  match Double.ofDecimal negative (decimalValue ds) ds.length (e - places.length) with
  | .infinite false => failure
  | x => pure (.float x)

/-- An infinity, or not a number. -/
def specialFloat : Reader Value := do
  let negative ← sign
  (do exactly "inf"; pure (.float (.infinite negative)))
  <|> (do exactly "nan"; pure (.float .nan))

/-- A number of `digits` digits between `low` and `high`. -/
def numberIn (digits low high : Nat) : Reader Nat := do
  let ds ← Reader.count Char.isDigit digits
  let n := decimalValue ds
  if low ≤ n && n ≤ high then pure n else failure

def isLeapYear (year : Nat) : Bool :=
  year % 4 == 0 && (year % 100 != 0 || year % 400 == 0)

def daysIn (year month : Nat) : Nat :=
  if month == 2 then (if isLeapYear year then 29 else 28)
  else if month == 4 || month == 6 || month == 9 || month == 11 then 30
  else 31

def date : Reader Unit := do
  let year ← numberIn 4 0 9999
  exactly "-"
  let month ← numberIn 2 1 12
  exactly "-"
  let _ ← numberIn 2 1 (daysIn year month)

/-- A time of day. A minute may have a leap second. -/
def time : Reader Unit := do
  let _ ← numberIn 2 0 23
  exactly ":"
  let _ ← numberIn 2 0 59
  exactly ":"
  let _ ← numberIn 2 0 60
  let _ ← Reader.optional (do
    exactly "."
    let _ ← satisfy Char.isDigit
    run Char.isDigit)

/-- The distance from universal time. -/
def zone : Reader Unit :=
  exactly "Z" <|> exactly "z" <|> (do
    exactly "+" <|> exactly "-"
    let _ ← numberIn 2 0 23
    exactly ":"
    let _ ← numberIn 2 0 59)

def moment : Reader Value :=
  (do
    date
    let _ ← Reader.optional (do
      exactly "T" <|> exactly "t" <|> exactly " "
      time
      let _ ← Reader.optional zone)
    pure .moment)
  <|> (do time; pure .moment)

def boolean : Reader Value :=
  (do exactly "true"; pure (.boolean true)) <|> (do exactly "false"; pure (.boolean false))

/-- A value that holds no others. -/
def scalar : Reader Value :=
  (do
    let s ← string
    pure (.string s))
  <|> boolean <|> moment <|> decimalFloat <|> specialFloat <|> integer

end Toml

end CommandTemplate
