/-!
Numerals: hexadecimal digits, and decimal integers that have to fit in a fixed number of bits.
-/
namespace ShExCompact.Numeral

/-- The hexadecimal digits of both cases. -/
def isHex (c : Char) : Bool :=
  c.isDigit || ('a' ≤ c && c ≤ 'f') || ('A' ≤ c && c ≤ 'F')

/-- The value of a hexadecimal digit. -/
def hexDigit (c : Char) : Nat :=
  if c.isDigit then c.toNat - '0'.toNat
  else if 'a' ≤ c then c.toNat - 'a'.toNat + 10
  else c.toNat - 'A'.toNat + 10

/-- The value of hexadecimal digits, most significant first. -/
def hexValue (digits : List Char) : Nat :=
  digits.foldl (fun value c => 16 * value + hexDigit c) 0

/-- The value of the first `count` characters, if there are so many and all are digits. -/
def hex? (count : Nat) (text : List Char) : Option Nat :=
  let digits := text.take count
  if digits.length = count ∧ digits.all isHex then some (hexValue digits) else none

/-- A number in hexadecimal, without leading zeros. -/
def hexText (value : Nat) : String := String.ofList (Nat.toDigits 16 value)

/-- An optional plus sign and one or more decimal digits. -/
def natural? (text : List Char) : Option Nat :=
  let digits := match text with
    | '+' :: rest => rest
    | _ => text
  if digits ≠ [] ∧ digits.all Char.isDigit then some (Nat.ofDigitChars 10 digits 0) else none

/-- An optional sign and one or more decimal digits. -/
def integer? : List Char → Option Int
  | '-' :: digits =>
    if digits ≠ [] ∧ digits.all Char.isDigit then some (-(Nat.ofDigitChars 10 digits 0 : Int))
    else none
  | text => (natural? text).map Int.ofNat

/-- A natural number below 2^32. -/
def uint32? (text : String) : Option UInt32 :=
  match natural? text.toList with
  | some value => if value < UInt32.size then some (UInt32.ofNat value) else none
  | none => none

/-- An integer from -2^63 up to and without 2^63. -/
def int64? (text : String) : Option Int64 :=
  match integer? text.toList with
  | some value =>
    if Int64.minValue.toInt ≤ value ∧ value ≤ Int64.maxValue.toInt then some (Int64.ofInt value)
    else none
  | none => none

end ShExCompact.Numeral
