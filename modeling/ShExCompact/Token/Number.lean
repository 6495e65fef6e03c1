import ShExCompact.Token.Basic
import ShExCompact.Token.Scan

/-!
Numbers: integers, decimals and doubles. A dot without a digit or an exponent after it is left to
the next token.
-/
namespace ShExCompact.Number

def isSign (c : Char) : Bool := c = '+' || c = '-'

/-- The sign that a text begins with. -/
def sign (text : List Char) : List Char := (text.take 1).filter isSign

/-- The digits that a text begins with. -/
def digits (text : List Char) : List Char := text.takeWhile Char.isDigit

/-- Whether a digit, or a dot and a digit, comes next. -/
def startsUnsigned : List Char → Bool
  | [] => false
  | c :: rest => c.isDigit || (c = '.' && rest.head?.any Char.isDigit)

/-- Whether a number comes next. -/
def starts (text : List Char) : Bool := startsUnsigned (text.drop (sign text).length)

/-- The parts of a number before its exponent. -/
structure Mantissa where
  sign : List Char
  whole : List Char
  point : List Char
  fraction : List Char

namespace Mantissa

/-- The longest mantissa that a text begins with. -/
def ofText (text : List Char) : Mantissa :=
  let sign := Number.sign text
  let whole := digits (text.drop sign.length)
  let rest := text.drop (sign ++ whole).length
  let point := (rest.take 1).filter (· = '.')
  ⟨sign, whole, point, if point.isEmpty then [] else digits (rest.drop 1)⟩

/-- The sign and the digits before the point. -/
def integerText (mantissa : Mantissa) : List Char := mantissa.sign ++ mantissa.whole

/-- The whole mantissa. -/
def text (mantissa : Mantissa) : List Char :=
  mantissa.integerText ++ mantissa.point ++ mantissa.fraction

end Mantissa

/-- The exponent that a text begins with: its mark with the sign, and its digits. -/
def exponent? : List Char → Option (List Char × List Char)
  | [] => none
  | c :: rest =>
    if c = 'e' || c = 'E' then
      let mark := c :: sign rest
      some (mark, digits (rest.drop (sign rest).length))
    else none

/-- Read a number. -/
def scan (text : List Char) : Scan Token :=
  let mantissa := Mantissa.ofText text
  let found (kind : String → Token) (lexeme : List Char) : Scan Token :=
    .found (kind (String.ofList lexeme)) lexeme (text.drop lexeme.length)
  match exponent? (text.drop mantissa.text.length) with
  | some (mark, power) =>
    let lexeme := mantissa.text ++ mark ++ power
    if power.isEmpty then .fault .exponent [] (Text.width lexeme)
    else if mantissa.whole.isEmpty && mantissa.fraction.isEmpty then
      .fault .double [] (Text.width lexeme)
    else found .double lexeme
  | none =>
    if !mantissa.fraction.isEmpty then found .decimal mantissa.text
    else if mantissa.whole.isEmpty then .fault .integer [] (Text.width mantissa.integerText)
    else found .integer mantissa.integerText

end ShExCompact.Number
