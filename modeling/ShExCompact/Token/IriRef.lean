import ShExCompact.Text.Numeral
import ShExCompact.Token.Scan

/-!
IRI references between angle brackets. They hold escapes of code points, each of which has to be a
character.
-/
namespace ShExCompact.IriRef

/-- Characters that an IRI reference excludes. -/
def isExcluded (c : Char) : Bool := c ≤ ' ' || "<\"\x7b\x7d|^\x60".toList.contains c

/-- Read the hexadecimal digits of an escape, so many bytes as its letter asks for. -/
def codePoint (letter : Char) (size : Nat) (text : List Char) : Scan Unit :=
  match Text.cut size text with
  | .short => .unfinished
  | .inside => .fault (.escapeDigits letter "") [] (size + 2)
  | .exact digits rest =>
    if digits.all Numeral.isHex then
      if (Numeral.hexValue digits).isValidChar then .found () digits rest
      else
        .fault (.escapeValue letter (String.ofList digits) (Numeral.hexValue digits)) [] (size + 2)
    else .fault (.escapeDigits letter (String.ofList digits)) [] (size + 2)

/-- Read what follows a backslash. -/
def escape : List Char → Scan Unit
  | [] => .unfinished
  | c :: rest =>
    if c = 'u' then codePoint c 4 rest
    else if c = 'U' then codePoint c 8 rest
    else .fault (.iriEscape (Text.firstByte c)) [] 2

/-- Read up to the closing bracket and with it. The digits of an escape are read once to check
them and once as characters. -/
def body : List Char → Scan Unit
  | [] => .unfinished
  | c :: rest =>
    if c = '>' then .found () [c] rest
    else if c = '\\' then
      match escape rest with
      | .found .. => (body rest).after [c]
      | .fault cause lead width => .fault cause lead width
      | .unfinished => .unfinished
    else if isExcluded c then .fault (.iriCharacter c) [] 1
    else (body rest).after [c]

end ShExCompact.IriRef
