import ShExCompact.Token.Scan

/-!
String literals, between one or three quotes at each end. Escapes are only stepped over here.
-/
namespace ShExCompact.Quote

/-- Read up to the next quote and with it. A backslash takes the next character with it; no other
line break may stand before the quote. -/
def short (mark : Char) : List Char → Scan Unit
  | [] => .unfinished
  | c :: rest =>
    if c = mark then .found () [c] rest
    else if c = '\\' then
      match rest with
      | [] => .unfinished
      | d :: more => (short mark more).after [c, d]
    else if c = '\n' || c = '\r' then .fault .lineBreak [] 1
    else (short mark rest).after [c]

/-- Read up to the next three quotes in a row and with them. A backslash takes the next character
with it. -/
def long (mark : Char) : List Char → Scan Unit
  | [] => .unfinished
  | c :: rest =>
    if c = '\\' then
      match rest with
      | [] => .unfinished
      | d :: more => (long mark more).after [c, d]
    else if c = mark && [mark, mark].isPrefixOf rest then .found () [c, c, c] (rest.drop 2)
    else (long mark rest).after [c]

/-- Read a string literal after its first quote. The value is how many quotes it has. -/
def scan (mark : Char) (text : List Char) : Scan Nat :=
  if [mark, mark].isPrefixOf text then
    ((long mark (text.drop 2)).map fun _ => 3).after [mark, mark, mark]
  else ((short mark text).map fun _ => 1).after [mark]

end ShExCompact.Quote
