import ShExCompact.Text.Numeral
import ShExCompact.Text.Printable
import ShExCompact.Token.Scan

/-!
Names: words, prefixed names and blank nodes. Dots are part of a name only if more of the name
follows them.
-/
namespace ShExCompact.Name

/-- The letters that begin a name. -/
def letters : List (Nat × Nat) :=
  [(0x41, 0x5A), (0x61, 0x7A), (0xC0, 0xD6), (0xD8, 0xF6), (0xF8, 0x2FF), (0x370, 0x37D),
    (0x37F, 0x1FFF), (0x200C, 0x200D), (0x2070, 0x218F), (0x2C00, 0x2FEF), (0x3001, 0xD7FF),
    (0xF900, 0xFDCF), (0xFDF0, 0xFFFD), (0x10000, 0xEFFFF)]

/-- Characters that begin a prefix or a word. -/
def isLetter (c : Char) : Bool := Text.within letters c.toNat

/-- Characters that begin a local name or a blank node, digits and colons apart. -/
def isStart (c : Char) : Bool := isLetter c || c = '_'

/-- Characters inside of a name. -/
def isInner (c : Char) : Bool :=
  isStart c || c = '-' || c.isDigit || c = '\u00B7' ||
    Text.within [(0x300, 0x36F), (0x203F, 0x2040)] c.toNat

/-- Characters of a run that may end in dots. -/
def isInnerOrDot (c : Char) : Bool := isInner c || c = '.'

/-- A text without the dots at its end. -/
def trimDots : List Char → List Char
  | [] => []
  | c :: rest =>
    let inner := trimDots rest
    if inner.isEmpty && c = '.' then [] else c :: inner

/-- The fault of a percent sign before a text without two hexadecimal digits. -/
def percentFault (rest : List Char) : Scan (List Char) :=
  match Text.cut 2 rest with
  | .short => .unfinished
  | .inside | .exact .. => .fault (.percent (String.ofList (Text.shown 2 rest))) [] 3

/-- A local name, possibly empty. The value leaves the backslashes out. -/
def localPart (isFirst : Bool) : List Char → Scan (List Char)
  | [] => .found [] [] []
  | c :: rest =>
    if c = '%' then
      match rest with
      | a :: b :: more =>
        if Numeral.isHex a && Numeral.isHex b then
          (localPart false more).push [c, a, b] [c, a, b]
        else percentFault rest
      | _ => percentFault rest
    else if c = '\\' then
      match rest with
      | [] => .unfinished
      | d :: more =>
        if Fault.escapable.toList.contains d then (localPart false more).push [d] [c, d]
        else .fault (.localEscape (Text.firstByte d)) [] 2
    else if c = ':' || (if isFirst then isStart c || c.isDigit else isInner c) then
      (localPart false rest).push [c] [c]
    else if !isFirst && c = '.' then
      match localPart false rest with
      | .found value lexeme tail =>
        if lexeme.isEmpty then .found [] [] (c :: rest)
        else .found (c :: value) (c :: lexeme) tail
      | .fault cause lead width => .fault cause (c :: lead) width
      | .unfinished => .unfinished
    else .found [] [] (c :: rest)

/-- The longest run that begins with a letter and goes on with inner characters and dots, and
what follows it. -/
def run : List Char → List Char × List Char
  | [] => ([], [])
  | c :: rest =>
    if isLetter c then (c :: rest.takeWhile isInnerOrDot, rest.dropWhile isInnerOrDot)
    else ([], c :: rest)

/-- What a name is. A text that begins with no name has the empty word. -/
inductive Shape where
  | prefixed (space localPart : List Char)
  | word (word : List Char)

/-- Read a prefixed name or a word. -/
def scan (text : List Char) : Scan Shape :=
  let front := (run text).1
  match (run text).2 with
  | ':' :: tail =>
    if front.getLast? = some '.' then
      .fault (.prefixDot (String.ofList front)) [] (Text.width front + 1)
    else ((localPart true tail).map (Shape.prefixed front)).after (front ++ [':'])
  | _ =>
    let word := trimDots front
    .found (.word word) word (text.drop word.length)

/-- Read a blank node. -/
def blankNode : List Char → Scan (List Char)
  | '_' :: ':' :: rest =>
    match rest with
    | [] => .fault .blankNode [] 2
    | c :: more =>
      if isStart c || c.isDigit then
        let label := trimDots (c :: more.takeWhile isInnerOrDot)
        .found label ('_' :: ':' :: label) (rest.drop label.length)
      else .fault .blankNode [] 2
  | _ => .fault (.character '_') [] 1

end ShExCompact.Name
