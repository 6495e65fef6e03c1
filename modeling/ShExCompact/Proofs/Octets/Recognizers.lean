import ShExCompact.Proofs.Octets.Access

/-! Tokens read from bytes. The recognizers walk over indices, take slices and compute what they
consume and report from them; each loop is given one round more than there are bytes. -/
namespace ShExCompact

namespace Access

/-- Bytes that end too early are an answer as well. -/
def attempt : Access α → Access (Option α)
  | value inner => value (some inner)
  | ended => value none
  | broken => broken
  | endless => endless

end Access

namespace Octets

variable (data : List UInt8)

/-- The rounds that a loop is given. -/
def limit : Nat := data.length + 1

/-! ### IRI references -/

/-- The digits of an escape, which is `position` bytes after the beginning. -/
def codePoint (escape : Char) (size position : Nat) : Access (Recognized Unit) := do
  let digits ← .need (range? data 2 (2 + size))
  let shown := (Utf8.decode digits).toOption.getD []
  let fault (cause : Fault) : Recognized Unit :=
    ⟨2 + size, .error ⟨position, position + digits.length + 2, cause⟩⟩
  if all digits Numeral.isHex then
    if (Numeral.hexValue shown).isValidChar then return ⟨2 + size, .ok ()⟩
    else return fault (.escapeValue escape (String.ofList shown) (Numeral.hexValue shown))
  else return fault (.escapeDigits escape (String.ofList shown))

/-- An escape with its backslash. -/
def escape (position : Nat) : Access (Recognized Unit) := do
  let c ← .need (peek data 1)
  if c = 'u' then codePoint data c 4 position
  else if c = 'U' then codePoint data c 8 position
  else return ⟨2, .error ⟨position, position + 2, .iriEscape c⟩⟩

/-- An IRI reference of which `i` bytes are read. -/
def iriRef : (rounds i : Nat) → Access (Recognized Token)
  | 0, _ => .endless
  | rounds + 1, i => do
    let c ← .need (peek data i)
    if c = '>' then spell data 0 (i + 1) (i + 1) fun text => .iriRef (String.ofList text)
    else if c = '\\' then
      let inner ← escape (← suffix data i) i
      match inner.result with
      | .ok _ => iriRef rounds (i + inner.consumed)
      | .error report => return ⟨i + inner.consumed, .error report⟩
    else if IriRef.isExcluded c then return ⟨i + 1, .error ⟨i, i + 1, .iriCharacter c⟩⟩
    else iriRef rounds (i + 1)

/-! ### Names -/

/-- What stops a prefix or a word. -/
inductive NameEnd where
  /-- no name begins -/
  | nothing
  /-- a colon, with its place behind it -/
  | colon (stop : Nat)
  | other (stop : Nat)

/-- Where a prefix or a word ends of which `i` bytes are read, dots at its end included. -/
def nameEnd : (rounds i : Nat) → Access (Except Report NameEnd)
  | 0, _ => .endless
  | rounds + 1, i => do
    match character? (← suffix data i) i with
    | none => return .ok (.other i)
    | some (.error report) => return .error report
    | some (.ok (c, size)) =>
      if c = ':' then return .ok (.colon (i + size))
      else if i = 0 then
        if Name.isLetter c then nameEnd rounds (i + size) else return .ok .nothing
      else if Name.isInnerOrDot c then nameEnd rounds (i + size)
      else return .ok (.other i)

/-- The first `i` bytes without the dots at their end. -/
def trimWord : (rounds i : Nat) → Access Nat
  | 0, _ => .endless
  | rounds + 1, i => do
    let front ← slice data 0 i
    if front.getLast?.map letter = some '.' then trimWord rounds (← minus i 1) else return i

/-- A local name of which `i` bytes are read, the last `dots` of them dots. What comes before
`copied` is in the value. -/
def localEnd (position i copied dots : Nat) (value : List Char) :
    Access (Recognized (List Char)) := do
  let stop ← minus i dots
  match ← decoded data position copied stop with
  | .ok tail => return ⟨stop, .ok (value ++ tail)⟩
  | .error report => return ⟨stop, .error report⟩

/-- Read the characters of a local name, which is `position` bytes after the beginning. -/
def localPart (position : Nat) :
    (rounds i copied dots : Nat) → List Char → Access (Recognized (List Char))
  | 0, _, _, _, _ => .endless
  | rounds + 1, i, copied, dots, value => do
    match character? (← suffix data i) (position + i) with
    | none => localEnd data position i copied dots value
    | some (.error report) => return ⟨← minus report.stop position, .error report⟩
    | some (.ok (c, size)) =>
      if c = '%' then
        let digits ← .need (range? data (i + 1) (i + 3))
        if all digits Numeral.isHex then localPart position rounds (i + 3) copied 0 value
        else return ⟨i + 3, .error ⟨position + i, position + i + 3,
          .percent (String.ofList (lossy digits))⟩⟩
      else if c = '\\' then
        let escaped ← .need (peek data (i + 1))
        if Fault.escapable.toList.contains escaped then
          match ← decoded data position copied i with
          | .ok front =>
            localPart position rounds (i + 2) (i + 2) 0 (value ++ front ++ [escaped])
          | .error report => return ⟨i, .error report⟩
        else return ⟨i + 2, .error ⟨position + i, position + i + 2, .localEscape escaped⟩⟩
      else if i = 0 then
        if Name.isStart c || c = ':' || c.isDigit then
          localPart position rounds (i + size) copied dots value
        else localEnd data position i copied dots value
      else if Name.isInner c || c = ':' then
        localPart position rounds (i + size) copied 0 value
      else if c = '.' then localPart position rounds (i + size) copied (dots + 1) value
      else localEnd data position i copied dots value

/-- A prefixed name or a word. -/
def name : Access (Recognized Name.Shape) := do
  match ← nameEnd data (limit data) 0 with
  | .error report => return ⟨report.stop, .error report⟩
  | .ok .nothing => return ⟨0, .ok (.word [])⟩
  | .ok (.other i) =>
    let stop ← trimWord data (limit data) i
    spell data 0 stop stop .word
  | .ok (.colon i) =>
    match ← decoded data 0 0 (← minus i 1) with
    | .error report => return ⟨i, .error report⟩
    | .ok space =>
      if space.getLast? = some '.' then
        return ⟨i, .error ⟨0, i, .prefixDot (String.ofList space)⟩⟩
      else
        let rest ← suffix data i
        let inner ← localPart rest i (limit rest) 0 0 0 []
        return ⟨i + inner.consumed, inner.result.map (.prefixed space)⟩

/-- A prefixed name or a keyword. -/
def nameOrKeyword : Access (Recognized Token) := do
  let found ← name data
  match found.result with
  | .error report => return ⟨found.consumed, .error report⟩
  | .ok (.prefixed space inner) =>
    return ⟨found.consumed, .ok (.prefixedName (String.ofList space) (String.ofList inner))⟩
  | .ok (.word word) =>
    if word.isEmpty then
      match ← Access.need (character? data 0) with
      | .ok (c, size) => return ⟨size, .error ⟨0, size, .character c⟩⟩
      | .error report => return ⟨report.stop, .error report⟩
    else match Keyword.ofWord? (String.ofList word) with
      | some known => return ⟨found.consumed, .ok (.keyword known)⟩
      | none =>
        return ⟨found.consumed, .error ⟨0, found.consumed, .word (String.ofList word)⟩⟩

/-- Where the subtags end of a language tag of which `i` bytes are read. -/
def subtags : (rounds i : Nat) → Access Nat
  | 0, _ => .endless
  | rounds + 1, i => do
    if peek data i = some '-' then
      let block := countWhile (← suffix data (i + 1)) Char.isAlphanum
      if block = 0 then return i else subtags rounds (i + block + 1)
    else return i

/-- The size of a language tag with its at sign. -/
def languageSize : Access (Option Nat) := do
  let primary := countWhile (← suffix data 1) Char.isAlpha
  if primary = 0 then return none
  else return some (← subtags data (limit data) (1 + primary))

/-- What begins with an at sign. -/
def atSign : Access (Recognized Token) := do
  let sign : Recognized Token := ⟨1, .ok (.punct .atSign)⟩
  match peek data 1 with
  | none => return sign
  | some c =>
    if c = '<' || c = '_' then return sign
    else
      let found ← name (← suffix data 1)
      match found.result with
      | .ok (.prefixed space inner) =>
        return ⟨found.consumed + 1,
          .ok (.atPrefixedName (String.ofList space) (String.ofList inner))⟩
      | .error report =>
        return ⟨found.consumed + 1, .error ⟨report.start + 1, report.stop + 1, report.cause⟩⟩
      | .ok (.word _) =>
        match ← languageSize data with
        | some size => spell data 1 size size fun tag => .language (String.ofList tag)
        | none => return sign

/-- Where the label of a blank node ends of which `i` bytes are read, dots at its end included. -/
def labelEnd : (rounds i : Nat) → Access (Except Report Nat)
  | 0, _ => .endless
  | rounds + 1, i => do
    match character? (← suffix data i) i with
    | none => return .ok i
    | some (.error report) => return .error report
    | some (.ok (c, size)) =>
      if (i = 2 && (Name.isStart c || c.isDigit)) || (2 < i && Name.isInnerOrDot c) then
        labelEnd rounds (i + size)
      else return .ok i

/-- The first `i` bytes of a blank node without the dots at the end of its label. -/
def trimLabel : (rounds i : Nat) → Access Nat
  | 0, _ => .endless
  | rounds + 1, i => do
    if 2 < i then
      let before ← minus i 1
      let c ← .sure (peek data before)
      if c = '.' then trimLabel rounds before else return i
    else return i

/-- A blank node. -/
def blankNode : Access (Recognized Token) := do
  match ← labelEnd data (limit data) 2 with
  | .error report => return ⟨report.stop, .error report⟩
  | .ok i =>
    let stop ← trimLabel data (limit data) i
    if stop = 2 then return ⟨stop, .error ⟨0, stop, .blankNode⟩⟩
    else spell data 2 stop stop fun id => .blankNode (String.ofList id)

/-! ### String literals -/

/-- A literal between single quotes of which `i` bytes are read. -/
def shortString (mark : Char) : (rounds i : Nat) → Access (Recognized Token)
  | 0, _ => .endless
  | rounds + 1, i => do
    let c ← .need (peek data i)
    if c = mark then spell data 0 (i + 1) (i + 1) fun raw => .string (String.ofList raw) 1
    else if c = '\\' then
      let _ ← Access.need (peek data (i + 1))
      shortString mark rounds (i + 2)
    else if c = '\n' || c = '\r' then return ⟨i + 1, .error ⟨i, i + 1, .lineBreak⟩⟩
    else shortString mark rounds (i + 1)

/-- A literal between three quotes of which `i` bytes are read. -/
def longString (mark : Char) : (rounds i : Nat) → Access (Recognized Token)
  | 0, _ => .endless
  | rounds + 1, i => do
    let rest ← .need (range? data i data.length)
    let i := i + (← .need (find rest fun c => c = mark || c = '\\'))
    let c ← .sure (peek data i)
    if c = '\\' then
      let _ ← Access.need (peek data (i + 1))
      longString mark rounds (i + 2)
    else if peek data (i + 1) = some mark && peek data (i + 2) = some mark then
      spell data 0 (i + 3) (i + 3) fun raw => .string (String.ofList raw) 3
    else longString mark rounds (i + 1)

/-- A string literal. -/
def string (mark : Char) : Access (Recognized Token) :=
  if peek data 1 = some mark && peek data 2 = some mark then longString data mark (limit data) 3
  else shortString data mark (limit data) 1

/-! ### Numbers -/

/-- Whether a number comes next that has no sign. -/
def startsUnsigned : Bool :=
  match peek data 0 with
  | some c => c.isDigit || (c = '.' && (peek data 1).any Char.isDigit)
  | none => false

/-- How many digits are before and after the point of a number, if it has one, and where these
end. -/
def mantissa : Access (Nat × Option Nat × Nat) := do
  let start := if (peek data 0).any Number.isSign then 1 else 0
  let whole := countWhile (← suffix data start) Char.isDigit
  let point := start + whole
  if peek data point = some '.' then
    let fraction := countWhile (← suffix data (point + 1)) Char.isDigit
    return (whole, some fraction, point + 1 + fraction)
  else return (whole, none, point)

/-- Where the exponent of a number ends, if it has one, and how many digits the exponent has. -/
def exponent? (start : Nat) : Access (Option (Nat × Nat)) := do
  if (peek data start).any fun c => c = 'e' || c = 'E' then
    let mark := start + 1
    let digits := if (peek data mark).any Number.isSign then mark + 1 else mark
    let power := countWhile (← suffix data digits) Char.isDigit
    return some (digits + power, power)
  else return none

/-- A number. -/
def number : Access (Recognized Token) := do
  let fault (size : Nat) (cause : Fault) : Recognized Token := ⟨size, .error ⟨0, size, cause⟩⟩
  let spelled (size : Nat) (kind : String → Token) : Access (Recognized Token) :=
    spell data 0 size size fun lexeme => kind (String.ofList lexeme)
  let (whole, fraction, stop) ← mantissa data
  match ← exponent? data stop, fraction with
  | some (stop, power), _ =>
    if power = 0 then return fault stop .exponent
    else if whole = 0 && fraction.getD 0 = 0 then return fault stop .double
    else spelled stop .double
  | none, some 0 =>
    -- the dot is not consumed after all
    let stop ← minus stop 1
    if whole = 0 then return fault stop .integer else spelled stop .integer
  | none, some _ => spelled stop .decimal
  | none, none => if whole = 0 then return fault stop .integer else spelled stop .integer

/-! ### Braces -/

/-- The percent sign or backslash that was found last, by its distance from the end. -/
inductive Delimiter where
  | unknown
  | fromEnd (distance : Nat)
  | absent

/-- Where the part of a cardinality after its least bound ends, which begins with a comma if there
is one. -/
def upperEnd (i : Nat) : Access Nat := do
  if peek data i = some ',' then
    if peek data (i + 1) = some '*' then return i + 2
    else
      let digits := countWhile (← suffix data (i + 1)) Char.isDigit
      return i + 1 + digits
  else return i

/-- The size of the bounds of a cardinality with their braces. -/
def rangeSize : Access (Option Nat) := do
  let least := countWhile (← suffix data 1) Char.isDigit
  if least = 0 then return none
  else
    let stop ← upperEnd data (1 + least)
    return if peek data stop = some '}' then some (stop + 1) else none

/-- The first percent sign or backslash from a place on, and what is kept. -/
def nextDelimiter (kept : Delimiter) (start : Nat) : Access (Option Nat × Delimiter) :=
  if start ≤ data.length then
    match kept with
    | .absent => return (none, .absent)
    | .fromEnd distance =>
      if distance ≤ data.length - start then
        return (some (← minus data.length distance), kept)
      else search
    | .unknown => search
  else return (none, kept)
where
  search : Access (Option Nat × Delimiter) := do
    match find (← suffix data start) fun c => c = '%' || c = '\\' with
    | some i => return (some (start + i), .fromEnd (← minus data.length (start + i)))
    | none => return (none, .absent)

/-- How many digits follow a letter after a backslash in a code block. -/
def digitCount? (c : Char) : Option Nat :=
  if c = '%' || c = '\\' then some 0
  else if c = 'u' then some 4
  else if c = 'U' then some 8
  else none

/-- The size of a code block of which `i` bytes are read. -/
def codeSize : (rounds : Nat) → Delimiter → (i : Nat) → Access (Option Nat × Delimiter)
  | 0, _, _ => .endless
  | rounds + 1, kept, i => do
    match ← nextDelimiter data kept i with
    | (none, kept) => return (none, kept)
    | (some i, kept) =>
      let c ← .sure (peek data i)
      if c = '%' then
        return (if peek data (i + 1) = some '}' then some (i + 2) else none, kept)
      else match (peek data (i + 1)).bind digitCount? with
        | none => return (none, kept)
        | some count =>
          match range? data (i + 2) (i + 2 + count) with
          | none => return (none, kept)
          | some digits =>
            if all digits Numeral.isHex then codeSize rounds kept (i + 2 + count)
            else return (none, kept)

/-- What begins with an opening brace. -/
def brace (kept : Delimiter) : Access (Recognized Token × Delimiter) := do
  match ← rangeSize data with
  | some size =>
    let range ← spell data 0 size size fun text => .repeatRange (String.ofList text)
    return (range, kept)
  | none =>
    match ← codeSize data (limit data) kept 1 with
    | (some size, kept) =>
      let code ← spell data 0 size size fun text => .code (String.ofList text)
      return (code, kept)
    | (none, kept) => return (⟨1, .ok (.punct .openBrace)⟩, kept)

/-! ### Tokens -/

/-- The signs that no longer token begins with. -/
def signs : List Punct :=
  [.equals, .closeBrace, .openParen, .closeParen, .ampersand, .comma, .semicolon, .dollar, .bang,
    .tilde, .star, .question, .percent]

/-- One sign. -/
def sign (sign : Punct) : Access (Recognized Token) := return ⟨sign.text.length, .ok (.punct sign)⟩

/-- A token that begins with `c`, which is no opening brace. -/
def plain (c : Char) : Access (Recognized Token) := do
  if c = '<' then iriRef data (limit data) 1
  else if c = '_' then
    if peek data 1 = some ':' then blankNode data
    else return ⟨1, .error ⟨0, 1, .character '_'⟩⟩
  else if c = '"' || c = '\'' then string data c
  else if c = '@' then atSign data
  else if c = '.' then if (peek data 1).any Char.isDigit then number data else sign .dot
  else if Number.isSign c then
    let rest ← suffix data 1
    if startsUnsigned rest then number data
    else if c = '+' then sign .plus
    else sign .minus
  else if c.isDigit then number data
  else if c = '^' then if peek data 1 = some '^' then sign .doubleCaret else sign .caret
  else if c = '|' then if peek data 1 = some '|' then sign .doubleBar else sign .bar
  else match signs.find? fun sign => sign.text = String.singleton c with
    | some known => sign known
    | none => nameOrKeyword data

/-- One token at the beginning of some bytes. -/
def recognize (kept : Delimiter) : Access (Recognized Token × Delimiter) := do
  let c ← .need (peek data 0)
  if c = '{' then brace data kept
  else
    let found ← plain data c
    return (found, kept)

/-! ### The sequence of tokens -/

/-- What opens a comment. -/
def commentStarts : List (List Char) := [['#'], ['/', '/']]

/-- Whether some bytes begin with some ASCII characters. -/
def startsWith (front : List Char) : Bool := (data.take front.length).map letter = front

/-- The first place from one on where no blank and no comment is. -/
def skip : (rounds place : Nat) → Access Nat
  | 0, _ => .endless
  | rounds + 1, place => do
    let place := place + countWhile (← suffix data place) Token.isBlank
    let rest ← suffix data place
    match commentStarts.find? (startsWith rest) with
    | none => return place
    | some opens =>
      match find (← suffix rest opens.length) Token.isLineEnd with
      | some i => skip rounds (place + (i + opens.length))
      | none => return data.length

/-- The first character among the first bytes, of which there are one of the sizes. -/
def shortest : (sizes : List Nat) → Access Char
  | [] => return Text.replacement
  | size :: sizes => do
    match Utf8.decode (← slice data 0 size) with
    | .ok (c :: _) => return c
    | _ => shortest sizes

/-- The character at a place. -/
def characterAt (place : Nat) : Access Char := do
  let rest ← suffix data (min place data.length)
  shortest rest (List.range' 1 (min rest.length 4))

/-- What a sequence of tokens gives: a token with its place, or why there is none. -/
abbrev Item := Except LexicalProblem (Token × Extent)

end Octets

/-- The state of a sequence of tokens. -/
structure Tokenizer where
  place : Nat
  kept : Octets.Delimiter
  failed : Bool

namespace Tokenizer

open Octets

variable (data : List UInt8)

/-- The beginning of the sequence from an offset on. -/
def start (offset : Nat) : Tokenizer := ⟨min offset data.length, .unknown, false⟩

/-- Read one token, or why there is none. -/
def read (state : Tokenizer) : Access (Option Item × Tokenizer) := do
  let start ← skip data (limit data) state.place
  if start = data.length then return (none, { state with place := start })
  else
    match ← (recognize (← suffix data start) state.kept).attempt with
    | none =>
      let c ← characterAt data start
      return (some (.error ⟨⟨start, data.length⟩, .endOfText, c⟩), ⟨data.length, state.kept, true⟩)
    | some (found, kept) =>
      Access.assert (0 < found.consumed)
      Access.assert (start + found.consumed ≤ data.length)
      let stop := start + found.consumed
      match found.result with
      | .ok token => return (some (.ok (token, ⟨start, stop⟩)), ⟨stop, kept, false⟩)
      | .error report =>
        let first := report.start + start
        let c ← characterAt data first
        return (some (.error ⟨⟨first, report.stop + start⟩, report.cause, c⟩),
          ⟨stop, kept, true⟩)

/-- The next item. After an error there is none. -/
def next (state : Tokenizer) : Access (Option Item × Tokenizer) :=
  if state.failed then return (none, state) else state.read data

/-- What so many calls give one after the other. -/
def calls : (count : Nat) → Tokenizer → Access (List (Option Item) × Tokenizer)
  | 0, state => return ([], state)
  | count + 1, state => do
    let (item, state) ← state.next data
    let (items, state) ← calls count state
    return (item :: items, state)

end Tokenizer

end ShExCompact
