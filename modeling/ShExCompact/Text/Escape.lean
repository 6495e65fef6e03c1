import ShExCompact.Text.Cut
import ShExCompact.Text.Numeral

/-!
Backslash escapes of string literals and of IRIs. An escape is a letter, a code point in four or
eight hexadecimal digits, or a code point above U+FFFF as two surrogates in four digits each.
-/
namespace ShExCompact.Escape

/-- The escapes of one letter. -/
def letter? (c : Char) : Option Char :=
  if c = '\\' ∨ c = '\'' ∨ c = '"' then some c
  else if c = 't' then some '\t'
  else if c = 'b' then some '\x08'
  else if c = 'n' then some '\n'
  else if c = 'r' then some '\r'
  else if c = 'f' then some '\x0C'
  else none

/-- The character of a code point, none for surrogates and past the last one. -/
def scalar? (code : Nat) : Option Char :=
  if valid : code.isValidChar then some (Char.ofNatAux code valid) else none

/-- First halves of surrogate pairs. -/
def isHigh (code : Nat) : Bool := 0xD800 ≤ code && code < 0xDC00

/-- Second halves of surrogate pairs. -/
def isLow (code : Nat) : Bool := 0xDC00 ≤ code && code < 0xE000

/-- The second half of a surrogate pair, written as an escape of its own. -/
def low? : List Char → Option Nat
  | c :: d :: rest =>
    if c = '\\' ∧ d = 'u' then (Numeral.hex? 4 rest).filter isLow else none
  | _ => none

/-- What follows the backslash of an escape: the character that it stands for, and how many
characters it takes. -/
def read? : List Char → Option (Char × Nat)
  | [] => none
  | c :: rest =>
    if c = 'u' then do
      let high ← Numeral.hex? 4 rest
      if isHigh high then
        let low ← low? (rest.drop 4)
        let value ← scalar? (0x10000 + (high - 0xD800) * 0x400 + (low - 0xDC00))
        some (value, 11)
      else
        let value ← scalar? high
        some (value, 5)
    else if c = 'U' then do
      let code ← Numeral.hex? 8 rest
      let value ← scalar? code
      some (value, 9)
    else do
      let value ← letter? c
      some (value, 1)

/-- The first backslash that begins no escape: its byte offset, and it with the next character. -/
structure Flaw where
  offset : Nat
  text : List Char
deriving DecidableEq

/-- Decode a text; its first `skip` characters belong to an escape that is already read, and
`offset` bytes come before. -/
def decodeFrom : (skip offset : Nat) → List Char → Except Flaw (List Char)
  | _, _, [] => .ok []
  | skip + 1, offset, c :: rest => decodeFrom skip (offset + c.utf8Size) rest
  | 0, offset, c :: rest =>
    if c = '\\' then
      match read? rest with
      | some (value, size) =>
        match decodeFrom size (offset + 1) rest with
        | .ok more => .ok (value :: more)
        | .error flaw => .error flaw
      | none => .error ⟨offset, '\\' :: rest.take 1⟩
    else
      match decodeFrom 0 (offset + c.utf8Size) rest with
      | .ok more => .ok (c :: more)
      | .error flaw => .error flaw

/-- What stands between the quotes of a literal, if quotes of that width leave whole characters. -/
def content? (raw : List Char) (quoteWidth : Nat) : Option (List Char) :=
  let size := Text.width raw
  if quoteWidth ≤ size - quoteWidth then
    match Text.cut quoteWidth raw with
    | .exact _ rest =>
      match Text.cut (size - quoteWidth - quoteWidth) rest with
      | .exact content _ => some content
      | .inside | .short => none
    | .inside | .short => none
  else none

/-- Decode a string literal with its quotes. A literal without content is empty. -/
def decodeString (raw : String) (quoteWidth : Nat) : Except Flaw String :=
  match content? raw.toList quoteWidth with
  | some content => (decodeFrom 0 quoteWidth content).map String.ofList
  | none => .ok ""

/-- Decode a string literal with its quotes; one with a flaw is empty. -/
def unescapeString (raw : String) (quoteWidth : Nat) : String :=
  match decodeString raw quoteWidth with
  | .ok value => value
  | .error _ => ""

/-- Whether an escape is a code point in hexadecimal. -/
def isNumeric : List Char → Bool
  | c :: _ => c = 'u' || c = 'U'
  | [] => false

/-- Decode the code points of an IRI; every other backslash stays. The first `skip` characters
belong to an escape that is already read. -/
def decodeIri : (skip : Nat) → List Char → List Char
  | _, [] => []
  | skip + 1, _ :: rest => decodeIri skip rest
  | 0, c :: rest =>
    if c = '\\' ∧ isNumeric rest then
      match read? rest with
      | some (value, size) => value :: decodeIri size rest
      | none => c :: decodeIri 0 rest
    else c :: decodeIri 0 rest

/-- Decode the code points that an IRI writes as escapes. -/
def unescapeIri (iri : String) : String := String.ofList (decodeIri 0 iri.toList)

end ShExCompact.Escape
