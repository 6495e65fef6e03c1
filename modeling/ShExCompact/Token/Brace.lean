import ShExCompact.Text.Numeral
import ShExCompact.Token.Basic
import ShExCompact.Token.Scan

/-!
What begins with an opening brace: the bounds of a cardinality, a code block, or the brace alone.
Every brace may begin a code block, so the percent sign or backslash that was found last is kept:
no stretch of the text is searched twice.
-/
namespace ShExCompact

/-- A place in a text: its byte offset and the text after it. -/
structure Cursor where
  offset : Nat
  rest : List Char

namespace Brace

/-- What follows the least bound of a cardinality: a comma, with a star or the greatest bound if one
follows. -/
def upper : List Char → List Char
  | [] => []
  | c :: rest =>
    if c = ',' then c :: (if rest.head? = some '*' then ['*'] else rest.takeWhile Char.isDigit)
    else []

/-- The bounds of a cardinality after its opening brace, with the closing one. -/
def bounds? (text : List Char) : Option (List Char) :=
  let least := text.takeWhile Char.isDigit
  if least.isEmpty then none
  else
    let front := least ++ upper (text.drop least.length)
    match text.drop front.length with
    | c :: _ => if c = '}' then some (front ++ [c]) else none
    | [] => none

/-- What is known of the next percent sign or backslash. -/
inductive Delimiter where
  /-- nothing -/
  | unknown
  /-- there is none any more -/
  | absent
  /-- the one that was found last -/
  | found (place : Cursor)

/-- The next percent sign or backslash of a text. -/
def search (offset : Nat) : List Char → Option Cursor
  | [] => none
  | c :: rest =>
    if c = '%' || c = '\\' then some ⟨offset, c :: rest⟩ else search (offset + c.utf8Size) rest

/-- Search from a place and keep what is found. -/
def searchAgain (place : Cursor) : Option Cursor × Delimiter :=
  match search place.offset place.rest with
  | some found => (some found, .found found)
  | none => (none, .absent)

/-- The next percent sign or backslash at or after a place; the one that is kept answers if it is
not before the place. -/
def next (kept : Delimiter) (place : Cursor) : Option Cursor × Delimiter :=
  match kept with
  | .absent => (none, .absent)
  | .found found =>
    if place.offset ≤ found.offset then (some found, kept) else searchAgain place
  | .unknown => searchAgain place

/-- What a delimiter does to a code block: it ends the block or is stepped over with some
characters, or the text is no code block. -/
inductive Step where
  | ends (tail : Cursor)
  | goesOn (tail : Cursor)
  | breaks

/-- Read one delimiter. -/
def step (place : Cursor) : Step :=
  match place.rest with
  | c :: d :: rest =>
    if c = '%' then
      if d = '}' then .ends ⟨place.offset + 2, rest⟩ else .breaks
    else if d = '%' || d = '\\' then .goesOn ⟨place.offset + 2, rest⟩
    else if d = 'u' && (Numeral.hex? 4 rest).isSome then .goesOn ⟨place.offset + 6, rest.drop 4⟩
    else if d = 'U' && (Numeral.hex? 8 rest).isSome then .goesOn ⟨place.offset + 10, rest.drop 8⟩
    else .breaks
  | _ => .breaks

/-- The end of a code block whose content goes on at a place, after at most `bound` delimiters. -/
def codeEnd : (bound : Nat) → Delimiter → Cursor → Option Cursor × Delimiter
  | 0, kept, _ => (none, kept)
  | bound + 1, kept, place =>
    match next kept place with
    | (none, kept) => (none, kept)
    | (some found, kept) =>
      match step found with
      | .ends tail => (some tail, kept)
      | .goesOn tail => codeEnd bound kept tail
      | .breaks => (none, kept)

/-- Read what begins with an opening brace at a place; a code block has at most `bound`
delimiters. -/
def scan (bound : Nat) (kept : Delimiter) (place : Cursor) : Scan Token × Delimiter :=
  match bounds? place.rest.tail with
  | some front =>
    let lexeme := '{' :: front
    (.found (.repeatRange (String.ofList lexeme)) lexeme (place.rest.drop lexeme.length), kept)
  | none =>
    let brace := Scan.found (Token.punct .openBrace) ['{'] place.rest.tail
    match codeEnd bound kept ⟨place.offset + 1, place.rest.tail⟩ with
    | (some tail, kept) =>
      match Text.cut (tail.offset - place.offset) place.rest with
      | .exact lexeme rest => (.found (.code (String.ofList lexeme)) lexeme rest, kept)
      | .inside | .short => (brace, kept)
    | (none, kept) => (brace, kept)

end Brace

end ShExCompact
