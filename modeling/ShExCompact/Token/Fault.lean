import ShExCompact.Text.Quoted
import ShExCompact.Text.Utf8

/-!
Lexical faults: why no token begins at some place of a text.
-/
namespace ShExCompact

inductive Fault where
  /-- a character that begins no token -/
  | character (c : Char)
  /-- a character that an IRI reference excludes -/
  | iriCharacter (c : Char)
  /-- a backslash in an IRI reference before something else than a code point -/
  | iriEscape (c : Char)
  /-- an escape whose code point is not in hexadecimal -/
  | escapeDigits (letter : Char) (digits : String)
  /-- an escape whose code point is no character -/
  | escapeValue (letter : Char) (digits : String) (value : Nat)
  /-- a word without a colon that is no keyword -/
  | word (word : String)
  /-- a prefix that ends with a dot -/
  | prefixDot (name : String)
  /-- a percent sign in a local name without two hexadecimal digits -/
  | percent (found : String)
  /-- a backslash in a local name before a character that it cannot escape -/
  | localEscape (c : Char)
  /-- a blank node without a label -/
  | blankNode
  /-- a line break in a string literal of one line -/
  | lineBreak
  /-- an exponent without digits -/
  | exponent
  /-- a double without digits before its exponent -/
  | double
  /-- a sign without digits -/
  | integer
  /-- a place inside of a character -/
  | encoding
  /-- the text ends inside of a token -/
  | endOfText
  /-- bytes that are no text -/
  | bytes (flaw : Utf8.Flaw)
deriving DecidableEq

namespace Fault

/-- The characters that a backslash escapes in a local name. -/
def escapable : String := "_~.-!$&'()*+,;=/?#@%"

/-- The wording of a fault. -/
def message : Fault → String
  | character c => "Unexpected character '" ++ String.singleton c ++ "'"
  | iriCharacter c => "The character " ++ Text.quoted c ++ " is not allowed in IRIs"
  | iriEscape c => "Unexpected escape character '\\" ++ String.singleton c ++ "' in IRI"
  | escapeDigits letter digits =>
    "The escape sequence '\\" ++ String.singleton letter ++ digits ++
      "' is not a valid hexadecimal string"
  | escapeValue letter digits value =>
    "The escape sequence '\\" ++ String.singleton letter ++ digits ++ "' is encoding " ++
      (Numeral.hexText value).toUpper ++ " that is not a valid unicode character"
  | word found => "'" ++ found ++ "' is not a keyword, prefixed names must contain ':'"
  | prefixDot name =>
    "'" ++ name ++ "' is not a valid prefix: prefixes are not allowed to end with '.'"
  | percent found =>
    "escapes in IRIs should be % followed by two hexadecimal characters, found '%" ++ found ++ "'"
  | localEscape c =>
    "The characters that are allowed to be escaped in local names are " ++ escapable ++
      ", found '" ++ String.singleton c ++ "'"
  | blankNode => "A blank node ID cannot be empty"
  | lineBreak => "Line jumps are not allowed in string literals, use \\n"
  | exponent => "A double exponent cannot be empty"
  | double => "A double should not be empty"
  | integer => "An integer should not be empty"
  | encoding => "Invalid UTF-8 character encoding"
  | endOfText => "Unexpected end of file"
  | bytes flaw => "Invalid UTF-8: " ++ flaw.message

end Fault

end ShExCompact
