import ShExCompact.Token.Keyword

/-!
The tokens of the compact syntax.
-/
namespace ShExCompact

/-- Punctuation signs. -/
inductive Punct where
  | dot
  | plus
  | minus
  | caret
  | doubleCaret
  | bar
  | doubleBar
  | equals
  | openBrace
  | closeBrace
  | openParen
  | closeParen
  | ampersand
  | comma
  | semicolon
  | dollar
  | bang
  | tilde
  | star
  | question
  | percent
  | atSign
deriving DecidableEq

namespace Punct

/-- The spelling of a sign. -/
def text : Punct → String
  | dot => "."
  | plus => "+"
  | minus => "-"
  | caret => "^"
  | doubleCaret => "^^"
  | bar => "|"
  | doubleBar => "||"
  | equals => "="
  | openBrace => "\x7b"
  | closeBrace => "\x7d"
  | openParen => "("
  | closeParen => ")"
  | ampersand => "&"
  | comma => ","
  | semicolon => ";"
  | dollar => "$"
  | bang => "!"
  | tilde => "~"
  | star => "*"
  | question => "?"
  | percent => "%"
  | atSign => "@"

/-- The signs of one character that are not read by other means. -/
def single : List Punct :=
  [dot, plus, minus, caret, bar, equals, closeBrace, openParen, closeParen, ampersand, comma,
    semicolon, dollar, bang, tilde, star, question, percent]

/-- The signs of two characters. -/
def double : List Punct := [doubleCaret, doubleBar]

/-- The sign that a text begins with, the longer one if there are two. -/
def read? (text : List Char) : Option Punct :=
  (double ++ single).find? fun sign => sign.text.toList.isPrefixOf text

end Punct

/-- A token. Nothing of it is decoded but the backslash escapes of local names. -/
inductive Token where
  /-- an IRI reference with its angle brackets -/
  | iriRef (text : String)
  /-- a name with a prefix, the local part without its backslashes -/
  | prefixedName (space localPart : String)
  /-- a name with a prefix after an at sign -/
  | atPrefixedName (space localPart : String)
  /-- a blank node without the underscore and colon -/
  | blankNode (id : String)
  /-- a string literal with its quotes, one or three at each end -/
  | string (raw : String) (quoteWidth : Nat)
  /-- a language tag without the at sign -/
  | language (tag : String)
  | integer (lexeme : String)
  | decimal (lexeme : String)
  | double (lexeme : String)
  /-- bounds of a cardinality with their braces -/
  | repeatRange (lexeme : String)
  /-- a code block from its brace to its percent sign and brace -/
  | code (lexeme : String)
  | keyword (word : Keyword)
  | punct (sign : Punct)
deriving DecidableEq

end ShExCompact
