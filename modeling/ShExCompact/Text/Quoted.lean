import ShExCompact.Text.Numeral
import ShExCompact.Text.Printable

/-!
Characters as diagnostics show them, between single quotes.
-/
namespace ShExCompact.Text

/-- The escapes of one letter in a quoted character. -/
def quotedEscape? (c : Char) : Option String :=
  if c = '\x00' then some "\\0"
  else if c = '\t' then some "\\t"
  else if c = '\r' then some "\\r"
  else if c = '\n' then some "\\n"
  else if c = '\'' then some "\\'"
  else if c = '\\' then some "\\\\"
  else none

/-- A character without quotes: an escape of one letter if there is one, itself if it is shown,
else its code point in hexadecimal. -/
def quotedBody (c : Char) : String :=
  match quotedEscape? c with
  | some escape => escape
  | none =>
    if isShown c then String.singleton c
    else "\\u\x7b" ++ Numeral.hexText c.toNat ++ "\x7d"

/-- A character between single quotes. -/
def quoted (c : Char) : String := "'" ++ quotedBody c ++ "'"

end ShExCompact.Text
