import ShExCompact.Iri.Basic

/-!
Canonical texts of literals: the value between double quotes, then a language tag or a datatype.
The value is written as it is, and ends at the last double quote of the text.
-/
namespace ShExCompact

namespace Vocabulary

/-- The datatype of integers. -/
def integer : Iri := ⟨"http://www.w3.org/2001/XMLSchema#integer"⟩

/-- The datatype of numbers with a point. -/
def decimal : Iri := ⟨"http://www.w3.org/2001/XMLSchema#decimal"⟩

/-- The datatype of numbers with an exponent. -/
def double : Iri := ⟨"http://www.w3.org/2001/XMLSchema#double"⟩

/-- The datatype of truth values. -/
def boolean : Iri := ⟨"http://www.w3.org/2001/XMLSchema#boolean"⟩

/-- The predicate that a document may write as one letter. -/
def type : Iri := ⟨"http://www.w3.org/1999/02/22-rdf-syntax-ns#type"⟩

end Vocabulary

namespace Literal

/-- What follows the value of a literal. -/
inductive Suffix where
  | plain
  | language (tag : String)
  | datatype (iri : Iri)
deriving DecidableEq

/-- The text of a suffix; language tags are in lower case. -/
def Suffix.text : Suffix → String
  | plain => ""
  | language tag => "@" ++ tag.toLower
  | datatype iri => "^^" ++ iri.value

/-- The text of a literal. -/
def text (value : String) (suffix : Suffix) : String := "\"" ++ value ++ "\"" ++ suffix.text

/-- The text of a number or truth value; doubles are in lower case. -/
def canonical (lexeme : String) (datatype : Iri) : String :=
  text (if datatype = Vocabulary.double then lexeme.toLower else lexeme) (.datatype datatype)

/-- The text of a truth value. -/
def ofBool (value : Bool) : String :=
  canonical (if value then "true" else "false") Vocabulary.boolean

end Literal

end ShExCompact
