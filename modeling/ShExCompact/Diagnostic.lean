import ShExCompact.Iri.Absolute
import ShExCompact.Text.Position
import ShExCompact.Token.Basic
import ShExCompact.Token.Fault

/-!
Problems of documents, and diagnostics that tell a reader about them.
-/
namespace ShExCompact

/-- What a document may have at some place. -/
inductive Expected where
  | keyword (word : Keyword)
  | sign (punct : Punct)
  | prefixName
  | iriRef
  | iri
  | predicate
  | datatype
  | literal
  | string
  | integer
  | shapeLabel
  | shapeDefinition
  | shapeReference
  | codeBlock
deriving DecidableEq

/-- The name of an alternative. -/
def Expected.text : Expected → String
  | keyword word => word.text
  | sign punct => punct.text
  | prefixName => "a prefix name"
  | iriRef => "an IRI between <>"
  | iri => "an IRI"
  | predicate => "a predicate"
  | datatype => "a datatype"
  | literal => "a literal"
  | string => "a string"
  | integer => "an integer"
  | shapeLabel => "a shape label"
  | shapeDefinition => "a shape definition"
  | shapeReference => "a shape reference"
  | codeBlock => "a code block \x7b...%\x7d"

/-- How many shape definitions and parenthesized expressions may be open at once. -/
def nestingLimit : Nat := 32

/-- Why a token that may stand somewhere has no meaning there. -/
inductive Objection where
  | nesting
  | bound
  | facetRange
  | iri (fault : Iri.Fault)
deriving DecidableEq

/-- The wording of an objection. -/
def Objection.message : Objection → String
  | nesting => "the maximum nesting depth of " ++ toString nestingLimit ++ " is exceeded"
  | bound => "cardinality bounds must fit in 32 bits"
  | facetRange => "the integer is out of range for this facet"
  | iri fault => "the IRI is not absolute or is invalid: " ++ fault.message

/-- What is wrong at a place. -/
inductive Cause where
  /-- no token begins at a character -/
  | lexical (fault : Fault) (character : Char)
  /-- a token where only others may stand -/
  | unexpected (found : String) (expected : List Expected)
  /-- a token that means nothing where it stands -/
  | meaningless (found : String) (objection : Objection)
  /-- a name whose prefix is not bound -/
  | unknownPrefix (name : String)
  /-- a backslash in a string literal that begins no escape -/
  | malformedEscape (escape : String)
deriving DecidableEq

/-- A cause and the bytes of the document that it is about. -/
structure Problem where
  extent : Extent
  cause : Cause
deriving DecidableEq

/-- A cause and the place that it is about, as a reader of the document sees it. -/
structure Diagnostic where
  span : Span
  cause : Cause
deriving DecidableEq

/-- Find the place of a problem in the bytes of a document. -/
def Problem.diagnose (problem : Problem) (bytes : List UInt8) : Diagnostic :=
  ⟨problem.extent.span bytes, problem.cause⟩

/-- Alternatives in words: commas between them, and "or" before the last of several. -/
def listAlternatives : List String → String
  | [] => ""
  | [last] => last
  | [first, last] => first ++ " or " ++ last
  | first :: rest => first ++ ", " ++ listAlternatives rest

/-- The text of a cause, which follows the place. -/
def Cause.message : Cause → String
  | lexical fault character => fault.message ++ " (found " ++ Text.quoted character ++ ")"
  | unexpected found expected =>
    "unexpected " ++ found ++
      if expected.isEmpty then ""
      else ", expecting " ++ listAlternatives (expected.map Expected.text)
  | meaningless found objection => objection.message ++ ", found " ++ found
  | unknownPrefix name => "the prefix " ++ name ++ ": has not been declared"
  | malformedEscape escape => "malformed escape sequence '" ++ escape ++ "'"

/-- The part of the reading that finds a cause. -/
def Cause.origin : Cause → String
  | lexical .. => "Lexer"
  | unexpected .. | meaningless .. | unknownPrefix .. | malformedEscape .. => "Parser"

/-- The text of a diagnostic. -/
def Diagnostic.message (diagnostic : Diagnostic) : String :=
  diagnostic.cause.origin ++ " error " ++ diagnostic.span.place ++ ": " ++
    diagnostic.cause.message

end ShExCompact
