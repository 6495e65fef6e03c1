import ShExCompact.Document.Parser
import ShExCompact.Literal

/-!
The terms of a document: IRIs, labels, predicates, strings, literals, cardinalities and actions.
A token is stepped over once its term is built, so that a problem is found at the token.
-/
namespace ShExCompact

namespace Token

/-- Tokens of IRIs. -/
def isIri : Token → Bool
  | iriRef _ | prefixedName .. => true
  | _ => false

/-- Tokens that begin a label. -/
def isLabel : Token → Bool
  | blankNode _ => true
  | token => token.isIri

/-- Tokens of predicates. -/
def isPredicate : Token → Bool
  | keyword .type => true
  | token => token.isIri

/-- Tokens that begin a literal. -/
def isLiteral : Token → Bool
  | string .. | integer _ | decimal _ | double _ => true
  | keyword .truth | keyword .falsehood => true
  | _ => false

end Token

namespace Parser

/-- An IRI with a given text, which the next token has to denote. -/
def absolute (text : String) : Parser Iri := do
  match (← read).check text with
  | .ok () => return ⟨text⟩
  | .error fault => object (.iri fault)

/-- The IRI of the prefixed name that comes next. -/
def expand (space localPart : String) : Parser Iri := do
  match (← draft).expand? space localPart with
  | some text => absolute text
  | none => unknownPrefix space

/-- Read an IRI. -/
def iri : Parser Iri := do
  let value ← match ← peek with
    | some (.iriRef text) => do absolute ((← draft).resolve text)
    | some (.prefixedName space localPart) => expand space localPart
    | _ => unexpected [.iri]
  advance
  return value

/-- Read the reference of a directive, as it is written. -/
def iriRef : Parser String := do
  match ← peek with
  | some (.iriRef text) =>
    advance
    return text
  | _ => unexpected [.iriRef]

/-- Read a label. -/
def label : Parser Label := do
  match ← peek with
  | some (.blankNode id) =>
    advance
    return .blank id
  | token => if token.any Token.isIri then return .iri (← iri) else unexpected [.shapeLabel]

/-- Read a predicate. -/
def predicate : Parser Iri := do
  if ← eatKeyword .type then return Vocabulary.type
  else if ← next Token.isIri then iri
  else unexpected [.predicate]

/-- The problem of a malformed escape in the token that comes next. -/
def malformedEscape (flaw : Escape.Flaw) : Parser α := fun context state =>
  let start := (here context state).start + flaw.offset
  .error ⟨⟨start, start + Text.width flaw.text⟩,
    .malformedEscape (String.ofList flaw.text)⟩ state

/-- Read a string. One with a malformed escape is empty, unless the reading is strict. -/
def string : Parser String := do
  match ← peek with
  | some (.string raw quoteWidth) =>
    let value ← match Escape.decodeString raw quoteWidth with
      | .ok value => pure value
      | .error flaw => do if (← read).strict then malformedEscape flaw else pure ""
    advance
    return value
  | _ => unexpected [.string]

/-- Read the integer of a facet, whose range `convert` knows. -/
def integer (convert : String → Option α) : Parser α := do
  match ← peek with
  | some (.integer lexeme) =>
    let value ← match convert lexeme with
      | some value => pure value
      | none => object .facetRange
    advance
    return value
  | _ => unexpected [.integer]

/-- Read what may follow a string in a literal. -/
def literalSuffix : Parser Literal.Suffix := do
  match ← peek with
  | some (.language tag) =>
    advance
    return .language tag
  | some (.punct .doubleCaret) =>
    advance
    return .datatype (← iri)
  | _ => return .plain

/-- The text of a literal of one token, strings apart. -/
def plainLiteral? : Token → Option String
  | .integer lexeme => some (Literal.canonical lexeme Vocabulary.integer)
  | .decimal lexeme => some (Literal.canonical lexeme Vocabulary.decimal)
  | .double lexeme => some (Literal.canonical lexeme Vocabulary.double)
  | .keyword .truth => some (Literal.ofBool true)
  | .keyword .falsehood => some (Literal.ofBool false)
  | _ => none

/-- Read a literal as its canonical text. -/
def literal : Parser String := do
  match ← peek with
  | some (.string ..) =>
    let value ← string
    return Literal.text value (← literalSuffix)
  | token =>
    match token.bind plainLiteral? with
    | some text =>
      advance
      return text
    | none => unexpected [.literal]

/-- The bounds that a range states between its braces: one for both, a least one alone or before a
star, or both. -/
def rangeBounds (lexeme : String) : List Char × Option (List Char) :=
  let inner := lexeme.toList.tail.dropLast
  let least := inner.takeWhile (· ≠ ',')
  match inner.dropWhile (· ≠ ',') with
  | [] => (least, some least)
  | _ :: greatest =>
    (least, if greatest = [] ∨ greatest = ['*'] then none else some greatest)

/-- The value of a bound, which has to fit in 32 bits. -/
def bound (digits : List Char) : Parser UInt32 :=
  match Numeral.uint32? (String.ofList digits) with
  | some value => pure value
  | none => object .bound

/-- The cardinality of the range that comes next. -/
def range (lexeme : String) : Parser Cardinality := do
  let (least, greatest) := rangeBounds lexeme
  let least ← bound least
  match greatest with
  | some greatest => return ⟨least, some (← bound greatest)⟩
  | none => return ⟨least, none⟩

/-- Read a cardinality if one comes next. -/
def cardinality? : Parser (Option Cardinality) := do
  let value ← match ← peek with
    | some (.punct .star) => pure (some Cardinality.zeroOrMore)
    | some (.punct .plus) => pure (some Cardinality.oneOrMore)
    | some (.punct .question) => pure (some Cardinality.zeroOrOne)
    | some (.repeatRange lexeme) => some <$> range lexeme
    | _ => pure none
  if value.isSome then advance
  return value

/-- The code of a code block, without the brace in front and the percent sign and brace at
the end. -/
def codeContent (lexeme : String) : String :=
  String.ofList lexeme.toList.tail.dropLast.dropLast

/-- Read an action if one comes next. -/
def action? : Parser (Option (String × String)) := do
  if ← eat .percent then
    let extension ← iri
    match ← peek with
    | some (.code lexeme) =>
      advance
      return some (extension.value, codeContent lexeme)
    | _ => unexpected [.codeBlock]
  else return none

/-- Read actions; the last one for an extension counts. -/
def actions : Parser Actions := do
  return Dictionary.ofList (← collect action?)

end Parser

end ShExCompact
