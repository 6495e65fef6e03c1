/-!
The keywords of the compact syntax.
-/
namespace ShExCompact

inductive Keyword where
  | base
  | prefixes
  | start
  | virtual
  | closed
  | extra
  | literal
  | iri
  | blankNode
  | nonLiteral
  | pattern
  | length
  | minLength
  | maxLength
  | minInclusive
  | minExclusive
  | maxInclusive
  | maxExclusive
  | totalDigits
  | fractionDigits
  | conjunction
  | disjunction
  | type
  | truth
  | falsehood
deriving DecidableEq

namespace Keyword

/-- The spelling of a keyword. -/
def text : Keyword → String
  | base => "BASE"
  | prefixes => "PREFIX"
  | start => "start"
  | virtual => "VIRTUAL"
  | closed => "CLOSED"
  | extra => "EXTRA"
  | literal => "LITERAL"
  | iri => "IRI"
  | blankNode => "BNODE"
  | nonLiteral => "NONLITERAL"
  | pattern => "PATTERN"
  | length => "LENGTH"
  | minLength => "MINLENGTH"
  | maxLength => "MAXLENGTH"
  | minInclusive => "MININCLUSIVE"
  | minExclusive => "MINEXCLUSIVE"
  | maxInclusive => "MAXINCLUSIVE"
  | maxExclusive => "MAXEXCLUSIVE"
  | totalDigits => "TOTALDIGITS"
  | fractionDigits => "FRACTIONDIGITS"
  | conjunction => "AND"
  | disjunction => "OR"
  | type => "a"
  | truth => "true"
  | falsehood => "false"

/-- The keywords that are read in any case. -/
def anyCase : List Keyword :=
  [base, prefixes, start, virtual, closed, extra, literal, iri, blankNode, nonLiteral, pattern,
    length, minLength, maxLength, minInclusive, minExclusive, maxInclusive, maxExclusive,
    totalDigits, fractionDigits, conjunction, disjunction]

/-- The keyword that a word spells. The abbreviation of the type predicate and the truth values
are read in lower case only. -/
def ofWord? (word : String) : Option Keyword :=
  if word = type.text then some type
  else if word = truth.text then some truth
  else if word = falsehood.text then some falsehood
  else anyCase.find? fun keyword => keyword.text.toLower = word.toLower

end Keyword

end ShExCompact
