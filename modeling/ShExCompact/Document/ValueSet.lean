import ShExCompact.Document.Term

/-!
Value sets and facets.
-/
namespace ShExCompact.Parser

/-- Read an exclusion if one comes next. -/
def exclusion? : Parser (Option Exclusion) := do
  if ← eat .minus then
    let excluded ← iri
    if ← eat .tilde then return some (.stem excluded) else return some (.iri excluded)
  else return none

/-- Read an IRI, a range of IRIs with a common beginning, or a range of all IRIs. Ranges may leave
some out. -/
def iriRange : Parser ValueSetItem := do
  if ← eat .dot then
    let _ ← eat .tilde
    return .range .wildcard (← collect exclusion?)
  else
    let stem ← iri
    if ← eat .tilde then return .range (.iri stem) (← collect exclusion?) else return .iri stem

/-- Read an item of a value set, or its closing parenthesis. -/
def valueSetItem? : Parser (Option ValueSetItem) := do
  if ← eat .closeParen then return none
  else if ← next Token.isLiteral then return some (.literal (← literal))
  else if ← next fun token => token.isIri || token = .punct .dot then return some (← iriRange)
  else unexpected [.iri, .literal, .sign .dot, .sign .closeParen]

/-- Read a value set. -/
def valueSet : Parser (List ValueSetItem) := do
  expect .openParen
  collect valueSetItem?

/-- What a facet has after its keyword. -/
inductive FacetArgument where
  | string (facet : String → Facet)
  | unsigned (facet : UInt32 → Facet)
  | signed (facet : Int64 → Facet)

/-- The facet of a keyword. Facets of numbers belong to literals only. -/
def facetArgument? (numeric : Bool) : Keyword → Option FacetArgument
  | .pattern => some (.string .pattern)
  | .length => some (.unsigned .length)
  | .minLength => some (.unsigned .minLength)
  | .maxLength => some (.unsigned .maxLength)
  | .minInclusive => if numeric then some (.signed .minInclusive) else none
  | .minExclusive => if numeric then some (.signed .minExclusive) else none
  | .maxInclusive => if numeric then some (.signed .maxInclusive) else none
  | .maxExclusive => if numeric then some (.signed .maxExclusive) else none
  | .totalDigits => if numeric then some (.unsigned .totalDigits) else none
  | .fractionDigits => if numeric then some (.unsigned .fractionDigits) else none
  | _ => none

/-- Read the argument of a facet. -/
def facetValue : FacetArgument → Parser Facet
  | .string facet => facet <$> string
  | .unsigned facet => facet <$> integer Numeral.uint32?
  | .signed facet => facet <$> integer Numeral.int64?

/-- Read a facet if one comes next. -/
def facet? (numeric : Bool) : Parser (Option Facet) := do
  match ← peek with
  | some (.keyword word) =>
    match facetArgument? numeric word with
    | some argument =>
      advance
      return some (← facetValue argument)
    | none => return none
  | _ => return none

/-- The facets that a node kind admits. -/
def facets (kind : NodeKind) : Parser Facets :=
  match kind with
  | .blank => pure .empty
  | .literal => Facets.ofList <$> collect (facet? true)
  | .iri | .nonLiteral => Facets.ofList <$> collect (facet? false)

end ShExCompact.Parser
