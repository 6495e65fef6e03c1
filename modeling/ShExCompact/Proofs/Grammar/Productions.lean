import ShExCompact.Document.Statement
import ShExCompact.Proofs.Grammar.Phrase

/-! The grammar of the compact syntax, production by production. The conditions on terms stand with
their tokens: bound prefixes, valid IRIs, numbers in range, and strings that decode. -/
namespace ShExCompact.Grammar

open Phrase
open ShExCompact.Parser (Clause FacetArgument)

/-! ### Terms -/

/-- An IRI: a reference that the base resolves, or a name with a bound prefix. -/
inductive IriOf (context : Context) (draft : Draft) : Token → Iri → Prop where
  | reference (valid : context.check (draft.resolve text) = .ok ()) :
      IriOf context draft (.iriRef text) ⟨draft.resolve text⟩
  | name (bound : draft.expand? space localPart = some text) (valid : context.check text = .ok ()) :
      IriOf context draft (.prefixedName space localPart) ⟨text⟩

/-- A name after an at sign. -/
inductive AtNameOf (context : Context) (draft : Draft) : Token → Label → Prop where
  | name (bound : draft.expand? space localPart = some text) (valid : context.check text = .ok ()) :
      AtNameOf context draft (.atPrefixedName space localPart) (.iri ⟨text⟩)

inductive LabelOf (context : Context) (draft : Draft) : Token → Label → Prop where
  | blank : LabelOf context draft (.blankNode name) (.blank name)
  | iri (iri : IriOf context draft token value) : LabelOf context draft token (.iri value)

inductive PredicateOf (context : Context) (draft : Draft) : Token → Iri → Prop where
  | type : PredicateOf context draft (.keyword .type) Vocabulary.type
  | iri (iri : IriOf context draft token value) : PredicateOf context draft token value

/-- The reference of a directive, as it is written. -/
inductive ReferenceOf (context : Context) (draft : Draft) : Token → String → Prop where
  | reference : ReferenceOf context draft (.iriRef text) text

/-- The prefix of a directive. -/
inductive PrefixOf (context : Context) (draft : Draft) : Token → String → Prop where
  | name : PrefixOf context draft (.prefixedName space "") space

/-- A string, which has to decode if the reading is strict. -/
inductive StringOf (context : Context) (draft : Draft) : Token → String → Prop where
  | decoded (decodes : Escape.decodeString raw width = .ok value) :
      StringOf context draft (.string raw width) value
  | malformed (lenient : context.strict = false)
      (flawed : Escape.decodeString raw width = .error flaw) :
      StringOf context draft (.string raw width) ""

/-- An integer that fits in the type of a facet; an unsigned one has no minus sign. -/
inductive IntegerOf (convert : String → Option α) (context : Context) (draft : Draft) :
    Token → α → Prop where
  | fits (fits : convert lexeme = some value) :
      IntegerOf convert context draft (.integer lexeme) value

inductive LanguageOf (context : Context) (draft : Draft) : Token → Literal.Suffix → Prop where
  | tag : LanguageOf context draft (.language tag) (.language tag)

/-- A number or truth value. -/
inductive PlainOf (context : Context) (draft : Draft) : Token → String → Prop where
  | plain (plain : Parser.plainLiteral? token = some text) : PlainOf context draft token text

/-- A cardinality, whose bounds have to fit in 32 bits. -/
inductive CardinalityOf (context : Context) (draft : Draft) : Token → Cardinality → Prop where
  | star : CardinalityOf context draft (.punct .star) .zeroOrMore
  | plus : CardinalityOf context draft (.punct .plus) .oneOrMore
  | question : CardinalityOf context draft (.punct .question) .zeroOrOne
  | atLeast (bounds : Parser.rangeBounds lexeme = (least, none))
      (fits : Numeral.uint32? (String.ofList least) = some low) :
      CardinalityOf context draft (.repeatRange lexeme) ⟨low, none⟩
  | between (bounds : Parser.rangeBounds lexeme = (least, some greatest))
      (fits : Numeral.uint32? (String.ofList least) = some low)
      (fits' : Numeral.uint32? (String.ofList greatest) = some high) :
      CardinalityOf context draft (.repeatRange lexeme) ⟨low, some high⟩

inductive CodeOf (context : Context) (draft : Draft) : Token → String → Prop where
  | code : CodeOf context draft (.code lexeme) (Parser.codeContent lexeme)

/-- The keyword of a facet; those of numbers belong to literals. -/
inductive FacetOf (numeric : Bool) (context : Context) (draft : Draft) :
    Token → FacetArgument → Prop where
  | known (known : Parser.facetArgument? numeric keyword = some argument) :
      FacetOf numeric context draft (.keyword keyword) argument

def iri : Phrase Iri := terminal IriOf

def label : Phrase Label := terminal LabelOf

def predicate : Phrase Iri := terminal PredicateOf

def string : Phrase String := terminal StringOf

def integer (convert : String → Option α) : Phrase α := terminal (IntegerOf convert)

/-- literal ::= string (language | '^^' datatype)? | number | truth value -/
def literal : Phrase String :=
  (do
    let value ← string
    let suffix ← terminal LanguageOf <|>
      (do sign .doubleCaret; return .datatype (← iri)) <|> return .plain
    return Literal.text value suffix) <|>
  terminal PlainOf

/-- cardinality ::= '*' | '+' | '?' | REPEAT_RANGE -/
def cardinality : Phrase Cardinality := terminal CardinalityOf

/-- codeDecl ::= '%' iri CODE -/
def action : Phrase (String × String) := do
  sign .percent
  let extension ← iri
  let code ← terminal CodeOf
  return (extension.value, code)

/-- semanticActions ::= codeDecl*; the last code for an extension counts -/
def actions : Phrase Actions := do
  return Dictionary.ofList (← many action)

/-! ### Value sets and facets -/

/-- exclusion ::= '-' iri '~'? -/
def exclusion : Phrase Exclusion := do
  sign .minus
  let excluded ← iri
  let isStem ← mark .tilde
  return if isStem then .stem excluded else .iri excluded

/-- iriRange ::= iri ('~' exclusion*)? | '.' '~'? exclusion* -/
def iriRange : Phrase ValueSetItem :=
  (do
    let stem ← iri
    (do sign .tilde; return .range (.iri stem) (← many exclusion)) <|> return .iri stem) <|>
  do
    sign .dot
    let _ ← mark .tilde
    return .range .wildcard (← many exclusion)

/-- value ::= iriRange | literal -/
def value : Phrase ValueSetItem := iriRange <|> do return .literal (← literal)

/-- valueSet ::= '(' value* ')' -/
def valueSet : Phrase (List ValueSetItem) := do
  sign .openParen
  let values ← many value
  sign .closeParen
  return values

/-- The argument of a facet. -/
def facetValue : FacetArgument → Phrase Facet
  | .string facet => facet <$> string
  | .unsigned facet => facet <$> integer Numeral.uint32?
  | .signed facet => facet <$> integer Numeral.int64?

/-- facet ::= "PATTERN" string | ("LENGTH" | "MINLENGTH" | ...) INTEGER -/
def facet (numeric : Bool) : Phrase Facet := do
  let argument ← terminal (FacetOf numeric)
  facetValue argument

def facets (numeric : Bool) : Phrase Facets := do
  return Facets.ofList (← many (facet numeric))

/-! ### Shapes -/

/-- includeSet ::= '&' shapeLabel+, extraPropertySet ::= "EXTRA" predicate+, or "CLOSED" -/
def clause : Phrase Clause :=
  (do sign .ampersand; return .inherit (← several label)) <|>
  (do word .extra; return .extra (← several predicate)) <|>
  do word .closed; return .closed

/-- shapeDefinition ::= (includeSet | extraPropertySet | "CLOSED")* '{' oneOfShape? '}' -/
def shapeDefinition (inner : Option (Phrase TripleExpr)) : Phrase Shape :=
  within inner fun oneOfShape => do
    let clauses ← many clause
    sign .openBrace
    let expression ← optional oneOfShape
    sign .closeBrace
    return { clauses.foldl Clause.addTo Shape.empty with expression := expression }

def reference : Phrase Label := terminal AtNameOf <|> do sign .atSign; label

/-- shapeOrRef ::= ATPNAME_LN | ATPNAME_NS | '@' shapeLabel | shapeDefinition -/
def shapeOrRef (inner : Option (Phrase TripleExpr)) : Phrase Label :=
  reference <|> do inPlace (← shapeDefinition inner)

/-- groupShapeConstr ::= shapeOrRef ("OR" shapeOrRef)* -/
def shapeRef (inner : Option (Phrase TripleExpr)) : Phrase ShapeRef := do
  match ← separated (word .disjunction) (shapeOrRef inner) with
  | [only] => return .one only
  | labels => return .any labels

/-- valueClass ::= "LITERAL" xsFacet* | ("IRI" | "NONLITERAL") groupShapeConstr? stringFacet*
| "BNODE" groupShapeConstr? | datatype | groupShapeConstr | valueSet | '.' -/
def valueClass (inner : Option (Phrase TripleExpr)) : Phrase ValueClass :=
  (do
    word .literal
    return .kind .literal (← facets true) none) <|>
  (do
    word .iri
    let reference ← optional (shapeRef inner)
    return .kind .iri (← facets false) reference) <|>
  (do
    word .nonLiteral
    let reference ← optional (shapeRef inner)
    return .kind .nonLiteral (← facets false) reference) <|>
  (do
    word .blankNode
    let reference ← optional (shapeRef inner)
    return .kind .blank .empty reference) <|>
  (do return .datatype (← iri)) <|>
  (do return .reference (← shapeRef inner)) <|>
  (do return .values (← valueSet)) <|>
  do sign .dot; return .anything

/-! ### Triple expressions -/

/-- annotation ::= ';' iri (iri | literal) -/
def annotation : Phrase Annotation := do
  sign .semicolon
  let property ← iri
  let object ← (do return .iri (← iri)) <|> do return .literal (← literal)
  return ⟨property, object⟩

/-- senseFlags? ::= ('^' '!'? | '!' '^'?)?; the value is whether '^' and whether '!' stands -/
def senseFlags : Phrase (Bool × Bool) :=
  (do sign .caret; return (true, ← mark .bang)) <|>
  (do sign .bang; return (← mark .caret, true)) <|>
  return (false, false)

/-- tripleConstraint ::= senseFlags? predicate valueClass annotation* cardinality?
semanticActions -/
def tripleConstraint (inner : Option (Phrase TripleExpr)) : Phrase TripleConstraint := do
  let (inverse, negated) ← senseFlags
  let property ← predicate
  let value ← valueClass inner
  let annotations ← many annotation
  let cardinality ← optional cardinality
  return ⟨property, value, cardinality.getD .zeroOrOne, inverse, negated, annotations, ← actions⟩

/-- A cardinality and actions after a parenthesis: without either the expression stands for itself;
a group that has none of what is given takes them; any other expression becomes the member of a
group that has them. -/
inductive Wrapped (expression : TripleExpr) (cardinality : Option Cardinality) (code : Actions) :
    TripleExpr → Prop where
  | itself (noCardinality : cardinality = none) (noCode : code.isEmpty) :
      Wrapped expression cardinality code expression
  | merged (some : ¬ (cardinality = none ∧ code.isEmpty))
      (isGroup : expression = .group held members cardinality' code')
      (free : cardinality = none ∨ cardinality' = none) (free' : code.isEmpty ∨ code'.isEmpty) :
      Wrapped expression cardinality code
        (.group held members (cardinality.or cardinality') (if code.isEmpty then code' else code))
  | around (some : ¬ (cardinality = none ∧ code.isEmpty))
      (taken : ∀ held members cardinality' code',
        expression = .group held members cardinality' code' →
          ¬ ((cardinality = none ∨ cardinality' = none) ∧ (code.isEmpty ∨ code'.isEmpty))) :
      Wrapped expression cardinality code (.group none [expression] cardinality code)

/-- encapsulatedShape ::= '(' oneOfShape ')' cardinality? semanticActions -/
def encapsulated (inner : Option (Phrase TripleExpr)) : Phrase TripleExpr :=
  within inner fun oneOfShape => do
    sign .openParen
    let expression ← oneOfShape
    sign .closeParen
    let cardinality ← optional cardinality
    let code ← actions
    choose (Wrapped expression cardinality code)

/-- include ::= '&' shapeLabel -/
def inclusion : Phrase TripleExpr := do
  sign .ampersand
  return .inclusion none (← label)

def unlabelled (inner : Option (Phrase TripleExpr)) : Phrase TripleExpr :=
  (do return .constraint none (← tripleConstraint inner)) <|> inclusion <|> encapsulated inner

/-- unaryShape ::= ('$' tripleExprLabel)? (tripleConstraint | include | encapsulatedShape) -/
def unary (inner : Option (Phrase TripleExpr)) : Phrase TripleExpr := do
  let id ← optional do
    sign .dollar
    label
  let expression ← unlabelled inner
  return match id with
    | some id => expression.withId id
    | none => expression

/-- One operand stands for itself, several are combined. -/
def combined (build : List TripleExpr → TripleExpr) : List TripleExpr → TripleExpr
  | [only] => only
  | operands => build operands

/-- groupShape ::= unaryShape (',' unaryShape)* ','? -/
def group (inner : Option (Phrase TripleExpr)) : Phrase TripleExpr := do
  let members ← separated (sign .comma) (unary inner)
  let _ ← mark .comma
  return combined (fun members => .group none members none .empty) members

/-- someOfShape ::= groupShape ("||" groupShape)* -/
def someOf (inner : Option (Phrase TripleExpr)) : Phrase TripleExpr := do
  return combined (.someOf none) (← separated (sign .doubleBar) (group inner))

/-- oneOfShape ::= someOfShape ('|' someOfShape)* -/
def oneOf (inner : Option (Phrase TripleExpr)) : Phrase TripleExpr := do
  return combined (.oneOf none) (← separated (sign .bar) (someOf inner))

/-- The expressions inside of one more definition or parenthesis, of which at most `left` may still
be opened. -/
def nested : (left : Nat) → Option (Phrase TripleExpr)
  | 0 => none
  | left + 1 => some (oneOf (nested left))

/-! ### Documents -/

/-- The expressions of a definition that stands in no other. -/
def outermost : Option (Phrase TripleExpr) := nested nestingLimit

/-- directive ::= "BASE" IRIREF | "PREFIX" PNAME_NS IRIREF -/
def directive : Phrase Unit :=
  (do
    word .base
    let reference ← terminal ReferenceOf
    change (·.declare (·.declareBase reference)) (.base reference)) <|>
  do
    word .prefixes
    let name ← terminal PrefixOf
    let reference ← terminal ReferenceOf
    change (·.declare (·.declarePrefix name reference)) (.prefixes name reference)

def startLabel : Phrase Label :=
  label <|> reference <|> do
    let shape ← shapeDefinition outermost
    let code ← actions
    inPlace { shape with actions := code }

/-- start ::= "start" '=' (shapeLabel | ATPNAME_LN | ATPNAME_NS | '@' shapeLabel | shapeDefinition
semanticActions) -/
def start : Phrase Unit := do
  word .start
  sign .equals
  let label ← startLabel
  change (·.declare (·.setStart label)) (.start label)

/-- shape ::= "VIRTUAL"? shapeLabel shapeDefinition semanticActions -/
def shape : Phrase Unit := do
  let isVirtual ← markWord .virtual
  let label ← label
  let shape ← shapeDefinition outermost
  let code ← actions
  let declared := { shape with isVirtual := isVirtual, actions := code }
  change (·.stated label declared) (.stated label declared)

/-- notStartAction ::= start | shape -/
def notStartAction : Phrase Unit := start <|> shape

/-- statement ::= directive | notStartAction -/
def statement : Phrase Unit := directive <|> notStartAction

/-- startActions ::= codeDecl+ -/
def startActions : Phrase Unit := do
  let code := Dictionary.ofList (← several action)
  change (·.declare (·.setStartActions code)) (.startActions code)

/-- shexDoc ::= directive* ((notStartAction | startActions) statement*)? EOF -/
def document : Phrase Unit := do
  let _ ← many directive
  (do
    notStartAction <|> startActions
    let _ ← many statement) <|>
  return ()

end ShExCompact.Grammar
