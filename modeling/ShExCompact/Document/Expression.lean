import ShExCompact.Document.ValueSet

/-!
Shape definitions and triple expressions. Both contain each other. Every parser here takes a
parser for the expressions one level deeper, `inner`, which is none at the nesting limit; `levels`
ties the knot.
-/
namespace ShExCompact

namespace Token

/-- Tokens that begin a shape definition. -/
def isDefinition : Token → Bool
  | punct .ampersand | punct .openBrace | keyword .extra | keyword .closed => true
  | _ => false

/-- Tokens that begin a reference to a shape that stands elsewhere. -/
def isReference : Token → Bool
  | atPrefixedName .. | punct .atSign => true
  | _ => false

/-- Tokens that begin a reference to a shape, or its definition in place. -/
def isShape (token : Token) : Bool := token.isReference || token.isDefinition

/-- Tokens that begin a member of a group. -/
def isUnary : Token → Bool
  | punct .dollar | punct .ampersand | punct .openParen | punct .caret | punct .bang => true
  | token => token.isPredicate

/-- The node kind of a keyword. -/
def nodeKind? : Token → Option NodeKind
  | keyword .literal => some .literal
  | keyword .iri => some .iri
  | keyword .nonLiteral => some .nonLiteral
  | keyword .blankNode => some .blank
  | _ => none

end Token

namespace TripleExpr

/-- One expression stands for itself, several are combined. -/
def combine (build : List TripleExpr → TripleExpr) (first : TripleExpr) (rest : List TripleExpr) :
    TripleExpr :=
  if rest.isEmpty then first else build (first :: rest)

/-- Put a cardinality and actions around an expression. They go into a group that has none of
what is given; else a group of one member carries them. -/
def wrap (inner : TripleExpr) (cardinality : Option Cardinality) (actions : Actions) :
    TripleExpr :=
  if cardinality.isNone && actions.isEmpty then inner
  else match inner with
    | group id members cardinality' actions' =>
      if (cardinality.isNone || cardinality'.isNone) && (actions.isEmpty || actions'.isEmpty) then
        group id members (cardinality.or cardinality')
          (if actions.isEmpty then actions' else actions)
      else group none [inner] cardinality actions
    | _ => group none [inner] cardinality actions

end TripleExpr

namespace Parser

/-- A part of a shape definition before its brace. -/
inductive Clause where
  | inherit (labels : List Label)
  | extra (predicates : List Iri)
  | closed

/-- Read a part of a shape definition if one comes next. -/
def clause? : Parser (Option Clause) := do
  if ← eat .ampersand then
    let first ← label
    return some (.inherit (first :: (← collect (whenNext Token.isLabel label))))
  else if ← eatKeyword .extra then
    let first ← predicate
    return some (.extra (first :: (← collect (whenNext Token.isPredicate predicate))))
  else if ← eatKeyword .closed then return some .closed
  else return none

/-- Add a part to a shape. -/
def Clause.addTo (shape : Shape) : Clause → Shape
  | inherit labels => { shape with inherit := shape.inherit ++ labels }
  | extra predicates => { shape with extra := shape.extra ++ predicates }
  | closed => { shape with closed := true }

/-- The parser one level deeper, if the nesting admits one. -/
def deeper (inner : Option (Parser α)) : Parser (Parser α) :=
  match inner with
  | some parser => pure parser
  | none => object .nesting

/-- Read a shape definition, without the actions after it. -/
def shapeDefinition (inner : Option (Parser TripleExpr)) : Parser Shape := do
  let body ← deeper inner
  let clauses ← collect clause?
  let shape := clauses.foldl Clause.addTo Shape.empty
  expect .openBrace
  if ← eat .closeBrace then return shape
  else
    let expression ← body
    expect .closeBrace
    return { shape with expression := some expression }

/-- Declare a shape without a label of its own under a generated one. -/
def declareInline (shape : Shape) : Parser Label := fun _ state =>
  let (label, draft) := state.draft.freshLabel
  .ok label { state with draft := draft.register label shape }

/-- Read a reference to a shape, or its definition in place. -/
def shapeOrRef (inner : Option (Parser TripleExpr)) : Parser Label := do
  match ← peek with
  | some (.atPrefixedName space localPart) =>
    let node ← expand space localPart
    advance
    return .iri node
  | some (.punct .atSign) =>
    advance
    label
  | token =>
    if token.any Token.isDefinition then declareInline (← shapeDefinition inner)
    else unexpected [.sign .atSign, .shapeDefinition]

/-- Read the next alternative of a reference if there is one. -/
def alternative? (inner : Option (Parser TripleExpr)) : Parser (Option Label) := do
  if ← eatKeyword .disjunction then return some (← shapeOrRef inner) else return none

/-- Read a reference to one shape or to any of several. -/
def shapeRef (inner : Option (Parser TripleExpr)) : Parser ShapeRef := do
  let first ← shapeOrRef inner
  let rest ← collect (alternative? inner)
  return if rest.isEmpty then .one first else .any (first :: rest)

/-- Read a value class. -/
def valueClass (inner : Option (Parser TripleExpr)) : Parser ValueClass := do
  match (← peek).bind Token.nodeKind? with
  | some kind =>
    advance
    let reference ←
      if kind ≠ .literal then whenNext Token.isShape (shapeRef inner) else pure none
    return .kind kind (← facets kind) reference
  | none =>
    if ← next Token.isIri then return .datatype (← iri)
    else if ← isNext .openParen then return .values (← valueSet)
    else if ← eat .dot then return .anything
    else if ← next Token.isShape then return .reference (← shapeRef inner)
    else unexpected [.keyword .literal, .keyword .iri, .keyword .nonLiteral, .keyword .blankNode,
      .datatype, .shapeReference, .sign .openParen, .sign .dot]

/-- Read an annotation if one comes next. -/
def annotation? : Parser (Option Annotation) := do
  if ← eat .semicolon then
    let property ← iri
    if ← next Token.isIri then return some ⟨property, .iri (← iri)⟩
    else if ← next Token.isLiteral then return some ⟨property, .literal (← literal)⟩
    else unexpected [.iri, .literal]
  else return none

/-- Read the signs of an inverse and of a negated constraint, in either order. -/
def senseFlags : Parser (Bool × Bool) := do
  if ← eat .caret then return (true, ← eat .bang)
  else if ← eat .bang then return (← eat .caret, true)
  else return (false, false)

/-- Read a triple constraint. -/
def tripleConstraint (inner : Option (Parser TripleExpr)) : Parser TripleConstraint := do
  let (inverse, negated) ← senseFlags
  let property ← predicate
  let value ← valueClass inner
  let annotations ← collect annotation?
  let cardinality ← cardinality?
  return ⟨property, value, cardinality.getD .zeroOrOne, inverse, negated, annotations, ← actions⟩

/-- Read an expression between parentheses, and what is put around it. -/
def parenthesized (inner : Option (Parser TripleExpr)) : Parser TripleExpr := do
  let body ← deeper inner
  advance
  let expression ← body
  expect .closeParen
  let cardinality ← cardinality?
  return expression.wrap cardinality (← actions)

/-- Read a member of a group after its label. -/
def unlabelled (inner : Option (Parser TripleExpr)) : Parser TripleExpr := do
  if ← eat .ampersand then return .inclusion none (← label)
  else if ← isNext .openParen then parenthesized inner
  else return .constraint none (← tripleConstraint inner)

/-- Read a member of a group. -/
def unary (inner : Option (Parser TripleExpr)) : Parser TripleExpr := do
  unless ← next Token.isUnary do
    unexpected [.sign .dollar, .sign .ampersand, .sign .openParen, .sign .caret, .sign .bang,
      .predicate]
  if ← eat .dollar then
    let id ← label
    return (← unlabelled inner).withId id
  else unlabelled inner

/-- Read a comma, and a member of a group if one follows it. -/
def nextMember? (inner : Option (Parser TripleExpr)) : Parser (Option TripleExpr) := do
  if ← eat .comma then whenNext Token.isUnary (unary inner) else return none

/-- Read a group. -/
def group (inner : Option (Parser TripleExpr)) : Parser TripleExpr := do
  let first ← unary inner
  let rest ← collect (nextMember? inner)
  return TripleExpr.combine (fun members => .group none members none .empty) first rest

/-- Read a sign and what follows it, if the sign comes next. -/
def afterSign? (sign : Punct) (parser : Parser α) : Parser (Option α) := do
  if ← eat sign then return some (← parser) else return none

/-- Read groups of which at least one has to match. -/
def someOf (inner : Option (Parser TripleExpr)) : Parser TripleExpr := do
  let first ← group inner
  let rest ← collect (afterSign? .doubleBar (group inner))
  return TripleExpr.combine (.someOf none) first rest

/-- Read alternatives of which exactly one has to match. -/
def oneOf (inner : Option (Parser TripleExpr)) : Parser TripleExpr := do
  let first ← someOf inner
  let rest ← collect (afterSign? .bar (someOf inner))
  return TripleExpr.combine (.oneOf none) first rest

/-- The parser for the expressions inside of one more bracket, if so many brackets may still be
opened. -/
def levels : (left : Nat) → Option (Parser TripleExpr)
  | 0 => none
  | left + 1 => some (oneOf (levels left))

end Parser

end ShExCompact
