import ShExCompact.Document.Statement

/-! The parser of documents with a counter of the brackets around it. The counter alone bounds how
deep the parsers call each other: each bracket raises it when it is opened, if that is still
admitted, and lowers it when it is closed. On the way it is noted what the counter is. -/
namespace ShExCompact

/-- What opens and closes: the definition of a shape, or an expression between parentheses. -/
inductive Bracket where
  | definition
  | parentheses
deriving DecidableEq

/-- What is noted while a document is read. -/
inductive Note where
  /-- a step of the parser, with the counter and the brackets that are open -/
  | step (depth : Nat) (opened : List Bracket)
  /-- the end of a bracket, with the counter before it was opened and after it was closed -/
  | closed (bracket : Bracket) (before after : Nat)
deriving DecidableEq

/-- The counter tells how many brackets are open, which are never too many; a bracket leaves it as
it was. -/
def Note.Right : Note → Prop
  | step depth opened => depth = opened.length ∧ depth ≤ nestingLimit
  | closed _ before after => after = before

/-- What a parser stands in: the context, and the brackets that are open, the innermost first. -/
structure Surroundings where
  context : Context
  opened : List Bracket

/-- The state of the parser, the counter, and the notes, the last one first. -/
structure Tally where
  state : State
  depth : Nat
  notes : List Note

/-- Parsers with a counter. -/
abbrev Counted := ReaderT Surroundings (EStateM Problem Tally)

namespace Counted

open ShExCompact.Parser (Clause next isNext eat eatKeyword expect advance peek unexpected)

/-- One step: a parser in which no bracket is opened. -/
def read (parser : Parser α) : Counted α := fun around tally =>
  let notes := .step tally.depth around.opened :: tally.notes
  match parser around.context tally.state with
  | .ok value state => .ok value ⟨state, tally.depth, notes⟩
  | .error problem state => .error problem ⟨state, tally.depth, notes⟩

/-- The counter as it is now. -/
def depth : Counted Nat := fun _ tally => .ok tally.depth tally

/-- Raise the counter, unless it has come to the limit. -/
def enter : Counted Unit := fun around tally =>
  if nestingLimit ≤ tally.depth then read (Parser.object .nesting) around tally
  else .ok () { tally with depth := tally.depth + 1 }

/-- Lower the counter. -/
def leave : Counted Unit := fun _ tally => .ok () { tally with depth := tally.depth - 1 }

def note (entry : Note) : Counted Unit := fun _ tally =>
  .ok () { tally with notes := entry :: tally.notes }

/-- Read a part that a bracket stands around. -/
def inside (bracket : Bracket) (part : Counted α) : Counted α := fun around =>
  part { around with opened := bracket :: around.opened }

/-- Read a part between the signs of a bracket. After a problem the counter stays as it is. -/
def bracketed (bracket : Bracket) (part : Counted α) : Counted α := do
  let before ← depth
  enter
  let value ← inside bracket part
  leave
  note (.closed bracket before (← depth))
  return value

/-- Collect what a step gives until it gives nothing, `bound` times at most. -/
def collectUpTo (step : Counted (Option α)) : (bound : Nat) → (collected : List α) →
    Counted (List α)
  | 0, collected => pure collected.reverse
  | bound + 1, collected => do
    match ← step with
    | some value => collectUpTo step bound (value :: collected)
    | none => pure collected.reverse

/-- Collect what a step gives until it gives nothing. -/
def collect (step : Counted (Option α)) : Counted (List α) := fun around tally =>
  collectUpTo step (tally.state.lexemes.length + 1) [] around tally

/-- Run a parser if the next token has a property. -/
def whenNext (property : Token → Bool) (parser : Counted α) : Counted (Option α) := do
  if ← read (next property) then return some (← parser) else return none

/-- Read a sign and what follows it, if the sign comes next. -/
def afterSign? (sign : Punct) (parser : Counted α) : Counted (Option α) := do
  if ← read (eat sign) then return some (← parser) else return none

/-! ### Shapes and triple expressions -/

section

variable (inner : Counted TripleExpr)

/-- Read what a shape definition consists of, up to its last brace. -/
def shapeBody : Counted Shape := do
  let clauses ← read (Parser.collect Parser.clause?)
  let shape := clauses.foldl Clause.addTo Shape.empty
  read (expect .openBrace)
  if ← read (eat .closeBrace) then return shape
  else
    let expression ← inner
    read (expect .closeBrace)
    return { shape with expression := some expression }

/-- Read a shape definition, without the actions after it. -/
def shapeDefinition : Counted Shape := bracketed .definition (shapeBody inner)

/-- Read a reference to a shape, or its definition in place. -/
def shapeOrRef : Counted Label := do
  match ← read peek with
  | some (.atPrefixedName space localPart) =>
    let node ← read (Parser.expand space localPart)
    read advance
    return .iri node
  | some (.punct .atSign) =>
    read advance
    read Parser.label
  | token =>
    if token.any Token.isDefinition then
      let shape ← shapeDefinition inner
      read (Parser.declareInline shape)
    else read (unexpected [.sign .atSign, .shapeDefinition])

/-- Read the next alternative of a reference if there is one. -/
def alternative? : Counted (Option Label) := do
  if ← read (eatKeyword .disjunction) then return some (← shapeOrRef inner) else return none

/-- Read a reference to one shape or to any of several. -/
def shapeRef : Counted ShapeRef := do
  let first ← shapeOrRef inner
  let rest ← collect (alternative? inner)
  return if rest.isEmpty then .one first else .any (first :: rest)

/-- Read a value class. -/
def valueClass : Counted ValueClass := do
  match (← read peek).bind Token.nodeKind? with
  | some kind =>
    read advance
    let reference ←
      if kind ≠ .literal then whenNext Token.isShape (shapeRef inner) else pure none
    return .kind kind (← read (Parser.facets kind)) reference
  | none =>
    if ← read (next Token.isIri) then return .datatype (← read Parser.iri)
    else if ← read (isNext .openParen) then return .values (← read Parser.valueSet)
    else if ← read (eat .dot) then return .anything
    else if ← read (next Token.isShape) then return .reference (← shapeRef inner)
    else read (unexpected [.keyword .literal, .keyword .iri, .keyword .nonLiteral,
      .keyword .blankNode, .datatype, .shapeReference, .sign .openParen, .sign .dot])

/-- Read a triple constraint. -/
def tripleConstraint : Counted TripleConstraint := do
  let (inverse, negated) ← read Parser.senseFlags
  let property ← read Parser.predicate
  let value ← valueClass inner
  let annotations ← read (Parser.collect Parser.annotation?)
  let cardinality ← read Parser.cardinality?
  return ⟨property, value, cardinality.getD .zeroOrOne, inverse, negated, annotations,
    ← read Parser.actions⟩

/-- Read an expression and the parentheses around it. -/
def parentheses : Counted TripleExpr := do
  read advance
  let expression ← inner
  read (expect .closeParen)
  return expression

/-- Read an expression between parentheses, and what is put around it. -/
def parenthesized : Counted TripleExpr := do
  let expression ← bracketed .parentheses (parentheses inner)
  let cardinality ← read Parser.cardinality?
  return expression.wrap cardinality (← read Parser.actions)

/-- Read a member of a group after its label. -/
def unlabelled : Counted TripleExpr := do
  if ← read (eat .ampersand) then return .inclusion none (← read Parser.label)
  else if ← read (isNext .openParen) then parenthesized inner
  else return .constraint none (← tripleConstraint inner)

/-- Read a member of a group. -/
def unary : Counted TripleExpr := do
  unless ← read (next Token.isUnary) do
    read (unexpected [.sign .dollar, .sign .ampersand, .sign .openParen, .sign .caret, .sign .bang,
      .predicate])
  if ← read (eat .dollar) then
    let id ← read Parser.label
    return (← unlabelled inner).withId id
  else unlabelled inner

/-- Read a comma, and a member of a group if one follows it. -/
def nextMember? : Counted (Option TripleExpr) := do
  if ← read (eat .comma) then whenNext Token.isUnary (unary inner) else return none

/-- Read a group. -/
def group : Counted TripleExpr := do
  let first ← unary inner
  let rest ← collect (nextMember? inner)
  return TripleExpr.combine (fun members => .group none members none .empty) first rest

/-- Read groups of which at least one has to match. -/
def someOf : Counted TripleExpr := do
  let first ← group inner
  let rest ← collect (afterSign? .doubleBar (group inner))
  return TripleExpr.combine (.someOf none) first rest

/-- Read alternatives of which exactly one has to match. -/
def oneOf : Counted TripleExpr := do
  let first ← someOf inner
  let rest ← collect (afterSign? .bar (someOf inner))
  return TripleExpr.combine (.oneOf none) first rest

end

/-- The parser of expressions, of which at most `calls` call each other; `bottom` stands for the
next one. -/
def levels (bottom : Counted TripleExpr) : (calls : Nat) → Counted TripleExpr
  | 0 => bottom
  | calls + 1 => oneOf (levels bottom calls)

/-! ### Documents -/

section

variable (outermost : Counted TripleExpr)

/-- Read the shape that the start refers to. -/
def startLabel : Counted Label := do
  if ← read (next Token.isLabel) then read Parser.label
  else if ← read (next Token.isReference) then shapeOrRef outermost
  else if ← read (next Token.isDefinition) then
    let shape ← shapeDefinition outermost
    let code ← read Parser.actions
    read (Parser.declareInline { shape with actions := code })
  else read (unexpected [.shapeLabel, .sign .atSign, .shapeDefinition])

/-- Read a declaration of the start. -/
def startDeclaration : Counted Unit := do
  read advance
  read (expect .equals)
  let label ← startLabel outermost
  read (Parser.declare (·.setStart label))

/-- Read a declaration of a shape. -/
def shapeDeclaration : Counted Unit := do
  let isVirtual ← read (eatKeyword .virtual)
  unless ← read (next Token.isLabel) do
    read (unexpected [.keyword .base, .keyword .prefixes, .keyword .start, .keyword .virtual,
      .shapeLabel])
  let label ← read Parser.label
  let shape ← shapeDefinition outermost
  let code ← read Parser.actions
  read (Parser.declare (·.register label { shape with isVirtual := isVirtual, actions := code }))

/-- Read a statement, if the document has not ended. -/
def statement? : Counted (Option Unit) := do
  match ← read peek with
  | none => return none
  | some (.keyword .start) => some <$> startDeclaration outermost
  | some _ =>
    match ← read Parser.directive? with
    | some () => return some ()
    | none => some <$> shapeDeclaration outermost

/-- Read a document. -/
def document : Counted Unit := do
  read Parser.settle
  let _ ← read (Parser.collect Parser.directive?)
  read Parser.startActions
  let _ ← collect (statement? outermost)

end

end Counted

end ShExCompact
