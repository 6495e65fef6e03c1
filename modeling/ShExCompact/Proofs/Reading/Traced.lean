import ShExCompact.Document.Statement

/-! The parser of documents with a trace. It is noted when the parser steps to the next token, when
a loop goes on with one more round, and which parts of the grammar call each other. A loop that
comes to its bound is noted as well, and the bounds may be higher than those of the parser. -/
namespace ShExCompact

/-- The parts of the grammar that call each other. -/
inductive Production where
  | oneOf | someOf | group | unary | constraint | valueClass | shapeRef | shapeOrRef | definition
deriving DecidableEq

/-- The call of a part of the grammar, with how many tokens were left. -/
structure Call where
  production : Production
  left : Nat
deriving DecidableEq

/-- What is noted while a document is read. -/
inductive Event where
  /-- a step to the next token, which is found unless the tokens are used up -/
  | fetched (found : Option Lexeme)
  /-- a round of a loop that goes on, with how many tokens were left before it and after it -/
  | round (before after : Nat)
  /-- a call, and the calls that it is made in, the innermost first -/
  | called (call : Call) (outer : List Call)
  /-- the end of a loop that was not let go on -/
  | cut
deriving DecidableEq

/-- A round uses up a token, and so does what comes back to a part of the grammar that is still
being read. Loops end by themselves. -/
def Event.Right : Event → Prop
  | fetched _ => True
  | round before after => after < before
  | called call outer =>
    ∀ earlier ∈ outer, earlier.production = call.production → call.left < earlier.left
  | cut => False

/-- What a parser stands in: the context, the calls that have not ended, and how many rounds more
than the tokens demand a loop is let go on. -/
structure Standpoint where
  context : Context
  calls : List Call
  more : Nat

/-- The state of the parser, and what was noted, the last first. -/
structure Trace where
  state : State
  events : List Event

/-- What a step to the next token has found. -/
def Event.found? : Event → Option (Option Lexeme)
  | fetched found => some found
  | _ => none

/-- What the steps to the next token have found, in order. -/
def Trace.fetched (trace : Trace) : List (Option Lexeme) :=
  (trace.events.filterMap Event.found?).reverse

/-- What there is to be found: the tokens, and then their end. -/
def stream (lexemes : List Lexeme) : List (Option Lexeme) := lexemes.map some ++ [none]

/-- Parsers with a trace. -/
abbrev Traced := ReaderT Standpoint (EStateM Problem Trace)

namespace Traced

open ShExCompact.Parser (Clause FacetArgument absolute declare declareInline draft expand
  facetArgument? malformedEscape next isNext object peek plainLiteral? settle unexpected)

/-- What a parser does that steps to no other token. -/
def look (parser : Parser α) : Traced α := fun standpoint trace =>
  match parser standpoint.context trace.state with
  | .ok value state => .ok value ⟨state, trace.events⟩
  | .error problem state => .error problem ⟨state, trace.events⟩

def note (event : Event) : Traced Unit := fun _ trace =>
  .ok () ⟨trace.state, event :: trace.events⟩

/-- How many tokens are left. -/
def left : Traced Nat := fun _ trace => .ok trace.state.lexemes.length trace

/-- Step over the next token. -/
def advance : Traced Unit := fun standpoint trace =>
  look Parser.advance standpoint
    ⟨trace.state, .fetched trace.state.lexemes.tail.head? :: trace.events⟩

/-- Read a part of the grammar. -/
def call (production : Production) (part : Traced α) : Traced α := fun standpoint trace =>
  let call : Call := ⟨production, trace.state.lexemes.length⟩
  part { standpoint with calls := call :: standpoint.calls }
    ⟨trace.state, .called call standpoint.calls :: trace.events⟩

/-- One round of a loop that goes on. -/
def round (part : Traced α) : Traced α := do
  let before ← left
  let value ← part
  note (.round before (← left))
  return value

/-- Collect what a step gives until it gives nothing, `bound` times at most. -/
def collectUpTo (step : Traced (Option α)) : (bound : Nat) → (collected : List α) →
    Traced (List α)
  | 0, collected => do
    note .cut
    return collected.reverse
  | bound + 1, collected => do
    let before ← left
    match ← step with
    | some value =>
      note (.round before (← left))
      collectUpTo step bound (value :: collected)
    | none => return collected.reverse

/-- Collect what a step gives until it gives nothing. -/
def collect (step : Traced (Option α)) : Traced (List α) := fun standpoint trace =>
  collectUpTo step (trace.state.lexemes.length + 1 + standpoint.more) [] standpoint trace

/-- Step over a token if it comes next; the answer is whether it did. -/
def eatToken (token : Token) : Traced Bool := do
  if ← look (next (· = token)) then
    advance
    return true
  else return false

/-- Step over a sign if it comes next. -/
def eat (sign : Punct) : Traced Bool := eatToken (.punct sign)

/-- Step over a keyword if it comes next. -/
def eatKeyword (word : Keyword) : Traced Bool := eatToken (.keyword word)

/-- Step over a sign that has to come next. -/
def expect (sign : Punct) : Traced Unit := do
  unless ← eat sign do look (unexpected [.sign sign])

/-- Run a parser if the next token has a property. -/
def whenNext (property : Token → Bool) (parser : Traced α) : Traced (Option α) := do
  if ← look (next property) then return some (← parser) else return none

/-- Read a sign and what follows it, if the sign comes next. -/
def afterSign? (sign : Punct) (parser : Traced α) : Traced (Option α) := do
  if ← eat sign then return some (← parser) else return none

/-! ### Terms -/

/-- Read an IRI. -/
def iri : Traced Iri := do
  let value ← match ← look peek with
    | some (.iriRef text) => do look (absolute ((← look draft).resolve text))
    | some (.prefixedName space localPart) => look (expand space localPart)
    | _ => look (unexpected [.iri])
  advance
  return value

/-- Read the reference of a directive, as it is written. -/
def iriRef : Traced String := do
  match ← look peek with
  | some (.iriRef text) =>
    advance
    return text
  | _ => look (unexpected [.iriRef])

/-- Read a label. -/
def label : Traced Label := do
  match ← look peek with
  | some (.blankNode id) =>
    advance
    return .blank id
  | token => if token.any Token.isIri then return .iri (← iri) else look (unexpected [.shapeLabel])

/-- Read a predicate. -/
def predicate : Traced Iri := do
  if ← eatKeyword .type then return Vocabulary.type
  else if ← look (next Token.isIri) then iri
  else look (unexpected [.predicate])

/-- Read a string. -/
def string : Traced String := do
  match ← look peek with
  | some (.string raw quoteWidth) =>
    let value ← match Escape.decodeString raw quoteWidth with
      | .ok value => pure value
      | .error flaw => do
        if (← look read).strict then look (malformedEscape flaw) else pure ""
    advance
    return value
  | _ => look (unexpected [.string])

/-- Read the integer of a facet, whose range `convert` knows. -/
def integer (convert : String → Option α) : Traced α := do
  match ← look peek with
  | some (.integer lexeme) =>
    let value ← match convert lexeme with
      | some value => pure value
      | none => look (object .facetRange)
    advance
    return value
  | _ => look (unexpected [.integer])

/-- Read what may follow a string in a literal. -/
def literalSuffix : Traced Literal.Suffix := do
  match ← look peek with
  | some (.language tag) =>
    advance
    return .language tag
  | some (.punct .doubleCaret) =>
    advance
    return .datatype (← iri)
  | _ => return .plain

/-- Read a literal as its canonical text. -/
def literal : Traced String := do
  match ← look peek with
  | some (.string ..) =>
    let value ← string
    return Literal.text value (← literalSuffix)
  | token =>
    match token.bind plainLiteral? with
    | some text =>
      advance
      return text
    | none => look (unexpected [.literal])

/-- Read a cardinality if one comes next. -/
def cardinality? : Traced (Option Cardinality) := do
  let value ← match ← look peek with
    | some (.punct .star) => pure (some Cardinality.zeroOrMore)
    | some (.punct .plus) => pure (some Cardinality.oneOrMore)
    | some (.punct .question) => pure (some Cardinality.zeroOrOne)
    | some (.repeatRange lexeme) => look (some <$> Parser.range lexeme)
    | _ => pure none
  if value.isSome then advance
  return value

/-- Read an action if one comes next. -/
def action? : Traced (Option (String × String)) := do
  if ← eat .percent then
    let extension ← iri
    match ← look peek with
    | some (.code lexeme) =>
      advance
      return some (extension.value, Parser.codeContent lexeme)
    | _ => look (unexpected [.codeBlock])
  else return none

/-- Read actions; the last one for an extension counts. -/
def actions : Traced Actions := do
  return Dictionary.ofList (← collect action?)

/-! ### Value sets and facets -/

/-- Read an exclusion if one comes next. -/
def exclusion? : Traced (Option Exclusion) := do
  if ← eat .minus then
    let excluded ← iri
    if ← eat .tilde then return some (.stem excluded) else return some (.iri excluded)
  else return none

/-- Read an IRI, a range of IRIs with a common beginning, or a range of all IRIs. -/
def iriRange : Traced ValueSetItem := do
  if ← eat .dot then
    let _ ← eat .tilde
    return .range .wildcard (← collect exclusion?)
  else
    let stem ← iri
    if ← eat .tilde then return .range (.iri stem) (← collect exclusion?) else return .iri stem

/-- Read an item of a value set, or its closing parenthesis. -/
def valueSetItem? : Traced (Option ValueSetItem) := do
  if ← eat .closeParen then return none
  else if ← look (next Token.isLiteral) then return some (.literal (← literal))
  else if ← look (next fun token => token.isIri || token = .punct .dot) then
    return some (← iriRange)
  else look (unexpected [.iri, .literal, .sign .dot, .sign .closeParen])

/-- Read a value set. -/
def valueSet : Traced (List ValueSetItem) := do
  expect .openParen
  collect valueSetItem?

/-- Read the argument of a facet. -/
def facetValue : FacetArgument → Traced Facet
  | .string facet => facet <$> string
  | .unsigned facet => facet <$> integer Numeral.uint32?
  | .signed facet => facet <$> integer Numeral.int64?

/-- Read a facet if one comes next. -/
def facet? (numeric : Bool) : Traced (Option Facet) := do
  match ← look peek with
  | some (.keyword word) =>
    match facetArgument? numeric word with
    | some argument =>
      advance
      return some (← facetValue argument)
    | none => return none
  | _ => return none

/-- The facets that a node kind admits. -/
def facets (kind : NodeKind) : Traced Facets :=
  match kind with
  | .blank => pure .empty
  | .literal => Facets.ofList <$> collect (facet? true)
  | .iri | .nonLiteral => Facets.ofList <$> collect (facet? false)

/-! ### Shapes and triple expressions -/

/-- Read a part of a shape definition if one comes next. -/
def clause? : Traced (Option Clause) := do
  if ← eat .ampersand then
    let first ← label
    return some (.inherit (first :: (← collect (whenNext Token.isLabel label))))
  else if ← eatKeyword .extra then
    let first ← predicate
    return some (.extra (first :: (← collect (whenNext Token.isPredicate predicate))))
  else if ← eatKeyword .closed then return some .closed
  else return none

/-- The parser one level deeper, if the nesting admits one. -/
def deeper (inner : Option (Traced α)) : Traced (Traced α) :=
  match inner with
  | some parser => pure parser
  | none => look (object .nesting)

section

variable (inner : Option (Traced TripleExpr))

/-- Read a shape definition, without the actions after it. -/
def shapeDefinition : Traced Shape := call .definition do
  let body ← deeper inner
  let clauses ← collect clause?
  let shape := clauses.foldl Clause.addTo Shape.empty
  expect .openBrace
  if ← eat .closeBrace then return shape
  else
    let expression ← body
    expect .closeBrace
    return { shape with expression := some expression }

/-- Read a reference to a shape, or its definition in place. -/
def shapeOrRef : Traced Label := call .shapeOrRef do
  match ← look peek with
  | some (.atPrefixedName space localPart) =>
    let node ← look (expand space localPart)
    advance
    return .iri node
  | some (.punct .atSign) =>
    advance
    label
  | token =>
    if token.any Token.isDefinition then
      let shape ← shapeDefinition inner
      look (declareInline shape)
    else look (unexpected [.sign .atSign, .shapeDefinition])

/-- Read the next alternative of a reference if there is one. -/
def alternative? : Traced (Option Label) := do
  if ← eatKeyword .disjunction then return some (← shapeOrRef inner) else return none

/-- Read a reference to one shape or to any of several. -/
def shapeRef : Traced ShapeRef := call .shapeRef do
  let first ← shapeOrRef inner
  let rest ← collect (alternative? inner)
  return if rest.isEmpty then .one first else .any (first :: rest)

/-- Read a value class. -/
def valueClass : Traced ValueClass := call .valueClass do
  match (← look peek).bind Token.nodeKind? with
  | some kind =>
    advance
    let reference ←
      if kind ≠ .literal then whenNext Token.isShape (shapeRef inner) else pure none
    return .kind kind (← facets kind) reference
  | none =>
    if ← look (next Token.isIri) then return .datatype (← iri)
    else if ← look (isNext .openParen) then return .values (← valueSet)
    else if ← eat .dot then return .anything
    else if ← look (next Token.isShape) then return .reference (← shapeRef inner)
    else look (unexpected [.keyword .literal, .keyword .iri, .keyword .nonLiteral,
      .keyword .blankNode, .datatype, .shapeReference, .sign .openParen, .sign .dot])

/-- Read an annotation if one comes next. -/
def annotation? : Traced (Option Annotation) := do
  if ← eat .semicolon then
    let property ← iri
    if ← look (next Token.isIri) then return some ⟨property, .iri (← iri)⟩
    else if ← look (next Token.isLiteral) then return some ⟨property, .literal (← literal)⟩
    else look (unexpected [.iri, .literal])
  else return none

/-- Read the signs of an inverse and of a negated constraint, in either order. -/
def senseFlags : Traced (Bool × Bool) := do
  if ← eat .caret then return (true, ← eat .bang)
  else if ← eat .bang then return (← eat .caret, true)
  else return (false, false)

/-- Read a triple constraint. -/
def tripleConstraint : Traced TripleConstraint := call .constraint do
  let (inverse, negated) ← senseFlags
  let property ← predicate
  let value ← valueClass inner
  let annotations ← collect annotation?
  let cardinality ← cardinality?
  return ⟨property, value, cardinality.getD .zeroOrOne, inverse, negated, annotations, ← actions⟩

/-- Read an expression between parentheses, and what is put around it. -/
def parenthesized : Traced TripleExpr := do
  let body ← deeper inner
  advance
  let expression ← body
  expect .closeParen
  let cardinality ← cardinality?
  return expression.wrap cardinality (← actions)

/-- Read a member of a group after its label. -/
def unlabelled : Traced TripleExpr := do
  if ← eat .ampersand then return .inclusion none (← label)
  else if ← look (isNext .openParen) then parenthesized inner
  else return .constraint none (← tripleConstraint inner)

/-- Read a member of a group. -/
def unary : Traced TripleExpr := call .unary do
  unless ← look (next Token.isUnary) do
    look (unexpected [.sign .dollar, .sign .ampersand, .sign .openParen, .sign .caret, .sign .bang,
      .predicate])
  if ← eat .dollar then
    let id ← label
    return (← unlabelled inner).withId id
  else unlabelled inner

/-- Read a comma, and a member of a group if one follows it. -/
def nextMember? : Traced (Option TripleExpr) := do
  if ← eat .comma then whenNext Token.isUnary (unary inner) else return none

/-- Read a group. -/
def group : Traced TripleExpr := call .group do
  let first ← unary inner
  let rest ← collect (nextMember? inner)
  return TripleExpr.combine (fun members => .group none members none .empty) first rest

/-- Read groups of which at least one has to match. -/
def someOf : Traced TripleExpr := call .someOf do
  let first ← group inner
  let rest ← collect (afterSign? .doubleBar (group inner))
  return TripleExpr.combine (.someOf none) first rest

/-- Read alternatives of which exactly one has to match. -/
def oneOf : Traced TripleExpr := call .oneOf do
  let first ← someOf inner
  let rest ← collect (afterSign? .bar (someOf inner))
  return TripleExpr.combine (.oneOf none) first rest

end

/-- The parser for the expressions inside of one more bracket, if so many brackets may still be
opened. -/
def levels : (left : Nat) → Option (Traced TripleExpr)
  | 0 => none
  | left + 1 => some (oneOf (levels left))

/-! ### Documents -/

/-- The parser for the expressions of a definition that stands in no other. -/
def outermost : Option (Traced TripleExpr) := levels nestingLimit

/-- Read a declaration of the base after its keyword. -/
def baseDeclaration : Traced Unit := do
  advance
  let reference ← iriRef
  look (declare (·.declareBase reference))

/-- Read the name of a prefix. -/
def prefixName : Traced String := do
  match ← look peek with
  | some (.prefixedName space localPart) =>
    if localPart.isEmpty then
      advance
      return space
    else look (unexpected [.prefixName])
  | _ => look (unexpected [.prefixName])

/-- Read a declaration of a prefix. -/
def prefixDeclaration : Traced Unit := do
  advance
  let name ← prefixName
  let reference ← iriRef
  look (declare (·.declarePrefix name reference))

/-- Read a directive if one comes next. -/
def directive? : Traced (Option Unit) := do
  match ← look peek with
  | some (.keyword .base) => some <$> baseDeclaration
  | some (.keyword .prefixes) => some <$> prefixDeclaration
  | _ => return none

/-- Read the shape that the start refers to. -/
def startLabel : Traced Label := do
  if ← look (next Token.isLabel) then label
  else if ← look (next Token.isReference) then shapeOrRef outermost
  else if ← look (next Token.isDefinition) then
    let shape ← shapeDefinition outermost
    let code ← actions
    look (declareInline { shape with actions := code })
  else look (unexpected [.shapeLabel, .sign .atSign, .shapeDefinition])

/-- Read a declaration of the start. -/
def startDeclaration : Traced Unit := do
  advance
  expect .equals
  let label ← startLabel
  look (declare (·.setStart label))

/-- Read a declaration of a shape. -/
def shapeDeclaration : Traced Unit := do
  let isVirtual ← eatKeyword .virtual
  unless ← look (next Token.isLabel) do
    look (unexpected [.keyword .base, .keyword .prefixes, .keyword .start, .keyword .virtual,
      .shapeLabel])
  let label ← label
  let shape ← shapeDefinition outermost
  let code ← actions
  look (declare (·.register label { shape with isVirtual := isVirtual, actions := code }))

/-- Read a statement, if the document has not ended. -/
def statement? : Traced (Option Unit) := do
  match ← look peek with
  | none => return none
  | some (.keyword .start) => some <$> startDeclaration
  | some _ =>
    match ← directive? with
    | some () => return some ()
    | none => some <$> shapeDeclaration

/-- Read the actions of the start, if there are some. They count as a statement, for which the loop
over the statements goes round once. -/
def startActions : Traced Unit := do
  if ← look (isNext .percent) then
    round do
      let code ← actions
      look (declare (·.setStartActions code))

/-- Step to the first token. -/
def begin : Traced Unit := fun standpoint trace =>
  look settle standpoint ⟨trace.state, .fetched trace.state.lexemes.head? :: trace.events⟩

/-- Read a document. -/
def document : Traced Unit := do
  begin
  let _ ← collect directive?
  startActions
  let _ ← collect statement?

/-- Read a document from the start. The loops are let go on `more` rounds longer than the tokens
demand. -/
def run (more : Nat) (context : Context) (state : State) : EStateM.Result Problem Trace Unit :=
  document ⟨context, [], more⟩ ⟨state, []⟩

end Traced

end ShExCompact
