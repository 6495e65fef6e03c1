import ShExCompact.Document.Expression

/-!
The statements of a document: directives, the start and the shapes. Actions of the start may stand
before the first statement that is no directive.
-/
namespace ShExCompact.Parser

/-- The parser for the expressions of a definition that stands in no other. -/
def outermost : Option (Parser TripleExpr) := levels nestingLimit

/-- Read a declaration of the base after its keyword. -/
def baseDeclaration : Parser Unit := do
  advance
  let reference ← iriRef
  declare (·.declareBase reference)

/-- Read the name of a prefix. -/
def prefixName : Parser String := do
  match ← peek with
  | some (.prefixedName space localPart) =>
    if localPart.isEmpty then
      advance
      return space
    else unexpected [.prefixName]
  | _ => unexpected [.prefixName]

/-- Read a declaration of a prefix. -/
def prefixDeclaration : Parser Unit := do
  advance
  let name ← prefixName
  let reference ← iriRef
  declare (·.declarePrefix name reference)

/-- Read a directive if one comes next. -/
def directive? : Parser (Option Unit) := do
  match ← peek with
  | some (.keyword .base) => some <$> baseDeclaration
  | some (.keyword .prefixes) => some <$> prefixDeclaration
  | _ => return none

/-- Read the shape that the start refers to. -/
def startLabel : Parser Label := do
  if ← next Token.isLabel then label
  else if ← next Token.isReference then shapeOrRef outermost
  else if ← next Token.isDefinition then
    let shape ← shapeDefinition outermost
    let code ← actions
    declareInline { shape with actions := code }
  else unexpected [.shapeLabel, .sign .atSign, .shapeDefinition]

/-- Read a declaration of the start. -/
def startDeclaration : Parser Unit := do
  advance
  expect .equals
  let label ← startLabel
  declare (·.setStart label)

/-- Read a declaration of a shape. -/
def shapeDeclaration : Parser Unit := do
  let isVirtual ← eatKeyword .virtual
  unless ← next Token.isLabel do
    unexpected [.keyword .base, .keyword .prefixes, .keyword .start, .keyword .virtual,
      .shapeLabel]
  let label ← label
  let shape ← shapeDefinition outermost
  let code ← actions
  declare (·.register label { shape with isVirtual := isVirtual, actions := code })

/-- Read a statement, if the document has not ended. -/
def statement? : Parser (Option Unit) := do
  match ← peek with
  | none => return none
  | some (.keyword .start) => some <$> startDeclaration
  | some _ =>
    match ← directive? with
    | some () => return some ()
    | none => some <$> shapeDeclaration

/-- Read the actions of the start, if there are some. -/
def startActions : Parser Unit := do
  if ← isNext .percent then
    let code ← actions
    declare (·.setStartActions code)

/-- Read a document. -/
def document : Parser Unit := do
  settle
  let _ ← collect directive?
  startActions
  let _ ← collect statement?

end ShExCompact.Parser
