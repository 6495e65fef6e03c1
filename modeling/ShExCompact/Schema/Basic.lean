import ShExCompact.Schema.TripleExpr

/-!
Shapes, and schemas: the prefixes, the start and the shapes of a document.
-/
namespace ShExCompact

/-- A shape: what the triples of a node have to match. A virtual one is only a template. -/
structure Shape where
  expression : Option TripleExpr
  inherit : List Label
  extra : List Iri
  closed : Bool
  isVirtual : Bool
  actions : Actions
deriving DecidableEq

namespace Shape

/-- The shape that constrains nothing. -/
def empty : Shape := ⟨none, [], [], false, false, .empty⟩

/-- The labels that a shape refers to: those that it inherits from, then those of its
expression. -/
def references (shape : Shape) : List Label :=
  shape.inherit ++ match shape.expression with
    | some expr => expr.references
    | none => []

end Shape

/-- A schema. The shapes stand in the order in which their labels were first declared. -/
structure Schema where
  prefixes : Dictionary
  start : Option Label
  startActions : Option Actions
  shapes : List (Label × Shape)
deriving DecidableEq

namespace Schema

/-- The labels of the shapes, in order of declaration. -/
def labels (schema : Schema) : List Label := schema.shapes.map Prod.fst

/-- The shape with a given label. -/
def shape? (schema : Schema) (label : Label) : Option Shape := schema.shapes.lookup label

/-- The IRI that a prefix stands for. -/
def namespace? (schema : Schema) (name : String) : Option String := schema.prefixes.get? name

def size (schema : Schema) : Nat := schema.shapes.length

def isEmpty (schema : Schema) : Bool := schema.shapes.isEmpty

/-- The first occurrences of the labels of a list that are not in `seen`. -/
def firstOccurrences (seen : List Label) : List Label → List Label
  | [] => []
  | label :: rest =>
    if label ∈ seen then firstOccurrences seen rest
    else label :: firstOccurrences (label :: seen) rest

/-- Every label that the start or a shape refers to, once each, in order of first occurrence. Not
every one needs a shape. -/
def references (schema : Schema) : List Label :=
  firstOccurrences []
    (schema.start.toList ++ schema.shapes.flatMap fun entry => entry.2.references)

end Schema

end ShExCompact
