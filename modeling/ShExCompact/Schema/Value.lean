import ShExCompact.Schema.Facets
import ShExCompact.Schema.Label

/-!
Constraints on the value of a triple.
-/
namespace ShExCompact

/-- The kinds of nodes that a document names. -/
inductive NodeKind where
  | literal
  | iri
  | nonLiteral
  | blank
deriving DecidableEq

/-- A reference to one shape, or to any of several. -/
inductive ShapeRef where
  | one (label : Label)
  | any (labels : List Label)
deriving DecidableEq

/-- The labels of a reference, in order. -/
def ShapeRef.labels : ShapeRef → List Label
  | one label => [label]
  | any labels => labels

/-- What a range of IRIs begins with. -/
inductive Stem where
  | iri (iri : Iri)
  | wildcard
deriving DecidableEq

/-- What a range of IRIs leaves out. -/
inductive Exclusion where
  | iri (iri : Iri)
  | stem (stem : Iri)
deriving DecidableEq

/-- An item of a value set. Literals are held by their canonical text. -/
inductive ValueSetItem where
  | iri (iri : Iri)
  | literal (text : String)
  | range (stem : Stem) (exclusions : List Exclusion)
deriving DecidableEq

/-- The constraint on a value. -/
inductive ValueClass where
  | kind (kind : NodeKind) (facets : Facets) (reference : Option ShapeRef)
  | reference (reference : ShapeRef)
  | values (items : List ValueSetItem)
  | anything
  | datatype (iri : Iri)
deriving DecidableEq

/-- The labels that a value class refers to, in order. -/
def ValueClass.references : ValueClass → List Label
  | kind _ _ (some target) => target.labels
  | reference target => target.labels
  | kind _ _ none | values _ | anything | datatype _ => []

end ShExCompact
