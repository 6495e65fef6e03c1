/-!
Facets of a node kind: restrictions on the text or the number of a node.
-/
namespace ShExCompact

/-- One facet with its value. -/
inductive Facet where
  | pattern (value : String)
  | length (value : UInt32)
  | minLength (value : UInt32)
  | maxLength (value : UInt32)
  | minInclusive (value : Int64)
  | minExclusive (value : Int64)
  | maxInclusive (value : Int64)
  | maxExclusive (value : Int64)
  | totalDigits (value : UInt32)
  | fractionDigits (value : UInt32)
deriving DecidableEq

/-- The facets of a node kind, each at most once. -/
structure Facets where
  pattern : Option String
  length : Option UInt32
  minLength : Option UInt32
  maxLength : Option UInt32
  minInclusive : Option Int64
  minExclusive : Option Int64
  maxInclusive : Option Int64
  maxExclusive : Option Int64
  totalDigits : Option UInt32
  fractionDigits : Option UInt32
deriving DecidableEq

namespace Facets

/-- No facet at all. -/
def empty : Facets := ⟨none, none, none, none, none, none, none, none, none, none⟩

def isEmpty (facets : Facets) : Bool := facets = empty

/-- Set one facet; an earlier value of it is replaced. -/
def set (facets : Facets) : Facet → Facets
  | .pattern value => { facets with pattern := some value }
  | .length value => { facets with length := some value }
  | .minLength value => { facets with minLength := some value }
  | .maxLength value => { facets with maxLength := some value }
  | .minInclusive value => { facets with minInclusive := some value }
  | .minExclusive value => { facets with minExclusive := some value }
  | .maxInclusive value => { facets with maxInclusive := some value }
  | .maxExclusive value => { facets with maxExclusive := some value }
  | .totalDigits value => { facets with totalDigits := some value }
  | .fractionDigits value => { facets with fractionDigits := some value }

/-- Set facets one after the other. -/
def ofList (facets : List Facet) : Facets := facets.foldl set empty

end Facets

end ShExCompact
