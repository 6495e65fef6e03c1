/-!
IRIs, as the nodes and the names of a schema.
-/
namespace ShExCompact

/-- An IRI without its angle brackets. -/
structure Iri where
  value : String
deriving DecidableEq

end ShExCompact
