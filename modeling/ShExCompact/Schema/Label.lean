import ShExCompact.Iri.Basic

/-!
Labels of shapes and of triple expressions.
-/
namespace ShExCompact

/-- A label is an IRI or a blank node. -/
inductive Label where
  | iri (iri : Iri)
  | blank (id : String)
deriving DecidableEq

namespace Label

/-- The text of a label, as in a document. -/
def text : Label → String
  | iri node => "<" ++ node.value ++ ">"
  | blank id => "_:" ++ id

/-- The IRI of a label that is one. -/
def iri? : Label → Option Iri
  | iri node => some node
  | blank _ => none

/-- The blank node of a label that is one. -/
def blank? : Label → Option String
  | iri _ => none
  | blank id => some id

/-- The generated blank node with a given number. -/
def numbered (number : Nat) : Label := blank ("b" ++ Nat.repr number)

end Label

end ShExCompact
