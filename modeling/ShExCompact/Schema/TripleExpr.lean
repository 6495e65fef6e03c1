import ShExCompact.Dictionary
import ShExCompact.Schema.Cardinality
import ShExCompact.Schema.Value

/-!
Triple expressions: constraints on the triples of a node, and their combinations.
-/
namespace ShExCompact

/-- The code of semantic actions, by the IRI of the extension that it is written for. -/
abbrev Actions := Dictionary

/-- The object of an annotation. Literals are held by their canonical text. -/
inductive ObjectValue where
  | iri (iri : Iri)
  | literal (text : String)
deriving DecidableEq

/-- A predicate and an object that are attached to a constraint. -/
structure Annotation where
  predicate : Iri
  object : ObjectValue
deriving DecidableEq

/-- A constraint on the triples with one predicate. An inverse one looks at the triples whose
object is the node. -/
structure TripleConstraint where
  predicate : Iri
  value : ValueClass
  cardinality : Cardinality
  inverse : Bool
  negated : Bool
  annotations : List Annotation
  actions : Actions
deriving DecidableEq

/-- A triple expression. Each may carry a label of its own. -/
inductive TripleExpr where
  /-- exactly one of several -/
  | oneOf (id : Option Label) (branches : List TripleExpr)
  /-- at least one of several -/
  | someOf (id : Option Label) (branches : List TripleExpr)
  /-- all of several, or one with a cardinality or actions around it -/
  | group (id : Option Label) (members : List TripleExpr) (cardinality : Option Cardinality)
      (actions : Actions)
  /-- the triples of one predicate -/
  | constraint (id : Option Label) (constraint : TripleConstraint)
  /-- the expression of another shape -/
  | inclusion (id : Option Label) (target : Label)

namespace TripleExpr

/-- The label of an expression. -/
def id : TripleExpr → Option Label
  | oneOf id _ | someOf id _ | group id _ _ _ | constraint id _ | inclusion id _ => id

/-- Label an expression; an earlier label is replaced. -/
def withId (label : Label) : TripleExpr → TripleExpr
  | oneOf _ branches => oneOf (some label) branches
  | someOf _ branches => someOf (some label) branches
  | group _ members cardinality actions => group (some label) members cardinality actions
  | constraint _ body => constraint (some label) body
  | inclusion _ target => inclusion (some label) target

mutual

/-- The labels that an expression refers to, from left to right. -/
def references : TripleExpr → List Label
  | oneOf _ branches => referencesOf branches
  | someOf _ branches => referencesOf branches
  | group _ members _ _ => referencesOf members
  | constraint _ body => body.value.references
  | inclusion _ target => [target]

/-- The labels that some expressions refer to, from left to right. -/
def referencesOf : List TripleExpr → List Label
  | [] => []
  | expr :: rest => references expr ++ referencesOf rest

end

mutual

/-- Decide whether two expressions are the same. -/
def decideEq : (first second : TripleExpr) → Decidable (first = second)
  | oneOf id branches, other =>
    match other with
    | oneOf id' branches' =>
      match decEq id id', decideEqAll branches branches' with
      | isTrue sameId, isTrue same => isTrue (by rw [sameId, same])
      | isFalse differ, _ => isFalse fun h => differ (by injection h)
      | _, isFalse differ => isFalse fun h => differ (by injection h)
    | someOf .. | group .. | constraint .. | inclusion .. => isFalse nofun
  | someOf id branches, other =>
    match other with
    | someOf id' branches' =>
      match decEq id id', decideEqAll branches branches' with
      | isTrue sameId, isTrue same => isTrue (by rw [sameId, same])
      | isFalse differ, _ => isFalse fun h => differ (by injection h)
      | _, isFalse differ => isFalse fun h => differ (by injection h)
    | oneOf .. | group .. | constraint .. | inclusion .. => isFalse nofun
  | group id members cardinality actions, other =>
    match other with
    | group id' members' cardinality' actions' =>
      match decEq (id, cardinality, actions) (id', cardinality', actions'),
          decideEqAll members members' with
      | isTrue sameRest, isTrue same => isTrue (by cases sameRest; rw [same])
      | isFalse differ, _ => isFalse fun h => differ (by injection h; simp_all)
      | _, isFalse differ => isFalse fun h => differ (by injection h)
    | oneOf .. | someOf .. | constraint .. | inclusion .. => isFalse nofun
  | constraint id body, other =>
    match other with
    | constraint id' body' =>
      match decEq id id', decEq body body' with
      | isTrue sameId, isTrue same => isTrue (by rw [sameId, same])
      | isFalse differ, _ => isFalse fun h => differ (by injection h)
      | _, isFalse differ => isFalse fun h => differ (by injection h)
    | oneOf .. | someOf .. | group .. | inclusion .. => isFalse nofun
  | inclusion id target, other =>
    match other with
    | inclusion id' target' =>
      match decEq id id', decEq target target' with
      | isTrue sameId, isTrue same => isTrue (by rw [sameId, same])
      | isFalse differ, _ => isFalse fun h => differ (by injection h)
      | _, isFalse differ => isFalse fun h => differ (by injection h)
    | oneOf .. | someOf .. | group .. | constraint .. => isFalse nofun

/-- Decide whether two lists of expressions are the same. -/
def decideEqAll : (first second : List TripleExpr) → Decidable (first = second)
  | [], [] => isTrue rfl
  | [], _ :: _ => isFalse nofun
  | _ :: _, [] => isFalse nofun
  | expr :: rest, expr' :: rest' =>
    match decideEq expr expr', decideEqAll rest rest' with
    | isTrue same, isTrue sameRest => isTrue (by rw [same, sameRest])
    | isFalse differ, _ => isFalse fun h => differ (by injection h)
    | _, isFalse differ => isFalse fun h => differ (by injection h)

end

instance : DecidableEq TripleExpr := decideEq

end TripleExpr

end ShExCompact
