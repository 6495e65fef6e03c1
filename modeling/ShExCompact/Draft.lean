import ShExCompact.Iri.Base
import ShExCompact.Schema.Basic

/-!
Drafts of schemas: what the statements of one or more documents have declared so far.
-/
namespace ShExCompact

/-- The prefixes and the base that are in force, the number of the next generated label, and the
declarations. The shapes stand in the order in which their labels were first declared. -/
structure Draft where
  prefixes : Dictionary
  base : Base
  counter : Nat
  shapes : List (Label × Shape)
  start : Option Label
  startActions : Option Actions
deriving DecidableEq

/-- Put a shape under a label: in the place of the shape that has the label, else at the end. -/
def placeShape (label : Label) (shape : Shape) : List (Label × Shape) → List (Label × Shape)
  | [] => [(label, shape)]
  | entry :: rest =>
    if entry.1 = label then (label, shape) :: rest else entry :: placeShape label shape rest

theorem lookup_placeShape (label : Label) (shape : Shape) (other : Label)
    (shapes : List (Label × Shape)) :
    (placeShape label shape shapes).lookup other =
      if other = label then some shape else shapes.lookup other := by
  induction shapes with
  | nil => simp [placeShape, lookup_cons_ite]
  | cons head rest ih =>
    obtain ⟨held, old⟩ := head
    by_cases same : held = label
    · subst same
      by_cases here : other = held <;> simp [placeShape, lookup_cons_ite, here]
    · simp only [placeShape, if_neg same, lookup_cons_ite, ih]
      by_cases here : other = held
      · subst here
        simp [same]
      · simp [here]

/-- A label keeps its place; a new one goes to the end. -/
theorem labels_placeShape (label : Label) (shape : Shape) (shapes : List (Label × Shape)) :
    (placeShape label shape shapes).map Prod.fst =
      if label ∈ shapes.map Prod.fst then shapes.map Prod.fst
      else shapes.map Prod.fst ++ [label] := by
  induction shapes with
  | nil => simp [placeShape]
  | cons head rest ih =>
    by_cases same : head.1 = label
    · simp [placeShape, same]
    · simp only [placeShape, if_neg same, List.map_cons, ih, List.mem_cons, Ne.symm same,
        false_or]
      split <;> rfl

namespace Draft

def empty : Draft := ⟨.empty, .empty, 0, [], none, none⟩

/-- Resolve an IRI reference against the base, after its escapes are decoded. -/
def resolve (draft : Draft) (reference : String) : String :=
  draft.base.resolve (Escape.unescapeIri reference)

/-- Bind a prefix to an IRI as it is. -/
def bindPrefix (draft : Draft) (name iri : String) : Draft :=
  { draft with prefixes := draft.prefixes.insert name iri }

/-- Bind a prefix to a reference, which the base resolves now. -/
def declarePrefix (draft : Draft) (name reference : String) : Draft :=
  draft.bindPrefix name (draft.resolve reference)

/-- Set the base to an IRI as it is. -/
def bindBase (draft : Draft) (iri : String) : Draft := { draft with base := Base.ofText iri }

/-- Set the base to a reference, which the base before resolves. -/
def declareBase (draft : Draft) (reference : String) : Draft :=
  draft.bindBase (draft.resolve reference)

/-- The IRI of a prefixed name, if its prefix is bound. -/
def expand? (draft : Draft) (space localPart : String) : Option String :=
  (draft.prefixes.get? space).map (· ++ localPart)

/-- The labels of the shapes, in order of declaration. -/
def labels (draft : Draft) : List Label := draft.shapes.map Prod.fst

/-- The shape with a given label. -/
def shape? (draft : Draft) (label : Label) : Option Shape := draft.shapes.lookup label

/-- The first number from `number` on whose generated label is not taken, of which at most `tries`
are. -/
def freeNumber (taken : List Label) : (tries number : Nat) → Nat
  | 0, number => number
  | tries + 1, number =>
    if Label.numbered number ∈ taken then freeNumber taken tries (number + 1) else number

/-- Generate a label that no shape has; its number is not before the counter, which moves past
it. -/
def freshLabel (draft : Draft) : Label × Draft :=
  let number := freeNumber draft.labels draft.shapes.length draft.counter
  (Label.numbered number, { draft with counter := number + 1 })

/-- Set the counter of generated labels back to zero. -/
def resetCounter (draft : Draft) : Draft := { draft with counter := 0 }

/-- Declare a shape; it replaces an earlier one with its label, in the place of that one. -/
def register (draft : Draft) (label : Label) (shape : Shape) : Draft :=
  { draft with shapes := placeShape label shape draft.shapes }

theorem shape?_register (draft : Draft) (label : Label) (shape : Shape) (other : Label) :
    (draft.register label shape).shape? other =
      if other = label then some shape else draft.shape? other :=
  lookup_placeShape label shape other draft.shapes

theorem labels_register (draft : Draft) (label : Label) (shape : Shape) :
    (draft.register label shape).labels =
      if label ∈ draft.labels then draft.labels else draft.labels ++ [label] :=
  labels_placeShape label shape draft.shapes

/-- Set the shape at which a validation starts. -/
def setStart (draft : Draft) (label : Label) : Draft := { draft with start := some label }

/-- Set the actions of the start. -/
def setStartActions (draft : Draft) (actions : Actions) : Draft :=
  { draft with startActions := some actions }

/-- The schema of the declarations. -/
def finish (draft : Draft) : Schema :=
  ⟨draft.prefixes, draft.start, draft.startActions, draft.shapes⟩

end Draft

end ShExCompact
