import Mathlib.Logic.Function.Basic
import ShExCompact.Proofs.Reading.Declarations

/-! What a draft holds after any operations on it: documents are read into it, whole or not, and in
between labels are generated and shapes are declared by hand. -/
namespace ShExCompact

/-! ### Registries -/

/-- The labels of the declared shapes in their order and, apart from them, a table of the shapes.
Whoever declares a shape has to keep both up to date. -/
structure Registry where
  order : List Label
  table : Label → Option Shape

namespace Registry

def empty : Registry := ⟨[], fun _ => none⟩

/-- Declare a shape: the table gets it, and the order gets the label if the table did not have
it. -/
def register (registry : Registry) (entry : Registration) : Registry where
  order := match registry.table entry.label with
    | some _ => registry.order
    | none => registry.order ++ [entry.label]
  table := Function.update registry.table entry.label (some entry.shape)

/-- The labels in their order, each with its shape; a label without a shape would be left out. -/
def shapes (registry : Registry) : List (Label × Shape) :=
  registry.order.filterMap fun label => (registry.table label).map (Prod.mk label)

end Registry

namespace Draft

def registry (draft : Draft) : Registry := ⟨draft.labels, draft.shape?⟩

theorem registry_register (draft : Draft) (entry : Registration) :
    (draft.register entry.label entry.shape).registry = draft.registry.register entry := by
  unfold registry Registry.register
  congr 1
  · change (draft.register entry.label entry.shape).labels =
      match draft.shape? entry.label with
      | some _ => draft.labels
      | none => draft.labels ++ [entry.label]
    have held := draft.mem_labels_iff entry.label
    rw [labels_register]
    cases found : draft.shape? entry.label with
    | none => exact if_neg (fun member => held.mp member found)
    | some shape => exact if_pos (held.mpr (found ▸ Option.some_ne_none shape))
  · funext other
    rw [shape?_register, Function.update_apply]

/-- If the labels are distinct, each entry of the shapes is the one that is found under its
label. -/
theorem shapes_eq_labels (draft : Draft) (distinct : draft.labels.Nodup) :
    draft.shapes.map (Prod.map id some) =
      draft.labels.map fun label => (label, draft.shape? label) := by
  unfold labels at *
  unfold shape?
  generalize draft.shapes = shapes at *
  induction shapes with
  | nil => rfl
  | cons entry rest ih =>
    rw [List.map_cons, List.nodup_cons] at distinct
    have others : ∀ label ∈ rest.map Prod.fst,
        (label, (entry :: rest).lookup label) = (label, rest.lookup label) := by
      intro label member
      have different : label ≠ entry.1 := fun same => distinct.1 (same ▸ member)
      rw [lookup_cons_ite, if_neg different]
    rw [List.map_cons, List.map_cons, List.map_cons, ih distinct.2, List.map_congr_left others,
      lookup_cons_ite, if_pos rfl]
    rfl

theorem shapes_registry (draft : Draft) (distinct : draft.labels.Nodup) :
    draft.registry.shapes = draft.shapes := by
  have pairs := congrArg (List.filterMap fun entry => entry.2.map (Prod.mk entry.1))
    (draft.shapes_eq_labels distinct)
  rw [List.filterMap_map, List.filterMap_map] at pairs
  exact pairs.symm.trans List.filterMap_some

theorem Extended.registry (extended : Draft.Extended draft log later) :
    later.registry = log.foldl Registry.register draft.registry := by
  have shapes := extended.shapes
  clear extended
  induction log generalizing draft with
  | nil =>
    unfold Draft.registry Draft.labels Draft.shape?
    rw [shapes]
    rfl
  | cons entry log ih =>
    rw [List.foldl_cons, ← registry_register]
    exact ih shapes

end Draft

/-! ### Sessions -/

/-- What can be done to a draft. -/
inductive Operation where
  | declarePrefix (name reference : String)
  | declareBase (reference : String)
  | freshLabel
  | resetCounter
  | register (label : Label) (shape : Shape)
  | setStart (label : Label)
  | setStartActions (actions : Actions)
  | parse (settings : Settings) (text : String)

namespace Operation

/-- The draft after an operation, with a given check of the IRIs of documents; a problem of a
document does not end the session. -/
def apply (check : String → Except Iri.Fault Unit) (draft : Draft) : Operation → Draft
  | declarePrefix name reference => draft.declarePrefix name reference
  | declareBase reference => draft.declareBase reference
  | freshLabel => draft.freshLabel.2
  | resetCounter => draft.resetCounter
  | register label shape => draft.register label shape
  | setStart label => draft.setStart label
  | setStartActions actions => draft.setStartActions actions
  | parse settings text => (settings.parseIntoWith check text draft).2

/-- The shapes that an operation declares. -/
inductive Declares (check : String → Except Iri.Fault Unit) (draft : Draft) :
    Operation → List Registration → Prop where
  | declarePrefix : Declares check draft (.declarePrefix name reference) []
  | declareBase : Declares check draft (.declareBase reference) []
  | freshLabel : Declares check draft .freshLabel []
  | resetCounter : Declares check draft .resetCounter []
  | register : Declares check draft (.register label shape) [.stated label shape]
  | setStart : Declares check draft (.setStart label) []
  | setStartActions : Declares check draft (.setStartActions actions) []
  | parse (passes : settings.Passes check text draft journal) :
      Declares check draft (.parse settings text) journal.log

theorem exists_declares (check : String → Except Iri.Fault Unit) (draft : Draft)
    (operation : Operation) : ∃ log, operation.Declares check draft log := by
  cases operation with
  | declarePrefix => exact ⟨[], .declarePrefix⟩
  | declareBase => exact ⟨[], .declareBase⟩
  | freshLabel => exact ⟨[], .freshLabel⟩
  | resetCounter => exact ⟨[], .resetCounter⟩
  | register label shape => exact ⟨_, .register⟩
  | setStart => exact ⟨[], .setStart⟩
  | setStartActions => exact ⟨[], .setStartActions⟩
  | parse settings text =>
    obtain ⟨journal, passes⟩ := settings.exists_passes check text draft
    exact ⟨journal.log, .parse passes⟩

theorem Declares.extended (declares : Operation.Declares check draft operation log) :
    draft.Extended log (operation.apply check draft) := by
  cases declares with
  | declarePrefix | declareBase | freshLabel | resetCounter | setStart | setStartActions =>
    exact .same rfl
  | register => exact .stated draft _ _
  | parse passes => exact passes.extended

end Operation

/-- The operations of a session, one after the other. -/
def Draft.run (check : String → Except Iri.Fault Unit) (draft : Draft)
    (operations : List Operation) : Draft :=
  operations.foldl (Operation.apply check) draft

/-- The shapes that the operations of a session declare. -/
inductive Session (check : String → Except Iri.Fault Unit) :
    Draft → List Operation → List Registration → Prop where
  | nil : Session check draft [] []
  | cons (first : Operation.Declares check draft operation log)
      (rest : Session check (operation.apply check draft) operations log') :
      Session check draft (operation :: operations) (log ++ log')

namespace Session

open Registration (lastShape?)

theorem exists_log (check : String → Except Iri.Fault Unit) (draft : Draft)
    (operations : List Operation) : ∃ log, Session check draft operations log := by
  induction operations generalizing draft with
  | nil => exact ⟨[], .nil⟩
  | cons operation operations ih =>
    obtain ⟨log, first⟩ := operation.exists_declares check draft
    obtain ⟨log', rest⟩ := ih (operation.apply check draft)
    exact ⟨log ++ log', .cons first rest⟩

theorem extended (session : Session check draft operations log) :
    draft.Extended log (draft.run check operations) := by
  induction session with
  | nil => exact .same rfl
  | cons first rest ih => exact first.extended.trans ih

theorem labels_run (session : Session check .empty operations log) :
    (Draft.empty.run check operations).labels =
      Schema.firstOccurrences [] (log.map Registration.label) := by
  rw [session.extended.labels]
  exact List.nil_append _

theorem shape?_run (session : Session check .empty operations log) (label : Label) :
    (Draft.empty.run check operations).shape? label = lastShape? label log := by
  rw [session.extended.shape?]
  exact Option.or_none

theorem nodup_labels (check : String → Except Iri.Fault Unit) (operations : List Operation) :
    (Draft.empty.run check operations).labels.Nodup := by
  obtain ⟨log, session⟩ := exists_log check .empty operations
  rw [session.labels_run]
  exact Schema.nodup_firstOccurrences ..

/-- After any operations the labels of the draft are distinct and are those that have a shape. They
and the shapes are what an order and a table hold to which every declaration is added in turn, and
the schema lists one shape for each label: the labels in the order in which they were first
declared, each with the shape that was declared under it last. -/
theorem run_enumerates (check : String → Except Iri.Fault Unit) (operations : List Operation) :
    (Draft.empty.run check operations).labels.Nodup ∧
    (∀ label, label ∈ (Draft.empty.run check operations).labels ↔
      (Draft.empty.run check operations).shape? label ≠ none) ∧
    (∃ log, Session check .empty operations log) ∧
    ∀ log, Session check .empty operations log →
      (Draft.empty.run check operations).registry = log.foldl Registry.register .empty ∧
      (Draft.empty.run check operations).finish.shapes =
        (Draft.empty.run check operations).registry.shapes ∧
      (Draft.empty.run check operations).finish.size =
        (Draft.empty.run check operations).labels.length ∧
      (Draft.empty.run check operations).finish.labels =
        Schema.firstOccurrences [] (log.map Registration.label) ∧
      (Draft.empty.run check operations).finish.shapes.map (Prod.map id some) =
        (Schema.firstOccurrences [] (log.map Registration.label)).map fun label =>
          (label, lastShape? label log) := by
  have distinct := nodup_labels check operations
  refine ⟨distinct, Draft.mem_labels_iff _, exists_log check .empty operations, ?_⟩
  intro log session
  have shapes := Draft.shapes_eq_labels _ distinct
  rw [funext session.shape?_run, session.labels_run] at shapes
  refine ⟨session.extended.registry, (Draft.shapes_registry _ distinct).symm,
    (List.length_map _).symm, session.labels_run, shapes⟩

end Session

end ShExCompact
