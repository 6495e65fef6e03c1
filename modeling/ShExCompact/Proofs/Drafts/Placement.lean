import ShExCompact.Proofs.Drafts.Registrations

/-! The shapes of a draft are those of an earlier one, with the shapes that were declared in between
put in their places. Labels stay where they were first declared, the last shape under a label
counts, and a shape in place takes the place of no other. -/
namespace ShExCompact

/-! ### First occurrences -/

namespace Schema

theorem firstOccurrences_congr {all : List Label}
    (same : ∀ label ∈ all, label ∈ seen ↔ label ∈ seen') :
    firstOccurrences seen all = firstOccurrences seen' all := by
  induction all generalizing seen seen' with
  | nil => rfl
  | cons label rest ih =>
    obtain ⟨here, others⟩ := List.forall_mem_cons.mp same
    simp only [firstOccurrences, here]
    split
    · exact ih others
    · have grown : ∀ other ∈ rest, other ∈ label :: seen ↔ other ∈ label :: seen' := by
        intro other member
        rw [List.mem_cons, List.mem_cons, others other member]
      rw [ih grown]

theorem mem_firstOccurrences {seen all : List Label} :
    label ∈ firstOccurrences seen all ↔ label ∈ all ∧ label ∉ seen := by
  induction all generalizing seen with
  | nil => simp [firstOccurrences]
  | cons first rest ih =>
    rw [firstOccurrences]
    by_cases same : label = first
    · subst same
      split
      case isTrue held => simp [ih, held]
      case isFalse new => simp [new]
    · split
      · simp [ih, same]
      · simp [ih, same]

theorem nodup_firstOccurrences (seen all : List Label) :
    (firstOccurrences seen all).Nodup := by
  induction all generalizing seen with
  | nil => exact .nil
  | cons first rest ih =>
    rw [firstOccurrences]
    split
    · exact ih seen
    · apply List.nodup_cons.mpr
      refine ⟨fun again => ?_, ih (first :: seen)⟩
      exact (mem_firstOccurrences.mp again).2 List.mem_cons_self

end Schema

/-! ### Shapes in their places -/

namespace Registration

/-- Put declared shapes in their places, one after the other. -/
def placeAll (log : List Registration) (shapes : List (Label × Shape)) : List (Label × Shape) :=
  log.foldl (fun shapes entry => placeShape entry.label entry.shape shapes) shapes

theorem placeAll_append (front rest : List Registration) (shapes : List (Label × Shape)) :
    placeAll (front ++ rest) shapes = placeAll rest (placeAll front shapes) :=
  List.foldl_append

/-- The last shape that is declared under a label is the one that is found. -/
theorem lookup_placeAll (label : Label) (log : List Registration)
    (shapes : List (Label × Shape)) :
    (placeAll log shapes).lookup label = (lastShape? label log).or (shapes.lookup label) := by
  induction log generalizing shapes with
  | nil => rfl
  | cons first rest ih =>
    change (placeAll rest _).lookup label = _
    rw [ih, lookup_placeShape, lastShape?, Option.or_assoc]
    by_cases same : label = first.label <;> simp [same]

/-- Labels stand in the order in which they are first declared. -/
theorem labels_placeAll (log : List Registration) (shapes : List (Label × Shape)) :
    (placeAll log shapes).map Prod.fst = shapes.map Prod.fst ++
      Schema.firstOccurrences (shapes.map Prod.fst) (log.map label) := by
  induction log generalizing shapes with
  | nil => simp [placeAll, Schema.firstOccurrences]
  | cons first rest ih =>
    change (placeAll rest _).map Prod.fst = _
    rw [ih, labels_placeShape, List.map_cons, Schema.firstOccurrences]
    split
    · rfl
    · rw [List.append_assoc, List.singleton_append]
      have same : ∀ label, label ∈ shapes.map Prod.fst ++ [first.label] ↔
          label ∈ first.label :: shapes.map Prod.fst := by
        simp [or_comm]
      rw [Schema.firstOccurrences_congr fun label _ => same label]

end Registration

/-! ### Drafts with more declarations -/

namespace Draft

open Registration (lastShape? placeAll)

/-- A draft in which the shapes of a log were declared after those of an earlier one. A shape in
place has a label that is new to the earlier one. -/
structure Extended (draft : Draft) (log : List Registration) (later : Draft) : Prop where
  shapes : later.shapes = placeAll log draft.shapes
  fresh : ∀ label shape, .inPlace label shape ∈ log → label ∉ draft.labels

theorem Extended.same (kept : later.shapes = draft.shapes) : Extended draft [] later where
  shapes := kept
  fresh := nofun

theorem Extended.stated (draft : Draft) (label : Label) (shape : Shape) :
    draft.Extended [.stated label shape] (draft.register label shape) where
  shapes := rfl
  fresh := by simp

theorem Extended.shape? (extended : Draft.Extended draft log later) (label : Label) :
    later.shape? label = (lastShape? label log).or (draft.shape? label) := by
  unfold Draft.shape?
  rw [extended.shapes, Registration.lookup_placeAll]

theorem Extended.labels (extended : Draft.Extended draft log later) :
    later.labels =
      draft.labels ++ Schema.firstOccurrences draft.labels (log.map Registration.label) := by
  unfold Draft.labels
  rw [extended.shapes, Registration.labels_placeAll]

theorem Extended.labels_prefix (extended : Draft.Extended draft log later) :
    draft.labels <+: later.labels := by
  rw [extended.labels]
  exact List.prefix_append ..

theorem Extended.trans (first : Draft.Extended draft log middle)
    (second : Draft.Extended middle log' later) : draft.Extended (log ++ log') later where
  shapes := by rw [second.shapes, first.shapes, Registration.placeAll_append]
  fresh label shape member := by
    rcases List.mem_append.mp member with early | late
    · exact first.fresh label shape early
    · exact fun held => second.fresh label shape late (first.labels_prefix.subset held)

/-- Only a statement can take the place of a shape. -/
theorem Extended.shape?_of_not_stated (extended : Draft.Extended draft log later)
    (held : draft.shape? label = some shape) (unstated : ∀ other, .stated label other ∉ log) :
    later.shape? label = some shape := by
  have member : label ∈ draft.labels := by
    rw [mem_labels_iff, held]
    exact Option.some_ne_none shape
  have undeclared : lastShape? label log = none := by
    apply (Registration.lastShape?_eq_none_iff label log).mpr
    intro entry declared same
    cases entry with
    | inPlace other shape =>
      obtain rfl : other = label := same
      exact extended.fresh other shape declared member
    | stated other shape =>
      obtain rfl : other = label := same
      exact unstated shape declared
  rw [extended.shape?, undeclared, Option.none_or, held]

end Draft

/-- Whatever a part of a document does, it extends the draft by what it adds to the log. -/
theorem Journal.Step.extended (step : Journal.Step journal later) :
    ∃ new, later.log = journal.log ++ new ∧ journal.draft.Extended new later.draft := by
  cases step with
  | base | prefixes | start | startActions =>
    exact ⟨[], (List.append_nil _).symm, .same rfl⟩
  | inPlace shape =>
    refine ⟨_, rfl, rfl, fun label shape member => ?_⟩
    cases List.mem_singleton.mp member
    exact Draft.freshLabel_not_mem _
  | stated label shape => exact ⟨_, rfl, .stated _ label shape⟩

theorem Journal.extended_of_steps (steps : Journal.Steps journal later) :
    ∃ new, later.log = journal.log ++ new ∧ journal.draft.Extended new later.draft := by
  induction steps with
  | refl => exact ⟨[], (List.append_nil _).symm, .same rfl⟩
  | tail _ step ih =>
    obtain ⟨new, log, extended⟩ := ih
    obtain ⟨more, log', extended'⟩ := step.extended
    exact ⟨new ++ more, by rw [log', log, List.append_assoc], extended.trans extended'⟩

end ShExCompact
