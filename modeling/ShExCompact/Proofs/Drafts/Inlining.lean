import ShExCompact.Proofs.Drafts.FreshLabels
import ShExCompact.Proofs.Grammar.Phrase

/-! Shapes in place. However many of them are declared, a draft keeps all that it has, and they come
after its shapes under labels that are new. -/
namespace ShExCompact

/-- A new label goes to the end. -/
theorem placeShape_of_not_mem (new : label ∉ shapes.map Prod.fst) :
    placeShape label shape shapes = shapes ++ [(label, shape)] := by
  induction shapes with
  | nil => rfl
  | cons entry rest ih =>
    rw [List.map_cons, List.mem_cons, not_or] at new
    rw [placeShape, if_neg fun same => new.1 same.symm, ih new.2, List.cons_append]

namespace Draft

/-- A draft with some more shapes, whose labels are generated and new. Nothing else differs but the
counter of generated labels. -/
structure Inlined (draft : Draft) (added : List (Label × Shape)) (later : Draft) : Prop where
  kept : later = { draft with shapes := draft.shapes ++ added, counter := later.counter }
  generated : ∀ entry ∈ added, ∃ number, entry.1 = Label.numbered number
  distinct : (added.map Prod.fst).Nodup
  fresh : ∀ entry ∈ added, entry.1 ∉ draft.labels

theorem Inlined.refl (draft : Draft) : draft.Inlined [] draft where
  kept := by rw [List.append_nil]
  generated := nofun
  distinct := .nil
  fresh := nofun

theorem Inlined.shapes (inlined : Draft.Inlined draft added later) :
    later.shapes = draft.shapes ++ added := by
  rw [inlined.kept]

theorem Inlined.labels (inlined : Draft.Inlined draft added later) :
    later.labels = draft.labels ++ added.map Prod.fst := by
  unfold Draft.labels
  rw [inlined.shapes, List.map_append]

/-- One more shape in place. -/
theorem Inlined.snoc (inlined : Draft.Inlined draft added later) (shape : Shape) :
    draft.Inlined (added ++ [(later.freshLabel.1, shape)])
      (later.freshLabel.2.register later.freshLabel.1 shape) := by
  have new := later.freshLabel_not_mem
  have placed : placeShape later.freshLabel.1 shape later.shapes =
      draft.shapes ++ (added ++ [(later.freshLabel.1, shape)]) := by
    rw [placeShape_of_not_mem new, inlined.shapes, List.append_assoc]
  rw [inlined.labels, List.mem_append, not_or] at new
  constructor
  · change { later with
      counter := _, shapes := placeShape later.freshLabel.1 shape later.shapes } = _
    rw [placed, inlined.kept]
    rfl
  · intro entry member
    rcases List.mem_append.mp member with old | last
    · exact inlined.generated entry old
    · rw [List.mem_singleton.mp last]
      exact ⟨_, rfl⟩
  · rw [List.map_append]
    apply List.nodup_append.mpr
    refine ⟨inlined.distinct, List.pairwise_singleton .., ?_⟩
    intro label old other last same
    rw [List.map_singleton, List.mem_singleton] at last
    exact new.2 (last ▸ same ▸ old)
  · intro entry member
    rcases List.mem_append.mp member with old | last
    · exact inlined.fresh entry old
    · rw [List.mem_singleton.mp last]
      exact new.1

end Draft

namespace Journal

/-- A shape is declared in place. -/
def Inlines (journal later : Journal) : Prop := ∃ shape, later = journal.inPlace shape

/-- The log of shapes in place. -/
def inlineLog (added : List (Label × Shape)) : List Registration :=
  added.map fun entry => .inPlace entry.1 entry.2

/-- What the journal has after some shapes in place. -/
theorem inlined_of_inlines (inlines : Relation.ReflTransGen Inlines journal later) :
    ∃ added, journal.draft.Inlined added later.draft ∧
      later.log = journal.log ++ inlineLog added := by
  induction inlines with
  | refl => exact ⟨[], .refl _, (List.append_nil _).symm⟩
  | @tail middle later _ step ih =>
    obtain ⟨added, inlined, log⟩ := ih
    obtain ⟨shape, rfl⟩ := step
    refine ⟨_, inlined.snoc shape, ?_⟩
    change middle.log ++ _ = _
    rw [log, inlineLog, inlineLog, List.map_append, List.append_assoc]
    rfl

/-- A log only grows. -/
theorem log_prefix (steps : Steps journal later) : journal.log <+: later.log := by
  induction steps with
  | refl => exact List.prefix_rfl
  | tail _ step ih =>
    refine ih.trans ?_
    cases step with
    | inPlace | stated => exact List.prefix_append ..
    | base | prefixes | start | startActions => simp only [declare, List.prefix_rfl]

end Journal

end ShExCompact
