import Mathlib.Order.Bounds.Defs
import ShExCompact.Proofs.Drafts.Numbering
import ShExCompact.Proofs.Drafts.Sessions

/-! How labels are generated. They are tried one after the other from the counter on, and the first
one that no shape has is taken; so between two resets of the counter their numbers ascend, whether
they are generated by hand or while a document is read. -/
namespace ShExCompact

/-! ### One label -/

namespace Draft

/-- A label is generated in some rounds. Each of them tries the number of the counter and moves the
counter past it; the last one finds a label that no shape has. -/
inductive Allocates : Draft → (rounds : Nat) → Label → Draft → Prop where
  | free (new : Label.numbered draft.counter ∉ draft.labels) :
      Allocates draft 1 (Label.numbered draft.counter) { draft with counter := draft.counter + 1 }
  | taken (held : Label.numbered draft.counter ∈ draft.labels)
      (later : Allocates { draft with counter := draft.counter + 1 } rounds label last) :
      Allocates draft (rounds + 1) label last

theorem Allocates.unique (first : Draft.Allocates draft rounds label last)
    (second : Draft.Allocates draft rounds' label' last') :
    rounds' = rounds ∧ label' = label ∧ last' = last := by
  induction first generalizing rounds' with
  | free new =>
    cases second with
    | free => exact ⟨rfl, rfl, rfl⟩
    | taken held => exact absurd held new
  | taken held _ ih =>
    cases second with
    | free new => exact absurd held new
    | taken _ later =>
      obtain ⟨rfl, same⟩ := ih later
      exact ⟨rfl, same⟩

/-- The rounds go on as long as labels are taken. -/
theorem allocates_of_taken {draft : Draft} {skipped : Nat}
    (taken : ∀ before < skipped, Label.numbered (draft.counter + before) ∈ draft.labels)
    (new : Label.numbered (draft.counter + skipped) ∉ draft.labels) :
    draft.Allocates (skipped + 1) (Label.numbered (draft.counter + skipped))
      { draft with counter := draft.counter + skipped + 1 } := by
  induction skipped generalizing draft with
  | zero => exact .free new
  | succ skipped ih =>
    have later := @ih { draft with counter := draft.counter + 1 } (fun before less => by
      have held := taken (before + 1) (Nat.succ_lt_succ less)
      rwa [← Nat.add_assoc, Nat.add_right_comm] at held) (by
      rwa [← Nat.add_assoc, Nat.add_right_comm] at new)
    have moved : draft.counter + 1 + skipped = draft.counter + (skipped + 1) := by omega
    dsimp only at later
    rw [moved] at later
    exact .taken (taken 0 (Nat.succ_pos skipped)) later

/-- The number of the label that is generated next. -/
def nextNumber (draft : Draft) : Nat :=
  freeNumber draft.labels draft.shapes.length draft.counter

theorem freshLabel_eq (draft : Draft) :
    draft.freshLabel =
      (Label.numbered draft.nextNumber, { draft with counter := draft.nextNumber + 1 }) := rfl

/-- No number from the counter on is free before the next one, and there are no more of them than
shapes. -/
theorem nextNumber_spec (draft : Draft) :
    ∃ skipped ≤ draft.shapes.length, draft.nextNumber = draft.counter + skipped ∧
      ∀ before < skipped, Label.numbered (draft.counter + before) ∈ draft.labels := by
  obtain ⟨skipped, enough, answer, before, -⟩ :=
    freeNumber_spec draft.labels draft.shapes.length draft.counter
  exact ⟨skipped, enough, answer, before⟩

theorem counter_le_nextNumber (draft : Draft) : draft.counter ≤ draft.nextNumber := by
  obtain ⟨skipped, -, answer, -⟩ := draft.nextNumber_spec
  omega

/-- The next number is the least one from the counter on whose label no shape has. -/
theorem isLeast_nextNumber (draft : Draft) :
    IsLeast { number | draft.counter ≤ number ∧ Label.numbered number ∉ draft.labels }
      draft.nextNumber := by
  refine ⟨⟨draft.counter_le_nextNumber, draft.freshLabel_not_mem⟩, ?_⟩
  rintro number ⟨behind, free⟩
  obtain ⟨skipped, -, answer, before⟩ := draft.nextNumber_spec
  by_contra less
  apply free
  have held := before (number - draft.counter) (by omega)
  rwa [Nat.add_sub_cancel' behind] at held

/-- The rounds come to the label that is generated, and there is at most one more of them than
shapes. -/
theorem allocates_freshLabel (draft : Draft) :
    ∃ rounds ≤ draft.shapes.length + 1,
      draft.Allocates rounds draft.freshLabel.1 draft.freshLabel.2 := by
  obtain ⟨skipped, enough, answer, before⟩ := draft.nextNumber_spec
  have new := draft.freshLabel_not_mem
  rw [freshLabel_eq] at new ⊢
  rw [answer] at new ⊢
  exact ⟨skipped + 1, Nat.succ_le_succ enough, allocates_of_taken before new⟩

end Draft

@[simp] theorem Draft.counter_bindPrefix (draft : Draft) (name iri : String) :
    (draft.bindPrefix name iri).counter = draft.counter := rfl

@[simp] theorem Draft.counter_bindBase (draft : Draft) (iri : String) :
    (draft.bindBase iri).counter = draft.counter := rfl

/-! ### Ascending labels -/

/-- Generated labels in the order of their numbers, while the counter goes from `first` to
`last`. -/
structure Ascends (first last : Nat) (labels : List Label) : Prop where
  forward : first ≤ last
  numbers : ∃ numbers : List Nat, labels = numbers.map Label.numbered ∧ numbers.Pairwise (· < ·) ∧
    ∀ number ∈ numbers, first ≤ number ∧ number < last

namespace Ascends

theorem kept (same : last = first) : Ascends first last [] where
  forward := Nat.le_of_eq same.symm
  numbers := ⟨[], rfl, .nil, nofun⟩

theorem freshLabel (draft : Draft) :
    Ascends draft.counter draft.freshLabel.2.counter [draft.freshLabel.1] where
  forward := Nat.le_succ_of_le draft.counter_le_nextNumber
  numbers := ⟨[draft.nextNumber], rfl, List.pairwise_singleton .., by
    intro number member
    rw [List.mem_singleton.mp member]
    exact ⟨draft.counter_le_nextNumber, Nat.lt_succ_self _⟩⟩

theorem append (front : Ascends first middle labels) (rest : Ascends middle last labels') :
    Ascends first last (labels ++ labels') where
  forward := Nat.le_trans front.forward rest.forward
  numbers := by
    obtain ⟨numbers, rfl, ordered, bounds⟩ := front.numbers
    obtain ⟨numbers', rfl, ordered', bounds'⟩ := rest.numbers
    have forward := front.forward
    have forward' := rest.forward
    refine ⟨numbers ++ numbers', (List.map_append ..).symm, ?_, ?_⟩
    · refine List.pairwise_append.mpr ⟨ordered, ordered', fun number before later behind => ?_⟩
      exact Nat.lt_of_lt_of_le (bounds number before).2 (bounds' later behind).1
    · intro number member
      rcases List.mem_append.mp member with before | behind
      · have bound := bounds number before
        omega
      · have bound := bounds' number behind
        omega

end Ascends

namespace Journal

/-- The labels that were generated on the way to a draft, in order. -/
def generated (journal : Journal) : List Label :=
  (inlineEntries journal.log).map Registration.label

theorem generated_append (draft : Draft) (log log' : List Registration) :
    (⟨draft, log ++ log'⟩ : Journal).generated =
      (inlineEntries log).map Registration.label ++
        (inlineEntries log').map Registration.label := by
  unfold generated
  rw [inlineEntries_append, List.map_append]

theorem ascends_declare {journal : Journal} {counter : Nat} {change : Draft → Draft}
    (ascends : Ascends counter journal.draft.counter journal.generated)
    (same : (change journal.draft).counter = journal.draft.counter) :
    Ascends counter (journal.declare change).draft.counter (journal.declare change).generated := by
  change Ascends counter (change journal.draft).counter journal.generated
  rwa [same]

theorem ascends_step {counter : Nat}
    (ascends : Ascends counter journal.draft.counter journal.generated)
    (step : Step journal later) : Ascends counter later.draft.counter later.generated := by
  cases step with
  | base => exact ascends_declare ascends (Draft.counter_bindBase ..)
  | prefixes => exact ascends_declare ascends (Draft.counter_bindPrefix ..)
  | start | startActions => exact ascends_declare ascends rfl
  | inPlace shape =>
    unfold inPlace
    rw [generated_append]
    exact ascends.append (.freshLabel journal.draft)
  | stated label shape =>
    unfold stated
    rw [generated_append]
    exact ascends.append (.kept rfl)

/-- Whatever is declared, the labels that are generated on the way ascend. -/
theorem ascends_steps {start : Draft} (steps : Steps ⟨start, []⟩ journal) :
    Ascends start.counter journal.draft.counter journal.generated := by
  induction steps with
  | refl => exact .kept rfl
  | tail _ step ih => exact ascends_step ih step

end Journal

/-! ### Sessions -/

/-- The labels that an operation generates. -/
inductive Operation.Generates (check : String → Except Iri.Fault Unit) (draft : Draft) :
    Operation → List Label → Prop where
  | freshLabel : Generates check draft .freshLabel [draft.freshLabel.1]
  | parse (passes : settings.Passes check text draft journal) :
      Generates check draft (.parse settings text) journal.generated
  | declarePrefix : Generates check draft (.declarePrefix name reference) []
  | declareBase : Generates check draft (.declareBase reference) []
  | resetCounter : Generates check draft .resetCounter []
  | register : Generates check draft (.register label shape) []
  | setStart : Generates check draft (.setStart label) []
  | setStartActions : Generates check draft (.setStartActions actions) []

namespace Operation

theorem exists_generates (check : String → Except Iri.Fault Unit) (draft : Draft)
    (operation : Operation) : ∃ labels, operation.Generates check draft labels := by
  cases operation with
  | freshLabel => exact ⟨_, .freshLabel⟩
  | parse settings text =>
    obtain ⟨journal, passes⟩ := settings.exists_passes check text draft
    exact ⟨_, .parse passes⟩
  | declarePrefix => exact ⟨[], .declarePrefix⟩
  | declareBase => exact ⟨[], .declareBase⟩
  | resetCounter => exact ⟨[], .resetCounter⟩
  | register => exact ⟨[], .register⟩
  | setStart => exact ⟨[], .setStart⟩
  | setStartActions => exact ⟨[], .setStartActions⟩

/-- No operation but a reset moves the counter back. -/
theorem Generates.ascends (generates : Operation.Generates check draft operation labels)
    (other : operation ≠ .resetCounter) :
    Ascends draft.counter (operation.apply check draft).counter labels := by
  cases generates with
  | freshLabel => exact .freshLabel draft
  | parse passes =>
    change Ascends draft.counter (Settings.parseIntoWith check _ _ draft).2.counter _
    rw [passes.draft_eq]
    exact Journal.ascends_steps passes.steps
  | resetCounter => exact absurd rfl other
  | declarePrefix => exact .kept (Draft.counter_bindPrefix ..)
  | declareBase => exact .kept (Draft.counter_bindBase ..)
  | register | setStart | setStartActions => exact .kept rfl

end Operation

/-- The labels that the operations of a session generate, in order. -/
inductive Session.Generates (check : String → Except Iri.Fault Unit) :
    Draft → List Operation → List Label → Prop where
  | nil : Generates check draft [] []
  | cons (first : Operation.Generates check draft operation labels)
      (rest : Generates check (operation.apply check draft) operations labels') :
      Generates check draft (operation :: operations) (labels ++ labels')

namespace Session

theorem exists_generates (check : String → Except Iri.Fault Unit) (draft : Draft)
    (operations : List Operation) : ∃ labels, Generates check draft operations labels := by
  induction operations generalizing draft with
  | nil => exact ⟨[], .nil⟩
  | cons operation operations ih =>
    obtain ⟨labels, first⟩ := operation.exists_generates check draft
    obtain ⟨labels', rest⟩ := ih (operation.apply check draft)
    exact ⟨labels ++ labels', .cons first rest⟩

theorem Generates.ascends (generates : Generates check draft operations labels)
    (noReset : .resetCounter ∉ operations) :
    Ascends draft.counter (draft.run check operations).counter labels := by
  induction generates with
  | nil => exact .kept rfl
  | cons first _ ih =>
    rw [List.mem_cons, not_or] at noReset
    exact (first.ascends (Ne.symm noReset.1)).append (ih noReset.2)

/-- To generate a label takes at most one more round than there are shapes. The label has the least
number from the counter on that no shape has, the counter moves past it, and nothing else changes.
So whatever is done to a draft, the labels that are generated between two resets of the counter
ascend, and each of them is generated once. -/
theorem labels_ascend :
    (∀ draft : Draft, ∃ number, ∃ rounds ≤ draft.shapes.length + 1,
      (∀ rounds' label last, draft.Allocates rounds' label last ↔
        rounds' = rounds ∧ (label, last) = draft.freshLabel) ∧
      draft.freshLabel = (Label.numbered number, { draft with counter := number + 1 }) ∧
      (Label.numbered number).text = "_:b" ++ Nat.repr number ∧
      IsLeast { n | draft.counter ≤ n ∧ Label.numbered n ∉ draft.labels } number) ∧
    ∀ check draft operations, .resetCounter ∉ operations →
      (∃ labels, Generates check draft operations labels) ∧
      ∀ labels, Generates check draft operations labels →
        labels.Nodup ∧
        ∃ numbers : List Nat, labels = numbers.map Label.numbered ∧ numbers.Pairwise (· < ·) := by
  refine ⟨fun draft => ?_, fun check draft operations noReset => ⟨exists_generates .., ?_⟩⟩
  · obtain ⟨rounds, few, allocates⟩ := draft.allocates_freshLabel
    refine ⟨draft.nextNumber, rounds, few, fun rounds' label last => ?_, draft.freshLabel_eq, ?_,
      draft.isLeast_nextNumber⟩
    · constructor
      · intro other
        obtain ⟨rfl, rfl, rfl⟩ := allocates.unique other
        exact ⟨rfl, rfl⟩
      · rintro ⟨rfl, same⟩
        rwa [← same] at allocates
    · exact (String.append_assoc ..).symm
  · intro labels generates
    obtain ⟨numbers, rfl, ordered, -⟩ := (generates.ascends noReset).numbers
    have distinct : numbers.Nodup := ordered.imp Nat.ne_of_lt
    exact ⟨distinct.map fun _ _ => Label.numbered_injective, numbers, rfl, ordered⟩

/-- The labels of declared shapes are stepped over, those of other spellings are not. -/
theorem labels_ascend_declared :
    let operations : List Operation := [.register (.blank "b00") .empty,
      .register (.blank "b0") .empty, .freshLabel, .register (.blank "b2") .empty, .freshLabel]
    .resetCounter ∉ operations ∧
      Generates (fun text => Iri.check text.toList) .empty operations [.blank "b1", .blank "b3"] ∧
      [Label.blank "b1", .blank "b3"].Nodup ∧
      ∃ numbers : List Nat, [Label.blank "b1", .blank "b3"] = numbers.map Label.numbered ∧
        numbers.Pairwise (· < ·) := by
  intro operations
  have noReset : .resetCounter ∉ operations := by simp [operations]
  have generates : Generates (fun text => Iri.check text.toList) .empty operations
      [.blank "b1", .blank "b3"] :=
    .cons .register (.cons .register (.cons .freshLabel (.cons .register (.cons .freshLabel .nil))))
  exact ⟨noReset, generates, (labels_ascend.2 _ .empty operations noReset).2 _ generates⟩

end Session

end ShExCompact
