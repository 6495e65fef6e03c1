import ShExCompact.Proofs.Drafts.Registrations
import ShExCompact.Proofs.Reading.Documents

/-! What becomes of the shapes that a document defines in place. -/
namespace ShExCompact.Settings

variable {check : String → Except Iri.Fault Unit} {settings : Settings} {text : String}

/-- A document is derived with a journal, from the draft that the settings give. -/
def Derives (settings : Settings) (check : String → Except Iri.Fault Unit) (text : String)
    (journal : Journal) : Prop :=
  let tokens := TokenSequence.ofText text.toList
  Grammar.document.Derives ⟨check, settings.strict, Text.width text.toList, tokens.problem⟩
    (tokens.lexemes.map Lexeme.token) ⟨settings.initialDraft, []⟩ () journal

theorem derives_of_parseWith (read : settings.parseWith check text = .ok schema) :
    ∃ journal, settings.Derives check text journal ∧ journal.draft.finish = schema := by
  unfold parseWith parseIntoWith readTokens at read
  unfold Derives
  dsimp only at read ⊢
  generalize TokenSequence.ofText text.toList = tokens at read ⊢
  cases outcome : Parser.document ⟨check, settings.strict, Text.width text.toList, tokens.problem⟩
      ⟨tokens.lexemes, settings.initialDraft⟩ with
  | error problem state => simp [outcome] at read
  | ok value stop =>
    obtain rfl : stop.draft.finish = schema := by simpa [outcome] using read
    have ended := Reading.document_finishes outcome
    obtain ⟨front, rest, journal, split, rfl, derives⟩ :=
      @Reading.document_sound _ _ tokens.lexemes ⟨settings.initialDraft, []⟩ _ _ rfl outcome
    obtain rfl : rest = [] := ended
    rw [List.append_nil] at split
    exact ⟨journal, split ▸ derives, rfl⟩

theorem initialDraft_shapes (settings : Settings) : settings.initialDraft.shapes = [] := by
  unfold initialDraft
  cases settings.base <;> rfl

/-- What becomes of a shape that is declared in place, between other declarations. Those before it
have other labels, and so have the shapes that are declared in place after it; it is kept unless
the last statement under its label declares another shape. -/
structure InlineOutcome (before : List Registration) (label : Label) (shape : Shape)
    (after : List Registration) (schema : Schema) : Prop where
  unused : ∀ entry ∈ before, entry.label ≠ label
  stated : ∀ entry ∈ after, entry.label = label → ∃ other, entry = .stated label other
  kept_iff : schema.shape? label = some shape ↔
    ∀ other, Registration.lastShape? label after = some other → other = shape

theorem inline_outcome (read : settings.parseWith check text = .ok schema) :
    ∃ journal, settings.Derives check text journal ∧ journal.draft.finish = schema ∧
      ∀ before label shape after, journal.log = before ++ .inPlace label shape :: after →
        InlineOutcome before label shape after schema := by
  obtain ⟨journal, derives, finished⟩ := derives_of_parseWith read
  have consistent : journal.Consistent :=
    (Journal.Consistent.initial _ settings.initialDraft_shapes).steps
      (Grammar.document.steps derives)
  refine ⟨journal, derives, finished, fun before label shape after split => ?_⟩
  subst finished
  exact ⟨consistent.fresh _ _ _ _ split, consistent.stated_after split,
    consistent.inPlace_kept_iff split⟩

/-- The shape with one constraint, for the nodes of a predicate. -/
def constrained (predicate : Iri) (value : ValueClass) : Shape :=
  { Shape.empty with
    expression :=
      some (.constraint none ⟨predicate, value, .zeroOrOne, false, false, [], .empty⟩) }

theorem inline_outcome_of_one :
    ∃ schema, default.parseWith (fun text => Iri.check text.toList)
        "<a:s> \x7b <a:p> \x7b\x7d \x7d" = .ok schema ∧
      ∃ journal, default.Derives (fun text => Iri.check text.toList)
          "<a:s> \x7b <a:p> \x7b\x7d \x7d" journal ∧ journal.draft.finish = schema ∧
        ∀ before label shape after, journal.log = before ++ .inPlace label shape :: after →
          InlineOutcome before label shape after schema := by
  have read : default.parseWith (fun text => Iri.check text.toList)
      "<a:s> \x7b <a:p> \x7b\x7d \x7d" = .ok ⟨.empty, none, none, [(.blank "b0", .empty),
        (.iri ⟨"a:s"⟩, constrained ⟨"a:p"⟩ (.reference (.one (.blank "b0"))))]⟩ := by
    decide +kernel
  exact ⟨_, read, inline_outcome read⟩

/-- The label that is generated in the first statement is the one of the second, whose shape takes
the place of the empty one. -/
theorem inline_captured :
    default.parse "<a:s> \x7b <a:p> \x7b\x7d \x7d _:b0 \x7b <a:q> . \x7d" =
      .ok ⟨.empty, none, none, [(.blank "b0", constrained ⟨"a:q"⟩ .anything),
        (.iri ⟨"a:s"⟩, constrained ⟨"a:p"⟩ (.reference (.one (.blank "b0"))))]⟩ ∧
    constrained ⟨"a:q"⟩ .anything ≠ .empty := by
  decide +kernel

end ShExCompact.Settings
