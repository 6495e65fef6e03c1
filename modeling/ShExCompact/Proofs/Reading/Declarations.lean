import ShExCompact.Proofs.Drafts.Placement
import ShExCompact.Proofs.Reading.Unfinished

/-! What a text does to a draft while it is read, whether or not it is read to its end: which shapes
it declares, and what becomes of the shapes that the draft has before. -/
namespace ShExCompact.Settings

/-- What a text does to a draft while it is read. The journal leads to the draft that is left, so it
knows the counter as well as the shapes. -/
inductive Passes (check : String → Except Iri.Fault Unit) (settings : Settings) (text : String)
    (draft : Draft) : Journal → Prop where
  /-- what the whole text declares -/
  | read (ends : settings.parseIntoWith check text draft = (.ok (), journal.draft))
      (derives : Grammar.document.Derives (settings.context check text).calm
        ((TokenSequence.ofText text.toList).lexemes.map Lexeme.token) ⟨draft, []⟩ () journal) :
      Passes check settings text draft journal
  /-- up to a problem what whole statements do, and the shapes in place of one more, which is not
  whole yet unless the text itself has a problem there -/
  | stopped {diagnostic : Diagnostic}
      (stops : settings.parseIntoWith check text draft = (.error diagnostic, journal.draft))
      (split : (TokenSequence.ofText text.toList).lexemes = done ++ (begun ++ rest))
      (interrupted : Reading.Interrupted (settings.context check text).calm ⟨draft, []⟩
        (done.map Lexeme.token) (begun.map Lexeme.token) middle journal)
      (unfinished : (∀ fault character, diagnostic.cause ≠ .lexical fault character) → ∀ last,
        ¬ Grammar.item.Derives (settings.context check text).calm (begun.map Lexeme.token) middle ()
          last) :
      Passes check settings text draft journal

variable {check : String → Except Iri.Fault Unit} {settings : Settings} {text : String}
  {draft : Draft} {journal : Journal}

/-- Every text is read in some way. -/
theorem exists_passes (check : String → Except Iri.Fault Unit) (settings : Settings) (text : String)
    (draft : Draft) : ∃ journal, settings.Passes check text draft journal := by
  cases outcome : settings.parseIntoWith check text draft with
  | mk result later =>
    cases result with
    | ok =>
      obtain ⟨-, derives⟩ := derives_of_readTokens (parseIntoWith_eq_ok.mp outcome)
      obtain ⟨log, derives⟩ := derives (Text.width text.toList) []
      have calm : (settings.context check text).calm =
        ⟨check, settings.strict, Text.width text.toList, none⟩ := rfl
      rw [← calm] at derives
      exact ⟨⟨later, log⟩, .read outcome derives⟩
    | error diagnostic =>
      obtain ⟨problem, stop, document, rfl, rfl⟩ := parseIntoWith_eq_error outcome
      obtain ⟨_, _, _, _, journal, split, rfl, interrupted, unfinished⟩ :=
        Reading.document_interrupted_calm document
      exact ⟨journal, .stopped outcome split interrupted unfinished⟩

theorem Passes.steps (passes : Settings.Passes check settings text draft journal) :
    Journal.Steps ⟨draft, []⟩ journal := by
  cases passes with
  | read _ derives => exact Grammar.document.steps derives
  | stopped _ _ interrupted =>
    refine (Grammar.document.steps interrupted.whole).trans ?_
    refine Relation.ReflTransGen.mono (fun before later inlines => ?_) _ _ interrupted.inlines
    obtain ⟨shape, rfl⟩ := inlines
    exact .inPlace shape before

theorem Passes.draft_eq (passes : Settings.Passes check settings text draft journal) :
    (settings.parseIntoWith check text draft).2 = journal.draft := by
  cases passes with
  | read ends => rw [ends]
  | stopped stops => rw [stops]

/-- The shapes of the journal are declared in the draft, in their order. -/
theorem Passes.extended (passes : Settings.Passes check settings text draft journal) :
    draft.Extended journal.log (settings.parseIntoWith check text draft).2 := by
  obtain ⟨new, log, extended⟩ := Journal.extended_of_steps passes.steps
  rw [passes.draft_eq, log]
  exact extended

/-- Whatever is read into a draft, with or without a problem, the labels of the draft stay in front,
and a shape is kept unless a statement of the text declares one under its label: no shape in place
takes the place of another one. -/
theorem parseIntoWith_keeps (check : String → Except Iri.Fault Unit) (settings : Settings)
    (text : String) (draft : Draft) :
    draft.labels <+: (settings.parseIntoWith check text draft).2.labels ∧
    (∃ journal, settings.Passes check text draft journal) ∧
    ∀ journal, settings.Passes check text draft journal →
      ∀ label shape, draft.shape? label = some shape →
        (∀ other, .stated label other ∉ journal.log) →
          (settings.parseIntoWith check text draft).2.shape? label = some shape := by
  obtain ⟨journal, passes⟩ := settings.exists_passes check text draft
  refine ⟨passes.extended.labels_prefix, ⟨journal, passes⟩, ?_⟩
  intro journal passes label shape held unstated
  exact passes.extended.shape?_of_not_stated held unstated

end ShExCompact.Settings
