import Mathlib.Data.List.Basic
import ShExCompact.Proofs.Reading.Layout

/-! Documents one after the other. The second document of a session continues the first one as its
text on the next line would, if it has no code block. -/
namespace ShExCompact

/-! ### Percent signs -/

theorem TokenSequence.Spells.percent (spells : Spells start text tokens)
    (member : .punct .percent ∈ tokens.map Lexeme.token) : '%' ∈ text := by
  induction spells with
  | finished => cases member
  | token gap found later ih =>
    rcases List.mem_cons.mp member with same | member
    · dsimp only at same
      subst same
      have shown : _ = ['%'] := Token.first_shown found
      simp [shown]
    · have inside := ih member
      simp [inside]

/-! ### Derivations one after the other -/

namespace Phrase

theorem Repeats.append {phrase : Phrase α}
    (front : phrase.Repeats context tokens journal values middle)
    (later : phrase.Repeats context rest middle others last) :
    phrase.Repeats context (tokens ++ rest) journal (values ++ others) last := by
  induction front with
  | done => exact later
  | more first _ ih =>
    rw [List.append_assoc]
    exact .more first (ih later)

theorem Repeats.mono {phrase other : Phrase α}
    (included : ∀ {tokens journal value later}, phrase.Derives context tokens journal value later →
      other.Derives context tokens journal value later)
    (repeats : phrase.Repeats context tokens journal values last) :
    other.Repeats context tokens journal values last := by
  induction repeats with
  | done => exact .done
  | more first _ ih => exact .more (included first) ih

end Phrase

namespace Grammar

open Reading (action_opens document_of_statements)

/-- A document is a sequence of statements, or actions of the start after directives and before
other statements. -/
theorem document_iff : document.Derives context tokens journal () later ↔
    (∃ values, statement.Repeats context tokens journal values later) ∨
    ∃ front first rest directives values middle between, tokens = front ++ (first ++ rest) ∧
      directive.Repeats context front journal directives middle ∧
      startActions.Derives context first middle () between ∧
      statement.Repeats context rest between values later := by
  constructor
  · rintro ⟨front, _, directives, middle, rfl, repeats, body⟩
    have statements : statement.Repeats context front journal directives middle :=
      repeats.mono .inl
    rcases body with ⟨first, _, _, between, rfl, derives, rest, _, values, _, rfl, others, rfl, -,
      rfl⟩ | ⟨rfl, -, rfl⟩
    · rw [List.append_nil]
      rcases derives with notStartAction | startActions
      · exact .inl ⟨_, statements.append (.more (.inr notStartAction) others)⟩
      · exact .inr ⟨front, first, rest, directives, values, middle, between, rfl, repeats,
          startActions, others⟩
    · rw [List.append_nil]
      exact .inl ⟨directives, statements⟩
  · rintro (⟨values, statements⟩ | ⟨front, first, rest, directives, values, middle, between, rfl,
      repeats, startActions, others⟩)
    · exact document_of_statements .done statements
    · exact ⟨front, _, directives, middle, rfl, repeats, .inl ⟨first, rest, (), between, rfl,
        .inr startActions, rest, [], values, later, (List.append_nil _).symm, others, rfl, rfl,
        rfl⟩⟩

/-- Statements may follow a document. -/
theorem document_append (derives : document.Derives context tokens journal () middle)
    (statements : statement.Repeats context rest middle values later) :
    document.Derives context (tokens ++ rest) journal () later := by
  rcases document_iff.mp derives with ⟨_, others⟩ | ⟨front, first, last, directives, _, _, _, rfl,
    repeats, startActions, others⟩
  · exact document_iff.mpr (.inl ⟨_, others.append statements⟩)
  · refine document_iff.mpr (.inr ⟨front, first, last ++ rest, directives, _, _, _, ?_, repeats,
      startActions, others.append statements⟩)
    rw [List.append_assoc, List.append_assoc]

/-- A document without actions is a sequence of statements. -/
theorem statements_of_document (derives : document.Derives context tokens journal () later)
    (noPercent : .punct .percent ∉ tokens) :
    ∃ values, statement.Repeats context tokens journal values later := by
  rcases document_iff.mp derives with statements | ⟨front, first, rest, directives, values, middle,
    between, rfl, repeats, startActions, others⟩
  · exact statements
  · have opens : Reading.Opens Grammar.startActions (· = .punct .percent) :=
      .then (.then action_opens)
    obtain ⟨token, more, rfl, rfl⟩ := opens startActions
    simp at noPercent

end Grammar

namespace Settings

variable {check : String → Except Iri.Fault Unit} {settings : Settings}

/-- Tokens that are read end with no problem, and the grammar derives them whatever was declared
before and however long the text is. -/
theorem derives_of_readTokens
    (read : readTokens check isStrict finish tokens draft = (.ok (), draft')) :
    tokens.problem = none ∧ ∀ finish log, ∃ log',
      Grammar.document.Derives ⟨check, isStrict, finish, none⟩ (tokens.lexemes.map Lexeme.token)
        ⟨draft, log⟩ () ⟨draft', log'⟩ := by
  unfold readTokens at read
  cases outcome : Parser.document ⟨check, isStrict, finish, tokens.problem⟩
      ⟨tokens.lexemes, draft⟩ with
  | error problem state => simp [outcome] at read
  | ok value stop =>
    obtain ⟨rest, later⟩ := stop
    obtain rfl : later = draft' := by simpa [outcome] using read
    obtain rfl : rest = [] := Reading.document_finishes outcome
    have calm := Reading.calm_of_document outcome
    dsimp only at calm
    rw [calm] at outcome
    refine ⟨calm, fun finish log => ?_⟩
    generalize tokens.lexemes = lexemes at outcome ⊢
    have again := Reading.Stepwise.document.finish rfl finish outcome
    obtain ⟨front, rest, ⟨_, log'⟩, rfl, ends, derives⟩ :=
      @Reading.document_sound _ _ lexemes ⟨draft, log⟩ _ _ rfl again
    cases ends
    rw [List.append_nil]
    dsimp only at derives
    exact ⟨log', derives⟩

theorem parseIntoWith_eq_ok : settings.parseIntoWith check text draft = (.ok (), draft') ↔
    readTokens check settings.strict (Text.width text.toList) (TokenSequence.ofText text.toList)
      draft = (.ok (), draft') := by
  unfold parseIntoWith
  dsimp only
  generalize readTokens check settings.strict _ _ draft = outcome
  obtain ⟨problem | value, later⟩ := outcome
  · simp
  · simp

/-- A document that is read spells tokens, which the grammar derives whatever was declared before
and however long the text is. -/
theorem derives_of_parseIntoWith
    (read : settings.parseIntoWith check text draft = (.ok (), draft')) :
    ∃ tokens, TokenSequence.Spells 0 text.toList tokens ∧
      ∀ finish log, ∃ log', Grammar.document.Derives ⟨check, settings.strict, finish, none⟩
        (tokens.map Lexeme.token) ⟨draft, log⟩ () ⟨draft', log'⟩ := by
  obtain ⟨calm, derives⟩ := derives_of_readTokens (parseIntoWith_eq_ok.mp read)
  exact ⟨_, (TokenSequence.ofText_iff_spells ..).mp ⟨calm, rfl⟩, derives⟩

/-- A document is read if its tokens are derived. -/
theorem parseIntoWith_of_derives (spells : TokenSequence.Spells 0 text.toList tokens)
    (derives : Grammar.document.Derives ⟨check, settings.strict, Text.width text.toList, none⟩
      (tokens.map Lexeme.token) ⟨draft, log⟩ () ⟨draft', log'⟩) :
    settings.parseIntoWith check text draft = (.ok (), draft') := by
  obtain ⟨calm, lexemes⟩ := (TokenSequence.ofText_iff_spells ..).mpr spells
  obtain ⟨size, same⟩ : ∃ size, TokenSequence.ofText text.toList = ⟨tokens, none, size⟩ :=
    ⟨_, by rw [← calm, ← lexemes]⟩
  apply parseIntoWith_eq_ok.mpr
  rw [same]
  exact Reading.readTokens_of_derives derives size

/-- Two documents that are read one after the other are read as one, the second one on the line
after the first, if no percent sign and no backslash stands in the second. -/
theorem parseIntoWith_append (first : settings.parseIntoWith check text draft = (.ok (), draft'))
    (second : settings.parseIntoWith check more draft' = (.ok (), draft''))
    (plain : ∀ c ∈ more.toList, ¬ Brace.IsDelimiter c) :
    settings.parseIntoWith check (text ++ "\n" ++ more) draft = (.ok (), draft'') := by
  obtain ⟨tokens, spells, derives⟩ := derives_of_parseIntoWith first
  obtain ⟨others, spells', derives'⟩ := derives_of_parseIntoWith second
  obtain ⟨others', same, whole⟩ := spells.append spells' plain
  have split : (text ++ "\n" ++ more).toList = text.toList ++ '\n' :: more.toList := by simp
  obtain ⟨log, document⟩ := derives (Text.width (text ++ "\n" ++ more).toList) []
  obtain ⟨log', document'⟩ := derives' (Text.width (text ++ "\n" ++ more).toList) log
  have noPercent : .punct .percent ∉ others.map Lexeme.token := fun member =>
    plain _ (spells'.percent member) (.inl rfl)
  obtain ⟨values, statements⟩ := Grammar.statements_of_document document' noPercent
  have joined := Grammar.document_append document statements
  rw [← same, ← List.map_append] at joined
  exact parseIntoWith_of_derives (split ▸ whole) joined

theorem parseIntoWith_append_prefix :
    (default.parseIntoWith (fun text => Iri.check text.toList) "PREFIX p: <a:>" .empty =
        (.ok (), Draft.empty.bindPrefix "p" "a:") ∧
      default.parseIntoWith (fun text => Iri.check text.toList) "p:s \x7b\x7d"
          (Draft.empty.bindPrefix "p" "a:") =
        (.ok (), (Draft.empty.bindPrefix "p" "a:").register (.iri ⟨"a:s"⟩) .empty) ∧
      ∀ c ∈ "p:s \x7b\x7d".toList, ¬ Brace.IsDelimiter c) ∧
    default.parseIntoWith (fun text => Iri.check text.toList)
        ("PREFIX p: <a:>" ++ "\n" ++ "p:s \x7b\x7d") .empty =
      (.ok (), (Draft.empty.bindPrefix "p" "a:").register (.iri ⟨"a:s"⟩) .empty) := by
  have first : default.parseIntoWith (fun text => Iri.check text.toList) "PREFIX p: <a:>" .empty =
      (.ok (), Draft.empty.bindPrefix "p" "a:") := by decide +kernel
  have second : default.parseIntoWith (fun text => Iri.check text.toList) "p:s \x7b\x7d"
        (Draft.empty.bindPrefix "p" "a:") =
      (.ok (), (Draft.empty.bindPrefix "p" "a:").register (.iri ⟨"a:s"⟩) .empty) := by
    decide +kernel
  have plain : ∀ c ∈ "p:s \x7b\x7d".toList, ¬ Brace.IsDelimiter c := by simp [Brace.IsDelimiter]
  exact ⟨⟨first, second, plain⟩, parseIntoWith_append first second plain⟩

end Settings

end ShExCompact
