import ShExCompact.Proofs.Reading.Tokens

/-! The terms of documents are read as the grammar has them. -/
namespace ShExCompact.Reading

open ShExCompact.Parser (eat eatToken advance peek collect)
open Phrase (sign terminal many)

variable {follow : Option Token → Prop}

theorem iri_sound : Sound Parser.iri Grammar.iri := iri_reads.sound

theorem iri_complete : Complete Parser.iri Grammar.iri follow := iri_reads.complete

theorem iri_opens : Opens Grammar.iri (Token.isIri · = true) :=
  .terminal fun _ _ _ _ means => isIri_of_means means

/-! ### Literals -/

/-- No token that would go on with a string. -/
def EndsString (next : Option Token) : Prop :=
  next ≠ some (.punct .doubleCaret) ∧ ∀ tag, next ≠ some (.language tag)

/-- What may stand after a string. -/
def suffix : Phrase Literal.Suffix :=
  terminal Grammar.LanguageOf <|>
    (do sign .doubleCaret; return .datatype (← Grammar.iri)) <|> return .plain

theorem language_readsAt (tag : String) :
    ReadsAt (.language tag) (advance >>= fun _ => pure (.language tag)) fun context draft =>
      Grammar.LanguageOf context draft (.language tag) :=
  (ReadsAt.advanced (Literal.Suffix.language tag)).congr fun context draft value =>
    ⟨fun means => by cases means; rfl, by rintro rfl; exact .tag⟩

theorem suffix_sound : Sound Parser.literalSuffix suffix := by
  refine .peeked fun next => ?_
  split
  next tag => exact .left ((language_readsAt tag).sound fun _ _ _ means => means)
  next => exact .right (.left (.advanced (iri_sound.bind fun _ => .done _)))
  next => exact Sound.right (.right (.done _)) _

theorem suffix_complete : Complete Parser.literalSuffix suffix EndsString := by
  refine .orElse (.readsAt fun context draft token value means => ?_) (.orElse ?_ ?_)
  · cases means
    exact .peeked (language_readsAt _)
  · refine .peeked (Leads.then (.exactly rfl)) fun next same => ?_
    subst same
    exact .advanced (iri_complete.then fun _ => .done _)
  · refine .peeked (.done fun _ follows => follows) fun next ends => ?_
    split
    next => exact (ends.2 _ rfl).elim
    next => exact (ends.1 rfl).elim
    next => exact .done _

theorem plain_readsAt (notString : ∀ raw width, token ≠ .string raw width) :
    ReadsAt token Parser.literal fun context draft => Grammar.PlainOf context draft token := by
  refine .peeked ?_
  split
  next raw width same => exact (notString raw width (Option.some.inj same)).elim
  next =>
    rw [Option.bind_some]
    cases plain : Parser.plainLiteral? token with
    | none =>
      refine .refused (fun _ _ _ _ => nofun) fun context draft value means => ?_
      cases means with
      | plain plain' => cases plain.symm.trans plain'
    | some text =>
      refine (ReadsAt.advanced text).congr fun context draft value => ⟨fun means => ?_, ?_⟩
      · cases means with
        | plain plain' => exact Option.some.inj (plain'.symm.trans plain)
      · rintro rfl
        exact .plain plain

theorem literal_sound : Sound Parser.literal Grammar.literal := by
  intro next
  by_cases string : ∃ raw width, next = some (.string raw width)
  · obtain ⟨raw, width, rfl⟩ := string
    refine .left (.peeked ?_)
    exact (string_reads.sound _).bind fun _ => suffix_sound.bind fun _ => .done _
  · cases next with
    | none => exact .peeked (Sound.refused _ _)
    | some token =>
      have notString : ∀ raw width, token ≠ .string raw width :=
        fun raw width same => string ⟨raw, width, congrArg some same⟩
      exact .right ((plain_readsAt notString).sound fun _ _ _ means => means)

theorem literal_complete : Complete Parser.literal Grammar.literal EndsString := by
  refine .orElse ?_ (.readsAt fun context draft token value means => plain_readsAt ?_)
  · have string : ∀ context draft token value, Grammar.StringOf context draft token value →
        Starts (fun token => ∃ raw width, token = .string raw width) (some token) := by
      intro context draft token value means
      cases means <;> exact ⟨_, _, rfl⟩
    refine .peeked (Leads.then (.terminal string)) fun next starts => ?_
    cases next with
    | none => exact starts.elim
    | some token =>
      obtain ⟨raw, width, rfl⟩ := starts
      refine string_reads.complete.then fun _ => ?_
      exact suffix_complete.bind (fun _ => .done fun _ ends => ends) fun _ => .done _
  · rintro raw width rfl
    cases means with
    | plain plain => cases plain

theorem isLiteral_of_plain (means : Grammar.PlainOf context draft token value) :
    token.isLiteral := by
  cases means with
  | plain plain =>
    unfold Parser.plainLiteral? at plain
    split at plain <;> first | rfl | cases plain

theorem literal_opens : Opens Grammar.literal (Token.isLiteral · = true) := by
  refine .orElse (.then (.terminal fun _ _ _ _ means => ?_))
    (.terminal fun _ _ _ _ means => isLiteral_of_plain means)
  cases means <;> rfl

/-! ### Cardinalities -/

/-- A token that is a cardinality. -/
def isCardinality : Token → Bool
  | .punct .star | .punct .plus | .punct .question | .repeatRange _ => true
  | _ => false

theorem sign_readsAt {bounds : Cardinality}
    (means : ∀ context draft value, Grammar.CardinalityOf context draft token value ↔
      value = bounds) :
    ReadsAt token (advance >>= fun _ => pure (some bounds)) fun context draft result =>
      ∃ value, Grammar.CardinalityOf context draft token value ∧ some value = result := by
  refine (ReadsAt.advanced (some bounds)).congr fun context draft result => ?_
  constructor
  · rintro ⟨value, meaning, rfl⟩
    rw [(means ..).mp meaning]
  · rintro rfl
    exact ⟨bounds, (means ..).mpr rfl, rfl⟩

theorem cardinality_readsAt (begins : isCardinality token) :
    ReadsAt token Parser.cardinality? fun context draft result =>
      ∃ value, Grammar.CardinalityOf context draft token value ∧ some value = result := by
  refine .peeked ?_
  split
  next same =>
    cases same
    exact sign_readsAt fun _ _ _ => ⟨by rintro ⟨⟩; rfl, by rintro rfl; exact .star⟩
  next same =>
    cases same
    exact sign_readsAt fun _ _ _ => ⟨by rintro ⟨⟩; rfl, by rintro rfl; exact .plus⟩
  next same =>
    cases same
    exact sign_readsAt fun _ _ _ => ⟨by rintro ⟨⟩; rfl, by rintro rfl; exact .question⟩
  next lexeme same =>
    cases same
    dsimp only
    have reads : ReadsAt (.repeatRange lexeme) _ _ := (ReadsAt.given (Gives.range lexeme)).map some
    simp only [map_bind, map_pure] at reads
    simp only [map_eq_pure_bind, bind_assoc, pure_bind, Option.isSome_some, if_true]
    exact reads
  next noStar noPlus noQuestion noRange =>
    unfold isCardinality at begins
    split at begins
    · exact (noStar rfl).elim
    · exact (noPlus rfl).elim
    · exact (noQuestion rfl).elim
    · exact (noRange _ rfl).elim
    · cases begins

theorem isCardinality_of_means (means : Grammar.CardinalityOf context draft token value) :
    isCardinality token := by
  cases means <;> rfl

theorem cardinality_sound : Sound Parser.cardinality? (optional Grammar.cardinality) := by
  intro next
  cases begins : next.any isCardinality with
  | true =>
    obtain ⟨token, rfl, begins⟩ := (Option.any_eq_true ..).mp begins
    refine .left ?_
    rw [Grammar.cardinality, Phrase.map_terminal]
    exact (cardinality_readsAt begins).sound fun _ _ _ means => means
  | false =>
    refine .right (.peeked ?_)
    split
    next => cases begins
    next => cases begins
    next => cases begins
    next => cases begins
    next => exact Sound.done none _

theorem cardinality_complete : Complete Parser.cardinality? (optional Grammar.cardinality)
    fun next => next.any isCardinality = false := by
  refine .orElse ?_ (.peeked (.done fun _ follows => follows) fun next ends => ?_)
  · rw [Grammar.cardinality, Phrase.map_terminal]
    refine .readsAt fun context draft token result meaning => ?_
    obtain ⟨value, means, -⟩ := meaning
    exact cardinality_readsAt (isCardinality_of_means means)
  · split
    next => cases ends
    next => cases ends
    next => cases ends
    next => cases ends
    next => exact .done none

theorem cardinality_opens : Opens Grammar.cardinality (isCardinality · = true) :=
  .terminal fun _ _ _ _ means => isCardinality_of_means means

/-! ### Actions -/

theorem code_readsAt (extension lexeme : String) :
    ReadsAt (.code lexeme) (do advance; return some (extension, Parser.codeContent lexeme))
      fun context draft result =>
        ∃ code, Grammar.CodeOf context draft (.code lexeme) code ∧
          some (extension, code) = result :=
  (ReadsAt.advanced _).congr fun context draft value =>
    ⟨fun ⟨_, means, same⟩ => by cases means; exact same.symm, fun same => ⟨_, .code, same.symm⟩⟩

theorem code_sound (extension : String) : Sound (do
    match ← peek with
    | some (.code lexeme) =>
      advance
      return some (extension, Parser.codeContent lexeme)
    | _ => Parser.unexpected [.codeBlock])
    ((fun code => some (extension, code)) <$> terminal Grammar.CodeOf) := by
  rw [Phrase.map_terminal]
  refine .peeked fun next => ?_
  split
  next lexeme => exact (code_readsAt _ lexeme).sound fun _ _ _ means => means
  next => exact Sound.refused _ _

theorem action_sound : Sound Parser.action? (optional Grammar.action) := by
  simp only [optional, Grammar.action, map_bind, map_pure]
  exact .ifEaten _ (iri_sound.bind fun _ => code_sound _) (.done none)

theorem action_begins :
    SoundFrom (some (.punct .percent)) Parser.action? (some <$> Grammar.action) := by
  simp only [Grammar.action, map_bind, map_pure]
  exact .ifEaten (iri_sound.bind fun _ => code_sound _)

theorem action_complete : Complete Parser.action? (some <$> Grammar.action) follow := by
  simp only [Grammar.action, map_bind, map_pure]
  refine .ifEaten (iri_complete.then fun extension => ?_)
  change Complete _ ((fun code => some (extension.value, code)) <$> terminal Grammar.CodeOf) _
  rw [Phrase.map_terminal]
  refine .readsAt fun context draft token value meaning => .peeked ?_
  obtain ⟨_, means, -⟩ := meaning
  cases means
  exact code_readsAt _ _

theorem action_opens : Opens Grammar.action (· = .punct .percent) :=
  .then (.exactly _)

theorem actions_sound : Sound Parser.actions Grammar.actions :=
  (action_sound.collectMany action_opens).bind fun _ => .done _

theorem actions_complete :
    Complete Parser.actions Grammar.actions (· ≠ some (.punct .percent)) := by
  have ending : Complete Parser.action? (return none) (· ≠ some (.punct .percent)) :=
    .unlessEaten (.done fun _ other => other) (.done none)
  exact (Complete.collectMany action_complete ending .any (fun _ _ => trivial)
    action_opens).result _

end ShExCompact.Reading
