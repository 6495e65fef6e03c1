import ShExCompact.Proofs.Reading.Breaks

/-! Where a production breaks off it has been begun. -/
namespace ShExCompact

/-- An absolute reference denotes the same whatever the base is. -/
theorem Draft.resolve_absolute (draft : Draft) : draft.resolve "<a:>" = "a:" := by
  have plain : Escape.unescapeIri "<a:>" = "<a:>" := by decide
  unfold Draft.resolve
  rw [plain]
  rfl

namespace Reading

open ShExCompact.Parser (eat eatToken advance peek collect whenNext)
open Phrase (sign mark word terminal many several separated exactly)
open Journal (Inlines)

variable {p : Parser α} {k : α → Parser β} {inner : Option (Parser TripleExpr)}
  {inner' : Option (Phrase TripleExpr)}

/-! ### Terms -/

theorem iriOf_absolute (accepts : Context.Accepts context) (draft : Draft) :
    Grammar.IriOf context draft (.iriRef "<a:>") ⟨"a:"⟩ := by
  have resolved := draft.resolve_absolute
  have valid : context.check (draft.resolve "<a:>") = .ok () := by rwa [resolved]
  have means := Grammar.IriOf.reference valid
  rwa [resolved] at means

theorem iri_goesOn : GoesOn Grammar.iri :=
  .means fun _ draft accepts => ⟨_, _, iriOf_absolute accepts draft⟩

theorem label_goesOn : GoesOn Grammar.label :=
  .means fun _ _ _ => ⟨.blankNode "a", _, .blank⟩

theorem predicate_goesOn : GoesOn Grammar.predicate :=
  .means fun _ _ _ => ⟨.keyword .type, _, .type⟩

theorem Stays.absolute (text : String) : Stays (Parser.absolute text) := by
  intro context state problem stop stopped
  rw [absolute_eq] at stopped
  split at stopped <;> cases stopped
  rfl

theorem Stays.expand (space localPart : String) : Stays (Parser.expand space localPart) := by
  intro context state problem stop stopped
  rcases bind_eq_error.mp stopped with impossible | ⟨draft, _, looked, stopped⟩
  · cases impossible
  · cases looked
    cases bound : state.draft.expand? space localPart with
    | some text =>
      rw [bound] at stopped
      exact Stays.absolute text stopped
    | none =>
      rw [bound] at stopped
      cases stopped
      rfl

theorem iri_follows : Follows Parser.iri Grammar.iri where
  sound := iri_sound
  breaks := by
    refine .peeked fun next => ?_
    split
    next text =>
      rw [← bind_assoc]
      refine .given (f := id) (.drafted fun draft => .absolute (draft.resolve text)) ?_
        iri_goesOn ?_
      · exact fun _ state _ _ stopped => Stays.absolute (state.draft.resolve text) stopped
      · rintro context journal value ⟨valid, rfl⟩
        exact ⟨_, rfl, .reference valid, rfl⟩
    next space localPart =>
      refine .given (f := id) (.expand space localPart) (.expand space localPart) iri_goesOn ?_
      rintro context journal value ⟨text, bound, valid, rfl⟩
      exact ⟨_, rfl, .name bound valid, rfl⟩
    next =>
      exact Breaks.refused _ iri_goesOn _
  inner := .iri

theorem included_label : Included (Label.iri <$> Grammar.iri) Grammar.label := by
  rw [Grammar.iri, Phrase.map_terminal]
  rintro context tokens journal label later ⟨token, rfl, ⟨value, means, rfl⟩, rfl⟩
  exact ⟨token, rfl, .iri means, rfl⟩

theorem label_follows : Follows Parser.label Grammar.label where
  sound := label_sound
  breaks := by
    refine .peeked fun next => ?_
    split
    next id => exact .constant fun _ _ => .blank
    next =>
      split
      · exact (iri_follows.breaks.map Label.iri).mono included_label _
      · exact Breaks.refused _ label_goesOn _
  inner := .label

theorem predicate_follows : Follows Parser.predicate Grammar.predicate where
  sound := predicate_sound
  breaks := by
    have type : BreaksFrom (some (.keyword .type)) Parser.predicate
        (do exactly (.keyword .type); pure Vocabulary.type) := .ifEaten (.done _)
    refine .eatenOr (type.mono ?_) (.ifNext ?_ (.refused _ predicate_goesOn) _)
    · rintro context tokens journal value later
        ⟨_, _, _, _, rfl, ⟨_, rfl, rfl, rfl⟩, rfl, rfl, rfl⟩
      exact ⟨_, rfl, .type, rfl⟩
    · refine iri_follows.breaks.mono ?_
      rintro context tokens journal value later ⟨token, rfl, means, rfl⟩
      exact ⟨token, rfl, .iri means, rfl⟩
  inner := .predicate

theorem iriRef_follows : Follows Parser.iriRef (terminal Grammar.ReferenceOf) where
  sound := iriRef_reads.sound
  breaks := by
    refine .peeked fun next => ?_
    split
    next text => exact .constant fun _ _ => .reference
    next => exact Breaks.refused _ (.means fun _ _ _ => ⟨.iriRef "", _, .reference⟩) _
  inner := .referenceText

theorem prefixName_follows : Follows Parser.prefixName (terminal Grammar.PrefixOf) where
  sound := prefixName_reads.sound
  breaks := by
    have goesOn : GoesOn (terminal Grammar.PrefixOf) :=
      .means fun _ _ _ => ⟨.prefixedName "" "", _, .name⟩
    refine .peeked fun next => ?_
    split
    next space localPart =>
      split
      next empty =>
        obtain rfl := String.isEmpty_iff.mp empty
        exact .constant fun _ _ => .name
      next => exact Breaks.refused _ goesOn _
    next => exact Breaks.refused _ goesOn _
  inner := .prefixName

theorem stringOf_of_behind (plan : StringPlan.of (Context.strict context) next = .behind value)
    (draft : Draft) : ∃ token, next = some token ∧ Grammar.StringOf context draft token value := by
  unfold StringPlan.of at plan
  split at plan
  next raw width =>
    refine ⟨_, rfl, ?_⟩
    split at plan
    next decodes =>
      cases plan
      exact .decoded decodes
    next flawed =>
      split at plan <;> cases plan
      next lenient => exact .malformed (Bool.eq_false_iff.mpr lenient) flawed
  next => cases plan

theorem string_goesOn : GoesOn Grammar.string := by
  refine .means fun _ _ _ => ⟨.string "\"\"" 1, "", .decoded ?_⟩
  decide

theorem string_follows : Follows Parser.string Grammar.string where
  sound := string_reads.sound
  breaks := by
    refine fun next => ⟨string_goesOn, ?_⟩
    intro context lexemes journal problem stop begins stopped
    rw [string_eq] at stopped
    cases plan : StringPlan.of context.strict (lexemes.head?.map Lexeme.token) with
    | behind value =>
      obtain ⟨token, same, means⟩ := stringOf_of_behind plan journal.draft
      rw [plan] at stopped
      rcases bind_eq_error.mp stopped with stopped | ⟨_, _, -, impossible⟩
      · cases lexemes with
        | nil => cases same
        | cons lexeme rest =>
          cases same
          refine ⟨[lexeme], rest, journal, rfl, advance_error stopped, .refl, fun _ => ?_⟩
          exact ⟨[], value, journal, ⟨_, rfl, means, rfl⟩, .refl⟩
      · cases impossible
    | inside | other =>
      rw [plan] at stopped
      cases stopped
      exact ⟨[], lexemes, journal, rfl, rfl, string_goesOn.begun context journal⟩
  inner := .string

theorem integer_follows {convert : String → Option α} (known : convert "0" = some zero) :
    Follows (Parser.integer convert) (Grammar.integer convert) where
  sound := (integer_reads convert).sound
  breaks := by
    have goesOn : GoesOn (Grammar.integer convert) :=
      .means fun _ _ _ => ⟨.integer "0", zero, .fits known⟩
    refine .peeked fun next => ?_
    split
    next lexeme =>
      dsimp only
      cases fits : convert lexeme with
      | some value => exact .constant fun _ _ => .fits fits
      | none =>
        exact Breaks.objected _ goesOn _
    next => exact Breaks.refused _ goesOn _
  inner := .integer convert

theorem suffix_follows : Follows Parser.literalSuffix suffix where
  sound := suffix_sound
  breaks := by
    refine .peeked fun next => ?_
    split
    next tag => exact .left (.constant fun _ _ => .tag)
    next => exact .right (.left (.advanced (iri_follows.bind fun _ => .done _)))
    next => exact Breaks.right (.right (.done _)) _
  inner := .suffix

theorem literal_goesOn : GoesOn Grammar.literal := by
  have plain : GoesOn (terminal Grammar.PlainOf) :=
    .means fun _ _ _ => ⟨.keyword .truth, _, .plain rfl⟩
  exact plain.mono .right

theorem literal_follows : Follows Parser.literal Grammar.literal where
  sound := literal_sound
  breaks := by
    refine .peeked fun next => ?_
    split
    next =>
      exact .left ((string_follows.bind fun _ => suffix_follows.bind fun _ => .done _) _)
    next =>
      split
      next text plain =>
        obtain ⟨token, rfl, plain⟩ := Option.bind_eq_some_iff.mp plain
        exact .right (.constant fun _ _ => .plain plain)
      next => exact Breaks.refused _ literal_goesOn _
  inner := .literal

theorem Stays.bound (digits : List Char) : Stays (Parser.bound digits) := by
  unfold Parser.bound
  cases Numeral.uint32? (String.ofList digits) with
  | some value => exact fun _ _ _ _ => nofun
  | none => exact .objected .bound

theorem Stays.range (lexeme : String) : Stays (Parser.range lexeme) := by
  unfold Parser.range
  rcases Parser.rangeBounds lexeme with ⟨least, greatest⟩
  refine (Stays.bound least).bind (.bound least) fun low => ?_
  cases greatest with
  | some greatest =>
    exact (Stays.bound greatest).bind (.bound greatest) fun _ _ _ _ _ => nofun
  | none => exact fun _ _ _ _ => nofun

theorem cardinality_follows : Follows Parser.cardinality? (optional Grammar.cardinality) where
  sound := cardinality_sound
  breaks := by
    have goesOn : GoesOn (optional Grammar.cardinality) := (GoesOn.done none).mono .right
    have known {token : Token} {bounds : Cardinality}
        (means : ∀ context draft, Grammar.CardinalityOf context draft token bounds) :
        BreaksFrom (some token) (advance >>= fun _ => pure (some bounds))
          (optional Grammar.cardinality) := by
      apply BreaksFrom.left
      rw [Grammar.cardinality, Phrase.map_terminal]
      exact .constant fun context draft => ⟨_, means context draft, rfl⟩
    refine .peeked fun next => ?_
    split
    next => exact known fun _ _ => .star
    next => exact known fun _ _ => .plus
    next => exact known fun _ _ => .question
    next lexeme =>
      have breaks : BreaksFrom (some (.repeatRange lexeme)) _ (optional Grammar.cardinality) :=
        .given (f := some) (.range lexeme) (.range lexeme) goesOn fun _ journal _ means =>
          .inl (derives_map ⟨_, rfl, means, rfl⟩)
      simp only [map_eq_pure_bind, bind_assoc, pure_bind, Option.isSome_some, if_true]
      exact breaks
    next => exact Breaks.right (.done none) _
  inner := .optional .cardinality

theorem code_breaks (extension : String) : Breaks (do
    match ← peek with
    | some (.code lexeme) =>
      advance
      return some (extension, Parser.codeContent lexeme)
    | _ => Parser.unexpected [.codeBlock])
    ((fun code => some (extension, code)) <$> terminal Grammar.CodeOf) := by
  rw [Phrase.map_terminal]
  refine .peeked fun next => ?_
  split
  next lexeme => exact .constant fun _ _ => ⟨_, .code, rfl⟩
  next => exact Breaks.refused _ (.means fun _ _ _ => ⟨.code "", _, _, .code, rfl⟩) _

theorem action_goesOn : GoesOn Grammar.action :=
  (GoesOn.exactly _).bind fun _ => iri_goesOn.bind fun _ =>
    (GoesOn.means fun _ _ _ => ⟨.code "", _, .code⟩).bind fun _ => .done _

theorem action_breaks : Breaks Parser.action? (optional Grammar.action) := by
  simp only [optional, Grammar.action, map_bind, map_pure]
  exact .ifEaten _ (iri_follows.bind fun _ => code_breaks _) (.done none)

theorem repeatedActions : Follows (collect Parser.action?) (many Grammar.action) :=
  .collectMany action_sound action_breaks .action action_opens

theorem actions_follows : Follows Parser.actions Grammar.actions where
  sound := actions_sound
  breaks := repeatedActions.bind fun _ => .done _
  inner := .actions

/-! ### Value sets and facets -/

theorem exclusions_follow : Follows (collect Parser.exclusion?) (many Grammar.exclusion) := by
  refine .collectMany exclusion_sound ?_ .exclusion exclusion_opens
  simp only [optional, Grammar.exclusion, map_bind, map_pure]
  refine .ifEaten _ (iri_follows.bind fun _ => (Follows.eaten _).bind fun isStem => ?_) (.done none)
  cases isStem
  · exact .done _
  · exact .done _

theorem iriRange_follows : Follows Parser.iriRange Grammar.iriRange where
  sound := iriRange_sound
  breaks := by
    refine .swap (.ifEaten _ ?_ ?_)
    · exact (Follows.eaten _).bind fun _ => exclusions_follow.bind fun _ => .done _
    · exact iri_follows.bind fun _ => .ifEaten _ (exclusions_follow.bind fun _ => .done _) (.done _)
  inner := .iriRange

theorem value_breaks : Breaks Parser.valueSetItem?
    (some <$> Grammar.value <|> (fun _ => none) <$> sign .closeParen) := by
  refine .swap (.ifEaten _ (.done none) (.ifNext ?_ (.ifNext ?_ (.refused _ ?_) _) _))
  all_goals
    simp only [Grammar.value, Phrase.map_orElse, map_bind, map_pure]
  · exact .right (literal_follows.bind fun _ => .done _)
  · exact .left (iriRange_follows.bind fun _ => .done _)
  · exact (literal_goesOn.bind fun _ => .done _).mono .right

theorem valueSet_follows : Follows Parser.valueSet Grammar.valueSet where
  sound := valueSet_sound
  breaks := (Follows.expectSign _).bind fun _ =>
    .collectUntil value_sound value_breaks .value (.exactly _)
  inner := .valueSet

theorem facetValue_follows (argument : Parser.FacetArgument) :
    Follows (Parser.facetValue argument) (Grammar.facetValue argument) where
  sound := facetValue_sound argument
  breaks := by
    have unsigned : Numeral.uint32? "0" = some 0 := by decide
    have signed : Numeral.int64? "0" = some 0 := by decide
    cases argument with
    | string facet => exact string_follows.breaks.map facet
    | unsigned facet => exact (integer_follows unsigned).breaks.map facet
    | signed facet => exact (integer_follows signed).breaks.map facet
  inner := .facetValue argument

theorem facets_follow (numeric : Bool) : Follows (Facets.ofList <$> collect (Parser.facet? numeric))
    (Grammar.facets numeric) where
  sound := facets_sound numeric
  breaks := by
    have facet : Breaks (Parser.facet? numeric) (optional (Grammar.facet numeric)) := by
      simp only [optional, Grammar.facet, map_bind]
      refine .peeked fun next => ?_
      split
      next keyword =>
        split
        next argument known =>
          refine .left (.means (fun _ _ => .known known) ?_)
          exact (facetValue_follows argument).bind fun _ => .done _
        next => exact Breaks.right (.done none) _
      next => exact Breaks.right (.done none) _
    exact (Follows.collectMany (facet_sound numeric) facet (.facet numeric)
      (facet_opens numeric)).breaks.map _
  inner := .facets numeric

/-! ### Shapes -/

theorem several_breaks (follows : Follows p g) (opens : Opens g (property · = true))
    (f : List α → β) :
    Breaks (do let first ← p; return f (first :: (← collect (whenNext property p))))
      (do return f (← several g)) := by
  have rest : Follows (collect (whenNext property p)) (many g) :=
    .collectMany (follows.sound.whenNext property) (follows.whenNext property).breaks follows.inner
      opens
  simp only [several, bind_assoc, pure_bind]
  exact follows.bind fun _ => rest.bind fun _ => .done _

theorem clauses_follow : Follows (collect Parser.clause?) (many Grammar.clause) := by
  refine .collectMany clause_sound ?_ .clause clause_opens
  simp only [optional, Grammar.clause, Phrase.map_orElse, Phrase.orElse_assoc, map_bind, map_pure]
  refine .ifEaten _ ?_ (.ifEaten _ ?_ (.ifEaten _ (.done _) (.done none)))
  · exact several_breaks label_follows label_opens fun labels =>
      some (Parser.Clause.inherit labels)
  · exact several_breaks predicate_follows predicate_opens fun predicates =>
      some (Parser.Clause.extra predicates)

/-- Shapes in place are the only ones that parts of a statement declare. -/
theorem inlines_inPlace (shape : Shape) (journal : Journal) :
    Inlines journal (journal.inPlace shape) := ⟨shape, rfl⟩

theorem deeper_sound (deeper : Option.Rel Follows inner inner') :
    Option.Rel Sound inner inner' := by
  cases deeper with
  | none => exact .none
  | some follows => exact .some follows.sound

theorem deeper_inner (deeper : Option.Rel Follows inner inner') :
    ∀ body ∈ inner', Composed Inlines body := by
  cases deeper with
  | none => exact nofun
  | some follows =>
    intro body member
    cases member
    exact follows.inner

theorem shapeDefinition_follows (follows : Follows body phrase) :
    Follows (Parser.shapeDefinition (some body)) (Grammar.shapeDefinition (some phrase)) where
  sound := shapeDefinition_sound (.some follows.sound)
  breaks := by
    refine clauses_follow.bind fun clauses => (Follows.expectSign _).bind fun _ => ?_
    simp only [optional, Phrase.orElse_bind, bind_map_left, pure_bind, noExpression]
    refine .swap (.ifEaten _ (.done _) ?_)
    exact follows.bind fun _ => (Follows.expectSign _).bind fun _ => .done _
  inner := .shapeDefinition (deeper_inner (.some follows))

theorem reference_goesOn : GoesOn Grammar.reference :=
  ((GoesOn.exactly _).bind fun _ => label_goesOn).mono .right

theorem reference_breaks (begins : Option.any Token.isReference next = true) :
    BreaksFrom next (Parser.shapeOrRef inner) Grammar.reference := by
  apply BreaksFrom.peeked
  split
  next space localPart =>
    refine .given (f := Label.iri) (.expand space localPart) (.expand space localPart)
      reference_goesOn ?_
    rintro context journal value ⟨text, bound, valid, rfl⟩
    exact .inl ⟨_, rfl, .name bound valid, rfl⟩
  next => exact .right (.advanced label_follows.breaks)
  next noName noSign =>
    cases next with
    | none => cases begins
    | some token =>
      rw [Option.any_some] at begins
      unfold Token.isReference at begins
      split at begins
      · exact (noName _ _ rfl).elim
      · exact (noSign rfl).elim
      · cases begins

theorem inPlace_breaks (shape : Shape) :
    Breaks (Parser.declareInline shape) (Phrase.inPlace shape) :=
  .stays (fun _ _ _ _ => nofun) fun _ _ _ => ⟨[], _, _, rfl, rfl, rfl⟩

theorem shapeOrRef_follows (deeper : Option.Rel Follows inner inner') :
    Follows (Parser.shapeOrRef inner) (Grammar.shapeOrRef inner') where
  sound := shapeOrRef_sound (deeper_sound deeper)
  breaks := by
    have goesOn : GoesOn (Grammar.shapeOrRef inner') := reference_goesOn.mono .left
    intro next
    cases begins : next.any Token.isReference with
    | true => exact .left (reference_breaks begins)
    | false =>
      apply BreaksFrom.peeked
      split
      next => cases begins
      next => cases begins
      next =>
        split
        · cases deeper with
          | none =>
            exact Breaks.objected _ goesOn _
          | some follows =>
            exact Breaks.right ((shapeDefinition_follows follows).bind inPlace_breaks) _
        · exact Breaks.refused _ goesOn _
  inner := .shapeOrRef (deeper_inner deeper) inlines_inPlace

theorem operands_follow (follows : Follows p g) (token : Token) :
    Follows (collect (after token p)) (many do exactly token; g) := by
  have part : Breaks (after token p) (optional do exactly token; g) := by
    simp only [optional, map_bind]
    exact .ifEaten token (follows.bind fun _ => .done _) (.done none)
  exact .collectMany (after_sound follows.sound token) part
    (.bind (.exactly token) fun _ => follows.inner) (.then (.exactly token))

theorem shapeRef_follows (deeper : Option.Rel Follows inner inner') :
    Follows (Parser.shapeRef inner) (Grammar.shapeRef inner') where
  sound := shapeRef_sound (deeper_sound deeper)
  breaks := by
    have shape := shapeOrRef_follows deeper
    simp only [Grammar.shapeRef, Phrase.separated, bind_assoc, pure_bind]
    have operands := operands_follow shape (.keyword .disjunction)
    refine shape.bind fun first => operands.bind fun rest => ?_
    cases rest
    · exact .done _
    · exact .done _
  inner := .shapeRef (deeper_inner deeper) inlines_inPlace

theorem valueClass_goesOn : GoesOn (Grammar.valueClass inner') := by
  have anything : GoesOn (do sign .dot; return ValueClass.anything) :=
    (GoesOn.exactly _).bind fun _ => .done _
  refine anything.mono fun context tokens journal value later derives => ?_
  exact .inr (.inr (.inr (.inr (.inr (.inr (.inr derives))))))

theorem valueClass_follows (deeper : Option.Rel Follows inner inner') :
    Follows (Parser.valueClass inner) (Grammar.valueClass inner') where
  sound := valueClass_sound (deeper_sound deeper)
  breaks := by
    have reference := (shapeRef_follows deeper).whenNext Token.isShape
    refine .peeked fun next => ?_
    split
    next kind known =>
      obtain rfl := nodeKind?_eq_some known
      cases kind with
      | literal => exact .left (.advanced ((facets_follow true).bind fun _ => .done _))
      | iri =>
        exact .right (.left (.advanced (reference.bind fun _ => (facets_follow false).bind fun _ =>
          .done _)))
      | nonLiteral =>
        exact .right (.right (.left (.advanced (reference.bind fun _ => (facets_follow false).bind
          fun _ => .done _))))
      | blank =>
        exact .right (.right (.right (.left (.advanced (reference.bind fun _ => .done _)))))
    next =>
      refine Breaks.ifNext ?_ (.ifNext ?_ (.eatenOr ?_ (.ifNext ?_ ?_ _)) _) _ _
      · exact .right (.right (.right (.right (.left (iri_follows.bind fun _ => .done _)))))
      · exact .right (.right (.right (.right (.right (.right (.left
          (valueSet_follows.bind fun _ => .done _)))))))
      · exact .right (.right (.right (.right (.right (.right (.right (.ifEaten (.done _))))))))
      · exact .right (.right (.right (.right (.right (.left
          ((shapeRef_follows deeper).bind fun _ => .done _))))))
      · exact .refused _ valueClass_goesOn
  inner := .valueClass (deeper_inner deeper) inlines_inPlace

/-! ### Triple expressions -/

theorem annotations_follow : Follows (collect Parser.annotation?) (many Grammar.annotation) := by
  refine .collectMany annotation_sound ?_ .annotated annotation_opens
  simp only [optional, Grammar.annotation, Phrase.orElse_bind, Phrase.map_orElse, bind_assoc,
    pure_bind, map_bind, map_pure]
  refine .ifEaten _ (iri_follows.bind fun property => ?_) (.done none)
  refine .ifNext ?_ (.ifNext ?_ (.refused _ ?_) _) _
  · exact .left (iri_follows.bind fun _ => .done _)
  · exact .right (literal_follows.bind fun _ => .done _)
  · exact (iri_goesOn.bind fun _ => .done _).mono .left

theorem senseFlags_follow : Follows Parser.senseFlags Grammar.senseFlags where
  sound := senseFlags_sound
  breaks := .ifEaten _ ((Follows.eaten _).bind fun _ => .done _)
    (.ifEaten _ ((Follows.eaten _).bind fun _ => .done _) (.done _))
  inner := .senseFlags

theorem tripleConstraint_follows (deeper : Option.Rel Follows inner inner') :
    Follows (Parser.tripleConstraint inner) (Grammar.tripleConstraint inner') where
  sound := tripleConstraint_sound (deeper_sound deeper)
  breaks := by
    refine senseFlags_follow.bind fun flags => predicate_follows.bind fun property => ?_
    refine (valueClass_follows deeper).bind fun value => annotations_follow.bind fun _ => ?_
    exact cardinality_follows.bind fun _ => actions_follows.bind fun _ => .done _
  inner := .tripleConstraint (deeper_inner deeper) inlines_inPlace

theorem unlabelled_follows (deeper : Option.Rel Follows inner inner') :
    Follows (Parser.unlabelled inner) (Grammar.unlabelled inner') where
  sound := unlabelled_sound (deeper_sound deeper)
  breaks := by
    have constraint : Breaks (do return .constraint none (← Parser.tripleConstraint inner))
        (Grammar.unlabelled inner') :=
      .left ((tripleConstraint_follows deeper).bind fun _ => .done _)
    have parenthesized : BreaksFrom (some (.punct .openParen)) (Parser.parenthesized inner)
        (Grammar.unlabelled inner') := by
      cases deeper with
      | none =>
        exact Breaks.objected _ constraint.goesOn _
      | some follows =>
        refine .right (.right (.advanced (follows.bind fun expression => ?_)))
        refine (Follows.expectSign _).bind fun _ => cardinality_follows.bind fun _ => ?_
        exact actions_follows.bind fun _ => wrapped_eq ▸ .done _
    refine .eatenOr (.right (.left (.ifEaten (label_follows.bind fun _ => .done _)))) ?_
    refine fun next => .ifNext ?_
    by_cases same : next = some (.punct .openParen)
    · subst same
      exact parenthesized
    · rw [any_eq_false_of_ne same]
      exact constraint next
  inner := .unlabelled (deeper_inner deeper) inlines_inPlace

theorem unary_follows (deeper : Option.Rel Follows inner inner') :
    Follows (Parser.unary inner) (Grammar.unary inner') where
  sound := unary_sound (deeper_sound deeper)
  breaks := by
    have unlabelled := unlabelled_follows deeper
    rw [unary_eq]
    refine .ifNext (.ifEaten _ ?_ unlabelled.breaks) (Breaks.stays ?_ ?_) _
    · exact label_follows.bind fun _ => unlabelled.bind fun _ => .done _
    · intro context state problem stop stopped
      cases stopped
      rfl
    · exact unlabelled.breaks.goesOn.mono .right
  inner := .unary (deeper_inner deeper) inlines_inPlace

/-- The other members of a group, and the comma that may stand after the last one. -/
theorem members_follow (deeper : Option.Rel Follows inner inner') :
    Follows (collect (Parser.nextMember? inner)) (do
      let members ← many do sign .comma; Grammar.unary inner'
      trailing
      return members) where
  sound := (nextMember_sound (deeper_sound deeper)).collectUntil (.then (.exactly _))
  breaks := by
    have unary := unary_follows deeper
    have part : Breaks (Parser.nextMember? inner) (some <$> (do sign .comma; Grammar.unary inner')
        <|> (fun _ => none) <$> trailing) := by
      simp only [trailing, mark, Phrase.map_orElse, Phrase.orElse_bind, map_bind, bind_assoc,
        pure_bind, map_pure]
      have breaks : Breaks (Parser.nextMember? inner) _ :=
        .ifEaten (.punct .comma) (unary.whenNext Token.isUnary).breaks (.done none)
      simp only [optional, Phrase.bind_orElse, Phrase.orElse_assoc] at breaks
      exact breaks
    refine .collectUntil (nextMember_sound (deeper_sound deeper)) part ?_ ?_
    · exact .bind (.sign _) fun _ => unary.inner
    · exact ((GoesOn.done false).mono .right).bind fun _ => .done ()
  inner := .bind (.many (.bind (.sign _) fun _ => (unary_follows deeper).inner)) fun _ =>
    .bind (.bind (.mark _) fun _ => .done ()) fun _ => .done _

theorem group_follows (deeper : Option.Rel Follows inner inner') :
    Follows (Parser.group inner) (Grammar.group inner') where
  sound := group_sound (deeper_sound deeper)
  breaks := by
    simp only [Grammar.group, Phrase.separated, bind_assoc, pure_bind, combined_cons]
    refine (unary_follows deeper).bind fun first => ?_
    have combined := (members_follow deeper).bind fun rest => Breaks.done
      (TripleExpr.combine (fun members => .group none members none .empty) first rest)
    simp only [trailing, bind_assoc, pure_bind] at combined
    exact combined
  inner := .group (deeper_inner deeper) inlines_inPlace

theorem combine_breaks {p : Parser TripleExpr} {g : Phrase TripleExpr} (follows : Follows p g)
    (punct : Punct) (build : List TripleExpr → TripleExpr) :
    Breaks (do
      let first ← p
      let rest ← collect (Parser.afterSign? punct p)
      return TripleExpr.combine build first rest)
      (do return Grammar.combined build (← separated (sign punct) g)) := by
  simp only [separated, bind_assoc, pure_bind, combined_cons]
  exact follows.bind fun _ => (operands_follow follows (.punct punct)).bind fun _ => .done _

theorem oneOf_follows (deeper : Option.Rel Follows inner inner') :
    Follows (Parser.oneOf inner) (Grammar.oneOf inner') := by
  have group := group_follows deeper
  have someOf : Follows (Parser.someOf inner) (Grammar.someOf inner') :=
    ⟨combine_sound group.sound .doubleBar (.someOf none),
      combine_breaks group .doubleBar (.someOf none),
      .someOf (deeper_inner deeper) inlines_inPlace⟩
  exact ⟨oneOf_sound (deeper_sound deeper), combine_breaks someOf .bar (.oneOf none),
    .oneOf (deeper_inner deeper) inlines_inPlace⟩

theorem levels_follow (left : Nat) :
    Option.Rel Follows (Parser.levels left) (Grammar.nested left) := by
  -- On the levels that are left: parentheses and shapes in place take one.
  induction left with
  | zero => exact .none
  | succ left ih => exact .some (oneOf_follows ih)

/-! ### Statements -/

theorem declare_breaks {act : Journal → Journal}
    {valid : ∀ journal, Journal.Step journal (act journal)} {change : Draft → Draft} :
    Breaks (Parser.declare change) (Phrase.change act valid) :=
  .stays (fun _ _ _ _ => nofun) .change

theorem directive_goesOn : GoesOn Grammar.directive := by
  have base : GoesOn (do
      word .base
      let reference ← terminal Grammar.ReferenceOf
      Phrase.change (·.declare (·.declareBase reference)) (.base reference)) :=
    (GoesOn.exactly _).bind fun _ => iriRef_follows.breaks.goesOn.bind fun _ => .change
  exact base.mono .left

/-- Where no directive comes next, nothing is read and no problem is found. -/
theorem directive_breaks : Breaks Parser.directive? (some <$> Grammar.directive) := by
  refine .peeked fun next => ?_
  split
  next =>
    have base : BreaksFrom (some (.keyword .base)) Parser.baseDeclaration Grammar.directive :=
      .left (.advanced (iriRef_follows.bind fun _ => declare_breaks))
    exact base.map some
  next =>
    have declaration :
        BreaksFrom (some (.keyword .prefixes)) Parser.prefixDeclaration Grammar.directive :=
      .right (.advanced (prefixName_follows.bind fun _ => iriRef_follows.bind fun _ =>
        declare_breaks))
    exact declaration.map some
  next =>
    refine Breaks.stays ?_ (directive_goesOn.bind fun _ => .done _) _
    exact fun _ _ _ _ => nofun

theorem outermost_follows : Follows (Parser.shapeDefinition Parser.outermost)
    (Grammar.shapeDefinition Grammar.outermost) :=
  shapeDefinition_follows (oneOf_follows (levels_follow _))

theorem startLabel_follows : Follows Parser.startLabel Grammar.startLabel where
  sound := startLabel_sound
  breaks := by
    have goesOn : GoesOn Grammar.startLabel := label_goesOn.mono .left
    refine .ifNext label_follows.breaks.left (fun next => .ifNext ?_) _
    cases begins : next.any Token.isReference with
    | true => exact .right (.left (reference_breaks begins))
    | false =>
      refine Breaks.ifNext (.right (.right ?_)) (.refused _ goesOn) _ _
      exact outermost_follows.bind fun _ => actions_follows.bind fun _ => inPlace_breaks _
  inner := .orElse .label (.orElse .reference (.bind outermost_follows.inner fun _ =>
    .bind .actions fun _ => .inPlace (inlines_inPlace _)))

theorem start_breaks :
    BreaksFrom (some (.keyword .start)) Parser.startDeclaration Grammar.start :=
  .advanced ((Follows.expectSign _).bind fun _ => startLabel_follows.bind fun _ => declare_breaks)

theorem shapeDeclaration_breaks : Breaks Parser.shapeDeclaration Grammar.shape := by
  refine (Follows.eaten _).bind fun isVirtual => ?_
  have labelled : Breaks (do
      let label ← Parser.label
      let shape ← Parser.shapeDefinition Parser.outermost
      let code ← Parser.actions
      Parser.declare (·.register label { shape with isVirtual := isVirtual, actions := code })) (do
      let label ← Grammar.label
      let shape ← Grammar.shapeDefinition Grammar.outermost
      let code ← Grammar.actions
      let declared := { shape with isVirtual := isVirtual, actions := code }
      Phrase.change (·.stated label declared) (.stated label declared)) :=
    label_follows.bind fun _ => outermost_follows.bind fun _ => actions_follows.bind fun _ =>
      declare_breaks
  exact .ifNext labelled (.refused _ labelled.goesOn) _

theorem orShape_breaks : Breaks (Parser.directive? >>= orShape)
    (some <$> Grammar.directive <|> some <$> Grammar.shape) := by
  have shape := shapeDeclaration_breaks.map some
  refine fun next => ⟨shape.goesOn.mono .right, ?_⟩
  intro context lexemes journal problem stop begins stopped
  rcases bind_eq_error.mp stopped with early | ⟨found, middle, part, late⟩
  · exact (directive_breaks.left _).begun rfl early
  · -- No directive was found, so that nothing was read before the declaration of a shape.
    obtain ⟨front, rest, between, rfl, rfl, derives⟩ := directive_sound _ rfl part
    cases found with
    | some => cases late
    | none =>
      rcases derives with impossible | ⟨nothing, -, rfl⟩
      · obtain ⟨_, impossible, -⟩ := of_derives_map impossible
        cases impossible
      · obtain rfl := List.map_eq_nil_iff.mp nothing
        exact (shape.right _).begun rfl late

theorem statement_breaks : Breaks Parser.statement? (some <$> Grammar.statement) := by
  have goesOn : GoesOn (some <$> Grammar.statement) :=
    (directive_goesOn.mono .left).bind fun _ => .done _
  refine .peeked fun next => ?_
  split
  next =>
    refine Breaks.stays ?_ goesOn _
    intro context state problem stop impossible
    cases impossible
  next => exact (start_breaks.left.right).map some
  next =>
    refine orShape_breaks.mono ?_ _
    simp only [Grammar.statement, Grammar.notStartAction, Phrase.map_orElse]
    rintro _ _ _ _ _ (directive | shape)
    · exact .inl directive
    · exact .inr (.inr shape)

theorem startActions_breaks : Breaks Parser.startActions Grammar.startActions := by
  have code : BreaksFrom (some (.punct .percent)) Parser.actions
      (do return Dictionary.ofList (← several Grammar.action)) :=
    ((repeatedActions.breaks.several action_goesOn) _).map _
  intro next
  by_cases same : next = some (.punct .percent)
  · subst same
    have breaks : BreaksFrom (some (.punct .percent))
        (do let code ← Parser.actions; Parser.declare (·.setStartActions code))
        (do
          let code ← (do return Dictionary.ofList (← several Grammar.action))
          Phrase.change (·.declare (·.setStartActions code)) (.startActions code)) :=
      code.bind ((SoundFrom.collectSeveral action_begins action_sound action_opens).map _)
        (.bind (.several .action) fun _ => .done _) fun _ => declare_breaks
    simp only [bind_assoc, pure_bind] at breaks
    exact .ifNext breaks
  · have goesOn : GoesOn Grammar.startActions :=
      (action_goesOn.bind fun _ => (GoesOn.many _).bind fun _ => .done _).bind fun _ => .change
    refine .ifNext ?_
    rw [any_eq_false_of_ne same]
    refine Breaks.stays ?_ goesOn _
    intro context state problem stop impossible
    cases impossible

end Reading

end ShExCompact
