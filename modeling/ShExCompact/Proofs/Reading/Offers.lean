import ShExCompact.Proofs.Reading.Alternatives
import ShExCompact.Proofs.Reading.GrammarPlaces

/-! Every alternative that a document is refused with is real: put in the place of the token that
was refused, a token that it admits is taken. The one exception are the keywords that are listed
behind `VIRTUAL`, where only the label of a shape may stand. -/
namespace ShExCompact

namespace Reading

open ShExCompact.Parser (next eat eatToken expect advance peek collect whenNext)

variable {tested : Token → Prop}

namespace Offers


/-! ### The terms of documents -/

theorem stepped (value : α) : Offers Anything tested (Parser.advance >>= fun _ => pure value) :=
  .bind .advance fun _ => .done _

theorem iri : Offers (Token.isIri ·) tested Parser.iri := by
  refine term .iri (fun token begins => ?_) fun next others => ?_
  · cases token with
    | iriRef text =>
      refine .afterCheck .draft fun draft => .afterCheck (.absolute _) fun iri => ?_
      exact (stepped iri).imp fun _ _ => trivial
    | prefixedName space localPart =>
      exact .afterCheck (.expand _ _) fun iri => (stepped iri).imp fun _ _ => trivial
    | _ => cases begins
  · split
    next text => exact (others _ rfl rfl).elim
    next => exact (others _ rfl rfl).elim
    next => rfl

theorem iriRef : Offers (Token.isIriRef ·) tested Parser.iriRef := by
  refine term .iriRef (fun token begins => ?_) fun next others => ?_
  · cases token with
    | iriRef text => exact (stepped text).imp fun _ _ => trivial
    | _ => cases begins
  · split
    next text => exact (others _ rfl rfl).elim
    next => rfl

theorem label : Offers (Token.isLabel ·) tested Parser.label := by
  have named : Offers (Token.isIri ·) Anything (do return Label.iri (← Parser.iri)) :=
    .bind .iri fun _ => .done _
  refine term .shapeLabel (fun token begins => ?_) fun next others => ?_
  · cases token with
    | blankNode id => exact (stepped (Label.blank id)).imp fun _ _ => trivial
    | iriRef | prefixedName => exact named.imp fun _ same => same ▸ rfl
    | _ => cases begins
  · split
    next id => exact (others _ rfl rfl).elim
    next other =>
      refine if_neg fun isIri => ?_
      obtain ⟨token, rfl, isIri⟩ := Option.any_eq_true .. |>.mp isIri
      refine others token rfl ?_
      cases token <;> first | exact isIri | cases isIri

theorem predicate : Offers (Token.isPredicate ·) tested Parser.predicate := by
  have all : ∀ alternative ∈ [Expected.predicate], ∀ token, alternative.admits token →
      (tested token ∨ token = .keyword .type) ∨ token.isIri := by
    intro alternative member token admitted
    obtain rfl := List.mem_singleton.mp member
    cases token with
    | iriRef | prefixedName => exact .inr rfl
    | keyword word =>
      cases word with
      | type => exact .inl (.inr rfl)
      | _ => cases admitted
    | _ => cases admitted
  refine imp (eaten _ (.done _) (.ifNext _ .iri (.refused all))) fun token begins => ?_
  cases token with
  | iriRef | prefixedName => exact .inr (.inl rfl)
  | keyword word =>
    cases word with
    | type => exact .inl rfl
    | _ => cases begins
  | _ => cases begins

theorem string : Offers (Token.isString ·) tested Parser.string := by
  refine term .string (fun token begins => ?_) fun next others => ?_
  · cases token with
    | string raw width =>
      dsimp only
      cases Escape.decodeString raw width with
      | ok value => exact (stepped value).imp fun _ _ => trivial
      | error flaw =>
        refine .strictly (.afterCheck (.malformedEscape flaw) fun value => ?_) ?_
        · exact (stepped value).imp fun _ _ => trivial
        · exact (stepped "").imp fun _ _ => trivial
    | _ => cases begins
  · split
    next raw width => exact (others _ rfl rfl).elim
    next => rfl

theorem integer (convert : String → Option α) :
    Offers (Token.isInteger ·) tested (Parser.integer convert) := by
  refine term .integer (fun token begins => ?_) fun next others => ?_
  · cases token with
    | integer lexeme =>
      dsimp only
      split
      · exact .afterCheck (.done _) fun value => (stepped value).imp fun _ _ => trivial
      · exact .afterCheck (.objected _) fun value => (stepped value).imp fun _ _ => trivial
    | _ => cases begins
  · split
    next lexeme => exact (others _ rfl rfl).elim
    next => rfl

theorem literalSuffix : Offers Nothing tested Parser.literalSuffix := by
  refine imp (peeked (fun token => token = .punct .doubleCaret ∨ ∃ tag, token = .language tag)
    (fun token begins => ?_) (fun next others => ?_) (.done .plain)) nofun
  · obtain rfl | ⟨tag, rfl⟩ := begins
    · exact .imp (.bind .advance fun _ => .bind .iri fun _ => .done _) fun _ _ => trivial
    · exact .imp (stepped (Literal.Suffix.language tag)) fun _ _ => trivial
  · split
    next tag => exact (others _ rfl (.inr ⟨tag, rfl⟩)).elim
    next => exact (others _ rfl (.inl rfl)).elim
    next => rfl

theorem literal : Offers (Token.isLiteral ·) tested Parser.literal := by
  refine term .literal (fun token begins => ?_) fun next others => ?_
  · have suffixed : Offers (Token.isString ·) Anything (do
        let value ← Parser.string
        return Literal.text value (← Parser.literalSuffix)) :=
      .bind .string fun _ => .bind .literalSuffix fun _ => .done _
    have alone (text : String) : Offers (· = token) Anything
        (Parser.advance >>= fun _ => pure text) :=
      .imp (stepped text) fun _ _ => trivial
    cases token with
    | string => exact suffixed.imp fun _ same => same ▸ rfl
    | integer | decimal | double => exact alone _
    | keyword word =>
      cases word with
      | truth | falsehood => exact alone _
      | _ => cases begins
    | _ => cases begins
  · split
    next raw width => exact (others _ rfl rfl).elim
    next =>
      split
      next text plain =>
        obtain ⟨token, rfl, plain⟩ := Option.bind_eq_some_iff.mp plain
        refine (others token rfl ?_).elim
        cases token with
        | keyword word => cases word <;> first | rfl | cases plain
        | _ => first | rfl | cases plain
      next => rfl

theorem cardinality : Offers Nothing tested Parser.cardinality? := by
  refine imp (peeked (fun token => token ∈ [Token.punct .star, .punct .plus, .punct .question] ∨
      ∃ lexeme, token = .repeatRange lexeme) (fun token begins => ?_) (fun next others => ?_)
    (.done none)) nofun
  · have sign (value : Cardinality) : Offers (· = token) Anything
        (Parser.advance >>= fun _ => pure (some value)) :=
      .imp (stepped (some value)) fun _ _ => trivial
    rcases begins with member | ⟨lexeme, rfl⟩
    · simp only [List.mem_cons, List.not_mem_nil, or_false] at member
      rcases member with rfl | rfl | rfl
      · exact sign .zeroOrMore
      · exact sign .oneOrMore
      · exact sign .zeroOrOne
    · dsimp only
      rw [bind_map_left]
      exact .afterCheck (.range lexeme) sign
  · split
    next => exact (others _ rfl (.inl (by decide))).elim
    next => exact (others _ rfl (.inl (by decide))).elim
    next => exact (others _ rfl (.inl (by decide))).elim
    next lexeme => exact (others _ rfl (.inr ⟨lexeme, rfl⟩)).elim
    next => rfl

theorem action : Offers (· = .punct .percent) tested Parser.action? := by
  refine imp (eaten _ (.bind .iri fun extension => term .codeBlock (fun token begins => ?_)
    fun next others => ?_) (.done _)) fun _ => .inl
  · cases token with
    | code lexeme => exact .imp (stepped _) fun _ _ => trivial
    | _ => cases begins
  · split
    next lexeme => exact (others _ rfl rfl).elim
    next => rfl

theorem actions : Offers (· = .punct .percent) tested Parser.actions :=
  .bind (.many .action action_sound action_opens) fun _ => .done _

/-! ### Value sets and facets -/

theorem exclusion : Offers (· = .punct .minus) tested Parser.exclusion? :=
  imp (eaten _ (.bind .iri fun _ => .eaten _ (.done _) (.done _)) (.done _)) fun _ => .inl

theorem exclusions : Offers (· = .punct .minus) tested (Parser.collect Parser.exclusion?) :=
  .many .exclusion exclusion_sound exclusion_opens

theorem iriRange : Offers (fun token => token = .punct .dot ∨ token.isIri) tested
    Parser.iriRange :=
  .eaten _ (.eaten _ (.bind .exclusions fun _ => .done _) (.bind .exclusions fun _ => .done _))
    (.bind .iri fun _ => .eaten _ (.bind .exclusions fun _ => .done _) (.done _))

theorem value : Offers (fun token => token = .punct .closeParen ∨ token.isLiteral ∨ token.isIri ∨
    token = .punct .dot) tested Parser.valueSetItem? := by
  have all : ∀ alternative ∈ [Expected.iri, .literal, .sign .dot, .sign .closeParen],
      ∀ token, alternative.admits token →
        ((tested token ∨ token = .punct .closeParen) ∨ token.isLiteral) ∨
          token.isIri || token = .punct .dot := by
    intro alternative member token admitted
    simp only [List.mem_cons, List.not_mem_nil, or_false] at member
    rcases member with rfl | rfl | rfl | rfl
    · exact .inr (Bool.or_eq_true .. |>.mpr (.inl admitted))
    · exact .inl (.inr admitted)
    · exact .inr (Bool.or_eq_true .. |>.mpr (.inr admitted))
    · exact .inl (.inl (.inr (of_decide_eq_true admitted)))
  have range : Offers (fun token => (token.isIri || token = .punct .dot) = true) Anything (do
      return some (← Parser.iriRange)) :=
    .bind (.imp .iriRange fun token begins => by
      simpa [or_comm] using begins) fun _ => .done _
  have literal : Offers (Token.isLiteral ·) Anything (do
      return some (ValueSetItem.literal (← Parser.literal))) :=
    .bind .literal fun _ => .done _
  refine imp (eaten _ (.done _) (.ifNext _ literal (.ifNext _ range (.refused all))))
    fun token begins => ?_
  simpa [Nothing] using begins

theorem valueSet : Offers (· = .punct .openParen) tested Parser.valueSet :=
  .bind (.expect _) fun _ => .collect .value (value_sound.consumesUntil value_opens)

theorem facet (numeric : Bool) : Offers Nothing tested (Parser.facet? numeric) := by
  have argument (argument : Parser.FacetArgument) :
      ∃ begins, Offers begins Nothing (Parser.facetValue argument) := by
    cases argument with
    | string facet => exact ⟨_, .map .string facet⟩
    | unsigned facet => exact ⟨_, .map (.integer _) facet⟩
    | signed facet => exact ⟨_, .map (.integer _) facet⟩
  refine imp (peeked (fun token => ∃ word argument, token = .keyword word ∧
      Parser.facetArgument? numeric word = some argument) (fun token begins => ?_)
    (fun next others => ?_) (.done none)) nofun
  · obtain ⟨word, found, rfl, known⟩ := begins
    obtain ⟨begins, value⟩ := argument found
    dsimp only
    rw [known]
    exact .imp (.bind .advance fun _ => .bind value fun _ => .done _) fun _ _ => trivial
  · split
    next word =>
      split
      next argument known => exact (others _ rfl ⟨word, argument, rfl, known⟩).elim
      next => rfl
    next => rfl

theorem facets (kind : NodeKind) : Offers Nothing tested (Parser.facets kind) := by
  have each (numeric : Bool) : Offers Nothing tested (Parser.collect (Parser.facet? numeric)) :=
    .many (.facet numeric) (facet_sound numeric) (facet_opens numeric)
  cases kind with
  | blank => exact .done _
  | literal => exact .map (each true) _
  | iri | nonLiteral => exact .map (each false) _

/-! ### Shapes and triple expressions -/

variable {inner : Option (Parser TripleExpr)} {p : Parser α} {begins : Token → Prop}

/-- Tokens with which a part of a shape definition begins that stands before its brace. -/
def BeginsClause (token : Token) : Prop :=
  token = .punct .ampersand ∨ token = .keyword .extra ∨ token = .keyword .closed

theorem clause : Offers BeginsClause tested Parser.clause? := by
  have labels : Offers (Token.isLabel ·) Nothing
      (Parser.collect (Parser.whenNext Token.isLabel Parser.label)) :=
    .many (.whenNext .label) (label_sound.whenNext _) label_opens
  have predicates : Offers (Token.isPredicate ·) Nothing
      (Parser.collect (Parser.whenNext Token.isPredicate Parser.predicate)) :=
    .many (.whenNext .predicate) (predicate_sound.whenNext _) predicate_opens
  refine imp (eaten _ (.bind .label fun _ => .bind labels fun _ => .done _)
    (.eaten _ (.bind .predicate fun _ => .bind predicates fun _ => .done _)
      (.eaten _ (.done _) (.done _)))) fun token begins => ?_
  simpa [BeginsClause, Nothing] using begins

theorem clauses_missing (other : ¬ BeginsClause lexeme.token) :
    Parser.collect Parser.clause? context ⟨lexeme :: behind, draft⟩ =
      .ok [] ⟨lexeme :: behind, draft⟩ := by
  simp only [BeginsClause, not_or] at other
  have none : Parser.clause? context ⟨lexeme :: behind, draft⟩ =
      .ok none ⟨lexeme :: behind, draft⟩ := by
    rw [Parser.clause?, bind_eq, Parser.eat, eatToken_other other.1]
    dsimp only
    rw [if_neg Bool.false_ne_true, bind_eq, Parser.eatKeyword, eatToken_other other.2.1]
    dsimp only
    rw [if_neg Bool.false_ne_true, bind_eq, Parser.eatKeyword, eatToken_other other.2.2]
    rfl
  rw [Parser.collect, Parser.collectUpTo, bind_eq, none]
  rfl

/-- The expressions inside of one more bracket are read so. -/
def Inner (inner : Option (Parser TripleExpr)) : Prop :=
  ∀ body ∈ inner, Offers (Token.isUnary ·) Nothing body

theorem deeper {k : Parser TripleExpr → Parser α} (inside : Inner inner)
    (later : ∀ {body}, Offers (Token.isUnary ·) Nothing body → Offers begins tested (k body)) :
    Offers begins tested (Parser.deeper inner >>= k) := by
  cases inner with
  | none =>
    have stopped : Offers Anything tested (Parser.object .nesting : Parser α) := .objected _
    exact imp stopped fun _ _ => trivial
  | some body =>
    have goesOn : Offers begins tested (k body) := later (inside body rfl)
    exact goesOn

theorem shapeDefinition (inside : Inner inner) :
    Offers (Token.isDefinition ·) tested (Parser.shapeDefinition inner) := by
  refine .deeper inside fun body => imp (skipping
    (.many .clause clause_sound clause_opens) (fun other => ⟨[], clauses_missing other⟩)
    fun clauses => .bind (.expect _) fun _ => .eaten _ (.done _)
      (.bind body.anywhere fun _ => .bind (.expect _) fun _ => .done _)) fun token begins => ?_
  unfold Token.isDefinition at begins
  split at begins
  · exact .inl (.inl rfl)
  · exact .inr rfl
  · exact .inl (.inr (.inl rfl))
  · exact .inl (.inr (.inr rfl))
  · cases begins

theorem shapeOrRef (inside : Inner inner) :
    Offers (Token.isShape ·) tested (Parser.shapeOrRef inner) := by
  have all : ∀ alternative ∈ [Expected.sign .atSign, .shapeDefinition],
      ∀ token, alternative.admits token → tested token ∨ token.isShape := by
    intro alternative member token admitted
    simp only [List.mem_cons, List.not_mem_nil, or_false] at member
    rcases member with rfl | rfl
    · obtain rfl := of_decide_eq_true admitted
      exact .inr rfl
    · exact .inr (Bool.or_eq_true .. |>.mpr (.inr admitted))
  have declared : Offers (Token.isDefinition ·) Anything
      (Parser.shapeDefinition inner >>= Parser.declareInline) :=
    .bind (.shapeDefinition inside) fun shape => .checked (.declareInline shape)
  refine imp (peeked (Token.isShape ·) (fun token begins => ?_) (fun next others => ?_)
    (.refused all)) fun _ => .inl
  · by_cases definition : token.isDefinition
    · have named : Offers (· = token) Anything
          (Parser.shapeDefinition inner >>= Parser.declareInline) :=
        declared.imp fun _ same => same ▸ definition
      unfold Token.isDefinition at definition
      split at definition <;> first | exact named | cases definition
    · have reference := (Bool.or_eq_true .. |>.mp begins).resolve_right definition
      unfold Token.isReference at reference
      split at reference
      · exact .afterCheck (.expand _ _) fun iri => .imp (stepped (Label.iri iri)) fun _ _ => trivial
      · exact .imp (.bind .advance fun _ => .label) fun _ _ => trivial
      · cases reference
  · split
    next => exact (others _ rfl rfl).elim
    next => exact (others _ rfl rfl).elim
    next =>
      refine if_neg fun definition => ?_
      obtain ⟨token, rfl, definition⟩ := Option.any_eq_true .. |>.mp definition
      exact others token rfl (Bool.or_eq_true .. |>.mpr (.inr definition))

theorem shapeRef (inside : Inner inner) :
    Offers (Token.isShape ·) tested (Parser.shapeRef inner) := by
  have alternative : Offers (· = .keyword .disjunction) Nothing (Parser.alternative? inner) :=
    imp (eaten _ (.bind (.shapeOrRef inside) fun _ => .done _) (.done _)) fun _ => .inl
  have operand : Offers (Token.isShape ·) Nothing (do
      return some (← Parser.shapeOrRef inner)) :=
    .bind (.shapeOrRef inside) fun _ => .done _
  have consumes : Consumes (Parser.alternative? inner) := .ifEaten _ operand.suffix .nothing
  exact .bind (.shapeOrRef inside) fun _ => .bind (.collect alternative consumes) fun _ => .done _

theorem valueClass (inside : Inner inner) :
    Offers Nothing tested (Parser.valueClass inner) := by
  have all : ∀ alternative ∈ [Expected.keyword .literal, .keyword .iri, .keyword .nonLiteral,
      .keyword .blankNode, .datatype, .shapeReference, .sign .openParen, .sign .dot],
      ∀ token, alternative.admits token →
        ((((tested token ∨ ∃ kind, token.nodeKind? = some kind) ∨ token.isIri) ∨
          decide (token = .punct .openParen)) ∨ token = .punct .dot) ∨ token.isShape := by
    intro alternative member token admitted
    simp only [List.mem_cons, List.not_mem_nil, or_false] at member
    rcases member with rfl | rfl | rfl | rfl | rfl | rfl | rfl | rfl
    · obtain rfl := of_decide_eq_true admitted
      exact .inl (.inl (.inl (.inl (.inr ⟨_, rfl⟩))))
    · obtain rfl := of_decide_eq_true admitted
      exact .inl (.inl (.inl (.inl (.inr ⟨_, rfl⟩))))
    · obtain rfl := of_decide_eq_true admitted
      exact .inl (.inl (.inl (.inl (.inr ⟨_, rfl⟩))))
    · obtain rfl := of_decide_eq_true admitted
      exact .inl (.inl (.inl (.inl (.inr ⟨_, rfl⟩))))
    · exact .inl (.inl (.inl (.inr admitted)))
    · exact .inr admitted
    · exact .inl (.inl (.inr admitted))
    · exact .inl (.inr (of_decide_eq_true admitted))
  have openParen {tested} : Offers (fun token => decide (token = .punct .openParen) = true) tested
      (do return ValueClass.values (← Parser.valueSet)) :=
    .bind (.imp .valueSet fun _ => of_decide_eq_true) fun _ => .done _
  have unkinded : Offers Nothing
      (fun token => tested token ∨ ∃ kind, token.nodeKind? = some kind) (do
      if ← next Token.isIri then return ValueClass.datatype (← Parser.iri)
      else if ← Parser.isNext .openParen then return .values (← Parser.valueSet)
      else if ← eat .dot then return .anything
      else if ← next Token.isShape then return .reference (← Parser.shapeRef inner)
      else Parser.unexpected [.keyword .literal, .keyword .iri, .keyword .nonLiteral,
        .keyword .blankNode, .datatype, .shapeReference, .sign .openParen, .sign .dot]) :=
    imp (ifNext _ (.bind .iri fun _ => .done _) (.ifNext _ openParen (.eaten _ (.done _)
      (.ifNext _ (.bind (.shapeRef inside) fun _ => .done _) (.refused all))))) nofun
  refine imp (peeked (fun token => ∃ kind, token.nodeKind? = some kind) (fun token begins => ?_)
    (fun next others => ?_) unkinded) nofun
  · obtain ⟨kind, known⟩ := begins
    dsimp only [Option.bind]
    rw [known]
    have behind (reference : Option ShapeRef) : Offers Nothing Nothing (do
        return ValueClass.kind kind (← Parser.facets kind) reference) :=
      .bind (.facets kind) fun _ => .done _
    have referenced : Offers Nothing Nothing (do
        let reference ← Parser.whenNext Token.isShape (Parser.shapeRef inner)
        return ValueClass.kind kind (← Parser.facets kind) reference) :=
      .bind (.imp (.whenNext (.shapeRef inside)) nofun) behind
    have stepped : Offers Anything Anything (Parser.advance >>= fun _ =>
        if kind ≠ .literal then do
          let reference ← Parser.whenNext Token.isShape (Parser.shapeRef inner)
          return ValueClass.kind kind (← Parser.facets kind) reference
        else do
          let reference ← pure none
          return ValueClass.kind kind (← Parser.facets kind) reference) :=
      .bind .advance fun _ => by
        split
        · exact referenced
        · exact .bind (.done none) behind
    exact stepped.imp fun _ _ => trivial
  · have unknown : next.bind Token.nodeKind? = none := by
      rw [Option.eq_none_iff_forall_ne_some]
      intro kind known
      obtain ⟨token, rfl, known⟩ := Option.bind_eq_some_iff.mp known
      exact others token rfl ⟨kind, known⟩
    rw [unknown]

theorem annotated : Offers (· = .punct .semicolon) tested Parser.annotation? := by
  have all : ∀ alternative ∈ [Expected.iri, .literal], ∀ token, alternative.admits token →
      (Nothing token ∨ token.isIri) ∨ token.isLiteral := by
    intro alternative member token admitted
    simp only [List.mem_cons, List.not_mem_nil, or_false] at member
    rcases member with rfl | rfl
    · exact .inl (.inr admitted)
    · exact .inr admitted
  exact imp (eaten _ (.bind .iri fun _ => .ifNext _ (.bind .iri fun _ => .done _)
    (.ifNext _ (.bind .literal fun _ => .done _) (.refused all))) (.done _)) fun _ => .inl

theorem senseFlags : Offers (fun token => token = .punct .caret ∨ token = .punct .bang) tested
    Parser.senseFlags := by
  refine imp (eaten _ (.eaten _ (.done _) (.done _))
    (.eaten _ (.eaten _ (.done _) (.done _)) (.done _))) fun token begins => ?_
  simpa [Nothing] using begins

theorem senseFlags_missing
    (other : ¬ (lexeme.token = .punct .caret ∨ lexeme.token = .punct .bang)) :
    Parser.senseFlags context ⟨lexeme :: behind, draft⟩ =
      .ok (false, false) ⟨lexeme :: behind, draft⟩ := by
  obtain ⟨noCaret, noBang⟩ := not_or.mp other
  rw [Parser.senseFlags, bind_eq, Parser.eat, eatToken_other noCaret]
  dsimp only
  rw [if_neg Bool.false_ne_true, bind_eq, Parser.eat, eatToken_other noBang]
  rfl

theorem tripleConstraint (inside : Inner inner) :
    Offers (fun token => (token = .punct .caret ∨ token = .punct .bang) ∨ token.isPredicate) tested
      (Parser.tripleConstraint inner) :=
  skipping .senseFlags (fun other => ⟨(false, false), senseFlags_missing other⟩)
    fun _ => .bind .predicate fun _ => .bind (.valueClass inside) fun _ =>
      .bind (.many .annotated annotation_sound annotation_opens) fun _ =>
        .bind .cardinality fun _ => .bind .actions fun _ => .done _

theorem parenthesized (inside : Inner inner) :
    Offers Anything tested (Parser.parenthesized inner) :=
  .deeper inside fun body => .bind .advance fun _ => .bind body fun _ => .bind (.expect _) fun _ =>
    .bind .cardinality fun _ => .bind .actions fun _ => .done _

theorem unlabelled (inside : Inner inner) :
    Offers (fun token => token.isUnary ∧ token ≠ .punct .dollar) tested
      (Parser.unlabelled inner) := by
  refine imp (eaten _ (.bind .label fun _ => .done _)
    (.ifNext _ (.imp (.parenthesized inside) fun _ _ => trivial)
      (.bind (.tripleConstraint inside) fun _ => .done _))) fun token ⟨begins, other⟩ => ?_
  unfold Token.isUnary at begins
  split at begins
  · exact (other rfl).elim
  · exact .inl rfl
  · exact .inr (.inl rfl)
  · exact .inr (.inr (.inl (.inl rfl)))
  · exact .inr (.inr (.inl (.inr rfl)))
  · exact .inr (.inr (.inr begins))

theorem unary (inside : Inner inner) : Offers (Token.isUnary ·) tested (Parser.unary inner) := by
  have all : ∀ alternative ∈ [Expected.sign .dollar, .sign .ampersand, .sign .openParen,
      .sign .caret, .sign .bang, .predicate], ∀ token, alternative.admits token →
        tested token ∨ token.isUnary := by
    intro alternative member token admitted
    simp only [List.mem_cons, List.not_mem_nil, or_false] at member
    rcases member with rfl | rfl | rfl | rfl | rfl | rfl
    · exact .inr (of_decide_eq_true admitted ▸ rfl)
    · exact .inr (of_decide_eq_true admitted ▸ rfl)
    · exact .inr (of_decide_eq_true admitted ▸ rfl)
    · exact .inr (of_decide_eq_true admitted ▸ rfl)
    · exact .inr (of_decide_eq_true admitted ▸ rfl)
    · cases token <;> first | exact .inr admitted | cases admitted
  have labelled {tested} : Offers (Token.isUnary ·) tested (do
      if ← eat .dollar then
        let id ← Parser.label
        return (← Parser.unlabelled inner).withId id
      else Parser.unlabelled inner) := by
    refine imp (eaten _ (.bind .label fun _ => .bind (.unlabelled inside) fun _ => .done _)
      (.unlabelled inside)) fun token begins => ?_
    by_cases dollar : token = .punct .dollar
    · exact .inl dollar
    · exact .inr ⟨begins, dollar⟩
  exact imp (ifNext _ labelled (.bind (.refused all) fun _ => labelled)) fun _ => .inl

theorem group (inside : Inner inner) : Offers (Token.isUnary ·) tested (Parser.group inner) := by
  have next : Offers (Token.isUnary ·) Nothing
      (Parser.whenNext Token.isUnary (Parser.unary inner)) := .whenNext (.unary inside)
  have member : Offers (· = .punct .comma) Nothing (Parser.nextMember? inner) :=
    imp (eaten _ next (.done _)) fun _ => .inl
  have consumes : Consumes (Parser.nextMember? inner) := .ifEaten _ next.suffix .nothing
  exact .bind (.unary inside) fun _ => .bind (.collect member consumes) fun _ => .done _

theorem operands (punct : Punct) (offers : Offers begins Nothing p) :
    Offers (· = .punct punct) tested (Parser.collect (Parser.afterSign? punct p)) := by
  have operand : Offers begins Nothing (do return some (← p)) := .bind offers fun _ => .done _
  exact .collect (imp (eaten _ operand (.done _)) fun _ => .inl)
    (.ifEaten _ operand.suffix .nothing)

theorem oneOf (inside : Inner inner) : Offers (Token.isUnary ·) tested (Parser.oneOf inner) := by
  have someOf {tested} : Offers (Token.isUnary ·) tested (Parser.someOf inner) :=
    .bind (.group inside) fun _ => .bind (.operands _ (.group inside)) fun _ => .done _
  exact .bind someOf fun _ => .bind (.operands _ someOf) fun _ => .done _

theorem levels (left : Nat) : Inner (Parser.levels left) := by
  induction left with
  | zero => exact nofun
  | succ left ih =>
    intro body member
    cases member
    exact .oneOf ih

/-! ### Documents -/

theorem outermost : Inner Parser.outermost := .levels _

theorem prefixName : Offers (Token.isPrefixName ·) tested Parser.prefixName := by
  refine term .prefixName (fun token begins => ?_) fun next others => ?_
  · cases token with
    | prefixedName space localPart =>
      have alone : localPart.isEmpty := begins
      dsimp only
      rw [if_pos alone]
      exact .imp (stepped space) fun _ _ => trivial
    | _ => cases begins
  · split
    next space localPart => exact if_neg (others _ rfl)
    next => rfl

/-- What is read behind a directive, or where there is none. -/
theorem afterDirective {k : Option Unit → Parser α} {begins' : Token → Prop}
    (found : Offers begins' Nothing (k (some ())))
    (missing : Offers begins
      (fun token => tested token ∨ token = .keyword .base ∨ token = .keyword .prefixes) (k none)) :
    Offers (fun token => (token = .keyword .base ∨ token = .keyword .prefixes) ∨ begins token)
      tested (Parser.directive? >>= k) := by
  have stepped (directive : Parser Unit) (offers : Offers Anything Nothing directive) :
      Offers Anything Anything (some <$> directive >>= k) := by
    rw [bind_map_left]
    exact (offers.bind fun _ => found).anywhere
  unfold Parser.directive?
  rw [bind_assoc]
  refine peeked _ (fun token begins => ?_) (fun next others => ?_) missing
  · rcases begins with rfl | rfl
    · exact (stepped _ (.bind .advance fun _ => .bind .iriRef fun _ =>
        .checked (.declare _))).imp fun _ _ => trivial
    · exact (stepped _ (.bind .advance fun _ => .bind .prefixName fun _ => .bind .iriRef fun _ =>
        .checked (.declare _))).imp fun _ _ => trivial
  · split
    next => exact (others _ rfl (.inl rfl)).elim
    next => exact (others _ rfl (.inr rfl)).elim
    next => exact pure_bind none k

theorem directive : Offers Nothing tested Parser.directive? := by
  have alone : Offers _ tested (Parser.directive? >>= pure) := .afterDirective (.done _) (.done _)
  rw [bind_pure] at alone
  exact alone.imp nofun

theorem startLabel : Offers Nothing tested Parser.startLabel := by
  have all : ∀ alternative ∈ [Expected.shapeLabel, .sign .atSign, .shapeDefinition],
      ∀ token, alternative.admits token →
        ((tested token ∨ token.isLabel) ∨ token.isReference) ∨ token.isDefinition := by
    intro alternative member token admitted
    simp only [List.mem_cons, List.not_mem_nil, or_false] at member
    rcases member with rfl | rfl | rfl
    · exact .inl (.inl (.inr admitted))
    · obtain rfl := of_decide_eq_true admitted
      exact .inl (.inr rfl)
    · exact .inr admitted
  have reference : Offers (Token.isReference ·) Anything (Parser.shapeOrRef Parser.outermost) :=
    .imp (.shapeOrRef .outermost) fun token begins => Bool.or_eq_true .. |>.mpr (.inl begins)
  exact imp (ifNext _ .label (.ifNext _ reference (.ifNext _
    (.bind (.shapeDefinition .outermost) fun _ => .bind .actions fun _ =>
      .checked (.declareInline _)) (.refused all)))) nofun

theorem startDeclaration : Offers Anything tested Parser.startDeclaration :=
  .bind .advance fun _ => .bind (.expect _) fun _ => .bind .startLabel fun _ =>
    .checked (.declare _)

theorem startActions : Offers Nothing tested Parser.startActions := by
  have declared : Offers (fun token => decide (token = .punct .percent) = true) Anything (do
      let code ← Parser.actions
      Parser.declare (·.setStartActions code)) :=
    .bind (.imp .actions fun _ => of_decide_eq_true) fun _ => .checked (.declare _)
  exact imp (ifNext _ declared (.done _)) nofun

end Offers

/-! A shape is declared where no other statement begins. Behind `VIRTUAL` the next token may be one
that begins another statement, and it is refused with the same list. -/

/-- What is read of the declaration of a shape behind `VIRTUAL`, or where that is missing. -/
def labelledShape (isVirtual : Bool) : Parser Unit := do
  unless ← next Token.isLabel do Parser.unexpected shapeAlternatives
  let label ← Parser.label
  let shape ← Parser.shapeDefinition Parser.outermost
  let code ← Parser.actions
  Parser.declare (·.register label { shape with isVirtual := isVirtual, actions := code })

theorem shapeDeclaration_eq :
    Parser.shapeDeclaration = eatToken (.keyword .virtual) >>= labelledShape := rfl

/-- The next token is a keyword with which a statement begins. -/
def IsStatementKeyword (token : Token) : Prop := ∃ word ∈ statementKeywords, token = .keyword word

theorem labelledShape_offers (isVirtual : Bool)
    (tests : ∀ token, IsStatementKeyword token → tested token) :
    Offers (Token.isLabel ·) tested (labelledShape isVirtual) := by
  have all : ∀ alternative ∈ shapeAlternatives, ∀ token, alternative.admits token →
      tested token ∨ token.isLabel := by
    intro alternative member token admitted
    rcases List.mem_append.mp member with keyword | label
    · obtain ⟨word, known, rfl⟩ := List.mem_map.mp keyword
      exact .inl (tests _ ⟨word, known, of_decide_eq_true admitted⟩)
    · obtain rfl := List.mem_singleton.mp label
      exact .inr admitted
  have labelled {tested} : Offers (Token.isLabel ·) tested (do
      let label ← Parser.label
      let shape ← Parser.shapeDefinition Parser.outermost
      let code ← Parser.actions
      Parser.declare (·.register label { shape with isVirtual := isVirtual, actions := code })) :=
    .bind .label fun _ => .bind (.shapeDefinition .outermost) fun _ => .bind .actions fun _ =>
      .checked (.declare _)
  exact .imp (.ifNext _ labelled (.bind (.refused all) fun _ => labelled)) fun _ => .inl

theorem labelledShape_refused
    (unlabelled : ∀ lexeme ∈ lexemes.head?, ¬ lexeme.token.isLabel) :
    ∃ problem, labelledShape isVirtual context ⟨lexemes, draft⟩ =
      .error problem ⟨lexemes, draft⟩ ∧ problem.cause.expected = shapeAlternatives := by
  refine ⟨⟨Parser.here context ⟨lexemes, draft⟩,
    .unexpected (Parser.found ⟨lexemes, draft⟩) shapeAlternatives⟩, ?_, rfl⟩
  cases lexemes with
  | nil => rfl
  | cons lexeme behind =>
    have looked : next Token.isLabel context ⟨lexeme :: behind, draft⟩ =
        .ok false ⟨lexeme :: behind, draft⟩ :=
      congrArg (EStateM.Result.ok · _) (Bool.eq_false_iff.mpr (unlabelled lexeme rfl))
    rw [labelledShape, bind_eq, looked]
    rfl

theorem labelledShape_virtual {r : Replacement} (inside : lexeme :: behind <:+ r.front)
    (isVirtual : lexeme.token = .keyword .virtual) :
    Parallel r (labelledShape true r.context ⟨behind ++ r.rest, draft⟩)
      (labelledShape true r.other ⟨behind ++ [r.token], draft⟩) := by
  have offers := labelledShape_offers true fun _ => id
  by_cases last : behind = [] ∧ IsStatementKeyword r.token.token
  · obtain ⟨rfl, word, member, keyword⟩ := last
    obtain ⟨before, split⟩ := inside
    have unlabelled : ∀ token ∈ [r.token].head?, ¬ token.token.isLabel := by
      intro token head
      cases head
      rw [keyword]
      exact Bool.false_ne_true
    obtain ⟨problem', again, list'⟩ := labelledShape_refused unlabelled
    by_cases label : ∃ lexeme ∈ r.rest.head?, lexeme.token.isLabel
    · obtain ⟨first, head, label⟩ := label
      obtain ⟨behind, split⟩ := List.head?_eq_some_iff.mp head
      refine .of_taken split ?_
      rw [List.nil_append, split]
      exact offers.takes label
    · have unlabelled : ∀ lexeme ∈ r.rest.head?, ¬ lexeme.token.isLabel :=
        fun lexeme head isLabel => label ⟨lexeme, head, isLabel⟩
      obtain ⟨problem, stopped, list⟩ := labelledShape_refused unlabelled
      refine .repeated ⟨?_, ⟨word, member, keyword⟩, ⟨problem, _, stopped, list⟩,
        ⟨problem', draft, again, list'⟩⟩
      rw [← split, List.getLast?_append]
      exact congrArg some isVirtual
  · exact offers.parallel ((List.suffix_cons lexeme behind).trans inside)
      fun empty keyword => last ⟨empty, keyword⟩

theorem shapeDeclaration_offers
    (tests : ∀ token, IsStatementKeyword token → token ≠ .keyword .virtual → tested token) :
    Offers Nothing tested Parser.shapeDeclaration := by
  have assembled : Assembled none Parser.shapeDeclaration := .shapeDeclaration
  have offers (isVirtual : Bool) :
      Offers (Token.isLabel ·) IsStatementKeyword (labelledShape isVirtual) :=
    labelledShape_offers isVirtual fun _ => id
  refine ⟨assembled.stepwise.suffix, nofun, fun inside untested => ?_⟩
  rw [shapeDeclaration_eq]
  refine Offers.parallel_eaten _ inside (offers true).suffix ?_ ?_
  · rintro lexeme behind rfl isVirtual
    exact labelledShape_virtual inside isVirtual
  · intro other
    exact (offers false).parallel inside fun empty keyword =>
      untested empty (tests _ keyword (other empty))

/-- A statement where some token is left. -/
def nextStatement : Parser (Option Unit) := do
  if ← next (· = .keyword .start) then some <$> Parser.startDeclaration
  else Parser.directive? >>= orShape

theorem statement_eq (context : Context) (lexeme : Lexeme) (behind : List Lexeme) (draft : Draft) :
    Parser.statement? context ⟨lexeme :: behind, draft⟩ =
      nextStatement context ⟨lexeme :: behind, draft⟩ := by
  obtain ⟨token, extent, text⟩ := lexeme
  cases token with
  | keyword word => cases word <;> rfl
  | _ => rfl

theorem nextStatement_offers : Offers Nothing Nothing nextStatement := by
  have start : Offers (fun token => decide (token = .keyword .start) = true) Anything
      (some <$> Parser.startDeclaration) :=
    .imp (.map .startDeclaration _) fun _ _ => trivial
  refine .imp (.ifNext _ start (.afterDirective (.done _)
    (.map (shapeDeclaration_offers ?_) _))) nofun
  rintro token ⟨word, member, rfl⟩ other
  simp only [statementKeywords, List.mem_cons, List.not_mem_nil, or_false] at member
  rcases member with rfl | rfl | rfl | rfl
  · exact .inr (.inl rfl)
  · exact .inr (.inr rfl)
  · exact .inl (.inr rfl)
  · exact (other rfl).elim

variable {r : Replacement}

/-- A reading ends without a problem, and nothing is to be offered, where no statement begins at the
end of its tokens. -/
theorem statement_parallel (inside : left <:+ r.front) (draft : Draft) :
    Parallel r (Parser.statement? r.context ⟨left ++ r.rest, draft⟩)
        (Parser.statement? r.other ⟨left ++ [r.token], draft⟩) ∨
      True ∧ ∃ stop, Parser.statement? r.context ⟨left ++ r.rest, draft⟩ = .ok none stop := by
  cases tokens : left ++ r.rest with
  | nil => exact .inr ⟨trivial, _, rfl⟩
  | cons lexeme behind =>
    have alike : Parallel r (nextStatement r.context ⟨left ++ r.rest, draft⟩)
        (nextStatement r.other ⟨left ++ [r.token], draft⟩) :=
      nextStatement_offers.parallel inside fun _ => id
    have more : left ++ [r.token] ≠ [] :=
      List.append_ne_nil_of_right_ne_nil left (List.cons_ne_nil r.token [])
    obtain ⟨lexeme', behind', tokens'⟩ := List.exists_cons_of_ne_nil more
    rw [tokens, tokens'] at alike
    rw [tokens', statement_eq, statement_eq]
    exact .inl alike

/-- Two documents side by side, or the first one is read to its end. -/
theorem document_parallel (r : Replacement) (draft : Draft) :
    Parallel r (Parser.document r.context ⟨r.front ++ r.rest, draft⟩)
        (Parser.document r.other ⟨r.front ++ [r.token], draft⟩) ∨
      True ∧ ∃ value stop,
        Parser.document r.context ⟨r.front ++ r.rest, draft⟩ = .ok value stop := by
  have settle : Offers Nothing Nothing Parser.settle := .settle
  have directives : Offers Nothing Nothing (Parser.collect Parser.directive?) :=
    .many .directive directive_sound directive_opens
  have startActions : Offers Nothing Nothing Parser.startActions := .startActions
  have statement : Assembled none Parser.statement? := .statement
  have statements : Assembled none (do let _ ← Parser.collect Parser.statement?) :=
    .bind (.many .statement statement_sound statement_opens) fun _ => .done _
  have later : Assembled none (do
      Parser.startActions
      let _ ← Parser.collect Parser.statement?) :=
    .bind .startActions fun _ => statements
  have whole : Assembled none (do
      let _ ← Parser.collect Parser.directive?
      Parser.startActions
      let _ ← Parser.collect Parser.statement?) := .settledDocument
  refine (settle.parallel List.suffix_rfl fun _ => id).bindOr
    (fun _ => whole.stepwise.suffix) (fun _ => whole.stepwise.suffix)
    fun _ left draft inside _ => ?_
  refine (directives.parallel inside fun _ => id).bindOr
    (fun _ => later.stepwise.suffix) (fun _ => later.stepwise.suffix)
    fun _ left draft inside _ => ?_
  refine (startActions.parallel inside fun _ => id).bindOr
    (fun _ => statements.stepwise.suffix) (fun _ => statements.stepwise.suffix)
    fun _ left draft inside _ => ?_
  have consumes := statement_sound.consumes statement_opens
  rcases Parallel.upTo statement.stepwise.suffix consumes
    (fun left draft inside => statement_parallel inside draft) inside (Nat.lt_succ_self _)
    (Nat.lt_succ_self _) with alike | ⟨isFinal, values, stop, read⟩
  · exact .inl (alike.bind (fun _ _ _ => List.suffix_rfl) (fun _ _ _ => List.suffix_rfl)
      fun _ _ draft inside _ => .alike () draft inside)
  · refine .inr ⟨isFinal, (), stop, ?_⟩
    rw [bind_eq, Parser.collect, read]
    rfl

/-- The document of some tokens and one more is not refused at that token with alternatives. -/
def TakesNext (context : Context) (draft : Draft) (before : List Lexeme) (lexeme : Lexeme) : Prop :=
  ∀ problem stop, Parser.document context ⟨before ++ [lexeme], draft⟩ = .error problem stop →
    stop.lexemes = [lexeme] → problem.cause.expected = []

/-- The last of some tokens is `VIRTUAL`. Behind it, a keyword is refused with a list in which it is
itself, although a shape has to be declared there. -/
structure RefusesNext (context : Context) (draft : Draft) (before : List Lexeme) (lexeme : Lexeme) :
    Prop where
  behind : before.getLast?.map Lexeme.token = some (.keyword .virtual)
  keyword : IsStatementKeyword lexeme.token
  refused : ∃ problem later, Parser.document context ⟨before ++ [lexeme], draft⟩ =
    .error problem ⟨[lexeme], later⟩ ∧ problem.cause.expected = shapeAlternatives

/-- A token that is listed where a document is refused is taken there, or it is a keyword behind
`VIRTUAL`. -/
theorem document_takes (r : Replacement)
    (stopped : Parser.document r.context ⟨r.front ++ r.rest, draft⟩ =
      .error problem ⟨r.rest, later⟩)
    (listed : alternative ∈ problem.cause.expected)
    (admitted : alternative.admits r.token.token) :
    TakesNext r.other draft r.front r.token ∨ RefusesNext r.other draft r.front r.token := by
  have parallel := (document_parallel r draft).resolve_right (by simp [stopped])
  unfold TakesNext
  generalize Parser.document r.context _ = first at stopped parallel
  generalize outcome : Parser.document r.other _ = other at parallel
  cases parallel with
  | alike => cases stopped
  | passed split past =>
    subst stopped
    have short : r.rest.length ≤ _ := past.length_le
    rw [split] at short
    exact absurd short (Nat.not_succ_le_self _)
  | unlisted none =>
    cases stopped
    exact absurd admitted (none alternative listed)
  | before ahead =>
    refine .inl fun problem stop same last => ?_
    cases same
    exact absurd (by simpa using last) ahead
  | taken taken =>
    refine .inl fun problem stop same last => ?_
    subst same
    rcases taken with nothing | none
    · rw [last] at nothing
      cases List.suffix_nil.mp nothing
    · exact none
  | repeated repeated =>
    obtain ⟨behind, keyword, -, problem', later', again, list⟩ := repeated
    exact .inr ⟨behind, keyword, problem', later', outcome.trans again, list⟩

end Reading

namespace Settings

open Reading (Replacement TakesNext RefusesNext shapeAlternatives)

/-- Every alternative that a problem lists is real. The tokens before the place of the problem being
the same, every token that the alternative admits is taken there by the document parser: it is not
refused at that place with a list of alternatives. The one exception are the keywords that begin
other statements, where the token before is `VIRTUAL`: they are listed and refused. -/
theorem parseWith_alternatives (check : String → Except Iri.Fault Unit) (settings : Settings)
    (stopped : settings.parseWith check text = .error diagnostic)
    (some : diagnostic.cause.expected ≠ []) :
    ∃ before rest, (TokenSequence.ofText text.toList).lexemes = before ++ rest ∧
      diagnostic.span = (Parser.here (settings.context check text)
        ⟨rest, settings.initialDraft⟩).span (Text.bytes text.toList) ∧
      ∀ alternative ∈ diagnostic.cause.expected, (∃ token, alternative.admits token) ∧
        ∀ lexeme finish, alternative.admits lexeme.token →
          TakesNext ⟨check, settings.strict, finish, none⟩ settings.initialDraft before lexeme ∨
            RefusesNext ⟨check, settings.strict, finish, none⟩ settings.initialDraft before
              lexeme := by
  rw [parseWith_eq] at stopped
  split at stopped
  next => cases stopped
  next problem stop outcome =>
    cases stopped
    have ofToken : problem.cause.OfToken := by
      obtain ⟨extent, cause⟩ := problem
      cases cause with
      | lexical | malformedEscape => exact absurd rfl some
      | unexpected | meaningless | unknownPrefix => trivial
    have place := (Reading.Stepwise.document.points outcome).here ofToken
    have suffix := Reading.Stepwise.document.suffix
      ⟨check, settings.strict, Text.width text.toList, (TokenSequence.ofText text.toList).problem⟩
      ⟨(TokenSequence.ofText text.toList).lexemes, settings.initialDraft⟩
    rw [outcome] at suffix
    obtain ⟨rest, draft⟩ := stop
    obtain ⟨before, split⟩ : rest <:+ (TokenSequence.ofText text.toList).lexemes := suffix
    refine ⟨before, rest, split.symm, congrArg (Extent.span _) place, fun alternative listed =>
      ⟨alternative.exists_admits, fun lexeme finish admitted => ?_⟩⟩
    rw [← split] at outcome
    exact Reading.document_takes ⟨settings.context check text,
      ⟨check, settings.strict, finish, none⟩, ⟨rfl, rfl⟩, rfl, before, rest, lexeme⟩
      outcome listed admitted

/-- A shape label has to be followed by an opening brace, and nothing else is listed there. -/
theorem parseWith_alternatives_brace :
    default.parseWith (fun _ => .ok ()) "<a:s> ." =
        .error ⟨⟨⟨0, 6, 6⟩, ⟨0, 7, 7⟩⟩, .unexpected "." [.sign .openBrace]⟩ ∧
      ∃ before rest, (TokenSequence.ofText "<a:s> .".toList).lexemes = before ++ rest ∧
        Span.mk ⟨0, 6, 6⟩ ⟨0, 7, 7⟩ = (Parser.here (default.context (fun _ => .ok ()) "<a:s> .")
          ⟨rest, default.initialDraft⟩).span (Text.bytes "<a:s> .".toList) ∧
        ∀ alternative ∈ [Expected.sign .openBrace], (∃ token, alternative.admits token) ∧
          ∀ lexeme finish, alternative.admits lexeme.token →
            TakesNext ⟨fun _ => .ok (), false, finish, none⟩ default.initialDraft before lexeme ∨
              RefusesNext ⟨fun _ => .ok (), false, finish, none⟩ default.initialDraft before
                lexeme := by
  have stopped : default.parseWith (fun _ => .ok ()) "<a:s> ." =
      .error ⟨⟨⟨0, 6, 6⟩, ⟨0, 7, 7⟩⟩, .unexpected "." [.sign .openBrace]⟩ := by decide +kernel
  exact ⟨stopped, parseWith_alternatives (fun _ => .ok ()) default stopped (by decide)⟩

/-- Behind `VIRTUAL`, the keyword `BASE` is listed, and every token that is this keyword is refused
there. -/
theorem parse_alternatives_virtual :
    default.parse "VIRTUAL ." =
        .error ⟨⟨⟨0, 8, 8⟩, ⟨0, 9, 9⟩⟩, .unexpected "." shapeAlternatives⟩ ∧
      Expected.keyword .base ∈ shapeAlternatives ∧
      (TokenSequence.ofText "VIRTUAL .".toList).lexemes =
        [⟨.keyword .virtual, ⟨0, 7⟩, "VIRTUAL"⟩, ⟨.punct .dot, ⟨8, 9⟩, "."⟩] ∧
      ∀ lexeme finish, (Expected.keyword .base).admits lexeme.token →
        ¬ TakesNext ⟨fun text => Iri.check text.toList, false, finish, none⟩ default.initialDraft
          [⟨.keyword .virtual, ⟨0, 7⟩, "VIRTUAL"⟩] lexeme := by
  refine ⟨by decide +kernel, by decide, by decide +kernel, ?_⟩
  rintro ⟨token, extent, text⟩ finish admitted takes
  obtain rfl : token = .keyword .base := of_decide_eq_true admitted
  exact List.cons_ne_nil _ _ (takes _ _ rfl rfl)

end Settings

end ShExCompact
