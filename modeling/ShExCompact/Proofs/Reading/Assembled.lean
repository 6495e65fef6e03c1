import ShExCompact.Proofs.Reading.Problems

/-! What parsers are made of. They step through the tokens, expand a name where it comes next, and
collect what a step gives as long as it reads tokens. What holds of these parts holds of every
parser. -/
namespace ShExCompact

/-- The prefix that a token uses. -/
def Token.space? : Token → Option String
  | prefixedName space _ | atPrefixedName space _ => some space
  | _ => none

namespace Reading

open ShExCompact.Parser (next eat eatToken expect advance peek collect collectUpTo whenNext)

/-- Steps that read a token whenever they give something. -/
def Consumes (step : Parser (Option α)) : Prop :=
  ∀ ⦃context state value stop⦄, step context state = .ok (some value) stop →
    stop.lexemes.length < state.lexemes.length

/-- Parsers with what they are made of. It may be known which token comes next where a parser
begins, or that none does. -/
inductive Assembled : {α : Type} → (known : Option (Option Token)) → Parser α → Prop where
  | done (value : α) : Assembled known (pure value)
  | bind {p : Parser α} {k : α → Parser β} (first : Assembled known p)
      (later : ∀ value, Assembled none (k value)) : Assembled known (p >>= k)
  | peeked {k : Option Token → Parser α} (later : ∀ next, Assembled (some next) (k next)) :
      Assembled known (peek >>= k)
  /-- the draft is looked at or changed -/
  | drafted (act : Draft → α × Draft) : Assembled known fun _ state =>
      .ok (act state.draft).1 ⟨state.lexemes, (act state.draft).2⟩
  | settle : Assembled known Parser.settle
  | advance : Assembled known advance
  /-- the check of an IRI -/
  | absolute (text : String) : Assembled known (Parser.absolute text)
  | string : Assembled known Parser.string
  | refused (expected : List Expected) : Assembled known (Parser.unexpected expected : Parser α)
  | objected (objection : Objection) : Assembled known (Parser.object objection : Parser α)
  /-- the prefix of a name is looked up where the name comes next -/
  | expand {token : Option Token} (uses : token.bind Token.space? = some space) :
      Assembled (some token) (Parser.expand space localPart)
  /-- steps that read tokens, up to one that gives nothing -/
  | collect {step : Parser (Option α)} (each : Assembled none step) (consumes : Consumes step) :
      Assembled known (collect step)

variable {p : Parser α} {k : α → Parser β} {known : Option (Option Token)}

theorem Stepwise.upTo {step : Parser (Option α)} (each : Stepwise step) (bound : Nat)
    (collected : List α) : Stepwise (collectUpTo step bound collected) := by
  induction bound generalizing collected with
  | zero => exact .done _
  | succ bound ih =>
    refine .bind each fun answer => ?_
    cases answer with
    | some value => exact ih (value :: collected)
    | none => exact .done _

theorem Stepwise.collect {step : Parser (Option α)} (each : Stepwise step) :
    Stepwise (collect step) :=
  .sized fun size => each.upTo (size + 1) []

theorem Assembled.stepwise (assembled : Assembled known p) : Stepwise p := by
  induction assembled with
  | done value => exact .done value
  | bind _ _ first later => exact .bind first later
  | peeked _ later => exact .bind .peek later
  | drafted act => exact .drafted act
  | settle => exact .settle
  | advance => exact .advance
  | absolute text => exact .absolute text
  | string => exact .string
  | refused expected => exact .refused expected
  | objected objection => exact .objected objection
  | expand => exact .expand ..
  | collect _ _ each => exact .collect each

/-! ### Steps that read tokens -/

/-- What is derived by a phrase that is not empty takes a token. -/
theorem Sound.consumesUntil {step : Parser (Option α)} {g : Phrase α} {stop : Phrase Unit}
    (sound : Sound step (some <$> g <|> (fun _ => none) <$> stop)) (opens : Opens g property) :
    Consumes step := by
  intro context ⟨lexemes, draft⟩ value stop read
  have read' : step context ⟨lexemes, Journal.draft ⟨draft, []⟩⟩ = .ok (some value) stop := read
  obtain ⟨front, rest, later, rfl, rfl, derives⟩ := sound _ rfl read'
  rcases derives with first | ended
  · obtain ⟨value', -, first⟩ := of_derives_map first
    obtain ⟨token, more, some, -⟩ := opens first
    have size := congrArg List.length some
    simp only [List.length_map, List.length_cons] at size
    simp only [List.length_append]
    omega
  · obtain ⟨_, impossible, -⟩ := of_derives_map ended
    cases impossible

theorem Sound.consumes {step : Parser (Option α)} {g : Phrase α} (sound : Sound step (optional g))
    (opens : Opens g property) : Consumes step := by
  rw [optional_eq] at sound
  exact sound.consumesUntil opens

theorem Consumes.nothing : Consumes (pure none : Parser (Option α)) := by
  intro context state value stop read
  cases read

/-- A step reads a token where it goes on behind one. -/
theorem Consumes.ifEaten {k : Bool → Parser (Option α)} (token : Token)
    (yes : ∀ context state, (ending (k true context state)).lexemes <:+ state.lexemes)
    (no : Consumes (k false)) : Consumes (eatToken token >>= k) := by
  intro context ⟨lexemes, draft⟩ value stop read
  rw [eatToken_bind] at read
  obtain ⟨found, _, looked, read⟩ := bind_eq_ok.mp read
  cases looked
  cases lexemes with
  | nil => exact no read
  | cons lexeme rest =>
    split at read
    · obtain ⟨_, middle, part, read⟩ := bind_eq_ok.mp read
      obtain rfl := advance_ok part
      have behind := yes context ⟨rest, draft⟩
      change k true context ⟨rest, draft⟩ = _ at read
      rw [read] at behind
      exact Nat.lt_succ_of_le behind.length_le
    · exact no read

theorem Consumes.eaten {k : Bool → Parser (Option α)} (token : Token)
    (yes : Assembled none (k true)) (no : Consumes (k false)) :
    Consumes (eatToken token >>= k) :=
  .ifEaten token yes.stepwise.suffix no

namespace Assembled

theorem draft : Assembled known Parser.draft := .drafted fun draft => (draft, draft)

theorem declare (change : Draft → Draft) : Assembled known (Parser.declare change) :=
  .drafted fun draft => ((), change draft)

theorem declareInline (shape : Shape) : Assembled known (Parser.declareInline shape) :=
  .drafted fun draft => (draft.freshLabel.1, draft.freshLabel.2.register draft.freshLabel.1 shape)

theorem map (assembled : Assembled known p) (f : α → β) : Assembled known (f <$> p) :=
  .bind assembled fun value => .done (f value)

theorem next (property : Token → Bool) : Assembled known (next property) :=
  .peeked fun _ => .done _

theorem ite {p q : Parser α} {c : Prop} [Decidable c] (yes : Assembled known p)
    (no : Assembled known q) : Assembled known (if c then p else q) := by
  split
  · exact yes
  · exact no

theorem eatToken (token : Token) : Assembled known (eatToken token) :=
  .bind (.next _) fun _ => .ite (.bind .advance fun _ => .done _) (.done _)

theorem expect (punct : Punct) : Assembled known (expect punct) :=
  .bind (.eatToken _) fun _ => .ite (.done _) (.refused _)

theorem whenNext (property : Token → Bool) (assembled : Assembled none p) :
    Assembled known (whenNext property p) :=
  .bind (.next _) fun _ => .ite (.bind assembled fun _ => .done _) (.done _)

/-- Any number of parts, each of which begins with a token. -/
theorem many {step : Parser (Option α)} {g : Phrase α} (each : Assembled none step)
    (sound : Sound step (optional g)) (opens : Opens g property) :
    Assembled known (Parser.collect step) :=
  .collect each (sound.consumes opens)

/-! ### The terms of documents -/

theorem iri : Assembled known Parser.iri := by
  have stepped (iri : Iri) : Assembled none (Parser.advance >>= fun _ => pure iri) :=
    .bind .advance fun _ => .done _
  refine .peeked fun next => ?_
  split
  · exact .bind .draft fun _ => .bind (.absolute _) stepped
  · exact .bind (.expand rfl) stepped
  · exact .bind (.refused _) stepped

theorem iriRef : Assembled known Parser.iriRef := by
  refine .peeked fun next => ?_
  split
  · exact .bind .advance fun _ => .done _
  · exact .refused _

theorem label : Assembled known Parser.label := by
  refine .peeked fun next => ?_
  split
  · exact .bind .advance fun _ => .done _
  · exact .ite (.bind .iri fun _ => .done _) (.refused _)

theorem predicate : Assembled known Parser.predicate :=
  .bind (.eatToken _) fun _ => .ite (.done _) (.bind (.next _) fun _ => .ite .iri (.refused _))

theorem integer (convert : String → Option α) : Assembled known (Parser.integer convert) := by
  refine .peeked fun next => ?_
  split
  · split
    · exact .bind (.done _) fun _ => .bind .advance fun _ => .done _
    · exact .bind (.objected _) fun _ => .bind .advance fun _ => .done _
  · exact .refused _

theorem literalSuffix : Assembled known Parser.literalSuffix := by
  refine .peeked fun next => ?_
  split
  · exact .bind .advance fun _ => .done _
  · exact .bind .advance fun _ => .bind .iri fun _ => .done _
  · exact .done _

theorem literal : Assembled known Parser.literal := by
  refine .peeked fun next => ?_
  split
  · exact .bind .string fun _ => .bind .literalSuffix fun _ => .done _
  · split
    · exact .bind .advance fun _ => .done _
    · exact .refused _

theorem bound (digits : List Char) : Assembled known (Parser.bound digits) := by
  unfold Parser.bound
  split
  · exact .done _
  · exact .objected _

theorem range (lexeme : String) : Assembled known (Parser.range lexeme) := by
  refine .bind (.bound _) fun least => ?_
  split
  · exact .bind (.bound _) fun _ => .done _
  · exact .done _

theorem cardinality : Assembled known Parser.cardinality? := by
  have counted (value : Option Cardinality) : Assembled none (do
      if value.isSome then Parser.advance
      return value) :=
    .ite (.bind .advance fun _ => .done _) (.done _)
  refine .peeked fun next => ?_
  split
  · exact .bind (.done _) counted
  · exact .bind (.done _) counted
  · exact .bind (.done _) counted
  · exact .bind ((range _).map some) counted
  · exact .bind (.done _) counted

theorem action : Assembled known Parser.action? := by
  refine .bind (.eatToken _) fun _ => .ite (.bind .iri fun _ => ?_) (.done _)
  refine .peeked fun next => ?_
  split
  · exact .bind .advance fun _ => .done _
  · exact .refused _

theorem actions : Assembled known Parser.actions :=
  .bind (.many .action action_sound action_opens) fun _ => .done _

/-! ### Value sets and facets -/

theorem exclusion : Assembled known Parser.exclusion? :=
  .bind (.eatToken _) fun _ => .ite
    (.bind .iri fun _ => .bind (.eatToken _) fun _ => .ite (.done _) (.done _)) (.done _)

theorem exclusions : Assembled known (Parser.collect Parser.exclusion?) :=
  .many .exclusion exclusion_sound exclusion_opens

theorem iriRange : Assembled known Parser.iriRange :=
  .bind (.eatToken _) fun _ => .ite
    (.bind (.eatToken _) fun _ => .bind .exclusions fun _ => .done _)
    (.bind .iri fun _ => .bind (.eatToken _) fun _ =>
      .ite (.bind .exclusions fun _ => .done _) (.done _))

theorem valueSetItem : Assembled known Parser.valueSetItem? :=
  .bind (.eatToken _) fun _ => .ite (.done _) (.bind (.next _) fun _ =>
    .ite (.bind .literal fun _ => .done _) (.bind (.next _) fun _ =>
      .ite (.bind .iriRange fun _ => .done _) (.refused _)))

theorem valueSet : Assembled known Parser.valueSet :=
  .bind (.expect _) fun _ => .collect .valueSetItem (value_sound.consumesUntil value_opens)

theorem facet (numeric : Bool) : Assembled known (Parser.facet? numeric) := by
  have value (argument : Parser.FacetArgument) : Assembled none (Parser.facetValue argument) := by
    cases argument with
    | string facet => exact .map .string facet
    | unsigned facet => exact .map (.integer _) facet
    | signed facet => exact .map (.integer _) facet
  refine .peeked fun next => ?_
  split
  · split
    · exact .bind .advance fun _ => .bind (value _) fun _ => .done _
    · exact .done _
  · exact .done _

theorem facets (kind : NodeKind) : Assembled known (Parser.facets kind) := by
  have some (numeric : Bool) : Assembled known (Parser.collect (Parser.facet? numeric)) :=
    .many (.facet numeric) (facet_sound numeric) (facet_opens numeric)
  cases kind with
  | blank => exact .done _
  | literal => exact .map (some true) _
  | iri | nonLiteral => exact .map (some false) _

/-! ### Shapes and triple expressions -/

variable {inner : Option (Parser TripleExpr)}

theorem clause : Assembled known Parser.clause? := by
  have labels : Assembled none (Parser.collect (Parser.whenNext Token.isLabel Parser.label)) :=
    .many (.whenNext _ .label) (label_sound.whenNext _) label_opens
  have predicates : Assembled none
      (Parser.collect (Parser.whenNext Token.isPredicate Parser.predicate)) :=
    .many (.whenNext _ .predicate) (predicate_sound.whenNext _) predicate_opens
  exact .bind (.eatToken _) fun _ => .ite
    (.bind .label fun _ => .bind labels fun _ => .done _)
    (.bind (.eatToken _) fun _ => .ite
      (.bind .predicate fun _ => .bind predicates fun _ => .done _)
      (.bind (.eatToken _) fun _ => .ite (.done _) (.done _)))

/-- The expressions inside of one more bracket are read so. -/
def Inner (inner : Option (Parser TripleExpr)) : Prop := ∀ body ∈ inner, Assembled none body

theorem deeper {k : Parser TripleExpr → Parser α} (inside : Inner inner)
    (later : ∀ {body}, Assembled none body → Assembled known (k body)) :
    Assembled known (Parser.deeper inner >>= k) := by
  cases inner with
  | none =>
    have stopped : Assembled known (Parser.object .nesting : Parser α) := .objected _
    exact stopped
  | some body =>
    have goesOn : Assembled known (k body) := later (inside body rfl)
    exact goesOn

theorem shapeDefinition (inside : Inner inner) : Assembled known (Parser.shapeDefinition inner) :=
  .deeper inside fun body => .bind (.many .clause clause_sound clause_opens) fun _ =>
    .bind (.expect _) fun _ => .bind (.eatToken _) fun _ => .ite (.done _)
      (.bind body fun _ => .bind (.expect _) fun _ => .done _)

theorem shapeOrRef (inside : Inner inner) : Assembled known (Parser.shapeOrRef inner) := by
  refine .peeked fun next => ?_
  split
  · exact .bind (.expand rfl) fun _ => .bind .advance fun _ => .done _
  · exact .bind .advance fun _ => .label
  · exact .ite (.bind (.shapeDefinition inside) fun _ => .declareInline _) (.refused _)

theorem shapeRef (inside : Inner inner) : Assembled known (Parser.shapeRef inner) := by
  have alternative : Assembled none (Parser.alternative? inner) :=
    .bind (.eatToken _) fun _ => .ite (.bind (.shapeOrRef inside) fun _ => .done _) (.done _)
  have consumes : Consumes (Parser.alternative? inner) :=
    .eaten _ (.bind (.shapeOrRef inside) fun _ => .done _) .nothing
  exact .bind (.shapeOrRef inside) fun _ => .bind (.collect alternative consumes) fun _ => .done _

theorem valueClass (inside : Inner inner) : Assembled known (Parser.valueClass inner) := by
  refine .peeked fun next => ?_
  split
  · refine .bind .advance fun _ => .ite ?_ ?_
    · exact .bind (.whenNext _ (.shapeRef inside)) fun _ => .bind (.facets _) fun _ => .done _
    · exact .bind (.done _) fun _ => .bind (.facets _) fun _ => .done _
  · exact .bind (.next _) fun _ => .ite (.bind .iri fun _ => .done _) (.bind (.next _) fun _ =>
      .ite (.bind .valueSet fun _ => .done _) (.bind (.eatToken _) fun _ =>
        .ite (.done _) (.bind (.next _) fun _ =>
          .ite (.bind (.shapeRef inside) fun _ => .done _) (.refused _))))

theorem annotated : Assembled known Parser.annotation? :=
  .bind (.eatToken _) fun _ => .ite
    (.bind .iri fun _ => .bind (.next _) fun _ => .ite (.bind .iri fun _ => .done _)
      (.bind (.next _) fun _ => .ite (.bind .literal fun _ => .done _) (.refused _)))
    (.done _)

theorem senseFlags : Assembled known Parser.senseFlags :=
  .bind (.eatToken _) fun _ => .ite (.bind (.eatToken _) fun _ => .done _)
    (.bind (.eatToken _) fun _ => .ite (.bind (.eatToken _) fun _ => .done _) (.done _))

theorem tripleConstraint (inside : Inner inner) : Assembled known (Parser.tripleConstraint inner) :=
  .bind .senseFlags fun _ => .bind .predicate fun _ => .bind (.valueClass inside) fun _ =>
    .bind (.many .annotated annotation_sound annotation_opens) fun _ =>
      .bind .cardinality fun _ => .bind .actions fun _ => .done _

theorem parenthesized (inside : Inner inner) : Assembled known (Parser.parenthesized inner) :=
  .deeper inside fun body => .bind .advance fun _ => .bind body fun _ => .bind (.expect _) fun _ =>
    .bind .cardinality fun _ => .bind .actions fun _ => .done _

theorem unlabelled (inside : Inner inner) : Assembled known (Parser.unlabelled inner) :=
  .bind (.eatToken _) fun _ => .ite (.bind .label fun _ => .done _) (.bind (.next _) fun _ =>
    .ite (.parenthesized inside) (.bind (.tripleConstraint inside) fun _ => .done _))

theorem unary (inside : Inner inner) : Assembled known (Parser.unary inner) := by
  have labelled : Assembled none (do
      if ← eat .dollar then
        let id ← Parser.label
        return (← Parser.unlabelled inner).withId id
      else Parser.unlabelled inner) :=
    .bind (.eatToken _) fun _ => .ite
      (.bind .label fun _ => .bind (.unlabelled inside) fun _ => .done _) (.unlabelled inside)
  exact .bind (.next _) fun _ => .ite labelled (.bind (.refused _) fun _ => labelled)

theorem group (inside : Inner inner) : Assembled known (Parser.group inner) := by
  have member : Assembled none (Parser.nextMember? inner) :=
    .bind (.eatToken _) fun _ => .ite (.whenNext _ (.unary inside)) (.done _)
  have consumes : Consumes (Parser.nextMember? inner) :=
    .eaten _ (.whenNext _ (.unary inside)) .nothing
  exact .bind (.unary inside) fun _ => .bind (.collect member consumes) fun _ => .done _

theorem operands (punct : Punct) (assembled : Assembled none p) :
    Assembled known (Parser.collect (Parser.afterSign? punct p)) :=
  .collect (.bind (.eatToken _) fun _ => .ite (.bind assembled fun _ => .done _) (.done _))
    (.eaten _ (.bind assembled fun _ => .done _) .nothing)

theorem oneOf (inside : Inner inner) : Assembled known (Parser.oneOf inner) := by
  have someOf {known} : Assembled known (Parser.someOf inner) :=
    .bind (.group inside) fun _ => .bind (.operands _ (.group inside)) fun _ => .done _
  exact .bind someOf fun _ => .bind (.operands _ someOf) fun _ => .done _

theorem levels (left : Nat) : Inner (Parser.levels left) := by
  induction left with
  | zero => exact nofun
  | succ left ih =>
    intro body member
    cases member
    exact .oneOf ih

/-! ### Documents -/

theorem outermost : Inner Parser.outermost := .levels _

theorem prefixName : Assembled known Parser.prefixName := by
  refine .peeked fun next => ?_
  split
  · exact .ite (.bind .advance fun _ => .done _) (.refused _)
  · exact .refused _

theorem directive : Assembled known Parser.directive? := by
  refine .peeked fun next => ?_
  split
  · exact .map (.bind .advance fun _ => .bind .iriRef fun _ => .declare _) _
  · exact .map (.bind .advance fun _ => .bind .prefixName fun _ => .bind .iriRef fun _ =>
      .declare _) _
  · exact .done _

theorem startLabel : Assembled known Parser.startLabel :=
  .bind (.next _) fun _ => .ite .label (.bind (.next _) fun _ =>
    .ite (.shapeOrRef .outermost) (.bind (.next _) fun _ =>
      .ite (.bind (.shapeDefinition .outermost) fun _ => .bind .actions fun _ => .declareInline _)
        (.refused _)))

theorem startDeclaration : Assembled known Parser.startDeclaration :=
  .bind .advance fun _ => .bind (.expect _) fun _ => .bind .startLabel fun _ => .declare _

theorem shapeDeclaration : Assembled known Parser.shapeDeclaration := by
  have labelled (isVirtual : Bool) : Assembled none (do
      let label ← Parser.label
      let shape ← Parser.shapeDefinition Parser.outermost
      let code ← Parser.actions
      Parser.declare (·.register label { shape with isVirtual := isVirtual, actions := code })) :=
    .bind .label fun _ => .bind (.shapeDefinition .outermost) fun _ => .bind .actions fun _ =>
      .declare _
  exact .bind (.eatToken _) fun isVirtual => .bind (.next _) fun _ =>
    .ite (labelled isVirtual) (.bind (.refused _) fun _ => labelled isVirtual)

theorem statement : Assembled known Parser.statement? := by
  refine .peeked fun next => ?_
  split
  · exact .done _
  · exact .map .startDeclaration _
  · refine .bind .directive fun found => ?_
    cases found with
    | some => exact .done _
    | none => exact .map .shapeDeclaration _

theorem startActions : Assembled known Parser.startActions :=
  .bind (.next _) fun _ => .ite (.bind .actions fun _ => .declare _) (.done _)

/-- What is read of a document once its first token is known. -/
theorem settledDocument : Assembled known (do
    let _ ← Parser.collect Parser.directive?
    Parser.startActions
    let _ ← Parser.collect Parser.statement?) :=
  .bind (.many .directive directive_sound directive_opens) fun _ => .bind .startActions fun _ =>
    .bind (.many .statement statement_sound statement_opens) fun _ => .done _

theorem document : Assembled known Parser.document := .bind .settle fun _ => .settledDocument

end Assembled

end Reading

end ShExCompact
