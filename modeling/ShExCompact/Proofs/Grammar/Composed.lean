import ShExCompact.Proofs.Grammar.Productions

/-! How the productions are composed: of tokens, of changes of the journal, and of sequences,
alternatives and repetitions of these. What a production does to a journal, and what it depends on,
is read off its parts. -/
namespace ShExCompact

open Phrase (sign word mark markWord exactly many several separated)

/-- Two contexts that give every token the same meaning. -/
structure Context.SameMeaning (context other : Context) : Prop where
  check : other.check = context.check
  strict : other.strict = context.strict

/-- Phrases that change a journal by some steps only. What their tokens mean depends neither on the
length of the text nor on a problem in it. -/
inductive Composed (Allowed : Journal → Journal → Prop) : {α : Type} → Phrase α → Prop
  | done (value : α) : Composed Allowed (pure value)
  | never : Composed Allowed (failure : Phrase α)
  | bind {g : Phrase α} {i : α → Phrase β} (first : Composed Allowed g)
      (later : ∀ value, Composed Allowed (i value)) : Composed Allowed (g >>= i)
  | orElse {g h : Phrase α} (left : Composed Allowed g) (right : Composed Allowed h) :
      Composed Allowed (g <|> h)
  | many {g : Phrase α} (each : Composed Allowed g) : Composed Allowed (many g)
  | terminal {Means : Context → Draft → Token → α → Prop}
      (means : ∀ {context other : Context} {draft token value}, context.SameMeaning other →
        Means context draft token value → Means other draft token value) :
      Composed Allowed (Phrase.terminal Means)
  | change {act : Journal → Journal} {valid : ∀ journal, Journal.Step journal (act journal)}
      (allowed : ∀ journal, Allowed journal (act journal)) :
      Composed Allowed (Phrase.change act valid)
  | inPlace {shape : Shape} (allowed : ∀ journal, Allowed journal (journal.inPlace shape)) :
      Composed Allowed (Phrase.inPlace shape)
  | choose (Holds : α → Prop) : Composed Allowed (Phrase.choose Holds)

namespace Composed

variable {Allowed : Journal → Journal → Prop} {g h : Phrase α} {i : α → Phrase β}

/-- Only allowed steps are taken. -/
theorem runs (composed : Composed Allowed g)
    (derives : g.Derives context tokens journal value later) :
    Relation.ReflTransGen Allowed journal later := by
  induction composed generalizing tokens journal later with
  | done | choose =>
    obtain ⟨-, -, rfl⟩ := derives
    exact .refl
  | never => exact derives.elim
  | bind _ _ first next =>
    obtain ⟨front, rest, inner, middle, -, derives, derives'⟩ := derives
    exact (first derives).trans (next inner derives')
  | orElse _ _ left right =>
    rcases derives with derives | derives
    · exact left derives
    · exact right derives
  | @many _ g _ each =>
    change g.Repeats context tokens journal value later at derives
    induction derives with
    | done => exact .refl
    | more first _ ih => exact (each first).trans ih
  | terminal =>
    obtain ⟨-, -, -, rfl⟩ := derives
    exact .refl
  | change allowed =>
    obtain ⟨-, rfl⟩ := derives
    exact .single (allowed journal)
  | inPlace allowed =>
    obtain ⟨-, -, rfl⟩ := derives
    exact .single (allowed journal)

/-- A derivation does not depend on the length of the text or on a problem in it. -/
theorem derives (composed : Composed Allowed g) (same : context.SameMeaning other)
    (derives : g.Derives context tokens journal value later) :
    g.Derives other tokens journal value later := by
  induction composed generalizing tokens journal later with
  | done | choose | change | inPlace => exact derives
  | never => exact derives.elim
  | bind _ _ first next =>
    obtain ⟨front, rest, inner, middle, rfl, derives, derives'⟩ := derives
    exact ⟨front, rest, inner, middle, rfl, first derives, next inner derives'⟩
  | orElse _ _ left right =>
    rcases derives with derives | derives
    · exact .inl (left derives)
    · exact .inr (right derives)
  | @many _ g _ each =>
    change g.Repeats context tokens journal value later at derives
    change g.Repeats other tokens journal value later
    induction derives with
    | done => exact .done
    | more first _ ih => exact .more (each first) ih
  | terminal means =>
    obtain ⟨token, rfl, meaning, rfl⟩ := derives
    exact ⟨token, rfl, means same meaning, rfl⟩

theorem map (composed : Composed Allowed g) (f : α → β) : Composed Allowed (f <$> g) := by
  rw [map_eq_pure_bind]
  exact .bind composed fun value => .done (f value)

theorem optional (composed : Composed Allowed g) : Composed Allowed (optional g) :=
  .orElse (.map composed some) (.done none)

theorem several (composed : Composed Allowed g) : Composed Allowed (Phrase.several g) :=
  .bind composed fun _ => .bind (.many composed) fun _ => .done _

theorem separated {separator : Phrase Unit} (between : Composed Allowed separator)
    (composed : Composed Allowed g) : Composed Allowed (Phrase.separated separator g) :=
  .bind composed fun _ => .bind (.many (.bind between fun _ => composed)) fun _ => .done _

theorem exactly (token : Token) : Composed Allowed (Phrase.exactly token) :=
  .terminal fun _ means => means

theorem sign (punct : Punct) : Composed Allowed (Phrase.sign punct) := .exactly _

theorem word (keyword : Keyword) : Composed Allowed (Phrase.word keyword) := .exactly _

theorem mark (punct : Punct) : Composed Allowed (Phrase.mark punct) :=
  .orElse (.bind (.sign punct) fun _ => .done true) (.done false)

theorem markWord (keyword : Keyword) : Composed Allowed (Phrase.markWord keyword) :=
  .orElse (.bind (.word keyword) fun _ => .done true) (.done false)

/-! ### Terms -/

theorem iriOf (same : Context.SameMeaning context other)
    (means : Grammar.IriOf context draft token value) :
    Grammar.IriOf other draft token value := by
  cases means with
  | reference valid => exact .reference (same.check ▸ valid)
  | name bound valid => exact .name bound (same.check ▸ valid)

theorem iri : Composed Allowed Grammar.iri := .terminal iriOf

theorem label : Composed Allowed Grammar.label := by
  apply Composed.terminal
  intro context other draft token value same means
  cases means with
  | blank => exact .blank
  | iri means => exact .iri (iriOf same means)

theorem predicate : Composed Allowed Grammar.predicate := by
  apply Composed.terminal
  intro context other draft token value same means
  cases means with
  | type => exact .type
  | iri means => exact .iri (iriOf same means)

theorem referenceText : Composed Allowed (Phrase.terminal Grammar.ReferenceOf) := by
  apply Composed.terminal
  intro context other draft token value same means
  cases means
  exact .reference

theorem prefixName : Composed Allowed (Phrase.terminal Grammar.PrefixOf) := by
  apply Composed.terminal
  intro context other draft token value same means
  cases means
  exact .name

theorem string : Composed Allowed Grammar.string := by
  apply Composed.terminal
  intro context other draft token value same means
  cases means with
  | decoded decodes => exact .decoded decodes
  | malformed lenient flawed => exact .malformed (same.strict ▸ lenient) flawed

theorem integer (convert : String → Option α) : Composed Allowed (Grammar.integer convert) := by
  apply Composed.terminal
  intro context other draft token value same means
  cases means with
  | fits fits => exact .fits fits

theorem language : Composed Allowed (Phrase.terminal Grammar.LanguageOf) := by
  apply Composed.terminal
  intro context other draft token value same means
  cases means
  exact .tag

theorem plainLiteral : Composed Allowed (Phrase.terminal Grammar.PlainOf) := by
  apply Composed.terminal
  intro context other draft token value same means
  cases means with
  | plain plain => exact .plain plain

theorem cardinality : Composed Allowed Grammar.cardinality := by
  apply Composed.terminal
  intro context other draft token value same means
  cases means with
  | star => exact .star
  | plus => exact .plus
  | question => exact .question
  | atLeast bounds fits => exact .atLeast bounds fits
  | between bounds fits fits' => exact .between bounds fits fits'

theorem code : Composed Allowed (Phrase.terminal Grammar.CodeOf) := by
  apply Composed.terminal
  intro context other draft token value same means
  cases means
  exact .code

theorem facetWord (numeric : Bool) :
    Composed Allowed (Phrase.terminal (Grammar.FacetOf numeric)) := by
  apply Composed.terminal
  intro context other draft token value same means
  cases means with
  | known known => exact .known known

theorem suffix : Composed Allowed (Phrase.terminal Grammar.LanguageOf <|>
    (do Phrase.sign .doubleCaret; return Literal.Suffix.datatype (← Grammar.iri)) <|>
    return .plain) :=
  .orElse .language (.orElse (.bind (.sign _) fun _ => .bind .iri fun _ => .done _) (.done _))

theorem literal : Composed Allowed Grammar.literal :=
  .orElse (.bind .string fun _ => .bind .suffix fun _ => .done _) .plainLiteral

theorem action : Composed Allowed Grammar.action :=
  .bind (.sign _) fun _ => .bind .iri fun _ => .bind .code fun _ => .done _

theorem actions : Composed Allowed Grammar.actions := .bind (.many .action) fun _ => .done _

/-! ### Value sets and facets -/

theorem exclusion : Composed Allowed Grammar.exclusion :=
  .bind (.sign _) fun _ => .bind .iri fun _ => .bind (.mark _) fun _ => .done _

theorem iriRange : Composed Allowed Grammar.iriRange := by
  refine .orElse (.bind .iri fun _ => .orElse ?_ (.done _)) ?_
  · exact .bind (.sign _) fun _ => .bind (.many .exclusion) fun _ => .done _
  · exact .bind (.sign _) fun _ => .bind (.mark _) fun _ => .bind (.many .exclusion) fun _ =>
      .done _

theorem value : Composed Allowed Grammar.value :=
  .orElse .iriRange (.bind .literal fun _ => .done _)

theorem valueSet : Composed Allowed Grammar.valueSet :=
  .bind (.sign _) fun _ => .bind (.many .value) fun _ => .bind (.sign _) fun _ => .done _

theorem facetValue (argument : Parser.FacetArgument) :
    Composed Allowed (Grammar.facetValue argument) := by
  cases argument with
  | string facet => exact .map .string facet
  | unsigned facet => exact .map (.integer _) facet
  | signed facet => exact .map (.integer _) facet

theorem facet (numeric : Bool) : Composed Allowed (Grammar.facet numeric) :=
  .bind (.facetWord numeric) .facetValue

theorem facets (numeric : Bool) : Composed Allowed (Grammar.facets numeric) :=
  .bind (.many (.facet numeric)) fun _ => .done _

/-! ### Shapes and triple expressions -/

theorem clause : Composed Allowed Grammar.clause := by
  refine .orElse ?_ (.orElse ?_ ?_)
  · exact .bind (.sign _) fun _ => .bind (.several .label) fun _ => .done _
  · exact .bind (.word _) fun _ => .bind (.several .predicate) fun _ => .done _
  · exact .bind (.word _) fun _ => .done _

theorem reference : Composed Allowed Grammar.reference := by
  refine .orElse (.terminal ?_) (.bind (.sign _) fun _ => .label)
  intro context other draft token value same means
  cases means with
  | name bound valid => exact .name bound (same.check ▸ valid)

theorem within {inner : Option (Phrase TripleExpr)} {phrase : Phrase TripleExpr → Phrase α}
    (deeper : ∀ body ∈ inner, Composed Allowed body)
    (composed : ∀ {body}, Composed Allowed body → Composed Allowed (phrase body)) :
    Composed Allowed (Phrase.within inner phrase) := by
  cases inner with
  | none => exact .never
  | some body => exact composed (deeper body rfl)

theorem annotated : Composed Allowed Grammar.annotation := by
  refine .bind (.sign _) fun _ => .bind .iri fun _ => .bind (.orElse ?_ ?_) fun _ => .done _
  · exact .bind .iri fun _ => .done _
  · exact .bind .literal fun _ => .done _

theorem senseFlags : Composed Allowed Grammar.senseFlags :=
  .orElse (.bind (.sign _) fun _ => .bind (.mark _) fun _ => .done _)
    (.orElse (.bind (.sign _) fun _ => .bind (.mark _) fun _ => .done _) (.done _))

theorem inclusion : Composed Allowed Grammar.inclusion :=
  .bind (.sign _) fun _ => .bind .label fun _ => .done _

section Inner

variable {inner : Option (Phrase TripleExpr)} (deeper : ∀ body ∈ inner, Composed Allowed body)
  (inline : ∀ (shape : Shape) (journal : Journal), Allowed journal (journal.inPlace shape))

include deeper

theorem shapeDefinition : Composed Allowed (Grammar.shapeDefinition inner) :=
  .within deeper fun body => .bind (.many .clause) fun _ => .bind (.sign _) fun _ =>
    .bind (.optional body) fun _ => .bind (.sign _) fun _ => .done _

theorem encapsulated : Composed Allowed (Grammar.encapsulated inner) :=
  .within deeper fun body => .bind (.sign _) fun _ => .bind body fun _ => .bind (.sign _)
    fun _ => .bind (.optional .cardinality) fun _ => .bind .actions fun _ => .choose _

include inline

theorem shapeOrRef : Composed Allowed (Grammar.shapeOrRef inner) :=
  .orElse .reference (.bind (.shapeDefinition deeper) fun shape => .inPlace (inline shape))

theorem shapeRef : Composed Allowed (Grammar.shapeRef inner) := by
  refine .bind (.separated (.word _) (.shapeOrRef deeper inline)) fun labels => ?_
  split
  · exact .done _
  · exact .done _

theorem valueClass : Composed Allowed (Grammar.valueClass inner) := by
  have shapeRef := Composed.shapeRef deeper inline
  refine .orElse ?_ (.orElse ?_ (.orElse ?_ (.orElse ?_ (.orElse ?_ (.orElse ?_
    (.orElse ?_ ?_))))))
  · exact .bind (.word _) fun _ => .bind (.facets true) fun _ => .done _
  · exact .bind (.word _) fun _ => .bind (.optional shapeRef) fun _ => .bind (.facets false)
      fun _ => .done _
  · exact .bind (.word _) fun _ => .bind (.optional shapeRef) fun _ => .bind (.facets false)
      fun _ => .done _
  · exact .bind (.word _) fun _ => .bind (.optional shapeRef) fun _ => .done _
  · exact .bind .iri fun _ => .done _
  · exact .bind shapeRef fun _ => .done _
  · exact .bind .valueSet fun _ => .done _
  · exact .bind (.sign _) fun _ => .done _

theorem tripleConstraint : Composed Allowed (Grammar.tripleConstraint inner) :=
  .bind .senseFlags fun _ => .bind .predicate fun _ => .bind (.valueClass deeper inline) fun _ =>
    .bind (.many .annotated) fun _ => .bind (.optional .cardinality) fun _ => .bind .actions
      fun _ => .done _

theorem unlabelled : Composed Allowed (Grammar.unlabelled inner) :=
  .orElse (.bind (.tripleConstraint deeper inline) fun _ => .done _)
    (.orElse .inclusion (.encapsulated deeper))

theorem unary : Composed Allowed (Grammar.unary inner) :=
  .bind (.optional (.bind (.sign _) fun _ => .label)) fun _ =>
    .bind (.unlabelled deeper inline) fun _ => .done _

theorem group : Composed Allowed (Grammar.group inner) :=
  .bind (.separated (.sign _) (.unary deeper inline)) fun _ => .bind (.mark _) fun _ => .done _

theorem someOf : Composed Allowed (Grammar.someOf inner) :=
  .bind (.separated (.sign _) (.group deeper inline)) fun _ => .done _

theorem oneOf : Composed Allowed (Grammar.oneOf inner) :=
  .bind (.separated (.sign _) (.someOf deeper inline)) fun _ => .done _

end Inner

theorem nested (inline : ∀ (shape : Shape) (journal : Journal),
    Allowed journal (journal.inPlace shape)) (left : Nat) :
    ∀ body ∈ Grammar.nested left, Composed Allowed body := by
  induction left with
  | zero => exact nofun
  | succ left ih =>
    intro body member
    cases member
    exact .oneOf ih inline

/-! ### Statements -/

theorem directive : Composed Journal.Step Grammar.directive := by
  apply Composed.orElse
  · exact .bind (.word _) fun _ => .bind .referenceText fun reference => .change (.base reference)
  · exact .bind (.word _) fun _ => .bind .prefixName fun name =>
      .bind .referenceText fun reference => .change (.prefixes name reference)

theorem definition : Composed Journal.Step (Grammar.shapeDefinition Grammar.outermost) :=
  .shapeDefinition (.nested .inPlace _)

theorem start : Composed Journal.Step Grammar.start := by
  refine .bind (.word _) fun _ => .bind (.sign _) fun _ => .bind ?_ fun label =>
    .change (.start label)
  refine .orElse .label (.orElse .reference ?_)
  exact .bind .definition fun _ => .bind .actions fun _ => .inPlace (.inPlace _)

theorem shape : Composed Journal.Step Grammar.shape :=
  .bind (.markWord _) fun _ => .bind .label fun label => .bind .definition fun _ =>
    .bind .actions fun _ => .change (.stated label _)

theorem statement : Composed Journal.Step Grammar.statement :=
  .orElse .directive (.orElse .start .shape)

theorem startActions : Composed Journal.Step Grammar.startActions :=
  .bind (.several .action) fun _ => .change (.startActions _)

theorem document : Composed Journal.Step Grammar.document := by
  refine .bind (.many .directive) fun _ => .orElse ?_ (.done _)
  exact .bind (.orElse (.orElse .start .shape) .startActions) fun _ =>
    .bind (.many .statement) fun _ => .done _

end Composed

end ShExCompact
