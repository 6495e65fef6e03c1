import ShExCompact.Proofs.Grammar.Productions

/-! Phrases of tokens that only stand for themselves: none of them opens or closes a brace, begins a
clause of a definition or comes before the label of an expression. Terms, value sets, facets,
annotations and actions are such phrases, and they declare nothing. All else in a constraint is
made of its shapes in place. -/
namespace ShExCompact

/-- Tokens that neither open nor close a brace, begin no clause and are no dollar sign. -/
def Token.isFlat : Token → Bool
  | .punct .openBrace | .punct .closeBrace | .punct .dollar | .punct .ampersand => false
  | .keyword .extra | .keyword .closed => false
  | _ => true

namespace Phrase

/-- What a phrase derives leaves the journal as it is, from flat tokens. -/
def Flat (g : Phrase α) : Prop :=
  ∀ ⦃context tokens journal value later⦄, g.Derives context tokens journal value later →
    later = journal ∧ ∀ token ∈ tokens, token.isFlat

namespace Flat

variable {g h : Phrase α} {i : α → Phrase β}

theorem done (value : α) : Flat (pure value) := by
  rintro context tokens journal result later ⟨rfl, -, rfl⟩
  exact ⟨rfl, nofun⟩

theorem bind (first : Flat g) (later : ∀ value, Flat (i value)) : Flat (g >>= i) := by
  rintro context tokens journal result last ⟨front, rest, value, middle, rfl, derives, derives'⟩
  obtain ⟨rfl, flat⟩ := first derives
  obtain ⟨rfl, flat'⟩ := later value derives'
  exact ⟨rfl, List.forall_mem_append.mpr ⟨flat, flat'⟩⟩

theorem orElse (left : Flat g) (right : Flat h) : Flat (g <|> h) := by
  rintro context tokens journal value later (derives | derives)
  · exact left derives
  · exact right derives

theorem map (flat : Flat g) (f : α → β) : Flat (f <$> g) := by
  rw [map_eq_pure_bind]
  exact .bind flat fun value => .done (f value)

theorem many (flat : Flat g) : Flat (many g) := by
  intro context tokens journal values later repeats
  change g.Repeats context tokens journal values later at repeats
  induction repeats with
  | done => exact ⟨rfl, nofun⟩
  | more first _ ih =>
    obtain ⟨rfl, here⟩ := flat first
    obtain ⟨rfl, behind⟩ := ih
    exact ⟨rfl, List.forall_mem_append.mpr ⟨here, behind⟩⟩

theorem several (flat : Flat g) : Flat (several g) :=
  .bind flat fun _ => .bind (.many flat) fun _ => .done _

theorem optional (flat : Flat g) : Flat (optional g) := .orElse (.map flat some) (.done none)

theorem terminal {Means : Context → Draft → Token → α → Prop}
    (means : ∀ {context draft token value}, Means context draft token value → token.isFlat) :
    Flat (terminal Means) := by
  rintro context tokens journal value later ⟨token, rfl, meaning, rfl⟩
  exact ⟨rfl, List.forall_mem_singleton.mpr (means meaning)⟩

theorem choose (Holds : α → Prop) : Flat (choose Holds) := by
  rintro context tokens journal value later ⟨rfl, -, rfl⟩
  exact ⟨rfl, nofun⟩

theorem exactly (flat : token.isFlat) : Flat (exactly token) := .terminal fun same => same ▸ flat

theorem sign (flat : (Token.punct punct).isFlat) : Flat (sign punct) := .exactly flat

theorem word (flat : (Token.keyword keyword).isFlat) : Flat (word keyword) := .exactly flat

theorem mark (flat : (Token.punct punct).isFlat) : Flat (mark punct) :=
  .orElse (.bind (.sign flat) fun _ => .done true) (.done false)

theorem markWord (flat : (Token.keyword keyword).isFlat) : Flat (markWord keyword) :=
  .orElse (.bind (.word flat) fun _ => .done true) (.done false)

/-! ### Terms -/

theorem isFlat_of_iri (means : Grammar.IriOf context draft token iri) : token.isFlat := by
  cases means <;> rfl

theorem iri : Flat Grammar.iri := .terminal isFlat_of_iri

theorem isFlat_of_label (means : Grammar.LabelOf context draft token label) : token.isFlat := by
  cases means with
  | blank => rfl
  | iri means => exact isFlat_of_iri means

theorem label : Flat Grammar.label := .terminal isFlat_of_label

theorem predicate : Flat Grammar.predicate := by
  apply Flat.terminal
  intro context draft token value means
  cases means with
  | type => rfl
  | iri means => exact isFlat_of_iri means

theorem reference : Flat Grammar.reference := by
  refine .orElse (.terminal ?_) (.bind (.sign rfl) fun _ => .label)
  intro context draft token value means
  cases means
  rfl

theorem string : Flat Grammar.string := by
  apply Flat.terminal
  intro context draft token value means
  cases means <;> rfl

theorem integer (convert : String → Option α) : Flat (Grammar.integer convert) := by
  apply Flat.terminal
  intro context draft token value means
  cases means
  rfl

theorem literal : Flat Grammar.literal := by
  refine .orElse (.bind .string fun _ => .bind (.orElse ?_ (.orElse ?_ ?_)) fun _ => .done _) ?_
  · apply Flat.terminal
    intro context draft token value means
    cases means
    rfl
  · exact .bind (.sign rfl) fun _ => .bind .iri fun _ => .done _
  · exact .done _
  · apply Flat.terminal
    intro context draft token value means
    obtain ⟨plain⟩ := means
    unfold Parser.plainLiteral? at plain
    split at plain <;> first | rfl | cases plain

theorem cardinality : Flat Grammar.cardinality := by
  apply Flat.terminal
  intro context draft token value means
  cases means <;> rfl

theorem action : Flat Grammar.action := by
  refine .bind (.sign rfl) fun _ => .bind .iri fun _ => .bind (.terminal ?_) fun _ => .done _
  intro context draft token value means
  cases means
  rfl

theorem actions : Flat Grammar.actions := .bind (.many .action) fun _ => .done _

/-! ### Value sets, facets and what stands beside a value class -/

theorem exclusions : Flat (Phrase.many Grammar.exclusion) :=
  .many (.bind (.sign rfl) fun _ => .bind .iri fun _ => .bind (.mark rfl) fun _ => .done _)

theorem iriRange : Flat Grammar.iriRange := by
  refine .orElse (.bind .iri fun _ => .orElse ?_ (.done _)) ?_
  · exact .bind (.sign rfl) fun _ => .bind .exclusions fun _ => .done _
  · exact .bind (.sign rfl) fun _ => .bind (.mark rfl) fun _ => .bind .exclusions fun _ => .done _

theorem valueSet : Flat Grammar.valueSet := by
  refine .bind (.sign rfl) fun _ => .bind (.many ?_) fun _ => .bind (.sign rfl) fun _ => .done _
  exact .orElse .iriRange (.bind .literal fun _ => .done _)

theorem facetWord (numeric : Bool) : Flat (Phrase.terminal (Grammar.FacetOf numeric)) := by
  apply Flat.terminal
  intro context draft token value means
  cases means with
  | @known keyword argument known => cases keyword <;> first | rfl | cases known

theorem facets (numeric : Bool) : Flat (Grammar.facets numeric) := by
  refine .bind (.many (.bind (.facetWord numeric) fun argument => ?_)) fun _ => .done _
  cases argument with
  | string facet => exact .map .string facet
  | unsigned facet => exact .map (.integer _) facet
  | signed facet => exact .map (.integer _) facet

theorem annotated : Flat Grammar.annotation := by
  refine .bind (.sign rfl) fun _ => .bind .iri fun _ => .bind (.orElse ?_ ?_) fun _ => .done _
  · exact .bind .iri fun _ => .done _
  · exact .bind .literal fun _ => .done _

theorem senseFlags : Flat Grammar.senseFlags :=
  .orElse (.bind (.sign rfl) fun _ => .bind (.mark rfl) fun _ => .done _)
    (.orElse (.bind (.sign rfl) fun _ => .bind (.mark rfl) fun _ => .done _) (.done _))

end Flat

/-! ### Constraints -/

/-- A property that flat phrases have and that sequences, alternatives and repetitions keep. -/
structure Kept (Property : {α : Type} → Phrase α → Prop) : Prop where
  flat : ∀ {α : Type} {g : Phrase α}, Flat g → Property g
  bind : ∀ {α β : Type} {g : Phrase α} {i : α → Phrase β}, Property g →
    (∀ value, Property (i value)) → Property (g >>= i)
  orElse : ∀ {α : Type} {g h : Phrase α}, Property g → Property h → Property (g <|> h)
  many : ∀ {α : Type} {g : Phrase α}, Property g → Property (many g)

namespace Kept

variable {Property : {α : Type} → Phrase α → Prop} {g : Phrase α}

theorem done (kept : Kept Property) (value : α) : Property (pure value : Phrase α) :=
  kept.flat (.done value)

theorem optional (kept : Kept Property) (holds : Property g) : Property (optional g) := by
  refine kept.orElse ?_ (kept.done none)
  rw [map_eq_pure_bind]
  exact kept.bind holds fun value => kept.done (some value)

theorem separated {separator : Phrase Unit} (kept : Kept Property) (between : Property separator)
    (holds : Property g) : Property (separated separator g) :=
  kept.bind holds fun _ => kept.bind (kept.many (kept.bind between fun _ => holds)) fun _ =>
    kept.done _

variable {inner : Option (Phrase TripleExpr)}

theorem shapeRef (kept : Kept Property)
    (definition : Property do Phrase.inPlace (← Grammar.shapeDefinition inner)) :
    Property (Grammar.shapeRef inner) := by
  have each : Property (Grammar.shapeOrRef inner) := kept.orElse (kept.flat .reference) definition
  refine kept.bind (kept.separated (kept.flat (.word rfl)) each) fun labels => ?_
  split
  · exact kept.done _
  · exact kept.done _

theorem valueClass (kept : Kept Property)
    (definition : Property do Phrase.inPlace (← Grammar.shapeDefinition inner)) :
    Property (Grammar.valueClass inner) := by
  have reference := kept.optional (kept.shapeRef definition)
  refine kept.orElse ?_ (kept.orElse ?_ (kept.orElse ?_ (kept.orElse ?_ (kept.orElse ?_
    (kept.orElse ?_ (kept.orElse ?_ ?_))))))
  · exact kept.flat (.bind (.word rfl) fun _ => .bind (.facets true) fun _ => .done _)
  · exact kept.bind (kept.flat (.word rfl)) fun _ => kept.bind reference fun _ =>
      kept.flat (.bind (.facets false) fun _ => .done _)
  · exact kept.bind (kept.flat (.word rfl)) fun _ => kept.bind reference fun _ =>
      kept.flat (.bind (.facets false) fun _ => .done _)
  · exact kept.bind (kept.flat (.word rfl)) fun _ => kept.bind reference fun _ => kept.done _
  · exact kept.flat (.bind .iri fun _ => .done _)
  · exact kept.bind (kept.shapeRef definition) fun _ => kept.done _
  · exact kept.flat (.bind .valueSet fun _ => .done _)
  · exact kept.flat (.bind (.sign rfl) fun _ => .done _)

/-- A constraint is flat but for its shapes in place. -/
theorem tripleConstraint (kept : Kept Property)
    (definition : Property do Phrase.inPlace (← Grammar.shapeDefinition inner)) :
    Property (Grammar.tripleConstraint inner) :=
  kept.bind (kept.flat .senseFlags) fun _ => kept.bind (kept.flat .predicate) fun _ =>
    kept.bind (kept.valueClass definition) fun _ => kept.flat (.bind (.many .annotated) fun _ =>
      .bind (.optional .cardinality) fun _ => .bind .actions fun _ => .done _)

end Kept

end Phrase

end ShExCompact
