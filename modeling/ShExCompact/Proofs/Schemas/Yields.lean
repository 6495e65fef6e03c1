import ShExCompact.Proofs.Drafts.Registrations
import ShExCompact.Proofs.Grammar.Ensures
import ShExCompact.Proofs.Lexical.Spelling
import ShExCompact.Proofs.Schemas.Terms

/-! What the productions yield: vetted terms, proper expressions and proper shapes. Each production
is checked by following its shape, and what it declares keeps a proper journal proper. -/
namespace ShExCompact

/-! ### Journals -/

/-- Everything that is declared is vetted and proper, also the shapes that others have replaced. -/
structure Journal.Proper (check : String → Except Iri.Fault Unit) (journal : Journal) :
    Prop where
  start : ∀ label ∈ journal.draft.start, Vetted check label.terms
  startActions : ∀ code ∈ journal.draft.startActions, Vetted check code.terms
  shapes : ∀ entry ∈ journal.draft.shapes, Vetted check entry.1.terms ∧ entry.2.Proper check
  log : ∀ entry ∈ journal.log, entry.shape.Proper check

theorem mem_placeShape {label : Label} {shape : Shape} {entry : Label × Shape}
    {shapes : List (Label × Shape)} (member : entry ∈ placeShape label shape shapes) :
    entry = (label, shape) ∨ entry ∈ shapes := by
  induction shapes with
  | nil => exact .inl (List.mem_singleton.mp member)
  | cons first rest ih =>
    rw [placeShape] at member
    split at member
    · rcases List.mem_cons.mp member with same | later
      · exact .inl same
      · exact .inr (List.mem_cons_of_mem _ later)
    · rcases List.mem_cons.mp member with same | later
      · exact .inr (same ▸ List.mem_cons_self)
      · exact (ih later).imp_right (List.mem_cons_of_mem _)

namespace Journal.Proper

variable {check : String → Except Iri.Fault Unit} {journal : Journal} {label : Label}
  {shape : Shape} {code : Actions} {entry : Label × Shape}

theorem declareBase (proper : journal.Proper check) (reference : String) :
    (journal.declare (·.declareBase reference)).Proper check := by
  obtain ⟨⟨_, _, _, _, _, _⟩, _⟩ := journal
  exact ⟨proper.start, proper.startActions, proper.shapes, proper.log⟩

theorem declarePrefix (proper : journal.Proper check) (name reference : String) :
    (journal.declare (·.declarePrefix name reference)).Proper check := by
  obtain ⟨⟨_, _, _, _, _, _⟩, _⟩ := journal
  exact ⟨proper.start, proper.startActions, proper.shapes, proper.log⟩

theorem setStart (proper : journal.Proper check) (vetted : Vetted check label.terms) :
    (journal.declare (·.setStart label)).Proper check :=
  { proper with start := fun _ held => Option.some.inj held ▸ vetted }

theorem setStartActions (proper : journal.Proper check) (vetted : Vetted check code.terms) :
    (journal.declare (·.setStartActions code)).Proper check :=
  { proper with startActions := fun _ held => Option.some.inj held ▸ vetted }

theorem register (draft : Draft)
    (proper : ∀ entry ∈ draft.shapes, Vetted check entry.1.terms ∧ entry.2.Proper check)
    (vetted : Vetted check label.terms) (proper' : shape.Proper check) :
    ∀ entry ∈ (draft.register label shape).shapes,
      Vetted check entry.1.terms ∧ entry.2.Proper check := by
  intro entry member
  rcases mem_placeShape member with rfl | old
  · exact ⟨vetted, proper'⟩
  · exact proper entry old

theorem stated (proper : journal.Proper check) (vetted : Vetted check label.terms)
    (proper' : shape.Proper check) : (journal.stated label shape).Proper check where
  start := proper.start
  startActions := proper.startActions
  shapes := register _ proper.shapes vetted proper'
  log := List.forall_mem_append.mpr ⟨proper.log, fun _ member =>
    List.mem_singleton.mp member ▸ proper'⟩

/-- A generated label has no IRI. -/
theorem inPlace (proper : journal.Proper check) (proper' : shape.Proper check) :
    (journal.inPlace shape).Proper check where
  start := proper.start
  startActions := proper.startActions
  shapes := register journal.draft.freshLabel.2 proper.shapes Vetted.nil proper'
  log := List.forall_mem_append.mpr ⟨proper.log, fun _ member =>
    List.mem_singleton.mp member ▸ proper'⟩

end Journal.Proper

/-! ### Phrases -/

namespace Phrase

/-- The values that a phrase derives from tokens of a text have a property, and a proper journal
stays proper. -/
def Yields (context : Context) (g : Phrase α) (Good : α → Prop) : Prop :=
  ∀ ⦃tokens journal value later⦄, (∀ token ∈ tokens, ∃ lexeme, token.Shown lexeme) →
    g.Derives context tokens journal value later →
    Good value ∧ (journal.Proper context.check → later.Proper context.check)

namespace Yields

variable {context : Context} {g h : Phrase α} {i : α → Phrase β} {Good Better : α → Prop}
  {Good' : β → Prop}

theorem done (good : Good value) : Yields context (pure value) Good := Ensures.done good

theorem imp (yields : Yields context g Better) (weaker : ∀ value, Better value → Good value) :
    Yields context g Good := Ensures.imp yields weaker

theorem bind (first : Yields context g Good)
    (later : ∀ value, Good value → Yields context (i value) Good') :
    Yields context (g >>= i) Good' := Ensures.bind first later

theorem orElse (left : Yields context g Good) (right : Yields context h Good) :
    Yields context (g <|> h) Good := Ensures.orElse left right

theorem optional (yields : Yields context g Good) :
    Yields context (optional g) fun value => ∀ inner ∈ value, Good inner := Ensures.optional yields

theorem many (yields : Yields context g Good) :
    Yields context (many g) fun values => ∀ value ∈ values, Good value := Ensures.many yields

theorem several (yields : Yields context g Good) :
    Yields context (several g) fun values => ∀ value ∈ values, Good value :=
  .bind yields fun _ first => .bind (.many yields) fun _ others =>
    .done (List.forall_mem_cons.mpr ⟨first, others⟩)

/-- A phrase that declares nothing, whatever its value is. -/
theorem silent (composed : Composed (fun _ _ => False) g) : Yields context g fun _ => True :=
  Ensures.silent composed

theorem sign (punct : Punct) : Yields context (sign punct) fun _ => True := .silent (.sign punct)

theorem word (keyword : Keyword) : Yields context (word keyword) fun _ => True :=
  .silent (.word keyword)

theorem mark (punct : Punct) : Yields context (mark punct) fun _ => True := .silent (.mark punct)

theorem separated {separator : Phrase Unit} (between : Composed (fun _ _ => False) separator)
    (yields : Yields context g Good) : Yields context (separated separator g)
      fun values => values ≠ [] ∧ ∀ value ∈ values, Good value := Ensures.separated between yields

theorem terminal {Means : Context → Draft → Token → α → Prop}
    (good : ∀ {draft token value}, (∃ lexeme, token.Shown lexeme) →
      Means context draft token value → Good value) : Yields context (terminal Means) Good :=
  Ensures.terminal good

theorem change {act : Journal → Journal} {valid : ∀ journal, Journal.Step journal (act journal)}
    (keeps : ∀ {journal}, journal.Proper context.check → (act journal).Proper context.check) :
    Yields context (Phrase.change act valid) fun _ => True := Ensures.change keeps

theorem within {inner : Option (Phrase TripleExpr)} {phrase : Phrase TripleExpr → Phrase α}
    (yields : ∀ body ∈ inner, Yields context (phrase body) Good) :
    Yields context (within inner phrase) Good := Ensures.within yields

/-! ### Terms -/

theorem vetted_of_iri (means : Grammar.IriOf context draft token iri) :
    iri.Vetted context.check := by
  cases means with
  | reference valid | name _ valid => exact .inr valid

theorem iri : Yields context Grammar.iri (·.Vetted context.check) :=
  .terminal fun _ means => vetted_of_iri means

theorem label : Yields context Grammar.label fun label => Vetted context.check label.terms := by
  apply Yields.terminal
  intro draft token value _ means
  cases means with
  | blank => exact .nil
  | iri means => exact .cons (vetted_of_iri means) .nil

theorem predicate : Yields context Grammar.predicate (·.Vetted context.check) := by
  apply Yields.terminal
  intro draft token value _ means
  cases means with
  | type => exact .inl List.mem_cons_self
  | iri means => exact vetted_of_iri means

theorem reference :
    Yields context Grammar.reference fun label => Vetted context.check label.terms := by
  refine .orElse (.terminal ?_) (.bind (.sign _) fun _ _ => .label)
  intro draft token value _ means
  cases means with
  | name _ valid => exact .cons (.inr valid) .nil

theorem vetted_canonical (lexeme : String) (known : datatype ∈ Vocabulary.builtIn) :
    Literal.Vetted context.check (Literal.canonical lexeme datatype) :=
  .datatype _ (.inl known)

theorem vetted_plain (plain : Parser.plainLiteral? token = some text) :
    Literal.Vetted context.check text := by
  unfold Parser.plainLiteral? at plain
  split at plain
  · cases plain
    exact vetted_canonical _ (by decide : Vocabulary.integer ∈ _)
  · cases plain
    exact vetted_canonical _ (by decide : Vocabulary.decimal ∈ _)
  · cases plain
    exact vetted_canonical _ (by decide : Vocabulary.double ∈ _)
  · cases plain
    exact vetted_canonical "true" (by decide : Vocabulary.boolean ∈ _)
  · cases plain
    exact vetted_canonical "false" (by decide : Vocabulary.boolean ∈ _)
  · cases plain

/-- What may follow the value of a literal. -/
theorem suffix (value : String) : Yields context (Phrase.terminal Grammar.LanguageOf <|>
      (do Phrase.sign .doubleCaret; return Literal.Suffix.datatype (← Grammar.iri)) <|>
      return .plain)
    fun suffix => Literal.Vetted context.check (Literal.text value suffix) := by
  refine .orElse (.terminal ?_) (.orElse ?_ (.done (.plain value)))
  · rintro draft token suffix ⟨lexeme, letters⟩ means
    cases means
    exact .language value letters
  · exact .bind (.sign _) fun _ _ => .bind .iri fun _ vetted => .done (.datatype value vetted)

theorem literal : Yields context Grammar.literal (Literal.Vetted context.check) := by
  refine .orElse (.bind (.silent .string) fun value _ => ?_) (.terminal ?_)
  · exact .bind (.suffix value) fun _ vetted => .done vetted
  · intro draft token text _ means
    cases means with
    | plain plain => exact vetted_plain plain

theorem action :
    Yields context Grammar.action fun entry => Iri.Vetted context.check ⟨entry.1⟩ :=
  .bind (.sign _) fun _ _ => .bind .iri fun _ vetted => .bind (.silent .code) fun _ _ =>
    .done vetted

theorem actions :
    Yields context Grammar.actions fun code => Vetted context.check code.terms :=
  .bind (.many .action) fun _ each => .done (Vetted.actions each)

/-! ### Value sets -/

theorem exclusions : Yields context (Phrase.many Grammar.exclusion) fun exclusions =>
    Vetted context.check (exclusions.flatMap Exclusion.terms) := by
  have exclusion : Yields context Grammar.exclusion fun exclusion =>
      Vetted context.check exclusion.terms := by
    refine .bind (.sign _) fun _ _ => .bind .iri fun excluded vetted => .bind (.mark _)
      fun isStem _ => .done ?_
    cases isStem <;> exact .cons vetted .nil
  exact .imp (.many exclusion) fun _ each => .flatMap each

theorem iriRange :
    Yields context Grammar.iriRange fun item => Vetted context.check item.terms := by
  refine .orElse (.bind .iri fun stem vetted => .orElse ?_ (.done (.cons vetted .nil))) ?_
  · exact .bind (.sign _) fun _ _ => .bind .exclusions fun _ excluded =>
      .done (.append (.cons vetted .nil) excluded)
  · exact .bind (.sign _) fun _ _ => .bind (.mark _) fun _ _ => .bind .exclusions
      fun _ excluded => .done (.append .nil excluded)

theorem valueSet : Yields context Grammar.valueSet fun items =>
    Vetted context.check (items.flatMap ValueSetItem.terms) := by
  have value : Yields context Grammar.value fun item => Vetted context.check item.terms :=
    .orElse .iriRange (.bind .literal fun _ vetted => .done (.cons vetted .nil))
  exact .bind (.sign _) fun _ _ => .bind (.many value) fun _ each => .bind (.sign _) fun _ _ =>
    .done (.flatMap each)

/-! ### Shapes -/

/-- Parts of a definition add their own terms. -/
theorem vetted_addTo {check : String → Except Iri.Fault Unit} {shape : Shape}
    {clause : Parser.Clause} (vetted : Vetted check shape.ownTerms)
    (added : Vetted check (clause.addTo Shape.empty).ownTerms) :
    Vetted check (clause.addTo shape).ownTerms := by
  obtain ⟨inherited, others⟩ := List.forall_mem_append.mp vetted
  obtain ⟨extra, code⟩ := List.forall_mem_append.mp others
  obtain ⟨inherited', others'⟩ := List.forall_mem_append.mp added
  obtain ⟨extra', -⟩ := List.forall_mem_append.mp others'
  cases clause with
  | inherit labels =>
    refine .append ?_ others
    rw [Parser.Clause.addTo, List.flatMap_append]
    exact .append inherited inherited'
  | extra predicates =>
    refine .append inherited (.append ?_ code)
    rw [Parser.Clause.addTo, List.map_append]
    exact .append extra extra'
  | closed => exact vetted

theorem vetted_clauses {check : String → Except Iri.Fault Unit} {clauses : List Parser.Clause}
    (shape : Shape) (vetted : Vetted check shape.ownTerms)
    (each : ∀ clause ∈ clauses, Vetted check (Parser.Clause.addTo Shape.empty clause).ownTerms) :
    Vetted check (clauses.foldl Parser.Clause.addTo shape).ownTerms := by
  induction clauses generalizing shape with
  | nil => exact vetted
  | cons first rest ih =>
    obtain ⟨first', rest'⟩ := List.forall_mem_cons.mp each
    exact ih _ (vetted_addTo vetted first') rest'

theorem clause : Yields context Grammar.clause fun clause =>
    Vetted context.check (clause.addTo Shape.empty).ownTerms := by
  refine .orElse ?_ (.orElse ?_ ?_)
  · exact .bind (.sign _) fun _ _ => .bind (.several .label) fun _ each =>
      .done (.append (.flatMap each) .nil)
  · exact .bind (.word _) fun _ _ => .bind (.several .predicate) fun _ each =>
      .done (.append .nil (.append (.iris each) .nil))
  · exact .bind (.word _) fun _ _ => .done .nil

theorem annotated : Yields context Grammar.annotation fun attached =>
    Vetted context.check attached.terms := by
  have object : Yields context ((do return ObjectValue.iri (← Grammar.iri)) <|>
      do return ObjectValue.literal (← Grammar.literal)) (·.Vetted context.check) :=
    .orElse (.bind .iri fun _ vetted => .done vetted) (.bind .literal fun _ vetted => .done vetted)
  exact .bind (.sign _) fun _ _ => .bind .iri fun _ vetted => .bind object fun _ vetted' =>
    .done (.cons vetted (.cons vetted' .nil))

section Inner

variable {inner : Option (Phrase TripleExpr)}
  (deeper : ∀ body ∈ inner, Yields context body (·.Proper context.check))

include deeper

theorem shapeDefinition :
    Yields context (Grammar.shapeDefinition inner) (·.Proper context.check) :=
  .within fun body held => .bind (.many .clause) fun _ each => .bind (.sign _) fun _ _ =>
    .bind (.optional (deeper body held)) fun _ proper => .bind (.sign _) fun _ _ =>
      .done ⟨vetted_clauses Shape.empty .nil each, proper⟩

theorem shapeRef : Yields context (Grammar.shapeRef inner) fun reference =>
    Vetted context.check reference.terms := by
  have each : Yields context (Grammar.shapeOrRef inner) fun label =>
      Vetted context.check label.terms := by
    refine .orElse .reference (.bind (.shapeDefinition deeper) fun shape proper => ?_)
    rintro tokens journal label later - ⟨-, rfl, rfl⟩
    exact ⟨.nil, fun proper' => proper'.inPlace proper⟩
  refine .bind (.separated (.word _) each) fun labels ⟨_, vetted⟩ => ?_
  split
  · exact .done (.flatMap vetted)
  · exact .done (.flatMap vetted)

theorem valueClass : Yields context (Grammar.valueClass inner) fun value =>
    Vetted context.check value.terms := by
  have target := Yields.optional (shapeRef deeper)
  refine .orElse ?_ (.orElse ?_ (.orElse ?_ (.orElse ?_ (.orElse ?_ (.orElse ?_
    (.orElse ?_ ?_))))))
  · exact .bind (.word _) fun _ _ => .bind (.silent (.facets true)) fun _ _ => .done .nil
  · exact .bind (.word _) fun _ _ => .bind target fun _ each =>
      .bind (.silent (.facets false)) fun _ _ => .done (.optional each)
  · exact .bind (.word _) fun _ _ => .bind target fun _ each =>
      .bind (.silent (.facets false)) fun _ _ => .done (.optional each)
  · exact .bind (.word _) fun _ _ => .bind target fun _ each => .done (.optional each)
  · exact .bind .iri fun _ vetted => .done (.cons vetted .nil)
  · exact .bind (shapeRef deeper) fun _ vetted => .done vetted
  · exact .bind .valueSet fun _ vetted => .done vetted
  · exact .bind (.sign _) fun _ _ => .done .nil

/-! ### Triple expressions -/

theorem tripleConstraint : Yields context (Grammar.tripleConstraint inner) fun body =>
    Vetted context.check body.terms :=
  .bind (.silent .senseFlags) fun _ _ => .bind .predicate fun _ predicate =>
    .bind (.valueClass deeper) fun _ value => .bind (.many .annotated) fun _ annotations =>
      .bind (.silent (.optional .cardinality)) fun _ _ => .bind .actions fun _ code =>
        .done (.cons predicate (.append value (.append (.flatMap annotations) code)))

/-- What stands between parentheses, with what is put around it. -/
theorem encapsulated :
    Yields context (Grammar.encapsulated inner) (·.Proper context.check) := by
  refine .within fun body held => .bind (.sign _) fun _ _ => .bind (deeper body held)
    fun _ proper => .bind (.sign _) fun _ _ => .bind (.silent (.optional .cardinality))
      fun _ _ => .bind .actions fun _ vetted => ?_
  rintro tokens journal result later - ⟨-, wrapped, rfl⟩
  exact ⟨proper.wrapped wrapped vetted, id⟩

theorem unary : Yields context (Grammar.unary inner) (·.Proper context.check) := by
  have unlabelled : Yields context (Grammar.unlabelled inner) (·.Proper context.check) := by
    refine .orElse ?_ (.orElse ?_ (encapsulated deeper))
    · exact .bind (tripleConstraint deeper) fun _ vetted => .done (.constraint vetted)
    · exact .bind (.sign _) fun _ _ => .bind .label fun _ vetted => .done (.inclusion vetted)
  refine .bind (.optional (.bind (.sign _) fun _ _ => .label)) fun id vetted =>
    .bind unlabelled fun expression proper => .done ?_
  cases id with
  | none => exact proper
  | some label => exact proper.withId (vetted label rfl)

theorem oneOf : Yields context (Grammar.oneOf inner) (·.Proper context.check) := by
  have several (rest : List TripleExpr) : 2 ≤ rest.length + 1 + 1 := Nat.le_add_left ..
  have group : Yields context (Grammar.group inner) (·.Proper context.check) :=
    .bind (.separated (.sign _) (unary deeper)) fun _ ⟨nonempty, each⟩ => .bind (.mark _) fun _ _ =>
      .done (.combined (fun _ _ rest => ⟨.inl (several rest), rfl, rfl⟩) nonempty each)
  have someOf : Yields context (Grammar.someOf inner) (·.Proper context.check) :=
    .bind (.separated (.sign _) group) fun _ ⟨nonempty, each⟩ =>
      .done (.combined (fun _ _ rest => ⟨several rest, rfl, rfl⟩) nonempty each)
  exact .bind (.separated (.sign _) someOf) fun _ ⟨nonempty, each⟩ =>
    .done (.combined (fun _ _ rest => ⟨several rest, rfl, rfl⟩) nonempty each)

end Inner

/-- On the levels that are left: what is read inside of one bracket is proper, so what is read
around it is. -/
theorem nested (left : Nat) :
    ∀ body ∈ Grammar.nested left, Yields context body (·.Proper context.check) := by
  induction left with
  | zero => exact nofun
  | succ left ih =>
    intro body member
    cases member
    exact oneOf ih

/-! ### Documents -/

theorem directive : Yields context Grammar.directive fun _ => True := by
  refine .orElse (.bind (.word _) fun _ _ => ?_) (.bind (.word _) fun _ _ => ?_)
  · exact .bind (.silent .referenceText) fun _ _ => .change fun proper => proper.declareBase _
  · exact .bind (.silent .prefixName) fun _ _ => .bind (.silent .referenceText) fun _ _ =>
      .change fun proper => proper.declarePrefix _ _

theorem definition :
    Yields context (Grammar.shapeDefinition Grammar.outermost) (·.Proper context.check) :=
  .shapeDefinition (nested nestingLimit)

/-- The actions of a statement are put into its shape. -/
theorem proper_actions {shape : Shape} {code : Actions} (proper : shape.Proper context.check)
    (vetted : Vetted context.check code.terms) (isVirtual : Bool) :
    Shape.Proper context.check { shape with isVirtual := isVirtual, actions := code } := by
  obtain ⟨inherited, others⟩ := List.forall_mem_append.mp proper.vetted
  obtain ⟨extra, -⟩ := List.forall_mem_append.mp others
  exact ⟨.append inherited (.append extra vetted), proper.proper⟩

theorem notStartAction : Yields context Grammar.notStartAction fun _ => True := by
  have startLabel : Yields context Grammar.startLabel fun label =>
      Vetted context.check label.terms := by
    refine .orElse .label (.orElse .reference ?_)
    refine .bind .definition fun shape proper => .bind .actions fun code vetted => ?_
    rintro tokens journal label later - ⟨-, rfl, rfl⟩
    exact ⟨.nil, fun proper' => proper'.inPlace (proper_actions proper vetted _)⟩
  refine .orElse ?_ ?_
  · exact .bind (.word _) fun _ _ => .bind (.sign _) fun _ _ => .bind startLabel
      fun _ vetted => .change fun proper => proper.setStart vetted
  · exact .bind (.silent (.markWord _)) fun _ _ => .bind .label fun _ vetted =>
      .bind .definition fun _ proper => .bind .actions fun _ vetted' => .change fun journal =>
        journal.stated vetted (proper_actions proper vetted' _)

theorem document : Yields context Grammar.document fun _ => True := by
  have statement : Yields context Grammar.statement fun _ => True :=
    .orElse .directive .notStartAction
  have startActions : Yields context Grammar.startActions fun _ => True :=
    .bind (.several .action) fun _ each => .change fun proper =>
      proper.setStartActions (Vetted.actions each)
  refine .bind (.many .directive) fun _ _ => .orElse ?_ (.done trivial)
  exact .bind (.orElse .notStartAction startActions) fun _ _ => .bind (.many statement) fun _ _ =>
    .done trivial

end Yields

end Phrase

end ShExCompact
