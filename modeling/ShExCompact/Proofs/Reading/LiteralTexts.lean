import ShExCompact.Proofs.Grammar.LabelTokens
import ShExCompact.Proofs.Reading.ProperSchemas
import ShExCompact.Proofs.Reading.WrittenOut
import ShExCompact.Proofs.Schemas.Literals

/-! What the literals of a schema are the texts of. Each of them stands in a statement of the
document as a string, a number or a truth value, and it is the text of the value that is written
there with the language or the datatype behind it. -/
namespace ShExCompact

open Phrase (sign word mark markWord exactly many several separated)
open Reading (EndsString Leads Opens)

/-! ### Written literals -/

namespace Literal

/-- The value that tokens write before others, and what they write behind it. Names are those of a
draft. -/
inductive Written (context : Context) (names : Draft) (rest : List Token) :
    List Token → String → Suffix → Prop where
  | plain (string : Grammar.StringOf context names token value) (free : EndsString rest.head?) :
      Written context names rest [token] value .plain
  | language (string : Grammar.StringOf context names token value) :
      Written context names rest [token, .language tag] value (.language tag)
  | datatype (string : Grammar.StringOf context names token value)
      (iri : Grammar.IriOf context names name datatype) :
      Written context names rest [token, .punct .doubleCaret, name] value (.datatype datatype)
  | integer : Written context names rest [.integer lexeme] lexeme (.datatype Vocabulary.integer)
  | decimal : Written context names rest [.decimal lexeme] lexeme (.datatype Vocabulary.decimal)
  | double :
      Written context names rest [.double lexeme] lexeme.toLower (.datatype Vocabulary.double)
  | truth : Written context names rest [.keyword .truth] "true" (.datatype Vocabulary.boolean)
  | falsehood :
      Written context names rest [.keyword .falsehood] "false" (.datatype Vocabulary.boolean)

theorem Written.quoteless (quoteless : ∀ text, context.check text = .ok () → '"' ∉ text.toList)
    (shown : ∀ token ∈ tokens, ∃ lexeme, token.Shown lexeme)
    (written : Written context names rest tokens value suffix) : suffix.Quoteless := by
  cases written with
  | plain => exact .plain
  | language =>
    obtain ⟨_, letters⟩ := shown _ (List.mem_cons_of_mem _ List.mem_cons_self)
    exact .language letters
  | datatype _ iri =>
    cases iri with
    | reference valid | name _ valid => exact .datatype (quoteless _ valid)
  | integer | decimal | double | truth | falsehood => exact .datatype (by decide)

end Literal

/-! ### What follows literals -/

namespace Reading

/-- A phrase does not begin with what goes on with a literal. -/
theorem Opens.endsString {property : Token → Prop} {follow : Option Token → Prop} {g : Phrase α}
    (opens : Opens g property) (language : ∀ tag, ¬ property (.language tag))
    (carets : ¬ property (.punct .doubleCaret)) : Leads g follow EndsString := by
  intro context tokens journal value later next derives follows
  exact ⟨opens.leads_ne carets derives follows, fun tag => opens.leads_ne (language tag) derives
    follows⟩

theorem annotation_endsString : Leads Grammar.annotation EndsString EndsString :=
  annotation_opens.endsString nofun nofun

theorem facets_endsString : Leads (Grammar.facets numeric) EndsString EndsString :=
  .map (.many ((facet_opens numeric).endsString nofun nofun) fun _ => id)

theorem actions_endsString : Leads Grammar.actions EndsString EndsString :=
  .map (.many (action_opens.endsString nofun nofun) fun _ => id)

/-- The cardinality and the actions behind the annotations of a constraint. -/
theorem constraint_endsString (build : Option Cardinality → Actions → α) : Leads (do
    let cardinality ← optional Grammar.cardinality
    return build cardinality (← Grammar.actions)) EndsString EndsString :=
  .bind (.optional (cardinality_opens.endsString nofun nofun) fun _ => id) fun _ =>
    actions_endsString.map

end Reading

/-! ### Phrases -/

theorem Draft.SameNames.iriOf (same : Draft.SameNames draft later)
    (means : Grammar.IriOf context later token iri) : Grammar.IriOf context draft token iri := by
  cases same.labelOf (.iri means) with
  | iri means => exact means

/-- A statement of a document: what its names denote, its tokens, and those behind it. -/
structure Site where
  context : Context
  names : Draft
  statement : List Token
  after : List Token

/-- A text is the one of a literal that is written in a statement. -/
def Site.Holds (site : Site) (text : String) : Prop :=
  ∃ front tokens back value suffix, site.statement = front ++ (tokens ++ back) ∧
    Literal.Written site.context site.names (back ++ site.after) tokens value suffix ∧
    text = Literal.text value suffix

/-- The names stay, and the shapes that are declared have literals of the statement. -/
structure Site.Extends (site : Site) (journal later : Journal) : Prop where
  names : journal.draft.SameNames later.draft
  log : ∃ entries, later.log = journal.log ++ entries ∧
    ∀ entry ∈ entries, ∀ text ∈ entry.shape.literals, site.Holds text

namespace Site.Extends

variable {site : Site} {journal : Journal}

theorem refl : site.Extends journal journal :=
  ⟨.refl _, [], (List.append_nil _).symm, nofun⟩

theorem trans (first : site.Extends journal middle) (second : site.Extends middle later) :
    site.Extends journal later := by
  obtain ⟨entries, same, each⟩ := first.log
  obtain ⟨entries', same', each'⟩ := second.log
  refine ⟨first.names.trans second.names, entries ++ entries', ?_,
    List.forall_mem_append.mpr ⟨each, each'⟩⟩
  rw [same', same, List.append_assoc]

theorem inPlace {shape : Shape} (each : ∀ text ∈ shape.literals, site.Holds text) :
    site.Extends journal (journal.inPlace shape) :=
  ⟨⟨rfl, rfl⟩, _, rfl, List.forall_mem_singleton.mpr each⟩

theorem stated {label : Label} {shape : Shape} (each : ∀ text ∈ shape.literals, site.Holds text) :
    site.Extends journal (journal.stated label shape) :=
  ⟨⟨rfl, rfl⟩, _, rfl, List.forall_mem_singleton.mpr each⟩

end Site.Extends

namespace Phrase

/-- The literals of what a phrase derives in a statement are written there, and so are those of the
shapes that it declares. -/
def Shows (site : Site) (g : Phrase α) (literals : α → List String) : Prop :=
  ∀ ⦃front tokens back journal value later⦄, site.statement = front ++ (tokens ++ back) →
    EndsString (back ++ site.after).head? → site.names.SameNames journal.draft →
    g.Derives site.context tokens journal value later →
    (∀ text ∈ literals value, site.Holds text) ∧ site.Extends journal later

/-- What a phrase derives leaves the journal as it is. -/
def Still (g : Phrase α) : Prop := Composed (fun _ _ => False) g

theorem Still.same (still : Still g) (derives : g.Derives context tokens journal value later) :
    later = journal := by
  rcases (Composed.runs still derives).cases_tail with same | ⟨_, _, impossible⟩
  · exact same
  · exact impossible.elim

namespace Shows

variable {site : Site} {g h : Phrase α} {i : α → Phrase β} {literals : α → List String}
  {literals' : β → List String}

theorem done (each : ∀ text ∈ literals value, site.Holds text) :
    Shows site (pure value) literals := by
  rintro front tokens back journal result later - - - ⟨-, rfl, rfl⟩
  exact ⟨each, .refl⟩

theorem never : Shows site (failure : Phrase α) literals :=
  fun _ _ _ _ _ _ _ _ _ never => never.elim

/-- What does not go on with a literal may follow one. -/
theorem bind (first : Shows site g literals)
    (leads : ∀ value, Leads (i value) EndsString EndsString)
    (later : ∀ value, (∀ text ∈ literals value, site.Holds text) →
      Shows site (i value) literals') : Shows site (g >>= i) literals' := by
  rintro before _ back journal result last split free names
    ⟨front, rest, value, middle, rfl, derives, derives'⟩
  rw [List.append_assoc] at split
  have between : EndsString (rest ++ back ++ site.after).head? := by
    rw [List.append_assoc, List.head?_append]
    exact leads value derives' free
  obtain ⟨each, extends'⟩ := first split between names derives
  rw [← List.append_assoc] at split
  obtain ⟨each', extends''⟩ := later value each split free (names.trans extends'.names) derives'
  exact ⟨each', extends'.trans extends''⟩

theorem skip (still : Still g) (later : ∀ value, Shows site (i value) literals') :
    Shows site (g >>= i) literals' := by
  rintro before _ back journal result last split free names
    ⟨front, rest, value, middle, rfl, derives, derives'⟩
  obtain rfl := still.same derives
  rw [List.append_assoc, ← List.append_assoc] at split
  exact later value split free names derives'

theorem orElse (left : Shows site g literals) (right : Shows site h literals) :
    Shows site (g <|> h) literals := by
  rintro front tokens back journal value later split free names (derives | derives)
  · exact left split free names derives
  · exact right split free names derives

theorem still (still : Still g) : Shows site g fun _ => [] := by
  intro front tokens back journal value later _ _ _ derives
  obtain rfl := still.same derives
  exact ⟨nofun, .refl⟩

theorem optional (part : Shows site g literals) :
    Shows site (optional g) fun value => value.toList.flatMap literals := by
  refine .orElse ?_ (.done nofun)
  rw [map_eq_pure_bind]
  refine .bind part (fun _ => .done fun _ => id) fun value each => .done ?_
  rwa [Option.toList_some, List.flatMap_singleton]

theorem many (part : Shows site g literals) (leads : Leads g EndsString EndsString) :
    Shows site (many g) fun values => values.flatMap literals := by
  intro before tokens back journal values later split free names repeats
  change g.Repeats site.context tokens journal values later at repeats
  induction repeats generalizing before with
  | done => exact ⟨nofun, .refl⟩
  | @more front _ _ _ rest _ _ first others ih =>
    rw [List.append_assoc] at split
    have between : EndsString (rest ++ back ++ site.after).head? := by
      rw [List.append_assoc, List.head?_append]
      exact Leads.many leads (fun _ => id) others free
    obtain ⟨each, extends'⟩ := part split between names first
    rw [← List.append_assoc] at split
    obtain ⟨each', extends''⟩ := ih split (names.trans extends'.names)
    exact ⟨List.forall_mem_append.mpr ⟨each, each'⟩, extends'.trans extends''⟩

theorem separated {separator : Phrase Unit} (still : Still separator)
    (separates : Leads separator Reading.Any EndsString) (part : Shows site g literals) :
    Shows site (separated separator g) fun values => values.flatMap literals := by
  have leads : Leads (do separator; g) EndsString EndsString := .then separates
  refine .bind part (fun _ => .bind (.many leads fun _ => id) fun _ => .done fun _ => id)
    fun first each => ?_
  refine .bind (.many (.skip still fun _ => part) leads) (fun _ => .done fun _ => id)
    fun rest each' => .done ?_
  exact List.forall_mem_append.mpr ⟨each, each'⟩

theorem within {inner : Option (Phrase TripleExpr)} {phrase : Phrase TripleExpr → Phrase α}
    (part : ∀ body ∈ inner, Shows site (phrase body) literals) :
    Shows site (within inner phrase) literals := by
  cases inner with
  | none => exact .never
  | some body => exact part body rfl

/-! ### Literals -/

theorem stringOf (means : Grammar.StringOf context draft token value) (names : Draft) :
    Grammar.StringOf context names token value := by
  cases means with
  | decoded decodes => exact .decoded decodes
  | malformed lenient flawed => exact .malformed lenient flawed

theorem written_plain (plain : Parser.plainLiteral? token = some text) :
    ∃ value suffix, Literal.Written context names rest [token] value suffix ∧
      text = Literal.text value suffix := by
  unfold Parser.plainLiteral? at plain
  split at plain
  · cases plain
    exact ⟨_, _, .integer, rfl⟩
  · cases plain
    exact ⟨_, _, .decimal, rfl⟩
  · cases plain
    exact ⟨_, _, .double, rfl⟩
  · cases plain
    exact ⟨_, _, .truth, rfl⟩
  · cases plain
    exact ⟨_, _, .falsehood, rfl⟩
  · cases plain

theorem literal : Shows site Grammar.literal fun text => [text] := by
  intro front tokens back journal text later split free names derives
  suffices holds : site.Holds text by
    have same : later = journal := Still.same Composed.literal derives
    exact ⟨List.forall_mem_singleton.mpr holds, same ▸ .refl⟩
  rcases derives with ⟨_, _, value, _, rfl, ⟨token, rfl, means, rfl⟩, derives⟩ |
    ⟨token, rfl, ⟨plain⟩, -⟩
  · have string := stringOf means site.names
    obtain ⟨_, _, suffix, _, rfl, followed, rfl, rfl, -⟩ := derives
    rcases followed with ⟨_, rfl, means, -⟩ | ⟨_, _, _, _, rfl, ⟨_, rfl, rfl, rfl⟩, _, _, iri, _,
      rfl, ⟨name, rfl, means, -⟩, rfl, rfl, -⟩ | ⟨rfl, rfl, -⟩
    · cases means
      exact ⟨front, _, back, value, _, split, .language string, rfl⟩
    · exact ⟨front, _, back, value, _, split, .datatype string (names.iriOf means), rfl⟩
    · exact ⟨front, _, back, value, _, split, .plain string free, rfl⟩
  · obtain ⟨value, suffix, written, same⟩ := written_plain plain
    exact ⟨front, _, back, value, suffix, split, written, same⟩

/-! ### Value sets and annotations -/

theorem value : Shows site Grammar.value ValueSetItem.literals := by
  refine .orElse (.orElse ?_ ?_) (.bind .literal (fun _ => .done fun _ => id) fun _ => ?_)
  · refine .skip .iri fun _ => .orElse ?_ (.done nofun)
    exact .skip (.sign _) fun _ => .skip (.many .exclusion) fun _ => .done nofun
  · exact .skip (.sign _) fun _ => .skip (.mark _) fun _ => .skip (.many .exclusion) fun _ =>
      .done nofun
  · exact fun each => .done each

theorem valueSet : Shows site Grammar.valueSet (·.flatMap ValueSetItem.literals) := by
  have leads : Leads Grammar.value EndsString EndsString := fun _ _ _ _ _ _ derives follows =>
    (Reading.value_leads derives follows).1
  exact .skip (.sign _) fun _ => .bind (.many .value leads)
    (fun _ => .then (.exactly ⟨nofun, nofun⟩))
    fun _ each => .skip (.sign _) fun _ => .done each

theorem annotated : Shows site Grammar.annotation fun attached => attached.object.literals := by
  have object : Shows site ((do return ObjectValue.iri (← Grammar.iri)) <|>
      do return ObjectValue.literal (← Grammar.literal)) ObjectValue.literals :=
    .orElse (.skip .iri fun _ => .done nofun)
      (.bind .literal (fun _ => .done fun _ => id) fun _ each => .done each)
  exact .skip (.sign _) fun _ => .skip .iri fun _ => .bind object (fun _ => .done fun _ => id)
    fun _ each => .done each

/-! ### Shapes -/

section Inner

variable {inner : Option (Phrase TripleExpr)}
  (deeper : ∀ body ∈ inner, Shows site body TripleExpr.literals)

include deeper

theorem shapeDefinition : Shows site (Grammar.shapeDefinition inner) Shape.literals :=
  .within fun body held => .skip (.many .clause) fun _ => .skip (.sign _) fun _ =>
    .bind (.optional (deeper body held)) (fun _ => .then (.exactly ⟨nofun, nofun⟩)) fun _ each =>
      .skip (.sign _) fun _ => .done each

theorem shapeRef : Shows site (Grammar.shapeRef inner) fun _ => [] := by
  have each : Shows site (Grammar.shapeOrRef inner) fun _ => [] := by
    refine .orElse (.still .reference) ?_
    refine .bind (.shapeDefinition deeper) (fun _ => .inPlace fun _ => id) fun shape holds => ?_
    rintro front tokens back journal label later - - - ⟨-, -, rfl⟩
    exact ⟨nofun, .inPlace holds⟩
  refine .bind (.separated (.word _) (.exactly ⟨nofun, nofun⟩) each) (fun labels => ?_)
    fun labels _ => ?_
  · split
    · exact .done fun _ => id
    · exact .done fun _ => id
  · split
    · exact .done nofun
    · exact .done nofun

theorem valueClass : Shows site (Grammar.valueClass inner) ValueClass.literals := by
  have reference := Shows.shapeRef deeper
  have target := Shows.optional reference
  refine .orElse ?_ (.orElse ?_ (.orElse ?_ (.orElse ?_ (.orElse ?_ (.orElse ?_
    (.orElse ?_ ?_))))))
  · exact .skip (.word _) fun _ => .skip (.facets true) fun _ => .done nofun
  · exact .skip (.word _) fun _ => .bind target (fun _ => Reading.facets_endsString.map) fun _ _ =>
      .skip (.facets false) fun _ => .done nofun
  · exact .skip (.word _) fun _ => .bind target (fun _ => Reading.facets_endsString.map) fun _ _ =>
      .skip (.facets false) fun _ => .done nofun
  · exact .skip (.word _) fun _ => .bind target (fun _ => .done fun _ => id) fun _ _ =>
      .done nofun
  · exact .skip .iri fun _ => .done nofun
  · exact .bind reference (fun _ => .done fun _ => id) fun _ _ => .done nofun
  · exact .bind .valueSet (fun _ => .done fun _ => id) fun _ each => .done each
  · exact .skip (.sign _) fun _ => .done nofun

/-! ### Triple expressions -/

theorem tripleConstraint :
    Shows site (Grammar.tripleConstraint inner) TripleConstraint.literals := by
  have annotations := Leads.many Reading.annotation_endsString fun _ => id
  refine .skip .senseFlags fun _ => .skip .predicate fun _ => .bind (.valueClass deeper)
    (fun _ => .bind annotations fun _ => Reading.constraint_endsString _) fun value each => ?_
  refine .bind (.many .annotated Reading.annotation_endsString)
    (fun _ => Reading.constraint_endsString _) fun annotations each' => ?_
  exact .skip (.optional .cardinality) fun _ => .skip .actions fun _ =>
    .done (List.forall_mem_append.mpr ⟨each, each'⟩)

theorem encapsulated : Shows site (Grammar.encapsulated inner) TripleExpr.literals := by
  refine .within fun body held => .skip (.sign _) fun _ => .bind (deeper body held)
    (fun _ => .then (.exactly ⟨nofun, nofun⟩)) fun expr each => ?_
  refine .skip (.sign _) fun _ => .skip (.optional .cardinality) fun _ => .skip .actions
    fun _ => ?_
  rintro front tokens back journal result later - - - ⟨-, wrapped, rfl⟩
  exact ⟨TripleExpr.literals_wrapped wrapped ▸ each, .refl⟩

theorem unary : Shows site (Grammar.unary inner) TripleExpr.literals := by
  have unlabelled : Shows site (Grammar.unlabelled inner) TripleExpr.literals := by
    refine .orElse ?_ (.orElse (.skip (.sign _) fun _ => .skip .label fun _ => .done nofun)
      (.encapsulated deeper))
    refine .bind (.tripleConstraint deeper) (fun _ => .done fun _ => id) fun body each => .done ?_
    rwa [TripleExpr.literals_constraint]
  refine .skip (.optional (.bind (.sign _) fun _ => .label)) fun id => .bind unlabelled
    (fun _ => .done fun _ ends => ends) fun expr each => .done ?_
  cases id with
  | none => exact each
  | some label => exact (expr.literals_withId label).symm ▸ each

theorem oneOf : Shows site (Grammar.oneOf inner) TripleExpr.literals := by
  have comma : Leads (mark .comma) EndsString EndsString :=
    .orElse (.then (.exactly ⟨nofun, nofun⟩)) (.done fun _ ends => ends)
  have group : Shows site (Grammar.group inner) TripleExpr.literals := by
    refine .bind (.separated (.sign _) (.exactly ⟨nofun, nofun⟩) (unary deeper))
      (fun _ => comma.bind fun _ => .done fun _ ends => ends) fun members each => ?_
    have joins := fun members => TripleExpr.literals_group none members none .empty
    exact .skip (.mark _) fun _ => .done (TripleExpr.literals_combined joins ▸ each)
  have someOf : Shows site (Grammar.someOf inner) TripleExpr.literals :=
    .bind (.separated (.sign _) (.exactly ⟨nofun, nofun⟩) group) (fun _ => .done fun _ ends => ends)
      fun _ each => .done
        (TripleExpr.literals_combined (TripleExpr.literals_someOf none) ▸ each)
  exact .bind (.separated (.sign _) (.exactly ⟨nofun, nofun⟩) someOf)
    (fun _ => .done fun _ ends => ends) fun _ each => .done
      (TripleExpr.literals_combined (TripleExpr.literals_oneOf none) ▸ each)

end Inner

theorem nested (left : Nat) :
    ∀ body ∈ Grammar.nested left, Shows site body TripleExpr.literals := by
  induction left with
  | zero => exact nofun
  | succ left ih =>
    intro body member
    cases member
    exact oneOf ih

/-! ### Statements -/

theorem definition : Shows site (Grammar.shapeDefinition Grammar.outermost) Shape.literals :=
  .shapeDefinition (nested nestingLimit)

theorem notStartAction : Shows site Grammar.notStartAction fun _ => [] := by
  have startLabel : Shows site Grammar.startLabel fun _ => [] := by
    refine .orElse (.still .label) (.orElse (.still .reference) ?_)
    refine .bind definition (fun _ => .bind Reading.actions_endsString fun _ =>
      .inPlace fun _ => id) fun shape each => .skip .actions fun code => ?_
    rintro front tokens back journal label later - - - ⟨-, -, rfl⟩
    exact ⟨nofun, .inPlace each⟩
  refine .orElse ?_ ?_
  · refine .skip (.word _) fun _ => .skip (.sign _) fun _ => .bind startLabel
      (fun _ => .silent fun _ => id) fun label _ => ?_
    rintro front tokens back journal value later - - - ⟨-, rfl⟩
    exact ⟨nofun, ⟨rfl, rfl⟩, [], (List.append_nil _).symm, nofun⟩
  · refine .skip (.markWord _) fun isVirtual => .skip .label fun label => .bind definition
      (fun _ => .bind Reading.actions_endsString fun _ => .silent fun _ => id) fun shape each =>
        .skip .actions fun code => ?_
    rintro front tokens back journal value later - - - ⟨-, rfl⟩
    exact ⟨nofun, .stated each⟩

end Shows

end Phrase

/-! ### Documents -/

/-- Every shape that a draft holds has been declared. -/
def Journal.Recorded (journal : Journal) : Prop :=
  ∀ entry ∈ journal.draft.shapes, ∃ declared ∈ journal.log, declared.shape = entry.2

theorem Journal.Recorded.append (recorded : Journal.Recorded journal) {later : Draft}
    (entry : Registration) (held : ∀ place ∈ later.shapes,
      place = (entry.label, entry.shape) ∨ place ∈ journal.draft.shapes) :
    Journal.Recorded ⟨later, journal.log ++ [entry]⟩ := by
  intro place member
  rcases held place member with rfl | old
  · exact ⟨entry, List.mem_append_right _ List.mem_cons_self, rfl⟩
  · obtain ⟨declared, member, same⟩ := recorded place old
    exact ⟨declared, List.mem_append_left _ member, same⟩

theorem Journal.Recorded.steps (recorded : Journal.Recorded journal)
    (steps : Journal.Steps journal later) : Journal.Recorded later := by
  induction steps with
  | refl => exact recorded
  | tail _ step ih =>
    cases step with
    | base | prefixes | start | startActions => exact ih
    | inPlace shape => exact ih.append (.inPlace _ shape) fun _ member => mem_placeShape member
    | stated label shape =>
      exact ih.append (.stated label shape) fun _ member => mem_placeShape member

namespace Literal

/-- A value is written in a statement of a document, with what stands behind it: as a literal, or as
the argument of a facet. Its names are those that the statements before declare. -/
inductive WrittenIn (context : Context) (initial : Draft) (document : List Token) (value : String)
    (suffix : Suffix) : Prop where
  | intro (split : document = before ++ (front ++ (tokens ++ back) ++ after))
      (earlier : Grammar.document.Derives context before ⟨initial, []⟩ () middle)
      (statement : Grammar.notStartAction.Derives context (front ++ (tokens ++ back)) middle ()
        later)
      (written : Written context middle.draft (back ++ after) tokens value suffix)

theorem WrittenIn.quoteless
    (quoteless : ∀ text, context.check text = .ok () → '"' ∉ text.toList)
    (shown : ∀ token ∈ document, ∃ lexeme, token.Shown lexeme)
    (written : WrittenIn context initial document value suffix) : suffix.Quoteless := by
  obtain ⟨rfl, -, -, written⟩ := written
  refine written.quoteless quoteless fun token member => shown token ?_
  simp [member]

end Literal

/-- The literals of the shapes that are declared are texts of what is written in a document. -/
def Journal.LiteralsWritten (context : Context) (initial : Draft) (document : List Token)
    (journal : Journal) : Prop :=
  ∀ entry ∈ journal.log, ∀ text ∈ entry.shape.literals, ∃ value suffix,
    Literal.WrittenIn context initial document value suffix ∧ text = Literal.text value suffix

namespace Reading

theorem directive_log (derives : Grammar.directive.Derives context tokens journal value later) :
    later.log = journal.log := by
  rcases directive_cases derives with ⟨_, -, rfl⟩ | ⟨_, _, -, rfl⟩ <;> rfl

theorem directives_log
    (repeats : Grammar.directive.Repeats context tokens journal values later) :
    later.log = journal.log := by
  induction repeats with
  | done => rfl
  | more first _ ih => rw [ih, directive_log first]

theorem startActions_log
    (derives : Grammar.startActions.Derives context tokens journal value later) :
    later.log = journal.log := by
  obtain ⟨_, _, _, middle, rfl, actions, -, rfl⟩ := derives
  have same : middle = journal := Phrase.Still.same (Composed.several .action) actions
  rw [same]
  rfl

theorem statement_endsString : Leads Grammar.statement EndsString EndsString :=
  .orElse (directive_opens.endsString nofun nofun)
    (.orElse (.then (.exactly ⟨nofun, nofun⟩)) (shape_opens.endsString nofun nofun))

/-- A statement declares shapes with the literals that are written in it. -/
theorem extends_of_statement {after : List Token}
    (derives : Grammar.notStartAction.Derives context statement journal () later)
    (follows : EndsString after.head?) :
    Site.Extends ⟨context, journal.draft, statement, after⟩ journal later := by
  have part : Phrase.Shows ⟨context, journal.draft, statement, after⟩ Grammar.notStartAction _ :=
    .notStartAction
  unfold Phrase.Shows at part
  dsimp only at part
  exact (@part [] statement [] journal () later (List.append_nil statement).symm follows (.refl _)
    derives).2

/-- Statement by statement: those before are a document of their own, which declares the names. -/
theorem statements_written_literals
    (repeats : Grammar.statement.Repeats context tokens journal values later)
    (split : document = before ++ tokens)
    (earlier : Grammar.document.Derives context before ⟨initial, []⟩ () journal)
    (literal : journal.LiteralsWritten context initial document) :
    later.LiteralsWritten context initial document := by
  induction repeats generalizing before with
  | done => exact literal
  | @more front journal value middle rest values later first others ih =>
    have between := Grammar.document_append earlier (.more first .done)
    rw [List.append_nil] at between
    rw [← List.append_assoc] at split
    refine ih split between ?_
    rcases first with directive | statement
    · intro entry member
      exact literal entry (directive_log directive ▸ member)
    · have follows : EndsString rest.head? := by
        have leads : EndsString (rest.head?.or none) :=
          Leads.many statement_endsString (fun _ => id) others ⟨nofun, nofun⟩
        rwa [Option.or_none] at leads
      have derives : Grammar.notStartAction.Derives context front journal () middle := statement
      obtain ⟨entries, log, each⟩ := (extends_of_statement derives follows).log
      intro entry member text inside
      rw [log] at member
      rcases List.mem_append.mp member with old | new
      · exact literal entry old text inside
      · obtain ⟨front', tokens, back, value, suffix, place, written, same⟩ :=
          each entry new text inside
        change front = front' ++ (tokens ++ back) at place
        subst place
        exact ⟨value, suffix, ⟨split.trans (List.append_assoc ..), earlier, derives, written⟩, same⟩

theorem document_written_literals
    (derives : Grammar.document.Derives context tokens ⟨initial, []⟩ () later) :
    later.LiteralsWritten context initial tokens := by
  rcases Grammar.document_iff.mp derives with ⟨values, statements⟩ |
    ⟨front, first, rest, _, _, _, between, rfl, directives, startActions, statements⟩
  · have earlier : Grammar.document.Derives context [] ⟨initial, []⟩ () ⟨initial, []⟩ :=
      Grammar.document_iff.mpr (.inl ⟨[], .done⟩)
    exact statements_written_literals statements rfl earlier nofun
  · have earlier : Grammar.document.Derives context (front ++ (first ++ [])) ⟨initial, []⟩ ()
        between :=
      Grammar.document_iff.mpr (.inr ⟨front, first, [], _, [], _, _, rfl, directives, startActions,
        .done⟩)
    rw [List.append_nil] at earlier
    refine statements_written_literals statements (List.append_assoc ..).symm earlier ?_
    intro entry member
    rw [startActions_log startActions, directives_log directives] at member
    cases member

end Reading

namespace Settings

variable {check : String → Except Iri.Fault Unit} {settings : Settings} {text : String}

/-- A value is written in a text, with what stands behind it. -/
def Writes (settings : Settings) (check : String → Except Iri.Fault Unit) (text value : String)
    (suffix : Literal.Suffix) : Prop :=
  let tokens := TokenSequence.ofText text.toList
  Literal.WrittenIn ⟨check, settings.strict, Text.width text.toList, tokens.problem⟩
    settings.initialDraft (tokens.lexemes.map Lexeme.token) value suffix

theorem Writes.quoteless (quoteless : ∀ text, check text = .ok () → '"' ∉ text.toList)
    (read : settings.parseWith check text = .ok schema)
    (writes : settings.Writes check text value suffix) : suffix.Quoteless := by
  refine Literal.WrittenIn.quoteless quoteless ?_ writes
  intro token member
  obtain ⟨lexeme, held, rfl⟩ := List.mem_map.mp member
  exact ⟨_, (spells_of_parseWith read).shown held⟩

/-- The texts of literals are unambiguous, unless the check admits quotes. Every literal of a schema
that is read is written in the document, as that of a shape that others have replaced; cut at the
last double quote, its text gives back the value and what is written behind it; and literals that
are written in documents have the same text if and only if they have the same value, the same
language in lower case and the same datatype. -/
theorem parseWith_literals (quoteless : ∀ text, check text = .ok () → '"' ∉ text.toList)
    (read : settings.parseWith check text = .ok schema) :
    (∃ journal, settings.Derives check text journal ∧ journal.draft.finish = schema ∧
      ∀ literal,
        literal ∈ schema.literals ∨ (∃ entry ∈ journal.log, literal ∈ entry.shape.literals) →
        ∃ value suffix, settings.Writes check text value suffix ∧
          literal = Literal.text value suffix ∧
          Literal.cut literal.toList = ('"' :: value.toList, suffix.text.toList)) ∧
    ∀ {settings' : Settings} {text' schema' value suffix value' suffix'},
      settings'.parseWith check text' = .ok schema' →
      settings.Writes check text value suffix → settings'.Writes check text' value' suffix' →
        (Literal.text value suffix = Literal.text value' suffix' ↔ value = value' ∧
          suffix.language? = suffix'.language? ∧ suffix.datatype? = suffix'.datatype?) := by
  constructor
  · obtain ⟨journal, derives, rfl⟩ := derives_of_parseWith read
    refine ⟨journal, derives, rfl, fun literal member => ?_⟩
    have recorded : journal.Recorded := by
      have initial : Journal.Recorded ⟨settings.initialDraft, []⟩ := by
        intro entry member
        rw [settings.initialDraft_shapes] at member
        cases member
      exact initial.steps (Grammar.document.steps derives)
    obtain ⟨entry, held, inside⟩ : ∃ entry ∈ journal.log, literal ∈ entry.shape.literals := by
      rcases member with kept | declared
      · obtain ⟨place, member, inside⟩ := List.mem_flatMap.mp kept
        obtain ⟨entry, held, same⟩ := recorded place member
        exact ⟨entry, held, same ▸ inside⟩
      · exact declared
    obtain ⟨value, suffix, written, rfl⟩ :=
      Reading.document_written_literals derives entry held literal inside
    have writes : settings.Writes check text value suffix := written
    exact ⟨value, suffix, writes, rfl, Literal.cut_text value (writes.quoteless quoteless read)⟩
  · intro settings' text' schema' value suffix value' suffix' read' writes writes'
    exact Literal.text_inj (writes.quoteless quoteless read) (writes'.quoteless quoteless read')

/-- The value has a quote of its own. -/
theorem parseWith_literals_quote :
    ∃ schema, default.parseWith (fun text => Iri.check text.toList)
        "<a:s> \x7b <a:p> ('a\"b'@EN) \x7d" = .ok schema ∧
      schema.literals = ["\"a\"b\"@en"] ∧
      ∃ suffix, default.Writes (fun text => Iri.check text.toList)
          "<a:s> \x7b <a:p> ('a\"b'@EN) \x7d" "a\"b" suffix ∧ suffix.text = "@en" := by
  have read : default.parseWith (fun text => Iri.check text.toList)
      "<a:s> \x7b <a:p> ('a\"b'@EN) \x7d" = .ok ⟨.empty, none, none, [(.iri ⟨"a:s"⟩,
        constrained ⟨"a:p"⟩ (.values [.literal "\"a\"b\"@en"]))]⟩ := by
    decide +kernel
  have literals := (parseWith_literals (fun _ valid => Iri.quote_not_mem valid) read).1
  obtain ⟨_, -, -, each⟩ := literals
  obtain ⟨value, suffix, writes, -, cut⟩ := each _ (.inl List.mem_cons_self)
  have known : Literal.cut "\"a\"b\"@en".toList = ('"' :: "a\"b".toList, "@en".toList) := by decide
  obtain ⟨front, ends⟩ := Prod.mk.inj (known.symm.trans cut)
  obtain rfl := String.toList_inj.mp (List.cons.inj front).2
  exact ⟨_, read, rfl, suffix, writes, (String.toList_inj.mp ends).symm⟩

end Settings

end ShExCompact
