import ShExCompact.Proofs.Iri.Characters
import ShExCompact.Proofs.Reading.Fragments

/-! Documents without directives. Every token that needs the base or a prefix is replaced by the
IRI that it denotes where it stands; then the grammar derives the same without any directive. -/
namespace ShExCompact

/-- A draft without its prefixes and its base. -/
def Draft.bare (draft : Draft) : Draft := { draft with prefixes := .empty, base := .empty }

def Journal.bare (journal : Journal) : Journal := ⟨journal.draft.bare, journal.log⟩

/-! ### Tokens -/

namespace Token

/-- The reference whose text is an IRI. -/
def ofIri (iri : String) : Token := .iriRef ("<" ++ iri ++ ">")

/-- The tokens that stand for one token and need neither the base nor a prefix. -/
def written (draft : Draft) : Token → List Token
  | iriRef text => [ofIri (draft.resolve text)]
  | prefixedName space localPart =>
    match draft.expand? space localPart with
    | some iri => [ofIri iri]
    | none => [prefixedName space localPart]
  | atPrefixedName space localPart =>
    match draft.expand? space localPart with
    | some iri => [punct .atSign, ofIri iri]
    | none => [atPrefixedName space localPart]
  | token => [token]

/-- The tokens of a document without its directives, with its IRIs written out. -/
def withoutDirectives (draft : Draft) : List Token → List Token
  | keyword .base :: iriRef text :: rest => withoutDirectives (draft.declareBase text) rest
  | keyword .prefixes :: prefixedName space _ :: iriRef text :: rest =>
    withoutDirectives (draft.declarePrefix space text) rest
  | token :: rest => token.written draft ++ withoutDirectives draft rest
  | [] => []

theorem written_congr (prefixes : other.prefixes = draft.prefixes) (base : other.base = draft.base)
    (token : Token) : token.written other = token.written draft := by
  unfold written Draft.resolve Draft.expand?
  rw [prefixes, base]

theorem withoutDirectives_congr (prefixes : other.prefixes = draft.prefixes)
    (base : other.base = draft.base) (tokens : List Token) :
    withoutDirectives other tokens = withoutDirectives draft tokens := by
  induction draft, tokens using withoutDirectives.induct generalizing other with
  | case1 draft text rest ih =>
    rw [withoutDirectives, withoutDirectives]
    apply ih
    · simp only [Draft.declareBase, Draft.bindBase, prefixes]
    · simp only [Draft.declareBase, Draft.bindBase, Draft.resolve, base]
  | case2 draft space localPart text rest ih =>
    rw [withoutDirectives, withoutDirectives]
    apply ih
    · simp only [Draft.declarePrefix, Draft.bindPrefix, Draft.resolve, prefixes, base]
    · simp only [Draft.declarePrefix, Draft.bindPrefix, base]
  | case3 draft token rest noBase noPrefix ih =>
    rw [withoutDirectives, withoutDirectives, ih prefixes base, written_congr prefixes base]
    all_goals assumption
  | case4 draft => rfl

/-- Tokens that begin no directive are written out one by one. -/
theorem withoutDirectives_append (none : ∀ token ∈ front, Reading.isDirective token = false)
    (draft : Draft) (rest : List Token) :
    withoutDirectives draft (front ++ rest) =
      front.flatMap (written draft) ++ withoutDirectives draft rest := by
  induction front with
  | nil => rfl
  | cons token front ih =>
    obtain ⟨other, others⟩ := List.forall_mem_cons.mp none
    rw [List.flatMap_cons, List.append_assoc, ← ih others, List.cons_append, withoutDirectives]
    · rintro text rest rfl
      cases other
    · rintro space localPart text rest rfl
      cases other

end Token

/-! ### IRIs -/

theorem Escape.decodeIri_of_plain (plain : '\\' ∉ text) : decodeIri 0 text = text := by
  induction text with
  | nil => rfl
  | cons c text ih =>
    rw [List.mem_cons, not_or] at plain
    rw [decodeIri, if_neg fun escape => plain.1 escape.1.symm, ih plain.2]

theorem Reference.unwrap_brackets (text : List Char) :
    unwrap ('<' :: (text ++ ['>'])) = text := by
  simp [unwrap]

theorem Reference.resolveInner_empty (reference : List Char) :
    resolveInner reference [] [] [] = reference := by
  cases reference with
  | nil => rfl
  | cons c rest =>
    simp only [resolveInner]
    repeat' split
    all_goals rfl

/-- An IRI between brackets denotes itself. -/
theorem Draft.resolve_bare (draft : Draft) (plain : '\\' ∉ iri.toList) :
    draft.bare.resolve ("<" ++ iri ++ ">") = iri := by
  have brackets : ("<" ++ iri ++ ">").toList = '<' :: (iri.toList ++ ['>']) := by simp
  have plain' : '\\' ∉ '<' :: (iri.toList ++ ['>']) := by simpa using plain
  unfold Draft.resolve Escape.unescapeIri
  rw [brackets, Escape.decodeIri_of_plain plain']
  change Reference.resolve _ "" "" "" = iri
  unfold Reference.resolve
  rw [String.toList_ofList, Reference.unwrap_brackets]
  change String.ofList (Reference.resolveInner iri.toList [] [] []) = iri
  rw [Reference.resolveInner_empty, String.ofList_toList]

/-! ### Phrases -/

namespace Reading

open Phrase (sign word mark markWord exactly many several separated terminal)

variable {context : Context} {g h : Phrase α} {i : α → Phrase β}

/-- A derivation that declares neither a prefix nor a base, and that exists without them as well. -/
structure Carried (context : Context) (phrase : Phrase α) (tokens : List Token) (journal : Journal)
    (value : α) (later : Journal) : Prop where
  prefixes : later.draft.prefixes = journal.draft.prefixes
  base : later.draft.base = journal.draft.base
  plain : ∀ token ∈ tokens, isDirective token = false
  written : phrase.Derives context (tokens.flatMap (Token.written journal.draft)) journal.bare value
    later.bare

/-- Every derivation of a phrase can be written out. -/
def Carries (context : Context) (phrase : Phrase α) : Prop :=
  ∀ ⦃tokens journal value later⦄, phrase.Derives context tokens journal value later →
    Carried context phrase tokens journal value later

theorem Carried.mono (carried : Carried context g tokens journal value later)
    (included : Included g h) : Carried context h tokens journal value later where
  prefixes := carried.prefixes
  base := carried.base
  plain := carried.plain
  written := included carried.written

theorem Carried.flatMap (carried : Carried context g tokens journal value later)
    (rest : List Token) :
    (tokens ++ rest).flatMap (Token.written journal.draft) =
      tokens.flatMap (Token.written journal.draft) ++
        rest.flatMap (Token.written later.draft) := by
  have same : Token.written later.draft = Token.written journal.draft :=
    funext fun token => Token.written_congr carried.prefixes carried.base token
  rw [List.flatMap_append, same]

theorem Carries.done (value : α) : Carries context (pure value) := by
  rintro tokens journal result later ⟨rfl, rfl, rfl⟩
  exact ⟨rfl, rfl, nofun, rfl, rfl, rfl⟩

theorem Carries.never : Carries context (failure : Phrase α) :=
  fun _ _ _ _ impossible => impossible.elim

theorem Carries.bind (first : Carries context g) (next : ∀ value, Carries context (i value)) :
    Carries context (g >>= i) := by
  rintro tokens journal result later ⟨front, rest, value, middle, rfl, derives, derives'⟩
  have carried := first derives
  have carried' := next value derives'
  constructor
  · exact carried'.prefixes.trans carried.prefixes
  · exact carried'.base.trans carried.base
  · exact List.forall_mem_append.mpr ⟨carried.plain, carried'.plain⟩
  · rw [carried.flatMap]
    exact ⟨_, _, value, middle.bare, rfl, carried.written, carried'.written⟩

theorem Carries.orElse (left : Carries context g) (right : Carries context h) :
    Carries context (g <|> h) := by
  rintro tokens journal value later (derives | derives)
  · exact (left derives).mono .left
  · exact (right derives).mono .right

theorem Carries.map (carries : Carries context g) (f : α → β) : Carries context (f <$> g) := by
  rw [map_eq_pure_bind]
  exact carries.bind fun value => .done (f value)

theorem Carries.optional (carries : Carries context g) : Carries context (optional g) :=
  .orElse (carries.map some) (.done none)

theorem Carries.many (carries : Carries context g) : Carries context (many g) := by
  intro tokens journal values later repeats
  change g.Repeats context tokens journal values later at repeats
  induction repeats with
  | done => exact ⟨rfl, rfl, nofun, .done⟩
  | more first _ ih =>
    have carried := carries first
    constructor
    · exact ih.prefixes.trans carried.prefixes
    · exact ih.base.trans carried.base
    · exact List.forall_mem_append.mpr ⟨carried.plain, ih.plain⟩
    · rw [carried.flatMap]
      exact .more carried.written ih.written

theorem Carries.several (carries : Carries context g) : Carries context (several g) :=
  carries.bind fun _ => carries.many.bind fun _ => .done _

theorem Carries.separated {separator : Phrase Unit} (between : Carries context separator)
    (carries : Carries context g) : Carries context (separated separator g) :=
  carries.bind fun _ => (between.bind fun _ => carries).many.bind fun _ => .done _

/-- A token that means the same when it is written out. -/
theorem Carries.terminal {Means : Context → Draft → Token → α → Prop}
    (means : ∀ draft token value, Means context draft token value → isDirective token = false ∧
      ∃ token', token.written draft = [token'] ∧ Means context draft.bare token' value) :
    Carries context (Phrase.terminal Means) := by
  rintro tokens journal value later ⟨token, rfl, meaning, rfl⟩
  obtain ⟨plain, token', same, meaning'⟩ := means _ _ _ meaning
  refine ⟨rfl, rfl, by simpa using plain, ?_⟩
  rw [List.flatMap_singleton, same]
  exact ⟨token', rfl, meaning', rfl⟩

theorem Carries.exactly (plain : isDirective token = false)
    (same : ∀ draft, token.written draft = [token]) : Carries context (exactly token) := by
  apply Carries.terminal
  intro draft _ value only
  subst only
  exact ⟨plain, _, same draft, rfl⟩

theorem Carries.sign (punct : Punct) : Carries context (sign punct) := .exactly rfl fun _ => rfl

theorem Carries.word (plain : isDirective (.keyword keyword) = false) :
    Carries context (word keyword) := .exactly plain fun _ => rfl

theorem Carries.mark (punct : Punct) : Carries context (mark punct) :=
  .orElse (.bind (.sign punct) fun _ => .done true) (.done false)

theorem Carries.markWord (plain : isDirective (.keyword keyword) = false) :
    Carries context (markWord keyword) :=
  .orElse (.bind (.word plain) fun _ => .done true) (.done false)

theorem Carries.inPlace (shape : Shape) : Carries context (Phrase.inPlace shape) := by
  rintro tokens journal label later ⟨rfl, rfl, rfl⟩
  exact ⟨rfl, rfl, nofun, rfl, rfl, rfl⟩

theorem Carries.choose {Holds : α → Prop} : Carries context (Phrase.choose Holds) := by
  rintro tokens journal value later ⟨rfl, holds, rfl⟩
  exact ⟨rfl, rfl, nofun, rfl, holds, rfl⟩

theorem Carries.silent {act : Journal → Journal}
    {valid : ∀ journal, Journal.Step journal (act journal)}
    (prefixes : ∀ journal, (act journal).draft.prefixes = journal.draft.prefixes)
    (base : ∀ journal, (act journal).draft.base = journal.draft.base)
    (same : ∀ journal, (act journal).bare = act journal.bare) :
    Carries context (Phrase.change act valid) := by
  rintro tokens journal value later ⟨rfl, rfl⟩
  exact ⟨prefixes journal, base journal, nofun, rfl, same journal⟩

/-! ### Terms -/

section Terms

/-- The texts of accepted IRIs contain no backslash. -/
def Escapeless (context : Context) : Prop :=
  ∀ text, context.check text = .ok () → '\\' ∉ text.toList

variable (escapeless : Escapeless context)

include escapeless

theorem iriOf_written (means : Grammar.IriOf context draft token value) :
    isDirective token = false ∧ token.written draft = [.ofIri value.value] ∧
      Grammar.IriOf context draft.bare (.ofIri value.value) value := by
  cases means with
  | @reference text valid =>
    refine ⟨rfl, rfl, ?_⟩
    have resolved := draft.resolve_bare (escapeless _ valid)
    have valid' :
        context.check (draft.bare.resolve ("<" ++ draft.resolve text ++ ">")) = .ok () := by
      rwa [resolved]
    have means := Grammar.IriOf.reference valid'
    rw [resolved] at means
    exact means
  | @name space localPart text bound valid =>
    refine ⟨rfl, ?_, ?_⟩
    · simp [Token.written, bound]
    · have resolved := draft.resolve_bare (escapeless _ valid)
      have valid' : context.check (draft.bare.resolve ("<" ++ text ++ ">")) = .ok () := by
        rwa [resolved]
      have means := Grammar.IriOf.reference valid'
      rw [resolved] at means
      exact means

theorem Carries.iri : Carries context Grammar.iri := by
  apply Carries.terminal
  intro draft token value means
  obtain ⟨plain, same, means'⟩ := iriOf_written escapeless means
  exact ⟨plain, _, same, means'⟩

theorem Carries.label : Carries context Grammar.label := by
  apply Carries.terminal
  intro draft token value means
  cases means with
  | blank => exact ⟨rfl, _, rfl, .blank⟩
  | iri means =>
    obtain ⟨plain, same, means'⟩ := iriOf_written escapeless means
    exact ⟨plain, _, same, .iri means'⟩

theorem Carries.predicate : Carries context Grammar.predicate := by
  apply Carries.terminal
  intro draft token value means
  cases means with
  | type => exact ⟨rfl, _, rfl, .type⟩
  | iri means =>
    obtain ⟨plain, same, means'⟩ := iriOf_written escapeless means
    exact ⟨plain, _, same, .iri means'⟩

/-- A name after an at sign is written as the sign and a label. -/
theorem Carries.reference : Carries context Grammar.reference := by
  rintro tokens journal value later (⟨token, rfl, means, rfl⟩ | derives)
  · cases means with
    | @name space localPart text bound valid =>
      have named : Grammar.IriOf context later.draft (.prefixedName space localPart) ⟨text⟩ :=
        .name bound valid
      obtain ⟨-, -, means⟩ := iriOf_written escapeless named
      refine ⟨rfl, rfl, by simp [isDirective], .inr ?_⟩
      rw [List.flatMap_singleton, Token.written, bound]
      exact ⟨[.punct .atSign], [.ofIri text], (), later.bare, rfl, ⟨_, rfl, rfl, rfl⟩,
        ⟨_, rfl, .iri means, rfl⟩⟩
  · have carried := Carries.bind (Carries.sign .atSign) (fun _ => Carries.label escapeless) derives
    exact carried.mono .right

end Terms

/-- A token that needs neither the base nor a prefix. -/
theorem Carries.constant {Means : Context → Draft → Token → α → Prop}
    (means : ∀ draft token value, Means context draft token value → isDirective token = false ∧
      token.written draft = [token] ∧ Means context draft.bare token value) :
    Carries context (Phrase.terminal Means) := by
  apply Carries.terminal
  intro draft token value meaning
  obtain ⟨plain, same, meaning'⟩ := means draft token value meaning
  exact ⟨plain, token, same, meaning'⟩

theorem Carries.string : Carries context Grammar.string := by
  apply Carries.constant
  intro draft token value means
  cases means with
  | decoded decodes => exact ⟨rfl, rfl, .decoded decodes⟩
  | malformed lenient flawed => exact ⟨rfl, rfl, .malformed lenient flawed⟩

theorem Carries.integer (convert : String → Option α) :
    Carries context (Grammar.integer convert) := by
  apply Carries.constant
  intro draft token value means
  cases means with
  | fits fits => exact ⟨rfl, rfl, .fits fits⟩

theorem Carries.plainLiteral : Carries context (Phrase.terminal Grammar.PlainOf) := by
  apply Carries.constant
  intro draft token value means
  cases means with
  | plain plain =>
    cases token with
    | keyword word =>
      cases word with
      | truth | falsehood => exact ⟨rfl, rfl, .plain plain⟩
      | _ => cases plain
    | integer | decimal | double => exact ⟨rfl, rfl, .plain plain⟩
    | _ => cases plain

theorem Carries.cardinality : Carries context Grammar.cardinality := by
  apply Carries.constant
  intro draft token value means
  cases means with
  | star => exact ⟨rfl, rfl, .star⟩
  | plus => exact ⟨rfl, rfl, .plus⟩
  | question => exact ⟨rfl, rfl, .question⟩
  | atLeast bounds fits => exact ⟨rfl, rfl, .atLeast bounds fits⟩
  | between bounds fits fits' => exact ⟨rfl, rfl, .between bounds fits fits'⟩

theorem Carries.code : Carries context (Phrase.terminal Grammar.CodeOf) := by
  apply Carries.constant
  intro draft token value means
  cases means
  exact ⟨rfl, rfl, .code⟩

theorem Carries.language : Carries context (Phrase.terminal Grammar.LanguageOf) := by
  apply Carries.constant
  intro draft token value means
  cases means
  exact ⟨rfl, rfl, .tag⟩

theorem Carries.facetWord (numeric : Bool) :
    Carries context (Phrase.terminal (Grammar.FacetOf numeric)) := by
  apply Carries.constant
  intro draft token value means
  cases means with
  | @known keyword argument known =>
    refine ⟨?_, rfl, .known known⟩
    cases keyword with
    | base | prefixes => cases known
    | _ => rfl

section Productions

variable (escapeless : Escapeless context)

include escapeless

theorem Carries.literal : Carries context Grammar.literal := by
  refine .orElse (.bind .string fun _ => .bind (.orElse .language (.orElse ?_ (.done _)))
    fun _ => .done _) .plainLiteral
  exact .bind (.sign _) fun _ => .bind (.iri escapeless) fun _ => .done _

theorem Carries.action : Carries context Grammar.action :=
  .bind (.sign _) fun _ => .bind (.iri escapeless) fun _ => .bind .code fun _ => .done _

theorem Carries.actions : Carries context Grammar.actions :=
  .bind (Carries.action escapeless).many fun _ => .done _

theorem Carries.exclusion : Carries context Grammar.exclusion :=
  .bind (.sign _) fun _ => .bind (.iri escapeless) fun _ => .bind (.mark _) fun _ => .done _

theorem Carries.iriRange : Carries context Grammar.iriRange := by
  have exclusions := (Carries.exclusion escapeless).many
  refine .orElse (.bind (.iri escapeless) fun _ => .orElse ?_ (.done _)) ?_
  · exact .bind (.sign _) fun _ => .bind exclusions fun _ => .done _
  · exact .bind (.sign _) fun _ => .bind (.mark _) fun _ => .bind exclusions fun _ => .done _

theorem Carries.valueSet : Carries context Grammar.valueSet := by
  have value : Carries context Grammar.value :=
    .orElse (.iriRange escapeless) (.bind (.literal escapeless) fun _ => .done _)
  exact .bind (.sign _) fun _ => .bind value.many fun _ => .bind (.sign _) fun _ => .done _

omit escapeless in
theorem Carries.facets (numeric : Bool) : Carries context (Grammar.facets numeric) := by
  have facet : Carries context (Grammar.facet numeric) := by
    refine .bind (.facetWord numeric) fun argument => ?_
    cases argument with
    | string facet => exact Carries.string.map facet
    | unsigned facet => exact (Carries.integer _).map facet
    | signed facet => exact (Carries.integer _).map facet
  exact facet.many.bind fun _ => .done _

theorem Carries.clause : Carries context Grammar.clause := by
  refine .orElse ?_ (.orElse ?_ ?_)
  · exact .bind (.sign _) fun _ => (Carries.label escapeless).several.bind fun _ => .done _
  · exact .bind (.word rfl) fun _ => (Carries.predicate escapeless).several.bind fun _ => .done _
  · exact .bind (.word rfl) fun _ => .done _

variable {inner : Option (Phrase TripleExpr)} (deeper : ∀ body ∈ inner, Carries context body)

omit escapeless in
theorem Carries.within (deeper : ∀ body ∈ inner, Carries context body)
    {phrase : Phrase TripleExpr → Phrase α}
    (carries : ∀ {body}, Carries context body → Carries context (phrase body)) :
    Carries context (Phrase.within inner phrase) := by
  cases inner with
  | none => exact .never
  | some body => exact carries (deeper body rfl)

include deeper

theorem Carries.shapeDefinition : Carries context (Grammar.shapeDefinition inner) :=
  .within deeper fun body => .bind (Carries.clause escapeless).many fun _ => .bind (.sign _)
    fun _ => .bind body.optional fun _ => .bind (.sign _) fun _ => .done _

theorem Carries.shapeRef : Carries context (Grammar.shapeRef inner) := by
  have shapeOrRef : Carries context (Grammar.shapeOrRef inner) :=
    .orElse (.reference escapeless) (.bind (.shapeDefinition escapeless deeper) fun _ => .inPlace _)
  refine .bind (.separated (.word rfl) shapeOrRef) fun labels => ?_
  split
  · exact .done _
  · exact .done _

theorem Carries.valueClass : Carries context (Grammar.valueClass inner) := by
  have shapeRef := Carries.shapeRef escapeless deeper
  refine .orElse ?_ (.orElse ?_ (.orElse ?_ (.orElse ?_ (.orElse ?_ (.orElse ?_
    (.orElse ?_ ?_))))))
  · exact .bind (.word rfl) fun _ => .bind (.facets true) fun _ => .done _
  · exact .bind (.word rfl) fun _ => .bind shapeRef.optional fun _ => .bind (.facets false)
      fun _ => .done _
  · exact .bind (.word rfl) fun _ => .bind shapeRef.optional fun _ => .bind (.facets false)
      fun _ => .done _
  · exact .bind (.word rfl) fun _ => .bind shapeRef.optional fun _ => .done _
  · exact .bind (.iri escapeless) fun _ => .done _
  · exact .bind shapeRef fun _ => .done _
  · exact .bind (.valueSet escapeless) fun _ => .done _
  · exact .bind (.sign _) fun _ => .done _

omit deeper in
theorem Carries.annotated : Carries context Grammar.annotation := by
  refine .bind (.sign _) fun _ => .bind (.iri escapeless) fun _ => .bind (.orElse ?_ ?_)
    fun _ => .done _
  · exact .bind (.iri escapeless) fun _ => .done _
  · exact .bind (.literal escapeless) fun _ => .done _

omit escapeless deeper in
theorem Carries.senseFlags : Carries context Grammar.senseFlags :=
  .orElse (.bind (.sign _) fun _ => .bind (.mark _) fun _ => .done _)
    (.orElse (.bind (.sign _) fun _ => .bind (.mark _) fun _ => .done _) (.done _))

theorem Carries.tripleConstraint : Carries context (Grammar.tripleConstraint inner) :=
  .bind .senseFlags fun _ => .bind (.predicate escapeless) fun _ =>
    .bind (.valueClass escapeless deeper) fun _ => .bind (Carries.annotated escapeless).many
      fun _ => .bind (Carries.cardinality.optional) fun _ => .bind (.actions escapeless)
        fun _ => .done _

theorem Carries.unary : Carries context (Grammar.unary inner) := by
  have encapsulated : Carries context (Grammar.encapsulated inner) :=
    .within deeper fun body => .bind (.sign _) fun _ => .bind body fun _ => .bind (.sign _)
      fun _ => .bind Carries.cardinality.optional fun _ => .bind (.actions escapeless)
        fun _ => .choose
  have inclusion : Carries context Grammar.inclusion :=
    .bind (.sign _) fun _ => .bind (.label escapeless) fun _ => .done _
  have unlabelled : Carries context (Grammar.unlabelled inner) :=
    .orElse (.bind (.tripleConstraint escapeless deeper) fun _ => .done _)
      (.orElse inclusion encapsulated)
  have id : Carries context (do Phrase.sign .dollar; Grammar.label) :=
    .bind (.sign _) fun _ => .label escapeless
  exact .bind id.optional fun _ => .bind unlabelled fun _ => .done _

theorem Carries.oneOf : Carries context (Grammar.oneOf inner) := by
  have group : Carries context (Grammar.group inner) :=
    .bind (.separated (.sign _) (.unary escapeless deeper)) fun _ => .bind (.mark _) fun _ =>
      .done _
  have someOf : Carries context (Grammar.someOf inner) :=
    .bind (.separated (.sign _) group) fun _ => .done _
  exact .bind (.separated (.sign _) someOf) fun _ => .done _

omit deeper in
theorem Carries.nested (left : Nat) : ∀ body ∈ Grammar.nested left, Carries context body := by
  induction left with
  | zero => exact nofun
  | succ left ih =>
    intro body member
    cases member
    exact .oneOf escapeless ih

omit deeper in
theorem Carries.startActions : Carries context Grammar.startActions :=
  .bind (Carries.action escapeless).several fun _ =>
    .silent (fun _ => rfl) (fun _ => rfl) fun _ => rfl

omit deeper in
theorem Carries.notStartAction : Carries context Grammar.notStartAction := by
  have definition : Carries context (Grammar.shapeDefinition Grammar.outermost) :=
    .shapeDefinition escapeless (.nested escapeless _)
  have startLabel : Carries context Grammar.startLabel :=
    .orElse (.label escapeless) (.orElse (.reference escapeless)
      (.bind definition fun _ => .bind (.actions escapeless) fun _ => .inPlace _))
  refine .orElse ?_ ?_
  · exact .bind (.word rfl) fun _ => .bind (.sign _) fun _ => .bind startLabel fun _ =>
      .silent (fun _ => rfl) (fun _ => rfl) fun _ => rfl
  · exact .bind (.markWord rfl) fun _ => .bind (.label escapeless) fun _ =>
      .bind definition fun _ => .bind (.actions escapeless) fun _ =>
        .silent (fun _ => rfl) (fun _ => rfl) fun _ => rfl

end Productions

/-! ### Documents -/

open Token (withoutDirectives)

/-- The tokens of a directive, and what they declare. -/
theorem directive_cases (derives : Grammar.directive.Derives context tokens journal value later) :
    (∃ reference, tokens = [.keyword .base, .iriRef reference] ∧
      later = journal.declare (·.declareBase reference)) ∨
    ∃ name reference, tokens = [.keyword .prefixes, .prefixedName name "", .iriRef reference] ∧
      later = journal.declare (·.declarePrefix name reference) := by
  rcases derives with base | prefixes
  · obtain ⟨_, _, _, _, rfl, ⟨_, rfl, rfl, rfl⟩, _, _, reference, _, rfl, ⟨_, rfl, means, rfl⟩, rfl,
      rfl⟩ := base
    cases means
    exact .inl ⟨reference, rfl, rfl⟩
  · obtain ⟨_, _, _, _, rfl, ⟨_, rfl, rfl, rfl⟩, _, _, name, _, rfl, ⟨_, rfl, means, rfl⟩, _, _,
      reference, _, rfl, ⟨_, rfl, means', rfl⟩, rfl, rfl⟩ := prefixes
    cases means
    cases means'
    exact .inr ⟨name, reference, rfl, rfl⟩

/-- A directive leaves nothing but a change of what the tokens after it denote. -/
theorem directive_written (derives : Grammar.directive.Derives context tokens journal value later) :
    later.bare = journal.bare ∧ ∀ rest,
      withoutDirectives journal.draft (tokens ++ rest) = withoutDirectives later.draft rest := by
  rcases directive_cases derives with ⟨reference, rfl, rfl⟩ | ⟨name, reference, rfl, rfl⟩
  · constructor
    · simp only [Journal.bare, Journal.declare, Draft.bare, Draft.declareBase, Draft.bindBase]
    · exact fun rest => Token.withoutDirectives.eq_1 ..
  · constructor
    · simp only [Journal.bare, Journal.declare, Draft.bare, Draft.declarePrefix, Draft.bindPrefix]
    · exact fun rest => Token.withoutDirectives.eq_2 ..

theorem directives_written
    (repeats : Grammar.directive.Repeats context tokens journal values later) :
    later.bare = journal.bare ∧ ∀ rest,
      withoutDirectives journal.draft (tokens ++ rest) = withoutDirectives later.draft rest := by
  induction repeats with
  | done => exact ⟨rfl, fun rest => rfl⟩
  | more first _ ih =>
    obtain ⟨same, skipped⟩ := directive_written first
    obtain ⟨same', skipped'⟩ := ih
    refine ⟨same'.trans same, fun rest => ?_⟩
    rw [List.append_assoc, skipped, skipped']

theorem withoutDirectives_carried (carried : Carried context g tokens journal value later)
    (rest : List Token) : withoutDirectives journal.draft (tokens ++ rest) =
      tokens.flatMap (Token.written journal.draft) ++ withoutDirectives later.draft rest := by
  rw [Token.withoutDirectives_append carried.plain,
    Token.withoutDirectives_congr carried.prefixes carried.base]

theorem statements_written (escapeless : Escapeless context)
    (repeats : Grammar.statement.Repeats context tokens journal values later) :
    ∃ values', Grammar.statement.Repeats context (withoutDirectives journal.draft tokens)
      journal.bare values' later.bare := by
  induction repeats with
  | done => exact ⟨[], .done⟩
  | more first _ ih =>
    obtain ⟨values', others⟩ := ih
    rcases first with directive | notStartAction
    · obtain ⟨same, skipped⟩ := directive_written directive
      rw [skipped, ← same]
      exact ⟨values', others⟩
    · have carried := Carries.notStartAction escapeless notStartAction
      rw [withoutDirectives_carried carried]
      exact ⟨() :: values', .more (.inr carried.written) others⟩

/-- A document is derived without its directives if its IRIs are written out. -/
theorem document_written (escapeless : Escapeless context)
    (derives : Grammar.document.Derives context tokens journal () later) :
    Grammar.document.Derives context (withoutDirectives journal.draft tokens) journal.bare ()
      later.bare := by
  rcases Grammar.document_iff.mp derives with ⟨values, statements⟩ |
    ⟨front, first, rest, _, _, _, _, rfl, directives, startActions, statements⟩
  · exact Grammar.document_iff.mpr (.inl (statements_written escapeless statements))
  · obtain ⟨same, skipped⟩ := directives_written directives
    have carried := Carries.startActions escapeless startActions
    obtain ⟨values', others⟩ := statements_written escapeless statements
    rw [skipped, withoutDirectives_carried carried, ← same]
    exact Grammar.document_iff.mpr
      (.inr ⟨[], _, _, [], values', _, _, rfl, .done, carried.written, others⟩)

end Reading

/-! ### Readings -/

namespace Settings

open Token (withoutDirectives)

/-- A document without its directives, with every other IRI written out as the one that it denotes,
is read from an empty draft as the document itself is from any draft without declarations. -/
theorem readTokens_withoutDirectives {check : String → Except Iri.Fault Unit}
    (escapeless : ∀ text, check text = .ok () → '\\' ∉ text.toList)
    (noShapes : draft.shapes = []) (noStart : draft.start = none)
    (noStartActions : draft.startActions = none) (reset : draft.counter = 0)
    (read : readTokens check isStrict finish tokens draft = (.ok (), draft'))
    (writtenOut : lexemes.map Lexeme.token =
      withoutDirectives draft (tokens.lexemes.map Lexeme.token)) (finish' size : Nat) :
    ∃ later, readTokens check isStrict finish' ⟨lexemes, none, size⟩ .empty = (.ok (), later) ∧
      later.start = draft'.start ∧ later.startActions = draft'.startActions ∧
      later.labels = draft'.labels ∧ later.shapes = draft'.shapes := by
  obtain ⟨-, derives⟩ := derives_of_readTokens read
  obtain ⟨log, document⟩ := derives finish' []
  have escapeless' : Reading.Escapeless ⟨check, isStrict, finish', none⟩ := escapeless
  have written := Reading.document_written escapeless' document
  have undeclared : draft.bare = Draft.empty := by
    unfold Draft.bare
    rw [noShapes, noStart, noStartActions, reset]
    rfl
  have again : Grammar.document.Derives ⟨check, isStrict, finish', none⟩
      (lexemes.map Lexeme.token) ⟨.empty, []⟩ () ⟨draft'.bare, log⟩ := by
    rw [writtenOut, ← undeclared]
    exact written
  exact ⟨draft'.bare, Reading.readTokens_of_derives again size, rfl, rfl, rfl, rfl⟩

theorem readTokens_withoutDirectives_names :
    (readTokens (fun text => Iri.check text.toList) false 31
        (TokenSequence.ofText "BASE <a:/> PREFIX p: <b> p:s \x7b\x7d".toList) .empty =
        (.ok (), ((Draft.empty.declareBase "<a:/>").declarePrefix "p" "<b>").register
          (.iri ⟨"a:/bs"⟩) .empty) ∧
      (TokenSequence.ofText "<a:/bs> \x7b\x7d".toList).lexemes.map Lexeme.token =
        withoutDirectives .empty ((TokenSequence.ofText
          "BASE <a:/> PREFIX p: <b> p:s \x7b\x7d".toList).lexemes.map Lexeme.token)) ∧
    ∃ later, readTokens (fun text => Iri.check text.toList) false 10
        ⟨(TokenSequence.ofText "<a:/bs> \x7b\x7d".toList).lexemes, none, 10⟩ .empty =
        (.ok (), later) ∧
      later.start = none ∧ later.startActions = none ∧ later.labels = [.iri ⟨"a:/bs"⟩] ∧
      later.shapes = [(.iri ⟨"a:/bs"⟩, .empty)] := by
  have read : readTokens (fun text => Iri.check text.toList) false 31
      (TokenSequence.ofText "BASE <a:/> PREFIX p: <b> p:s \x7b\x7d".toList) .empty =
      (.ok (), ((Draft.empty.declareBase "<a:/>").declarePrefix "p" "<b>").register
        (.iri ⟨"a:/bs"⟩) .empty) := by decide +kernel
  have writtenOut : (TokenSequence.ofText "<a:/bs> \x7b\x7d".toList).lexemes.map Lexeme.token =
      withoutDirectives .empty ((TokenSequence.ofText
        "BASE <a:/> PREFIX p: <b> p:s \x7b\x7d".toList).lexemes.map Lexeme.token) := by
    decide +kernel
  exact ⟨⟨read, writtenOut⟩, readTokens_withoutDirectives
    (fun _ => Iri.backslash_not_mem) rfl rfl rfl rfl read writtenOut 10 10⟩

end Settings

end ShExCompact
