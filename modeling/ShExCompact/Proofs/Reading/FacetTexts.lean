import ShExCompact.Proofs.Reading.FirstProblem
import ShExCompact.Proofs.Reading.GrammarPlaces
import ShExCompact.Proofs.Reading.NodeKinds

/-! Facets are exactly what a document says. In every document that is read, the facets of a node
kind are the values of the last arguments that are written for it. An integer that is too large for
a facet, or has a minus sign where a count is read, is a problem, and the place of the problem is
the integer. -/
namespace ShExCompact

/-! ### Arguments -/

/-- Behind every keyword of a facet stands an argument that the facet takes. -/
def Facet.Answered (context : Context) (tokens : List Token) : Prop :=
  ∀ word rest, .keyword word :: rest <:+ tokens → word ∈ Keyword.facets →
    ∃ token ∈ rest.head?, ∃ said, Facet.Means context word token said

namespace Facet.Answered

variable {context : Context}

theorem nil : Answered context [] := by
  intro word rest suffix
  cases List.suffix_nil.mp suffix

theorem cons (other : ∀ word ∈ Keyword.facets, token ≠ .keyword word)
    (answered : Answered context tokens) : Answered context (token :: tokens) := by
  intro word rest suffix facet
  rcases List.suffix_cons_iff.mp suffix with same | later
  · exact absurd (List.cons.inj same).1.symm (other word facet)
  · exact answered word rest later facet

theorem append (first : Answered context front) (second : Answered context back) :
    Answered context (front ++ back) := by
  rintro word rest ⟨before, split⟩ facet
  rcases List.append_eq_append_iff.mp split with ⟨between, rfl, same⟩ | ⟨between, rfl, same⟩
  · cases between with
    | nil => exact second word rest ⟨[], same⟩ facet
    | cons token between =>
      obtain ⟨rfl, rfl⟩ := List.cons.inj same
      obtain ⟨argument, next, means⟩ := first word between ⟨before, rfl⟩ facet
      refine ⟨argument, ?_, means⟩
      change (between ++ back).head? = some argument
      rw [List.head?_append, next, Option.some_or]
  · exact second word rest ⟨between, same.symm⟩ facet

theorem argument (means : Means context word token said) (answered : Answered context tokens) :
    Answered context (.keyword word :: token :: tokens) := by
  have noKeyword : ∀ other, token ≠ .keyword other := by
    rintro other rfl
    cases means with
    | pattern string => cases string
  intro other rest suffix facet
  rcases List.suffix_cons_iff.mp suffix with same | later
  · cases same
    exact ⟨token, rfl, said, means⟩
  · exact answered.cons (fun other _ => noKeyword other) other rest later facet

theorem spell {entries : List (Keyword × Token)}
    (each : ∀ entry ∈ entries, ∃ said, Means context entry.1 entry.2 said) :
    Answered context (Facets.spell entries) := by
  induction entries with
  | nil => exact nil
  | cons entry entries ih =>
    obtain ⟨⟨said, means⟩, others⟩ := List.forall_mem_cons.mp each
    exact (ih others).argument means

end Facet.Answered

theorem Token.nodeKind?_facet (facet : word ∈ Keyword.facets) :
    (Token.keyword word).nodeKind? = none := by
  cases word <;> first | rfl | exact absurd facet (by decide)

theorem NodeKind.Written.answered (written : NodeKind.Written context tokens kinds shapes) :
    Facet.Answered context tokens := by
  induction written with
  | nil => exact .nil
  | other plain _ ih =>
    refine .cons ?_ ih
    rintro word facet rfl
    simp [Token.isMarked, facet] at plain
  | braces _ _ inside behind => exact .cons nofun (inside.append (.cons nofun behind))
  | kind begins _ _ _ declared _ inside behind =>
    refine .cons ?_ (inside.append (.append (.spell fun entry member =>
      (declared.admitted entry member).2) behind))
    rintro word facet rfl
    rw [Token.nodeKind?_facet facet] at begins
    cases begins

namespace Reading

/-- No document has an integer behind the keyword of a facet that excludes it. -/
theorem document_excludes (excludes : Facet.Excludes word lexeme)
    (derives : Grammar.document.Derives context
      (front ++ .keyword word :: .integer lexeme :: rest) journal () later) : False := by
  obtain ⟨_, _, -, written, -⟩ := Grammar.document_closed derives
  obtain ⟨token, next, said, means⟩ :=
    written.answered word (.integer lexeme :: rest) ⟨front, rfl⟩ excludes.mem_facets
  cases next
  exact excludes.not_means means

/-- Tokens that begin a document are read before a problem is found. -/
theorem begun_read (begins : ∃ more last, Grammar.document.Derives context.calm
      (front.map Lexeme.token ++ more) ⟨draft, []⟩ () last) (ahead : front ≠ [])
    (stopped : Parser.document context ⟨front ++ rest, draft⟩ = .error problem stop) :
    stop.lexemes <:+ rest := by
  obtain ⟨more, ⟨later, log⟩, derives⟩ := begins
  -- The same reading, where the document goes on to its end.
  obtain ⟨lexemes, rfl⟩ : ∃ lexemes : List Lexeme, lexemes.map Lexeme.token = more := by
    refine ⟨more.map fun token => ⟨token, ⟨0, 0⟩, ""⟩, ?_⟩
    rw [List.map_map]
    exact List.map_id more
  rw [← List.map_append, Context.calm] at derives
  have read := document_eq_ok.mpr ⟨rfl, log, derives⟩
  have assembled : Assembled none Parser.document := .document
  have alike : Context.Alike context ⟨context.check, context.strict, context.finish, none⟩ :=
    ⟨rfl, rfl⟩
  have together : Together rest lexemes _ _ := assembled.together alike ahead draft
  rw [stopped, read] at together
  cases together with
  | passed behind => exact behind

/-- What no document goes on with is not read. -/
theorem stops_before (accepts : Context.Accepts context)
    (refused : ∀ more last, ¬ Grammar.document.Derives context.calm
      (front.map Lexeme.token ++ (lexeme.token :: more)) ⟨draft, []⟩ () last)
    (stopped : Parser.document context ⟨front ++ lexeme :: rest, draft⟩ = .error problem stop) :
    lexeme :: rest <:+ stop.lexemes := by
  obtain ⟨done, begun, left, middle, later, split, rfl, interrupted, -⟩ :=
    document_interrupted_calm stopped
  obtain ⟨more, last, -, document, -⟩ := interrupted.completed accepts
  rw [← List.append_assoc] at split document
  rcases List.append_eq_append_iff.mp split with ⟨between, same, rest⟩ | ⟨between, same, rest⟩
  · cases between with
    | nil => exact ⟨[], rest⟩
    | cons token between =>
      obtain ⟨rfl, rfl⟩ := List.cons.inj rest
      rw [← List.map_append, same, List.map_append, List.map_cons, List.append_assoc,
        List.cons_append] at document
      exact absurd document (refused _ _)
  · exact ⟨between, rest.symm⟩

/-- A problem at an integer is one of the grammar, at this token. -/
theorem Points.integer (points : Points context ⟨lexeme :: rest, draft⟩ problem)
    (tells : problem.cause.Tells ⟨lexeme :: rest, draft⟩)
    (isInteger : lexeme.token = .integer raw) :
    problem.extent = lexeme.extent ∧ problem.cause.found? = some lexeme.text := by
  cases points with
  | @token cause ofToken =>
    refine ⟨rfl, ?_⟩
    cases cause with
    | unexpected | meaningless => exact congrArg some tells
    | unknownPrefix name =>
      obtain ⟨uses, -⟩ := tells
      change lexeme.token.space? = some name at uses
      rw [isInteger] at uses
      cases uses
    | lexical | malformedEscape => exact ofToken.elim
  | escape => cases isInteger

end Reading

namespace Parser

open Reading (bind_eq_error)

variable {held : Draft} {lexeme : Lexeme}

theorem integer_refuses {convert : String → Option α} (isInteger : lexeme.token = .integer raw)
    (refused : convert raw = none) : integer convert context ⟨lexeme :: rest, held⟩ =
      .error ⟨lexeme.extent, .meaningless lexeme.text .facetRange⟩ ⟨lexeme :: rest, held⟩ := by
  refine bind_eq_error.mpr (.inr ⟨some lexeme.token, _, rfl, ?_⟩)
  rw [isInteger]
  dsimp only
  rw [refused]
  rfl

/-- The reading of a facet stops at an integer that the facet excludes. -/
theorem facetValue_refuses (suits : FacetArgument.Suits word argument)
    (isInteger : lexeme.token = .integer raw) (excludes : Facet.Excludes word raw) :
    facetValue argument context ⟨lexeme :: rest, held⟩ =
      .error ⟨lexeme.extent, .meaningless lexeme.text .facetRange⟩ ⟨lexeme :: rest, held⟩ := by
  have excluded {said : Facet.Value} : ¬ Facet.Means context word (.integer raw) said :=
    excludes.not_means
  cases argument with
  | string build =>
    obtain ⟨rfl, -⟩ := suits
    cases excludes with
    | count counts => exact absurd counts (by decide)
    | bound bounds => exact absurd bounds (by decide)
  | unsigned build =>
    have refused : Numeral.uint32? raw = none := by
      refine Option.eq_none_iff_forall_not_mem.mpr fun number known => ?_
      obtain ⟨denotes, unsigned⟩ := Numeral.denotes_of_uint32? known
      exact excluded (.count suits.1 denotes unsigned (by exact_mod_cast number.toNat_lt_size))
    rw [facetValue, map_eq_pure_bind]
    exact bind_eq_error.mpr (.inl (integer_refuses isInteger refused))
  | signed build =>
    have refused : Numeral.int64? raw = none := by
      refine Option.eq_none_iff_forall_not_mem.mpr fun number known => ?_
      exact excluded (.bound suits.1 (Numeral.denotes_of_int64? known) number.minValue_le_toInt
        number.toInt_le)
    rw [facetValue, map_eq_pure_bind]
    exact bind_eq_error.mpr (.inl (integer_refuses isInteger refused))

theorem facet?_refuses {keyword : Lexeme} (isKeyword : keyword.token = .keyword word)
    (known : (facetArgument? numeric word).isSome) (isInteger : lexeme.token = .integer raw)
    (excludes : Facet.Excludes word raw) :
    facet? numeric context ⟨keyword :: lexeme :: rest, held⟩ =
      .error ⟨lexeme.extent, .meaningless lexeme.text .facetRange⟩ ⟨lexeme :: rest, held⟩ := by
  obtain ⟨argument, known⟩ := Option.isSome_iff_exists.mp known
  refine bind_eq_error.mpr (.inr ⟨some keyword.token, _, rfl, ?_⟩)
  rw [isKeyword]
  simp only [known]
  refine bind_eq_error.mpr (.inr ⟨(), _, rfl, bind_eq_error.mpr (.inl ?_)⟩)
  exact facetValue_refuses (facetArgument?_suits known) isInteger excludes

end Parser

/-! ### Documents -/

namespace Settings

open Facet (Excludes)
open ShExCompact.Parser (facet? facetArgument?)
open Reading (Guided Stepwise)

variable {check : String → Except Iri.Fault Unit} {settings : Settings} {text : String}

/-- Tokens begin a document: with some more tokens they are one. -/
def Begins (check : String → Except Iri.Fault Unit) (settings : Settings) (text : String)
    (tokens : List Token) : Prop :=
  ∃ more last, Grammar.document.Derives (settings.context check text).calm (tokens ++ more)
    ⟨settings.initialDraft, []⟩ () last

/-- What a document begins with that is read begins documents of any text. -/
theorem begins_of_parseWith (read : settings.parseWith check other = .ok schema)
    (split : (TokenSequence.ofText other.toList).lexemes.map Lexeme.token = front ++ rest)
    (text : String) : settings.Begins check text front := by
  obtain ⟨journal, derives, -⟩ := derives_of_parseWith read
  unfold Derives at derives
  dsimp only at derives
  rw [split] at derives
  refine ⟨rest, journal, Composed.document.derives ?_ derives⟩
  exact ⟨rfl, rfl⟩

/-- A document is refused because of an integer that the facet before it excludes, at the place of
the integer if the document is one up to there. -/
theorem parseWith_excluded
    (split : (TokenSequence.ofText text.toList).lexemes = before ++ keyword :: argument :: after)
    (isKeyword : keyword.token = .keyword word) (isInteger : argument.token = .integer raw)
    (excludes : Excludes word raw) :
    ∃ diagnostic, settings.parseWith check text = .error diagnostic ∧
      (check "a:" = .ok () →
        settings.Begins check text ((before ++ [keyword]).map Lexeme.token) →
          diagnostic.span = argument.extent.span (Text.bytes text.toList) ∧
          diagnostic.cause.found? = some argument.text) := by
  have whole : before ++ keyword :: argument :: after =
      before ++ [keyword] ++ argument :: after := by simp
  cases outcome : settings.parseWith check text with
  | ok schema =>
    obtain ⟨journal, derives, -⟩ := derives_of_parseWith outcome
    unfold Derives at derives
    dsimp only at derives
    rw [split, List.map_append, List.map_cons, List.map_cons, isKeyword, isInteger] at derives
    exact (Reading.document_excludes excludes derives).elim
  | error diagnostic =>
    refine ⟨diagnostic, rfl, fun accepts begins => ?_⟩
    have accepts' : (settings.context check text).Accepts := accepts
    rw [parseWith_eq, split, whole] at outcome
    split at outcome
    next => cases outcome
    next problem stop stopped =>
      cases outcome
      have behind := Reading.begun_read begins (by simp) stopped
      have ahead := Reading.stops_before accepts' (fun more last derives => ?_) stopped
      · have left := behind.eq_of_length_le ahead.length_le
        obtain ⟨lexemes, draft⟩ := stop
        obtain rfl : lexemes = argument :: after := left
        obtain ⟨place, found⟩ := (Stepwise.document.points stopped).integer
          (Guided.document.tells stopped) isInteger
        exact ⟨congrArg (Extent.span (Text.bytes text.toList)) place, found⟩
      · rw [List.map_append, List.map_singleton, isKeyword, isInteger, List.append_assoc] at derives
        exact Reading.document_excludes excludes derives

/-- Facets are exact, and the last one wins. The node kinds of each shape that a document declares
are those that are written between its braces, in the same order and each with the values of the
last arguments of its facets; what a kind does not admit is not set. An integer that a facet
excludes is refused where the facet is read, and no document has one: the problem is at the integer
if the document is one up to there, for a check that accepts a short IRI. -/
theorem parseWith_facets (check : String → Except Iri.Fault Unit) (settings : Settings)
    (text : String) :
    (∀ schema, settings.parseWith check text = .ok schema → ∃ journal,
      settings.Derives check text journal ∧ journal.draft.finish = schema ∧
      (∀ entry ∈ schema.shapes, ∃ declared ∈ journal.log, declared.shape = entry.2) ∧
      NodeKind.Written (settings.context check text)
        ((TokenSequence.ofText text.toList).lexemes.map Lexeme.token) []
        (journal.log.map fun declared => declared.shape.kinds) ∧
      ∀ declared ∈ journal.log, ∀ kind facets target,
        ValueClass.kind kind facets target ∈ declared.shape.kinds →
          ∀ word ∉ kind.facetWords, facets.get? word = none) ∧
    ∀ before keyword argument after word raw,
      (TokenSequence.ofText text.toList).lexemes = before ++ keyword :: argument :: after →
      keyword.token = .keyword word → argument.token = .integer raw → Excludes word raw →
        (∃ diagnostic, settings.parseWith check text = .error diagnostic ∧
          (check "a:" = .ok () →
            settings.Begins check text ((before ++ [keyword]).map Lexeme.token) →
              diagnostic.span = argument.extent.span (Text.bytes text.toList) ∧
              diagnostic.cause.found? = some argument.text)) ∧
        ∀ numeric, (facetArgument? numeric word).isSome → ∀ context draft,
          facet? numeric context ⟨keyword :: argument :: after, draft⟩ =
            .error ⟨argument.extent, .meaningless argument.text .facetRange⟩
              ⟨argument :: after, draft⟩ := by
  constructor
  · intro schema read
    obtain ⟨journal, derives, rfl⟩ := derives_of_parseWith read
    have initial : Journal.Recorded ⟨settings.initialDraft, []⟩ := by
      intro entry member
      rw [settings.initialDraft_shapes] at member
      cases member
    have recorded := initial.steps (Grammar.document.steps derives)
    obtain ⟨entries, _, log, written, rfl⟩ := Grammar.document_closed derives
    obtain rfl : journal.log = entries := log
    refine ⟨journal, derives, rfl, recorded, written, ?_⟩
    intro declared logged kind facets target member word outside
    obtain ⟨entries, sets⟩ := written.declared
      (List.mem_flatten_of_mem (List.mem_map_of_mem logged) member)
    exact sets.get?_eq_none outside
  · intro before keyword argument after word raw split isKeyword isInteger excludes
    refine ⟨parseWith_excluded split isKeyword isInteger excludes, ?_⟩
    intro numeric known context draft
    exact Parser.facet?_refuses isKeyword known isInteger excludes

/-- The second length replaces the first one. A length with a minus sign is refused at its place:
with another length there the tokens are a document. -/
theorem parseWith_facets_length :
    let check := fun text : String => Iri.check text.toList
    let text := "<a:s> \x7b <a:p> LITERAL LENGTH 1 MINLENGTH 2 LENGTH +07 \x7d"
    let refused := "<a:s> \x7b <a:p> IRI LENGTH -1 \x7d"
    (∃ shapes, [ValueClass.kind .literal
        { Facets.empty with length := some 7, minLength := some 2 } none] ∈ shapes ∧
      NodeKind.Written (default.context check text)
        ((TokenSequence.ofText text.toList).lexemes.map Lexeme.token) [] shapes) ∧
    ∃ diagnostic, default.parseWith check refused = .error diagnostic ∧
      diagnostic.span = ⟨⟨0, 25, 25⟩, ⟨0, 27, 27⟩⟩ ∧ diagnostic.cause.found? = some "-1" := by
  intro check text refused
  constructor
  · have read : default.parseWith check text =
        .ok ⟨.empty, none, none, [(.iri ⟨"a:s"⟩, constrained ⟨"a:p"⟩ (.kind .literal
          { Facets.empty with length := some 7, minLength := some 2 } none))]⟩ := by
      decide +kernel
    obtain ⟨journal, -, -, recorded, written, -⟩ := (parseWith_facets check default text).1 _ read
    obtain ⟨declared, logged, shape⟩ := recorded _ List.mem_cons_self
    exact ⟨_, List.mem_map.mpr ⟨declared, logged, congrArg Shape.kinds shape⟩, written⟩
  · have split : (TokenSequence.ofText refused.toList).lexemes =
        [⟨.iriRef "<a:s>", ⟨0, 5⟩, "<a:s>"⟩, ⟨.punct .openBrace, ⟨6, 7⟩, "\x7b"⟩,
          ⟨.iriRef "<a:p>", ⟨8, 13⟩, "<a:p>"⟩, ⟨.keyword .iri, ⟨14, 17⟩, "IRI"⟩] ++
        ⟨.keyword .length, ⟨18, 24⟩, "LENGTH"⟩ :: ⟨.integer "-1", ⟨25, 27⟩, "-1"⟩ ::
        [⟨.punct .closeBrace, ⟨28, 29⟩, "\x7d"⟩] := by
      decide +kernel
    have excludes : Excludes .length "-1" :=
      .count (by decide) (.minus (Brace.isNumber_of_digits (by decide))) (.inl (by decide))
    have read : default.parseWith check "<a:s> \x7b <a:p> IRI LENGTH 1 \x7d" =
        .ok ⟨.empty, none, none, [(.iri ⟨"a:s"⟩, constrained ⟨"a:p"⟩ (.kind .iri
          { Facets.empty with length := some 1 } none))]⟩ := by
      decide +kernel
    have tokens : (TokenSequence.ofText
        "<a:s> \x7b <a:p> IRI LENGTH 1 \x7d".toList).lexemes.map Lexeme.token =
        [.iriRef "<a:s>", .punct .openBrace, .iriRef "<a:p>", .keyword .iri, .keyword .length] ++
          [.integer "1", .punct .closeBrace] := by
      decide +kernel
    have accepts : check "a:" = .ok () := by decide
    obtain ⟨⟨diagnostic, stopped, place⟩, -⟩ :=
      (parseWith_facets check default refused).2 _ _ _ _ _ _ split rfl rfl excludes
    obtain ⟨span, found⟩ := place accepts (begins_of_parseWith read tokens _)
    exact ⟨diagnostic, stopped, span.trans (by decide +kernel), found⟩

end Settings

end ShExCompact
