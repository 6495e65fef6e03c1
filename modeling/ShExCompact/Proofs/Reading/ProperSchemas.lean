import ShExCompact.Proofs.Iri.Characters
import ShExCompact.Proofs.Reading.Fragments
import ShExCompact.Proofs.Reading.InlineShapes
import ShExCompact.Proofs.Schemas.Yields

/-! What holds of every schema that is read, whatever the prefixes and the base are: its IRIs were
checked where they stand, and its triple expressions have no node that stands for one of its parts
alone. -/
namespace ShExCompact

/-! ### Expressions -/

namespace Reading

/-- An expression that is read is proper, wherever in a text it stands. -/
theorem oneOf_proper {left : Nat} {context : Context} {state stop : State}
    {expression : TripleExpr}
    (shown : ∀ lexeme ∈ state.lexemes, lexeme.token.Shown lexeme.text.toList)
    (read : Parser.oneOf (Parser.levels left) context state = .ok expression stop) :
    expression.Proper context.check := by
  obtain ⟨lexemes, draft⟩ := state
  have sound := oneOf_sound (levels_sound left)
  obtain ⟨front, rest, journal, rfl, -, derives⟩ :=
    @sound _ context lexemes ⟨draft, []⟩ expression stop rfl read
  refine (Phrase.Yields.nested (left + 1) _ rfl ?_ derives).1
  intro token member
  obtain ⟨lexeme, held, rfl⟩ := List.mem_map.mp member
  exact ⟨_, shown lexeme (List.mem_append_left rest held)⟩

end Reading

/-! ### Schemas -/

namespace Settings

variable {check : String → Except Iri.Fault Unit} {settings : Settings} {text : String}
  {schema : Schema}

/-- The text of a document that is read spells its tokens. -/
theorem spells_of_parseWith (read : settings.parseWith check text = .ok schema) :
    TokenSequence.Spells 0 text.toList (TokenSequence.ofText text.toList).lexemes := by
  unfold parseWith at read
  split at read
  next draft into =>
    have calm := (derives_of_readTokens (parseIntoWith_eq_ok.mp into)).1
    exact (TokenSequence.ofText_iff_spells ..).mp ⟨calm, rfl⟩
  next => cases read

theorem initialDraft_proper (settings : Settings) :
    Journal.Proper check ⟨settings.initialDraft, []⟩ := by
  obtain ⟨base, prefixes, strict⟩ := settings
  cases base <;> exact ⟨nofun, nofun, nofun, nofun⟩

/-- Everything that a document declares on the way to a schema is proper. -/
theorem proper_of_parseWith (read : settings.parseWith check text = .ok schema)
    (derives : settings.Derives check text journal) : journal.Proper check := by
  refine (Phrase.Yields.document ?_ derives).2 settings.initialDraft_proper
  intro token member
  obtain ⟨lexeme, held, rfl⟩ := List.mem_map.mp member
  exact ⟨_, (spells_of_parseWith read).shown held⟩

/-- The terms of a schema that is read are vetted: every IRI is built in or one that the check
admits, and so is the datatype of every literal. It is also what the text of the literal names,
unless the check admits quotes. -/
theorem parseWith_vetted (read : settings.parseWith check text = .ok schema) :
    (∀ iri, .iri iri ∈ schema.terms →
      iri ∈ Vocabulary.builtIn ∨ check iri.value = .ok ()) ∧
    (∀ literal, .literal literal ∈ schema.terms → Literal.Vetted check literal) ∧
    ((∀ text, check text = .ok () → '"' ∉ text.toList) →
      ∀ literal iri, .literal literal ∈ schema.terms → Literal.datatype? literal = some iri →
        iri ∈ Vocabulary.builtIn ∨ check iri.value = .ok ()) := by
  obtain ⟨journal, derives, rfl⟩ := derives_of_parseWith read
  have proper := proper_of_parseWith read derives
  have vetted : Vetted check journal.draft.finish.terms := by
    refine .append (.optional proper.start) (.append (.optional proper.startActions) ?_)
    refine .flatMap fun entry member => ?_
    obtain ⟨label, shape⟩ := proper.shapes entry member
    exact .append label shape.terms
  refine ⟨fun iri member => vetted _ member, fun literal member => vetted _ member, ?_⟩
  intro quoteless literal iri member named
  exact Literal.Vetted.vetted_datatype (vetted _ member) quoteless named

/-- One prefix is bound to no IRI, and nothing uses it. -/
theorem parseWith_vetted_relative :
    ∃ schema, default.parseWith (fun text => Iri.check text.toList)
        "PREFIX r: <x> <a:s> \x7b a (\"v\"^^<a:t>) \x7d" = .ok schema ∧
      schema.namespace? "r" = some "x" ∧
      (∀ iri, .iri iri ∈ schema.terms →
        iri ∈ Vocabulary.builtIn ∨ Iri.check iri.value.toList = .ok ()) ∧
      ∀ literal iri, .literal literal ∈ schema.terms → Literal.datatype? literal = some iri →
        iri ∈ Vocabulary.builtIn ∨ Iri.check iri.value.toList = .ok () := by
  have read : default.parseWith (fun text => Iri.check text.toList)
      "PREFIX r: <x> <a:s> \x7b a (\"v\"^^<a:t>) \x7d" =
        .ok ⟨Dictionary.empty.insert "r" "x", none, none, [(.iri ⟨"a:s"⟩,
          constrained Vocabulary.type (.values [.literal "\"v\"^^a:t"]))]⟩ := by
    decide +kernel
  obtain ⟨iris, -, datatypes⟩ := parseWith_vetted read
  exact ⟨_, read, rfl, iris, datatypes fun _ valid => Iri.quote_not_mem valid⟩

/-- The nodes of the expressions of a schema that is read are formed: each joins two expressions or
more, or is a group of one with a cardinality or with actions. So are those of the shapes that
were declared on the way and have been replaced, and of whatever expression can be read at a place
of the text. -/
theorem parseWith_formed (read : settings.parseWith check text = .ok schema) :
    (∀ entry ∈ schema.shapes, ∀ node ∈ entry.2.nodes, node.Formed) ∧
    (∃ journal, settings.Derives check text journal ∧ journal.draft.finish = schema ∧
      ∀ entry ∈ journal.log, ∀ node ∈ entry.shape.nodes, node.Formed) ∧
    ∀ left context state expression stop,
      state.lexemes <:+ (TokenSequence.ofText text.toList).lexemes →
      Parser.oneOf (Parser.levels left) context state = .ok expression stop →
      ∀ node ∈ expression.nodes, node.Formed := by
  obtain ⟨journal, derives, rfl⟩ := derives_of_parseWith read
  have proper := proper_of_parseWith read derives
  refine ⟨?_, ⟨journal, derives, rfl, ?_⟩, ?_⟩
  · intro entry member node inside
    exact ((proper.shapes entry member).2.of_mem inside).1
  · intro entry member node inside
    exact ((proper.log entry member).of_mem inside).1
  · intro left context state expression stop place part node inside
    have shown : ∀ lexeme ∈ state.lexemes, lexeme.token.Shown lexeme.text.toList := by
      intro lexeme member
      exact (spells_of_parseWith read).shown (place.subset member)
    exact (Reading.oneOf_proper shown part node inside).1

/-- The cardinality goes into the group between the parentheses, which is one of two branches. -/
theorem parseWith_formed_group :
    ∃ schema, default.parseWith (fun text => Iri.check text.toList)
        "<a:s> \x7b (<a:p> . , <a:q> .)+ | <a:r> . \x7d" = .ok schema ∧
      (∀ entry ∈ schema.shapes, ∀ node ∈ entry.2.nodes, node.Formed) ∧
      schema.shapes.map (fun entry => entry.2.nodes.length) = [5] := by
  have read : default.parseWith (fun text => Iri.check text.toList)
      "<a:s> \x7b (<a:p> . , <a:q> .)+ | <a:r> . \x7d" =
        .ok ⟨.empty, none, none, [(.iri ⟨"a:s"⟩, { Shape.empty with
          expression := some (.oneOf none [
            .group none
              [.constraint none ⟨⟨"a:p"⟩, .anything, .zeroOrOne, false, false, [], .empty⟩,
              .constraint none ⟨⟨"a:q"⟩, .anything, .zeroOrOne, false, false, [], .empty⟩]
              (some .oneOrMore) .empty,
            .constraint none ⟨⟨"a:r"⟩, .anything, .zeroOrOne, false, false, [], .empty⟩]) })]⟩ := by
    decide +kernel
  exact ⟨_, read, (parseWith_formed read).1, rfl⟩

end Settings

end ShExCompact
