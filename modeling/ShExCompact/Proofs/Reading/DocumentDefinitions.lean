import ShExCompact.Proofs.Grammar.Definitions
import ShExCompact.Proofs.Reading.Fragments
import ShExCompact.Proofs.Reading.WrittenOut

/-! The definitions of a document, in the order in which their braces are closed: each closed brace
ends one of them, and the log of the declared shapes is the list of what they declare. -/
namespace ShExCompact

/-- A definition of a document stands in one of its statements, before which is what makes a
document by itself. -/
inductive Definition.InDocument (context : Context) (initial : Draft) (tokens : List Token)
    (journal : Journal) (definition : Definition) : Prop where
  | mk (early own rest : List Token) (split : tokens = early ++ (own ++ rest))
      (reached : Grammar.document.Derives context early ⟨initial, []⟩ () start)
      (derives : Grammar.notStartAction.Derives context own start () stop)
      (stands : definition.Stands context early own start stop)
      (goesOn : Journal.Steps stop journal) :
      definition.InDocument context initial tokens journal

theorem Definition.InDocument.append
    (inside : Definition.InDocument context initial tokens journal definition)
    (goesOn : Journal.Steps journal later) (more : List Token) :
    definition.InDocument context initial (tokens ++ more) later := by
  obtain ⟨early, own, rest, rfl, reached, derives, stands, goesOn'⟩ := inside
  refine .mk early own (rest ++ more) ?_ reached derives stands (goesOn'.trans goesOn)
  rw [List.append_assoc, List.append_assoc]

/-- What is declared on the way are the definitions, in the order in which they are closed. Each of
them that stands in another one is in place. -/
structure Defined (context : Context) (initial : Draft) (tokens : List Token) (journal : Journal)
    (definitions : List Definition) : Prop where
  log : journal.log = definitions.map Definition.entry
  closes : definitions.map Definition.last = closings 0 tokens
  stand : ∀ definition ∈ definitions, definition.InDocument context initial tokens journal
  apart : definitions.Pairwise fun inner outer =>
    inner.last < outer.first ∨ inner.entry.isInline

theorem Defined.nil (context : Context) (initial : Draft) :
    Defined context initial [] ⟨initial, []⟩ [] where
  log := rfl
  closes := rfl
  stand := nofun
  apart := .nil

/-- One more statement. -/
theorem Defined.append (defined : Defined context initial early start definitions)
    (outer : Outer context early own start stop others) (goesOn : Journal.Steps start stop)
    (inside : ∀ definition ∈ others, definition.InDocument context initial (early ++ own) stop) :
    Defined context initial (early ++ own) stop (definitions ++ others) where
  log := by rw [outer.log, defined.log, List.map_append]
  closes := by
    rw [closings_append, Nat.zero_add, List.map_append, defined.closes, outer.closes]
  stand definition member := by
    rcases List.mem_append.mp member with old | new
    · exact (defined.stand definition old).append goesOn own
    · exact inside definition new
  apart := by
    refine List.pairwise_append.mpr ⟨defined.apart, outer.inner.imp .inr, ?_⟩
    intro first member second member'
    have ended : first.last ∈ closings 0 early := defined.closes ▸ List.mem_map_of_mem member
    have below := List.lt_add_of_mem_findIdxs _ ended
    exact .inl (Nat.lt_of_lt_of_le below (outer.stand second member').behind)

namespace Grammar

/-- A document is derived from some tokens, which end outside of all braces. -/
structure Reaches (context : Context) (initial : Draft) (tokens : List Token) (journal : Journal) :
    Prop where
  derives : document.Derives context tokens ⟨initial, []⟩ () journal
  place : Place.after tokens = .clear 0
  defined : ∃ definitions, Defined context initial tokens journal definitions

theorem Reaches.flat (reaches : Reaches context initial early middle)
    (derives : document.Derives context (early ++ own) ⟨initial, []⟩ () stop)
    (goesOn : Journal.Steps middle stop) (flat : ∀ token ∈ own, Token.isFlat token)
    (log : stop.log = middle.log) : Reaches context initial (early ++ own) stop := by
  obtain ⟨-, place, definitions, defined⟩ := reaches
  exact ⟨derives, Place.after_flat_clear flat place, _,
    defined.append (.flat flat log) goesOn nofun⟩

theorem notStartAction_definitions (here : Place.after before = .clear 0)
    (derives : notStartAction.Derives context tokens journal () later) :
    Place.after (before ++ tokens) = .clear 0 ∧
      ∃ definitions, Outer context before tokens journal later definitions := by
  rcases derives with start | shape
  · exact start_definitions here start
  · exact shape_definitions here shape

theorem directive_flat (derives : directive.Derives context tokens journal () later) :
    (∀ token ∈ tokens, Token.isFlat token) ∧ later.log = journal.log := by
  rcases Reading.directive_cases derives with ⟨reference, rfl, rfl⟩ | ⟨name, reference, rfl, rfl⟩
  · exact ⟨by simp [Token.isFlat], rfl⟩
  · exact ⟨by simp [Token.isFlat], rfl⟩

theorem startActions_flat (derives : startActions.Derives context tokens journal () later) :
    (∀ token ∈ tokens, Token.isFlat token) ∧ later.log = journal.log := by
  obtain ⟨tokens, _, entries, middle, rfl, acts, rfl, rfl⟩ := derives
  obtain ⟨rfl, flat⟩ := Phrase.Flat.several .action acts
  rw [List.append_nil]
  exact ⟨flat, rfl⟩

theorem Reaches.step (reaches : Reaches context initial early middle)
    (derives : statement.Derives context own middle () stop) :
    Reaches context initial (early ++ own) stop := by
  have whole : document.Derives context (early ++ own) ⟨initial, []⟩ () stop := by
    have once := document_append reaches.derives (.more derives .done)
    rwa [List.append_nil] at once
  have goesOn := statement.steps derives
  rcases derives with directive | notStartAction
  · obtain ⟨flat, log⟩ := directive_flat directive
    exact reaches.flat whole goesOn flat log
  · obtain ⟨derives, place, definitions, defined⟩ := reaches
    obtain ⟨ends, others, outer⟩ := notStartAction_definitions place notStartAction
    refine ⟨whole, ends, _, defined.append outer goesOn fun definition member => ?_⟩
    exact .mk early own [] (by rw [List.append_nil]) derives notStartAction
      (outer.stand definition member) .refl

theorem Reaches.run (reaches : Reaches context initial early middle)
    (repeats : statement.Repeats context rest middle values stop) :
    Reaches context initial (early ++ rest) stop := by
  induction repeats generalizing early with
  | done => rwa [List.append_nil]
  | more first _ ih =>
    rw [← List.append_assoc]
    exact ih (reaches.step first)

theorem document_defined
    (derives : document.Derives context tokens ⟨initial, []⟩ () journal) :
    ∃ definitions, Defined context initial tokens journal definitions := by
  have empty : Reaches context initial [] ⟨initial, []⟩ :=
    ⟨document_iff.mpr (.inl ⟨[], .done⟩), rfl, [], .nil context initial⟩
  rcases document_iff.mp derives with ⟨values, repeats⟩ |
    ⟨front, first, rest, directives, values, middle, between, rfl, repeats, acts, others⟩
  · exact (empty.run repeats).defined
  · have first' : statement.Repeats context front ⟨initial, []⟩ directives middle :=
      repeats.mono .inl
    obtain ⟨flat, log⟩ := startActions_flat acts
    have whole : document.Derives context ([] ++ front ++ first) ⟨initial, []⟩ () between :=
      document_iff.mpr (.inr ⟨front, first, [], directives, [], middle, between, by simp, repeats,
        acts, .done⟩)
    have reached := ((empty.run first').flat whole (startActions.steps acts) flat log).run others
    rw [List.nil_append, List.append_assoc] at reached
    exact reached.defined

end Grammar

end ShExCompact
