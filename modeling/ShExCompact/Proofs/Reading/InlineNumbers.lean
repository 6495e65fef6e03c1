import ShExCompact.Proofs.Drafts.Numbering
import ShExCompact.Proofs.Reading.DocumentDefinitions
import ShExCompact.Proofs.Reading.InlineShapes

/-! The labels of shapes in place, in a document that writes no blank node: they are numbered in the
order in which the definitions are closed. -/
namespace ShExCompact

namespace Definition

/-- A definition stands between the tokens of another one. -/
def Within (inner outer : Definition) : Prop :=
  outer.first ≤ inner.first ∧ inner.last < outer.last

/-- The definitions in place. -/
def inPlace (definitions : List Definition) : List Definition :=
  definitions.filter (·.entry.isInline)

/-- The definitions of statements under a label. -/
def stated (definitions : List Definition) : List Definition :=
  definitions.filter (!·.entry.isInline)

theorem InDocument.first_le
    (inside : Definition.InDocument context initial tokens journal definition) :
    definition.first ≤ definition.last := by
  obtain ⟨early, own, rest, -, -, -, stands, -⟩ := inside
  cases stands with
  | nested nested =>
    obtain ⟨front, body, rest, -, -, -, -, -⟩ := nested
    exact Nat.le_add_right ..
  | start | stated => exact Nat.le_add_right ..

/-- The label of a statement is written, so it is no blank node if none is written. -/
theorem InDocument.named
    (inside : Definition.InDocument context initial tokens journal definition)
    (noBlank : ∀ name, .blankNode name ∉ tokens) :
    definition.entry.isInline ∨ definition.entry.label.blank? = none := by
  obtain ⟨early, own, rest, rfl, -, -, stands, -⟩ := inside
  cases stands with
  | nested nested => exact .inl nested.isInline
  | start => exact .inl rfl
  | stated front name body code split marks means =>
    have written : name ∈ early ++ (own ++ rest) := by simp [split]
    cases means with
    | blank => exact (noBlank _ written).elim
    | iri => exact .inr rfl

end Definition

namespace Defined

variable {context : Context} {initial : Draft} {tokens : List Token} {journal : Journal}
  {definitions : List Definition} {inner outer : Definition}

theorem ordered (defined : Defined context initial tokens journal definitions) :
    definitions.Pairwise fun first second => first.last < second.last := by
  have closed : (definitions.map Definition.last).Pairwise (· < ·) :=
    defined.closes ▸ List.pairwise_findIdxs
  exact List.pairwise_map.mp closed

theorem mem_front (defined : Defined context initial tokens journal (front ++ outer :: rest))
    (member : inner ∈ front ++ outer :: rest) (ends : inner.last < outer.last) :
    inner ∈ front := by
  obtain ⟨-, behind, -⟩ := List.pairwise_append.mp defined.ordered
  rcases List.mem_append.mp member with earlier | here
  · exact earlier
  · rcases List.mem_cons.mp here with rfl | later
    · exact (Nat.lt_irrefl _ ends).elim
    · exact (Nat.lt_asymm ends ((List.pairwise_cons.mp behind).1 inner later)).elim

/-- What holds between any two that are closed one after the other. -/
theorem rel {Holds : Definition → Definition → Prop}
    (defined : Defined context initial tokens journal definitions)
    (pairwise : definitions.Pairwise Holds) (member : inner ∈ definitions)
    (member' : outer ∈ definitions) (ends : inner.last < outer.last) : Holds inner outer := by
  obtain ⟨front, rest, rfl⟩ := List.append_of_mem member'
  have earlier := defined.mem_front member ends
  exact (List.pairwise_append.mp pairwise).2.2 inner earlier outer List.mem_cons_self

theorem isInline_of_within (defined : Defined context initial tokens journal definitions)
    (member : inner ∈ definitions) (member' : outer ∈ definitions)
    (within : inner.Within outer) : inner.entry.isInline := by
  refine (defined.rel defined.apart member member' within.2).resolve_left fun apart => ?_
  have begins := (defined.stand inner member).first_le
  exact Nat.lt_irrefl _ (Nat.lt_of_lt_of_le apart (Nat.le_trans within.1 begins))

theorem inlineEntries (defined : Defined context initial tokens journal definitions) :
    Journal.inlineEntries journal.log = (Definition.inPlace definitions).map Definition.entry := by
  rw [defined.log]
  exact List.filter_map

end Defined

/-! ### Labels -/

open Definition (inPlace stated)

/-- The definitions in place are numbered in the order in which they are closed, and their labels
are the blank ones of the schema. A definition that stands in another one is in place, has a smaller
number if the other one has a number, and is listed before the label of the other one if that label
is new. -/
structure Numbering (definitions : List Definition) (schema : Schema) : Prop where
  inOrder : (inPlace definitions).map (·.entry.label) =
    (List.range (inPlace definitions).length).map Label.numbered
  blank : schema.labels.filter (·.blank?.isSome) =
    (List.range (inPlace definitions).length).map Label.numbered
  shapes : ∀ definition ∈ inPlace definitions,
    schema.shape? definition.entry.label = some definition.entry.shape
  within : ∀ inner ∈ definitions, ∀ outer ∈ definitions, inner.Within outer →
    inner ∈ inPlace definitions ∧
      ∃ number, inner.entry.label = .numbered number ∧
        ∀ larger, outer.entry.label = .numbered larger → number < larger
  listed : ∀ inner ∈ definitions, ∀ outer ∈ stated definitions, inner.Within outer →
    (∀ earlier ∈ definitions, earlier.last < outer.last →
      earlier.entry.label ≠ outer.entry.label) →
    [inner.entry.label, outer.entry.label].Sublist schema.labels
  size : schema.size = (inPlace definitions).length +
    ((stated definitions).map (·.entry.label)).dedup.length

namespace Defined

variable {context : Context} {initial : Draft} {tokens : List Token} {journal : Journal}
  {definitions : List Definition} {inner outer : Definition}

theorem count (defined : Defined context initial tokens journal definitions)
    (numbered : journal.Numbered) : journal.draft.counter = (inPlace definitions).length := by
  rw [numbered.counter, defined.inlineEntries, List.length_map]

theorem labels_inPlace (defined : Defined context initial tokens journal definitions)
    (numbered : journal.Numbered) : (inPlace definitions).map (·.entry.label) =
      (List.range (inPlace definitions).length).map Label.numbered := by
  have labels := numbered.labels
  rwa [defined.inlineEntries, List.map_map, defined.count numbered] at labels

/-- Of two definitions in place the one that is closed first has the smaller number. -/
theorem number_lt (defined : Defined context initial tokens journal definitions)
    (numbered : journal.Numbered) (member : inner ∈ inPlace definitions)
    (member' : outer ∈ inPlace definitions) (ends : inner.last < outer.last)
    (number : inner.entry.label = .numbered k) (larger : outer.entry.label = .numbered l) :
    k < l := by
  have ordered : ((inPlace definitions).map (·.entry.label)).Pairwise fun first second =>
      ∀ k l, first = .numbered k → second = .numbered l → k < l := by
    rw [defined.labels_inPlace numbered, List.pairwise_map]
    refine List.pairwise_lt_range.imp fun less k l same same' => ?_
    rwa [← Label.numbered_injective same, ← Label.numbered_injective same']
  have related := List.pairwise_filter.mp (List.pairwise_map.mp ordered)
  obtain ⟨held, inline⟩ := List.mem_filter.mp member
  obtain ⟨held', inline'⟩ := List.mem_filter.mp member'
  exact defined.rel related held held' ends inline inline' k l number larger

theorem shape_inPlace (defined : Defined context initial tokens journal definitions)
    (numbered : journal.Numbered) (consistent : journal.Consistent)
    (named : Journal.Named journal.log) (member : definition ∈ inPlace definitions) :
    journal.draft.shape? definition.entry.label = some definition.entry.shape := by
  obtain ⟨held, inline⟩ := List.mem_filter.mp member
  have logged : definition.entry ∈ journal.log := defined.log ▸ List.mem_map_of_mem held
  cases declared : definition.entry with
  | inPlace label shape => exact numbered.shape?_inPlace consistent named (declared ▸ logged)
  | stated label shape => simp [declared, Registration.isInline] at inline

/-- A label that is new is listed behind those that are declared before. -/
theorem labels_sublist (defined : Defined context initial tokens journal definitions)
    (steps : Journal.Steps ⟨initial, []⟩ journal) (noShapes : initial.shapes = [])
    (member : inner ∈ definitions) (member' : outer ∈ definitions) (ends : inner.last < outer.last)
    (new : ∀ earlier ∈ definitions, earlier.last < outer.last →
      earlier.entry.label ≠ outer.entry.label) :
    [inner.entry.label, outer.entry.label].Sublist journal.draft.labels := by
  obtain ⟨front, rest, rfl⟩ := List.append_of_mem member'
  have before := defined.mem_front member ends
  have unseen : outer.entry.label ∉ (front.map Definition.entry).map Registration.label := by
    rw [List.map_map]
    intro seen
    obtain ⟨earlier, held, same⟩ := List.mem_map.mp seen
    have ends' := (List.pairwise_append.mp defined.ordered).2.2 earlier held outer
      List.mem_cons_self
    exact new earlier (List.mem_append_left _ held) ends' same
  rw [Journal.labels_of_steps steps noShapes, defined.log, List.map_append, List.map_append]
  refine Schema.firstOccurrences_sublist ?_ unseen
  exact List.mem_map_of_mem (List.mem_map_of_mem before)

theorem numbering (defined : Defined context initial tokens journal definitions)
    (steps : Journal.Steps ⟨initial, []⟩ journal) (noShapes : initial.shapes = [])
    (fresh : initial.counter = 0) (noBlank : ∀ name, .blankNode name ∉ tokens) :
    Numbering definitions journal.draft.finish := by
  have named : Journal.Named journal.log := by
    intro entry member
    rw [defined.log] at member
    obtain ⟨definition, declared, rfl⟩ := List.mem_map.mp member
    exact (defined.stand definition declared).named noBlank
  have consistent : journal.Consistent := (Journal.Consistent.initial initial noShapes).steps steps
  have numbered : journal.Numbered := (Journal.Numbered.initial initial fresh).steps
    (.initial initial noShapes) steps named
  constructor
  case inOrder => exact defined.labels_inPlace numbered
  case blank =>
    rw [← defined.count numbered]
    exact numbered.filter_labels named steps noShapes
  case shapes =>
    exact fun definition member => defined.shape_inPlace numbered consistent named member
  case within =>
    intro inner member outer member' within
    have inline := defined.isInline_of_within member member' within
    have held : inner ∈ inPlace definitions := List.mem_filter.mpr ⟨member, inline⟩
    have logged : inner.entry ∈ journal.log := defined.log ▸ List.mem_map_of_mem member
    obtain ⟨number, -, generated⟩ := numbered.of_inline logged inline
    refine ⟨held, number, generated, fun larger same => ?_⟩
    have logged' : outer.entry ∈ journal.log := defined.log ▸ List.mem_map_of_mem member'
    have inline' : outer.entry.isInline := by
      rw [← numbered.blank_iff named logged', same]
      rfl
    exact defined.number_lt numbered held (List.mem_filter.mpr ⟨member', inline'⟩) within.2
      generated same
  case listed =>
    intro inner member outer member' within new
    exact defined.labels_sublist steps noShapes member (List.mem_filter.mp member').1 within.2 new
  case size =>
    have stated : journal.log.filter (!·.isInline) = (stated definitions).map Definition.entry := by
      rw [defined.log]
      exact List.filter_map
    have labels := numbered.length_labels named steps noShapes
    rw [defined.count numbered, stated, List.map_map] at labels
    exact (List.length_map Prod.fst).symm.trans labels

end Defined

namespace Settings

variable {check : String → Except Iri.Fault Unit} {settings : Settings} {text : String}

theorem initialDraft_counter (settings : Settings) : settings.initialDraft.counter = 0 := by
  unfold initialDraft
  cases settings.base <;> rfl

/-- The shapes that a document defines in place are numbered in the order in which their braces are
closed, if it writes no blank node. -/
theorem parseWith_numbering (read : settings.parseWith check text = .ok schema)
    (noBlank : ∀ name, .blankNode name ∉
      (TokenSequence.ofText text.toList).lexemes.map Lexeme.token) :
    let tokens := TokenSequence.ofText text.toList
    ∃ journal definitions, settings.Derives check text journal ∧ journal.draft.finish = schema ∧
      Defined ⟨check, settings.strict, Text.width text.toList, tokens.problem⟩
        settings.initialDraft (tokens.lexemes.map Lexeme.token) journal definitions ∧
      Numbering definitions schema := by
  intro tokens
  obtain ⟨journal, derives, rfl⟩ := derives_of_parseWith read
  obtain ⟨definitions, defined⟩ := Grammar.document_defined derives
  have numbering := defined.numbering (Grammar.document.steps derives)
    settings.initialDraft_shapes settings.initialDraft_counter noBlank
  exact ⟨journal, definitions, derives, rfl, defined, numbering⟩

/-- Two definitions of which one stands in the other, one at the start, and one in a statement under
a label that is already declared. -/
theorem parseWith_numbering_four :
    let text := "<a:s>\x7b<a:p>\x7b<a:q>\x7b\x7d\x7d\x7d start=\x7b\x7d <a:s>\x7b<a:r>\x7b\x7d\x7d"
    let tokens := TokenSequence.ofText text.toList
    let check := fun text => Iri.check text.toList
    ∃ schema, default.parseWith check text = .ok schema ∧
      (∀ name, .blankNode name ∉ tokens.lexemes.map Lexeme.token) ∧
      ∃ journal definitions,
        default.Derives check text journal ∧ journal.draft.finish = schema ∧
        Defined ⟨check, false, Text.width text.toList, tokens.problem⟩
          default.initialDraft (tokens.lexemes.map Lexeme.token) journal definitions ∧
        Numbering definitions schema := by
  intro text tokens check
  have read : default.parseWith check text =
      .ok ⟨.empty, some (.blank "b2"), none, [(.blank "b0", .empty),
        (.blank "b1", constrained ⟨"a:q"⟩ (.reference (.one (.blank "b0")))),
        (.iri ⟨"a:s"⟩, constrained ⟨"a:r"⟩ (.reference (.one (.blank "b3")))),
        (.blank "b2", .empty), (.blank "b3", .empty)]⟩ := by
    decide +kernel
  have plain : (tokens.lexemes.map Lexeme.token).all
      (fun token => token.isIri || !token.isLabel) := by
    decide +kernel
  have noBlank : ∀ name, .blankNode name ∉ tokens.lexemes.map Lexeme.token := by
    intro name member
    cases List.all_eq_true.mp plain _ member
  exact ⟨_, read, noBlank, parseWith_numbering read noBlank⟩

end Settings

end ShExCompact
