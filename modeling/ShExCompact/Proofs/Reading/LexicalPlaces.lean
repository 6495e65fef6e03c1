import ShExCompact.Proofs.Lexical.FaultPlaces
import ShExCompact.Proofs.Reading.Strictness

/-! Where the lexical problems of a document are, in the tokens of a text and in the diagnostic of a
reading. Such a place begins with the character that the problem names, and only an escape may
have its end inside of a character. -/
namespace ShExCompact

/-- What the place of a lexical problem tells: it begins with a character of the text, is not empty,
and ends in the text. The place of an escape has a length of its own; its end is no boundary if
that many bytes are cut inside of a character, and all other ends are boundaries. -/
structure LexicalPlace (text : List Char) (start stop : Nat) (fault : Fault) (character : Char) :
    Prop where
  begins : ∃ front rest, text = front ++ character :: rest ∧ Text.width front = start
  nonempty : start < stop
  within : stop ≤ Text.width text
  escape : ∀ size, fault.escapeSize? = some size → stop = start + size
  ends_iff : ¬ Text.IsBoundary text stop ↔
    fault.escapeSize?.isSome ∧ Text.cut stop text = .inside

/-- The place of a problem that stands in a text. -/
theorem TokenSequence.StandsAt.place {text : List Char} {stopped : LexicalProblem}
    (stands : StandsAt 0 text stopped) :
    LexicalPlace text stopped.extent.start stopped.extent.stop stopped.fault
      stopped.character := by
  obtain ⟨front, rest, size, rfl, first, last, covers⟩ := stands
  rw [Nat.zero_add] at first
  have positive := covers.pos
  have bounded := covers.le_width
  refine ⟨⟨front, rest, rfl, first.symm⟩, by omega, ?_, ?_, ?_⟩
  · rw [Text.width_append]
    omega
  · intro bytes known
    rcases covers with ⟨none, -⟩ | ⟨known', -⟩
    · rw [none] at known
      cases known
    · rw [known'] at known
      cases known
      exact last
  · constructor
    · intro noBoundary
      rcases covers with ⟨-, inner, after, split, -, size⟩ | ⟨known, -⟩
      · refine (noBoundary ⟨front ++ inner, after, ?_, ?_⟩).elim
        · rw [split, List.append_assoc]
        · rw [Text.width_append]
          omega
      · refine ⟨Option.isSome_of_mem known, ?_⟩
        apply (Text.isBoundary_or_inside ?_).resolve_left noBoundary
        rw [Text.width_append]
        omega
    · rintro ⟨-, inside⟩
      exact Text.not_isBoundary_of_inside inside

namespace Settings

open Reading (Points Stepwise)

variable {check : String → Except Iri.Fault Unit} {settings : Settings} {text : String}

/-- A reading that stops at a lexical problem stops at the one of its text. -/
theorem lexical_of_parseWith (stopped : settings.parseWith check text = .error diagnostic)
    (lexical : diagnostic.cause = .lexical fault character) :
    ∃ problem, (TokenSequence.ofText text.toList).problem = some problem ∧
      problem.fault = fault ∧ problem.character = character ∧
      diagnostic.span = problem.extent.span (Text.bytes text.toList) := by
  rw [parseWith_eq] at stopped
  split at stopped
  next => cases stopped
  next problem stop outcome =>
    have points := Stepwise.document.points outcome
    cases stopped
    cases points with
    | lexical known =>
      cases lexical
      exact ⟨_, known, rfl, rfl, rfl⟩
    | token ofToken => exact (ofToken.not_lexical _ _ lexical).elim
    | escape => cases lexical

/-- The lexical problem of a text has its place in the text, for the tokens and for every reading of
the document. -/
theorem lexicalPlace (text : String) :
    (∀ stopped ∈ (TokenSequence.ofText text.toList).problem,
      LexicalPlace text.toList stopped.extent.start stopped.extent.stop stopped.fault
        stopped.character) ∧
    ∀ check settings span fault character,
      parseWith check settings text = .error ⟨span, .lexical fault character⟩ →
        LexicalPlace text.toList span.start.offset span.stop.offset fault character := by
  have place : ∀ stopped ∈ (TokenSequence.ofText text.toList).problem,
      LexicalPlace text.toList stopped.extent.start stopped.extent.stop stopped.fault
        stopped.character := by
    intro stopped known
    exact (TokenSequence.read_problem_stands (Brace.kept_unknown _) (Nat.lt_succ_self _)
      known).place
  refine ⟨place, ?_⟩
  intro check settings span fault character stopped
  obtain ⟨problem, known, rfl, rfl, same⟩ := lexical_of_parseWith stopped rfl
  obtain rfl : span = problem.extent.span (Text.bytes text.toList) := same
  have found := place problem known
  have stop := offset_ofOffset text.toList found.within
  have start := offset_ofOffset text.toList
    (Nat.le_trans (Nat.le_of_lt found.nonempty) found.within)
  unfold Extent.span
  dsimp only
  rwa [start, stop]

/-- The place of an escape that ends inside of a character: three bytes are before it and one of
its two bytes. -/
theorem lexicalPlace_inside :
    (TokenSequence.ofText ":\\é".toList).problem = some ⟨⟨1, 3⟩, .localEscape 'Ã', '\\'⟩ ∧
      default.parse ":\\é" = .error ⟨⟨⟨0, 1, 1⟩, ⟨0, 3, 3⟩⟩, .lexical (.localEscape 'Ã') '\\'⟩ ∧
      ¬ Text.IsBoundary ":\\é".toList 3 := by
  refine ⟨by decide +kernel, by decide +kernel, ?_⟩
  exact Text.not_isBoundary_of_inside rfl

end Settings

end ShExCompact
