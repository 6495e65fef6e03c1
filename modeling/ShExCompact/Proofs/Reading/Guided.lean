import ShExCompact.Proofs.Reading.Assembled

/-! Every parser is built of steps, and its problems tell about the token at which it stops. A
problem of the grammar names that token, and a prefix that is not bound is the one of that token. -/
namespace ShExCompact

/-- What a cause tells about the state in which a reading stops with it. -/
def Cause.Tells (stop : State) : Cause → Prop
  | unexpected text _ | meaningless text _ => text = Parser.found stop
  | unknownPrefix name =>
    (stop.lexemes.head?.map Lexeme.token).bind Token.space? = some name ∧
      stop.draft.prefixes.get? name = none
  | lexical .. | malformedEscape _ => True

namespace Reading

variable {p : Parser α}

/-- Parsers that are built of steps and whose problems tell about the token at which they stop. -/
structure Guided (p : Parser α) : Prop where
  stepwise : Stepwise p
  tells : ∀ {context state problem stop}, p context state = .error problem stop →
    problem.cause.Tells stop

theorem absolute_tells (stopped : Parser.absolute text context state = .error problem stop) :
    problem.cause.Tells stop := by
  rw [absolute_eq] at stopped
  split at stopped
  · cases stopped
  · cases stopped
    rfl

theorem string_tells (stopped : Parser.string context state = .error problem stop) :
    problem.cause.Tells stop := by
  rcases string_error stopped with stopped | ⟨flaw, -, stopped⟩ | stopped
  · obtain ⟨fault, rfl⟩ := lexical_of_settle stopped
    trivial
  · cases stopped
    trivial
  · cases stopped
    rfl

/-- A name is expanded where it comes next. There the reading stops if its prefix is not bound. -/
theorem expand_tells (uses : (state.lexemes.head?.map Lexeme.token).bind Token.space? = some space)
    (stopped : Parser.expand space localPart context state = .error problem stop) :
    problem.cause.Tells stop := by
  rcases bind_eq_error.mp stopped with impossible | ⟨draft, middle, held, stopped⟩
  · cases impossible
  cases held
  cases expands : state.draft.expand? space localPart with
  | some text =>
    rw [expands] at stopped
    exact absolute_tells stopped
  | none =>
    rw [expands] at stopped
    cases stopped
    exact ⟨uses, Option.map_eq_none_iff.mp expands⟩

theorem collect_tells {step : Parser (Option α)}
    (each : ∀ {state}, step context state = .error problem stop → problem.cause.Tells stop)
    (stopped : Parser.collect step context state = .error problem stop) :
    problem.cause.Tells stop := by
  have upTo (bound : Nat) : ∀ {collected state},
      Parser.collectUpTo step bound collected context state = .error problem stop →
        problem.cause.Tells stop := by
    induction bound with
    | zero => exact nofun
    | succ bound ih =>
      intro collected state stopped
      rcases bind_eq_error.mp stopped with stopped | ⟨answer, middle, -, stopped⟩
      · exact each stopped
      · cases answer with
        | some value => exact ih stopped
        | none => cases stopped
  exact upTo _ stopped

theorem Assembled.tells (assembled : Assembled known p)
    (same : ∀ token ∈ known, state.lexemes.head?.map Lexeme.token = token)
    (stopped : p context state = .error problem stop) : problem.cause.Tells stop := by
  induction assembled generalizing state with
  | done | drafted => cases stopped
  | bind _ _ first later =>
    rcases bind_eq_error.mp stopped with stopped | ⟨value, middle, -, stopped⟩
    · exact first same stopped
    · exact later value nofun stopped
  | peeked _ later => exact later _ (fun _ held => Option.some.inj held) stopped
  | settle | advance =>
    obtain ⟨fault, rfl⟩ := lexical_of_settle stopped
    trivial
  | absolute => exact absolute_tells stopped
  | string => exact string_tells stopped
  | refused | objected =>
    cases stopped
    rfl
  | expand uses => exact expand_tells (same _ rfl ▸ uses) stopped
  | collect _ _ each => exact collect_tells (each nofun) stopped

theorem Assembled.guided (assembled : Assembled none p) : Guided p :=
  ⟨assembled.stepwise, assembled.tells nofun⟩

namespace Guided

theorem iri : Guided Parser.iri := Assembled.iri.guided

theorem action : Guided Parser.action? := Assembled.action.guided

theorem settledDocument : Guided (do
    let _ ← Parser.collect Parser.directive?
    Parser.startActions
    let _ ← Parser.collect Parser.statement?) := Assembled.settledDocument.guided

theorem document : Guided Parser.document := Assembled.document.guided

end Guided

theorem Stepwise.document : Stepwise Parser.document := Guided.document.stepwise

/-- A document is not read if its text has a problem. -/
theorem calm_of_document (read : Parser.document context state = .ok () stop) :
    context.problem = none := by
  have ended := document_finishes read
  obtain ⟨_, middle, part, read⟩ := bind_eq_ok.mp read
  exact Guided.settledDocument.stepwise.settled (settle_settled part) read ended

/-- A document that stops at its end with a problem of the grammar is a text without a problem. -/
theorem settled_of_document (stopped : Parser.document context state = .error problem stop)
    (ofToken : problem.cause.OfToken) : Settled context stop := by
  rcases bind_eq_error.mp stopped with stopped | ⟨_, middle, part, stopped⟩
  · obtain ⟨fault, rfl⟩ := lexical_of_settle stopped
    exact ofToken.elim
  · exact Guided.settledDocument.stepwise.settled_of_error (settle_settled part) stopped ofToken

end Reading

end ShExCompact
