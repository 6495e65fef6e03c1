import ShExCompact.Proofs.Reading.Documents
import ShExCompact.Proofs.Reading.Stepwise

/-! Where parsers stop. A problem of the text counts where the tokens are used up, any other one at
the token that comes next; and up to a problem of the text a parser does not depend on it. -/
namespace ShExCompact

/-- The context of the same tokens in a text without a problem. -/
def Context.calm (context : Context) : Context := { context with problem := none }

namespace Reading

open ShExCompact.Parser (here found lexicalProblem)

variable {p : Parser α} {k : α → Parser β}

theorem bind_eq {ρ ε σ : Type} (p : ReaderT ρ (EStateM ε σ) α)
    (k : α → ReaderT ρ (EStateM ε σ) β) (context : ρ) (state : σ) :
    (p >>= k) context state = match p context state with
      | .ok value middle => k value context middle
      | .error problem stop => .error problem stop := by
  change EStateM.bind (p context) (fun inner => k inner context) state = _
  unfold EStateM.bind
  cases p context state <;> rfl

theorem bind_eq_error : (p >>= k) context state = .error problem stop ↔
    p context state = .error problem stop ∨
      ∃ value middle, p context state = .ok value middle ∧
        k value context middle = .error problem stop := by
  rw [bind_eq]
  cases p context state with
  | error problem middle => simp
  | ok inner middle =>
    constructor
    · exact fun stopped => .inr ⟨inner, middle, rfl, stopped⟩
    · rintro (impossible | ⟨_, _, same, stopped⟩)
      · cases impossible
      · cases same
        exact stopped

theorem settle_eq (context : Context) (state : State) :
    Parser.settle context state = match context.problem with
      | some problem =>
        if state.lexemes = [] then .error (lexicalProblem problem) state else .ok () state
      | none => .ok () state := by
  obtain ⟨lexemes, draft⟩ := state
  unfold Parser.settle
  cases context.problem <;> cases lexemes <;> rfl

theorem absolute_eq (text : String) (context : Context) (state : State) :
    Parser.absolute text context state =
      match context.check text with
      | .ok () => .ok ⟨text⟩ state
      | .error fault =>
        .error ⟨here context state, .meaningless (found state) (.iri fault)⟩ state := by
  change (match context.check text with
    | .ok () => pure ⟨text⟩
    | .error fault => Parser.object (.iri fault) : Parser Iri) context state = _
  generalize context.check text = outcome
  cases outcome <;> rfl

/-! ### Strings -/

/-- How a string is read: its token is stepped over, the reading stops inside of it, or another
token stands there. -/
inductive StringPlan where
  | behind (value : String)
  | inside (flaw : Escape.Flaw)
  | other

/-- How a string is read where a given token comes next. -/
def StringPlan.of (strict : Bool) : Option Token → StringPlan
  | some (.string raw width) =>
    match Escape.decodeString raw width with
    | .ok value => behind value
    | .error flaw => if strict then inside flaw else behind ""
  | _ => other

def StringPlan.run : StringPlan → Parser String
  | behind value => do
    Parser.advance
    return value
  | inside flaw => Parser.malformedEscape flaw
  | other => Parser.unexpected [.string]

theorem string_eq (context : Context) (state : State) :
    Parser.string context state =
      (StringPlan.of context.strict (state.lexemes.head?.map Lexeme.token)).run context state := by
  obtain ⟨lexemes, draft⟩ := state
  rcases lexemes with _ | ⟨⟨token, extent, text⟩, rest⟩
  · rfl
  · cases token with
    | string raw width =>
      change (match Escape.decodeString raw width with
        | .ok value => Parser.advance >>= fun _ => pure value
        | .error flaw => read >>= fun context => if context.strict
          then Parser.malformedEscape flaw >>= fun value => Parser.advance >>= fun _ => pure value
          else Parser.advance >>= fun _ => pure "" : Parser String) context _ = _
      dsimp only [List.head?, Option.map, StringPlan.of]
      cases Escape.decodeString raw width with
      | ok value => rfl
      | error flaw =>
        change (if context.strict
          then Parser.malformedEscape flaw >>= fun value => Parser.advance >>= fun _ => pure value
          else Parser.advance >>= fun _ => pure "" : Parser String) context _ = _
        cases context.strict <;> rfl
    | _ => rfl

theorem flawed_of_inside (plan : StringPlan.of strict next = .inside flaw) :
    ∃ raw width, next = some (.string raw width) ∧
      Escape.decodeString raw width = .error flaw := by
  unfold StringPlan.of at plan
  split at plan
  next raw width =>
    refine ⟨raw, width, rfl, ?_⟩
    cases decodes : Escape.decodeString raw width with
    | ok value =>
      rw [decodes] at plan
      cases plan
    | error flaw' =>
      rw [decodes] at plan
      dsimp only at plan
      split at plan <;> cases plan
      rfl
  next => cases plan

/-- A string stops where stepping over its token does, inside of it, or at another token. -/
theorem string_error (stopped : Parser.string context state = .error problem stop) :
    Parser.advance context state = .error problem stop ∨
    (∃ flaw, StringPlan.of context.strict (state.lexemes.head?.map Lexeme.token) = .inside flaw ∧
      (Parser.malformedEscape flaw : Parser String) context state = .error problem stop) ∨
    (Parser.unexpected [.string] : Parser String) context state = .error problem stop := by
  rw [string_eq] at stopped
  cases plan : StringPlan.of context.strict (state.lexemes.head?.map Lexeme.token) with
  | behind value =>
    rw [plan] at stopped
    rcases bind_eq_error.mp stopped with stopped | ⟨_, _, -, impossible⟩
    · exact .inl stopped
    · cases impossible
  | inside flaw =>
    rw [plan] at stopped
    exact .inr (.inl ⟨flaw, rfl, stopped⟩)
  | other =>
    rw [plan] at stopped
    exact .inr (.inr stopped)

/-! ### Places of problems -/

/-- The problem with which a parser stops in a state: the one of the text if the tokens are used up,
one of the next token as a whole, or one inside of the string that comes next. -/
inductive Points (context : Context) : State → Problem → Prop where
  | lexical (known : context.problem = some fault) :
      Points context ⟨[], draft⟩ (lexicalProblem fault)
  | token (ofToken : Cause.OfToken cause) (state : State) :
      Points context state ⟨here context state, cause⟩
  | escape (flawed : Escape.decodeString raw width = .error flaw) :
      Points context ⟨⟨.string raw width, extent, text⟩ :: rest, draft⟩
        ⟨⟨extent.start + flaw.offset, extent.start + flaw.offset + Text.width flaw.text⟩,
          .malformedEscape (String.ofList flaw.text)⟩

/-- Settling only stops with the problem of the text. -/
theorem lexical_of_settle (stopped : Parser.settle context state = .error problem stop) :
    ∃ fault, problem = lexicalProblem fault := by
  unfold Parser.settle at stopped
  split at stopped
  · cases stopped
    exact ⟨_, rfl⟩
  · cases stopped

theorem settle_points (stopped : Parser.settle context state = .error problem stop) :
    Points context stop problem := by
  obtain ⟨lexemes, draft⟩ := state
  rw [settle_eq] at stopped
  split at stopped
  next fault known =>
    split at stopped
    next empty =>
      cases stopped
      cases empty
      exact .lexical known
    next => cases stopped
  next => cases stopped

theorem string_points (stopped : Parser.string context state = .error problem stop) :
    Points context stop problem := by
  rcases string_error stopped with stopped | ⟨flaw, plan, stopped⟩ | stopped
  · exact settle_points stopped
  · obtain ⟨raw, width, next, flawed⟩ := flawed_of_inside plan
    obtain ⟨lexemes, draft⟩ := state
    rcases lexemes with _ | ⟨⟨token, extent, text⟩, rest⟩
    · cases next
    · cases next
      cases stopped
      exact .escape flawed
  · cases stopped
    exact .token (show Cause.OfToken (.unexpected _ _) from trivial) _

theorem Stepwise.points (stepwise : Stepwise p)
    (stopped : p context state = .error problem stop) : Points context stop problem := by
  induction stepwise generalizing state with
  | done | peek | drafted => cases stopped
  | bind _ _ first later =>
    rcases bind_eq_error.mp stopped with stopped | ⟨value, middle, -, stopped⟩
    · exact first stopped
    · exact later value stopped
  | settle => exact settle_points stopped
  | advance => exact settle_points stopped
  | absolute text =>
    rw [absolute_eq] at stopped
    cases invalid : context.check text with
    | ok =>
      rw [invalid] at stopped
      cases stopped
    | error fault =>
      rw [invalid] at stopped
      cases stopped
      exact .token (show Cause.OfToken (.meaningless _ _) from trivial) _
  | string => exact string_points stopped
  | stops cause ofToken =>
    cases stopped
    exact .token (ofToken _) _
  | sized _ each => exact each _ stopped

/-! ### What is left of the tokens -/

/-- The state in which a reading ends, with a value or with a problem. -/
def ending : EStateM.Result Problem State α → State
  | .ok _ state | .error _ state => state

theorem ending_settle (context : Context) (state : State) :
    ending (Parser.settle context state) = state := by
  unfold Parser.settle
  split <;> rfl

theorem advance_suffix (context : Context) (state : State) :
    (ending (Parser.advance context state)).lexemes <:+ state.lexemes := by
  change (ending (Parser.settle context _)).lexemes <:+ _
  rw [ending_settle]
  exact List.tail_suffix _

/-- Tokens are only taken from the front. -/
theorem Stepwise.suffix (stepwise : Stepwise p) (context : Context) (state : State) :
    (ending (p context state)).lexemes <:+ state.lexemes := by
  induction stepwise generalizing state with
  | done | peek | drafted | stops => exact List.suffix_rfl
  | @bind α β p k _ _ first later =>
    have front := first state
    rw [bind_eq]
    cases part : p context state with
    | ok value middle =>
      rw [part] at front
      exact (later value middle).trans front
    | error problem stop =>
      rw [part] at front
      exact front
  | settle => exact (ending_settle context state).symm ▸ List.suffix_rfl
  | advance => exact advance_suffix ..
  | absolute text =>
    rw [absolute_eq]
    cases context.check text <;> exact List.suffix_rfl
  | string =>
    rw [string_eq]
    cases StringPlan.of context.strict (state.lexemes.head?.map Lexeme.token) with
    | behind value =>
      have step := advance_suffix context state
      rw [StringPlan.run, bind_eq]
      cases part : Parser.advance context state <;> rwa [part] at step
    | inside | other => exact List.suffix_rfl
  | sized _ each => exact each _ state

/-- No problem of the text is passed over where the tokens are used up. -/
def Settled (context : Context) (state : State) : Prop :=
  state.lexemes = [] → context.problem = none

theorem settle_settled (read : Parser.settle context state = .ok () stop) :
    Settled context stop := by
  rw [settle_eq] at read
  split at read
  next =>
    split at read <;> cases read
    next some => exact fun empty => (some empty).elim
  next calm => exact fun _ => calm

theorem Stepwise.settled (stepwise : Stepwise p) (settled : Settled context state)
    (read : p context state = .ok value stop) : Settled context stop := by
  induction stepwise generalizing state stop with
  | done | peek | drafted =>
    cases read
    exact settled
  | bind _ _ first later =>
    obtain ⟨inner, middle, part, read⟩ := bind_eq_ok.mp read
    exact later inner (first settled part) read
  | settle => exact settle_settled read
  | advance => exact settle_settled read
  | absolute text =>
    rw [absolute_eq] at read
    cases valid : context.check text with
    | ok =>
      rw [valid] at read
      cases read
      exact settled
    | error fault =>
      rw [valid] at read
      cases read
  | string =>
    rw [string_eq] at read
    cases plan : StringPlan.of context.strict (state.lexemes.head?.map Lexeme.token) with
    | behind value =>
      rw [plan] at read
      obtain ⟨_, _, part, read⟩ := bind_eq_ok.mp read
      cases read
      exact settle_settled part
    | inside | other =>
      rw [plan] at read
      cases read
  | stops => cases read
  | sized _ each => exact each _ settled read

/-- A problem of a token is not found either where the tokens are used up by one of the text. -/
theorem Stepwise.settled_of_error (stepwise : Stepwise p) (settled : Settled context state)
    (stopped : p context state = .error problem stop) (ofToken : problem.cause.OfToken) :
    Settled context stop := by
  induction stepwise generalizing state with
  | done | peek | drafted => cases stopped
  | bind first _ early late =>
    rcases bind_eq_error.mp stopped with stopped | ⟨value, middle, part, stopped⟩
    · exact early settled stopped
    · exact late value (first.settled settled part) stopped
  | settle | advance =>
    obtain ⟨fault, rfl⟩ := lexical_of_settle stopped
    exact ofToken.elim
  | absolute text =>
    rw [absolute_eq] at stopped
    split at stopped
    · cases stopped
    · cases stopped
      exact settled
  | string =>
    rcases string_error stopped with stopped | ⟨flaw, -, stopped⟩ | stopped
    · obtain ⟨fault, rfl⟩ := lexical_of_settle stopped
      exact ofToken.elim
    · cases stopped
      exact ofToken.elim
    · cases stopped
      exact settled
  | stops =>
    cases stopped
    exact settled
  | sized _ each => exact each _ settled stopped

/-! ### Problems of the text -/

/-- A reading is the one without a problem of the text, or it stops where the tokens are used up. -/
def CalmOr (context : Context) (result calm : EStateM.Result Problem State α) : Prop :=
  result = calm ∨ ∃ fault stop, context.problem = some fault ∧ stop.lexemes = [] ∧
    result = .error (lexicalProblem fault) stop

theorem settle_calmOr (context : Context) (state : State) :
    CalmOr context (Parser.settle context state) (Parser.settle context.calm state) := by
  rw [settle_eq, settle_eq]
  cases known : context.problem with
  | none => exact .inl rfl
  | some fault =>
    dsimp only
    split
    next empty => exact .inr ⟨fault, state, known, empty, rfl⟩
    next => exact .inl rfl

theorem CalmOr.bind {context : Context}
    (first : CalmOr context (p context state) (p context.calm state))
    (later : ∀ value middle, CalmOr context (k value context middle)
      (k value context.calm middle)) :
    CalmOr context ((p >>= k) context state) ((p >>= k) context.calm state) := by
  rw [bind_eq, bind_eq]
  rcases first with same | ⟨fault, stop, known, empty, stopped⟩
  · rw [same]
    cases p context.calm state with
    | ok value middle => exact later value middle
    | error => exact .inl rfl
  · rw [stopped]
    exact .inr ⟨fault, stop, known, empty, rfl⟩

theorem Stepwise.calmOr (stepwise : Stepwise p) (context : Context) (state : State) :
    CalmOr context (p context state) (p context.calm state) := by
  induction stepwise generalizing state with
  | done | peek | drafted | stops => exact .inl rfl
  | bind _ _ first later => exact (first state).bind later
  | settle => exact settle_calmOr ..
  | advance => exact settle_calmOr ..
  | absolute text =>
    rw [absolute_eq, absolute_eq]
    exact .inl rfl
  | string =>
    rw [string_eq, string_eq]
    change CalmOr context _ ((StringPlan.of context.strict _).run context.calm state)
    cases StringPlan.of context.strict (state.lexemes.head?.map Lexeme.token) with
    | behind value => exact .bind (settle_calmOr ..) fun _ _ => .inl rfl
    | inside | other => exact .inl rfl
  | sized _ each => exact each _ state

end Reading

end ShExCompact
