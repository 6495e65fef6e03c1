import ShExCompact.Proofs.Reading.FirstProblem

/-! What a parser offers where it refuses a token. Two documents are read side by side that are the
same up to some token, where one of them has a single other token. As long as the parser tests the
next token for everything that it lists at last, the other token is taken if it is listed. -/
namespace ShExCompact

namespace Token

def isIriRef : Token → Bool
  | iriRef _ => true
  | _ => false

def isString : Token → Bool
  | string .. => true
  | _ => false

def isInteger : Token → Bool
  | integer _ => true
  | _ => false

def isCode : Token → Bool
  | code _ => true
  | _ => false

/-- A name without a local part, which stands for the prefix alone. -/
def isPrefixName : Token → Bool
  | prefixedName _ localPart => localPart.isEmpty
  | _ => false

end Token

/-- The tokens that an alternative stands for, or that what it stands for begins with. -/
def Expected.admits : Expected → Token → Bool
  | keyword word => (· = .keyword word)
  | sign punct => (· = .punct punct)
  | prefixName => Token.isPrefixName
  | iriRef => Token.isIriRef
  | iri | datatype => Token.isIri
  | predicate => Token.isPredicate
  | literal => Token.isLiteral
  | string => Token.isString
  | integer => Token.isInteger
  | shapeLabel => Token.isLabel
  | shapeDefinition => Token.isDefinition
  | shapeReference => Token.isShape
  | codeBlock => Token.isCode

/-- No alternative is empty. -/
theorem Expected.exists_admits (alternative : Expected) : ∃ token, alternative.admits token := by
  cases alternative with
  | keyword word => exact ⟨.keyword word, decide_eq_true rfl⟩
  | sign punct => exact ⟨.punct punct, decide_eq_true rfl⟩
  | prefixName => exact ⟨.prefixedName "" "", rfl⟩
  | iriRef | iri | datatype | predicate | shapeLabel => exact ⟨.iriRef "", rfl⟩
  | literal | string => exact ⟨.string "" 1, rfl⟩
  | integer => exact ⟨.integer "", rfl⟩
  | shapeDefinition | shapeReference => exact ⟨.punct .openBrace, rfl⟩
  | codeBlock => exact ⟨.code "", rfl⟩

/-- The alternatives that a cause lists. -/
def Cause.expected : Cause → List Expected
  | unexpected _ expected => expected
  | lexical .. | meaningless .. | unknownPrefix _ | malformedEscape _ => []

namespace Reading

open ShExCompact.Parser (here found next eat eatToken expect advance peek collect collectUpTo
  whenNext)

/-- Two readings by the same rules, one of the tokens `front ++ rest` and one of `front` with a
single token behind it, in a text that has no problem. -/
structure Replacement where
  context : Context
  other : Context
  alike : Context.Alike context other
  calm : other.problem = none
  front : List Lexeme
  rest : List Lexeme
  token : Lexeme

/-- The first of some tokens is taken: the reading ends behind it, or it stops there without a list
of alternatives. -/
def Taken (behind : List Lexeme) : EStateM.Result Problem State α → Prop
  | .ok _ stop => stop.lexemes <:+ behind
  | .error problem stop => stop.lexemes <:+ behind ∨ problem.cause.expected = []

/-- The keywords that are listed where the label of a shape is missing. Behind `VIRTUAL`, none of
them may stand there. -/
def statementKeywords : List Keyword := [.base, .prefixes, .start, .virtual]

/-- The alternatives that are listed where the label of a shape is missing. -/
def shapeAlternatives : List Expected := statementKeywords.map .keyword ++ [.shapeLabel]

/-- What comes next is a keyword that is listed behind `VIRTUAL` and refused there again. -/
structure Repeated (r : Replacement) (first other : EStateM.Result Problem State α) : Prop where
  behind : r.front.getLast?.map Lexeme.token = some (.keyword .virtual)
  keyword : ∃ word ∈ statementKeywords, r.token.token = .keyword word
  first : ∃ problem stop, first = .error problem stop ∧
    problem.cause.expected = shapeAlternatives
  other : ∃ problem draft, other = .error problem ⟨[r.token], draft⟩ ∧
    problem.cause.expected = shapeAlternatives

/-- The outcomes of two readings side by side. -/
inductive Parallel (r : Replacement) :
    EStateM.Result Problem State α → EStateM.Result Problem State α → Prop where
  /-- both go on at the same place -/
  | alike (value : α) (draft : Draft) (inside : left <:+ r.front) :
      Parallel r (.ok value ⟨left ++ r.rest, draft⟩) (.ok value ⟨left ++ [r.token], draft⟩)
  /-- the first one has passed the place at which the tokens differ -/
  | passed (split : r.rest = lexeme :: behind) (past : (ending first).lexemes <:+ behind) :
      Parallel r first other
  /-- the first one stops and does not list the other token -/
  | unlisted (none : ∀ alternative ∈ problem.cause.expected,
      ¬ alternative.admits r.token.token) : Parallel r (.error problem stop) other
  /-- the other one stops before it comes to its last token -/
  | before (ahead : left ≠ []) :
      Parallel r first (.error problem ⟨left ++ [r.token], draft⟩)
  | taken (taken : Taken [] other) : Parallel r first other
  | repeated (repeated : Repeated r first other) : Parallel r first other

/-- Parsers that take the tokens of `begins` where these come next, and that list what they admit:
every token that a list of alternatives admits is taken there. Where a parser begins, the tokens
of `tested` are known not to come next. -/
structure Offers (begins tested : Token → Prop) (p : Parser α) : Prop where
  suffix : ∀ context state, (ending (p context state)).lexemes <:+ state.lexemes
  takes : ∀ {context lexeme behind draft}, begins lexeme.token →
    Taken behind (p context ⟨lexeme :: behind, draft⟩)
  parallel : ∀ {r : Replacement} {left draft}, left <:+ r.front →
    (left = [] → ¬ tested r.token.token) →
    Parallel r (p r.context ⟨left ++ r.rest, draft⟩) (p r.other ⟨left ++ [r.token], draft⟩)

/-- No token. -/
def Nothing : Token → Prop := fun _ => False

/-- Any token whatever. -/
def Anything : Token → Prop := fun _ => True

variable {p q : Parser α} {k : α → Parser β} {begins begins' tested : Token → Prop}

theorem Context.Alike.refl (context : Context) : Context.Alike context context := ⟨rfl, rfl⟩

theorem suffix_bind
    (first : ∀ context state, (ending (p context state)).lexemes <:+ state.lexemes)
    (later : ∀ value context state, (ending (k value context state)).lexemes <:+ state.lexemes)
    (context : Context) (state : State) :
    (ending ((p >>= k) context state)).lexemes <:+ state.lexemes := by
  have front := first context state
  rw [bind_eq]
  generalize p context state = outcome at front
  cases outcome with
  | ok value middle => exact (later value context middle).trans front
  | error => exact front

theorem Taken.of_suffix {outcome : EStateM.Result Problem State α}
    (suffix : (ending outcome).lexemes <:+ behind) : Taken behind outcome := by
  cases outcome with
  | ok => exact suffix
  | error => exact .inl suffix

theorem Taken.bind (taken : Taken behind (p context state))
    (later : ∀ value context state, (ending (k value context state)).lexemes <:+ state.lexemes) :
    Taken behind ((p >>= k) context state) := by
  rw [bind_eq]
  generalize p context state = outcome at taken
  cases outcome with
  | ok value middle => exact .of_suffix ((later value context middle).trans taken)
  | error => exact taken

/-- Where the first reading takes its token, it has passed the place, or it lists nothing. -/
theorem Parallel.of_taken (split : r.rest = lexeme :: behind)
    {first other : EStateM.Result Problem State α} (taken : Taken behind first) :
    Parallel r first other := by
  cases first with
  | ok => exact .passed split taken
  | error problem stop =>
    rcases taken with past | none
    · exact .passed split past
    · exact .unlisted fun alternative member => by rw [none] at member; cases member

theorem Parallel.bind {r : Replacement} {state state' : State} {k k' : α → Parser β}
    (first : Parallel r (p r.context state) (p r.other state'))
    (steps : ∀ value context state, (ending (k value context state)).lexemes <:+ state.lexemes)
    (steps' : ∀ value context state, (ending (k' value context state)).lexemes <:+ state.lexemes)
    (later : ∀ value left draft, left <:+ r.front →
      p r.context state = .ok value ⟨left ++ r.rest, draft⟩ →
      Parallel r (k value r.context ⟨left ++ r.rest, draft⟩)
        (k' value r.other ⟨left ++ [r.token], draft⟩)) :
    Parallel r ((p >>= k) r.context state) ((p >>= k') r.other state') := by
  rw [bind_eq, bind_eq]
  generalize outcome : p r.context state = one at first
  generalize p r.other state' = two at first
  cases first with
  | alike value draft inside => exact later value _ draft inside outcome
  | passed split past =>
    cases one with
    | ok value middle => exact .passed split ((steps value r.context middle).trans past)
    | error => exact .passed split past
  | unlisted none => exact .unlisted none
  | before ahead => exact .before ahead
  | taken taken =>
    cases two with
    | ok value middle => exact .taken (.of_suffix ((steps' value r.other middle).trans taken))
    | error => exact .taken taken
  | repeated repeated =>
    obtain ⟨behind, keyword, ⟨problem, stop, rfl, list⟩, ⟨problem', draft, rfl, list'⟩⟩ := repeated
    exact .repeated ⟨behind, keyword, ⟨problem, stop, rfl, list⟩, ⟨problem', draft, rfl, list'⟩⟩

/-- The same where it is enough, if `final` holds, that the first reading comes to an end. -/
theorem Parallel.bindOr {r : Replacement} {state state' : State} {k k' : α → Parser β}
    {final : Prop} (first : Parallel r (p r.context state) (p r.other state'))
    (steps : ∀ value context state, (ending (k value context state)).lexemes <:+ state.lexemes)
    (steps' : ∀ value context state, (ending (k' value context state)).lexemes <:+ state.lexemes)
    (later : ∀ value left draft, left <:+ r.front →
      p r.context state = .ok value ⟨left ++ r.rest, draft⟩ →
      Parallel r (k value r.context ⟨left ++ r.rest, draft⟩)
          (k' value r.other ⟨left ++ [r.token], draft⟩) ∨
        final ∧ ∃ result stop, k value r.context ⟨left ++ r.rest, draft⟩ = .ok result stop) :
    Parallel r ((p >>= k) r.context state) ((p >>= k') r.other state') ∨
      final ∧ ∃ result stop, (p >>= k) r.context state = .ok result stop := by
  by_cases ended : final ∧ ∃ result stop, (p >>= k) r.context state = .ok result stop
  · exact .inr ended
  refine .inl (first.bind steps steps' fun value left draft inside read => ?_)
  refine (later value left draft inside read).resolve_right ?_
  rintro ⟨isFinal, result, stop, read'⟩
  refine ended ⟨isFinal, result, stop, ?_⟩
  rw [bind_eq, read]
  exact read'

namespace Offers

theorem imp (offers : Offers begins tested p) (inside : ∀ token, begins' token → begins token) :
    Offers begins' tested p :=
  ⟨offers.suffix, fun begin => offers.takes (inside _ begin), offers.parallel⟩

/-- Behind a token that is the same in both readings nothing has to be tested. -/
theorem anywhere (offers : Offers begins Nothing p) : Offers begins tested p :=
  ⟨offers.suffix, offers.takes, fun inside _ => offers.parallel inside fun _ => id⟩

theorem bind (first : Offers begins tested p) {begins' : α → Token → Prop}
    (later : ∀ value, Offers (begins' value) Nothing (k value)) :
    Offers begins tested (p >>= k) where
  suffix := suffix_bind first.suffix fun value => (later value).suffix
  takes begin := (first.takes begin).bind fun value => (later value).suffix
  parallel inside untested :=
    (first.parallel inside untested).bind (fun value => (later value).suffix)
      (fun value => (later value).suffix)
      fun value _ _ inside _ => (later value).parallel inside fun _ => id

theorem done (value : α) : Offers Nothing tested (pure value) where
  suffix _ _ := List.suffix_rfl
  takes := nofun
  parallel inside _ := .alike value _ inside

theorem map (first : Offers begins tested p) (f : α → β) : Offers begins tested (f <$> p) :=
  .bind first fun value => .done (f value)

/-- A list of alternatives is right if the next token was tested for all of them. -/
theorem refused (all : ∀ alternative ∈ expected, ∀ token, alternative.admits token → tested token) :
    Offers Nothing tested (Parser.unexpected expected : Parser α) where
  suffix _ _ := List.suffix_rfl
  takes := nofun
  parallel {r left draft} inside untested := by
    cases left with
    | nil => exact .unlisted fun alternative member admitted =>
        untested rfl (all alternative member _ admitted)
    | cons lexeme left => exact .before (List.cons_ne_nil lexeme left)

theorem settle : Offers Nothing tested Parser.settle where
  suffix context state := ⟨[], congrArg State.lexemes (ending_settle context state)⟩
  takes := nofun
  parallel {r left draft} inside _ := by
    have calm : Parser.settle r.other ⟨left ++ [r.token], draft⟩ =
        .ok () ⟨left ++ [r.token], draft⟩ := by
      rw [settle_eq, r.calm]
    rw [calm]
    cases settled : Parser.settle r.context ⟨left ++ r.rest, draft⟩ with
    | ok value middle =>
      have same : middle = ⟨left ++ r.rest, draft⟩ := by
        rw [← ending_settle r.context ⟨left ++ r.rest, draft⟩, settled]
        rfl
      exact same ▸ .alike () draft inside
    | error problem stop =>
      obtain ⟨fault, rfl⟩ := lexical_of_settle settled
      exact .unlisted nofun

theorem advance : Offers Anything tested advance where
  suffix := advance_suffix
  takes {context lexeme behind draft} _ :=
    .of_suffix ⟨[], congrArg State.lexemes (ending_settle context ⟨behind, draft⟩)⟩
  parallel {r left draft} inside _ := by
    cases left with
    | nil =>
      refine .taken ?_
      rw [List.nil_append, advance_eq r.calm]
      exact List.suffix_rfl
    | cons lexeme left =>
      have settled : Offers Nothing Nothing Parser.settle := .settle
      exact settled.parallel ((List.suffix_cons lexeme left).trans inside) fun _ => id

end Offers

/-! ### Parsers that read no token -/

/-- Parsers that read no token, neither what comes next: they give the same value everywhere, or
they stop without a list of alternatives. -/
structure Checks (p : Parser α) : Prop where
  outcome : ∀ {context context'} lexemes lexemes' draft, Context.Alike context context' →
    (∃ value later, p context ⟨lexemes, draft⟩ = .ok value ⟨lexemes, later⟩ ∧
      p context' ⟨lexemes', draft⟩ = .ok value ⟨lexemes', later⟩) ∨
    ∃ problem later, p context ⟨lexemes, draft⟩ = .error problem ⟨lexemes, later⟩ ∧
      problem.cause.expected = []

namespace Checks

theorem bind (first : Checks p) (later : ∀ value, Checks (k value)) : Checks (p >>= k) := by
  refine ⟨fun lexemes lexemes' draft alike => ?_⟩
  rw [bind_eq, bind_eq]
  rcases first.outcome lexemes lexemes' draft alike with
    ⟨value, middle, read, read'⟩ | ⟨problem, middle, stopped, none⟩
  · rw [read, read']
    exact (later value).outcome lexemes lexemes' middle alike
  · rw [stopped]
    exact .inr ⟨problem, middle, rfl, none⟩

theorem drafted (act : Draft → α × Draft) : Checks fun _ state =>
    .ok (act state.draft).1 ⟨state.lexemes, (act state.draft).2⟩ :=
  ⟨fun _ _ _ _ => .inl ⟨_, _, rfl, rfl⟩⟩

theorem done (value : α) : Checks (pure value) := .drafted fun draft => (value, draft)

theorem draft : Checks Parser.draft := .drafted fun draft => (draft, draft)

theorem declare (change : Draft → Draft) : Checks (Parser.declare change) :=
  .drafted fun draft => ((), change draft)

theorem declareInline (shape : Shape) : Checks (Parser.declareInline shape) :=
  .drafted fun draft => (draft.freshLabel.1, draft.freshLabel.2.register draft.freshLabel.1 shape)

theorem objected (objection : Objection) : Checks (Parser.object objection : Parser α) :=
  ⟨fun _ _ _ _ => .inr ⟨_, _, rfl, rfl⟩⟩

theorem unbound (name : String) : Checks (Parser.unknownPrefix name : Parser α) :=
  ⟨fun _ _ _ _ => .inr ⟨_, _, rfl, rfl⟩⟩

theorem malformedEscape (flaw : Escape.Flaw) : Checks (Parser.malformedEscape flaw : Parser α) :=
  ⟨fun _ _ _ _ => .inr ⟨_, _, rfl, rfl⟩⟩

theorem absolute (text : String) : Checks (Parser.absolute text) := by
  refine ⟨fun lexemes lexemes' draft alike => ?_⟩
  rw [absolute_eq, absolute_eq, alike.check]
  cases Context.check _ text with
  | ok => exact .inl ⟨_, _, rfl, rfl⟩
  | error fault => exact .inr ⟨_, _, rfl, rfl⟩

theorem expand (space localPart : String) : Checks (Parser.expand space localPart) := by
  refine .bind .draft fun draft => ?_
  split
  · exact .absolute _
  · exact .unbound _

theorem bound (digits : List Char) : Checks (Parser.bound digits) := by
  unfold Parser.bound
  split
  · exact .done _
  · exact .objected _

theorem range (lexeme : String) : Checks (Parser.range lexeme) := by
  refine .bind (.bound _) fun least => ?_
  split
  · exact .bind (.bound _) fun _ => .done _
  · exact .done _

theorem suffix (checks : Checks p) (context : Context) (state : State) :
    (ending (p context state)).lexemes <:+ state.lexemes := by
  rcases checks.outcome state.lexemes state.lexemes state.draft (.refl context) with
    ⟨_, _, read, -⟩ | ⟨_, _, stopped, -⟩
  · exact read ▸ List.suffix_rfl
  · exact stopped ▸ List.suffix_rfl

theorem parallel {r : Replacement} (checks : Checks p) (inside : left <:+ r.front)
    (draft : Draft) :
    Parallel r (p r.context ⟨left ++ r.rest, draft⟩) (p r.other ⟨left ++ [r.token], draft⟩) := by
  rcases checks.outcome (left ++ r.rest) (left ++ [r.token]) draft r.alike with
    ⟨value, later, read, read'⟩ | ⟨problem, later, stopped, none⟩
  · rw [read, read']
    exact .alike value later inside
  · rw [stopped]
    exact .unlisted fun alternative member => by rw [none] at member; cases member

end Checks

namespace Offers

theorem checked (checks : Checks p) : Offers Nothing tested p :=
  ⟨checks.suffix, nofun, fun inside _ => checks.parallel inside _⟩

theorem objected (objection : Objection) :
    Offers Anything tested (Parser.object objection : Parser α) :=
  ⟨fun _ _ => List.suffix_rfl, fun _ => .inr rfl, fun inside _ =>
    (Checks.objected objection).parallel inside _⟩

/-- What is checked in front does not look at the next token. -/
theorem afterCheck (checks : Checks p) (later : ∀ value, Offers begins tested (k value)) :
    Offers begins tested (p >>= k) where
  suffix := suffix_bind checks.suffix fun value => (later value).suffix
  takes {context lexeme behind draft} begin := by
    rw [bind_eq]
    rcases checks.outcome (lexeme :: behind) (lexeme :: behind) draft (.refl context) with
      ⟨value, middle, read, -⟩ | ⟨problem, middle, stopped, none⟩
    · rw [read]
      exact (later value).takes begin
    · rw [stopped]
      exact .inr none
  parallel {r left draft} inside untested := by
    rw [bind_eq, bind_eq]
    rcases checks.outcome (left ++ r.rest) (left ++ [r.token]) draft r.alike with
      ⟨value, middle, read, read'⟩ | ⟨problem, middle, stopped, none⟩
    · rw [read, read']
      exact (later value).parallel inside untested
    · rw [stopped]
      exact .unlisted fun alternative member => by rw [none] at member; cases member

/-- Both readings have the same rules for malformed escapes. -/
theorem strictly (strict : Offers begins tested p) (lenient : Offers begins tested q) :
    Offers begins tested (read >>= fun context => if context.strict then p else q) where
  suffix context state := by
    change (ending ((if context.strict then p else q) context state)).lexemes <:+ _
    split
    · exact strict.suffix context state
    · exact lenient.suffix context state
  takes {context lexeme behind draft} begin := by
    change Taken behind ((if context.strict then p else q) context _)
    split
    · exact strict.takes begin
    · exact lenient.takes begin
  parallel {r left draft} inside untested := by
    change Parallel r ((if r.context.strict then p else q) r.context _)
      ((if r.other.strict then p else q) r.other _)
    rw [r.alike.strict]
    split
    · exact strict.parallel inside untested
    · exact lenient.parallel inside untested

/-! ### Tests of the next token -/

/-- The parser looks at the next token: those with a property are taken, all others are read in
the same way. -/
theorem peeked {k : Option Token → Parser α} (property : Token → Prop)
    (each : ∀ token, property token → Offers (· = token) Anything (k (some token)))
    (others : ∀ next, (∀ token ∈ next, ¬ property token) → k next = q)
    (otherwise : Offers begins (fun token => tested token ∨ property token) q) :
    Offers (fun token => property token ∨ begins token) tested (peek >>= k) where
  suffix context state := by
    change (ending (k (state.lexemes.head?.map Lexeme.token) context state)).lexemes <:+ _
    by_cases has : ∃ token ∈ state.lexemes.head?.map Lexeme.token, property token
    · obtain ⟨token, next, has⟩ := has
      rw [next]
      exact (each token has).suffix context state
    · rw [others _ fun token next has' => has ⟨token, next, has'⟩]
      exact otherwise.suffix context state
  takes {context lexeme behind draft} begin := by
    change Taken behind (k (some lexeme.token) context _)
    by_cases has : property lexeme.token
    · exact (each _ has).takes rfl
    · rw [others _ fun token next => Option.some.inj next ▸ has]
      exact otherwise.takes (begin.resolve_left has)
  parallel {r left draft} inside untested := by
    cases left with
    | cons lexeme left =>
      -- Both readings look at the same token.
      change Parallel r (k (some lexeme.token) r.context _) (k (some lexeme.token) r.other _)
      by_cases has : property lexeme.token
      · exact (each _ has).parallel inside fun empty => nomatch empty
      · rw [others _ fun token next => Option.some.inj next ▸ has]
        exact otherwise.parallel inside fun empty => nomatch empty
    | nil =>
      change Parallel r (k (r.rest.head?.map Lexeme.token) r.context ⟨r.rest, draft⟩)
        (k (some r.token.token) r.other ⟨[r.token], draft⟩)
      by_cases has : property r.token.token
      · exact .taken ((each _ has).takes rfl)
      rw [others (some r.token.token) fun token next => Option.some.inj next ▸ has]
      have same : Parallel r (q r.context ⟨r.rest, draft⟩) (q r.other ⟨[r.token], draft⟩) :=
        otherwise.parallel inside fun _ both => both.elim (untested rfl) has
      cases split : r.rest with
      | nil =>
        rw [split] at same
        change Parallel r (k none r.context ⟨[], draft⟩) _
        rwa [others none nofun]
      | cons lexeme behind =>
        rw [split] at same
        change Parallel r (k (some lexeme.token) r.context ⟨lexeme :: behind, draft⟩) _
        by_cases has' : property lexeme.token
        · exact .of_taken split ((each _ has').takes rfl)
        · rwa [others (some lexeme.token) fun token next => Option.some.inj next ▸ has']

/-- A parser for the tokens of one alternative. -/
theorem term {k : Option Token → Parser α} (alternative : Expected)
    (each : ∀ token, alternative.admits token → Offers (· = token) Anything (k (some token)))
    (others : ∀ next, (∀ token ∈ next, ¬ alternative.admits token) →
      k next = Parser.unexpected [alternative]) :
    Offers (alternative.admits ·) tested (peek >>= k) := by
  have all : ∀ other ∈ [alternative], ∀ token, other.admits token →
      tested token ∨ alternative.admits token := by
    intro other member token admitted
    obtain rfl := List.mem_singleton.mp member
    exact .inr admitted
  exact (peeked (alternative.admits ·) each others (.refused all)).imp fun _ => .inl

theorem ifNext {k : Bool → Parser α} (property : Token → Bool)
    (yes : Offers (property · = true) Anything (k true))
    (no : Offers begins (fun token => tested token ∨ property token) (k false)) :
    Offers (fun token => property token ∨ begins token) tested (next property >>= k) := by
  have looked (token : Token) (has : property token) :
      Offers (· = token) Anything (k ((some token).any property)) := by
    change Offers _ _ (k (property token))
    rw [has]
    exact yes.imp fun _ same => same ▸ has
  refine peeked (k := fun next => k (next.any property)) (property ·) looked
    (fun next none => ?_) no
  cases next with
  | none => rfl
  | some token => exact congrArg k (Bool.eq_false_iff.mpr (none token rfl))

theorem eaten {k : Bool → Parser α} (token : Token) (yes : Offers begins' Nothing (k true))
    (no : Offers begins (fun next => tested next ∨ next = token) (k false)) :
    Offers (fun next => next = token ∨ begins next) tested (eatToken token >>= k) := by
  have stepped : Offers Anything Nothing (Parser.advance >>= fun _ => k true) :=
    .bind .advance fun _ => yes
  rw [eatToken_bind]
  refine imp (ifNext (· = token) (stepped.anywhere.imp fun _ _ => trivial)
    (by simpa using no)) fun next begins => ?_
  simpa using begins

theorem expect (punct : Punct) : Offers (· = .punct punct) tested (expect punct) := by
  have all : ∀ alternative ∈ [Expected.sign punct], ∀ token, alternative.admits token →
      tested token ∨ token = .punct punct := by
    intro alternative member token admitted
    obtain rfl := List.mem_singleton.mp member
    exact .inr (of_decide_eq_true admitted)
  exact imp (eaten _ (.done _) (.refused all)) fun _ => .inl

theorem whenNext {property : Token → Bool} (offers : Offers (property · = true) Nothing p) :
    Offers (property · = true) tested (whenNext property p) := by
  have found : Offers (property · = true) Nothing (p >>= fun value => pure (some value)) :=
    .bind offers fun _ => .done _
  exact imp (ifNext property found.anywhere (.done _)) fun _ => .inl

theorem eatToken_other (other : lexeme.token ≠ token) :
    eatToken token context ⟨lexeme :: behind, draft⟩ = .ok false ⟨lexeme :: behind, draft⟩ := by
  have looked : next (· = token) context ⟨lexeme :: behind, draft⟩ =
      .ok (decide (lexeme.token = token)) ⟨lexeme :: behind, draft⟩ := rfl
  rw [eatToken, bind_eq, looked, decide_eq_false other]
  rfl

theorem eaten_other {k : Bool → Parser α} (other : lexeme.token ≠ token) :
    (eatToken token >>= k) context ⟨lexeme :: behind, draft⟩ =
      k false context ⟨lexeme :: behind, draft⟩ := by
  rw [bind_eq, eatToken_other other]

theorem eaten_same {k : Bool → Parser α} (same : lexeme.token = token) :
    (eatToken token >>= k) context ⟨lexeme :: behind, draft⟩ =
      (Parser.advance >>= fun _ => k true) context ⟨lexeme :: behind, draft⟩ := by
  have looked : next (· = token) context ⟨lexeme :: behind, draft⟩ =
      .ok (decide (lexeme.token = token)) ⟨lexeme :: behind, draft⟩ := rfl
  rw [eatToken_bind, bind_eq, looked, decide_eq_true same]
  rfl

/-- Both readings of a sign: whether it comes next may differ at the last token only. -/
theorem parallel_eaten {r : Replacement} {k : Bool → Parser α} (token : Token)
    (inside : left <:+ r.front)
    (steps : ∀ context state, (ending (k true context state)).lexemes <:+ state.lexemes)
    (yes : ∀ lexeme behind, left = lexeme :: behind → lexeme.token = token →
      Parallel r (k true r.context ⟨behind ++ r.rest, draft⟩)
        (k true r.other ⟨behind ++ [r.token], draft⟩))
    (no : (left = [] → r.token.token ≠ token) →
      Parallel r (k false r.context ⟨left ++ r.rest, draft⟩)
        (k false r.other ⟨left ++ [r.token], draft⟩)) :
    Parallel r ((eatToken token >>= k) r.context ⟨left ++ r.rest, draft⟩)
      ((eatToken token >>= k) r.other ⟨left ++ [r.token], draft⟩) := by
  have advanced : Offers Anything Nothing Parser.advance := .advance
  have taken {context lexeme behind} : Taken behind
      ((Parser.advance >>= fun _ => k true) context ⟨lexeme :: behind, draft⟩) :=
    (advanced.takes trivial).bind fun _ => steps
  cases left with
  | cons lexeme behind =>
    rw [List.cons_append, List.cons_append]
    by_cases same : lexeme.token = token
    · rw [eaten_same same, eaten_same same]
      refine (advanced.parallel inside fun _ => id).bind (fun _ => steps) (fun _ => steps)
        fun _ left draft' _ read => ?_
      obtain ⟨rest, rfl⟩ := State.mk.inj (advance_ok read)
      obtain rfl := List.append_cancel_right rest
      exact yes lexeme left rfl same
    · rw [eaten_other same, eaten_other same]
      exact no nofun
  | nil =>
    rw [List.nil_append, List.nil_append]
    by_cases last : r.token.token = token
    · rw [eaten_same last]
      exact .taken taken
    · rw [eaten_other last]
      cases split : r.rest with
      | nil =>
        have both := no fun _ => last
        rw [split] at both
        exact both
      | cons lexeme behind =>
        by_cases same : lexeme.token = token
        · rw [eaten_same same]
          exact .of_taken split taken
        · have both := no fun _ => last
          rw [split] at both
          rwa [eaten_other same]

/-! ### Steps that are repeated -/

/-- What goes on behind an answer reads on, whatever the answer is. -/
theorem suffix_answer {k : Option α → Parser β}
    (found : ∀ value context state,
      (ending (k (some value) context state)).lexemes <:+ state.lexemes)
    (missing : ∀ context state, (ending (k none context state)).lexemes <:+ state.lexemes)
    (answer : Option α) : ∀ context state,
      (ending (k answer context state)).lexemes <:+ state.lexemes := by
  cases answer with
  | some value => exact found value
  | none => exact missing

theorem suffix_upTo {step : Parser (Option α)}
    (each : ∀ context state, (ending (step context state)).lexemes <:+ state.lexemes)
    (bound : Nat) (collected : List α) (context : Context) (state : State) :
    (ending (collectUpTo step bound collected context state)).lexemes <:+ state.lexemes := by
  induction bound generalizing collected context state with
  | zero => exact List.suffix_rfl
  | succ bound ih =>
    exact suffix_bind each (suffix_answer (fun value => ih (value :: collected))
      fun _ _ => List.suffix_rfl) context state

end Offers

/-- Both bounds are far enough away, since every step takes a token. If `final` holds, a step may
give nothing in the first reading, which then comes to an end. -/
theorem Parallel.upTo {r : Replacement} {step : Parser (Option α)} {final : Prop}
    (suffix : ∀ context state, (ending (step context state)).lexemes <:+ state.lexemes)
    (consumes : Consumes step)
    (each : ∀ left draft, left <:+ r.front →
      Parallel r (step r.context ⟨left ++ r.rest, draft⟩)
          (step r.other ⟨left ++ [r.token], draft⟩) ∨
        final ∧ ∃ stop, step r.context ⟨left ++ r.rest, draft⟩ = .ok none stop)
    (inside : left <:+ r.front) (enough : (left ++ r.rest).length < bound)
    (enough' : (left ++ [r.token]).length < bound') :
    Parallel r (collectUpTo step bound collected r.context ⟨left ++ r.rest, draft⟩)
        (collectUpTo step bound' collected r.other ⟨left ++ [r.token], draft⟩) ∨
      final ∧ ∃ values stop,
        collectUpTo step bound collected r.context ⟨left ++ r.rest, draft⟩ = .ok values stop := by
  -- On the first bound: what a step leaves is shorter, and both bounds are larger than that.
  induction bound generalizing bound' left collected draft with
  | zero => exact absurd enough (Nat.not_lt_zero _)
  | succ bound ih =>
    cases bound' with
    | zero => exact absurd enough' (Nat.not_lt_zero _)
    | succ bound' =>
      rcases each left draft inside with alike | ⟨isFinal, stop, read⟩
      · rw [collectUpTo, collectUpTo]
        refine alike.bindOr
          (Offers.suffix_answer (fun _ _ _ => Offers.suffix_upTo suffix ..)
            fun _ _ => List.suffix_rfl)
          (Offers.suffix_answer (fun _ _ _ => Offers.suffix_upTo suffix ..)
            fun _ _ => List.suffix_rfl)
          fun answer left' draft' inside' read => ?_
        cases answer with
        | none => exact .inl (.alike _ draft' inside')
        | some value =>
          have fewer := consumes read
          simp only [List.length_append, List.length_singleton] at fewer enough enough' ih
          exact ih inside' (by omega) (by omega)
      · refine .inr ⟨isFinal, collected.reverse, stop, ?_⟩
        rw [collectUpTo, bind_eq, read]
        rfl

namespace Offers

theorem collect {step : Parser (Option α)} (each : Offers begins Nothing step)
    (consumes : Consumes step) : Offers begins tested (Parser.collect step) where
  suffix _ _ := suffix_upTo each.suffix ..
  takes begin := (each.takes begin).bind
    (suffix_answer (fun _ _ _ => suffix_upTo each.suffix ..) fun _ _ => List.suffix_rfl)
  parallel inside _ :=
    (Parallel.upTo each.suffix consumes (fun _ _ inside =>
      .inl (each.parallel inside fun _ => id)) inside (Nat.lt_succ_self _)
      (Nat.lt_succ_self _)).resolve_right fun impossible => impossible.1

/-- Any number of parts, each of which begins with a token. -/
theorem many {step : Parser (Option α)} {g : Phrase α} {property : Token → Prop}
    (each : Offers begins Nothing step) (sound : Sound step (optional g))
    (opens : Opens g property) : Offers begins tested (Parser.collect step) :=
  .collect each (sound.consumes opens)

/-- A part in front that may be missing: it changes nothing where none of its tokens comes next. -/
theorem skipping (first : Offers begins tested p)
    (missing : ∀ {context lexeme behind draft}, ¬ begins lexeme.token →
      ∃ value, p context ⟨lexeme :: behind, draft⟩ = .ok value ⟨lexeme :: behind, draft⟩)
    (later : ∀ value, Offers begins' Nothing (k value)) :
    Offers (fun token => begins token ∨ begins' token) tested (p >>= k) where
  suffix := suffix_bind first.suffix fun value => (later value).suffix
  takes {context lexeme behind draft} begin := by
    by_cases has : begins lexeme.token
    · exact (first.takes has).bind fun value => (later value).suffix
    · obtain ⟨value, read⟩ := missing has
      rw [bind_eq, read]
      exact (later value).takes (begin.resolve_left has)
  parallel := (first.bind later).parallel

end Offers

end Reading

end ShExCompact
