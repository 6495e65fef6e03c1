import ShExCompact.Diagnostic
import ShExCompact.Draft
import ShExCompact.Token.Sequence

/-!
Parsers over the tokens of a document. A parser reads some tokens and changes the draft; when it
stops with a problem the draft keeps what was declared before.
-/
namespace ShExCompact

/-- What does not change while a document is read: the check that a text is an absolute IRI,
whether malformed escapes are problems, how long the text is, and the lexical problem that ends
the tokens. -/
structure Context where
  check : String → Except Iri.Fault Unit
  strict : Bool
  finish : Nat
  problem : Option LexicalProblem

/-- The tokens that are left, and the draft. -/
structure State where
  lexemes : List Lexeme
  draft : Draft

/-- A parser looks at the context, changes the state and stops at the first problem. -/
abbrev Parser := ReaderT Context (EStateM Problem State)

namespace Parser

/-- The problem at the place of a lexical one. -/
def lexicalProblem (problem : LexicalProblem) : Problem :=
  ⟨problem.extent, .lexical problem.fault problem.character⟩

/-- Stop if the tokens are used up because of a lexical problem. -/
def settle : Parser Unit := fun context state =>
  match state.lexemes, context.problem with
  | [], some problem => .error (lexicalProblem problem) state
  | _, _ => .ok () state

/-- Step over the next token. A lexical problem counts as soon as it comes next. -/
def advance : Parser Unit := fun context state =>
  settle context { state with lexemes := state.lexemes.tail }

/-- The next token, none at the end. -/
def peek : Parser (Option Token) := fun _ state =>
  .ok (state.lexemes.head?.map Lexeme.token) state

/-- The draft as it is now. -/
def draft : Parser Draft := fun _ state => .ok state.draft state

/-- Change the draft. -/
def declare (change : Draft → Draft) : Parser Unit := fun _ state =>
  .ok () { state with draft := change state.draft }

/-- The place of the next token; at the end, the empty place there. -/
def here (context : Context) (state : State) : Extent :=
  match state.lexemes with
  | lexeme :: _ => lexeme.extent
  | [] => ⟨context.finish, context.finish⟩

/-- The text of the next token. -/
def found (state : State) : String :=
  match state.lexemes with
  | lexeme :: _ => lexeme.text
  | [] => "end of file"

/-- Stop because the next token is none of some alternatives. -/
def unexpected (expected : List Expected) : Parser α := fun context state =>
  .error ⟨here context state, .unexpected (found state) expected⟩ state

/-- Stop because the next token means nothing. -/
def object (objection : Objection) : Parser α := fun context state =>
  .error ⟨here context state, .meaningless (found state) objection⟩ state

/-- Stop because the prefix of the next token is not bound. -/
def unknownPrefix (name : String) : Parser α := fun context state =>
  .error ⟨here context state, .unknownPrefix name⟩ state

/-- Whether the next token has a property. -/
def next (property : Token → Bool) : Parser Bool := do
  return (← peek).any property

/-- Whether a sign comes next. -/
def isNext (sign : Punct) : Parser Bool := next (· = .punct sign)

/-- Step over a token if it comes next; the answer is whether it did. -/
def eatToken (token : Token) : Parser Bool := do
  if ← next (· = token) then
    advance
    return true
  else return false

/-- Step over a sign if it comes next. -/
def eat (sign : Punct) : Parser Bool := eatToken (.punct sign)

/-- Step over a keyword if it comes next. -/
def eatKeyword (word : Keyword) : Parser Bool := eatToken (.keyword word)

/-- Step over a sign that has to come next. -/
def expect (sign : Punct) : Parser Unit := do
  unless ← eat sign do unexpected [.sign sign]

/-- Collect what a step gives until it gives nothing, `bound` times at most. -/
def collectUpTo (step : Parser (Option α)) : (bound : Nat) → (collected : List α) → Parser (List α)
  | 0, collected => pure collected.reverse
  | bound + 1, collected => do
    match ← step with
    | some value => collectUpTo step bound (value :: collected)
    | none => pure collected.reverse

/-- Collect what a step gives until it gives nothing. A step that gives something reads a token,
so there are no more steps than tokens. -/
def collect (step : Parser (Option α)) : Parser (List α) := fun context state =>
  collectUpTo step (state.lexemes.length + 1) [] context state

/-- Run a parser if the next token has a property. -/
def whenNext (property : Token → Bool) (parser : Parser α) : Parser (Option α) := do
  if ← next property then return some (← parser) else return none

end Parser

end ShExCompact
