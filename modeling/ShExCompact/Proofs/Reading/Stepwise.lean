import ShExCompact.Document.Statement

/-! Parsers step through the tokens: they look at the next token and the draft, step over tokens one
by one, and stop at the token that comes next. What holds of these steps holds of every parser. -/
namespace ShExCompact

/-- A cause that is about the next token as a whole. -/
def Cause.OfToken : Cause → Prop
  | lexical .. | malformedEscape _ => False
  | unexpected .. | meaningless .. | unknownPrefix _ => True

theorem Cause.OfToken.not_lexical (ofToken : Cause.OfToken cause) (fault : Fault)
    (character : Char) : cause ≠ .lexical fault character := by
  rintro rfl
  exact ofToken.elim

namespace Reading

open ShExCompact.Parser (advance peek here found)

/-- Parsers that are built of steps. -/
inductive Stepwise : {α : Type} → Parser α → Prop where
  | done (value : α) : Stepwise (pure value)
  | bind {p : Parser α} {k : α → Parser β} (first : Stepwise p)
      (later : ∀ value, Stepwise (k value)) : Stepwise (p >>= k)
  | peek : Stepwise peek
  /-- the draft is looked at or changed -/
  | drafted (act : Draft → α × Draft) : Stepwise fun _ state =>
      .ok (act state.draft).1 ⟨state.lexemes, (act state.draft).2⟩
  | settle : Stepwise Parser.settle
  | advance : Stepwise advance
  /-- the check of an IRI -/
  | absolute (text : String) : Stepwise (Parser.absolute text)
  /-- a string, whose problem may be inside of its token -/
  | string : Stepwise Parser.string
  | stops (cause : String → Cause) (ofToken : ∀ text, Cause.OfToken (cause text)) :
      Stepwise (fun context state =>
        (.error ⟨here context state, cause (found state)⟩ state :
          EStateM.Result Problem State α))
  /-- steps that depend on how many tokens are left -/
  | sized {k : Nat → Parser α} (each : ∀ size, Stepwise (k size)) :
      Stepwise fun context state => k state.lexemes.length context state

namespace Stepwise

variable {p : Parser α}

theorem refused (expected : List Expected) : Stepwise (Parser.unexpected expected : Parser α) :=
  .stops (.unexpected · expected) fun _ => trivial

theorem objected (objection : Objection) : Stepwise (Parser.object objection : Parser α) :=
  .stops (.meaningless · objection) fun _ => trivial

theorem unbound (name : String) : Stepwise (Parser.unknownPrefix name : Parser α) :=
  .stops (fun _ => .unknownPrefix name) fun _ => trivial

theorem draft : Stepwise Parser.draft := .drafted fun draft => (draft, draft)

theorem expand (space localPart : String) : Stepwise (Parser.expand space localPart) := by
  refine .bind .draft fun draft => ?_
  split
  · exact .absolute _
  · exact .unbound _

end Stepwise

end Reading

end ShExCompact
