import Mathlib.Logic.Relation
import ShExCompact.Document.Parser

/-! Phrases of a grammar over tokens: sequences, alternatives and repetitions of phrases, without
any order in which they are tried. A derivation threads the draft through the tokens and keeps the
shapes that were declared on the way. -/
namespace ShExCompact

/-- A shape that is declared: in place, under a generated label, or by a statement. -/
inductive Registration where
  | inPlace (label : Label) (shape : Shape)
  | stated (label : Label) (shape : Shape)

/-- A draft and the shapes that were declared on the way to it, in order. -/
structure Journal where
  draft : Draft
  log : List Registration

namespace Journal

/-- Declare a shape without a label of its own under a generated one. -/
def inPlace (shape : Shape) (journal : Journal) : Journal :=
  ⟨journal.draft.freshLabel.2.register journal.draft.freshLabel.1 shape,
    journal.log ++ [.inPlace journal.draft.freshLabel.1 shape]⟩

/-- Declare a shape under a label. -/
def stated (label : Label) (shape : Shape) (journal : Journal) : Journal :=
  ⟨journal.draft.register label shape, journal.log ++ [.stated label shape]⟩

/-- Change what a draft declares besides shapes. -/
def declare (change : Draft → Draft) (journal : Journal) : Journal :=
  ⟨change journal.draft, journal.log⟩

/-- What one part of a document does to a journal. -/
inductive Step : Journal → Journal → Prop where
  | base (reference : String) (journal : Journal) :
      Step journal (journal.declare (·.declareBase reference))
  | prefixes (name reference : String) (journal : Journal) :
      Step journal (journal.declare (·.declarePrefix name reference))
  | start (label : Label) (journal : Journal) : Step journal (journal.declare (·.setStart label))
  | startActions (code : Actions) (journal : Journal) :
      Step journal (journal.declare (·.setStartActions code))
  | inPlace (shape : Shape) (journal : Journal) : Step journal (journal.inPlace shape)
  | stated (label : Label) (shape : Shape) (journal : Journal) :
      Step journal (journal.stated label shape)

abbrev Steps : Journal → Journal → Prop := Relation.ReflTransGen Step

end Journal

/-- Which tokens derive which value, from one journal to another. -/
structure Phrase (α : Type) where
  Derives : Context → List Token → Journal → α → Journal → Prop
  steps : Derives context tokens journal value later → Journal.Steps journal later

namespace Phrase

instance : Monad Phrase where
  pure value := ⟨fun _ tokens journal result later =>
    tokens = [] ∧ result = value ∧ later = journal, by rintro _ _ _ _ _ ⟨-, -, rfl⟩; exact .refl⟩
  bind phrase next := ⟨fun context tokens journal result later =>
    ∃ front rest value middle, tokens = front ++ rest ∧
      phrase.Derives context front journal value middle ∧
      (next value).Derives context rest middle result later, by
    rintro _ _ _ _ _ ⟨_, _, _, _, -, first, second⟩
    exact (phrase.steps first).trans ((next _).steps second)⟩

instance : Alternative Phrase where
  failure := ⟨fun _ _ _ _ _ => False, nofun⟩
  orElse first second := ⟨fun context tokens journal value later =>
    first.Derives context tokens journal value later ∨
      (second ()).Derives context tokens journal value later, by
    rintro _ _ _ _ _ (derives | derives)
    · exact first.steps derives
    · exact (second ()).steps derives⟩

/-- Phrases one after the other. -/
inductive Repeats (phrase : Phrase α) (context : Context) :
    List Token → Journal → List α → Journal → Prop where
  | done : Repeats phrase context [] journal [] journal
  | more (first : phrase.Derives context front journal value middle)
      (later : Repeats phrase context rest middle values last) :
      Repeats phrase context (front ++ rest) journal (value :: values) last

theorem Repeats.snoc {phrase : Phrase α}
    (front : phrase.Repeats context tokens journal values middle)
    (last : phrase.Derives context rest middle value later) :
    phrase.Repeats context (tokens ++ rest) journal (values ++ [value]) later := by
  induction front with
  | done => simpa using Repeats.more last .done
  | more first _ ih =>
    rw [List.append_assoc]
    exact .more first (ih last)

/-- Any number of phrases. -/
def many (phrase : Phrase α) : Phrase (List α) :=
  ⟨phrase.Repeats, by
    intro _ _ _ _ _ repeats
    induction repeats with
    | done => exact .refl
    | more first _ ih => exact (phrase.steps first).trans ih⟩

/-- One phrase or more. -/
def several (phrase : Phrase α) : Phrase (List α) := do
  let first ← phrase
  let rest ← phrase.many
  return first :: rest

/-- One phrase or more, with a separator between them. -/
def separated (separator : Phrase Unit) (phrase : Phrase α) : Phrase (List α) := do
  let first ← phrase
  let rest ← many do
    separator
    phrase
  return first :: rest

/-- One token, with what it may mean. -/
def terminal (Means : Context → Draft → Token → α → Prop) : Phrase α :=
  ⟨fun context tokens journal value later =>
    ∃ token, tokens = [token] ∧ Means context journal.draft token value ∧ later = journal, by
    rintro _ _ _ _ _ ⟨-, -, -, rfl⟩
    exact .refl⟩

/-- One given token. -/
def exactly (only : Token) : Phrase Unit := terminal fun _ _ token _ => token = only

def sign (punct : Punct) : Phrase Unit := exactly (.punct punct)

def word (keyword : Keyword) : Phrase Unit := exactly (.keyword keyword)

/-- A sign that may be left out; the value is whether it stands. -/
def mark (punct : Punct) : Phrase Bool := (do sign punct; return true) <|> return false

/-- A keyword that may be left out. -/
def markWord (keyword : Keyword) : Phrase Bool := (do word keyword; return true) <|> return false

/-- A change of the journal that derives no token. -/
def change (act : Journal → Journal) (valid : ∀ journal, Journal.Step journal (act journal)) :
    Phrase Unit :=
  ⟨fun _ tokens journal _ later => tokens = [] ∧ later = act journal, by
    rintro _ _ _ _ _ ⟨-, rfl⟩
    exact .single (valid _)⟩

/-- Declare a shape in place; the value is its label. -/
def inPlace (shape : Shape) : Phrase Label :=
  ⟨fun _ tokens journal label later =>
    tokens = [] ∧ label = journal.draft.freshLabel.1 ∧ later = journal.inPlace shape, by
    rintro _ _ _ _ _ ⟨-, -, rfl⟩
    exact .single (.inPlace ..)⟩

/-- A value that is determined by a condition, without tokens. -/
def choose (Holds : α → Prop) : Phrase α :=
  ⟨fun _ tokens journal value later => tokens = [] ∧ Holds value ∧ later = journal, by
    rintro _ _ _ _ _ ⟨-, -, rfl⟩
    exact .refl⟩

/-- What stands inside of one more definition or parenthesis, if one more may be opened. -/
def within (inner : Option (Phrase α)) (phrase : Phrase α → Phrase β) : Phrase β :=
  match inner with
  | some expression => phrase expression
  | none => failure

/-! ### Laws -/

theorem ext {first second : Phrase α}
    (same : ∀ context tokens journal value later,
      first.Derives context tokens journal value later ↔
        second.Derives context tokens journal value later) : first = second := by
  have derives : first.Derives = second.Derives := by
    funext context tokens journal value later
    exact propext (same context tokens journal value later)
  cases first
  cases second
  cases derives
  rfl

theorem pure_bind (value : α) (next : α → Phrase β) : pure value >>= next = next value := by
  refine ext fun context tokens journal result later => ⟨?_, fun derives => ?_⟩
  · rintro ⟨_, rest, _, _, rfl, ⟨rfl, rfl, rfl⟩, derives⟩
    exact derives
  · exact ⟨[], tokens, value, journal, rfl, ⟨rfl, rfl, rfl⟩, derives⟩

theorem bind_pure (phrase : Phrase α) : phrase >>= pure = phrase := by
  refine ext fun context tokens journal result later => ⟨?_, fun derives => ?_⟩
  · rintro ⟨front, _, _, _, rfl, derives, rfl, rfl, rfl⟩
    rwa [List.append_nil]
  · exact ⟨tokens, [], result, later, (List.append_nil _).symm, derives, rfl, rfl, rfl⟩

theorem bind_assoc (phrase : Phrase α) (next : α → Phrase β) (last : β → Phrase γ) :
    phrase >>= next >>= last = phrase >>= fun value => next value >>= last := by
  refine ext fun context tokens journal result later => ⟨?_, ?_⟩
  · rintro ⟨_, tail, _, middle, rfl, ⟨front, rest, value, between, rfl, first, second⟩, third⟩
    exact ⟨front, rest ++ tail, value, between, List.append_assoc .., first, rest, tail, _, middle,
      rfl, second, third⟩
  · rintro ⟨front, _, value, between, rfl, first, rest, tail, _, middle, rfl, second, third⟩
    exact ⟨front ++ rest, tail, _, middle, (List.append_assoc ..).symm,
      ⟨front, rest, value, between, rfl, first, second⟩, third⟩

instance : LawfulMonad Phrase :=
  LawfulMonad.mk' Phrase bind_pure pure_bind bind_assoc

theorem orElse_bind (first second : Phrase α) (next : α → Phrase β) :
    (first <|> second) >>= next = (first >>= next <|> second >>= next) := by
  refine ext fun context tokens journal result later => ⟨?_, ?_⟩
  · rintro ⟨front, rest, value, middle, rfl, derives | derives, later⟩
    · exact .inl ⟨front, rest, value, middle, rfl, derives, later⟩
    · exact .inr ⟨front, rest, value, middle, rfl, derives, later⟩
  · rintro (⟨front, rest, value, middle, rfl, derives, later⟩ |
      ⟨front, rest, value, middle, rfl, derives, later⟩)
    · exact ⟨front, rest, value, middle, rfl, .inl derives, later⟩
    · exact ⟨front, rest, value, middle, rfl, .inr derives, later⟩

theorem bind_orElse (phrase : Phrase α) (first second : α → Phrase β) :
    (phrase >>= fun value => first value <|> second value) =
      (phrase >>= first <|> phrase >>= second) := by
  refine ext fun context tokens journal result later => ⟨?_, ?_⟩
  · rintro ⟨front, rest, value, middle, rfl, start, derives | derives⟩
    · exact .inl ⟨front, rest, value, middle, rfl, start, derives⟩
    · exact .inr ⟨front, rest, value, middle, rfl, start, derives⟩
  · rintro (⟨front, rest, value, middle, rfl, start, derives⟩ |
      ⟨front, rest, value, middle, rfl, start, derives⟩)
    · exact ⟨front, rest, value, middle, rfl, start, .inl derives⟩
    · exact ⟨front, rest, value, middle, rfl, start, .inr derives⟩

theorem map_orElse (f : α → β) (first second : Phrase α) :
    f <$> (first <|> second) = (f <$> first <|> f <$> second) := orElse_bind first second _

theorem orElse_assoc (first second third : Phrase α) :
    ((first <|> second) <|> third) = (first <|> second <|> third) :=
  ext fun _ _ _ _ _ => or_assoc

theorem orElse_comm (first second : Phrase α) : (first <|> second) = (second <|> first) :=
  ext fun _ _ _ _ _ => or_comm

theorem map_terminal (f : α → β) (Means : Context → Draft → Token → α → Prop) :
    f <$> terminal Means = terminal fun context draft token result =>
      ∃ value, Means context draft token value ∧ f value = result := by
  refine ext fun context tokens journal result later => ⟨?_, ?_⟩
  · rintro ⟨_, _, value, _, rfl, ⟨token, rfl, means, rfl⟩, rfl, rfl, rfl⟩
    exact ⟨token, rfl, ⟨value, means, rfl⟩, rfl⟩
  · rintro ⟨token, rfl, ⟨value, means, rfl⟩, rfl⟩
    exact ⟨[token], [], value, _, rfl, ⟨token, rfl, means, rfl⟩, rfl, rfl, rfl⟩

end Phrase

end ShExCompact
