import ShExCompact.Proofs.Drafts.Inlining
import ShExCompact.Proofs.Grammar.Composed
import ShExCompact.Proofs.Reading.Problems

/-! Where a parser stops with a problem, it has read the beginning of its phrase: some tokens more
would complete a derivation. The rules follow sequences, alternatives and repetitions. -/
namespace ShExCompact

/-- The check accepts a short IRI, so that whatever was begun can be completed. -/
def Context.Accepts (context : Context) : Prop := context.check "a:" = .ok ()

namespace Reading

open ShExCompact.Parser (next eat eatToken eatKeyword expect advance peek collect collectUpTo
  whenNext)
open Phrase (sign word mark exactly many several terminal)
open Journal (Inlines Steps)

variable {p : Parser α} {k : α → Parser β} {g h : Phrase α} {i : α → Phrase β}

/-! ### Phrases that go on -/

/-- A phrase that some tokens derive from every journal. -/
def GoesOn (phrase : Phrase α) : Prop :=
  ∀ ⦃context⦄, Context.Accepts context → ∀ journal,
    ∃ tokens value later, phrase.Derives context tokens journal value later

theorem GoesOn.done (value : α) : GoesOn (pure value) :=
  fun _ _ journal => ⟨[], value, journal, rfl, rfl, rfl⟩

theorem GoesOn.mono (goesOn : GoesOn g) (included : Included g h) : GoesOn h := by
  intro context accepts journal
  obtain ⟨tokens, value, later, derives⟩ := goesOn accepts journal
  exact ⟨tokens, value, later, included derives⟩

theorem GoesOn.bind (goesOn : GoesOn g) (next : ∀ value, GoesOn (i value)) :
    GoesOn (g >>= i) := by
  intro context accepts journal
  obtain ⟨front, value, middle, derives⟩ := goesOn accepts journal
  obtain ⟨rest, result, later, derives'⟩ := next value accepts middle
  exact ⟨front ++ rest, result, later, front, rest, value, middle, rfl, derives, derives'⟩

theorem GoesOn.many (phrase : Phrase α) : GoesOn (many phrase) :=
  fun _ _ journal => ⟨[], [], journal, .done⟩

theorem GoesOn.means {Means : Context → Draft → Token → α → Prop}
    (means : ∀ context draft, Context.Accepts context →
      ∃ token value, Means context draft token value) : GoesOn (terminal Means) := by
  intro context accepts journal
  obtain ⟨token, value, meaning⟩ := means context journal.draft accepts
  exact ⟨[token], value, journal, token, rfl, meaning, rfl⟩

theorem GoesOn.exactly (token : Token) : GoesOn (exactly token) :=
  .means fun _ _ _ => ⟨token, (), rfl⟩

theorem GoesOn.change {act : Journal → Journal}
    {valid : ∀ journal, Journal.Step journal (act journal)} : GoesOn (Phrase.change act valid) :=
  fun _ _ journal => ⟨[], (), act journal, rfl, rfl⟩

/-! ### Beginnings -/

/-- Tokens that begin a phrase, up to a journal in which only shapes in place were declared. More
tokens complete a derivation, in which the same shapes are declared; they may have to name an IRI. -/
structure Begun (phrase : Phrase α) (context : Context) (tokens : List Token)
    (journal later : Journal) : Prop where
  inlines : Relation.ReflTransGen Inlines journal later
  completed : Context.Accepts context → ∃ more value last,
    phrase.Derives context (tokens ++ more) journal value last ∧ Steps later last

/-- A parser that stops with a problem where a given token comes next has read the beginning of a
phrase, which goes on everywhere. -/
structure BreaksFrom (next : Option Token) (parser : Parser α) (phrase : Phrase α) : Prop where
  goesOn : GoesOn phrase
  begun : ∀ ⦃context lexemes journal problem stop⦄, lexemes.head?.map Lexeme.token = next →
    parser context ⟨lexemes, Journal.draft journal⟩ = .error problem stop →
    ∃ front rest later, lexemes = front ++ rest ∧ stop = ⟨rest, Journal.draft later⟩ ∧
      Begun phrase context (front.map Lexeme.token) journal later

/-- A parser that stops with a problem has read the beginning of a phrase. -/
def Breaks (parser : Parser α) (phrase : Phrase α) : Prop := ∀ next, BreaksFrom next parser phrase

/-- A parser that reads a phrase, or its beginning, and declares shapes in place only. -/
structure Follows (parser : Parser α) (phrase : Phrase α) : Prop where
  sound : Sound parser phrase
  breaks : Breaks parser phrase
  inner : Composed Inlines phrase

theorem Breaks.goesOn (breaks : Breaks p g) : GoesOn g := (breaks none).goesOn

theorem Begun.mono (begun : Begun g context tokens journal later) (included : Included g h) :
    Begun h context tokens journal later where
  inlines := begun.inlines
  completed := by
    intro accepts
    obtain ⟨more, value, last, derives, steps⟩ := begun.completed accepts
    exact ⟨more, value, last, included derives, steps⟩

/-- Before its first token every phrase that goes on is begun. -/
theorem GoesOn.begun (goesOn : GoesOn g) (context : Context) (journal : Journal) :
    Begun g context [] journal journal where
  inlines := .refl
  completed := by
    intro accepts
    obtain ⟨tokens, value, later, derives⟩ := goesOn accepts journal
    exact ⟨tokens, value, later, derives, g.steps derives⟩

/-- A sequence is begun with its first part. -/
theorem Begun.first (begun : Begun g context tokens journal later)
    (goesOn : ∀ value, GoesOn (i value)) : Begun (g >>= i) context tokens journal later where
  inlines := begun.inlines
  completed := by
    intro accepts
    obtain ⟨more, value, middle, derives, steps⟩ := begun.completed accepts
    obtain ⟨rest, result, last, derives'⟩ := goesOn value accepts middle
    refine ⟨more ++ rest, result, last, ?_, steps.trans ((i value).steps derives')⟩
    exact ⟨tokens ++ more, rest, value, middle, (List.append_assoc ..).symm, derives, derives'⟩

/-- A sequence is begun with its first part and the beginning of the next one. -/
theorem Begun.after (derives : g.Derives context front journal value middle)
    (inlines : Relation.ReflTransGen Inlines journal middle)
    (begun : Begun (i value) context tokens middle later) :
    Begun (g >>= i) context (front ++ tokens) journal later where
  inlines := inlines.trans begun.inlines
  completed := by
    intro accepts
    obtain ⟨more, result, last, derives', steps⟩ := begun.completed accepts
    refine ⟨more, result, last, ?_, steps⟩
    exact ⟨front, tokens ++ more, value, middle, List.append_assoc .., derives, derives'⟩

/-! ### Sequences and alternatives -/

theorem BreaksFrom.mono (breaks : BreaksFrom token p g) (included : Included g h) :
    BreaksFrom token p h where
  goesOn := breaks.goesOn.mono included
  begun := by
    intro context lexemes journal problem stop begins stopped
    obtain ⟨front, rest, later, split, ends, begun⟩ := breaks.begun begins stopped
    exact ⟨front, rest, later, split, ends, begun.mono included⟩

theorem Breaks.mono (breaks : Breaks p g) (included : Included g h) : Breaks p h :=
  fun next => (breaks next).mono included

theorem BreaksFrom.left (breaks : BreaksFrom token p g) : BreaksFrom token p (g <|> h) :=
  breaks.mono .left

theorem BreaksFrom.right (breaks : BreaksFrom token p h) : BreaksFrom token p (g <|> h) :=
  breaks.mono .right

theorem Breaks.left (breaks : Breaks p g) : Breaks p (g <|> h) := breaks.mono .left

theorem Breaks.right (breaks : Breaks p h) : Breaks p (g <|> h) := breaks.mono .right

theorem Breaks.swap (breaks : Breaks p (g <|> h)) : Breaks p (h <|> g) :=
  Phrase.orElse_comm g h ▸ breaks

/-- A parser that stops where it began. -/
def Stays (parser : Parser α) : Prop :=
  ∀ ⦃context state problem stop⦄, parser context state = .error problem stop → stop = state

theorem Breaks.stays (stays : Stays p) (goesOn : GoesOn g) : Breaks p g := by
  refine fun next => ⟨goesOn, ?_⟩
  intro context lexemes journal problem stop begins stopped
  exact ⟨[], lexemes, journal, rfl, stays stopped, goesOn.begun context journal⟩

theorem Breaks.done (value : α) : Breaks (pure value) (pure value) :=
  .stays (fun _ _ _ _ => nofun) (.done value)

theorem Stays.bind {Meaning : Context → Draft → α → Prop} (stays : Stays p)
    (gives : Gives p Meaning) (next : ∀ value, Stays (k value)) : Stays (p >>= k) := by
  intro context state problem stop stopped
  rcases bind_eq_error.mp stopped with stopped | ⟨value, _, part, stopped⟩
  · exact stays stopped
  · obtain ⟨-, rfl⟩ := (gives ..).mp part
    exact next value stopped

theorem Stays.refused (expected : List Expected) : Stays (Parser.unexpected expected : Parser α) :=
  fun _ _ _ _ stopped => by cases stopped; rfl

theorem Stays.objected (objection : Objection) : Stays (Parser.object objection : Parser α) :=
  fun _ _ _ _ stopped => by cases stopped; rfl

theorem Breaks.refused (expected : List Expected) (goesOn : GoesOn g) :
    Breaks (Parser.unexpected expected) g := .stays (.refused expected) goesOn

theorem Breaks.objected (objection : Objection) (goesOn : GoesOn g) :
    Breaks (Parser.object objection) g := .stays (.objected objection) goesOn

theorem BreaksFrom.bind (breaks : BreaksFrom token p g) (sound : SoundFrom token p g)
    (inner : Composed Inlines g) (next : ∀ value, Breaks (k value) (i value)) :
    BreaksFrom token (p >>= k) (g >>= i) where
  goesOn := breaks.goesOn.bind fun value => (next value).goesOn
  begun := by
    intro context lexemes journal problem stop begins stopped
    rcases bind_eq_error.mp stopped with stopped | ⟨value, middle, part, stopped⟩
    · obtain ⟨front, rest, later, split, ends, begun⟩ := breaks.begun begins stopped
      exact ⟨front, rest, later, split, ends, begun.first fun value => (next value).goesOn⟩
    · obtain ⟨front, rest, between, rfl, rfl, derives⟩ := sound begins part
      obtain ⟨front', rest', later, rfl, ends, begun⟩ := (next value _).begun rfl stopped
      refine ⟨front ++ front', rest', later, (List.append_assoc ..).symm, ends, ?_⟩
      rw [List.map_append]
      exact .after derives (inner.runs derives) begun

theorem Follows.bind (follows : Follows p g) (next : ∀ value, Breaks (k value) (i value)) :
    Breaks (p >>= k) (g >>= i) :=
  fun token => (follows.breaks token).bind (follows.sound token) follows.inner next

theorem BreaksFrom.map (breaks : BreaksFrom token p g) (f : α → β) :
    BreaksFrom token (f <$> p) (f <$> g) := by
  rw [map_eq_pure_bind, map_eq_pure_bind]
  refine ⟨breaks.goesOn.bind fun value => .done (f value), ?_⟩
  intro context lexemes journal problem stop begins stopped
  rcases bind_eq_error.mp stopped with stopped | ⟨_, _, -, impossible⟩
  · obtain ⟨front, rest, later, split, ends, begun⟩ := breaks.begun begins stopped
    exact ⟨front, rest, later, split, ends, begun.first fun value => .done (f value)⟩
  · cases impossible

theorem Breaks.map (breaks : Breaks p g) (f : α → β) : Breaks (f <$> p) (f <$> g) :=
  fun next => (breaks next).map f

theorem BreaksFrom.peeked {k : Option Token → Parser α} (breaks : BreaksFrom token (k token) g) :
    BreaksFrom token (peek >>= k) g where
  goesOn := breaks.goesOn
  begun := by
    intro context lexemes journal problem stop begins stopped
    subst begins
    exact breaks.begun rfl stopped

theorem Breaks.peeked {k : Option Token → Parser α}
    (breaks : ∀ next, BreaksFrom next (k next) g) : Breaks (peek >>= k) g :=
  fun next => .peeked (breaks next)

theorem BreaksFrom.ifNext {k : Bool → Parser α} {property : Token → Bool}
    (breaks : BreaksFrom token (k (token.any property)) g) :
    BreaksFrom token (next property >>= k) g where
  goesOn := breaks.goesOn
  begun := by
    intro context lexemes journal problem stop begins stopped
    subst begins
    exact breaks.begun rfl stopped

theorem Breaks.ifNext {k : Bool → Parser α} (yes : Breaks (k true) g) (no : Breaks (k false) g)
    (property : Token → Bool) : Breaks (next property >>= k) g := by
  intro token
  apply BreaksFrom.ifNext
  cases token.any property
  · exact no token
  · exact yes token

/-! ### Tokens -/

theorem advance_error (stopped : advance context state = .error problem stop) :
    stop = ⟨state.lexemes.tail, state.draft⟩ := by
  unfold Parser.advance Parser.settle at stopped
  split at stopped <;> cases stopped
  rfl

theorem BreaksFrom.means {k : Unit → Parser β} {Means : Context → Draft → Token → α → Prop}
    (means : ∀ context draft, Means context draft token value) (next : Breaks (k ()) (i value)) :
    BreaksFrom (some token) (advance >>= k) (terminal Means >>= i) := by
  have first (context : Context) (journal : Journal) :
      (terminal Means).Derives context [token] journal value journal :=
    ⟨token, rfl, means context journal.draft, rfl⟩
  constructor
  · intro context accepts journal
    obtain ⟨tokens, result, later, derives⟩ := next.goesOn accepts journal
    exact ⟨token :: tokens, result, later, [token], tokens, value, journal, rfl,
      first context journal, derives⟩
  · intro context lexemes journal problem stop begins stopped
    cases lexemes with
    | nil => cases begins
    | cons lexeme lexemes =>
      obtain rfl : lexeme.token = token := Option.some.inj begins
      rcases bind_eq_error.mp stopped with stopped | ⟨_, middle, part, stopped⟩
      · have begun := Begun.after (first context journal) .refl (next.goesOn.begun context journal)
        exact ⟨[lexeme], lexemes, journal, rfl, advance_error stopped, begun⟩
      · obtain rfl := advance_ok part
        obtain ⟨front, rest, later, split, ends, begun⟩ := (next _).begun rfl stopped
        exact ⟨lexeme :: front, rest, later, congrArg (lexeme :: ·) split, ends,
          .after (first context journal) .refl begun⟩

theorem BreaksFrom.advanced {k : Unit → Parser α} {i : Unit → Phrase α}
    (next : Breaks (k ()) (i ())) :
    BreaksFrom (some token) (advance >>= k) (exactly token >>= i) := .means (fun _ _ => rfl) next

/-- A token that always has the same meaning. -/
theorem BreaksFrom.constant {Means : Context → Draft → Token → α → Prop}
    (means : ∀ context draft, Means context draft token value) :
    BreaksFrom (some token) (advance >>= fun _ => pure value) (terminal Means) := by
  have breaks : BreaksFrom (some token) (advance >>= fun _ => pure value)
      (terminal Means >>= pure) := .means means (.done value)
  rwa [bind_pure] at breaks

/-- A token whose meaning has to be found before it is stepped over. -/
theorem BreaksFrom.given {Meaning : Context → Draft → α → Prop} {f : α → β} {g : Phrase β}
    (gives : Gives p Meaning) (stays : Stays p) (goesOn : GoesOn g)
    (derives : ∀ context journal value, Meaning context (Journal.draft journal) value →
      g.Derives context [token] journal (f value) journal) :
    BreaksFrom (some token) (p >>= fun value => advance >>= fun _ => pure (f value)) g where
  goesOn := goesOn
  begun := by
    intro context lexemes journal problem stop begins stopped
    cases lexemes with
    | nil => cases begins
    | cons lexeme lexemes =>
      obtain rfl : lexeme.token = token := Option.some.inj begins
      rcases bind_eq_error.mp stopped with stopped | ⟨value, _, part, stopped⟩
      · exact ⟨[], _, journal, rfl, stays stopped, goesOn.begun context journal⟩
      · obtain ⟨meaning, rfl⟩ := (gives ..).mp part
        rcases bind_eq_error.mp stopped with stopped | ⟨_, _, -, impossible⟩
        · refine ⟨[lexeme], lexemes, journal, rfl, advance_error stopped, .refl, fun _ => ?_⟩
          exact ⟨[], f value, journal, derives _ _ _ meaning, .refl⟩
        · cases impossible

theorem BreaksFrom.ifEaten {k : Bool → Parser α} (yes : Breaks (k true) g) :
    BreaksFrom (some token) (eatToken token >>= k) (do exactly token; g) := by
  have taken : BreaksFrom (some token) (advance >>= fun _ => k true) (do exactly token; g) :=
    .advanced yes
  rw [eatToken_bind]
  exact .ifNext (by simpa using taken)

theorem Breaks.eatenOr {k : Bool → Parser α}
    (yes : BreaksFrom (some token) (eatToken token >>= k) g) (no : Breaks (k false) g) :
    Breaks (eatToken token >>= k) g := by
  intro next
  by_cases same : next = some token
  · subst same
    exact yes
  · have other : next.any (fun t => decide (t = token)) = false := by
      cases next with
      | none => rfl
      | some t => simpa using same
    rw [eatToken_bind]
    apply BreaksFrom.ifNext
    rw [other]
    exact no next

theorem Breaks.ifEaten {k : Bool → Parser α} (token : Token) (yes : Breaks (k true) g)
    (no : Breaks (k false) h) : Breaks (eatToken token >>= k) ((do exactly token; g) <|> h) :=
  .eatenOr (.left (.ifEaten yes)) no.right

theorem Follows.eaten (token : Token) :
    Follows (eatToken token) ((do exactly token; return true) <|> return false) where
  sound := .eaten token
  breaks := by
    have breaks : Breaks (eatToken token >>= pure) _ := .ifEaten token (.done true) (.done false)
    rwa [bind_pure] at breaks
  inner := .orElse (.bind (.exactly _) fun _ => .done true) (.done false)

theorem Follows.expectSign (punct : Punct) : Follows (expect punct) (sign punct) where
  sound := .expectSign punct
  breaks := by
    have taken : BreaksFrom (some (.punct punct)) (expect punct)
        (do exactly (.punct punct); pure ()) := .ifEaten (.done ())
    have refused : Breaks (if false then pure () else Parser.unexpected [.sign punct])
        (sign punct) := .refused _ (.exactly _)
    refine .eatenOr (taken.mono fun context tokens journal value later derives => ?_) refused
    obtain ⟨front, _, _, _, rfl, derives, rfl, -, rfl⟩ := derives
    rwa [List.append_nil]
  inner := .sign punct

theorem Follows.whenNext (follows : Follows p g) (property : Token → Bool) :
    Follows (whenNext property p) (optional g) where
  sound := follows.sound.whenNext property
  breaks := .ifNext (follows.bind fun value => .done (some value)).left (Breaks.done none).right
    property
  inner := .optional follows.inner

/-! ### Repetitions -/

/-- A repetition that stops with a problem has read some parts, and stops in the next one. -/
theorem Sound.upTo_error {step : Parser (Option α)} {stop : Phrase Unit}
    (sound : Sound step (some <$> g <|> (fun _ => none) <$> stop))
    (stopped : collectUpTo step bound collected context ⟨lexemes, Journal.draft journal⟩ =
      .error problem last) :
    ∃ items rest values middle, lexemes = items ++ rest ∧
      g.Repeats context (items.map Lexeme.token) journal values middle ∧
      step context ⟨rest, middle.draft⟩ = .error problem last := by
  induction bound generalizing collected lexemes journal with
  | zero => cases stopped
  | succ bound ih =>
    rcases bind_eq_error.mp stopped with stopped | ⟨answer, middle, part, stopped⟩
    · exact ⟨[], lexemes, [], journal, rfl, .done, stopped⟩
    · obtain ⟨front, rest, between, rfl, rfl, derives⟩ := sound _ rfl part
      cases answer with
      | none => cases stopped
      | some value =>
        rcases derives with first | ended
        · obtain ⟨_, same, first⟩ := of_derives_map first
          cases same
          obtain ⟨items, rest, values, middle, rfl, repeats, stopped⟩ := ih stopped
          refine ⟨front ++ items, rest, value :: values, middle, (List.append_assoc ..).symm, ?_,
            stopped⟩
          rw [List.map_append]
          exact .more first repeats
        · obtain ⟨-, impossible, -⟩ := of_derives_map ended
          cases impossible

theorem Sound.collect_error {step : Parser (Option α)} (sound : Sound step (optional g))
    (stopped : collect step context ⟨lexemes, Journal.draft journal⟩ = .error problem last) :
    ∃ items rest values middle, lexemes = items ++ rest ∧
      g.Repeats context (items.map Lexeme.token) journal values middle ∧
      step context ⟨rest, middle.draft⟩ = .error problem last := by
  rw [optional_eq] at sound
  exact sound.upTo_error stopped

theorem derives_until {stop : Phrase Unit}
    (repeats : g.Repeats context items journal values middle)
    (ended : stop.Derives context tokens middle () last) :
    (do let values ← many g; stop; return values : Phrase (List α)).Derives context
      (items ++ tokens) journal values last :=
  ⟨items, tokens, values, middle, rfl, repeats, tokens, [], (), last, (List.append_nil _).symm,
    ended, rfl, rfl, rfl⟩

theorem Breaks.collectUntil {step : Parser (Option α)} {stop : Phrase Unit}
    (sound : Sound step (some <$> g <|> (fun _ => none) <$> stop))
    (breaks : Breaks step (some <$> g <|> (fun _ => none) <$> stop))
    (inner : Composed Inlines g) (goesOn : GoesOn stop) :
    Breaks (collect step) (do let values ← many g; stop; return values) := by
  refine fun next => ⟨(GoesOn.many g).bind fun _ => goesOn.bind fun _ => .done _, ?_⟩
  intro context lexemes journal problem last begins stopped
  obtain ⟨items, rest, values, middle, rfl, repeats, stopped⟩ := sound.upTo_error stopped
  obtain ⟨front, rest, later, rfl, ends, begun⟩ := (breaks _).begun rfl stopped
  refine ⟨items ++ front, rest, later, (List.append_assoc ..).symm, ends, ?_⟩
  have front' : (many g).Derives context (items.map Lexeme.token) journal values middle := repeats
  have inlines := (Composed.many inner).runs front'
  refine ⟨inlines.trans begun.inlines, fun accepts => ?_⟩
  rw [List.map_append]
  obtain ⟨more, answer, between, derives, steps⟩ := begun.completed accepts
  rcases derives with first | ended
  · -- The part that was begun is completed, and then the repetition.
    obtain ⟨value, -, first⟩ := of_derives_map first
    obtain ⟨tokens, _, final, ended⟩ := goesOn accepts between
    have whole := derives_until (repeats.snoc first) ended
    refine ⟨more ++ tokens, values ++ [value], final, ?_, steps.trans (stop.steps ended)⟩
    rw [List.append_assoc] at whole ⊢
    rwa [List.append_assoc] at whole
  · obtain ⟨_, -, ended⟩ := of_derives_map ended
    have whole := derives_until repeats ended
    refine ⟨more, values, between, ?_, steps⟩
    rwa [List.append_assoc]

theorem Follows.collectMany {step : Parser (Option α)} (sound : Sound step (optional g))
    (breaks : Breaks step (optional g)) (inner : Composed Inlines g) (opens : Opens g property) :
    Follows (collect step) (many g) where
  sound := sound.collectMany opens
  breaks := by
    rw [optional_eq] at sound breaks
    rw [← many_eq]
    exact .collectUntil sound breaks inner (.done ())
  inner := .many inner

theorem several_of_repeats (repeats : g.Repeats context tokens journal values later)
    (some : values ≠ []) : (several g).Derives context tokens journal values later := by
  cases repeats with
  | done => exact (some rfl).elim
  | more first others => exact ⟨_, _, _, _, rfl, first, derives_map others⟩

/-- Whatever was repeated can be repeated once more. -/
theorem Breaks.several {p : Parser (List α)} (breaks : Breaks p (many g)) (goesOn : GoesOn g) :
    Breaks p (Phrase.several g) := by
  have goesOn' : GoesOn (Phrase.several g) :=
    goesOn.bind fun _ => (GoesOn.many g).bind fun _ => .done _
  refine fun next => ⟨goesOn', ?_⟩
  intro context lexemes journal problem stop begins stopped
  obtain ⟨front, rest, later, split, ends, begun⟩ := (breaks next).begun begins stopped
  refine ⟨front, rest, later, split, ends, begun.inlines, fun accepts => ?_⟩
  obtain ⟨more, values, middle, repeats, steps⟩ := begun.completed accepts
  obtain ⟨tokens, value, last, derives⟩ := goesOn accepts middle
  have longer := Phrase.Repeats.snoc repeats derives
  refine ⟨more ++ tokens, values ++ [value], last, ?_, steps.trans (g.steps derives)⟩
  rw [← List.append_assoc]
  exact several_of_repeats longer (List.append_ne_nil_of_right_ne_nil _ nofun)

end Reading

end ShExCompact
