import ShExCompact.Proofs.Grammar.Composed
import ShExCompact.Proofs.Grammar.FlatPhrases
import ShExCompact.Proofs.Reading.Fragments
import ShExCompact.Proofs.Reading.InlineShapes
import ShExCompact.Proofs.Schemas.Parentheses

/-! Parentheses around all that stands between the braces of a definition. They take one more level,
and where that is left, the definition is read as without them. -/
namespace ShExCompact.Reading

open Phrase (sign)

/-! ### More levels -/

namespace Included

variable {g h : Phrase α} {i j : α → Phrase β}

theorem refl : Included g g := fun _ _ _ _ _ derives => derives

theorem bind (included : Included g h) (later : ∀ value, Included (i value) (j value)) :
    Included (g >>= i) (h >>= j) := by
  rintro context tokens journal value later' ⟨front, rest, inner, middle, rfl, derives, goesOn⟩
  exact ⟨front, rest, inner, middle, rfl, included derives, later _ goesOn⟩

theorem orElse {first second : Phrase α} (left : Included g first) (right : Included h second) :
    Included (g <|> h) (first <|> second) := by
  rintro context tokens journal value later (derives | derives)
  · exact .inl (left derives)
  · exact .inr (right derives)

theorem many (included : Included g h) : Included (Phrase.many g) (Phrase.many h) :=
  fun _ _ _ _ _ repeats => Phrase.Repeats.mono (fun derives => included derives) repeats

theorem optional (included : Included g h) : Included (optional g) (optional h) :=
  .orElse (.then included) .refl

theorem separated {separator : Phrase Unit} (included : Included g h) :
    Included (Phrase.separated separator g) (Phrase.separated separator h) :=
  .bind included fun _ => .bind (.many (.bind .refl fun _ => included)) fun _ => .refl

/-! What is derived at a level is derived at a wider one, production by production. -/

/-- Whatever may stand inside of a bracket may stand there at another level too. -/
def Wider (inner wider : Option (Phrase α)) : Prop :=
  ∀ phrase ∈ inner, ∃ wide ∈ wider, Included phrase wide

variable {inner wider : Option (Phrase TripleExpr)}

theorem within {phrase : Phrase α → Phrase β} {inner wider : Option (Phrase α)}
    (deeper : Wider inner wider) (each : ∀ {g h}, Included g h → Included (phrase g) (phrase h)) :
    Included (Phrase.within inner phrase) (Phrase.within wider phrase) := by
  cases inner with
  | none => exact fun _ _ _ _ _ impossible => impossible.elim
  | some narrow =>
    obtain ⟨wide, rfl, included⟩ := deeper narrow rfl
    exact each included

theorem shapeDefinition (deeper : Wider inner wider) :
    Included (Grammar.shapeDefinition inner) (Grammar.shapeDefinition wider) :=
  .within deeper fun included => .bind .refl fun _ => .bind .refl fun _ =>
    .bind (.optional included) fun _ => .refl

theorem shapeRef (deeper : Wider inner wider) :
    Included (Grammar.shapeRef inner) (Grammar.shapeRef wider) :=
  .bind (.separated (.orElse .refl (.then (.shapeDefinition deeper)))) fun _ => .refl

theorem valueClass (deeper : Wider inner wider) :
    Included (Grammar.valueClass inner) (Grammar.valueClass wider) := by
  have reference := Included.shapeRef deeper
  refine .orElse .refl (.orElse ?_ (.orElse ?_ (.orElse ?_ (.orElse .refl (.orElse ?_ .refl)))))
  · exact .bind .refl fun _ => .then (.optional reference)
  · exact .bind .refl fun _ => .then (.optional reference)
  · exact .bind .refl fun _ => .then (.optional reference)
  · exact .then reference

theorem tripleConstraint (deeper : Wider inner wider) :
    Included (Grammar.tripleConstraint inner) (Grammar.tripleConstraint wider) :=
  .bind .refl fun _ => .bind .refl fun _ => .then (.valueClass deeper)

theorem encapsulated (deeper : Wider inner wider) :
    Included (Grammar.encapsulated inner) (Grammar.encapsulated wider) :=
  .within deeper fun included => .bind .refl fun _ => .then included

theorem unary (deeper : Wider inner wider) :
    Included (Grammar.unary inner) (Grammar.unary wider) :=
  .bind .refl fun _ => .then (.orElse (.then (.tripleConstraint deeper))
    (.orElse .refl (.encapsulated deeper)))

theorem oneOf (deeper : Wider inner wider) :
    Included (Grammar.oneOf inner) (Grammar.oneOf wider) := by
  have group : Included (Grammar.group inner) (Grammar.group wider) :=
    .then (.separated (.unary deeper))
  exact .then (.separated (.then (.separated group)))

theorem nested (left : Nat) : Wider (Grammar.nested left) (Grammar.nested (left + 1)) := by
  induction left with
  | zero => exact nofun
  | succ left ih =>
    rintro _ ⟨⟩
    exact ⟨_, rfl, .oneOf ih⟩

end Included

/-! ### Problems of the text -/

theorem settle_of_calm (settled : Settled context state) :
    Parser.settle context state = .ok () state := by
  rw [settle_eq]
  cases known : context.problem with
  | none => rfl
  | some fault =>
    have some : state.lexemes ≠ [] := fun empty => by
      have calm := settled empty
      rw [known] at calm
      cases calm
    exact if_neg some

/-- A reading without a problem of the text is one with it, unless the tokens are used up. -/
theorem Stepwise.of_calm {p : Parser α} (stepwise : Stepwise p)
    (read : p context.calm state = .ok value stop) (settled : Settled context stop) :
    p context state = .ok value stop := by
  have stepped {state stop : State} (step : Parser.settle context.calm state = .ok () stop)
      (settled : Settled context stop) : Parser.settle context state = .ok () stop := by
    rw [settle_eq] at step
    cases step
    exact settle_of_calm settled
  induction stepwise generalizing state stop with
  | done | peek | drafted | stops => exact read
  | @bind α β p k _ later first next =>
    obtain ⟨inner, middle, part, read⟩ := bind_eq_ok.mp read
    have behind := (later inner).suffix context.calm middle
    rw [read] at behind
    have between : Settled context middle := fun empty =>
      settled (List.suffix_nil.mp (empty ▸ behind))
    exact bind_eq_ok.mpr ⟨inner, middle, first part between, next inner read settled⟩
  | settle => exact stepped read settled
  | advance => exact stepped read settled
  | absolute text =>
    rw [absolute_eq] at read ⊢
    exact read
  | string =>
    rw [string_eq] at read ⊢
    change (StringPlan.of context.strict _).run context.calm state = _ at read
    generalize StringPlan.of context.strict (state.lexemes.head?.map Lexeme.token) = plan at read ⊢
    cases plan with
    | behind value =>
      obtain ⟨_, middle, step, read⟩ := bind_eq_ok.mp read
      cases read
      exact bind_eq_ok.mpr ⟨(), _, stepped step settled, rfl⟩
    | inside | other => cases read
  | sized _ each => exact each _ read settled

/-! ### Definitions -/

/-- The tokens of a definition: its clauses, and its body between braces. -/
def braced (clauses body : List Token) : List Token :=
  clauses ++ .punct .openBrace :: (body ++ [.punct .closeBrace])

/-- Tokens between parentheses. -/
def enclosed (body : List Token) : List Token :=
  .punct .openParen :: (body ++ [.punct .closeParen])

theorem clause_noBrace (derives : Grammar.clause.Derives context tokens journal value later) :
    .punct .openBrace ∉ tokens := by
  have flat {tokens : List Token} (inside : ∀ token ∈ tokens, token.isFlat) :
      .punct .openBrace ∉ tokens := fun member => absurd (inside _ member) (by decide)
  rcases derives with ⟨_, _, _, _, rfl, ⟨_, rfl, rfl, -⟩, labels⟩ |
    ⟨_, _, _, _, rfl, ⟨_, rfl, rfl, -⟩, predicates⟩ | ⟨_, _, _, _, rfl, ⟨_, rfl, rfl, -⟩, rfl, -⟩
  · have names := ((Phrase.Flat.several .label).bind (fun _ => .done _) labels).2
    exact List.not_mem_cons_of_ne_of_not_mem (by decide) (flat names)
  · have names := ((Phrase.Flat.several .predicate).bind (fun _ => .done _) predicates).2
    exact List.not_mem_cons_of_ne_of_not_mem (by decide) (flat names)
  · decide

theorem clauses_noBrace
    (derives : (Phrase.many Grammar.clause).Derives context tokens journal values later) :
    .punct .openBrace ∉ tokens := by
  change Grammar.clause.Repeats context tokens journal values later at derives
  induction derives with
  | done => exact List.not_mem_nil
  | more first _ ih =>
    exact fun member => (List.mem_append.mp member).elim (clause_noBrace first) ih

/-- Where two texts first have a token, they are split alike. -/
theorem append_cons_inj {token : Token} (free : token ∉ front) (free' : token ∉ front')
    (same : front ++ token :: rest = front' ++ token :: rest') : front = front' ∧ rest = rest' := by
  have before {front rest : List Token} (free : token ∉ front) :
      (front ++ token :: rest).takeWhile (· ≠ token) = front :=
    Brace.takeWhile_front (fun c member => by simpa using ne_of_mem_of_not_mem member free)
      (by simp)
  obtain rfl : front = front' := by rw [← before free, same, before free']
  exact ⟨rfl, (List.cons.inj (List.append_cancel_left same)).2⟩

/-- A definition derives its body between the first brace and the last token. -/
theorem shapeDefinition_braced {g : Phrase TripleExpr} (noBrace : .punct .openBrace ∉ clauses) :
    (Grammar.shapeDefinition (some g)).Derives context (braced clauses body) journal shape later ↔
      ∃ values expression middle,
        (Phrase.many Grammar.clause).Derives context clauses journal values middle ∧
        (optional g).Derives context body middle expression later ∧
        shape = { values.foldl Parser.Clause.addTo Shape.empty with expression := expression } := by
  constructor
  · rintro ⟨front, _, values, _, split, derives, _, _, _, middle, rfl, ⟨_, rfl, rfl, rfl⟩, content,
      _, expression, _, rfl, inside, _, _, _, _, rfl, ⟨_, rfl, rfl, rfl⟩, rfl, rfl, rfl⟩
    change clauses ++ .punct .openBrace :: (body ++ [.punct .closeBrace]) =
      front ++ .punct .openBrace :: (content ++ [.punct .closeBrace]) at split
    obtain ⟨rfl, same⟩ := append_cons_inj noBrace (clauses_noBrace derives) split
    obtain rfl := List.append_inj_left' same rfl
    exact ⟨values, expression, middle, derives, inside, rfl⟩
  · rintro ⟨values, expression, middle, derives, inside, rfl⟩
    exact ⟨clauses, _, values, middle, rfl, derives, [.punct .openBrace], _, (), middle, rfl,
      ⟨_, rfl, rfl, rfl⟩, body, _, expression, later, rfl, inside, [.punct .closeBrace], [], (),
      later, rfl, ⟨_, rfl, rfl, rfl⟩, rfl, rfl, rfl⟩

/-! ### Parentheses around a body -/

/-- One member without anything beside it is a whole expression. -/
theorem oneOf_of_unlabelled {inner : Option (Phrase TripleExpr)}
    (derives : (Grammar.unlabelled inner).Derives context tokens journal expr later) :
    (Grammar.oneOf inner).Derives context tokens journal expr later := by
  have whole : tokens = tokens ++ [] := (List.append_nil _).symm
  have only {g : Phrase TripleExpr} {separator : Phrase Unit}
      (derives : g.Derives context tokens journal expr later) :
      (Phrase.separated separator g).Derives context tokens journal [expr] later :=
    ⟨tokens, [], expr, later, whole, derives, [], [], [], later, rfl, .done, rfl, rfl, rfl⟩
  have unary : (Grammar.unary inner).Derives context tokens journal expr later :=
    ⟨[], tokens, none, journal, rfl, .inr ⟨rfl, rfl, rfl⟩, tokens, [], expr, later, whole, derives,
      rfl, rfl, rfl⟩
  have group : (Grammar.group inner).Derives context tokens journal expr later :=
    ⟨tokens, [], [expr], later, whole, only unary, [], [], false, later, rfl, .inr ⟨rfl, rfl, rfl⟩,
      rfl, rfl, rfl⟩
  have someOf : (Grammar.someOf inner).Derives context tokens journal expr later :=
    ⟨tokens, [], [expr], later, whole, only group, rfl, rfl, rfl⟩
  exact ⟨tokens, [], [expr], later, whole, only someOf, rfl, rfl, rfl⟩

/-- Parentheses with nothing behind them leave an expression as it is. -/
theorem oneOf_enclosed {g : Phrase TripleExpr}
    (derives : g.Derives context tokens journal expr later) :
    (Grammar.oneOf (some g)).Derives context (enclosed tokens) journal expr later := by
  refine oneOf_of_unlabelled (.inr (.inr ?_))
  exact ⟨[.punct .openParen], _, (), journal, rfl, ⟨_, rfl, rfl, rfl⟩, tokens, _, expr, later, rfl,
    derives, [.punct .closeParen], [], (), later, rfl, ⟨_, rfl, rfl, rfl⟩, [], [], none, later, rfl,
    .inr ⟨rfl, rfl, rfl⟩, [], [], .empty, later, rfl,
    ⟨[], [], [], later, rfl, .done, rfl, rfl, rfl⟩, rfl, .itself rfl rfl, rfl⟩

/-- A definition is derived with one more level, and its body between parentheses as well. -/
theorem shapeDefinition_enclosed
    (derives : (Grammar.shapeDefinition (Grammar.nested left)).Derives context
      (braced clauses body) journal shape later)
    (noBrace : .punct .openBrace ∉ clauses) (some : body ≠ []) :
    (Grammar.shapeDefinition (Grammar.nested (left + 1))).Derives context
      (braced clauses (enclosed body)) journal shape later := by
  cases left with
  | zero => exact derives.elim
  | succ left =>
    obtain ⟨values, _, middle, front, inside, rfl⟩ := (shapeDefinition_braced noBrace).mp derives
    refine (shapeDefinition_braced noBrace).mpr ⟨values, _, middle, front, .inl ?_, rfl⟩
    rcases inside with inside | ⟨nothing, -, -⟩
    · obtain ⟨expression, rfl, expr⟩ := of_derives_map inside
      exact derives_map (oneOf_enclosed expr)
    · exact (some nothing).elim

/-- What is derived as a definition is read so, up to the tokens that are left. -/
theorem shapeDefinition_read (left : Nat)
    (derives : (Grammar.shapeDefinition (Grammar.nested left)).Derives context.calm
      (lexemes.map Lexeme.token) ⟨draft, []⟩ shape later)
    (settled : Settled context ⟨rest, later.draft⟩) :
    Parser.shapeDefinition (Parser.levels left) context ⟨lexemes ++ rest, draft⟩ =
      .ok shape ⟨rest, later.draft⟩ := by
  have assembled : Assembled none (Parser.shapeDefinition (Parser.levels left)) :=
    .shapeDefinition (.levels left)
  have complete : Complete (Parser.shapeDefinition (Parser.levels left))
      (Grammar.shapeDefinition (Grammar.nested left)) Any :=
    shapeDefinition_complete (levels_whole left)
  exact assembled.stepwise.of_calm (complete rfl derives trivial) settled

/-- Parentheses keep the meaning. What is put around an expression repeats it, and its entries and
cardinalities are added to those of the expression; and where one more level is left, a definition
with a body is read as the one that has it between parentheses. -/
theorem parentheses_keep :
    (∀ (expr : TripleExpr) (cardinality : Option Cardinality) (code : Actions),
      (∀ {α : Type u} (reading : TripleExpr.Interpretation α),
        reading.meaning (expr.wrap cardinality code) =
          reading.times cardinality (reading.meaning expr)) ∧
      (expr.wrap cardinality code).entries = expr.entries + ↑code.entries ∧
      (expr.wrap cardinality code).cardinalities = expr.cardinalities + ↑cardinality.toList) ∧
    ∀ {left context lexemes rest draft shape later clauses body},
      Parser.shapeDefinition (Parser.levels left) context ⟨lexemes ++ rest, draft⟩ =
        .ok shape ⟨rest, later⟩ →
      lexemes.map Lexeme.token = braced clauses body → .punct .openBrace ∉ clauses → body ≠ [] →
      ∀ {other lexemes' rest'}, context.SameMeaning other → Settled other ⟨rest', later⟩ →
        lexemes'.map Lexeme.token = braced clauses body ∨
          lexemes'.map Lexeme.token = braced clauses (enclosed body) →
        Parser.shapeDefinition (Parser.levels (left + 1)) other ⟨lexemes' ++ rest', draft⟩ =
          .ok shape ⟨rest', later⟩ := by
  constructor
  · intro expr cardinality code
    have wrapped := wrapped_iff.mpr (rfl : _ = expr.wrap cardinality code)
    exact ⟨fun reading => reading.meaning_wrapped wrapped, TripleExpr.entries_wrapped wrapped,
      TripleExpr.cardinalities_wrapped wrapped⟩
  · intro left context lexemes rest draft shape later clauses body read tokens noBrace some other
      lexemes' rest' same settled either
    have sound := shapeDefinition_sound (levels_sound left)
    obtain ⟨front, _, ⟨_, log⟩, split, ends, derives⟩ :=
      @sound _ context (lexemes ++ rest) ⟨draft, []⟩ shape ⟨rest, later⟩ rfl read
    cases ends
    obtain rfl := List.append_cancel_right split
    have calm : context.SameMeaning other.calm := ⟨same.check, same.strict⟩
    have composed : Composed Journal.Step (Grammar.shapeDefinition (Grammar.nested left)) :=
      .shapeDefinition (.nested .inPlace left)
    have derives := composed.derives calm derives
    refine shapeDefinition_read (left + 1) ?_ settled
    rcases either with plain | wrapped
    · rw [plain, ← tokens]
      exact Included.shapeDefinition (Included.nested left) derives
    · rw [wrapped]
      exact shapeDefinition_enclosed (tokens ▸ derives) noBrace some

theorem parentheses_keep_constraint :
    (Parser.shapeDefinition (Parser.levels 1) ⟨fun _ => .ok (), true, 11, none⟩
        ⟨(TokenSequence.ofText "\x7b <a:p> . \x7d".toList).lexemes ++ [], .empty⟩ =
      .ok (Settings.constrained ⟨"a:p"⟩ .anything) ⟨[], .empty⟩ ∧
    Parser.shapeDefinition (Parser.levels 2) ⟨fun _ => .ok (), true, 15, none⟩
        ⟨(TokenSequence.ofText "\x7b ( <a:p> . ) \x7d".toList).lexemes ++ [], .empty⟩ =
      .ok (Settings.constrained ⟨"a:p"⟩ .anything) ⟨[], .empty⟩) ∧
    ((TripleExpr.constraint none ⟨⟨"a:p"⟩, .anything, .oneOrMore, false, false, [], .empty⟩).wrap
      (some ⟨2, none⟩) .empty).least = 2 := by
  have read : Parser.shapeDefinition (Parser.levels 1) ⟨fun _ => .ok (), true, 11, none⟩
      ⟨(TokenSequence.ofText "\x7b <a:p> . \x7d".toList).lexemes ++ [], .empty⟩ =
    .ok (Settings.constrained ⟨"a:p"⟩ .anything) ⟨[], .empty⟩ := rfl
  have tokens : (TokenSequence.ofText "\x7b <a:p> . \x7d".toList).lexemes.map Lexeme.token =
      braced [] [.iriRef "<a:p>", .punct .dot] := rfl
  refine ⟨⟨read, ?_⟩, (parentheses_keep.1 (.constraint none _) (some ⟨2, none⟩) .empty).1 .least⟩
  exact parentheses_keep.{0}.2 read tokens (by decide) (by decide) ⟨rfl, rfl⟩ (fun _ => rfl)
    (.inr rfl)

/-- Braces may have nothing between them, and parentheses may not. -/
theorem parentheses_empty :
    (Parser.shapeDefinition (Parser.levels 1) ⟨fun _ => .ok (), true, 3, none⟩
        ⟨(TokenSequence.ofText "\x7b \x7d".toList).lexemes, .empty⟩ = .ok .empty ⟨[], .empty⟩ ∧
      ∃ problem stop, Parser.shapeDefinition (Parser.levels 2) ⟨fun _ => .ok (), true, 7, none⟩
        ⟨(TokenSequence.ofText "\x7b ( ) \x7d".toList).lexemes, .empty⟩ = .error problem stop) ∧
    Settings.default.parse "<a:s> \x7b \x7d" = .ok ⟨.empty, none, none, [(.iri ⟨"a:s"⟩, .empty)]⟩ ∧
    (Settings.default.parse "<a:s> \x7b ( ) \x7d").toOption = none := by
  refine ⟨⟨rfl, _, _, rfl⟩, ?_, ?_⟩ <;> decide +kernel

end ShExCompact.Reading
