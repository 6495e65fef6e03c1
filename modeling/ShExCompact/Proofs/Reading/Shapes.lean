import ShExCompact.Proofs.Reading.Values

/-! Shape definitions and references to shapes are read as the grammar has them. -/
namespace ShExCompact.Reading

open ShExCompact.Parser (eat eatToken advance peek collect whenNext)
open Phrase (sign mark word terminal many several exactly)

variable {follow : Option Token → Prop}

theorem label_sound : Sound Parser.label Grammar.label := label_reads.sound

theorem label_complete : Complete Parser.label Grammar.label follow := label_reads.complete

theorem label_opens : Opens Grammar.label (Token.isLabel · = true) := by
  refine .terminal fun context draft token value means => ?_
  cases means with
  | blank => rfl
  | iri means => cases means <;> rfl

theorem predicate_sound : Sound Parser.predicate Grammar.predicate := predicate_reads.sound

theorem predicate_complete : Complete Parser.predicate Grammar.predicate follow :=
  predicate_reads.complete

theorem predicate_opens : Opens Grammar.predicate (Token.isPredicate · = true) := by
  refine .terminal fun context draft token value means => ?_
  cases means with
  | type => rfl
  | iri means => cases means <;> rfl

/-! ### Parts of a definition -/

/-- A token that begins no label and no predicate. -/
def EndsClause (next : Option Token) : Prop :=
  next.any Token.isLabel = false ∧ next.any Token.isPredicate = false

theorem several_sound {p : Parser α} {g : Phrase α} (sound : Sound p g)
    (opens : Opens g (property · = true)) (f : List α → β) :
    Sound (do let first ← p; return f (first :: (← collect (whenNext property p))))
      (do return f (← several g)) := by
  simp only [several, bind_assoc, pure_bind]
  exact sound.bind fun _ => ((sound.whenNext property).collectMany opens).bind fun _ => .done _

theorem several_complete {p : Parser α} {g : Phrase α} (complete : Complete p g Any)
    (opens : Opens g (property · = true)) (f : List α → β) :
    Complete (do let first ← p; return f (first :: (← collect (whenNext property p))))
      (do return f (← several g)) fun next => next.any property = false := by
  simp only [several, bind_assoc, pure_bind]
  exact complete.then fun _ => (Complete.collectMany (complete.whenSome opens)
    (.whenNone property) .any (fun _ _ => trivial) opens).result _

theorem clause_sound : Sound Parser.clause? (optional Grammar.clause) := by
  simp only [optional, Grammar.clause, Phrase.map_orElse, Phrase.orElse_assoc, map_bind, map_pure]
  refine .ifEaten _ ?_ (.ifEaten _ ?_ (.ifEaten _ (.done _) (.done none)))
  · exact several_sound label_sound label_opens fun labels => some (Parser.Clause.inherit labels)
  · exact several_sound predicate_sound predicate_opens fun predicates =>
      some (Parser.Clause.extra predicates)

theorem clause_complete : Complete Parser.clause? (some <$> Grammar.clause) EndsClause := by
  simp only [Grammar.clause, Phrase.map_orElse, map_bind, map_pure]
  refine .orElse (.ifEaten ?_) (.orElse (.unlessEaten ?_ (.ifEaten ?_))
    (.unlessEaten ?_ (.unlessEaten ?_ (.ifEaten (.done _)))))
  · exact (several_complete label_complete label_opens fun labels =>
      some (Parser.Clause.inherit labels)).mono fun _ ends => ends.1
  · exact .then (.exactly nofun)
  · exact (several_complete predicate_complete predicate_opens fun predicates =>
      some (Parser.Clause.extra predicates)).mono fun _ ends => ends.2
  · exact .then (.exactly nofun)
  · exact .then (.exactly nofun)

/-- A token that begins a part of a definition before its brace. -/
def isClause : Token → Bool
  | .punct .ampersand | .keyword .extra | .keyword .closed => true
  | _ => false

theorem clause_opens : Opens Grammar.clause (isClause · = true) := by
  refine .orElse (.then ?_) (.orElse (.then ?_) (.then ?_))
  all_goals exact (Opens.exactly _).imp fun _ same => same ▸ rfl

theorem endsClause_of_begins (begins : isClause token) : EndsClause (some token) := by
  unfold isClause at begins
  split at begins <;> first | exact ⟨rfl, rfl⟩ | cases begins

theorem clauses_complete :
    Complete (collect Parser.clause?) (many Grammar.clause) (· = some (.punct .openBrace)) := by
  have ending : Complete Parser.clause? (return none) (· = some (.punct .openBrace)) := by
    refine .unlessEaten ?_ (.unlessEaten ?_ (.unlessEaten ?_ (.done none)))
    all_goals exact .done fun _ same => same ▸ nofun
  have again : Leads Grammar.clause EndsClause EndsClause :=
    clause_opens.starts fun _ => endsClause_of_begins
  exact .collectMany clause_complete ending again (fun _ same => same ▸ ⟨rfl, rfl⟩) clause_opens

/-! ### Definitions and references -/

variable {inner : Option (Parser TripleExpr)} {inner' : Option (Phrase TripleExpr)}

theorem expression_foldl (clauses : List Parser.Clause) (shape : Shape) :
    (clauses.foldl Parser.Clause.addTo shape).expression = shape.expression := by
  induction clauses generalizing shape with
  | nil => rfl
  | cons clause clauses ih =>
    rw [List.foldl_cons, ih]
    cases clause <;> rfl

theorem noExpression (clauses : List Parser.Clause) :
    { clauses.foldl Parser.Clause.addTo Shape.empty with expression := none } =
      clauses.foldl Parser.Clause.addTo Shape.empty := by
  have kept := expression_foldl clauses Shape.empty
  generalize clauses.foldl Parser.Clause.addTo Shape.empty = shape at kept
  cases shape
  cases kept
  rfl

theorem Sound.tooDeep {k : Parser α → Parser β} {g : Phrase β} :
    Sound (Parser.deeper none >>= k) g := by
  refine .fails fun context state value stop read => ?_
  obtain ⟨_, _, impossible, _⟩ := bind_eq_ok.mp read
  cases impossible

theorem shapeDefinition_sound (deeper : Option.Rel Sound inner inner') :
    Sound (Parser.shapeDefinition inner) (Grammar.shapeDefinition inner') := by
  cases deeper with
  | none => exact .tooDeep
  | some sound =>
    refine (clause_sound.collectMany clause_opens).bind fun clauses => ?_
    refine (Sound.expectSign _).bind fun _ => ?_
    simp only [optional, Phrase.orElse_bind, bind_map_left, pure_bind, noExpression]
    refine .swap (.ifEaten _ (.done _) ?_)
    exact sound.bind fun _ => (Sound.expectSign _).bind fun _ => .done _

/-- How tightly a token that may follow a part of an expression binds: a sign that goes on with
several parts ends those that bind more tightly than it. -/
def strength : Token → Nat
  | .punct .closeBrace | .punct .closeParen => 0
  | .punct .bar => 1
  | .punct .doubleBar => 2
  | .punct .comma => 3
  | .punct .percent => 4
  | .punct .star | .punct .plus | .punct .question | .repeatRange _ => 5
  | .punct .semicolon => 6
  | .keyword keyword =>
    if (Parser.facetArgument? true keyword).isSome then 7
    else if keyword = .disjunction then 8
    else 9
  | _ => 9

/-- A token that binds less tightly than a bound. -/
def Closes (bound : Nat) : Option Token → Prop := Starts (strength · < bound)

/-- The expressions inside of a definition or parenthesis are read completely. -/
structure Whole (parser : Parser TripleExpr) (phrase : Phrase TripleExpr) : Prop where
  complete : Complete parser phrase (Closes 1)
  opens : Opens phrase (Token.isUnary · = true)

theorem shapeDefinition_complete (deeper : Option.Rel Whole inner inner') :
    Complete (Parser.shapeDefinition inner) (Grammar.shapeDefinition inner') follow := by
  cases deeper with
  | none => exact .never
  | some whole =>
    refine clauses_complete.bind (fun _ => .then (.exactly rfl)) fun clauses => ?_
    refine .then (.expectSign _) fun _ => ?_
    simp only [optional, Phrase.orElse_bind, bind_map_left, pure_bind, noExpression]
    refine .orElse (.unlessEaten (.then (whole.opens.leads_ne (by decide))) ?_) (.ifEaten (.done _))
    exact whole.complete.bind (fun _ => .then (.exactly Nat.zero_lt_one)) fun _ =>
      .then (.expectSign _) fun _ => .done _

theorem shapeDefinition_opens :
    Opens (Grammar.shapeDefinition inner') (Token.isDefinition · = true) := by
  cases inner' with
  | none => exact .never
  | some phrase =>
    have definition : Opens Grammar.clause (Token.isDefinition · = true) := by
      refine clause_opens.imp fun token begins => ?_
      unfold isClause at begins
      split at begins <;> first | rfl | cases begins
    refine .of_leads (.bind (.many definition.leads fun _ starts => starts) fun _ => ?_)
    exact .then (.exactly rfl)

theorem inPlace_sound (shape : Shape) :
    Sound (Parser.declareInline shape) (Phrase.inPlace shape) := by
  intro next context lexemes journal label stop begins read
  cases read
  exact ⟨[], lexemes, journal.inPlace shape, rfl, rfl, rfl, rfl, rfl⟩

theorem inPlace_complete (shape : Shape) :
    Complete (Parser.declareInline shape) (Phrase.inPlace shape) follow := by
  rintro context front rest journal label later calm ⟨nothing, rfl, rfl⟩ -
  obtain rfl := List.map_eq_nil_iff.mp nothing
  rfl

theorem atName_readsAt (space localPart : String) :
    ReadsAt (.atPrefixedName space localPart) (do
      let node ← Parser.expand space localPart
      advance
      return Label.iri node) fun context draft =>
        Grammar.AtNameOf context draft (.atPrefixedName space localPart) := by
  have reads : ReadsAt (.atPrefixedName space localPart) _ _ :=
    (ReadsAt.given (Gives.expand space localPart)).map Label.iri
  simp only [map_bind, map_pure] at reads
  refine reads.congr fun context draft value => ⟨fun means => ?_, ?_⟩
  · cases means with
    | name bound valid => exact ⟨_, ⟨_, bound, valid, rfl⟩, rfl⟩
  · rintro ⟨_, ⟨text, bound, valid, rfl⟩, rfl⟩
    exact .name bound valid

theorem reference_sound (begins : Option.any Token.isReference next = true) :
    SoundFrom next (Parser.shapeOrRef inner) Grammar.reference := by
  refine .peeked ?_
  split
  next => exact .left ((atName_readsAt _ _).sound fun _ _ _ means => means)
  next => exact .right (.advanced label_sound)
  next noName noSign =>
    cases next with
    | none => cases begins
    | some token =>
      rw [Option.any_some] at begins
      unfold Token.isReference at begins
      split at begins
      · exact (noName _ _ rfl).elim
      · exact (noSign rfl).elim
      · cases begins

theorem reference_complete :
    Complete (Parser.shapeOrRef inner) Grammar.reference follow := by
  refine .orElse (.readsAt fun context draft token value means => ?_) ?_
  · cases means with
    | name bound valid => exact .peeked (atName_readsAt _ _)
  · refine .peeked (Leads.then (.exactly rfl)) fun next same => same ▸ ?_
    exact .advanced label_complete

theorem reference_opens : Opens Grammar.reference (Token.isReference · = true) := by
  refine .orElse (.terminal fun context draft token value means => ?_) (.then ?_)
  · cases means
    rfl
  · exact (Opens.exactly _).imp fun _ same => same ▸ rfl

theorem shapeOrRef_sound (deeper : Option.Rel Sound inner inner') :
    Sound (Parser.shapeOrRef inner) (Grammar.shapeOrRef inner') := by
  intro next
  cases begins : next.any Token.isReference with
  | true => exact .left (reference_sound begins)
  | false =>
    refine .peeked ?_
    split
    next => cases begins
    next => cases begins
    next =>
      split
      next => exact Sound.right ((shapeDefinition_sound deeper).bind inPlace_sound) _
      next => exact Sound.refused _ _

theorem shapeOrRef_complete (deeper : Option.Rel Whole inner inner') :
    Complete (Parser.shapeOrRef inner) (Grammar.shapeOrRef inner') follow := by
  refine .orElse reference_complete ?_
  have begins : Leads (Grammar.shapeDefinition inner') Any (·.any Token.isDefinition = true) :=
    shapeDefinition_opens.leads_any fun _ begins => begins
  refine .peeked begins.then fun next begins => ?_
  split
  next => cases begins
  next => cases begins
  next =>
    rw [if_pos begins]
    exact (shapeDefinition_complete deeper).then inPlace_complete

theorem shapeOrRef_opens : Opens (Grammar.shapeOrRef inner') (Token.isShape · = true) := by
  refine .orElse (reference_opens.imp fun token begins => ?_)
    (.then (shapeDefinition_opens.imp fun token begins => ?_))
  all_goals simp [Token.isShape, begins]

/-! ### Operands -/

/-- What follows a token, if the token comes next. -/
def after (token : Token) (parser : Parser α) : Parser (Option α) := do
  if ← eatToken token then return some (← parser) else return none

theorem after_sound {p : Parser α} {g : Phrase α} (sound : Sound p g) (token : Token) :
    Sound (after token p) (optional do exactly token; g) := by
  simp only [optional, map_bind]
  exact .ifEaten token (sound.bind fun _ => .done _) (.done none)

theorem after_complete {p : Parser α} {g : Phrase α} (complete : Complete p g follow)
    (token : Token) : Complete (after token p) (some <$> do exactly token; g) follow := by
  simp only [map_bind]
  exact .ifEaten (complete.result some)

theorem operands_sound {p : Parser α} {g : Phrase α} (sound : Sound p g) (token : Token) :
    Sound (collect (after token p)) (many do exactly token; g) :=
  (after_sound sound token).collectMany (.then (.exactly token))

theorem operands_complete {p : Parser α} {g : Phrase α} {between : Option Token → Prop}
    (complete : Complete p g between) (starts : between (some token))
    (inside : ∀ next, follow next → between next) (ends : ∀ next, follow next → next ≠ some token) :
    Complete (collect (after token p)) (many do exactly token; g) follow := by
  have ending : Complete (after token p) (return none) follow :=
    .unlessEaten (.done ends) (.done none)
  exact .collectMany (after_complete complete token) ending (.then (.exactly starts)) inside
    (.then (.exactly token))

theorem operands_lead {g : Phrase α} {between : Option Token → Prop} (starts : between (some token))
    (inside : ∀ next, follow next → between next) :
    Leads (many do exactly token; g) follow between :=
  .many (.then (.exactly starts)) inside

theorem shapeRef_sound (deeper : Option.Rel Sound inner inner') :
    Sound (Parser.shapeRef inner) (Grammar.shapeRef inner') := by
  simp only [Grammar.shapeRef, Phrase.separated, bind_assoc, pure_bind]
  refine (shapeOrRef_sound deeper).bind fun first => ?_
  refine (operands_sound (shapeOrRef_sound deeper) (.keyword .disjunction)).bind fun rest => ?_
  cases rest <;> exact .done _

theorem shapeRef_complete (deeper : Option.Rel Whole inner inner') :
    Complete (Parser.shapeRef inner) (Grammar.shapeRef inner')
      (· ≠ some (.keyword .disjunction)) := by
  simp only [Grammar.shapeRef, Phrase.separated, bind_assoc, pure_bind]
  refine (shapeOrRef_complete deeper).then fun first => ?_
  refine (operands_complete (shapeOrRef_complete deeper) trivial (fun _ _ => trivial)
    fun _ ends => ends).bind (fun rest => ?_) fun rest => ?_
  · cases rest <;> exact .done fun _ ends => ends
  · cases rest <;> exact .done _

theorem shapeRef_opens : Opens (Grammar.shapeRef inner') (Token.isShape · = true) :=
  .then (.then shapeOrRef_opens)

end ShExCompact.Reading
