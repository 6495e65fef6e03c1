import ShExCompact.Proofs.Reading.Shapes

/-! Triple expressions are read as the grammar has them. -/
namespace ShExCompact.Reading

open ShExCompact.Parser (eat eatToken advance peek collect whenNext)
open Phrase (sign mark word terminal many separated exactly)

variable {follow : Option Token → Prop} {inner : Option (Parser TripleExpr)}
  {inner' : Option (Phrase TripleExpr)}

/-! ### Strength -/

theorem Closes.mono (closes : Closes bound next) (less : bound ≤ bound') : Closes bound' next := by
  cases next with
  | none => exact closes
  | some token => exact Nat.lt_of_lt_of_le closes less

theorem Closes.ne (closes : Closes bound next) (strong : bound ≤ strength token) :
    next ≠ some token := by
  rintro rfl
  exact Nat.not_lt.mpr strong closes

theorem Closes.none_has (closes : Closes bound next) {property : Token → Bool}
    (strong : ∀ token, property token → bound ≤ strength token) : next.any property = false := by
  cases next with
  | none => rfl
  | some token =>
    rw [Option.any_some, Bool.eq_false_iff]
    exact fun has => Nat.not_lt.mpr (strong token has) closes

theorem Opens.closes {g : Phrase α} (opens : Opens g property)
    (strong : ∀ token, property token → strength token = bound) (less : bound < bound') :
    Leads g follow (Closes bound') :=
  opens.starts fun token has => Nat.lt_of_le_of_lt (Nat.le_of_eq (strong token has)) less

/-! ### Value classes -/

/-- The keyword of a node kind. -/
def kindWord : NodeKind → Keyword
  | .literal => .literal
  | .iri => .iri
  | .nonLiteral => .nonLiteral
  | .blank => .blankNode

theorem nodeKind?_eq_some (known : Option.bind next Token.nodeKind? = some kind) :
    next = some (.keyword (kindWord kind)) := by
  cases next with
  | none => cases known
  | some token =>
    rw [Option.bind_some] at known
    unfold Token.nodeKind? at known
    split at known <;> cases known <;> rfl

theorem valueClass_sound (deeper : Option.Rel Sound inner inner') :
    Sound (Parser.valueClass inner) (Grammar.valueClass inner') := by
  have reference := (shapeRef_sound deeper).whenNext Token.isShape
  refine .peeked fun next => ?_
  split
  next kind known =>
    obtain rfl := nodeKind?_eq_some known
    cases kind with
    | literal => exact .left (.advanced ((facets_sound true).bind fun _ => .done _))
    | iri =>
      exact .right (.left (.advanced (reference.bind fun _ => (facets_sound false).bind fun _ =>
        .done _)))
    | nonLiteral =>
      exact .right (.right (.left (.advanced (reference.bind fun _ => (facets_sound false).bind
        fun _ => .done _))))
    | blank => exact .right (.right (.right (.left (.advanced (reference.bind fun _ => .done _)))))
  next =>
    refine Sound.right (.right (.right (.right (.ifNext ?_ (.ifNext ?_ ?_ _) _)))) _
    · exact .left (iri_sound.bind fun _ => .done _)
    · exact .right (.right (.left (valueSet_sound.bind fun _ => .done _)))
    · have shape := (shapeRef_sound deeper).bind fun label => .done (ValueClass.reference label)
      refine Sound.weaken (.ifEaten _ (.done _) (.ifNext shape (.refused _) _)) ?_
      rintro _ _ _ _ _ (dot | reference)
      · exact .inr (.inr (.inr dot))
      · exact .inr (.inl reference)

theorem isShape_cases (begins : Token.isShape token) :
    8 ≤ strength token ∧ token.nodeKind? = none ∧ token.isIri = false := by
  simp only [Token.isShape, Bool.or_eq_true] at begins
  unfold Token.isReference Token.isDefinition at begins
  rcases begins with begins | begins
  · split at begins <;> first | exact ⟨Nat.le_succ 8, rfl, rfl⟩ | cases begins
  · split at begins <;> first | exact ⟨Nat.le_succ 8, rfl, rfl⟩ | cases begins

theorem isFacet_strength (numeric : Bool) (begins : isFacet numeric token) :
    strength token = 7 := by
  unfold isFacet at begins
  split at begins
  next keyword => cases numeric <;> cases keyword <;> first | rfl | cases begins
  next => cases begins

theorem facets_leads (numeric : Bool) : Leads (Grammar.facets numeric) (Closes 7) (Closes 8) := by
  refine .map (.many ?_ fun next ends => ends.mono (by decide))
  exact (facet_opens numeric).closes (fun _ => isFacet_strength numeric) (Nat.lt_succ_self 7)

theorem facets_closed (numeric : Bool) :
    Complete (Facets.ofList <$> collect (Parser.facet? numeric)) (Grammar.facets numeric)
      (Closes 7) :=
  (facets_complete numeric).mono fun _ ends =>
    ends.none_has fun _ begins => Nat.le_of_eq (isFacet_strength numeric begins).symm

theorem shape_complete (deeper : Option.Rel Whole inner inner') :
    Complete (whenNext Token.isShape (Parser.shapeRef inner)) (optional (Grammar.shapeRef inner'))
      (Closes 8) := by
  refine .orElse (((shapeRef_complete deeper).whenSome shapeRef_opens).mono fun _ ends => ?_)
    ((Complete.whenNone _).mono fun _ ends => ?_)
  · exact ends.ne (by decide)
  · exact ends.none_has fun _ begins => (isShape_cases begins).1

theorem Opens.noKind {g : Phrase α} (opens : Opens g property)
    (noKind : ∀ token, property token → token.nodeKind? = none) :
    Leads g follow (·.bind Token.nodeKind? = none) := by
  intro context tokens journal value later next derives _
  obtain ⟨token, rest, rfl, has⟩ := opens derives
  exact noKind token has

theorem valueClass_complete (deeper : Option.Rel Whole inner inner') :
    Complete (Parser.valueClass inner) (Grammar.valueClass inner') (Closes 7) := by
  -- One case for each alternative of the grammar: the next token takes the parser to it.
  refine .orElse ?_ (.orElse ?_ (.orElse ?_ (.orElse ?_ (.orElse ?_ (.orElse ?_ (.orElse ?_ ?_))))))
  · refine .peeked (Leads.then (.exactly rfl)) fun next same => same ▸ ?_
    exact .advanced ((facets_closed true).result _)
  · refine .peeked (Leads.then (.exactly rfl)) fun next same => same ▸ .advanced ?_
    exact (shape_complete deeper).bind (fun _ => .map (facets_leads false)) fun _ =>
      (facets_closed false).result _
  · refine .peeked (Leads.then (.exactly rfl)) fun next same => same ▸ .advanced ?_
    exact (shape_complete deeper).bind (fun _ => .map (facets_leads false)) fun _ =>
      (facets_closed false).result _
  · refine .peeked (Leads.then (.exactly rfl)) fun next same => same ▸ .advanced ?_
    exact (shape_complete deeper).bind (fun _ => .done fun _ ends => ends.mono (by decide))
      fun _ => .done _
  · refine .peeked (Leads.then (iri_opens.noKind ?_)) fun next noKind => noKind ▸ ?_
    · intro token begins
      cases token <;> first | rfl | cases begins
    · refine .ifNext true (.then (iri_opens.leads_any fun _ begins => begins)) ?_
      exact iri_complete.result _
  · refine .peeked (Leads.then (shapeRef_opens.noKind fun _ begins => (isShape_cases begins).2.1))
      fun next noKind => noKind ▸ ?_
    refine .ifNext false (.then (shapeRef_opens.leads_any fun _ begins => ?_)) ?_
    · exact (isShape_cases begins).2.2
    refine .ifNext false (.then (shapeRef_opens.leads_any ?_)) ?_
    · intro token begins
      exact decide_eq_false fun same => by cases same; cases begins
    · refine .unlessEaten (.then (shapeRef_opens.leads_ne nofun)) ?_
      refine .ifNext true (.then (shapeRef_opens.leads_any fun _ begins => begins)) ?_
      exact ((shapeRef_complete deeper).mono fun _ ends => ends.ne (by decide)).result _
  · refine .peeked (Leads.then (valueSet_opens.noKind fun _ same => same ▸ rfl))
      fun next noKind => noKind ▸ ?_
    refine .ifNext false (.then (valueSet_opens.leads_any fun _ same => same ▸ rfl)) ?_
    refine .ifNext true (.then (valueSet_opens.leads_any fun _ same => decide_eq_true same)) ?_
    exact valueSet_complete.result _
  · refine .peeked (Leads.then (.exactly rfl)) fun next same => same ▸ ?_
    refine .ifNext false (.then (.exactly rfl)) (.ifNext false (.then (.exactly rfl)) ?_)
    exact .ifEaten (.done _)

/-! ### Triple constraints -/

theorem annotation_sound : Sound Parser.annotation? (optional Grammar.annotation) := by
  simp only [optional, Grammar.annotation, Phrase.orElse_bind, Phrase.map_orElse, bind_assoc,
    pure_bind, map_bind, map_pure]
  refine .ifEaten _ (iri_sound.bind fun property => ?_) (.done none)
  refine .ifNext ?_ (.ifNext ?_ (.refused _) _) _
  · exact .left (iri_sound.bind fun _ => .done _)
  · exact .right (literal_sound.bind fun _ => .done _)

theorem not_isIri_of_isLiteral (begins : Token.isLiteral token) : token.isIri = false := by
  unfold Token.isLiteral at begins
  split at begins <;> first | rfl | cases begins

theorem annotation_complete :
    Complete Parser.annotation? (some <$> Grammar.annotation) EndsString := by
  simp only [Grammar.annotation, Phrase.orElse_bind, Phrase.map_orElse, bind_assoc, pure_bind,
    map_bind, map_pure]
  refine .ifEaten (iri_complete.then fun property => .orElse ?_ ?_)
  · exact .ifNext true (.then (iri_opens.leads_any fun _ begins => begins)) (iri_complete.result _)
  · refine .ifNext false (.then (literal_opens.leads_any fun _ => not_isIri_of_isLiteral)) ?_
    refine .ifNext true (.then (literal_opens.leads_any fun _ begins => begins)) ?_
    exact literal_complete.result _

theorem annotation_opens : Opens Grammar.annotation (· = .punct .semicolon) := .then (.exactly _)

theorem annotations_complete :
    Complete (collect Parser.annotation?) (many Grammar.annotation) (Closes 6) := by
  have ending : Complete Parser.annotation? (return none) (Closes 6) :=
    .unlessEaten (.done fun _ ends => ends.ne (by decide)) (.done none)
  refine .collectMany annotation_complete ending (annotation_opens.starts ?_) ?_
    annotation_opens
  · rintro token rfl
    exact ⟨nofun, nofun⟩
  · exact fun _ ends => ⟨ends.ne (by decide), fun tag => ends.ne (Nat.le_add_left 6 3)⟩

theorem annotations_leads : Leads (many Grammar.annotation) (Closes 6) (Closes 7) :=
  .many (.then (.exactly (Nat.lt_succ_self 6))) fun _ ends => ends.mono (by decide)

theorem isCardinality_strength (begins : isCardinality token) : strength token = 5 := by
  unfold isCardinality at begins
  split at begins <;> first | rfl | cases begins

theorem cardinality_closed :
    Complete Parser.cardinality? (optional Grammar.cardinality) (Closes 5) :=
  cardinality_complete.mono fun _ ends =>
    ends.none_has fun _ begins => Nat.le_of_eq (isCardinality_strength begins).symm

theorem cardinality_leads : Leads (optional Grammar.cardinality) (Closes 5) (Closes 6) := by
  refine .optional ?_ fun next ends => ends.mono (by decide)
  exact cardinality_opens.closes (fun _ => isCardinality_strength) (Nat.lt_succ_self 5)

theorem actions_closed : Complete Parser.actions Grammar.actions (Closes 4) :=
  actions_complete.mono fun _ ends => ends.ne (by decide)

theorem actions_leads : Leads Grammar.actions (Closes 4) (Closes 5) :=
  .map (.many (.then (.exactly (Nat.lt_succ_self 4))) fun _ ends => ends.mono (by decide))

theorem senseFlags_sound : Sound Parser.senseFlags Grammar.senseFlags :=
  .ifEaten _ ((Sound.eaten _).bind fun _ => .done _)
    (.ifEaten _ ((Sound.eaten _).bind fun _ => .done _) (.done _))

theorem senseFlags_complete : Complete Parser.senseFlags Grammar.senseFlags fun next =>
    next ≠ some (.punct .caret) ∧ next ≠ some (.punct .bang) := by
  refine .orElse (.ifEaten ?_) (.orElse (.unlessEaten (.then (.exactly nofun)) (.ifEaten ?_))
    (.unlessEaten ?_ (.unlessEaten ?_ (.done _))))
  · exact ((Complete.eaten _).mono fun _ ends => ends.2).result _
  · exact ((Complete.eaten _).mono fun _ ends => ends.1).result _
  · exact .done fun _ ends => ends.1
  · exact .done fun _ ends => ends.2

theorem tripleConstraint_sound (deeper : Option.Rel Sound inner inner') :
    Sound (Parser.tripleConstraint inner) (Grammar.tripleConstraint inner') := by
  refine senseFlags_sound.bind fun flags => ?_
  refine predicate_sound.bind fun property => (valueClass_sound deeper).bind fun value => ?_
  refine (annotation_sound.collectMany annotation_opens).bind fun annotations => ?_
  exact cardinality_sound.bind fun _ => actions_sound.bind fun _ => .done _

theorem tripleConstraint_complete (deeper : Option.Rel Whole inner inner') :
    Complete (Parser.tripleConstraint inner) (Grammar.tripleConstraint inner') (Closes 4) := by
  refine senseFlags_complete.bind (fun _ => .then (predicate_opens.starts ?_)) fun flags => ?_
  · rintro token begins
    constructor
    all_goals
      intro same
      cases same
      cases begins
  · refine predicate_complete.then fun property => ?_
    refine (valueClass_complete deeper).bind (fun _ => ?_) fun value => ?_
    · exact annotations_leads.bind fun _ => cardinality_leads.bind fun _ => .map actions_leads
    · refine annotations_complete.bind (fun _ => ?_) fun annotations => ?_
      · exact cardinality_leads.bind fun _ => .map actions_leads
      · exact cardinality_closed.bind (fun _ => .map actions_leads) fun _ =>
          actions_closed.result _

/-! ### Groups -/

theorem wrapped_iff : Grammar.Wrapped expression cardinality code result ↔
    result = expression.wrap cardinality code := by
  have nothing : (cardinality.isNone && code.isEmpty) = true ↔
      cardinality = none ∧ code.isEmpty := by simp
  have room : ∀ (cardinality' : Option Cardinality) (code' : Actions),
      ((cardinality.isNone || cardinality'.isNone) && (code.isEmpty || code'.isEmpty)) = true ↔
        (cardinality = none ∨ cardinality' = none) ∧ (code.isEmpty ∨ code'.isEmpty) := by simp
  unfold TripleExpr.wrap
  constructor
  · intro wrapped
    cases wrapped with
    | itself noCardinality noCode => rw [if_pos (nothing.mpr ⟨noCardinality, noCode⟩)]
    | merged some isGroup free free' =>
      subst isGroup
      rw [if_neg (mt nothing.mp some)]
      dsimp only
      rw [if_pos ((room ..).mpr ⟨free, free'⟩)]
    | around some taken =>
      rw [if_neg (mt nothing.mp some)]
      split
      next => rw [if_neg (mt (room ..).mp (taken _ _ _ _ rfl))]
      next => rfl
  · rintro rfl
    split
    next neither =>
      obtain ⟨noCardinality, noCode⟩ := nothing.mp neither
      exact .itself noCardinality noCode
    next some =>
      have some' := mt nothing.mpr some
      split
      next held members cardinality' code' =>
        split
        next free => exact .merged some' rfl ((room ..).mp free).1 ((room ..).mp free).2
        next taken =>
          refine .around some' fun _ _ _ _ same => ?_
          cases same
          exact mt (room ..).mpr taken
      next other => exact .around some' fun _ _ _ _ same => (other _ _ _ _ same).elim

theorem wrapped_eq : Phrase.choose (Grammar.Wrapped expression cardinality code) =
    pure (expression.wrap cardinality code) :=
  Phrase.ext fun _ _ _ _ _ => and_congr_right fun _ => and_congr_left fun _ => wrapped_iff

theorem encapsulated_sound (deeper : Option.Rel Sound inner inner') :
    SoundFrom (some (.punct .openParen)) (Parser.parenthesized inner)
      (Grammar.encapsulated inner') := by
  cases deeper with
  | none => exact Sound.tooDeep _
  | some sound =>
    refine .advanced (sound.bind fun expression => (Sound.expectSign _).bind fun _ => ?_)
    exact cardinality_sound.bind fun _ => actions_sound.bind fun _ => wrapped_eq ▸ .done _

theorem encapsulated_complete (deeper : Option.Rel Whole inner inner') :
    Complete (Parser.parenthesized inner) (Grammar.encapsulated inner') (Closes 4) := by
  cases deeper with
  | none => exact .never
  | some whole =>
    refine .advanced (whole.complete.bind (fun _ => .then (.exactly Nat.zero_lt_one)) ?_)
    refine fun expression => .then (.expectSign _) fun _ => ?_
    refine cardinality_closed.bind (fun _ => ?_) fun cardinality => ?_
    · exact actions_leads.bind fun _ => wrapped_eq ▸ .done fun _ ends => ends
    · simp only [wrapped_eq]
      exact actions_closed.result _

theorem unlabelled_sound (deeper : Option.Rel Sound inner inner') :
    Sound (Parser.unlabelled inner) (Grammar.unlabelled inner') := by
  have parenthesis : Sound (do
      if ← Parser.isNext .openParen then Parser.parenthesized inner
      else return .constraint none (← Parser.tripleConstraint inner))
      ((do return .constraint none (← Grammar.tripleConstraint inner')) <|>
        Grammar.encapsulated inner') := by
    refine fun next => .ifNext ?_
    by_cases same : next = some (.punct .openParen)
    · subst same
      exact .right (encapsulated_sound deeper)
    · rw [any_eq_false_of_ne same]
      exact Sound.left ((tripleConstraint_sound deeper).bind fun _ => .done _) next
  -- The parser looks for an inclusion first, the grammar has it second.
  refine Sound.weaken (.ifEaten _ (label_sound.bind fun _ => .done _) parenthesis) ?_
  rintro _ _ _ _ _ (inclusion | constraint | encapsulated)
  · exact .inr (.inl inclusion)
  · exact .inl constraint
  · exact .inr (.inr encapsulated)

/-- A token that begins a triple constraint. -/
def isConstraint (token : Token) : Bool :=
  token.isPredicate || token = .punct .caret || token = .punct .bang

theorem tripleConstraint_opens :
    Opens (Grammar.tripleConstraint inner') (isConstraint · = true) := by
  refine .of_leads (.bind ?_ fun _ => .then predicate_opens.leads)
  refine .orElse (.then (.exactly rfl)) (.orElse (.then (.exactly rfl)) (.done ?_))
  exact fun next starts => starts.imp fun token begins => by simp [isConstraint, begins]

theorem encapsulated_opens : Opens (Grammar.encapsulated inner') (· = .punct .openParen) := by
  cases inner' with
  | none => exact .never
  | some phrase => exact .then (.exactly _)

theorem unlabelled_complete (deeper : Option.Rel Whole inner inner') :
    Complete (Parser.unlabelled inner) (Grammar.unlabelled inner') (Closes 4) := by
  refine .orElse (.unlessEaten ?_ (.ifNext false ?_ ?_))
    (.orElse (.ifEaten (label_complete.result _)) (.unlessEaten ?_ (.ifNext true ?_ ?_)))
  · exact .then (tripleConstraint_opens.leads_ne nofun)
  · refine .then (tripleConstraint_opens.leads_any fun token begins => ?_)
    exact decide_eq_false fun same => by cases same; cases begins
  · exact (tripleConstraint_complete deeper).result _
  · exact encapsulated_opens.leads_ne nofun
  · exact encapsulated_opens.leads_any fun _ same => decide_eq_true same
  · exact encapsulated_complete deeper

/-- A label may be put on what follows it. -/
theorem unary_eq : Grammar.unary inner' = ((do
    sign .dollar
    let id ← Grammar.label
    return (← Grammar.unlabelled inner').withId id) <|> Grammar.unlabelled inner') := by
  simp only [Grammar.unary, optional, Phrase.orElse_bind, map_bind, bind_assoc, pure_bind,
    bind_map_left, bind_pure]

theorem unary_sound (deeper : Option.Rel Sound inner inner') :
    Sound (Parser.unary inner) (Grammar.unary inner') := by
  rw [unary_eq]
  refine .ifNext (.ifEaten _ ?_ (unlabelled_sound deeper)) (Sound.refused _) _
  exact label_sound.bind fun _ => (unlabelled_sound deeper).bind fun _ => .done _

theorem isUnary_of_isConstraint (begins : isConstraint token) : token.isUnary := by
  simp only [isConstraint, Bool.or_eq_true, decide_eq_true_eq] at begins
  rcases begins with (predicate | rfl) | rfl
  · unfold Token.isUnary
    split <;> first | rfl | exact predicate
  · rfl
  · rfl

theorem unlabelled_opens : Opens (Grammar.unlabelled inner') fun token =>
    token.isUnary = true ∧ token ≠ .punct .dollar := by
  refine .orElse (.then (tripleConstraint_opens.imp fun token begins => ⟨?_, ?_⟩))
    (.orElse (.then ((Opens.exactly _).imp fun token same => ?_))
      (encapsulated_opens.imp fun token same => ?_))
  · exact isUnary_of_isConstraint begins
  · rintro rfl
    cases begins
  · exact same ▸ ⟨rfl, nofun⟩
  · exact same ▸ ⟨rfl, nofun⟩

theorem unary_opens : Opens (Grammar.unary inner') (Token.isUnary · = true) := by
  rw [unary_eq]
  refine .orElse (.then ((Opens.exactly _).imp fun token same => same ▸ rfl)) ?_
  exact unlabelled_opens.imp fun _ begins => begins.1

theorem unary_complete (deeper : Option.Rel Whole inner inner') :
    Complete (Parser.unary inner) (Grammar.unary inner') (Closes 4) := by
  refine .ifNext true (unary_opens.leads_any fun _ begins => begins) ?_
  rw [unary_eq]
  refine .orElse (.ifEaten (label_complete.then fun _ => (unlabelled_complete deeper).result _))
    (.unlessEaten (unlabelled_opens.leads_ne ?_) (unlabelled_complete deeper))
  exact fun begins => begins.2 rfl

/-! ### Operators -/

theorem isUnary_strength (begins : Token.isUnary token) : strength token = 9 := by
  unfold Token.isUnary Token.isPredicate Token.isIri at begins
  split at begins
  case h_6 =>
    split at begins
    · rfl
    · split at begins <;> first | rfl | cases begins
  all_goals rfl

theorem combined_cons (build : List TripleExpr → TripleExpr) (first : TripleExpr)
    (rest : List TripleExpr) :
    Grammar.combined build (first :: rest) = TripleExpr.combine build first rest := by
  cases rest <;> rfl

/-- The comma after the last member of a group. -/
def trailing : Phrase Unit := do let _ ← mark .comma

theorem nextMember_sound (deeper : Option.Rel Sound inner inner') :
    Sound (Parser.nextMember? inner) (some <$> (do sign .comma; Grammar.unary inner') <|>
      (fun _ => none) <$> trailing) := by
  simp only [trailing, mark, Phrase.map_orElse, Phrase.orElse_bind, map_bind, bind_assoc, pure_bind,
    map_pure]
  have sound : Sound (Parser.nextMember? inner) _ :=
    .ifEaten (.punct .comma) ((unary_sound deeper).whenNext Token.isUnary) (.done none)
  simp only [optional, Phrase.bind_orElse, Phrase.orElse_assoc] at sound
  exact sound

theorem group_sound (deeper : Option.Rel Sound inner inner') :
    Sound (Parser.group inner) (Grammar.group inner') := by
  have members := (nextMember_sound deeper).collectUntil (.then (.exactly _))
  simp only [Grammar.group, Phrase.separated, bind_assoc, pure_bind, combined_cons]
  refine (unary_sound deeper).bind fun first => ?_
  have combined := members.bind fun rest =>
    Sound.done (TripleExpr.combine (fun members => .group none members none .empty) first rest)
  simp only [trailing, bind_assoc, pure_bind] at combined
  exact combined

theorem nextMember_complete (deeper : Option.Rel Whole inner inner') :
    Complete (Parser.nextMember? inner) (some <$> do sign .comma; Grammar.unary inner')
      (Closes 4) := by
  rw [map_bind]
  exact .ifEaten ((unary_complete deeper).whenSome unary_opens)

theorem trailing_complete :
    Complete (Parser.nextMember? inner) ((fun _ => none) <$> trailing) (Closes 3) := by
  simp only [trailing, mark, Phrase.map_orElse, Phrase.orElse_bind, map_bind, bind_assoc, pure_bind,
    map_pure]
  refine .orElse (.ifEaten ((Complete.whenNone _).mono fun _ ends => ?_))
    (.unlessEaten (.done fun _ ends => ends.ne (by decide)) (.done none))
  exact ends.none_has fun _ begins => Nat.le_of_lt (by rw [isUnary_strength begins]; decide)

theorem mark_leads : Leads (mark .comma) (Closes 3) (Closes 4) :=
  .orElse (.then (.exactly (Nat.lt_succ_self 3))) (.done fun _ ends => ends.mono (by decide))

theorem group_complete (deeper : Option.Rel Whole inner inner') :
    Complete (Parser.group inner) (Grammar.group inner') (Closes 3) := by
  have leads : Leads (do sign .comma; Grammar.unary inner') (Closes 4) (Closes 4) :=
    .then (.exactly (Nat.lt_succ_self 3))
  have members := Complete.collectUntil (nextMember_complete deeper) trailing_complete leads
    mark_leads.map (.then (.exactly _))
  simp only [Grammar.group, Phrase.separated, bind_assoc, pure_bind, combined_cons]
  refine (unary_complete deeper).bind (fun first => ?_) fun first => ?_
  · exact .bind (.many leads fun _ ends => ends) fun _ => mark_leads.map
  · have combined := members.result
      (TripleExpr.combine (fun members => .group none members none .empty) first)
    simp only [trailing, bind_assoc, pure_bind] at combined
    exact combined

/-- Operands with a sign between them. -/
theorem combine_sound {p : Parser TripleExpr} {g : Phrase TripleExpr} (sound : Sound p g)
    (punct : Punct) (build : List TripleExpr → TripleExpr) :
    Sound (do
      let first ← p
      let rest ← collect (Parser.afterSign? punct p)
      return TripleExpr.combine build first rest)
      (do return Grammar.combined build (← separated (sign punct) g)) := by
  simp only [separated, bind_assoc, pure_bind, combined_cons]
  exact sound.bind fun _ => (operands_sound sound (.punct punct)).bind fun _ => .done _

theorem combine_complete {p : Parser TripleExpr} {g : Phrase TripleExpr} (punct : Punct)
    (complete : Complete p g (Closes (strength (.punct punct) + 1)))
    (build : List TripleExpr → TripleExpr) :
    Complete (do
      let first ← p
      let rest ← collect (Parser.afterSign? punct p)
      return TripleExpr.combine build first rest)
      (do return Grammar.combined build (← separated (sign punct) g))
      (Closes (strength (.punct punct))) := by
  have starts := Nat.lt_succ_self (strength (.punct punct))
  have inside : ∀ next, Closes (strength (.punct punct)) next →
      Closes (strength (.punct punct) + 1) next :=
    fun _ ends => ends.mono (Nat.le_succ _)
  have ends : ∀ next, Closes (strength (.punct punct)) next → next ≠ some (.punct punct) :=
    fun _ ends => ends.ne (Nat.le_refl _)
  simp only [separated, bind_assoc, pure_bind, combined_cons]
  refine complete.bind (fun _ => .map (operands_lead starts inside)) fun _ => ?_
  exact (operands_complete complete starts inside ends).result _

theorem oneOf_sound (deeper : Option.Rel Sound inner inner') :
    Sound (Parser.oneOf inner) (Grammar.oneOf inner') :=
  combine_sound (combine_sound (group_sound deeper) .doubleBar (.someOf none)) .bar (.oneOf none)

theorem oneOf_complete (deeper : Option.Rel Whole inner inner') :
    Complete (Parser.oneOf inner) (Grammar.oneOf inner') (Closes 1) :=
  combine_complete .bar (combine_complete .doubleBar (group_complete deeper) (.someOf none))
    (.oneOf none)

theorem oneOf_opens : Opens (Grammar.oneOf inner') (Token.isUnary · = true) :=
  .then (.then (.then (.then (.then (.then unary_opens)))))

theorem levels_sound (left : Nat) :
    Option.Rel Sound (Parser.levels left) (Grammar.nested left) := by
  -- On the levels that are left: parentheses and shapes in place take one.
  induction left with
  | zero => exact .none
  | succ left ih => exact .some (oneOf_sound ih)

theorem levels_whole (left : Nat) :
    Option.Rel Whole (Parser.levels left) (Grammar.nested left) := by
  induction left with
  | zero => exact .none
  | succ left ih => exact .some ⟨oneOf_complete ih, oneOf_opens⟩

end ShExCompact.Reading
