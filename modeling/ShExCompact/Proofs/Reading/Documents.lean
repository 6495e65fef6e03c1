import ShExCompact.Proofs.Reading.Expressions
import ShExCompact.Settings

/-! Documents are read as the grammar has them. -/
namespace ShExCompact.Reading

open ShExCompact.Parser (eat eatToken advance peek collect directive? statement?)
open Phrase (sign mark word terminal many several exactly)

variable {follow : Option Token → Prop}

theorem declare_sound {act : Journal → Journal}
    {valid : ∀ journal, Journal.Step journal (act journal)}
    {change : Draft → Draft} (same : ∀ journal, change journal.draft = (act journal).draft) :
    Sound (Parser.declare change) (Phrase.change act valid) := by
  intro next context lexemes journal value stop begins read
  cases read
  exact ⟨[], lexemes, act journal, rfl, by rw [same], rfl, rfl⟩

theorem declare_complete {act : Journal → Journal}
    {valid : ∀ journal, Journal.Step journal (act journal)}
    {change : Draft → Draft} (same : ∀ journal, change journal.draft = (act journal).draft) :
    Complete (Parser.declare change) (Phrase.change act valid) follow := by
  rintro context front rest journal value later calm ⟨nothing, rfl⟩ -
  obtain rfl := List.map_eq_nil_iff.mp nothing
  rw [← same]
  rfl

/-! ### Directives -/

theorem base_sound :
    SoundFrom (some (.keyword .base)) Parser.baseDeclaration Grammar.directive :=
  .left (.advanced (iriRef_reads.sound.bind fun _ => declare_sound fun _ => rfl))

theorem prefix_sound :
    SoundFrom (some (.keyword .prefixes)) Parser.prefixDeclaration Grammar.directive :=
  .right (.advanced (prefixName_reads.sound.bind fun _ => iriRef_reads.sound.bind fun _ =>
    declare_sound fun _ => rfl))

theorem directive_sound : Sound directive? (optional Grammar.directive) := by
  refine .peeked fun next => ?_
  split
  next => exact .left (base_sound.map some)
  next => exact .left (prefix_sound.map some)
  next => exact Sound.right (.done none) _

theorem directive_complete : Complete directive? (some <$> Grammar.directive) follow := by
  rw [Grammar.directive, Phrase.map_orElse]
  refine .orElse ?_ ?_
  · refine .peeked (.map (.then (.exactly rfl))) fun next same => same ▸ ?_
    exact .map (.advanced (iriRef_reads.complete.then fun _ => declare_complete fun _ => rfl)) some
  · refine .peeked (.map (.then (.exactly rfl))) fun next same => same ▸ ?_
    exact .map (.advanced (prefixName_reads.complete.then fun _ =>
      iriRef_reads.complete.then fun _ => declare_complete fun _ => rfl)) some

/-- A token that begins a directive. -/
def isDirective : Token → Bool
  | .keyword .base | .keyword .prefixes => true
  | _ => false

theorem directive_opens : Opens Grammar.directive (isDirective · = true) := by
  refine .orElse (.then ?_) (.then ?_)
  all_goals exact (Opens.exactly _).imp fun _ same => same ▸ rfl

theorem directive_absent :
    Complete directive? (return none) fun next => next.any isDirective = false := by
  refine .peeked (.done fun _ ends => ends) fun next ends => ?_
  split
  next => cases ends
  next => cases ends
  next => exact .done none

theorem directives_sound : Sound (collect directive?) (many Grammar.directive) :=
  directive_sound.collectMany directive_opens

theorem directives_complete : Complete (collect directive?) (many Grammar.directive)
    fun next => next.any isDirective = false :=
  .collectMany directive_complete directive_absent .any (fun _ _ => trivial) directive_opens

/-! ### The start -/

theorem outermost_sound : Option.Rel Sound Parser.outermost Grammar.outermost := levels_sound _

theorem outermost_whole : Option.Rel Whole Parser.outermost Grammar.outermost := levels_whole _

theorem startLabel_sound : Sound Parser.startLabel Grammar.startLabel := by
  refine .ifNext (.left label_sound) (.right fun next => .ifNext ?_) _
  cases begins : next.any Token.isReference with
  | true => exact .left (reference_sound begins)
  | false =>
    refine Sound.right (.ifNext ?_ (.refused _) _) _
    exact (shapeDefinition_sound outermost_sound).bind fun _ => actions_sound.bind fun _ =>
      inPlace_sound _

theorem not_isLabel_of_isReference (begins : Token.isReference token) : token.isLabel = false := by
  unfold Token.isReference at begins
  split at begins <;> first | rfl | cases begins

theorem isDefinition_cases (begins : Token.isDefinition token) :
    token.isLabel = false ∧ token.isReference = false := by
  unfold Token.isDefinition at begins
  split at begins <;> first | exact ⟨rfl, rfl⟩ | cases begins

theorem startLabel_complete :
    Complete Parser.startLabel Grammar.startLabel (· ≠ some (.punct .percent)) := by
  refine .orElse (.ifNext true (label_opens.leads_any fun _ begins => begins) label_complete)
    (.orElse (.ifNext false ?_ (.ifNext true ?_ reference_complete))
      (.ifNext false ?_ (.ifNext false ?_ (.ifNext true ?_ ?_))))
  · exact reference_opens.leads_any fun _ => not_isLabel_of_isReference
  · exact reference_opens.leads_any fun _ begins => begins
  · exact .then (shapeDefinition_opens.leads_any fun _ begins => (isDefinition_cases begins).1)
  · exact .then (shapeDefinition_opens.leads_any fun _ begins => (isDefinition_cases begins).2)
  · exact .then (shapeDefinition_opens.leads_any fun _ begins => begins)
  · refine (shapeDefinition_complete outermost_whole).then fun _ => ?_
    exact actions_complete.bind (fun _ => .inPlace fun _ ends => ends) fun _ => inPlace_complete _

theorem start_sound :
    SoundFrom (some (.keyword .start)) Parser.startDeclaration Grammar.start :=
  .advanced ((Sound.expectSign _).bind fun _ =>
    startLabel_sound.bind fun _ => declare_sound fun _ => rfl)

theorem start_complete :
    Complete Parser.startDeclaration Grammar.start (· ≠ some (.punct .percent)) :=
  .advanced (.then (.expectSign _) fun _ => startLabel_complete.bind
    (fun _ => .silent fun _ ends => ends) fun _ => declare_complete fun _ => rfl)

/-! ### Shapes -/

theorem shapeDeclaration_sound : Sound Parser.shapeDeclaration Grammar.shape := by
  refine (Sound.eaten _).bind fun isVirtual => .ifNext ?_ (Sound.refused _) _
  refine label_sound.bind fun label => (shapeDefinition_sound outermost_sound).bind fun shape => ?_
  exact actions_sound.bind fun code => declare_sound fun _ => rfl

theorem shapeDeclaration_complete :
    Complete Parser.shapeDeclaration Grammar.shape (· ≠ some (.punct .percent)) := by
  refine (Complete.eaten _).bind (fun _ => .then (label_opens.leads_ne nofun)) fun isVirtual => ?_
  refine .ifNext true (.then (label_opens.leads_any fun _ begins => begins)) ?_
  refine label_complete.then fun label => ?_
  refine (shapeDefinition_complete outermost_whole).then fun shape => ?_
  refine actions_complete.bind (fun _ => .silent fun _ ends => ends) fun _ => ?_
  exact declare_complete fun _ => rfl

theorem shape_opens : Opens Grammar.shape fun token =>
    token = .keyword .virtual ∨ token.isLabel = true := by
  refine .of_leads (.bind ?_ fun _ => .then label_opens.leads)
  refine .orElse (.then (.exactly (.inl rfl))) (.done fun next starts => ?_)
  exact starts.imp fun _ begins => .inr begins

/-! ### Statements -/

theorem not_isDirective (begins : token = .keyword .virtual ∨ token.isLabel = true) :
    isDirective token = false := by
  rcases begins with rfl | begins
  · rfl
  · unfold isDirective
    split <;> first | rfl | cases begins

/-- What is read after a directive, or where none was found. -/
def orShape : Option Unit → Parser (Option Unit)
  | some () => return some ()
  | none => some <$> Parser.shapeDeclaration

theorem orShape_sound : Sound (directive? >>= orShape)
    (some <$> Grammar.directive <|> some <$> Grammar.shape) := by
  have sound : Sound (directive? >>= orShape) (optional Grammar.directive >>= fun
      | some () => return some ()
      | none => some <$> Grammar.shape) := by
    refine directive_sound.bind fun found => ?_
    cases found with
    | some => exact .done _
    | none => exact shapeDeclaration_sound.map some
  simp only [optional, Phrase.orElse_bind, bind_map_left, pure_bind] at sound
  exact sound

theorem orShape_directive :
    Complete (directive? >>= orShape) (some <$> Grammar.directive) follow := by
  have complete : Complete (directive? >>= orShape) (some <$> Grammar.directive >>= fun
      | some () => return some ()
      | none => failure) follow := by
    refine directive_complete.then fun found => ?_
    cases found with
    | some => exact .done _
    | none => exact .never
  rw [bind_map_left] at complete
  exact complete

theorem shape_noDirective : Leads Grammar.shape follow (·.any isDirective = false) :=
  shape_opens.leads_any fun _ => not_isDirective

theorem orShape_complete : Complete (directive? >>= orShape)
    (some <$> Grammar.directive <|> some <$> Grammar.shape) (· ≠ some (.punct .percent)) :=
  .orElse orShape_directive (.skipped directive_absent shape_noDirective.map
    (shapeDeclaration_complete.map some))

theorem statement_sound : Sound statement? (optional Grammar.statement) := by
  refine .peeked fun next => ?_
  simp only [optional, Grammar.statement, Grammar.notStartAction, Phrase.map_orElse]
  split
  next => exact Sound.right (.done none) _
  next => exact .left (.right (.left (start_sound.map some)))
  next =>
    refine Sound.weaken orShape_sound ?_ _
    rintro _ _ _ _ _ (directive | shape)
    · exact .inl (.inl directive)
    · exact .inl (.inr (.inr shape))

theorem statement_opens : Opens Grammar.statement (· ≠ .punct .percent) := by
  refine .orElse (directive_opens.imp ?_)
    (.orElse (.then ((Opens.exactly _).imp ?_)) (shape_opens.imp ?_))
  · rintro token begins rfl
    cases begins
  · rintro token rfl
    nofun
  · rintro token (rfl | begins) same <;> cases same
    cases begins

theorem orShape_noStart : Leads (some <$> Grammar.directive <|> some <$> Grammar.shape) follow
    (Starts (· ≠ .keyword .start)) := by
  refine .orElse (.map (directive_opens.starts ?_)) (.map (shape_opens.starts ?_))
  · rintro token begins rfl
    cases begins
  · rintro token (rfl | begins) same <;> cases same
    cases begins

theorem statement_complete :
    Complete statement? (some <$> Grammar.statement) (· ≠ some (.punct .percent)) := by
  have others : Complete statement? (some <$> Grammar.directive <|> some <$> Grammar.shape)
      (· ≠ some (.punct .percent)) := by
    refine .peeked orShape_noStart fun next starts => ?_
    split
    next => exact starts.elim
    next => exact (starts rfl).elim
    next => exact orShape_complete
  simp only [Grammar.statement, Grammar.notStartAction, Phrase.map_orElse]
  refine .orElse (others.of_included .left) (.orElse ?_ (others.of_included .right))
  refine .peeked (.map (.then (.exactly rfl))) fun next same => same ▸ ?_
  exact start_complete.map some

theorem statements_sound : Sound (collect statement?) (many Grammar.statement) :=
  statement_sound.collectMany statement_opens

theorem statements_complete :
    Complete (collect statement?) (many Grammar.statement) (· = none) := by
  have ending : Complete statement? (return none) (· = none) := by
    refine .peeked (.done fun _ ends => ends) fun next ends => ?_
    subst ends
    exact .done none
  refine .collectMany statement_complete ending (statement_opens.starts fun token other => ?_)
    (fun _ ends => ends ▸ nofun) statement_opens
  exact fun same => other (Option.some.inj same)

/-! ### Documents -/

theorem startActions_sound :
    SoundFrom (some (.punct .percent)) Parser.startActions Grammar.startActions := by
  have code : SoundFrom (some (.punct .percent)) Parser.actions
      (do return Dictionary.ofList (← several Grammar.action)) :=
    (SoundFrom.collectSeveral action_begins action_sound action_opens).bind fun _ => .done _
  have sound : SoundFrom (some (.punct .percent))
      (do let code ← Parser.actions; Parser.declare (·.setStartActions code))
      (do
        let code ← (do return Dictionary.ofList (← several Grammar.action))
        Phrase.change (·.declare (·.setStartActions code)) (.startActions code)) :=
    code.bind fun _ => declare_sound fun _ => rfl
  simp only [bind_assoc, pure_bind] at sound
  exact .ifNext sound

theorem startActions_absent (absent : next ≠ some (.punct .percent)) :
    SoundFrom next Parser.startActions (pure ()) := by
  refine .ifNext ?_
  rw [any_eq_false_of_ne absent]
  exact Sound.done () _

theorem settle_sound : Sound Parser.settle (pure ()) := by
  intro next context lexemes journal value stop begins read
  unfold Parser.settle at read
  split at read <;> cases read
  exact ⟨[], lexemes, journal, rfl, rfl, rfl, rfl, rfl⟩

theorem settle_complete : Complete Parser.settle (pure ()) follow := by
  rintro context front rest journal value later calm ⟨nothing, -, rfl⟩ -
  obtain rfl := List.map_eq_nil_iff.mp nothing
  unfold Parser.settle
  rw [calm]
  split <;> first | rfl | contradiction

/-- What follows the directives of a document. -/
theorem body_sound : Sound (do Parser.startActions; let _ ← collect statement?)
    ((do Grammar.startActions; let _ ← many Grammar.statement) <|>
      do let _ ← many Grammar.statement) := by
  have statements : Sound (do let _ ← collect statement?) (do let _ ← many Grammar.statement) :=
    statements_sound.bind fun _ => .done ()
  intro next
  by_cases same : next = some (.punct .percent)
  · subst same
    exact .left (startActions_sound.bind fun _ => statements)
  · have sound := (startActions_absent same).bind fun _ => statements
    rw [pure_bind] at sound
    exact .right sound

/-- The directives at the beginning of the statements of a document are directives before them. -/
theorem document_of_statements
    (directives : Grammar.directive.Repeats context front journal values middle)
    (statements : Grammar.statement.Repeats context rest middle others later) :
    Grammar.document.Derives context (front ++ rest) journal () later := by
  induction statements generalizing front values with
  | done => exact ⟨front, [], values, _, rfl, directives, .inr ⟨rfl, rfl, rfl⟩⟩
  | more first more ih =>
    rcases first with directive | notStartAction
    · rw [← List.append_assoc]
      exact ih (directives.snoc directive)
    · exact ⟨front, _, values, _, rfl, directives, .inl ⟨_, _, (), _, rfl, .inl notStartAction,
        _, [], _, _, (List.append_nil _).symm, more, rfl, rfl, rfl⟩⟩

theorem document_sound : Sound Parser.document Grammar.document := by
  have sound : Sound Parser.document _ :=
    settle_sound.bind fun _ => directives_sound.bind fun _ => body_sound
  refine sound.weaken ?_
  rw [pure_bind]
  rintro context tokens journal value later
    ⟨front, rest, directives, middle, rfl, repeats, startActions | statements⟩
  · obtain ⟨front', rest, _, between, rfl, startActions, statements⟩ := startActions
    exact ⟨front, _, directives, middle, rfl, repeats, .inl ⟨front', rest, (), between, rfl,
      .inr startActions, statements⟩⟩
  · obtain ⟨statements, _, _, _, rfl, others, rfl, -, rfl⟩ := statements
    rw [List.append_nil]
    exact document_of_statements repeats others

theorem startActions_complete :
    Complete Parser.startActions Grammar.startActions (· ≠ some (.punct .percent)) := by
  have several : Complete Parser.actions (do return Dictionary.ofList (← several Grammar.action))
      (· ≠ some (.punct .percent)) := actions_complete.of_included Included.several.then
  have complete : Complete
      (do let code ← Parser.actions; Parser.declare (·.setStartActions code))
      (do
        let code ← (do return Dictionary.ofList (← Phrase.several Grammar.action))
        Phrase.change (·.declare (·.setStartActions code)) (.startActions code))
      (· ≠ some (.punct .percent)) :=
    several.bind (fun _ => .silent fun _ ends => ends) fun _ => declare_complete fun _ => rfl
  simp only [bind_assoc, pure_bind] at complete
  refine .ifNext true (.then (.then (action_opens.leads_any fun _ same => ?_))) complete
  exact decide_eq_true same

theorem startActions_skipped :
    Complete Parser.startActions (pure ()) (· ≠ some (.punct .percent)) := by
  refine .ifNext false (.done fun next other => ?_) (.done ())
  cases next with
  | none => rfl
  | some token => simpa using other

theorem statements_lead : Leads (do let _ ← many Grammar.statement) (· = none)
    (· ≠ some (.punct .percent)) := by
  refine .bind (.many (statement_opens.starts fun token other => ?_) fun _ ends => ends)
    fun _ => .done fun _ ends => ends ▸ nofun
  exact fun same => other (Option.some.inj same)

theorem body_complete : Complete (do Parser.startActions; let _ ← collect statement?)
    ((do Grammar.startActions; let _ ← many Grammar.statement) <|>
      do let _ ← many Grammar.statement) (· = none) := by
  have statements : Complete (do let _ ← collect statement?) (do let _ ← many Grammar.statement)
      (· = none) := statements_complete.result fun _ => ()
  exact .orElse (startActions_complete.bind (fun _ => statements_lead) fun _ => statements)
    (startActions_skipped.skipped statements_lead statements)

theorem item_noDirective : Leads (Grammar.notStartAction <|> Grammar.startActions) follow
    (·.any isDirective = false) :=
  .orElse (.orElse (.then (.exactly rfl)) shape_noDirective)
    (.then (.then (action_opens.leads_any fun _ same => same ▸ rfl)))

theorem document_complete : Complete Parser.document Grammar.document (· = none) := by
  refine .skipped settle_complete .any ?_
  refine directives_complete.bind (fun _ => ?_) fun _ => body_complete.of_included ?_
  · exact .orElse (.then item_noDirective) (.done fun _ ends => ends ▸ rfl)
  · rintro context tokens journal value later
      (⟨front, rest, _, middle, rfl, notStartAction | startActions, statements⟩ | ⟨rfl, -, rfl⟩)
    · obtain ⟨rest, _, others, _, rfl, repeats, rfl, -, rfl⟩ := statements
      refine .inr ⟨front ++ rest, [], () :: others, _, by simp, ?_, rfl, rfl, rfl⟩
      exact .more (.inr notStartAction) repeats
    · exact .inl ⟨front, rest, (), middle, rfl, startActions, statements⟩
    · exact .inr ⟨[], [], [], _, rfl, .done, rfl, rfl, rfl⟩

/-- A parser does not succeed without a value. -/
def Finds (parser : Parser (Option α)) : Prop :=
  ∀ context state stop, parser context state ≠ .ok none stop

theorem Finds.mapped (p : Parser α) : Finds (some <$> p) := by
  intro context state stop read
  rw [map_eq_pure_bind] at read
  obtain ⟨_, _, _, read⟩ := bind_eq_ok.mp read
  cases read

theorem Finds.orShape : Finds (directive? >>= orShape) := by
  intro context state stop read
  obtain ⟨found, middle, _, read⟩ := bind_eq_ok.mp read
  cases found with
  | some => cases read
  | none => exact Finds.mapped _ _ _ _ read

theorem Finds.peeked {k : Option Token → Parser (Option α)}
    (finds : ∀ token, Finds (k (some token)))
    (read : (peek >>= k) context ⟨lexeme :: rest, draft⟩ = .ok none stop) : False :=
  finds lexeme.token context ⟨lexeme :: rest, draft⟩ stop read

theorem lexemes_of_statement_none (read : statement? context state = .ok none stop) :
    stop.lexemes = [] := by
  obtain ⟨lexemes, draft⟩ := state
  cases lexemes with
  | nil =>
    cases read
    rfl
  | cons lexeme rest =>
    refine (Finds.peeked (fun token => ?_) read).elim
    split
    next same => cases same
    next => exact .mapped _
    next => exact .orShape

/-- A document is read to its end. -/
theorem document_finishes (read : Parser.document context state = .ok () stop) :
    stop.lexemes = [] := by
  obtain ⟨_, _, -, read⟩ := bind_eq_ok.mp read
  obtain ⟨_, _, -, read⟩ := bind_eq_ok.mp read
  obtain ⟨_, before, -, read⟩ := bind_eq_ok.mp read
  obtain ⟨_, last, read, ends⟩ := bind_eq_ok.mp read
  cases ends
  have statements := statement_sound
  rw [optional_eq] at statements
  have journal : before = ⟨before.lexemes, Journal.draft ⟨before.draft, []⟩⟩ := rfl
  rw [journal] at read
  obtain ⟨⟨_, read⟩, -⟩ := Sound.upTo statements statement_opens (Nat.lt_succ_self _) read
  exact lexemes_of_statement_none read

/-- Reading tokens that end with no problem succeeds exactly if the grammar derives them. -/
theorem document_eq_ok : Parser.document ⟨check, strict, finish, none⟩ ⟨lexemes, draft⟩ =
      .ok () ⟨rest, draft'⟩ ↔
    rest = [] ∧ ∃ log, Grammar.document.Derives ⟨check, strict, finish, none⟩
      (lexemes.map Lexeme.token) ⟨draft, []⟩ () ⟨draft', log⟩ := by
  constructor
  · intro read
    obtain rfl := document_finishes read
    obtain ⟨front, rest, ⟨_, log⟩, rfl, same, derives⟩ :=
      @document_sound _ _ lexemes ⟨draft, []⟩ _ _ rfl read
    cases same
    rw [List.append_nil]
    exact ⟨rfl, log, derives⟩
  · rintro ⟨rfl, log, derives⟩
    have read := @document_complete ⟨check, strict, finish, none⟩ lexemes [] _ _ _ rfl derives rfl
    rwa [List.append_nil] at read

/-- Tokens that the grammar derives are read. -/
theorem readTokens_of_derives (derives : Grammar.document.Derives ⟨check, isStrict, finish, none⟩
      (lexemes.map Lexeme.token) ⟨draft, log⟩ () ⟨draft', log'⟩) (size : Nat) :
    Settings.readTokens check isStrict finish ⟨lexemes, none, size⟩ draft = (.ok (), draft') := by
  have read := @document_complete ⟨check, isStrict, finish, none⟩ lexemes [] _ _ _ rfl derives rfl
  rw [List.append_nil] at read
  unfold Settings.readTokens
  rw [read]

end ShExCompact.Reading
