import ShExCompact.Proofs.Reading.Beginnings
import ShExCompact.Proofs.Reading.Fragments

/-! Documents that break off. The statements before the problem are applied, and of the one that was
begun only its shapes in place are; it was not complete yet. -/
namespace ShExCompact

/-- A statement, or the actions of the start. -/
def Grammar.item : Phrase Unit := statement <|> startActions

namespace Reading

open ShExCompact.Parser (next eat eatToken advance peek collect collectUpTo directive? statement?)
open Phrase (sign word exactly many several terminal)
open Journal (Inlines Steps)

variable {p : Parser α} {k : α → Parser β} {g h : Phrase α} {i : α → Phrase β}
  {follow first : Option Token → Prop}

/-! ### Problems behind whole phrases -/

/-- Where a whole phrase stands, a problem is only found behind more tokens. -/
def Clears (parser : Parser α) (phrase : Phrase α) : Prop :=
  ∀ ⦃context front rest journal value later problem stop⦄, Context.problem context = none →
    phrase.Derives context (front.map Lexeme.token) journal value later →
    parser context ⟨front ++ rest, journal.draft⟩ = .error problem stop →
    stop.lexemes.length < rest.length

theorem Complete.clears (complete : Complete p g Any) : Clears p g := by
  intro context front rest journal value later problem stop calm derives stopped
  rw [complete calm derives trivial] at stopped
  cases stopped

theorem Clears.of_included (clears : Clears p g) (included : Included h g) : Clears p h :=
  fun _ _ _ _ _ _ _ _ calm derives stopped => clears calm (included derives) stopped

theorem Clears.orElse (left : Clears p g) (right : Clears p h) : Clears p (g <|> h) := by
  rintro context front rest journal value later problem stop calm (derives | derives) stopped
  · exact left calm derives stopped
  · exact right calm derives stopped

theorem Clears.bind {between : Option Token → Prop} (complete : Complete p g between)
    (leads : ∀ value, Leads (i value) Any between) (next : ∀ value, Clears (k value) (i value)) :
    Clears (p >>= k) (g >>= i) := by
  rintro context front rest journal result last problem stop calm
    ⟨start, goesOn, value, middle, split, derives, derives'⟩ stopped
  obtain ⟨front, tail, rfl, rfl, rfl⟩ := List.map_eq_append_iff.mp split
  have follows : Any (rest.head?.map Lexeme.token) := trivial
  have head := leads value derives' follows
  rw [← head_append] at head
  rw [List.append_assoc] at stopped
  rw [bind_eq, complete calm derives head] at stopped
  exact next value calm derives' stopped

theorem Clears.then (complete : Complete p g Any) (next : ∀ value, Clears (k value) (i value)) :
    Clears (p >>= k) (g >>= i) := .bind complete (fun _ => .any) next

/-- A part that reads nothing and finds no problem. -/
theorem Clears.silent (clears : Clears p g)
    (silent : ∀ value context tokens journal result later,
      (i value).Derives context tokens journal result later → tokens = [])
    (safe : ∀ value context state problem stop, k value context state ≠ .error problem stop) :
    Clears (p >>= k) (g >>= i) := by
  rintro context front rest journal result last problem stop calm
    ⟨start, goesOn, value, middle, split, derives, derives'⟩ stopped
  obtain rfl := silent _ _ _ _ _ _ derives'
  rw [List.append_nil] at split
  rw [← split] at derives
  rcases bind_eq_error.mp stopped with stopped | ⟨_, _, -, impossible⟩
  · exact clears calm derives stopped
  · exact (safe _ _ _ _ _ impossible).elim

theorem Clears.result (clears : Clears p g) (f : α → β) :
    Clears (p >>= fun value => pure (f value)) (g >>= fun value => pure (f value)) :=
  clears.silent (fun _ _ _ _ _ _ derives => derives.1) fun _ _ _ _ _ => nofun

theorem Clears.map (clears : Clears p g) (f : α → β) : Clears (f <$> p) (f <$> g) := by
  rw [map_eq_pure_bind, map_eq_pure_bind]
  exact clears.result f

theorem Clears.declare {change : α → Draft → Draft} {act : α → Journal → Journal}
    {valid : ∀ value journal, Journal.Step journal (act value journal)} (clears : Clears p g) :
    Clears (p >>= fun value => Parser.declare (change value))
      (g >>= fun value => Phrase.change (act value) (valid value)) :=
  clears.silent (fun _ _ _ _ _ _ derives => derives.1) fun _ _ _ _ _ => nofun

theorem Clears.advanced {k : Unit → Parser α} {i : Unit → Phrase α} (next : Clears (k ()) (i ())) :
    Clears (advance >>= k) (exactly token >>= i) :=
  .then (.terminal fun _ lexeme rest draft _ calm _ => advance_eq calm lexeme rest draft)
    fun _ => next

theorem Clears.peeked {k : Option Token → Parser α} (leads : Leads g Any first)
    (clears : ∀ next, first next → Clears (k next) g) : Clears (peek >>= k) g := by
  intro context front rest journal value later problem stop calm derives stopped
  have follows : Any (rest.head?.map Lexeme.token) := trivial
  have head := leads derives follows
  rw [← head_append] at head
  exact clears _ head calm derives stopped

theorem Clears.ifNext {k : Bool → Parser α} {property : Token → Bool} (answer : Bool)
    (leads : Leads g Any fun next => next.any property = answer) (clears : Clears (k answer) g) :
    Clears (next property >>= k) g := by
  have looked : next property >>= k = peek >>= fun next => k (next.any property) := rfl
  rw [looked]
  exact .peeked leads fun next same => same ▸ clears

/-- Where a phrase begins, a parser of other phrases reads nothing. -/
theorem Complete.skips {g : Phrase β} (nothing : Complete p (pure value) first)
    (leads : Leads g Any first) (calm : Context.problem context = none)
    (derives : g.Derives context (front.map Lexeme.token) journal outcome later)
    (rest : List Lexeme) : p context ⟨front ++ rest, journal.draft⟩ =
      .ok value ⟨front ++ rest, journal.draft⟩ := by
  have follows : Any (rest.head?.map Lexeme.token) := trivial
  have head := leads derives follows
  rw [← head_append] at head
  have skipped := @nothing context [] (front ++ rest) journal _ _ calm ⟨rfl, rfl, rfl⟩ head
  rwa [List.nil_append] at skipped

/-- A part that reads nothing where a phrase begins. -/
theorem Clears.skipped {k : α → Parser β} {g : Phrase β} (nothing : Complete p (pure value) first)
    (leads : Leads g Any first) (next : Clears (k value) g) : Clears (p >>= k) g := by
  intro context front rest journal result last problem stop calm derives stopped
  rw [bind_eq, nothing.skips leads calm derives] at stopped
  exact next calm derives stopped

/-- A step that finds a problem only behind its first token. -/
def Eager (step : Parser α) : Prop :=
  ∀ ⦃context state problem stop⦄, Context.problem context = none →
    step context state = .error problem stop → stop.lexemes.length < state.lexemes.length

theorem Eager.upTo {step : Parser (Option α)} (eager : Eager step) (stepwise : Stepwise step)
    (calm : Context.problem context = none)
    (stopped : collectUpTo step bound collected context state = .error problem stop) :
    stop.lexemes.length < state.lexemes.length := by
  induction bound generalizing collected state with
  | zero => cases stopped
  | succ bound ih =>
    rcases bind_eq_error.mp stopped with early | ⟨answer, middle, part, late⟩
    · exact eager calm early
    · have suffix := stepwise.suffix context state
      rw [part] at suffix
      cases answer with
      | none => cases late
      | some value => exact Nat.lt_of_lt_of_le (ih late) suffix.length_le

theorem Clears.collectMany {step : Parser (Option α)} (part : Complete step (some <$> g) Any)
    (eager : Eager step) (stepwise : Stepwise step) : Clears (collect step) (many g) := by
  have upTo (bound : Nat) : ∀ collected, Clears (collectUpTo step bound collected) (many g) := by
    intro collected context front rest journal values later problem stop calm repeats stopped
    change g.Repeats context (front.map Lexeme.token) journal values later at repeats
    generalize split : front.map Lexeme.token = tokens at repeats
    induction repeats generalizing front bound collected with
    | done =>
      obtain rfl := List.map_eq_nil_iff.mp split
      exact eager.upTo stepwise calm stopped
    | more first others ih =>
      obtain ⟨front, tail, rfl, rfl, rfl⟩ := List.map_eq_append_iff.mp split
      cases bound with
      | zero => cases stopped
      | succ bound =>
        rw [collectUpTo, bind_eq, List.append_assoc,
          part calm (derives_map first) trivial] at stopped
        exact ih bound _ stopped rfl
  intro context front rest journal values later problem stop calm repeats stopped
  exact upTo _ _ calm repeats stopped

theorem Eager.ifEaten {k : Bool → Parser α} (stepwise : Stepwise (k true))
    (safe : ∀ context state problem stop, k false context state ≠ .error problem stop) :
    Eager (eatToken token >>= k) := by
  intro context state problem stop calm stopped
  obtain ⟨lexemes, draft⟩ := state
  rw [eatToken_bind] at stopped
  cases lexemes with
  | nil => exact (safe _ _ _ _ stopped).elim
  | cons lexeme rest =>
    have looked : next (fun t => decide (t = token)) context ⟨lexeme :: rest, draft⟩ =
        .ok (decide (lexeme.token = token)) ⟨lexeme :: rest, draft⟩ := rfl
    rw [bind_eq, looked] at stopped
    by_cases same : lexeme.token = token
    · rw [decide_eq_true same] at stopped
      change (advance >>= fun _ => k true) context _ = _ at stopped
      rw [bind_eq, advance_eq calm] at stopped
      change k true context ⟨rest, draft⟩ = _ at stopped
      have suffix := stepwise.suffix context ⟨rest, draft⟩
      rw [stopped] at suffix
      exact Nat.lt_succ_of_le suffix.length_le
    · rw [decide_eq_false same] at stopped
      exact (safe _ _ _ _ stopped).elim

/-! ### Problems behind whole statements -/

theorem action_eager : Eager Parser.action? := by
  refine .ifEaten (.bind Guided.iri.stepwise fun _ => .bind .peek fun next => ?_)
    fun _ _ _ _ => nofun
  split
  · exact .bind .advance fun _ => .done _
  · exact .refused _

theorem actions_clears : Clears Parser.actions Grammar.actions :=
  (Clears.collectMany action_complete action_eager Guided.action.stepwise).result _

theorem startActions_clears : Clears Parser.startActions Grammar.startActions := by
  have several : Clears Parser.actions (do return Dictionary.ofList (← several Grammar.action)) :=
    actions_clears.of_included Included.several.then
  have clears : Clears
      (do let code ← Parser.actions; Parser.declare (·.setStartActions code))
      (do
        let code ← (do return Dictionary.ofList (← Phrase.several Grammar.action))
        Phrase.change (·.declare (·.setStartActions code)) (.startActions code)) := several.declare
  simp only [bind_assoc, pure_bind] at clears
  exact .ifNext true (.then (.then (action_opens.leads_any fun _ => decide_eq_true))) clears

theorem startLabel_clears : Clears Parser.startLabel Grammar.startLabel := by
  refine .orElse (.ifNext true (label_opens.leads_any fun _ begins => begins)
      label_complete.clears)
    (.orElse (.ifNext false ?_ (.ifNext true ?_ reference_complete.clears))
      (.ifNext false ?_ (.ifNext false ?_ (.ifNext true ?_ ?_))))
  · exact reference_opens.leads_any fun _ => not_isLabel_of_isReference
  · exact reference_opens.leads_any fun _ begins => begins
  · exact .then (shapeDefinition_opens.leads_any fun _ begins => (isDefinition_cases begins).1)
  · exact .then (shapeDefinition_opens.leads_any fun _ begins => (isDefinition_cases begins).2)
  · exact .then (shapeDefinition_opens.leads_any fun _ begins => begins)
  · refine .then (shapeDefinition_complete outermost_whole) fun _ => ?_
    exact actions_clears.silent (fun _ _ _ _ _ _ derives => derives.1) fun _ _ _ _ _ => nofun

theorem start_clears : Clears Parser.startDeclaration Grammar.start :=
  .advanced (.then (.expectSign _) fun _ => startLabel_clears.declare)

theorem shapeDeclaration_clears : Clears Parser.shapeDeclaration Grammar.shape := by
  refine .bind (Complete.eaten _) (fun _ => .then (label_opens.leads_ne nofun)) fun isVirtual => ?_
  refine .ifNext true (.then (label_opens.leads_any fun _ begins => begins)) ?_
  refine .then label_complete fun label => .then (shapeDefinition_complete outermost_whole) ?_
  exact fun shape => actions_clears.declare

theorem statement_clears : Clears statement? (some <$> Grammar.statement) := by
  have others : Clears statement? (some <$> Grammar.directive <|> some <$> Grammar.shape) := by
    refine .peeked orShape_noStart fun next starts => ?_
    split
    next => exact starts.elim
    next => exact (starts rfl).elim
    next =>
      exact .orElse orShape_directive.clears (.skipped directive_absent shape_noDirective.map
        (shapeDeclaration_clears.map some))
  simp only [Grammar.statement, Grammar.notStartAction, Phrase.map_orElse]
  refine .orElse (others.of_included .left) (.orElse ?_ (others.of_included .right))
  refine .peeked (.map (.then (.exactly rfl))) fun next same => same ▸ ?_
  exact start_clears.map some

/-- Where a whole statement stands, no problem is found right behind it. -/
def Misses (parser : Parser α) : Prop :=
  ∀ ⦃context begun rest journal last problem stop⦄, Context.problem context = none →
    Grammar.item.Derives context (begun.map Lexeme.token) journal () last →
    parser context ⟨begun ++ rest, journal.draft⟩ = .error problem stop → stop.lexemes ≠ rest

theorem Clears.misses (clears : Clears p g) (calm : Context.problem context = none)
    (derives : g.Derives context (front.map Lexeme.token) journal value later)
    (stopped : p context ⟨front ++ rest, journal.draft⟩ = .error problem stop) :
    stop.lexemes ≠ rest := by
  rintro rfl
  exact Nat.lt_irrefl _ (clears calm derives stopped)

theorem directive_misses : Misses directive? := by
  intro context begun rest journal last problem stop calm derives stopped
  have other {phrase : Phrase Unit} (leads : Leads phrase Any (·.any isDirective = false))
      (derives : phrase.Derives context (begun.map Lexeme.token) journal () last) :
      stop.lexemes ≠ rest := by
    rw [directive_absent.skips leads calm derives] at stopped
    cases stopped
  rcases derives with (directive | notStartAction) | startActions
  · exact directive_complete.clears.misses calm (derives_map directive) stopped
  · exact other item_noDirective (.inl notStartAction)
  · exact other item_noDirective (.inr startActions)

theorem startActions_misses : Misses Parser.startActions := by
  intro context begun rest journal last problem stop calm derives stopped
  rcases derives with statement | startActions
  · have leads : Leads Grammar.statement Any (· ≠ some (.punct .percent)) :=
      statement_opens.leads_ne fun other => other rfl
    rw [startActions_skipped.skips leads calm statement] at stopped
    cases stopped
  · exact startActions_clears.misses calm startActions stopped

theorem statement_misses : Misses statement? := by
  intro context begun rest journal last problem stop calm derives stopped
  rcases derives with statement | startActions
  · exact statement_clears.misses calm (derives_map statement) stopped
  · -- A percent sign begins no statement.
    have opens : Opens Grammar.startActions (· = .punct .percent) := .then (.then action_opens)
    obtain ⟨_, _, split, rfl⟩ := opens startActions
    obtain ⟨⟨_, extent, text⟩, more, rfl, rfl, -⟩ := List.map_eq_cons_iff.mp split
    cases stopped
    intro same
    have size := congrArg List.length same
    simp at size
    omega

/-! ### Interrupted documents -/

/-- Tokens of whole statements, and tokens that begin one more: more tokens would complete it, and
the document, if there is an IRI that they can name. Of what it declares only shapes in place are in
the journal of the interruption. -/
structure Interrupted (context : Context) (journal : Journal) (done begun : List Token)
    (middle later : Journal) : Prop where
  whole : Grammar.document.Derives context done journal () middle
  inlines : Relation.ReflTransGen Inlines middle later
  completed : Context.Accepts context → ∃ more last,
    Grammar.item.Derives context (begun ++ more) middle () last ∧
      Grammar.document.Derives context (done ++ (begun ++ more)) journal () last ∧ Steps later last

/-- A document is interrupted in a state, in the midst of a statement unless the text has a
problem. -/
def InterruptedAt (context : Context) (journal : Journal) (lexemes : List Lexeme) (stop : State) :
    Prop :=
  ∃ done begun rest middle later, lexemes = done ++ (begun ++ rest) ∧
    stop = ⟨rest, Journal.draft later⟩ ∧
    Interrupted context journal (done.map Lexeme.token) (begun.map Lexeme.token) middle later ∧
    (context.problem = none →
      ∀ last, ¬ Grammar.item.Derives context (begun.map Lexeme.token) middle () last)

/-- The parsers of the parts of a document interrupt it. -/
theorem interrupted_of_breaks {p : Parser α} {g : Phrase Unit} {f : Unit → α}
    (breaks : Breaks p (f <$> g)) (misses : Misses p) (included : Included g Grammar.item)
    (whole : Grammar.document.Derives context (front.map Lexeme.token) journal () middle)
    (continues : ∀ tokens last, g.Derives context tokens middle () last →
      Grammar.document.Derives context (front.map Lexeme.token ++ tokens) journal () last)
    (stopped : p context ⟨lexemes, middle.draft⟩ = .error problem stop) :
    InterruptedAt context journal (front ++ lexemes) stop := by
  obtain ⟨begun, rest, later, rfl, rfl, beginning⟩ := (breaks _).begun rfl stopped
  refine ⟨front, begun, rest, middle, later, rfl, rfl, ⟨whole, beginning.inlines, ?_⟩, ?_⟩
  · intro accepts
    obtain ⟨more, _, last, derives, steps⟩ := beginning.completed accepts
    obtain ⟨_, -, derives⟩ := of_derives_map derives
    exact ⟨more, last, included derives, continues _ _ derives, steps⟩
  · exact fun calm last derives => misses calm derives stopped rfl

theorem document_snoc (derives : Grammar.document.Derives context done journal () middle)
    (statement : Grammar.statement.Derives context tokens middle () later) :
    Grammar.document.Derives context (done ++ tokens) journal () later := by
  have single := Phrase.Repeats.more statement .done
  rw [List.append_nil] at single
  exact Grammar.document_append derives single

theorem startActions_after
    (repeats : Grammar.directive.Repeats context done journal values middle)
    (derives : Grammar.startActions.Derives context tokens middle () later) :
    Grammar.document.Derives context (done ++ tokens) journal () later :=
  Grammar.document_iff.mpr (.inr ⟨done, tokens, [], values, [], middle, later,
    by rw [List.append_nil], repeats, derives, .done⟩)

theorem settle_interrupted
    (stopped : Parser.settle context ⟨lexemes, Journal.draft journal⟩ = .error problem stop) :
    InterruptedAt context journal lexemes stop := by
  have whole : Grammar.document.Derives context [] journal () journal :=
    Grammar.document_iff.mpr (.inl ⟨[], .done⟩)
  have stays := ending_settle context ⟨lexemes, journal.draft⟩
  rw [stopped] at stays
  refine ⟨[], [], lexemes, journal, journal, rfl, stays, ⟨whole, .refl, ?_⟩, fun calm => ?_⟩
  · intro accepts
    obtain ⟨more, _, last, derives⟩ := directive_goesOn accepts journal
    exact ⟨more, last, .inl (.inl derives), document_snoc whole (.inl derives),
      Grammar.directive.steps derives⟩
  · rw [settle_eq, calm] at stopped
    cases stopped

/-- After whole statements, statements go on up to the one that is interrupted. -/
theorem statements_interrupted
    (whole : Grammar.document.Derives context (front.map Lexeme.token) journal () middle)
    (stopped : collect statement? context ⟨lexemes, middle.draft⟩ = .error problem stop) :
    InterruptedAt context journal (front ++ lexemes) stop := by
  obtain ⟨items, tail, values, between, rfl, repeats, stopped⟩ :=
    statement_sound.collect_error stopped
  have whole' := Grammar.document_append whole repeats
  rw [← List.map_append] at whole'
  rw [← List.append_assoc]
  exact interrupted_of_breaks statement_breaks statement_misses .left whole'
    (fun _ _ => document_snoc whole') stopped

/-- Wherever the reading of a document stops with a problem, the document is interrupted. -/
theorem document_interrupted
    (stopped : Parser.document context ⟨lexemes, Journal.draft journal⟩ = .error problem stop) :
    InterruptedAt context journal lexemes stop := by
  rcases bind_eq_error.mp stopped with stopped | ⟨_, start, settled, stopped⟩
  · exact settle_interrupted stopped
  have stays := ending_settle context ⟨lexemes, journal.draft⟩
  rw [settled] at stays
  cases stays
  rcases bind_eq_error.mp stopped with stopped | ⟨_, _, directives, stopped⟩
  · obtain ⟨items, tail, values, middle, rfl, repeats, stopped⟩ :=
      directive_sound.collect_error stopped
    have whole := Grammar.document_iff.mpr (.inl ⟨values, repeats.mono .inl⟩)
    exact interrupted_of_breaks directive_breaks directive_misses
      (fun _ _ _ _ _ derives => .inl (.inl derives)) whole
      (fun _ _ derives => document_snoc whole (.inl derives)) stopped
  obtain ⟨front, tail, between, rfl, rfl, repeats⟩ := directives_sound _ rfl directives
  change Grammar.directive.Repeats _ _ _ _ _ at repeats
  have whole := Grammar.document_iff.mpr (.inl ⟨_, repeats.mono .inl⟩)
  rcases bind_eq_error.mp stopped with stopped | ⟨_, _, actions, stopped⟩
  · have breaks : Breaks Parser.startActions (id <$> Grammar.startActions) := by
      rw [id_map]
      exact startActions_breaks
    exact interrupted_of_breaks breaks startActions_misses .right whole
      (fun tokens last derives => startActions_after repeats derives) stopped
  rcases bind_eq_error.mp stopped with late | ⟨_, _, -, impossible⟩
  · by_cases percent : tail.head?.map Lexeme.token = some (.punct .percent)
    · obtain ⟨code, tail, middle, rfl, rfl, derives⟩ := startActions_sound percent actions
      have whole' := startActions_after repeats derives
      rw [← List.map_append] at whole'
      rw [← List.append_assoc]
      exact statements_interrupted whole' late
    · obtain ⟨nothing, tail, middle, rfl, rfl, none, -, rfl⟩ :=
        startActions_absent percent rfl actions
      obtain rfl := List.map_eq_nil_iff.mp none
      exact statements_interrupted whole late
  · cases impossible

/-- Where a document is interrupted does not depend on a problem of the text. -/
theorem Interrupted.transfer (same : Context.SameMeaning context other)
    (interrupted : Interrupted context journal done begun middle later) :
    Interrupted other journal done begun middle later where
  whole := Composed.document.derives same interrupted.whole
  inlines := interrupted.inlines
  completed := by
    intro accepts
    have item : Composed Journal.Step Grammar.item := .orElse .statement .startActions
    have accepts' : Context.Accepts context := by rwa [Context.Accepts, ← same.check]
    obtain ⟨more, last, derives, document, steps⟩ := interrupted.completed accepts'
    exact ⟨more, last, item.derives same derives, Composed.document.derives same document, steps⟩

/-- A problem of the text apart, a document is interrupted as one of a text without a problem is. -/
theorem document_interrupted_calm
    (stopped : Parser.document context ⟨lexemes, draft⟩ = .error problem stop) :
    ∃ done begun rest middle later, lexemes = done ++ (begun ++ rest) ∧
      stop = ⟨rest, Journal.draft later⟩ ∧ Interrupted context.calm ⟨draft, []⟩
        (done.map Lexeme.token) (begun.map Lexeme.token) middle later ∧
      ((∀ fault character, problem.cause ≠ .lexical fault character) → ∀ last,
        ¬ Grammar.item.Derives context.calm (begun.map Lexeme.token) middle () last) := by
  rcases Stepwise.document.calmOr context ⟨lexemes, draft⟩ with same | ⟨fault, _, -, -, lexical⟩
  · rw [same] at stopped
    obtain ⟨done, begun, rest, middle, later, split, ends, interrupted, unfinished⟩ :=
      @document_interrupted _ lexemes ⟨draft, []⟩ _ _ stopped
    exact ⟨done, begun, rest, middle, later, split, ends, interrupted, fun _ => unfinished rfl⟩
  · obtain ⟨done, begun, rest, middle, later, split, ends, interrupted, -⟩ :=
      @document_interrupted _ lexemes ⟨draft, []⟩ _ _ stopped
    rw [lexical] at stopped
    cases stopped
    have same : context.SameMeaning context.calm := ⟨rfl, rfl⟩
    exact ⟨done, begun, rest, middle, later, split, ends, interrupted.transfer same,
      fun other => (other _ _ rfl).elim⟩

/-! ### What is left -/

/-- What a document leaves that breaks off with a problem. The lexemes of `done` are whole
statements, those of `begun` begin one more, and the problem is found where `rest` begins. -/
structure BreaksOff (context : Context) (draft draft' : Draft) (problem : Problem)
    (done begun rest : List Lexeme) (applied : Journal) (added : List (Label × Shape)) : Prop where
  /-- the whole statements are a document -/
  whole : Grammar.document.Derives context.calm (done.map Lexeme.token) ⟨draft, []⟩ () applied
  /-- which leads to the same draft if it is read alone -/
  alone : ∀ size, Settings.readTokens context.check context.strict context.finish
    ⟨done, none, size⟩ draft = (.ok (), applied.draft)
  /-- nothing is added to this draft but shapes in place under new labels -/
  inlined : applied.draft.Inlined added draft'
  /-- which belong to one more statement: with some more tokens it would be whole -/
  begins : ∃ more last others,
    Grammar.item.Derives context.calm (begun.map Lexeme.token ++ more) applied () last ∧
    Grammar.document.Derives context.calm
      (done.map Lexeme.token ++ (begun.map Lexeme.token ++ more)) ⟨draft, []⟩ () last ∧
    last.log = applied.log ++ (Journal.inlineLog added ++ others)
  place : Points context ⟨rest, draft'⟩ problem
  /-- it is not whole yet, except if the text has a problem there -/
  unfinished : (∀ fault character, problem.cause ≠ .lexical fault character) →
    ∀ last, ¬ Grammar.item.Derives context.calm (begun.map Lexeme.token) applied () last

theorem breaksOff_of_document (accepts : Context.Accepts context)
    (stopped : Parser.document context ⟨lexemes, draft⟩ = .error problem stop) :
    ∃ done begun rest applied added, lexemes = done ++ (begun ++ rest) ∧
      BreaksOff context draft stop.draft problem done begun rest applied added := by
  have place := Stepwise.document.points stopped
  obtain ⟨done, begun, rest, middle, later, split, rfl, interrupted, unfinished⟩ :=
    document_interrupted_calm stopped
  obtain ⟨added, inlined, log⟩ := Journal.inlined_of_inlines interrupted.inlines
  refine ⟨done, begun, rest, middle, added, split, ?_⟩
  constructor
  · exact interrupted.whole
  · have whole := interrupted.whole
    unfold Context.calm at whole
    exact readTokens_of_derives whole
  · exact inlined
  · obtain ⟨more, last, derives, document, steps⟩ := interrupted.completed accepts
    obtain ⟨others, extended⟩ := Journal.log_prefix steps
    refine ⟨more, last, others, derives, document, ?_⟩
    rw [← extended, log, List.append_assoc]
  · exact place
  · exact unfinished

end Reading

namespace Settings

/-- The context in which the tokens of a text are read. -/
def context (settings : Settings) (check : String → Except Iri.Fault Unit) (text : String) :
    Context :=
  ⟨check, settings.strict, Text.width text.toList, (TokenSequence.ofText text.toList).problem⟩

/-- A text with a problem is one with which the reading of its tokens stops. -/
theorem parseIntoWith_eq_error
    (stopped : parseIntoWith check settings text draft = (.error diagnostic, draft')) :
    ∃ problem stop, Parser.document (settings.context check text)
        ⟨(TokenSequence.ofText text.toList).lexemes, draft⟩ = .error problem stop ∧
      diagnostic = problem.diagnose (Text.bytes text.toList) ∧ stop.draft = draft' := by
  unfold parseIntoWith readTokens at stopped
  dsimp only at stopped
  unfold context
  cases document : Parser.document ⟨check, settings.strict, Text.width text.toList,
      (TokenSequence.ofText text.toList).problem⟩
      ⟨(TokenSequence.ofText text.toList).lexemes, draft⟩ with
  | ok _ stop => simp [document] at stopped
  | error problem stop =>
    rw [document] at stopped
    cases stopped
    exact ⟨problem, stop, rfl, rfl, rfl⟩

/-- A document with a problem is applied up to its last whole statement. What is read of the next
one adds nothing to the draft but its shapes in place, and a statement that is read as a whole is
applied, unless the text has a problem right behind it. The check has to accept a short IRI, so that
whatever was begun can go on. -/
theorem parseIntoWith_breaksOff (accepts : check "a:" = .ok ())
    (stopped : parseIntoWith check settings text draft = (.error diagnostic, draft')) :
    ∃ problem done begun rest applied added,
      diagnostic = problem.diagnose (Text.bytes text.toList) ∧
      (TokenSequence.ofText text.toList).lexemes = done ++ (begun ++ rest) ∧
      Reading.BreaksOff (settings.context check text) draft draft' problem done begun rest applied
        added := by
  obtain ⟨problem, stop, document, rfl, rfl⟩ := parseIntoWith_eq_error stopped
  have accepts' : (settings.context check text).Accepts := accepts
  obtain ⟨done, begun, rest, applied, added, split, breaksOff⟩ :=
    Reading.breaksOff_of_document accepts' document
  exact ⟨problem, done, begun, rest, applied, added, rfl, split, breaksOff⟩

/-- The second shape is not declared, the shape in place at its beginning is. -/
theorem parseIntoWith_breaksOff_inline :
    let check := fun text : String => Iri.check text.toList
    let text := "<a:s> \x7b\x7d <a:t> \x7b <a:p> \x7b\x7d )"
    let problem : Problem := ⟨⟨26, 27⟩, .unexpected ")" [.sign .closeBrace]⟩
    let later :=
      (Draft.empty.register (.iri ⟨"a:s"⟩) .empty).freshLabel.2.register (.blank "b0") .empty
    (check "a:" = .ok () ∧
      default.parseIntoWith check text .empty =
        (.error (problem.diagnose (Text.bytes text.toList)), later)) ∧
      ∃ problem' done begun rest applied added,
        problem.diagnose (Text.bytes text.toList) =
          problem'.diagnose (Text.bytes text.toList) ∧
        (TokenSequence.ofText text.toList).lexemes = done ++ (begun ++ rest) ∧
        Reading.BreaksOff (default.context check text) .empty later problem' done begun rest applied
          added := by
  intro check text problem later
  have accepts : check "a:" = .ok () := by decide
  have stopped : default.parseIntoWith check text .empty =
      (.error (problem.diagnose (Text.bytes text.toList)), later) := by
    decide +kernel
  exact ⟨⟨accepts, stopped⟩, parseIntoWith_breaksOff accepts stopped⟩

end Settings

end ShExCompact
