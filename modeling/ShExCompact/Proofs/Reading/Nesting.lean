import ShExCompact.Proofs.Reading.Counted
import ShExCompact.Proofs.Reading.InlineShapes
import ShExCompact.Proofs.Reading.Problems
import ShExCompact.Proofs.Schemas.Heights

/-! The counter of brackets. A parser with the counter does what the parser without it does, and the
counter is at each step the number of the brackets that are open. -/
namespace ShExCompact

namespace Counted

open ShExCompact.Parser (deeper)

/-! ### Brackets -/

section

variable {bracket : Bracket} {part : Counted α} {around : Surroundings} {tally : Tally}

/-- No bracket is opened at the limit. -/
theorem bracketed_full (full : nestingLimit ≤ tally.depth) :
    bracketed bracket part around tally = read (Parser.object .nesting) around tally := by
  have entered : enter around tally = read (Parser.object .nesting) around tally := if_pos full
  change (enter >>= _) around tally = _
  rw [Reading.bind_eq, entered]
  rfl

/-- Below the limit the counter is raised for what stands in a bracket. -/
theorem bracketed_room (room : tally.depth < nestingLimit) :
    bracketed bracket part around tally =
      match part { around with opened := bracket :: around.opened }
          { tally with depth := tally.depth + 1 } with
      | .ok value stop => .ok value ⟨stop.state, stop.depth - 1,
          .closed bracket tally.depth (stop.depth - 1) :: stop.notes⟩
      | .error problem stop => .error problem stop := by
  have entered : enter around tally = .ok () { tally with depth := tally.depth + 1 } :=
    if_neg (Nat.not_le_of_lt room)
  change (enter >>= _) around tally = _
  rw [Reading.bind_eq, entered]
  change (inside bracket part >>= _) around _ = _
  rw [Reading.bind_eq]
  unfold inside
  cases part { around with opened := bracket :: around.opened }
    { tally with depth := tally.depth + 1 } with
  | ok value stop => rfl
  | error problem stop => rfl

end

/-! ### Counting parsers beside those that do not count -/

/-- The same outcome with a counter, which has not changed if the parser goes on. -/
inductive Agrees (depth : Nat) :
    EStateM.Result Problem Tally α → EStateM.Result Problem State α → Prop where
  | ok (right : ∀ entry ∈ notes, Note.Right entry) :
      Agrees depth (.ok value ⟨state, depth, notes⟩) (.ok value state)
  | error (right : ∀ entry ∈ notes, Note.Right entry) :
      Agrees depth (.error problem ⟨state, last, notes⟩) (.error problem state)

/-- Inside of some brackets a counting parser does what a parser does, if the counter is right. -/
def Counts (opened : List Bracket) (p : Counted α) (q : Parser α) : Prop :=
  ∀ ⦃context state notes⦄, opened.length ≤ nestingLimit → (∀ entry ∈ notes, Note.Right entry) →
    Agrees opened.length (p ⟨context, opened⟩ ⟨state, opened.length, notes⟩) (q context state)

/-- A parser inside of one more bracket, if one more may be opened. -/
inductive Deepens (opened : List Bracket) (inner : Counted TripleExpr) :
    Option (Parser TripleExpr) → Prop where
  | full (full : nestingLimit ≤ opened.length) : Deepens opened inner none
  | room (room : opened.length < nestingLimit)
      (counts : ∀ bracket, Counts (bracket :: opened) inner body) :
      Deepens opened inner (some body)

namespace Counts

variable {opened : List Bracket} {p p' : Counted α} {q q' : Parser α} {k : α → Counted β}
  {j : α → Parser β}

theorem read (q : Parser α) : Counts opened (read q) q := by
  intro context state notes few right
  have step : ∀ entry ∈ Note.step opened.length opened :: notes, entry.Right :=
    List.forall_mem_cons.mpr ⟨⟨rfl, few⟩, right⟩
  unfold Counted.read
  dsimp only
  cases q context state with
  | ok value later => exact .ok step
  | error problem later => exact .error step

theorem done (value : α) : Counts opened (pure value) (pure value) :=
  fun _ _ _ _ right => .ok right

theorem bind (first : Counts opened p q) (later : ∀ value, Counts opened (k value) (j value)) :
    Counts opened (p >>= k) (q >>= j) := by
  intro context state notes few right
  have agrees := @first context state notes few right
  rw [Reading.bind_eq, Reading.bind_eq]
  generalize p ⟨context, opened⟩ ⟨state, opened.length, notes⟩ = outcome at agrees ⊢
  generalize q context state = outcome' at agrees ⊢
  cases agrees with
  | ok right' => exact later _ few right'
  | error right' => exact .error right'

theorem map (first : Counts opened p q) (f : α → β) : Counts opened (f <$> p) (f <$> q) :=
  .bind first fun value => .done (f value)

theorem ite {c : Prop} [Decidable c] (yes : Counts opened p q) (no : Counts opened p' q') :
    Counts opened (if c then p else p') (if c then q else q') := by
  split
  · exact yes
  · exact no

/-- It may depend on an answer how the parsers go on. -/
theorem answered {p : Counted (Option α)} {q : Parser (Option α)} {k : Option α → Counted β}
    {j : Option α → Parser β} (first : Counts opened p q)
    (found : ∀ value, Counts opened (k (some value)) (j (some value)))
    (missing : Counts opened (k none) (j none)) : Counts opened (p >>= k) (q >>= j) := by
  refine .bind first fun answer => ?_
  cases answer with
  | some value => exact found value
  | none => exact missing

theorem collect {step : Counted (Option α)} {step' : Parser (Option α)}
    (each : Counts opened step step') : Counts opened (collect step) (Parser.collect step') := by
  have upTo (bound : Nat) (collected : List α) : Counts opened (collectUpTo step bound collected)
      (Parser.collectUpTo step' bound collected) := by
    induction bound generalizing collected with
    | zero => exact .done _
    | succ bound ih => exact .answered each (fun value => ih (value :: collected)) (.done _)
  exact fun _ _ _ few right => upTo _ [] few right

theorem whenNext (property : Token → Bool) (part : Counts opened p q) :
    Counts opened (whenNext property p) (Parser.whenNext property q) :=
  .bind (.read _) fun _ => .ite (.bind part fun _ => .done _) (.done _)

theorem afterSign? (sign : Punct) (part : Counts opened p q) :
    Counts opened (afterSign? sign p) (Parser.afterSign? sign q) :=
  .bind (.read _) fun _ => .ite (.bind part fun _ => .done _) (.done _)

/-- The next token has to have a property. -/
theorem required (property : Token → Bool) (expected : List Expected)
    (rest : Counts opened p q) : Counts opened
      (do
        unless ← Counted.read (Parser.next property) do
          Counted.read (Parser.unexpected expected)
        p)
      (do
        unless ← Parser.next property do Parser.unexpected expected
        q) :=
  .bind (.read _) fun _ => .ite rest (.bind (.read _) fun _ => rest)

/-- A bracket raises the counter where one more level is left, and lowers it again. -/
theorem bracketed {inner : Counted TripleExpr} {inner' : Option (Parser TripleExpr)}
    {bracket : Bracket} {part : Counted α} {part' : Parser TripleExpr → Parser α}
    (deepens : Deepens opened inner inner')
    (each : ∀ {body}, Counts (bracket :: opened) inner body →
      Counts (bracket :: opened) part (part' body)) :
    Counts opened (bracketed bracket part) (deeper inner' >>= part') := by
  intro context state notes few right
  cases deepens with
  | full full =>
    rw [bracketed_full full]
    exact read (Parser.object .nesting) few right
  | @room body room counts =>
    have counts' := each (counts bracket)
    have agrees := @counts' context state notes room right
    rw [bracketed_room room]
    change Agrees _ _ (part' body context state)
    generalize part' body context state = outcome at agrees ⊢
    simp only [List.length_cons] at agrees
    generalize part ⟨context, bracket :: opened⟩ ⟨state, opened.length + 1, notes⟩ = counted
      at agrees ⊢
    cases agrees with
    | ok right' => exact .ok (List.forall_mem_cons.mpr ⟨rfl, right'⟩)
    | error right' => exact .error right'

/-! ### Shapes and triple expressions -/

section Inner

variable {inner : Counted TripleExpr} {inner' : Option (Parser TripleExpr)}
  (deepens : Deepens opened inner inner')

include deepens

theorem shapeDefinition :
    Counts opened (shapeDefinition inner) (Parser.shapeDefinition inner') :=
  .bracketed deepens fun body => .bind (.read _) fun _ => .bind (.read _) fun _ =>
    .bind (.read _) fun _ => .ite (.done _) (.bind body fun _ => .bind (.read _) fun _ => .done _)

theorem shapeOrRef : Counts opened (shapeOrRef inner) (Parser.shapeOrRef inner') := by
  have other (token : Option Token) : Counts opened
      (if token.any Token.isDefinition then
        Counted.shapeDefinition inner >>= fun shape => Counted.read (Parser.declareInline shape)
      else Counted.read (Parser.unexpected [.sign .atSign, .shapeDefinition]))
      (if token.any Token.isDefinition then
        Parser.shapeDefinition inner' >>= Parser.declareInline
      else Parser.unexpected [.sign .atSign, .shapeDefinition]) :=
    .ite (.bind (shapeDefinition deepens) fun _ => .read _) (.read _)
  refine .bind (.read _) fun token => ?_
  cases token with
  | none => exact other none
  | some token =>
    cases token with
    | atPrefixedName => exact .bind (.read _) fun _ => .bind (.read _) fun _ => .done _
    | punct sign =>
      cases sign with
      | atSign => exact .bind (.read _) fun _ => .read _
      | _ => exact other (some (.punct _))
    | _ => exact other (some _)

theorem shapeRef : Counts opened (shapeRef inner) (Parser.shapeRef inner') := by
  have alternative : Counts opened (alternative? inner) (Parser.alternative? inner') :=
    .bind (.read _) fun _ => .ite (.bind (shapeOrRef deepens) fun _ => .done _) (.done _)
  exact .bind (shapeOrRef deepens) fun _ => .bind (.collect alternative) fun _ => .done _

theorem valueClass : Counts opened (valueClass inner) (Parser.valueClass inner') := by
  have reference := shapeRef deepens
  refine .bind (.read _) fun token => ?_
  generalize token.bind Token.nodeKind? = kind
  cases kind with
  | some kind =>
    refine .bind (.read _) fun _ => .ite ?_ ?_
    · exact .bind (.whenNext _ reference) fun _ => .bind (.read _) fun _ => .done _
    · exact .bind (.done _) fun _ => .bind (.read _) fun _ => .done _
  | none =>
    exact .bind (.read _) fun _ => .ite (.bind (.read _) fun _ => .done _) (.bind (.read _)
      fun _ => .ite (.bind (.read _) fun _ => .done _) (.bind (.read _) fun _ =>
        .ite (.done _) (.bind (.read _) fun _ =>
          .ite (.bind reference fun _ => .done _) (.read _))))

theorem tripleConstraint :
    Counts opened (tripleConstraint inner) (Parser.tripleConstraint inner') :=
  .bind (.read _) fun _ => .bind (.read _) fun _ => .bind (valueClass deepens) fun _ =>
    .bind (.read _) fun _ => .bind (.read _) fun _ => .bind (.read _) fun _ => .done _

theorem parenthesized : Counts opened (parenthesized inner) (Parser.parenthesized inner') := by
  have split : Parser.parenthesized inner' = (do
      let expression ← Parser.deeper inner' >>= fun body => do
        Parser.advance
        let expression ← body
        Parser.expect .closeParen
        return expression
      let cardinality ← Parser.cardinality?
      return expression.wrap cardinality (← Parser.actions)) := by
    simp only [Parser.parenthesized, bind_assoc, pure_bind]
  rw [split]
  refine .bind (.bracketed deepens fun body => ?_) fun _ => .bind (.read _) fun _ =>
    .bind (.read _) fun _ => .done _
  exact .bind (.read _) fun _ => .bind body fun _ => .bind (.read _) fun _ => .done _

theorem unary : Counts opened (unary inner) (Parser.unary inner') := by
  have unlabelled : Counts opened (unlabelled inner) (Parser.unlabelled inner') :=
    .bind (.read _) fun _ => .ite (.bind (.read _) fun _ => .done _) (.bind (.read _) fun _ =>
      .ite (parenthesized deepens) (.bind (tripleConstraint deepens) fun _ => .done _))
  exact .required _ _ (.bind (.read _) fun _ => .ite
    (.bind (.read _) fun _ => .bind unlabelled fun _ => .done _) unlabelled)

theorem oneOf : Counts opened (oneOf inner) (Parser.oneOf inner') := by
  have member : Counts opened (nextMember? inner) (Parser.nextMember? inner') :=
    .bind (.read _) fun _ => .ite (.whenNext _ (unary deepens)) (.done _)
  have group : Counts opened (group inner) (Parser.group inner') :=
    .bind (unary deepens) fun _ => .bind (.collect member) fun _ => .done _
  have someOf : Counts opened (someOf inner) (Parser.someOf inner') :=
    .bind group fun _ => .bind (.collect (.afterSign? _ group)) fun _ => .done _
  exact .bind someOf fun _ => .bind (.collect (.afterSign? _ someOf)) fun _ => .done _

end Inner

end Counts

/-- As many levels are left as the counter admits, whatever stands below the last one. -/
theorem Deepens.levels (bottom : Counted TripleExpr) {opened : List Bracket} {left calls : Nat}
    (size : opened.length + left = nestingLimit) (enough : left ≤ calls) :
    Deepens opened (Counted.levels bottom calls) (Parser.levels left) := by
  induction left generalizing opened calls with
  | zero => exact .full size.ge
  | succ left ih =>
    cases calls with
    | zero => cases enough
    | succ calls =>
      refine .room (by omega) fun bracket => Counts.oneOf (ih ?_ (Nat.le_of_succ_le_succ enough))
      rw [List.length_cons, ← size]
      omega

/-! ### Documents -/

namespace Counts

section Outermost

variable {outermost : Counted TripleExpr} (deepens : Deepens [] outermost Parser.outermost)

include deepens

theorem startDeclaration :
    Counts [] (startDeclaration outermost) Parser.startDeclaration := by
  have startLabel : Counts [] (startLabel outermost) Parser.startLabel :=
    .bind (.read _) fun _ => .ite (.read _) (.bind (.read _) fun _ =>
      .ite (shapeOrRef deepens) (.bind (.read _) fun _ =>
        .ite (.bind (shapeDefinition deepens) fun _ => .bind (.read _) fun _ => .read _)
          (.read _)))
  exact .bind (.read _) fun _ => .bind (.read _) fun _ => .bind startLabel fun _ => .read _

theorem shapeDeclaration :
    Counts [] (shapeDeclaration outermost) Parser.shapeDeclaration :=
  .bind (.read _) fun _ => .required _ _ (.bind (.read _) fun _ =>
    .bind (shapeDefinition deepens) fun _ => .bind (.read _) fun _ => .read _)

theorem document : Counts [] (document outermost) Parser.document := by
  have statement : Counts [] (statement? outermost) Parser.statement? := by
    refine .bind (.read _) fun token => ?_
    cases token with
    | none => exact .done _
    | some token =>
      cases token with
      | keyword word =>
        cases word with
        | start => exact .map (startDeclaration deepens) _
        | _ => exact .answered (.read _) (fun _ => .done _) (.map (shapeDeclaration deepens) _)
      | _ => exact .answered (.read _) (fun _ => .done _) (.map (shapeDeclaration deepens) _)
  exact .bind (.read _) fun _ => .bind (.read _) fun _ => .bind (.read _) fun _ =>
    .bind (.collect statement) fun _ => .done _

end Outermost

end Counts

/-! ### Runs -/

/-- What an outcome is without the counter. -/
def uncounted : EStateM.Result Problem Tally α → EStateM.Result Problem State α
  | .ok value tally => .ok value tally.state
  | .error problem tally => .error problem tally.state

/-- What has been counted where a reading ends. -/
def counted : EStateM.Result Problem Tally α → Tally
  | .ok _ tally | .error _ tally => tally

/-- Read a document from the start with a counter at zero, with at least as many parsers of
expressions inside of each other as the limit admits. -/
def run (bottom : Counted TripleExpr) (more : Nat) (context : Context) (state : State) :
    EStateM.Result Problem Tally Unit :=
  document (levels bottom (nestingLimit + more)) ⟨context, []⟩ ⟨state, 0, []⟩

theorem run_agrees (bottom : Counted TripleExpr) (more : Nat) (context : Context)
    (state : State) : Agrees 0 (run bottom more context state) (Parser.document context state) :=
  Counts.document (Deepens.levels bottom (Nat.zero_add _) (Nat.le_add_right ..)) (Nat.zero_le _)
    nofun

end Counted

/-- No shape of a schema that is read is higher than the limit admits. -/
theorem Settings.shallow_of_parseWith {settings : Settings}
    (read : settings.parseWith check text = .ok schema) :
    ∀ entry ∈ schema.shapes, entry.2.Shallow := by
  obtain ⟨journal, derives, rfl⟩ := derives_of_parseWith read
  have initial : Journal.Shallow ⟨settings.initialDraft, []⟩ := by
    intro entry member
    rw [initialDraft_shapes] at member
    cases member
  exact (Phrase.Shallow.document (fun _ _ => trivial) derives).2 initial

/-- With a counter, whatever tokens there are, a document is read as it is without one: the counter
alone keeps the parsers from calling each other more often than the limit admits. At each step the
counter is the number of definitions and parentheses that are open, at most the limit, and behind
each of them it is what it was before. So no triple expression of a schema is higher than four
nodes for each bracket. -/
theorem Counted.nesting_bounded (bottom : Counted TripleExpr) (more : Nat) :
    (∀ context state, let outcome := run bottom more context state
      uncounted outcome = Parser.document context state ∧
      (∀ entry ∈ (counted outcome).notes, entry.Right) ∧
      ∀ stop, outcome = .ok () stop → stop.depth = 0) ∧
    ∀ (settings : Settings) check text schema, settings.parseWith check text = .ok schema →
      ∀ entry ∈ schema.shapes, ∀ node ∈ entry.2.nodes, node.height ≤ 128 := by
  refine ⟨fun context state => ?_, fun _ _ _ _ read entry member node inside => ?_⟩
  · have agrees := run_agrees bottom more context state
    dsimp only
    generalize run bottom more context state = outcome at agrees ⊢
    generalize Parser.document context state = outcome' at agrees ⊢
    cases agrees with
    | ok right => exact ⟨rfl, right, fun _ same => by cases same; rfl⟩
    | error right => exact ⟨rfl, right, nofun⟩
  · exact (Settings.shallow_of_parseWith read entry member).height_le inside

/-- A shape in place stands between parentheses; three brackets are open there. -/
theorem Counted.nesting_bounded_inPlace :
    let text := "<a:s> \x7b (<a:p> . , <a:q> \x7b <a:t> . \x7d)+ | <a:r> . \x7d"
    let check := fun text : String => Iri.check text.toList
    let context : Context := ⟨check, false, Text.width text.toList, none⟩
    let state : State := ⟨(TokenSequence.ofText text.toList).lexemes, Draft.empty⟩
    let notes := (counted (run (read (Parser.object .nesting)) 0 context state)).notes
    (∀ entry ∈ notes, entry.Right) ∧
      .step 3 [.definition, .parentheses, .definition] ∈ notes ∧
      .closed .definition 2 2 ∈ notes ∧
      ∃ schema, Settings.default.parseWith check text = .ok schema ∧
        (∀ entry ∈ schema.shapes, ∀ node ∈ entry.2.nodes, node.height ≤ 128) ∧
        schema.shapes.map (fun entry => entry.2.nodes.map TripleExpr.height) =
          [[1], [3, 2, 1, 1, 1]] := by
  intro text check context state notes
  obtain ⟨runs, low⟩ := nesting_bounded (read (Parser.object .nesting)) 0
  have heights : (Settings.default.parseWith check text).map (fun schema =>
      schema.shapes.map fun entry => entry.2.nodes.map TripleExpr.height) =
        .ok [[1], [3, 2, 1, 1, 1]] := by
    decide +kernel
  refine ⟨(runs context state).2.1, by decide +kernel, by decide +kernel, ?_⟩
  cases parsed : Settings.default.parseWith check text with
  | error => rw [parsed] at heights; cases heights
  | ok schema =>
    rw [parsed] at heights
    exact ⟨schema, rfl, low _ _ _ _ parsed, Except.ok.inj heights⟩

end ShExCompact
