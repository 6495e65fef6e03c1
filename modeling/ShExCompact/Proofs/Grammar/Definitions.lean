import Mathlib.Data.List.Basic
import ShExCompact.Proofs.Drafts.Inlining
import ShExCompact.Proofs.Drafts.Registrations
import ShExCompact.Proofs.Grammar.FlatPhrases

/-! Where the shape definitions of a document stand. Each brace that is closed ends one of them, and
what is declared are the definitions in the order in which they end. -/
namespace ShExCompact

/-! ### Places -/

/-- What is open behind some tokens: how many braces, and whether clauses of a definition. -/
structure Place where
  depth : Nat
  inClauses : Bool

namespace Place

/-- No clause is open. -/
def clear (depth : Nat) : Place := ⟨depth, false⟩

/-- The place behind one more token. The names of a clause go on with it. -/
def next (place : Place) : Token → Place
  | .punct .openBrace => clear (place.depth + 1)
  | .punct .closeBrace => clear (place.depth - 1)
  | .punct .ampersand | .keyword .extra | .keyword .closed => ⟨place.depth, true⟩
  | .iriRef _ | .prefixedName .. | .blankNode _ | .keyword .type => place
  | _ => clear place.depth

/-- The place behind the first tokens of a text. -/
def after (tokens : List Token) : Place := tokens.foldl next (clear 0)

theorem after_append (front rest : List Token) :
    after (front ++ rest) = rest.foldl next (after front) := List.foldl_append

theorem after_closeBrace {depth : Nat} (ends : (after tokens).depth = depth + 1) :
    after (tokens ++ [.punct .closeBrace]) = clear depth := by
  rw [after_append]
  change clear ((after tokens).depth - 1) = clear depth
  rw [ends, Nat.add_sub_cancel]

theorem depth_clear {depth : Nat} (same : place = clear depth) : place.depth = depth := same ▸ rfl

theorem next_clear (flat : Token.isFlat token) (depth : Nat) :
    (clear depth).next token = clear depth := by
  unfold next
  split <;> first | rfl | cases flat

theorem depth_next (flat : Token.isFlat token) (place : Place) :
    (place.next token).depth = place.depth := by
  unfold next
  split <;> first | rfl | cases flat

/-- What flat tokens keep holds behind them. -/
theorem after_flat {holds : Place → Prop}
    (keeps : ∀ token place, Token.isFlat token → holds place → holds (place.next token))
    (flat : ∀ token ∈ tokens, Token.isFlat token) (here : holds (after front)) :
    holds (after (front ++ tokens)) := by
  rw [after_append]
  generalize after front = place at here ⊢
  induction tokens generalizing place with
  | nil => exact here
  | cons token tokens ih =>
    obtain ⟨first, others⟩ := List.forall_mem_cons.mp flat
    exact ih others (place.next token) (keeps token place first here)

theorem after_flat_clear {depth : Nat} (flat : ∀ token ∈ tokens, Token.isFlat token)
    (here : after front = clear depth) : after (front ++ tokens) = clear depth := by
  have keeps : ∀ token place, Token.isFlat token → place = clear depth →
      place.next token = clear depth := fun _ _ flat here => here ▸ next_clear flat depth
  exact after_flat keeps flat here

end Place

/-- The numbers of the tokens that close a brace. -/
def closings (start : Nat) (tokens : List Token) : List Nat :=
  tokens.findIdxs (· = .punct .closeBrace) start

theorem closings_append (start : Nat) (front rest : List Token) :
    closings start (front ++ rest) = closings start front ++ closings (start + front.length) rest :=
  List.findIdxs_append

theorem closings_flat (flat : ∀ token ∈ tokens, Token.isFlat token) (start : Nat) :
    closings start tokens = [] := by
  apply List.findIdxs_eq_nil_iff.mpr
  intro token member
  have here := flat token member
  apply decide_eq_false
  rintro rfl
  cases here

/-! ### Definitions -/

/-- A shape definition: the numbers of its first token and of the brace that ends it, and what it
declares. -/
structure Definition where
  first : Nat
  last : Nat
  entry : Registration

namespace Definition

/-- A definition that stands between other braces. Its shape is declared where it ends. -/
inductive Nested (context : Context) (before tokens : List Token) (journal later : Journal) :
    Definition → Prop where
  | mk (front body rest : List Token)
      (split : tokens = front ++ (body ++ .punct .closeBrace :: rest))
      (place : Place.after (before ++ front) = .clear (depth + 1))
      (inlines : Relation.ReflTransGen Journal.Inlines journal start)
      (derives : (Grammar.shapeDefinition (Grammar.nested left)).Derives context
        (body ++ [.punct .closeBrace]) start shape stop)
      (goesOn : Relation.ReflTransGen Journal.Inlines (stop.inPlace shape) later) :
      Nested context before tokens journal later
        ⟨before.length + front.length, before.length + front.length + body.length,
          .inPlace stop.draft.freshLabel.1 shape⟩

theorem Nested.behind (nested : Nested context before tokens journal later definition) :
    before.length ≤ definition.first := by
  obtain ⟨front, body, rest, -, -, -, -, -⟩ := nested
  exact Nat.le_add_right ..

theorem Nested.isInline (nested : Nested context before tokens journal later definition) :
    definition.entry.isInline := by
  obtain ⟨front, body, rest, -, -, -, -, -⟩ := nested
  rfl

theorem Nested.append (nested : Nested context before tokens journal middle definition)
    (goesOn : Relation.ReflTransGen Journal.Inlines middle later) (rest : List Token) :
    Nested context before (tokens ++ rest) journal later definition := by
  obtain ⟨front, body, more, rfl, place, inlines, derives, goesOn'⟩ := nested
  refine .mk front body (more ++ rest) ?_ place inlines derives (goesOn'.trans goesOn)
  simp only [List.append_assoc, List.cons_append]

theorem Nested.prepend
    (nested : Nested context (before ++ front) tokens middle later definition)
    (inlines : Relation.ReflTransGen Journal.Inlines journal middle) :
    Nested context before (front ++ tokens) journal later definition := by
  obtain ⟨lead, body, rest, rfl, place, inlines', derives, goesOn⟩ := nested
  rw [List.append_assoc] at place
  have moved := Nested.mk (front ++ lead) body rest (List.append_assoc ..).symm place
    (inlines.trans inlines') derives goesOn
  simpa only [List.length_append, Nat.add_assoc] using moved

end Definition

/-- The definitions in the tokens of an expression: what is declared and which braces are closed. -/
structure Inner (context : Context) (before tokens : List Token) (journal later : Journal)
    (definitions : List Definition) : Prop where
  inlines : Relation.ReflTransGen Journal.Inlines journal later
  log : later.log = journal.log ++ definitions.map Definition.entry
  closes : definitions.map Definition.last = closings before.length tokens
  stand : ∀ definition ∈ definitions, definition.Nested context before tokens journal later

theorem Inner.flat (flat : ∀ token ∈ tokens, Token.isFlat token) :
    Inner context before tokens journal journal [] where
  inlines := .refl
  log := (List.append_nil _).symm
  closes := (closings_flat flat _).symm
  stand := nofun

theorem Inner.append (first : Inner context before front journal middle definitions)
    (second : Inner context (before ++ front) rest middle later others) :
    Inner context before (front ++ rest) journal later (definitions ++ others) where
  inlines := first.inlines.trans second.inlines
  log := by rw [second.log, first.log, List.map_append, List.append_assoc]
  closes := by
    rw [closings_append, List.map_append, first.closes, second.closes, List.length_append]
  stand := List.forall_mem_append.mpr
    ⟨fun definition member => (first.stand definition member).append second.inlines rest,
      fun definition member => (second.stand definition member).prepend first.inlines⟩

/-! ### Expressions -/

namespace Phrase

/-- Wherever it begins at a place of one kind, a phrase ends at a place of another, and it declares
the definitions in it in the order in which they are closed. -/
def Tracks (pre : Place → Prop) (g : Phrase α) (post : Place → Prop) : Prop :=
  ∀ ⦃context before tokens journal value later⦄, pre (.after before) →
    g.Derives context tokens journal value later →
    post (.after (before ++ tokens)) ∧
      ∃ definitions, Inner context before tokens journal later definitions

namespace Tracks

variable {pre middle post : Place → Prop} {g h : Phrase α} {i : α → Phrase β}

theorem imp {pre' post' : Place → Prop} (tracks : Tracks pre g post)
    (stronger : ∀ place, pre' place → pre place) (weaker : ∀ place, post place → post' place) :
    Tracks pre' g post' :=
  fun _ _ _ _ _ _ here derives => (tracks (stronger _ here) derives).imp_left (weaker _)

theorem of_flat (flat : Flat g)
    (keeps : ∀ token place, token.isFlat → pre place → pre (place.next token)) :
    Tracks pre g pre := by
  intro context before tokens journal value later here derives
  obtain ⟨rfl, flat⟩ := flat derives
  exact ⟨Place.after_flat keeps flat here, [], .flat flat⟩

theorem flat (flat : Flat g) (depth : Nat) : Tracks (· = .clear depth) g (· = .clear depth) :=
  of_flat flat fun _ _ flat here => here ▸ Place.next_clear flat depth

theorem flat_depth (flat : Flat g) (depth : Nat) :
    Tracks (·.depth = depth) g (·.depth = depth) :=
  of_flat flat fun _ place flat here => (Place.depth_next flat place).trans here

theorem exactly (other : token ≠ .punct .closeBrace)
    (moves : ∀ place, pre place → post (place.next token)) : Tracks pre (exactly token) post := by
  rintro context before tokens journal value later here ⟨_, rfl, rfl, rfl⟩
  refine ⟨?_, [], .refl, (List.append_nil _).symm, ?_, nofun⟩
  · rw [Place.after_append]
    exact moves _ here
  · simp [closings, other]

theorem never : Tracks pre (failure : Phrase α) post := fun _ _ _ _ _ _ _ never => never.elim

theorem bind (first : Tracks pre g middle) (later : ∀ value, Tracks middle (i value) post) :
    Tracks pre (g >>= i) post := by
  rintro context before tokens journal result last here
    ⟨front, rest, value, between, rfl, derives, derives'⟩
  obtain ⟨there, definitions, inner⟩ := first here derives
  obtain ⟨ends, others, inner'⟩ := later value there derives'
  rw [List.append_assoc] at ends
  exact ⟨ends, _, inner.append inner'⟩

theorem orElse (left : Tracks pre g post) (right : Tracks pre h post) :
    Tracks pre (g <|> h) post := by
  rintro context before tokens journal value later here (derives | derives)
  · exact left here derives
  · exact right here derives

theorem done (value : α) (weaker : ∀ place, pre place → post place) :
    Tracks pre (pure value) post := by
  rintro context before tokens journal result later here ⟨rfl, -, rfl⟩
  refine ⟨?_, [], .flat nofun⟩
  rw [List.append_nil]
  exact weaker _ here

theorem optional (tracks : Tracks pre g post) (weaker : ∀ place, pre place → post place) :
    Tracks pre (optional g) post := by
  refine .orElse ?_ (.done none weaker)
  rw [map_eq_pure_bind]
  exact .bind tracks fun value => .done (some value) fun _ => id

theorem many (tracks : Tracks pre g pre) : Tracks pre (many g) pre := by
  intro context before tokens journal values later here repeats
  change g.Repeats context tokens journal values later at repeats
  induction repeats generalizing before with
  | done => exact ⟨by rwa [List.append_nil], [], .flat nofun⟩
  | more first _ ih =>
    obtain ⟨there, definitions, inner⟩ := tracks here first
    obtain ⟨ends, others, inner'⟩ := ih there
    rw [List.append_assoc] at ends
    exact ⟨ends, _, inner.append inner'⟩

theorem separated {separator : Phrase Unit} (between : Tracks post separator pre)
    (tracks : Tracks pre g post) : Tracks pre (separated separator g) post :=
  .bind tracks fun _ => .bind (.many (.bind between fun _ => tracks)) fun _ => .done _ fun _ => id

theorem kept (depth : Nat) :
    Kept fun {α} (g : Phrase α) => Tracks (· = .clear depth) g (· = .clear depth) where
  flat flat := .flat flat depth
  bind first later := .bind first later
  orElse left right := .orElse left right
  many each := .many each

end Tracks

end Phrase

namespace Grammar

open Phrase (Tracks Flat)

/-- A sign between operands ends the clauses before it. -/
theorem sign_tracks (punct : Punct) (other : Token.punct punct ≠ .punct .closeBrace)
    (moves : ∀ place : Place, place.next (.punct punct) = .clear place.depth) (depth : Nat) :
    Tracks (·.depth = depth) (Phrase.sign punct) (· = .clear depth) :=
  .exactly other fun place here => here ▸ moves place

/-- The names of a clause do not end it, so a definition may go on with another one. -/
theorem clause_tracks (depth : Nat) : Tracks (·.depth = depth) clause (·.depth = depth) := by
  have opener {token : Token} (other : token ≠ .punct .closeBrace)
      (opens : ∀ place : Place, (place.next token).depth = place.depth) :
      Tracks (·.depth = depth) (Phrase.exactly token) (·.depth = depth) :=
    .exactly other fun place here => (opens place).trans here
  have rest {α : Type} {g : Phrase α} (flat : Flat g) :
      Tracks (·.depth = depth) g (·.depth = depth) := .flat_depth flat depth
  refine .orElse ?_ (.orElse ?_ ?_)
  · exact .bind (opener nofun fun _ => rfl) fun _ => rest
      (.bind (.several .label) fun _ => .done _)
  · exact .bind (opener nofun fun _ => rfl) fun _ => rest
      (.bind (.several .predicate) fun _ => .done _)
  · exact .bind (opener nofun fun _ => rfl) fun _ => rest (.done _)

section

variable {left depth : Nat}
  (deeper : ∀ depth, ∀ body ∈ nested left, Tracks (· = .clear (depth + 1)) body
    (·.depth = depth + 1))

include deeper

/-- A definition ends with the brace that closes it, and those in it end before. -/
theorem shapeDefinition_ends (here : Place.after before = .clear depth)
    (derives : (shapeDefinition (nested left)).Derives context tokens journal declared later) :
    ∃ body definitions, tokens = body ++ [.punct .closeBrace] ∧
      Place.after (before ++ tokens) = .clear depth ∧
      Inner context before body journal later definitions := by
  cases left with
  | zero => exact derives.elim
  | succ left =>
    obtain ⟨clauses, _, values, _, rfl, many, _, _, -, _, rfl, ⟨_, rfl, rfl, rfl⟩, content, _,
      expression, _, rfl, content', _, _, -, _, rfl, ⟨_, rfl, rfl, rfl⟩, rfl, rfl, rfl⟩ := derives
    -- By the depth alone: a clause may still be open where another one, or the brace, begins.
    have opener : Tracks (·.depth = depth) (do
        let _ ← Phrase.many clause
        Phrase.sign .openBrace
        optional (oneOf (nested left))) (·.depth = depth + 1) :=
      .bind (.many (clause_tracks depth)) fun _ =>
        .bind (.exactly nofun fun place same => same ▸ rfl) fun _ =>
          (deeper depth _ rfl).optional fun place same => same ▸ rfl
    have outside : (Place.after before).depth = depth := Place.depth_clear here
    obtain ⟨ends, definitions, inner⟩ := opener outside
      ⟨clauses, _, values, _, rfl, many, _, content, (), _, rfl, ⟨_, rfl, rfl, rfl⟩, content'⟩
    have split : clauses ++ ([.punct .openBrace] ++ (content ++ ([.punct .closeBrace] ++ []))) =
        clauses ++ ([.punct .openBrace] ++ content) ++ [.punct .closeBrace] := by
      simp only [List.append_assoc, List.append_nil]
    refine ⟨_, definitions, split, ?_, inner⟩
    rw [split, ← List.append_assoc, Place.after_closeBrace ends]

/-- A definition in place is declared where it ends, behind those in it. -/
theorem inPlace_tracks (depth : Nat) :
    Tracks (· = .clear (depth + 1)) (do Phrase.inPlace (← shapeDefinition (nested left)))
      (· = .clear (depth + 1)) := by
  rintro context before _ journal label later here
    ⟨tokens, _, declared, middle, rfl, derives, rfl, -, rfl⟩
  obtain ⟨body, definitions, rfl, place, inner⟩ := shapeDefinition_ends deeper here derives
  rw [List.append_nil]
  have outer : Definition.Nested context before (body ++ [.punct .closeBrace]) journal
      (middle.inPlace declared) ⟨before.length, before.length + body.length,
        .inPlace middle.draft.freshLabel.1 declared⟩ :=
    .mk [] body [] rfl (by rwa [List.append_nil]) .refl derives .refl
  have step : Journal.Inlines middle (middle.inPlace declared) := ⟨declared, rfl⟩
  refine ⟨place, definitions ++ [_], inner.inlines.tail step, ?_, ?_,
    List.forall_mem_append.mpr
      ⟨fun definition member => (inner.stand definition member).append (.single step) _,
        List.forall_mem_singleton.mpr outer⟩⟩
  · change middle.log ++ _ = _
    rw [inner.log, List.map_append, List.append_assoc]
    rfl
  · rw [List.map_append, inner.closes, closings_append]
    rfl

theorem encapsulated_tracks (depth : Nat) :
    Tracks (· = .clear (depth + 1)) (encapsulated (nested left)) (· = .clear (depth + 1)) := by
  cases left with
  | zero => exact .never
  | succ left =>
    refine .bind (.flat (.sign rfl) _) fun _ => .bind (deeper depth _ rfl) fun expression =>
      .bind (sign_tracks .closeParen nofun (fun _ => rfl) _) fun _ => .flat ?_ _
    exact .bind (.optional .cardinality) fun _ => .bind .actions fun _ => .choose _

theorem unary_tracks (depth : Nat) :
    Tracks (· = .clear (depth + 1)) (unary (nested left)) (·.depth = depth + 1) := by
  have constraint := (Tracks.kept (depth + 1)).tripleConstraint (inPlace_tracks deeper depth)
  have labelled : Tracks (· = .clear (depth + 1)) (do Phrase.sign .dollar; label)
      (· = .clear (depth + 1)) :=
    .bind ((sign_tracks .dollar nofun (fun _ => rfl) _).imp (fun _ => Place.depth_clear)
      fun _ => id) fun _ => .flat .label _
  have inclusion : Tracks (·.depth = depth + 1) inclusion (·.depth = depth + 1) :=
    .bind (.exactly nofun fun place same => same) fun _ => .flat_depth
      (.bind .label fun _ => .done _) _
  have unlabelled : Tracks (· = .clear (depth + 1)) (unlabelled (nested left))
      (·.depth = depth + 1) := by
    refine .orElse ?_ (.orElse ?_ ?_)
    · exact .bind constraint fun _ => .done _ fun _ => Place.depth_clear
    · exact inclusion.imp (fun _ => Place.depth_clear) fun _ => id
    · exact (encapsulated_tracks deeper depth).imp (fun _ => id) fun _ => Place.depth_clear
  exact .bind (labelled.optional fun _ => id) fun _ => .bind unlabelled fun _ =>
    .done _ fun _ => id

theorem oneOf_tracks (depth : Nat) :
    Tracks (· = .clear (depth + 1)) (oneOf (nested left)) (·.depth = depth + 1) := by
  have group : Tracks (· = .clear (depth + 1)) (group (nested left)) (·.depth = depth + 1) := by
    refine .bind (.separated (sign_tracks .comma nofun (fun _ => rfl) _)
      (unary_tracks deeper depth)) fun _ => .flat_depth ?_ _
    exact .bind (.mark rfl) fun _ => .done _
  have someOf : Tracks (· = .clear (depth + 1)) (someOf (nested left)) (·.depth = depth + 1) :=
    .bind (.separated (sign_tracks .doubleBar nofun (fun _ => rfl) _) group) fun _ =>
      .done _ fun _ => id
  exact .bind (.separated (sign_tracks .bar nofun (fun _ => rfl) _) someOf) fun _ =>
    .done _ fun _ => id

end

/-- On the levels that are left: in the expressions of a level stand definitions whose expressions
are of the next one. -/
theorem nested_tracks (left depth : Nat) :
    ∀ body ∈ nested left, Tracks (· = .clear (depth + 1)) body (·.depth = depth + 1) := by
  induction left generalizing depth with
  | zero => exact nofun
  | succ left ih =>
    intro body member
    cases member
    exact oneOf_tracks ih depth

end Grammar

/-! ### Statements -/

/-- A definition in a statement: it stands between other braces, at the start, or behind a label.
The actions behind a definition that stands in no other belong to its shape. -/
inductive Definition.Stands (context : Context) (before tokens : List Token)
    (journal later : Journal) : Definition → Prop where
  | nested (nested : Nested context before tokens journal middle definition)
      (goesOn : Journal.Steps middle later) :
      Stands context before tokens journal later definition
  | start (body code : List Token)
      (split : tokens = [.keyword .start, .punct .equals] ++ (body ++ .punct .closeBrace :: code))
      (derives : (Grammar.shapeDefinition Grammar.outermost).Derives context
        (body ++ [.punct .closeBrace]) journal shape stop)
      (acts : Grammar.actions.Derives context code stop actions stop)
      (ends : later = (stop.inPlace { shape with actions := actions }).declare
        (·.setStart stop.draft.freshLabel.1)) :
      Stands context before tokens journal later
        ⟨before.length + 2, before.length + 2 + body.length,
          .inPlace stop.draft.freshLabel.1 { shape with actions := actions }⟩
  | stated (front : List Token) (name : Token) (body code : List Token)
      (split : tokens = (front ++ [name]) ++ (body ++ .punct .closeBrace :: code))
      (marks : (Phrase.markWord .virtual).Derives context front journal isVirtual journal)
      (means : Grammar.LabelOf context journal.draft name label)
      (derives : (Grammar.shapeDefinition Grammar.outermost).Derives context
        (body ++ [.punct .closeBrace]) journal shape stop)
      (acts : Grammar.actions.Derives context code stop actions stop)
      (ends : later = stop.stated label
        { shape with isVirtual := isVirtual, actions := actions }) :
      Stands context before tokens journal later
        ⟨before.length + (front ++ [name]).length,
          before.length + (front ++ [name]).length + body.length,
          .stated label { shape with isVirtual := isVirtual, actions := actions }⟩

theorem Definition.Stands.behind
    (stands : Definition.Stands context before tokens journal later definition) :
    before.length ≤ definition.first := by
  cases stands with
  | nested nested => exact nested.behind
  | start | stated => exact Nat.le_add_right ..

/-- The definitions in the tokens of a statement. All but the last of them stand in place. -/
structure Outer (context : Context) (before tokens : List Token) (journal later : Journal)
    (definitions : List Definition) : Prop where
  log : later.log = journal.log ++ definitions.map Definition.entry
  closes : definitions.map Definition.last = closings before.length tokens
  stand : ∀ definition ∈ definitions, definition.Stands context before tokens journal later
  inner : definitions.Pairwise fun inner _ => inner.entry.isInline

theorem Outer.flat (flat : ∀ token ∈ tokens, Token.isFlat token) (log : later.log = journal.log) :
    Outer context before tokens journal later [] where
  log := log.trans (List.append_nil _).symm
  closes := (closings_flat flat _).symm
  stand := nofun
  inner := .nil

/-- A definition between flat tokens is declared behind those in it. -/
theorem Inner.outer {outer : Definition}
    (inner : Inner context (before ++ front) body journal later definitions)
    (flat : ∀ token ∈ front, Token.isFlat token) (flat' : ∀ token ∈ code, Token.isFlat token)
    (stands : outer.Stands context before (front ++ (body ++ .punct .closeBrace :: code)) journal
      last)
    (ends : outer.last = before.length + front.length + body.length)
    (goesOn : Journal.Steps later last) (log : last.log = later.log ++ [outer.entry]) :
    Outer context before (front ++ (body ++ .punct .closeBrace :: code)) journal last
      (definitions ++ [outer]) where
  log := by rw [log, inner.log, List.map_append, List.append_assoc, List.map_singleton]
  closes := by
    have behind : closings outer.last (.punct .closeBrace :: code) = [outer.last] := by
      unfold closings
      rw [List.findIdxs_cons, if_pos (decide_eq_true rfl)]
      exact congrArg (outer.last :: ·) (closings_flat flat' _)
    rw [closings_append, closings_append, closings_flat flat, ← ends, behind, List.map_append,
      inner.closes, List.length_append, List.nil_append, List.map_singleton]
  stand definition member := by
    rcases List.mem_append.mp member with old | last
    · exact .nested (((inner.stand definition old).append .refl _).prepend .refl) goesOn
    · exact List.mem_singleton.mp last ▸ stands
  inner := by
    refine List.pairwise_append.mpr ⟨?_, List.pairwise_singleton .., ?_⟩
    · exact List.pairwise_of_forall_mem_list fun definition member _ _ =>
        (inner.stand definition member).isInline
    · exact fun definition member _ _ => (inner.stand definition member).isInline

namespace Grammar

theorem flat_definitions (here : Place.after before = .clear 0)
    (flat : ∀ token ∈ tokens, Token.isFlat token) (log : later.log = journal.log) :
    Place.after (before ++ tokens) = .clear 0 ∧
      ∃ definitions, Outer context before tokens journal later definitions :=
  ⟨Place.after_flat_clear flat here, [], .flat flat log⟩

/-- A definition that stands in no other, between flat tokens and its actions. -/
theorem outermost_definitions (here : Place.after before = .clear 0)
    (flat : ∀ token ∈ front, Token.isFlat token)
    (derives : (shapeDefinition outermost).Derives context tokens journal declared later)
    (acts : actions.Derives context code later entries middle) :
    middle = later ∧ ∃ body, tokens = body ++ [.punct .closeBrace] ∧
      ∀ {outer : Definition} {last : Journal},
        outer.Stands context before (front ++ (body ++ .punct .closeBrace :: code)) journal last →
        outer.last = before.length + front.length + body.length →
        Journal.Steps later last → last.log = later.log ++ [outer.entry] →
        Place.after (before ++ (front ++ (body ++ .punct .closeBrace :: code))) = .clear 0 ∧
          ∃ definitions, Outer context before (front ++ (body ++ .punct .closeBrace :: code))
            journal last definitions := by
  obtain ⟨rfl, flat'⟩ := Phrase.Flat.actions acts
  obtain ⟨body, definitions, rfl, place, inner⟩ := shapeDefinition_ends
    (nested_tracks nestingLimit) (Place.after_flat_clear flat here) derives
  refine ⟨rfl, body, rfl, fun stands ends goesOn log =>
    ⟨?_, _, inner.outer flat flat' stands ends goesOn log⟩⟩
  have behind := Place.after_flat_clear flat' place
  simpa only [List.append_assoc, List.singleton_append] using behind

theorem start_definitions (here : Place.after before = .clear 0)
    (derives : start.Derives context tokens journal () later) :
    Place.after (before ++ tokens) = .clear 0 ∧
      ∃ definitions, Outer context before tokens journal later definitions := by
  obtain ⟨_, _, -, start, rfl, ⟨_, rfl, rfl, rfl⟩, _, _, -, _, rfl, ⟨_, rfl, rfl, rfl⟩, tokens, _,
    label, middle, rfl, labelled, rfl, rfl⟩ := derives
  have opener : ∀ token ∈ [Token.keyword .start, .punct .equals], token.isFlat := by decide
  have joined (tokens : List Token) : [Token.keyword .start] ++ ([.punct .equals] ++
      (tokens ++ [])) = [.keyword .start, .punct .equals] ++ tokens := by simp
  rw [joined]
  rcases labelled with named | named | ⟨tokens, _, declared, between, rfl, derives, code, _,
    entries, _, rfl, acts, rfl, rfl, rfl⟩
  · obtain ⟨rfl, flat⟩ := Phrase.Flat.label named
    exact flat_definitions here (List.forall_mem_append.mpr ⟨opener, flat⟩) rfl
  · obtain ⟨rfl, flat⟩ := Phrase.Flat.reference named
    exact flat_definitions here (List.forall_mem_append.mpr ⟨opener, flat⟩) rfl
  · obtain ⟨rfl, body, rfl, ends⟩ := outermost_definitions here opener derives acts
    rw [List.append_nil, List.append_assoc, List.singleton_append]
    exact ends (.start body code rfl derives acts rfl) rfl
      ((Relation.ReflTransGen.single (.inPlace ..)).tail (.start ..)) rfl

theorem shape_definitions (here : Place.after before = .clear 0)
    (derives : shape.Derives context tokens journal () later) :
    Place.after (before ++ tokens) = .clear 0 ∧
      ∃ definitions, Outer context before tokens journal later definitions := by
  obtain ⟨front, _, isVirtual, start, rfl, marks, _, _, label, _, rfl, ⟨name, rfl, means, rfl⟩,
    tokens, _, declared, _, rfl, derives, code, _, entries, _, rfl, acts, rfl, rfl⟩ := derives
  obtain ⟨rfl, flatMark⟩ := Phrase.Flat.markWord rfl marks
  have opener : ∀ token ∈ front ++ [name], token.isFlat :=
    List.forall_mem_append.mpr
      ⟨flatMark, List.forall_mem_singleton.mpr (Phrase.Flat.isFlat_of_label means)⟩
  obtain ⟨rfl, body, rfl, ends⟩ := outermost_definitions here opener derives acts
  have joined : front ++ ([name] ++ (body ++ [.punct .closeBrace] ++ (code ++ []))) =
      front ++ [name] ++ (body ++ .punct .closeBrace :: code) := by simp
  rw [joined]
  exact ends (.stated front name body code rfl marks means derives acts rfl) rfl
    (.single (.stated ..)) rfl

end Grammar

end ShExCompact
