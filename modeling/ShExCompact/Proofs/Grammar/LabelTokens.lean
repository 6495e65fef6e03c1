import ShExCompact.Proofs.Grammar.FlatPhrases
import ShExCompact.Proofs.Grammar.SyntaxTrees

/-! The tokens of labels behind dollar signs, in the order in which they stand. Shapes in place
stand between braces, so the tokens of their labels can be told apart without a grammar. Most
phrases hold no such token. -/
namespace ShExCompact

open Grammar (LabelOf)

/-- The tokens behind dollar signs that stand between no braces, where `depth` braces are open. -/
def labelTokens : (depth : Nat) → List Token → List Token
  | _, [] => []
  | depth, .punct .openBrace :: rest => labelTokens (depth + 1) rest
  | depth, .punct .closeBrace :: rest => labelTokens (depth - 1) rest
  | 0, .punct .dollar :: token :: rest => token :: labelTokens 0 rest
  | depth, _ :: rest => labelTokens depth rest

/-- Tokens that neither open nor close a brace and are no dollar sign. -/
def Token.isPlain : Token → Bool
  | .punct .openBrace | .punct .closeBrace | .punct .dollar => false
  | _ => true

theorem Token.isPlain_of_isFlat (flat : Token.isFlat token) : token.isPlain := by
  unfold Token.isPlain
  split
  case h_4 => rfl
  all_goals cases flat

theorem labelTokens_plain (plain : token.isPlain) (depth : Nat) (rest : List Token) :
    labelTokens depth (token :: rest) = labelTokens depth rest := by
  cases token with
  | punct sign => cases sign <;> first | (cases depth <;> rfl) | cases plain
  | _ => cases depth <;> rfl

theorem labelTokens_openBrace (depth : Nat) (rest : List Token) :
    labelTokens depth (.punct .openBrace :: rest) = labelTokens (depth + 1) rest := by
  cases depth <;> rfl

theorem labelTokens_closeBrace (depth : Nat) (rest : List Token) :
    labelTokens (depth + 1) (.punct .closeBrace :: rest) = labelTokens depth rest := rfl

theorem labelTokens_dollar_inside (depth : Nat) (rest : List Token) :
    labelTokens (depth + 1) (.punct .dollar :: rest) = labelTokens (depth + 1) rest := by
  cases rest <;> rfl

/-! ### Names -/

/-- Two drafts in which the names of IRIs are the same. -/
structure Draft.SameNames (draft later : Draft) : Prop where
  prefixes : later.prefixes = draft.prefixes
  base : later.base = draft.base

namespace Draft.SameNames

theorem refl (draft : Draft) : draft.SameNames draft := ⟨rfl, rfl⟩

theorem trans (first : Draft.SameNames draft middle) (second : Draft.SameNames middle later) :
    draft.SameNames later :=
  ⟨second.prefixes.trans first.prefixes, second.base.trans first.base⟩

/-- A token denotes the same label in both. -/
theorem labelOf (same : Draft.SameNames draft later) (means : LabelOf context later token label) :
    LabelOf context draft token label := by
  cases means with
  | blank => exact .blank
  | iri means =>
    apply LabelOf.iri
    cases means with
    | @reference text valid =>
      have resolved : later.resolve text = draft.resolve text := by
        unfold Draft.resolve
        rw [same.base]
      rw [resolved] at valid ⊢
      exact .reference valid
    | @name space localPart text bound valid =>
      apply Grammar.IriOf.name ?_ valid
      unfold Draft.expand? at bound ⊢
      rwa [← same.prefixes]

end Draft.SameNames

/-! ### Phrases without labels -/

namespace Phrase

/-- What a phrase derives keeps the names and holds no label, wherever it stands. -/
def Quiet (g : Phrase α) : Prop :=
  ∀ ⦃context tokens journal value later⦄, g.Derives context tokens journal value later →
    journal.draft.SameNames later.draft ∧
      ∀ depth rest, labelTokens depth (tokens ++ rest) = labelTokens depth rest

/-- What a phrase derives keeps the names and holds no label between braces. -/
def Hidden (g : Phrase α) : Prop :=
  ∀ ⦃context tokens journal value later⦄, g.Derives context tokens journal value later →
    journal.draft.SameNames later.draft ∧
      ∀ depth rest, labelTokens (depth + 1) (tokens ++ rest) = labelTokens (depth + 1) rest

variable {g h : Phrase α} {i : α → Phrase β}

namespace Hidden

theorem optional (hidden : Hidden g) : Hidden (optional g) := by
  rintro context tokens journal value later (derives | ⟨rfl, -, rfl⟩)
  · obtain ⟨value, -, derives⟩ := Reading.of_derives_map derives
    exact hidden derives
  · exact ⟨.refl _, fun _ _ => rfl⟩

/-- Braces hide the labels between them. -/
theorem braces (hidden : Hidden g) (f : α → β) : Quiet (do
    sign .openBrace
    let value ← g
    sign .closeBrace
    return f value) := by
  rintro context tokens journal result last ⟨_, _, -, _, rfl, ⟨_, rfl, opens, rfl⟩, front, _, value,
    middle, rfl, derives, _, _, -, _, rfl, ⟨_, rfl, closes, rfl⟩, rfl, -, rfl⟩
  obtain ⟨names, hides⟩ := hidden derives
  refine ⟨names, fun depth rest => ?_⟩
  rw [opens, closes]
  simp only [List.append_assoc, List.cons_append, List.nil_append]
  rw [labelTokens_openBrace, hides, labelTokens_closeBrace]

end Hidden

namespace Quiet

theorem done (value : α) : Quiet (pure value) := by
  rintro context tokens journal result later ⟨rfl, -, rfl⟩
  exact ⟨.refl _, fun _ _ => rfl⟩

theorem never : Quiet (failure : Phrase α) := fun _ _ _ _ _ never => never.elim

theorem bind (first : Quiet g) (later : ∀ value, Quiet (i value)) : Quiet (g >>= i) := by
  rintro context tokens journal result last ⟨front, rest, value, middle, rfl, derives, derives'⟩
  obtain ⟨names, quiet⟩ := first derives
  obtain ⟨names', quiet'⟩ := later value derives'
  refine ⟨names.trans names', fun depth more => ?_⟩
  rw [List.append_assoc, quiet, quiet']

theorem orElse (left : Quiet g) (right : Quiet h) : Quiet (g <|> h) := by
  rintro context tokens journal value later (derives | derives)
  · exact left derives
  · exact right derives

theorem many (quiet : Quiet g) : Quiet (many g) := by
  intro context tokens journal values later repeats
  change g.Repeats context tokens journal values later at repeats
  induction repeats with
  | done => exact ⟨.refl _, fun _ _ => rfl⟩
  | more first _ ih =>
    obtain ⟨names, quiet⟩ := quiet first
    obtain ⟨names', quiet'⟩ := ih
    refine ⟨names.trans names', fun depth more => ?_⟩
    rw [List.append_assoc, quiet, quiet']

theorem several (quiet : Quiet g) : Quiet (several g) :=
  .bind quiet fun _ => .bind (.many quiet) fun _ => .done _

theorem exactly (plain : token.isPlain) : Quiet (exactly token) := by
  rintro context tokens journal value later ⟨_, rfl, rfl, rfl⟩
  exact ⟨.refl _, fun depth rest => labelTokens_plain plain depth rest⟩

theorem sign (plain : (Token.punct punct).isPlain) : Quiet (sign punct) := .exactly plain

theorem word (keyword : Keyword) : Quiet (word keyword) := .exactly rfl

theorem inPlace (shape : Shape) : Quiet (inPlace shape) := by
  rintro context tokens journal label later ⟨rfl, -, rfl⟩
  exact ⟨⟨rfl, rfl⟩, fun _ _ => rfl⟩

end Quiet

theorem Flat.quiet (flat : Flat g) : Quiet g := by
  intro context tokens journal value later derives
  obtain ⟨rfl, flat⟩ := flat derives
  refine ⟨.refl _, fun depth rest => ?_⟩
  clear derives
  induction tokens with
  | nil => rfl
  | cons token tokens ih =>
    obtain ⟨here, behind⟩ := List.forall_mem_cons.mp flat
    exact (labelTokens_plain (Token.isPlain_of_isFlat here) depth _).trans (ih behind)

namespace Quiet

/-! ### Productions without labels -/

theorem clause : Quiet Grammar.clause := by
  refine .orElse ?_ (.orElse ?_ ?_)
  · exact .bind (.sign rfl) fun _ => .bind (.several Flat.label.quiet) fun _ => .done _
  · exact .bind (.word _) fun _ => .bind (.several Flat.predicate.quiet) fun _ => .done _
  · exact .bind (.word _) fun _ => .done _

section Inner

variable {inner : Option (Phrase TripleExpr)} (deeper : ∀ body ∈ inner, Hidden body)

include deeper

theorem shapeDefinition : Quiet (Grammar.shapeDefinition inner) := by
  cases inner with
  | none => exact .never
  | some body =>
    exact .bind (.many .clause) fun clauses => (deeper body rfl).optional.braces fun expression =>
      { clauses.foldl Parser.Clause.addTo Shape.empty with expression := expression }

theorem tripleConstraint : Quiet (Grammar.tripleConstraint inner) := by
  have kept : Kept Quiet := ⟨Flat.quiet, .bind, .orElse, .many⟩
  exact kept.tripleConstraint (.bind (.shapeDefinition deeper) fun shape => .inPlace shape)

end Inner

end Quiet

end Phrase

end ShExCompact
