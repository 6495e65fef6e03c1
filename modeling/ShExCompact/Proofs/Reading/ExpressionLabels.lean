import ShExCompact.Proofs.Grammar.TreeLabels
import ShExCompact.Proofs.Reading.Documents

/-! Which labels a triple expression keeps of those that are written in it. Parentheses may leave
two labels for one node, and then only the outer one is kept. -/
namespace ShExCompact

/-! ### The labels of an expression -/

namespace TripleExpr

mutual

/-- The labels of an expression and of what it is made of, each node before its parts and the parts
from left to right. -/
def ids : TripleExpr → List Label
  | oneOf id branches | someOf id branches => id.toList ++ idsOf branches
  | group id members _ _ => id.toList ++ idsOf members
  | constraint id _ | inclusion id _ => id.toList

def idsOf : List TripleExpr → List Label
  | [] => []
  | expr :: rest => ids expr ++ idsOf rest

end

/-- The labels of the parts of an expression. -/
def innerIds : TripleExpr → List Label
  | oneOf _ branches | someOf _ branches => idsOf branches
  | group _ members _ _ => idsOf members
  | constraint .. | inclusion .. => []

theorem ids_eq (expr : TripleExpr) : expr.ids = expr.id.toList ++ expr.innerIds := by
  cases expr with
  | oneOf | someOf | group => rw [ids, id, innerIds]
  | constraint | inclusion => rw [ids, id, innerIds, List.append_nil]

theorem ids_withId (label : Label) (expr : TripleExpr) :
    (expr.withId label).ids = label :: expr.innerIds := by
  rw [ids_eq]
  cases expr <;> rfl

/-- What is put around an expression has no label of its own. -/
theorem ids_wrap (expr : TripleExpr) (cardinality : Option Cardinality) (code : Actions) :
    (expr.wrap cardinality code).ids = expr.ids := by
  generalize held : expr.wrap cardinality code = result
  cases Reading.wrapped_iff.mpr held.symm with
  | itself => rfl
  | merged _ isGroup =>
    rw [isGroup, ids, ids]
  | around =>
    rw [ids, idsOf, idsOf, List.append_nil]
    rfl

theorem ids_combined (connective : Connective) (exprs : List TripleExpr) :
    (Grammar.combined connective.build exprs).ids = idsOf exprs := by
  have built : ∀ exprs, (connective.build exprs).ids = idsOf exprs := by
    intro exprs
    cases connective <;> rfl
  unfold Grammar.combined
  split
  · rw [idsOf, idsOf, List.append_nil]
  · exact built _

end TripleExpr

/-! ### The labels that are kept -/

namespace SyntaxTree

mutual

/-- The labels that are kept: one that is put on an expression takes the place of the one that the
expression has. -/
def kept : SyntaxTree → List Label
  | constraint _ | inclusion _ => []
  | labelled id inner =>
    id :: if (expression inner).id.isSome then (kept inner).tail else kept inner
  | parenthesized inner _ _ => kept inner
  | joined _ operands => keptOf operands

def keptOf : List SyntaxTree → List Label
  | [] => []
  | tree :: rest => kept tree ++ keptOf rest

end

mutual

/-- How many labels are put on an expression that has one. -/
def relabelled : SyntaxTree → Nat
  | constraint _ | inclusion _ => 0
  | labelled _ inner => relabelled inner + if (expression inner).id.isSome then 1 else 0
  | parenthesized inner _ _ => relabelled inner
  | joined _ operands => relabelledOf operands

def relabelledOf : List SyntaxTree → Nat
  | [] => 0
  | tree :: rest => relabelled tree + relabelledOf rest

end

mutual

theorem ids_expression (tree : SyntaxTree) : tree.expression.ids = tree.kept := by
  cases tree with
  | constraint | inclusion => rfl
  | labelled id inner =>
    have same := ids_expression inner
    rw [TripleExpr.ids_eq] at same
    rw [expression, TripleExpr.ids_withId, kept, ← same]
    cases inner.expression.id <;> rfl
  | parenthesized inner cardinality code =>
    rw [expression, TripleExpr.ids_wrap, kept]
    exact ids_expression inner
  | joined connective operands =>
    rw [expression, TripleExpr.ids_combined, kept]
    exact ids_expressions operands

theorem ids_expressions (trees : List SyntaxTree) :
    TripleExpr.idsOf (expressions trees) = keptOf trees := by
  cases trees with
  | nil => rfl
  | cons tree rest =>
    rw [expressions, TripleExpr.idsOf, keptOf, ids_expression tree, ids_expressions rest]

end

/-- The label that an expression has is the first of those that are kept. -/
theorem kept_of_id (tree : SyntaxTree) (some : tree.expression.id.isSome) :
    ∃ label, tree.kept = label :: tree.kept.tail := by
  obtain ⟨label, held⟩ := Option.isSome_iff_exists.mp some
  have first := (ids_expression tree).symm.trans (TripleExpr.ids_eq _)
  rw [held] at first
  rw [first]
  exact ⟨label, rfl⟩

mutual

/-- The labels that are kept stand in the order in which they are written. -/
theorem kept_sublist (tree : SyntaxTree) : tree.kept.Sublist tree.labels := by
  cases tree with
  | constraint | inclusion => exact .slnil
  | labelled id inner =>
    rw [kept, labels]
    apply List.Sublist.cons_cons
    split
    · exact (List.tail_sublist _).trans (kept_sublist inner)
    · exact kept_sublist inner
  | parenthesized inner =>
    rw [kept, labels]
    exact kept_sublist inner
  | joined _ operands =>
    rw [kept, labels]
    exact keptOf_sublist operands

theorem keptOf_sublist (trees : List SyntaxTree) : (keptOf trees).Sublist (labelsOf trees) := by
  cases trees with
  | nil => exact .slnil
  | cons tree rest => exact (kept_sublist tree).append (keptOf_sublist rest)

end

mutual

/-- Every label that is put on an expression with a label costs one. -/
theorem length_labels (tree : SyntaxTree) :
    tree.labels.length = tree.kept.length + tree.relabelled := by
  cases tree with
  | constraint | inclusion => rfl
  | labelled id inner =>
    have count := length_labels inner
    rw [labels, kept, relabelled, List.length_cons, List.length_cons]
    split
    · rename_i some
      obtain ⟨label, first⟩ := kept_of_id inner some
      have cost := congrArg List.length first
      rw [List.length_cons] at cost
      omega
    · omega
  | parenthesized inner =>
    rw [labels, kept, relabelled]
    exact length_labels inner
  | joined _ operands =>
    rw [labels, kept, relabelled]
    exact length_labelsOf operands

theorem length_labelsOf (trees : List SyntaxTree) :
    (labelsOf trees).length = (keptOf trees).length + relabelledOf trees := by
  cases trees with
  | nil => rfl
  | cons tree rest =>
    have first := length_labels tree
    have others := length_labelsOf rest
    rw [labelsOf, keptOf, relabelledOf, List.length_append, List.length_append]
    omega

end

end SyntaxTree

/-! ### Reading -/

namespace Reading

open Grammar (LabelOf)

variable {left : Nat} {context : Context} {state stop : State} {expression : TripleExpr}

/-- An expression that is read is that of a syntax tree of its tokens. -/
theorem oneOf_tree
    (read : Parser.oneOf (Parser.levels left) context state = .ok expression stop) :
    ∃ front log tree, state.lexemes = front ++ stop.lexemes ∧
      (Grammar.oneOfTree (Grammar.nested left) (Grammar.nestedTree left)).Derives context
        (front.map Lexeme.token) ⟨state.draft, []⟩ tree ⟨stop.draft, log⟩ ∧
      tree.expression = expression := by
  obtain ⟨lexemes, draft⟩ := state
  have sound := oneOf_sound (levels_sound left)
  obtain ⟨front, rest, ⟨draft', log⟩, split, rfl, derives⟩ :=
    @sound _ context lexemes ⟨draft, []⟩ expression stop rfl read
  rw [← Grammar.map_oneOfTree (Grammar.map_nestedTree left)] at derives
  obtain ⟨tree, rfl, written⟩ := of_derives_map derives
  exact ⟨front, log, tree, split, written, rfl⟩

/-- What becomes of the labels in the tokens of a syntax tree. Its expression has some of them, in
their order: of two labels that are put on one expression only the outer one is kept. So it has all
of them if and only if no label is put on an expression with a label. -/
structure LabelOutcome (context : Context) (draft : Draft) (tokens : List Token)
    (tree : SyntaxTree) : Prop where
  denoted : List.Forall₂ (LabelOf context draft) (labelTokens 0 tokens) tree.labels
  ids : tree.expression.ids = tree.kept
  ordered : tree.expression.ids.Sublist tree.labels
  lost : tree.labels.length = tree.expression.ids.length + tree.relabelled
  all_iff : List.Forall₂ (LabelOf context draft) (labelTokens 0 tokens) tree.expression.ids ↔
    tree.relabelled = 0

theorem LabelOutcome.of_denoted {tree : SyntaxTree}
    (denoted : List.Forall₂ (LabelOf context draft) (labelTokens 0 tokens) tree.labels) :
    LabelOutcome context draft tokens tree := by
  have ids := tree.ids_expression
  have ordered := ids ▸ tree.kept_sublist
  have lost := ids ▸ tree.length_labels
  refine ⟨denoted, ids, ordered, lost, ?_⟩
  constructor
  · intro all
    have written := denoted.length_eq
    have kept := all.length_eq
    omega
  · intro unchanged
    rw [unchanged] at lost
    rwa [ordered.eq_of_length lost.symm]

/-- An expression that is read has labels that are written in its tokens behind dollar signs, and
lacks only those that others are put on. -/
theorem oneOf_labels
    (read : Parser.oneOf (Parser.levels left) context state = .ok expression stop) :
    ∃ front log tree, state.lexemes = front ++ stop.lexemes ∧
      (Grammar.oneOfTree (Grammar.nested left) (Grammar.nestedTree left)).Derives context
        (front.map Lexeme.token) ⟨state.draft, []⟩ tree ⟨stop.draft, log⟩ ∧
      tree.expression = expression ∧
      LabelOutcome context state.draft (front.map Lexeme.token) tree := by
  obtain ⟨front, log, tree, split, derives, stands⟩ := oneOf_tree read
  have inside := Grammar.nestedTree_labels (left + 1) _ rfl
  obtain ⟨-, own, same, holds⟩ := inside derives
  obtain ⟨found, reads, means⟩ := holds.outside
  have tokens := reads []
  rw [List.append_nil, labelTokens, List.append_nil] at tokens
  refine ⟨front, log, tree, split, derives, stands, .of_denoted ?_⟩
  rwa [same, List.nil_append, tokens]

/-- A predicate with a dot behind it. -/
def dotted (predicate : String) : TripleConstraint :=
  ⟨⟨predicate⟩, .anything, .zeroOrOne, false, false, [], .empty⟩

/-- Both labels are kept: they are put on a group and on a member of it. -/
theorem oneOf_labels_member :
    Parser.oneOf (Parser.levels nestingLimit) ⟨fun _ => .ok (), true, 29, none⟩
      ⟨(TokenSequence.ofText "$_:x (<a:p> . , $_:y <a:q> .)".toList).lexemes, .empty⟩ =
        .ok (.group (some (.blank "x")) [.constraint none (dotted "a:p"),
          .constraint (some (.blank "y")) (dotted "a:q")] none .empty) ⟨[], .empty⟩ ∧
      ∃ tree : SyntaxTree, tree.kept = [.blank "x", .blank "y"] ∧ tree.relabelled = 0 := by
  have read : Parser.oneOf (Parser.levels nestingLimit) ⟨fun _ => .ok (), true, 29, none⟩
      ⟨(TokenSequence.ofText "$_:x (<a:p> . , $_:y <a:q> .)".toList).lexemes, .empty⟩ =
        .ok (.group (some (.blank "x")) [.constraint none (dotted "a:p"),
          .constraint (some (.blank "y")) (dotted "a:q")] none .empty) ⟨[], .empty⟩ := rfl
  obtain ⟨front, log, tree, split, -, stands, outcome⟩ := oneOf_labels read
  rw [List.append_nil] at split
  subst front
  have ids : tree.expression.ids = [.blank "x", .blank "y"] := congrArg TripleExpr.ids stands
  have all := outcome.all_iff
  rw [ids] at all
  exact ⟨read, tree, outcome.ids.symm.trans ids, all.mp (.cons .blank (.cons .blank .nil))⟩

/-- The parentheses leave one constraint for two labels, and the inner label is lost. -/
theorem oneOf_loses_label :
    Parser.oneOf (Parser.levels nestingLimit) ⟨fun _ => .ok (), true, 19, none⟩
      ⟨(TokenSequence.ofText "$_:x ($_:y <a:p> .)".toList).lexemes, .empty⟩ =
        .ok (.constraint (some (.blank "x")) (dotted "a:p")) ⟨[], .empty⟩ ∧
      (TripleExpr.constraint (some (.blank "x")) (dotted "a:p")).ids = [.blank "x"] ∧
      labelTokens 0 ((TokenSequence.ofText "$_:x ($_:y <a:p> .)".toList).lexemes.map
        Lexeme.token) = [.blankNode "x", .blankNode "y"] :=
  ⟨rfl, rfl, rfl⟩

end Reading

end ShExCompact
