import ShExCompact.Proofs.Reading.Expressions

/-! Triple expressions as they are written, with their parentheses. Every derivation of an
expression is one of a syntax tree, which tells where the labels stand that the expression may have
lost. -/
namespace ShExCompact

/-! ### Syntax trees -/

/-- The signs that join operands. -/
inductive Connective where
  | group
  | someOf
  | oneOf

namespace Connective

/-- The expression of several operands. -/
def build : Connective → List TripleExpr → TripleExpr
  | group => fun members => .group none members none .empty
  | someOf => .someOf none
  | oneOf => .oneOf none

end Connective

/-- A triple expression as it is written. -/
inductive SyntaxTree where
  | constraint (body : TripleConstraint)
  | inclusion (target : Label)
  /-- a dollar sign and a label before an operand -/
  | labelled (id : Label) (inner : SyntaxTree)
  | parenthesized (inner : SyntaxTree) (cardinality : Option Cardinality) (code : Actions)
  /-- one operand or more, with signs between them -/
  | joined (connective : Connective) (operands : List SyntaxTree)

namespace SyntaxTree

mutual

/-- The expression that a tree stands for. -/
def expression : SyntaxTree → TripleExpr
  | constraint body => .constraint none body
  | inclusion target => .inclusion none target
  | labelled id inner => (expression inner).withId id
  | parenthesized inner cardinality code => (expression inner).wrap cardinality code
  | joined connective operands => Grammar.combined connective.build (expressions operands)

def expressions : List SyntaxTree → List TripleExpr
  | [] => []
  | tree :: rest => expression tree :: expressions rest

end

theorem expressions_eq (trees : List SyntaxTree) : expressions trees = trees.map expression := by
  induction trees with
  | nil => rfl
  | cons tree rest ih => rw [expressions, ih, List.map_cons]

end SyntaxTree

/-! ### Their grammar -/

namespace Grammar

open Phrase (sign mark within separated)

section

variable (inner : Option (Phrase TripleExpr)) (deeper : Option (Phrase SyntaxTree))

/-- An operand behind its label: shapes in place are read as what they are, expressions between
parentheses as trees. -/
def unlabelledTree : Phrase SyntaxTree :=
  (do return .constraint (← tripleConstraint inner)) <|>
  (do sign .ampersand; return .inclusion (← label)) <|>
  within deeper fun oneOfShape => do
    sign .openParen
    let tree ← oneOfShape
    sign .closeParen
    let cardinality ← optional cardinality
    return .parenthesized tree cardinality (← actions)

def unaryTree : Phrase SyntaxTree :=
  (do
    sign .dollar
    let id ← label
    return .labelled id (← unlabelledTree inner deeper)) <|>
  unlabelledTree inner deeper

def groupTree : Phrase SyntaxTree := do
  let members ← separated (sign .comma) (unaryTree inner deeper)
  let _ ← mark .comma
  return .joined .group members

def someOfTree : Phrase SyntaxTree := do
  return .joined .someOf (← separated (sign .doubleBar) (groupTree inner deeper))

def oneOfTree : Phrase SyntaxTree := do
  return .joined .oneOf (← separated (sign .bar) (someOfTree inner deeper))

end

/-- The trees inside of one more definition or parenthesis, of which at most `left` may still be
opened. -/
def nestedTree : (left : Nat) → Option (Phrase SyntaxTree)
  | 0 => none
  | left + 1 => some (oneOfTree (nested left) (nestedTree left))

end Grammar

/-! ### Every expression is that of a tree -/

namespace Phrase

variable {g : Phrase α}

theorem map_failure (f : α → β) : f <$> (failure : Phrase α) = failure := by
  refine ext fun context tokens journal value later => ⟨?_, fun never => never.elim⟩
  rintro ⟨_, _, _, _, -, never, -⟩
  exact never

theorem repeats_map (f : α → β) (repeats : g.Repeats context tokens journal values later) :
    (f <$> g).Repeats context tokens journal (values.map f) later := by
  induction repeats with
  | done => exact .done
  | more first _ ih => exact .more (Reading.derives_map first) ih

theorem of_repeats_map {f : α → β}
    (repeats : (f <$> g).Repeats context tokens journal results later) :
    ∃ values, results = values.map f ∧ g.Repeats context tokens journal values later := by
  induction repeats with
  | done => exact ⟨[], rfl, .done⟩
  | more first _ ih =>
    obtain ⟨value, rfl, derives⟩ := Reading.of_derives_map first
    obtain ⟨values, rfl, repeats⟩ := ih
    exact ⟨value :: values, rfl, .more derives repeats⟩

theorem map_many (f : α → β) (g : Phrase α) : List.map f <$> many g = many (f <$> g) := by
  refine ext fun context tokens journal results later => ⟨fun derives => ?_, fun derives => ?_⟩
  · obtain ⟨values, rfl, repeats⟩ := Reading.of_derives_map derives
    exact repeats_map f repeats
  · obtain ⟨values, rfl, repeats⟩ := of_repeats_map derives
    exact Reading.derives_map repeats

theorem map_separated (f : α → β) (separator : Phrase Unit) (g : Phrase α) :
    List.map f <$> separated separator g = separated separator (f <$> g) := by
  have tails := map_many f (do separator; g)
  simp only [map_bind] at tails
  simp only [separated, map_bind, map_pure, List.map_cons, bind_map_left, ← tails]

end Phrase

namespace Grammar

open Phrase (sign mark within separated)

variable {inner : Option (Phrase TripleExpr)} {deeper : Option (Phrase SyntaxTree)}

theorem map_unlabelledTree (same : deeper.map (SyntaxTree.expression <$> ·) = inner) :
    SyntaxTree.expression <$> unlabelledTree inner deeper = unlabelled inner := by
  have parentheses : SyntaxTree.expression <$> within deeper (fun oneOfShape => do
      sign .openParen
      let tree ← oneOfShape
      sign .closeParen
      let cardinality ← optional cardinality
      return .parenthesized tree cardinality (← actions)) = encapsulated inner := by
    subst same
    cases deeper with
    | none => exact Phrase.map_failure _
    | some body =>
      simp only [Option.map_some, within, encapsulated, Reading.wrapped_eq, map_bind, map_pure,
        bind_map_left, SyntaxTree.expression]
  simp only [unlabelledTree, unlabelled, inclusion, Phrase.map_orElse, parentheses, map_bind,
    map_pure, SyntaxTree.expression]

theorem map_unaryTree (same : deeper.map (SyntaxTree.expression <$> ·) = inner) :
    SyntaxTree.expression <$> unaryTree inner deeper = unary inner := by
  rw [Reading.unary_eq, ← map_unlabelledTree same]
  simp only [unaryTree, Phrase.map_orElse, map_bind, map_pure, bind_map_left,
    SyntaxTree.expression]

/-- Joined trees are joined expressions. -/
theorem map_joined (connective : Connective) (trees : Phrase (List SyntaxTree)) :
    SyntaxTree.expression <$> (do return .joined connective (← trees)) =
      (do return combined connective.build (← List.map SyntaxTree.expression <$> trees)) := by
  simp only [map_bind, map_pure, bind_map_left, SyntaxTree.expression,
    SyntaxTree.expressions_eq]

theorem map_groupTree (same : deeper.map (SyntaxTree.expression <$> ·) = inner) :
    SyntaxTree.expression <$> groupTree inner deeper = group inner := by
  simp only [groupTree, group, ← map_unaryTree same, ← Phrase.map_separated, map_bind, map_pure,
    bind_map_left, SyntaxTree.expression, SyntaxTree.expressions_eq]
  rfl

theorem map_oneOfTree (same : deeper.map (SyntaxTree.expression <$> ·) = inner) :
    SyntaxTree.expression <$> oneOfTree inner deeper = oneOf inner := by
  have groups : SyntaxTree.expression <$> someOfTree inner deeper = someOf inner := by
    rw [someOfTree, map_joined, Phrase.map_separated, map_groupTree same]
    rfl
  rw [oneOfTree, map_joined, Phrase.map_separated, groups]
  rfl

/-- What derives an expression derives a tree of it. -/
theorem map_nestedTree (left : Nat) :
    (nestedTree left).map (SyntaxTree.expression <$> ·) = nested left := by
  induction left with
  | zero => rfl
  | succ left ih => exact congrArg some (map_oneOfTree ih)

end Grammar

end ShExCompact
