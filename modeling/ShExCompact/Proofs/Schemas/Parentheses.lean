import Mathlib.Algebra.GroupWithZero.Nat
import Mathlib.Data.Multiset.AddSub
import ShExCompact.Proofs.Schemas.Terms

/-! Parentheses keep what an expression means. A cardinality and actions behind a parenthesis are
folded into a group or put around it, and either way nothing that the expression had is lost. -/
namespace ShExCompact.TripleExpr

/-! ### Meanings -/

/-- A reading of expressions that sees neither the labels nor the actions of groups: a group repeats
the sequence of its members, without a cardinality once, and one member is a sequence of its own. -/
structure Interpretation (α : Type u) where
  meaning : TripleExpr → α
  sequence : List α → α
  times : Option Cardinality → α → α
  meaning_group : ∀ id members cardinality code,
    meaning (.group id members cardinality code) =
      times cardinality (sequence (members.map meaning))
  times_none : ∀ value, times none value = value
  sequence_single : ∀ value, sequence [value] = value

/-- What is put around an expression repeats it. -/
theorem Interpretation.meaning_wrapped (reading : Interpretation α)
    (wrapped : Grammar.Wrapped expr cardinality code result) :
    reading.meaning result = reading.times cardinality (reading.meaning expr) := by
  cases wrapped with
  | itself noCardinality => rw [noCardinality, reading.times_none]
  | merged _ isGroup free =>
    rw [isGroup, reading.meaning_group, reading.meaning_group]
    -- One of the two cardinalities is missing, so that the other one is all that repeats.
    rcases free with rfl | rfl
    · rw [Option.none_or, reading.times_none]
    · rw [Option.or_none, reading.times_none]
  | around =>
    rw [reading.meaning_group, List.map_singleton, reading.sequence_single]

mutual

/-- How many triples an expression takes at least, without those of inclusions. -/
def least : TripleExpr → Nat
  | group _ members cardinality _ =>
    (cardinality.elim 1 fun repeated => repeated.least.toNat) * (leastOf members).sum
  | constraint _ body => body.cardinality.least.toNat
  | oneOf _ branches | someOf _ branches => (leastOf branches).min?.getD 0
  | inclusion .. => 0

def leastOf : List TripleExpr → List Nat
  | [] => []
  | expr :: rest => least expr :: leastOf rest

end

theorem leastOf_eq (exprs : List TripleExpr) : leastOf exprs = exprs.map least := by
  induction exprs with
  | nil => rfl
  | cons expr rest ih => rw [leastOf, ih, List.map_cons]

/-- The number of triples is such a reading. -/
def Interpretation.least : Interpretation Nat where
  meaning := TripleExpr.least
  sequence := List.sum
  times cardinality number :=
    (cardinality.elim 1 fun repeated => repeated.least.toNat) * number
  meaning_group id members cardinality code := by rw [TripleExpr.least, leastOf_eq]
  times_none := Nat.one_mul
  sequence_single value := by rw [List.sum_singleton]

/-! ### What the nodes of an expression carry -/

section

variable {β : Type} {own : TripleExpr → List β} {expr result : TripleExpr}

/-- What all nodes of an expression carry together. -/
def carried (own : TripleExpr → List β) (expr : TripleExpr) : Multiset β :=
  ↑(expr.nodes.flatMap own)

theorem carried_group (own : TripleExpr → List β) (id : Option Label) (members : List TripleExpr)
    (cardinality : Option Cardinality) (code : Actions) :
    carried own (.group id members cardinality code) =
      ↑(own (.group id members cardinality code)) + ↑((members.flatMap nodes).flatMap own) := by
  rw [carried, nodes_eq, List.flatMap_cons, ← Multiset.coe_add, parts]

/-- What is put around an expression is carried with what the expression had, if it is so for the
one group that takes it. -/
theorem carried_wrapped (wrapped : Grammar.Wrapped expr cardinality code result) (given : List β)
    (nothing : cardinality = none → code.isEmpty → given = [])
    (merged : ∀ id members cardinality' code', cardinality = none ∨ cardinality' = none →
      code.isEmpty ∨ code'.isEmpty →
        (own (.group id members (cardinality.or cardinality')
          (if code.isEmpty then code' else code))).Perm
            (own (.group id members cardinality' code') ++ given))
    (around : ∀ member, own (.group none [member] cardinality code) = given) :
    carried own result = carried own expr + ↑given := by
  cases wrapped with
  | itself noCardinality noCode => rw [nothing noCardinality noCode]; simp
  | @merged id members cardinality' code' _ isGroup free free' =>
    have same := Multiset.coe_eq_coe.mpr (merged id members cardinality' code' free free')
    rw [isGroup, carried_group, carried_group, same, ← Multiset.coe_add, Multiset.add_assoc,
      Multiset.add_assoc, Multiset.add_comm (given : Multiset β)]
  | around =>
    rw [carried_group, around, Multiset.add_comm]
    simp [carried]

end

/-- The entries of the actions of a node, an IRI of an extension and its code. -/
def ownEntries : TripleExpr → List (String × String)
  | group _ _ _ code => code.entries
  | constraint _ body => body.actions.entries
  | oneOf .. | someOf .. | inclusion .. => []

/-- The cardinality of a node. -/
def ownCardinality : TripleExpr → List Cardinality
  | group _ _ cardinality _ => cardinality.toList
  | constraint _ body => [body.cardinality]
  | oneOf .. | someOf .. | inclusion .. => []

/-- The entries of all actions in an expression. -/
def entries : TripleExpr → Multiset (String × String) := carried ownEntries

/-- The cardinalities of all groups and constraints in an expression. -/
def cardinalities : TripleExpr → Multiset Cardinality := carried ownCardinality

theorem entries_eq_nil {code : Actions} (empty : code.isEmpty) : code.entries = [] :=
  List.isEmpty_iff.mp empty

theorem entries_wrapped (wrapped : Grammar.Wrapped expr cardinality code result) :
    result.entries = expr.entries + ↑code.entries := by
  refine carried_wrapped wrapped code.entries (fun _ => entries_eq_nil) ?_ fun _ => rfl
  intro id members cardinality' code' _ free
  simp only [ownEntries]
  by_cases empty : code.isEmpty
  · rw [if_pos empty, entries_eq_nil empty, List.append_nil]
  · rw [if_neg empty, entries_eq_nil (free.resolve_left empty), List.nil_append]

theorem cardinalities_wrapped (wrapped : Grammar.Wrapped expr cardinality code result) :
    result.cardinalities = expr.cardinalities + ↑cardinality.toList := by
  refine carried_wrapped wrapped cardinality.toList (fun none _ => congrArg Option.toList none) ?_
    fun _ => rfl
  intro id members cardinality' code' free _
  simp only [ownCardinality]
  rcases free with rfl | rfl
  · simp
  · simp

end ShExCompact.TripleExpr
