import Mathlib.Order.MinMax
import ShExCompact.Proofs.Schemas.Yields

/-! How high the triple expressions of a schema are. From one bracket to the next an expression
grows by four nodes at most: a group for what stands behind the inner one, and a node for each of
the three signs that join operands. -/
namespace ShExCompact

namespace TripleExpr

mutual

/-- How many nodes an expression has above each other. -/
def height : TripleExpr → Nat
  | oneOf _ branches | someOf _ branches => heightOf branches + 1
  | group _ members _ _ => heightOf members + 1
  | constraint .. | inclusion .. => 1

/-- The height of the highest of some expressions. -/
def heightOf : List TripleExpr → Nat
  | [] => 0
  | expr :: rest => max (height expr) (heightOf rest)

end

theorem heightOf_le_iff {exprs : List TripleExpr} :
    heightOf exprs ≤ bound ↔ ∀ expr ∈ exprs, expr.height ≤ bound := by
  induction exprs with
  | nil => simp [heightOf]
  | cons expr rest ih => rw [heightOf, Nat.max_le, ih, List.forall_mem_cons]

mutual

/-- No node is higher than the whole expression. -/
theorem height_le_of_mem {node : TripleExpr} :
    ∀ {expr : TripleExpr}, node ∈ expr.nodes → node.height ≤ expr.height
  | oneOf .., member | someOf .., member | group .., member => by
    rcases List.mem_cons.mp member with rfl | inside
    · exact Nat.le_refl _
    · exact Nat.le_succ_of_le (height_le_heightOf inside)
  | constraint .., member | inclusion .., member =>
    Nat.le_of_eq (congrArg height (List.mem_singleton.mp member))

theorem height_le_heightOf {node : TripleExpr} :
    ∀ {exprs : List TripleExpr}, node ∈ nodesOf exprs → node.height ≤ heightOf exprs
  | _ :: _, member => by
    rcases List.mem_append.mp member with first | later
    · exact le_max_of_le_left (height_le_of_mem first)
    · exact le_max_of_le_right (height_le_heightOf later)

end

theorem height_withId (expr : TripleExpr) (label : Label) :
    (expr.withId label).height = expr.height := by
  cases expr <;> rfl

/-- What stands behind a parenthesis adds one group at most. -/
theorem height_wrapped (wrapped : Grammar.Wrapped expr cardinality code result) :
    result.height ≤ expr.height + 1 := by
  cases wrapped with
  | itself => exact Nat.le_succ _
  | merged _ isGroup =>
    subst isGroup
    exact Nat.le_succ _
  | around => exact Nat.le_of_eq (congrArg (· + 1) (Nat.max_zero _))

/-- Operands are joined by one node at most. -/
theorem height_combined {build : List TripleExpr → TripleExpr}
    (joins : ∀ exprs, (build exprs).height = heightOf exprs + 1)
    (each : ∀ expr ∈ exprs, expr.height ≤ bound) :
    (Grammar.combined build exprs).height ≤ bound + 1 := by
  unfold Grammar.combined
  split
  next only => exact Nat.le_succ_of_le (each only List.mem_cons_self)
  next => exact (joins exprs).trans_le (Nat.succ_le_succ (heightOf_le_iff.mpr each))

end TripleExpr

/-! ### Shapes and journals -/

/-- The expression of a shape is not higher than the brackets around its nodes admit. -/
def Shape.Shallow (shape : Shape) : Prop :=
  ∀ expr ∈ shape.expression, expr.height ≤ 4 * nestingLimit

/-- All shapes that are declared are shallow. -/
def Journal.Shallow (journal : Journal) : Prop :=
  ∀ entry ∈ journal.draft.shapes, entry.2.Shallow

/-- A node of a shallow shape is not higher either. -/
theorem Shape.Shallow.height_le {shape : Shape} (shallow : shape.Shallow)
    (member : node ∈ shape.nodes) : node.height ≤ 4 * nestingLimit := by
  obtain ⟨expr, held, inside⟩ := List.mem_flatMap.mp member
  exact (TripleExpr.height_le_of_mem inside).trans (shallow expr (Option.mem_toList.mp held))

/-- What is declared besides shapes does not count. -/
theorem Journal.Shallow.declare {journal : Journal} {change : Draft → Draft}
    (same : ∀ draft, (change draft).shapes = draft.shapes) (shallow : journal.Shallow) :
    (journal.declare change).Shallow := by
  intro entry member
  exact shallow entry (same journal.draft ▸ member)

theorem Journal.Shallow.register {journal : Journal} (shallow : journal.Shallow) {label : Label}
    {shape : Shape} (low : shape.Shallow) :
    ∀ entry ∈ placeShape label shape journal.draft.shapes, entry.2.Shallow := by
  intro entry member
  rcases mem_placeShape member with rfl | old
  · exact low
  · exact shallow entry old

/-! ### Phrases -/

namespace Phrase

/-- The values of a phrase have a property, and the shapes that it declares are shallow. -/
abbrev Shallow (context : Context) (g : Phrase α) (Good : α → Prop) : Prop :=
  Ensures context (fun _ => True) Journal.Shallow g Good

namespace Shallow

variable {context : Context}

section Inner

variable {inner : Option (Phrase TripleExpr)} {left : Nat} (few : left ≤ nestingLimit)
  (deeper : ∀ body ∈ inner, Shallow context body (·.height ≤ 4 * left))

include few deeper

theorem shapeDefinition : Shallow context (Grammar.shapeDefinition inner) Shape.Shallow :=
  .within fun body held => .bind (.silent (.many .clause)) fun _ _ => .bind (.silent (.sign _))
    fun _ _ => .bind (.optional (deeper body held)) fun _ low => .bind (.silent (.sign _))
      fun _ _ => .done fun expr same => (low expr same).trans (Nat.mul_le_mul_left 4 few)

theorem shapeRef : Shallow context (Grammar.shapeRef inner) fun _ => True := by
  have each : Shallow context (Grammar.shapeOrRef inner) fun _ => True :=
    .orElse (.silent .reference) (.bind (shapeDefinition few deeper) fun _ low =>
      .inPlace fun shallow => shallow.register low)
  refine .bind (.separated (.word _) each) fun labels _ => ?_
  split
  · exact .done trivial
  · exact .done trivial

theorem valueClass : Shallow context (Grammar.valueClass inner) fun _ => True := by
  have reference := shapeRef few deeper
  have target := Ensures.optional reference
  refine .orElse ?_ (.orElse ?_ (.orElse ?_ (.orElse ?_ (.orElse ?_ (.orElse ?_
    (.orElse ?_ ?_))))))
  · exact .bind (.silent (.word _)) fun _ _ => .bind (.silent (.facets true)) fun _ _ =>
      .done trivial
  · exact .bind (.silent (.word _)) fun _ _ => .bind target fun _ _ =>
      .bind (.silent (.facets false)) fun _ _ => .done trivial
  · exact .bind (.silent (.word _)) fun _ _ => .bind target fun _ _ =>
      .bind (.silent (.facets false)) fun _ _ => .done trivial
  · exact .bind (.silent (.word _)) fun _ _ => .bind target fun _ _ => .done trivial
  · exact .bind (.silent .iri) fun _ _ => .done trivial
  · exact .bind reference fun _ _ => .done trivial
  · exact .bind (.silent .valueSet) fun _ _ => .done trivial
  · exact .bind (.silent (.sign _)) fun _ _ => .done trivial

theorem tripleConstraint : Shallow context (Grammar.tripleConstraint inner) fun _ => True :=
  .bind (.silent .senseFlags) fun _ _ => .bind (.silent .predicate) fun _ _ =>
    .bind (valueClass few deeper) fun _ _ => .bind (.silent (.many .annotated)) fun _ _ =>
      .bind (.silent (.optional .cardinality)) fun _ _ => .bind (.silent .actions) fun _ _ =>
        .done trivial

/-- A member of a group is higher by one than what stands between its parentheses. -/
theorem unary : Shallow context (Grammar.unary inner) (·.height ≤ 4 * left + 1) := by
  have encapsulated : Shallow context (Grammar.encapsulated inner) (·.height ≤ 4 * left + 1) :=
    .within fun body held => .bind (.silent (.sign _)) fun _ _ => .bind (deeper body held)
      fun _ low => .bind (.silent (.sign _)) fun _ _ =>
        .bind (.silent (.optional .cardinality)) fun _ _ => .bind (.silent .actions) fun _ _ =>
          .choose fun wrapped => (TripleExpr.height_wrapped wrapped).trans (Nat.succ_le_succ low)
  have unlabelled : Shallow context (Grammar.unlabelled inner) (·.height ≤ 4 * left + 1) := by
    refine .orElse ?_ (.orElse ?_ encapsulated)
    · exact .bind (tripleConstraint few deeper) fun _ _ => .done (Nat.le_add_left ..)
    · exact .bind (.silent (.sign _)) fun _ _ => .bind (.silent .label) fun _ _ =>
        .done (Nat.le_add_left ..)
  refine .bind (.silent (.optional (.bind (.sign _) fun _ => .label))) fun id _ =>
    .bind unlabelled fun expr low => .done ?_
  cases id with
  | none => exact low
  | some label => exact (expr.height_withId label).trans_le low

theorem oneOf : Shallow context (Grammar.oneOf inner) (·.height ≤ 4 * (left + 1)) := by
  have group : Shallow context (Grammar.group inner) (·.height ≤ 4 * left + 2) :=
    .bind (.separated (.sign _) (unary few deeper)) fun _ ⟨_, each⟩ => .bind (.silent (.mark _))
      fun _ _ => .done (TripleExpr.height_combined (fun _ => rfl) each)
  have someOf : Shallow context (Grammar.someOf inner) (·.height ≤ 4 * left + 3) :=
    .bind (.separated (.sign _) group) fun _ ⟨_, each⟩ =>
      .done (TripleExpr.height_combined (fun _ => rfl) each)
  exact .bind (.separated (.sign _) someOf) fun _ ⟨_, each⟩ =>
    .done (TripleExpr.height_combined (fun _ => rfl) each)

end Inner

/-- Each bracket that may still be opened stands for four nodes. -/
theorem nested {left : Nat} (few : left ≤ nestingLimit) :
    ∀ body ∈ Grammar.nested left, Shallow context body (·.height ≤ 4 * left) := by
  induction left with
  | zero => exact nofun
  | succ left ih =>
    intro body member
    cases member
    exact oneOf (Nat.le_of_succ_le few) (ih (Nat.le_of_succ_le few))

theorem definition : Shallow context (Grammar.shapeDefinition Grammar.outermost) Shape.Shallow :=
  shapeDefinition (Nat.le_refl _) (nested (Nat.le_refl _))

theorem directive : Shallow context Grammar.directive fun _ => True := by
  refine .orElse (.bind (.silent (.word _)) fun _ _ => ?_)
    (.bind (.silent (.word _)) fun _ _ => ?_)
  · refine .bind (.silent .referenceText) fun _ _ => .change (.declare fun draft => ?_)
    cases draft
    rfl
  · exact .bind (.silent .prefixName) fun _ _ => .bind (.silent .referenceText) fun _ _ =>
      .change (.declare fun _ => rfl)

theorem notStartAction : Shallow context Grammar.notStartAction fun _ => True := by
  have startLabel : Shallow context Grammar.startLabel fun _ => True :=
    .orElse (.silent .label) (.orElse (.silent .reference) (.bind definition fun _ low =>
      .bind (.silent .actions) fun _ _ => .inPlace fun shallow => shallow.register low))
  refine .orElse ?_ ?_
  · exact .bind (.silent (.word _)) fun _ _ => .bind (.silent (.sign _)) fun _ _ =>
      .bind startLabel fun _ _ => .change (.declare fun _ => rfl)
  · exact .bind (.silent (.markWord _)) fun _ _ => .bind (.silent .label) fun _ _ =>
      .bind definition fun _ low => .bind (.silent .actions) fun _ _ =>
        .change fun shallow => shallow.register low

theorem document : Shallow context Grammar.document fun _ => True := by
  have statement : Shallow context Grammar.statement fun _ => True :=
    .orElse directive notStartAction
  have startActions : Shallow context Grammar.startActions fun _ => True :=
    .bind (.silent (.several .action)) fun _ _ => .change (.declare fun _ => rfl)
  have statements : Shallow context (many Grammar.statement) fun _ => True :=
    .imp (.many statement) fun _ _ => trivial
  refine .bind (.many directive) fun _ _ => .orElse ?_ (.done trivial)
  exact .bind (.orElse notStartAction startActions) fun _ _ => .bind statements fun _ _ =>
    .done trivial

end Shallow

end Phrase

end ShExCompact
