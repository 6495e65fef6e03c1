import Mathlib.Data.List.Forall2
import ShExCompact.Proofs.Grammar.LabelTokens

/-! The labels of a syntax tree are denoted by the tokens behind the dollar signs of what it is
derived from, in their order. -/
namespace ShExCompact

open Grammar (LabelOf)

namespace Phrase

variable {g h : Phrase α}

/-! ### Phrases with labels -/

/-- Tokens that hold some labels, wherever they stand between no braces. -/
structure HoldsLabels (context : Context) (draft : Draft) (tokens : List Token)
    (labels : List Label) : Prop where
  inside : ∀ depth rest, labelTokens (depth + 1) (tokens ++ rest) = labelTokens (depth + 1) rest
  outside : ∃ found, (∀ rest, labelTokens 0 (tokens ++ rest) = found ++ labelTokens 0 rest) ∧
    List.Forall₂ (LabelOf context draft) found labels

/-- Behind the labels `before`, a phrase reads the others of those that its value has. -/
def Labels (before : List Label) (g : Phrase α) (all : α → List Label) : Prop :=
  ∀ ⦃context tokens journal value later⦄, g.Derives context tokens journal value later →
    journal.draft.SameNames later.draft ∧ ∃ own, all value = before ++ own ∧
      HoldsLabels context journal.draft tokens own

variable {all : α → List Label} {all' : β → List Label}

theorem HoldsLabels.nil
    (quiet : ∀ depth rest, labelTokens depth (tokens ++ rest) = labelTokens depth rest) :
    HoldsLabels context draft tokens [] where
  inside depth rest := quiet (depth + 1) rest
  outside := ⟨[], quiet 0, .nil⟩

theorem HoldsLabels.append (first : HoldsLabels context draft front own)
    (names : draft.SameNames later) (second : HoldsLabels context later rest own') :
    HoldsLabels context draft (front ++ rest) (own ++ own') where
  inside depth more := by rw [List.append_assoc, first.inside, second.inside]
  outside := by
    obtain ⟨found, reads, means⟩ := first.outside
    obtain ⟨found', reads', means'⟩ := second.outside
    refine ⟨found ++ found', fun more => ?_, ?_⟩
    · rw [List.append_assoc, reads, reads', List.append_assoc]
    · exact List.rel_append means (means'.imp fun _ _ => names.labelOf)

namespace Labels

theorem done (same : all value = before) : Labels before (pure value) all := by
  rintro context tokens journal result later ⟨rfl, rfl, rfl⟩
  exact ⟨.refl _, [], by rw [same, List.append_nil], .nil fun _ _ => rfl⟩

theorem bind {i : α → Phrase β} (first : Labels before g all)
    (later : ∀ value, Labels (all value) (i value) all') : Labels before (g >>= i) all' := by
  rintro context tokens journal result last ⟨front, rest, value, middle, rfl, derives, derives'⟩
  obtain ⟨names, own, split, holds⟩ := first derives
  obtain ⟨names', own', split', holds'⟩ := later value derives'
  refine ⟨names.trans names', own ++ own', ?_, holds.append names holds'⟩
  rw [split', split, List.append_assoc]

theorem orElse (left : Labels before g all) (right : Labels before h all) :
    Labels before (g <|> h) all := by
  rintro context tokens journal value later (derives | derives)
  · exact left derives
  · exact right derives

theorem never : Labels before (failure : Phrase α) all := fun _ _ _ _ _ never => never.elim

end Labels

theorem Quiet.labels (quiet : Quiet g) (before : List Label) :
    Labels before g fun _ => before := by
  intro context tokens journal value later derives
  obtain ⟨names, silent⟩ := quiet derives
  exact ⟨names, [], (List.append_nil _).symm, .nil silent⟩

theorem Labels.behind (labels : Labels [] g all) (before : List Label) :
    Labels before g fun value => before ++ all value := by
  intro context tokens journal value later derives
  obtain ⟨names, own, split, holds⟩ := labels derives
  exact ⟨names, own, congrArg (before ++ ·) split, holds⟩

theorem Labels.hidden (labels : Labels [] g all) (f : α → β) : Hidden (f <$> g) := by
  intro context tokens journal value later derives
  obtain ⟨value, -, derives⟩ := Reading.of_derives_map derives
  obtain ⟨names, own, -, holds⟩ := labels derives
  exact ⟨names, holds.inside⟩

theorem Labels.many (labels : Labels [] g all) :
    Labels [] (many g) fun values => values.flatMap all := by
  intro context tokens journal values later repeats
  change g.Repeats context tokens journal values later at repeats
  induction repeats with
  | done => exact ⟨.refl _, [], rfl, .nil fun _ _ => rfl⟩
  | more first _ ih =>
    obtain ⟨names, own, split, holds⟩ := labels first
    obtain ⟨names', own', split', holds'⟩ := ih
    refine ⟨names.trans names', own ++ own', ?_, holds.append names holds'⟩
    exact congrArg₂ (· ++ ·) split split'

theorem Labels.separated {separator : Phrase Unit} (between : Quiet separator)
    (labels : Labels [] g all) :
    Labels [] (separated separator g) fun values => values.flatMap all := by
  have others : Labels [] (Phrase.many do separator; g) _ :=
    .many (.bind (between.labels []) fun _ => labels)
  refine .bind labels fun first => .bind (others.behind _) fun rest => .done ?_
  exact List.flatMap_cons

/-- A dollar sign and the label behind it. -/
theorem labels_dollar (before : List Label) : Labels before (do sign .dollar; Grammar.label)
    fun label => before ++ [label] := by
  rintro context tokens journal label later ⟨_, _, -, _, rfl, ⟨_, rfl, rfl, rfl⟩, token, rfl, means,
    rfl⟩
  refine ⟨.refl _, [label], rfl, fun depth rest => ?_, [token], fun rest => rfl, .cons means .nil⟩
  have plain := Token.isPlain_of_isFlat (Flat.isFlat_of_label means)
  exact (labelTokens_dollar_inside depth _).trans (labelTokens_plain plain (depth + 1) rest)

end Phrase

/-! ### The labels of a syntax tree -/

namespace SyntaxTree

mutual

/-- The labels behind dollar signs, from left to right; those in shapes in place are no part of the
tree. -/
def labels : SyntaxTree → List Label
  | constraint _ | inclusion _ => []
  | labelled id inner => id :: labels inner
  | parenthesized inner _ _ => labels inner
  | joined _ operands => labelsOf operands

def labelsOf : List SyntaxTree → List Label
  | [] => []
  | tree :: rest => labels tree ++ labelsOf rest

end

theorem labelsOf_eq (trees : List SyntaxTree) : labelsOf trees = trees.flatMap labels := by
  induction trees with
  | nil => rfl
  | cons tree rest ih => rw [labelsOf, ih, List.flatMap_cons]

end SyntaxTree

namespace Grammar

open Phrase (sign Flat Quiet Labels Hidden)
open SyntaxTree (labels)

/-- Joined operands have the labels of the operands. -/
theorem joined_labels (connective : Connective) {each : Phrase (List SyntaxTree)}
    (operands : Labels [] each fun trees => trees.flatMap labels) :
    Labels [] (do return .joined connective (← each)) labels :=
  .bind operands fun trees => .done (SyntaxTree.labelsOf_eq trees)

section

variable {inner : Option (Phrase TripleExpr)} {deeper : Option (Phrase SyntaxTree)}
  (inside : ∀ body ∈ inner, Hidden body) (trees : ∀ body ∈ deeper, Labels [] body labels)

include inside trees

theorem unlabelledTree_labels : Labels [] (unlabelledTree inner deeper) labels := by
  refine .orElse ?_ (.orElse ?_ ?_)
  · exact .bind ((Quiet.tripleConstraint inside).labels []) fun body => .done rfl
  · exact .bind ((Quiet.sign rfl).labels []) fun _ => .bind (Flat.label.quiet.labels []) fun _ =>
      .done rfl
  · cases deeper with
    | none => exact .never
    | some body =>
      refine .bind ((Quiet.sign rfl).labels []) fun _ => .bind (trees body rfl) fun tree => ?_
      exact .bind ((Quiet.sign rfl).labels _) fun _ =>
        .bind (Flat.cardinality.optional.quiet.labels _) fun _ =>
          .bind (Flat.actions.quiet.labels _) fun _ => .done rfl

theorem unaryTree_labels : Labels [] (unaryTree inner deeper) labels := by
  have tree := unlabelledTree_labels inside trees
  have labelled : Labels [] (do
      let id ← (do sign .dollar; label)
      return .labelled id (← unlabelledTree inner deeper)) labels :=
    .bind (Phrase.labels_dollar []) fun id => .bind (tree.behind [id]) fun _ => .done rfl
  simp only [bind_assoc] at labelled
  exact .orElse labelled tree

theorem oneOfTree_labels : Labels [] (oneOfTree inner deeper) labels := by
  have groups : Labels [] (groupTree inner deeper) labels :=
    .bind (.separated (.sign rfl) (unaryTree_labels inside trees)) fun trees =>
      .bind ((Flat.mark rfl).quiet.labels _) fun _ => .done (SyntaxTree.labelsOf_eq trees)
  have branches : Labels [] (someOfTree inner deeper) labels :=
    joined_labels .someOf (.separated (.sign rfl) groups)
  exact joined_labels .oneOf (.separated (.sign rfl) branches)

end

theorem nestedTree_labels (left : Nat) : ∀ body ∈ nestedTree left, Labels [] body labels := by
  -- On the levels that are left: the expressions of shapes in place are those of trees as well.
  induction left with
  | zero => exact nofun
  | succ left ih =>
    have hidden : ∀ body ∈ nested left, Hidden body := by
      rw [← map_nestedTree]
      intro body member
      obtain ⟨tree, held, rfl⟩ := Option.map_eq_some_iff.mp member
      exact (ih tree held).hidden SyntaxTree.expression
    intro body member
    cases member
    exact oneOfTree_labels hidden ih

end Grammar

end ShExCompact
