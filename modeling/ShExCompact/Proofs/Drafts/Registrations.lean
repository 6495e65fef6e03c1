import ShExCompact.Proofs.Drafts.FreshLabels
import ShExCompact.Proofs.Grammar.Phrase

/-! What a draft holds under a label is what was declared last under it. A shape that is declared
in place has a new label, so only a statement after it can take its place. -/
namespace ShExCompact

namespace Registration

def label : Registration → Label
  | inPlace label _ | stated label _ => label

def shape : Registration → Shape
  | inPlace _ shape | stated _ shape => shape

def isInline : Registration → Bool
  | inPlace .. => true
  | stated .. => false

/-- The shape that was declared last under a label. -/
def lastShape? (label : Label) : List Registration → Option Shape
  | [] => none
  | first :: rest =>
    (lastShape? label rest).or (if label = first.label then some first.shape else none)

theorem lastShape?_append (label : Label) (front rest : List Registration) :
    lastShape? label (front ++ rest) = (lastShape? label rest).or (lastShape? label front) := by
  induction front with
  | nil => simp [lastShape?]
  | cons first front ih => simp [lastShape?, ih, Option.or_assoc]

theorem lastShape?_eq_none_iff (label : Label) (log : List Registration) :
    lastShape? label log = none ↔ ∀ entry ∈ log, entry.label ≠ label := by
  induction log with
  | nil => simp [lastShape?]
  | cons first rest ih =>
    simp only [lastShape?, Option.or_eq_none_iff, ih, List.forall_mem_cons]
    by_cases same : label = first.label <;> simp [same, Ne.symm, eq_comm]

end Registration

namespace Journal

open Registration (lastShape?)

/-- The draft holds the last shapes of the log, and each shape that was declared in place had a
label that was new. -/
structure Consistent (journal : Journal) : Prop where
  holds : ∀ label, journal.draft.shape? label = lastShape? label journal.log
  fresh : ∀ before label shape after, journal.log = before ++ .inPlace label shape :: after →
    ∀ entry ∈ before, entry.label ≠ label

theorem Consistent.initial (start : Draft) (noShapes : start.shapes = []) :
    Consistent ⟨start, []⟩ where
  holds label := by
    change start.shapes.lookup label = none
    rw [noShapes]
    rfl
  fresh before label shape after split := by simp at split

theorem Consistent.declare (consistent : Consistent journal)
    (same : (change journal.draft).shapes = journal.draft.shapes) :
    Consistent (journal.declare change) where
  holds label := by
    refine Eq.trans ?_ (consistent.holds label)
    change (change journal.draft).shapes.lookup label = _
    rw [same]
    rfl
  fresh := consistent.fresh

theorem Consistent.append (consistent : Consistent journal) (entry : Registration) (later : Draft)
    (held : ∀ label, later.shape? label =
      if label = entry.label then some entry.shape else journal.draft.shape? label)
    (fresh : ∀ label shape, entry = .inPlace label shape → label ∉ journal.draft.labels) :
    Consistent ⟨later, journal.log ++ [entry]⟩ where
  holds label := by
    rw [held, consistent.holds, Registration.lastShape?_append]
    by_cases same : label = entry.label <;> simp [lastShape?, same]
  fresh before label shape after split := by
    rcases List.eq_nil_or_concat after with rfl | ⟨after, last, rfl⟩
    · obtain ⟨rfl, same⟩ := List.append_inj' split rfl
      have new := fresh label shape (List.singleton_inj.mp same)
      rw [Draft.mem_labels_iff, not_not, consistent.holds] at new
      exact (Registration.lastShape?_eq_none_iff ..).mp new
    · rw [List.concat_eq_append, ← List.cons_append, ← List.append_assoc] at split
      exact consistent.fresh _ _ _ _ (List.append_inj' split rfl).1

theorem Consistent.step (consistent : Consistent journal) (step : Step journal later) :
    Consistent later := by
  cases step with
  | base => exact consistent.declare rfl
  | prefixes => exact consistent.declare rfl
  | start => exact consistent.declare rfl
  | startActions => exact consistent.declare rfl
  | inPlace shape =>
    refine consistent.append (.inPlace _ shape) _ (fun label => ?_) fun label _ same => ?_
    · exact Draft.shape?_register ..
    · cases same
      exact Draft.freshLabel_not_mem _
  | stated label shape =>
    exact consistent.append (.stated label shape) _ (fun _ => Draft.shape?_register ..) nofun

theorem Consistent.steps (consistent : Consistent journal) (steps : Steps journal later) :
    Consistent later := by
  induction steps with
  | refl => exact consistent
  | tail _ step ih => exact ih.step step

/-- What stands under the label of a shape that was declared in place. -/
theorem Consistent.inPlace_kept_iff (consistent : Consistent journal)
    (split : journal.log = before ++ .inPlace label shape :: after) :
    journal.draft.shape? label = some shape ↔
      ∀ other, lastShape? label after = some other → other = shape := by
  rw [consistent.holds, split, Registration.lastShape?_append]
  simp only [lastShape?, Registration.label, Registration.shape, if_true]
  cases lastShape? label after with
  | none => simp
  | some other => simp

/-- Of the shapes that are declared later, only those of statements can have its label. -/
theorem Consistent.stated_after (consistent : Consistent journal)
    (split : journal.log = before ++ .inPlace label shape :: after) (entry : Registration)
    (member : entry ∈ after) (same : entry.label = label) :
    ∃ other, entry = .stated label other := by
  cases entry with
  | stated held other => exact ⟨other, congrArg (Registration.stated · other) same⟩
  | inPlace held other =>
    obtain ⟨front, rest, rfl⟩ := List.append_of_mem member
    refine (consistent.fresh (before ++ .inPlace label shape :: front) held other rest ?_ _
      (List.mem_append_right _ List.mem_cons_self) same.symm).elim
    rw [split, List.append_assoc, List.cons_append]

end Journal

end ShExCompact
