import Mathlib.Data.List.Dedup
import ShExCompact.Proofs.Drafts.Inlining
import ShExCompact.Proofs.Drafts.Placement

/-! The numbers of shapes in place. If all statements declare shapes under IRIs, every generated
number is free at once, and the blank labels of a draft are numbered from zero without a gap. -/
namespace ShExCompact

theorem Draft.freeNumber_of_free (free : Label.numbered number ∉ taken) (tries : Nat) :
    freeNumber taken tries number = number := by
  cases tries with
  | zero => rfl
  | succ tries => exact if_neg free

/-! ### First occurrences -/

namespace Schema

theorem firstOccurrences_append (seen front rest : List Label) :
    firstOccurrences seen (front ++ rest) =
      firstOccurrences seen front ++ firstOccurrences (front ++ seen) rest := by
  induction front generalizing seen with
  | nil => rfl
  | cons label front ih =>
    have grown : ∀ other ∈ rest, other ∈ front ++ label :: seen ↔
        other ∈ label :: (front ++ seen) := by
      intro other _
      simp only [List.mem_append, List.mem_cons, or_left_comm]
    rw [List.cons_append, List.cons_append, firstOccurrences, firstOccurrences]
    split
    case isTrue held =>
      rw [ih]
      congr 1
      apply firstOccurrences_congr
      intro other _
      rw [List.mem_cons, or_iff_right_of_imp]
      rintro rfl
      exact List.mem_append_right _ held
    case isFalse new => rw [ih, firstOccurrences_congr grown, List.cons_append]

theorem firstOccurrences_of_nodup {all : List Label} (distinct : all.Nodup)
    (new : ∀ label ∈ all, label ∉ seen) : firstOccurrences seen all = all := by
  induction all generalizing seen with
  | nil => rfl
  | cons label rest ih =>
    obtain ⟨once, others⟩ := List.nodup_cons.mp distinct
    obtain ⟨here, behind⟩ := List.forall_mem_cons.mp new
    rw [firstOccurrences, if_neg here, ih others]
    intro other member
    rw [List.mem_cons, not_or]
    exact ⟨fun same => once (same ▸ member), behind other member⟩

theorem filter_firstOccurrences (p : Label → Bool) (seen all : List Label) :
    (firstOccurrences seen all).filter p = firstOccurrences seen (all.filter p) := by
  induction all generalizing seen with
  | nil => rfl
  | cons label rest ih =>
    rw [firstOccurrences, List.filter_cons]
    by_cases held : label ∈ seen
    · rw [if_pos held, ih]
      split
      · rw [firstOccurrences, if_pos held]
      · rfl
    · rw [if_neg held, List.filter_cons, ih]
      split
      · rw [firstOccurrences, if_neg held]
      case isFalse out =>
        apply firstOccurrences_congr
        intro other member
        rw [List.mem_cons, or_iff_right]
        rintro rfl
        exact out (List.mem_filter.mp member).2

/-- There are as many as there are distinct labels. -/
theorem length_firstOccurrences (all : List Label) :
    (firstOccurrences [] all).length = all.dedup.length := by
  apply List.Perm.length_eq
  apply (List.perm_ext_iff_of_nodup (nodup_firstOccurrences [] all) all.nodup_dedup).mpr
  intro label
  simp [mem_firstOccurrences]

/-- A label stands behind those that are declared before its first declaration. -/
theorem firstOccurrences_sublist {front rest : List Label} (earlier : other ∈ front)
    (new : label ∉ front) :
    [other, label].Sublist (firstOccurrences [] (front ++ label :: rest)) := by
  have before : other ∈ firstOccurrences [] front := mem_firstOccurrences.mpr ⟨earlier, nofun⟩
  have here : label ∉ front ++ [] := by rwa [List.append_nil]
  rw [firstOccurrences_append, firstOccurrences, if_neg here]
  exact (List.singleton_sublist.mpr before).append (List.cons_sublist_cons.mpr (List.nil_sublist _))

end Schema

/-! ### Numbers -/

namespace Journal

open Registration (isInline label)

/-- The shapes in place of a log. -/
def inlineEntries (log : List Registration) : List Registration := log.filter isInline

theorem inlineEntries_append (front rest : List Registration) :
    inlineEntries (front ++ rest) = inlineEntries front ++ inlineEntries rest :=
  List.filter_append ..

/-- The shapes in place are numbered from zero in the order in which they are declared. -/
structure Numbered (journal : Journal) : Prop where
  counter : journal.draft.counter = (inlineEntries journal.log).length
  labels : (inlineEntries journal.log).map label =
    (List.range journal.draft.counter).map Label.numbered

/-- Statements declare shapes under IRIs only. -/
def Named (log : List Registration) : Prop :=
  ∀ entry ∈ log, entry.isInline ∨ entry.label.blank? = none

theorem Numbered.initial (start : Draft) (fresh : start.counter = 0) :
    Numbered ⟨start, []⟩ where
  counter := fresh
  labels := by
    change [] = (List.range start.counter).map Label.numbered
    rw [fresh]
    rfl

theorem Numbered.of_inline (numbered : Numbered journal) (member : entry ∈ journal.log)
    (inline : isInline entry) :
    ∃ number < journal.draft.counter, entry.label = Label.numbered number := by
  have held : entry.label ∈ (inlineEntries journal.log).map label :=
    List.mem_map_of_mem (List.mem_filter.mpr ⟨member, inline⟩)
  rw [numbered.labels] at held
  obtain ⟨number, below, same⟩ := List.mem_map.mp held
  exact ⟨number, List.mem_range.mp below, same.symm⟩

/-- The next number is free. -/
theorem Numbered.free (numbered : Numbered journal) (consistent : Consistent journal)
    (named : Named journal.log) : Label.numbered journal.draft.counter ∉ journal.draft.labels := by
  rw [Draft.mem_labels_iff, not_not, consistent.holds, Registration.lastShape?_eq_none_iff]
  intro entry member same
  -- The numbers of shapes in place are below the counter, and statements have none.
  rcases named entry member with inline | noBlank
  · obtain ⟨number, below, same'⟩ := numbered.of_inline member inline
    rw [Label.numbered_injective (same.symm.trans same')] at below
    exact Nat.lt_irrefl number below
  · rw [same] at noBlank
    cases noBlank

theorem Numbered.declare (numbered : Numbered journal)
    (same : (change journal.draft).counter = journal.draft.counter) :
    Numbered (journal.declare change) where
  counter := same.trans numbered.counter
  labels := by
    change _ = (List.range (change journal.draft).counter).map Label.numbered
    rw [same]
    exact numbered.labels

theorem Numbered.step (numbered : Numbered journal) (consistent : Consistent journal)
    (named : Named journal.log) (step : Step journal later) : Numbered later := by
  cases step with
  | base | prefixes | start | startActions => exact numbered.declare rfl
  | inPlace shape =>
    have free := numbered.free consistent named
    have number : journal.draft.freshLabel =
        (Label.numbered journal.draft.counter,
          { journal.draft with counter := journal.draft.counter + 1 }) := by
      unfold Draft.freshLabel
      rw [Draft.freeNumber_of_free free]
    have log : inlineEntries (journal.inPlace shape).log = inlineEntries journal.log ++
        [.inPlace (Label.numbered journal.draft.counter) shape] := by
      unfold inPlace
      rw [inlineEntries_append, number]
      rfl
    have counter : (journal.inPlace shape).draft.counter = journal.draft.counter + 1 := by
      unfold inPlace
      rw [number]
      rfl
    constructor
    · rw [log, counter, numbered.counter, List.length_append, List.length_singleton]
    · rw [log, counter, List.range_succ, List.map_append, List.map_append, numbered.labels]
      rfl
  | stated declared shape =>
    have log : inlineEntries (journal.stated declared shape).log = inlineEntries journal.log :=
      (inlineEntries_append ..).trans (List.append_nil _)
    exact ⟨log ▸ numbered.counter, log ▸ numbered.labels⟩

/-- Whatever a document does, if its statements declare shapes under IRIs only. -/
theorem Numbered.steps (numbered : Numbered journal) (consistent : Consistent journal)
    (steps : Steps journal later) (named : Named later.log) : Numbered later := by
  induction steps with
  | refl => exact numbered
  | @tail middle later front step ih =>
    have grown : middle.log <+: later.log := log_prefix (.single step)
    have before : Named middle.log := fun entry member => named entry (grown.subset member)
    exact (ih before).step (consistent.steps front) before step

/-! ### Labels -/

/-- The labels of shapes in place are the blank ones. -/
theorem Numbered.blank_iff (numbered : Numbered journal) (named : Named journal.log)
    (member : entry ∈ journal.log) : entry.label.blank?.isSome = entry.isInline := by
  cases inline : entry.isInline with
  | true =>
    obtain ⟨number, -, same⟩ := numbered.of_inline member inline
    rw [same]
    rfl
  | false =>
    rw [(named entry member).resolve_left (by simp [inline])]
    rfl

/-- No statement has a generated label, so each shape in place is kept. -/
theorem Numbered.shape?_inPlace (numbered : Numbered journal) (consistent : Consistent journal)
    (named : Named journal.log) (member : .inPlace declared shape ∈ journal.log) :
    journal.draft.shape? declared = some shape := by
  obtain ⟨number, -, generated⟩ := numbered.of_inline member rfl
  obtain ⟨before, after, split⟩ := List.append_of_mem member
  refine (consistent.inPlace_kept_iff split).mpr fun other again => ?_
  -- Only a statement could replace the shape, and no statement has a number as its label.
  have none : Registration.lastShape? declared after = none := by
    apply (Registration.lastShape?_eq_none_iff declared after).mpr
    intro entry later same
    obtain ⟨other, rfl⟩ := consistent.stated_after split entry later same
    have logged : .stated declared other ∈ journal.log :=
      split ▸ List.mem_append_right before (.tail _ later)
    have noBlank := (named _ logged).resolve_left Bool.false_ne_true
    rw [show declared = Label.numbered number from generated] at noBlank
    cases noBlank
  rw [none] at again
  cases again

theorem labels_of_steps (steps : Steps ⟨start, []⟩ journal) (noShapes : start.shapes = []) :
    journal.draft.labels = Schema.firstOccurrences [] (journal.log.map label) := by
  obtain ⟨new, log, extended⟩ := extended_of_steps steps
  obtain rfl : journal.log = new := log
  have none : start.labels = [] := by
    unfold Draft.labels
    rw [noShapes]
    rfl
  have labels := extended.labels
  rwa [none, List.nil_append] at labels

variable {start : Draft}

/-- The blank labels are the generated ones, in the order of their numbers. -/
theorem Numbered.filter_labels (numbered : Numbered journal) (named : Named journal.log)
    (steps : Steps ⟨start, []⟩ journal) (noShapes : start.shapes = []) :
    journal.draft.labels.filter (·.blank?.isSome) =
      (List.range journal.draft.counter).map Label.numbered := by
  have blank : (journal.log.map label).filter (·.blank?.isSome) =
      (inlineEntries journal.log).map label := by
    rw [List.filter_map]
    congr 1
    exact List.filter_congr fun entry member => numbered.blank_iff named member
  have distinct : ((List.range journal.draft.counter).map Label.numbered).Nodup :=
    List.nodup_range.map fun _ _ => Label.numbered_injective
  rw [labels_of_steps steps noShapes, Schema.filter_firstOccurrences, blank, numbered.labels,
    Schema.firstOccurrences_of_nodup distinct fun _ _ => List.not_mem_nil]

/-- Besides the generated labels there are those of the statements. -/
theorem Numbered.length_labels (numbered : Numbered journal) (named : Named journal.log)
    (steps : Steps ⟨start, []⟩ journal) (noShapes : start.shapes = []) :
    journal.draft.labels.length = journal.draft.counter +
      ((journal.log.filter (!isInline ·)).map label).dedup.length := by
  have stated : (journal.log.map label).filter (!·.blank?.isSome) =
      (journal.log.filter (!isInline ·)).map label := by
    rw [List.filter_map]
    congr 1
    exact List.filter_congr fun entry member => congrArg not (numbered.blank_iff named member)
  rw [List.length_eq_length_filter_add (·.blank?.isSome),
    numbered.filter_labels named steps noShapes, List.length_map, List.length_range,
    labels_of_steps steps noShapes, Schema.filter_firstOccurrences, stated,
    Schema.length_firstOccurrences]

end Journal

end ShExCompact
