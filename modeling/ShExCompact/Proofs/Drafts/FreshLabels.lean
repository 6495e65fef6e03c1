import Mathlib.Data.List.Perm.Subperm
import ShExCompact.Draft

/-! Generated labels are new: the numbers that are tried are distinct, and there are more of them
than labels. -/
namespace ShExCompact

theorem Label.numbered_injective (same : Label.numbered number = Label.numbered other) :
    number = other := by
  have texts := congrArg String.toList (Label.blank.inj same)
  rw [String.toList_append, String.toList_append] at texts
  have digits := List.append_cancel_left texts
  rw [Nat.toList_repr, Nat.toList_repr] at digits
  simpa using congrArg (Nat.ofDigitChars 10 · 0) digits

namespace Draft

theorem freeNumber_spec (taken : List Label) (tries number : Nat) :
    ∃ skipped ≤ tries, freeNumber taken tries number = number + skipped ∧
      (∀ before < skipped, Label.numbered (number + before) ∈ taken) ∧
      (skipped < tries → Label.numbered (number + skipped) ∉ taken) := by
  induction tries generalizing number with
  | zero => exact ⟨0, Nat.le_refl 0, rfl, nofun, nofun⟩
  | succ tries ih =>
    rw [freeNumber]
    split
    case isFalse free => exact ⟨0, Nat.zero_le _, rfl, nofun, fun _ => free⟩
    case isTrue held =>
      obtain ⟨skipped, enough, answer, before, free⟩ := ih (number + 1)
      refine ⟨skipped + 1, by omega, by omega, fun earlier less => ?_, fun less => ?_⟩
      · cases earlier with
        | zero => exact held
        | succ earlier =>
          have taken := before earlier (by omega)
          rwa [Nat.add_right_comm] at taken
      · have last := free (by omega)
        rwa [Nat.add_right_comm] at last

/-- As many tries as there are labels find a number that is not taken. -/
theorem numbered_freeNumber_not_mem (taken : List Label) (number : Nat) :
    Label.numbered (freeNumber taken taken.length number) ∉ taken := by
  obtain ⟨skipped, enough, answer, before, free⟩ := freeNumber_spec taken taken.length number
  rw [answer]
  intro held
  rcases Nat.lt_or_eq_of_le enough with less | all
  · exact free less held
  have tried : (List.range (skipped + 1)).map (fun k => Label.numbered (number + k)) ⊆ taken := by
    intro label member
    obtain ⟨k, bound, rfl⟩ := List.mem_map.mp member
    rcases Nat.lt_or_eq_of_le (Nat.le_of_lt_succ (List.mem_range.mp bound)) with less | rfl
    · exact before k less
    · exact held
  have distinct : ((List.range (skipped + 1)).map fun k => Label.numbered (number + k)).Nodup := by
    refine List.Pairwise.map _ (fun k l other same => other ?_) List.nodup_range
    exact Nat.add_left_cancel (Label.numbered_injective same)
  have fits := (List.subperm_of_subset distinct tried).length_le
  rw [List.length_map, List.length_range] at fits
  omega

/-- A generated label is none of those that shapes have. -/
theorem freshLabel_not_mem (draft : Draft) : draft.freshLabel.1 ∉ draft.labels := by
  have free := numbered_freeNumber_not_mem draft.labels draft.counter
  rwa [show draft.labels.length = draft.shapes.length from List.length_map ..] at free

theorem mem_labels_iff (draft : Draft) (label : Label) :
    label ∈ draft.labels ↔ draft.shape? label ≠ none := by
  unfold labels shape?
  induction draft.shapes with
  | nil => simp
  | cons entry rest ih =>
    rw [List.map_cons, List.mem_cons, ih, lookup_cons_ite]
    by_cases same : label = entry.1 <;> simp [same]

end Draft

end ShExCompact
