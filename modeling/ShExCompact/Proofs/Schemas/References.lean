import ShExCompact.Proofs.Drafts.Sessions

/-! Where a schema refers to labels. Places are paths into the schema, and a path comes before
another one if the schema is read up to it first: the start, then the shapes in their order, in
each the labels that it inherits from and then its expression. Main statement: the references of a
schema are the labels at its places, once each, in the order of their first places. -/
namespace ShExCompact

/-! ### Places -/

/-- The place of a label in a reference. -/
inductive ShapeRef.RefersAt : ShapeRef → List Nat → Label → Prop where
  | one : RefersAt (.one label) [] label
  | any {all : List Label} (held : all[i]? = some label) : RefersAt (.any all) [i] label

/-- A reference is a value class of its own, or it is attached to a node kind. -/
inductive ValueClass.RefersAt : ValueClass → List Nat → Label → Prop where
  | bare (place : ShapeRef.RefersAt target path label) : RefersAt (.reference target) path label
  | attached (place : ShapeRef.RefersAt target path label) :
      RefersAt (.kind nodes facets (some target)) path label

/-- The parts of an expression are counted from the left. -/
inductive TripleExpr.RefersAt : TripleExpr → List Nat → Label → Prop where
  | oneOf (part : exprs[i]? = some expr) (place : RefersAt expr path label) :
      RefersAt (.oneOf own exprs) (i :: path) label
  | someOf (part : exprs[i]? = some expr) (place : RefersAt expr path label) :
      RefersAt (.someOf own exprs) (i :: path) label
  | group (part : exprs[i]? = some expr) (place : RefersAt expr path label) :
      RefersAt (.group own exprs cardinality actions) (i :: path) label
  | constraint (place : body.value.RefersAt path label) :
      RefersAt (.constraint own body) path label
  | inclusion : RefersAt (.inclusion own target) [] target

/-- What a shape inherits from comes before its expression. -/
inductive Shape.RefersAt (shape : Shape) : List Nat → Label → Prop where
  | inherit (held : shape.inherit[i]? = some label) : RefersAt shape [0, i] label
  | expression (given : shape.expression = some expr) (place : expr.RefersAt path label) :
      RefersAt shape (1 :: path) label

/-- The start comes before the shapes, which are counted in the order of their labels. -/
inductive Schema.RefersAt (schema : Schema) : List Nat → Label → Prop where
  | start (held : schema.start = some label) : RefersAt schema [0] label
  | shape (declared : schema.labels[i]? = some name) (held : schema.shape? name = some shape)
      (place : shape.RefersAt path label) : RefersAt schema (1 :: i :: path) label

/-! ### Labels in the order of their places -/

/-- A list has the labels at some places, in the order of the places. -/
def Enumerates (place : List Nat → Label → Prop) (labels : List Label) : Prop :=
  ∃ table : List (List Nat × Label), table.map Prod.snd = labels ∧
    (∀ path label, (path, label) ∈ table ↔ place path label) ∧
    table.Pairwise fun first second => first.1 < second.1

/-- The places inside of the parts of a list, which are counted from `start` on. -/
def Among (start : Nat) (place : α → List Nat → Label → Prop) (parts : List α) (path : List Nat)
    (label : Label) : Prop :=
  ∃ i rest part, path = (start + i) :: rest ∧ parts[i]? = some part ∧ place part rest label

namespace Enumerates

variable {place other : List Nat → Label → Prop}

theorem congr (enumerates : Enumerates place labels)
    (same : ∀ path label, place path label ↔ other path label) : Enumerates other labels := by
  obtain ⟨table, shown, held, ordered⟩ := enumerates
  exact ⟨table, shown, fun path label => (held path label).trans (same path label), ordered⟩

theorem nothing (empty : ∀ path label, ¬ place path label) : Enumerates place [] :=
  ⟨[], rfl, fun path label => ⟨nofun, fun held => (empty path label held).elim⟩, .nil⟩

theorem single (path : List Nat) (label : Label) :
    Enumerates (fun path' label' => path' = path ∧ label' = label) [label] := by
  refine ⟨[(path, label)], rfl, fun path' label' => ?_, List.pairwise_singleton ..⟩
  rw [List.mem_singleton, Prod.mk.injEq]

/-- The same places below a number. -/
theorem below (enumerates : Enumerates place labels) (i : Nat) :
    Enumerates (fun path label => ∃ rest, path = i :: rest ∧ place rest label) labels := by
  obtain ⟨table, shown, held, ordered⟩ := enumerates
  refine ⟨table.map fun entry => (i :: entry.1, entry.2), ?_, ?_, ?_⟩
  · rw [List.map_map]
    exact shown
  · intro path label
    simp only [List.mem_map, Prod.exists, Prod.mk.injEq]
    constructor
    · rintro ⟨rest, _, member, rfl, rfl⟩
      exact ⟨rest, rfl, (held ..).mp member⟩
    · rintro ⟨rest, rfl, at'⟩
      exact ⟨rest, label, (held ..).mpr at', rfl, rfl⟩
  · refine List.pairwise_map.mpr (ordered.imp fun before => ?_)
    exact List.cons_lt_cons_self.mpr before

/-- Places that come before others. -/
theorem append (front : Enumerates place labels) (rest : Enumerates other labels')
    (before : ∀ path label path' label', place path label → other path' label' → path < path') :
    Enumerates (fun path label => place path label ∨ other path label) (labels ++ labels') := by
  obtain ⟨table, rfl, held, ordered⟩ := front
  obtain ⟨table', rfl, held', ordered'⟩ := rest
  refine ⟨table ++ table', List.map_append, fun path label => ?_, ?_⟩
  · rw [List.mem_append, held, held']
  · refine List.pairwise_append.mpr ⟨ordered, ordered', fun entry member entry' member' => ?_⟩
    exact before _ _ _ _ ((held ..).mp member) ((held' ..).mp member')

/-- Parts are read one after the other. -/
theorem among {place : α → List Nat → Label → Prop} {references : α → List Label}
    {parts : List α} (each : ∀ part ∈ parts, Enumerates (place part) (references part))
    (start : Nat) : Enumerates (Among start place parts) (parts.flatMap references) := by
  induction parts generalizing start with
  | nil =>
    refine nothing ?_
    rintro path label ⟨i, rest, part, -, impossible, -⟩
    cases impossible
  | cons part parts ih =>
    obtain ⟨first, others⟩ := List.forall_mem_cons.mp each
    rw [List.flatMap_cons]
    refine ((first.below start).append (ih others (start + 1)) ?_).congr fun path label => ?_
    · rintro _ label _ label' ⟨rest, rfl, -⟩ ⟨i, rest', part', rfl, -, -⟩
      exact List.cons_lt_cons_iff.mpr (.inl (by omega))
    · constructor
      · rintro (⟨rest, rfl, place⟩ | ⟨i, rest, part', rfl, held, place⟩)
        · exact ⟨0, rest, part, rfl, rfl, place⟩
        · exact ⟨i + 1, rest, part', by rw [Nat.add_right_comm]; rfl, held, place⟩
      · rintro ⟨_ | i, rest, part', rfl, held, place⟩
        · cases held
          exact .inl ⟨rest, rfl, place⟩
        · exact .inr ⟨i, rest, part', by rw [Nat.add_right_comm]; rfl, held, place⟩

/-- The labels of a list are one place each. -/
theorem labels (all : List Label) :
    Enumerates (fun path label => ∃ i, path = [i] ∧ all[i]? = some label) all := by
  have each : Enumerates _ (all.flatMap fun label => [label]) :=
    among (fun label _ => single [] label) 0
  rw [List.flatMap_singleton'] at each
  refine each.congr fun path label => ⟨?_, ?_⟩
  · rintro ⟨i, _, _, rfl, held, rfl, rfl⟩
    exact ⟨i, by rw [Nat.zero_add], held⟩
  · rintro ⟨i, rfl, held⟩
    exact ⟨i, [], label, by rw [Nat.zero_add], held, rfl, rfl⟩

end Enumerates

/-! ### References of the parts of a schema -/

theorem ShapeRef.enumerates (target : ShapeRef) : Enumerates target.RefersAt target.labels := by
  cases target with
  | one name =>
    refine (Enumerates.single [] name).congr fun path label => ⟨?_, ?_⟩
    · rintro ⟨rfl, rfl⟩
      exact .one
    · rintro ⟨⟩
      exact ⟨rfl, rfl⟩
  | any all =>
    refine (Enumerates.labels all).congr fun path label => ⟨?_, ?_⟩
    · rintro ⟨i, rfl, held⟩
      exact .any held
    · rintro ⟨⟩
      exact ⟨_, rfl, ‹_›⟩

theorem ValueClass.enumerates (value : ValueClass) :
    Enumerates value.RefersAt value.references := by
  cases value with
  | reference target =>
    refine target.enumerates.congr fun path label => ⟨.bare, ?_⟩
    rintro ⟨place⟩
    exact place
  | kind nodes facets target =>
    cases target with
    | none => exact .nothing nofun
    | some target =>
      refine target.enumerates.congr fun path label => ⟨.attached, ?_⟩
      rintro ⟨⟩
      assumption
  | values | anything | datatype => exact .nothing nofun

namespace TripleExpr

theorem referencesOf_eq_flatMap (exprs : List TripleExpr) :
    referencesOf exprs = exprs.flatMap references := by
  induction exprs with
  | nil => rfl
  | cons expr rest ih => rw [referencesOf, ih, List.flatMap_cons]

theorem refersAt_oneOf : (oneOf own exprs).RefersAt path label ↔
    Among 0 RefersAt exprs path label := by
  constructor
  · rintro ⟨part, place⟩
    exact ⟨_, _, _, by rw [Nat.zero_add], part, place⟩
  · rintro ⟨i, rest, expr, rfl, part, place⟩
    rw [Nat.zero_add]
    exact .oneOf part place

theorem refersAt_someOf : (someOf own exprs).RefersAt path label ↔
    Among 0 RefersAt exprs path label := by
  constructor
  · intro place
    cases place with
    | someOf part place => exact ⟨_, _, _, by rw [Nat.zero_add], part, place⟩
  · rintro ⟨i, rest, expr, rfl, part, place⟩
    rw [Nat.zero_add]
    exact .someOf part place

theorem refersAt_group : (group own exprs cardinality actions).RefersAt path label ↔
    Among 0 RefersAt exprs path label := by
  constructor
  · intro place
    cases place with
    | group part place => exact ⟨_, _, _, by rw [Nat.zero_add], part, place⟩
  · rintro ⟨i, rest, expr, rfl, part, place⟩
    rw [Nat.zero_add]
    exact .group part place

mutual

/-- One case for each kind of node. -/
theorem enumerates : ∀ expr : TripleExpr, Enumerates expr.RefersAt expr.references
  | .oneOf own parts => by
    rw [references, referencesOf_eq_flatMap]
    exact (Enumerates.among (enumerates_of_mem parts) 0).congr fun _ _ => refersAt_oneOf.symm
  | .someOf own parts => by
    rw [references, referencesOf_eq_flatMap]
    exact (Enumerates.among (enumerates_of_mem parts) 0).congr fun _ _ => refersAt_someOf.symm
  | .group own parts cardinality actions => by
    rw [references, referencesOf_eq_flatMap]
    exact (Enumerates.among (enumerates_of_mem parts) 0).congr fun _ _ => refersAt_group.symm
  | .constraint own body => by
    refine body.value.enumerates.congr fun path label => ⟨.constraint, fun place => ?_⟩
    cases place with
    | constraint place => exact place
  | .inclusion own target => by
    refine (Enumerates.single [] target).congr fun path label => ⟨?_, ?_⟩
    · rintro ⟨rfl, rfl⟩
      exact .inclusion
    · rintro ⟨⟩
      exact ⟨rfl, rfl⟩

theorem enumerates_of_mem : ∀ parts : List TripleExpr, ∀ part ∈ parts,
    Enumerates part.RefersAt part.references
  | expr :: rest, part, member => by
    rcases List.mem_cons.mp member with same | later
    · exact same ▸ enumerates expr
    · exact enumerates_of_mem rest part later

end

end TripleExpr

theorem Shape.enumerates (shape : Shape) : Enumerates shape.RefersAt shape.references := by
  have inherited := (Enumerates.labels shape.inherit).below 0
  cases given : shape.expression with
  | none =>
    rw [references, given, List.append_nil]
    refine inherited.congr fun path label => ⟨?_, fun place => ?_⟩
    · rintro ⟨rest, rfl, i, rfl, held⟩
      exact .inherit held
    · cases place with
      | inherit held => exact ⟨_, rfl, _, rfl, held⟩
      | expression some => cases given.symm.trans some
  | some expr =>
    rw [references, given]
    refine (inherited.append (expr.enumerates.below 1) ?_).congr fun path label =>
      ⟨?_, fun place => ?_⟩
    · rintro _ label _ label' ⟨rest, rfl, -⟩ ⟨rest', rfl, -⟩
      exact List.cons_lt_cons_iff.mpr (.inl Nat.zero_lt_one)
    · rintro (⟨rest, rfl, i, rfl, held⟩ | ⟨rest, rfl, place⟩)
      · exact .inherit held
      · exact .expression given place
    · cases place with
      | inherit held => exact .inl ⟨_, rfl, _, rfl, held⟩
      | expression same place =>
        cases given.symm.trans same
        exact .inr ⟨_, rfl, place⟩

/-! ### References of a schema -/

namespace Draft

/-- If the labels are distinct, the shape at each place is the one that is found under its label. -/
theorem entry_iff {draft : Draft} {i : Nat} {name : Label} {shape : Shape}
    (distinct : draft.labels.Nodup) :
    draft.finish.shapes[i]? = some (name, shape) ↔
      draft.finish.labels[i]? = some name ∧ draft.finish.shape? name = some shape := by
  have entries := congrArg (·[i]?) (draft.shapes_eq_labels distinct)
  simp only [List.getElem?_map] at entries
  change draft.shapes[i]? = _ ↔ draft.labels[i]? = _ ∧ draft.shape? name = _
  cases held : draft.shapes[i]? with
  | none =>
    rw [held] at entries
    cases declared : draft.labels[i]? with
    | none => simp
    | some label =>
      rw [declared] at entries
      cases entries
  | some entry =>
    rw [held] at entries
    cases declared : draft.labels[i]? with
    | none =>
      rw [declared] at entries
      cases entries
    | some label =>
      rw [declared] at entries
      obtain ⟨other, shape'⟩ := entry
      obtain ⟨rfl, found⟩ := Prod.mk.inj (Option.some.inj entries)
      simp only [Option.some.injEq, Prod.mk.injEq]
      constructor
      · rintro ⟨rfl, rfl⟩
        exact ⟨rfl, found.symm⟩
      · rintro ⟨rfl, found'⟩
        exact ⟨rfl, Option.some.inj (found.trans found')⟩

theorem enumerates_finish {draft : Draft} (distinct : draft.labels.Nodup) :
    Enumerates draft.finish.RefersAt (draft.finish.start.toList ++
      draft.finish.shapes.flatMap fun entry => entry.2.references) := by
  have start : Enumerates (fun path label => path = [0] ∧ draft.finish.start = some label)
      draft.finish.start.toList := by
    cases draft.finish.start with
    | none => exact .nothing fun _ _ held => nomatch held.2
    | some label =>
      exact (Enumerates.single [0] label).congr fun _ _ =>
        and_congr_right' (eq_comm.trans Option.some_inj.symm)
  have each (entry : Label × Shape) (_ : entry ∈ draft.finish.shapes) :
      Enumerates entry.2.RefersAt entry.2.references := entry.2.enumerates
  have shapes := (Enumerates.among each 0).below 1
  refine (start.append shapes ?_).congr fun path label => ⟨?_, fun place => ?_⟩
  · rintro _ label _ label' ⟨rfl, -⟩ ⟨rest', rfl, -⟩
    exact List.cons_lt_cons_iff.mpr (.inl Nat.zero_lt_one)
  · rintro (⟨rfl, held⟩ | ⟨_, rfl, i, rest, ⟨name, shape⟩, rfl, held, place⟩)
    · exact .start held
    · rw [Nat.zero_add]
      obtain ⟨declared, found⟩ := (entry_iff distinct).mp held
      exact .shape declared found place
  · cases place with
    | start held => exact .inl ⟨rfl, held⟩
    | shape declared found place =>
      exact .inr ⟨_, rfl, _, _, _, by rw [Nat.zero_add], (entry_iff distinct).mpr ⟨declared, found⟩,
        place⟩

end Draft

namespace Schema

/-- Before each first occurrence stands an occurrence of every label that was found before. -/
theorem firstOccurrences_pairwise (seen all : List Label) :
    (firstOccurrences seen all).Pairwise fun first second =>
      ∃ front rest, all = front ++ first :: rest ∧ second ∉ front ∧ second ≠ first := by
  induction all generalizing seen with
  | nil => exact .nil
  | cons label all ih =>
    have later {seen : List Label} (held : label ∈ seen) :
        (firstOccurrences seen all).Pairwise fun first second =>
          ∃ front rest, label :: all = front ++ first :: rest ∧ second ∉ front ∧
            second ≠ first := by
      refine (ih seen).imp_of_mem fun {first second} _ member => ?_
      rintro ⟨front, rest, rfl, before, other⟩
      have new : second ≠ label := by
        rintro rfl
        exact (mem_firstOccurrences.mp member).2 held
      exact ⟨label :: front, rest, rfl, List.not_mem_cons_of_ne_of_not_mem new before, other⟩
    rw [firstOccurrences]
    split
    case isTrue held => exact later held
    case isFalse =>
      refine List.pairwise_cons.mpr ⟨fun second member => ?_, later List.mem_cons_self⟩
      refine ⟨[], all, rfl, List.not_mem_nil, ?_⟩
      rintro rfl
      exact (mem_firstOccurrences.mp member).2 List.mem_cons_self

/-- The first occurrences of labels are in the order of the first places. -/
theorem firstOccurrences_ordered (enumerates : Enumerates place all) :
    (firstOccurrences [] all).Pairwise fun first second =>
      ∃ path, place path first ∧ ∀ later, place later second → path < later := by
  obtain ⟨table, rfl, held, ordered⟩ := enumerates
  refine (firstOccurrences_pairwise [] _).imp fun {first second} => ?_
  rintro ⟨front, rest, split, before, other⟩
  obtain ⟨front, rest, rfl, rfl, tail⟩ := List.map_eq_append_iff.mp split
  obtain ⟨⟨path, label⟩, rest, rfl, rfl, rfl⟩ := List.map_eq_cons_iff.mp tail
  refine ⟨path, (held ..).mp (by simp), fun later place => ?_⟩
  have behind : (later, second) ∈ rest := by
    have member := (held ..).mpr place
    rcases List.mem_append.mp member with inFront | inRest
    · exact absurd (List.mem_map_of_mem inFront) before
    rcases List.mem_cons.mp inRest with same | inRest
    · exact absurd (congrArg Prod.snd same) other
    · exact inRest
  exact List.rel_of_pairwise_cons (List.pairwise_append.mp ordered).2.1 behind

/-- Whatever was done to a draft, the references of its schema are the labels that the start or a
place of a registered shape refers to, once each, and they are in the order in which the schema
refers to them first. -/
theorem references_complete (check : String → Except Iri.Fault Unit) (operations : List Operation) :
    (Draft.empty.run check operations).finish.references.Nodup ∧
    (∀ label, label ∈ (Draft.empty.run check operations).finish.references ↔
      ∃ path, (Draft.empty.run check operations).finish.RefersAt path label) ∧
    (Draft.empty.run check operations).finish.references.Pairwise fun first second =>
      ∃ path, (Draft.empty.run check operations).finish.RefersAt path first ∧
        ∀ later, (Draft.empty.run check operations).finish.RefersAt later second →
          path < later := by
  have enumerates := Draft.enumerates_finish (Session.nodup_labels check operations)
  refine ⟨nodup_firstOccurrences .., fun label => ?_, firstOccurrences_ordered enumerates⟩
  obtain ⟨table, shown, held, -⟩ := enumerates
  rw [references, mem_firstOccurrences, ← shown, List.mem_map]
  constructor
  · rintro ⟨⟨⟨path, _⟩, member, rfl⟩, -⟩
    exact ⟨path, (held ..).mp member⟩
  · rintro ⟨path, place⟩
    exact ⟨⟨_, (held ..).mpr place, rfl⟩, List.not_mem_nil⟩

end Schema

end ShExCompact
