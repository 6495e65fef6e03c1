/-!
Finite maps from texts to texts. The entries stand in the order of their keys, code point by code
point, so that equal maps have equal entries.
-/
namespace ShExCompact

/-- Put an entry into a list that is ordered by key; an entry with the same key is replaced. -/
def insertEntry (key value : String) : List (String × String) → List (String × String)
  | [] => [(key, value)]
  | entry :: rest =>
    if key < entry.1 then (key, value) :: entry :: rest
    else if key = entry.1 then (key, value) :: rest
    else entry :: insertEntry key value rest

theorem mem_insertEntry {key value : String} {entries : List (String × String)}
    {entry : String × String} (member : entry ∈ insertEntry key value entries) :
    entry = (key, value) ∨ entry ∈ entries := by
  induction entries with
  | nil => simpa [insertEntry] using member
  | cons head rest ih =>
    simp only [insertEntry] at member
    split at member
    · simpa using member
    · split at member
      · rcases List.mem_cons.1 member with same | old
        · exact .inl same
        · exact .inr (List.mem_cons_of_mem _ old)
      · rcases List.mem_cons.1 member with same | old
        · exact .inr (same ▸ List.mem_cons_self)
        · exact (ih old).imp_right (List.mem_cons_of_mem _)

/-- The first pair with a key is the one that is found. -/
theorem lookup_cons_ite [BEq α] [LawfulBEq α] [DecidableEq α] (key other : α) (value : β)
    (rest : List (α × β)) :
    ((key, value) :: rest).lookup other =
      if other = key then some value else rest.lookup other := by
  by_cases same : other = key
  · simp [same]
  · simp [List.lookup_cons, same, beq_eq_false_iff_ne.2 same]

theorem lookup_insertEntry (key value other : String) (entries : List (String × String)) :
    (insertEntry key value entries).lookup other =
      if other = key then some value else entries.lookup other := by
  induction entries with
  | nil => simp [insertEntry, lookup_cons_ite]
  | cons head rest ih =>
    obtain ⟨name, held⟩ := head
    simp only [insertEntry]
    split
    · simp only [lookup_cons_ite]
    · split
      case isTrue same =>
        subst same
        by_cases here : other = key <;> simp [lookup_cons_ite, here]
      case isFalse different =>
        rw [lookup_cons_ite, lookup_cons_ite, ih]
        by_cases here : other = name
        · subst here
          simp [Ne.symm different]
        · simp [here]

/-- The order of entries by key. -/
def Ascending (entries : List (String × String)) : Prop :=
  entries.Pairwise fun first second => first.1 < second.1

theorem ascending_insertEntry (key value : String) {entries : List (String × String)}
    (ordered : Ascending entries) : Ascending (insertEntry key value entries) := by
  induction entries with
  | nil => simp [insertEntry, Ascending]
  | cons head rest ih =>
    obtain ⟨before, inner⟩ := List.pairwise_cons.1 ordered
    simp only [insertEntry]
    split
    case isTrue less =>
      refine List.pairwise_cons.2 ⟨fun entry member => ?_, ordered⟩
      rcases List.mem_cons.1 member with same | old
      · exact same ▸ less
      · exact String.lt_trans less (before entry old)
    case isFalse notLess =>
      split
      case isTrue same =>
        exact List.pairwise_cons.2 ⟨fun entry member => same ▸ before entry member, inner⟩
      case isFalse different =>
        refine List.pairwise_cons.2 ⟨fun entry member => ?_, ih inner⟩
        rcases mem_insertEntry member with same | old
        · subst same
          exact Std.lt_of_le_of_ne (Std.not_lt.1 notLess) fun equal => different equal.symm
        · exact before entry old

/-- A map from texts to texts. -/
structure Dictionary where
  entries : List (String × String)
  ascending : Ascending entries
deriving DecidableEq

namespace Dictionary

def empty : Dictionary := ⟨[], List.Pairwise.nil⟩

def isEmpty (map : Dictionary) : Bool := map.entries.isEmpty

/-- Bind a key; an earlier binding of the key is replaced. -/
def insert (map : Dictionary) (key value : String) : Dictionary :=
  ⟨insertEntry key value map.entries, ascending_insertEntry key value map.ascending⟩

/-- What a key is bound to. -/
def get? (map : Dictionary) (key : String) : Option String := map.entries.lookup key

theorem get?_empty (key : String) : empty.get? key = none := rfl

theorem get?_insert (map : Dictionary) (key value other : String) :
    (map.insert key value).get? other = if other = key then some value else map.get? other :=
  lookup_insertEntry key value other map.entries

/-- Bind keys one after the other. -/
def ofList (entries : List (String × String)) : Dictionary :=
  entries.foldl (fun map entry => map.insert entry.1 entry.2) empty

end Dictionary

end ShExCompact
