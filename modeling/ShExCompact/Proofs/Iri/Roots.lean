import Mathlib.Data.List.TakeWhile
import ShExCompact.Draft

/-! Where references lead. While the base is only redeclared relative to the one before, it stays
under one root, and so does every reference that it resolves. What a reference resolves to resolves
to itself. -/
namespace ShExCompact

namespace Reference

/-- What stands between the brackets of a reference once its escapes are decoded. -/
def content (reference : String) : List Char := unwrap (Escape.unescapeIri reference).toList

/-- Texts without angle brackets. -/
def Bracketless (text : List Char) : Prop := '<' ∉ text ∧ '>' ∉ text

instance : DecidablePred Bracketless := fun _ => inferInstanceAs (Decidable (_ ∧ _))

/-- References without an angle bracket besides those around them, not even an escaped one. -/
def Clean (reference : String) : Prop := Bracketless (content reference)

instance : DecidablePred Clean := fun reference =>
  inferInstanceAs (Decidable (Bracketless (content reference)))

/-- Texts of a lowercase scheme, a colon and anything behind it. -/
def Absolute (text : List Char) : Prop :=
  ∃ scheme rest, scheme ≠ [] ∧ (∀ c ∈ scheme, c.isLower) ∧ text = scheme ++ ':' :: rest

theorem scheme_front {scheme : List Char} (lower : ∀ c ∈ scheme, c.isLower) (rest : List Char) :
    (scheme ++ ':' :: rest).takeWhile Char.isLower = scheme ∧
      (scheme ++ ':' :: rest).dropWhile Char.isLower = ':' :: rest := by
  rw [List.takeWhile_append_of_pos lower, List.dropWhile_append_of_pos lower]
  exact ⟨List.append_nil scheme, rfl⟩

theorem isAbsolute_iff {text : List Char} : isAbsolute text = true ↔ Absolute text := by
  constructor
  · intro absolute
    simp only [isAbsolute, Bool.and_eq_true, Bool.not_eq_true', List.isEmpty_eq_false_iff,
      beq_iff_eq] at absolute
    obtain ⟨named, colon⟩ := absolute
    obtain ⟨rest, behind⟩ := List.head?_eq_some_iff.mp colon
    refine ⟨text.takeWhile Char.isLower, rest, named, ?_, ?_⟩
    · exact List.all_eq_true.mp List.all_takeWhile
    · rw [← behind, List.takeWhile_append_dropWhile]
  · rintro ⟨scheme, rest, named, lower, rfl⟩
    obtain ⟨front, behind⟩ := scheme_front lower rest
    simp [isAbsolute, front, behind, named]

instance : DecidablePred Absolute := fun _ => decidable_of_iff _ isAbsolute_iff

theorem Bracketless.append (front : Bracketless text) (later : Bracketless rest) :
    Bracketless (text ++ rest) := by
  simp only [Bracketless, List.mem_append, not_or]
  exact ⟨⟨front.1, later.1⟩, front.2, later.2⟩

theorem Bracketless.mono (free : Bracketless text) (within : part ⊆ text) : Bracketless part :=
  ⟨fun member => free.1 (within member), fun member => free.2 (within member)⟩

theorem unwrap_bracketless (free : Bracketless text) : unwrap text = text := by
  have opened : text.head? ≠ some '<' := fun first => free.1 (List.mem_of_head? first)
  have closed : text.getLast? ≠ some '>' := fun last => free.2 (List.mem_of_getLast? last)
  simp only [unwrap, if_neg opened, if_neg closed]

/-- An absolute text without brackets resolves to itself, whatever the base is. -/
theorem resolve_absolute (absolute : Absolute text) (free : Bracketless text) (base : Base) :
    base.resolve (String.ofList text) = String.ofList text := by
  have scheme := isAbsolute_iff.mpr absolute
  obtain ⟨named, rest, some, lower, rfl⟩ := absolute
  obtain ⟨c, named, rfl⟩ := List.exists_cons_of_ne_nil some
  have letter := lower c List.mem_cons_self
  have other (d : Char) (mark : d.isLower = false) : c ≠ d := by
    rintro rfl
    rw [mark] at letter
    cases letter
  have kept : resolveInner (c :: named ++ ':' :: rest) base.text.toList base.path.toList
      base.root.toList = c :: named ++ ':' :: rest := by
    rw [List.cons_append] at scheme ⊢
    rw [resolveInner, if_neg (other '#' rfl), if_neg (other '?' rfl), if_neg (other '/' rfl),
      if_pos scheme]
  rw [Base.resolve, resolve, String.toList_ofList, unwrap_bracketless free, kept]

/-! ### Directories -/

theorem directory_slash (rest : List Char) : directory ('/' :: rest) = '/' :: directory rest := by
  simp [directory]

theorem directory_append (front rest : List Char) :
    directory (front ++ '/' :: rest) = front ++ '/' :: directory rest := by
  induction front with
  | nil => exact directory_slash rest
  | cons c front ih =>
    rw [List.cons_append, directory, ih]
    simp

theorem directory_prefix (text : List Char) : directory text <+: text := by
  induction text with
  | nil => exact List.prefix_rfl
  | cons c rest ih =>
    unfold directory
    dsimp only
    split
    · exact List.nil_prefix
    · exact List.cons_prefix_cons.mpr ⟨rfl, ih⟩

/-- A directory ends with a slash. -/
theorem getLast?_directory {text : List Char} (some : directory text ≠ []) :
    (directory text).getLast? = .some '/' := by
  induction text with
  | nil => exact absurd rfl some
  | cons c rest ih =>
    unfold directory at some ⊢
    dsimp only at some ⊢
    split at some
    next => exact absurd rfl some
    next inner =>
      rw [if_neg inner]
      by_cases empty : directory rest = []
      · have slash : c = '/' := by simpa [empty] using inner
        rw [empty, slash]
        rfl
      · rw [List.getLast?_cons, ih empty, Option.getD_some]

/-! ### Roots -/

/-- A lowercase scheme with its colon, slashes behind it, and an authority. -/
structure Root where
  scheme : List Char
  slashes : List Char
  authority : List Char
  named : scheme ≠ []
  lower : ∀ c ∈ scheme, c.isLower
  slashed : ∀ c ∈ slashes, c = '/'
  placed : authority ≠ []
  plain : ∀ c ∈ authority, c ∉ ['/', '?', '#', '<', '>']

namespace Root

variable (root : Root)

def text : List Char := root.scheme ++ ':' :: (root.slashes ++ root.authority)

theorem absolute (rest : List Char) : Absolute (root.text ++ rest) :=
  ⟨root.scheme, root.slashes ++ root.authority ++ rest, root.named, root.lower, by
    rw [text, List.append_assoc, List.cons_append]⟩

/-- Characters that end an authority stand nowhere in a root, a slash apart. -/
theorem not_mem {c : Char} (ends : c ∈ ['?', '#', '<', '>']) : c ∉ root.text := by
  have other : c.isLower = false ∧ c ≠ ':' ∧ c ≠ '/' := by
    simp only [List.mem_cons, List.not_mem_nil, or_false] at ends
    rcases ends with rfl | rfl | rfl | rfl <;> decide
  intro member
  simp only [text, List.mem_append, List.mem_cons] at member
  rcases member with scheme | colon | slash | authority
  · have letter := root.lower c scheme
    rw [other.1] at letter
    cases letter
  · exact other.2.1 colon
  · exact other.2.2 (root.slashed c slash)
  · exact root.plain c authority (List.mem_cons_of_mem _ ends)

theorem bracketless : Bracketless root.text :=
  ⟨root.not_mem (by decide), root.not_mem (by decide)⟩

theorem rootOf_text (rest : List Char) : rootOf (root.text ++ '/' :: rest) = root.text := by
  have split : root.text ++ '/' :: rest =
      root.scheme ++ ':' :: (root.slashes ++ (root.authority ++ '/' :: rest)) := by
    simp only [text, List.append_assoc, List.cons_append]
  obtain ⟨front, behind⟩ :=
    scheme_front root.lower (root.slashes ++ (root.authority ++ '/' :: rest))
  have slashed : ∀ c ∈ root.slashes, decide (c = '/') = true :=
    fun c member => decide_eq_true (root.slashed c member)
  have unslashed : ∀ c ∈ root.authority, decide (c ≠ '/') = true :=
    fun c member => decide_eq_true fun slash => root.plain c member (slash ▸ List.mem_cons_self)
  have opened : (root.authority ++ '/' :: rest).takeWhile (fun c => decide (c = '/')) = [] ∧
      (root.authority ++ '/' :: rest).dropWhile (fun c => decide (c = '/')) =
        root.authority ++ '/' :: rest := by
    obtain ⟨first, more, authority⟩ := List.exists_cons_of_ne_nil root.placed
    have other : ¬ decide (first = '/') = true := by
      simpa using unslashed first (authority ▸ List.mem_cons_self)
    rw [authority]
    exact ⟨List.takeWhile_cons_of_neg other, List.dropWhile_cons_of_neg other⟩
  rw [rootOf, if_pos (isAbsolute_iff.mpr (root.absolute _)), split, front, behind, List.tail_cons]
  dsimp only
  rw [List.takeWhile_append_of_pos slashed, List.dropWhile_append_of_pos slashed, opened.1,
    opened.2, List.takeWhile_append_of_pos unslashed]
  simp [text]

end Root

end Reference

/-! ### Bases under a root -/

open Reference (Root Bracketless Clean Absolute content)

/-- A base with a path behind a root. Its root is this one, and its directory goes from the root to
a slash. -/
structure Base.Under (root : Root) (base : Base) : Prop where
  text : ∃ rest, base.text.toList = root.text ++ '/' :: rest ∧ Bracketless rest
  root_eq : base.root.toList = root.text
  path : base.path.toList <+: base.text.toList
  rooted : root.text ++ ['/'] <+: base.path.toList
  closed : base.path.toList.getLast? = some '/'

namespace Base

variable {root : Root} {base : Base} {reference : String}

theorem ofText_under (root : Root) (free : Bracketless rest) :
    (Base.ofText (String.ofList (root.text ++ '/' :: rest))).Under root := by
  have directory := Reference.directory_append root.text rest
  have path : (Base.ofText (String.ofList (root.text ++ '/' :: rest))).path.toList =
      root.text ++ '/' :: Reference.directory rest := by
    rw [Base.ofText, String.toList_ofList, String.toList_ofList, directory]
  constructor
  · exact ⟨rest, String.toList_ofList, free⟩
  · rw [Base.ofText, String.toList_ofList, String.toList_ofList, root.rootOf_text]
  · rw [Base.ofText, String.toList_ofList, String.toList_ofList]
    exact Reference.directory_prefix _
  · rw [path]
    exact ⟨Reference.directory rest, by simp⟩
  · rw [path, ← directory]
    exact Reference.getLast?_directory (by simp [directory])

theorem Under.path_eq (under : base.Under root) :
    ∃ rest, base.path.toList = root.text ++ '/' :: rest ∧ Bracketless rest := by
  obtain ⟨rest, text, free⟩ := under.text
  obtain ⟨inner, path⟩ := under.rooted
  rw [List.append_assoc, List.singleton_append] at path
  refine ⟨inner, path.symm, free.mono ?_⟩
  have within := under.path
  rw [← path, text, List.prefix_append_right_inj, List.cons_prefix_cons] at within
  exact within.2.subset

/-- What is not absolute is appended behind the root, and behind a slash there. -/
theorem Under.resolve (under : base.Under root) (clean : Clean reference)
    (relative : ¬ Absolute (content reference)) :
    ∃ rest, (base.resolve (Escape.unescapeIri reference)).toList = root.text ++ '/' :: rest ∧
      Bracketless rest := by
  obtain ⟨rest, text, free⟩ := under.text
  obtain ⟨inner, path, inside⟩ := under.path_eq
  have queryless : ∀ c ∈ root.text, decide (c ≠ '?') = true :=
    fun c member => decide_eq_true fun query => root.not_mem (by decide) (query ▸ member)
  change ∃ rest, (String.ofList (Reference.resolveInner (content reference) base.text.toList
    base.path.toList base.root.toList)).toList = root.text ++ '/' :: rest ∧ Bracketless rest
  rw [String.toList_ofList]
  unfold Clean at clean
  generalize content reference = inner at clean relative
  unfold Reference.resolveInner
  split
  next => exact ⟨rest, text, free⟩
  next c more =>
    split_ifs with fragment query slash absolute
    · exact ⟨rest ++ c :: more, by rw [text]; simp, free.append clean⟩
    · refine ⟨rest.takeWhile (· ≠ '?') ++ c :: more, ?_,
        (free.mono (List.takeWhile_prefix _).subset).append clean⟩
      rw [text, List.takeWhile_append_of_pos queryless, List.takeWhile_cons_of_pos (by decide)]
      simp
    · exact ⟨more, by rw [under.root_eq, slash], clean.mono (List.subset_cons_self ..)⟩
    · exact absurd (Reference.isAbsolute_iff.mp absolute) relative
    · exact ⟨_, by rw [path, List.append_assoc, List.cons_append], inside.append clean⟩

/-- Whatever a reference is resolved to is absolute and has no brackets. -/
theorem Under.resolve_absolute (under : base.Under root) (clean : Clean reference) :
    Absolute (base.resolve (Escape.unescapeIri reference)).toList ∧
      Bracketless (base.resolve (Escape.unescapeIri reference)).toList := by
  by_cases absolute : Absolute (content reference)
  · have same : base.resolve (Escape.unescapeIri reference) =
        String.ofList (content reference) := by
      have kept := Reference.resolve_absolute absolute clean base
      rw [Base.resolve, Reference.resolve, String.toList_ofList,
        Reference.unwrap_bracketless clean] at kept
      exact kept
    rw [same, String.toList_ofList]
    exact ⟨absolute, clean⟩
  · obtain ⟨rest, resolved, free⟩ := under.resolve clean absolute
    have slash : Bracketless ('/' :: rest) := by
      simpa [Bracketless] using free
    rw [resolved]
    exact ⟨root.absolute _, root.bracketless.append slash⟩

end Base

namespace Draft

variable {root : Root} {draft : Draft}

theorem declareBase_under (under : draft.base.Under root) (clean : Clean reference)
    (relative : ¬ Absolute (content reference)) :
    (draft.declareBase reference).base.Under root := by
  obtain ⟨rest, resolved, free⟩ := under.resolve clean relative
  have base : (draft.declareBase reference).base =
      Base.ofText (String.ofList (root.text ++ '/' :: rest)) := by
    rw [← resolved, String.ofList_toList]
    rfl
  exact base ▸ Base.ofText_under root free

theorem foldl_declareBase_under (under : draft.base.Under root) {references : List String}
    (each : ∀ reference ∈ references, Clean reference ∧ ¬ Absolute (content reference)) :
    (references.foldl declareBase draft).base.Under root := by
  induction references generalizing draft with
  | nil => exact under
  | cons first rest ih =>
    obtain ⟨⟨clean, relative⟩, others⟩ := List.forall_mem_cons.mp each
    rw [List.foldl_cons]
    exact ih (declareBase_under under clean relative) others

/-- A base behind a root stays behind it however often it is redeclared by a reference that is not
absolute. Then every such reference is resolved to a text behind the root, and what any reference
is resolved to is absolute and resolves to itself. -/
theorem resolve_staysUnder (draft : Draft) (root : Root) (free : Bracketless rest)
    {references : List String}
    (each : ∀ reference ∈ references, Clean reference ∧ ¬ Absolute (content reference)) :
    let later := references.foldl declareBase
      (draft.bindBase (String.ofList (root.text ++ '/' :: rest)))
    later.base.Under root ∧
    (∀ reference, Clean reference → ¬ Absolute (content reference) →
      root.text ++ ['/'] <+: (later.resolve reference).toList) ∧
    ∀ reference, Clean reference → Absolute (later.resolve reference).toList ∧
      later.base.resolve (later.resolve reference) = later.resolve reference := by
  intro later
  have under : later.base.Under root :=
    foldl_declareBase_under (Base.ofText_under root free) each
  refine ⟨under, ?_, ?_⟩
  · intro reference clean relative
    obtain ⟨behind, resolved, -⟩ := under.resolve clean relative
    exact ⟨behind, by rw [List.append_assoc]; exact resolved.symm⟩
  · intro reference clean
    obtain ⟨absolute, plain⟩ := under.resolve_absolute clean
    have again := Reference.resolve_absolute absolute plain later.base
    rw [String.ofList_toList] at again
    exact ⟨absolute, again⟩

/-- A query that has slashes, a reference from a slash on and the empty one, behind a host. -/
theorem resolve_staysUnder_query :
    let root : Root := ⟨"http".toList, "//".toList, "h".toList, by decide, by simp, by simp,
      by decide, by simp⟩
    let later := ["<?q=/r>", "//s?", "<>"].foldl declareBase
      (empty.bindBase (String.ofList (root.text ++ '/' :: "a/b".toList)))
    Bracketless "a/b".toList ∧
    (∀ reference ∈ ["<?q=/r>", "//s?", "<>"], Clean reference ∧ ¬ Absolute (content reference)) ∧
    later.base.Under root ∧
    later.base = ⟨"http://h//s?", "http://h//", "http://h"⟩ ∧
    (∀ reference, Clean reference → ¬ Absolute (content reference) →
      root.text ++ ['/'] <+: (later.resolve reference).toList) ∧
    ∀ reference, Clean reference → Absolute (later.resolve reference).toList ∧
      later.base.resolve (later.resolve reference) = later.resolve reference := by
  intro root later
  have free : Bracketless "a/b".toList := by decide
  have each : ∀ reference ∈ ["<?q=/r>", "//s?", "<>"],
      Clean reference ∧ ¬ Absolute (content reference) := by decide
  have stays := resolve_staysUnder empty root free each
  exact ⟨free, each, stays.1, by decide, stays.2⟩

end Draft

end ShExCompact
