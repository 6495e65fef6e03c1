import ShExCompact.Proofs.Grammar.Productions
import ShExCompact.Proofs.Lexical.Lexemes

/-! The IRIs and literals of a schema, and the nodes of its triple expressions. Vetted terms are
those that a check of IRIs admits or that the syntax builds in. A proper expression has vetted terms
only, and no node that stands for one of its parts alone. -/
namespace ShExCompact

variable {check : String → Except Iri.Fault Unit}

/-! ### Vetted terms -/

/-- The IRIs that a document denotes without writing them. -/
def Vocabulary.builtIn : List Iri := [type, integer, decimal, double, boolean]

/-- An IRI is built in, or a check admits it. -/
def Iri.Vetted (check : String → Except Iri.Fault Unit) (iri : Iri) : Prop :=
  iri ∈ Vocabulary.builtIn ∨ check iri.value = .ok ()

namespace Literal

/-- Texts of literals whose datatypes are vetted. -/
inductive Vetted (check : String → Except Iri.Fault Unit) : String → Prop where
  | plain (value : String) : Vetted check (text value .plain)
  | language (value : String) (letters : ∀ c ∈ tag.toList, Char.isAlphanum c ∨ c = '-') :
      Vetted check (text value (.language tag))
  | datatype (value : String) (vetted : Iri.Vetted check iri) :
      Vetted check (text value (.datatype iri))

/-- What follows the last double quote of a text. -/
def ending (text : List Char) : List Char := (text.reverse.takeWhile (· ≠ '"')).reverse

/-- The datatype that the text of a literal names. -/
def datatype? (text : String) : Option Iri :=
  match ending text.toList with
  | '^' :: '^' :: iri => some ⟨String.ofList iri⟩
  | _ => none

theorem ending_text (value : String) {suffix : Suffix} (quoteless : '"' ∉ suffix.text.toList) :
    ending (text value suffix).toList = suffix.text.toList := by
  have other : ∀ c ∈ suffix.text.toList.reverse, decide (c ≠ '"') := by
    intro c member
    rw [decide_eq_true_eq]
    rintro rfl
    exact quoteless (List.mem_reverse.mp member)
  have quote : "\"".toList = ['"'] := rfl
  rw [ending, text, String.toList_append, String.toList_append, List.reverse_append,
    List.reverse_append, quote, List.takeWhile_append_of_pos other, List.reverse_singleton,
    List.singleton_append, List.takeWhile_cons_of_neg (by decide), List.append_nil,
    List.reverse_reverse]

theorem quote_not_mem_toLower {tag : String}
    (letters : ∀ c ∈ tag.toList, Char.isAlphanum c ∨ c = '-') : '"' ∉ tag.toLower.toList := by
  have other : ∀ c : Char, c.isAlphanum ∨ c = '-' → c.toLower ≠ '"' := by
    rintro c (alphanum | rfl)
    · exact forall_ascii (p := fun c => c.isAlphanum → c.toLower ≠ '"') (by decide)
        (Token.toNat_lt_of_isAlphanum alphanum) alphanum
    · decide
  unfold String.toLower
  rw [String.toList_map]
  intro member
  obtain ⟨c, member, lower⟩ := List.mem_map.mp member
  exact other c (letters c member) lower

/-- The datatype that a vetted literal names is vetted, unless the check admits quotes. -/
theorem Vetted.vetted_datatype {literal : String} (vetted : Vetted check literal)
    (quoteless : ∀ text, check text = .ok () → '"' ∉ text.toList)
    (named : datatype? literal = some iri) : iri.Vetted check := by
  unfold datatype? at named
  cases vetted with
  | plain value =>
    rw [ending_text value (by decide)] at named
    cases named
  | @language tag value letters =>
    have quoteless : '"' ∉ (Suffix.language tag).text.toList := by
      rw [Suffix.text, String.toList_append, List.mem_append, not_or]
      exact ⟨by decide, quote_not_mem_toLower letters⟩
    rw [ending_text value quoteless, Suffix.text, String.toList_append] at named
    cases named
  | @datatype other value vetted =>
    have absent : '"' ∉ other.value.toList := by
      rcases vetted with known | valid
      · have closed : ∀ iri ∈ Vocabulary.builtIn, '"' ∉ iri.value.toList := by decide
        exact closed other known
      · exact quoteless _ valid
    have quoteless : '"' ∉ (Suffix.datatype other).text.toList := by
      rw [Suffix.text, String.toList_append, List.mem_append, not_or]
      exact ⟨by decide, absent⟩
    rw [ending_text value quoteless, Suffix.text, String.toList_append] at named
    obtain rfl : (⟨String.ofList other.value.toList⟩ : Iri) = iri := Option.some.inj named
    rwa [String.ofList_toList]

end Literal

/-- A term is an IRI or a literal. -/
def ObjectValue.Vetted (check : String → Except Iri.Fault Unit) : ObjectValue → Prop
  | iri value => value.Vetted check
  | literal text => Literal.Vetted check text

/-- All terms of a list are vetted. -/
def Vetted (check : String → Except Iri.Fault Unit) (terms : List ObjectValue) : Prop :=
  ∀ term ∈ terms, term.Vetted check

namespace Vetted

theorem nil : Vetted check [] := fun _ member => by cases member

theorem cons {term : ObjectValue} (first : term.Vetted check) (rest : Vetted check terms) :
    Vetted check (term :: terms) := List.forall_mem_cons.mpr ⟨first, rest⟩

theorem append (first : Vetted check terms) (rest : Vetted check terms') :
    Vetted check (terms ++ terms') := List.forall_mem_append.mpr ⟨first, rest⟩

theorem flatMap {values : List α} {f : α → List ObjectValue}
    (each : ∀ value ∈ values, Vetted check (f value)) : Vetted check (values.flatMap f) := by
  intro term member
  obtain ⟨value, member, inside⟩ := List.mem_flatMap.mp member
  exact each value member term inside

theorem optional {f : α → List ObjectValue} {value : Option α}
    (each : ∀ inner ∈ value, Vetted check (f inner)) : Vetted check (value.toList.flatMap f) :=
  .flatMap fun inner member => each inner (Option.mem_toList.mp member)

theorem iris {iris : List Iri} (each : ∀ iri ∈ iris, Iri.Vetted check iri) :
    Vetted check (iris.map ObjectValue.iri) := by
  intro term member
  obtain ⟨iri, held, rfl⟩ := List.mem_map.mp member
  exact each iri held

end Vetted

/-! ### The terms of the parts of a schema -/

def Label.terms : Label → List ObjectValue
  | iri value => [.iri value]
  | blank _ => []

/-- The extensions that actions are written for. -/
def Actions.terms (code : Actions) : List ObjectValue :=
  (code.entries.map fun entry => ⟨entry.1⟩).map .iri

def ShapeRef.terms (reference : ShapeRef) : List ObjectValue :=
  reference.labels.flatMap Label.terms

def Stem.terms : Stem → List ObjectValue
  | iri value => [.iri value]
  | wildcard => []

def Exclusion.terms : Exclusion → List ObjectValue
  | iri value | stem value => [.iri value]

def ValueSetItem.terms : ValueSetItem → List ObjectValue
  | iri value => [.iri value]
  | literal text => [.literal text]
  | range stem exclusions => stem.terms ++ exclusions.flatMap Exclusion.terms

def ValueClass.terms : ValueClass → List ObjectValue
  | kind _ _ target => target.toList.flatMap ShapeRef.terms
  | reference target => target.terms
  | values items => items.flatMap ValueSetItem.terms
  | anything => []
  | datatype value => [.iri value]

def Annotation.terms (attached : Annotation) : List ObjectValue :=
  [.iri attached.predicate, attached.object]

def TripleConstraint.terms (body : TripleConstraint) : List ObjectValue :=
  .iri body.predicate :: (body.value.terms ++
    (body.annotations.flatMap Annotation.terms ++ body.actions.terms))

theorem Dictionary.mem_ofList {entries : List (String × String)} {entry : String × String}
    (member : entry ∈ (ofList entries).entries) : entry ∈ entries := by
  have fold : ∀ (map : Dictionary), entry ∈ (entries.foldl (fun map entry =>
      map.insert entry.1 entry.2) map).entries → entry ∈ entries ∨ entry ∈ map.entries := by
    clear member
    induction entries with
    | nil => exact fun _ member => .inr member
    | cons first rest ih =>
      intro map member
      rcases ih _ member with later | member
      · exact .inl (List.mem_cons_of_mem _ later)
      · rcases mem_insertEntry member with rfl | member
        · exact .inl List.mem_cons_self
        · exact .inr member
  exact (fold empty member).resolve_right List.not_mem_nil

theorem Vetted.actions (each : ∀ entry ∈ entries, Iri.Vetted check ⟨entry.1⟩) :
    Vetted check (Actions.terms (Dictionary.ofList entries)) := by
  apply Vetted.iris
  intro iri member
  obtain ⟨entry, held, rfl⟩ := List.mem_map.mp member
  exact each entry (Dictionary.mem_ofList held)

/-! ### Triple expressions -/

namespace TripleExpr

/-- The expressions that an expression joins. -/
def parts : TripleExpr → List TripleExpr
  | oneOf _ parts | someOf _ parts | group _ parts _ _ => parts
  | constraint .. | inclusion .. => []

mutual

/-- An expression and those inside of it, each before its parts. -/
def nodes : TripleExpr → List TripleExpr
  | oneOf id branches => oneOf id branches :: nodesOf branches
  | someOf id branches => someOf id branches :: nodesOf branches
  | group id members cardinality code => group id members cardinality code :: nodesOf members
  | constraint id body => [constraint id body]
  | inclusion id target => [inclusion id target]

def nodesOf : List TripleExpr → List TripleExpr
  | [] => []
  | expr :: rest => nodes expr ++ nodesOf rest

end

theorem nodesOf_eq (exprs : List TripleExpr) : nodesOf exprs = exprs.flatMap nodes := by
  induction exprs with
  | nil => rfl
  | cons expr rest ih => rw [nodesOf, ih, List.flatMap_cons]

theorem nodes_eq (expr : TripleExpr) : expr.nodes = expr :: expr.parts.flatMap nodes := by
  cases expr with
  | oneOf | someOf | group => rw [nodes, nodesOf_eq, parts]
  | constraint | inclusion => rfl

/-- The terms of an expression apart from those of the expressions that it joins. -/
def ownTerms (expr : TripleExpr) : List ObjectValue :=
  expr.id.toList.flatMap Label.terms ++ match expr with
    | oneOf .. | someOf .. => []
    | group _ _ _ code => code.terms
    | constraint _ body => body.terms
    | inclusion _ target => target.terms

/-- A node joins two expressions or more, or it is a group of one with a cardinality or with
actions. -/
def Formed : TripleExpr → Prop
  | oneOf _ branches | someOf _ branches => 2 ≤ branches.length
  | group _ members cardinality code => 2 ≤ members.length ∨
      members.length = 1 ∧ (cardinality.isSome ∨ code.isEmpty = false)
  | constraint .. | inclusion .. => True

/-- All nodes are formed and have vetted terms. -/
def Proper (check : String → Except Iri.Fault Unit) (expr : TripleExpr) : Prop :=
  ∀ node ∈ expr.nodes, node.Formed ∧ Vetted check node.ownTerms

theorem proper_iff {expr : TripleExpr} : expr.Proper check ↔
    (expr.Formed ∧ Vetted check expr.ownTerms) ∧ ∀ part ∈ expr.parts, part.Proper check := by
  unfold Proper
  rw [nodes_eq, List.forall_mem_cons, List.forall_mem_flatMap]

theorem Proper.constraint {body : TripleConstraint} (vetted : Vetted check body.terms) :
    Proper check (.constraint none body) :=
  proper_iff.mpr ⟨⟨trivial, vetted⟩, fun _ member => by cases member⟩

theorem Proper.inclusion {target : Label} (vetted : Vetted check target.terms) :
    Proper check (.inclusion none target) :=
  proper_iff.mpr ⟨⟨trivial, vetted⟩, fun _ member => by cases member⟩

/-- A new label takes the place of an old one. -/
theorem Proper.withId {expr : TripleExpr} {label : Label} (vetted : Vetted check label.terms)
    (proper : expr.Proper check) : (expr.withId label).Proper check := by
  obtain ⟨⟨formed, terms⟩, parts⟩ := proper_iff.mp proper
  have id : Vetted check ([label].flatMap Label.terms) :=
    .flatMap fun _ member => List.mem_singleton.mp member ▸ vetted
  have own : Vetted check (expr.withId label).ownTerms := by
    cases expr with
    | oneOf | someOf => exact .append id .nil
    | group | constraint | inclusion =>
      exact .append id (List.forall_mem_append.mp terms).2
  cases expr <;> exact proper_iff.mpr ⟨⟨formed, own⟩, parts⟩

/-- Put a cardinality and actions around an expression. -/
theorem Proper.wrapped (wrapped : Grammar.Wrapped expr cardinality code result)
    (proper : expr.Proper check) (vetted : Vetted check code.terms) : result.Proper check := by
  cases wrapped with
  | itself => exact proper
  | @merged held members cardinality' code' some isGroup free free' =>
    subst isGroup
    obtain ⟨⟨formed, terms⟩, parts⟩ := proper_iff.mp proper
    obtain ⟨id, terms⟩ := List.forall_mem_append.mp terms
    refine proper_iff.mpr ⟨⟨?_, .append id ?_⟩, parts⟩
    · -- What the group had stays if nothing is given in its place.
      apply formed.imp_right
      rintro ⟨one, some⟩
      refine ⟨one, some.imp (fun some => ?_) fun some => ?_⟩
      · rw [Option.isSome_or, some, Bool.or_true]
      · split
        next => exact some
        next some => exact Bool.eq_false_iff.mpr some
    · change Vetted check (Actions.terms (if code.isEmpty then code' else code))
      split
      next => exact terms
      next => exact vetted
  | around some =>
    refine proper_iff.mpr ⟨⟨.inr ⟨rfl, ?_⟩, .append .nil vetted⟩, ?_⟩
    · cases cardinality with
      | some => exact .inl rfl
      | none => exact .inr (Bool.eq_false_iff.mpr fun none => some ⟨rfl, none⟩)
    · intro part member
      rwa [List.mem_singleton.mp member]

/-- One operand stands for itself, several become the parts of a node. -/
theorem Proper.combined {build : List TripleExpr → TripleExpr}
    (joins : ∀ first second rest, (build (first :: second :: rest)).Formed ∧
      (build (first :: second :: rest)).ownTerms = [] ∧
      (build (first :: second :: rest)).parts = first :: second :: rest)
    (some : exprs ≠ []) (each : ∀ expr ∈ exprs, expr.Proper check) :
    (Grammar.combined build exprs).Proper check := by
  match exprs with
  | [] => exact (some rfl).elim
  | [only] => exact each only List.mem_cons_self
  | first :: second :: rest =>
    obtain ⟨formed, terms, parts⟩ := joins first second rest
    refine proper_iff.mpr ⟨⟨formed, ?_⟩, ?_⟩
    · change Vetted check (build (first :: second :: rest)).ownTerms
      rw [terms]
      exact .nil
    · change ∀ part ∈ (build (first :: second :: rest)).parts, part.Proper check
      rwa [parts]

end TripleExpr

/-! ### Shapes and schemas -/

/-- The terms of a shape apart from those of its expression. -/
def Shape.ownTerms (shape : Shape) : List ObjectValue :=
  shape.inherit.flatMap Label.terms ++ (shape.extra.map .iri ++ shape.actions.terms)

/-- All nodes of the expression of a shape. -/
def Shape.nodes (shape : Shape) : List TripleExpr :=
  shape.expression.toList.flatMap TripleExpr.nodes

/-- The terms of a shape. -/
def Shape.terms (shape : Shape) : List ObjectValue :=
  shape.ownTerms ++ shape.nodes.flatMap TripleExpr.ownTerms

/-- The terms of a schema: those of its start, and of its labels and shapes. Its prefixes stand for
texts, not for terms. -/
def Schema.terms (schema : Schema) : List ObjectValue :=
  schema.start.toList.flatMap Label.terms ++
    (schema.startActions.toList.flatMap Actions.terms ++
      schema.shapes.flatMap fun entry => entry.1.terms ++ entry.2.terms)

/-- A shape with vetted terms and a proper expression. -/
structure Shape.Proper (check : String → Except Iri.Fault Unit) (shape : Shape) : Prop where
  vetted : Vetted check shape.ownTerms
  proper : ∀ expr ∈ shape.expression, expr.Proper check

namespace Shape.Proper

variable {shape : Shape} {expr : TripleExpr}

theorem of_mem (proper : shape.Proper check) (member : expr ∈ shape.nodes) :
    expr.Formed ∧ Vetted check expr.ownTerms := by
  obtain ⟨whole, held, inside⟩ := List.mem_flatMap.mp member
  exact proper.proper whole (Option.mem_toList.mp held) expr inside

theorem terms (proper : shape.Proper check) : Vetted check shape.terms :=
  .append proper.vetted (.flatMap fun _ member => (proper.of_mem member).2)

end Shape.Proper

end ShExCompact
