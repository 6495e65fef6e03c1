import ShExCompact.Proofs.Reading.Cardinalities
import ShExCompact.Proofs.Schemas.Terms

/-! What facets say. Every field of the facets of a node kind belongs to a keyword, and setting a
facet changes the field of its keyword only. Arguments of facets are strings and integers; which
integers a facet takes depends on its keyword. In a schema node kinds stand in the constraints of
its shapes. -/
namespace ShExCompact

/-! ### Integers -/

namespace Numeral

open Brace (IsNumber isNumber_of_digits value)

/-- The integer that decimal digits denote, with a sign or without one. -/
inductive Denotes : List Char → Int → Prop where
  | bare (digits : IsNumber text) : Denotes text (value text)
  | plus (digits : IsNumber text) : Denotes ('+' :: text) (value text)
  | minus (digits : IsNumber text) : Denotes ('-' :: text) (-(value text : Int))

theorem minus_not_mem (digits : IsNumber text) : '-' ∉ text :=
  fun member => absurd (digits.2 '-' member) (by decide)

theorem natural?_plus (digits : IsNumber text) : natural? ('+' :: text) = some (value text) := by
  have all : text.all Char.isDigit := List.all_eq_true.mpr digits.2
  simp only [natural?]
  rw [if_pos ⟨digits.1, all⟩, value]

theorem denotes_of_natural? (known : natural? text = some n) :
    Denotes text n ∧ '-' ∉ text := by
  simp only [natural?] at known
  split at known
  next rest =>
    split at known <;> cases known
    next digits =>
      have number := isNumber_of_digits digits
      exact ⟨.plus number, by simpa using minus_not_mem number⟩
  next =>
    split at known <;> cases known
    next digits =>
      have number := isNumber_of_digits digits
      exact ⟨.bare number, minus_not_mem number⟩

theorem Denotes.natural? (denotes : Denotes text number) (unsigned : '-' ∉ text) :
    ∃ n : Nat, number = n ∧ Numeral.natural? text = some n := by
  cases denotes with
  | bare digits => exact ⟨_, rfl, natural?_of_isNumber digits⟩
  | plus digits => exact ⟨_, rfl, natural?_plus digits⟩
  | minus => exact absurd List.mem_cons_self unsigned

theorem integer?_unsigned (unsigned : '-' ∉ text) :
    integer? text = (natural? text).map Int.ofNat := by
  unfold integer?
  split
  next => exact absurd List.mem_cons_self unsigned
  next => rfl

theorem integer?_minus (digits : List Char) : integer? ('-' :: digits) =
    if digits ≠ [] ∧ digits.all Char.isDigit then some (-(value digits : Int)) else none := rfl

theorem integer?_eq_some_iff : integer? text = some number ↔ Denotes text number := by
  constructor
  · intro known
    unfold integer? at known
    split at known
    next digits =>
      split at known <;> cases known
      next digits => exact .minus (isNumber_of_digits digits)
    next =>
      obtain ⟨n, natural, rfl⟩ := Option.map_eq_some_iff.mp known
      exact (denotes_of_natural? natural).1
  · intro denotes
    by_cases signed : '-' ∈ text
    · cases denotes with
      | bare digits => exact absurd signed (minus_not_mem digits)
      | plus digits => exact absurd (List.mem_cons.mp signed) (by simp [minus_not_mem digits])
      | minus digits => rw [integer?_minus, if_pos ⟨digits.1, List.all_eq_true.mpr digits.2⟩]
    · obtain ⟨n, rfl, natural⟩ := denotes.natural? signed
      rw [integer?_unsigned signed, natural]
      rfl

/-- A text denotes one integer only. -/
theorem Denotes.unique (denotes : Denotes text number) (denotes' : Denotes text number') :
    number = number' :=
  Option.some.inj
    ((integer?_eq_some_iff.mpr denotes).symm.trans (integer?_eq_some_iff.mpr denotes'))

theorem denotes_of_uint32? (known : uint32? text = some number) :
    Denotes text.toList number.toNat ∧ '-' ∉ text.toList := by
  unfold uint32? at known
  split at known
  next n natural =>
    split at known <;> cases known
    next small =>
      rw [UInt32.toNat_ofNat_of_lt' small]
      exact denotes_of_natural? natural
  next => cases known

theorem denotes_of_int64? (known : int64? text = some number) :
    Denotes text.toList number.toInt := by
  unfold int64? at known
  split at known
  next n integer =>
    split at known <;> cases known
    next inside =>
      rw [Int64.toInt_ofInt_of_le]
      · exact integer?_eq_some_iff.mp integer
      · exact inside.1
      · exact Int.lt_of_le_of_lt inside.2 (by decide)
  next => cases known

end Numeral

/-! ### Keywords of facets -/

namespace Keyword

/-- The facets that count characters or digits. -/
def counts : List Keyword := [length, minLength, maxLength, totalDigits, fractionDigits]

/-- The facets that bound a number. -/
def bounds : List Keyword := [minInclusive, minExclusive, maxInclusive, maxExclusive]

def facets : List Keyword := pattern :: (counts ++ bounds)

end Keyword

/-- The facets that a node kind admits. -/
def NodeKind.facetWords : NodeKind → List Keyword
  | literal => Keyword.facets
  | iri | nonLiteral => [.pattern, .length, .minLength, .maxLength]
  | blank => []

namespace Facet

/-- What a facet says, whatever the type of its field. -/
inductive Value where
  | text (value : String)
  | number (value : Int)

/-- The keyword of a facet. -/
def keyword : Facet → Keyword
  | pattern _ => .pattern
  | length _ => .length
  | minLength _ => .minLength
  | maxLength _ => .maxLength
  | minInclusive _ => .minInclusive
  | minExclusive _ => .minExclusive
  | maxInclusive _ => .maxInclusive
  | maxExclusive _ => .maxExclusive
  | totalDigits _ => .totalDigits
  | fractionDigits _ => .fractionDigits

def value : Facet → Value
  | pattern value => .text value
  | length value | minLength value | maxLength value | totalDigits value | fractionDigits value =>
    .number value.toNat
  | minInclusive value | minExclusive value | maxInclusive value | maxExclusive value =>
    .number value.toInt

end Facet

namespace Facets

/-- The field of a keyword. -/
def get? (facets : Facets) : Keyword → Option Facet.Value
  | .pattern => facets.pattern.map .text
  | .length => facets.length.map fun value => .number value.toNat
  | .minLength => facets.minLength.map fun value => .number value.toNat
  | .maxLength => facets.maxLength.map fun value => .number value.toNat
  | .minInclusive => facets.minInclusive.map fun value => .number value.toInt
  | .minExclusive => facets.minExclusive.map fun value => .number value.toInt
  | .maxInclusive => facets.maxInclusive.map fun value => .number value.toInt
  | .maxExclusive => facets.maxExclusive.map fun value => .number value.toInt
  | .totalDigits => facets.totalDigits.map fun value => .number value.toNat
  | .fractionDigits => facets.fractionDigits.map fun value => .number value.toNat
  | _ => none

theorem get?_empty (word : Keyword) : empty.get? word = none := by
  cases word <;> rfl

theorem get?_set_self (facets : Facets) (facet : Facet) :
    (facets.set facet).get? facet.keyword = some facet.value := by
  cases facet <;> rfl

theorem get?_set_of_ne (facets : Facets) {facet : Facet} (other : word ≠ facet.keyword) :
    (facets.set facet).get? word = facets.get? word := by
  cases facet <;> cases word <;> first | rfl | exact absurd rfl other

end Facets

/-! ### Arguments of facets -/

namespace Facet

/-- What a token says as the argument of a facet: a pattern is a string, a count is an integer
without a minus sign in 32 bits, and a bound is an integer in 64 bits with a sign. -/
inductive Means (context : Context) : Keyword → Token → Value → Prop where
  | pattern (string : Grammar.StringOf context draft token text) :
      Means context .pattern token (.text text)
  | count (counts : word ∈ Keyword.counts) (denotes : Numeral.Denotes lexeme.toList number)
      (unsigned : '-' ∉ lexeme.toList) (small : number < UInt32.size) :
      Means context word (.integer lexeme) (.number number)
  | bound (bounds : word ∈ Keyword.bounds) (denotes : Numeral.Denotes lexeme.toList number)
      (least : Int64.minValue.toInt ≤ number) (greatest : number ≤ Int64.maxValue.toInt) :
      Means context word (.integer lexeme) (.number number)

/-- The integers that are no arguments of a facet. -/
inductive Excludes : Keyword → String → Prop where
  | count (counts : word ∈ Keyword.counts) (denotes : Numeral.Denotes lexeme.toList number)
      (outside : '-' ∈ lexeme.toList ∨ UInt32.size ≤ number) : Excludes word lexeme
  | bound (bounds : word ∈ Keyword.bounds) (denotes : Numeral.Denotes lexeme.toList number)
      (outside : number < Int64.minValue.toInt ∨ Int64.maxValue.toInt < number) :
      Excludes word lexeme

theorem Excludes.mem_facets (excludes : Excludes word lexeme) : word ∈ Keyword.facets := by
  cases excludes with
  | count counts => exact List.mem_cons_of_mem _ (List.mem_append_left _ counts)
  | bound bounds => exact List.mem_cons_of_mem _ (List.mem_append_right _ bounds)

/-- No facet is both a count and a bound. -/
theorem bounds_disjoint_counts (bounds : word ∈ Keyword.bounds) : word ∉ Keyword.counts := by
  cases word <;> first | decide | exact absurd bounds (by decide)

theorem Excludes.not_means (excludes : Excludes word lexeme) :
    ¬ Means context word (.integer lexeme) said := by
  intro means
  cases means with
  | pattern string => cases string
  | count counts denotes unsigned small =>
    cases excludes with
    | count _ denotes' outside =>
      obtain rfl := denotes.unique denotes'
      rcases outside with minus | large
      · exact unsigned minus
      · omega
    | bound bounds => exact bounds_disjoint_counts bounds counts
  | bound bounds denotes least greatest =>
    cases excludes with
    | count counts => exact bounds_disjoint_counts bounds counts
    | bound _ denotes' outside =>
      obtain rfl := denotes.unique denotes'
      omega

end Facet

/-- What the facet of an argument says, and in which field. -/
def Parser.FacetArgument.Suits (word : Keyword) : Parser.FacetArgument → Prop
  | string facet => word = .pattern ∧ ∀ text, (facet text).keyword = word ∧
      (facet text).value = .text text
  | unsigned facet => word ∈ Keyword.counts ∧ ∀ number, (facet number).keyword = word ∧
      (facet number).value = .number number.toNat
  | signed facet => word ∈ Keyword.bounds ∧ ∀ number, (facet number).keyword = word ∧
      (facet number).value = .number number.toInt

/-- Every keyword is wired to its own field, with an argument of the type of the field. -/
theorem Parser.facetArgument?_suits
    (known : Parser.facetArgument? numeric word = some argument) : argument.Suits word := by
  have each : ∀ {found : Option Parser.FacetArgument}, (∀ argument ∈ found, argument.Suits word) →
      (if numeric then found else none) = some argument → argument.Suits word := by
    intro found suits known
    split at known
    · exact suits argument known
    · cases known
  cases word
  case pattern | length | minLength | maxLength =>
    cases known
    exact ⟨by decide, fun _ => ⟨rfl, rfl⟩⟩
  case minInclusive | minExclusive | maxInclusive | maxExclusive | totalDigits | fractionDigits =>
    refine each ?_ known
    rintro _ ⟨⟩
    exact ⟨by decide, fun _ => ⟨rfl, rfl⟩⟩
  all_goals cases known

theorem Parser.facetArgument?_mem {kind : NodeKind} (admits : kind ≠ .blank)
    (known : Parser.facetArgument? (kind = .literal) word = some argument) :
    word ∈ kind.facetWords := by
  cases kind with
  | blank => exact absurd rfl admits
  | literal | iri | nonLiteral => cases word <;> first | decide | cases known

/-! ### Node kinds of a schema -/

/-- The node kind of a value class, with its facets and its reference. -/
def ValueClass.kinds : ValueClass → List ValueClass
  | kind node facets target => [kind node facets target]
  | values _ | reference _ | anything | datatype _ => []

namespace TripleExpr

def ownConstraint : TripleExpr → List TripleConstraint
  | constraint _ body => [body]
  | oneOf .. | someOf .. | group .. | inclusion .. => []

/-- All constraints in an expression. -/
def constraints (expr : TripleExpr) : List TripleConstraint := expr.nodes.flatMap ownConstraint

theorem constraints_eq (expr : TripleExpr) :
    expr.constraints = expr.ownConstraint ++ expr.parts.flatMap constraints := by
  rw [constraints, nodes_eq, List.flatMap_cons, List.flatMap_assoc]
  rfl

theorem constraints_withId (expr : TripleExpr) (label : Label) :
    (expr.withId label).constraints = expr.constraints := by
  rw [constraints_eq, constraints_eq expr]
  cases expr <;> rfl

theorem constraints_wrapped (wrapped : Grammar.Wrapped expr cardinality code result) :
    result.constraints = expr.constraints := by
  cases wrapped with
  | itself => rfl
  | merged _ isGroup => rw [isGroup, constraints_eq, constraints_eq (.group ..)]; rfl
  | around => rw [constraints_eq]; exact List.append_nil _

theorem constraints_combined {build : List TripleExpr → TripleExpr}
    (joins : ∀ exprs, (build exprs).constraints = exprs.flatMap constraints) :
    (Grammar.combined build exprs).constraints = exprs.flatMap constraints := by
  match exprs with
  | [only] => exact (List.flatMap_singleton ..).symm
  | [] | first :: second :: rest => exact joins _

/-- The node kinds of all constraints in an expression. -/
def kinds (expr : TripleExpr) : List ValueClass :=
  expr.constraints.flatMap fun body => body.value.kinds

theorem kinds_constraint (id : Option Label) (body : TripleConstraint) :
    (constraint id body).kinds = body.value.kinds := List.append_nil _

theorem kinds_withId (expr : TripleExpr) (label : Label) : (expr.withId label).kinds = expr.kinds :=
  congrArg (List.flatMap _) (expr.constraints_withId label)

theorem kinds_wrapped (wrapped : Grammar.Wrapped expr cardinality code result) :
    result.kinds = expr.kinds := congrArg (List.flatMap _) (constraints_wrapped wrapped)

theorem kinds_combined {build : List TripleExpr → TripleExpr}
    (joins : ∀ exprs, (build exprs).constraints = exprs.flatMap constraints)
    (exprs : List TripleExpr) : (Grammar.combined build exprs).kinds = exprs.flatMap kinds := by
  rw [kinds, constraints_combined joins, List.flatMap_assoc]
  rfl

end TripleExpr

def Shape.kinds (shape : Shape) : List ValueClass :=
  shape.expression.toList.flatMap TripleExpr.kinds

end ShExCompact
