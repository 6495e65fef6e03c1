import ShExCompact.Proofs.Schemas.Terms

/-! Texts of literals are unambiguous: cut at its last double quote, such a text gives back the
value and what follows it. In a schema they stand in value sets and annotations. -/
namespace ShExCompact

/-! ### Texts -/

namespace Literal

/-- The language that a suffix names, in lower case. -/
def Suffix.language? : Suffix → Option String
  | language tag => some tag.toLower
  | plain | datatype _ => none

/-- The datatype that a suffix names. -/
def Suffix.datatype? : Suffix → Option Iri
  | datatype iri => some iri
  | plain | language _ => none

/-- No double quote stands in the text of a suffix. -/
def Suffix.Quoteless (suffix : Suffix) : Prop := '"' ∉ suffix.text.toList

theorem Suffix.Quoteless.plain : Suffix.plain.Quoteless := List.not_mem_nil

theorem Suffix.Quoteless.language (letters : ∀ c ∈ tag.toList, Char.isAlphanum c ∨ c = '-') :
    (Suffix.language tag).Quoteless := by
  rw [Suffix.Quoteless, Suffix.text, String.toList_append, List.mem_append, not_or]
  exact ⟨by decide, quote_not_mem_toLower letters⟩

theorem Suffix.Quoteless.datatype {iri : Iri} (quoteless : '"' ∉ iri.value.toList) :
    (Suffix.datatype iri).Quoteless := by
  rw [Suffix.Quoteless, Suffix.text, String.toList_append, List.mem_append, not_or]
  exact ⟨by decide, quoteless⟩

/-- Suffixes with the same text name the same language and the same datatype. -/
theorem Suffix.text_inj {suffix suffix' : Suffix} : suffix.text = suffix'.text ↔
    suffix.language? = suffix'.language? ∧ suffix.datatype? = suffix'.datatype? := by
  -- A language begins with an at sign and a datatype with carets, so no two kinds agree.
  rw [← String.toList_inj]
  rcases suffix with _ | tag | ⟨⟨iri⟩⟩ <;> rcases suffix' with _ | tag' | ⟨⟨iri'⟩⟩ <;>
    simp [text, language?, datatype?, String.toList_inj]

/-- What stands before the last double quote of a text, and what stands behind it. -/
def cut (text : List Char) : List Char × List Char :=
  ((text.reverse.dropWhile (· ≠ '"')).tail.reverse, ending text)

theorem cut_text (value : String) {suffix : Suffix} (quoteless : suffix.Quoteless) :
    cut (text value suffix).toList = ('"' :: value.toList, suffix.text.toList) := by
  refine Prod.ext ?_ (ending_text value quoteless)
  have other : ∀ c ∈ suffix.text.toList.reverse, decide (c ≠ '"') = true := by
    intro c member
    exact decide_eq_true (ne_of_mem_of_not_mem (List.mem_reverse.mp member) quoteless)
  have split : (text value suffix).toList = '"' :: value.toList ++ '"' :: suffix.text.toList := by
    simp [text]
  rw [cut, split, List.reverse_append, List.reverse_cons, List.append_assoc,
    List.dropWhile_append_of_pos other]
  simp

/-- Literals with the same text have the same value, the same language and the same datatype. -/
theorem text_inj {value value' : String} {suffix suffix' : Suffix} (quoteless : suffix.Quoteless)
    (quoteless' : suffix'.Quoteless) : text value suffix = text value' suffix' ↔
    value = value' ∧ suffix.language? = suffix'.language? ∧
      suffix.datatype? = suffix'.datatype? := by
  rw [← Suffix.text_inj]
  constructor
  · intro same
    have cuts := cut_text value quoteless
    rw [same, cut_text value' quoteless'] at cuts
    obtain ⟨front, ends⟩ := Prod.mk.inj cuts
    exact ⟨String.toList_inj.mp (List.cons.inj front).2.symm, String.toList_inj.mp ends.symm⟩
  · rintro ⟨rfl, same⟩
    rw [text, text, same]

end Literal

/-! ### Literals of a schema -/

def ValueSetItem.literals : ValueSetItem → List String
  | literal text => [text]
  | iri _ | range .. => []

def ValueClass.literals : ValueClass → List String
  | values items => items.flatMap ValueSetItem.literals
  | kind .. | reference _ | anything | datatype _ => []

def ObjectValue.literals : ObjectValue → List String
  | literal text => [text]
  | iri _ => []

/-- The literals of the value set and of the annotations of a constraint. -/
def TripleConstraint.literals (body : TripleConstraint) : List String :=
  body.value.literals ++ body.annotations.flatMap fun attached => attached.object.literals

namespace TripleExpr

def ownLiterals : TripleExpr → List String
  | constraint _ body => body.literals
  | oneOf .. | someOf .. | group .. | inclusion .. => []

/-- The literals of all constraints in an expression. -/
def literals (expr : TripleExpr) : List String := expr.nodes.flatMap ownLiterals

theorem literals_eq (expr : TripleExpr) :
    expr.literals = expr.ownLiterals ++ expr.parts.flatMap literals := by
  rw [literals, nodes_eq, List.flatMap_cons, List.flatMap_assoc]
  rfl

theorem literals_constraint (id : Option Label) (body : TripleConstraint) :
    (constraint id body).literals = body.literals := List.append_nil _

theorem literals_withId (expr : TripleExpr) (label : Label) :
    (expr.withId label).literals = expr.literals := by
  rw [literals_eq, literals_eq expr]
  cases expr <;> rfl

theorem literals_group (id : Option Label) (members : List TripleExpr)
    (cardinality : Option Cardinality) (code : Actions) :
    (group id members cardinality code).literals = members.flatMap literals := literals_eq _

theorem literals_someOf (id : Option Label) (branches : List TripleExpr) :
    (someOf id branches).literals = branches.flatMap literals := literals_eq _

theorem literals_oneOf (id : Option Label) (branches : List TripleExpr) :
    (oneOf id branches).literals = branches.flatMap literals := literals_eq _

theorem literals_wrapped (wrapped : Grammar.Wrapped expr cardinality code result) :
    result.literals = expr.literals := by
  cases wrapped with
  | itself => rfl
  | merged _ isGroup => rw [isGroup, literals_group, literals_group]
  | around => rw [literals_group, List.flatMap_singleton]

theorem literals_combined {build : List TripleExpr → TripleExpr}
    (joins : ∀ exprs, (build exprs).literals = exprs.flatMap literals) :
    (Grammar.combined build exprs).literals = exprs.flatMap literals := by
  match exprs with
  | [only] => exact (List.flatMap_singleton ..).symm
  | [] | first :: second :: rest => exact joins _

end TripleExpr

def Shape.literals (shape : Shape) : List String :=
  shape.expression.toList.flatMap TripleExpr.literals

def Schema.literals (schema : Schema) : List String :=
  schema.shapes.flatMap fun entry => entry.2.literals

end ShExCompact
