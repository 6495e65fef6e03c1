/-!
How many triples match a constraint.
-/
namespace ShExCompact

/-- The least and the greatest number of occurrences; without a greatest there is no bound. -/
structure Cardinality where
  least : UInt32
  greatest : Option UInt32
deriving DecidableEq

namespace Cardinality

/-- Also the cardinality of a triple constraint that states none. -/
def zeroOrOne : Cardinality := ⟨0, some 1⟩

def zeroOrMore : Cardinality := ⟨0, none⟩

def oneOrMore : Cardinality := ⟨1, none⟩

/-- The shortest text of a cardinality: a sign if there is one for it, else a range. -/
def text (cardinality : Cardinality) : String :=
  if cardinality = zeroOrMore then "*"
  else if cardinality = oneOrMore then "+"
  else if cardinality = zeroOrOne then "?"
  else
    let least := Nat.repr cardinality.least.toNat
    match cardinality.greatest with
    | none => "\x7b" ++ least ++ ",\x7d"
    | some greatest =>
      if greatest = cardinality.least then "\x7b" ++ least ++ "\x7d"
      else "\x7b" ++ least ++ "," ++ Nat.repr greatest.toNat ++ "\x7d"

end Cardinality

end ShExCompact
