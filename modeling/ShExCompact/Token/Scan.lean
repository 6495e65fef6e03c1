import ShExCompact.Text.Cut
import ShExCompact.Token.Fault

/-!
Outcomes of reading at the beginning of a text. What is found splits the text into a lexeme and
the rest; a fault names the characters before the place that it is about.
-/
namespace ShExCompact

inductive Scan (α : Type) where
  /-- a value, its text and the text after it -/
  | found (value : α) (lexeme rest : List Char)
  /-- a fault `lead` characters from the beginning that is about `width` bytes -/
  | fault (cause : Fault) (lead : List Char) (width : Nat)
  /-- the text ends too early -/
  | unfinished

namespace Scan

/-- Build a new value from the value and its lexeme. -/
def build (make : α → List Char → β) : Scan α → Scan β
  | found value lexeme rest => found (make value lexeme) lexeme rest
  | fault cause lead width => fault cause lead width
  | unfinished => unfinished

/-- Change the value. -/
def map (change : α → β) (scan : Scan α) : Scan β := scan.build fun value _ => change value

/-- Put characters that are already read before what a scan of the text after them gives. -/
def after (front : List Char) : Scan α → Scan α
  | found value lexeme rest => found value (front ++ lexeme) rest
  | fault cause lead width => fault cause (front ++ lead) width
  | unfinished => unfinished

/-- Put characters that are already read before a scanned text, with the part of them that
belongs to its value. -/
def push (value front : List Char) (scan : Scan (List Char)) : Scan (List Char) :=
  (scan.map (value ++ ·)).after front

theorem build_eq_found {make : α → List Char → β} {scan : Scan α} :
    scan.build make = .found value lexeme rest ↔
      ∃ inner, scan = .found inner lexeme rest ∧ make inner lexeme = value := by
  cases scan with
  | found =>
    simp only [build, found.injEq]
    constructor
    · rintro ⟨rfl, rfl, rfl⟩
      exact ⟨_, ⟨rfl, rfl, rfl⟩, rfl⟩
    · rintro ⟨_, ⟨rfl, rfl, rfl⟩, rfl⟩
      exact ⟨rfl, rfl, rfl⟩
  | fault | unfinished => simp [build]

theorem map_eq_found {change : α → β} {scan : Scan α} :
    scan.map change = .found value lexeme rest ↔
      ∃ inner, scan = .found inner lexeme rest ∧ change inner = value :=
  build_eq_found

theorem after_eq_found {scan : Scan α} :
    scan.after front = .found value lexeme rest ↔
      ∃ inner, scan = .found value inner rest ∧ front ++ inner = lexeme := by
  cases scan <;> simp [after, and_comm, and_assoc]

theorem push_eq_found {scan : Scan (List Char)} :
    scan.push value front = .found whole lexeme rest ↔
      ∃ inner lead, scan = .found inner lead rest ∧ value ++ inner = whole ∧
        front ++ lead = lexeme := by
  simp only [push, after_eq_found, map_eq_found]
  constructor
  · rintro ⟨lead, ⟨inner, found, rfl⟩, rfl⟩
    exact ⟨inner, lead, found, rfl, rfl⟩
  · rintro ⟨inner, lead, found, rfl, rfl⟩
    exact ⟨lead, ⟨inner, found, rfl⟩, rfl⟩

end Scan

end ShExCompact
