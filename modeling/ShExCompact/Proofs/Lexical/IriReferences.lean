import ShExCompact.Proofs.Lexical.Braces
import ShExCompact.Proofs.Lexical.Pieces
import ShExCompact.Token.IriRef

/-! The pieces of an IRI reference: plain characters, and code points written as escapes. The end
of an IRI reference is found exactly behind such pieces. -/
namespace ShExCompact

/-- A property of the characters of ASCII is a finite table. -/
theorem forall_ascii {p : Char → Prop} (table : ∀ code : Fin 128, p (Char.ofNat code))
    (ascii : c.toNat < 128) : p c := by
  have same := table ⟨c.toNat, ascii⟩
  rwa [Char.ofNat_toNat] at same

theorem toNat_lt_of_isHex (hex : Numeral.isHex c) : c.toNat < 128 := by
  have narrow := Brace.utf8Size_of_isHex hex
  rw [Char.utf8Size_eq_one_iff, UInt32.le_iff_toNat_le] at narrow
  exact Nat.lt_succ_of_le narrow

namespace IriRef

/-! ### Pieces -/

/-- Characters above the blank that an IRI reference writes as escapes only. -/
def reserved : List Char := ['<', '>', '"', '{', '}', '|', '^', '\x60', '\\']

/-- The letters of escapes, each with the number of digits behind it. -/
def sizes : List (Char × Nat) := [('u', 4), ('U', 8)]

/-- A piece of an IRI reference, and the character that it stands for. -/
inductive Piece : List Char → Char → Prop where
  | plain (above : ' ' < c) (free : c ∉ reserved) : Piece [c] c
  | numeric (size : (letter, count) ∈ sizes) (digits : Escape.Digits count code)
      (same : Numeral.hexValue code = value.toNat) : Piece ('\\' :: letter :: code) value

/-- A text of pieces between angle brackets. -/
structure Bracketed (text : List Char) (pieces : List (List Char × Char)) : Prop where
  each : ∀ piece ∈ pieces, Piece piece.1 piece.2
  whole : text = '<' :: (pieces.flatMap Prod.fst ++ ['>'])

theorem free_iff : (' ' < c ∧ c ∉ reserved) ↔ c ≠ '>' ∧ c ≠ '\\' ∧ isExcluded c = false := by
  have excluded : "<\"\x7b\x7d|^\x60".toList = ['<', '"', '{', '}', '|', '^', '\x60'] := by decide
  simp only [reserved, isExcluded, excluded, Bool.or_eq_false_iff, decide_eq_false_iff_not,
    Char.not_le, List.contains_eq_mem, List.mem_cons, List.not_mem_nil, or_false, not_or]
  grind

theorem cases_sizes (size : (letter, count) ∈ sizes) :
    letter = 'u' ∧ count = 4 ∨ letter = 'U' ∧ count = 8 := by
  simpa [sizes] using size

/-! ### Finding the end -/

theorem isHex_plain (hex : Numeral.isHex c) : c ≠ '>' ∧ c ≠ '\\' ∧ isExcluded c = false :=
  forall_ascii (p := fun c => Numeral.isHex c → c ≠ '>' ∧ c ≠ '\\' ∧ isExcluded c = false)
    (by decide) (toNat_lt_of_isHex hex) hex

theorem body_plain (close : c ≠ '>') (backslash : c ≠ '\\') (allowed : isExcluded c = false)
    (rest : List Char) : body (c :: rest) = (body rest).after [c] := by
  simp [body, close, backslash, allowed]

theorem body_escape (escaped : escape text = .found value digits rest) :
    body ('\\' :: text) = (body text).after ['\\'] := by
  simp [body, escaped]

/-- The code points that are found are those of characters. -/
theorem codePoint_eq_found : codePoint letter count text = .found value digits rest ↔
    text = digits ++ rest ∧ Escape.Digits count digits ∧
      ∃ c : Char, Numeral.hexValue digits = c.toNat := by
  constructor
  · intro found
    unfold codePoint at found
    split at found
    case h_1 | h_2 => cases found
    case h_3 digits' rest' cut =>
      split at found
      case isFalse => cases found
      case isTrue hex =>
        split at found
        case isFalse => cases found
        case isTrue valid =>
          cases found
          obtain ⟨rfl, width⟩ := Text.cut_eq_exact.mp cut
          rw [Brace.width_of_all_isHex hex] at width
          exact ⟨rfl, ⟨width, hex⟩, Char.ofNatAux _ valid, rfl⟩
  · rintro ⟨rfl, ⟨size, hex⟩, c, same⟩
    have cut : Text.cut count (digits ++ rest) = .exact digits rest :=
      Text.cut_eq_exact.mpr ⟨rfl, (Brace.width_of_all_isHex hex).trans size⟩
    have valid : (Numeral.hexValue digits).isValidChar := same ▸ c.valid
    simp only [codePoint, cut, if_pos hex, if_pos valid]

theorem escape_eq_found : escape text = .found value digits rest ↔
    ∃ letter count, (letter, count) ∈ sizes ∧ text = letter :: (digits ++ rest) ∧
      Escape.Digits count digits ∧ ∃ c : Char, Numeral.hexValue digits = c.toNat := by
  constructor
  · intro found
    cases text with
    | nil => cases found
    | cons letter text =>
      rw [escape] at found
      split at found
      case isTrue short =>
        obtain ⟨rfl, known⟩ := codePoint_eq_found.mp found
        exact ⟨letter, 4, by simp [sizes, short], rfl, known⟩
      case isFalse =>
        split at found
        case isTrue long =>
          obtain ⟨rfl, known⟩ := codePoint_eq_found.mp found
          exact ⟨letter, 8, by simp [sizes, long], rfl, known⟩
        case isFalse => cases found
  · rintro ⟨letter, count, size, rfl, known⟩
    have found : codePoint letter count (digits ++ rest) = .found value digits rest :=
      codePoint_eq_found.mpr ⟨rfl, known⟩
    obtain ⟨rfl, rfl⟩ | ⟨rfl, rfl⟩ := cases_sizes size
    · rw [escape, if_pos rfl, found]
    · rw [escape, if_neg (by decide), if_pos rfl, found]

/-- Digits are read over as characters. -/
theorem body_digits (hex : digits.all Numeral.isHex) (rest : List Char) :
    body (digits ++ rest) = (body rest).after digits := by
  induction digits with
  | nil => cases found : body rest <;> simp [Scan.after, found]
  | cons c digits ih =>
    obtain ⟨first, others⟩ := Bool.and_eq_true_iff.mp (List.all_cons.symm.trans hex)
    obtain ⟨close, backslash, allowed⟩ := isHex_plain first
    rw [List.cons_append, body_plain close backslash allowed, ih others]
    cases body rest <;> rfl

theorem body_piece (piece : Piece front value) (rest : List Char) :
    body (front ++ rest) = (body rest).after front := by
  cases piece with
  | plain above free =>
    obtain ⟨close, backslash, allowed⟩ := free_iff.mp ⟨above, free⟩
    exact body_plain close backslash allowed rest
  | @numeric letter count code _ size digits same =>
    have escapes : escape (letter :: (code ++ rest)) = .found () code rest :=
      escape_eq_found.mpr ⟨letter, count, size, rfl, digits, _, same⟩
    have plain : letter ≠ '>' ∧ letter ≠ '\\' ∧ isExcluded letter = false := by
      obtain ⟨rfl, rfl⟩ | ⟨rfl, rfl⟩ := cases_sizes size <;> decide
    rw [List.cons_append, List.cons_append, body_escape escapes,
      body_plain plain.1 plain.2.1 plain.2.2, body_digits digits.valid]
    cases body rest <;> rfl

/-- What is found begins with a piece, or it is the closing bracket. -/
theorem piece_of_body (found : body text = .found value lexeme rest) :
    (lexeme = ['>'] ∧ text = '>' :: rest) ∨
      ∃ front c more, text = front ++ more ∧ Piece front c := by
  cases text with
  | nil => cases found
  | cons c text =>
    rw [body] at found
    split at found
    next close =>
      cases found
      exact .inl ⟨by rw [close], by rw [close]⟩
    next close =>
      split at found
      next backslash =>
        split at found
        next digits more escapes =>
          obtain ⟨letter, count, size, rfl, digits, value, same⟩ := escape_eq_found.mp escapes
          exact .inr ⟨_, value, more, by rw [backslash]; rfl, .numeric size digits same⟩
        all_goals cases found
      next backslash =>
        split at found
        next => cases found
        next allowed =>
          obtain ⟨above, free⟩ := free_iff.mpr ⟨close, backslash, Bool.eq_false_iff.mpr allowed⟩
          exact .inr ⟨[c], c, text, rfl, .plain above free⟩

/-- The end of an IRI reference is found behind any number of pieces, and nowhere else. -/
theorem body_eq_found : body text = .found value lexeme rest ↔ text = lexeme ++ rest ∧
    ∃ pieces : List (List Char × Char), (∀ piece ∈ pieces, Piece piece.1 piece.2) ∧
      lexeme = pieces.flatMap Prod.fst ++ ['>'] := by
  constructor
  · -- on the length, since an escape is more than one character
    intro found
    induction size : text.length using Nat.strongRecOn generalizing text lexeme with
    | _ bound ih =>
      obtain ⟨rfl, rfl⟩ | ⟨front, c, more, rfl, piece⟩ := piece_of_body found
      · exact ⟨rfl, [], by simp, rfl⟩
      · rw [body_piece piece] at found
        obtain ⟨inner, later, rfl⟩ := Scan.after_eq_found.mp found
        have nonempty : front ≠ [] := by
          cases piece <;> exact List.cons_ne_nil _ _
        have shorter : more.length < bound := by
          rw [← size, List.length_append]
          exact Nat.lt_add_of_pos_left (List.length_pos_iff.mpr nonempty)
        obtain ⟨rfl, pieces, each, rfl⟩ := ih more.length shorter later rfl
        refine ⟨(List.append_assoc ..).symm, (front, c) :: pieces, ?_, ?_⟩
        · exact List.forall_mem_cons.mpr ⟨piece, each⟩
        · rw [List.flatMap_cons, List.append_assoc]
  · rintro ⟨rfl, pieces, each, rfl⟩
    induction pieces with
    | nil => rfl
    | cons piece pieces ih =>
      obtain ⟨first, others⟩ := List.forall_mem_cons.mp each
      rw [List.flatMap_cons, List.append_assoc, List.append_assoc, body_piece first,
        ← List.append_assoc, ih others, Scan.after, List.append_assoc]

end IriRef

end ShExCompact
