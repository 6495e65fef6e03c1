import ShExCompact.Proofs.Lexical.Runs

/-! IRI references are read twice: once to find where they end, and once to decode the code points
that they write as escapes. Main statement: both agree on what an escape is, so that decoding an
IRI reference replaces each of its escapes and nothing else. -/
namespace ShExCompact

namespace IriRef

/-! ### Decoding -/

/-- Pieces of IRI references are pieces of string literals. -/
theorem Piece.ofString (piece : Piece text value) : Escape.Piece text value := by
  cases piece with
  | plain _ free => exact .plain (by rintro rfl; exact free (by decide))
  | numeric size digits same =>
    obtain ⟨rfl, rfl⟩ | ⟨rfl, rfl⟩ := cases_sizes size
    · exact .short digits same
    · exact .long digits same

/-- An escape is read over in its own length, which is never that of two surrogates. -/
theorem Piece.reads (piece : Piece ('\\' :: written) value) (rest : List Char) :
    Escape.isNumeric (written ++ rest) ∧
      Escape.read? (written ++ rest) = some (value, written.length) ∧
      (written.length = 5 ∨ written.length = 9) := by
  obtain ⟨same, other⟩ | ⟨_, same, means⟩ := piece.ofString.plain_or_escape
  · exact absurd (List.cons.inj same).1.symm other
  obtain rfl := (List.cons.inj same).2
  refine ⟨?_, Escape.read?_of_means means rest, ?_⟩ <;> cases piece with
  | plain _ free => exact absurd (by decide) free
  | numeric size digits =>
    obtain ⟨rfl, rfl⟩ | ⟨rfl, rfl⟩ := cases_sizes size <;>
      simp [Escape.isNumeric, digits.size]

theorem decodeIri_skip (front rest : List Char) :
    Escape.decodeIri front.length (front ++ rest) = Escape.decodeIri 0 rest := by
  induction front with
  | nil => rfl
  | cons c front ih =>
    rw [List.length_cons, List.cons_append, Escape.decodeIri, ih]

theorem decodeIri_plain (other : c ≠ '\\') (rest : List Char) :
    Escape.decodeIri 0 (c :: rest) = c :: Escape.decodeIri 0 rest := by
  rw [Escape.decodeIri, if_neg fun both => other both.1]

theorem decodeIri_piece (piece : Piece front value) (rest : List Char) :
    Escape.decodeIri 0 (front ++ rest) = value :: Escape.decodeIri 0 rest := by
  obtain ⟨rfl, other⟩ | ⟨escape, rfl, -⟩ := piece.ofString.plain_or_escape
  · exact decodeIri_plain other rest
  · obtain ⟨numeric, read, -⟩ := piece.reads rest
    rw [List.cons_append, Escape.decodeIri, if_pos ⟨rfl, numeric⟩, read]
    dsimp only
    rw [decodeIri_skip]

/-- Decoding replaces each piece by the character that it stands for. -/
theorem Bracketed.unescapeIri (spelled : Bracketed text pieces) :
    Escape.unescapeIri (String.ofList text) =
      String.ofList ('<' :: (pieces.map Prod.snd ++ ['>'])) := by
  obtain ⟨each, rfl⟩ := spelled
  have inner : Escape.decodeIri 0 (pieces.flatMap Prod.fst ++ ['>']) =
      pieces.map Prod.snd ++ ['>'] := by
    induction pieces with
    | nil => rfl
    | cons piece pieces ih =>
      obtain ⟨first, others⟩ := List.forall_mem_cons.mp each
      rw [List.flatMap_cons, List.append_assoc, decodeIri_piece first, ih others]
      rfl
  rw [Escape.unescapeIri, String.toList_ofList, decodeIri_plain (by decide), inner]

/-- A backslash stands at the beginning of a piece. -/
theorem Piece.begins (piece : Piece text value) (split : text = front ++ '\\' :: more) :
    front = [] := by
  cases front with
  | nil => rfl
  | cons c front =>
    cases piece with
    | plain => simp at split
    | @numeric letter _ code _ size digits =>
      obtain ⟨-, behind⟩ := List.cons.inj split
      have later : '\\' ∈ letter :: code := by simp [behind]
      rcases List.mem_cons.mp later with rfl | digit
      · simp [sizes] at size
      · exact absurd (List.all_eq_true.mp digits.valid _ digit) (by decide)

theorem backslash_of_pieces {pieces : List (List Char × Char)}
    (each : ∀ piece ∈ pieces, Piece piece.1 piece.2)
    (split : pieces.flatMap Prod.fst ++ ['>'] = front ++ '\\' :: more) :
    ∃ escape value rest, more = escape ++ rest ∧ Piece ('\\' :: escape) value := by
  induction pieces generalizing front with
  | nil => cases front <;> simp at split
  | cons piece pieces ih =>
    obtain ⟨first, others⟩ := List.forall_mem_cons.mp each
    rw [List.flatMap_cons, List.append_assoc] at split
    rcases List.append_eq_append_iff.mp split with ⟨between, rfl, later⟩ | ⟨between, same, later⟩
    · exact ih others later
    · cases between with
      | nil =>
        have split : pieces.flatMap Prod.fst ++ ['>'] = [] ++ '\\' :: more := later.symm
        exact ih others split
      | cons c between =>
        obtain ⟨rfl, rfl⟩ := List.cons.inj later
        obtain rfl := first.begins same
        rw [List.nil_append] at same
        exact ⟨between, piece.2, _, rfl, same ▸ first⟩

/-- Every backslash of an IRI reference begins a piece. -/
theorem Bracketed.backslash (spelled : Bracketed text pieces)
    (split : text = front ++ '\\' :: more) :
    ∃ escape value rest, more = escape ++ rest ∧ Piece ('\\' :: escape) value := by
  obtain ⟨each, rfl⟩ := spelled
  cases front with
  | nil => cases split
  | cons c front => exact backslash_of_pieces each (List.cons.inj split).2

end IriRef

namespace Token

/-! ### Tokens -/

/-- Tokens between brackets or quotes. Only the scanners of what stands there find them. -/
def isDelimited : Token → Bool
  | iriRef _ | string .. => true
  | _ => false

theorem scanAt_isDelimited (found : scanAt text = .found token lexeme rest) :
    token.isDelimited = false := by
  simp only [scanAt] at found
  repeat' split at found
  all_goals cases found
  all_goals rfl

theorem number_isDelimited (found : Number.scan text = .found token lexeme rest) :
    token.isDelimited = false := by
  simp only [Number.scan] at found
  repeat' split at found
  all_goals cases found
  all_goals rfl

theorem scanName_isDelimited (found : scanName c text = .found token lexeme rest) :
    token.isDelimited = false := by
  simp only [scanName] at found
  repeat' split at found
  all_goals cases found
  all_goals rfl

theorem braceScan_isDelimited (found : (Brace.scan bound kept place).1 = .found token lexeme rest) :
    token.isDelimited = false := by
  simp only [Brace.scan] at found
  repeat' split at found
  all_goals cases found
  all_goals rfl

/-- An IRI reference is found where a bracket opens, and only there. -/
theorem scan_iriRef : (scan bound kept place).1 = .found (.iriRef raw) lexeme rest ↔
    ∃ text inner, place.rest = '<' :: text ∧ IriRef.body text = .found () inner rest ∧
      lexeme = '<' :: inner ∧ raw = String.ofList lexeme := by
  constructor
  · intro found
    cases opens : place.rest with
    | nil =>
      rw [scan, opens] at found
      cases found
    | cons c text =>
      by_cases brace : c = '{'
      · subst brace
        rw [scan_brace bound kept opens] at found
        cases braceScan_isDelimited found
      · rw [scan_plain bound kept brace opens] at found
        simp only [scanPlain] at found
        split at found
        next bracket =>
          subst bracket
          obtain ⟨_, read, same⟩ := Scan.build_eq_found.mp found
          obtain ⟨inner, body, rfl⟩ := Scan.after_eq_found.mp read
          exact ⟨text, inner, rfl, body, rfl, (Token.iriRef.inj same).symm⟩
        split at found
        · obtain ⟨_, -, same⟩ := Scan.map_eq_found.mp found
          cases same
        split at found
        · obtain ⟨_, -, same⟩ := Scan.build_eq_found.mp found
          cases same
        split at found
        · cases scanAt_isDelimited found
        split at found
        · cases number_isDelimited found
        split at found
        · cases found
        · cases scanName_isDelimited found
  · rintro ⟨text, inner, opens, body, rfl, rfl⟩
    rw [scan_plain bound kept (by decide) opens, scanPlain, if_pos rfl, body]
    rfl

/-- Where a text begins with pieces between angle brackets an IRI reference is found, and nowhere
else; it is decoded by replacing each piece with the character that it stands for. Each backslash
in it begins an escape of one code point, which is what its decoding reads. -/
theorem scan_iriRef_pieces (bound : Nat) (kept : Brace.Delimiter) (place : Cursor) (raw : String)
    (lexeme rest : List Char) :
    ((scan bound kept place).1 = .found (.iriRef raw) lexeme rest ↔
      (∃ pieces, IriRef.Bracketed lexeme pieces) ∧ place.rest = lexeme ++ rest ∧
        raw = String.ofList lexeme) ∧
    ∀ pieces, IriRef.Bracketed lexeme pieces →
      Escape.unescapeIri (String.ofList lexeme) =
        String.ofList ('<' :: (pieces.map Prod.snd ++ ['>'])) ∧
      ∀ front more, lexeme = front ++ '\\' :: more → Escape.isNumeric more ∧
        ∃ value size, Escape.read? more = some (value, size) ∧ (size = 5 ∨ size = 9) := by
  refine ⟨⟨?_, ?_⟩, fun pieces spelled => ⟨spelled.unescapeIri, fun front more split => ?_⟩⟩
  · intro found
    obtain ⟨text, inner, opens, body, rfl, rfl⟩ := scan_iriRef.mp found
    obtain ⟨rfl, pieces, each, rfl⟩ := IriRef.body_eq_found.mp body
    exact ⟨⟨pieces, each, rfl⟩, opens, rfl⟩
  · rintro ⟨⟨pieces, each, rfl⟩, opens, rfl⟩
    exact scan_iriRef.mpr
      ⟨_, _, opens, IriRef.body_eq_found.mpr ⟨rfl, pieces, each, rfl⟩, rfl, rfl⟩
  · obtain ⟨written, value, rest, rfl, piece⟩ := spelled.backslash split
    obtain ⟨numeric, read, size⟩ := piece.reads rest
    exact ⟨numeric, value, _, read, size⟩

example : Escape.unescapeIri "<\\u005Cu0041\\U0001F600>" = "<\\u0041😀>" := by decide

end Token

end ShExCompact
