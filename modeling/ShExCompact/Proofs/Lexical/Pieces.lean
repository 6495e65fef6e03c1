import ShExCompact.Proofs.Lexical.Escapes

/-! The pieces of a string literal: plain characters, and escapes with the characters that they
stand for. A literal decodes if and only if what stands between its quotes is cut into pieces, for
which there is one way at most. -/
namespace ShExCompact.Escape

/-! ### Pieces -/

/-- The escapes of one letter, each with the character that it stands for. -/
def letters : List (Char × Char) :=
  [('\\', '\\'), ('\'', '\''), ('"', '"'), ('t', '\t'), ('b', '\x08'), ('n', '\n'), ('r', '\r'),
    ('f', '\x0C')]

theorem letter?_eq_some : letter? c = some value ↔ (c, value) ∈ letters := by
  constructor
  · intro known
    unfold letter? at known
    repeat' split at known
    next itself =>
      cases known
      rcases itself with rfl | rfl | rfl <;> decide
    all_goals cases known
    all_goals subst c
    all_goals decide
  · intro listed
    simp only [letters, List.mem_cons, Prod.mk.injEq, List.not_mem_nil, or_false] at listed
    rcases listed with ⟨rfl, rfl⟩ | ⟨rfl, rfl⟩ | ⟨rfl, rfl⟩ | ⟨rfl, rfl⟩ | ⟨rfl, rfl⟩ |
      ⟨rfl, rfl⟩ | ⟨rfl, rfl⟩ | ⟨rfl, rfl⟩ <;> rfl

/-- Code points of characters are those that are no surrogates and not past the last one. -/
theorem scalar?_eq_some : scalar? code = some value ↔ code = value.toNat := by
  unfold scalar?
  constructor
  · intro known
    by_cases valid : code.isValidChar
    · rw [dif_pos valid] at known
      cases known
      rfl
    · rw [dif_neg valid] at known
      cases known
  · rintro rfl
    exact dif_pos value.valid

/-- A piece of a string literal, and the character that it stands for. A code point of four or
eight digits is that of a character, so it is no surrogate. -/
inductive Piece : List Char → Char → Prop where
  | plain (other : c ≠ '\\') : Piece [c] c
  | letter (listed : (c, value) ∈ letters) : Piece ['\\', c] value
  | short (digits : Digits 4 code) (same : Numeral.hexValue code = value.toNat) :
      Piece ('\\' :: 'u' :: code) value
  | long (digits : Digits 8 code) (same : Numeral.hexValue code = value.toNat) :
      Piece ('\\' :: 'U' :: code) value
  /-- a code point above U+FFFF as two surrogates -/
  | pair (digits : Digits 4 high) (digits' : Digits 4 low)
      (first : 0xD800 ≤ Numeral.hexValue high ∧ Numeral.hexValue high < 0xDC00)
      (second : 0xDC00 ≤ Numeral.hexValue low ∧ Numeral.hexValue low < 0xE000)
      (same : 0x10000 + (Numeral.hexValue high - 0xD800) * 0x400 +
        (Numeral.hexValue low - 0xDC00) = value.toNat) :
      Piece ('\\' :: 'u' :: (high ++ '\\' :: 'u' :: low)) value

/-- No first half of a surrogate pair is a character. -/
theorem isHigh_toNat (value : Char) : isHigh value.toNat = false := by
  have valid : value.toNat < 0xD800 ∨ 0xDFFF < value.toNat ∧ value.toNat < 0x110000 := value.valid
  simp only [isHigh, Bool.and_eq_false_iff, decide_eq_false_iff_not]
  omega

theorem piece_of_means (means : Means escape value) : Piece ('\\' :: escape) value := by
  cases means with
  | letter known => exact .letter (letter?_eq_some.mp known)
  | short digits _ scalar => exact .short digits (scalar?_eq_some.mp scalar)
  | pair digits first digits' second scalar =>
    simp only [isHigh, isLow, Bool.and_eq_true, decide_eq_true_eq] at first second
    exact .pair digits digits' first second (scalar?_eq_some.mp scalar)
  | long digits scalar => exact .long digits (scalar?_eq_some.mp scalar)

/-- A piece is a character other than a backslash, or a backslash with the rest of an escape. -/
theorem Piece.plain_or_escape (piece : Piece text value) :
    (text = [value] ∧ value ≠ '\\') ∨ ∃ escape, text = '\\' :: escape ∧ Means escape value := by
  cases piece with
  | plain other => exact .inl ⟨rfl, other⟩
  | letter listed => exact .inr ⟨_, rfl, .letter (letter?_eq_some.mpr listed)⟩
  | short digits same =>
    refine .inr ⟨_, rfl, .short digits ?_ (scalar?_eq_some.mpr same)⟩
    rw [same, isHigh_toNat]
  | long digits same => exact .inr ⟨_, rfl, .long digits (scalar?_eq_some.mpr same)⟩
  | pair digits digits' first second same =>
    refine .inr ⟨_, rfl, .pair digits ?_ digits' ?_ (scalar?_eq_some.mpr same)⟩
    · simp only [isHigh, first, decide_true, Bool.and_true]
    · simp only [isLow, second, decide_true, Bool.and_true]

/-- One piece at most begins at a place, and it stands for one character. -/
theorem Piece.unique (piece : Piece text value) (piece' : Piece text' value')
    (same : text ++ rest = text' ++ rest') : text = text' ∧ value = value' := by
  obtain ⟨rfl, plain⟩ | ⟨escape, rfl, means⟩ := piece.plain_or_escape <;>
    obtain ⟨rfl, plain'⟩ | ⟨escape', rfl, means'⟩ := piece'.plain_or_escape
  · obtain rfl : value = value' := (List.cons.inj same).1
    exact ⟨rfl, rfl⟩
  · exact absurd (List.cons.inj same).1 plain
  · exact absurd (List.cons.inj same).1.symm plain'
  · have behind : escape ++ rest = escape' ++ rest' := (List.cons.inj same).2
    have known := read?_of_means means rest
    rw [behind, read?_of_means means' rest', Option.some.injEq, Prod.mk.injEq] at known
    rw [(List.append_inj behind known.2.symm).1]
    exact ⟨rfl, known.1.symm⟩

/-! ### Texts in pieces -/

/-- A text that is cut into pieces, each with its character. -/
structure Cuts (text : List Char) (pieces : List (List Char × Char)) : Prop where
  each : ∀ piece ∈ pieces, Piece piece.1 piece.2
  whole : text = pieces.flatMap Prod.fst

theorem Cuts.nil : Cuts [] [] := ⟨by simp, rfl⟩

theorem Cuts.cons (piece : Piece front value) (cuts : Cuts text pieces) :
    Cuts (front ++ text) ((front, value) :: pieces) := by
  refine ⟨?_, by rw [cuts.whole, List.flatMap_cons]⟩
  intro other listed
  rcases List.mem_cons.mp listed with rfl | later
  · exact piece
  · exact cuts.each other later

theorem Piece.ne_nil (piece : Piece text value) : text ≠ [] := by
  cases piece <;> exact List.cons_ne_nil _ _

theorem Cuts.unique (cuts : Cuts text pieces) (cuts' : Cuts text pieces') : pieces = pieces' := by
  induction pieces generalizing text pieces' with
  | nil =>
    have none : pieces'.flatMap Prod.fst = [] := cuts'.whole.symm.trans cuts.whole
    cases pieces' with
    | nil => rfl
    | cons piece' _ =>
      exact absurd (List.append_eq_nil_iff.mp none).1 (cuts'.each piece' List.mem_cons_self).ne_nil
  | cons piece pieces ih =>
    have begins := cuts.each piece List.mem_cons_self
    have same := cuts.whole.symm.trans cuts'.whole
    cases pieces' with
    | nil => exact absurd (List.append_eq_nil_iff.mp same).1 begins.ne_nil
    | cons piece' pieces' =>
      obtain ⟨first, value⟩ := begins.unique (cuts'.each piece' List.mem_cons_self) same
      obtain rfl : piece = piece' := Prod.ext first value
      have rest : Cuts (pieces.flatMap Prod.fst) pieces :=
        ⟨fun other listed => cuts.each other (List.mem_cons_of_mem _ listed), rfl⟩
      rw [ih rest ⟨fun other listed => cuts'.each other (List.mem_cons_of_mem _ listed),
        List.append_cancel_left same⟩]

/-! ### Decoding in pieces -/

theorem decodeFrom_skip (front rest : List Char) :
    decodeFrom front.length offset (front ++ rest) =
      decodeFrom 0 (offset + Text.width front) rest := by
  induction front generalizing offset with
  | nil => rfl
  | cons c front ih =>
    rw [List.length_cons, List.cons_append, decodeFrom, ih, Text.width_cons, Nat.add_assoc]

theorem decodeFrom_piece (piece : Piece front value) (rest : List Char) :
    decodeFrom 0 offset (front ++ rest) =
      (decodeFrom 0 (offset + Text.width front) rest).map (value :: ·) := by
  obtain ⟨rfl, plain⟩ | ⟨escape, rfl, means⟩ := piece.plain_or_escape
  · change decodeFrom 0 offset (value :: rest) = _
    rw [decodeFrom, if_neg plain, Text.width_cons, Text.width_nil, Nat.add_zero]
    cases decodeFrom 0 (offset + value.utf8Size) rest <;> rfl
  · rw [List.cons_append, decodeFrom, if_pos rfl, read?_of_means means]
    dsimp only
    rw [decodeFrom_skip, Text.width_cons, ← Nat.add_assoc, show '\\'.utf8Size = 1 from rfl]
    cases decodeFrom 0 (offset + 1 + Text.width escape) rest <;> rfl

theorem Cuts.decodeFrom (cuts : Cuts front pieces) (rest : List Char) :
    decodeFrom 0 offset (front ++ rest) =
      (decodeFrom 0 (offset + Text.width front) rest).map (pieces.map Prod.snd ++ ·) := by
  obtain ⟨each, rfl⟩ := cuts
  induction pieces generalizing offset with
  | nil =>
    change Escape.decodeFrom 0 offset rest = (Escape.decodeFrom 0 offset rest).map id
    cases Escape.decodeFrom 0 offset rest <;> rfl
  | cons piece pieces ih =>
    rw [List.flatMap_cons, List.append_assoc, decodeFrom_piece (each piece List.mem_cons_self),
      ih fun other listed => each other (List.mem_cons_of_mem _ listed), Text.width_append,
      Nat.add_assoc]
    cases Escape.decodeFrom 0 _ rest <;> rfl

/-- A text is cut into pieces up to its end, or up to the first backslash that begins none. -/
theorem cuts_or_flaw (text : List Char) : (∃ pieces, Cuts text pieces) ∨
    ∃ front rest pieces, text = front ++ '\\' :: rest ∧ Cuts front pieces ∧ read? rest = none := by
  -- on the length, since a piece takes more than one character
  induction size : text.length using Nat.strongRecOn generalizing text with
  | _ bound ih =>
    cases text with
    | nil => exact .inl ⟨[], .nil⟩
    | cons c text =>
      have step : (∃ piece value rest, c :: text = piece ++ rest ∧ Piece piece value) ∨
          (c = '\\' ∧ read? text = none) := by
        by_cases backslash : c = '\\'
        · cases known : read? text with
          | none => exact .inr ⟨backslash, rfl⟩
          | some found =>
            obtain ⟨escape, rest, rfl, means, -⟩ := means_of_read? known
            exact .inl ⟨'\\' :: escape, found.1, rest, by rw [backslash, List.cons_append],
              piece_of_means means⟩
        · exact .inl ⟨[c], c, text, rfl, .plain backslash⟩
      obtain ⟨piece, value, rest, split, begins⟩ | ⟨rfl, unread⟩ := step
      · have shorter : rest.length < bound := by
          rw [← size, split, List.length_append]
          exact Nat.lt_add_of_pos_left (List.length_pos_iff.mpr begins.ne_nil)
        rw [split]
        obtain ⟨pieces, cuts⟩ | ⟨front, more, pieces, rfl, cuts, unread⟩ :=
          ih rest.length shorter rest rfl
        · exact .inl ⟨_, cuts.cons begins⟩
        · exact .inr ⟨piece ++ front, more, _, (List.append_assoc ..).symm, cuts.cons begins,
            unread⟩
      · exact .inr ⟨[], text, [], rfl, .nil, unread⟩

/-- What follows a backslash is read if and only if the backslash begins a piece. -/
theorem read?_eq_none : read? rest = none ↔ ∀ piece value, Piece piece value →
    ¬ piece <+: '\\' :: rest := by
  constructor
  · rintro unread piece value begins ⟨more, split⟩
    obtain ⟨rfl, plain⟩ | ⟨escape, rfl, means⟩ := begins.plain_or_escape
    · exact plain (List.cons.inj split).1
    · have behind : escape ++ more = rest := (List.cons.inj split).2
      rw [← behind, read?_of_means means] at unread
      cases unread
  · intro noPiece
    cases known : read? rest with
    | none => rfl
    | some found =>
      obtain ⟨escape, more, rfl, means, -⟩ := means_of_read? known
      exact absurd ⟨more, rfl⟩ (noPiece _ _ (piece_of_means means))

/-- The content of a literal stands between quotes of the given width. -/
theorem content?_eq_some (split : raw = opening ++ (content ++ closing))
    (opens : Text.width opening = quoteWidth) (closes : Text.width closing = quoteWidth) :
    content? raw quoteWidth = some content := by
  subst split
  have size : Text.width (opening ++ (content ++ closing)) - quoteWidth - quoteWidth =
      Text.width content := by
    rw [Text.width_append, Text.width_append]
    omega
  have enough : quoteWidth ≤ Text.width (opening ++ (content ++ closing)) - quoteWidth := by
    rw [Text.width_append, Text.width_append]
    omega
  have cut : Text.cut quoteWidth (opening ++ (content ++ closing)) =
      .exact opening (content ++ closing) := Text.cut_eq_exact.mpr ⟨rfl, opens⟩
  have cut' : Text.cut (Text.width content) (content ++ closing) = .exact content closing :=
    Text.cut_eq_exact.mpr ⟨rfl, rfl⟩
  simp only [content?, if_pos enough, cut, size, cut']

/-- A literal decodes exactly if its content is cut into pieces, in the only way that there is; it
then stands for the characters of the pieces. Every other literal has a flaw, which is the first
backslash behind whole pieces that begins no piece. -/
theorem decodeString_pieces (raw : String) (quoteWidth : Nat) {opening content closing : List Char}
    (split : raw.toList = opening ++ (content ++ closing))
    (opens : Text.width opening = quoteWidth) (closes : Text.width closing = quoteWidth) :
    (∀ value, decodeString raw quoteWidth = .ok value ↔
      ∃ pieces, Cuts content pieces ∧ value = String.ofList (pieces.map Prod.snd)) ∧
    (∀ pieces pieces', Cuts content pieces → Cuts content pieces' → pieces = pieces') ∧
    ∀ flaw, decodeString raw quoteWidth = .error flaw ↔
      ∃ front rest pieces, content = front ++ '\\' :: rest ∧ Cuts front pieces ∧
        (∀ piece value, Piece piece value → ¬ piece <+: '\\' :: rest) ∧
        flaw = ⟨Text.width (opening ++ front), '\\' :: rest.take 1⟩ := by
  have decodes : decodeString raw quoteWidth =
      (decodeFrom 0 quoteWidth content).map String.ofList := by
    rw [decodeString, content?_eq_some split opens closes]
  have whole (pieces) (cuts : Cuts content pieces) :
      decodeString raw quoteWidth = .ok (String.ofList (pieces.map Prod.snd)) := by
    rw [decodes, ← List.append_nil content, cuts.decodeFrom]
    simp [Escape.decodeFrom, Except.map]
  have flawed (front rest pieces) (split : content = front ++ '\\' :: rest)
      (cuts : Cuts front pieces) (unread : read? rest = none) :
      decodeString raw quoteWidth =
        .error ⟨Text.width (opening ++ front), '\\' :: rest.take 1⟩ := by
    rw [decodes, split, cuts.decodeFrom, Escape.decodeFrom, if_pos rfl, unread, Text.width_append,
      opens]
    rfl
  refine ⟨fun value => ⟨?_, ?_⟩, fun _ _ => Cuts.unique, fun flaw => ⟨?_, ?_⟩⟩
  · intro decoded
    obtain ⟨pieces, cuts⟩ | ⟨front, rest, pieces, split, cuts, unread⟩ := cuts_or_flaw content
    · exact ⟨pieces, cuts, Except.ok.inj (decoded.symm.trans (whole pieces cuts))⟩
    · rw [flawed front rest pieces split cuts unread] at decoded
      cases decoded
  · rintro ⟨pieces, cuts, rfl⟩
    exact whole pieces cuts
  · intro stopped
    obtain ⟨pieces, cuts⟩ | ⟨front, rest, pieces, split, cuts, unread⟩ := cuts_or_flaw content
    · rw [whole pieces cuts] at stopped
      cases stopped
    · refine ⟨front, rest, pieces, split, cuts, read?_eq_none.mp unread, ?_⟩
      exact Except.error.inj (stopped.symm.trans (flawed front rest pieces split cuts unread))
  · rintro ⟨front, rest, pieces, split, cuts, noPiece, rfl⟩
    exact flawed front rest pieces split cuts (read?_eq_none.mpr noPiece)

/-- Two surrogates are one piece of twelve characters, so the flaw behind them is found at its own
offset, with nothing but the next character. -/
theorem decodeString_pair_then_flaw :
    decodeString "'\\uD83D\\uDE00\\qé'" 1 = .error ⟨13, ['\\', 'q']⟩ ∧
      decodeString "'\\uD83D\\uDE00'" 1 = .ok "😀" := by
  have pair : Piece ('\\' :: 'u' :: (['D', '8', '3', 'D'] ++ '\\' :: 'u' :: ['D', 'E', '0', '0']))
      '😀' :=
    .pair ⟨rfl, by decide⟩ ⟨rfl, by decide⟩ (by decide) (by decide) (by decide)
  have unread : read? ['q', 'é'] = none := by decide
  constructor
  · have split : "'\\uD83D\\uDE00\\qé'".toList =
        ['\''] ++ ("\\uD83D\\uDE00\\qé".toList ++ ['\'']) := by decide
    refine ((decodeString_pieces _ 1 split rfl rfl).2.2 _).mpr ?_
    exact ⟨_, ['q', 'é'], _, rfl, .cons pair .nil, read?_eq_none.mp unread, by decide⟩
  · have split : "'\\uD83D\\uDE00'".toList =
        ['\''] ++ ("\\uD83D\\uDE00".toList ++ ['\'']) := by decide
    refine ((decodeString_pieces _ 1 split rfl rfl).1 _).mpr ?_
    exact ⟨_, .cons pair .nil, by decide⟩

end ShExCompact.Escape
