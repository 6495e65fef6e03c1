import ShExCompact.Proofs.Octets.Encoding
import ShExCompact.Proofs.Octets.Recognizers

/-! IRI references and string literals among bytes. Main statements: their recognizers consume and
report what the scans of the text do, and none of their looks is out of bounds. -/
namespace ShExCompact.Octets

/-- A front of a text is spelled by the slice of its bytes. -/
theorem spell_front (front rest : List Char) (make : List Char → α) :
    spell (Text.bytes (front ++ rest)) 0 (Text.width front) (Text.width front) make =
      .value ⟨Text.width front, .ok (make front)⟩ := by
  have spelled := spell_bytes [] front rest (Text.width front) make
  rwa [List.nil_append, Text.width_nil, Nat.zero_add] at spelled

/-- A loop has enough rounds for what is left of a text. -/
theorem lt_limit (front rest : List Char) :
    Text.width rest < limit (Text.bytes (front ++ rest)) := by
  rw [limit, Text.length_bytes, Text.width_append]
  omega

/-! ### IRI references -/

theorem isAscii_isHex : IsAscii Numeral.isHex := by
  intro c hex
  have size := Brace.utf8Size_of_isHex hex
  rw [Char.utf8Size_eq_one_iff, UInt32.le_iff_toNat_le] at size
  exact Nat.lt_succ_of_le size

theorem isAscii_isExcluded : IsAscii IriRef.isExcluded := by
  intro c excluded
  have size := IriRef.utf8Size_of_isExcluded excluded
  rw [Char.utf8Size_eq_one_iff, UInt32.le_iff_toNat_le] at size
  exact Nat.lt_succ_of_le size

/-- The digits of an escape are read as the cut of the text reads them. -/
theorem codePoint_eq (letter : Char) (narrow : letter.toNat < 128) (size position : Nat)
    (rest : List Char) :
    (∃ digits more, rest = digits ++ more ∧ digits.all Numeral.isHex ∧
      IriRef.codePoint letter size rest = .found () digits more ∧
      codePoint (Text.bytes ('\\' :: letter :: rest)) letter size position =
        .value ⟨2 + Text.width digits, .ok ()⟩) ∨
    (∃ cause width, IriRef.codePoint letter size rest = .fault cause [] width ∧
      codePoint (Text.bytes ('\\' :: letter :: rest)) letter size position =
        .value ⟨width, .error ⟨position, position + width, cause⟩⟩) ∨
    (IriRef.codePoint letter size rest = .unfinished ∧
      codePoint (Text.bytes ('\\' :: letter :: rest)) letter size position = .ended) := by
  have range := range?_take ['\\', letter] rest size
  have front : Text.width ['\\', letter] = 2 :=
    width_of_ascii ['\\', letter] (by simp [narrow])
  rw [front] at range
  simp only [List.cons_append, List.nil_append] at range
  unfold codePoint IriRef.codePoint
  rw [range]
  cases cut : Text.cut size rest with
  | short =>
    rw [if_neg (Nat.not_le.mpr (Text.lt_of_cut_short cut))]
    exact .inr (.inr ⟨rfl, rfl⟩)
  | inside =>
    obtain ⟨flaw, broken⟩ := Utf8.decode_inside cut
    have within := Text.cut_inside_le cut
    have length : ((Text.bytes rest).take size).length = size := by
      rw [List.length_take, Text.length_bytes, Nat.min_eq_left within]
    rw [if_pos within, Access.need_some, Access.value_bind, all_inside isAscii_isHex cut, broken]
    dsimp only
    rw [length]
    exact .inr (.inl ⟨_, _, rfl, by rw [Nat.add_comm 2, Nat.add_assoc]; rfl⟩)
  | exact digits more =>
    obtain ⟨rfl, rfl⟩ := Text.cut_eq_exact.mp cut
    have taken : (Text.bytes (digits ++ more)).take (Text.width digits) = Text.bytes digits :=
      Text.take_bytes digits more
    have within : Text.width digits ≤ Text.width (digits ++ more) := by
      rw [Text.width_append]
      exact Nat.le_add_right ..
    rw [if_pos within, taken, Access.need_some, Access.value_bind, all_bytes isAscii_isHex,
      Utf8.decode_bytes]
    dsimp only
    have shown : (Except.ok digits : Except Utf8.Flaw (List Char)).toOption.getD [] = digits := rfl
    have consumed : 2 + Text.width digits = Text.width digits + 2 := Nat.add_comm ..
    have stop : position + Text.width digits + 2 = position + (Text.width digits + 2) :=
      Nat.add_assoc ..
    rw [shown, Text.length_bytes]
    by_cases hex : digits.all Numeral.isHex
    · rw [if_pos hex, if_pos hex]
      by_cases valid : (Numeral.hexValue digits).isValidChar
      · rw [if_pos valid, if_pos valid]
        exact .inl ⟨digits, more, rfl, hex, rfl, rfl⟩
      · rw [if_neg valid, if_neg valid, consumed, stop]
        exact .inr (.inl ⟨_, _, rfl, rfl⟩)
    · rw [if_neg hex, if_neg hex, consumed, stop]
      exact .inr (.inl ⟨_, _, rfl, rfl⟩)

/-- An escape of an IRI reference is read as in the text. -/
theorem escape_eq (position : Nat) (rest : List Char) :
    (∃ letter digits more, rest = letter :: (digits ++ more) ∧ (letter = 'u' ∨ letter = 'U') ∧
      digits.all Numeral.isHex ∧ IriRef.escape rest = .found () digits more ∧
      escape (Text.bytes ('\\' :: rest)) position = .value ⟨2 + Text.width digits, .ok ()⟩) ∨
    (∃ cause width, IriRef.escape rest = .fault cause [] width ∧
      escape (Text.bytes ('\\' :: rest)) position =
        .value ⟨width, .error ⟨position, position + width, cause⟩⟩) ∨
    (IriRef.escape rest = .unfinished ∧ escape (Text.bytes ('\\' :: rest)) position = .ended) := by
  have second : peek (Text.bytes ('\\' :: rest)) 1 = peek (Text.bytes rest) 0 :=
    peek_here ['\\'] rest
  unfold escape
  rw [second]
  cases rest with
  | nil => exact .inr (.inr ⟨rfl, rfl⟩)
  | cons c rest =>
    rw [peek_first, Access.need_some, Access.value_bind, IriRef.escape]
    simp only [firstByte_eq_iff (a := 'u') (by decide), firstByte_eq_iff (a := 'U') (by decide)]
    have read (letter : Char) (size : Nat) (known : letter = 'u' ∨ letter = 'U') :=
      codePoint_eq letter (by rcases known with rfl | rfl <;> decide) size position rest
    by_cases small : c = 'u'
    · subst small
      rw [if_pos rfl, if_pos rfl]
      rcases read 'u' 4 (.inl rfl) with ⟨digits, more, rfl, hex, found, same⟩ | outcome
      · exact .inl ⟨_, digits, more, rfl, .inl rfl, hex, found, same⟩
      · exact .inr outcome
    · rw [if_neg small, if_neg small]
      by_cases large : c = 'U'
      · subst large
        rw [if_pos rfl, if_pos rfl]
        rcases read 'U' 8 (.inr rfl) with ⟨digits, more, rfl, hex, found, same⟩ | outcome
        · exact .inl ⟨_, digits, more, rfl, .inr rfl, hex, found, same⟩
        · exact .inr outcome
      · rw [if_neg large, if_neg large]
        exact .inr (.inl ⟨_, _, rfl, rfl⟩)

/-- Characters that an IRI reference does not simply hold. -/
def isSpecial (c : Char) : Bool := c = '>' || c = '\\' || IriRef.isExcluded c

theorem isAscii_isSpecial : IsAscii isSpecial :=
  ((isAscii_eq (by decide)).or (isAscii_eq (by decide))).or isAscii_isExcluded

theorem isSpecial_eq_false : isSpecial c = false ↔
    c ≠ '>' ∧ c ≠ '\\' ∧ IriRef.isExcluded c = false := by
  simp [isSpecial, and_assoc]

theorem iriRef_walks (data : List UInt8) : Walks isSpecial data (iriRef data) := by
  intro rounds i d here other
  obtain ⟨close, backslash, allowed⟩ := isSpecial_eq_false.mp other
  rw [iriRef, here, Access.need_some, Access.value_bind, if_neg close, if_neg backslash, allowed]
  rfl

/-- The letter and the digits of an escape are stepped over byte by byte as well. -/
theorem iriRef_digits {letter : Char} (known : letter = 'u' ∨ letter = 'U')
    (hex : digits.all Numeral.isHex = true) (front more : List Char) (rounds : Nat) :
    iriRef (Text.bytes (front ++ ['\\'] ++ letter :: (digits ++ more)))
      (rounds + Text.width (letter :: digits)) (Text.width (front ++ ['\\'])) =
    iriRef (Text.bytes (front ++ ['\\'] ++ letter :: (digits ++ more))) rounds
      (Text.width front + (2 + Text.width digits)) := by
  have others : ∀ d ∈ letter :: digits, isSpecial d = false := by
    refine List.forall_mem_cons.mpr ⟨?_, fun d member => ?_⟩
    · rcases known with rfl | rfl <;> decide
    · exact isSpecial_eq_false.mpr (IriRef.isHex_plain (List.all_eq_true.mp hex d member))
  have place : Text.width (front ++ ['\\'] ++ letter :: digits) =
      Text.width front + (2 + Text.width digits) := by
    have sizes : '\\'.utf8Size = 1 ∧ letter.utf8Size = 1 := by
      rcases known with rfl | rfl <;> decide
    simp only [Text.width_append, Text.width_cons, Text.width_nil, sizes]
    omega
  have passed := (iriRef_walks (Text.bytes (front ++ ['\\'] ++
    (letter :: digits ++ more)))).past isAscii_isSpecial others rounds
  rwa [List.cons_append, place] at passed

/-- The content of an IRI reference is read as in the text. -/
theorem iriRef_eq (front text : List Char) (enough : Text.width text < rounds) :
    iriRef (Text.bytes (front ++ text)) rounds (Text.width front) =
      (((IriRef.body text).after front).build fun _ lexeme =>
        Token.iriRef (String.ofList lexeme)).sizes 0 := by
  induction text generalizing front rounds with
  | nil =>
    obtain ⟨rounds, rfl⟩ := Nat.exists_eq_add_one_of_ne_zero (Nat.ne_zero_of_lt enough)
    rw [iriRef, peek_here]
    rfl
  | cons c rest ih =>
    by_cases special : isSpecial c = true
    · have ascii := isAscii_isSpecial c special
      obtain ⟨rounds, rfl⟩ := Nat.exists_eq_add_one_of_ne_zero (Nat.ne_zero_of_lt enough)
      rw [iriRef, peek_here, peek_first, firstByte_of_ascii ascii, Access.need_some,
        Access.value_bind, IriRef.body]
      by_cases close : c = '>'
      · subst close
        rw [if_pos rfl, if_pos rfl, ← width_snoc front ascii, List.append_cons, spell_front]
        rfl
      · rw [if_neg close, if_neg close]
        by_cases backslash : c = '\\'
        · subst backslash
          rw [if_pos rfl, if_pos rfl, suffix_bytes, Access.value_bind]
          rcases escape_eq (Text.width front) rest with
            ⟨letter, digits, more, rfl, known, hex, found, read⟩ | ⟨cause, width, fault, read⟩ |
            ⟨ended, read⟩
          · have later : Text.width (letter :: (digits ++ more)) <
                rounds + Text.width (letter :: digits) :=
              Nat.lt_add_right _ (width_lt_of_cons enough)
            have inner := ih (front ++ ['\\']) later
            rw [iriRef_digits known hex] at inner
            rw [read, found, Access.value_bind]
            dsimp only
            rw [Scan.after_after, ← inner, List.append_assoc]
            rfl
          · rw [read, fault]
            simp [Scan.after, Scan.build, Scan.sizes]
          · rw [read, ended]
            rfl
        · have excluded : IriRef.isExcluded c := by
            simpa [isSpecial, close, backslash] using special
          rw [if_neg backslash, if_neg backslash, if_pos excluded, if_pos excluded]
          simp [Scan.after, Scan.build, Scan.sizes]
    · have other : isSpecial c = false := by rwa [Bool.not_eq_true] at special
      obtain ⟨close, backslash, allowed⟩ := isSpecial_eq_false.mp other
      obtain ⟨left, fits, next⟩ := (iriRef_walks _).next isAscii_isSpecial other enough
      rw [next, IriRef.body_plain close backslash allowed, Scan.after_after, List.append_cons]
      exact ih (front ++ [c]) fits

/-! ### String literals -/

/-- Two quotes among bytes are two quotes in the text. -/
theorem peek_marks (ascii : mark.toNat < 128) (front rest : List Char) :
    (decide (peek (Text.bytes (front ++ rest)) (Text.width front) = some mark) &&
      decide (peek (Text.bytes (front ++ rest)) (Text.width front + 1) = some mark)) =
      [mark, mark].isPrefixOf rest := by
  rw [peek_here]
  cases rest with
  | nil => rfl
  | cons c rest =>
    by_cases first : c = mark
    · subst first
      rw [peek_after front rest ascii, peek_first, firstByte_of_ascii ascii]
      cases rest with
      | nil => simp [List.isPrefixOf]
      | cons d rest =>
        simp only [peek_first, Option.some.injEq, firstByte_eq_iff ascii, List.isPrefixOf]
        simp [eq_comm, Bool.beq_eq_decide_eq]
    · have other : ¬ mark = c := Ne.symm first
      simp [firstByte_eq_iff ascii, first, other, List.isPrefixOf]

variable {mark : Char}

/-- Characters that a literal of one line does not simply hold. -/
def stopsShort (mark c : Char) : Bool := c = mark || c = '\\' || (c = '\n' || c = '\r')

theorem isAscii_stopsShort (ascii : mark.toNat < 128) : IsAscii (stopsShort mark) :=
  ((isAscii_eq ascii).or (isAscii_eq (by decide))).or
    ((isAscii_eq (by decide)).or (isAscii_eq (by decide)))

theorem stopsShort_eq_false : stopsShort mark c = false ↔
    c ≠ mark ∧ c ≠ '\\' ∧ ¬ (c = '\n' || c = '\r') = true := by
  simp [stopsShort, and_assoc]

theorem shortString_walks (data : List UInt8) :
    Walks (stopsShort mark) data (shortString data mark) := by
  intro rounds i d here other
  obtain ⟨close, backslash, inLine⟩ := stopsShort_eq_false.mp other
  rw [shortString, here, Access.need_some, Access.value_bind, if_neg close, if_neg backslash,
    if_neg inLine]

/-- The content of a literal of one line is read as in the text. -/
theorem shortString_eq (ascii : mark.toNat < 128) (front text : List Char)
    (enough : Text.width text < rounds) :
    shortString (Text.bytes (front ++ text)) mark rounds (Text.width front) =
      (((Quote.short mark text).after front).build fun _ lexeme =>
        Token.string (String.ofList lexeme) 1).sizes 0 := by
  fun_induction Quote.short mark text generalizing front rounds with
  | case1 =>
    obtain ⟨rounds, rfl⟩ := Nat.exists_eq_add_one_of_ne_zero (Nat.ne_zero_of_lt enough)
    rw [shortString, peek_here]
    rfl
  | case2 rest =>
    obtain ⟨rounds, rfl⟩ := Nat.exists_eq_add_one_of_ne_zero (Nat.ne_zero_of_lt enough)
    rw [shortString, peek_here, peek_first, firstByte_of_ascii ascii, Access.need_some,
      Access.value_bind, if_pos rfl, ← width_snoc front ascii, List.append_cons, spell_front]
    rfl
  | case3 other =>
    obtain ⟨rounds, rfl⟩ := Nat.exists_eq_add_one_of_ne_zero (Nat.ne_zero_of_lt enough)
    have backslash : Text.firstByte '\\' = '\\' := firstByte_of_ascii (by decide)
    rw [shortString, peek_here, peek_first, backslash, Access.need_some, Access.value_bind,
      if_neg other, if_pos rfl, peek_after front [] (by decide)]
    rfl
  | case4 d more other ih =>
    obtain ⟨rounds, rfl⟩ := Nat.exists_eq_add_one_of_ne_zero (Nat.ne_zero_of_lt enough)
    have backslash : Text.firstByte '\\' = '\\' := firstByte_of_ascii (by decide)
    have place : Text.width front + 2 = Text.width (front ++ ['\\']) + 1 := by
      rw [width_snoc front (by decide)]
    have later : Text.width (d :: more) ≤ rounds := by
      have size := Char.utf8Size_pos '\\'
      rw [Text.width_cons] at enough
      omega
    -- only the first byte of the character after the backslash is stepped over with it
    obtain ⟨left, fits, next⟩ :=
      (shortString_walks (Text.bytes (front ++ ['\\'] ++ d :: more))).behind
        (isAscii_stopsShort ascii) later
    rw [shortString, peek_here, peek_first, backslash, Access.need_some, Access.value_bind,
      if_neg other, if_pos rfl, peek_after front _ (by decide), peek_first, Access.need_some,
      Access.value_bind, place, List.append_cons, next, Scan.after_after, List.append_cons]
    have inner := ih (front ++ ['\\'] ++ [d]) fits
    rwa [List.append_assoc front] at inner ⊢
  | case5 c rest other plain lineBreak =>
    obtain ⟨rounds, rfl⟩ := Nat.exists_eq_add_one_of_ne_zero (Nat.ne_zero_of_lt enough)
    have narrow : c.toNat < 128 :=
      isAscii_stopsShort ascii c (by simpa [stopsShort, other, plain] using lineBreak)
    rw [shortString, peek_here, peek_first, firstByte_of_ascii narrow, Access.need_some,
      Access.value_bind, if_neg other, if_neg plain, if_pos lineBreak]
    simp [Scan.after, Scan.build, Scan.sizes]
  | case6 c rest other plain inLine ih =>
    have goesOn := stopsShort_eq_false.mpr ⟨other, plain, inLine⟩
    obtain ⟨left, fits, next⟩ := (shortString_walks _).next (isAscii_stopsShort ascii) goesOn enough
    rw [next, Scan.after_after, List.append_cons]
    exact ih (front ++ [c]) fits

/-- Characters at which a search in a literal between three quotes stops. -/
def stopsLong (mark c : Char) : Bool := c = mark || c = '\\'

theorem isAscii_stopsLong (ascii : mark.toNat < 128) : IsAscii (stopsLong mark) :=
  (isAscii_eq ascii).or (isAscii_eq (by decide))

/-- The byte that a search does not stop at does not matter, and takes no round. -/
theorem longString_walks (mark : Char) (data : List UInt8) (rounds : Nat) :
    Walks (stopsLong mark) data fun _ i => longString data mark (rounds + 1) i := by
  intro _ i d here other
  obtain ⟨byte, found, rfl⟩ := Option.map_eq_some_iff.mp here
  obtain ⟨within, same⟩ := List.getElem?_eq_some_iff.mp found
  have range {i : Nat} (inside : i ≤ data.length) :
      range? data i data.length = some (data.drop i) := by
    rw [range?, if_pos ⟨inside, Nat.le_refl _⟩, List.take_length]
  have search : find (data.drop i) (fun c => c = mark || c = '\\') =
      (find (data.drop (i + 1)) fun c => c = mark || c = '\\').map (· + 1) := by
    have passed : (letter byte = mark || letter byte = '\\') = false := other
    rw [find, List.drop_eq_getElem_cons within, List.findIdx?_cons, same, passed]
    rfl
  change longString data mark (rounds + 1) i = longString data mark (rounds + 1) (i + 1)
  rw [longString, longString, range (Nat.le_of_lt within), range within, Access.need_some,
    Access.value_bind, Access.need_some, Access.value_bind, search]
  cases find (data.drop (i + 1)) fun c => c = mark || c = '\\' with
  | none => rfl
  | some k =>
    rw [Option.map_some, Access.need_some, Access.need_some, Access.value_bind, Access.value_bind,
      Nat.add_comm k, ← Nat.add_assoc]

/-- A literal between three quotes where the search stops at once. -/
theorem longString_here (ascii : mark.toNat < 128) (front rest : List Char)
    (stops : stopsLong mark c = true) (rounds : Nat) :
    longString (Text.bytes (front ++ c :: rest)) mark (rounds + 1) (Text.width front) =
      if c = '\\' then do
        let _ ← Access.need (peek (Text.bytes rest) 0)
        longString (Text.bytes (front ++ c :: rest)) mark rounds (Text.width front + 2)
      else if [mark, mark].isPrefixOf rest then
        spell (Text.bytes (front ++ c :: rest)) 0 (Text.width front + 3) (Text.width front + 3)
          fun raw => .string (String.ofList raw) 3
      else longString (Text.bytes (front ++ c :: rest)) mark rounds (Text.width front + 1) := by
  have narrow := isAscii_stopsLong ascii c stops
  have found : find (Text.bytes (c :: rest)) (fun c => c = mark || c = '\\') = some 0 :=
    find_first (isAscii_stopsLong ascii) stops rest
  have marks := peek_marks ascii (front ++ [c]) rest
  rw [width_snoc front narrow, ← List.append_cons, Nat.add_assoc] at marks
  rw [longString, range?_rest, Access.need_some, Access.value_bind, found, Access.need_some,
    Access.value_bind, Nat.add_zero]
  dsimp only
  rw [peek_here, peek_first, firstByte_of_ascii narrow, Access.sure_some, Access.value_bind, marks,
    peek_after front rest narrow]

/-- The content of a literal between three quotes is read as in the text. -/
theorem longString_eq (ascii : mark.toNat < 128) (front text : List Char)
    (enough : Text.width text < rounds) :
    longString (Text.bytes (front ++ text)) mark rounds (Text.width front) =
      (((Quote.long mark text).after front).build fun _ lexeme =>
        Token.string (String.ofList lexeme) 3).sizes 0 := by
  obtain ⟨rounds, rfl⟩ := Nat.exists_eq_add_one_of_ne_zero (Nat.ne_zero_of_lt enough)
  have escapes : stopsLong mark '\\' = true := by simp [stopsLong]
  fun_induction Quote.long mark text generalizing front rounds with
  | case1 =>
    rw [longString, range?_rest]
    rfl
  | case2 =>
    rw [longString_here ascii front [] escapes, if_pos rfl]
    rfl
  | case3 d more ih =>
    have later := width_lt_of_cons enough
    obtain ⟨rounds, rfl⟩ := Nat.exists_eq_add_one_of_ne_zero (Nat.ne_zero_of_lt later)
    have place : Text.width front + 2 = Text.width (front ++ ['\\']) + 1 := by
      rw [width_snoc front (by decide)]
    -- only the first byte of the character after the backslash is stepped over with it
    obtain ⟨left, -, next⟩ :=
      (longString_walks mark (Text.bytes (front ++ ['\\'] ++ d :: more)) rounds).behind
        (isAscii_stopsLong ascii) (Nat.le_refl _)
    have inner := ih (front ++ ['\\'] ++ [d]) rounds (Nat.lt_succ_of_lt (width_lt_of_cons later))
    rw [longString_here ascii front _ escapes, if_pos rfl, peek_first, Access.need_some,
      Access.value_bind, place, List.append_cons, next, Scan.after_after, List.append_cons]
    rwa [List.append_assoc front] at inner ⊢
  | case4 c rest plain closes =>
    obtain ⟨rfl, marks⟩ := Bool.and_eq_true_iff.mp closes |>.imp_left of_decide_eq_true
    obtain ⟨more, rfl⟩ := List.isPrefixOf_iff_prefix.mp marks
    have stops : stopsLong c c = true := by simp [stopsLong]
    have size := utf8Size_of_ascii ascii
    have place : Text.width front + 3 = Text.width (front ++ [c, c, c]) := by
      simp [Text.width_append, size]
    have whole : front ++ c :: ([c, c] ++ more) = front ++ [c, c, c] ++ more := by simp
    rw [longString_here ascii front _ stops, if_neg plain, if_pos marks, place, whole, spell_front]
    rfl
  | case5 c rest plain goesOn ih =>
    by_cases stops : stopsLong mark c = true
    · have later := width_lt_of_cons enough
      obtain ⟨rounds, rfl⟩ := Nat.exists_eq_add_one_of_ne_zero (Nat.ne_zero_of_lt later)
      have narrow := isAscii_stopsLong ascii c stops
      have same : c = mark := by simpa [stopsLong, plain] using stops
      have single : ¬ [mark, mark].isPrefixOf rest = true := fun marks =>
        goesOn (by rw [marks, decide_eq_true same]; rfl)
      have inner := ih (front ++ [c]) rounds later
      rw [longString_here ascii front _ stops, if_neg plain, if_neg single, Scan.after_after,
        ← width_snoc front narrow, List.append_cons]
      exact inner
    · obtain ⟨left, -, next⟩ := (longString_walks mark _ rounds).next
        (isAscii_stopsLong ascii) (Bool.eq_false_iff.mpr stops) (Nat.lt_succ_self _)
      rw [next, Scan.after_after, List.append_cons]
      exact ih (front ++ [c]) rounds (Nat.lt_succ_of_lt (width_lt_of_cons enough))

/-- A string literal is read as in the text. -/
theorem string_eq (ascii : mark.toNat < 128) (rest : List Char) :
    string (Text.bytes (mark :: rest)) mark =
      ((Quote.scan mark rest).build fun quoteWidth lexeme =>
        Token.string (String.ofList lexeme) quoteWidth).sizes 0 := by
  have size := utf8Size_of_ascii ascii
  have one : Text.width [mark] = 1 := by rw [Text.width_cons, size]; rfl
  have marks := peek_marks ascii [mark] rest
  rw [one, List.singleton_append] at marks
  rw [string, marks, Quote.scan]
  by_cases three : [mark, mark].isPrefixOf rest = true
  · obtain ⟨more, rfl⟩ := List.isPrefixOf_iff_prefix.mp three
    have place : Text.width [mark, mark, mark] = 3 := by simp [size]
    have read := longString_eq ascii [mark, mark, mark] more (lt_limit [mark, mark, mark] more)
    have dropped : ([mark, mark] ++ more).drop 2 = more := rfl
    rw [place] at read
    rw [if_pos three, if_pos three, dropped]
    refine read.trans ?_
    cases Quote.long mark more <;> rfl
  · have read := shortString_eq ascii [mark] rest (lt_limit [mark] rest)
    rw [one] at read
    rw [if_neg three, if_neg three]
    refine read.trans ?_
    cases Quote.short mark rest <;> rfl

end ShExCompact.Octets
