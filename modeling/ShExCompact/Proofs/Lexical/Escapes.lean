import ShExCompact.Text.Escape

/-! Escapes of string literals, each with the character that it stands for, and the place where the
first backslash stands that begins none. -/
namespace ShExCompact

theorem Numeral.hex?_eq_some : hex? count text = some code ↔ ∃ digits rest,
    text = digits ++ rest ∧ digits.length = count ∧ digits.all isHex ∧ hexValue digits = code := by
  unfold hex?
  dsimp only
  constructor
  · intro known
    split at known
    next valid =>
      cases known
      exact ⟨_, text.drop count, (List.take_append_drop count text).symm, valid.1, valid.2, rfl⟩
    next => cases known
  · rintro ⟨digits, rest, rfl, rfl, valid, rfl⟩
    rw [List.take_left, if_pos ⟨rfl, valid⟩]

namespace Escape

/-! ### What escapes mean -/

/-- The digits of a code point. -/
structure Digits (count : Nat) (digits : List Char) : Prop where
  size : digits.length = count
  valid : digits.all Numeral.isHex

theorem Digits.hex? (digits : Digits count text) (rest : List Char) :
    Numeral.hex? count (text ++ rest) = some (Numeral.hexValue text) :=
  Numeral.hex?_eq_some.mpr ⟨text, rest, rfl, digits.size, digits.valid, rfl⟩

/-- What follows the backslash of an escape, and the character that the escape stands for. -/
inductive Means : List Char → Char → Prop where
  | letter (known : letter? c = some value) : Means [c] value
  | short (digits : Digits 4 code) (single : isHigh (Numeral.hexValue code) = false)
      (scalar : scalar? (Numeral.hexValue code) = some value) : Means ('u' :: code) value
  | pair (digits : Digits 4 high) (first : isHigh (Numeral.hexValue high))
      (digits' : Digits 4 low) (second : isLow (Numeral.hexValue low))
      (scalar : scalar? (0x10000 + (Numeral.hexValue high - 0xD800) * 0x400 +
        (Numeral.hexValue low - 0xDC00)) = some value) :
      Means ('u' :: (high ++ '\\' :: 'u' :: low)) value
  | long (digits : Digits 8 code) (scalar : scalar? (Numeral.hexValue code) = some value) :
      Means ('U' :: code) value

theorem low?_eq_some : low? text = some code ↔ ∃ low rest, text = '\\' :: 'u' :: (low ++ rest) ∧
    Digits 4 low ∧ isLow (Numeral.hexValue low) ∧ Numeral.hexValue low = code := by
  constructor
  · intro known
    unfold low? at known
    split at known
    next c d rest =>
      split at known
      next opens =>
        obtain ⟨rfl, rfl⟩ := opens
        obtain ⟨digits, second⟩ := Option.filter_eq_some_iff.mp known
        obtain ⟨low, rest, rfl, size, valid, rfl⟩ := Numeral.hex?_eq_some.mp digits
        exact ⟨low, rest, rfl, ⟨size, valid⟩, second, rfl⟩
      next => cases known
    next => cases known
  · rintro ⟨low, rest, rfl, digits, second, rfl⟩
    rw [low?, if_pos ⟨rfl, rfl⟩, digits.hex?]
    exact Option.filter_eq_some_iff.mpr ⟨rfl, second⟩

theorem means_of_read? (known : read? text = some (value, size)) :
    ∃ escape rest, text = escape ++ rest ∧ Means escape value ∧ escape.length = size := by
  unfold read? at known
  split at known
  next => cases known
  next c rest =>
    split at known
    next short =>
      subst short
      obtain ⟨high, digits, known⟩ := Option.bind_eq_some_iff.mp known
      obtain ⟨high, rest, rfl, count, valid, rfl⟩ := Numeral.hex?_eq_some.mp digits
      split at known
      next first =>
        obtain ⟨low, second, known⟩ := Option.bind_eq_some_iff.mp known
        obtain ⟨value, scalar, known⟩ := Option.bind_eq_some_iff.mp known
        cases known
        rw [← count, List.drop_left] at second
        obtain ⟨low, rest, rfl, digits', last, rfl⟩ := low?_eq_some.mp second
        refine ⟨'u' :: (high ++ '\\' :: 'u' :: low), rest, ?_, ?_, ?_⟩
        · simp
        · exact .pair ⟨count, valid⟩ first digits' last scalar
        · simp [count, digits'.size]
      next single =>
        obtain ⟨value, scalar, known⟩ := Option.bind_eq_some_iff.mp known
        cases known
        refine ⟨'u' :: high, rest, rfl, ?_, congrArg (· + 1) count⟩
        exact .short ⟨count, valid⟩ (Bool.eq_false_iff.mpr single) scalar
    next =>
      split at known
      next long =>
        subst long
        obtain ⟨code, digits, known⟩ := Option.bind_eq_some_iff.mp known
        obtain ⟨code, rest, rfl, count, valid, rfl⟩ := Numeral.hex?_eq_some.mp digits
        obtain ⟨value, scalar, known⟩ := Option.bind_eq_some_iff.mp known
        cases known
        exact ⟨'U' :: code, rest, rfl, .long ⟨count, valid⟩ scalar, congrArg (· + 1) count⟩
      next =>
        obtain ⟨value, letter, known⟩ := Option.bind_eq_some_iff.mp known
        cases known
        exact ⟨[c], rest, rfl, .letter letter, rfl⟩

/-- An escape is recognized whatever stands behind it. -/
theorem read?_of_means (means : Means escape value) (rest : List Char) :
    read? (escape ++ rest) = some (value, escape.length) := by
  cases means with
  | @letter c value letter =>
    have noShort : c ≠ 'u' := by
      rintro rfl
      cases letter
    have noLong : c ≠ 'U' := by
      rintro rfl
      cases letter
    change read? (c :: rest) = _
    rw [read?, if_neg noShort, if_neg noLong, letter]
    rfl
  | short digits single scalar =>
    rw [List.cons_append, read?, if_pos rfl, digits.hex?, List.length_cons, digits.size]
    simp [single, scalar]
  | @pair high low value digits first digits' second scalar =>
    have lower : low? ('\\' :: 'u' :: (low ++ rest)) = some (Numeral.hexValue low) :=
      low?_eq_some.mpr ⟨low, rest, rfl, digits', second, rfl⟩
    have text : 'u' :: (high ++ '\\' :: 'u' :: low) ++ rest =
        'u' :: (high ++ ('\\' :: 'u' :: (low ++ rest))) := by simp
    have behind : (high ++ '\\' :: 'u' :: (low ++ rest)).drop 4 = '\\' :: 'u' :: (low ++ rest) := by
      rw [← digits.size, List.drop_left]
    have size : ('u' :: (high ++ '\\' :: 'u' :: low)).length = 11 := by
      simp [digits.size, digits'.size]
    rw [text, size, read?, if_pos rfl, digits.hex?, behind, lower]
    -- by rewriting: to compare the numbers the kernel would count down from them
    rw [Option.bind_eq_bind, Option.bind_some, if_pos first, Option.bind_eq_bind, Option.bind_some,
      scalar]
    rfl
  | long digits scalar =>
    rw [List.cons_append, read?, if_neg (by decide), if_pos rfl, digits.hex?, List.length_cons,
      digits.size]
    simp [scalar]

/-- An escape is decoded from the characters that it takes. -/
theorem read?_front (read : read? (front ++ rest) = some (value, size))
    (fits : size ≤ front.length) : read? front = some (value, size) := by
  obtain ⟨escape, more, split, means, rfl⟩ := means_of_read? read
  have begins : escape <+: front := by
    apply List.prefix_of_prefix_length_le ?_ (List.prefix_append front rest) fits
    exact split ▸ List.prefix_append escape more
  obtain ⟨last, rfl⟩ := begins
  exact read?_of_means means last

/-! ### The first flaw -/

/-- The first flaw of a text: what stands before it is decoded, and no escape begins there. -/
theorem flaw_split (flawed : decodeFrom skip offset text = .error flaw) :
    ∃ front rest decoded, text = front ++ '\\' :: rest ∧ skip ≤ front.length ∧
      flaw = ⟨offset + Text.width front, '\\' :: rest.take 1⟩ ∧ read? rest = none ∧
      decodeFrom skip offset front = .ok decoded := by
  induction text generalizing skip offset with
  | nil => cases skip <;> cases flawed
  | cons c text ih =>
    cases skip with
    | succ skip =>
      rw [decodeFrom] at flawed
      obtain ⟨front, rest, decoded, rfl, fits, rfl, unread, decodes⟩ := ih flawed
      refine ⟨c :: front, rest, decoded, rfl, Nat.succ_le_succ fits, ?_, unread, decodes⟩
      rw [Text.width_cons, Nat.add_assoc]
    | zero =>
      rw [decodeFrom] at flawed
      split at flawed
      case isTrue backslash =>
        subst backslash
        split at flawed
        next value size known =>
          cases later : decodeFrom size (offset + 1) text with
          | ok more =>
            rw [later] at flawed
            cases flawed
          | error inner =>
            rw [later] at flawed
            cases flawed
            obtain ⟨front, rest, decoded, rfl, fits, rfl, unread, decodes⟩ := ih later
            have again := read?_front known fits
            refine ⟨'\\' :: front, rest, value :: decoded, rfl, Nat.zero_le _, ?_, unread, ?_⟩
            · rw [Text.width_cons, Nat.add_assoc]
              rfl
            · rw [decodeFrom, if_pos rfl, again]
              dsimp only
              rw [decodes]
        next unread =>
          cases flawed
          exact ⟨[], text, [], rfl, Nat.le_refl _, rfl, unread, rfl⟩
      case isFalse plain =>
        cases later : decodeFrom 0 (offset + c.utf8Size) text with
        | ok more =>
          rw [later] at flawed
          cases flawed
        | error inner =>
          rw [later] at flawed
          cases flawed
          obtain ⟨front, rest, decoded, rfl, -, rfl, unread, decodes⟩ := ih later
          refine ⟨c :: front, rest, c :: decoded, rfl, Nat.zero_le _, ?_, unread, ?_⟩
          · rw [Text.width_cons, Nat.add_assoc]
          · rw [decodeFrom, if_neg plain, decodes]

theorem content?_split (known : content? raw quoteWidth = some content) :
    ∃ opening closing, raw = opening ++ (content ++ closing) ∧
      Text.width opening = quoteWidth ∧ Text.width closing = quoteWidth := by
  simp only [content?] at known
  split at known
  next enough =>
    split at known
    next opening rest cut =>
      obtain ⟨rfl, size⟩ := Text.cut_eq_exact.mp cut
      split at known
      next content' closing cut' =>
        cases known
        obtain ⟨rfl, size'⟩ := Text.cut_eq_exact.mp cut'
        refine ⟨opening, closing, rfl, size, ?_⟩
        rw [Text.width_append, Text.width_append] at enough size'
        omega
      all_goals cases known
    all_goals cases known
  next => cases known

/-- The first flaw of a literal: it stands between the quotes, and what is before it decodes. -/
inductive FirstFlaw (raw : List Char) (quoteWidth : Nat) : Flaw → Prop where
  | between (pieces : raw = opening ++ ((front ++ '\\' :: rest) ++ closing))
      (opens : Text.width opening = quoteWidth) (closes : Text.width closing = quoteWidth)
      (decodes : decodeFrom 0 quoteWidth front = .ok decoded) (unread : read? rest = none) :
      FirstFlaw raw quoteWidth ⟨Text.width (opening ++ front), '\\' :: rest.take 1⟩

theorem firstFlaw_of_decodeString (flawed : decodeString raw quoteWidth = .error flaw) :
    FirstFlaw raw.toList quoteWidth flaw := by
  unfold decodeString at flawed
  split at flawed
  next content known =>
    obtain ⟨opening, closing, split, opens, closes⟩ := content?_split known
    cases decoded : decodeFrom 0 quoteWidth content with
    | ok value =>
      rw [decoded] at flawed
      cases flawed
    | error inner =>
      rw [decoded] at flawed
      cases flawed
      obtain ⟨front, rest, value, rfl, -, rfl, unread, decodes⟩ := flaw_split decoded
      have found := FirstFlaw.between split opens closes decodes unread
      rwa [Text.width_append, opens] at found
  next => cases flawed

end Escape

end ShExCompact
