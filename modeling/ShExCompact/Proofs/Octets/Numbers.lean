import ShExCompact.Proofs.Octets.Names

/-! Numbers among bytes, whose parts are measured one after the other. Main statement: the
recognizer consumes and reports what the scan of the text does. -/
namespace ShExCompact.Octets

theorem isAscii_isSign : IsAscii Number.isSign :=
  (isAscii_eq (by decide)).or (isAscii_eq (by decide))

/-- A byte is of a class of ASCII characters if and only if the next character is. -/
theorem peek_any {isOne : Char → Bool} (ascii : IsAscii isOne) (front text : List Char) :
    (peek (Text.bytes (front ++ text)) (Text.width front)).any isOne = text.head?.any isOne := by
  rw [peek_here]
  cases text with
  | nil => rfl
  | cons c rest => simp [class_firstByte ascii]

/-- A sign is one byte. -/
theorem sign_size (front text : List Char) :
    (if (peek (Text.bytes (front ++ text)) (Text.width front)).any Number.isSign then
      Text.width front + 1 else Text.width front) = Text.width (front ++ Number.sign text) := by
  rw [peek_any isAscii_isSign, Text.width_append]
  cases text with
  | nil => rfl
  | cons c rest =>
    by_cases isSign : Number.isSign c = true
    · simp [Number.sign, isSign, utf8Size_of_ascii (isAscii_isSign c isSign)]
    · simp [Number.sign, isSign]

/-- A mantissa with a point and one without. -/
theorem ofText_cases (text : List Char) : ∃ whole rest,
    text = Number.sign text ++ (whole ++ rest) ∧
      whole = (whole ++ rest).takeWhile Char.isDigit ∧
      ((∃ fraction last, rest = '.' :: (fraction ++ last) ∧
          fraction = (fraction ++ last).takeWhile Char.isDigit ∧
          Number.Mantissa.ofText text = ⟨Number.sign text, whole, ['.'], fraction⟩) ∨
        rest.head? ≠ some '.' ∧
          Number.Mantissa.ofText text = ⟨Number.sign text, whole, [], []⟩) := by
  obtain ⟨after, split⟩ := Number.sign_front text
  simp only [Number.Mantissa.ofText]
  generalize Number.sign text = sign at *
  subst split
  rw [List.drop_left]
  obtain ⟨rest, split⟩ := List.takeWhile_prefix (l := after) Char.isDigit
  have split : Number.digits after ++ rest = after := split
  have longest : Number.digits after = after.takeWhile Char.isDigit := rfl
  generalize Number.digits after = whole at *
  subst split
  refine ⟨whole, rest, rfl, longest, ?_⟩
  rw [← List.append_assoc, List.drop_left]
  cases rest with
  | nil => exact .inr ⟨by simp, rfl⟩
  | cons c tail =>
    by_cases dot : c = '.'
    · subst dot
      have split : tail.takeWhile Char.isDigit ++ tail.dropWhile Char.isDigit = tail :=
        List.takeWhile_append_dropWhile
      exact .inl ⟨tail.takeWhile Char.isDigit, tail.dropWhile Char.isDigit, by rw [split],
        by rw [split], rfl⟩
    · exact .inr ⟨by simpa using dot, by simp [dot]⟩

/-- The mantissa is measured as in the text. -/
theorem mantissa_eq (text : List Char) :
    mantissa (Text.bytes text) = .value (Text.width (Number.Mantissa.ofText text).whole,
      if (Number.Mantissa.ofText text).point.isEmpty then none
        else some (Text.width (Number.Mantissa.ofText text).fraction),
      Text.width (Number.Mantissa.ofText text).text) := by
  have start := sign_size [] text
  simp only [List.nil_append, Text.width_nil, Nat.zero_add] at start
  obtain ⟨whole, rest, split, longest, parts⟩ := ofText_cases text
  rw [mantissa, start]
  clear start
  generalize Number.sign text = sign at *
  subst split
  rw [suffix_bytes, Access.value_bind, countWhile_bytes isAscii_isDigit, ← longest,
    ← List.append_assoc]
  dsimp only
  rw [← Text.width_append]
  rcases parts with ⟨fraction, last, rfl, further, read⟩ | ⟨dot, read⟩
  · have behind : Text.width (sign ++ whole) + 1 = Text.width (sign ++ whole ++ ['.']) :=
      (width_snoc _ (by decide)).symm
    rw [← List.append_assoc] at read
    rw [if_pos ((peek_eq_iff _ _ (by decide)).mpr rfl), behind, List.append_cons, suffix_bytes,
      Access.value_bind, countWhile_bytes isAscii_isDigit, ← further, ← List.append_cons, read]
    simp [Number.Mantissa.text, Number.Mantissa.integerText, Nat.add_assoc]
  · rw [← List.append_assoc] at read
    rw [if_neg fun same => dot ((peek_eq_iff _ _ (by decide)).mp same), read]
    simp [Number.Mantissa.text, Number.Mantissa.integerText]

/-- The exponent is measured as in the text. -/
theorem exponent?_eq (front text : List Char) :
    exponent? (Text.bytes (front ++ text)) (Text.width front) = .value
      ((Number.exponent? text).map fun parts =>
        (Text.width (front ++ parts.1 ++ parts.2), Text.width parts.2)) := by
  have ascii : IsAscii fun c => c = 'e' || c = 'E' :=
    (isAscii_eq (by decide)).or (isAscii_eq (by decide))
  rw [exponent?, peek_any ascii]
  cases text with
  | nil => rfl
  | cons c rest =>
    by_cases mark : (c = 'e' || c = 'E') = true
    · have narrow := ascii c mark
      have signs := sign_size (front ++ [c]) rest
      obtain ⟨tail, split⟩ := Number.sign_front rest
      rw [← List.append_cons, width_snoc front narrow] at signs
      have opened : (Option.any (fun c => c = 'e' || c = 'E') (c :: rest).head?) = true := mark
      rw [if_pos opened, Number.exponent?, if_pos mark]
      dsimp only
      rw [signs]
      clear signs
      generalize Number.sign rest = sign at *
      subst split
      have place : front ++ c :: (sign ++ tail) = front ++ [c] ++ sign ++ tail := by simp
      rw [place, suffix_bytes, Access.value_bind, countWhile_bytes isAscii_isDigit, List.drop_left]
      simp [Number.digits, Nat.add_assoc]
    · have closed : ¬ (Option.any (fun c => c = 'e' || c = 'E') (c :: rest).head?) = true := mark
      rw [if_neg closed, Number.exponent?, if_neg mark]
      rfl

theorem width_eq_zero_iff_isEmpty {text : List Char} :
    Text.width text = 0 ↔ text.isEmpty = true := by
  rw [width_eq_zero, List.isEmpty_iff]

/-- An integer without digits is a fault, and another one is spelled. -/
theorem integer_eq (front rest whole tail : List Char) :
    (if Text.width whole = 0 then
      .value ⟨Text.width front, .error ⟨0, Text.width front, .integer⟩⟩
    else spell (Text.bytes (front ++ rest)) 0 (Text.width front) (Text.width front)
      fun lexeme => Token.integer (String.ofList lexeme)) =
    Scan.sizes 0 (if whole.isEmpty then .fault .integer [] (Text.width front)
      else .found (.integer (String.ofList front)) front tail) := by
  by_cases none : whole.isEmpty = true
  · rw [if_pos (width_eq_zero_iff_isEmpty.mpr none), if_pos none]
    simp [Scan.sizes]
  · rw [if_neg fun zero => none (width_eq_zero_iff_isEmpty.mp zero), if_neg none, spell_front]
    rfl

/-- A double without digits in a place that needs some is a fault, and another one is spelled. -/
theorem double_eq (whole fraction power front rest tail : List Char) :
    (if Text.width power = 0 then
      .value ⟨Text.width front, .error ⟨0, Text.width front, .exponent⟩⟩
    else if (Text.width whole = 0 && Text.width fraction = 0) = true then
      .value ⟨Text.width front, .error ⟨0, Text.width front, .double⟩⟩
    else spell (Text.bytes (front ++ rest)) 0 (Text.width front) (Text.width front)
      fun lexeme => Token.double (String.ofList lexeme)) =
    Scan.sizes 0 (if power.isEmpty then .fault .exponent [] (Text.width front)
      else if (whole.isEmpty && fraction.isEmpty) = true then .fault .double [] (Text.width front)
      else .found (.double (String.ofList front)) front tail) := by
  by_cases noPower : power.isEmpty = true
  · rw [if_pos (width_eq_zero_iff_isEmpty.mpr noPower), if_pos noPower]
    simp [Scan.sizes]
  · rw [if_neg fun zero => noPower (width_eq_zero_iff_isEmpty.mp zero), if_neg noPower]
    have same : (decide (Text.width whole = 0) && decide (Text.width fraction = 0)) =
        (whole.isEmpty && fraction.isEmpty) := by
      rw [Bool.eq_iff_iff]
      simp [width_eq_zero]
    rw [same]
    by_cases noDigits : (whole.isEmpty && fraction.isEmpty) = true
    · rw [if_pos noDigits, if_pos noDigits]
      simp [Scan.sizes]
    · rw [if_neg noDigits, if_neg noDigits, spell_front]
      rfl

/-- A number is read as in the text. -/
theorem number_eq (text : List Char) :
    number (Text.bytes text) = (Number.scan text).sizes 0 := by
  obtain ⟨valid, rest, split⟩ := Number.Mantissa.ofText_valid text
  rw [number, mantissa_eq, Access.value_bind, Number.scan]
  dsimp only
  generalize Number.Mantissa.ofText text = mantissa at *
  subst split
  rw [exponent?_eq, Access.value_bind, List.drop_left]
  obtain ⟨sign, whole, point, fraction⟩ := mantissa
  obtain ⟨-, -, fractions⟩ := valid
  dsimp only at fractions ⊢
  cases found : Number.exponent? rest with
  | some parts =>
    obtain ⟨mark, power⟩ := parts
    obtain ⟨-, ⟨last, split⟩, -⟩ := Number.exponent?_found found
    have counted : (if point.isEmpty = true then none else some (Text.width fraction)).getD 0 =
        Text.width fraction := by
      obtain ⟨rfl, rfl⟩ | ⟨rfl, -⟩ := fractions <;> rfl
    subst split
    dsimp only [Option.map_some]
    rw [counted]
    have place : Number.Mantissa.text ⟨sign, whole, point, fraction⟩ ++ (mark ++ power ++ last) =
        Number.Mantissa.text ⟨sign, whole, point, fraction⟩ ++ mark ++ power ++ last := by
      simp only [List.append_assoc]
    rw [place]
    exact double_eq whole fraction power _ last _
  | none =>
    rw [Option.map_none]
    obtain ⟨rfl, rfl⟩ | ⟨rfl, -⟩ := fractions
    · have whole' : (⟨sign, whole, [], []⟩ : Number.Mantissa).text =
          (⟨sign, whole, [], []⟩ : Number.Mantissa).integerText := by
        simp [Number.Mantissa.text]
      rw [whole']
      exact integer_eq _ rest whole _
    · cases fraction with
      | nil =>
        have whole' : (⟨sign, whole, ['.'], []⟩ : Number.Mantissa).text =
            (⟨sign, whole, ['.'], []⟩ : Number.Mantissa).integerText ++ ['.'] := by
          simp [Number.Mantissa.text]
        have before : minus (Text.width (⟨sign, whole, ['.'], []⟩ : Number.Mantissa).text) 1 =
            .value (Text.width (⟨sign, whole, ['.'], []⟩ : Number.Mantissa).integerText) := by
          rw [whole', width_snoc _ (by decide), minus, if_pos (by omega), Nat.add_sub_cancel]
        have unused : (if ['.'].isEmpty = true then none else some (Text.width [])) = some 0 := rfl
        rw [unused]
        dsimp only
        rw [before, Access.value_bind, whole', List.append_assoc]
        exact integer_eq _ ('.' :: rest) whole _
      | cons c fraction =>
        obtain ⟨count, size⟩ : ∃ count, Text.width (c :: fraction) = count + 1 :=
          Nat.exists_eq_add_one_of_ne_zero fun zero =>
            List.cons_ne_nil c fraction (width_eq_zero.mp zero)
        have used : (if ['.'].isEmpty = true then none else some (Text.width (c :: fraction))) =
            some (count + 1) := by
          rw [size]
          rfl
        rw [used]
        dsimp only
        rw [spell_front]
        rfl

end ShExCompact.Octets
