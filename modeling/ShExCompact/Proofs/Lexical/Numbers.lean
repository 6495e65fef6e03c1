import ShExCompact.Proofs.Lexical.FaultPlaces

/-! Numbers are read exactly and as far as they go. The productions of numbers are classes of texts
here, stated apart from the scanner. Main statement: where a number begins, the token is the
longest front that is an integer, a decimal or a double, and its kind is the one production of this
front; the only fault is an exponent without digits behind the longest mantissa. -/
namespace ShExCompact

/-- A front of a text in a class of texts, as long as any such front. -/
structure Text.Longest (Class : List Char → Prop) (text front : List Char) : Prop where
  belongs : Class front
  begins : front <+: text
  longest : ∀ other, Class other → other <+: text → other.length ≤ front.length

theorem Text.Longest.unique {Class : List Char → Prop} (first : Longest Class text front)
    (second : Longest Class text other) : front = other :=
  have shorter := second.longest _ first.belongs first.begins
  have longer := first.longest _ second.belongs second.begins
  (List.prefix_of_prefix_length_le first.begins second.begins shorter).eq_of_length
    (Nat.le_antisymm shorter longer)

namespace Number

/-! ### Productions -/

/-- The optional sign `[+-]?`. -/
def IsSign (text : List Char) : Prop := text = [] ∨ ∃ c, isSign c ∧ text = [c]

/-- The longest text without an exponent, `[+-]? ([0-9]+ ('.' [0-9]*)? | '.' [0-9]+)`. -/
inductive IsMantissa : List Char → Prop where
  | whole (signed : IsSign lead) (digits : Brace.IsNumber whole) : IsMantissa (lead ++ whole)
  | point (signed : IsSign lead) (digits : Brace.IsNumber whole)
      (later : ∀ c ∈ fraction, c.isDigit) : IsMantissa (lead ++ (whole ++ '.' :: fraction))
  | fraction (signed : IsSign lead) (digits : Brace.IsNumber fraction) :
      IsMantissa (lead ++ '.' :: fraction)

/-- `EXPONENT ::= [eE] [+-]? [0-9]+` -/
inductive IsExponent : List Char → Prop where
  | intro (mark : c = 'e' ∨ c = 'E') (signed : IsSign lead) (digits : Brace.IsNumber power) :
      IsExponent (c :: (lead ++ power))

inductive Kind where
  | integer
  | decimal
  | double

/-- The token of a number. -/
def Kind.token : Kind → String → Token
  | integer => .integer
  | decimal => .decimal
  | double => .double

/-- The productions of the three kinds. -/
inductive Produces : Kind → List Char → Prop where
  /-- `INTEGER ::= [+-]? [0-9]+` -/
  | integer (signed : IsSign lead) (digits : Brace.IsNumber whole) :
      Produces .integer (lead ++ whole)
  /-- `DECIMAL ::= [+-]? [0-9]* '.' [0-9]+` -/
  | decimal (signed : IsSign lead) (before : ∀ c ∈ whole, c.isDigit)
      (digits : Brace.IsNumber fraction) : Produces .decimal (lead ++ (whole ++ '.' :: fraction))
  /-- `DOUBLE ::= [+-]? ([0-9]+ '.' [0-9]* EXPONENT | '.'? [0-9]+ EXPONENT)`, first form -/
  | pointed (signed : IsSign lead) (digits : Brace.IsNumber whole)
      (later : ∀ c ∈ fraction, c.isDigit) (power : IsExponent exponent) :
      Produces .double (lead ++ (whole ++ '.' :: (fraction ++ exponent)))
  /-- second form -/
  | plain (signed : IsSign lead) (dot : point = [] ∨ point = ['.'])
      (digits : Brace.IsNumber whole) (power : IsExponent exponent) :
      Produces .double (lead ++ (point ++ (whole ++ exponent)))

/-- A text of any kind. -/
def IsNumeral (text : List Char) : Prop := ∃ kind, Produces kind text

/-- `[eE] [+-]?`, with the sign if there is one, and no digit after it. -/
inductive Breaks : List Char → Prop where
  | intro (mark : c = 'e' ∨ c = 'E') (signed : IsSign lead)
      (greedy : lead = [] → ∀ d ∈ rest.head?, ¬ isSign d)
      (digitless : ∀ d ∈ rest.head?, ¬ d.isDigit) : Breaks (c :: (lead ++ rest))

/-! ### Fronts of a text -/

theorem sign_greedy (signed : IsSign front)
    (greedy : front = [] → ∀ c ∈ rest.head?, ¬ isSign c) : sign (front ++ rest) = front := by
  rcases signed with rfl | ⟨c, signs, rfl⟩
  · exact sign_append (.inl rfl) (greedy rfl)
  · simp [sign, signs]

theorem digits_append (all : ∀ c ∈ front, c.isDigit) (rest : List Char) :
    digits (front ++ rest) = front ++ digits rest :=
  List.takeWhile_append_of_pos all

theorem digits_eq_nil_iff : digits text = [] ↔ ∀ c ∈ text.head?, ¬ c.isDigit := by
  cases text with
  | nil => simp [digits]
  | cons c rest => simp [digits, List.takeWhile_cons]

/-- Digits in front of a text, whatever follows them, begin with no sign. -/
theorem signless_of_digits (digits : Brace.IsNumber front) (rest : List Char) :
    ∀ c ∈ (front ++ rest).head?, ¬ isSign c := by
  obtain ⟨c, front, rfl⟩ := List.exists_cons_of_ne_nil digits.1
  simpa using isSign_of_isDigit (digits.2 c (by simp))

/-- A sign and digits are a front of the integer that is read. -/
theorem Mantissa.ofText_whole (signed : IsSign lead) (whole : Brace.IsNumber number)
    (rest : List Char) : lead ++ number <+: (ofText (lead ++ (number ++ rest))).integerText := by
  have first := sign_append signed (signless_of_digits whole rest)
  simp only [ofText, integerText, first, List.drop_left, digits_append whole.2]
  exact ⟨digits rest, by rw [List.append_assoc]⟩

/-- Digits around a point are read up to the last of them. -/
theorem Mantissa.ofText_point (signed : IsSign lead) (whole : ∀ c ∈ number, c.isDigit)
    (rest : List Char) :
    ofText (lead ++ (number ++ '.' :: rest)) = ⟨lead, number, ['.'], digits rest⟩ := by
  have stop : ∀ c ∈ ('.' :: rest).head?, ¬ isSign c ∧ ¬ c.isDigit := by
    simp
    decide
  have first := sign_append signed
    (head?_append_all (fun c member => isSign_of_isDigit (whole c member))
      fun c member => (stop c member).1)
  have second : digits (number ++ '.' :: rest) = number :=
    Brace.takeWhile_front whole fun c member => (stop c member).2
  simp only [ofText, first, List.drop_left, second]
  rw [← List.append_assoc, List.drop_left]
  rfl

/-- No mantissa in front of a text goes further than the one that is read. -/
theorem IsMantissa.within (isMantissa : IsMantissa front) (begins : front <+: text) :
    front <+: (Mantissa.ofText text).text := by
  obtain ⟨rest, rfl⟩ := begins
  cases isMantissa with
  | whole signed digits =>
    rw [List.append_assoc]
    have integer := Mantissa.ofText_whole signed digits rest
    exact integer.trans ⟨_, (List.append_assoc ..).symm⟩
  | @point lead whole fraction signed digits later =>
    simp only [List.append_assoc, List.cons_append]
    rw [Mantissa.ofText_point signed digits.2, digits_append later]
    exact ⟨Number.digits rest, by simp [Mantissa.text, Mantissa.integerText]⟩
  | @fraction lead fraction signed digits =>
    have nothing : ∀ c ∈ ([] : List Char), c.isDigit :=
      List.forall_mem_nil _
    have read := Mantissa.ofText_point signed nothing (fraction ++ rest)
    rw [List.nil_append] at read
    rw [List.append_assoc, List.cons_append, read, digits_append digits.2]
    exact ⟨Number.digits rest, by simp [Mantissa.text, Mantissa.integerText]⟩

/-- A mantissa with digits is one. -/
theorem Mantissa.Valid.isMantissa {mantissa : Mantissa} (valid : mantissa.Valid)
    (some : mantissa.whole ≠ [] ∨ mantissa.fraction ≠ []) : IsMantissa mantissa.text := by
  obtain ⟨sign, whole, point, fraction⟩ := mantissa
  obtain ⟨signed, wholes, fractions⟩ := valid
  dsimp only at *
  simp only [Mantissa.text, Mantissa.integerText, List.append_assoc]
  by_cases nonempty : whole = []
  · subst nonempty
    have some : fraction ≠ [] := by simpa using some
    rcases fractions with ⟨-, none⟩ | ⟨rfl, fractions⟩
    · exact absurd none some
    · exact .fraction signed ⟨some, fractions⟩
  · rcases fractions with ⟨rfl, rfl⟩ | ⟨rfl, fractions⟩
    · simpa using IsMantissa.whole signed ⟨nonempty, wholes⟩
    · exact .point signed ⟨nonempty, wholes⟩ fractions

/-- No mantissa holds the mark of an exponent. -/
theorem IsMantissa.markless (isMantissa : IsMantissa text) : 'e' ∉ text ∧ 'E' ∉ text := by
  have signed {lead : List Char} (signed : IsSign lead) : 'e' ∉ lead ∧ 'E' ∉ lead := by
    rcases signed with rfl | ⟨c, signs, rfl⟩
    · simp
    · constructor <;> (rw [List.mem_singleton]; rintro rfl; exact absurd signs (by decide))
  have digits {digits : List Char} (all : ∀ c ∈ digits, c.isDigit) :
      'e' ∉ digits ∧ 'E' ∉ digits :=
    ⟨fun member => absurd (all _ member) (by decide),
      fun member => absurd (all _ member) (by decide)⟩
  cases isMantissa with
  | whole sign whole => simp [signed sign, digits whole.2]
  | point sign whole later => simp [signed sign, digits whole.2, digits later]
  | fraction sign fraction => simp [signed sign, digits fraction.2]

/-! ### Exponents -/

theorem exponent?_mark (mark : c = 'e' ∨ c = 'E') (signed : IsSign lead)
    (greedy : lead = [] → ∀ d ∈ rest.head?, ¬ isSign d) :
    exponent? (c :: (lead ++ rest)) = some (c :: lead, digits rest) := by
  have first := sign_greedy signed greedy
  rw [exponent?, if_pos (by simpa using mark), first, List.drop_left]

theorem exponent?_eq_some (found : exponent? text = some (mark, power)) :
    ∃ c lead rest, (c = 'e' ∨ c = 'E') ∧ IsSign lead ∧
      (lead = [] → ∀ d ∈ rest.head?, ¬ isSign d) ∧ text = c :: (lead ++ rest) ∧
        mark = c :: lead ∧ power = digits rest := by
  cases text with
  | nil => cases found
  | cons c text =>
    simp only [exponent?] at found
    split at found
    case isFalse => cases found
    case isTrue letter =>
      have signed := sign_valid text
      obtain ⟨rest, split⟩ := sign_front text
      have greedy : sign text = [] → ∀ d ∈ rest.head?, ¬ isSign d := by
        intro none d first signs
        rw [none, List.nil_append] at split
        subst split
        obtain ⟨more, rfl⟩ := List.head?_eq_some_iff.mp first
        simp [sign, signs] at none
      generalize sign text = lead at *
      subst split
      rw [List.drop_left] at found
      cases found
      exact ⟨c, lead, rest, by simpa using letter, signed, greedy, rfl, rfl, rfl⟩

/-- An exponent breaks where its mark is read without digits. -/
theorem breaks_iff : Breaks text ↔ ∃ mark, exponent? text = some (mark, []) := by
  constructor
  · rintro ⟨mark, signed, greedy, digitless⟩
    exact ⟨_, by rw [exponent?_mark mark signed greedy, digits_eq_nil_iff.mpr digitless]⟩
  · rintro ⟨mark, found⟩
    obtain ⟨c, lead, rest, letter, signed, greedy, rfl, -, none⟩ := exponent?_eq_some found
    exact .intro letter signed greedy (digits_eq_nil_iff.mp none.symm)

/-- No exponent in front of a text goes further than the one that is read. -/
theorem IsExponent.within (isExponent : IsExponent front) (begins : front <+: text) :
    ∃ mark power, exponent? text = some (mark, power) ∧ power ≠ [] ∧ front <+: mark ++ power := by
  obtain ⟨rest, rfl⟩ := begins
  cases isExponent with
  | @intro c lead power mark signed digits =>
    have read := exponent?_mark mark signed fun _ => signless_of_digits digits rest
    rw [digits_append digits.2] at read
    refine ⟨_, _, by rwa [List.cons_append, List.append_assoc], ?_, ?_⟩
    · simp [digits.1]
    · exact ⟨Number.digits rest, by simp⟩

theorem isExponent_of_found (found : exponent? text = some (mark, power)) (nonempty : power ≠ []) :
    IsExponent (mark ++ power) := by
  obtain ⟨c, lead, rest, letter, signed, -, -, rfl, rfl⟩ := exponent?_eq_some found
  exact .intro letter signed ⟨nonempty, fun _ member => Brace.mem_takeWhile member⟩

/-! ### Kinds -/

/-- A number is a mantissa, or a double, which is a mantissa and an exponent. -/
theorem Produces.mantissa (produced : Produces kind text) :
    IsMantissa text ∧ kind ≠ .double ∨ kind = .double ∧ ∃ mantissa exponent,
      text = mantissa ++ exponent ∧ IsMantissa mantissa ∧ IsExponent exponent := by
  cases produced with
  | integer signed digits => exact .inl ⟨.whole signed digits, nofun⟩
  | @decimal lead whole fraction signed before digits =>
    refine .inl ⟨?_, nofun⟩
    by_cases nonempty : whole = []
    · subst nonempty
      exact .fraction signed digits
    · exact .point signed ⟨nonempty, before⟩ digits.2
  | pointed signed digits later power =>
    exact .inr ⟨rfl, _, _, by simp, .point signed digits later, power⟩
  | plain signed point digits power =>
    rcases point with rfl | rfl
    · exact .inr ⟨rfl, _, _, by simp, .whole signed digits, power⟩
    · exact .inr ⟨rfl, _, _, by simp, .fraction signed digits, power⟩

/-- A mantissa and an exponent are a double. -/
theorem IsMantissa.double (isMantissa : IsMantissa mantissa) (power : IsExponent exponent) :
    Produces .double (mantissa ++ exponent) := by
  cases isMantissa with
  | whole signed digits =>
    rw [List.append_assoc]
    exact .plain signed (.inl rfl) digits power
  | point signed digits later =>
    simp only [List.append_assoc, List.cons_append]
    exact .pointed signed digits later power
  | fraction signed digits =>
    rw [List.append_assoc]
    exact .plain signed (.inr rfl) digits power

/-- The kind of a text, by its characters. -/
def kindOf (text : List Char) : Kind :=
  if 'e' ∈ text ∨ 'E' ∈ text then .double else if '.' ∈ text then .decimal else .integer

theorem Produces.kind_eq (produced : Produces kind text) : kind = kindOf text := by
  rcases produced.mantissa with ⟨isMantissa, other⟩ | ⟨rfl, mantissa, exponent, rfl, -, power⟩
  · have markless := isMantissa.markless
    cases produced with
    | @integer lead whole signed digits =>
      have pointless : '.' ∉ lead ++ whole := by
        rw [List.mem_append]
        rintro (member | member)
        · rcases signed with rfl | ⟨c, signs, rfl⟩
          · cases member
          · obtain rfl := List.mem_singleton.mp member
            exact absurd signs (by decide)
        · exact absurd (digits.2 _ member) (by decide)
      rw [kindOf, if_neg (by simpa using markless), if_neg pointless]
    | decimal => rw [kindOf, if_neg (by simpa using markless), if_pos (by simp)]
    | pointed | plain => exact absurd rfl other
  · have marked : 'e' ∈ mantissa ++ exponent ∨ 'E' ∈ mantissa ++ exponent := by
      cases power with
      | intro mark => rcases mark with rfl | rfl <;> simp
    rw [kindOf, if_pos marked]

/-! ### Outcomes -/

/-- What is found as a number. -/
structure Reads (text lexeme rest : List Char) (kind : Kind) : Prop where
  split : text = lexeme ++ rest
  longest : Text.Longest IsNumeral text lexeme
  only : ∀ other, Produces other lexeme ↔ other = kind

theorem Reads.drop (reads : Reads text lexeme rest kind) : text.drop lexeme.length = rest := by
  rw [reads.split, List.drop_left]

theorem Reads.of_produces (split : text = lexeme ++ rest) (produced : Produces kind lexeme)
    (longest : ∀ front other, Produces other front → front <+: text →
      front.length ≤ lexeme.length) : Reads text lexeme rest kind where
  split := split
  longest := ⟨⟨kind, produced⟩, ⟨rest, split.symm⟩,
    fun _ ⟨kind, produced⟩ => longest _ kind produced⟩
  only _ :=
    ⟨fun same => same.kind_eq.trans produced.kind_eq.symm, fun same => same ▸ produced⟩

/-- Digits after a point are a decimal. -/
theorem Mantissa.Valid.decimal {mantissa : Mantissa} (valid : mantissa.Valid)
    (some : mantissa.fraction ≠ []) : Produces .decimal mantissa.text := by
  obtain ⟨lead, whole, point, fraction⟩ := mantissa
  rcases valid.fraction with ⟨-, none⟩ | ⟨dot, fractions⟩
  · exact absurd none some
  · obtain rfl : point = ['.'] := dot
    simpa [Mantissa.text, Mantissa.integerText] using
      Produces.decimal valid.sign valid.whole ⟨some, fractions⟩

/-- A decimal in front of a text has a digit after the point that is read. -/
theorem fraction_of_decimal (produced : Produces .decimal front) (begins : front <+: text) :
    (Mantissa.ofText text).fraction ≠ [] := by
  obtain ⟨rest, rfl⟩ := begins
  cases produced with
  | decimal signed before digits =>
    simp only [List.append_assoc, List.cons_append]
    rw [Mantissa.ofText_point signed before, digits_append digits.2]
    simp [digits.1]

/-- An integer in front of a text goes no further than the one that is read. -/
theorem length_of_integer (produced : Produces .integer front) (begins : front <+: text) :
    front.length ≤ (Mantissa.ofText text).integerText.length := by
  obtain ⟨rest, rfl⟩ := begins
  cases produced with
  | integer signed digits =>
    rw [List.append_assoc]
    exact (Mantissa.ofText_whole signed digits rest).length_le

section

variable {text rest : List Char}

/-- The mantissa that is read where a number begins. -/
theorem isMantissa_ofText (begins : starts text) : IsMantissa (Mantissa.ofText text).text :=
  (Mantissa.ofText_valid text).1.isMantissa (digits_of_starts begins)

/-- A double in front of a text ends with the exponent that is read after the mantissa. -/
theorem double_front (begins : starts text) (split : text = (Mantissa.ofText text).text ++ rest)
    (isMantissa : IsMantissa mantissa) (isExponent : IsExponent exponent)
    (front : mantissa ++ exponent <+: text) :
    mantissa = (Mantissa.ofText text).text ∧ ∃ mark power,
      exponent? rest = some (mark, power) ∧ power ≠ [] ∧ exponent <+: mark ++ power := by
  obtain ⟨more, whole⟩ := isMantissa.within ((List.prefix_append _ _).trans front)
  have later : exponent <+: more ++ rest := by
    rw [split, ← whole, List.append_assoc] at front
    exact (List.prefix_append_right_inj _).mp front
  cases more with
  | nil => exact ⟨by simpa using whole, isExponent.within later⟩
  | cons d more =>
    -- The mantissa that is read would hold the mark of this exponent.
    exfalso
    cases isExponent with
    | @intro c lead power mark =>
      obtain ⟨rfl, -⟩ := List.cons_prefix_cons.mp later
      have markless := (isMantissa_ofText begins).markless
      rw [← whole] at markless
      rcases mark with rfl | rfl <;> simp at markless

/-- Without an exponent, what is in front of a text has one of the two other kinds. -/
theorem plain_front (begins : starts text) (split : text = (Mantissa.ofText text).text ++ rest)
    (noExponent : exponent? rest = none) (produced : Produces kind front)
    (inside : front <+: text) :
    kind = .integer ∨ kind = .decimal ∧ front.length ≤ (Mantissa.ofText text).text.length := by
  rcases produced.mantissa with ⟨isMantissa, plain⟩ | ⟨-, mantissa, exponent, rfl, mantissas, power⟩
  · cases kind with
    | integer => exact .inl rfl
    | decimal => exact .inr ⟨rfl, (isMantissa.within inside).length_le⟩
    | double => exact absurd rfl plain
  · obtain ⟨-, _, _, found, -⟩ := double_front begins split mantissas power inside
    rw [noExponent] at found
    cases found

theorem reads_integer (begins : starts text) (split : text = (Mantissa.ofText text).text ++ rest)
    (noExponent : exponent? rest = none) (empty : (Mantissa.ofText text).fraction = []) :
    Reads text (Mantissa.ofText text).integerText ((Mantissa.ofText text).point ++ rest)
      .integer := by
  have valid := (Mantissa.ofText_valid text).1
  have nonempty := (digits_of_starts begins).resolve_right (· empty)
  refine .of_produces ?_ (.integer valid.sign ⟨nonempty, valid.whole⟩)
    fun front kind produced inside => ?_
  · conv => lhs; rw [split]
    simp [Mantissa.text, empty]
  · rcases plain_front begins split noExponent produced inside with rfl | ⟨rfl, -⟩
    · exact length_of_integer produced inside
    · exact absurd empty (fraction_of_decimal produced inside)

theorem reads_decimal (begins : starts text) (split : text = (Mantissa.ofText text).text ++ rest)
    (noExponent : exponent? rest = none) (nonempty : (Mantissa.ofText text).fraction ≠ []) :
    Reads text (Mantissa.ofText text).text rest .decimal := by
  have valid := (Mantissa.ofText_valid text).1
  refine .of_produces split (valid.decimal nonempty) fun front kind produced inside => ?_
  rcases plain_front begins split noExponent produced inside with rfl | ⟨-, shorter⟩
  · refine Nat.le_trans (length_of_integer produced inside) ?_
    simp [Mantissa.text]
  · exact shorter

theorem reads_double (begins : starts text)
    (split : text = (Mantissa.ofText text).text ++ (mark ++ power ++ rest))
    (read : exponent? (mark ++ power ++ rest) = some (mark, power)) (nonempty : power ≠ []) :
    Reads text ((Mantissa.ofText text).text ++ (mark ++ power)) rest .double := by
  refine .of_produces (by rwa [List.append_assoc])
    ((isMantissa_ofText begins).double (isExponent_of_found read nonempty))
    fun front kind produced inside => ?_
  rw [List.length_append]
  rcases produced.mantissa with ⟨isMantissa, -⟩ | ⟨-, mantissa, exponent, rfl, mantissas, power⟩
  · exact Nat.le_trans (isMantissa.within inside).length_le (Nat.le_add_right _ _)
  · obtain ⟨rfl, _, _, found, -, shorter⟩ := double_front begins split mantissas power inside
    rw [read] at found
    cases found
    rw [List.length_append]
    exact Nat.add_le_add_left shorter.length_le _

/-- What the scanner gives where a number begins, with the longest mantissa and the rest. -/
theorem scan_outcome (begins : starts text) :
    ∃ mantissa rest, text = mantissa ++ rest ∧ Text.Longest IsMantissa text mantissa ∧
      (Breaks rest ∧ (∃ width, scan text = .fault .exponent [] width) ∨
        ¬ Breaks rest ∧ ∃ kind lexeme last,
          scan text = .found (kind.token (String.ofList lexeme)) lexeme last ∧
            Reads text lexeme last kind) := by
  obtain ⟨rest, split⟩ := (Mantissa.ofText_valid text).2
  have split : text = (Mantissa.ofText text).text ++ rest := split.symm
  have behind : text.drop (Mantissa.ofText text).text.length = rest := by
    conv => lhs; rw [split]
    exact List.drop_left' (by rw [← split])
  refine ⟨_, rest, split, ⟨isMantissa_ofText begins, ⟨rest, split.symm⟩,
    fun _ isMantissa inside => (isMantissa.within inside).length_le⟩, ?_⟩
  unfold scan
  dsimp only
  rw [behind]
  cases read : exponent? rest with
  | none =>
    refine .inr ⟨by simp [breaks_iff, read], ?_⟩
    by_cases empty : (Mantissa.ofText text).fraction = []
    · have reads := reads_integer begins split read empty
      have nonempty := (digits_of_starts begins).resolve_right (· empty)
      exact ⟨_, _, _, by simp [empty, nonempty, Kind.token, reads.drop], reads⟩
    · have reads := reads_decimal begins split read empty
      exact ⟨_, _, _, by simp [empty, Kind.token], reads⟩
  | some parts =>
    obtain ⟨mark, power⟩ := parts
    dsimp only
    by_cases empty : power = []
    · exact .inl ⟨breaks_iff.mpr ⟨mark, empty ▸ read⟩, _, by rw [if_pos (by simp [empty])]⟩
    · have goesOn : ¬ Breaks rest := by simp [breaks_iff, read, empty]
      obtain ⟨-, ⟨last, rfl⟩, -⟩ := exponent?_found read
      have reads := reads_double begins split read empty
      have digits : ¬ ((Mantissa.ofText text).whole.isEmpty &&
          (Mantissa.ofText text).fraction.isEmpty) = true := by
        simpa [-not_and, Decidable.not_and_iff_not_or_not] using digits_of_starts begins
      rw [if_neg (by simpa using empty), if_neg digits]
      exact .inr ⟨goesOn, _, _, _, by rw [List.append_assoc, reads.drop]; rfl, reads⟩

end

end Number

/-! ### Faults of digits -/

/-- The faults that a number has no digits at all. -/
def Fault.lacksDigits : Fault → Bool
  | integer | double => true
  | _ => false

namespace Scan

/-- A fault of a scan is another one than that a number has no digits. -/
def HasDigits : Scan α → Prop
  | fault cause .. => cause.lacksDigits = false
  | found .. | unfinished => True

theorem HasDigits.build {make : α → List Char → β} {scan : Scan α} (has : scan.HasDigits) :
    (scan.build make).HasDigits := by
  cases scan <;> exact has

theorem HasDigits.map {change : α → β} {scan : Scan α} (has : scan.HasDigits) :
    (scan.map change).HasDigits := has.build

theorem HasDigits.after {scan : Scan α} (has : scan.HasDigits) : (scan.after front).HasDigits := by
  cases scan <;> exact has

theorem HasDigits.push {scan : Scan (List Char)} (has : scan.HasDigits) :
    (scan.push value front).HasDigits := has.map.after

end Scan

theorem IriRef.body_hasDigits (text : List Char) : (body text).HasDigits := by
  have escapes (text : List Char) : (escape text).HasDigits := by
    unfold escape codePoint
    repeat' split
    all_goals trivial
  fun_induction body text with
  | case1 | case2 | case5 => trivial
  | case3 _ _ _ _ _ _ ih | case7 _ _ _ _ _ ih => exact ih.after
  | case4 rest _ _ _ found =>
    have has := escapes rest
    rwa [found] at has
  | case6 => rfl

theorem Quote.scan_hasDigits (mark : Char) (text : List Char) : (scan mark text).HasDigits := by
  have short (text : List Char) : (short mark text).HasDigits := by
    fun_induction Quote.short mark text with
    | case1 | case2 | case3 => trivial
    | case4 _ _ _ ih | case6 _ _ _ _ _ ih => exact ih.after
    | case5 => rfl
  have long (text : List Char) : (long mark text).HasDigits := by
    fun_induction Quote.long mark text with
    | case1 | case2 | case4 => trivial
    | case3 _ _ ih | case5 _ _ _ _ ih => exact ih.after
  unfold scan
  split
  · exact (long _).map.after
  · exact (short _).map.after

namespace Name

theorem localPart_hasDigits (isFirst : Bool) (text : List Char) :
    (localPart isFirst text).HasDigits := by
  have percents (rest : List Char) : (percentFault rest).HasDigits := by
    unfold percentFault
    split <;> trivial
  fun_induction localPart isFirst text with
  | case1 | case5 | case9 | case10 | case12 | case13 => trivial
  | case2 _ _ _ _ _ ih | case6 _ _ _ _ _ ih | case8 _ _ _ _ _ _ ih => exact ih.push
  | case3 | case4 => exact percents _
  | case7 => rfl
  | case11 _ _ _ _ _ _ _ _ _ _ inner ih => rwa [inner] at ih

theorem scan_hasDigits (text : List Char) : (scan text).HasDigits := by
  unfold scan
  dsimp only
  split
  · split
    · rfl
    · exact (localPart_hasDigits true _).map.after
  · trivial

end Name

namespace Token

theorem scanAt_hasDigits (text : List Char) : (scanAt text).HasDigits := by
  cases text with
  | nil => trivial
  | cons c text =>
    have name := Name.scan_hasDigits (c :: text)
    rw [scanAt]
    split
    · trivial
    split
    · trivial
    · dsimp only
      split <;> trivial
    next fault => rwa [fault] at name
    · trivial

theorem scanName_hasDigits (c : Char) (text : List Char) : (scanName c text).HasDigits := by
  have name := Name.scan_hasDigits text
  unfold scanName
  split
  · trivial
  · split
    · rfl
    split
    · trivial
    · rfl
  next fault => rwa [fault] at name
  · trivial

theorem scanPlain_hasDigits (c : Char) (rest : List Char) : (scanPlain c rest).HasDigits := by
  unfold scanPlain
  dsimp only
  split
  · exact (IriRef.body_hasDigits rest).after.build
  split
  · refine Scan.HasDigits.map ?_
    unfold Name.blankNode
    repeat' split
    all_goals trivial
  split
  · exact (Quote.scan_hasDigits c rest).build
  split
  · exact scanAt_hasDigits rest
  split
  next begins =>
    -- The emptiness checks of the scanner are never reached where a number begins.
    obtain ⟨_, _, -, -, ⟨-, _, fault⟩ | ⟨-, _, _, _, found, -⟩⟩ := Number.scan_outcome begins
    · rw [fault]
      rfl
    · rw [found]
      trivial
  split
  · trivial
  · exact scanName_hasDigits c _

theorem braceScan_ne_fault : (Brace.scan bound kept place).1 ≠ .fault cause lead width := by
  simp only [Brace.scan]
  intro found
  repeat' split at found
  all_goals cases found

/-- No place of a text has the fault that a number has no digits. -/
theorem scan_hasDigits (bound : Nat) (kept : Brace.Delimiter) (place : Cursor) :
    (scan bound kept place).1.HasDigits := by
  cases first : place.rest with
  | nil =>
    rw [scan, first]
    trivial
  | cons c rest =>
    by_cases brace : c = '{'
    · subst brace
      rw [scan_brace bound kept first]
      cases read : (Brace.scan bound kept place).1 with
      | fault => exact absurd read braceScan_ne_fault
      | found | unfinished => trivial
    · rw [scan_plain bound kept brace first]
      exact scanPlain_hasDigits c rest

/-! ### Tokens -/

/-- A text that begins like a number is read as one. -/
theorem scan_number (bound : Nat) (kept : Brace.Delimiter) (begins : Number.starts place.rest) :
    (scan bound kept place).1 = Number.scan place.rest := by
  cases first : place.rest with
  | nil =>
    rw [first] at begins
    cases begins
  | cons c rest =>
    rw [first] at begins
    have numeric : Number.isSign c ∨ c.isDigit ∨ c = '.' := by
      by_cases signs : Number.isSign c
      · exact .inl signs
      · by_cases digit : c.isDigit
        · exact .inr (.inl digit)
        · simp [Number.starts, Number.sign, signs, Number.startsUnsigned, digit] at begins
          exact .inr (.inr begins.1)
    have apart (other : Char) (noNumber : (Number.isSign other || other.isDigit || other = '.') =
        false) : c ≠ other := by
      rintro rfl
      simp only [Bool.or_eq_false_iff, decide_eq_false_iff_not] at noNumber
      simp [noNumber] at numeric
    rw [scan_plain bound kept (apart '{' (by decide)) first, scanPlain,
      if_neg (apart '<' (by decide)), if_neg (apart '_' (by decide)),
      if_neg (by simp [apart '"' (by decide), apart '\'' (by decide)]),
      if_neg (apart '@' (by decide)), if_pos begins]

/-- Where a number begins, reading fails if and only if the longest mantissa is followed by the mark
of an exponent without digits. Otherwise the token is the longest front that is an integer, a
decimal or a double, and has the kind of the one production that the front belongs to. That a
number has no digits is no fault of any place. -/
theorem scan_number_longest (bound : Nat) (kept : Brace.Delimiter) (place : Cursor)
    (begins : Number.starts place.rest) :
    ((∀ token lexeme rest, (scan bound kept place).1 ≠ .found token lexeme rest) ↔
      ∃ mantissa rest, place.rest = mantissa ++ rest ∧
        Text.Longest Number.IsMantissa place.rest mantissa ∧ Number.Breaks rest) ∧
    ((∀ token lexeme rest, (scan bound kept place).1 ≠ .found token lexeme rest) →
      ∃ width, (scan bound kept place).1 = .fault .exponent [] width) ∧
    (∀ token lexeme rest, (scan bound kept place).1 = .found token lexeme rest →
      place.rest = lexeme ++ rest ∧ Text.Longest Number.IsNumeral place.rest lexeme ∧
        ∃ kind : Number.Kind, token = kind.token (String.ofList lexeme) ∧
          ∀ other, Number.Produces other lexeme ↔ other = kind) ∧
    ∀ bound' kept' place' lead width,
      (scan bound' kept' place').1 ≠ .fault .integer lead width ∧
      (scan bound' kept' place').1 ≠ .fault .double lead width := by
  have spared (bound : Nat) (kept : Brace.Delimiter) (place : Cursor) (cause : Fault)
      (lead : List Char) (width : Nat) (lacks : cause.lacksDigits = true) :
      (scan bound kept place).1 ≠ .fault cause lead width := by
    intro fault
    have has := scan_hasDigits bound kept place
    rw [fault] at has
    simp [Scan.HasDigits, lacks] at has
  have never (bound : Nat) (kept : Brace.Delimiter) (place : Cursor) (lead : List Char)
      (width : Nat) := And.intro (spared bound kept place .integer lead width rfl)
    (spared bound kept place .double lead width rfl)
  rw [scan_number bound kept begins]
  obtain ⟨mantissa, rest, split, longest, ⟨breaks, width, fault⟩ | ⟨goesOn, outcome⟩⟩ :=
    Number.scan_outcome begins
  · refine ⟨⟨fun _ => ⟨mantissa, rest, split, longest, breaks⟩, fun _ => ?_⟩,
      fun _ => ⟨width, fault⟩, fun token lexeme rest found => ?_, never⟩
    · rw [fault]
      exact nofun
    · rw [fault] at found
      cases found
  · obtain ⟨kind, lexeme, last, read, reads⟩ := outcome
    have isFound : ¬ ∀ token lexeme rest, Number.scan place.rest ≠ .found token lexeme rest :=
      fun none => none _ _ _ read
    refine ⟨⟨fun none => (isFound none).elim, ?_⟩, fun none => (isFound none).elim,
      fun token lexeme rest found => ?_, never⟩
    · rintro ⟨other, more, split', longest', breaks⟩
      -- The longest mantissa is unique, and so is what follows it.
      obtain rfl := longest'.unique longest
      obtain rfl := List.append_cancel_left (split'.symm.trans split)
      exact absurd breaks goesOn
    · rw [read] at found
      cases found
      exact ⟨reads.split, reads.longest, kind, rfl, reads.only⟩

/-- The dot after a number is left to the next token. -/
theorem scan_number_longest_dot : Number.starts "+7. ".toList ∧
    Text.Longest Number.IsNumeral "+7. ".toList "+7".toList :=
  ⟨by decide, ((scan_number_longest 0 .unknown ⟨0, "+7. ".toList⟩ (by decide)).2.2.1
    (.integer "+7") "+7".toList ". ".toList rfl).2.1⟩

end Token

end ShExCompact
