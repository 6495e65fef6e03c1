import ShExCompact.Proofs.Octets.Numbers

/-! What begins with an opening brace, among bytes. The delimiter that is kept is known by its
distance from the end of the bytes there and by its offset in the text; both mean the same place as
long as the bytes are those of a rest of the text. Main statement: the recognizer consumes what the
scan of the text does, and what both keep still means the same. -/
namespace ShExCompact.Octets

/-! ### Cardinalities -/

/-- What follows the least bound is measured as in the text. -/
theorem upperEnd_eq (front text : List Char) :
    upperEnd (Text.bytes (front ++ text)) (Text.width front) =
      .value (Text.width (front ++ Brace.upper text)) := by
  rw [upperEnd]
  by_cases comma : text.head? = some ','
  · obtain ⟨rest, rfl⟩ := List.head?_eq_some_iff.mp comma
    have behind : Text.width front + 1 = Text.width (front ++ [',']) :=
      (width_snoc front (by decide)).symm
    have split : front ++ ',' :: rest = front ++ [','] ++ rest := List.append_cons ..
    rw [if_pos ((peek_eq_iff front _ (by decide)).mpr comma), behind, split, Brace.upper,
      if_pos rfl]
    by_cases star : rest.head? = some '*'
    · have size : Text.width [',', '*'] = 2 := by decide
      rw [if_pos ((peek_eq_iff _ _ (by decide)).mpr star), if_pos star, Text.width_append front,
        size]
      rfl
    · rw [if_neg fun same => star ((peek_eq_iff _ _ (by decide)).mp same), if_neg star,
        suffix_bytes, Access.value_bind, countWhile_bytes isAscii_isDigit]
      dsimp only
      rw [← Text.width_append, List.append_assoc]
      rfl
  · rw [if_neg fun same => comma ((peek_eq_iff _ _ (by decide)).mp same)]
    cases text with
    | nil => rw [Brace.upper, List.append_nil]; rfl
    | cons c rest =>
      have other : c ≠ ',' := by simpa using comma
      rw [Brace.upper, if_neg other, List.append_nil]
      rfl

/-- The bounds of a cardinality are measured as in the text. -/
theorem rangeSize_eq (rest : List Char) : rangeSize (Text.bytes ('{' :: rest)) =
    .value ((Brace.bounds? rest).map fun front => Text.width ('{' :: front)) := by
  have behind : suffix (Text.bytes ('{' :: rest)) 1 = .value (Text.bytes rest) :=
    suffix_bytes ['{'] rest
  have split : rest.takeWhile Char.isDigit ++ rest.dropWhile Char.isDigit = rest :=
    List.takeWhile_append_dropWhile
  rw [rangeSize, behind, Access.value_bind, countWhile_bytes isAscii_isDigit, Brace.bounds?]
  dsimp only
  generalize rest.takeWhile Char.isDigit = least at *
  generalize rest.dropWhile Char.isDigit = after at *
  subst split
  rw [List.drop_left]
  by_cases none : least.isEmpty = true
  · rw [if_pos (width_eq_zero_iff_isEmpty.mpr none), if_pos none]
    rfl
  · obtain ⟨last, split⟩ := (Brace.isUpper_upper after).2
    have stop := upperEnd_eq ('{' :: least) after
    have size : '{'.utf8Size = 1 := by decide
    rw [Text.width_cons, size, List.cons_append] at stop
    rw [if_neg fun zero => none (width_eq_zero_iff_isEmpty.mp zero), if_neg none, stop,
      Access.value_bind]
    generalize Brace.upper after = upper at *
    subst split
    rw [← List.append_assoc, List.drop_left]
    have place := peek_eq_iff ('{' :: (least ++ upper)) last (a := '}') (by decide)
    simp only [List.append_assoc, List.cons_append] at place ⊢
    by_cases close : last.head? = some '}'
    · obtain ⟨rest, rfl⟩ := List.head?_eq_some_iff.mp close
      have stop : Text.width ('{' :: (least ++ upper)) + 1 =
          Text.width ('{' :: (least ++ (upper ++ ['}']))) := by
        rw [← width_snoc _ (show '}'.toNat < 128 by decide), List.cons_append, List.append_assoc]
      rw [if_pos (place.mpr close), stop]
      rfl
    · rw [if_neg (mt place.mp close)]
      cases last with
      | nil => rfl
      | cons c last =>
        have other : c ≠ '}' := by simpa using close
        simp [other]

/-! ### The delimiter that is kept -/

/-- A place of a text. -/
def IsPlace (whole : List Char) (place : Cursor) : Prop :=
  ∃ front, whole = front ++ place.rest ∧ place.offset = Text.width front

/-- The same is kept: the distance of a delimiter from the end of the text, and its place. -/
inductive Mirrors (whole : List Char) : Delimiter → Brace.Delimiter → Prop where
  | unknown : Mirrors whole .unknown .unknown
  | absent : Mirrors whole .absent .absent
  | found (isPlace : IsPlace whole place) (begins : place.rest = c :: rest)
      (delimiter : Brace.IsDelimiter c) :
      Mirrors whole (.fromEnd (Text.width place.rest)) (.found place)

/-- A search stops at the first delimiter, in the text and among its bytes. -/
theorem search_cases (offset : Nat) (text : List Char) :
    (∃ front c rest, text = front ++ c :: rest ∧ Brace.IsDelimiter c ∧
      Brace.search offset text = some ⟨offset + Text.width front, c :: rest⟩ ∧
      find (Text.bytes text) (fun c => c = '%' || c = '\\') = some (Text.width front)) ∨
    Brace.search offset text = none ∧
      find (Text.bytes text) (fun c => c = '%' || c = '\\') = none := by
  have ascii : IsAscii fun c => c = '%' || c = '\\' :=
    (isAscii_eq (by decide)).or (isAscii_eq (by decide))
  induction text generalizing offset with
  | nil => exact .inr ⟨rfl, rfl⟩
  | cons c text ih =>
    by_cases delimiter : (c = '%' || c = '\\') = true
    · refine .inl ⟨[], c, text, rfl, by simpa [Brace.IsDelimiter] using delimiter, ?_,
        find_first ascii delimiter text⟩
      rw [Brace.search, if_pos delimiter]
      rfl
    · have other : ∀ d ∈ [c], (d = '%' || d = '\\') = false :=
        List.forall_mem_singleton.mpr (by simpa using delimiter)
      have passed := find_over ascii other text
      rw [List.singleton_append] at passed
      rw [Brace.search, if_neg delimiter, passed]
      rcases ih (offset + c.utf8Size) with ⟨front, d, rest, rfl, isOne, found, same⟩ | ⟨none, same⟩
      · refine .inl ⟨c :: front, d, rest, rfl, isOne, ?_, ?_⟩
        · rw [found, Text.width_cons, Nat.add_assoc]
        · rw [same]
          rfl
      · exact .inr ⟨none, by rw [same]; rfl⟩

section Blocks

variable {before front text : List Char}

theorem isPlace_append (before front rest : List Char) :
    IsPlace (before ++ (front ++ rest)) ⟨Text.width (before ++ front), rest⟩ :=
  ⟨before ++ front, (List.append_assoc ..).symm, rfl⟩

/-- What a search for the next delimiter gives. -/
def FindsNext (before front text : List Char) (kept : Delimiter) (known : Brace.Delimiter) : Prop :=
  (∃ inner c rest, text = inner ++ c :: rest ∧ Brace.IsDelimiter c ∧
    Brace.next known ⟨Text.width (before ++ front), text⟩ =
      (some ⟨Text.width (before ++ (front ++ inner)), c :: rest⟩,
        .found ⟨Text.width (before ++ (front ++ inner)), c :: rest⟩) ∧
    nextDelimiter (Text.bytes (front ++ text)) kept (Text.width front) =
      .value (some (Text.width (front ++ inner)), .fromEnd (Text.width (c :: rest)))) ∨
  Brace.next known ⟨Text.width (before ++ front), text⟩ = (none, .absent) ∧
    nextDelimiter (Text.bytes (front ++ text)) kept (Text.width front) = .value (none, .absent)

theorem minus_width (front rest : List Char) :
    minus (Text.bytes (front ++ rest)).length (Text.width rest) = .value (Text.width front) := by
  rw [minus, Text.length_bytes, Text.width_append, if_pos (by omega), Nat.add_sub_cancel]

theorem minus_front (front rest : List Char) :
    minus (Text.bytes (front ++ rest)).length (Text.width front) = .value (Text.width rest) := by
  rw [minus, Text.length_bytes, Text.width_append, if_pos (by omega), Nat.add_sub_cancel_left]

/-- A new search, where what is kept does not help. -/
theorem findsNext_search
    (again : Brace.next known ⟨Text.width (before ++ front), text⟩ =
      Brace.searchAgain ⟨Text.width (before ++ front), text⟩)
    (searches : nextDelimiter (Text.bytes (front ++ text)) kept (Text.width front) =
      nextDelimiter.search (Text.bytes (front ++ text)) (Text.width front)) :
    FindsNext before front text kept known := by
  rw [FindsNext, again, searches, Brace.searchAgain, nextDelimiter.search, suffix_bytes,
    Access.value_bind]
  dsimp only
  rcases search_cases (Text.width (before ++ front)) text with
    ⟨inner, c, rest, rfl, delimiter, found, same⟩ | ⟨none, same⟩
  · rw [found, same]
    dsimp only
    refine .inl ⟨inner, c, rest, rfl, delimiter, ?_, ?_⟩
    · rw [← Text.width_append, List.append_assoc]
    · rw [← Text.width_append, ← List.append_assoc, minus_front]
      rfl
  · rw [none, same]
    exact .inr ⟨rfl, rfl⟩

/-- The next delimiter is the same in the text and among its bytes. -/
theorem findsNext (mirrors : Mirrors (before ++ (front ++ text)) kept known) :
    FindsNext before front text kept known := by
  have inside : Text.width front ≤ (Text.bytes (front ++ text)).length := by
    rw [Text.length_bytes, Text.width_append]
    exact Nat.le_add_right ..
  cases mirrors with
  | unknown => exact findsNext_search rfl (by rw [nextDelimiter, if_pos inside])
  | absent => exact .inr ⟨rfl, by rw [nextDelimiter, if_pos inside]; rfl⟩
  | @found place c rest isPlace begins delimiter =>
    obtain ⟨offset, last⟩ := place
    obtain ⟨all, split, size⟩ := isPlace
    dsimp only at begins split size
    subst begins size
    have total : Text.width (before ++ front) + Text.width text =
        Text.width all + Text.width (c :: rest) := by
      rw [← Text.width_append, ← Text.width_append, List.append_assoc, split]
    have left : (Text.bytes (front ++ text)).length - Text.width front = Text.width text := by
      rw [Text.length_bytes, Text.width_append, Nat.add_sub_cancel_left]
    by_cases ahead : Text.width (c :: rest) ≤ Text.width text
    · obtain ⟨inner, rfl, rfl⟩ : ∃ inner, all = before ++ front ++ inner ∧
          text = inner ++ c :: rest := by
        rw [← List.append_assoc] at split
        rcases List.append_eq_append_iff.mp split with ⟨inner, rfl, after⟩ | ⟨inner, same, after⟩
        · exact ⟨inner, rfl, after⟩
        · have none : inner = [] := by
            rw [after, Text.width_append] at ahead
            exact width_eq_zero.mp (by omega)
          subst none
          exact ⟨[], by simpa using same.symm, by simpa using after.symm⟩
      refine .inl ⟨inner, c, rest, rfl, delimiter, ?_, ?_⟩
      · rw [Brace.next, if_pos (by dsimp only; omega), List.append_assoc]
      · rw [nextDelimiter, if_pos inside, left, if_pos ahead, ← List.append_assoc, minus_width]
        rfl
    · refine findsNext_search ?_ ?_
      · rw [Brace.next, if_neg (by dsimp only; omega)]
      · rw [nextDelimiter, if_pos inside, left, if_neg ahead]

/-! ### Code blocks -/

/-- Digits are read from bytes where they are read from the text. -/
theorem digits_iff (front text : List Char) (count : Nat) :
    (∃ digits, range? (Text.bytes (front ++ text)) (Text.width front) (Text.width front + count) =
      some digits ∧ all digits Numeral.isHex = true) ↔ (Numeral.hex? count text).isSome = true := by
  rw [Brace.hex?_isSome, decide_eq_true_eq]
  constructor
  · rintro ⟨bytes, range, hex⟩
    rw [range?_take] at range
    cases cut : Text.cut count text with
    | short =>
      rw [if_neg (Nat.not_le.mpr (Text.lt_of_cut_short cut))] at range
      cases range
    | inside =>
      rw [if_pos (Text.cut_inside_le cut)] at range
      cases range
      rw [all_inside isAscii_isHex cut] at hex
      cases hex
    | exact digits rest =>
      obtain ⟨rfl, rfl⟩ := Text.cut_eq_exact.mp cut
      rw [if_pos (by rw [Text.width_append]; omega), Text.take_bytes] at range
      cases range
      rw [all_bytes isAscii_isHex] at hex
      have size := Brace.width_of_all_isHex hex
      rw [size, List.take_left]
      exact ⟨rfl, hex⟩
  · rintro ⟨size, hex⟩
    have width := Brace.width_of_all_isHex hex
    have range := range?_bytes front (text.take count) (text.drop count)
    rw [List.take_append_drop, width, size] at range
    exact ⟨_, range, by rwa [all_bytes isAscii_isHex]⟩

/-- The letters after a backslash are ASCII characters. -/
theorem digitCount?_firstByte (c : Char) : digitCount? (Text.firstByte c) = digitCount? c := by
  simp only [digitCount?, firstByte_eq_iff (a := '%') (by decide),
    firstByte_eq_iff (a := '\\') (by decide), firstByte_eq_iff (a := 'u') (by decide),
    firstByte_eq_iff (a := 'U') (by decide)]

theorem narrow_of_digitCount? (known : digitCount? c = some count) : c.toNat < 128 := by
  unfold digitCount? at known
  split at known
  case isTrue sign =>
    rcases (Bool.or_eq_true _ _).mp sign with same | same <;> cases of_decide_eq_true same <;>
      decide
  case isFalse =>
    split at known
    case isTrue same => cases same; decide
    case isFalse =>
      split at known
      case isTrue same => cases same; decide
      case isFalse => cases known

/-- A percent sign ends a code block if a closing brace follows it. -/
theorem step_percent (offset : Nat) (rest : List Char) : Brace.step ⟨offset, '%' :: rest⟩ =
    if rest.head? = some '}' then .ends ⟨offset + 2, rest.tail⟩ else .breaks := by
  cases rest with
  | nil => rfl
  | cons d more => by_cases brace : d = '}' <;> simp [Brace.step, brace]

/-- A backslash begins an escape with so many digits, or no escape. -/
theorem step_backslash (offset : Nat) (d : Char) (more : List Char) :
    Brace.step ⟨offset, '\\' :: d :: more⟩ =
      ((digitCount? d).filter fun count => (Numeral.hex? count more).isSome).elim .breaks
        fun count => .goesOn ⟨offset + 2 + count, more.drop count⟩ := by
  rw [Brace.step, digitCount?]
  simp only [Char.reduceEq, ↓reduceIte]
  by_cases sign : (d = '%' || d = '\\') = true
  · rw [if_pos sign, if_pos sign]
    rfl
  · rw [if_neg sign, if_neg sign]
    by_cases short : d = 'u'
    · cases hex : (Numeral.hex? 4 more).isSome <;> simp [short, hex, Option.filter_some]
    · by_cases long : d = 'U'
      · cases hex : (Numeral.hex? 8 more).isSome <;> simp [long, hex, Option.filter_some]
      · simp [short, long]

/-- A code block ends at the same place, in the text and among its bytes, or at none. -/
inductive Ends (before front text : List Char) : Option Nat → Option Cursor → Prop where
  | nowhere : Ends before front text none none
  | here (split : text = block ++ rest) : Ends before front text
      (some (Text.width (front ++ block))) (some ⟨Text.width (before ++ (front ++ block)), rest⟩)

theorem Ends.later {inner : List Char} (ends : Ends before (front ++ inner) text size place) :
    Ends before front (inner ++ text) size place := by
  cases ends with
  | nowhere => exact .nowhere
  | @here block rest split =>
    subst split
    rw [List.append_assoc front]
    exact .here (List.append_assoc ..).symm

/-- What is read of a code block among bytes is what is read of the text. -/
def Measures (before front text : List Char) (look : Access (Option Nat × Delimiter))
    (scanned : Option Cursor × Brace.Delimiter) : Prop :=
  ∃ size kept, look = .value (size, kept) ∧ Ends before front text size scanned.1 ∧
    Mirrors (before ++ (front ++ text)) kept scanned.2

theorem Measures.nowhere (mirrors : Mirrors (before ++ (front ++ text)) kept known) :
    Measures before front text (.value (none, kept)) (none, known) :=
  ⟨none, kept, rfl, .nowhere, mirrors⟩

theorem Measures.later {inner : List Char}
    (measures : Measures before (front ++ inner) text look scanned) :
    Measures before front (inner ++ text) look scanned := by
  obtain ⟨size, kept, look, ends, mirrors⟩ := measures
  rw [List.append_assoc front] at mirrors
  exact ⟨size, kept, look, ends.later, mirrors⟩

theorem measures_percent (offset : Nat) {inner rest : List Char}
    (later : Mirrors (before ++ (front ++ (inner ++ '%' :: rest))) kept known)
    (place : offset = Text.width (before ++ (front ++ inner))) :
    Measures before front (inner ++ '%' :: rest)
      (.value (if peek (Text.bytes rest) 0 = some '}' then some (Text.width (front ++ inner) + 2)
        else none, kept))
      (if rest.head? = some '}' then (some ⟨offset + 2, rest.tail⟩, known) else (none, known)) := by
  have first := peek_eq_iff [] rest (a := '}') (by decide)
  rw [List.nil_append, Text.width_nil] at first
  by_cases brace : rest.head? = some '}'
  · obtain ⟨more, rfl⟩ := List.head?_eq_some_iff.mp brace
    have close : Text.width ['%', '}'] = 2 := by decide
    have size : Text.width (front ++ inner) + 2 = Text.width (front ++ (inner ++ ['%', '}'])) := by
      rw [← List.append_assoc, Text.width_append _ ['%', '}'], close]
    have stop : offset + 2 = Text.width (before ++ (front ++ (inner ++ ['%', '}']))) := by
      rw [Text.width_append, ← size, place, Text.width_append before, Nat.add_assoc]
    rw [if_pos (first.mpr brace), if_pos brace, size, stop]
    exact ⟨_, kept, rfl, .here (by simp), later⟩
  · rw [if_neg (mt first.mp brace), if_neg brace]
    exact .nowhere later

/-- The digits after a letter, among bytes and in the text. -/
theorem digits_after (letter : digitCount? d = some count) (front more : List Char) :
    (∃ digits, range? (Text.bytes (front ++ '\\' :: d :: more)) (Text.width front + 2)
      (Text.width front + 2 + count) = some digits ∧ all digits Numeral.isHex = true) ↔
    (Numeral.hex? count more).isSome = true := by
  have place : Text.width (front ++ ['\\', d]) = Text.width front + 2 := by
    rw [Text.width_append, width_of_ascii ['\\', d] (by simp [narrow_of_digitCount? letter])]
    rfl
  have digits := digits_iff (front ++ ['\\', d]) more count
  rwa [place, List.append_assoc] at digits

/-- A code block goes on behind an escape. -/
theorem behind_escape (goes : Brace.step ⟨Text.width (before ++ front), '\\' :: text⟩ =
      .goesOn ⟨Text.width (before ++ front) + 2 + count, last⟩) :
    ∃ escape, '\\' :: text = escape ++ last ∧ escape ≠ [] ∧
      Text.width front + 2 + count = Text.width (front ++ escape) ∧
      Text.width (before ++ front) + 2 + count = Text.width (before ++ (front ++ escape)) := by
  obtain ⟨escape, isEscape, split, moved⟩ := Brace.step_goesOn (.inr rfl) goes
  have positive := isEscape.width_pos
  dsimp only at moved
  refine ⟨escape, split, ?_, ?_, ?_⟩
  · rintro rfl
    exact absurd positive (Nat.lt_irrefl 0)
  · rw [Text.width_append]
    omega
  · rw [moved, ← Text.width_append, List.append_assoc]

/-- The rest of a code block is measured as in the text. -/
theorem codeSize_measures (mirrors : Mirrors (before ++ (front ++ text)) kept known)
    (enough : Text.width text < rounds) (enough' : text.length < bound) :
    Measures before front text
      (codeSize (Text.bytes (front ++ text)) rounds kept (Text.width front))
      (Brace.codeEnd bound known ⟨Text.width (before ++ front), text⟩) := by
  induction rounds generalizing front text kept known bound with
  | zero => exact absurd enough (Nat.not_lt_zero _)
  | succ rounds ih =>
    obtain ⟨bound, rfl⟩ := Nat.exists_eq_add_one_of_ne_zero (Nat.ne_zero_of_lt enough')
    rw [codeSize, Brace.codeEnd]
    rcases findsNext mirrors with ⟨inner, c, rest, rfl, delimiter, found, same⟩ | ⟨none, same⟩
    · have narrow : c.toNat < 128 := by rcases delimiter with rfl | rfl <;> decide
      have here : peek (Text.bytes (front ++ (inner ++ c :: rest))) (Text.width (front ++ inner)) =
          some c := by
        rw [← List.append_assoc, peek_here, peek_first, firstByte_of_ascii narrow]
      have next : peek (Text.bytes (front ++ (inner ++ c :: rest)))
          (Text.width (front ++ inner) + 1) = peek (Text.bytes rest) 0 := by
        rw [← List.append_assoc, peek_after _ _ narrow]
      have later : Mirrors (before ++ (front ++ (inner ++ c :: rest)))
          (.fromEnd (Text.width (c :: rest)))
          (.found ⟨Text.width (before ++ (front ++ inner)), c :: rest⟩) := by
        have isPlace := isPlace_append before (front ++ inner) (c :: rest)
        rw [List.append_assoc front] at isPlace
        exact .found isPlace rfl delimiter
      rw [found, same, Access.value_bind]
      dsimp only
      rw [here, Access.sure_some, Access.value_bind, next]
      rcases delimiter with rfl | rfl
      · have measures := measures_percent _ later rfl
        rw [if_pos rfl, step_percent]
        by_cases brace : rest.head? = some '}'
        · rw [if_pos brace] at measures ⊢
          exact measures
        · rw [if_neg brace] at measures ⊢
          exact measures
      · rw [if_neg (by decide)]
        cases rest with
        | nil => exact .nowhere later
        | cons d more =>
          have step := step_backslash (Text.width (before ++ (front ++ inner))) d more
          rw [peek_first, Option.bind_some, digitCount?_firstByte]
          cases letter : digitCount? d with
          | none =>
            rw [letter] at step
            rw [step]
            exact .nowhere later
          | some count =>
            have digits := digits_after letter (front ++ inner) more
            rw [List.append_assoc] at digits
            rw [letter, Option.filter_some] at step
            dsimp only
            by_cases hex : (Numeral.hex? count more).isSome = true
            · obtain ⟨bytes, range, each⟩ := digits.mpr hex
              rw [if_pos hex, Option.elim_some] at step
              obtain ⟨escape, split, nonempty, size, stop⟩ := behind_escape step
              rw [range, step]
              dsimp only
              rw [if_pos each, size, stop]
              generalize more.drop count = last at *
              generalize '\\' :: d :: more = text at *
              subst split
              have positive := TokenSequence.width_pos nonempty
              have longer := List.length_pos_iff.mpr nonempty
              simp only [Text.width_append, List.length_append] at enough enough'
              rw [List.append_assoc front inner, ← List.append_assoc inner,
                ← List.append_assoc front (inner ++ escape)]
              rw [← List.append_assoc inner, ← List.append_assoc front] at later
              exact (ih later (by omega) (by omega)).later
            · rw [if_neg hex] at step
              rw [step]
              cases range : range? (Text.bytes (front ++ (inner ++ '\\' :: d :: more)))
                (Text.width (front ++ inner) + 2) (Text.width (front ++ inner) + 2 + count) with
              | none => exact .nowhere later
              | some bytes =>
                dsimp only
                rw [if_neg fun each => hex (digits.mp ⟨bytes, range, each⟩)]
                exact .nowhere later
    · rw [none, same]
      exact .nowhere .absent

/-! ### Outcomes -/

/-- What begins with a brace is read as in the text, and what is kept after it is the same. -/
theorem brace_eq {rest : List Char} (mirrors : Mirrors (before ++ '{' :: rest) kept known)
    (enough : rest.length < bound) : ∃ found kept',
      brace (Text.bytes ('{' :: rest)) kept = .value (found, kept') ∧
        (Brace.scan bound known ⟨Text.width before, '{' :: rest⟩).1.sizes 0 = .value found ∧
        Mirrors (before ++ '{' :: rest) kept'
          (Brace.scan bound known ⟨Text.width before, '{' :: rest⟩).2 := by
  rw [brace, rangeSize_eq, Access.value_bind, Brace.scan]
  dsimp only [List.tail_cons]
  cases bounds : Brace.bounds? rest with
  | some front =>
    obtain ⟨⟨last, rfl⟩, -⟩ := Brace.isRange_of_bounds? bounds
    dsimp only [Option.map_some]
    rw [← List.cons_append, spell_front, Access.value_bind]
    exact ⟨_, kept, rfl, rfl, mirrors⟩
  | none =>
    have opening : Text.width ['{'] = 1 := by decide
    have behind : Text.width (before ++ ['{']) = Text.width before + 1 := width_snoc _ (by decide)
    have mirrors' : Mirrors (before ++ (['{'] ++ rest)) kept known := mirrors
    obtain ⟨size, kept', look, ends, later⟩ :=
      codeSize_measures mirrors' (lt_limit ['{'] rest) enough
    rw [opening, List.singleton_append] at look
    rw [behind] at ends later
    dsimp only [Option.map_none]
    rw [look, Access.value_bind]
    generalize Brace.codeEnd bound known ⟨Text.width before + 1, rest⟩ = scanned at *
    obtain ⟨place, known'⟩ := scanned
    cases ends with
    | nowhere => exact ⟨_, kept', rfl, rfl, later⟩
    | @here block last split =>
      subst split
      dsimp only [List.singleton_append] at later ⊢
      have size : Text.width (before ++ '{' :: block) - Text.width before =
          Text.width ('{' :: block) := by
        rw [Text.width_append, Nat.add_sub_cancel_left]
      rw [size, ← List.cons_append, Text.cut_append, spell_front, Access.value_bind]
      exact ⟨_, kept', rfl, rfl, later⟩

end Blocks

end ShExCompact.Octets
