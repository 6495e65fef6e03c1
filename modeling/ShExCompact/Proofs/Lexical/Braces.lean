import ShExCompact.Token.Sequence

/-! What an opening brace begins, as a function of the text after it alone: the classes of the
bounds of a cardinality and of code blocks, and the delimiter that is kept between two braces. Main
statement: `scan` gives the outcome that the two classes determine, whatever is kept. -/
namespace ShExCompact.Brace

/-- One or more decimal digits. -/
def IsNumber (digits : List Char) : Prop := digits ≠ [] ∧ ∀ c ∈ digits, c.isDigit

/-- What may follow the least bound: nothing, a comma, or a comma and a star or number. -/
inductive IsUpper : List Char → Prop where
  | absent : IsUpper []
  | unbounded : IsUpper [',']
  | star : IsUpper [',', '*']
  | number (digits : IsNumber greatest) : IsUpper (',' :: greatest)

/-- The bounds of a cardinality between their braces. -/
inductive IsRange : List Char → Prop where
  | bounds (least : IsNumber digits) (greatest : IsUpper more) :
      IsRange ('{' :: (digits ++ (more ++ ['}'])))

/-- Escapes of a code block: of a percent sign, a backslash, or a code point. -/
inductive IsEscape : List Char → Prop where
  | percent : IsEscape ['\\', '%']
  | backslash : IsEscape ['\\', '\\']
  | short (size : digits.length = 4) (hex : digits.all Numeral.isHex) :
      IsEscape ('\\' :: 'u' :: digits)
  | long (size : digits.length = 8) (hex : digits.all Numeral.isHex) :
      IsEscape ('\\' :: 'U' :: digits)

/-- The characters that are looked for inside of a code block. -/
def IsDelimiter (c : Char) : Prop := c = '%' ∨ c = '\\'

instance : DecidablePred IsDelimiter := fun c => inferInstanceAs (Decidable (c = '%' ∨ c = '\\'))

/-- A code block after its opening brace. -/
inductive IsContent : List Char → Prop where
  | close : IsContent ['%', '}']
  | plain (other : ¬ IsDelimiter c) (rest : IsContent content) : IsContent (c :: content)
  | escape (escaped : IsEscape front) (rest : IsContent content) : IsContent (front ++ content)

/-- A code block from its opening brace on. -/
inductive IsCode : List Char → Prop where
  | block (content : IsContent text) : IsCode ('{' :: text)

/-- What an opening brace begins: bounds if there are some, else a code block if there is one, else
the brace alone. -/
inductive Begins : List Char → Scan Token → Prop where
  | range (range : IsRange lexeme) :
      Begins (lexeme ++ rest) (.found (.repeatRange (String.ofList lexeme)) lexeme rest)
  | code (noRange : ∀ front, IsRange front → ¬ front <+: lexeme ++ rest) (code : IsCode lexeme) :
      Begins (lexeme ++ rest) (.found (.code (String.ofList lexeme)) lexeme rest)
  | sign (noRange : ∀ front, IsRange front → ¬ front <+: '{' :: rest)
      (noCode : ∀ front, IsCode front → ¬ front <+: '{' :: rest) :
      Begins ('{' :: rest) (.found (.punct .openBrace) ['{'] rest)

/-! ### Bounds -/

/-- The longest run of a class is a front all of whose characters are in it, if the text goes on
with a character that is not. -/
theorem takeWhile_front {p : α → Bool} {front rest : List α} (inside : ∀ c ∈ front, p c)
    (stop : ∀ c ∈ rest.head?, ¬ p c) : (front ++ rest).takeWhile p = front := by
  rw [List.takeWhile_append_of_pos inside]
  cases rest with
  | nil => simp
  | cons c rest =>
    have other := stop c (by simp)
    simp [other]

theorem takeWhile_eq_self {p : α → Bool} {text : List α} (inside : ∀ c ∈ text, p c) :
    text.takeWhile p = text := by
  have whole : (text ++ []).takeWhile p = text := takeWhile_front inside (by simp)
  rwa [List.append_nil] at whole

theorem mem_takeWhile {p : α → Bool} {text : List α} (member : c ∈ text.takeWhile p) : p c :=
  List.all_eq_true.mp List.all_takeWhile c member

theorem bounds?_of_isUpper (least : IsNumber digits) (greatest : IsUpper more) :
    bounds? (digits ++ (more ++ '}' :: rest)) = some (digits ++ (more ++ ['}'])) := by
  have stop : ∀ c ∈ (more ++ '}' :: rest).head?, ¬ c.isDigit := by
    intro c member
    cases greatest <;> cases member <;> decide
  have first := takeWhile_front least.2 stop
  have nonempty := least.1
  cases greatest with
  | absent => simp_all [bounds?, upper]
  | unbounded => simp_all [bounds?, upper]
  | star => simp_all [bounds?, upper]
  | @number greatest number =>
    have second : (greatest ++ '}' :: rest).takeWhile Char.isDigit = greatest :=
      takeWhile_front number.2 (by simp)
    have starless : (greatest ++ '}' :: rest).head? ≠ some '*' := by
      cases greatest with
      | nil => exact absurd rfl number.1
      | cons c _ =>
        intro star
        have isStar : c = '*' := by simpa using star
        have digit := number.2 c (by simp)
        subst isStar
        exact absurd digit (by decide)
    simp_all [bounds?, upper]

theorem isUpper_upper (text : List Char) : IsUpper (upper text) ∧ upper text <+: text := by
  unfold upper
  split
  case h_1 => exact ⟨.absent, List.prefix_rfl⟩
  case h_2 c rest =>
    split
    case isFalse => exact ⟨.absent, List.nil_prefix⟩
    case isTrue comma =>
      subst comma
      split
      case isTrue star =>
        obtain ⟨more, rfl⟩ := List.head?_eq_some_iff.mp star
        exact ⟨.star, more, rfl⟩
      case isFalse =>
        refine ⟨?_, List.cons_prefix_cons.mpr ⟨rfl, List.takeWhile_prefix _⟩⟩
        by_cases none : rest.takeWhile Char.isDigit = []
        · rw [none]
          exact .unbounded
        · exact .number ⟨none, fun _ member => mem_takeWhile member⟩

theorem isRange_of_bounds? (read : bounds? text = some front) :
    front <+: text ∧ IsRange ('{' :: front) := by
  have number := fun (some : text.takeWhile Char.isDigit ≠ []) =>
    (⟨some, fun _ member => mem_takeWhile member⟩ : IsNumber (text.takeWhile Char.isDigit))
  obtain ⟨after, whole⟩ := List.takeWhile_prefix (l := text) Char.isDigit
  obtain ⟨isUpper, last, split⟩ := isUpper_upper after
  simp only [bounds?] at read
  generalize text.takeWhile Char.isDigit = digits at *
  subst whole
  rw [List.drop_left] at read
  split at read
  case isTrue => simp at read
  case isFalse nonempty =>
    generalize upper after = greatest at *
    subst split
    rw [← List.append_assoc, List.drop_left] at read
    cases last with
    | nil => simp at read
    | cons c rest =>
      by_cases close : c = '}'
      · subst close
        simp only [↓reduceIte, Option.some.injEq] at read
        subst read
        refine ⟨⟨rest, by simp⟩, ?_⟩
        rw [List.append_assoc]
        exact .bounds (number (by simpa using nonempty)) isUpper
      · simp [close] at read

/-! ### Escape chains -/

/-- What is found when the text after a place is read up to some delimiter of it, or to the end,
and every delimiter before that one begins an escape. -/
inductive Leads : Cursor → Option Cursor → Prop where
  | finished : Leads ⟨offset, []⟩ none
  | here (delimiter : IsDelimiter c) : Leads ⟨offset, c :: rest⟩ (some ⟨offset, c :: rest⟩)
  | past (other : ¬ IsDelimiter c) (later : Leads ⟨offset + c.utf8Size, rest⟩ found) :
      Leads ⟨offset, c :: rest⟩ found
  | escape (escaped : IsEscape front) (later : Leads ⟨offset + Text.width front, rest⟩ found) :
      Leads ⟨offset, front ++ rest⟩ found

/-- Where a code block ends whose content is read up to a delimiter. -/
def close? (found : Option Cursor) : Option Cursor :=
  match found.map step with
  | some (.ends tail) => some tail
  | _ => none

/-- The delimiter begins no escape. -/
def IsLast (found : Option Cursor) : Prop := ∀ place ∈ found, ∀ tail, step place ≠ .goesOn tail

/-- What is kept after a search. -/
def keep : Option Cursor → Delimiter
  | some place => .found place
  | none => .absent

theorem hex?_isSome (count : Nat) (text : List Char) :
    (Numeral.hex? count text).isSome =
      decide ((text.take count).length = count ∧ (text.take count).all Numeral.isHex) := by
  unfold Numeral.hex?
  dsimp only
  split <;> simp_all

theorem utf8Size_of_isHex (hex : Numeral.isHex c) : c.utf8Size = 1 := by
  rw [Char.utf8Size_eq_one_iff]
  simp only [Numeral.isHex, Char.isDigit, Bool.or_eq_true, Bool.and_eq_true, decide_eq_true_eq,
    Char.le_def, UInt32.le_iff_toNat_le] at hex ⊢
  have values : '0'.val.toNat = 48 ∧ '9'.val.toNat = 57 ∧ 'a'.val.toNat = 97 ∧
    'f'.val.toNat = 102 ∧ 'A'.val.toNat = 65 ∧ 'F'.val.toNat = 70 ∧ (127 : UInt32).toNat = 127 := by
    decide
  grind

theorem width_of_all_isHex (hex : digits.all Numeral.isHex) :
    Text.width digits = digits.length := by
  induction digits with
  | nil => rfl
  | cons c digits ih =>
    obtain ⟨first, others⟩ := List.all_cons.symm.trans hex |> Bool.and_eq_true_iff.mp
    simp only [Text.width_cons, utf8Size_of_isHex first, ih others, List.length_cons]
    omega

theorem step_goesOn (delimiter : IsDelimiter c) (goes : step ⟨offset, c :: rest⟩ = .goesOn tail) :
    ∃ front, IsEscape front ∧ c :: rest = front ++ tail.rest ∧
      tail.offset = offset + Text.width front := by
  have digits (count : Nat) (more : List Char) (some : (Numeral.hex? count more).isSome) :
      (more.take count).length = count ∧ (more.take count).all Numeral.isHex := by
    simpa only [hex?_isSome, decide_eq_true_eq] using some
  cases rest with
  | nil => simp [step] at goes
  | cons d more =>
    rcases delimiter with rfl | rfl
    · simp only [step, ↓reduceIte] at goes
      split at goes <;> cases goes
    · simp only [step, Char.reduceEq, ↓reduceIte] at goes
      split at goes
      case isTrue sign =>
        cases goes
        rcases (Bool.or_eq_true _ _).mp sign with percent | backslash
        · cases of_decide_eq_true percent
          exact ⟨_, .percent, rfl, rfl⟩
        · cases of_decide_eq_true backslash
          exact ⟨_, .backslash, rfl, rfl⟩
      case isFalse =>
        split at goes
        case isTrue short =>
          cases goes
          obtain ⟨letter, code⟩ := (Bool.and_eq_true _ _).mp short
          obtain ⟨size, hex⟩ := digits 4 more code
          cases of_decide_eq_true letter
          refine ⟨_, .short size hex, by simp, ?_⟩
          simp [width_of_all_isHex hex, size, Char.utf8Size]
        case isFalse =>
          split at goes
          case isTrue long =>
            cases goes
            obtain ⟨letter, code⟩ := (Bool.and_eq_true _ _).mp long
            obtain ⟨size, hex⟩ := digits 8 more code
            cases of_decide_eq_true letter
            refine ⟨_, .long size hex, by simp, ?_⟩
            simp [width_of_all_isHex hex, size, Char.utf8Size]
          case isFalse => cases goes

theorem step_escape (escaped : IsEscape front) :
    step ⟨offset, front ++ rest⟩ = .goesOn ⟨offset + Text.width front, rest⟩ := by
  have hex? (count : Nat) (digits : List Char) (size : digits.length = count)
      (hex : digits.all Numeral.isHex) : (Numeral.hex? count (digits ++ rest)).isSome := by
    rw [hex?_isSome, List.take_append_of_le_length (by omega), ← size, List.take_length]
    simpa using hex
  cases escaped with
  | percent => rfl
  | backslash => rfl
  | @short digits size hex =>
    have found := hex? 4 digits size hex
    have width := width_of_all_isHex hex
    have drop : (digits ++ rest).drop 4 = rest := by rw [← size, List.drop_left]
    simp [step, found, width, size, drop, Char.utf8Size]
  | @long digits size hex =>
    have found := hex? 8 digits size hex
    have width := width_of_all_isHex hex
    have drop : (digits ++ rest).drop 8 = rest := by rw [← size, List.drop_left]
    simp [step, found, width, size, drop, Char.utf8Size]

theorem IsEscape.braceless (escaped : IsEscape front) : '{' ∉ front := by
  have hexless (digits : List Char) (hex : digits.all Numeral.isHex) : '{' ∉ digits := by
    intro member
    exact absurd (List.all_eq_true.mp hex _ member) (by decide)
  cases escaped with
  | percent | backslash => decide
  | short _ hex | long _ hex => simpa using hexless _ hex

theorem IsEscape.head (escaped : IsEscape front) : ∃ more, front = '\\' :: more := by
  cases escaped <;> exact ⟨_, rfl⟩

theorem step_ends (delimiter : IsDelimiter c) (ends : step ⟨offset, c :: rest⟩ = .ends tail) :
    c :: rest = '%' :: '}' :: tail.rest ∧ tail.offset = offset + 2 := by
  cases rest with
  | nil => simp [step] at ends
  | cons d more =>
    rcases delimiter with rfl | rfl
    · simp only [step, ↓reduceIte] at ends
      split at ends
      case isTrue brace =>
        cases ends
        exact ⟨by rw [brace], rfl⟩
      case isFalse => cases ends
    · simp only [step, Char.reduceEq, ↓reduceIte] at ends
      repeat' split at ends
      all_goals cases ends

theorem Leads.delimiter (leads : Leads place (some found)) :
    ∃ c rest, found.rest = c :: rest ∧ IsDelimiter c := by
  generalize same : some found = target at leads
  induction leads with
  | finished => cases same
  | here delimiter =>
    cases same
    exact ⟨_, _, rfl, delimiter⟩
  | past _ _ ih | escape _ _ ih => exact ih same

/-- A chain goes on after an escape that it leads to. -/
theorem Leads.trans (leads : Leads place (some found)) (goes : step found = .goesOn tail)
    (later : Leads tail last) : Leads place last := by
  generalize same : some found = target at leads
  induction leads with
  | finished => cases same
  | here delimiter =>
    cases same
    obtain ⟨front, escaped, whole, offset⟩ := step_goesOn delimiter goes
    rw [whole]
    refine .escape escaped ?_
    rwa [← offset]
  | past other _ ih => exact .past other (ih same)
  | escape escaped _ ih => exact .escape escaped (ih same)

/-- There is one last delimiter. -/
theorem Leads.unique (first : Leads place found) (last : IsLast found) (second : Leads place other)
    (otherLast : IsLast other) : found = other := by
  induction first with
  | finished =>
    generalize same : (⟨_, []⟩ : Cursor) = start at second
    cases second with
    | finished => rfl
    | here | past => cases same
    | escape escaped =>
      obtain ⟨more, rfl⟩ := escaped.head
      cases same
  | @here c offset rest delimiter =>
    generalize same : (⟨offset, c :: rest⟩ : Cursor) = start at second
    cases second with
    | finished => cases same
    | here => rfl
    | past plain =>
      cases same
      exact absurd delimiter plain
    | @escape front offset rest _ escaped =>
      exact absurd (step_escape escaped) (last ⟨offset, front ++ rest⟩ (congrArg some same) _)
  | @past c offset rest found plain _ ih =>
    generalize same : (⟨offset, c :: rest⟩ : Cursor) = start at second
    cases second with
    | finished => cases same
    | here delimiter =>
      cases same
      exact absurd delimiter plain
    | past _ later =>
      cases same
      exact ih last later
    | escape escaped =>
      obtain ⟨more, rfl⟩ := escaped.head
      cases same
      exact absurd (.inr rfl) plain
  | @escape front offset rest found escaped _ ih =>
    generalize same : (⟨offset, front ++ rest⟩ : Cursor) = start at second
    have goes : step start = .goesOn ⟨offset + Text.width front, rest⟩ :=
      same ▸ step_escape escaped
    cases second with
    | finished =>
      obtain ⟨more, rfl⟩ := escaped.head
      cases same
    | here => exact absurd goes (otherLast _ rfl _)
    | past plain =>
      obtain ⟨more, rfl⟩ := escaped.head
      cases same
      exact absurd (.inr rfl) plain
    | escape escaped' later =>
      rw [step_escape escaped', Step.goesOn.injEq] at goes
      exact ih last (goes ▸ later)

/-- A chain leads from every brace on the way to the same delimiter: no escape holds a brace. -/
theorem Leads.brace (leads : Leads place found) (whole : place.rest = front ++ '{' :: after)
    (before : ∀ last ∈ found, place.offset + Text.width front + 1 ≤ last.offset) :
    Leads ⟨place.offset + Text.width front + 1, after⟩ found := by
  induction leads generalizing front with
  | finished => simp at whole
  | here =>
    have ahead := before _ rfl
    simp only at ahead
    omega
  | @past c offset rest found other later ih =>
    cases front with
    | nil =>
      obtain ⟨rfl, rfl⟩ := List.cons.inj whole
      exact later
    | cons d front =>
      obtain ⟨rfl, split⟩ := List.cons.inj whole
      have next := ih split (by simpa [Nat.add_assoc] using before)
      simpa [Nat.add_assoc] using next
  | @escape escaped offset rest found isEscape later ih =>
    obtain ⟨front', rfl, split⟩ : ∃ front', front = escaped ++ front' ∧
        rest = front' ++ '{' :: after := by
      rcases List.append_eq_append_iff.mp whole with ⟨more, rfl, split⟩ | ⟨more, inside, split⟩
      · exact ⟨more, rfl, split⟩
      · cases more with
        | nil => exact ⟨[], by simpa using inside.symm, by simpa using split.symm⟩
        | cons c more =>
          obtain ⟨rfl, -⟩ := List.cons.inj split
          exact absurd (by simp [inside]) isEscape.braceless
    have next := ih split (by simpa [Nat.add_assoc] using before)
    simpa [Nat.add_assoc] using next

/-- What is read up to the end of a code block is its content. -/
theorem Leads.content (leads : Leads place found) (closes : close? found = some tail) :
    ∃ content, IsContent content ∧ place.rest = content ++ tail.rest ∧
      tail.offset = place.offset + Text.width content := by
  induction leads with
  | finished => simp [close?] at closes
  | @here c offset rest delimiter =>
    unfold close? at closes
    split at closes
    case h_1 ends =>
      cases closes
      obtain ⟨whole, offset⟩ := step_ends delimiter (Option.some.inj ends)
      exact ⟨_, .close, whole, offset⟩
    case h_2 => cases closes
  | past other _ ih =>
    obtain ⟨content, isContent, whole, offset⟩ := ih closes
    refine ⟨_ :: content, .plain other isContent, by simpa using whole, ?_⟩
    simpa [Nat.add_assoc] using offset
  | escape escaped _ ih =>
    obtain ⟨content, isContent, whole, offset⟩ := ih closes
    refine ⟨_ ++ content, .escape escaped isContent, by simpa using whole, ?_⟩
    simpa [Nat.add_assoc] using offset

/-- Content leads to the percent sign at its end. -/
theorem IsContent.leads (content : IsContent text) (offset : Nat) (rest : List Char) :
    ∃ found, Leads ⟨offset, text ++ rest⟩ (some found) ∧
      step found = .ends ⟨offset + Text.width text, rest⟩ := by
  induction content generalizing offset with
  | close => exact ⟨_, .here (.inl rfl), rfl⟩
  | plain other _ ih =>
    obtain ⟨found, leads, ends⟩ := ih (offset + _)
    exact ⟨found, .past other leads, by simpa [Nat.add_assoc] using ends⟩
  | escape escaped _ ih =>
    obtain ⟨found, leads, ends⟩ := ih (offset + _)
    refine ⟨found, ?_, by simpa [Nat.add_assoc] using ends⟩
    rw [List.append_assoc]
    exact .escape escaped leads

/-! ### The delimiter that is kept -/

/-- What is kept leads from a place to where a new search would lead. -/
def Sound (kept : Delimiter) (place : Cursor) : Prop :=
  match kept with
  | .unknown => True
  | .absent => Leads place none
  | .found found => place.offset ≤ found.offset → Leads place (some found)

/-- What is kept is sound after every brace of the text that is left: the invariant of a run. -/
def Kept (kept : Delimiter) (place : Cursor) : Prop :=
  ∀ front after, place.rest = front ++ '{' :: after →
    Sound kept ⟨place.offset + Text.width front + 1, after⟩

theorem kept_unknown (place : Cursor) : Kept .unknown place := fun _ _ _ => trivial

theorem Kept.later (valid : Kept kept place) (whole : place.rest = front ++ rest) :
    Kept kept ⟨place.offset + Text.width front, rest⟩ := by
  intro inner after split
  have further : place.rest = front ++ inner ++ '{' :: after := by
    rw [whole, List.append_assoc]
    exact congrArg (front ++ ·) split
  have sound := valid (front ++ inner) after further
  simpa [Nat.add_assoc] using sound

theorem Leads.kept (leads : Leads place found) : Kept (keep found) place := by
  intro front after whole
  cases found with
  | none => exact leads.brace whole (by simp)
  | some last => exact fun ahead => leads.brace whole (by simpa using ahead)

theorem search_leads (offset : Nat) (text : List Char) :
    Leads ⟨offset, text⟩ (search offset text) := by
  induction text generalizing offset with
  | nil => exact .finished
  | cons c rest ih =>
    simp only [search, Bool.or_eq_true, decide_eq_true_eq]
    split
    case isTrue delimiter => exact .here delimiter
    case isFalse other => exact .past other (ih _)

theorem searchAgain_eq (place : Cursor) :
    searchAgain place =
      (search place.offset place.rest, keep (search place.offset place.rest)) := by
  unfold searchAgain
  cases search place.offset place.rest <;> rfl

/-- The delimiter that comes next is on the chain, and it is the one that is kept from now on. -/
theorem next_leads (sound : Sound kept place) :
    ∃ found, next kept place = (found, keep found) ∧ Leads place found := by
  have again := search_leads place.offset place.rest
  cases kept with
  | unknown => exact ⟨_, searchAgain_eq place, again⟩
  | absent => exact ⟨none, rfl, sound⟩
  | found last =>
    by_cases ahead : place.offset ≤ last.offset
    · exact ⟨some last, by simp [next, ahead, keep], sound ahead⟩
    · exact ⟨_, by simp [next, ahead, searchAgain_eq], again⟩

theorem IsEscape.width_pos (escaped : IsEscape front) : 0 < Text.width front := by
  obtain ⟨more, rfl⟩ := escaped.head
  have size := Char.utf8Size_pos '\\'
  simp only [Text.width_cons]
  omega

theorem Leads.length_le (leads : Leads place (some found)) :
    found.rest.length ≤ place.rest.length := by
  generalize same : some found = target at leads
  induction leads with
  | finished => cases same
  | here => cases same; exact Nat.le_refl _
  | past _ _ ih =>
    have shorter := ih same
    simp only [List.length_cons] at shorter ⊢
    omega
  | escape _ _ ih =>
    have shorter := ih same
    simp only [List.length_append] at shorter ⊢
    omega

/-- The reading of a code block ends at the last delimiter of the chain, and that one is kept. -/
theorem codeEnd_leads (enough : place.rest.length < bound) (sound : Sound kept place) :
    ∃ found, codeEnd bound kept place = (close? found, keep found) ∧ Leads place found ∧
      IsLast found := by
  induction bound generalizing kept place with
  | zero => omega
  | succ bound ih =>
    obtain ⟨found, next, leads⟩ := next_leads sound
    unfold codeEnd
    rw [next]
    cases found with
    | none => exact ⟨none, rfl, leads, by simp [IsLast]⟩
    | some found =>
      dsimp only
      cases taken : step found with
      | ends tail =>
        exact ⟨some found, by simp [close?, taken], leads, by simp [IsLast, taken]⟩
      | breaks => exact ⟨some found, by simp [close?, taken], leads, by simp [IsLast, taken]⟩
      | goesOn tail =>
        obtain ⟨c, rest, begins, delimiter⟩ := leads.delimiter
        have goes : step ⟨found.offset, c :: rest⟩ = .goesOn tail := begins ▸ taken
        obtain ⟨front, escaped, split, offset⟩ := step_goesOn delimiter goes
        have positive := escaped.width_pos
        have shorter : tail.rest.length < found.rest.length := by
          obtain ⟨more, rfl⟩ := escaped.head
          rw [begins, split]
          simp only [List.length_append, List.length_cons]
          omega
        have total := leads.length_le
        have behind : Sound (keep (some found)) tail := fun ahead => by omega
        obtain ⟨last, ended, later, isLast⟩ := ih (by omega) behind
        exact ⟨last, ended, leads.trans taken later, isLast⟩

/-! ### Outcomes -/

theorem IsRange.read (range : IsRange lexeme) (rest : List Char) :
    ∃ front, lexeme = '{' :: front ∧ bounds? (front ++ rest) = some front := by
  cases range with
  | bounds least greatest =>
    refine ⟨_, rfl, ?_⟩
    have read : bounds? (_ ++ (_ ++ '}' :: rest)) = _ := bounds?_of_isUpper least greatest
    simpa using read

theorem isLast_of_ends (ends : step found = .ends tail) : IsLast (some found) := by
  intro place member other goes
  cases member
  rw [ends] at goes
  cases goes

/-- A text begins with the content of at most one code block. -/
theorem IsContent.unique (first : IsContent content) (second : IsContent other)
    (same : content ++ rest = other ++ rest') : content = other ∧ rest = rest' := by
  obtain ⟨found, leads, ends⟩ := first.leads 0 rest
  obtain ⟨found', leads', ends'⟩ := second.leads 0 rest'
  rw [← same] at leads'
  cases leads.unique (isLast_of_ends ends) leads' (isLast_of_ends ends')
  rw [ends, Step.ends.injEq, Cursor.mk.injEq] at ends'
  obtain ⟨-, rfl⟩ := ends'
  exact ⟨List.append_cancel_right same, rfl⟩

/-- A text has at most one outcome. -/
theorem Begins.unique (first : Begins text outcome) (second : Begins text other) :
    outcome = other := by
  cases first with
  | @range lexeme rest range =>
    obtain ⟨front, rfl, read⟩ := range.read rest
    generalize same : ('{' :: front) ++ rest = whole at second
    cases second with
    | @range lexeme' rest' range' =>
      obtain ⟨front', rfl, read'⟩ := range'.read rest'
      have split : front ++ rest = front' ++ rest' := (List.cons.inj same).2
      rw [split, read', Option.some.injEq] at read
      subst read
      rw [List.append_cancel_left split]
    | code noRange => exact absurd ⟨rest, same⟩ (noRange _ range)
    | sign noRange => exact absurd ⟨rest, same⟩ (noRange _ range)
  | @code lexeme rest noRange code =>
    generalize same : lexeme ++ rest = whole at second
    cases second with
    | range range' => exact absurd ⟨_, same.symm⟩ (noRange _ range')
    | code _ code' =>
      cases code with
      | block content =>
        cases code' with
        | block content' =>
          obtain ⟨rfl, rfl⟩ := content.unique content' (List.cons.inj same).2
          rfl
    | sign _ noCode => exact absurd ⟨rest, same⟩ (noCode _ code)
  | @sign rest noRange noCode =>
    generalize same : '{' :: rest = whole at second
    cases second with
    | range range' => exact absurd ⟨_, same.symm⟩ (noRange _ range')
    | code _ code' => exact absurd ⟨_, same.symm⟩ (noCode _ code')
    | sign =>
      cases same
      rfl

theorem Begins.found (begins : Begins text outcome) :
    ∃ token lexeme rest, outcome = .found token lexeme rest := by
  cases begins <;> exact ⟨_, _, _, rfl⟩

theorem Begins.split (begins : Begins text (.found token lexeme rest)) :
    text = lexeme ++ rest ∧ ∃ more, lexeme = '{' :: more := by
  cases begins with
  | range range =>
    cases range
    exact ⟨rfl, _, rfl⟩
  | code _ code =>
    cases code
    exact ⟨rfl, _, rfl⟩
  | sign => exact ⟨rfl, _, rfl⟩

/-- `scan` gives the outcome of the text at an opening brace, and what it keeps is sound after every
later brace. -/
theorem scan_begins (opens : place.rest = '{' :: rest) (enough : place.rest.length ≤ bound)
    (valid : Kept kept place) :
    Begins place.rest (scan bound kept place).1 ∧
      Kept (scan bound kept place).2 ⟨place.offset + 1, rest⟩ := by
  have noRange (none : bounds? rest = none) (front : List Char) (range : IsRange front) :
      ¬ front <+: '{' :: rest := by
    rintro ⟨after, whole⟩
    obtain ⟨inner, rfl, read⟩ := range.read after
    have split : inner ++ after = rest := (List.cons.inj whole).2
    rw [split, none] at read
    cases read
  have sound : Sound kept ⟨place.offset + 1, rest⟩ := valid [] rest opens
  have later : Kept kept ⟨place.offset + 1, rest⟩ := by
    have opening : place.rest = ['{'] ++ rest := opens
    exact valid.later opening
  simp only [scan, opens, List.tail_cons]
  cases read : bounds? rest with
  | some front =>
    obtain ⟨⟨after, rfl⟩, range⟩ := isRange_of_bounds? read
    have begins : Begins ('{' :: front ++ after) _ := .range range
    exact ⟨by simpa using begins, later⟩
  | none =>
    have shorter : rest.length < bound := by
      rw [opens, List.length_cons] at enough
      omega
    obtain ⟨found, ended, leads, isLast⟩ := codeEnd_leads shorter sound
    rw [ended]
    dsimp only
    cases closes : close? found with
    | some tail =>
      obtain ⟨content, isContent, whole, offset⟩ := leads.content closes
      obtain rfl : rest = content ++ tail.rest := whole
      have width : tail.offset - place.offset = Text.width ('{' :: content) := by
        have brace : '{'.utf8Size = 1 := rfl
        simp only [Text.width_cons, brace] at offset ⊢
        omega
      have cut := Text.cut_append ('{' :: content) tail.rest
      rw [List.cons_append, ← width] at cut
      simp only [cut]
      exact ⟨.code (noRange read) (.block isContent), leads.kept⟩
    | none =>
      refine ⟨.sign (noRange read) ?_, leads.kept⟩
      rintro _ ⟨isContent⟩ ⟨after, whole⟩
      have split : _ ++ after = rest := (List.cons.inj whole).2
      obtain ⟨last, leads', ends⟩ := isContent.leads (place.offset + 1) after
      rw [split] at leads'
      cases leads.unique isLast leads' (isLast_of_ends ends)
      simp [close?, ends] at closes

end ShExCompact.Brace
