import ShExCompact.Proofs.Lexical.IriReferences

/-! What a recognizer finds is a front of its text, and it finds the same in that front alone: no
token depends on what follows it. One statement for each recognizer. -/
namespace ShExCompact

/-- What is found is a front of the text, and it is found in this front alone as well. -/
def Scan.SelfContained (read : List Char → Scan α) : Prop :=
  ∀ ⦃text value lexeme rest⦄, read text = .found value lexeme rest →
    text = lexeme ++ rest ∧ read lexeme = .found value lexeme []

/-- What is found after a front that is read over, if the same front is read over again. -/
theorem Scan.after_selfContained {read later : List Char → Scan α}
    (found : (later text).after front = .found value lexeme rest)
    (ih : ∀ ⦃inner⦄, later text = .found value inner rest →
      text = inner ++ rest ∧ later inner = .found value inner [])
    (again : ∀ inner, text = inner ++ rest → read (front ++ inner) = (later inner).after front) :
    front ++ text = lexeme ++ rest ∧ read lexeme = .found value lexeme [] := by
  obtain ⟨inner, read, rfl⟩ := Scan.after_eq_found.mp found
  obtain ⟨split, alone⟩ := ih read
  refine ⟨by rw [split, List.append_assoc], ?_⟩
  rw [again inner split, alone]
  rfl

/-- The same where the front is a part of the value as well. -/
theorem Scan.push_selfContained {read later : List Char → Scan (List Char)}
    (found : (later text).push part front = .found value lexeme rest)
    (ih : ∀ ⦃more inner⦄, later text = .found more inner rest →
      text = inner ++ rest ∧ later inner = .found more inner [])
    (again : ∀ inner, read (front ++ inner) = (later inner).push part front) :
    front ++ text = lexeme ++ rest ∧ read lexeme = .found value lexeme [] := by
  obtain ⟨more, inner, read, rfl, rfl⟩ := Scan.push_eq_found.mp found
  obtain ⟨split, alone⟩ := ih read
  refine ⟨by rw [split, List.append_assoc], ?_⟩
  rw [again inner, alone]
  rfl

/-! ### IRI references -/

theorem IriRef.body_selfContained : Scan.SelfContained IriRef.body := by
  intro text value lexeme rest found
  obtain ⟨split, pieces, each, whole⟩ := IriRef.body_eq_found.mp found
  refine ⟨split, IriRef.body_eq_found.mpr ⟨(List.append_nil lexeme).symm, pieces, each, whole⟩⟩

/-! ### String literals -/

namespace Quote

theorem short_plain (other : c ≠ mark) (plain : c ≠ '\\')
    (inLine : ¬ (c = '\n' || c = '\r') = true) (rest : List Char) :
    short mark (c :: rest) = (short mark rest).after [c] := by
  rw [short.eq_def]
  dsimp only
  rw [if_neg other, if_neg plain, if_neg inLine]

theorem long_plain (plain : c ≠ '\\')
    (goesOn : ¬ (c = mark && [mark, mark].isPrefixOf rest) = true) :
    long mark (c :: rest) = (long mark rest).after [c] := by
  rw [long.eq_def]
  dsimp only
  rw [if_neg plain, if_neg goesOn]

/-- A front of the text has no more marks at its beginning than the text. -/
theorem isPrefixOf_front {front inner : List Char}
    (marks : ¬ front.isPrefixOf (inner ++ rest) = true) : ¬ front.isPrefixOf inner = true := by
  simp only [List.isPrefixOf_iff_prefix] at marks ⊢
  exact fun begins => marks (begins.trans (List.prefix_append inner rest))

theorem short_selfContained (mark : Char) : Scan.SelfContained (short mark) := by
  intro text value lexeme rest found
  fun_induction short mark text generalizing lexeme with
  | case1 | case3 | case5 => cases found
  | case2 rest =>
    cases found
    exact ⟨rfl, by simp [short]⟩
  | case4 d more other ih =>
    exact Scan.after_selfContained found ih fun inner _ => by simp [short, other]
  | case6 c rest other plain inLine ih =>
    exact Scan.after_selfContained found ih fun inner _ => short_plain other plain inLine inner

theorem long_selfContained (mark : Char) : Scan.SelfContained (long mark) := by
  intro text value lexeme rest found
  fun_induction long mark text generalizing lexeme with
  | case1 | case2 => cases found
  | case3 d more ih =>
    exact Scan.after_selfContained found ih fun inner _ => by simp [long]
  | case4 c rest plain closes =>
    obtain ⟨same, marks⟩ := (Bool.and_eq_true _ _).mp closes
    obtain rfl : c = mark := of_decide_eq_true same
    obtain ⟨last, rfl⟩ := List.isPrefixOf_iff_prefix.mp marks
    cases found
    exact ⟨rfl, by simp [long, plain]⟩
  | case5 c rest plain goesOn ih =>
    refine Scan.after_selfContained found ih fun inner split => long_plain plain ?_
    subst split
    simp only [Bool.and_eq_true, not_and] at goesOn ⊢
    exact fun same => isPrefixOf_front (goesOn same)

/-- A string literal is read after its first quote, with which its text begins. -/
theorem scan_found (found : scan mark text = .found value lexeme rest) :
    ∃ inner, lexeme = mark :: inner ∧ text = inner ++ rest ∧
      scan mark inner = .found value lexeme [] := by
  unfold scan at found
  split at found
  case isTrue marks =>
    obtain ⟨last, rfl⟩ := List.isPrefixOf_iff_prefix.mp marks
    obtain ⟨whole, read, rfl⟩ := Scan.after_eq_found.mp found
    obtain ⟨_, long, rfl⟩ := Scan.map_eq_found.mp read
    obtain ⟨split, again⟩ := long_selfContained mark long
    have split : last = whole ++ rest := split
    subst split
    refine ⟨[mark, mark] ++ whole, rfl, by simp, ?_⟩
    simp [scan, again, Scan.map, Scan.build, Scan.after]
  case isFalse marks =>
    obtain ⟨whole, read, rfl⟩ := Scan.after_eq_found.mp found
    obtain ⟨_, short, rfl⟩ := Scan.map_eq_found.mp read
    obtain ⟨rfl, again⟩ := short_selfContained mark short
    refine ⟨whole, rfl, rfl, ?_⟩
    rw [scan, if_neg (isPrefixOf_front marks), again]
    rfl

end Quote

/-! ### Names -/

namespace Name

theorem trimDots_front (text : List Char) : trimDots text <+: text := by
  induction text with
  | nil => exact List.prefix_rfl
  | cons c rest ih =>
    simp only [trimDots]
    split
    case isTrue => exact List.nil_prefix
    case isFalse => exact List.cons_prefix_cons.mpr ⟨rfl, ih⟩

theorem trimDots_trimDots (text : List Char) : trimDots (trimDots text) = trimDots text := by
  induction text with
  | nil => rfl
  | cons c rest ih =>
    by_cases ends : ((trimDots rest).isEmpty && c = '.') = true
    · simp [trimDots, ends]
    · have whole : trimDots (c :: rest) = c :: trimDots rest := by simp [trimDots, ends]
      rw [whole]
      simp [trimDots, ih, ends]

/-- What a run may be: nothing, or a letter and characters that go on after it. -/
inductive IsRun : List Char → Prop where
  | empty : IsRun []
  | letter (starts : isLetter c) (inside : ∀ d ∈ more, isInnerOrDot d) : IsRun (c :: more)

theorem run_split (text : List Char) : text = (run text).1 ++ (run text).2 := by
  cases text with
  | nil => rfl
  | cons c rest =>
    rw [run]
    split
    case isTrue => exact congrArg (c :: ·) List.takeWhile_append_dropWhile.symm
    case isFalse => rfl

theorem isRun_run (text : List Char) : IsRun (run text).1 := by
  cases text with
  | nil => exact .empty
  | cons c rest =>
    rw [run]
    split
    case isTrue starts => exact .letter starts fun _ member => Brace.mem_takeWhile member
    case isFalse => exact .empty

theorem IsRun.of_prefix (isRun : IsRun text) (begins : front <+: text) : IsRun front := by
  cases front with
  | nil => exact .empty
  | cons d front =>
    cases isRun with
    | empty => exact absurd begins (by simp)
    | letter starts inside =>
      obtain ⟨rfl, more⟩ := List.cons_prefix_cons.mp begins
      exact .letter starts fun c member => inside c (more.subset member)

/-- A run is found again before a character that cannot go on with it. -/
theorem IsRun.again (isRun : IsRun front) (stop : ∀ c ∈ rest.head?, ¬ isInnerOrDot c) :
    run (front ++ rest) = (front, rest) := by
  cases isRun with
  | empty =>
    cases rest with
    | nil => rfl
    | cons c rest =>
      have noLetter : ¬ isLetter c := fun letter =>
        stop c (by simp) (by simp [isInnerOrDot, isInner, isStart, letter])
      simp [Name.run, noLetter]
  | @letter c more starts inside =>
    have first := Brace.takeWhile_front inside stop
    have second : (more ++ rest).dropWhile isInnerOrDot = rest := by
      have whole := List.takeWhile_append_dropWhile (p := isInnerOrDot) (l := more ++ rest)
      rw [first] at whole
      exact List.append_cancel_left whole
    simp [Name.run, starts, first, second]

theorem IsRun.alone (isRun : IsRun front) : run front = (front, []) := by
  have again : run (front ++ []) = (front, []) := isRun.again (by simp)
  rwa [List.append_nil] at again

theorem localPart_percent (hex : (Numeral.isHex a && Numeral.isHex b) = true)
    (rest : List Char) : localPart isFirst ('%' :: a :: b :: rest) =
      (localPart false rest).push ['%', a, b] ['%', a, b] := by
  rw [localPart.eq_def]
  dsimp only
  rw [if_pos rfl, if_pos hex]

theorem localPart_backslash (escapable : Fault.escapable.toList.contains d = true)
    (rest : List Char) :
    localPart isFirst ('\\' :: d :: rest) = (localPart false rest).push [d] ['\\', d] := by
  rw [localPart.eq_def]
  dsimp only
  rw [if_neg (by decide), if_pos rfl, if_pos escapable]

theorem localPart_plain (percent : c ≠ '%') (backslash : c ≠ '\\')
    (inside : (c = ':' || if isFirst then isStart c || c.isDigit else isInner c) = true)
    (rest : List Char) : localPart isFirst (c :: rest) = (localPart false rest).push [c] [c] := by
  rw [localPart.eq_def]
  dsimp only
  rw [if_neg percent, if_neg backslash, if_pos inside]

/-- A dot is part of a local name if more of the name follows. -/
theorem localPart_dot (found : localPart false text = .found value lexeme rest)
    (more : ¬ lexeme.isEmpty = true) :
    localPart false ('.' :: text) = .found ('.' :: value) ('.' :: lexeme) rest := by
  rw [localPart.eq_def]
  dsimp only
  rw [if_neg (by decide), if_neg (by decide), if_neg (by decide), if_pos (by decide), found]
  dsimp only
  rw [if_neg more]

theorem localPart_selfContained (isFirst : Bool) : Scan.SelfContained (localPart isFirst) := by
  intro text value lexeme rest found
  fun_induction localPart isFirst text generalizing value lexeme with
  | case1 | case9 | case13 =>
    cases found
    exact ⟨rfl, rfl⟩
  | case2 isFirst a b more hex ih =>
    exact Scan.push_selfContained found ih (localPart_percent hex)
  | case3 | case4 =>
    unfold percentFault at found
    split at found <;> cases found
  | case5 | case7 | case11 | case12 => cases found
  | case6 isFirst d more escapable other ih =>
    exact Scan.push_selfContained found ih (localPart_backslash escapable)
  | case8 isFirst c text percent backslash inside ih =>
    exact Scan.push_selfContained found ih (localPart_plain percent backslash inside)
  | case10 isFirst c text percent backslash outside dot value' lexeme' tail read more ih =>
    obtain ⟨later, isDot⟩ := (Bool.and_eq_true _ _).mp dot
    obtain rfl : c = '.' := of_decide_eq_true isDot
    obtain rfl : isFirst = false := by simpa using later
    cases found
    obtain ⟨rfl, again⟩ := ih read
    exact ⟨rfl, localPart_dot again more⟩

theorem scan_selfContained : Scan.SelfContained scan := by
  intro text value lexeme rest found
  have split := run_split text
  have isRun := isRun_run text
  unfold scan at found
  generalize (run text).1 = front at *
  generalize (run text).2 = after at *
  subst split
  dsimp only at found
  split at found
  case h_1 tail =>
    split at found
    case isTrue => cases found
    case isFalse noDot =>
      obtain ⟨inner, read, rfl⟩ := Scan.after_eq_found.mp found
      obtain ⟨_, name, rfl⟩ := Scan.map_eq_found.mp read
      obtain ⟨rfl, again⟩ := localPart_selfContained true name
      have whole : run (front ++ ':' :: inner) = (front, ':' :: inner) :=
        isRun.again (by simp; decide)
      refine ⟨by simp, ?_⟩
      simp [scan, whole, noDot, again, Scan.map, Scan.build, Scan.after]
  case h_2 =>
    cases found
    have begins := trimDots_front front
    have whole := (isRun.of_prefix begins).alone
    refine ⟨(List.prefix_iff_eq_append.mp (begins.trans (List.prefix_append _ _))).symm, ?_⟩
    simp [scan, whole, trimDots_trimDots]

theorem trimDots_cons (other : c ≠ '.') (rest : List Char) :
    trimDots (c :: rest) = c :: trimDots rest := by
  simp [trimDots, other]

theorem takeWhile_trimDots {text : List Char} (inside : ∀ c ∈ text, isInnerOrDot c) :
    (trimDots text).takeWhile isInnerOrDot = trimDots text := by
  have front : ∀ c ∈ trimDots text, isInnerOrDot c := fun c member =>
    inside c ((trimDots_front text).subset member)
  exact Brace.takeWhile_eq_self front

theorem blankNode_selfContained : Scan.SelfContained blankNode := by
  intro text value lexeme rest found
  unfold blankNode at found
  split at found
  case h_2 => cases found
  case h_1 label =>
    split at found
    case h_1 => cases found
    case h_2 c more =>
      split at found
      case isFalse => cases found
      case isTrue starts =>
        have other : c ≠ '.' := by
          rintro rfl
          exact absurd starts (by decide)
        have begins := (trimDots_front _).trans (List.takeWhile_prefix (l := more) isInnerOrDot)
        have inside : ∀ d ∈ more.takeWhile isInnerOrDot, isInnerOrDot d := fun d member =>
          Brace.mem_takeWhile member
        have again := takeWhile_trimDots inside
        have trimmed := trimDots_trimDots (more.takeWhile isInnerOrDot)
        rw [trimDots_cons other] at found
        generalize trimDots (more.takeWhile isInnerOrDot) = label at *
        cases found
        refine ⟨by simpa using (List.prefix_iff_eq_append.mp begins).symm, ?_⟩
        simp [blankNode, starts, again, trimDots_cons other, trimmed]

end Name

/-! ### Numbers -/

namespace Number

theorem head?_append_all {q : α → Prop} {front rest : List α} (inside : ∀ c ∈ front, q c)
    (later : ∀ c ∈ rest.head?, q c) : ∀ c ∈ (front ++ rest).head?, q c := by
  cases front with
  | nil => exact later
  | cons d front => simpa using inside d (by simp)

/-- What a mantissa may be: a sign and digits, and digits after a point. -/
structure Mantissa.Valid (mantissa : Mantissa) : Prop where
  sign : mantissa.sign = [] ∨ ∃ c, isSign c ∧ mantissa.sign = [c]
  whole : ∀ c ∈ mantissa.whole, c.isDigit
  fraction : mantissa.point = [] ∧ mantissa.fraction = [] ∨
    mantissa.point = ['.'] ∧ ∀ c ∈ mantissa.fraction, c.isDigit

/-- Characters that go on with a mantissa. -/
def goesOn (c : Char) : Prop := c.isDigit ∨ c = '.' ∨ isSign c

theorem isSign_of_isDigit (digit : c.isDigit) : ¬ isSign c := by
  simp only [isSign, Bool.or_eq_true, decide_eq_true_eq, not_or]
  constructor <;> (rintro rfl; exact absurd digit (by decide))

theorem sign_front (text : List Char) : sign text <+: text := by
  cases text with
  | nil => exact List.prefix_rfl
  | cons c rest =>
    by_cases isSign' : isSign c <;> simp [sign, isSign']

theorem sign_valid (text : List Char) : sign text = [] ∨ ∃ c, isSign c ∧ sign text = [c] := by
  cases text with
  | nil => exact .inl rfl
  | cons c rest =>
    by_cases isSign' : isSign c <;> simp [sign, isSign']

theorem sign_append (signs : front = [] ∨ ∃ c, isSign c ∧ front = [c])
    (stop : ∀ c ∈ rest.head?, ¬ isSign c) : sign (front ++ rest) = front := by
  rcases signs with rfl | ⟨c, isSign', rfl⟩
  · cases rest with
    | nil => rfl
    | cons c rest => simpa [sign] using stop
  · simp [sign, isSign']

namespace Mantissa

theorem ofText_valid (text : List Char) : Valid (ofText text) ∧ (ofText text).text <+: text := by
  obtain ⟨rest, split⟩ := sign_front text
  have signs := sign_valid text
  simp only [ofText]
  generalize Number.sign text = sign at *
  subst split
  rw [List.drop_left]
  obtain ⟨after, split⟩ := List.takeWhile_prefix (l := rest) Char.isDigit
  have wholes : ∀ c ∈ digits rest, c.isDigit := fun c member => Brace.mem_takeWhile member
  have split : digits rest ++ after = rest := split
  generalize digits rest = whole at *
  subst split
  rw [← List.append_assoc, List.drop_left]
  have plain : Valid ⟨sign, whole, [], []⟩ := ⟨signs, wholes, .inl ⟨rfl, rfl⟩⟩
  cases after with
  | nil => exact ⟨plain, by simp [text, integerText]⟩
  | cons c tail =>
    by_cases dot : c = '.'
    · subst dot
      refine ⟨⟨signs, wholes, .inr ⟨by simp, ?_⟩⟩, ?_⟩
      · have fractions : ∀ c ∈ digits tail, c.isDigit := fun c member => Brace.mem_takeWhile member
        simpa using fractions
      · obtain ⟨last, split⟩ := List.takeWhile_prefix (l := tail) Char.isDigit
        exact ⟨last, by simp [text, integerText, digits, split]⟩
    · simpa [dot] using ⟨plain, ⟨c :: tail, by simp [text, integerText]⟩⟩

/-- A mantissa is read again before what cannot go on with it. -/
theorem Valid.ofText (valid : Valid mantissa) (stop : ∀ c ∈ rest.head?, ¬ goesOn c) :
    ofText (mantissa.text ++ rest) = mantissa := by
  obtain ⟨sign, whole, point, fraction⟩ := mantissa
  obtain ⟨signs, wholes, fractions⟩ := valid
  dsimp only at *
  have digitless : ∀ c ∈ rest.head?, ¬ c.isDigit := fun c member digit => stop c member (.inl digit)
  have tail : ∀ c ∈ (point ++ (fraction ++ rest)).head?, ¬ c.isDigit ∧ ¬ isSign c := by
    rcases fractions with ⟨rfl, rfl⟩ | ⟨rfl, -⟩
    · exact fun c member =>
        ⟨digitless c member, fun isSign' => stop c member (.inr (.inr isSign'))⟩
    · simp; decide
  have first : Number.sign (sign ++ (whole ++ (point ++ (fraction ++ rest)))) = sign :=
    sign_append signs
      (head?_append_all (fun c member => isSign_of_isDigit (wholes c member))
        fun c member => (tail c member).2)
  have second : digits (whole ++ (point ++ (fraction ++ rest))) = whole :=
    Brace.takeWhile_front wholes fun c member => (tail c member).1
  simp only [Mantissa.ofText, text, integerText, List.append_assoc, first, List.drop_left, second]
  rw [← List.append_assoc sign, List.drop_left]
  rcases fractions with ⟨rfl, rfl⟩ | ⟨rfl, fractions⟩
  · cases rest with
    | nil => rfl
    | cons c rest =>
      have dot : c ≠ '.' := fun dot => stop c (by simp) (.inr (.inl dot))
      simp [dot]
  · have third : digits (fraction ++ rest) = fraction := Brace.takeWhile_front fractions digitless
    simp [third]

theorem Valid.ofText_text (valid : Valid mantissa) : Mantissa.ofText mantissa.text = mantissa := by
  have again : Mantissa.ofText (mantissa.text ++ []) = mantissa := valid.ofText (by simp)
  rwa [List.append_nil] at again

end Mantissa

theorem exponent?_found (found : exponent? text = some (mark, power)) :
    (∃ c more, (c = 'e' ∨ c = 'E') ∧ mark = c :: more) ∧ mark ++ power <+: text ∧
      exponent? (mark ++ power) = some (mark, power) := by
  cases text with
  | nil => cases found
  | cons c rest =>
    simp only [exponent?] at found
    split at found
    case isFalse => cases found
    case isTrue letter =>
      obtain ⟨after, split⟩ := sign_front rest
      have signs := sign_valid rest
      generalize sign rest = sign at *
      subst split
      rw [List.drop_left] at found
      cases found
      obtain ⟨last, split⟩ := List.takeWhile_prefix (l := after) Char.isDigit
      have digit : ∀ d ∈ digits after, d.isDigit := fun d member => Brace.mem_takeWhile member
      have split : digits after ++ last = after := split
      generalize digits after = power at *
      have first : Number.sign (sign ++ power) = sign := by
        refine sign_append signs fun d member => isSign_of_isDigit (digit d ?_)
        exact List.mem_of_mem_head? member
      have second : digits power = power := Brace.takeWhile_eq_self digit
      refine ⟨⟨c, sign, by simpa using letter, rfl⟩, ⟨last, by simp [split]⟩, ?_⟩
      rw [List.cons_append, exponent?, if_pos letter, first, List.drop_left, second]

/-- A mantissa with digits begins a number. -/
theorem starts_text {mantissa : Mantissa} (valid : mantissa.Valid)
    (some : mantissa.whole ≠ [] ∨ mantissa.fraction ≠ []) (rest : List Char) :
    starts (mantissa.text ++ rest) := by
  obtain ⟨sign, whole, point, fraction⟩ := mantissa
  obtain ⟨signs, wholes, fractions⟩ := valid
  dsimp only at *
  have unsigned : startsUnsigned (whole ++ (point ++ (fraction ++ rest))) ∧
      ∀ c ∈ (whole ++ (point ++ (fraction ++ rest))).head?, ¬ isSign c := by
    cases whole with
    | cons c whole =>
      have digit := wholes c (by simp)
      simp [startsUnsigned, digit, isSign_of_isDigit digit]
    | nil =>
      have nonempty : fraction ≠ [] := by simpa using some
      rcases fractions with ⟨-, rfl⟩ | ⟨rfl, fractions⟩
      · exact absurd rfl nonempty
      · obtain ⟨c, fraction, rfl⟩ := List.exists_cons_of_ne_nil nonempty
        have digit := fractions c (by simp)
        simp [startsUnsigned, digit]
        decide
  have first := sign_append signs unsigned.2
  simp only [starts, Mantissa.text, Mantissa.integerText, List.append_assoc, first, List.drop_left,
    unsigned.1]

theorem scan_found (found : scan text = .found value lexeme rest) :
    text = lexeme ++ rest ∧ scan lexeme = .found value lexeme [] ∧ starts lexeme := by
  obtain ⟨valid, after, split⟩ := Mantissa.ofText_valid text
  unfold scan at found
  generalize Mantissa.ofText text = mantissa at *
  subst split
  simp only [List.drop_left] at found
  split at found
  case h_1 mark power read =>
    obtain ⟨⟨c, more, letter, marks⟩, ⟨last, split⟩, again⟩ := exponent?_found read
    have whole : Mantissa.ofText (mantissa.text ++ (mark ++ power)) = mantissa := by
      refine valid.ofText ?_
      rw [marks]
      rcases letter with rfl | rfl <;> simp [goesOn] <;> decide
    split at found
    case isTrue => cases found
    case isFalse nonempty =>
      split at found
      case isTrue => cases found
      case isFalse digits =>
        cases found
        have some : mantissa.whole ≠ [] ∨ mantissa.fraction ≠ [] := by
          simpa [-not_and, Decidable.not_and_iff_not_or_not] using digits
        refine ⟨?_, ?_, ?_⟩
        · simp [← split]
        · simp [scan, whole, again, nonempty, digits]
        · rw [List.append_assoc]
          exact starts_text valid some _
  case h_2 =>
    split at found
    case isTrue fraction =>
      cases found
      have whole := valid.ofText_text
      refine ⟨by simp, ?_, ?_⟩
      · simp [scan, whole, fraction, exponent?]
      · have begins := starts_text valid (.inr (by simpa using fraction)) []
        rwa [List.append_nil] at begins
    case isFalse fraction =>
      split at found
      case isTrue => cases found
      case isFalse nonempty =>
        cases found
        have integer : Mantissa.Valid ⟨mantissa.sign, mantissa.whole, [], []⟩ :=
          ⟨valid.sign, valid.whole, .inl ⟨rfl, rfl⟩⟩
        have whole := integer.ofText_text
        have begins := starts_text integer (.inl (by simpa using nonempty)) []
        simp only [Mantissa.text, List.append_nil] at whole begins
        change Mantissa.ofText mantissa.integerText = _ at whole
        refine ⟨by simp [Mantissa.text], ?_, begins⟩
        rw [scan, whole]
        simp [nonempty, exponent?, Mantissa.text, Mantissa.integerText]

end Number

/-! ### Signs -/

namespace Punct

/-- The sign that a text begins with is read in its spelling alone as well. -/
theorem read?_found {text : List Char} (read : read? text = some sign) :
    sign.text.toList <+: text ∧ read? sign.text.toList = some sign := by
  have table : ∀ sign ∈ double ++ single, read? sign.text.toList = some sign := by decide
  have begins := List.find?_some read
  exact ⟨List.isPrefixOf_iff_prefix.mp begins, table sign (List.mem_of_find?_eq_some read)⟩

theorem read?_front {front rest : List Char} (none : read? (front ++ rest) = none) :
    read? front = .none := by
  simp only [read?, List.find?_eq_none, List.isPrefixOf_iff_prefix] at none ⊢
  exact fun sign member begins => none sign member (begins.trans (List.prefix_append _ _))

end Punct

/-! ### Tokens -/

theorem Number.starts_append {front : List Char} (begins : starts front) (rest : List Char) :
    starts (front ++ rest) := by
  cases front with
  | nil => cases begins
  | cons c front =>
    have same : sign (c :: front ++ rest) = sign (c :: front) := rfl
    have unsigned (text : List Char) (digit : startsUnsigned text) :
        startsUnsigned (text ++ rest) := by
      rcases text with _ | ⟨d, _ | ⟨e, more⟩⟩
      · cases digit
      · have isDigit : d.isDigit := by simpa [startsUnsigned] using digit
        simp [startsUnsigned, isDigit]
      · exact digit
    rw [starts, same, List.drop_append_of_le_length (sign_front _).length_le]
    exact unsigned _ begins

namespace Token

theorem subtags_front (inside : Bool) (text : List Char) :
    languageTag.subtags inside text <+: text := by
  induction text generalizing inside with
  | nil => exact List.prefix_rfl
  | cons c rest ih =>
    rw [languageTag.subtags]
    split
    case isTrue => exact List.cons_prefix_cons.mpr ⟨rfl, ih true⟩
    case isFalse => exact List.nil_prefix

/-- A subtag goes on with a letter or digit, or a hyphen before one. -/
theorem subtags_again (inside : Bool) (text : List Char) :
    languageTag.subtags inside (languageTag.subtags inside text) =
      languageTag.subtags inside text := by
  induction text generalizing inside with
  | nil => rfl
  | cons c rest ih =>
    by_cases goesOn : (inside && c.isAlphanum || c = '-' && rest.head?.any Char.isAlphanum) = true
    · have whole : languageTag.subtags inside (c :: rest) =
          c :: languageTag.subtags true rest := by
        rw [languageTag.subtags, if_pos goesOn]
      have later (begins : rest.head?.any Char.isAlphanum) :
          (languageTag.subtags true rest).head?.any Char.isAlphanum := by
        cases rest with
        | nil => cases begins
        | cons d rest =>
          have alphanum : d.isAlphanum := by simpa using begins
          simp [languageTag.subtags, alphanum]
      rw [whole, languageTag.subtags, ih, if_pos]
      simp only [Bool.or_eq_true, Bool.and_eq_true] at goesOn ⊢
      exact goesOn.imp_right fun hyphen => ⟨hyphen.1, later hyphen.2⟩
    · rw [languageTag.subtags, if_neg goesOn]
      rfl

theorem subtags_inside (inside : Bool) (text : List Char) :
    ∀ c ∈ languageTag.subtags inside text, c.isAlphanum ∨ c = '-' := by
  induction text generalizing inside with
  | nil => simp [languageTag.subtags]
  | cons c rest ih =>
    rw [languageTag.subtags]
    split
    case isFalse => simp
    case isTrue goesOn =>
      simp only [Bool.or_eq_true, Bool.and_eq_true, decide_eq_true_eq] at goesOn
      simp only [List.mem_cons, forall_eq_or_imp]
      exact ⟨goesOn.imp And.right And.left, ih true⟩

theorem languageTag_append (nonempty : letters ≠ []) (alpha : ∀ c ∈ letters, c.isAlpha)
    (stop : ∀ c ∈ rest.head?, ¬ c.isAlpha) :
    languageTag (letters ++ rest) = letters ++ languageTag.subtags false rest := by
  simp [languageTag, Brace.takeWhile_front alpha stop, nonempty]

/-- What a language tag may be: a letter, then letters, digits and hyphens; the tag is read again
where the text ends with it. -/
theorem languageTag_found {text : List Char} (nonempty : ¬ (languageTag text).isEmpty) :
    languageTag text <+: text ∧ languageTag (languageTag text) = languageTag text ∧
      ∃ c rest, languageTag text = c :: rest ∧ c.isAlpha ∧
        ∀ d ∈ rest, d.isAlphanum ∨ d = '-' := by
  have some : text.takeWhile Char.isAlpha ≠ [] := by
    intro none
    simp [languageTag, none] at nonempty
  have alpha : ∀ c ∈ text.takeWhile Char.isAlpha, c.isAlpha := fun c member =>
    Brace.mem_takeWhile member
  have split := List.takeWhile_append_dropWhile (p := Char.isAlpha) (l := text)
  have stop : ∀ c ∈ (text.dropWhile Char.isAlpha).head?, ¬ c.isAlpha := by
    intro c first
    have other := List.head?_dropWhile_not Char.isAlpha text
    rw [first] at other
    simpa using other
  generalize text.takeWhile Char.isAlpha = letters at *
  generalize text.dropWhile Char.isAlpha = rest at *
  subst split
  obtain ⟨last, split⟩ := subtags_front false rest
  have inside := subtags_inside false rest
  have stop' : ∀ c ∈ (languageTag.subtags false rest).head?, ¬ c.isAlpha := by
    cases rest with
    | nil => simp [languageTag.subtags]
    | cons c rest =>
      rw [languageTag.subtags]
      split
      case isFalse => simp
      case isTrue => simpa using stop
  rw [languageTag_append some alpha stop, languageTag_append some alpha stop', subtags_again]
  refine ⟨⟨last, by rw [List.append_assoc, split]⟩, rfl, ?_⟩
  obtain ⟨c, letters, rfl⟩ := List.exists_cons_of_ne_nil some
  refine ⟨c, _, rfl, alpha c (by simp), fun d member => ?_⟩
  rcases List.mem_append.mp member with letter | later
  · exact .inl (by simp [Char.isAlphanum, alpha d (by simp [letter])])
  · exact inside d later

theorem toNat_lt_of_isAlphanum (alphanum : Char.isAlphanum c) : c.toNat < 128 := by
  have ranges : (decide ('A'.val ≤ c.val ∧ c.val ≤ 'Z'.val) ||
      (decide ('a'.val ≤ c.val) && decide (c.val ≤ 'z'.val)) ||
      (decide ('0'.val ≤ c.val) && decide (c.val ≤ '9'.val))) = true := alphanum
  simp only [Bool.or_eq_true, Bool.and_eq_true, decide_eq_true_eq, UInt32.le_iff_toNat_le]
    at ranges
  have values : 'Z'.val.toNat = 90 ∧ 'z'.val.toNat = 122 ∧ '9'.val.toNat = 57 := by decide
  unfold Char.toNat
  omega

/-- A language tag is a word, not a prefix. -/
theorem scan_languageTag (letter : Char.isAlpha c) (inside : ∀ d ∈ rest, d.isAlphanum ∨ d = '-') :
    ∃ word last, Name.scan (c :: rest) = .found (.word word) word last := by
  have isLetter : Name.isLetter c :=
    forall_ascii (p := fun c => c.isAlpha → Name.isLetter c) (by decide)
      (toNat_lt_of_isAlphanum (by simp [Char.isAlphanum, letter])) letter
  have isInner : ∀ d ∈ rest, Name.isInnerOrDot d := by
    intro d member
    rcases inside d member with alphanum | rfl
    · exact forall_ascii (p := fun d => d.isAlphanum → Name.isInnerOrDot d) (by decide)
        (toNat_lt_of_isAlphanum alphanum) alphanum
    · decide
  have run := (Name.IsRun.letter isLetter isInner).alone
  simp [Name.scan, run]

/-- What begins with an at sign is found in its own text as well. -/
theorem scanAt_found (found : scanAt text = .found value lexeme rest) :
    ∃ inner, lexeme = '@' :: inner ∧ text = inner ++ rest ∧
      scanAt inner = .found value lexeme [] := by
  have sign : scanAt [] = .found (.punct .atSign) ['@'] [] := rfl
  cases text with
  | nil =>
    cases found
    exact ⟨[], rfl, rfl, sign⟩
  | cons c text =>
    simp only [scanAt] at found
    split at found
    case isTrue =>
      cases found
      exact ⟨[], rfl, rfl, sign⟩
    case isFalse other =>
      split at found
      case h_1 space localPart inner tail name =>
        cases found
        obtain ⟨split, again⟩ := Name.scan_selfContained name
        cases inner with
        | nil => cases again
        | cons d inner =>
          obtain ⟨rfl, -⟩ := List.cons.inj split
          exact ⟨_, rfl, split, by rw [scanAt, if_neg other, again]⟩
      case h_2 =>
        split at found
        case isTrue =>
          cases found
          exact ⟨[], rfl, rfl, sign⟩
        case isFalse nonempty =>
          obtain ⟨begins, again, d, more, whole, letter, inside⟩ := languageTag_found nonempty
          obtain ⟨word, last, name⟩ := scan_languageTag letter inside
          generalize languageTag (c :: text) = tag at *
          cases found
          refine ⟨_, rfl, (List.prefix_iff_eq_append.mp begins).symm, ?_⟩
          subst whole
          obtain ⟨rfl, -⟩ := List.cons_prefix_cons.mp begins
          rw [scanAt, if_neg other, name, again]
          simp
      case h_3 | h_4 => cases found

/-- A lexeme that is not empty begins like its text. -/
theorem cons_front (nonempty : lexeme ≠ [])
    (split : c :: text = lexeme ++ rest) :
    ∃ inner : List Char, lexeme = c :: inner ∧ text = inner ++ rest := by
  cases lexeme with
  | nil => exact absurd rfl nonempty
  | cons d inner =>
    obtain ⟨rfl, whole⟩ := List.cons.inj split
    exact ⟨inner, rfl, whole⟩

/-- A name or keyword is found in its own text as well. -/
theorem scanName_found (found : scanName c (c :: text) = .found value lexeme rest) :
    c :: text = lexeme ++ rest ∧ lexeme ≠ [] ∧ scanName c lexeme = .found value lexeme [] := by
  unfold scanName at found
  split at found
  case h_1 name =>
    cases found
    obtain ⟨split, again⟩ := Name.scan_selfContained name
    refine ⟨split, ?_, by rw [scanName, again]⟩
    rintro rfl
    cases again
  case h_2 word _ _ name =>
    split at found
    case isTrue => cases found
    case isFalse nonempty =>
      split at found
      case h_2 => cases found
      case h_1 keyword known =>
        cases found
        obtain ⟨split, again⟩ := Name.scan_selfContained name
        refine ⟨split, ?_, ?_⟩
        · rintro rfl
          rw [show Name.scan [] = .found (.word []) [] [] from rfl] at again
          cases again
          exact nonempty rfl
        · rw [scanName, again]
          simp only [nonempty, known]
          rfl
  case h_3 | h_4 => cases found

/-- A token after its first character is found in its own text as well. -/
theorem scanPlain_found (found : scanPlain c text = .found value lexeme rest) :
    ∃ inner, lexeme = c :: inner ∧ text = inner ++ rest ∧
      scanPlain c inner = .found value lexeme [] := by
  simp only [scanPlain] at found
  split at found
  case isTrue iri =>
    obtain ⟨_, read, rfl⟩ := Scan.build_eq_found.mp found
    obtain ⟨inner, body, rfl⟩ := Scan.after_eq_found.mp read
    obtain ⟨split, again⟩ := IriRef.body_selfContained body
    exact ⟨inner, rfl, split, by simp [scanPlain, iri, again, Scan.build, Scan.after]⟩
  case isFalse noIri =>
  split at found
  case isTrue blank =>
    obtain ⟨_, read, rfl⟩ := Scan.map_eq_found.mp found
    obtain ⟨split, again⟩ := Name.blankNode_selfContained read
    have nonempty : lexeme ≠ [] := by
      rintro rfl
      cases again
    obtain ⟨inner, rfl, whole⟩ := cons_front nonempty split
    refine ⟨inner, rfl, whole, ?_⟩
    rw [scanPlain, if_neg noIri, if_pos blank, again]
    rfl
  case isFalse noBlank =>
  split at found
  case isTrue quote =>
    obtain ⟨_, read, rfl⟩ := Scan.build_eq_found.mp found
    obtain ⟨inner, rfl, split, again⟩ := Quote.scan_found read
    refine ⟨inner, rfl, split, ?_⟩
    rw [scanPlain, if_neg noIri, if_neg noBlank, if_pos quote, again]
    rfl
  case isFalse noQuote =>
  split at found
  case isTrue isAt =>
    obtain ⟨inner, rfl, split, again⟩ := scanAt_found found
    refine ⟨inner, isAt ▸ rfl, split, ?_⟩
    rw [scanPlain, if_neg noIri, if_neg noBlank, if_neg noQuote, if_pos isAt, again]
  case isFalse noAt =>
  split at found
  case isTrue number =>
    obtain ⟨split, again, begins⟩ := Number.scan_found found
    have nonempty : lexeme ≠ [] := by
      rintro rfl
      cases begins
    obtain ⟨inner, rfl, whole⟩ := cons_front nonempty split
    exact ⟨inner, rfl, whole, by
      rw [scanPlain, if_neg noIri, if_neg noBlank, if_neg noQuote, if_neg noAt, if_pos begins,
        again]⟩
  case isFalse noNumber =>
  have numberless (inner : List Char) (split : text = inner ++ rest) :
      ¬ Number.starts (c :: inner) = true := fun begins =>
    noNumber (split ▸ Number.starts_append begins rest)
  split at found
  case h_1 sign read =>
    cases found
    obtain ⟨begins, again⟩ := Punct.read?_found read
    have split := List.prefix_iff_eq_append.mp begins
    have nonempty : sign.text.toList ≠ [] := by
      cases sign <;> decide
    obtain ⟨inner, same, whole⟩ := cons_front nonempty split.symm
    refine ⟨inner, same, whole, ?_⟩
    rw [same] at again
    rw [scanPlain, if_neg noIri, if_neg noBlank, if_neg noQuote, if_neg noAt,
      if_neg (numberless inner whole), again]
    simp [same]
  case h_2 noSign =>
    obtain ⟨split, nonempty, again⟩ := scanName_found found
    obtain ⟨inner, rfl, whole⟩ := cons_front nonempty split
    refine ⟨inner, rfl, whole, ?_⟩
    subst whole
    rw [scanPlain, if_neg noIri, if_neg noBlank, if_neg noQuote, if_neg noAt,
      if_neg (numberless inner rfl), Punct.read?_front noSign, again]

end Token

end ShExCompact
