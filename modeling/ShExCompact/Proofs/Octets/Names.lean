import Mathlib.Data.List.Induction
import ShExCompact.Proofs.Lexical.PrefixedNames
import ShExCompact.Proofs.Octets.Delimited

/-! Names among bytes: words, prefixed names, blank nodes and language tags. Main statements: their
recognizers consume and report what the scans of the text do, and none of their looks is out of
bounds. -/
namespace ShExCompact.Octets

/-! ### Local names -/

/-- What follows some dots is read over with them. -/
theorem localPart_dots (count : Nat)
    (more : ∀ value rest, Name.localPart false text ≠ .found value [] rest) :
    Name.localPart false (List.replicate count '.' ++ text) =
      (Name.localPart false text).push (List.replicate count '.') (List.replicate count '.') := by
  induction count with
  | zero =>
    rw [List.replicate_zero, List.nil_append]
    cases Name.localPart false text <;> rfl
  | succ count ih =>
    rw [List.replicate_succ, List.cons_append, Name.localPart_dot_eq, ih]
    cases read : Name.localPart false text with
    | found value lexeme rest =>
      have nonempty : lexeme ≠ [] := by
        rintro rfl
        exact more value rest read
      simp [Scan.push, Scan.map, Scan.build, Scan.after, nonempty]
    | fault | unfinished => rfl

/-- Dots that nothing of the name follows are left. -/
theorem localPart_dots_stop (count : Nat) (stops : Name.localPart false text = .found [] [] text) :
    Name.localPart false (List.replicate count '.' ++ text) =
      .found [] [] (List.replicate count '.' ++ text) := by
  induction count with
  | zero => exact stops
  | succ count ih =>
    rw [List.replicate_succ, List.cons_append, Name.localPart_dot_eq, ih]
    rfl

theorem push_push (scan : Scan (List Char)) (value front inner middle : List Char) :
    (scan.push inner middle).push value front = scan.push (value ++ inner) (front ++ middle) := by
  cases scan <;> simp [Scan.push, Scan.map, Scan.build, Scan.after]

theorem push_ne (scan : Scan (List Char)) (nonempty : front ≠ []) (value inner rest : List Char) :
    scan.push value front ≠ .found inner [] rest := by
  cases scan <;> simp [Scan.push, Scan.map, Scan.build, Scan.after, nonempty]

/-- How far a local name is read: what is in the value, what comes after it, and the dots at the
end. -/
structure Walked where
  copied : List Char
  pending : List Char
  dots : Nat
  value : List Char

namespace Walked

variable (walked : Walked)

/-- The dots at the end. -/
def tail : List Char := List.replicate walked.dots '.'

/-- All that is read. -/
def read : List Char := walked.copied ++ (walked.pending ++ walked.tail)

/-- What is read of a local name with the text after it. -/
def result (text : List Char) : Scan (List Char) :=
  (Name.localPart walked.read.isEmpty (walked.tail ++ text)).push (walked.value ++ walked.pending)
    (walked.copied ++ walked.pending)

theorem width_tail : Text.width walked.tail = walked.dots := by
  have ascii : ∀ c ∈ walked.tail, c.toNat < 128 := by
    intro c member
    obtain rfl := List.eq_of_mem_replicate member
    decide
  rw [width_of_ascii _ ascii, tail, List.length_replicate]

theorem tail_eq_nil (fresh : walked.read.isEmpty = true) : walked.tail = [] := by
  rw [List.isEmpty_iff, read, List.append_eq_nil_iff, List.append_eq_nil_iff] at fresh
  exact fresh.2.2

/-- The dots are read over with what follows them. -/
theorem result_eq (more : ∀ value rest,
      Name.localPart walked.read.isEmpty text ≠ .found value [] rest) :
    walked.result text = (Name.localPart walked.read.isEmpty text).push
      (walked.value ++ (walked.pending ++ walked.tail)) walked.read := by
  rw [result]
  cases fresh : walked.read.isEmpty with
  | true =>
    have none := walked.tail_eq_nil fresh
    simp [read, none]
  | false =>
    rw [fresh] at more
    rw [tail, localPart_dots walked.dots more, push_push, read, tail]
    simp

/-- The dots are left where nothing of the name follows. -/
theorem result_stop (stops : Name.localPart walked.read.isEmpty text = .found [] [] text) :
    (walked.result text).sizes position = .value
      ⟨Text.width (walked.copied ++ walked.pending), .ok (walked.value ++ walked.pending)⟩ := by
  have found : Name.localPart walked.read.isEmpty (walked.tail ++ text) =
      .found [] [] (walked.tail ++ text) := by
    cases fresh : walked.read.isEmpty with
    | true =>
      rw [fresh] at stops
      rw [walked.tail_eq_nil fresh, List.nil_append, stops]
    | false =>
      rw [fresh] at stops
      exact localPart_dots_stop walked.dots stops
  rw [result, found]
  simp [Scan.push, Scan.map, Scan.build, Scan.after, Scan.sizes]

theorem localEnd_eq (position : Nat) (text : List Char) :
    localEnd (Text.bytes (walked.read ++ text)) position (Text.width walked.read)
      (Text.width walked.copied) walked.dots walked.value =
      .value ⟨Text.width (walked.copied ++ walked.pending),
        .ok (walked.value ++ walked.pending)⟩ := by
  have size : Text.width walked.read =
      Text.width walked.copied + Text.width walked.pending + walked.dots := by
    rw [read, Text.width_append, Text.width_append, width_tail, Nat.add_assoc]
  have stop : minus (Text.width walked.read) walked.dots =
      .value (Text.width walked.copied + Text.width walked.pending) := by
    rw [minus, if_pos (by omega), size, Nat.add_sub_cancel]
  have whole : walked.read ++ text =
      walked.copied ++ (walked.pending ++ (walked.tail ++ text)) := by
    simp [read]
  rw [localEnd, stop, Access.value_bind, whole, decoded_bytes, Access.value_bind,
    Text.width_append]
  rfl

/-- Read on over characters that belong to the value as they are. -/
def goOn (front : List Char) : Walked :=
  ⟨walked.copied, walked.pending ++ walked.tail ++ front, 0, walked.value⟩

/-- Read on over a backslash and the character that it escapes. -/
def goOnEscaped (c : Char) : Walked :=
  ⟨walked.read ++ ['\\', c], [], 0, walked.value ++ (walked.pending ++ walked.tail) ++ [c]⟩

/-- Read on over a dot. -/
def goOnDot : Walked := { walked with dots := walked.dots + 1 }

@[simp] theorem read_goOn (front : List Char) :
    (walked.goOn front).read = walked.read ++ front := by
  simp [read, goOn, tail]

@[simp] theorem read_goOnEscaped (c : Char) :
    (walked.goOnEscaped c).read = walked.read ++ ['\\', c] := by
  simp [read, goOnEscaped, tail]

@[simp] theorem read_goOnDot : walked.goOnDot.read = walked.read ++ ['.'] := by
  simp [read, goOnDot, tail, List.replicate_succ']

theorem result_goOn (nonempty : front ≠ []) (reads : Name.localPart walked.read.isEmpty text =
      (Name.localPart false rest).push front front) :
    walked.result text = (walked.goOn front).result rest := by
  have begun : (walked.read ++ front).isEmpty = false := by simp [nonempty]
  rw [walked.result_eq fun value rest => reads ▸ push_ne _ nonempty _ _ _, reads, push_push, result,
    read_goOn, begun]
  simp [goOn, tail, read]

theorem result_goOnEscaped (reads : Name.localPart walked.read.isEmpty text =
      (Name.localPart false rest).push [c] ['\\', c]) :
    walked.result text = (walked.goOnEscaped c).result rest := by
  have begun : (walked.read ++ ['\\', c]).isEmpty = false := by simp
  rw [walked.result_eq fun value rest => reads ▸ push_ne _ (List.cons_ne_nil _ _) _ _ _, reads,
    push_push, result, read_goOnEscaped, begun]
  simp [goOnEscaped, tail, read]

theorem result_goOnDot (begun : walked.read.isEmpty = false) :
    walked.result ('.' :: rest) = walked.goOnDot.result rest := by
  have still : (walked.read ++ ['.']).isEmpty = false := by simp
  rw [result, result, begun, read_goOnDot, still]
  simp [goOnDot, tail, List.replicate_succ']

theorem result_fault (reads : Name.localPart walked.read.isEmpty text = .fault cause [] size) :
    (walked.result text).sizes position = .value ⟨Text.width walked.read + size,
      .error ⟨position + Text.width walked.read, position + Text.width walked.read + size,
        cause⟩⟩ := by
  rw [walked.result_eq (by simp [reads]), reads]
  simp [Scan.push, Scan.map, Scan.build, Scan.after, Scan.sizes]

theorem result_unfinished (reads : Name.localPart walked.read.isEmpty text = .unfinished) :
    (walked.result text).sizes position = .ended := by
  rw [walked.result_eq (by simp [reads]), reads]
  rfl

end Walked

/-- The two bytes after a percent sign are digits, or they are shown, or they are missing. -/
theorem percent_cases (isFirst : Bool) (front rest : List Char) :
    (∃ a b more, rest = a :: b :: more ∧ (Numeral.isHex a && Numeral.isHex b) = true ∧
      ∃ digits, range? (Text.bytes (front ++ rest)) (Text.width front) (Text.width front + 2) =
        some digits ∧ all digits Numeral.isHex = true) ∨
    (Name.localPart isFirst ('%' :: rest) =
        .fault (.percent (String.ofList (Text.shown 2 rest))) [] 3 ∧
      ∃ digits, range? (Text.bytes (front ++ rest)) (Text.width front) (Text.width front + 2) =
        some digits ∧ all digits Numeral.isHex = false ∧ lossy digits = Text.shown 2 rest) ∨
    (Name.localPart isFirst ('%' :: rest) = .unfinished ∧
      range? (Text.bytes (front ++ rest)) (Text.width front) (Text.width front + 2) = none) := by
  rw [range?_take]
  by_cases pair : ∃ a b more, rest = a :: b :: more ∧ (Numeral.isHex a && Numeral.isHex b) = true
  · obtain ⟨a, b, more, rfl, hex⟩ := pair
    have both := Bool.and_eq_true_iff.mp hex
    have size : Text.width [a, b] = 2 := width_of_ascii [a, b]
      (by simp [isAscii_isHex a both.1, isAscii_isHex b both.2])
    have within : 2 ≤ Text.width (a :: b :: more) := by
      have positive := And.intro a.utf8Size_pos b.utf8Size_pos
      rw [Text.width_cons, Text.width_cons]
      omega
    refine .inl ⟨a, b, more, rfl, hex, _, if_pos within, ?_⟩
    have taken : (Text.bytes (a :: b :: more)).take 2 = Text.bytes [a, b] := by
      rw [← size]
      exact Text.take_bytes [a, b] more
    rw [taken, all_bytes isAscii_isHex]
    simp [both]
  · have fault : Name.localPart isFirst ('%' :: rest) = Name.percentFault rest := by
      rw [Name.localPart.eq_def]
      obtain _ | ⟨a, _ | ⟨b, more⟩⟩ := rest
      · rfl
      · rfl
      · have hex : ¬ (Numeral.isHex a && Numeral.isHex b) = true := fun hex =>
          pair ⟨a, b, more, rfl, hex⟩
        dsimp only
        rw [if_pos rfl, if_neg hex]
    rw [fault, Name.percentFault]
    right
    cases cut : Text.cut 2 rest with
    | short => exact .inr ⟨rfl, if_neg (Nat.not_le.mpr (Text.lt_of_cut_short cut))⟩
    | inside =>
      exact .inl ⟨rfl, _, if_pos (Text.cut_inside_le cut), all_inside isAscii_isHex cut,
        lossy_take 2 rest⟩
    | exact digits more =>
      obtain ⟨rfl, size⟩ := Text.cut_eq_exact.mp cut
      have within : 2 ≤ Text.width (digits ++ more) := by
        rw [Text.width_append]
        omega
      refine .inl ⟨rfl, _, if_pos within, ?_, lossy_take 2 _⟩
      rw [← size, Text.take_bytes, all_bytes isAscii_isHex, Bool.eq_false_iff]
      intro hex
      rw [Brace.width_of_all_isHex hex] at size
      obtain _ | ⟨a, _ | ⟨b, _ | ⟨c, digits⟩⟩⟩ := digits
      · cases size
      · cases size
      · exact pair ⟨a, b, more, rfl, by simpa using hex⟩
      · simp at size

theorem isAscii_escapable : IsAscii Fault.escapable.toList.contains := by
  intro c escapable
  have each : Fault.escapable.toList.all (fun d => d.toNat < 128) = true := by decide
  exact of_decide_eq_true (List.all_eq_true.mp each c (List.contains_iff_mem.mp escapable))

variable {rounds position : Nat}

/-- A local name is read as in the text, whatever was read of it before. -/
def Agrees (rounds position : Nat) : Prop := ∀ (walked : Walked) (text : List Char),
  Text.width text < rounds →
    localPart (Text.bytes (walked.read ++ text)) position rounds (Text.width walked.read)
      (Text.width walked.copied) walked.dots walked.value = (walked.result text).sizes position

/-- What goes on over some characters agrees where it ends. -/
theorem Agrees.goOn (agrees : Agrees rounds position) (walked : Walked) (front rest : List Char)
    (nonempty : front ≠ []) (reads : Name.localPart walked.read.isEmpty (front ++ rest) =
      (Name.localPart false rest).push front front) (enough : Text.width rest < rounds) :
    localPart (Text.bytes (walked.read ++ (front ++ rest))) position rounds
      (Text.width walked.read + Text.width front) (Text.width walked.copied) 0 walked.value =
      (walked.result (front ++ rest)).sizes position := by
  rw [walked.result_goOn nonempty reads, ← agrees (walked.goOn front) rest enough,
    walked.read_goOn, List.append_assoc, Text.width_append]
  rfl

/-- A percent sign: digits are read over, and anything else is a fault. -/
theorem Agrees.percent (agrees : Agrees rounds position) (walked : Walked) (rest : List Char)
    (enough : Text.width rest < rounds) :
    localPart (Text.bytes (walked.read ++ '%' :: rest)) position (rounds + 1)
      (Text.width walked.read) (Text.width walked.copied) walked.dots walked.value =
      (walked.result ('%' :: rest)).sizes position := by
  have place : Text.width walked.read + 1 = Text.width (walked.read ++ ['%']) :=
    (width_snoc walked.read (by decide)).symm
  have stop : Text.width walked.read + 3 = Text.width (walked.read ++ ['%']) + 2 := by
    rw [← place]
  rw [localPart, suffix_bytes, Access.value_bind, character?_bytes]
  dsimp only
  rw [if_pos rfl, place, stop]
  rcases percent_cases walked.read.isEmpty (walked.read ++ ['%']) rest with
    ⟨a, b, more, rfl, hex, digits, range, good⟩ | ⟨fault, digits, range, bad, shown⟩ |
    ⟨ended, range⟩
  · rw [← List.append_cons] at range
    rw [range, Access.need_some, Access.value_bind, if_pos good, ← stop]
    have both := Bool.and_eq_true_iff.mp hex
    have size : Text.width ['%', a, b] = 3 := width_of_ascii ['%', a, b]
      (by simp [isAscii_isHex a both.1, isAscii_isHex b both.2])
    have narrower : Text.width more < rounds := by
      rw [Text.width_cons, Text.width_cons] at enough
      omega
    have inner := agrees.goOn walked ['%', a, b] more (List.cons_ne_nil _ _)
      (Name.localPart_percent hex more) narrower
    rwa [size] at inner
  · rw [← List.append_cons] at range
    rw [range, Access.need_some, Access.value_bind, bad, shown, walked.result_fault fault, ← stop]
    rfl
  · rw [← List.append_cons] at range
    rw [range, walked.result_unfinished ended]
    rfl

theorem Agrees.backslash (agrees : Agrees rounds position) (walked : Walked) (rest : List Char)
    (enough : Text.width rest < rounds) :
    localPart (Text.bytes (walked.read ++ '\\' :: rest)) position (rounds + 1)
      (Text.width walked.read) (Text.width walked.copied) walked.dots walked.value =
      (walked.result ('\\' :: rest)).sizes position := by
  rw [localPart, suffix_bytes, Access.value_bind, character?_bytes]
  dsimp only
  rw [if_neg (by decide), if_pos rfl, peek_after walked.read rest (by decide)]
  cases rest with
  | nil =>
    rw [peek_nil, walked.result_unfinished rfl]
    rfl
  | cons d more =>
    rw [peek_first, Access.need_some, Access.value_bind, class_firstByte isAscii_escapable]
    by_cases escapable : Fault.escapable.toList.contains d = true
    · have narrow := isAscii_escapable d escapable
      have slice := decoded_bytes walked.copied (walked.pending ++ walked.tail) ('\\' :: d :: more)
        position
      have place : Text.width walked.copied + Text.width (walked.pending ++ walked.tail) =
          Text.width walked.read := (Text.width_append ..).symm
      have whole : walked.copied ++ (walked.pending ++ walked.tail ++ '\\' :: d :: more) =
          walked.read ++ '\\' :: d :: more := by
        simp [Walked.read]
      have stop : Text.width walked.read + 2 = Text.width (walked.read ++ ['\\', d]) := by
        rw [Text.width_append, width_of_ascii ['\\', d] (by simp [narrow])]
        rfl
      rw [place, whole] at slice
      rw [if_pos escapable, slice, Access.value_bind, firstByte_of_ascii narrow,
        walked.result_goOnEscaped (Name.localPart_backslash escapable more),
        ← agrees (walked.goOnEscaped d) more (width_lt_of_cons (Nat.lt_succ_of_lt enough)),
        walked.read_goOnEscaped, List.append_assoc, stop]
      rfl
    · have fault : Name.localPart walked.read.isEmpty ('\\' :: d :: more) =
          .fault (.localEscape (Text.firstByte d)) [] 2 := by
        rw [Name.localPart.eq_def]
        dsimp only
        rw [if_neg (by decide), if_pos rfl, if_neg escapable]
      rw [if_neg escapable, walked.result_fault fault]
      rfl

theorem Agrees.other (agrees : Agrees rounds position) (walked : Walked) (rest : List Char)
    (percent : c ≠ '%') (backslash : c ≠ '\\') (enough : Text.width rest < rounds) :
    localPart (Text.bytes (walked.read ++ c :: rest)) position (rounds + 1)
      (Text.width walked.read) (Text.width walked.copied) walked.dots walked.value =
      (walked.result (c :: rest)).sizes position := by
  rw [localPart, suffix_bytes, Access.value_bind, character?_bytes]
  dsimp only
  rw [if_neg percent, if_neg backslash]
  have goOn (inside : (c = ':' || if walked.read.isEmpty then Name.isStart c || c.isDigit
      else Name.isInner c) = true) := agrees.goOn walked [c] rest (List.cons_ne_nil _ _)
    (Name.localPart_plain percent backslash inside rest) enough
  have stop (outside : ¬ (c = ':' || if walked.read.isEmpty then Name.isStart c || c.isDigit
      else Name.isInner c) = true) (noDot : ¬ (!walked.read.isEmpty && c = '.') = true) :
      localEnd (Text.bytes (walked.read ++ c :: rest)) position (Text.width walked.read)
        (Text.width walked.copied) walked.dots walked.value =
        (walked.result (c :: rest)).sizes position := by
    have stops : Name.localPart walked.read.isEmpty (c :: rest) = .found [] [] (c :: rest) := by
      rw [Name.localPart.eq_def]
      dsimp only
      rw [if_neg percent, if_neg backslash, if_neg outside, if_neg noDot]
    rw [walked.localEnd_eq, walked.result_stop stops]
  rw [Text.width_cons, Text.width_nil, Nat.add_zero] at goOn
  by_cases begun : Text.width walked.read = 0
  · have fresh : walked.read.isEmpty = true := by
      rw [List.isEmpty_iff]
      exact width_eq_zero.mp begun
    have none : walked.dots = 0 := by
      rw [← walked.width_tail, walked.tail_eq_nil fresh, Text.width_nil]
    rw [fresh] at goOn stop
    rw [if_pos begun]
    by_cases inside : (Name.isStart c || c = ':' || c.isDigit) = true
    · rw [if_pos inside, none]
      exact goOn (by simpa [or_assoc, or_left_comm] using inside)
    · rw [if_neg inside]
      exact stop (by simpa [or_assoc, or_left_comm] using inside) Bool.false_ne_true
  · have fresh : walked.read.isEmpty = false := by
      rw [Bool.eq_false_iff, ne_eq, List.isEmpty_iff]
      rintro none
      rw [none] at begun
      exact begun rfl
    rw [fresh] at goOn stop
    rw [if_neg begun]
    by_cases inside : (Name.isInner c || c = ':') = true
    · rw [if_pos inside]
      exact goOn (by simpa [or_comm] using inside)
    · rw [if_neg inside]
      have outside : ¬ (c = ':' || Name.isInner c) = true := by simpa [and_comm] using inside
      by_cases dot : c = '.'
      · subst dot
        rw [if_pos rfl, walked.result_goOnDot fresh, ← agrees walked.goOnDot rest enough,
          walked.read_goOnDot, ← List.append_cons, width_snoc walked.read (by decide)]
        rfl
      · rw [if_neg dot]
        exact stop outside (by simp [dot])

/-- A local name is read as in the text. -/
theorem agrees (rounds position : Nat) : Agrees rounds position := by
  induction rounds with
  | zero => exact fun _ _ enough => absurd enough (Nat.not_lt_zero _)
  | succ rounds ih =>
    intro walked text enough
    cases text with
    | nil =>
      rw [localPart, suffix_bytes, Access.value_bind, character?_nil, walked.result_stop rfl,
        ← walked.localEnd_eq position []]
    | cons c rest =>
      have later := width_lt_of_cons enough
      by_cases percent : c = '%'
      · subst percent
        exact ih.percent walked rest later
      · by_cases backslash : c = '\\'
        · subst backslash
          exact ih.backslash walked rest later
        · exact ih.other walked rest percent backslash later

/-- The whole of a local name. -/
theorem localPart_eq (position : Nat) (text : List Char) :
    localPart (Text.bytes text) position (limit (Text.bytes text)) 0 0 0 [] =
      (Name.localPart true text).sizes position := by
  have whole := agrees (limit (Text.bytes text)) position ⟨[], [], 0, []⟩ text (lt_limit [] text)
  refine whole.trans (congrArg _ ?_)
  rw [Walked.result]
  dsimp only [Walked.read, Walked.tail]
  simp only [List.replicate_zero, List.append_nil, List.nil_append, List.isEmpty_nil]
  cases Name.localPart true text <;> rfl

/-! ### Prefixes and words -/

/-- What stops the characters of a name. -/
def stopOf (front rest : List Char) : NameEnd :=
  if rest.head? = some ':' then .colon (Text.width front + 1) else .other (Text.width front)

/-- Behind its first character, a name goes on over inner characters and dots. -/
theorem nameEnd_inner (nonempty : front ≠ []) (text : List Char)
    (enough : Text.width text < rounds) :
    nameEnd (Text.bytes (front ++ text)) rounds (Text.width front) =
      .value (.ok (stopOf (front ++ text.takeWhile Name.isInnerOrDot)
        (text.dropWhile Name.isInnerOrDot))) := by
  induction text generalizing front rounds with
  | nil =>
    obtain ⟨rounds, rfl⟩ := Nat.exists_eq_add_one_of_ne_zero (Nat.ne_zero_of_lt enough)
    rw [nameEnd, suffix_bytes, Access.value_bind, character?_nil]
    simp [stopOf]
  | cons c rest ih =>
    obtain ⟨rounds, rfl⟩ := Nat.exists_eq_add_one_of_ne_zero (Nat.ne_zero_of_lt enough)
    have begun : ¬ Text.width front = 0 := Nat.ne_of_gt (TokenSequence.width_pos nonempty)
    rw [nameEnd, suffix_bytes, Access.value_bind, character?_bytes]
    dsimp only
    rw [if_neg begun]
    by_cases colon : c = ':'
    · subst colon
      have outside : Name.isInnerOrDot ':' = false := by decide
      have size : ':'.utf8Size = 1 := by decide
      rw [if_pos rfl, List.takeWhile_cons_of_neg (by simp [outside]),
        List.dropWhile_cons_of_neg (by simp [outside]), List.append_nil, size]
      rfl
    · rw [if_neg colon]
      by_cases inside : Name.isInnerOrDot c = true
      · have longer : front ++ [c] ≠ [] := by simp
        have inner := ih longer (width_lt_of_cons enough)
        rw [if_pos inside, List.takeWhile_cons_of_pos inside, List.dropWhile_cons_of_pos inside]
        simpa [Text.width_append] using inner
      · rw [if_neg inside, List.takeWhile_cons_of_neg inside, List.dropWhile_cons_of_neg inside,
          List.append_nil]
        simp [stopOf, colon]

theorem trimDots_dot (text : List Char) : Name.trimDots (text ++ ['.']) = Name.trimDots text :=
  Name.trimDots_append text (by simp)

theorem trimDots_other (other : c ≠ '.') (text : List Char) :
    Name.trimDots (text ++ [c]) = text ++ [c] := by
  induction text with
  | nil => simp [Name.trimDots, other]
  | cons d text ih => simp [Name.trimDots, ih]

/-- The last byte of a text is a dot if and only if its last character is one. -/
theorem getLast?_bytes (front : List Char) (c : Char) :
    (Text.bytes (front ++ [c])).getLast?.map letter = some '.' ↔ c = '.' := by
  obtain ⟨first, later, encoded, -⟩ := Utf8.exists_reads c
  have nonempty : first :: later ≠ [] := List.cons_ne_nil _ _
  have member : (first :: later).getLast nonempty ∈ String.utf8EncodeChar c := by
    rw [encoded]
    exact List.getLast_mem nonempty
  have same := class_bytes (isAscii_eq (a := '.') (by decide)) c _ member
  have last : (Text.bytes (front ++ [c])).getLast? = some ((first :: later).getLast nonempty) := by
    rw [Text.bytes_append, Text.bytes, Text.bytes, List.flatMap_singleton, encoded,
      List.getLast?_append, List.getLast?_eq_some_getLast nonempty, Option.some_or]
  rw [last, Option.map_some, Option.some.injEq]
  simpa using same

theorem slice_front (front rest : List Char) :
    slice (Text.bytes (front ++ rest)) 0 (Text.width front) = .value (Text.bytes front) := by
  have range := range?_bytes [] front rest
  rw [List.nil_append, Text.width_nil, Nat.zero_add] at range
  rw [slice, range, Access.sure_some]

/-- The dots at the end of a word are left, byte by byte. -/
theorem trimWord_eq (front rest : List Char) (enough : Text.width front < rounds) :
    trimWord (Text.bytes (front ++ rest)) rounds (Text.width front) =
      .value (Text.width (Name.trimDots front)) := by
  obtain ⟨rounds, rfl⟩ := Nat.exists_eq_add_one_of_ne_zero (Nat.ne_zero_of_lt enough)
  induction front using List.reverseRecOn generalizing rest rounds with
  | nil =>
    rw [trimWord, slice_front]
    rfl
  | append_singleton front c ih =>
    rw [trimWord, slice_front, Access.value_bind]
    by_cases dot : c = '.'
    · subst dot
      have size := width_snoc front (c := '.') (by decide)
      have before : minus (Text.width (front ++ ['.'])) 1 = .value (Text.width front) := by
        rw [size, minus, if_pos (by omega), Nat.add_sub_cancel]
      obtain ⟨rounds, rfl⟩ : ∃ fewer, rounds = fewer + 1 := ⟨rounds - 1, by omega⟩
      rw [if_pos ((getLast?_bytes front '.').mpr rfl), before, Access.value_bind, trimDots_dot,
        List.append_assoc]
      exact ih _ rounds (by omega)
    · rw [if_neg fun last => dot ((getLast?_bytes front c).mp last), trimDots_other dot]
      rfl

theorem scan_prefixed {front tail : List Char}
    (runs : Name.run (front ++ ':' :: tail) = (front, ':' :: tail)) :
    Name.scan (front ++ ':' :: tail) =
      if front.getLast? = some '.' then
        .fault (.prefixDot (String.ofList front)) [] (Text.width front + 1)
      else ((Name.localPart true tail).map (Name.Shape.prefixed front)).after (front ++ [':']) := by
  rw [Name.scan, runs]
  rfl

theorem scan_word {front rest : List Char} (runs : Name.run (front ++ rest) = (front, rest))
    (noColon : rest.head? ≠ some ':') :
    Name.scan (front ++ rest) = .found (.word (Name.trimDots front)) (Name.trimDots front)
      ((front ++ rest).drop (Name.trimDots front).length) := by
  rw [Name.scan, runs]
  dsimp only
  split
  next => exact absurd rfl noColon
  next => rfl

/-- A name that goes as far as some front is read as in the text. -/
theorem name_of_end {front rest : List Char} (runs : Name.run (front ++ rest) = (front, rest))
    (ends : nameEnd (Text.bytes (front ++ rest)) (limit (Text.bytes (front ++ rest))) 0 =
      .value (.ok (stopOf front rest))) :
    name (Text.bytes (front ++ rest)) = (Name.scan (front ++ rest)).sizes 0 := by
  rw [name, ends, Access.value_bind, stopOf]
  by_cases colon : rest.head? = some ':'
  · obtain ⟨tail, rfl⟩ := List.head?_eq_some_iff.mp colon
    rw [if_pos colon, scan_prefixed runs]
    dsimp only
    have before : minus (Text.width front + 1) 1 = .value (Text.width front) := by
      rw [minus, if_pos (by omega), Nat.add_sub_cancel]
    have slice := decoded_bytes [] front (':' :: tail) 0
    rw [List.nil_append, Text.width_nil, Nat.zero_add] at slice
    rw [before, Access.value_bind, slice, Access.value_bind]
    dsimp only
    by_cases dot : front.getLast? = some '.'
    · rw [if_pos dot, if_pos dot]
      simp [Scan.sizes]
    · have behind : Text.width front + 1 = Text.width (front ++ [':']) :=
        (width_snoc front (by decide)).symm
      rw [if_neg dot, if_neg dot, behind, List.append_cons, suffix_bytes, Access.value_bind,
        localPart_eq]
      cases Name.localPart true tail <;>
        simp [Scan.map, Scan.build, Scan.after, Scan.sizes, Except.map, Nat.add_assoc]
  · have enough : Text.width front < limit (Text.bytes (front ++ rest)) := by
      rw [limit, Text.length_bytes, Text.width_append]
      omega
    obtain ⟨more, split⟩ := (Name.trimDots_front front).trans (List.prefix_append front rest)
    have spelled := spell_front (Name.trimDots front) more Name.Shape.word
    rw [split] at spelled
    rw [if_neg colon, scan_word runs colon]
    dsimp only
    rw [trimWord_eq front rest enough, Access.value_bind, spelled]
    rfl

/-- A prefixed name or a word is read as in the text. -/
theorem name_eq (text : List Char) : name (Text.bytes text) = (Name.scan text).sizes 0 := by
  cases text with
  | nil => exact @name_of_end [] [] rfl rfl
  | cons c rest =>
    have first : nameEnd (Text.bytes (c :: rest)) (limit (Text.bytes (c :: rest))) 0 =
        if c = ':' then .value (.ok (.colon (0 + c.utf8Size)))
        else if Name.isLetter c then
          nameEnd (Text.bytes (c :: rest)) (Text.bytes (c :: rest)).length (0 + c.utf8Size)
        else .value (.ok .nothing) := by
      rw [limit, nameEnd, suffix_zero, Access.value_bind, character?_bytes]
      rfl
    rw [Nat.zero_add] at first
    by_cases colon : c = ':'
    · subst colon
      have size : ':'.utf8Size = 1 := by decide
      rw [if_pos rfl, size] at first
      have runs : Name.run ([] ++ ':' :: rest) = ([], ':' :: rest) := by
        rw [List.nil_append, Name.run, if_neg (by decide)]
      exact name_of_end runs first
    · rw [if_neg colon] at first
      by_cases isLetter : Name.isLetter c = true
      · have whole : c :: rest =
            c :: rest.takeWhile Name.isInnerOrDot ++ rest.dropWhile Name.isInnerOrDot := by
          rw [List.cons_append, List.takeWhile_append_dropWhile]
        have runs : Name.run (c :: rest) =
            (c :: rest.takeWhile Name.isInnerOrDot, rest.dropWhile Name.isInnerOrDot) := by
          rw [Name.run, if_pos isLetter]
        have enough : Text.width rest < (Text.bytes (c :: rest)).length := by
          rw [Text.length_bytes]
          exact width_lt_of_cons (Nat.lt_succ_self _)
        have inner := nameEnd_inner (List.cons_ne_nil c []) rest enough
        have place : Text.width [c] = c.utf8Size := Nat.add_zero _
        rw [place, List.singleton_append, List.singleton_append] at inner
        rw [if_pos isLetter, inner] at first
        rw [whole] at runs first ⊢
        exact name_of_end runs first
      · have outside : Name.run (c :: rest) = ([], c :: rest) := by
          rw [Name.run, if_neg isLetter]
        have scanned := @scan_word [] (c :: rest) outside (by simpa using colon)
        rw [if_neg isLetter] at first
        rw [List.nil_append] at scanned
        rw [name, first, Access.value_bind, scanned]
        rfl

theorem word_of_scan (found : Name.scan text = .found (.word word) lexeme rest) :
    lexeme = word := by
  unfold Name.scan at found
  dsimp only at found
  split at found
  · split at found
    · cases found
    · generalize Name.localPart true _ = inner at found
      cases inner <;> simp [Scan.map, Scan.build, Scan.after] at found
  · cases found
    rfl

/-- A prefixed name or a keyword is read as in the text. -/
theorem nameOrKeyword_eq (c : Char) (rest : List Char) :
    nameOrKeyword (Text.bytes (c :: rest)) = (Token.scanName c (c :: rest)).sizes 0 := by
  rw [nameOrKeyword, name_eq, Token.scanName]
  cases scanned : Name.scan (c :: rest) with
  | unfinished => rfl
  | fault => rfl
  | found shape lexeme last =>
    cases shape with
    | prefixed => rfl
    | word word =>
      obtain rfl := word_of_scan scanned
      rw [Scan.sizes, Access.value_bind]
      dsimp only
      by_cases empty : lexeme.isEmpty = true
      · rw [if_pos empty, if_pos empty, character?_bytes]
        simp [Scan.sizes]
      · rw [if_neg empty, if_neg empty]
        cases Keyword.ofWord? (String.ofList lexeme) with
        | none => simp [Scan.sizes]
        | some => rfl

/-! ### Language tags -/

/-- A class of characters that are none after an ASCII character. -/
theorem isAscii_upTo (last : Char) (ascii : last.toNat < 128)
    (below : ∀ c, isOne c = true → c.val ≤ last.val) : IsAscii isOne := fun c one =>
  Nat.lt_of_le_of_lt (UInt32.le_iff_toNat_le.mp (below c one)) ascii

theorem isAscii_isDigit : IsAscii Char.isDigit :=
  isAscii_upTo '9' (by decide) fun _ digit =>
    of_decide_eq_true ((Bool.and_eq_true _ _).mp digit).2

theorem isAscii_isAlpha : IsAscii Char.isAlpha :=
  have upper : IsAscii Char.isUpper := isAscii_upTo 'Z' (by decide) fun _ letter =>
    (of_decide_eq_true letter).2
  have lower : IsAscii Char.isLower := isAscii_upTo 'z' (by decide) fun _ letter =>
    of_decide_eq_true ((Bool.and_eq_true _ _).mp letter).2
  upper.or lower

theorem isAscii_isAlphanum : IsAscii Char.isAlphanum := isAscii_isAlpha.or isAscii_isDigit

theorem width_takeWhile_eq_zero {p : Char → Bool} {text : List Char} :
    Text.width (text.takeWhile p) = 0 ↔ ¬ text.head?.any p = true := by
  rw [width_eq_zero]
  cases text with
  | nil => simp
  | cons c rest => by_cases holds : p c <;> simp [holds]

/-- A subtag goes as far as its letters and digits. -/
theorem subtags_block (text : List Char) : Token.languageTag.subtags true text =
    text.takeWhile Char.isAlphanum ++
      Token.languageTag.subtags false (text.dropWhile Char.isAlphanum) := by
  induction text with
  | nil => rfl
  | cons c rest ih =>
    by_cases alphanum : c.isAlphanum = true
    · rw [Token.languageTag.subtags, if_pos (by simp [alphanum]), ih,
        List.takeWhile_cons_of_pos alphanum, List.dropWhile_cons_of_pos alphanum, List.cons_append]
    · rw [List.takeWhile_cons_of_neg alphanum, List.dropWhile_cons_of_neg alphanum,
        List.nil_append, Token.languageTag.subtags, Token.languageTag.subtags]
      simp [alphanum]

/-- The subtags of a language tag are read block by block as in the text. -/
theorem subtags_eq (front text : List Char) (enough : Text.width text < rounds) :
    subtags (Text.bytes (front ++ text)) rounds (Text.width front) =
      .value (Text.width front + Text.width (Token.languageTag.subtags false text)) := by
  induction rounds generalizing front text with
  | zero => exact absurd enough (Nat.not_lt_zero _)
  | succ rounds ih =>
    rw [subtags]
    by_cases hyphen : text.head? = some '-'
    · obtain ⟨rest, rfl⟩ := List.head?_eq_some_iff.mp hyphen
      have next : Text.width front + 1 = Text.width (front ++ ['-']) :=
        (width_snoc front (by decide)).symm
      rw [if_pos ((peek_eq_iff front _ (by decide)).mpr hyphen), next, List.append_cons,
        suffix_bytes, Access.value_bind, countWhile_bytes isAscii_isAlphanum,
        Token.languageTag.subtags, Bool.false_and, Bool.false_or, decide_eq_true rfl, Bool.true_and]
      dsimp only
      by_cases begins : rest.head?.any Char.isAlphanum = true
      · have split : rest.takeWhile Char.isAlphanum ++ rest.dropWhile Char.isAlphanum = rest :=
          List.takeWhile_append_dropWhile
        have positive : ¬ Text.width (rest.takeWhile Char.isAlphanum) = 0 :=
          fun none => width_takeWhile_eq_zero.mp none begins
        have sizes := congrArg Text.width split
        rw [Text.width_append] at sizes
        have place : Text.width (front ++ ['-'] ++ rest.takeWhile Char.isAlphanum) =
            Text.width front + Text.width (rest.takeWhile Char.isAlphanum) + 1 := by
          rw [Text.width_append, ← next]
          omega
        have shorter := width_lt_of_cons enough
        have inner := ih (front ++ ['-'] ++ rest.takeWhile Char.isAlphanum)
          (rest.dropWhile Char.isAlphanum) (by omega)
        rw [List.append_assoc _ (rest.takeWhile _), split, place] at inner
        rw [if_neg positive, inner, if_pos begins, subtags_block, Text.width_cons,
          Text.width_append]
        have size : '-'.utf8Size = 1 := by decide
        rw [size]
        congr 1
        omega
      · rw [if_pos (width_takeWhile_eq_zero.mpr begins), if_neg begins]
        rfl
    · rw [if_neg fun same => hyphen ((peek_eq_iff front text (by decide)).mp same)]
      cases text with
      | nil => rfl
      | cons c rest =>
        have other : c ≠ '-' := by simpa using hyphen
        rw [Token.languageTag.subtags, if_neg (by simp [other])]
        rfl

/-- The size of a language tag is that of the tag in the text. -/
theorem languageSize_eq (rest : List Char) :
    languageSize (Text.bytes ('@' :: rest)) = .value
      (if (Token.languageTag rest).isEmpty then none
        else some (1 + Text.width (Token.languageTag rest))) := by
  have behind : suffix (Text.bytes ('@' :: rest)) 1 = .value (Text.bytes rest) :=
    suffix_bytes ['@'] rest
  rw [languageSize, behind, Access.value_bind, countWhile_bytes isAscii_isAlpha, Token.languageTag]
  dsimp only
  have split : rest.takeWhile Char.isAlpha ++ rest.dropWhile Char.isAlpha = rest :=
    List.takeWhile_append_dropWhile
  generalize rest.takeWhile Char.isAlpha = letters at *
  generalize rest.dropWhile Char.isAlpha = last at *
  subst split
  rw [List.drop_left]
  by_cases none : letters.isEmpty = true
  · rw [if_pos none, if_pos (width_eq_zero.mpr (List.isEmpty_iff.mp none))]
    rfl
  · have some : ¬ Text.width letters = 0 := fun zero =>
      none (List.isEmpty_iff.mpr (width_eq_zero.mp zero))
    have read := subtags_eq ('@' :: letters) last (lt_limit ('@' :: letters) last)
    have size : '@'.utf8Size = 1 := by decide
    rw [Text.width_cons, size, List.cons_append] at read
    have whole : (letters ++ Token.languageTag.subtags false last).isEmpty = false := by
      cases letters with
      | nil => exact absurd rfl none
      | cons => rfl
    rw [if_neg none, if_neg some, read, Access.value_bind, whole, Text.width_append, Nat.add_assoc]
    rfl

/-- What begins with an at sign is read as in the text. -/
theorem atSign_eq (rest : List Char) :
    atSign (Text.bytes ('@' :: rest)) = (Token.scanAt rest).sizes 0 := by
  have second : peek (Text.bytes ('@' :: rest)) 1 = peek (Text.bytes rest) 0 :=
    peek_here ['@'] rest
  have behind : suffix (Text.bytes ('@' :: rest)) 1 = .value (Text.bytes rest) :=
    suffix_bytes ['@'] rest
  have size : '@'.utf8Size = 1 := by decide
  have ascii : IsAscii fun c => c = '<' || c = '_' :=
    (isAscii_eq (by decide)).or (isAscii_eq (by decide))
  rw [atSign, second]
  cases rest with
  | nil => rfl
  | cons c rest =>
    rw [peek_first, behind, Token.scanAt.eq_def]
    dsimp only
    rw [class_firstByte ascii]
    by_cases alone : (c = '<' || c = '_') = true
    · rw [if_pos alone, if_pos (by simpa using alone)]
      rfl
    · rw [if_neg alone, if_neg (by simpa using alone), Access.value_bind, name_eq]
      cases Name.scan (c :: rest) with
      | unfinished => rfl
      | fault cause lead width =>
        simp [Scan.sizes, size, Nat.add_comm, Nat.add_left_comm]
      | found shape lexeme last =>
        cases shape with
        | prefixed =>
          simp [Scan.sizes, size, Nat.add_comm]
        | word =>
          simp only [Scan.sizes, Access.value_bind, languageSize_eq]
          by_cases none : (Token.languageTag (c :: rest)).isEmpty = true
          · rw [if_pos none, if_pos none]
            rfl
          · obtain ⟨more, split⟩ := (Token.languageTag_found none).1
            have spelled := spell_bytes ['@'] (Token.languageTag (c :: rest)) more
              (1 + Text.width (Token.languageTag (c :: rest)))
              fun tag => Token.language (String.ofList tag)
            have one : Text.width ['@'] = 1 := by decide
            rw [split, one] at spelled
            rw [if_neg none, if_neg none]
            refine spelled.trans ?_
            dsimp only
            rw [Text.width_cons, size]

/-! ### Blank nodes -/

/-- Behind its first character, a label goes on over inner characters and dots. -/
theorem labelEnd_inner (begun : 2 < Text.width front) (text : List Char)
    (enough : Text.width text < rounds) :
    labelEnd (Text.bytes (front ++ text)) rounds (Text.width front) =
      .value (.ok (Text.width (front ++ text.takeWhile Name.isInnerOrDot))) := by
  induction text generalizing front rounds with
  | nil =>
    obtain ⟨rounds, rfl⟩ := Nat.exists_eq_add_one_of_ne_zero (Nat.ne_zero_of_lt enough)
    rw [labelEnd, suffix_bytes, Access.value_bind, character?_nil, List.takeWhile_nil,
      List.append_nil]
    rfl
  | cons c rest ih =>
    obtain ⟨rounds, rfl⟩ := Nat.exists_eq_add_one_of_ne_zero (Nat.ne_zero_of_lt enough)
    have later : ¬ Text.width front = 2 := Nat.ne_of_gt begun
    rw [labelEnd, suffix_bytes, Access.value_bind, character?_bytes]
    by_cases inside : Name.isInnerOrDot c = true
    · have longer : 2 < Text.width (front ++ [c]) := by
        rw [Text.width_append]
        omega
      have inner := ih longer (width_lt_of_cons enough)
      have place : Text.width (front ++ [c]) = Text.width front + c.utf8Size := by
        rw [Text.width_append]
        rfl
      rw [← List.append_cons, place] at inner
      simp only [inside, begun, decide_true, Bool.and_self, Bool.or_true, if_true]
      rw [inner, List.takeWhile_cons_of_pos inside, ← List.append_cons]
    · simp only [inside, later, Bool.and_false, decide_false, Bool.false_and, Bool.or_self,
        Bool.false_eq_true, if_false]
      rw [List.takeWhile_cons_of_neg inside, List.append_nil]
      rfl

/-- The dots at the end of a label are left, byte by byte. -/
theorem trimLabel_eq (front label rest : List Char) (size : Text.width front = 2)
    (enough : Text.width label < rounds) :
    trimLabel (Text.bytes (front ++ (label ++ rest))) rounds (2 + Text.width label) =
      .value (2 + Text.width (Name.trimDots label)) := by
  obtain ⟨rounds, rfl⟩ := Nat.exists_eq_add_one_of_ne_zero (Nat.ne_zero_of_lt enough)
  induction label using List.reverseRecOn generalizing rest rounds with
  | nil => rfl
  | append_singleton label c ih =>
    have positive := c.utf8Size_pos
    have place : 2 + Text.width (label ++ [c]) = Text.width (front ++ label) + c.utf8Size := by
      rw [Text.width_append, Text.width_append, Text.width_cons, size, Nat.add_assoc]
      rfl
    have before : minus (2 + Text.width (label ++ [c])) 1 =
        .value (Text.width (front ++ label) + (c.utf8Size - 1)) := by
      rw [place, minus, if_pos (by omega), Nat.add_sub_assoc positive]
    have whole : front ++ (label ++ [c] ++ rest) = front ++ label ++ c :: rest := by simp
    rw [trimLabel, if_pos (by rw [Text.width_append, Text.width_cons]; omega), before,
      Access.value_bind, whole]
    by_cases dot : c = '.'
    · subst dot
      have here : peek (Text.bytes (front ++ label ++ '.' :: rest)) (Text.width (front ++ label)) =
          some '.' := by
        rw [peek_here, peek_first, firstByte_of_ascii (by decide)]
      have fewer : Text.width label < rounds := by
        rw [Text.width_append, Text.width_cons] at enough
        omega
      obtain ⟨rounds, rfl⟩ := Nat.exists_eq_add_one_of_ne_zero (Nat.ne_zero_of_lt fewer)
      have size' : Text.width (front ++ label) = 2 + Text.width label := by
        rw [Text.width_append, size]
      have one : '.'.utf8Size - 1 = 0 := by decide
      rw [one, Nat.add_zero, here, Access.sure_some, Access.value_bind, if_pos rfl, trimDots_dot,
        List.append_assoc, size']
      exact ih ('.' :: rest) rounds fewer
    · have alone : ∀ d ∈ [c], (fun d => decide (d = '.')) d = false := by simpa using dot
      have last : c.utf8Size - 1 < Text.width [c] := by
        rw [Text.width_cons]
        omega
      obtain ⟨d, here, other⟩ := peek_among (isAscii_eq (a := '.') (by decide)) alone
        (front ++ label) rest last
      rw [List.singleton_append] at here
      rw [here, Access.sure_some, Access.value_bind, if_neg (of_decide_eq_false other),
        trimDots_other dot]
      rfl

/-- A label begins with some characters more than those that it may go on with. -/
theorem labelEnd_eq (c : Char) (rest : List Char) :
    labelEnd (Text.bytes ('_' :: ':' :: c :: rest))
      (limit (Text.bytes ('_' :: ':' :: c :: rest))) 2 =
      .value (.ok (if (Name.isStart c || c.isDigit) = true then
        2 + Text.width (c :: rest.takeWhile Name.isInnerOrDot) else 2)) := by
  have two : Text.width ['_', ':'] = 2 := by decide
  have opened : suffix (Text.bytes ('_' :: ':' :: c :: rest)) 2 =
      .value (Text.bytes (c :: rest)) := suffix_bytes ['_', ':'] (c :: rest)
  rw [limit, labelEnd, opened, Access.value_bind, character?_bytes]
  by_cases starts : (Name.isStart c || c.isDigit) = true
  · have place : Text.width ['_', ':', c] = 2 + c.utf8Size :=
      (Text.width_append ['_', ':'] [c]).trans (by rw [two]; rfl)
    have positive := c.utf8Size_pos
    have enough : Text.width rest < (Text.bytes ('_' :: ':' :: c :: rest)).length := by
      rw [Text.length_bytes, Text.width_cons, Text.width_cons, Text.width_cons]
      omega
    have inner : labelEnd (Text.bytes ('_' :: ':' :: c :: rest))
        (Text.bytes ('_' :: ':' :: c :: rest)).length (Text.width ['_', ':', c]) =
        .value (.ok (Text.width (['_', ':'] ++ c :: rest.takeWhile Name.isInnerOrDot))) :=
      labelEnd_inner (by rw [place]; omega) rest enough
    rw [place, Text.width_append, two] at inner
    rw [if_pos starts, ← inner]
    simp [starts]
  · rw [if_neg starts]
    simp only [Bool.not_eq_true] at starts
    simp [starts]

/-- A blank node is read as in the text. -/
theorem blankNode_eq (rest : List Char) :
    blankNode (Text.bytes ('_' :: ':' :: rest)) =
      ((Name.blankNode ('_' :: ':' :: rest)).map fun id =>
        Token.blankNode (String.ofList id)).sizes 0 := by
  cases rest with
  | nil => rfl
  | cons c rest =>
    have two : Text.width ['_', ':'] = 2 := by decide
    rw [blankNode, labelEnd_eq, Access.value_bind, Name.blankNode]
    dsimp only
    by_cases starts : (Name.isStart c || c.isDigit) = true
    · have other : c ≠ '.' := by
        rintro rfl
        exact absurd starts (by decide)
      have positive := c.utf8Size_pos
      have split : c :: rest =
          c :: rest.takeWhile Name.isInnerOrDot ++ rest.dropWhile Name.isInnerOrDot := by
        rw [List.cons_append, List.takeWhile_append_dropWhile]
      rw [if_pos starts, if_pos starts, split]
      generalize rest.takeWhile Name.isInnerOrDot = label at *
      generalize rest.dropWhile Name.isInnerOrDot = last at *
      have rounds : Text.width (c :: label) <
          limit (Text.bytes ('_' :: ':' :: (c :: label ++ last))) := by
        rw [limit, Text.length_bytes, Text.width_cons '_', Text.width_cons ':', Text.width_append]
        omega
      have trimmed : trimLabel (Text.bytes ('_' :: ':' :: (c :: label ++ last)))
          (limit (Text.bytes ('_' :: ':' :: (c :: label ++ last)))) (2 + Text.width (c :: label)) =
          .value (2 + Text.width (Name.trimDots (c :: label))) :=
        trimLabel_eq ['_', ':'] (c :: label) last two rounds
      obtain ⟨more, front⟩ := (Name.trimDots_front (c :: label)).trans (List.prefix_append _ last)
      have nonempty : ¬ 2 + Text.width (Name.trimDots (c :: label)) = 2 := by
        rw [Name.trimDots_cons other, Text.width_cons]
        omega
      have spelled := spell_bytes ['_', ':'] (Name.trimDots (c :: label)) more
        (2 + Text.width (Name.trimDots (c :: label))) fun id => Token.blankNode (String.ofList id)
      rw [front, two] at spelled
      rw [trimmed, Access.value_bind, if_neg nonempty]
      refine spelled.trans ?_
      rw [Scan.map, Scan.build, Scan.sizes, ← two, ← Text.width_append]
      rfl
    · rw [if_neg starts, if_neg starts]
      rfl

end ShExCompact.Octets
