import ShExCompact.Proofs.Lexical.Continuations
import ShExCompact.Proofs.Lexical.Lossless

/-! Where the faults of a text are. Each begins at a character and is about some characters from
there on, those of escapes excepted: they are about a number of bytes, and may end inside of a
character. -/
namespace ShExCompact

/-! ### Offsets -/

namespace Text

/-- An offset between two characters, or at an end of the text. -/
def IsBoundary (text : List Char) (offset : Nat) : Prop :=
  ∃ front rest, text = front ++ rest ∧ width front = offset

/-- What a cut inside of a character falls into. -/
theorem cut_inside (inside : cut n text = .inside) :
    ∃ front c rest, text = front ++ c :: rest ∧ width front < n ∧
      n < width front + c.utf8Size := by
  induction text generalizing n with
  | nil => cases n <;> cases inside
  | cons c rest ih =>
    cases n with
    | zero => cases inside
    | succ n =>
      rw [cut] at inside
      split at inside
      case isFalse more => exact ⟨[], c, rest, rfl, Nat.zero_lt_succ n, by simpa using more⟩
      case isTrue fits =>
        cases later : cut (n + 1 - c.utf8Size) rest with
        | exact | short => simp [later, Cut.push] at inside
        | inside =>
          obtain ⟨front, d, last, rfl, before, after⟩ := ih later
          refine ⟨c :: front, d, last, rfl, ?_, ?_⟩
          · rw [width_cons]
            omega
          · rw [width_cons]
            omega

theorem cut_inside_le (inside : cut n text = .inside) : n ≤ width text := by
  obtain ⟨front, c, rest, rfl, -, after⟩ := cut_inside inside
  rw [width_append, width_cons]
  omega

theorem not_isBoundary_of_inside (inside : cut offset text = .inside) :
    ¬ IsBoundary text offset := by
  rintro ⟨front, rest, rfl, rfl⟩
  rw [cut_append] at inside
  cases inside

theorem lt_of_cut_short (short : cut n text = .short) : width text < n := by
  induction text generalizing n with
  | nil =>
    cases n with
    | zero => cases short
    | succ n => exact Nat.zero_lt_succ n
  | cons c rest ih =>
    cases n with
    | zero => cases short
    | succ n =>
      rw [cut] at short
      split at short
      case isFalse => cases short
      case isTrue fits =>
        cases later : cut (n + 1 - c.utf8Size) rest with
        | exact | inside => simp [later, Cut.push] at short
        | short =>
          have inner := ih later
          rw [width_cons]
          omega

/-- An offset in a text is a boundary, unless a cut there falls into a character. -/
theorem isBoundary_or_inside (within : offset ≤ width text) :
    IsBoundary text offset ∨ cut offset text = .inside := by
  cases cut : cut offset text with
  | exact front rest =>
    obtain ⟨split, size⟩ := cut_eq_exact.mp cut
    exact .inl ⟨front, rest, split, size⟩
  | inside => exact .inr rfl
  | short => exact absurd (lt_of_cut_short cut) (Nat.not_lt.mpr within)

end Text

/-! ### Faults -/

namespace Fault

/-- How many bytes a fault of an escape is about, whatever characters they belong to: a backslash
or a percent sign, and what is read after it. -/
def escapeSize? : Fault → Option Nat
  | iriEscape _ | localEscape _ => some 2
  | percent _ => some 3
  | escapeDigits letter _ => if letter = 'u' then some 6 else some 10
  | _ => none

/-- A fault is about some bytes from the beginning of a text on: about whole characters, or about
the bytes of an escape. -/
def Covers (fault : Fault) (size : Nat) (text : List Char) : Prop :=
  (fault.escapeSize? = none ∧
    ∃ front rest, text = front ++ rest ∧ front ≠ [] ∧ Text.width front = size) ∨
  fault.escapeSize? = some size ∧ size ≤ Text.width text

variable {fault : Fault} {size : Nat} {text : List Char}

theorem Covers.characters (kind : fault.escapeSize? = none) (nonempty : front ≠ [])
    (rest : List Char) : fault.Covers (Text.width front) (front ++ rest) :=
  .inl ⟨kind, front, rest, rfl, nonempty, rfl⟩

/-- A backslash and the first byte of the next character. -/
theorem Covers.escaped (kind : fault.escapeSize? = some 2) (c : Char) (rest : List Char) :
    fault.Covers 2 ('\\' :: c :: rest) := by
  refine .inr ⟨kind, ?_⟩
  have size := c.utf8Size_pos
  rw [Text.width_cons, Text.width_cons]
  change 2 ≤ 1 + (c.utf8Size + Text.width rest)
  omega

theorem escapeSize_pos (known : fault.escapeSize? = some size) : 0 < size := by
  unfold escapeSize? at known
  split at known
  case h_4 =>
    split at known
    · cases known
      decide
    · cases known
      decide
  all_goals
    cases known
    try decide

theorem Covers.pos (covers : fault.Covers size text) : 0 < size := by
  rcases covers with ⟨-, front, rest, rfl, nonempty, rfl⟩ | ⟨known, -⟩
  · exact TokenSequence.width_pos nonempty
  · exact escapeSize_pos known

theorem Covers.le_width (covers : fault.Covers size text) : size ≤ Text.width text := by
  rcases covers with ⟨-, front, rest, rfl, -, rfl⟩ | ⟨-, inside⟩
  · rw [Text.width_append]
    exact Nat.le_add_right ..
  · exact inside

end Fault

namespace Scan

/-- A fault of a scan begins at a character of the text and is about some of its bytes. -/
def Placed (text : List Char) : Scan α → Prop
  | fault cause lead width => ∃ rest, text = lead ++ rest ∧ cause.Covers width rest
  | found .. | unfinished => True

theorem Placed.build {make : α → List Char → β} {scan : Scan α} (placed : scan.Placed text) :
    (scan.build make).Placed text := by
  cases scan with
  | fault => exact placed
  | found | unfinished => trivial

theorem Placed.map {change : α → β} {scan : Scan α} (placed : scan.Placed text) :
    (scan.map change).Placed text := placed.build

theorem Placed.after {scan : Scan α} (placed : scan.Placed text) (front : List Char) :
    (scan.after front).Placed (front ++ text) := by
  cases scan with
  | fault cause lead width =>
    obtain ⟨rest, rfl, covers⟩ := placed
    exact ⟨rest, (List.append_assoc ..).symm, covers⟩
  | found | unfinished => trivial

theorem Placed.push {scan : Scan (List Char)} (placed : scan.Placed text)
    (value front : List Char) : (scan.push value front).Placed (front ++ text) :=
  placed.map.after front

/-- A fault right at the beginning. -/
theorem Placed.first (covers : Fault.Covers cause width text) :
    (fault cause [] width : Scan α).Placed text := ⟨text, rfl, covers⟩

end Scan

/-! ### Scanners -/

theorem IriRef.escape_placed (text : List Char) : (escape text).Placed ('\\' :: text) := by
  have point (letter : Char) (size : Nat) (rest : List Char) (narrow : letter.utf8Size = 1)
      (known : ∀ digits, (Fault.escapeDigits letter digits).escapeSize? = some (size + 2)) :
      (codePoint letter size rest).Placed ('\\' :: letter :: rest) := by
    have backslash : '\\'.utf8Size = 1 := by decide
    have bytes (digits : String) (inside : size ≤ Text.width rest) :
        (Fault.escapeDigits letter digits).Covers (size + 2) ('\\' :: letter :: rest) := by
      refine .inr ⟨known digits, ?_⟩
      rw [Text.width_cons, Text.width_cons]
      omega
    unfold codePoint
    cases cut : Text.cut size rest with
    | short => trivial
    | inside => exact .first (bytes "" (Text.cut_inside_le cut))
    | exact digits last =>
      obtain ⟨rfl, rfl⟩ := Text.cut_eq_exact.mp cut
      have inside : Text.width digits ≤ Text.width (digits ++ last) := by
        rw [Text.width_append]
        exact Nat.le_add_right ..
      dsimp only
      split
      · split
        · trivial
        · have covers : (Fault.escapeValue letter (String.ofList digits)
              (Numeral.hexValue digits)).Covers (Text.width ('\\' :: letter :: digits))
              ('\\' :: letter :: digits ++ last) := .characters rfl (by simp) last
          rw [Text.width_cons, Text.width_cons, backslash, narrow] at covers
          have same : 1 + (1 + Text.width digits) = Text.width digits + 2 := by omega
          rw [same] at covers
          exact .first covers
      · exact .first (bytes _ inside)
  cases text with
  | nil => trivial
  | cons c rest =>
    rw [escape]
    split
    next letter =>
      subst letter
      exact point 'u' 4 rest (by decide) fun _ => rfl
    next =>
      split
      next letter =>
        subst letter
        exact point 'U' 8 rest (by decide) fun _ => rfl
      next => exact .first (.escaped rfl c rest)

theorem IriRef.utf8Size_of_isExcluded (excluded : isExcluded c) : c.utf8Size = 1 := by
  unfold isExcluded at excluded
  rw [Bool.or_eq_true, decide_eq_true_eq, List.contains_iff_mem] at excluded
  rcases excluded with control | member
  · rw [Char.utf8Size_eq_one_iff]
    have bound : c.val ≤ ' '.val := control
    exact UInt32.le_trans bound (by decide)
  · have table : "<\"\x7b\x7d|^\x60".toList.all (·.utf8Size = 1) := by decide
    exact of_decide_eq_true (List.all_eq_true.mp table c member)

theorem IriRef.body_placed (text : List Char) : (body text).Placed text := by
  induction text with
  | nil => trivial
  | cons c rest ih =>
    have escaped := escape_placed rest
    unfold body
    split
    · trivial
    · split
      next backslash =>
        subst backslash
        split
        next => exact ih.after ['\\']
        next fault => rwa [fault] at escaped
        next => trivial
      next =>
        split
        next excluded =>
          have narrow := utf8Size_of_isExcluded excluded
          refine .first (.inl ⟨rfl, [c], rest, rfl, List.cons_ne_nil _ _, ?_⟩)
          rw [Text.width_cons, narrow]
          rfl
        next => exact ih.after [c]

theorem Quote.scan_placed (mark : Char) (text : List Char) :
    (scan mark text).Placed (mark :: text) := by
  have short (text : List Char) : (short mark text).Placed text := by
    fun_induction Quote.short mark text with
    | case1 | case2 | case3 => trivial
    | case4 d more _ ih => exact ih.after ['\\', d]
    | case5 c rest _ _ isBreak =>
      refine .first (.inl ⟨rfl, [c], rest, rfl, List.cons_ne_nil _ _, ?_⟩)
      rw [Bool.or_eq_true, decide_eq_true_eq, decide_eq_true_eq] at isBreak
      rcases isBreak with rfl | rfl <;> rfl
    | case6 c rest _ _ _ ih => exact ih.after [c]
  have long (text : List Char) : (long mark text).Placed text := by
    fun_induction Quote.long mark text with
    | case1 | case2 | case4 => trivial
    | case3 d more ih => exact ih.after ['\\', d]
    | case5 c rest _ _ ih => exact ih.after [c]
  unfold scan
  split
  next quotes =>
    obtain ⟨rest, rfl⟩ := List.isPrefixOf_iff_prefix.mp quotes
    exact (long rest).map.after [mark, mark, mark]
  next => exact (short text).map.after [mark]

/-! ### Names -/

namespace Name

theorem percentFault_placed (rest : List Char) : (percentFault rest).Placed ('%' :: rest) := by
  have bytes (found : String) (within : 2 ≤ Text.width rest) :
      (Fault.percent found).Covers 3 ('%' :: rest) := by
    refine .inr ⟨rfl, ?_⟩
    rw [Text.width_cons]
    change 3 ≤ 1 + Text.width rest
    omega
  unfold percentFault
  split
  next => trivial
  next inside => exact .first (bytes _ (Text.cut_inside_le inside))
  next front last whole =>
    obtain ⟨rfl, size⟩ := Text.cut_eq_exact.mp whole
    refine .first (bytes _ ?_)
    rw [Text.width_append]
    omega

theorem localPart_placed (isFirst : Bool) (text : List Char) :
    (localPart isFirst text).Placed text := by
  fun_induction localPart isFirst text with
  | case1 | case5 | case9 | case10 | case12 | case13 => trivial
  | case2 _ a b more _ ih => exact ih.push ['%', a, b] ['%', a, b]
  | case3 | case4 => exact percentFault_placed _
  | case6 _ d more _ _ ih => exact ih.push [d] ['\\', d]
  | case7 _ d more => exact .first (.escaped rfl d more)
  | case8 _ c rest _ _ _ ih => exact ih.push [c] [c]
  | case11 _ c rest _ _ _ _ cause lead width inner ih =>
    rw [inner] at ih
    exact Scan.Placed.after ih [c]

theorem scan_placed (text : List Char) : (scan text).Placed text := by
  have split := run_split text
  unfold scan
  dsimp only
  split
  next tail rest =>
    rw [rest] at split
    split
    next =>
      have covers : (Fault.prefixDot (String.ofList (run text).1)).Covers
          (Text.width ((run text).1 ++ [':'])) ((run text).1 ++ [':'] ++ tail) :=
        .characters rfl (by simp) tail
      rw [List.append_assoc, List.singleton_append, ← split, Text.width_append] at covers
      exact .first covers
    next =>
      have whole : text = (run text).1 ++ [':'] ++ tail := by
        rw [List.append_assoc, List.singleton_append]
        exact split
      generalize (run text).1 ++ [':'] = front at whole ⊢
      subst whole
      exact (localPart_placed true tail).map.after front
  next => trivial

theorem blankNode_placed (rest : List Char) : (blankNode ('_' :: rest)).Placed ('_' :: rest) := by
  have noLabel (more : List Char) :
      (Scan.fault .blankNode [] 2 : Scan (List Char)).Placed ('_' :: ':' :: more) :=
    .first (.characters rfl (List.cons_ne_nil '_' [':']) more)
  have alone : (Scan.fault (.character '_') [] 1 : Scan (List Char)).Placed ('_' :: rest) :=
    .first (.characters rfl (List.cons_ne_nil '_' []) rest)
  unfold blankNode
  split
  next rest' whole =>
    cases whole
    split
    next => exact noLabel []
    next c more =>
      split
      next => trivial
      next => exact noLabel (c :: more)
  next => exact alone

end Name

/-! ### Numbers -/

namespace Number

/-- A number that begins has digits before its exponent. -/
theorem digits_of_starts (begins : starts text) :
    (Mantissa.ofText text).whole ≠ [] ∨ (Mantissa.ofText text).fraction ≠ [] := by
  unfold starts at begins
  unfold Mantissa.ofText
  dsimp only
  rw [List.length_append, ← List.drop_drop]
  generalize text.drop (sign text).length = rest at begins ⊢
  cases rest with
  | nil => cases begins
  | cons c rest =>
    by_cases digit : c.isDigit
    · exact .inl (by simp [digits, digit])
    · right
      have dot : c = '.' ∧ rest.head?.any Char.isDigit := by
        simpa [startsUnsigned, digit] using begins
      obtain ⟨rfl, fraction⟩ := dot
      have none : digits ('.' :: rest) = [] := rfl
      rw [none]
      cases rest with
      | nil => cases fraction
      | cons d rest =>
        have digit : d.isDigit := by simpa using fraction
        simp [digits, digit]

theorem scan_placed (begins : starts text) : (scan text).Placed text := by
  have some := digits_of_starts begins
  obtain ⟨-, after, split⟩ := Mantissa.ofText_valid text
  unfold scan
  generalize Mantissa.ofText text = mantissa at *
  subst split
  dsimp only
  split
  next mark power read =>
    rw [List.drop_left] at read
    obtain ⟨⟨c, more, -, rfl⟩, ⟨last, rfl⟩, -⟩ := exponent?_found read
    have covers (cause : Fault) (kind : cause.escapeSize? = none) :
        cause.Covers (Text.width (mantissa.text ++ c :: more ++ power))
          (mantissa.text ++ (c :: more ++ power ++ last)) := by
      have characters := Fault.Covers.characters kind
        (by simp : mantissa.text ++ c :: more ++ power ≠ []) last
      simpa only [List.append_assoc] using characters
    split
    · exact .first (covers _ rfl)
    · split
      · exact .first (covers _ rfl)
      · trivial
  next =>
    split
    next => trivial
    next noFraction =>
      split
      next noWhole =>
        -- Without digits no number begins, so this fault is never found.
        rw [List.isEmpty_iff] at noWhole
        rw [Bool.not_eq_true', Bool.not_eq_false, List.isEmpty_iff] at noFraction
        exact (some.elim (· noWhole) (· noFraction)).elim
      next => trivial

end Number

/-! ### Tokens -/

namespace Token

theorem scanAt_placed (text : List Char) : (scanAt text).Placed ('@' :: text) := by
  cases text with
  | nil => trivial
  | cons c text =>
    have name := Name.scan_placed (c :: text)
    rw [scanAt]
    split
    next => trivial
    next =>
      split
      next => trivial
      next =>
        dsimp only
        split <;> trivial
      next fault =>
        rw [fault] at name
        exact Scan.Placed.after name ['@']
      next => trivial

theorem scanName_placed (c : Char) (rest : List Char) :
    (scanName c (c :: rest)).Placed (c :: rest) := by
  have name := Name.scan_placed (c :: rest)
  unfold scanName
  split
  next => trivial
  next word lexeme last found =>
    split
    next => exact .first (.characters rfl (List.cons_ne_nil c []) rest)
    next nonempty =>
      split
      next => trivial
      next =>
        obtain ⟨split, -⟩ := Name.scan_selfContained found
        obtain ⟨-, rfl, -⟩ := Name.colonless_of_word found
        rw [split]
        exact .first (.characters rfl (by simpa using nonempty) last)
  next fault => rwa [fault] at name
  next => trivial

theorem scanPlain_placed (c : Char) (rest : List Char) :
    (scanPlain c rest).Placed (c :: rest) := by
  unfold scanPlain
  dsimp only
  split
  · exact ((IriRef.body_placed rest).after [c]).build
  split
  next blank =>
    subst blank
    exact (Name.blankNode_placed rest).map
  split
  · exact (Quote.scan_placed c rest).build
  split
  next sign =>
    subst sign
    exact scanAt_placed rest
  split
  next begins => exact Number.scan_placed begins
  split
  · trivial
  · exact scanName_placed c rest

/-- The faults of a token are in the text that is left: a brace has none. -/
theorem scan_placed (valid : Brace.Kept kept place) (enough : place.rest.length ≤ bound) :
    (scan bound kept place).1.Placed place.rest := by
  obtain ⟨offset, text⟩ := place
  cases text with
  | nil => trivial
  | cons c text =>
    by_cases brace : c = '{'
    · subst brace
      rw [scan_brace bound kept rfl]
      obtain ⟨token, lexeme, rest, found⟩ := (Brace.scan_begins rfl enough valid).1.found
      rw [found]
      trivial
    · rw [scan_plain bound kept brace rfl]
      exact scanPlain_placed c text

end Token

/-! ### Sequences -/

namespace TokenSequence

open Token (scan skip)

/-- A problem begins at a character of the text, and its fault is about bytes from there on. -/
def StandsAt (start : Nat) (text : List Char) (stopped : LexicalProblem) : Prop :=
  ∃ front rest size, text = front ++ stopped.character :: rest ∧
    stopped.extent.start = start + Text.width front ∧
    stopped.extent.stop = stopped.extent.start + size ∧
    stopped.fault.Covers size (stopped.character :: rest)

theorem StandsAt.behind (stands : StandsAt (start + Text.width front) text stopped) :
    StandsAt start (front ++ text) stopped := by
  obtain ⟨inner, rest, size, rfl, first, last, covers⟩ := stands
  refine ⟨front ++ inner, rest, size, (List.append_assoc ..).symm, ?_, last, covers⟩
  rw [first, Text.width_append, Nat.add_assoc]

/-- The problem of a scan that finds no token. -/
theorem StandsAt.first (lead : List Char) {rest : List Char}
    (covers : Fault.Covers cause size rest) :
    StandsAt start (lead ++ rest) ⟨⟨start + Text.width lead, start + Text.width lead + size⟩, cause,
      ((lead ++ rest).drop lead.length).headD Text.replacement⟩ := by
  cases rest with
  | nil => exact absurd covers.le_width (Nat.not_le.mpr covers.pos)
  | cons c rest =>
    rw [List.drop_left]
    exact ⟨lead, rest, size, rfl, rfl, rfl, covers⟩

theorem read_problem_stands (valid : Brace.Kept kept ⟨start, text⟩) (enough : text.length < bound)
    (known : (read bound kept ⟨start, text⟩).problem = some stopped) :
    StandsAt start text stopped := by
  induction bound generalizing kept start text with
  | zero => cases known
  | succ bound ih =>
    obtain ⟨gap, skipped⟩ := Token.skip_skipped start text
    obtain ⟨valid', shorter⟩ := kept_skip valid
    have size : (skip false start text).rest.length ≤ bound := by omega
    have moved := skipped.moved
    rw [skipped.split]
    apply StandsAt.behind
    rw [← moved]
    rw [read] at known
    dsimp only at known
    split at known
    next => cases known
    next some =>
      have placed := Token.scan_placed valid' size
      split at known
      next token lexeme rest later found =>
        have taken := Token.scan_taken valid' size found
        have size' := congrArg List.length taken.split
        have positive := List.length_pos_iff.mpr taken.nonempty
        rw [List.length_append] at size'
        rw [taken.split]
        exact (ih taken.kept (by omega) known).behind
      next cause lead width later found =>
        rw [found] at placed
        obtain ⟨rest, split, covers⟩ := placed
        cases known
        rw [split]
        exact .first lead covers
      next later found =>
        cases known
        have nonempty : (skip false start text).rest ≠ [] := by simpa using some
        exact .first [] (.inl ⟨rfl, _, [], (List.append_nil _).symm, nonempty, rfl⟩)

end TokenSequence

end ShExCompact
