import ShExCompact.Proofs.Lexical.Spelling
import ShExCompact.Proofs.Reading.Problems
import ShExCompact.Proofs.Reading.Terms

/-! Cardinalities as texts. What a range between braces states is a relation between its text and
numbers of any size; a cardinality is printed as a sign or as a range that states its bounds, and a
range that is read has the bounds that its text states, or is refused because one is too large. -/
namespace ShExCompact

/-! ### What ranges state -/

namespace Brace

/-- The number that decimal digits stand for. -/
def value (digits : List Char) : Nat := Nat.ofDigitChars 10 digits 0

/-- The least and the greatest number of occurrences that a range states. -/
inductive States : List Char → Nat → Option Nat → Prop where
  | exactly (least : IsNumber digits) :
      States ('{' :: (digits ++ ['}'])) (value digits) (some (value digits))
  | unbounded (least : IsNumber digits) :
      States ('{' :: (digits ++ [',', '}'])) (value digits) none
  | star (least : IsNumber digits) :
      States ('{' :: (digits ++ [',', '*', '}'])) (value digits) none
  | between (least : IsNumber digits) (greatest : IsNumber more) :
      States ('{' :: (digits ++ ',' :: (more ++ ['}']))) (value digits) (some (value more))

theorem States.isRange (states : States text least greatest) : IsRange text := by
  cases states with
  | exactly number => exact .bounds number .absent
  | unbounded number => exact .bounds number .unbounded
  | star number => exact .bounds number .star
  | between number number' => simpa using IsRange.bounds number (.number number')

theorem IsRange.states (range : IsRange text) : ∃ least greatest, States text least greatest := by
  cases range with
  | bounds number upper =>
    cases upper with
    | absent => exact ⟨_, _, .exactly number⟩
    | unbounded => exact ⟨_, _, .unbounded number⟩
    | star => exact ⟨_, _, .star number⟩
    | number number' => exact ⟨_, _, by simpa using States.between number number'⟩

theorem isNumber_of_digits (digits : text ≠ [] ∧ text.all Char.isDigit) : IsNumber text :=
  ⟨digits.1, List.all_eq_true.mp digits.2⟩

theorem isNumber_toDigits (n : Nat) : IsNumber (Nat.toDigits 10 n) :=
  ⟨Nat.toDigits_ne_nil, fun _ member =>
    Nat.isDigit_of_mem_toDigits (by decide) (by decide) member⟩

@[simp] theorem value_toDigits (n : Nat) : value (Nat.toDigits 10 n) = n :=
  Nat.ofDigitChars_toDigits (by decide) (by decide)

end Brace

open Brace (IsNumber IsRange States value)
open Reading (Settled bind_eq_error bind_eq_ok)

/-! ### Tokens that are ranges -/

namespace Token

theorem number_ne_range (found : Number.scan text = .found token lexeme rest) (raw : String) :
    token ≠ .repeatRange raw := by
  rintro rfl
  simp only [Number.scan] at found
  repeat' split at found
  all_goals cases found

theorem scanPlain_ne_range (found : scanPlain c text = .found token lexeme rest) (raw : String) :
    token ≠ .repeatRange raw := by
  rintro rfl
  unfold scanPlain at found
  dsimp only at found
  split at found
  · obtain ⟨_, -, isIri⟩ := Scan.build_eq_found.mp found
    cases isIri
  split at found
  · obtain ⟨_, -, isBlank⟩ := Scan.map_eq_found.mp found
    cases isBlank
  split at found
  · obtain ⟨_, -, isString⟩ := Scan.build_eq_found.mp found
    cases isString
  split at found
  · simp only [scanAt] at found
    repeat' split at found
    all_goals cases found
  split at found
  · exact number_ne_range found raw rfl
  split at found
  · cases found
  · simp only [scanName] at found
    repeat' split at found
    all_goals cases found

/-- A range is its own text. -/
theorem range_of_first (found : first text = .found (.repeatRange raw) lexeme rest) :
    IsRange lexeme ∧ raw = String.ofList lexeme := by
  cases text with
  | nil => cases found
  | cons c text =>
    by_cases brace : c = '{'
    · subst brace
      have begins := first_brace text
      rw [found] at begins
      generalize '{' :: text = whole at begins
      cases begins with
      | range range => exact ⟨range, rfl⟩
    · rw [first_cons brace] at found
      exact absurd rfl (scanPlain_ne_range found raw)

theorem first_of_isRange (range : IsRange lexeme) :
    first lexeme = .found (.repeatRange (String.ofList lexeme)) lexeme [] := by
  have begins : Brace.Begins (lexeme ++ []) _ := .range range
  rw [List.append_nil] at begins
  obtain ⟨more, rfl⟩ := begins.split.2
  exact (first_brace more).unique begins

end Token

namespace TokenSequence

/-- A token of a text is the first token of its own text. -/
theorem first_of_mem (member : lexeme ∈ (ofText text).lexemes) :
    Token.first lexeme.text.toList = .found lexeme.token lexeme.text.toList [] := by
  have alone := (lossless_ofText text).alone lexeme member
  have spells := (ofText_iff_spells lexeme.text.toList _).mp
    ⟨congrArg problem alone, congrArg lexemes alone⟩
  generalize whole : lexeme.text.toList = text at spells
  generalize only : [_] = tokens at spells
  cases spells with
  | finished => cases only
  | @token front inner rest token _ _ _ found later =>
    rw [List.cons.injEq, Lexeme.mk.injEq, Extent.mk.injEq] at only
    obtain ⟨⟨rfl, ⟨-, -⟩, same⟩, -⟩ := only
    rw [same, String.toList_ofList] at whole
    have size := congrArg List.length whole
    simp only [List.length_append] at size
    obtain rfl := List.eq_nil_of_length_eq_zero (show front.length = 0 by omega)
    obtain rfl := List.eq_nil_of_length_eq_zero (show rest.length = 0 by omega)
    simpa using found

/-- A text that is one token. -/
theorem ofText_of_first (found : Token.first text = .found token text []) :
    (ofText text).problem = none ∧
      (ofText text).lexemes = [⟨token, ⟨0, Text.width text⟩, String.ofList text⟩] := by
  have alone : Token.first (text ++ []) = .found token text [] := by rwa [List.append_nil]
  have spells : Spells 0 ([] ++ (text ++ [])) _ := .token .empty alone (.finished (.gap .empty))
  have read := (ofText_iff_spells _ _).mpr spells
  simpa using read

end TokenSequence

/-! ### The values of bounds -/

theorem Numeral.natural?_of_isNumber (number : IsNumber digits) :
    natural? digits = some (value digits) := by
  obtain ⟨nonempty, all⟩ := number
  cases digits with
  | nil => exact absurd rfl nonempty
  | cons c digits =>
    have unsigned : c ≠ '+' := by
      rintro rfl
      exact absurd (all '+' List.mem_cons_self) (by decide)
    have digit : (c :: digits).all Char.isDigit := List.all_eq_true.mpr all
    simp only [natural?]
    split
    next marked => exact absurd (List.cons.inj marked).1 unsigned
    next => rw [if_pos ⟨nonempty, digit⟩, value]

theorem Numeral.uint32?_of_isNumber (number : IsNumber digits) :
    uint32? (String.ofList digits) =
      if value digits < UInt32.size then some (UInt32.ofNat (value digits)) else none := by
  rw [uint32?, String.toList_ofList, natural?_of_isNumber number]

namespace Parser

theorem bound_of_lt (number : IsNumber digits) (small : value digits < UInt32.size) :
    bound digits context state = .ok (UInt32.ofNat (value digits)) state := by
  rw [bound, Numeral.uint32?_of_isNumber number, if_pos small]
  rfl

theorem bound_of_ge (number : IsNumber digits) (large : ¬ value digits < UInt32.size) :
    bound digits context state =
      .error ⟨here context state, .meaningless (found state) .bound⟩ state := by
  rw [bound, Numeral.uint32?_of_isNumber number, if_neg large]
  rfl

/-- The characters between the braces, cut at the comma. -/
theorem rangeBounds_eq (number : IsNumber digits) (more : List Char)
    (comma : ∀ c ∈ more.head?, c = ',') :
    rangeBounds (String.ofList ('{' :: (digits ++ (more ++ ['}'])))) =
      match more with
      | [] => (digits, some digits)
      | _ :: greatest =>
        (digits, if greatest = [] ∨ greatest = ['*'] then none else some greatest) := by
  have inside : ∀ c ∈ digits, decide (c ≠ ',') := by
    intro c member
    refine decide_eq_true ?_
    rintro rfl
    exact absurd (number.2 ',' member) (by decide)
  have stop : ∀ c ∈ more.head?, ¬ decide (c ≠ ',') := by
    intro c member
    simp [comma c member]
  have first := Brace.takeWhile_front inside stop
  have second : (digits ++ more).dropWhile (fun c => decide (c ≠ ',')) = more := by
    have whole := List.takeWhile_append_dropWhile (p := fun c => decide (c ≠ ','))
      (l := digits ++ more)
    rw [first] at whole
    exact List.append_cancel_left whole
  have inner : (digits ++ (more ++ ['}'])).dropLast = digits ++ more := by
    rw [← List.append_assoc, List.dropLast_concat]
  rw [rangeBounds, String.toList_ofList, List.tail_cons, inner]
  simp only [first, second]
  cases more <;> rfl

/-- The digits of a range are those of the numbers that it states. -/
theorem rangeBounds_of_states (states : States text least greatest) :
    ∃ digits more, rangeBounds (String.ofList text) = (digits, more) ∧
      IsNumber digits ∧ value digits = least ∧
      (∀ digits ∈ more, IsNumber digits) ∧ more.map value = greatest := by
  cases states with
  | @exactly digits number =>
    have bounds := rangeBounds_eq number [] (by simp)
    exact ⟨digits, some digits, bounds, number, rfl, by simpa using number, rfl⟩
  | @unbounded digits number =>
    have bounds := rangeBounds_eq number [','] (by simp)
    exact ⟨digits, none, bounds, number, rfl, by simp, rfl⟩
  | @star digits number =>
    have bounds := rangeBounds_eq number [',', '*'] (by simp)
    exact ⟨digits, none, bounds, number, rfl, by simp, rfl⟩
  | @between digits more number number' =>
    have bounds := rangeBounds_eq number (',' :: more) (by simp)
    have given : ¬ (more = [] ∨ more = ['*']) := by
      rintro (rfl | rfl)
      · exact number'.1 rfl
      · exact absurd (number'.2 '*' List.mem_cons_self) (by decide)
    simp only [if_neg given] at bounds
    exact ⟨digits, some more, bounds, number, rfl, by simpa using number', rfl⟩

/-- Both bounds fit in 32 bits. -/
def Fits (least : Nat) (greatest : Option Nat) : Prop :=
  least < UInt32.size ∧ ∀ bound ∈ greatest, bound < UInt32.size

/-- A range whose bounds fit has them. -/
theorem range_of_fits (states : States text least greatest) (fits : Fits least greatest)
    (context : Context) (state : State) :
    range (String.ofList text) context state =
      .ok ⟨UInt32.ofNat least, greatest.map UInt32.ofNat⟩ state := by
  obtain ⟨digits, more, bounds, number, rfl, numbers, rfl⟩ := rangeBounds_of_states states
  rw [range, bounds]
  refine bind_eq_ok.mpr ⟨_, state, bound_of_lt number fits.1, ?_⟩
  cases more with
  | none => rfl
  | some more =>
    have small := fits.2 (value more) rfl
    exact bind_eq_ok.mpr ⟨_, state, bound_of_lt (numbers more rfl) small, rfl⟩

/-- A range with a bound that does not fit is refused at its token. -/
theorem range_of_not_fits (states : States text least greatest) (large : ¬ Fits least greatest)
    (context : Context) (state : State) :
    range (String.ofList text) context state =
      .error ⟨here context state, .meaningless (found state) .bound⟩ state := by
  obtain ⟨digits, more, bounds, number, rfl, numbers, rfl⟩ := rangeBounds_of_states states
  rw [range, bounds]
  by_cases small : value digits < UInt32.size
  · refine bind_eq_error.mpr (.inr ⟨_, state, bound_of_lt number small, ?_⟩)
    cases more with
    | none => exact absurd ⟨small, by simp⟩ large
    | some more =>
      have large' : ¬ value more < UInt32.size := fun fits => large ⟨small, by simpa using fits⟩
      exact bind_eq_error.mpr (.inl (bound_of_ge (numbers more rfl) large'))
  · exact bind_eq_error.mpr (.inl (bound_of_ge number small))

theorem advance_settled {draft : Draft} (settled : Settled context ⟨rest, draft⟩)
    (lexeme : Lexeme) : advance context ⟨lexeme :: rest, draft⟩ = .ok () ⟨rest, draft⟩ := by
  rw [advance, Reading.settle_eq]
  cases stopped : context.problem with
  | none => rfl
  | some problem =>
    have more : rest ≠ [] := fun empty => by
      rw [settled empty] at stopped
      cases stopped
    exact if_neg more

/-- A cardinality that is found is stepped over. -/
theorem step_over_given {draft : Draft} {lexeme : Lexeme} {value : Parser (Option Cardinality)}
    (settled : Settled context ⟨rest, draft⟩)
    (given : value context ⟨lexeme :: rest, draft⟩ =
      .ok (some cardinality) ⟨lexeme :: rest, draft⟩) :
    (do
      let value ← value
      if value.isSome then advance
      return value : Parser (Option Cardinality)) context ⟨lexeme :: rest, draft⟩ =
        .ok (some cardinality) ⟨rest, draft⟩ :=
  bind_eq_ok.mpr ⟨_, _, given, bind_eq_ok.mpr ⟨(), _, advance_settled settled lexeme, rfl⟩⟩

end Parser

/-! ### Printed cardinalities -/

namespace Cardinality

/-- Cardinalities without a sign are printed as ranges that state their bounds. -/
theorem text_states (cardinality : Cardinality) (noStar : cardinality ≠ zeroOrMore)
    (noPlus : cardinality ≠ oneOrMore) (noQuestion : cardinality ≠ zeroOrOne) :
    States cardinality.text.toList cardinality.least.toNat
      (cardinality.greatest.map UInt32.toNat) := by
  have number (n : UInt32) := Brace.isNumber_toDigits n.toNat
  rw [text, if_neg noStar, if_neg noPlus, if_neg noQuestion]
  obtain ⟨least, greatest⟩ := cardinality
  dsimp only
  cases greatest with
  | none =>
    have states := States.unbounded (number least)
    simpa [Nat.toList_repr] using states
  | some greatest =>
    by_cases same : greatest = least
    · have states := States.exactly (number least)
      simpa [Nat.toList_repr, same] using states
    · have states := States.between (number least) (number greatest)
      simpa [Nat.toList_repr, same] using states

/-- A printed cardinality is one token, and this token is read as the cardinality. -/
theorem text_reads (cardinality : Cardinality) : ∃ token,
    Token.first cardinality.text.toList = .found token cardinality.text.toList [] ∧
    ∀ context rest draft extent text, Settled context ⟨rest, draft⟩ →
      Parser.cardinality? context ⟨⟨token, extent, text⟩ :: rest, draft⟩ =
        .ok (some cardinality) ⟨rest, draft⟩ := by
  by_cases isStar : cardinality = zeroOrMore
  · subst isStar
    exact ⟨.punct .star, rfl, fun _ _ _ _ _ settled =>
      bind_eq_ok.mpr ⟨_, _, rfl, Parser.step_over_given settled rfl⟩⟩
  by_cases isPlus : cardinality = oneOrMore
  · subst isPlus
    exact ⟨.punct .plus, rfl, fun _ _ _ _ _ settled =>
      bind_eq_ok.mpr ⟨_, _, rfl, Parser.step_over_given settled rfl⟩⟩
  by_cases isQuestion : cardinality = zeroOrOne
  · subst isQuestion
    exact ⟨.punct .question, rfl, fun _ _ _ _ _ settled =>
      bind_eq_ok.mpr ⟨_, _, rfl, Parser.step_over_given settled rfl⟩⟩
  have states := cardinality.text_states isStar isPlus isQuestion
  have fits : Parser.Fits cardinality.least.toNat (cardinality.greatest.map UInt32.toNat) := by
    refine ⟨cardinality.least.toNat_lt, fun bound member => ?_⟩
    obtain ⟨greatest, -, rfl⟩ := Option.map_eq_some_iff.mp member
    exact greatest.toNat_lt
  have reads := Parser.range_of_fits states fits
  simp only [UInt32.ofNat_toNat, Option.map_map, Function.comp_def, Option.map_id'] at reads
  refine ⟨_, Token.first_of_isRange states.isRange, fun context _ _ _ _ settled =>
    bind_eq_ok.mpr ⟨_, _, rfl, Parser.step_over_given settled ?_⟩⟩
  rw [map_eq_pure_bind]
  exact bind_eq_ok.mpr ⟨cardinality, _, reads context _, rfl⟩

/-- The text of each cardinality is one token, which is read as the same cardinality. A range of
any text states bounds of any size, and these are the bounds of the cardinality that is read if
they fit in 32 bits; else the range is refused. -/
theorem text_read_back :
    (∀ cardinality : Cardinality, ∃ token,
      (TokenSequence.ofText cardinality.text.toList).problem = none ∧
      (TokenSequence.ofText cardinality.text.toList).lexemes =
        [⟨token, ⟨0, Text.width cardinality.text.toList⟩, cardinality.text⟩] ∧
      ∀ context rest draft extent text, Settled context ⟨rest, draft⟩ →
        Parser.cardinality? context ⟨⟨token, extent, text⟩ :: rest, draft⟩ =
          .ok (some cardinality) ⟨rest, draft⟩) ∧
    (∀ text, ∀ lexeme ∈ (TokenSequence.ofText text).lexemes, ∀ raw,
      lexeme.token = .repeatRange raw → raw = lexeme.text ∧
      (∃ least greatest, States raw.toList least greatest) ∧
      ∀ least greatest, States raw.toList least greatest → ∀ context rest draft,
        (Parser.Fits least greatest → ∃ cardinality : Cardinality,
          Parser.range raw context ⟨lexeme :: rest, draft⟩ =
            .ok cardinality ⟨lexeme :: rest, draft⟩ ∧
          cardinality.least.toNat = least ∧
          cardinality.greatest.map UInt32.toNat = greatest) ∧
        (¬ Parser.Fits least greatest →
          Parser.range raw context ⟨lexeme :: rest, draft⟩ =
            .error ⟨lexeme.extent, .meaningless lexeme.text .bound⟩ ⟨lexeme :: rest, draft⟩)) := by
  refine ⟨fun cardinality => ?_, fun text lexeme member raw range => ?_⟩
  · obtain ⟨token, found, reads⟩ := cardinality.text_reads
    obtain ⟨calm, lexemes⟩ := TokenSequence.ofText_of_first found
    rw [String.ofList_toList] at lexemes
    exact ⟨token, calm, lexemes, reads⟩
  have found := TokenSequence.first_of_mem member
  rw [range] at found
  obtain ⟨isRange, same⟩ := Token.range_of_first found
  rw [String.ofList_toList] at same
  subst same
  refine ⟨rfl, isRange.states, fun least greatest states context rest draft => ⟨fun fits => ?_,
    fun large => ?_⟩⟩
  · have reads := Parser.range_of_fits states fits context ⟨lexeme :: rest, draft⟩
    rw [String.ofList_toList] at reads
    refine ⟨_, reads, UInt32.toNat_ofNat_of_lt' fits.1, ?_⟩
    cases greatest with
    | none => rfl
    | some greatest =>
      have small := fits.2 greatest rfl
      exact congrArg some (UInt32.toNat_ofNat_of_lt' small)
  · have refused := Parser.range_of_not_fits states large context ⟨lexeme :: rest, draft⟩
    rwa [String.ofList_toList] at refused

/-- A greatest bound below the least one is read back, zeros before a bound do not count, and a
bound of 2^32 is too large. -/
theorem text_read_back_zeros :
    (∃ token, Parser.cardinality? ⟨fun _ => .ok (), true, 5, none⟩
        ⟨[⟨token, ⟨0, 5⟩, "\x7b5,2\x7d"⟩], .empty⟩ = .ok (some ⟨5, some 2⟩) ⟨[], .empty⟩) ∧
    (∃ cardinality : Cardinality, Parser.range "\x7b007,*\x7d" ⟨fun _ => .ok (), true, 8, none⟩
        ⟨[⟨.repeatRange "\x7b007,*\x7d", ⟨1, 8⟩, "\x7b007,*\x7d"⟩], .empty⟩ =
          .ok cardinality
            ⟨[⟨.repeatRange "\x7b007,*\x7d", ⟨1, 8⟩, "\x7b007,*\x7d"⟩], .empty⟩ ∧
      cardinality.least.toNat = 7 ∧ cardinality.greatest.map UInt32.toNat = none) ∧
    Parser.range "\x7b4294967296\x7d" ⟨fun _ => .ok (), true, 12, none⟩
        ⟨[⟨.repeatRange "\x7b4294967296\x7d", ⟨0, 12⟩, "\x7b4294967296\x7d"⟩], .empty⟩ =
      .error ⟨⟨0, 12⟩, .meaningless "\x7b4294967296\x7d" .bound⟩
        ⟨[⟨.repeatRange "\x7b4294967296\x7d", ⟨0, 12⟩, "\x7b4294967296\x7d"⟩], .empty⟩ := by
  have small : ⟨.repeatRange "\x7b007,*\x7d", ⟨1, 8⟩, "\x7b007,*\x7d"⟩ ∈
      (TokenSequence.ofText " \x7b007,*\x7d".toList).lexemes := by
    decide +kernel
  have large : ⟨.repeatRange "\x7b4294967296\x7d", ⟨0, 12⟩, "\x7b4294967296\x7d"⟩ ∈
      (TokenSequence.ofText "\x7b4294967296\x7d".toList).lexemes := by
    decide +kernel
  have zeros : IsNumber "007".toList := Brace.isNumber_of_digits (by decide)
  have digits : IsNumber "4294967296".toList := Brace.isNumber_of_digits (by decide)
  have seven : States "\x7b007,*\x7d".toList 7 none := .star zeros
  have tooMany : States "\x7b4294967296\x7d".toList 4294967296 (some 4294967296) := .exactly digits
  obtain ⟨token, -, -, reads⟩ := text_read_back.1 ⟨5, some 2⟩
  exact ⟨⟨token, reads _ _ _ _ _ fun _ => rfl⟩,
    ((text_read_back.2 _ _ small _ rfl).2.2 _ _ seven _ _ _).1 ⟨by decide, nofun⟩,
    ((text_read_back.2 _ _ large _ rfl).2.2 _ _ tooMany _ _ _).2 fun fits =>
      absurd fits.1 (by decide)⟩

end Cardinality

end ShExCompact
