import Mathlib.Data.List.Find
import ShExCompact.Proofs.Octets.Braces

/-! Tokens among bytes. Main statements: at a place between two characters the recognizer consumes
and reports what the scan of the text does and keeps the same, and inside of a character it reports
one byte. -/
namespace ShExCompact.Octets

/-! ### Signs -/

theorem isAscii_text (sign : Punct) : ∀ c ∈ sign.text.toList, c.toNat < 128 := by
  have each : sign.text.toList.all (fun c => c.toNat < 128) = true := by cases sign <;> decide
  exact fun c member => of_decide_eq_true (List.all_eq_true.mp each c member)

theorem sign_eq (known : Punct) (rest : List Char) :
    sign known = (Scan.found (Token.punct known) known.text.toList rest).sizes 0 := by
  rw [sign, Scan.sizes, width_of_ascii _ (isAscii_text known), String.length_toList]
  rfl

/-- A sign that is alone in its text. -/
theorem text_eq_singleton {known : Punct} (member : known ∈ signs) :
    ∃ a, known.text = String.singleton a ∧ a.toNat < 128 := by
  have one : ∀ known ∈ signs, known.text.toList.length = 1 := by decide
  obtain ⟨a, whole⟩ := List.length_eq_one_iff.mp (one known member)
  have narrow := isAscii_text known a (by simp [whole])
  refine ⟨a, ?_, narrow⟩
  rw [← String.ofList_toList (s := known.text), whole]
  rfl

theorem singleton_inj : String.singleton a = String.singleton c ↔ a = c := by
  constructor
  · intro same
    have lists := congrArg String.toList same
    simpa using lists
  · rintro rfl
    rfl

theorem find?_firstByte (c : Char) :
    (signs.find? fun sign => sign.text = String.singleton (Text.firstByte c)) =
      signs.find? fun sign => sign.text = String.singleton c := by
  refine List.find?_congr fun known member => ?_
  obtain ⟨a, text, narrow⟩ := text_eq_singleton member
  rw [text, decide_eq_decide, singleton_inj, singleton_inj, eq_comm, firstByte_eq_iff narrow,
    eq_comm]

/-- Characters that a sign does not begin alone. -/
def mayGoOn (c : Char) : Bool := c = '.' || Number.isSign c || c = '^' || c = '|'

/-- A sign that no longer token begins with is found by its character. -/
theorem read?_eq_find? (alone : mayGoOn c = false) (rest : List Char) :
    Punct.read? (c :: rest) = signs.find? fun sign => sign.text = String.singleton c := by
  have others : Punct.double ++ Punct.single =
      [.doubleCaret, .doubleBar, .dot, .plus, .minus, .caret, .bar] ++ signs := rfl
  have begins : ∀ known ∈ [Punct.doubleCaret, .doubleBar, .dot, .plus, .minus, .caret, .bar],
      known.text.toList.head?.any mayGoOn = true := by
    decide
  have front : [Punct.doubleCaret, .doubleBar, .dot, .plus, .minus, .caret, .bar].find?
      (fun sign => sign.text.toList.isPrefixOf (c :: rest)) = none := by
    rw [List.find?_eq_none]
    intro known member here
    have first := begins known member
    cases text : known.text.toList with
    | nil => simp [text] at first
    | cons a more =>
      rw [text] at here first
      obtain ⟨rfl, -⟩ := List.cons_prefix_cons.mp (List.isPrefixOf_iff_prefix.mp here)
      exact absurd first (by simp [alone])
  rw [Punct.read?, others, List.find?_append, front, Option.none_or]
  refine List.find?_congr fun known member => ?_
  obtain ⟨a, text, narrow⟩ := text_eq_singleton member
  rw [text, Bool.eq_iff_iff, List.isPrefixOf_iff_prefix, decide_eq_true_eq, singleton_inj]
  simp

/-- The marks that are a sign alone and a longer one twice. -/
def doubled : List (Char × Punct × Punct) :=
  [('^', .doubleCaret, .caret), ('|', .doubleBar, .bar)]

theorem read?_doubled (member : (mark, twice, once) ∈ doubled) (rest : List Char) :
    Punct.read? (mark :: rest) = some (if rest.head? = some mark then twice else once) := by
  by_cases again : rest.head? = some mark
  · obtain ⟨more, rfl⟩ := List.head?_eq_some_iff.mp again
    rw [if_pos again]
    simp only [doubled, List.mem_cons, List.not_mem_nil, Prod.mk.injEq, or_false] at member
    rcases member with ⟨rfl, rfl, rfl⟩ | ⟨rfl, rfl, rfl⟩ <;> rfl
  · rw [if_neg again]
    simp only [doubled, List.mem_cons, List.not_mem_nil, Prod.mk.injEq, or_false] at member
    cases rest with
    | nil => rcases member with ⟨rfl, rfl, rfl⟩ | ⟨rfl, rfl, rfl⟩ <;> rfl
    | cons c rest =>
      have differs : c ≠ mark := by simpa using again
      have other : (mark == c) = false := beq_false_of_ne differs.symm
      rcases member with ⟨rfl, rfl, rfl⟩ | ⟨rfl, rfl, rfl⟩ <;>
        simp [Punct.read?, Punct.double, Punct.single, Punct.text, List.isPrefixOf, other]

/-! ### Dispatch -/

theorem startsUnsigned_eq (text : List Char) :
    startsUnsigned (Text.bytes text) = Number.startsUnsigned text := by
  cases text with
  | nil => rfl
  | cons c rest =>
    rw [startsUnsigned, peek_first, Number.startsUnsigned]
    dsimp only
    rw [class_firstByte isAscii_isDigit]
    by_cases dot : c = '.'
    · subst dot
      have next := peek_any isAscii_isDigit ['.'] rest
      have one : Text.width ['.'] = 1 := by decide
      rw [one, List.singleton_append] at next
      rw [next]
      rfl
    · have other : Text.firstByte c ≠ '.' := fun same =>
        dot ((firstByte_eq_iff (by decide)).mp same)
      rw [decide_eq_false dot, decide_eq_false other]
      rfl

/-- A number begins with a digit, or with a sign or a dot before one. -/
theorem starts_cons (c : Char) (rest : List Char) : Number.starts (c :: rest) =
    if c = '.' then rest.head?.any Char.isDigit
    else if Number.isSign c then Number.startsUnsigned rest
    else c.isDigit := by
  by_cases dot : c = '.'
  · subst dot
    rfl
  · by_cases isSign : Number.isSign c = true
    · simp [Number.starts, Number.sign, isSign, dot]
    · simp [Number.starts, Number.sign, isSign, dot, Number.startsUnsigned]

/-- The byte after the first one, which is an ASCII character. -/
theorem peek_second (ascii : c.toNat < 128) (rest : List Char) :
    peek (Text.bytes (c :: rest)) 1 = peek (Text.bytes rest) 0 := peek_after [] rest ascii

theorem doubled_eq (member : (mark, twice, once) ∈ doubled) (rest : List Char) :
    (if peek (Text.bytes (mark :: rest)) 1 = some mark then sign twice else sign once) =
      sign (if rest.head? = some mark then twice else once) := by
  have narrow : mark.toNat < 128 := by
    have each : ∀ entry ∈ doubled, entry.1.toNat < 128 := by decide
    exact each _ member
  have again := peek_eq_iff [] rest narrow
  rw [List.nil_append, Text.width_nil] at again
  rw [peek_second narrow]
  by_cases next : rest.head? = some mark
  · rw [if_pos (again.mpr next), if_pos next]
  · rw [if_neg (mt again.mp next), if_neg next]

theorem underscore_eq (rest : List Char) :
    (if peek (Text.bytes ('_' :: rest)) 1 = some ':' then blankNode (Text.bytes ('_' :: rest))
      else .value ⟨1, .error ⟨0, 1, .character '_'⟩⟩) =
    ((Name.blankNode ('_' :: rest)).map fun id => Token.blankNode (String.ofList id)).sizes 0 := by
  have colon := peek_eq_iff ['_'] rest (a := ':') (by decide)
  have one : Text.width ['_'] = 1 := by decide
  rw [one, List.singleton_append] at colon
  by_cases opened : rest.head? = some ':'
  · obtain ⟨more, rfl⟩ := List.head?_eq_some_iff.mp opened
    rw [if_pos (colon.mpr opened), blankNode_eq]
  · rw [if_neg (mt colon.mp opened)]
    cases rest with
    | nil => rfl
    | cons c rest =>
      have other : c ≠ ':' := by simpa using opened
      simp [Name.blankNode, other, Scan.map, Scan.build, Scan.sizes]

/-- A dot alone, or a number that begins with one. -/
theorem dot_eq (rest : List Char) :
    (if (peek (Text.bytes ('.' :: rest)) 1).any Char.isDigit then
      number (Text.bytes ('.' :: rest))
    else sign .dot) =
    (if rest.head?.any Char.isDigit = true then Number.scan ('.' :: rest)
      else .found (.punct .dot) ['.'] rest).sizes 0 := by
  have digit := peek_any isAscii_isDigit [] rest
  rw [List.nil_append, Text.width_nil] at digit
  rw [peek_second (by decide), digit]
  by_cases begins : rest.head?.any Char.isDigit = true
  · rw [if_pos begins, if_pos begins, number_eq]
  · rw [if_neg begins, if_neg begins]
    exact sign_eq .dot rest

/-- A plus or minus alone, or a number that begins with one. -/
theorem signed_eq (isSign : Number.isSign c = true) (rest : List Char) :
    (suffix (Text.bytes (c :: rest)) 1 >>= fun later =>
      if startsUnsigned later = true then number (Text.bytes (c :: rest))
      else if Text.firstByte c = '+' then sign .plus
      else sign .minus) =
    (if Number.startsUnsigned rest = true then Number.scan (c :: rest)
      else .found (.punct (if c = '+' then .plus else .minus)) [c] rest).sizes 0 := by
  have narrow := isAscii_isSign c isSign
  have behind : suffix (Text.bytes (c :: rest)) 1 = .value (Text.bytes rest) := by
    have whole := suffix_bytes [c] rest
    rwa [width_of_ascii [c] (by simpa using narrow)] at whole
  rw [behind, Access.value_bind, startsUnsigned_eq, firstByte_of_ascii narrow]
  by_cases begins : Number.startsUnsigned rest = true
  · rw [if_pos begins, if_pos begins, number_eq]
  · rw [if_neg begins, if_neg begins]
    rcases (Bool.or_eq_true _ _).mp isSign with plus | minus
    · cases of_decide_eq_true plus
      exact sign_eq .plus rest
    · cases of_decide_eq_true minus
      exact sign_eq .minus rest

/-- A token that does not begin with a brace is read as in the text. -/
theorem plain_eq (c : Char) (rest : List Char) :
    plain (Text.bytes (c :: rest)) (Text.firstByte c) = (Token.scanPlain c rest).sizes 0 := by
  rw [plain, Token.scanPlain, starts_cons, find?_firstByte, class_firstByte isAscii_isSign,
    class_firstByte isAscii_isDigit]
  simp only [firstByte_eq_iff (a := '<') (by decide), firstByte_eq_iff (a := '_') (by decide),
    firstByte_eq_iff (a := '\'') (by decide), firstByte_eq_iff (a := '\"') (by decide),
    firstByte_eq_iff (a := '@') (by decide), firstByte_eq_iff (a := '.') (by decide),
    firstByte_eq_iff (a := '^') (by decide), firstByte_eq_iff (a := '|') (by decide)]
  by_cases iri : c = '<'
  · subst iri
    have one : Text.width ['<'] = 1 := by decide
    have read := iriRef_eq ['<'] rest (lt_limit ['<'] rest)
    rw [one] at read
    rw [if_pos rfl, if_pos rfl]
    exact read
  rw [if_neg iri, if_neg iri]
  by_cases underscore : c = '_'
  · subst underscore
    rw [if_pos rfl, if_pos rfl]
    exact underscore_eq rest
  rw [if_neg underscore, if_neg underscore]
  by_cases quote : (decide (c = '\"') || decide (c = '\'')) = true
  · have narrow : c.toNat < 128 := by
      rcases (Bool.or_eq_true _ _).mp quote with same | same <;> cases of_decide_eq_true same <;>
        decide
    rw [if_pos quote, if_pos quote, firstByte_of_ascii narrow, string_eq narrow]
  rw [if_neg quote, if_neg quote]
  by_cases at' : c = '@'
  · subst at'
    rw [if_pos rfl, if_pos rfl, atSign_eq]
  rw [if_neg at', if_neg at']
  by_cases dot : c = '.'
  · subst dot
    rw [if_pos rfl, if_pos rfl]
    exact dot_eq rest
  rw [if_neg dot, if_neg dot]
  by_cases isSign : Number.isSign c = true
  · rw [if_pos isSign, if_pos isSign]
    refine (signed_eq isSign rest).trans ?_
    rcases (Bool.or_eq_true _ _).mp isSign with plus | minus
    · cases of_decide_eq_true plus
      rfl
    · cases of_decide_eq_true minus
      rfl
  rw [if_neg isSign, if_neg isSign]
  by_cases digit : c.isDigit = true
  · rw [if_pos digit, if_pos digit, number_eq]
  rw [if_neg digit, if_neg digit]
  by_cases caret : c = '^'
  · subst caret
    have member : ('^', Punct.doubleCaret, Punct.caret) ∈ doubled := List.mem_cons_self
    rw [if_pos rfl, doubled_eq member, read?_doubled member]
    exact sign_eq _ _
  rw [if_neg caret]
  by_cases bar : c = '|'
  · subst bar
    have member : ('|', Punct.doubleBar, Punct.bar) ∈ doubled :=
      List.mem_cons_of_mem _ List.mem_cons_self
    rw [if_pos rfl, doubled_eq member, read?_doubled member]
    exact sign_eq _ _
  have alone : mayGoOn c = false := by simp [mayGoOn, dot, isSign, caret, bar]
  rw [if_neg bar, read?_eq_find? alone]
  cases signs.find? fun sign => sign.text = String.singleton c with
  | some known => exact sign_eq known _
  | none => exact nameOrKeyword_eq c rest

/-! ### Inside of a character -/

/-- What is left of a text after a cut inside of a character begins with a byte that continues
one. -/
theorem drop_inside (inside : Text.cut n text = .inside) : ∃ byte later,
    (Text.bytes text).drop n = byte :: later ∧ Position.continues byte = true := by
  obtain ⟨front, c, rest, rfl, after, before⟩ := Text.cut_inside inside
  obtain ⟨first, later, encoded, reads, -⟩ := Utf8.exists_reads c
  obtain ⟨k, rfl⟩ : ∃ k, n = Text.width front + (k + 1) := ⟨n - Text.width front - 1, by omega⟩
  have short : k < later.length := by
    rw [← String.length_utf8EncodeChar, encoded, List.length_cons] at before
    omega
  refine ⟨later[k], later.drop (k + 1) ++ Text.bytes rest, ?_,
    reads.continues _ (List.getElem_mem short)⟩
  rw [Text.bytes_append, ← Text.length_bytes, List.drop_length_add_append, Text.bytes,
    List.flatMap_cons, encoded, List.cons_append, List.drop_succ_cons,
    List.drop_append_of_le_length (Nat.le_of_lt short), List.drop_eq_getElem_cons short,
    List.cons_append]
  rfl

/-- A byte that continues a character begins none. -/
theorem continues_spec (continues : Position.continues byte = true) :
    128 ≤ byte.toNat ∧ ¬ byte ≤ 0x7F ∧ wideSize? byte = none ∧
      ∀ rest, Utf8.lead byte rest = .broken 1 := by
  have small : ∀ n : Fin 256, Position.continues (UInt8.ofNat n) = true →
      128 ≤ (UInt8.ofNat n).toNat ∧ ¬ UInt8.ofNat n ≤ 0x7F ∧ wideSize? (UInt8.ofNat n) = none ∧
        ¬ UInt8.ofNat n < 0x80 ∧ Utf8.followers? (UInt8.ofNat n) = none := by
    decide +kernel
  have same := small ⟨byte.toNat, byte.toNat_lt⟩
  rw [UInt8.ofNat_toNat] at same
  obtain ⟨wide, notAscii, noSize, notNarrow, noFollowers⟩ := same continues
  refine ⟨wide, notAscii, noSize, fun rest => ?_⟩
  rw [Utf8.lead, if_neg notNarrow, noFollowers]

theorem suffix_self (data : List UInt8) : suffix data 0 = .value data := by
  simp [suffix, slice, range?]

/-- What does not begin with an ASCII character is a name, a word or a fault. -/
theorem plain_wide (data : List UInt8) (wide : 128 ≤ c.toNat) :
    plain data c = nameOrKeyword data := by
  have other (a : Char) (narrow : a.toNat < 128) : c ≠ a := by
    rintro rfl
    omega
  have none {isOne : Char → Bool} (ascii : IsAscii isOne) : ¬ isOne c = true := fun one =>
    absurd (ascii c one) (Nat.not_lt.mpr wide)
  have noSign : (signs.find? fun sign => sign.text = String.singleton c) = Option.none := by
    rw [List.find?_eq_none]
    intro known member same
    obtain ⟨a, text, narrow⟩ := text_eq_singleton member
    rw [decide_eq_true_eq, text, singleton_inj] at same
    exact other a narrow same.symm
  rw [plain, if_neg (other '<' (by decide)), if_neg (other '_' (by decide)),
    if_neg (none ((isAscii_eq (by decide)).or (isAscii_eq (by decide)))),
    if_neg (other '@' (by decide)), if_neg (other '.' (by decide)), if_neg (none isAscii_isSign),
    if_neg (none isAscii_isDigit), if_neg (other '^' (by decide)), if_neg (other '|' (by decide)),
    noSign]

/-- Inside of a character the recognizer reports one byte. -/
theorem recognize_inside (continues : Position.continues byte = true) (later : List UInt8)
    (kept : Delimiter) : recognize (byte :: later) kept =
      .value (⟨1, .error ⟨0, 1, .encoding⟩⟩, kept) := by
  obtain ⟨wide, notAscii, noSize, -⟩ := continues_spec continues
  have character : character? (byte :: later) 0 = some (.error ⟨0, 1, .encoding⟩) := by
    rw [character?, if_neg notAscii, noSize]
  have first : peek (byte :: later) 0 = some (letter byte) := rfl
  have letters : 128 ≤ (letter byte).toNat := by rwa [toNat_letter]
  have brace : letter byte ≠ '{' := by
    intro same
    rw [same] at letters
    exact absurd letters (by decide)
  have ends : name (byte :: later) = .value ⟨1, .error ⟨0, 1, .encoding⟩⟩ := by
    rw [name, limit, nameEnd, suffix_self, Access.value_bind, character]
    rfl
  rw [recognize, first, Access.need_some, Access.value_bind, if_neg brace, plain_wide _ letters,
    nameOrKeyword, ends]
  rfl

/-! ### One token -/

/-- A token is read as in the text, and what is kept after it is the same. -/
theorem recognize_eq (bound : Nat) {before : List Char}
    (mirrors : Mirrors (before ++ c :: rest) kept known) (enough : (c :: rest).length ≤ bound) :
    ∃ kept', recognize (Text.bytes (c :: rest)) kept =
        ((Token.scan bound known ⟨Text.width before, c :: rest⟩).1.sizes 0 >>= fun found =>
          .value (found, kept')) ∧
      Mirrors (before ++ c :: rest) kept'
        (Token.scan bound known ⟨Text.width before, c :: rest⟩).2 := by
  rw [recognize, peek_first, Access.need_some, Access.value_bind]
  by_cases brace : c = '{'
  · subst brace
    obtain ⟨found, kept', same, sizes, later⟩ := brace_eq mirrors enough
    rw [if_pos (firstByte_of_ascii (by decide)), Token.scan_brace bound known rfl, same, sizes]
    exact ⟨kept', rfl, later⟩
  · rw [if_neg (mt (firstByte_eq_iff (by decide)).mp brace),
      Token.scan_plain bound known brace rfl, plain_eq]
    exact ⟨kept, rfl, mirrors⟩

/-! ### Characters of problems -/

/-- The first character is shown when all its bytes are taken, and not before. -/
theorem shortest_bytes (c : Char) (rest : List Char) (begun : 0 < size) (before : size ≤ c.utf8Size)
    (within : c.utf8Size < size + count) :
    shortest (Text.bytes (c :: rest)) (List.range' size count) = .value c := by
  induction count generalizing size with
  | zero => omega
  | succ count ih =>
    have range := range?_take [] (c :: rest) size
    rw [List.nil_append, Text.width_nil, Nat.zero_add, Text.width_cons, if_pos (by omega)] at range
    rw [List.range'_succ, shortest, slice, range, Access.sure_some, Access.value_bind]
    by_cases whole : size = c.utf8Size
    · have taken : (Text.bytes (c :: rest)).take size = Text.bytes [c] := by
        rw [whole]
        exact Text.take_bytes [c] rest
      rw [taken, Utf8.decode_bytes]
      rfl
    · have inside : Text.cut size (c :: rest) = .inside := by
        obtain ⟨n, rfl⟩ := Nat.exists_eq_add_one_of_ne_zero (Nat.ne_of_gt begun)
        rw [Text.cut, if_neg (by omega)]
      obtain ⟨flaw, broken⟩ := Utf8.decode_inside inside
      rw [broken]
      exact ih (Nat.succ_pos size) (by omega) (by omega)

/-- The character of a problem is the one that the problem begins at. -/
theorem characterAt_bytes (before rest : List Char) :
    characterAt (Text.bytes (before ++ rest)) (Text.width before) =
      .value (rest.headD Text.replacement) := by
  have inside :
      min (Text.width before) (Text.bytes (before ++ rest)).length = Text.width before := by
    rw [Text.length_bytes, Text.width_append]
    omega
  rw [characterAt, inside, suffix_bytes, Access.value_bind, Text.length_bytes]
  cases rest with
  | nil => rfl
  | cons c rest =>
    have most := c.utf8Size_le_four
    refine shortest_bytes c rest (Nat.succ_pos 0) c.utf8Size_pos ?_
    rw [Text.width_cons]
    omega

theorem suffix_drop {data : List UInt8} (inside : n ≤ data.length) :
    suffix data n = .value (data.drop n) := by
  rw [suffix, slice, range?, if_pos ⟨inside, Nat.le_refl _⟩, List.take_length]
  rfl

theorem decode_continues (continues : Position.continues byte = true) (later : List UInt8) :
    Utf8.decode (byte :: later) = .error ⟨0, some 1⟩ := by
  obtain ⟨-, -, -, lead⟩ := continues_spec continues
  rw [Utf8.decode, Utf8.decodeFrom, lead]

/-- Inside of a character the replacement is shown. -/
theorem shortest_inside (continues : Position.continues byte = true) (later : List UInt8)
    (begun : 0 < size) (within : size + count ≤ (byte :: later).length + 1) :
    shortest (byte :: later) (List.range' size count) = .value Text.replacement := by
  induction count generalizing size with
  | zero => rfl
  | succ count ih =>
    obtain ⟨n, rfl⟩ := Nat.exists_eq_add_one_of_ne_zero (Nat.ne_of_gt begun)
    rw [List.range'_succ, shortest, slice, range?, if_pos (by omega), Access.sure_some,
      Access.value_bind, List.drop_zero, List.take_succ_cons, decode_continues continues]
    exact ih (Nat.succ_pos _) (by omega)

theorem characterAt_inside (inside : Text.cut n text = .inside) :
    characterAt (Text.bytes text) n = .value Text.replacement := by
  have within := Text.cut_inside_le inside
  rw [← Text.length_bytes] at within
  obtain ⟨byte, later, split, continues⟩ := drop_inside inside
  rw [characterAt, Nat.min_eq_left within, suffix_drop within, Access.value_bind, split]
  exact shortest_inside continues later (Nat.succ_pos 0) (by omega)

end ShExCompact.Octets
