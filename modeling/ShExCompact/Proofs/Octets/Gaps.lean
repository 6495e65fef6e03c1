import ShExCompact.Proofs.Octets.Tokens

/-! What stands between two tokens, among bytes. Main statement: blanks and comments are stepped
over as in the text. -/
namespace ShExCompact.Octets

theorem isAscii_isBlank : IsAscii Token.isBlank :=
  (((isAscii_eq (by decide)).or (isAscii_eq (by decide))).or (isAscii_eq (by decide))).or
    (isAscii_eq (by decide))

theorem isAscii_isLineEnd : IsAscii Token.isLineEnd :=
  (isAscii_eq (by decide)).or (isAscii_eq (by decide))

/-- Blanks are stepped over one by one. -/
theorem skip_blanks (offset : Nat) (text : List Char) : Token.skip false offset text =
    Token.skip false (offset + Text.width (text.takeWhile Token.isBlank))
      (text.dropWhile Token.isBlank) := by
  induction text generalizing offset with
  | nil => rfl
  | cons c rest ih =>
    by_cases blank : Token.isBlank c = true
    · have step : Token.skip false offset (c :: rest) = Token.skip false (offset + 1) rest := by
        simp [Token.skip, blank]
      rw [step, ih, List.takeWhile_cons_of_pos blank, List.dropWhile_cons_of_pos blank,
        Text.width_cons, Token.utf8Size_of_isBlank blank, Nat.add_assoc]
    · rw [List.takeWhile_cons_of_neg blank, List.dropWhile_cons_of_neg blank]
      rfl

/-- Bytes begin with ASCII characters if and only if the text does. -/
theorem startsWith_bytes {front : List Char} (ascii : ∀ c ∈ front, c.toNat < 128)
    (text : List Char) : startsWith (Text.bytes text) front = true ↔ front <+: text := by
  rw [startsWith, decide_eq_true_eq]
  induction front generalizing text with
  | nil => simp
  | cons a front ih =>
    obtain ⟨narrow, others⟩ := List.forall_mem_cons.mp ascii
    cases text with
    | nil => simp [Text.bytes]
    | cons c rest =>
      obtain ⟨first, later, encoded, -, ⟨small, rfl, rfl⟩ | ⟨wide, -, high⟩⟩ := Utf8.exists_reads c
      · have same : letter (UInt8.ofNat c.toNat) = c := by
          rw [letter, UInt8.toNat_ofNat_of_lt' (show c.toNat < 256 by omega), Char.ofNat_toNat]
        rw [Text.bytes, List.flatMap_cons, encoded, List.singleton_append, List.length_cons,
          List.take_succ_cons, List.map_cons, List.cons.injEq, same, List.cons_prefix_cons]
        exact and_congr eq_comm (ih others rest)
      · have differs : letter first ≠ a := by
          intro same
          have low := high first List.mem_cons_self
          rw [← toNat_letter, same] at low
          omega
        have differs' : a ≠ c := by
          rintro rfl
          omega
        rw [Text.bytes, List.flatMap_cons, encoded, List.cons_append, List.length_cons,
          List.take_succ_cons, List.map_cons, List.cons_prefix_cons]
        exact iff_of_false (fun same => differs (List.cons.inj same).1) fun same => differs' same.1

theorem isAscii_opens (member : opens ∈ commentStarts) : ∀ c ∈ opens, c.toNat < 128 := by
  have each : ∀ opens ∈ commentStarts, opens.all (fun c => c.toNat < 128) = true := by decide
  exact fun c inside => of_decide_eq_true (List.all_eq_true.mp (each opens member) c inside)

theorem opens_ne_nil (member : opens ∈ commentStarts) : opens ≠ [] := by
  rintro rfl
  exact absurd member (by decide)

/-- What opens a comment is stepped over to the end of its line. -/
theorem skip_opened (member : opens ∈ commentStarts) (offset : Nat) (text : List Char) :
    Token.skip false offset (opens ++ text) = Token.skip true (offset + Text.width opens) text := by
  simp only [commentStarts, List.mem_cons, List.not_mem_nil, or_false] at member
  rcases member with rfl | rfl
  · rfl
  · have size : Text.width ['/', '/'] = 2 := by decide
    rw [size]
    simp [Token.skip, Token.isBlank, Token.isLineEnd, Char.utf8Size]

/-- Where no comment opens after blanks, the gap ends. -/
theorem stands_of_not_opened (noBlank : ∀ c ∈ text.head?, ¬ Token.isBlank c = true)
    (none : ∀ opens ∈ commentStarts, ¬ opens <+: text) : Token.Stands text := by
  cases text with
  | nil => trivial
  | cons c rest =>
    refine ⟨noBlank c rfl, ?_, ?_⟩
    · rintro rfl
      exact none ['#'] (by decide) ⟨rest, rfl⟩
    · rintro ⟨rfl, second⟩
      obtain ⟨more, rfl⟩ := List.head?_eq_some_iff.mp second
      exact none ['/', '/'] (by decide) ⟨more, rfl⟩

/-- A comment ends at the first byte that ends a line, or with the text. -/
theorem comment_end (offset : Nat) (text : List Char) :
    (∃ content c rest, text = content ++ c :: rest ∧
      find (Text.bytes text) Token.isLineEnd = some (Text.width content) ∧
      Token.skip true offset text = Token.skip false (offset + Text.width content) (c :: rest)) ∨
    find (Text.bytes text) Token.isLineEnd = none ∧
      Token.skip true offset text = ⟨offset + Text.width text, []⟩ := by
  rcases Token.skip_comment offset text with ⟨content, c, rest, rfl, line, ends, read⟩ | ⟨line, read⟩
  · have others : ∀ d ∈ content, Token.isLineEnd d = false := by simpa using line
    have blank : Token.isBlank c = true := by
      simp only [Token.isBlank, Token.isLineEnd, Bool.or_eq_true, decide_eq_true_eq] at ends ⊢
      exact ends.elim (fun same => .inl (.inr same)) .inr
    refine .inl ⟨content, c, rest, rfl, ?_, ?_⟩
    · rw [find_over isAscii_isLineEnd others, find_first isAscii_isLineEnd ends]
      rfl
    · rw [read, width_snoc _ (isAscii_isBlank c blank), ← Nat.add_assoc]
      simp [Token.skip, blank]
  · have others : ∀ d ∈ text, Token.isLineEnd d = false := by simpa using line
    have passed := find_over isAscii_isLineEnd others []
    rw [List.append_nil] at passed
    exact .inr ⟨passed, read⟩

/-- A gap is stepped over as in the text. -/
theorem skip_eq (before text : List Char) (enough : Text.width text < rounds) :
    skip (Text.bytes (before ++ text)) rounds (Text.width before) =
      .value (Token.skip false (Text.width before) text).offset := by
  induction rounds generalizing before text with
  | zero => exact absurd enough (Nat.not_lt_zero _)
  | succ rounds ih =>
    rw [skip, suffix_bytes, Access.value_bind, countWhile_bytes isAscii_isBlank, skip_blanks]
    have split : text.takeWhile Token.isBlank ++ text.dropWhile Token.isBlank = text :=
      List.takeWhile_append_dropWhile
    have noBlank : ∀ c ∈ (text.dropWhile Token.isBlank).head?, ¬ Token.isBlank c = true := by
      intro c first
      have head := List.head?_dropWhile_not Token.isBlank text
      rw [first] at head
      simpa using head
    generalize text.takeWhile Token.isBlank = blanks at *
    generalize text.dropWhile Token.isBlank = rest at *
    subst split
    dsimp only
    rw [← Text.width_append, ← List.append_assoc, suffix_bytes, Access.value_bind]
    cases found : commentStarts.find? (startsWith (Text.bytes rest)) with
    | none =>
      have stands : Token.Stands rest := by
        refine stands_of_not_opened noBlank fun opens member begins => ?_
        exact List.find?_eq_none.mp found opens member
          ((startsWith_bytes (isAscii_opens member) rest).mpr begins)
      rw [Token.skip_of_stands stands]
      rfl
    | some opens =>
      have member := List.mem_of_find?_eq_some found
      obtain ⟨after, rfl⟩ :=
        (startsWith_bytes (isAscii_opens member) rest).mp (List.find?_some found)
      have size := width_of_ascii opens (isAscii_opens member)
      have positive : 0 < opens.length := List.length_pos_iff.mpr (opens_ne_nil member)
      dsimp only
      rw [← size, suffix_bytes, Access.value_bind, skip_opened member]
      rcases comment_end (Text.width (before ++ blanks) + Text.width opens) after with
        ⟨content, c, last, rfl, ends, read⟩ | ⟨none, read⟩
      · have place : Text.width (before ++ blanks) + (Text.width content + Text.width opens) =
            Text.width (before ++ blanks ++ opens ++ content) := by
          simp only [Text.width_append]
          omega
        have stop : Text.width (before ++ blanks) + Text.width opens + Text.width content =
            Text.width (before ++ blanks ++ opens ++ content) := by
          simp only [Text.width_append]
        rw [ends, read, stop]
        dsimp only
        rw [place, ← List.append_assoc, ← List.append_assoc]
        refine ih _ _ ?_
        simp only [Text.width_append] at enough
        omega
      · have whole : (Text.bytes (before ++ blanks ++ (opens ++ after))).length =
            Text.width (before ++ blanks) + Text.width opens + Text.width after := by
          rw [Text.length_bytes, Text.width_append, Text.width_append opens, Nat.add_assoc]
        rw [none, read, ← whole]
        rfl

/-- No gap begins inside of a character. -/
theorem skip_inside (inside : Text.cut n text = .inside) (rounds : Nat) :
    skip (Text.bytes text) (rounds + 1) n = .value n := by
  have within := Text.cut_inside_le inside
  rw [← Text.length_bytes] at within
  obtain ⟨byte, later, split, continues⟩ := drop_inside inside
  have wide := (continues_spec continues).1
  rw [← toNat_letter] at wide
  have noBlank : countWhile (byte :: later) Token.isBlank = 0 := by
    have other : ¬ Token.isBlank (letter byte) = true := fun blank =>
      absurd (isAscii_isBlank _ blank) (Nat.not_lt.mpr wide)
    rw [countWhile, List.takeWhile_cons_of_neg (p := fun byte => Token.isBlank (letter byte)) other]
    rfl
  have noComment : commentStarts.find? (startsWith (byte :: later)) = none := by
    rw [List.find?_eq_none]
    intro opens member begins
    obtain ⟨c, more, rfl⟩ := List.exists_cons_of_ne_nil (opens_ne_nil member)
    have narrow := isAscii_opens member c List.mem_cons_self
    rw [startsWith, decide_eq_true_eq, List.length_cons, List.take_succ_cons,
      List.map_cons] at begins
    rw [(List.cons.inj begins).1] at wide
    omega
  rw [skip, suffix_drop within, Access.value_bind, split, noBlank, Nat.add_zero]
  dsimp only
  rw [suffix_drop within, Access.value_bind, split, noComment]
  rfl

end ShExCompact.Octets
