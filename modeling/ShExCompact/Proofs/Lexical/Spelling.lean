import ShExCompact.Proofs.Lexical.Continuations
import ShExCompact.Proofs.Lexical.Lossless

/-! Token sequences as relations between texts and tokens: how a text without faults spells its
tokens, whatever was searched before. Main statements: reading a text gives the tokens that it
spells, and a text goes on spelling them when a gap is put behind one of them. -/
namespace ShExCompact

open Token (Apart separates)

/-! ### Braces -/

namespace Brace

theorem not_separates_of_isDigit (digit : Char.isDigit c) : ¬ separates c := fun separated =>
  Token.forall_separates (p := fun c => ¬ c.isDigit) (by decide) c separated digit

theorem not_separates_of_isHex (hex : Numeral.isHex c) : ¬ separates c := fun separated =>
  Token.forall_separates (p := fun c => ¬ Numeral.isHex c) (by decide) c separated hex

theorem IsRange.inside (range : IsRange text) : ∀ c ∈ text, ¬ separates c := by
  have number {digits : List Char} (isNumber : IsNumber digits) : ∀ c ∈ digits, ¬ separates c :=
    fun c member => not_separates_of_isDigit (isNumber.2 c member)
  cases range with
  | bounds least greatest =>
    have upper : ∀ {text}, IsUpper text → ∀ c ∈ text, ¬ separates c := by
      intro text isUpper
      cases isUpper with
      | absent => exact nofun
      | unbounded | star => simp [separates, Token.isBlank]
      | number digits =>
        intro c member
        rcases List.mem_cons.mp member with rfl | member
        · decide
        · exact number digits c member
    intro c member
    rcases List.mem_cons.mp member with rfl | member
    · decide
    rcases List.mem_append.mp member with digit | member
    · exact number least c digit
    rcases List.mem_append.mp member with more | close
    · exact upper greatest c more
    · obtain rfl := List.mem_singleton.mp close
      decide

theorem IsEscape.inside (escaped : IsEscape text) : ∀ c ∈ text, ¬ separates c := by
  have digits {text : List Char} (hex : text.all Numeral.isHex) : ∀ c ∈ text, ¬ separates c :=
    fun c member => not_separates_of_isHex (List.all_eq_true.mp hex c member)
  cases escaped with
  | percent | backslash => simp [separates, Token.isBlank]
  | short _ hex | long _ hex =>
    intro c member
    rcases List.mem_cons.mp member with rfl | member
    · decide
    rcases List.mem_cons.mp member with rfl | member
    · decide
    · exact digits hex c member

/-- A text without delimiters may be left out at the beginning of a code block. -/
theorem IsContent.of_plain (plain : ∀ c ∈ gap, ¬ IsDelimiter c) (content : IsContent text)
    (split : text ++ rest = gap ++ last) :
    ∃ text' rest', IsContent text' ∧ text' ++ rest' = last := by
  induction gap generalizing text with
  | nil => exact ⟨text, rest, content, split⟩
  | cons c gap ih =>
    have other := plain c List.mem_cons_self
    cases content with
    | close =>
      obtain ⟨rfl, -⟩ := List.cons.inj split
      exact absurd (.inl rfl) other
    | plain _ later =>
      exact ih (fun d member => plain d (List.mem_cons_of_mem c member)) later
        (List.cons.inj split).2
    | escape escaped =>
      obtain ⟨more, rfl⟩ := escaped.head
      obtain ⟨rfl, -⟩ := List.cons.inj split
      exact absurd (.inr rfl) other

/-- A text without delimiters may be left out anywhere: neither an escape nor the end of a code
block goes on with a separating character. -/
theorem IsContent.of_gap (apart : Apart gap) (nonempty : gap ≠ [])
    (plain : ∀ c ∈ gap, ¬ IsDelimiter c) (content : IsContent text)
    (split : text ++ rest = front ++ (gap ++ last)) :
    ∃ text' rest', IsContent text' ∧ text' ++ rest' = front ++ last := by
  obtain ⟨first, gap', rfl⟩ := List.exists_cons_of_ne_nil nonempty
  have separated := apart first rfl
  induction content generalizing front with
  | close =>
    rcases front with _ | ⟨c, _ | ⟨d, front⟩⟩
    · exact IsContent.of_plain plain .close split
    · obtain ⟨rfl, brace⟩ := List.cons.inj split
      obtain ⟨rfl, -⟩ := List.cons.inj brace
      exact absurd separated (by decide)
    · obtain ⟨rfl, brace⟩ := List.cons.inj split
      obtain ⟨rfl, -⟩ := List.cons.inj brace
      exact ⟨_, front ++ last, .close, rfl⟩
  | @plain c content other later ih =>
    cases front with
    | nil => exact IsContent.of_plain plain (.plain other later) split
    | cons d front =>
      obtain ⟨rfl, split'⟩ := List.cons.inj split
      obtain ⟨text', rest', content', split'⟩ := ih split'
      exact ⟨c :: text', rest', .plain other content', congrArg (c :: ·) split'⟩
  | @escape escape content escaped later ih =>
    have inside (more : List Char) (after : content ++ rest = more ++ (first :: gap' ++ last)) :
        ∃ text' rest', IsContent text' ∧ text' ++ rest' = escape ++ more ++ last := by
      obtain ⟨text', rest', content', split'⟩ := ih after
      refine ⟨escape ++ text', rest', .escape escaped content', ?_⟩
      rw [List.append_assoc, split', List.append_assoc]
    rw [List.append_assoc] at split
    rcases List.append_eq_append_iff.mp split with ⟨more, rfl, after⟩ | ⟨more, same, after⟩
    · exact inside more after
    · cases more with
      | nil =>
        rw [List.append_nil] at same
        subst same
        simpa using inside [] after.symm
      | cons c more =>
        obtain ⟨rfl, -⟩ := List.cons.inj after
        exact absurd separated (escaped.inside first (by simp [same]))

/-- What begins with a brace begins there as well if a gap without delimiters is put behind it. -/
theorem Begins.again (apart : Apart gap) (nonempty : gap ≠ [])
    (plain : ∀ c ∈ gap, ¬ IsDelimiter c)
    (begins : Begins text (.found token lexeme (between ++ last))) :
    Begins (lexeme ++ (between ++ (gap ++ last)))
      (.found token lexeme (between ++ (gap ++ last))) := by
  have apart' : Apart (gap ++ last) := by
    obtain ⟨c, gap, rfl⟩ := List.exists_cons_of_ne_nil nonempty
    exact apart
  have noRange (lexeme front : List Char)
      (none : ∀ front, IsRange front → ¬ front <+: lexeme ++ (between ++ last))
      (range : IsRange front) : ¬ front <+: lexeme ++ (between ++ (gap ++ last)) := by
    intro begins
    rw [← List.append_assoc] at begins
    have inFront := Token.prefix_front apart' range.inside begins
    refine none front range (inFront.trans ?_)
    rw [← List.append_assoc]
    exact List.prefix_append _ _
  generalize after : between ++ last = rest at begins
  cases begins with
  | range range => exact .range range
  | code none code =>
    subst after
    exact .code (fun front => noRange _ front none) code
  | sign none noCode =>
    subst after
    refine .sign (fun front => noRange ['{'] front none) ?_
    rintro _ ⟨content⟩ ⟨after, whole⟩
    obtain ⟨text, rest, content', split⟩ :=
      content.of_gap apart nonempty plain (List.cons.inj whole).2
    exact noCode _ (.block content') ⟨rest, congrArg ('{' :: ·) split⟩

end Brace

/-! ### Tokens -/

namespace Token

/-- The token at the beginning of a text, as a fresh reading finds it. -/
def first (text : List Char) : Scan Token := (scan text.length .unknown ⟨0, text⟩).1

/-- Whatever is kept, the token at a place is the one at the beginning of the text there. -/
theorem scan_eq_first (valid : Brace.Kept kept place) (enough : place.rest.length ≤ bound) :
    (scan bound kept place).1 = first place.rest := by
  obtain ⟨offset, text⟩ := place
  cases text with
  | nil => rfl
  | cons c text =>
    by_cases brace : c = '{'
    · subst brace
      rw [first, scan_brace bound kept rfl, scan_brace _ .unknown rfl]
      have begins := (Brace.scan_begins rfl enough valid).1
      have fresh := Brace.kept_unknown ⟨0, '{' :: text⟩
      exact begins.unique (Brace.scan_begins rfl (Nat.le_refl _) fresh).1
    · rw [first, scan_plain bound kept brace rfl, scan_plain _ .unknown brace rfl]

theorem first_cons (other : c ≠ '{') (text : List Char) : first (c :: text) = scanPlain c text := by
  rw [first, scan_plain _ .unknown other rfl]

theorem first_brace (text : List Char) : Brace.Begins ('{' :: text) (first ('{' :: text)) := by
  have opens : (⟨0, '{' :: text⟩ : Cursor).rest = '{' :: text := rfl
  rw [first, scan_brace _ .unknown opens]
  exact (Brace.scan_begins opens (Nat.le_refl _) (Brace.kept_unknown _)).1

theorem first_split (found : first text = .found token lexeme rest) :
    text = lexeme ++ rest ∧ lexeme ≠ [] := by
  have taken := scan_taken (Brace.kept_unknown ⟨0, text⟩) (Nat.le_refl _) (Prod.ext found rfl)
  exact ⟨taken.split, taken.nonempty⟩

/-- No token begins with what begins a gap. -/
theorem first_of_separates (separated : separates c) (text : List Char) :
    first (c :: text) = .fault (.character c) [] c.utf8Size := by
  have marks : ∀ c, separates c → c ≠ '{' ∧ c ≠ '<' ∧ c ≠ '_' ∧
      ¬ (c = '"' || c = '\'') = true ∧ c ≠ '@' ∧ c ≠ ':' := forall_separates (by decide)
  have digits : ∀ c, separates c → ¬ Number.isSign c ∧ ¬ c.isDigit ∧ c ≠ '.' :=
    forall_separates (by decide)
  obtain ⟨brace, iri, blank, quote, sign, colon⟩ := marks c separated
  obtain ⟨noSign, noDigit, noDot⟩ := digits c separated
  have noNumber : ¬ Number.starts (c :: text) = true := by
    simp [Number.starts, Number.sign, Number.startsUnsigned, noSign, noDigit, noDot]
  have apart : Apart (c :: text) := fun d member => by
    obtain rfl : c = d := by simpa using member
    exact separated
  have begins : Punct.read? ([] ++ []) = none := by decide
  have noPunct : Punct.read? (c :: text) = none := Punct.read?_none_again apart begins
  have run : Name.run (c :: text) = ([], c :: text) := by
    simp [Name.run, Name.letterless c separated]
  have colonless : Name.Colonless (c :: text) := by
    simpa [Name.Colonless, run] using colon
  have name := Name.scan_of_colonless colonless
  rw [run] at name
  rw [first_cons brace, scanPlain, if_neg iri, if_neg blank, if_neg quote, if_neg sign,
    if_neg noNumber, noPunct]
  simp [scanName, name, Name.trimDots]

theorem stands_of_first (found : first text = .found token lexeme rest) : Stands text := by
  cases text with
  | nil => cases found
  | cons c text =>
    have other : ¬ separates c := fun separated => by
      rw [first_of_separates separated] at found
      cases found
    simp only [separates, Bool.or_eq_true, decide_eq_true_eq, not_or] at other
    exact ⟨other.1.1, other.1.2, fun slashes => other.2 slashes.1⟩

/-- A token is found again if a gap is put behind it, right there or after other tokens. -/
theorem first_again (apart : Apart gap) (nonempty : gap ≠ [])
    (plain : ∀ c ∈ gap, ¬ Brace.IsDelimiter c)
    (found : first (lexeme ++ (between ++ last)) = .found token lexeme (between ++ last)) :
    first (lexeme ++ (between ++ (gap ++ last))) =
      .found token lexeme (between ++ (gap ++ last)) := by
  obtain ⟨-, some⟩ := first_split found
  obtain ⟨c, lexeme, rfl⟩ := List.exists_cons_of_ne_nil some
  have apart' : Apart (gap ++ last) := by
    obtain ⟨c, gap, rfl⟩ := List.exists_cons_of_ne_nil nonempty
    exact apart
  rw [List.cons_append] at found ⊢
  by_cases brace : c = '{'
  · subst brace
    have begins := first_brace (lexeme ++ (between ++ last))
    rw [found] at begins
    have again := begins.again apart nonempty plain
    exact (first_brace _).unique again
  · rw [first_cons brace] at found ⊢
    exact scanPlain_again apart' found

/-- Strings and signs are their lexemes, and language tags hold letters, digits and hyphens. -/
def Shown : Token → List Char → Prop
  | .string raw _, lexeme => raw = String.ofList lexeme
  | .punct sign, lexeme => lexeme = sign.text.toList
  | .language tag, _ => ∀ c ∈ tag.toList, Char.isAlphanum c ∨ c = '-'
  | _, _ => True

theorem scanAt_shown (found : scanAt text = .found token lexeme rest) : Shown token lexeme := by
  simp only [scanAt] at found
  split at found
  · cases found
    rfl
  split at found
  · cases found
    rfl
  split at found
  · cases found
    trivial
  · split at found
    · cases found
      rfl
    case isFalse nonempty =>
      cases found
      obtain ⟨-, -, c, rest, whole, letter, inside⟩ := languageTag_found nonempty
      intro d member
      rw [String.toList_ofList, whole] at member
      rcases List.mem_cons.mp member with rfl | later
      · exact .inl (by rw [Char.isAlphanum, letter, Bool.true_or])
      · exact inside d later
  · cases found
  · cases found

theorem number_shown (found : Number.scan text = .found token lexeme rest) :
    Shown token lexeme := by
  simp only [Number.scan] at found
  split at found
  · split at found
    · cases found
    · split at found
      · cases found
      · cases found
        trivial
  · split at found
    · cases found
      trivial
    · split at found
      · cases found
      · cases found
        trivial

theorem scanName_shown (found : scanName c text = .found token lexeme rest) :
    Shown token lexeme := by
  simp only [scanName] at found
  split at found
  · cases found
    trivial
  · split at found
    · cases found
    · split at found
      · cases found
        trivial
      · cases found
  · cases found
  · cases found

theorem scanPlain_shown (found : scanPlain c text = .found token lexeme rest) :
    Shown token lexeme := by
  unfold scanPlain at found
  dsimp only at found
  split at found
  · obtain ⟨_, -, rfl⟩ := Scan.build_eq_found.mp found
    trivial
  split at found
  · obtain ⟨_, -, rfl⟩ := Scan.map_eq_found.mp found
    trivial
  split at found
  · obtain ⟨_, -, rfl⟩ := Scan.build_eq_found.mp found
    rfl
  split at found
  · exact scanAt_shown found
  split at found
  · exact number_shown found
  split at found
  · cases found
    rfl
  · exact scanName_shown found

theorem first_shown (found : first text = .found token lexeme rest) : Shown token lexeme := by
  cases text with
  | nil => cases found
  | cons c text =>
    by_cases brace : c = '{'
    · subst brace
      have begins := first_brace text
      rw [found] at begins
      generalize '{' :: text = whole at begins
      cases begins with
      | sign => rfl
      | range | code => trivial
    · rw [first_cons brace] at found
      exact scanPlain_shown found

end Token

/-! ### Gaps -/

namespace Token

theorem skip_line (line : ∀ d ∈ content, ¬ isLineEnd d) (ends : isLineEnd c) (offset : Nat)
    (rest : List Char) : skip true offset (content ++ c :: rest) =
      skip false (offset + Text.width (content ++ [c])) rest := by
  induction content generalizing offset with
  | nil => simp [skip, ends]
  | cons d content ih =>
    obtain ⟨noEnd, others⟩ := List.forall_mem_cons.mp line
    simp [skip, noEnd, ih others, Nat.add_assoc]

theorem skip_opens (opens : OpensComment front) (offset : Nat) (text : List Char) :
    skip false offset (front ++ text) = skip true (offset + Text.width front) text := by
  cases opens with
  | sign => simp [skip, isBlank]; rfl
  | slashes => simp [skip, isBlank, isLineEnd, Nat.add_assoc]; rfl

/-- A gap is stepped over. -/
theorem skip_gap (gap : IsGap front) (offset : Nat) (rest : List Char) :
    skip false offset (front ++ rest) = skip false (offset + Text.width front) rest := by
  induction gap generalizing offset with
  | empty => rfl
  | blank first _ ih =>
    rw [List.cons_append, skip, if_neg Bool.false_ne_true, if_pos first, ih,
      Text.width_cons, utf8Size_of_isBlank first, Nat.add_assoc]
  | @comment opening content c gap opens line ends _ ih =>
    rw [List.append_assoc, skip_opens opens, List.append_assoc, List.cons_append,
      skip_line line ends, ih]
    simp [Nat.add_assoc]

theorem skip_lastGap (gap : IsLastGap text) (offset : Nat) :
    (skip false offset text).rest = [] := by
  cases gap with
  | gap gap =>
    have skipped := skip_gap gap offset []
    rw [List.append_nil] at skipped
    rw [skipped]
    rfl
  | @comment text front content gap opens line =>
    rw [skip_gap gap, skip_opens opens]
    rcases skip_comment (offset + Text.width text + Text.width front) content with
      ⟨inner, c, rest, rfl, -, ends, -⟩ | ⟨-, skipped⟩
    · exact absurd ends (line c (by simp))
    · rw [skipped]

theorem IsGap.append (gap : IsGap front) (later : IsGap rest) : IsGap (front ++ rest) := by
  induction gap with
  | empty => exact later
  | blank first _ ih => exact .blank first ih
  | comment opens line ends _ ih =>
    simpa using IsGap.comment opens line ends ih

theorem IsGap.append_last (gap : IsGap front) (later : IsLastGap rest) :
    IsLastGap (front ++ rest) := by
  cases later with
  | gap later => exact .gap (gap.append later)
  | comment later opens line =>
    rw [← List.append_assoc]
    exact .comment (gap.append later) opens line

/-- The end of a line closes the last comment. -/
theorem IsLastGap.close (gap : IsLastGap text) (ends : isLineEnd c) : IsGap (text ++ [c]) := by
  have blank : isBlank c := by
    simp only [isLineEnd, isBlank, Bool.or_eq_true, decide_eq_true_eq] at ends ⊢
    rcases ends with rfl | rfl <;> decide
  cases gap with
  | gap gap => exact gap.append (.blank blank .empty)
  | comment gap opens line =>
    rw [List.append_assoc, List.append_assoc]
    exact gap.append (.comment opens line ends .empty)

/-- What a gap begins with separates tokens. -/
theorem IsGap.apart (gap : IsGap text) : Apart text := by
  intro c member
  cases gap with
  | empty => cases member
  | blank first =>
    obtain rfl : _ = c := by simpa using member
    simp [separates, first]
  | comment opens =>
    cases opens with
    | sign | slashes =>
      obtain rfl : _ = c := by simpa using member
      decide

end Token

/-! ### Spellings -/

/-- An extent after a text of some width was put at a place. -/
def Extent.moved (place size : Nat) (extent : Extent) : Extent :=
  if place ≤ extent.start then ⟨extent.start + size, extent.stop + size⟩ else extent

/-- A token after a text of some width was put at a place. -/
def Lexeme.moved (place size : Nat) (lexeme : Lexeme) : Lexeme :=
  { lexeme with extent := lexeme.extent.moved place size }

@[simp] theorem Extent.moved_zero (place : Nat) (extent : Extent) :
    extent.moved place 0 = extent := by
  unfold moved
  split <;> rfl

@[simp] theorem Lexeme.moved_zero (place : Nat) : Lexeme.moved place 0 = id := by
  funext lexeme
  simp [moved]

theorem Extent.moved_of_le {place start : Nat} (before : place ≤ start) (size stop : Nat) :
    Extent.moved place size ⟨start, stop⟩ = ⟨start + size, stop + size⟩ := if_pos before

theorem Extent.moved_of_lt {place start : Nat} (after : start < place) (size stop : Nat) :
    Extent.moved place size ⟨start, stop⟩ = ⟨start, stop⟩ := if_neg (Nat.not_le.mpr after)

namespace TokenSequence

open Token (IsGap IsLastGap skip scan)

/-- A text is tokens with gaps between them, each the first token of the text from there on. -/
inductive Spells : (start : Nat) → List Char → List Lexeme → Prop where
  | finished (gap : IsLastGap text) : Spells start text []
  | token (gap : IsGap front)
      (found : Token.first (lexeme ++ rest) = .found token lexeme rest)
      (later : Spells (start + Text.width front + Text.width lexeme) rest tokens) :
      Spells start (front ++ (lexeme ++ rest))
        (⟨token, ⟨start + Text.width front, start + Text.width front + Text.width lexeme⟩,
          String.ofList lexeme⟩ :: tokens)

theorem Spells.layout (spells : Spells start text tokens) : Layout start text tokens none := by
  induction spells with
  | finished gap => exact .finished gap
  | token gap found _ ih => exact .token gap (Token.first_split found).2 ih

theorem read_of_spells (spells : Spells start text tokens)
    (valid : Brace.Kept kept ⟨start, text⟩) (enough : text.length < bound) :
    (read bound kept ⟨start, text⟩).problem = none ∧
      (read bound kept ⟨start, text⟩).lexemes = tokens := by
  induction spells generalizing bound kept with
  | @finished text start gap =>
    obtain ⟨bound, rfl⟩ := Nat.exists_eq_succ_of_ne_zero (Nat.ne_of_gt (Nat.zero_lt_of_lt enough))
    have ended := Token.skip_lastGap gap start
    simp [read, ended]
  | @token front lexeme rest token start tokens gap found later ih =>
    obtain ⟨bound, rfl⟩ := Nat.exists_eq_succ_of_ne_zero (Nat.ne_of_gt (Nat.zero_lt_of_lt enough))
    have stands := Token.stands_of_first found
    have skipped : skip false start (front ++ (lexeme ++ rest)) =
        ⟨start + Text.width front, lexeme ++ rest⟩ := by
      rw [Token.skip_gap gap, Token.skip_of_stands stands]
    obtain ⟨valid', shorter⟩ := kept_skip valid
    rw [skipped] at valid' shorter
    have size : (lexeme ++ rest).length ≤ bound := by
      simp only [List.length_append] at enough shorter ⊢
      omega
    have same := Token.scan_eq_first valid' size
    rw [found] at same
    have taken := Token.scan_taken valid' size (Prod.ext same rfl)
    have positive := List.length_pos_iff.mpr taken.nonempty
    have fewer : rest.length < bound := by
      simp only [List.length_append] at size
      omega
    have tail := ih taken.kept fewer
    rw [read_found (Prod.ext (skipped ▸ same) rfl), skipped]
    exact ⟨tail.1, congrArg _ tail.2⟩

theorem spells_of_read (valid : Brace.Kept kept ⟨start, text⟩) (enough : text.length < bound)
    (calm : (read bound kept ⟨start, text⟩).problem = none) :
    Spells start text (read bound kept ⟨start, text⟩).lexemes := by
  induction bound generalizing kept start text with
  | zero => omega
  | succ bound ih =>
    obtain ⟨gap, skipped⟩ := Token.skip_skipped start text
    obtain ⟨valid', shorter⟩ := kept_skip valid
    have size : (skip false start text).rest.length ≤ bound := by omega
    by_cases ended : (skip false start text).rest = []
    · have last : IsLastGap text := by
        have split := skipped.split
        rw [ended, List.append_nil] at split
        rw [split]
        exact skipped.between.elim .gap And.right
      simpa [read, ended] using Spells.finished last
    · have isGap : IsGap gap := skipped.between.resolve_right fun between => ended between.1
      have same := Token.scan_eq_first valid' size
      cases result : scan bound kept (skip false start text) with
      | mk outcome later =>
        cases outcome with
        | found token lexeme rest =>
          have taken := Token.scan_taken valid' size result
          have size' := congrArg List.length taken.split
          have positive := List.length_pos_iff.mpr taken.nonempty
          rw [List.length_append] at size'
          rw [result, taken.split] at same
          rw [read_found result] at calm ⊢
          have tail := ih taken.kept (by omega) calm
          have moved := skipped.moved
          rw [moved] at tail
          have whole := Spells.token isGap same.symm tail
          rw [← taken.split, ← skipped.split, ← moved] at whole
          exact whole
        | fault | unfinished =>
          obtain ⟨problem, -, whole⟩ := read_failed ended
            (Token.scan_textual valid' size) (by simp [result])
          rw [whole] at calm
          cases calm

/-- The kept text of a string literal is as wide as its token. -/
theorem Spells.string_width (spells : Spells start text tokens) (member : lexeme ∈ tokens)
    (isString : lexeme.token = .string raw width) :
    lexeme.extent.stop = lexeme.extent.start + Text.width raw.toList := by
  induction spells with
  | finished => cases member
  | token gap found later ih =>
    rcases List.mem_cons.mp member with rfl | member
    · obtain rfl := isString
      have shown : raw = _ := Token.first_shown found
      rw [shown, String.toList_ofList]
    · exact ih member

/-- What a token keeps of its text. -/
theorem Spells.shown (spells : Spells start text tokens) (member : lexeme ∈ tokens) :
    lexeme.token.Shown lexeme.text.toList := by
  induction spells with
  | finished => cases member
  | token gap found later ih =>
    rcases List.mem_cons.mp member with rfl | member
    · rw [String.toList_ofList]
      exact Token.first_shown found
    · exact ih member

/-- The kept text of a string literal is the text of its token. -/
theorem Spells.string_text (spells : Spells start text tokens) (member : lexeme ∈ tokens)
    (isString : lexeme.token = .string raw width) : lexeme.text = raw := by
  have shown := spells.shown member
  rw [isString] at shown
  exact (shown.trans String.ofList_toList).symm

/-- A text is read without a problem exactly if it spells tokens, and these are the tokens. -/
theorem ofText_iff_spells (text : List Char) (tokens : List Lexeme) :
    (ofText text).problem = none ∧ (ofText text).lexemes = tokens ↔ Spells 0 text tokens := by
  constructor
  · rintro ⟨calm, rfl⟩
    exact spells_of_read (Brace.kept_unknown _) (Nat.lt_succ_self _) calm
  · exact fun spells =>
      read_of_spells spells (Brace.kept_unknown _) (Nat.lt_succ_self _)

/-! ### Texts that are put into a text -/

theorem tokens_moved (place size : Nat) (tokens : List Lexeme) :
    (tokens.map (Lexeme.moved place size)).map Lexeme.token = tokens.map Lexeme.token := by
  rw [List.map_map]
  rfl

/-- The same text later in a longer one. -/
theorem Spells.shift (spells : Spells start text tokens) (before : place ≤ start) (size : Nat) :
    Spells (start + size) text (tokens.map (Lexeme.moved place size)) := by
  induction spells with
  | finished gap => exact .finished gap
  | @token front lexeme rest token start tokens gap found _ ih =>
    have later := ih (by omega)
    rw [Nat.add_right_comm _ _ size, Nat.add_right_comm _ _ size] at later
    rw [List.map_cons, Lexeme.moved, Extent.moved_of_le (by omega),
      Nat.add_right_comm (start + _) _ size, Nat.add_right_comm start _ size]
    exact .token gap found later

/-- A gap before the first token. -/
theorem Spells.after_gap (spells : Spells (start + Text.width gap) text tokens)
    (isGap : IsGap gap) : Spells start (gap ++ text) tokens := by
  generalize moved : start + Text.width gap = place at spells
  cases spells with
  | finished last => exact .finished (isGap.append_last last)
  | @token front lexeme rest token _ tokens gap' found later =>
    subst moved
    rw [Nat.add_assoc start, ← Text.width_append] at later ⊢
    rw [← List.append_assoc]
    exact .token (isGap.append gap') found later

theorem append_inj_width (same : front ++ rest = front' ++ rest')
    (size : Text.width front = Text.width front') : front = front' ∧ rest = rest' := by
  have cut := Text.cut_append front rest
  rw [same, size, Text.cut_append, Text.Cut.exact.injEq] at cut
  exact ⟨cut.1.symm, cut.2.symm⟩

/-- A token of a spelled text ends behind its first token, or with it. -/
theorem Spells.end_cases
    (spells : Spells (start + Text.width gap + Text.width lexeme) last tokens)
    (split : front ++ rest = gap ++ (lexeme ++ last))
    (stop : first.extent.stop = start + Text.width gap + Text.width lexeme)
    (ends : ∃ other ∈ first :: tokens, other.extent.stop = start + Text.width front) :
    front = gap ++ lexeme ∧ rest = last ∨
      ∃ between, front = gap ++ (lexeme ++ between) ∧ last = between ++ rest ∧
        ∃ other ∈ tokens, other.extent.stop =
          start + Text.width gap + Text.width lexeme + Text.width between := by
  rw [← List.append_assoc] at split
  obtain ⟨other, member, ends⟩ := ends
  rcases List.mem_cons.mp member with rfl | member
  · refine .inl (append_inj_width split ?_)
    rw [Text.width_append]
    omega
  · obtain ⟨some, front', -, -, first, -⟩ := spells.layout.slice other member
    rcases List.append_eq_append_iff.mp split with ⟨more, same, -⟩ | ⟨between, rfl, rfl⟩
    · have size := congrArg Text.width same
      simp only [Text.width_append] at size
      omega
    · refine .inr ⟨between, by simp, rfl, other, member, ?_⟩
      rw [ends]
      simp [Nat.add_assoc]

/-- A text without delimiters that begins with a gap may be put behind a token: every token is found
again, that one and those before it. -/
theorem Spells.insert (spells : Spells start (front ++ rest) tokens)
    (ends : ∃ lexeme ∈ tokens, lexeme.extent.stop = start + Text.width front)
    (isGap : IsGap gap) (plain : ∀ c ∈ gap, ¬ Brace.IsDelimiter c) :
    Spells start (front ++ (gap ++ rest))
      (tokens.map (Lexeme.moved (start + Text.width front) (Text.width gap))) := by
  by_cases nonempty : gap = []
  · subst nonempty
    simpa using spells
  generalize split : front ++ rest = text at spells
  induction spells generalizing front with
  | finished => simp at ends
  | @token gap' lexeme last token start tokens isGap' found later ih =>
    have positive := width_pos (Token.first_split found).2
    have apart := isGap.apart
    rcases later.end_cases split rfl ends with ⟨rfl, rfl⟩ | ⟨between, rfl, rfl, ends⟩
    · have tail := (later.shift (Nat.le_refl _) (Text.width gap)).after_gap isGap
      have alone : Token.first (lexeme ++ ([] ++ rest)) = .found token lexeme ([] ++ rest) := found
      have again := Token.first_again apart nonempty plain alone
      rw [List.map_cons, Lexeme.moved, Extent.moved_of_lt (by simp; omega)]
      simp only [Text.width_append, ← Nat.add_assoc, List.append_assoc] at tail ⊢
      exact .token isGap' again tail
    · have tail := ih ends rfl
      have again := Token.first_again apart nonempty plain found
      rw [List.map_cons, Lexeme.moved, Extent.moved_of_lt (by simp; omega)]
      simp only [Text.width_append, ← Nat.add_assoc, List.append_assoc] at tail ⊢
      exact .token isGap' again tail

/-- A text without delimiters may follow on the next line. -/
theorem Spells.append (spells : Spells start text tokens) (later : Spells 0 more others)
    (plain : ∀ c ∈ more, ¬ Brace.IsDelimiter c) :
    ∃ others', others'.map Lexeme.token = others.map Lexeme.token ∧
      Spells start (text ++ '\n' :: more) (tokens ++ others') := by
  have apart : Token.Apart ('\n' :: more) := fun c member => by
    obtain rfl : '\n' = c := by simpa using member
    decide
  have plain' : ∀ c ∈ '\n' :: more, ¬ Brace.IsDelimiter c :=
    List.forall_mem_cons.mpr ⟨by decide, plain⟩
  induction spells with
  | @finished text start gap =>
    have isGap : IsGap (text ++ ['\n']) := gap.close (by decide)
    have tail := later.shift (Nat.le_refl 0) (start + Text.width (text ++ ['\n']))
    rw [Nat.zero_add] at tail
    refine ⟨_, tokens_moved 0 (start + Text.width (text ++ ['\n'])) others, ?_⟩
    rw [List.append_cons]
    exact tail.after_gap isGap
  | @token gap lexeme rest token start tokens isGap found _ ih =>
    obtain ⟨others', same, tail⟩ := ih
    have whole : Token.first (lexeme ++ (rest ++ [])) = .found token lexeme (rest ++ []) := by
      rwa [List.append_nil]
    have again := Token.first_again apart (List.cons_ne_nil _ _) plain' whole
    rw [List.append_nil] at again
    refine ⟨others', same, ?_⟩
    rw [List.append_assoc, List.append_assoc]
    exact .token isGap again tail

end TokenSequence

end ShExCompact
