import ShExCompact.Proofs.Lexical.IriEscapes
import ShExCompact.Proofs.Lexical.Spelling

/-! Strings between single quotes stay on one line, backslashes apart: a backslash takes any
character with it, also a line break. Main statement: the line breaks of such a token are those
behind its backslashes, and any other one before the closing quote is a fault at its place. -/
namespace ShExCompact

namespace Quote

open Token (isLineEnd)

/-- The characters of quotes. -/
def IsMark (c : Char) : Prop := c = '"' ∨ c = '\''

/-- What may stand between two quotes of one kind: characters that are neither this quote nor a
backslash nor a line break, and backslashes with any one character behind them. -/
inductive IsBody (mark : Char) : List Char → Prop where
  | nil : IsBody mark []
  | plain (other : c ≠ mark) (noEscape : c ≠ '\\') (inLine : ¬ isLineEnd c)
      (rest : IsBody mark body) : IsBody mark (c :: body)
  | escape (c : Char) (rest : IsBody mark body) : IsBody mark ('\\' :: c :: body)

/-- A backslash of a body has a line break behind it. -/
def EscapesLineEnd (mark : Char) (body : List Char) : Prop :=
  ∃ front c rest, body = front ++ '\\' :: c :: rest ∧ IsBody mark front ∧ isLineEnd c

/-- Where the reading of a text behind a quote ends. -/
inductive Ends (mark : Char) : List Char → Scan Unit → Prop where
  | closed (body : IsBody mark front) :
      Ends mark (front ++ mark :: rest) (.found () (front ++ [mark]) rest)
  | broken (body : IsBody mark front) (lineEnd : isLineEnd c) :
      Ends mark (front ++ c :: rest) (.fault .lineBreak front 1)
  | endless (body : IsBody mark text) : Ends mark text .unfinished
  | cut (body : IsBody mark front) : Ends mark (front ++ ['\\']) .unfinished

variable {mark : Char}

theorem IsMark.other (isMark : IsMark mark) : mark ≠ '\\' ∧ ¬ isLineEnd mark := by
  obtain rfl | rfl := isMark <;> decide

theorem isLineEnd_iff : isLineEnd c = true ↔ (c = '\n' || c = '\r') = true := by
  rw [isLineEnd, Bool.or_comm]

/-- The pieces of a body are stepped over. -/
theorem short_body (body : IsBody mark front) (isMark : IsMark mark) (rest : List Char) :
    short mark (front ++ rest) = (short mark rest).after front := by
  induction body with
  | nil =>
    rw [List.nil_append]
    cases short mark rest <;> rfl
  | @plain c front other noEscape inLine _ ih =>
    rw [List.cons_append, short_plain other noEscape ((not_congr isLineEnd_iff).mp inLine), ih]
    cases short mark rest <;> rfl
  | @escape front c _ ih =>
    rw [List.cons_append, List.cons_append, short, if_neg isMark.other.1.symm, if_pos rfl, ih]
    cases short mark rest <;> rfl

theorem Ends.short_eq (ends : Ends mark text outcome) (isMark : IsMark mark) :
    short mark text = outcome := by
  obtain ⟨noEscape, inLine⟩ := isMark.other
  cases ends with
  | closed body =>
    rw [short_body body isMark, short.eq_def]
    dsimp only
    rw [if_pos rfl]
    rfl
  | @broken front c rest body lineEnd =>
    have other : c ≠ mark := fun same => inLine (same ▸ lineEnd)
    have noEscape : c ≠ '\\' := by
      rintro rfl
      exact absurd lineEnd (by decide)
    rw [short_body body isMark, short.eq_def]
    dsimp only
    rw [if_neg other, if_neg noEscape, if_pos (isLineEnd_iff.mp lineEnd), Scan.after,
      List.append_nil]
  | endless body =>
    have whole := short_body body isMark []
    rw [List.append_nil] at whole
    rw [whole]
    rfl
  | cut body =>
    rw [short_body body isMark, short.eq_def]
    dsimp only
    rw [if_neg noEscape.symm, if_pos rfl]
    rfl

theorem Ends.plain (other : c ≠ mark) (noEscape : c ≠ '\\') (inLine : ¬ isLineEnd c)
    (ends : Ends mark text outcome) : Ends mark (c :: text) (outcome.after [c]) := by
  cases ends with
  | closed body => exact .closed (.plain other noEscape inLine body)
  | broken body lineEnd => exact .broken (.plain other noEscape inLine body) lineEnd
  | endless body => exact .endless (.plain other noEscape inLine body)
  | cut body => exact .cut (.plain other noEscape inLine body)

theorem Ends.escape (c : Char) (ends : Ends mark text outcome) :
    Ends mark ('\\' :: c :: text) (outcome.after ['\\', c]) := by
  cases ends with
  | closed body => exact .closed (.escape c body)
  | broken body lineEnd => exact .broken (.escape c body) lineEnd
  | endless body => exact .endless (.escape c body)
  | cut body => exact .cut (.escape c body)

/-- Every text behind a quote is read up to one of these ends. -/
theorem ends_short (mark : Char) (text : List Char) : Ends mark text (short mark text) := by
  fun_induction short mark text with
  | case1 => exact .endless .nil
  | case2 rest => exact .closed .nil
  | case3 => exact .cut .nil
  | case4 c rest _ ih => exact ih.escape c
  | case5 c rest _ _ lineEnd => exact .broken .nil (isLineEnd_iff.mpr lineEnd)
  | case6 c rest other noEscape inLine ih =>
    exact ih.plain other noEscape ((not_congr isLineEnd_iff).mpr inLine)

/-- The line breaks of a body are behind its backslashes. -/
theorem IsBody.lineEnd_iff (body : IsBody mark text) :
    (∃ c ∈ text, isLineEnd c) ↔ EscapesLineEnd mark text := by
  constructor
  · induction body with
    | nil => rintro ⟨c, member, -⟩; cases member
    | @plain d body other noEscape inLine _ ih =>
      rintro ⟨c, member, lineEnd⟩
      rcases List.mem_cons.mp member with rfl | member
      · exact absurd lineEnd inLine
      · obtain ⟨front, e, rest, rfl, front', escaped⟩ := ih ⟨c, member, lineEnd⟩
        exact ⟨d :: front, e, rest, rfl, .plain other noEscape inLine front', escaped⟩
    | @escape body d _ ih =>
      rintro ⟨c, member, lineEnd⟩
      rcases List.mem_cons.mp member with rfl | member
      · exact absurd lineEnd (by decide)
      rcases List.mem_cons.mp member with rfl | member
      · exact ⟨[], c, body, rfl, .nil, lineEnd⟩
      · obtain ⟨front, e, rest, rfl, front', escaped⟩ := ih ⟨c, member, lineEnd⟩
        exact ⟨'\\' :: d :: front, e, rest, rfl, .escape d front', escaped⟩
  · rintro ⟨front, c, rest, rfl, -, lineEnd⟩
    exact ⟨c, by simp, lineEnd⟩

/-- A body does not begin with its quote. Only an empty string has two quotes behind the first one
if a third one follows. -/
theorem IsBody.not_marks (body : IsBody mark front) (isMark : IsMark mark)
    (single : front = [] → c = mark → ∀ more, rest ≠ mark :: more) :
    ¬ [mark, mark].isPrefixOf (front ++ c :: rest) = true := by
  rw [List.isPrefixOf_iff_prefix]
  rintro ⟨more, same⟩
  cases body with
  | nil =>
    obtain ⟨rfl, behind⟩ := List.cons.inj same
    exact single rfl rfl more behind.symm
  | plain other => exact other (List.cons.inj same).1.symm
  | escape => exact isMark.other.1 (List.cons.inj same).1

/-- A string between single quotes is found behind its first quote, unless two more follow. -/
theorem scan_eq_one : scan mark text = .found 1 lexeme rest ↔
    ¬ [mark, mark].isPrefixOf text = true ∧
      ∃ inner, short mark text = .found () inner rest ∧ lexeme = mark :: inner := by
  unfold scan
  split
  next marks =>
    constructor
    · intro found
      obtain ⟨_, read, -⟩ := Scan.after_eq_found.mp found
      obtain ⟨_, -, impossible⟩ := Scan.map_eq_found.mp read
      cases impossible
    · exact fun both => absurd marks both.1
  next single =>
    constructor
    · intro found
      obtain ⟨inner, read, rfl⟩ := Scan.after_eq_found.mp found
      obtain ⟨_, short, -⟩ := Scan.map_eq_found.mp read
      exact ⟨single, inner, short, rfl⟩
    · rintro ⟨-, inner, short, rfl⟩
      rw [short]
      rfl

end Quote

namespace Token

open Quote (IsMark IsBody EscapesLineEnd)

/-- A string is found where a quote stands, and only there. -/
theorem scan_string : (scan bound kept place).1 = .found (.string raw width) lexeme rest ↔
    ∃ mark text, IsMark mark ∧ place.rest = mark :: text ∧
      Quote.scan mark text = .found width lexeme rest ∧ raw = String.ofList lexeme := by
  constructor
  · intro found
    cases opens : place.rest with
    | nil =>
      rw [scan, opens] at found
      cases found
    | cons c text =>
      by_cases brace : c = '{'
      · subst brace
        rw [scan_brace bound kept opens] at found
        cases braceScan_isDelimited found
      · rw [scan_plain bound kept brace opens] at found
        simp only [scanPlain] at found
        split at found
        · obtain ⟨_, -, same⟩ := Scan.build_eq_found.mp found
          cases same
        split at found
        · obtain ⟨_, -, same⟩ := Scan.map_eq_found.mp found
          cases same
        split at found
        next quote =>
          obtain ⟨width', read, same⟩ := Scan.build_eq_found.mp found
          cases same
          have isMark : IsMark c := by simpa [IsMark] using quote
          exact ⟨c, text, isMark, rfl, read, rfl⟩
        split at found
        · cases scanAt_isDelimited found
        split at found
        · cases number_isDelimited found
        split at found
        · cases found
        · cases scanName_isDelimited found
  · rintro ⟨mark, text, isMark, opens, read, rfl⟩
    have apart : mark ≠ '{' ∧ mark ≠ '<' ∧ mark ≠ '_' ∧ (mark = '"' || mark = '\'') = true := by
      obtain rfl | rfl := isMark <;> decide
    rw [scan_plain bound kept apart.1 opens, scanPlain, if_neg apart.2.1, if_neg apart.2.2.1,
      if_pos apart.2.2.2, read]
    rfl

/-- A line break behind a body without its closing quote is a fault at its place. -/
theorem scan_broken (isMark : IsMark mark) (body : IsBody mark front) (lineEnd : isLineEnd c)
    (opens : place.rest = mark :: (front ++ c :: rest)) :
    (scan bound kept place).1 = .fault .lineBreak (mark :: front) 1 := by
  have apart : mark ≠ '{' ∧ mark ≠ '<' ∧ mark ≠ '_' ∧ (mark = '"' || mark = '\'') = true := by
    obtain rfl | rfl := isMark <;> decide
  have single : ¬ [mark, mark].isPrefixOf (front ++ c :: rest) = true :=
    body.not_marks isMark fun _ same => absurd (same ▸ lineEnd) isMark.other.2
  have broken : Quote.short mark (front ++ c :: rest) = .fault .lineBreak front 1 :=
    Quote.Ends.short_eq (.broken body lineEnd) isMark
  rw [scan_plain bound kept apart.1 opens, scanPlain, if_neg apart.2.1, if_neg apart.2.2.1,
    if_pos apart.2.2.2, Quote.scan, if_neg single, broken]
  rfl

theorem scan_closed (isMark : IsMark mark) (body : IsBody mark front)
    (single : front = [] → ∀ more, rest ≠ mark :: more)
    (opens : place.rest = mark :: (front ++ mark :: rest)) :
    (scan bound kept place).1 = .found (.string (String.ofList (mark :: (front ++ [mark]))) 1)
      (mark :: (front ++ [mark])) rest := by
  have closed : Quote.short mark (front ++ mark :: rest) = .found () (front ++ [mark]) rest :=
    Quote.Ends.short_eq (.closed body) isMark
  have alone := body.not_marks isMark (c := mark) fun empty _ => single empty
  exact scan_string.mpr
    ⟨mark, _, isMark, opens, Quote.scan_eq_one.mpr ⟨alone, _, closed, rfl⟩, rfl⟩

end Token

namespace TokenSequence

open Quote (IsMark IsBody EscapesLineEnd)
open Token (scan skip isLineEnd)

theorem Spells.body (spells : Spells start text tokens) (member : lexeme ∈ tokens)
    (isString : lexeme.token = .string raw 1) :
    ∃ mark body, IsMark mark ∧ IsBody mark body ∧ raw.toList = mark :: (body ++ [mark]) := by
  induction spells with
  | finished => cases member
  | token gap found later ih =>
    rcases List.mem_cons.mp member with rfl | member
    · obtain rfl := isString
      obtain ⟨mark, behind, isMark, -, read, rfl⟩ := Token.scan_string.mp found
      obtain ⟨-, inner, short, rfl⟩ := Quote.scan_eq_one.mp read
      have ends := Quote.ends_short mark behind
      rw [short] at ends
      cases ends with
      | closed body => exact ⟨mark, _, isMark, body, String.toList_ofList⟩
    · exact ih member

/-- A string between single quotes has a body between them, also if a fault follows: every token is
the one of its own text. -/
theorem body_of_member (member : lexeme ∈ (ofText text).lexemes)
    (isString : lexeme.token = .string raw 1) :
    ∃ mark body, IsMark mark ∧ IsBody mark body ∧ raw.toList = mark :: (body ++ [mark]) := by
  have alone := (lossless_ofText text).alone lexeme member
  have spells := (ofText_iff_spells lexeme.text.toList _).mp ⟨congrArg problem alone, rfl⟩
  rw [alone] at spells
  exact spells.body List.mem_cons_self isString

@[simp] theorem ofOffset_zero (text : List Char) : (ofOffset text 0).2 = ofText text := by
  cases text <;> rfl

theorem problem_of_reached (reached : Reached text 0 bound kept place)
    (fault : (scan bound kept place).1 = .fault cause lead width) :
    (ofText text).problem = some ⟨⟨place.offset + Text.width lead,
      place.offset + Text.width lead + width⟩, cause,
      (place.rest.drop lead.length).headD Text.replacement⟩ := by
  obtain ⟨before, start, rest, rfl, -, problem⟩ := reached.sequence
  rw [ofOffset_zero] at problem
  have some : (skip false start rest).rest.isEmpty = false := by
    cases empty : (skip false start rest).rest with
    | nil => simp [scan, empty] at fault
    | cons => rfl
  obtain ⟨later, outcome⟩ : ∃ later, scan bound kept (skip false start rest) =
      (.fault cause lead width, later) := ⟨_, Prod.ext fault rfl⟩
  rw [problem, read]
  simp only [some, outcome]
  rfl

theorem member_of_reached (reached : Reached text 0 bound kept place)
    (found : (scan bound kept place).1 = .found token lexeme rest) :
    ⟨token, ⟨place.offset, place.offset + Text.width lexeme⟩, String.ofList lexeme⟩ ∈
      (ofText text).lexemes := by
  obtain ⟨before, start, last, rfl, tokens⟩ := reached.lexemes
  rw [ofOffset_zero] at tokens
  rw [tokens, read_found (Prod.ext found rfl)]
  exact List.mem_append_right _ List.mem_cons_self

/-- The line breaks in a string between single quotes are those behind its backslashes, and every
string whose other line breaks, if any, are behind its closing quote is a token. Any line break
before the closing quote that is not behind a backslash is the fault at which the tokens end. -/
theorem ofText_shortStrings (text : List Char) :
    (∀ lexeme ∈ (ofText text).lexemes, ∀ raw, lexeme.token = .string raw 1 →
      ∃ mark body, IsMark mark ∧ IsBody mark body ∧ raw.toList = mark :: (body ++ [mark]) ∧
        ((∃ c ∈ raw.toList, isLineEnd c) ↔ EscapesLineEnd mark body)) ∧
    ∀ bound kept place mark body c rest, Reached text 0 bound kept place →
      IsMark mark → IsBody mark body → place.rest = mark :: (body ++ c :: rest) →
      (isLineEnd c → (ofText text).problem =
        some ⟨⟨place.offset + Text.width (mark :: body),
          place.offset + Text.width (mark :: body) + 1⟩, .lineBreak, c⟩) ∧
      (c = mark → (body = [] → ∀ more, rest ≠ mark :: more) →
        ⟨.string (String.ofList (mark :: (body ++ [mark]))) 1,
          ⟨place.offset, place.offset + Text.width (mark :: (body ++ [mark]))⟩,
          String.ofList (mark :: (body ++ [mark]))⟩ ∈ (ofText text).lexemes) := by
  refine ⟨?_, ?_⟩
  · intro lexeme member raw isString
    obtain ⟨mark, body, isMark, isBody, same⟩ := body_of_member member isString
    refine ⟨mark, body, isMark, isBody, same, ?_⟩
    rw [same, ← isBody.lineEnd_iff]
    simp [isMark.other.2]
  · intro bound kept place mark body c rest reached isMark isBody opens
    constructor
    · intro lineEnd
      have problem := problem_of_reached reached (Token.scan_broken isMark isBody lineEnd opens)
      rw [problem, opens]
      simp
    · rintro rfl single
      exact member_of_reached reached (Token.scan_closed isMark isBody single opens)

/-- A backslash and a line break between two quotes are one token. -/
theorem ofText_shortStrings_break :
    ofText "\"\\\n\"".toList = ⟨[⟨.string "\"\\\n\"" 1, ⟨0, 4⟩, "\"\\\n\""⟩], none, 4⟩ ∧
      '\n' ∈ "\"\\\n\"".toList := by
  decide +kernel

end TokenSequence

end ShExCompact
