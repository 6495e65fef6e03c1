import ShExCompact.Proofs.Lexical.Runs

/-! The tokens of a text lie in it one after the other, with gaps between them, and each of them is
the one token of its own text. -/
namespace ShExCompact

/-! ### Faults -/

/-- Faults of a text, which has no invalid bytes. -/
def Fault.OfText : Fault → Prop
  | encoding | bytes _ => False
  | _ => True

namespace Fault

/-- A wording that begins with another letter than the wordings of invalid bytes. -/
def BeginsOther (text : String) : Prop := ∃ c more, text.toList = c :: more ∧ c ≠ 'I'

theorem BeginsOther.ofList (other : c ≠ 'I') : BeginsOther (String.ofList (c :: more)) :=
  ⟨c, more, String.toList_ofList, other⟩

theorem BeginsOther.append (begins : BeginsOther text) (rest : String) :
    BeginsOther (text ++ rest) := by
  obtain ⟨c, more, split, other⟩ := begins
  exact ⟨c, more ++ rest.toList, by simp [split], other⟩

theorem message_of_ofText (ofText : OfText fault) :
    ¬ "Invalid UTF-8".toList <+: fault.message.toList := by
  have begins : BeginsOther fault.message := by
    cases fault with
    | encoding | bytes => cases ofText
    | character | iriCharacter | iriEscape | word | prefixDot | percent =>
      unfold message
      exact ((BeginsOther.ofList (by decide)).append _).append _
    | escapeDigits =>
      unfold message
      exact (((BeginsOther.ofList (by decide)).append _).append _).append _
    | localEscape =>
      unfold message
      exact ((((BeginsOther.ofList (by decide)).append _).append _).append _).append _
    | escapeValue =>
      unfold message
      exact (((((BeginsOther.ofList (by decide)).append _).append _).append _).append _).append _
    | blankNode | lineBreak | exponent | double | integer | endOfText =>
      unfold message
      exact .ofList (by decide)
  obtain ⟨c, more, split, other⟩ := begins
  rw [split]
  exact fun same => other (List.cons_prefix_cons.mp same).1.symm

end Fault

namespace Scan

/-- A fault of a scan is one of a text. -/
def Textual : Scan α → Prop
  | fault cause _ _ => cause.OfText
  | found .. | unfinished => True

@[simp] theorem textual_fault : (fault cause lead width : Scan α).Textual ↔ cause.OfText := Iff.rfl

@[simp] theorem textual_found : (found value lexeme rest : Scan α).Textual := trivial

@[simp] theorem textual_unfinished : (unfinished : Scan α).Textual := trivial

@[simp] theorem textual_build {make : α → List Char → β} {scan : Scan α} :
    (scan.build make).Textual ↔ scan.Textual := by
  cases scan <;> rfl

@[simp] theorem textual_map {change : α → β} {scan : Scan α} :
    (scan.map change).Textual ↔ scan.Textual := textual_build

@[simp] theorem textual_after {scan : Scan α} : (scan.after front).Textual ↔ scan.Textual := by
  cases scan <;> rfl

@[simp] theorem textual_push {scan : Scan (List Char)} :
    (scan.push value front).Textual ↔ scan.Textual := by
  simp [push]

end Scan

theorem IriRef.escape_textual (text : List Char) : (escape text).Textual := by
  have codePoint (letter : Char) (size : Nat) (text : List Char) :
      (codePoint letter size text).Textual := by
    unfold IriRef.codePoint
    repeat' split
    all_goals trivial
  unfold escape
  repeat' split
  all_goals first | trivial | exact codePoint _ _ _

theorem IriRef.body_textual (text : List Char) : (body text).Textual := by
  induction text with
  | nil => trivial
  | cons c rest ih =>
    have escaped := escape_textual rest
    unfold body
    split
    · trivial
    · split
      · split
        case h_1 => exact Scan.textual_after.mpr ih
        case h_2 fault => rwa [fault] at escaped
        case h_3 => trivial
      · split
        · trivial
        · exact Scan.textual_after.mpr ih

theorem Quote.scan_textual (mark : Char) (text : List Char) : (scan mark text).Textual := by
  have short (text : List Char) : (short mark text).Textual := by
    fun_induction Quote.short mark text <;> simp_all [Fault.OfText]
  have long (text : List Char) : (long mark text).Textual := by
    fun_induction Quote.long mark text <;> simp_all
  unfold scan
  split
  · simpa using long _
  · simpa using short _

theorem Name.localPart_textual (isFirst : Bool) (text : List Char) :
    (localPart isFirst text).Textual := by
  have percent (text : List Char) : (percentFault text).Textual := by
    unfold percentFault
    split <;> trivial
  fun_induction localPart isFirst text with
  | _ => simp_all [Fault.OfText]

theorem Name.scan_textual (text : List Char) : (scan text).Textual := by
  unfold scan
  dsimp only
  split
  · split
    · trivial
    · simpa using localPart_textual _ _
  · trivial

theorem Name.blankNode_textual (text : List Char) : (blankNode text).Textual := by
  unfold blankNode
  repeat' split
  all_goals trivial

theorem Number.scan_textual (text : List Char) : (scan text).Textual := by
  unfold scan
  dsimp only
  repeat' split
  all_goals trivial

namespace Token

theorem scanAt_textual (text : List Char) : (scanAt text).Textual := by
  cases text with
  | nil => trivial
  | cons c text =>
    have name := Name.scan_textual (c :: text)
    rw [scanAt]
    split
    · trivial
    · split
      case h_1 => trivial
      case h_2 =>
        dsimp only
        split <;> trivial
      case h_3 fault => rwa [fault] at name
      case h_4 => trivial

theorem scanName_textual (c : Char) (text : List Char) : (scanName c text).Textual := by
  have name := Name.scan_textual text
  unfold scanName
  split
  case h_1 => trivial
  case h_2 =>
    split
    · trivial
    · split <;> trivial
  case h_3 fault => rwa [fault] at name
  case h_4 => trivial

theorem scanPlain_textual (c : Char) (text : List Char) : (scanPlain c text).Textual := by
  unfold scanPlain
  dsimp only
  split
  · simpa using IriRef.body_textual text
  split
  · simpa using Name.blankNode_textual (c :: text)
  split
  · simpa using Quote.scan_textual c text
  split
  · exact scanAt_textual text
  split
  · exact Number.scan_textual (c :: text)
  split
  · trivial
  · exact scanName_textual c (c :: text)

/-- The faults of a token are those of texts: a brace has none. -/
theorem scan_textual (valid : Brace.Kept kept place) (enough : place.rest.length ≤ bound) :
    (scan bound kept place).1.Textual := by
  obtain ⟨offset, text⟩ := place
  cases text with
  | nil => trivial
  | cons c text =>
    by_cases brace : c = '{'
    · subst brace
      rw [scan_brace bound kept rfl]
      obtain ⟨token, lexeme, rest, found⟩ := (Brace.scan_begins rfl enough valid).1.found
      rw [found]
      trivial
    · rw [scan_plain bound kept brace rfl]
      exact scanPlain_textual c text

end Token

namespace TokenSequence

open Token (scan skip)

/-! ### Layout -/

/-- How tokens lie in a text from a byte offset on: each after a gap, up to the end or to a
problem. -/
inductive Layout : (start : Nat) → List Char → List Lexeme → Option LexicalProblem → Prop where
  | finished (gap : Token.IsLastGap text) : Layout start text [] none
  | failed (gap : Token.IsGap front) : Layout start (front ++ rest) [] (some stopped)
  | token (gap : Token.IsGap front) (nonempty : lexeme ≠ [])
      (later : Layout (start + Text.width front + Text.width lexeme) rest tokens stopped) :
      Layout start (front ++ (lexeme ++ rest))
        (⟨token, ⟨start + Text.width front, start + Text.width front + Text.width lexeme⟩,
          String.ofList lexeme⟩ :: tokens) stopped

theorem width_pos {text : List Char} (nonempty : text ≠ []) : 0 < Text.width text := by
  obtain ⟨c, rest, rfl⟩ := List.exists_cons_of_ne_nil nonempty
  have size := c.utf8Size_pos
  rw [Text.width_cons]
  omega

/-- A token is a slice of the text that is not empty. -/
theorem Layout.slice (layout : Layout start text tokens stopped) :
    ∀ lexeme ∈ tokens, lexeme.extent.start < lexeme.extent.stop ∧
      ∃ front rest, text = front ++ (lexeme.text.toList ++ rest) ∧
        start + Text.width front = lexeme.extent.start ∧
        start + Text.width (front ++ lexeme.text.toList) = lexeme.extent.stop := by
  induction layout with
  | finished | failed => simp
  | @token front text start rest tokens stopped token gap nonempty later ih =>
    intro lexeme member
    rcases List.mem_cons.mp member with rfl | member
    · have positive := width_pos nonempty
      refine ⟨?_, front, rest, by simp, rfl, by simp [Nat.add_assoc]⟩
      dsimp only
      omega
    · obtain ⟨some, front', rest', rfl, first, last⟩ := ih lexeme member
      refine ⟨some, front ++ (text ++ front'), rest', by simp, ?_, ?_⟩
      · rw [← first]
        simp [Nat.add_assoc]
      · rw [← last]
        simp [Nat.add_assoc]

/-- A token ends before the next one begins. -/
theorem Layout.pairwise (layout : Layout start text tokens stopped) :
    tokens.Pairwise fun before after => before.extent.stop ≤ after.extent.start := by
  induction layout with
  | finished | failed => exact .nil
  | token _ _ later ih =>
    refine List.pairwise_cons.mpr ⟨fun lexeme member => ?_, ih⟩
    obtain ⟨-, front, rest, -, first, -⟩ := later.slice lexeme member
    dsimp only
    omega

/-! ### Sequences -/

theorem read_empty (bound : Nat) (kept : Brace.Delimiter) (offset : Nat) :
    read bound kept ⟨offset, []⟩ = ⟨[], none, offset⟩ := by
  cases bound <;> rfl

/-- The text of a token is read as this token alone. -/
theorem ofText_taken (taken : Token.Taken token lexeme rest kept place)
    (stands : Token.Stands place.rest) :
    ofText lexeme = ⟨[⟨token, ⟨0, Text.width lexeme⟩, String.ofList lexeme⟩], none,
      Text.width lexeme⟩ := by
  have start : skip false 0 lexeme = ⟨0, lexeme⟩ := by
    rw [taken.split] at stands
    exact Token.skip_of_stands stands.of_append 0
  have found : scan lexeme.length .unknown (skip false 0 lexeme) = (.found token lexeme [],
      (scan lexeme.length .unknown (skip false 0 lexeme)).2) := by
    rw [start]
    exact Prod.ext (taken.alone _ (Nat.le_refl _) 0) rfl
  rw [ofText, read_found found, start, read_empty]
  simp [cons]

/-- What holds of the tokens that are read from a place on. -/
structure Lossless (start : Nat) (text : List Char) (sequence : TokenSequence) : Prop where
  layout : Layout start text sequence.lexemes sequence.problem
  alone : ∀ lexeme ∈ sequence.lexemes, ofText lexeme.text.toList =
    ⟨[{ lexeme with extent := ⟨0, Text.width lexeme.text.toList⟩ }], none,
      Text.width lexeme.text.toList⟩
  textual : ∀ problem ∈ sequence.problem, problem.fault.OfText

theorem read_failed (more : (skip false start text).rest ≠ [])
    (textual : (scan bound kept (skip false start text)).1.Textual)
    (unfound : ∀ token lexeme rest,
      (scan bound kept (skip false start text)).1 ≠ .found token lexeme rest) :
    ∃ problem, problem.fault.OfText ∧
      read (bound + 1) kept ⟨start, text⟩ = ⟨[], some problem, problem.extent.stop⟩ := by
  have some : (skip false start text).rest.isEmpty = false := by simpa using more
  cases result : scan bound kept (skip false start text) with
  | mk outcome later =>
    rw [result] at textual unfound
    cases outcome with
    | found token lexeme rest => exact absurd rfl (unfound token lexeme rest)
    | fault cause lead width =>
      rw [read]
      simp only [some, result]
      exact ⟨⟨_, cause, _⟩, textual, rfl⟩
    | unfinished =>
      rw [read]
      simp only [some, result]
      exact ⟨⟨_, .endOfText, _⟩, trivial, rfl⟩

theorem Lossless.cons (stands : Token.Stands place.rest) (isGap : Token.IsGap gap)
    (moved : place.offset = start + Text.width gap)
    (taken : Token.Taken token lexeme rest kept place)
    (later : Lossless (place.offset + Text.width lexeme) rest others) :
    Lossless start (gap ++ place.rest)
      (TokenSequence.cons ⟨token, ⟨place.offset, place.offset + Text.width lexeme⟩,
        String.ofList lexeme⟩ others) := by
  obtain ⟨layout, alone, textual⟩ := later
  refine ⟨?_, ?_, textual⟩
  · rw [moved] at layout ⊢
    rw [taken.split]
    exact .token isGap taken.nonempty layout
  · intro other member
    rcases List.mem_cons.mp member with rfl | member
    · simpa using ofText_taken taken stands
    · exact alone other member

theorem read_lossless (valid : Brace.Kept kept ⟨start, text⟩) (enough : text.length < bound) :
    Lossless start text (read bound kept ⟨start, text⟩) := by
  induction bound generalizing kept start text with
  | zero => omega
  | succ bound ih =>
    obtain ⟨gap, skipped⟩ := Token.skip_skipped start text
    obtain ⟨valid', shorter⟩ := kept_skip valid
    have size : (skip false start text).rest.length ≤ bound := by omega
    by_cases ended : (skip false start text).rest = []
    · have last : Token.IsLastGap text := by
        have split := skipped.split
        rw [ended, List.append_nil] at split
        rw [split]
        exact skipped.between.elim .gap And.right
      have whole : read (bound + 1) kept ⟨start, text⟩ =
          ⟨[], none, (skip false start text).offset⟩ := by
        simp [read, ended]
      rw [whole]
      exact ⟨.finished last, by simp, by simp⟩
    · have isGap : Token.IsGap gap :=
        skipped.between.resolve_right fun between => ended between.1
      cases result : scan bound kept (skip false start text) with
      | mk outcome later =>
        cases outcome with
        | found token lexeme rest =>
          have taken := Token.scan_taken valid' size result
          have size' := congrArg List.length taken.split
          have positive := List.length_pos_iff.mpr taken.nonempty
          rw [List.length_append] at size'
          have tail := ih taken.kept (by omega)
          have whole := Lossless.cons skipped.stands isGap skipped.moved taken tail
          rw [← skipped.split] at whole
          rwa [read_found result]
        | fault | unfinished =>
          obtain ⟨problem, ofText, whole⟩ := read_failed ended
            (Token.scan_textual valid' size) (by simp [result])
          rw [whole]
          refine ⟨?_, by simp, by simpa using ofText⟩
          rw [skipped.split]
          exact .failed isGap

theorem lossless_ofText (text : List Char) : Lossless 0 text (ofText text) :=
  read_lossless (Brace.kept_unknown _) (Nat.lt_succ_self _)

/-- A token has the characters that the text has at its place. -/
theorem slice (member : lexeme ∈ (ofText text).lexemes) :
    ∃ front rest, text = front ++ (lexeme.text.toList ++ rest) ∧
      Text.width front = lexeme.extent.start ∧
      Text.width (front ++ lexeme.text.toList) = lexeme.extent.stop := by
  have slice := ((lossless_ofText text).layout.slice _ member).2
  simpa only [Nat.zero_add] using slice

/-- Tokens are slices of the text that are not empty, one after the other at character boundaries,
with gaps of blanks and comments between them; each is the one token of its own text; and a text is
never said to be malformed bytes. -/
theorem ofText_lossless (text : List Char) :
    (∀ lexeme ∈ (ofText text).lexemes, lexeme.extent.start < lexeme.extent.stop ∧
      (∃ front rest, text = front ++ (lexeme.text.toList ++ rest) ∧
        Text.width front = lexeme.extent.start ∧
        Text.width (front ++ lexeme.text.toList) = lexeme.extent.stop) ∧
      ofText lexeme.text.toList =
        ⟨[{ lexeme with extent := ⟨0, Text.width lexeme.text.toList⟩ }], none,
          Text.width lexeme.text.toList⟩) ∧
    (ofText text).lexemes.Pairwise (fun before after =>
      before.extent.stop ≤ after.extent.start) ∧
    Layout 0 text (ofText text).lexemes (ofText text).problem ∧
    ∀ problem ∈ (ofText text).problem,
      ¬ "Invalid UTF-8".toList <+: problem.fault.message.toList := by
  have lossless : Lossless 0 text (ofText text) :=
    read_lossless (Brace.kept_unknown _) (Nat.lt_succ_self _)
  refine ⟨fun lexeme member => ?_, lossless.layout.pairwise, lossless.layout, ?_⟩
  · have slice := lossless.layout.slice lexeme member
    simp only [Nat.zero_add] at slice
    exact ⟨slice.1, slice.2, lossless.alone lexeme member⟩
  · exact fun problem member => Fault.message_of_ofText (lossless.textual problem member)

/-- A token after a comment is the one token of its text. -/
theorem ofText_lossless_comment :
    (⟨.punct .dot, ⟨4, 5⟩, "."⟩ : Lexeme) ∈ (ofText "#a\n .".toList).lexemes ∧
      ofText ".".toList = ⟨[⟨.punct .dot, ⟨0, 1⟩, "."⟩], none, 1⟩ :=
  have member : (⟨.punct .dot, ⟨4, 5⟩, "."⟩ : Lexeme) ∈ (ofText "#a\n .".toList).lexemes := by
    decide +kernel
  ⟨member, ((ofText_lossless "#a\n .".toList).1 _ member).2.2⟩

end TokenSequence

end ShExCompact
