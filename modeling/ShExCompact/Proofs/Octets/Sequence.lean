import ShExCompact.Proofs.Lexical.FaultPlaces
import ShExCompact.Proofs.Octets.Gaps

/-! The sequence of tokens among bytes, one call after the other. Main statement: from every offset
on it is the sequence of the text, no look is out of bounds, no assertion fails, and each token and
each fault is about bytes that are there. -/
namespace ShExCompact

namespace TokenSequence

/-- What a sequence gives, one item after the other. -/
def items (sequence : TokenSequence) : List Octets.Item :=
  sequence.lexemes.map (fun lexeme => .ok (lexeme.token, lexeme.extent)) ++
    sequence.problem.toList.map .error

end TokenSequence

namespace Octets

/-! ### Progress -/

/-- The recognizer ends too early, or it consumes some of the bytes that are there and reports on
some of them. -/
def Progresses (data : List UInt8) (kept : Delimiter) : Prop :=
  recognize data kept = .ended ∨
    ∃ found later, recognize data kept = .value (found, later) ∧
      0 < found.consumed ∧ found.consumed ≤ data.length ∧
      ∀ report, found.result = .error report →
        report.start < report.stop ∧ report.stop ≤ data.length

theorem progresses_bytes {before : List Char} (mirrors : Mirrors (before ++ c :: rest) kept known)
    (valid : Brace.Kept known ⟨Text.width before, c :: rest⟩) :
    Progresses (Text.bytes (c :: rest)) kept := by
  obtain ⟨later, same, -⟩ := recognize_eq _ mirrors (Nat.le_refl _)
  have placed := Token.scan_placed valid (Nat.le_refl _)
  rw [Progresses, same, Text.length_bytes]
  cases scanned : Token.scan (c :: rest).length known ⟨Text.width before, c :: rest⟩ with
  | mk outcome known' =>
    rw [scanned] at placed
    cases outcome with
    | unfinished => exact .inl rfl
    | found token lexeme last =>
      have taken := Token.scan_taken valid (Nat.le_refl _) scanned
      have split : c :: rest = lexeme ++ last := taken.split
      refine .inr ⟨_, later, rfl, TokenSequence.width_pos taken.nonempty, ?_, nofun⟩
      rw [split, Text.width_append]
      exact Nat.le_add_right ..
    | fault cause lead size =>
      obtain ⟨last, split, covers⟩ := placed
      have positive := covers.pos
      have inside : Text.width lead + size ≤ Text.width (c :: rest) := by
        have split : c :: rest = lead ++ last := split
        rw [split, Text.width_append]
        exact Nat.add_le_add_left covers.le_width _
      refine .inr ⟨_, later, rfl, Nat.add_pos_right _ positive, inside, fun report same => ?_⟩
      cases same
      dsimp only
      omega

theorem progresses_inside (continues : Position.continues byte = true) (later : List UInt8)
    (kept : Delimiter) : Progresses (byte :: later) kept := by
  have one : 1 ≤ (byte :: later).length := Nat.succ_le_succ (Nat.zero_le _)
  refine .inr ⟨_, kept, recognize_inside continues later kept, Nat.one_pos, one, ?_⟩
  intro report same
  cases same
  exact ⟨Nat.one_pos, one⟩

/-! ### One call -/

section Calls

variable {data rest : List UInt8} {state : Tokenizer}
  (skips : skip data (limit data) state.place = .value start) (before : start < data.length)
  (left : suffix data start = .value rest)
include skips before left

/-- A call gives a token that is recognized; both assertions hold. -/
theorem read_ok (given : recognize rest state.kept = .value (⟨consumed, .ok token⟩, kept))
    (positive : 0 < consumed) (within : start + consumed ≤ data.length) :
    state.read data = .value
      (some (.ok (token, ⟨start, start + consumed⟩)), ⟨start + consumed, kept, false⟩) := by
  rw [Tokenizer.read, skips, Access.value_bind, if_neg (Nat.ne_of_lt before), left,
    Access.value_bind, given, Access.attempt, Access.value_bind]
  dsimp only
  rw [Access.assert_true (decide_eq_true positive), Access.value_bind,
    Access.assert_true (decide_eq_true within), Access.value_bind]
  rfl

/-- A call gives what is reported instead of a token; both assertions hold. -/
theorem read_error (given : recognize rest state.kept = .value (⟨consumed, .error report⟩, kept))
    (positive : 0 < consumed) (within : start + consumed ≤ data.length)
    (shown : characterAt data (report.start + start) = .value c) :
    state.read data = .value
      (some (.error ⟨⟨report.start + start, report.stop + start⟩, report.cause, c⟩),
        ⟨start + consumed, kept, true⟩) := by
  rw [Tokenizer.read, skips, Access.value_bind, if_neg (Nat.ne_of_lt before), left,
    Access.value_bind, given, Access.attempt, Access.value_bind]
  dsimp only
  rw [Access.assert_true (decide_eq_true positive), Access.value_bind,
    Access.assert_true (decide_eq_true within), Access.value_bind, shown]
  rfl

/-- A call gives the bytes that end too early. -/
theorem read_unfinished (given : recognize rest state.kept = .ended)
    (shown : characterAt data start = .value c) :
    state.read data = .value (some (.error ⟨⟨start, data.length⟩, .endOfText, c⟩),
      ⟨data.length, state.kept, true⟩) := by
  rw [Tokenizer.read, skips, Access.value_bind, if_neg (Nat.ne_of_lt before), left,
    Access.value_bind, given, Access.attempt, Access.value_bind]
  dsimp only
  rw [shown]
  rfl

end Calls

/-! ### Places of the text -/

/-- A state at a place of the text, where the same is kept. -/
structure Reads (whole : List Char) (state : Tokenizer) (known : Brace.Delimiter)
    (place : Cursor) : Prop where
  goesOn : state.failed = false
  offset : state.place = place.offset
  isPlace : IsPlace whole place
  mirrors : Mirrors whole state.kept known
  valid : Brace.Kept known place

/-- The place where a token is looked for. -/
structure Looks (whole : List Char) (state : Tokenizer) (known : Brace.Delimiter)
    (start : Cursor) : Prop where
  isPlace : IsPlace whole start
  skips : skip (Text.bytes whole) (limit (Text.bytes whole)) state.place = .value start.offset
  mirrors : Mirrors whole state.kept known
  valid : Brace.Kept known start

theorem Reads.looks (reads : Reads whole state known place) :
    Looks whole state known (Token.skip false place.offset place.rest) := by
  obtain ⟨front, split, offset⟩ := reads.isPlace
  obtain ⟨gap, skipped⟩ := Token.skip_skipped place.offset place.rest
  have valid : Brace.Kept known ⟨place.offset, place.rest⟩ := reads.valid
  refine ⟨⟨front ++ gap, ?_, ?_⟩, ?_, reads.mirrors, (TokenSequence.kept_skip valid).1⟩
  · rw [List.append_assoc, ← skipped.split, split]
  · rw [skipped.moved, offset, Text.width_append]
  · rw [reads.offset, offset, split]
    exact skip_eq front place.rest (lt_limit front place.rest)

/-- Where the text ends after a gap, there is no item. -/
theorem Looks.read_ended (looks : Looks whole state known start) (empty : start.rest = []) :
    state.read (Text.bytes whole) =
      .value (none, ⟨(Text.bytes whole).length, state.kept, state.failed⟩) := by
  obtain ⟨front, split, offset⟩ := looks.isPlace
  have stop : start.offset = (Text.bytes whole).length := by
    rw [offset, Text.length_bytes, split, empty, List.append_nil]
  rw [Tokenizer.read, looks.skips, Access.value_bind, if_pos stop, stop]
  rfl

/-- Where the text has not ended, the recognizer is called with the bytes that are left. -/
theorem Looks.recognizes (looks : Looks whole state known start) (more : start.rest ≠ [])
    (enough : start.rest.length ≤ bound) :
    start.offset < (Text.bytes whole).length ∧
      suffix (Text.bytes whole) start.offset = .value (Text.bytes start.rest) ∧
      ∃ kept, recognize (Text.bytes start.rest) state.kept =
          ((Token.scan bound known start).1.sizes 0 >>= fun found => .value (found, kept)) ∧
        Mirrors whole kept (Token.scan bound known start).2 := by
  obtain ⟨⟨front, split, offset⟩, -, mirrors, -⟩ := looks
  obtain ⟨offset', rest⟩ := start
  dsimp only at split offset more enough ⊢
  subst split offset
  have positive := TokenSequence.width_pos more
  obtain ⟨c, rest, rfl⟩ := List.exists_cons_of_ne_nil more
  refine ⟨?_, suffix_bytes front (c :: rest), recognize_eq bound mirrors enough⟩
  rw [Text.length_bytes, Text.width_append]
  omega

/-- A token is given with its place, and the text goes on after it. -/
theorem Looks.read_found (looks : Looks whole state known start)
    (enough : start.rest.length ≤ bound)
    (found : Token.scan bound known start = (.found token lexeme last, known')) :
    ∃ next, state.read (Text.bytes whole) = .value
        (some (.ok (token, ⟨start.offset, start.offset + Text.width lexeme⟩)), next) ∧
      Reads whole next known' ⟨start.offset + Text.width lexeme, last⟩ := by
  have taken := Token.scan_taken looks.valid enough found
  have more : start.rest ≠ [] := by
    rw [taken.split]
    exact List.append_ne_nil_of_left_ne_nil taken.nonempty last
  obtain ⟨before, left, kept, same, mirrors⟩ := looks.recognizes more enough
  obtain ⟨front, split, offset⟩ := looks.isPlace
  rw [found] at same mirrors
  have within : start.offset + Text.width lexeme ≤ (Text.bytes whole).length := by
    rw [offset, Text.length_bytes, split, taken.split, Text.width_append, Text.width_append]
    omega
  refine ⟨_, read_ok looks.skips before left same (TokenSequence.width_pos taken.nonempty) within,
    rfl, rfl, ⟨front ++ lexeme, ?_, ?_⟩, mirrors, taken.kept⟩
  · rw [split, taken.split, List.append_assoc]
  · rw [offset, Text.width_append]

/-- A fault is given with its place. -/
theorem Looks.read_fault (looks : Looks whole state known start)
    (enough : start.rest.length ≤ bound)
    (found : Token.scan bound known start = (.fault cause lead size, known')) :
    ∃ next, state.read (Text.bytes whole) = .value (some (.error
        ⟨⟨start.offset + Text.width lead, start.offset + Text.width lead + size⟩, cause,
          (start.rest.drop lead.length).headD Text.replacement⟩), next) ∧
      next.failed = true := by
  have placed := Token.scan_placed looks.valid enough
  rw [found] at placed
  obtain ⟨last, split', covers⟩ := placed
  have positive := covers.pos
  have inside := covers.le_width
  have more : start.rest ≠ [] := by
    intro none
    obtain ⟨rfl, rfl⟩ := List.append_eq_nil_iff.mp (split'.symm.trans none)
    rw [Text.width_nil] at inside
    omega
  obtain ⟨before, left, kept, same, -⟩ := looks.recognizes more enough
  obtain ⟨front, split, offset⟩ := looks.isPlace
  rw [found] at same
  have within : start.offset + (Text.width lead + size) ≤ (Text.bytes whole).length := by
    rw [offset, Text.length_bytes, split, split', Text.width_append, Text.width_append]
    omega
  have first : 0 + Text.width lead + start.offset = start.offset + Text.width lead := by
    rw [Nat.zero_add, Nat.add_comm]
  have stop : 0 + Text.width lead + size + start.offset =
      start.offset + Text.width lead + size := by
    omega
  have shown : characterAt (Text.bytes whole) (0 + Text.width lead + start.offset) =
      .value ((start.rest.drop lead.length).headD Text.replacement) := by
    rw [first, offset, ← Text.width_append, split, split', ← List.append_assoc,
      characterAt_bytes, List.drop_left]
  have read := read_error looks.skips before left same (Nat.add_pos_right _ positive) within shown
  dsimp only at read
  rw [first, stop] at read
  exact ⟨_, read, rfl⟩

/-- What ends too early is given up to the end of the text. -/
theorem Looks.read_unfinished (looks : Looks whole state known start) (more : start.rest ≠ [])
    (enough : start.rest.length ≤ bound)
    (found : Token.scan bound known start = (.unfinished, known')) :
    ∃ next, state.read (Text.bytes whole) = .value (some (.error
        ⟨⟨start.offset, start.offset + Text.width start.rest⟩, .endOfText,
          start.rest.headD Text.replacement⟩), next) ∧
      next.failed = true := by
  obtain ⟨before, left, kept, same, -⟩ := looks.recognizes more enough
  obtain ⟨front, split, offset⟩ := looks.isPlace
  rw [found] at same
  have shown : characterAt (Text.bytes whole) start.offset =
      .value (start.rest.headD Text.replacement) := by
    rw [offset, split, characterAt_bytes]
  have stop : (Text.bytes whole).length = start.offset + Text.width start.rest := by
    rw [offset, Text.length_bytes, split, Text.width_append]
  have read := Octets.read_unfinished looks.skips before left same shown
  rw [stop] at read
  exact ⟨_, read, rfl⟩

/-! ### Runs -/

/-- A state has failed, or the recognizer progresses where the state looks for a token. -/
def Sound (data : List UInt8) (state : Tokenizer) : Prop :=
  state.failed = true ∨ ∃ start, skip data (limit data) state.place = .value start ∧
    start ≤ data.length ∧ (start < data.length → Progresses (data.drop start) state.kept)

/-- From a state on, the calls give some items and then nothing, and every state is sound. -/
def Gives (data : List UInt8) (state : Tokenizer) (items : List Item) : Prop :=
  ∀ count, ∃ last, Tokenizer.calls data count state =
      .value ((items.map some ++ List.replicate count none).take count, last) ∧
    Sound data last

variable {data : List UInt8} {state : Tokenizer}

theorem gives_nil (sound : Sound data state) (again : state.next data = .value (none, state)) :
    Gives data state [] := by
  intro count
  induction count with
  | zero => exact ⟨state, rfl, sound⟩
  | succ count ih =>
    obtain ⟨last, calls, sound'⟩ := ih
    refine ⟨last, ?_, sound'⟩
    rw [Tokenizer.calls, again, Access.value_bind]
    dsimp only
    rw [calls]
    simp [List.replicate_succ]

theorem gives_ended (sound : Sound data state) (ended : state.next data = .value (none, next))
    (later : Gives data next []) : Gives data state [] := by
  intro count
  cases count with
  | zero => exact ⟨state, rfl, sound⟩
  | succ count =>
    obtain ⟨last, calls, sound'⟩ := later count
    refine ⟨last, ?_, sound'⟩
    rw [Tokenizer.calls, ended, Access.value_bind]
    dsimp only
    rw [calls]
    simp [List.replicate_succ]

theorem gives_cons (sound : Sound data state) (first : state.next data = .value (some item, next))
    (later : Gives data next items) : Gives data state (item :: items) := by
  intro count
  cases count with
  | zero => exact ⟨state, rfl, sound⟩
  | succ count =>
    obtain ⟨last, calls, sound'⟩ := later count
    have enough : (items.map some ++ List.replicate (count + 1) none).take count =
        (items.map some ++ List.replicate count none).take count := by
      rw [List.replicate_succ', ← List.append_assoc, List.take_append_of_le_length (by simp)]
    refine ⟨last, ?_, sound'⟩
    rw [Tokenizer.calls, first, Access.value_bind]
    dsimp only
    rw [calls, List.map_cons, List.cons_append, List.take_succ_cons, enough]
    rfl

/-- After a problem there is nothing. -/
theorem gives_failed (failed : state.failed = true) : Gives data state [] :=
  gives_nil (.inl failed) (if_pos failed)

theorem Looks.sound (looks : Looks whole state known start) : Sound (Text.bytes whole) state := by
  obtain ⟨⟨front, split, offset⟩, skips, mirrors, valid⟩ := looks
  obtain ⟨offset', rest⟩ := start
  dsimp only at split offset skips
  subst split offset
  refine .inr ⟨_, skips, ?_, fun before => ?_⟩
  · rw [Text.length_bytes, Text.width_append]
    exact Nat.le_add_right ..
  · rw [Text.bytes_append, ← Text.length_bytes front, List.drop_left]
    cases rest with
    | nil => simp [Text.length_bytes] at before
    | cons c rest => exact progresses_bytes mirrors valid

theorem Reads.next_eq (reads : Reads whole state known place) :
    state.next (Text.bytes whole) = state.read (Text.bytes whole) :=
  if_neg (by rw [reads.goesOn]; exact Bool.false_ne_true)

/-- At the end of the text there is nothing. -/
theorem Reads.gives_nil (reads : Reads whole state known place)
    (empty : (Token.skip false place.offset place.rest).rest = []) :
    Gives (Text.bytes whole) state [] := by
  have ended := reads.looks.read_ended empty
  rw [← reads.next_eq] at ended
  refine gives_ended reads.looks.sound ended ?_
  have atEnd : Reads whole ⟨(Text.bytes whole).length, state.kept, state.failed⟩ known
      ⟨Text.width whole, []⟩ :=
    ⟨reads.goesOn, Text.length_bytes whole, ⟨whole, (List.append_nil whole).symm, rfl⟩,
      reads.mirrors, fun front after split => by simp at split⟩
  have again := atEnd.looks.read_ended rfl
  rw [← atEnd.next_eq] at again
  exact Octets.gives_nil atEnd.looks.sound again

/-- From a place of the text on, the calls give what is read from there. -/
theorem Reads.gives (reads : Reads whole state known place) (enough : place.rest.length < bound) :
    Gives (Text.bytes whole) state (TokenSequence.read bound known place).items := by
  induction bound generalizing state known place with
  | zero => exact absurd enough (Nat.not_lt_zero _)
  | succ bound ih =>
    have looks := reads.looks
    have valid : Brace.Kept known ⟨place.offset, place.rest⟩ := reads.valid
    have shorter := (TokenSequence.kept_skip valid).2
    have ended := reads.gives_nil
    rw [TokenSequence.read]
    dsimp only
    generalize Token.skip false place.offset place.rest = start at *
    have enough' : start.rest.length ≤ bound := by omega
    by_cases empty : start.rest.isEmpty = true
    · rw [if_pos empty]
      exact ended (List.isEmpty_iff.mp empty)
    · rw [if_neg empty]
      have more : start.rest ≠ [] := fun none => empty (List.isEmpty_iff.mpr none)
      cases scanned : Token.scan bound known start with
      | mk outcome known' =>
        cases outcome with
        | found token lexeme last =>
          obtain ⟨next, read, reads'⟩ := looks.read_found enough' scanned
          have taken := Token.scan_taken looks.valid enough' scanned
          have size := congrArg List.length taken.split
          have positive := List.length_pos_iff.mpr taken.nonempty
          rw [List.length_append] at size
          rw [← reads.next_eq] at read
          exact gives_cons looks.sound read (ih reads' (show last.length < bound by omega))
        | fault cause lead size =>
          obtain ⟨next, read, failed⟩ := looks.read_fault enough' scanned
          rw [← reads.next_eq] at read
          exact gives_cons looks.sound read (gives_failed failed)
        | unfinished =>
          obtain ⟨next, read, failed⟩ := looks.read_unfinished more enough' scanned
          rw [← reads.next_eq] at read
          exact gives_cons looks.sound read (gives_failed failed)

/-- Inside of a character there is one problem. -/
theorem gives_inside (inside : Text.cut offset text = .inside) :
    Gives (Text.bytes text) ⟨offset, .unknown, false⟩
      [.error ⟨⟨offset, offset + 1⟩, .encoding, Text.replacement⟩] := by
  have within := Text.cut_inside_le inside
  rw [← Text.length_bytes] at within
  obtain ⟨byte, later, split, continues⟩ := drop_inside inside
  have before : offset < (Text.bytes text).length := by
    have size := congrArg List.length split
    rw [List.length_drop, List.length_cons] at size
    omega
  have skips : skip (Text.bytes text) (limit (Text.bytes text))
      (⟨offset, .unknown, false⟩ : Tokenizer).place = .value offset :=
    skip_inside inside _
  have left : suffix (Text.bytes text) offset = .value (byte :: later) := by
    rw [suffix_drop within, split]
  have shown : characterAt (Text.bytes text) (0 + offset) = .value Text.replacement := by
    rw [Nat.zero_add, characterAt_inside inside]
  have first := read_error skips before left (recognize_inside continues later .unknown)
    Nat.one_pos before shown
  dsimp only at first
  rw [Nat.zero_add, Nat.add_comm 1] at first
  have sound : Sound (Text.bytes text) ⟨offset, .unknown, false⟩ := by
    refine .inr ⟨offset, skips, within, fun _ => ?_⟩
    rw [split]
    exact progresses_inside continues later .unknown
  exact gives_cons sound first (gives_failed rfl)

/-- From an offset on, the calls give the sequence of the text. -/
theorem gives_start (text : List Char) (offset : Nat) :
    Gives (Text.bytes text) (Tokenizer.start (Text.bytes text) offset)
      (TokenSequence.ofOffset text offset).2.items := by
  rw [Tokenizer.start, TokenSequence.ofOffset, Text.length_bytes]
  cases cut : Text.cut offset text with
  | exact front rest =>
    obtain ⟨rfl, rfl⟩ := Text.cut_eq_exact.mp cut
    have inside : min (Text.width front) (Text.width (front ++ rest)) = Text.width front := by
      rw [Text.width_append]
      omega
    have reads : Reads (front ++ rest) ⟨Text.width front, .unknown, false⟩ .unknown
        ⟨Text.width front, rest⟩ :=
      ⟨rfl, rfl, ⟨front, rfl, rfl⟩, .unknown, Brace.kept_unknown _⟩
    rw [inside]
    exact reads.gives (Nat.lt_succ_self rest.length)
  | inside =>
    rw [Nat.min_eq_left (Text.cut_inside_le cut)]
    exact gives_inside cut
  | short =>
    have reads : Reads text ⟨Text.width text, .unknown, false⟩ .unknown ⟨Text.width text, []⟩ :=
      ⟨rfl, rfl, ⟨text, (List.append_nil text).symm, rfl⟩, .unknown, Brace.kept_unknown _⟩
    rw [Nat.min_eq_right (Nat.le_of_lt (Text.lt_of_cut_short cut))]
    exact reads.gives_nil rfl

/-- Only nothing is given after a problem. -/
def Closed (given : List (Option Item)) : Prop :=
  ∀ before problem after, given = before ++ some (.error problem) :: after →
    ∀ item ∈ after, item = none

theorem closed_nothing (count : Nat) : Closed (List.replicate count none) := by
  intro before problem after split
  have member : some (.error problem) ∈ List.replicate count (none : Option Item) := by
    rw [split]
    exact List.mem_append_right before List.mem_cons_self
  cases (List.mem_replicate.mp member).2

theorem closed_problem (problem : LexicalProblem) (count : Nat) :
    Closed (some (.error problem) :: List.replicate count none) := by
  intro before problem' after split
  cases before with
  | nil =>
    obtain ⟨-, rfl⟩ := List.cons.inj split
    exact fun item member => (List.mem_replicate.mp member).2
  | cons first before => exact closed_nothing count before problem' after (List.cons.inj split).2

theorem Closed.cons_token (closed : Closed given) (token : Token × Extent) :
    Closed (some (.ok token) :: given) := by
  intro before problem after split
  cases before with
  | nil => cases split
  | cons first before => exact closed before problem after (List.cons.inj split).2

theorem Closed.take (closed : Closed given) (count : Nat) : Closed (given.take count) := by
  intro before problem after split item member
  have whole : given = before ++ some (.error problem) :: (after ++ given.drop count) := by
    rw [← List.cons_append, ← List.append_assoc, ← split, List.take_append_drop]
  exact closed before problem _ whole item (List.mem_append_left _ member)

/-- A sequence ends with its problem. -/
theorem closed_items (sequence : TokenSequence) (count : Nat) :
    Closed (sequence.items.map some ++ List.replicate count none) := by
  obtain ⟨lexemes, problem, finish⟩ := sequence
  induction lexemes with
  | nil =>
    cases problem with
    | none => exact closed_nothing count
    | some problem => exact closed_problem problem count
  | cons lexeme lexemes ih => exact ih.cons_token _

end Octets

namespace TokenSequence

/-- Every item of a sequence takes at least one byte. -/
theorem length_items_le (valid : Brace.Kept kept ⟨start, text⟩) (enough : text.length < bound) :
    (read bound kept ⟨start, text⟩).items.length ≤ Text.width text := by
  induction bound generalizing kept start text with
  | zero => exact absurd enough (Nat.not_lt_zero _)
  | succ bound ih =>
    obtain ⟨gap, skipped⟩ := Token.skip_skipped start text
    obtain ⟨valid', shorter⟩ := kept_skip valid
    have size : (Token.skip false start text).rest.length ≤ bound := by omega
    have total : Text.width (Token.skip false start text).rest ≤ Text.width text := by
      have split := congrArg Text.width skipped.split
      rw [Text.width_append] at split
      omega
    rw [read]
    dsimp only
    generalize Token.skip false start text = place at *
    by_cases empty : place.rest.isEmpty = true
    · rw [if_pos empty]
      exact Nat.zero_le _
    · rw [if_neg empty]
      have more := width_pos fun none => empty (List.isEmpty_iff.mpr none)
      cases scanned : Token.scan bound kept place with
      | mk outcome later =>
        cases outcome with
        | found token lexeme last =>
          have taken := Token.scan_taken valid' size scanned
          have positive := width_pos taken.nonempty
          have size' := congrArg List.length taken.split
          have longer := List.length_pos_iff.mpr taken.nonempty
          have split := congrArg Text.width taken.split
          rw [List.length_append] at size'
          rw [Text.width_append] at split
          have inner := ih taken.kept (by omega)
          have one : ((cons ⟨token, ⟨place.offset, place.offset + Text.width lexeme⟩,
              String.ofList lexeme⟩ (read bound later
                ⟨place.offset + Text.width lexeme, last⟩)).items).length =
              (read bound later ⟨place.offset + Text.width lexeme, last⟩).items.length + 1 := rfl
          dsimp only
          omega
        | fault cause lead size => exact Nat.le_trans more total
        | unfinished => exact Nat.le_trans more total

theorem length_items_ofOffset_le (text : List Char) (offset : Nat) :
    (ofOffset text offset).2.items.length ≤ (Text.bytes text).length - offset := by
  rw [ofOffset, Text.length_bytes]
  cases cut : Text.cut offset text with
  | exact front rest =>
    obtain ⟨rfl, rfl⟩ := Text.cut_eq_exact.mp cut
    rw [Text.width_append, Nat.add_sub_cancel_left]
    exact length_items_le (Brace.kept_unknown _) (Nat.lt_succ_self _)
  | inside =>
    obtain ⟨front, c, rest, rfl, -, before⟩ := Text.cut_inside cut
    have one : (failed offset (offset + 1) .encoding Text.replacement).items.length = 1 := rfl
    dsimp only
    rw [one, Text.width_append, Text.width_cons]
    omega
  | short => exact Nat.zero_le _

end TokenSequence

/-- From every offset of a text on, inside of characters and past the end too, the calls among the
bytes give the sequence of the text and then nothing: no look is out of bounds, no loop goes on for
ever and no assertion fails. There is at most one item for each byte and nothing after a problem,
and in every state on the way the recognizer progresses. -/
theorem Tokenizer.calls_ofOffset (text : List Char) (offset count : Nat) : ∃ given last,
    Tokenizer.calls (Text.bytes text) count (Tokenizer.start (Text.bytes text) offset) =
        .value (given, last) ∧
      given = ((TokenSequence.ofOffset text offset).2.items.map some ++
        List.replicate count none).take count ∧
      (TokenSequence.ofOffset text offset).2.items.length ≤ (Text.bytes text).length - offset ∧
      Octets.Closed given ∧ Octets.Sound (Text.bytes text) last := by
  obtain ⟨last, calls, sound⟩ := Octets.gives_start text offset count
  exact ⟨_, last, calls, rfl, TokenSequence.length_items_ofOffset_le text offset,
    (Octets.closed_items _ count).take count, sound⟩

end ShExCompact
