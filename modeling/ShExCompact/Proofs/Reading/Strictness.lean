import Mathlib.Data.List.Basic
import ShExCompact.Proofs.Lexical.Escapes
import ShExCompact.Proofs.Reading.Layout

/-! Strict and lenient readings of a document. They do the same up to the first malformed escape of
a string: there the strict one stops, and the lenient one goes on behind the token. -/
namespace ShExCompact

/-! ### Places behind tokens -/

namespace TokenSequence

/-- The problem of a text is found behind its tokens. -/
theorem read_problem_behind (known : (read bound kept ⟨start, text⟩).problem = some fault) :
    start ≤ fault.extent.start ∧ ∀ lexeme ∈ (read bound kept ⟨start, text⟩).lexemes,
      lexeme.extent.stop ≤ fault.extent.start := by
  induction bound generalizing kept start text with
  | zero => cases known
  | succ bound ih =>
    obtain ⟨gap, skipped⟩ := Token.skip_skipped start text
    have moved := skipped.moved
    rw [read] at known ⊢
    dsimp only at known ⊢
    split at known
    next => cases known
    next more =>
      rw [if_neg more]
      split at known
      next token lexeme rest later found =>
        obtain ⟨first, others⟩ := ih known
        refine ⟨by omega, ?_⟩
        intro other member
        rcases List.mem_cons.mp member with rfl | member
        · exact first
        · exact others other member
      all_goals
        cases known
        constructor
        · dsimp only
          omega
        · intro lexeme member
          cases member

end TokenSequence

namespace Reading

open ShExCompact.Parser (here found lexicalProblem)

variable {p : Parser α} {k : α → Parser β}

/-- A problem is found behind a place behind which everything stands that is left. -/
theorem Points.behind (points : Points context state problem)
    (tokens : ∀ lexeme ∈ state.lexemes, place ≤ lexeme.extent.start)
    (finish : place ≤ context.finish)
    (fault : ∀ fault, context.problem = some fault → place ≤ fault.extent.start) :
    place ≤ problem.extent.start := by
  cases points with
  | lexical known => exact fault _ known
  | token ofToken =>
    obtain ⟨_ | ⟨first, rest⟩, draft⟩ := state
    · exact finish
    · exact tokens first List.mem_cons_self
  | escape => exact Nat.le_trans (tokens _ List.mem_cons_self) (Nat.le_add_right ..)

/-! ### Two readings -/

/-- A reading whose problem, if it has one, is no escape. -/
def Unflawed : EStateM.Result Problem State α → Prop
  | .ok .. => True
  | .error problem _ => ∀ escape, problem.cause ≠ .malformedEscape escape

/-- A strict reading against a lenient one. They are the same, and no escape is their problem; or
the strict one stops at a string with a flaw, and the lenient one goes on behind it. -/
inductive UpToEscape : (strict lenient : EStateM.Result Problem State α) → Prop where
  | same (unflawed : Unflawed result) : UpToEscape result result
  | stopped (flawed : Escape.decodeString raw width = .error flaw)
      (behind : (ending lenient).lexemes <:+ rest) :
      UpToEscape
        (.error ⟨⟨extent.start + flaw.offset, extent.start + flaw.offset + Text.width flaw.text⟩,
          .malformedEscape (String.ofList flaw.text)⟩
          ⟨⟨.string raw width, extent, text⟩ :: rest, draft⟩) lenient

theorem UpToEscape.bind {context context' : Context}
    (first : UpToEscape (p context state) (p context' state))
    (later : ∀ value middle, UpToEscape (k value context middle) (k value context' middle))
    (steps : ∀ value, Stepwise (k value)) :
    UpToEscape ((p >>= k) context state) ((p >>= k) context' state) := by
  rw [bind_eq, bind_eq]
  generalize p context state = strict at first
  generalize p context' state = lenient at first
  cases first with
  | same unflawed =>
    cases strict with
    | ok value middle => exact later value middle
    | error => exact .same unflawed
  | stopped flawed behind =>
    cases lenient with
    | ok value middle =>
      exact .stopped flawed (((steps value).suffix context' middle).trans behind)
    | error => exact .stopped flawed behind

theorem settle_upToEscape (context : Context) (strict : Bool) (state : State) :
    UpToEscape (Parser.settle context state)
      (Parser.settle { context with strict := strict } state) := by
  have unflawed : Unflawed (Parser.settle context state) := by
    unfold Parser.settle
    split
    · exact nofun
    · trivial
  exact .same unflawed

theorem string_upToEscape (context : Context) (strict : context.strict) (state : State) :
    UpToEscape (Parser.string context state)
      (Parser.string { context with strict := false } state) := by
  rw [string_eq, string_eq, strict]
  obtain ⟨_ | ⟨⟨token, extent, text⟩, rest⟩, draft⟩ := state
  · exact .same nofun
  · cases token with
    | string raw width =>
      dsimp only [List.head?, Option.map, StringPlan.of]
      cases flawed : Escape.decodeString raw width with
      | ok value =>
        have step := settle_upToEscape context false ⟨rest, draft⟩
        exact UpToEscape.bind (p := Parser.advance) step (fun _ _ => .same trivial)
          fun value => .done _
      | error flaw =>
        have step : Stepwise (Parser.settle >>= fun _ => pure "") := .bind .settle fun _ => .done _
        exact .stopped flawed (step.suffix { context with strict := false } ⟨rest, draft⟩)
    | _ => exact .same nofun

/-- A strict reading and the lenient one agree up to the first flaw of a string. -/
theorem Stepwise.upToEscape (stepwise : Stepwise p) (context : Context) (strict : context.strict)
    (state : State) :
    UpToEscape (p context state) (p { context with strict := false } state) := by
  induction stepwise generalizing state with
  | done | peek | drafted => exact .same trivial
  | bind _ steps first later =>
    exact (first state).bind (fun value middle => later value middle) steps
  | settle => exact settle_upToEscape ..
  | advance => exact settle_upToEscape ..
  | absolute text =>
    rw [absolute_eq, absolute_eq]
    dsimp only
    cases context.check text with
    | ok => exact .same trivial
    | error =>
      refine .same ?_
      intro escape same
      cases same
  | string => exact string_upToEscape context strict state
  | stops cause ofToken =>
    refine .same fun escape same => ?_
    have ofToken := ofToken (found state)
    rw [show cause (found state) = .malformedEscape escape from same] at ofToken
    exact ofToken
  | sized _ each => exact each _ state

end Reading

/-! ### Documents -/

namespace TokenSequence

/-- A flaw of a string token of a text: its bytes, and what is written there. It stands between the
quotes, what is before it in the literal decodes, and no escape begins with it. -/
inductive FlawedAt (text : List Char) : Lexeme → Extent → String → Prop where
  | string (member : ⟨.string raw quoteWidth, extent, raw⟩ ∈ (ofText text).lexemes)
      (split : text = before ++ (raw.toList ++ after))
      (place : extent = ⟨Text.width before, Text.width (before ++ raw.toList)⟩)
      (pieces : raw.toList = opening ++ ((front ++ '\\' :: (shown ++ rest)) ++ closing))
      (opens : Text.width opening = quoteWidth) (closes : Text.width closing = quoteWidth)
      (decodes : Escape.decodeFrom 0 quoteWidth front = .ok decoded)
      (unread : Escape.read? (shown ++ rest) = none) (short : shown.length ≤ 1) :
      FlawedAt text ⟨.string raw quoteWidth, extent, raw⟩
        ⟨Text.width (before ++ opening ++ front),
          Text.width (before ++ opening ++ front ++ '\\' :: shown)⟩ (String.ofList ('\\' :: shown))

/-- What is written at a flaw is a slice of the text. -/
theorem FlawedAt.slice (flawed : FlawedAt text lexeme extent escape) :
    ∃ front rest, text = front ++ (escape.toList ++ rest) ∧ Text.width front = extent.start ∧
      Text.width (front ++ escape.toList) = extent.stop := by
  cases flawed with
  | string _ split _ pieces =>
    rw [String.toList_ofList]
    refine ⟨_, ?behind, ?whole, rfl, rfl⟩
    case whole =>
      rw [split, pieces]
      simp only [List.append_assoc, List.cons_append]
      rfl

theorem flawedAt_of_member
    (member : ⟨.string raw quoteWidth, extent, shown⟩ ∈ (ofText text).lexemes)
    (flawed : Escape.decodeString raw quoteWidth = .error flaw) :
    FlawedAt text ⟨.string raw quoteWidth, extent, shown⟩
      ⟨extent.start + flaw.offset, extent.start + flaw.offset + Text.width flaw.text⟩
      (String.ofList flaw.text) := by
  have alone := (lossless_ofText text).alone _ member
  have spells := (ofText_iff_spells _ _).mp ⟨congrArg TokenSequence.problem alone,
    congrArg TokenSequence.lexemes alone⟩
  obtain rfl : shown = raw := spells.string_text List.mem_cons_self rfl
  obtain ⟨before, after, split, starts, stops⟩ := slice member
  have place : extent = ⟨Text.width before, Text.width (before ++ shown.toList)⟩ := by
    rw [starts, stops]
  cases Escape.firstFlaw_of_decodeString flawed with
  | @between opening front rest closing decoded pieces opens closes decodes unread =>
    rw [← List.take_append_drop 1 rest] at pieces unread
    have found := FlawedAt.string member split place pieces opens closes decodes unread
      (List.length_take_le ..)
    rw [← starts]
    simpa only [Text.width_append, Nat.add_assoc] using found

/-- A token ends within its text. -/
theorem stop_le_width (member : lexeme ∈ (ofText text).lexemes) :
    lexeme.extent.stop ≤ Text.width text := by
  obtain ⟨front, rest, split, -, stops⟩ := slice member
  have whole := congrArg Text.width split
  rw [← stops, whole, ← List.append_assoc, Text.width_append (front ++ _)]
  omega

theorem FlawedAt.inside (flawed : FlawedAt text lexeme extent escape) :
    extent.start ≤ Text.width text ∧ extent.stop ≤ Text.width text := by
  obtain ⟨front, rest, split, starts, stops⟩ := flawed.slice
  rw [split, ← starts, ← stops]
  simp only [Text.width_append]
  omega

/-- The tokens that are left behind one stand behind it. -/
theorem behind_of_suffix (left : first :: rest <:+ (ofText text).lexemes)
    (member : lexeme ∈ rest) : first.extent.stop ≤ lexeme.extent.start := by
  have ordered := (lossless_ofText text).layout.pairwise.sublist left.sublist
  exact (List.pairwise_cons.mp ordered).1 lexeme member

end TokenSequence

namespace Settings

open Reading (Points Stepwise)

/-- The position of an extent of the text is the byte offset. -/
theorem offset_ofOffset (text : List Char) (inside : offset ≤ Text.width text) :
    (Position.ofOffset (Text.bytes text) offset).offset = offset := by
  rw [Position.offset_ofOffset, Text.length_bytes, Nat.min_eq_left inside]

theorem parseWith_strict (check : String → Except Iri.Fault Unit) (settings : Settings)
    (text : String) (strict : Bool) : { settings with strict := strict }.parseWith check text =
      match Parser.document ⟨check, strict, Text.width text.toList,
          (TokenSequence.ofText text.toList).problem⟩
          ⟨(TokenSequence.ofText text.toList).lexemes, settings.initialDraft⟩ with
      | .ok () state => .ok state.draft.finish
      | .error problem _ => .error (problem.diagnose (Text.bytes text.toList)) :=
  parseWith_eq check { settings with strict := strict } text

/-- What is found behind a token has a position behind it. -/
theorem Points.position_behind {text : List Char}
    (points : Points ⟨check, isStrict, Text.width text, (TokenSequence.ofText text).problem⟩ stop
      problem)
    (left : first :: rest <:+ (TokenSequence.ofText text).lexemes)
    (behind : stop.lexemes <:+ rest) :
    first.extent.stop ≤ (problem.diagnose (Text.bytes text)).span.start.offset := by
  have member : first ∈ (TokenSequence.ofText text).lexemes := left.subset List.mem_cons_self
  have within := TokenSequence.stop_le_width member
  have later : first.extent.stop ≤ problem.extent.start := by
    apply points.behind
    · intro lexeme held
      exact TokenSequence.behind_of_suffix left (behind.subset held)
    · exact within
    · intro fault known
      exact (TokenSequence.read_problem_behind known).2 first member
  change _ ≤ (Position.ofOffset _ _).offset
  rw [Position.offset_ofOffset, Text.length_bytes]
  exact Nat.le_min.mpr ⟨later, within⟩

/-- A strict reading of a document gives what the lenient one gives, unless it stops at a malformed
escape. Such an escape stands between the quotes of a string, which decodes up to it, and the
lenient reading has no problem up to the end of that string. -/
theorem parseWith_strictEscapes (check : String → Except Iri.Fault Unit) (settings : Settings)
    (text : String) :
    ((∀ span escape, settings.withStrictEscapes.parseWith check text ≠
        .error ⟨span, .malformedEscape escape⟩) →
      settings.withStrictEscapes.parseWith check text =
        { settings with strict := false }.parseWith check text) ∧
    ∀ span escape, settings.withStrictEscapes.parseWith check text =
        .error ⟨span, .malformedEscape escape⟩ →
      ∃ lexeme extent, TokenSequence.FlawedAt text.toList lexeme extent escape ∧
        span = extent.span (Text.bytes text.toList) ∧
        span.start.offset = extent.start ∧ span.stop.offset = extent.stop ∧
        ∀ diagnostic, { settings with strict := false }.parseWith check text = .error diagnostic →
          lexeme.extent.stop ≤ diagnostic.span.start.offset := by
  unfold withStrictEscapes
  rw [parseWith_strict, parseWith_strict]
  have agree := Stepwise.document.upToEscape
    ⟨check, true, Text.width text.toList, (TokenSequence.ofText text.toList).problem⟩ rfl
    ⟨(TokenSequence.ofText text.toList).lexemes, settings.initialDraft⟩
  have left := Stepwise.document.suffix
    ⟨check, true, Text.width text.toList, (TokenSequence.ofText text.toList).problem⟩
    ⟨(TokenSequence.ofText text.toList).lexemes, settings.initialDraft⟩
  generalize Parser.document ⟨check, true, _, _⟩ _ = strict at agree left ⊢
  generalize lenientRead : Parser.document ⟨check, false, _, _⟩ _ = lenient at agree ⊢
  cases agree with
  | same unflawed =>
    refine ⟨fun _ => rfl, fun span escape stopped => ?_⟩
    cases strict with
    | ok => cases stopped
    | error problem stop =>
      have same := congrArg Diagnostic.cause (Except.error.inj stopped)
      exact (unflawed escape same).elim
  | stopped flawed behind =>
    refine ⟨fun unflawed => (unflawed _ _ rfl).elim, fun span escape stopped => ?_⟩
    cases stopped
    have flawedAt := TokenSequence.flawedAt_of_member (left.subset List.mem_cons_self) flawed
    obtain ⟨starts, stops⟩ := flawedAt.inside
    refine ⟨_, _, flawedAt, rfl, offset_ofOffset _ starts, offset_ofOffset _ stops, ?_⟩
    intro diagnostic stopped
    cases lenient with
    | ok => cases stopped
    | error problem stop =>
      cases stopped
      exact Points.position_behind (Stepwise.document.points lenientRead) left behind

/-- The strict reading stops inside of the string, the lenient one at a sign behind it. -/
theorem parseWith_strictEscapes_letter :
    default.withStrictEscapes.parseWith (fun _ => .ok ()) "<a> \x7b <b> (\"x\\q\") ) \x7d" =
        .error ⟨⟨⟨0, 13, 13⟩, ⟨0, 15, 15⟩⟩, .malformedEscape "\\q"⟩ ∧
      ∃ lexeme, TokenSequence.FlawedAt "<a> \x7b <b> (\"x\\q\") ) \x7d".toList lexeme
          ⟨13, 15⟩ "\\q" ∧ lexeme.extent.stop ≤ 18 := by
  have strict : default.withStrictEscapes.parseWith (fun _ => .ok ())
      "<a> \x7b <b> (\"x\\q\") ) \x7d" =
        .error ⟨⟨⟨0, 13, 13⟩, ⟨0, 15, 15⟩⟩, .malformedEscape "\\q"⟩ := by
    decide +kernel
  have lenient : ({ default with strict := false } : Settings).parseWith (fun _ => .ok ())
      "<a> \x7b <b> (\"x\\q\") ) \x7d" =
        .error ⟨⟨⟨0, 18, 18⟩, ⟨0, 19, 19⟩⟩, .unexpected ")" [.sign .closeBrace]⟩ := by
    decide +kernel
  obtain ⟨lexeme, ⟨start, stop⟩, flawed, -, starts, stops, later⟩ :=
    (parseWith_strictEscapes (fun _ => .ok ()) default _).2 _ _ strict
  cases starts
  cases stops
  exact ⟨strict, lexeme, flawed, later _ lenient⟩

end Settings

end ShExCompact
