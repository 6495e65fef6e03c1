import ShExCompact.Proofs.Reading.Strictness
import ShExCompact.Proofs.Reading.Unfinished
import ShExCompact.Proofs.Reading.WrittenOut

/-! Where the grammar problems of a document are: at one token, or at the end of the text. The
tokens before that place begin a document, and an unknown prefix is neither given nor declared by
them. -/
namespace ShExCompact

/-! ### Declared prefixes -/

namespace Token

/-- The prefixes that tokens declare. -/
def declaredPrefixes : List Token → List String
  | keyword .prefixes :: prefixedName name _ :: iriRef _ :: rest => name :: declaredPrefixes rest
  | _ :: rest => declaredPrefixes rest
  | [] => []

/-- A prefix is bound in a draft, or tokens behind it declare it. -/
def Binds (name : String) (draft : Draft) (tokens : List Token) : Prop :=
  (draft.prefixes.get? name).isSome ∨ name ∈ declaredPrefixes tokens

theorem declaredPrefixes_cons (other : token ≠ keyword .prefixes) (rest : List Token) :
    declaredPrefixes (token :: rest) = declaredPrefixes rest := by
  rw [declaredPrefixes]
  intro name localPart reference rest same
  cases same
  exact (other rfl).elim

theorem declaredPrefixes_append (others : keyword .prefixes ∉ front) (rest : List Token) :
    declaredPrefixes (front ++ rest) = declaredPrefixes rest := by
  induction front with
  | nil => rfl
  | cons token front ih =>
    rw [List.mem_cons, not_or] at others
    rw [List.cons_append, declaredPrefixes_cons (Ne.symm others.1), ih others.2]

/-- A directive that breaks off declares nothing. -/
theorem declaredPrefixes_of_short (short : tokens.length < 3) : declaredPrefixes tokens = [] := by
  induction tokens using declaredPrefixes.induct with
  | case1 name localPart reference rest =>
    simp only [List.length_cons] at short
    omega
  | case2 token rest other ih =>
    rw [declaredPrefixes]
    · exact ih (Nat.lt_of_succ_lt short)
    · exact other
  | case3 => rfl

end Token

namespace Reading

open Token (Binds declaredPrefixes declaredPrefixes_append declaredPrefixes_of_short)

variable {context : Context} {g : Phrase α}

theorem Carried.noPrefixes (carried : Carried context g tokens journal value later) :
    .keyword .prefixes ∉ tokens := by
  intro member
  have plain := carried.plain _ member
  cases plain

/-- Other statements than directives neither bind nor declare a prefix. -/
theorem Carried.binds (carried : Carried context g tokens journal value later)
    (binds : Binds name journal.draft (tokens ++ rest)) : Binds name later.draft rest := by
  unfold Binds at binds ⊢
  rwa [carried.prefixes, ← declaredPrefixes_append carried.noPrefixes]

theorem directive_binds (derives : Grammar.directive.Derives context tokens journal value later)
    (binds : Binds name journal.draft (tokens ++ rest)) : Binds name later.draft rest := by
  rcases directive_cases derives with ⟨reference, rfl, rfl⟩ | ⟨declared, reference, rfl, rfl⟩
  · have none : Token.keyword .prefixes ∉ [.keyword .base, .iriRef reference] := by simp
    rwa [Binds, declaredPrefixes_append none] at binds
  · have bound : ((journal.declare (·.declarePrefix declared reference)).draft.prefixes.get?
        name).isSome ↔ name = declared ∨ (journal.draft.prefixes.get? name).isSome := by
      unfold Journal.declare Draft.declarePrefix Draft.bindPrefix
      dsimp only
      rw [Dictionary.get?_insert]
      by_cases same : name = declared <;> simp [same]
    rcases binds with old | declares
    · exact .inl (bound.mpr (.inr old))
    · rcases List.mem_cons.mp declares with same | later
      · exact .inl (bound.mpr (.inl same))
      · exact .inr later

theorem statements_bind (escapeless : Escapeless context)
    (repeats : Grammar.statement.Repeats context tokens journal values later)
    (binds : Binds name journal.draft (tokens ++ rest)) : Binds name later.draft rest := by
  induction repeats with
  | done => exact binds
  | more first _ ih =>
    rw [List.append_assoc] at binds
    rcases first with directive | notStartAction
    · exact ih (directive_binds directive binds)
    · exact ih ((Carries.notStartAction escapeless notStartAction).binds binds)

/-- Behind a document the prefixes are bound that were bound before or that it declares. -/
theorem document_binds (escapeless : Escapeless context)
    (derives : Grammar.document.Derives context tokens journal () later)
    (binds : Binds name journal.draft (tokens ++ rest)) : Binds name later.draft rest := by
  rcases Grammar.document_iff.mp derives with ⟨values, statements⟩ |
    ⟨front, first, others, _, _, _, _, rfl, directives, startActions, statements⟩
  · exact statements_bind escapeless statements binds
  · rw [List.append_assoc, List.append_assoc] at binds
    have behind := statements_bind escapeless (directives.mono .inl) binds
    have behind' := (Carries.startActions escapeless startActions).binds behind
    exact statements_bind escapeless statements behind'

/-- A statement that is not whole yet declares no prefix. -/
theorem begun_declares_none (escapeless : Escapeless context)
    (completed : Grammar.item.Derives context (begun ++ more) journal () last)
    (unfinished : ∀ last, ¬ Grammar.item.Derives context begun journal () last) :
    declaredPrefixes begun = [] := by
  have carriedNone {phrase : Phrase Unit} (carries : Carries context phrase)
      (derives : phrase.Derives context (begun ++ more) journal () last) :
      declaredPrefixes begun = [] := by
    have none := (carries derives).noPrefixes
    rw [List.mem_append, not_or] at none
    have append := declaredPrefixes_append none.1 []
    rwa [List.append_nil] at append
  have more_ne : more ≠ [] := by
    rintro rfl
    rw [List.append_nil] at completed
    exact unfinished _ completed
  have more_pos := List.length_pos_iff.mpr more_ne
  rcases completed with (directive | notStartAction) | startActions
  · have size : (begun ++ more).length ≤ 3 := by
      rcases directive_cases directive with ⟨_, tokens, -⟩ | ⟨_, _, tokens, -⟩
      · simp [tokens]
      · simp [tokens]
    rw [List.length_append] at size
    exact declaredPrefixes_of_short (by omega)
  · exact carriedNone (.notStartAction escapeless) notStartAction
  · exact carriedNone (.startActions escapeless) startActions

/-- The tokens that were read before a problem of the grammar begin a document, and of the prefixes
all are bound that were bound before or that those tokens declare. -/
theorem read_before (accepts : Context.Accepts context) (escapeless : Escapeless context)
    (stopped : Parser.document context ⟨lexemes, draft⟩ = .error problem stop)
    (ofToken : problem.cause.OfToken) :
    ∃ before, lexemes = before ++ stop.lexemes ∧
      (∃ more last, Grammar.document.Derives context.calm (before.map Lexeme.token ++ more)
        ⟨draft, []⟩ () last) ∧
      ∀ name, Binds name draft (before.map Lexeme.token) →
        (stop.draft.prefixes.get? name).isSome := by
  obtain ⟨done, begun, rest, middle, later, rfl, rfl, interrupted, unfinished⟩ :=
    document_interrupted_calm stopped
  obtain ⟨more, last, item, document, -⟩ := interrupted.completed accepts
  have escapeless' : Escapeless context.calm := escapeless
  refine ⟨done ++ begun, (List.append_assoc ..).symm, ⟨more, last, ?_⟩, ?_⟩
  · rwa [List.map_append, List.append_assoc]
  · intro name binds
    rw [List.map_append] at binds
    have none := begun_declares_none escapeless' item (unfinished ofToken.not_lexical)
    obtain ⟨added, inlined, -⟩ := Journal.inlined_of_inlines interrupted.inlines
    have prefixes : later.draft.prefixes = middle.draft.prefixes := by rw [inlined.kept]
    rcases document_binds escapeless' interrupted.whole binds with bound | declares
    · rwa [prefixes]
    · rw [none] at declares
      cases declares

end Reading

/-! ### Places -/

/-- The text that a cause of the grammar gives as the one that was found. -/
def Cause.found? : Cause → Option String
  | unexpected text _ | meaningless text _ => some text
  | lexical .. | unknownPrefix _ | malformedEscape _ => none

theorem Cause.Tells.found (tells : Cause.Tells stop cause) :
    ∀ text ∈ cause.found?, text = Parser.found stop := by
  intro text known
  cases cause with
  | unexpected | meaningless =>
    cases known
    exact tells
  | lexical | unknownPrefix | malformedEscape => cases known

/-- A problem of the grammar is at the token that comes next. -/
theorem Reading.Points.here (points : Reading.Points context state problem)
    (ofToken : problem.cause.OfToken) : problem.extent = Parser.here context state := by
  cases points with
  | lexical | escape => exact ofToken.elim
  | token => rfl

namespace Settings

open Reading (Guided Stepwise)
open Token (declaredPrefixes)

variable {settings : Settings} {text : String} {draft : Draft} {cause : Cause}

/-- A problem points at one token of a text. Its place is the bytes of the token, and what is found
there are the characters of the token, which the text has between these bytes. A prefix that is
unknown is the one of the token; it is not given, and no directive before the token declares it. -/
structure TokenPlace (settings : Settings) (text : String) (before : List Lexeme) (lexeme : Lexeme)
    (diagnostic : Diagnostic) : Prop where
  span : diagnostic.span = lexeme.extent.span (Text.bytes text.toList)
  start : diagnostic.span.start.offset = lexeme.extent.start
  stop : diagnostic.span.stop.offset = lexeme.extent.stop
  slice : ∃ front rest, text.toList = front ++ (lexeme.text.toList ++ rest) ∧
    Text.width front = lexeme.extent.start ∧
    Text.width (front ++ lexeme.text.toList) = lexeme.extent.stop
  found : ∀ found ∈ diagnostic.cause.found?, found = lexeme.text
  unbound : ∀ name, diagnostic.cause = .unknownPrefix name →
    lexeme.token.space? = some name ∧ settings.prefixes.get? name = none ∧
      name ∉ declaredPrefixes (before.map Lexeme.token)

/-- A problem points at the end of a text without a lexical problem. -/
structure EndPlace (text : String) (diagnostic : Diagnostic) : Prop where
  span : diagnostic.span =
    Extent.span (Text.bytes text.toList) ⟨Text.width text.toList, Text.width text.toList⟩
  start : diagnostic.span.start.offset = Text.width text.toList
  stop : diagnostic.span.stop.offset = Text.width text.toList
  found : diagnostic.cause.found? = some "end of file"
  clean : (TokenSequence.ofText text.toList).problem = none

/-- Where a problem of the grammar is, if the tokens `before` were read and the tokens `rest` are
left. -/
structure GrammarPlace (check : String → Except Iri.Fault Unit) (settings : Settings)
    (text : String) (before rest : List Lexeme) (diagnostic : Diagnostic) : Prop where
  tokens : (TokenSequence.ofText text.toList).lexemes = before ++ rest
  begins : ∃ more last, Grammar.document.Derives (settings.context check text).calm
    (before.map Lexeme.token ++ more) ⟨settings.initialDraft, []⟩ () last
  token : ∀ lexeme ∈ rest.head?, TokenPlace settings text before lexeme diagnostic
  finish : rest = [] → EndPlace text diagnostic

theorem initialDraft_prefixes (settings : Settings) :
    settings.initialDraft.prefixes = settings.prefixes := by
  obtain ⟨base, prefixes, strict⟩ := settings
  cases base <;> rfl

theorem tokenPlace (split : (TokenSequence.ofText text.toList).lexemes = before ++ lexeme :: rest)
    (tells : cause.Tells ⟨lexeme :: rest, draft⟩)
    (bound : ∀ name, Token.Binds name settings.initialDraft (before.map Lexeme.token) →
      (draft.prefixes.get? name).isSome) :
    TokenPlace settings text before lexeme
      (Problem.diagnose ⟨lexeme.extent, cause⟩ (Text.bytes text.toList)) := by
  have member : lexeme ∈ (TokenSequence.ofText text.toList).lexemes := by
    rw [split]
    exact List.mem_append_right _ List.mem_cons_self
  obtain ⟨front, after, whole, starts, stops⟩ := TokenSequence.slice member
  have within := TokenSequence.stop_le_width member
  have ordered : lexeme.extent.start ≤ lexeme.extent.stop := by
    rw [← starts, ← stops, Text.width_append]
    omega
  constructor
  · rfl
  · exact offset_ofOffset _ (Nat.le_trans ordered within)
  · exact offset_ofOffset _ within
  · exact ⟨front, after, whole, starts, stops⟩
  · exact tells.found
  · intro name unknown
    obtain rfl : cause = .unknownPrefix name := unknown
    obtain ⟨uses, unbound⟩ := tells
    have free : ¬ Token.Binds name settings.initialDraft (before.map Lexeme.token) := by
      intro binds
      have some := bound name binds
      rw [unbound] at some
      cases some
    unfold Token.Binds at free
    rw [not_or, initialDraft_prefixes, Option.not_isSome_iff_eq_none] at free
    exact ⟨uses, free⟩

theorem endPlace (ofToken : cause.OfToken) (tells : cause.Tells ⟨[], draft⟩)
    (clean : (TokenSequence.ofText text.toList).problem = none) :
    EndPlace text (Problem.diagnose ⟨⟨Text.width text.toList, Text.width text.toList⟩, cause⟩
      (Text.bytes text.toList)) := by
  constructor
  · rfl
  · exact offset_ofOffset _ (Nat.le_refl _)
  · exact offset_ofOffset _ (Nat.le_refl _)
  · cases cause with
    | unexpected | meaningless => exact congrArg some tells
    | unknownPrefix => cases tells.1
    | lexical | malformedEscape => exact ofToken.elim
  · exact clean

/-- Every problem of the grammar points at exactly one token, or at the end of the text. The tokens
before were read without a problem: a document begins with them. The check has to accept a short IRI,
and no text with a backslash. -/
theorem parseWith_grammarPlace {check : String → Except Iri.Fault Unit}
    (accepts : check "a:" = .ok ())
    (escapeless : ∀ iri, check iri = .ok () → '\\' ∉ iri.toList)
    (stopped : settings.parseWith check text = .error diagnostic)
    (ofToken : diagnostic.cause.OfToken) :
    ∃ before rest, GrammarPlace check settings text before rest diagnostic := by
  have accepts' : (settings.context check text).Accepts := accepts
  have escapeless' : Reading.Escapeless (settings.context check text) := escapeless
  rw [parseWith_eq] at stopped
  split at stopped
  next => cases stopped
  next problem stop outcome =>
    cases stopped
    have place := (Stepwise.document.points outcome).here ofToken
    have tells := Guided.document.tells outcome
    have settled := Reading.settled_of_document outcome ofToken
    obtain ⟨before, split, begins, bound⟩ :=
      Reading.read_before accepts' escapeless' outcome ofToken
    obtain ⟨rest, draft⟩ := stop
    obtain ⟨extent, cause⟩ := problem
    subst place
    refine ⟨before, rest, split, begins, ?_, ?_⟩
    · intro lexeme next
      cases rest with
      | nil => cases next
      | cons first more =>
        cases next
        exact tokenPlace split tells bound
    · rintro rfl
      exact endPlace ofToken tells (settled rfl)

/-- A name whose prefix is not declared, behind a directive for another prefix. -/
theorem parseWith_grammarPlace_name :
    let check := fun text : String => Iri.check text.toList
    let text := "PREFIX a: <a:> a:s \x7b b:p . \x7d"
    let diagnostic : Diagnostic := ⟨⟨⟨0, 21, 21⟩, ⟨0, 24, 24⟩⟩, .unknownPrefix "b"⟩
    (check "a:" = .ok () ∧ (∀ iri, check iri = .ok () → '\\' ∉ iri.toList) ∧
      default.parseWith check text = .error diagnostic ∧ diagnostic.cause.OfToken) ∧
    ∃ before rest, GrammarPlace check default text before rest diagnostic := by
  intro check text diagnostic
  have accepts : check "a:" = .ok () := by decide
  have escapeless : ∀ iri, check iri = .ok () → '\\' ∉ iri.toList :=
    fun _ => Iri.backslash_not_mem
  have stopped : default.parseWith check text = .error diagnostic := by decide +kernel
  exact ⟨⟨accepts, escapeless, stopped, trivial⟩,
    parseWith_grammarPlace accepts escapeless stopped trivial⟩

end Settings

end ShExCompact
