import ShExCompact.Proofs.Grammar.Productions
import ShExCompact.Proofs.Reading.Completeness

/-! Parsers that read one token: what they give is what the token means. -/
namespace ShExCompact.Reading

open ShExCompact.Parser (next eatKeyword advance peek)
open Phrase (terminal)

variable {p : Parser α} {k : α → Parser β} {Means : Context → Draft → Token → α → Prop}
  {Meaning : Context → Draft → α → Prop}

/-- What a parser gives without reading a token. -/
def Gives (parser : Parser α) (Meaning : Context → Draft → α → Prop) : Prop :=
  ∀ context state value stop, parser context state = .ok value stop ↔
    Meaning context state.draft value ∧ state = stop

/-- A parser reads a given token if it has a meaning. -/
def ReadsAt (token : Token) (parser : Parser α) (Meaning : Context → Draft → α → Prop) : Prop :=
  ∀ context lexeme rest draft value stop, lexeme.token = token →
    (parser context ⟨lexeme :: rest, draft⟩ = .ok value stop ↔
      Meaning context draft value ∧ advance context ⟨lexeme :: rest, draft⟩ = .ok () stop)

/-- A parser reads one token that has a meaning. -/
structure Reads (parser : Parser α) (Means : Context → Draft → Token → α → Prop) : Prop where
  token : ∀ token, ReadsAt token parser fun context draft => Means context draft token
  finish : ∀ context draft value stop, parser context ⟨[], draft⟩ ≠ .ok value stop

theorem pure_eq_ok {value : α} : (pure value : Parser α) context state = .ok result stop ↔
    value = result ∧ state = stop := by
  change EStateM.Result.ok value state = _ ↔ _
  simp

theorem Gives.done (value : α) : Gives (pure value) fun _ _ result => result = value :=
  fun _ _ _ _ => pure_eq_ok.trans (and_congr_left fun _ => eq_comm)

theorem Gives.bind {Later : α → Context → Draft → β → Prop} (gives : Gives p Meaning)
    (later : ∀ value, Gives (k value) (Later value)) :
    Gives (p >>= k) fun context draft result =>
      ∃ value, Meaning context draft value ∧ Later value context draft result := by
  intro context state result stop
  rw [bind_eq_ok]
  constructor
  · rintro ⟨value, _, read, read'⟩
    obtain ⟨meaning, rfl⟩ := (gives ..).mp read
    obtain ⟨meaning', rfl⟩ := (later ..).mp read'
    exact ⟨⟨value, meaning, meaning'⟩, rfl⟩
  · rintro ⟨⟨value, meaning, meaning'⟩, rfl⟩
    exact ⟨value, state, (gives ..).mpr ⟨meaning, rfl⟩, (later ..).mpr ⟨meaning', rfl⟩⟩

theorem Gives.congr {Other : Context → Draft → α → Prop} (gives : Gives p Other)
    (same : ∀ context draft value, Meaning context draft value ↔ Other context draft value) :
    Gives p Meaning :=
  fun context state value stop =>
    (gives context state value stop).trans (and_congr_left fun _ => (same ..).symm)

theorem Gives.bound (digits : List Char) : Gives (Parser.bound digits) fun _ _ value =>
    Numeral.uint32? (String.ofList digits) = some value := by
  unfold Parser.bound
  cases fits : Numeral.uint32? (String.ofList digits) with
  | none => exact fun _ _ _ _ => ⟨nofun, fun meaning => by cases meaning.1⟩
  | some value => exact (Gives.done value).congr fun _ _ _ => Option.some_inj.trans eq_comm

theorem Gives.range (lexeme : String) : Gives (Parser.range lexeme) fun context draft value =>
    Grammar.CardinalityOf context draft (.repeatRange lexeme) value := by
  unfold Parser.range
  rcases bounds : Parser.rangeBounds lexeme with ⟨least, greatest⟩
  cases greatest with
  | none =>
    refine ((Gives.bound least).bind fun low => .done (⟨low, none⟩ : Cardinality)).congr
      fun context draft value => ⟨fun means => ?_, ?_⟩
    · cases means with
      | atLeast bounds' fits =>
        cases bounds.symm.trans bounds'
        exact ⟨_, fits, rfl⟩
      | between bounds' => cases bounds.symm.trans bounds'
    · rintro ⟨low, fits, rfl⟩
      exact .atLeast bounds fits
  | some greatest =>
    refine ((Gives.bound least).bind fun low => (Gives.bound greatest).bind fun high =>
      .done (⟨low, some high⟩ : Cardinality)).congr fun context draft value => ⟨fun means => ?_, ?_⟩
    · cases means with
      | atLeast bounds' => cases bounds.symm.trans bounds'
      | between bounds' fits fits' =>
        cases bounds.symm.trans bounds'
        exact ⟨_, fits, _, fits', rfl⟩
    · rintro ⟨low, fits, high, fits', rfl⟩
      exact .between bounds fits fits'

theorem Gives.absolute (text : String) : Gives (Parser.absolute text) fun context _ value =>
    context.check text = .ok () ∧ value = ⟨text⟩ := by
  intro context state value stop
  rw [Parser.absolute, bind_eq_ok]
  constructor
  · rintro ⟨_, _, looked, read⟩
    cases looked
    cases valid : context.check text with
    | error fault =>
      rw [valid] at read
      cases read
    | ok =>
      rw [valid] at read
      cases read
      exact ⟨⟨valid, rfl⟩, rfl⟩
  · rintro ⟨⟨valid, rfl⟩, rfl⟩
    refine ⟨context, state, rfl, ?_⟩
    rw [valid]
    rfl

theorem Gives.expand (space localPart : String) :
    Gives (Parser.expand space localPart) fun context draft value =>
      ∃ text, draft.expand? space localPart = some text ∧ context.check text = .ok () ∧
        value = ⟨text⟩ := by
  intro context state value stop
  rw [Parser.expand, bind_eq_ok]
  constructor
  · rintro ⟨_, _, looked, read⟩
    cases looked
    cases bound : state.draft.expand? space localPart with
    | none =>
      rw [bound] at read
      cases read
    | some text =>
      rw [bound] at read
      obtain ⟨⟨valid, rfl⟩, rfl⟩ := (Gives.absolute text ..).mp read
      exact ⟨⟨text, bound, valid, rfl⟩, rfl⟩
  · rintro ⟨⟨text, bound, built⟩, rfl⟩
    refine ⟨state.draft, state, rfl, ?_⟩
    rw [bound]
    exact (Gives.absolute text ..).mpr ⟨built, rfl⟩

theorem Gives.drafted {k : Draft → Parser α} {Meaning : Draft → Context → α → Prop}
    (gives : ∀ draft, Gives (k draft) fun context _ => Meaning draft context) :
    Gives (Parser.draft >>= k) fun context draft => Meaning draft context :=
  fun context state => gives state.draft context state

theorem ReadsAt.refused (fails : ∀ context state value stop, p context state ≠ .ok value stop)
    (none : ∀ context draft value, ¬ Meaning context draft value) : ReadsAt token p Meaning :=
  fun _ _ _ _ _ _ _ => ⟨fun read => (fails _ _ _ _ read).elim, fun meaning =>
    (none _ _ _ meaning.1).elim⟩

theorem ReadsAt.advanced (value : α) :
    ReadsAt token (advance >>= fun _ => pure value) fun _ _ result => result = value := by
  intro context lexeme rest draft result stop _
  rw [bind_eq_ok]
  simp only [pure_eq_ok]
  constructor
  · rintro ⟨_, _, read, rfl, rfl⟩
    exact ⟨rfl, read⟩
  · rintro ⟨rfl, read⟩
    exact ⟨(), stop, read, rfl, rfl⟩

theorem ReadsAt.given (gives : Gives p Meaning) :
    ReadsAt token (p >>= fun value => advance >>= fun _ => pure value) Meaning := by
  intro context lexeme rest draft value stop same
  simp only [bind_eq_ok, pure_eq_ok]
  constructor
  · rintro ⟨inner, middle, read, _, _, stepped, rfl, rfl⟩
    obtain ⟨meaning, rfl⟩ := (gives ..).mp read
    exact ⟨meaning, stepped⟩
  · rintro ⟨meaning, stepped⟩
    exact ⟨value, _, (gives ..).mpr ⟨meaning, rfl⟩, (), stop, stepped, rfl, rfl⟩

theorem ReadsAt.map (reads : ReadsAt token p Meaning) (f : α → β) :
    ReadsAt token (f <$> p) fun context draft result =>
      ∃ value, Meaning context draft value ∧ f value = result := by
  intro context lexeme rest draft result stop same
  rw [map_eq_pure_bind, bind_eq_ok]
  simp only [pure_eq_ok]
  constructor
  · rintro ⟨value, _, read, rfl, rfl⟩
    obtain ⟨meaning, stepped⟩ := (reads _ _ _ _ _ _ same).mp read
    exact ⟨⟨value, meaning, rfl⟩, stepped⟩
  · rintro ⟨⟨value, meaning, rfl⟩, stepped⟩
    exact ⟨value, stop, (reads _ _ _ _ _ _ same).mpr ⟨meaning, stepped⟩, rfl, rfl⟩

theorem ReadsAt.congr {Other : Context → Draft → α → Prop} (reads : ReadsAt token p Other)
    (same : ∀ context draft value, Meaning context draft value ↔ Other context draft value) :
    ReadsAt token p Meaning := by
  intro context lexeme rest draft value stop begins
  rw [same]
  exact reads _ _ _ _ _ _ begins

theorem ReadsAt.peeked {k : Option Token → Parser α}
    (reads : ReadsAt token (k (some token)) Meaning) :
    ReadsAt token (peek >>= k) Meaning := by
  rintro context lexeme rest draft value stop rfl
  exact reads context lexeme rest draft value stop rfl

theorem Reads.peeked {k : Option Token → Parser α}
    (token : ∀ token, ReadsAt token (k (some token)) fun context draft => Means context draft token)
    (finish : ∀ context draft value stop, k none context ⟨[], draft⟩ ≠ .ok value stop) :
    Reads (peek >>= k) Means where
  token read := .peeked (token read)
  finish := finish

theorem ReadsAt.ifNext {k : Bool → Parser α} {property : Token → Bool}
    (reads : ReadsAt token (k (property token)) Meaning) :
    ReadsAt token (next property >>= k) Meaning := by
  rintro context lexeme rest draft value stop rfl
  exact reads context lexeme rest draft value stop rfl

theorem Reads.ifNext {k : Bool → Parser α} {property : Token → Bool}
    (token : ∀ token, ReadsAt token (k (property token)) fun context draft =>
      Means context draft token)
    (finish : ∀ context draft value stop, k false context ⟨[], draft⟩ ≠ .ok value stop) :
    Reads (next property >>= k) Means where
  token read := .ifNext (token read)
  finish := finish

theorem ReadsAt.sound (reads : ReadsAt token p Meaning)
    (means : ∀ context draft value, Meaning context draft value → Means context draft token value) :
    SoundFrom (some token) p (terminal Means) := by
  intro context lexemes journal value stop begins read
  cases lexemes with
  | nil => cases begins
  | cons lexeme rest =>
    obtain rfl : lexeme.token = token := Option.some.inj begins
    obtain ⟨meaning, stepped⟩ := (reads _ _ _ _ _ _ rfl).mp read
    obtain rfl := advance_ok stepped
    exact ⟨[lexeme], rest, journal, rfl, rfl, lexeme.token, rfl, means _ _ _ meaning, rfl⟩

theorem Complete.readsAt
    (reads : ∀ context draft token value, Means context draft token value →
      ReadsAt token p fun context draft => Means context draft token) :
    Complete p (Phrase.terminal Means) follow :=
  .terminal fun _ _ _ _ _ calm means =>
    (reads _ _ _ _ means _ _ _ _ _ _ rfl).mpr ⟨means, advance_eq calm ..⟩

theorem Reads.sound (reads : Reads p Means) : Sound p (terminal Means) := by
  intro next context lexemes journal value stop begins read
  cases lexemes with
  | nil => exact (reads.finish _ _ _ _ read).elim
  | cons lexeme rest =>
    exact (reads.token lexeme.token).sound (fun _ _ _ means => means) rfl read

theorem Reads.complete (reads : Reads p Means) : Complete p (terminal Means) follow :=
  .readsAt fun _ _ token _ _ => reads.token token

/-! ### The terms of one token -/

theorem iri_reads : Reads Parser.iri Grammar.IriOf := by
  refine .peeked (fun token => ?_) fun _ _ _ _ => nofun
  split
  next text same =>
    cases same
    dsimp only
    rw [← bind_assoc]
    refine (ReadsAt.given (.drafted fun draft => .absolute (draft.resolve text))).congr
      fun context draft value => ?_
    constructor
    · intro means
      cases means with
      | reference valid => exact ⟨valid, rfl⟩
    · rintro ⟨valid, rfl⟩
      exact .reference valid
  next space localPart same =>
    cases same
    refine (ReadsAt.given (Gives.expand space localPart)).congr fun context draft value => ?_
    constructor
    · intro means
      cases means with
      | name bound valid => exact ⟨_, bound, valid, rfl⟩
    · rintro ⟨text, bound, valid, rfl⟩
      exact .name bound valid
  next noReference noName =>
    refine .refused (fun _ _ _ _ => nofun) fun context draft value means => ?_
    cases means with
    | reference => exact noReference _ rfl
    | name => exact noName _ _ rfl

theorem isIri_of_means (means : Grammar.IriOf context draft token value) : token.isIri := by
  cases means <;> rfl

theorem label_reads : Reads Parser.label Grammar.LabelOf := by
  refine .peeked (fun token => ?_) fun _ _ _ _ => nofun
  split
  next name same =>
    cases same
    refine (ReadsAt.advanced (Label.blank name)).congr fun context draft value => ?_
    constructor
    · intro means
      cases means with
      | blank => rfl
      | iri means => cases means
    · rintro rfl
      exact .blank
  next noBlank =>
    split
    next =>
      refine ((iri_reads.token token).map Label.iri).congr fun context draft value => ?_
      constructor
      · intro means
        cases means with
        | blank => exact (noBlank _ rfl).elim
        | iri means => exact ⟨_, means, rfl⟩
      · rintro ⟨value, means, rfl⟩
        exact .iri means
    next noIri =>
      refine .refused (fun _ _ _ _ => nofun) fun context draft value means => ?_
      cases means with
      | blank => exact noBlank _ rfl
      | iri means => exact noIri (isIri_of_means means)

theorem predicate_reads : Reads Parser.predicate Grammar.PredicateOf := by
  rw [Parser.predicate, Parser.eatKeyword, eatToken_bind]
  refine .ifNext (fun token => ?_) fun _ _ _ _ => nofun
  by_cases same : token = .keyword .type
  · subst same
    refine (ReadsAt.advanced Vocabulary.type).congr fun context draft value => ?_
    constructor
    · intro means
      cases means with
      | type => rfl
      | iri means => cases means
    · rintro rfl
      exact .type
  · have onlyIri : ∀ context draft value, Grammar.PredicateOf context draft token value ↔
        Grammar.IriOf context draft token value := fun context draft value => by
      refine ⟨fun means => ?_, .iri⟩
      cases means with
      | type => exact (same rfl).elim
      | iri means => exact means
    rw [decide_eq_false same]
    refine .ifNext ?_
    cases begins : token.isIri with
    | true => exact (iri_reads.token token).congr onlyIri
    | false =>
      refine .refused (fun _ _ _ _ => nofun) fun context draft value means => ?_
      have isIri := isIri_of_means ((onlyIri ..).mp means)
      simp [begins] at isIri

theorem iriRef_reads : Reads Parser.iriRef Grammar.ReferenceOf := by
  refine .peeked (fun token => ?_) fun _ _ _ _ => nofun
  split
  next text same =>
    cases same
    refine (ReadsAt.advanced text).congr fun context draft value => ⟨fun means => ?_, ?_⟩
    · cases means
      rfl
    · rintro rfl
      exact .reference
  next other =>
    refine .refused (fun _ _ _ _ => nofun) fun context draft value means => ?_
    cases means
    exact other _ rfl

theorem prefixName_reads : Reads Parser.prefixName Grammar.PrefixOf := by
  refine .peeked (fun token => ?_) fun _ _ _ _ => nofun
  split
  next space localPart same =>
    cases same
    split
    next empty =>
      obtain rfl := String.isEmpty_iff.mp empty
      refine (ReadsAt.advanced space).congr fun context draft value => ⟨fun means => ?_, ?_⟩
      · cases means
        rfl
      · rintro rfl
        exact .name
    next nonempty =>
      refine .refused (fun _ _ _ _ => nofun) fun context draft value means => ?_
      cases means
      exact nonempty rfl
  next other =>
    refine .refused (fun _ _ _ _ => nofun) fun context draft value means => ?_
    cases means
    exact other _ _ rfl

theorem ReadsAt.ifStrict {strict lenient : Parser α} {Lenient : Context → Draft → α → Prop}
    (yes : ReadsAt token strict Meaning) (no : ReadsAt token lenient Lenient) :
    ReadsAt token (read >>= fun context => if context.strict then strict else lenient)
      fun context draft value =>
        if context.strict then Meaning context draft value else Lenient context draft value := by
  intro context lexeme rest draft value stop begins
  change (if context.strict then strict else lenient) context _ = _ ↔
    (if context.strict then Meaning context draft value else Lenient context draft value) ∧ _
  cases context.strict with
  | true => exact yes _ _ _ _ _ _ begins
  | false =>
    rw [if_neg Bool.false_ne_true, if_neg Bool.false_ne_true]
    exact no _ _ _ _ _ _ begins

theorem string_reads : Reads Parser.string Grammar.StringOf := by
  refine .peeked (fun token => ?_) fun _ _ _ _ => nofun
  split
  next raw width same =>
    cases same
    cases decodes : Escape.decodeString raw width with
    | ok decoded =>
      refine (ReadsAt.given (.done decoded)).congr fun context draft value => ⟨fun means => ?_, ?_⟩
      · cases means with
        | decoded decodes' => exact (Except.ok.inj (decodes.symm.trans decodes')).symm
        | malformed _ flawed => cases decodes.symm.trans flawed
      · rintro rfl
        exact .decoded decodes
    | error flaw =>
      have never : ReadsAt (.string raw width) (do
          let value ← Parser.malformedEscape flaw
          advance
          return (value : String)) fun _ _ _ => False :=
        .refused (fun _ _ _ _ => nofun) fun _ _ _ => False.elim
      refine (never.ifStrict (.given (.done ""))).congr fun context draft value => ?_
      constructor
      · intro means
        cases means with
        | decoded decodes' => cases decodes.symm.trans decodes'
        | malformed lenient => rw [lenient]; rfl
      · intro empty
        cases strict : context.strict with
        | true => simp [strict] at empty
        | false =>
          obtain rfl : value = "" := by simpa [strict] using empty
          exact .malformed strict decodes
  next other =>
    refine .refused (fun _ _ _ _ => nofun) fun context draft value means => ?_
    cases means <;> exact other _ _ rfl

theorem integer_reads (convert : String → Option α) :
    Reads (Parser.integer convert) (Grammar.IntegerOf convert) := by
  refine .peeked (fun token => ?_) fun _ _ _ _ => nofun
  split
  next lexeme same =>
    cases same
    dsimp only
    cases fits : convert lexeme with
    | none =>
      refine .refused (fun _ _ _ _ => nofun) fun context draft value means => ?_
      cases means with
      | fits fits' => cases fits.symm.trans fits'
    | some value =>
      refine (ReadsAt.advanced value).congr fun context draft value => ⟨fun means => ?_, ?_⟩
      · cases means with
        | fits fits' => cases fits.symm.trans fits'; rfl
      · rintro rfl
        exact .fits fits
  next other =>
    refine .refused (fun _ _ _ _ => nofun) fun context draft value means => ?_
    cases means
    exact other _ rfl

end ShExCompact.Reading
