import ShExCompact.Proofs.Lexical.Spelling
import ShExCompact.Proofs.Reading.Guided

/-! A gap behind a token changes no token, and a reading depends on the tokens alone: it gives the
same schema, or a problem with the same cause at the same token. -/
namespace ShExCompact

/-! ### Flaws of strings -/

namespace Escape

theorem width_take_le (n : Nat) (text : List Char) :
    Text.width (text.take n) ≤ Text.width text := by
  have split := congrArg Text.width (List.take_append_drop n text)
  rw [Text.width_append] at split
  omega

theorem flaw_inside (flawed : decodeFrom skip offset text = .error flaw) :
    flaw.offset + Text.width flaw.text ≤ offset + Text.width text := by
  induction text generalizing skip offset with
  | nil => cases skip <;> cases flawed
  | cons c text ih =>
    rw [Text.width_cons]
    cases skip with
    | succ skip =>
      have inside := ih flawed
      omega
    | zero =>
      rw [decodeFrom] at flawed
      split at flawed
      case isTrue backslash =>
        subst backslash
        split at flawed
        next value size known =>
          cases later : decodeFrom size (offset + 1) text with
          | ok more => simp [later] at flawed
          | error inner =>
            rw [later] at flawed
            cases flawed
            have inside := ih later
            have one : Char.utf8Size '\\' = 1 := rfl
            omega
        next =>
          cases flawed
          have short := width_take_le 1 text
          dsimp only
          rw [Text.width_cons]
          omega
      case isFalse =>
        cases later : decodeFrom 0 (offset + c.utf8Size) text with
        | ok more => simp [later] at flawed
        | error inner =>
          rw [later] at flawed
          cases flawed
          have inside := ih later
          omega

/-- A flaw of a literal lies between its quotes. -/
theorem flaw_inside_literal (flawed : decodeString raw width = .error flaw) :
    flaw.offset + Text.width flaw.text ≤ Text.width raw.toList := by
  unfold decodeString at flawed
  split at flawed
  next content known =>
    cases decoded : decodeFrom 0 width content with
    | ok value => simp [decoded, Except.map] at flawed
    | error inner =>
      rw [decoded] at flawed
      cases flawed
      have inside := flaw_inside decoded
      simp only [content?] at known
      split at known
      next enough =>
        split at known
        next front rest cut =>
          obtain ⟨split, size⟩ := Text.cut_eq_exact.mp cut
          split at known
          next content' last cut' =>
            cases known
            obtain ⟨rfl, size'⟩ := Text.cut_eq_exact.mp cut'
            rw [split, Text.width_append, Text.width_append]
            omega
          all_goals cases known
        all_goals cases known
      next => cases known
  next => cases flawed

end Escape

/-! ### Readings of the same tokens -/

namespace Reading

open ShExCompact.Parser (here found)

variable {p : Parser α} {k : α → Parser β} {move : Lexeme → Lexeme}

/-- Two readings of tokens that stand at different places: they give the same value, or stop at the
same token with the same cause. -/
inductive Alike (move : Lexeme → Lexeme) :
    EStateM.Result Problem State α → EStateM.Result Problem State α → Prop where
  | read (value : α) (lexemes : List Lexeme) (draft : Draft) :
      Alike move (.ok value ⟨lexemes, draft⟩) (.ok value ⟨lexemes.map move, draft⟩)
  | stopped (same : other.cause = problem.cause) (lexemes : List Lexeme) (draft : Draft) :
      Alike move (.error problem ⟨lexemes, draft⟩) (.error other ⟨lexemes.map move, draft⟩)

/-- Tokens whose places are changed, but neither what they are nor their texts. -/
structure Keeps (move : Lexeme → Lexeme) : Prop where
  token : ∀ lexeme, (move lexeme).token = lexeme.token
  text : ∀ lexeme, (move lexeme).text = lexeme.text

theorem Keeps.next (keeps : Keeps move) (lexemes : List Lexeme) :
    (lexemes.map move).head?.map Lexeme.token = lexemes.head?.map Lexeme.token := by
  cases lexemes with
  | nil => rfl
  | cons lexeme rest => exact congrArg some (keeps.token lexeme)

theorem Keeps.found (keeps : Keeps move) (lexemes : List Lexeme) (draft : Draft) :
    found ⟨lexemes.map move, draft⟩ = found ⟨lexemes, draft⟩ := by
  cases lexemes with
  | nil => rfl
  | cons lexeme rest => exact keeps.text lexeme

theorem Alike.bind {first second : EStateM.Result Problem State α}
    (alike : Alike move first second)
    (firstEq : p context state = first) (secondEq : p context' state' = second)
    (later : ∀ value lexemes draft, Alike move (k value context ⟨lexemes, draft⟩)
      (k value context' ⟨lexemes.map move, draft⟩)) :
    Alike move ((p >>= k) context state) ((p >>= k) context' state') := by
  rw [bind_eq, bind_eq, firstEq, secondEq]
  cases alike with
  | read => exact later ..
  | stopped same => exact .stopped same ..

/-- Without a problem of the text, a reading depends on what the tokens are and on their texts. -/
theorem Stepwise.alike (stepwise : Stepwise p) (keeps : Keeps move)
    (context : Context) (calm : context.problem = none) (finish : Nat) (lexemes : List Lexeme)
    (draft : Draft) :
    Alike move (p context ⟨lexemes, draft⟩)
      (p { context with finish := finish } ⟨lexemes.map move, draft⟩) := by
  have settled (lexemes : List Lexeme) (draft : Draft) :
      Alike move (Parser.settle context ⟨lexemes, draft⟩)
        (Parser.settle { context with finish := finish } ⟨lexemes.map move, draft⟩) := by
    rw [settle_eq, settle_eq]
    dsimp only
    rw [calm]
    exact .read ..
  have advanced (lexemes : List Lexeme) (draft : Draft) :
      Alike move (Parser.advance context ⟨lexemes, draft⟩)
        (Parser.advance { context with finish := finish } ⟨lexemes.map move, draft⟩) := by
    have tail := settled lexemes.tail draft
    rw [List.map_tail] at tail
    exact tail
  induction stepwise generalizing lexemes draft with
  | done | drafted => exact .read ..
  | peek =>
    unfold Parser.peek
    dsimp only
    rw [keeps.next]
    exact .read ..
  | bind _ _ first later => exact (first lexemes draft).bind rfl rfl later
  | settle => exact settled ..
  | advance => exact advanced ..
  | absolute text =>
    rw [absolute_eq, absolute_eq]
    dsimp only
    cases context.check text with
    | ok => exact .read ..
    | error =>
      refine .stopped ?_ lexemes draft
      rw [keeps.found]
  | string =>
    rw [string_eq, string_eq]
    dsimp only
    rw [keeps.next]
    cases StringPlan.of context.strict (lexemes.head?.map Lexeme.token) with
    | behind value => exact (advanced lexemes draft).bind rfl rfl fun _ _ _ => .read ..
    | inside flaw =>
      refine .stopped ?_ lexemes draft
      rfl
    | other =>
      refine .stopped ?_ lexemes draft
      rw [keeps.found]
  | stops cause =>
    refine .stopped ?_ lexemes draft
    rw [keeps.found]
  | sized _ each =>
    dsimp only
    rw [List.length_map]
    exact each _ _ _

/-- What is read does not depend on how long the text is. -/
theorem Stepwise.finish (stepwise : Stepwise p) (calm : Context.problem context = none)
    (finish : Nat) (read : p context state = .ok value stop) :
    p { context with finish := finish } state = .ok value stop := by
  have keeps : Keeps id := ⟨fun _ => rfl, fun _ => rfl⟩
  have alike := stepwise.alike keeps context calm finish state.lexemes state.draft
  rw [read, List.map_id] at alike
  generalize p { context with finish := finish } state = outcome at alike ⊢
  cases alike with
  | read value lexemes draft => rw [List.map_id]

/-! ### The same token -/

/-- Some bytes of an extent. -/
def part (extent : Extent) (offset size : Nat) : Extent :=
  ⟨extent.start + offset, extent.start + offset + size⟩

/-- Extents that are about the same token, as a whole or about the same bytes of it, or both about
the end of the text. -/
inductive SamePlace (tokens others : List Lexeme) (finish finish' : Nat) :
    Extent → Extent → Prop where
  | token {n : Nat} {lexeme lexeme' : Lexeme} (one : tokens[n]? = some lexeme)
      (other : others[n]? = some lexeme') :
      SamePlace tokens others finish finish' lexeme.extent lexeme'.extent
  | inside {n : Nat} {lexeme lexeme' : Lexeme} (one : tokens[n]? = some lexeme)
      (other : others[n]? = some lexeme')
      (fits : (part lexeme.extent offset size).stop ≤ lexeme.extent.stop)
      (fits' : (part lexeme'.extent offset size).stop ≤ lexeme'.extent.stop) :
      SamePlace tokens others finish finish' (part lexeme.extent offset size)
        (part lexeme'.extent offset size)
  | finish : SamePlace tokens others finish finish' ⟨finish, finish⟩ ⟨finish', finish'⟩

/-- String tokens that are as wide as their texts. -/
def Wide (tokens : List Lexeme) : Prop := ∀ lexeme ∈ tokens, ∀ raw width,
  lexeme.token = .string raw width →
    lexeme.extent.stop = lexeme.extent.start + Text.width raw.toList

theorem here_samePlace (context : Context) (suffix : rest <:+ tokens) (finish : Nat)
    (draft : Draft) : SamePlace tokens (tokens.map move) context.finish finish
      (here context ⟨rest, draft⟩)
      (here { context with finish := finish } ⟨rest.map move, draft⟩) := by
  obtain ⟨front, rfl⟩ := suffix
  cases rest with
  | nil => exact .finish
  | cons lexeme rest =>
    have one : (front ++ lexeme :: rest)[front.length]? = some lexeme := by simp
    have other : ((front ++ lexeme :: rest).map move)[front.length]? = some (move lexeme) := by
      simp
    exact .token one other

/-- A malformed escape lies in the token of its literal. -/
theorem escape_samePlace (keeps : Keeps move) {tokens : List Lexeme}
    (suffix : lexeme :: rest <:+ tokens) (wide : Wide tokens) (wide' : Wide (tokens.map move))
    (isString : lexeme.token = .string raw width)
    (flawed : Escape.decodeString raw width = .error flaw) (finish finish' : Nat) :
    SamePlace tokens (tokens.map move) finish finish'
      (part lexeme.extent flaw.offset (Text.width flaw.text))
      (part (move lexeme).extent flaw.offset (Text.width flaw.text)) := by
  obtain ⟨front, rfl⟩ := suffix
  have one : (front ++ lexeme :: rest)[front.length]? = some lexeme := by simp
  have other : ((front ++ lexeme :: rest).map move)[front.length]? = some (move lexeme) := by
    simp
  have inside := Escape.flaw_inside_literal flawed
  have size := wide lexeme (List.mem_of_getElem? one) raw width isString
  have size' := wide' (move lexeme) (List.mem_of_getElem? other) raw width
    ((keeps.token lexeme).trans isString)
  refine .inside one other ?_ ?_
  · dsimp only [part]
    omega
  · dsimp only [part]
    omega

/-- Problems with the same cause are about the same token, if what is left of the tokens is. -/
theorem Points.samePlace (points : Points context ⟨rest, draft⟩ problem)
    (points' : Points { context with finish := finish } ⟨rest.map move, draft⟩ other)
    (calm : context.problem = none) (keeps : Keeps move) (suffix : rest <:+ tokens)
    (wide : Wide tokens) (wide' : Wide (tokens.map move)) (same : other.cause = problem.cause) :
    SamePlace tokens (tokens.map move) context.finish finish problem.extent other.extent := by
  generalize moved : (⟨rest.map move, draft⟩ : State) = state at points'
  cases points with
  | lexical known => cases calm.symm.trans known
  | token ofToken =>
    cases points' with
    | lexical known => cases calm.symm.trans known
    | token =>
      subst moved
      exact here_samePlace context suffix finish draft
    | escape =>
      dsimp only at same
      rw [← same] at ofToken
      cases ofToken
  | @escape raw width flaw extent text rest draft flawed =>
    cases points' with
    | lexical known => cases calm.symm.trans known
    | token ofToken =>
      dsimp only at same
      rw [same] at ofToken
      cases ofToken
    | @escape raw' width' flaw' extent' text' rest' draft' flawed' =>
      have heads := congrArg (fun state => state.lexemes.head?.map Lexeme.token) moved
      rw [keeps.next] at heads
      cases heads
      cases flawed.symm.trans flawed'
      have place := congrArg (fun state => state.lexemes.head?.map Lexeme.extent) moved
      rw [List.map_cons, List.head?_cons, Option.map_some] at place
      cases place
      exact escape_samePlace keeps suffix wide wide' rfl flawed ..

end Reading

/-! ### Gaps in a document -/

namespace Settings

open Reading (SamePlace)

variable {check : String → Except Iri.Fault Unit} {settings : Settings}

/-- A document is read through its tokens. -/
theorem parseWith_eq (check : String → Except Iri.Fault Unit) (settings : Settings)
    (text : String) : settings.parseWith check text =
      match Parser.document ⟨check, settings.strict, Text.width text.toList,
          (TokenSequence.ofText text.toList).problem⟩
          ⟨(TokenSequence.ofText text.toList).lexemes, settings.initialDraft⟩ with
      | .ok () state => .ok state.draft.finish
      | .error problem _ => .error (problem.diagnose (Text.bytes text.toList)) := by
  unfold parseWith parseIntoWith readTokens
  dsimp only
  cases Parser.document _ _ <;> rfl

/-- Two documents give the same schema, or problems with the same cause at the same token. -/
inductive SameOutcome (check : String → Except Iri.Fault Unit) (settings : Settings)
    (text other : String) : Prop where
  | read (one : settings.parseWith check text = .ok schema)
      (two : settings.parseWith check other = .ok schema)
  | stopped {problem problem' : Problem} (one : settings.parseWith check text =
        .error (problem.diagnose (Text.bytes text.toList)))
      (two : settings.parseWith check other =
        .error (problem'.diagnose (Text.bytes other.toList)))
      (cause : problem'.cause = problem.cause)
      (place : SamePlace (TokenSequence.ofText text.toList).lexemes
        (TokenSequence.ofText other.toList).lexemes (Text.width text.toList)
        (Text.width other.toList) problem.extent problem'.extent)

/-- Texts that spell the same tokens at different places have the same outcome. -/
theorem sameOutcome_of_spells {move : Lexeme → Lexeme} (keeps : Reading.Keeps move)
    (spells : TokenSequence.Spells 0 text.toList tokens)
    (spells' : TokenSequence.Spells 0 other.toList (tokens.map move)) :
    SameOutcome check settings text other := by
  obtain ⟨calm, lexemes⟩ := (TokenSequence.ofText_iff_spells ..).mpr spells
  obtain ⟨calm', lexemes'⟩ := (TokenSequence.ofText_iff_spells ..).mpr spells'
  have one := parseWith_eq check settings text
  have two := parseWith_eq check settings other
  rw [calm, lexemes] at one
  rw [calm', lexemes'] at two
  have alike := Reading.Stepwise.document.alike keeps
    ⟨check, settings.strict, Text.width text.toList, none⟩ rfl (Text.width other.toList) tokens
    settings.initialDraft
  generalize first : Parser.document _ _ = outcome at one alike
  generalize second : Parser.document _ _ = outcome' at two alike
  cases alike with
  | read value lexemes draft => exact .read one two
  | @stopped problem' problem cause left draft =>
    have suffix := Reading.Stepwise.document.suffix
      ⟨check, settings.strict, Text.width text.toList, none⟩ ⟨tokens, settings.initialDraft⟩
    rw [first] at suffix
    refine .stopped one two cause ?_
    rw [lexemes, lexemes']
    exact (Reading.Stepwise.document.points first).samePlace
      (Reading.Stepwise.document.points second) rfl keeps suffix
      (fun _ member _ _ => spells.string_width member)
      (fun _ member _ _ => spells'.string_width member) cause

/-- A gap may be put behind any token of a document, if no percent sign and no backslash stands in
its comments: the tokens stay the same, and so does the outcome. -/
theorem parseWith_gap {front gap rest : String}
    (calm : (TokenSequence.ofText (front ++ rest).toList).problem = none)
    (ends : ∃ lexeme ∈ (TokenSequence.ofText (front ++ rest).toList).lexemes,
      lexeme.extent.stop = Text.width front.toList)
    (isGap : Token.IsGap gap.toList) (plain : ∀ c ∈ gap.toList, ¬ Brace.IsDelimiter c) :
    (TokenSequence.ofText (front ++ gap ++ rest).toList).problem = none ∧
    (TokenSequence.ofText (front ++ gap ++ rest).toList).lexemes.map
        (fun lexeme => (lexeme.token, lexeme.text)) =
      (TokenSequence.ofText (front ++ rest).toList).lexemes.map
        (fun lexeme => (lexeme.token, lexeme.text)) ∧
    SameOutcome check settings (front ++ rest) (front ++ gap ++ rest) := by
  generalize same : (TokenSequence.ofText (front ++ rest).toList).lexemes = tokens at ends ⊢
  have spells := (TokenSequence.ofText_iff_spells ..).mp ⟨calm, same⟩
  have split : (front ++ rest).toList = front.toList ++ rest.toList := String.toList_append ..
  have inserted := (split ▸ spells).insert (by simpa using ends) isGap plain
  rw [Nat.zero_add] at inserted
  have whole : (front ++ gap ++ rest).toList = front.toList ++ (gap.toList ++ rest.toList) := by
    simp
  have spells' := whole ▸ inserted
  obtain ⟨calm', same'⟩ := (TokenSequence.ofText_iff_spells ..).mpr spells'
  refine ⟨calm', ?_, ?_⟩
  · rw [same', List.map_map]
    rfl
  · have keeps : Reading.Keeps (Lexeme.moved (Text.width front.toList) (Text.width gap.toList)) :=
      ⟨fun _ => rfl, fun _ => rfl⟩
    exact sameOutcome_of_spells keeps spells spells'

theorem parseWith_gap_comment :
    ((TokenSequence.ofText ("<a:s>" ++ " \x7b").toList).problem = none ∧
      (∃ lexeme ∈ (TokenSequence.ofText ("<a:s>" ++ " \x7b").toList).lexemes,
        lexeme.extent.stop = Text.width "<a:s>".toList) ∧
      Token.IsGap " # a:s\n".toList ∧ ∀ c ∈ " # a:s\n".toList, ¬ Brace.IsDelimiter c) ∧
    (TokenSequence.ofText ("<a:s>" ++ " # a:s\n" ++ " \x7b").toList).problem = none ∧
    (TokenSequence.ofText ("<a:s>" ++ " # a:s\n" ++ " \x7b").toList).lexemes.map
        (fun lexeme => (lexeme.token, lexeme.text)) =
      (TokenSequence.ofText ("<a:s>" ++ " \x7b").toList).lexemes.map
        (fun lexeme => (lexeme.token, lexeme.text)) ∧
    SameOutcome (fun text => Iri.check text.toList) default ("<a:s>" ++ " \x7b")
      ("<a:s>" ++ " # a:s\n" ++ " \x7b") := by
  have calm : (TokenSequence.ofText ("<a:s>" ++ " \x7b").toList).problem = none := by
    decide +kernel
  have ends : ∃ lexeme ∈ (TokenSequence.ofText ("<a:s>" ++ " \x7b").toList).lexemes,
      lexeme.extent.stop = Text.width "<a:s>".toList := by decide +kernel
  have comment : Token.IsGap (['#'] ++ (" a:s".toList ++ '\n' :: [])) :=
    .comment .sign (by simp [Token.isLineEnd]) (by decide) .empty
  have isGap : Token.IsGap " # a:s\n".toList := .blank (by decide) comment
  have plain : ∀ c ∈ " # a:s\n".toList, ¬ Brace.IsDelimiter c := by simp [Brace.IsDelimiter]
  exact ⟨⟨calm, ends, isGap, plain⟩, parseWith_gap calm ends isGap plain⟩

end Settings

end ShExCompact
