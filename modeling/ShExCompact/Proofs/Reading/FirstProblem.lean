import ShExCompact.Proofs.Reading.Layout
import ShExCompact.Proofs.Reading.Strictness

/-! The first problem from the left is the one that is reported. A reading that stops at a token
does not depend on what stands behind it: neither on other tokens there, nor on a text that has
none. -/
namespace ShExCompact

namespace Reading

open ShExCompact.Parser (here found collectUpTo)

/-- Readings of tokens that go on differently behind the same front. Both give the same value, or
both stop with the same problem, before the end of the front; or the first one comes to its end. -/
inductive Together (rest rest' : List Lexeme) :
    EStateM.Result Problem State α → EStateM.Result Problem State α → Prop where
  | read (value : α) (draft : Draft) (ahead : left ≠ []) :
      Together rest rest' (.ok value ⟨left ++ rest, draft⟩) (.ok value ⟨left ++ rest', draft⟩)
  | stopped (problem : Problem) (draft : Draft) (ahead : left ≠ []) :
      Together rest rest' (.error problem ⟨left ++ rest, draft⟩)
        (.error problem ⟨left ++ rest', draft⟩)
  | passed (behind : (ending first).lexemes <:+ rest) : Together rest rest' first second

/-- Contexts of two texts that are read by the same rules. -/
structure Context.Alike (context context' : Context) : Prop where
  check : context'.check = context.check
  strict : context'.strict = context.strict

variable {p : Parser α} {k k' : α → Parser β} {front rest rest' : List Lexeme}
  {context context' : Context}

theorem Together.bind {first second : EStateM.Result Problem State α}
    (together : Together rest rest' first second) (firstEq : p context state = first)
    (secondEq : p context' state' = second) (steps : ∀ value, Stepwise (k value))
    (later : ∀ value left draft, left ≠ [] →
      p context state = .ok value ⟨left ++ rest, draft⟩ →
      Together rest rest' (k value context ⟨left ++ rest, draft⟩)
        (k' value context' ⟨left ++ rest', draft⟩)) :
    Together rest rest' ((p >>= k) context state) ((p >>= k') context' state') := by
  rw [bind_eq, bind_eq, firstEq, secondEq]
  cases together with
  | read value draft ahead => exact later _ _ _ ahead firstEq
  | stopped problem draft ahead => exact .stopped _ _ ahead
  | passed behind =>
    refine .passed ?_
    cases first with
    | ok value middle => exact ((steps value).suffix context middle).trans behind
    | error problem stop => exact behind

/-- While tokens of the front are left, both bounds are far enough away. -/
theorem Together.upTo {step : Parser (Option α)}
    (each : ∀ front draft, front ≠ [] → Together rest rest' (step context ⟨front ++ rest, draft⟩)
      (step context' ⟨front ++ rest', draft⟩))
    (stepwise : Stepwise step) (consumes : Consumes step) (ahead : front ≠ [])
    (enough : front.length < bound) (enough' : front.length < bound') :
    Together rest rest' (collectUpTo step bound collected context ⟨front ++ rest, draft⟩)
      (collectUpTo step bound' collected context' ⟨front ++ rest', draft⟩) := by
  -- On the first bound: every part takes a token, so neither bound is used up in the front.
  induction bound generalizing bound' front collected draft with
  | zero => exact absurd enough (Nat.not_lt_zero _)
  | succ bound ih =>
    cases bound' with
    | zero => exact absurd enough' (Nat.not_lt_zero _)
    | succ bound' =>
      refine (each front draft ahead).bind rfl rfl (fun answer => ?_) ?_
      · cases answer with
        | some value => exact stepwise.upTo ..
        | none => exact .done _
      · intro answer left draft ahead read
        cases answer with
        | some value =>
          have fewer := consumes read
          simp only [List.length_append] at fewer
          exact ih ahead (by omega) (by omega)
        | none => exact .read _ _ ahead

theorem settle_together (ahead : front ≠ []) (draft : Draft) :
    Together rest rest' (Parser.settle context ⟨front ++ rest, draft⟩)
      (Parser.settle context' ⟨front ++ rest', draft⟩) := by
  obtain ⟨lexeme, front, rfl⟩ := List.exists_cons_of_ne_nil ahead
  exact .read () draft ahead

theorem advance_together (ahead : front ≠ []) (draft : Draft) :
    Together rest rest' (Parser.advance context ⟨front ++ rest, draft⟩)
      (Parser.advance context' ⟨front ++ rest', draft⟩) := by
  obtain ⟨lexeme, front, rfl⟩ := List.exists_cons_of_ne_nil ahead
  cases front with
  | nil =>
    refine .passed ?_
    have stays : (ending (Parser.settle context ⟨rest, draft⟩)).lexemes = rest := by
      rw [ending_settle]
    exact ⟨[], stays⟩
  | cons next front =>
    exact settle_together (List.cons_ne_nil next front) draft

theorem absolute_together (alike : Context.Alike context context') (ahead : front ≠ [])
    (text : String) (draft : Draft) :
    Together rest rest' (Parser.absolute text context ⟨front ++ rest, draft⟩)
      (Parser.absolute text context' ⟨front ++ rest', draft⟩) := by
  rw [absolute_eq, absolute_eq, alike.check]
  obtain ⟨lexeme, front, rfl⟩ := List.exists_cons_of_ne_nil ahead
  cases context.check text with
  | ok => exact .read _ draft ahead
  | error fault => exact .stopped _ draft ahead

theorem string_together (alike : Context.Alike context context') (ahead : front ≠ [])
    (draft : Draft) :
    Together rest rest' (Parser.string context ⟨front ++ rest, draft⟩)
      (Parser.string context' ⟨front ++ rest', draft⟩) := by
  obtain ⟨lexeme, front, rfl⟩ := List.exists_cons_of_ne_nil ahead
  rw [string_eq, string_eq, alike.strict]
  dsimp only [List.cons_append, List.head?_cons, Option.map_some]
  cases StringPlan.of context.strict (some lexeme.token) with
  | behind value =>
    exact (advance_together ahead draft).bind rfl rfl (fun _ => .done _)
      fun _ _ draft ahead _ => .read value draft ahead
  | inside flaw => exact .stopped _ draft ahead
  | other => exact .stopped _ draft ahead

theorem expand_together (alike : Context.Alike context context') (ahead : front ≠ [])
    (draft : Draft) :
    Together rest rest' (Parser.expand space localPart context ⟨front ++ rest, draft⟩)
      (Parser.expand space localPart context' ⟨front ++ rest', draft⟩) := by
  refine Together.bind (.read draft draft ahead) rfl rfl (fun draft => ?_)
    fun held left draft ahead _ => ?_
  · cases draft.expand? space localPart with
    | some text => exact .absolute text
    | none => exact .unbound space
  · cases held.expand? space localPart with
    | some text => exact absolute_together alike ahead text draft
    | none =>
      obtain ⟨lexeme, left, rfl⟩ := List.exists_cons_of_ne_nil ahead
      exact .stopped _ draft ahead

theorem Assembled.together (assembled : Assembled known p) (alike : Context.Alike context context')
    (ahead : front ≠ []) (draft : Draft) :
    Together rest rest' (p context ⟨front ++ rest, draft⟩)
      (p context' ⟨front ++ rest', draft⟩) := by
  induction assembled generalizing front draft with
  | done value => exact .read value draft ahead
  | bind _ steps first later =>
    exact (first ahead draft).bind rfl rfl (fun value => (steps value).stepwise)
      fun value left draft ahead _ => later value ahead draft
  | peeked _ later =>
    obtain ⟨lexeme, front, rfl⟩ := List.exists_cons_of_ne_nil ahead
    exact later _ ahead draft
  | drafted act => exact .read _ _ ahead
  | settle => exact settle_together ahead draft
  | advance => exact advance_together ahead draft
  | absolute text => exact absolute_together alike ahead text draft
  | string => exact string_together alike ahead draft
  | refused | objected =>
    obtain ⟨lexeme, front, rfl⟩ := List.exists_cons_of_ne_nil ahead
    exact .stopped _ draft ahead
  | expand => exact expand_together alike ahead draft
  | collect each consumes ih =>
    refine Together.upTo (fun front draft ahead => ih ahead draft) each.stepwise consumes ahead
      ?_ ?_
    all_goals
      simp only [List.length_append]
      omega

end Reading

namespace TokenSequence

/-! ### Texts with the same first tokens -/

/-- Two texts that are the same up to the end of a token, with the same tokens at the same places
up to it; `count` tokens stand before it. -/
structure SameUpTo (text other : List Char) (count : Nat) (last : Lexeme) : Prop where
  known : (ofText text).lexemes[count]? = some last
  tokens : ((ofText text).lexemes.take (count + 1)).map (fun token => (token.token, token.extent)) =
    ((ofText other).lexemes.take (count + 1)).map fun token => (token.token, token.extent)
  texts : ∃ front rest rest', text = front ++ rest ∧ other = front ++ rest' ∧
    Text.width front = last.extent.stop

/-- What is at most as wide as a front of a text, and a front as well, is a front of that one. -/
theorem front_of_width {front rest piece after : List Char}
    (split : front ++ rest = piece ++ after) (narrow : Text.width piece ≤ Text.width front) :
    ∃ more, front = piece ++ more := by
  rcases List.append_eq_append_iff.mp split with ⟨more, same, -⟩ | ⟨more, same, -⟩
  · have size := congrArg Text.width same
    rw [Text.width_append] at size
    have empty : more = [] := by
      by_contra nonempty
      have wide := width_pos nonempty
      omega
    rw [empty, List.append_nil] at same
    exact ⟨[], by rw [same, List.append_nil]⟩
  · exact ⟨more, same⟩

/-- Tokens at the same place have the same text if the texts are the same up to there. -/
theorem text_eq_of_extent_eq (member : lexeme ∈ (ofText (front ++ rest)).lexemes)
    (member' : lexeme' ∈ (ofText (front ++ rest')).lexemes) (same : lexeme.extent = lexeme'.extent)
    (inside : lexeme.extent.stop ≤ Text.width front) : lexeme.text = lexeme'.text := by
  obtain ⟨before, after, split, starts, stops⟩ := slice member
  obtain ⟨before', after', split', starts', stops'⟩ := slice member'
  rw [← List.append_assoc] at split split'
  obtain ⟨more, whole⟩ := front_of_width split (by omega)
  obtain ⟨more', whole'⟩ := front_of_width split' (by rw [stops', ← same]; exact inside)
  rw [same] at starts stops
  have pieces := (append_inj_width (whole.symm.trans whole') (stops.trans stops'.symm)).1
  have texts := (append_inj_width pieces (starts.trans starts'.symm)).2
  exact String.toList_injective texts

theorem eq_of_map_eq {f : α → β} {xs ys : List α} (same : xs.map f = ys.map f)
    (injective : ∀ x ∈ xs, ∀ y ∈ ys, f x = f y → x = y) : xs = ys := by
  induction xs generalizing ys with
  | nil => exact (List.map_eq_nil_iff.mp same.symm).symm
  | cons x xs ih =>
    cases ys with
    | nil => cases same
    | cons y ys =>
      obtain ⟨first, others⟩ := List.cons.inj same
      rw [injective x List.mem_cons_self y List.mem_cons_self first, ih others fun x member y
        member' => injective x (List.mem_cons_of_mem _ member) y (List.mem_cons_of_mem _ member')]

/-- A token before another one ends before its end. -/
theorem stop_le_of_prefix (split : (ofText text).lexemes = front ++ last :: rest)
    (member : lexeme ∈ front ++ [last]) : lexeme.extent.stop ≤ last.extent.stop := by
  have ordered := (lossless_ofText text).layout.pairwise
  rw [split] at ordered
  rcases List.mem_append.mp member with before | itself
  · have apart := (List.pairwise_append.mp ordered).2.2 lexeme before last List.mem_cons_self
    have held : last ∈ (ofText text).lexemes := by simp [split]
    obtain ⟨_, _, -, starts, stops⟩ := slice held
    rw [Text.width_append] at stops
    omega
  · exact List.mem_singleton.mp itself ▸ Nat.le_refl _

theorem SameUpTo.split (same : SameUpTo text other count last) :
    ∃ front rest rest', (ofText text).lexemes = front ++ last :: rest ∧
      (ofText other).lexemes = front ++ last :: rest' := by
  obtain ⟨known, tokens, front, rest, rest', rfl, rfl, width⟩ := same
  have taken : (ofText (front ++ rest)).lexemes.take (count + 1) =
      (ofText (front ++ rest)).lexemes.take count ++ [last] := by
    rw [List.take_add_one, known]
    rfl
  have whole : (ofText (front ++ rest)).lexemes =
      (ofText (front ++ rest)).lexemes.take count ++
        last :: (ofText (front ++ rest)).lexemes.drop (count + 1) := by
    have pieces := List.take_append_drop (count + 1) (ofText (front ++ rest)).lexemes
    rw [taken, List.append_assoc] at pieces
    exact pieces.symm
  have alike : (ofText (front ++ rest)).lexemes.take (count + 1) =
      (ofText (front ++ rest')).lexemes.take (count + 1) := by
    refine eq_of_map_eq tokens fun lexeme member lexeme' member' same => ?_
    obtain ⟨token, extent⟩ := Prod.ext_iff.mp same
    have inside := stop_le_of_prefix whole (taken ▸ member)
    have text := text_eq_of_extent_eq (List.mem_of_mem_take member) (List.mem_of_mem_take member')
      extent (width ▸ inside)
    obtain ⟨_, _, _⟩ := lexeme
    obtain ⟨_, _, _⟩ := lexeme'
    cases token
    cases extent
    cases text
    rfl
  refine ⟨_, _, (ofText (front ++ rest')).lexemes.drop (count + 1), whole, ?_⟩
  have pieces := List.take_append_drop (count + 1) (ofText (front ++ rest')).lexemes
  rw [← alike, taken, List.append_assoc] at pieces
  exact pieces.symm

/-- A flaw ends within its string. -/
theorem FlawedAt.stop_le (flawed : FlawedAt text lexeme extent escape) :
    extent.start ≤ extent.stop ∧ extent.stop ≤ lexeme.extent.stop := by
  cases flawed with
  | string _ _ place pieces =>
    rw [place, pieces]
    simp only [Text.width_append, Text.width_cons]
    omega

end TokenSequence

namespace Reading

/-- A problem that is found before the end of some tokens is about the text up to there. -/
theorem Points.stop_le {text : List Char}
    (points : Points ⟨check, strict, finish, fault⟩ ⟨left ++ rest, draft⟩ problem)
    (ahead : left ≠ []) (suffix : left ++ rest <:+ (TokenSequence.ofText text).lexemes)
    (inside : ∀ lexeme ∈ left, lexeme.extent.stop ≤ bound) :
    problem.extent.start ≤ problem.extent.stop ∧ problem.extent.stop ≤ bound := by
  obtain ⟨lexeme, left, rfl⟩ := List.exists_cons_of_ne_nil ahead
  have member : lexeme ∈ (TokenSequence.ofText text).lexemes := suffix.subset List.mem_cons_self
  have within := inside lexeme List.mem_cons_self
  cases points with
  | token =>
    obtain ⟨_, _, -, starts, stops⟩ := TokenSequence.slice member
    rw [Text.width_append] at stops
    change lexeme.extent.start ≤ lexeme.extent.stop ∧ lexeme.extent.stop ≤ bound
    omega
  | escape flawed =>
    obtain ⟨ordered, narrow⟩ := (TokenSequence.flawedAt_of_member member flawed).stop_le
    exact ⟨ordered, Nat.le_trans narrow within⟩

/-- A problem has the same lines and columns in texts that are the same up to its end. -/
theorem diagnose_front {front rest rest' : List Char} (problem : Problem)
    (ordered : problem.extent.start ≤ problem.extent.stop)
    (inside : problem.extent.stop ≤ Text.width front) :
    problem.diagnose (Text.bytes (front ++ rest)) =
      problem.diagnose (Text.bytes (front ++ rest')) := by
  have position (offset : Nat) (inside : offset ≤ Text.width front) (rest : List Char) :
      Position.ofOffset (Text.bytes (front ++ rest)) offset =
        Position.ofOffset (Text.bytes front) offset := by
    have bytes : Text.bytes (front ++ rest) = Text.bytes front ++ Text.bytes rest :=
      List.flatMap_append
    rw [Position.ofOffset, bytes, List.take_append_of_le_length (by rwa [Text.length_bytes])]
    rfl
  have starts := Nat.le_trans ordered inside
  unfold Problem.diagnose Extent.span
  rw [position _ starts, position _ starts rest', position _ inside, position _ inside rest']

end Reading

namespace Settings

open Reading (Assembled Context.Alike Points Stepwise)
open TokenSequence (SameUpTo)

/-- A problem that is found before the end of some token is found as well in every other text that
is the same up to there, whatever follows, and the same declarations are left. -/
theorem readTokens_sameUpTo {text other : List Char} (same : SameUpTo text other count last)
    (stopped : readTokens check isStrict (Text.width text) (TokenSequence.ofText text) draft =
      (.error problem, later))
    (before : (problem.diagnose (Text.bytes text)).span.start.offset < last.extent.stop) :
    readTokens check isStrict (Text.width other) (TokenSequence.ofText other) draft =
        (.error problem, later) ∧
      problem.diagnose (Text.bytes other) = problem.diagnose (Text.bytes text) := by
  obtain ⟨front, rest, rest', tokens, tokens'⟩ := same.split
  obtain ⟨shared, after, after', split, split', width⟩ := same.texts
  have whole : (TokenSequence.ofText text).lexemes = front ++ [last] ++ rest := by simp [tokens]
  have whole' : (TokenSequence.ofText other).lexemes = front ++ [last] ++ rest' := by
    simp [tokens']
  have assembled : Assembled none Parser.document := .document
  have alike : Context.Alike
      ⟨check, isStrict, Text.width text, (TokenSequence.ofText text).problem⟩
      ⟨check, isStrict, Text.width other, (TokenSequence.ofText other).problem⟩ := ⟨rfl, rfl⟩
  have ahead : front ++ [last] ≠ [] := by simp
  have together : Reading.Together rest rest'
      (Parser.document ⟨check, isStrict, Text.width text, (TokenSequence.ofText text).problem⟩
        ⟨front ++ [last] ++ rest, draft⟩)
      (Parser.document ⟨check, isStrict, Text.width other, (TokenSequence.ofText other).problem⟩
        ⟨front ++ [last] ++ rest', draft⟩) :=
    assembled.together alike ahead draft
  rw [← whole, ← whole'] at together
  unfold readTokens at stopped ⊢
  have left := Stepwise.document.suffix
    ⟨check, isStrict, Text.width text, (TokenSequence.ofText text).problem⟩
    ⟨(TokenSequence.ofText text).lexemes, draft⟩
  generalize outcome : Parser.document ⟨check, isStrict, Text.width text, _⟩ _ = first
    at together left stopped
  generalize Parser.document ⟨check, isStrict, Text.width other, _⟩ _ = second at together ⊢
  cases together with
  | read value => cases stopped
  | @stopped inFront problem draft some =>
    cases stopped
    have inside (lexeme) (member : lexeme ∈ inFront) :
        lexeme.extent.stop ≤ Text.width shared := by
      obtain ⟨taken, pieces⟩ := whole ▸ left
      have front' : taken ++ inFront = front ++ [last] :=
        List.append_cancel_right ((List.append_assoc ..).trans pieces)
      rw [width]
      exact TokenSequence.stop_le_of_prefix tokens (front' ▸ List.mem_append_right taken member)
    obtain ⟨ordered, narrow⟩ :=
      (Stepwise.document.points outcome).stop_le some left inside
    refine ⟨rfl, ?_⟩
    rw [split, split']
    exact Reading.diagnose_front problem ordered narrow
  | passed behind =>
    -- Then the problem would not begin before the end of the last token that is the same.
    cases first with
    | ok => cases stopped
    | error problem stop =>
      cases stopped
      have points := Stepwise.document.points outcome
      have place := Points.position_behind points
        (tokens ▸ List.suffix_append front (last :: rest)) behind
      omega

/-- The first problem from the left is the one that is reported: a document that fails before the
end of some token fails in the same way, with the same declarations left behind, if anything else
is put behind that token. What is put there may even be no tokens. -/
theorem parse_error_of_sameUpTo (check : String → Except Iri.Fault Unit) (settings : Settings)
    {text other : String} (same : SameUpTo text.toList other.toList count last) :
    (∀ draft diagnostic later,
      settings.parseIntoWith check text draft = (.error diagnostic, later) →
      diagnostic.span.start.offset < last.extent.stop →
      settings.parseIntoWith check other draft = (.error diagnostic, later)) ∧
    ∀ diagnostic, settings.parseWith check text = .error diagnostic →
      diagnostic.span.start.offset < last.extent.stop →
      settings.parseWith check other = .error diagnostic := by
  have into (draft diagnostic later)
      (stopped : settings.parseIntoWith check text draft = (.error diagnostic, later))
      (before : diagnostic.span.start.offset < last.extent.stop) :
      settings.parseIntoWith check other draft = (.error diagnostic, later) := by
    unfold parseIntoWith at stopped ⊢
    dsimp only at stopped ⊢
    split at stopped
    next => cases stopped
    next problem draft' outcome =>
      cases stopped
      obtain ⟨again, place⟩ := readTokens_sameUpTo same outcome before
      rw [again, ← place]
  refine ⟨into, fun diagnostic stopped before => ?_⟩
  unfold parseWith at stopped ⊢
  split at stopped
  next => cases stopped
  next diagnostic' later outcome =>
    cases stopped
    rw [into _ _ _ outcome before]

/-- The prefix is not bound, whether the rest of a shape follows or a quote that nothing closes. -/
theorem parse_error_unbound :
    SameUpTo "<a:s> \x7b b:p . \x7d".toList "<a:s> \x7b b:p \"".toList 2
        ⟨.prefixedName "b" "p", ⟨8, 11⟩, "b:p"⟩ ∧
      default.parseWith (fun _ => .ok ()) "<a:s> \x7b b:p . \x7d" =
        .error ⟨⟨⟨0, 8, 8⟩, ⟨0, 11, 11⟩⟩, .unknownPrefix "b"⟩ ∧
      default.parseWith (fun _ => .ok ()) "<a:s> \x7b b:p \"" =
        .error ⟨⟨⟨0, 8, 8⟩, ⟨0, 11, 11⟩⟩, .unknownPrefix "b"⟩ := by
  have same : SameUpTo "<a:s> \x7b b:p . \x7d".toList "<a:s> \x7b b:p \"".toList 2
      ⟨.prefixedName "b" "p", ⟨8, 11⟩, "b:p"⟩ :=
    ⟨by decide +kernel, by decide +kernel,
      "<a:s> \x7b b:p".toList, " . \x7d".toList, " \"".toList, by decide, by decide, by decide⟩
  have stopped : default.parseWith (fun _ => .ok ()) "<a:s> \x7b b:p . \x7d" =
      .error ⟨⟨⟨0, 8, 8⟩, ⟨0, 11, 11⟩⟩, .unknownPrefix "b"⟩ := by
    decide +kernel
  exact ⟨same, stopped,
    (parse_error_of_sameUpTo (fun _ => .ok ()) default same).2 _ stopped (by decide)⟩

end Settings

end ShExCompact
