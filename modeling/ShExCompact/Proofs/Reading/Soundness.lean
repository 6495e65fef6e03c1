import ShExCompact.Proofs.Reading.First

/-! What a parser reads is derived by a phrase. This is shown part by part: the rules follow the
sequences, alternatives and repetitions of phrases. -/
namespace ShExCompact.Reading

open ShExCompact.Parser (next eat eatToken eatKeyword expect advance peek collect collectUpTo
  whenNext)
open Phrase (sign word mark markWord exactly many several terminal)

variable {p : Parser α} {k : α → Parser β} {g h : Phrase α} {i : α → Phrase β}

/-- What a parser reads where a given token comes next is derived by a phrase. -/
def SoundFrom (next : Option Token) (parser : Parser α) (phrase : Phrase α) : Prop :=
  ∀ ⦃context lexemes journal value stop⦄, lexemes.head?.map Lexeme.token = next →
    parser context ⟨lexemes, Journal.draft journal⟩ = .ok value stop →
    ∃ front rest later, lexemes = front ++ rest ∧ stop = ⟨rest, Journal.draft later⟩ ∧
      phrase.Derives context (front.map Lexeme.token) journal value later

/-- What a parser reads is derived by a phrase. -/
def Sound (parser : Parser α) (phrase : Phrase α) : Prop := ∀ next, SoundFrom next parser phrase

theorem bind_eq_ok : (p >>= k) context state = .ok value stop ↔
    ∃ inner middle, p context state = .ok inner middle ∧
      k inner context middle = .ok value stop := by
  change EStateM.bind (p context) (fun inner => k inner context) state = _ ↔ _
  unfold EStateM.bind
  cases p context state with
  | error problem middle => simp
  | ok inner middle =>
    constructor
    · exact fun read => ⟨inner, middle, rfl, read⟩
    · rintro ⟨_, _, same, read⟩
      cases same
      exact read

theorem Sound.weaken (sound : Sound p g) (included : Included g h) : Sound p h := by
  intro next context lexemes journal value stop begins read
  obtain ⟨front, rest, later, split, ends, derives⟩ := sound next begins read
  exact ⟨front, rest, later, split, ends, included derives⟩

theorem SoundFrom.weaken (sound : SoundFrom token p g) (included : Included g h) :
    SoundFrom token p h := by
  intro context lexemes journal value stop begins read
  obtain ⟨front, rest, later, split, ends, derives⟩ := sound begins read
  exact ⟨front, rest, later, split, ends, included derives⟩

theorem SoundFrom.left (sound : SoundFrom token p g) : SoundFrom token p (g <|> h) :=
  sound.weaken .left

theorem SoundFrom.right (sound : SoundFrom token p h) : SoundFrom token p (g <|> h) :=
  sound.weaken .right

theorem Sound.left (sound : Sound p g) : Sound p (g <|> h) := sound.weaken .left

theorem Sound.right (sound : Sound p h) : Sound p (g <|> h) := sound.weaken .right

theorem Sound.swap (sound : Sound p (g <|> h)) : Sound p (h <|> g) :=
  Phrase.orElse_comm g h ▸ sound

theorem Sound.done (value : α) : Sound (pure value) (pure value) := by
  intro next context lexemes journal result stop begins read
  cases read
  exact ⟨[], lexemes, journal, rfl, rfl, rfl, rfl, rfl⟩

theorem SoundFrom.bind (sound : SoundFrom token p g) (later : ∀ value, Sound (k value) (i value)) :
    SoundFrom token (p >>= k) (g >>= i) := by
  intro context lexemes journal value stop begins read
  obtain ⟨inner, middle, part, read⟩ := bind_eq_ok.mp read
  obtain ⟨front, rest, between, rfl, rfl, derives⟩ := sound begins part
  obtain ⟨front', rest', last, rfl, rfl, derives'⟩ := later inner _ rfl read
  refine ⟨front ++ front', rest', last, (List.append_assoc ..).symm, rfl, ?_⟩
  rw [List.map_append]
  exact ⟨_, _, inner, between, rfl, derives, derives'⟩

theorem Sound.bind (sound : Sound p g) (later : ∀ value, Sound (k value) (i value)) :
    Sound (p >>= k) (g >>= i) := fun next => (sound next).bind later

theorem SoundFrom.map (sound : SoundFrom token p g) (f : α → β) :
    SoundFrom token (f <$> p) (f <$> g) := by
  have mapped : SoundFrom token (p >>= fun value => pure (f value))
      (g >>= fun value => pure (f value)) := sound.bind fun value => .done (f value)
  exact mapped

theorem Sound.map (sound : Sound p g) (f : α → β) : Sound (f <$> p) (f <$> g) :=
  fun next => (sound next).map f

theorem SoundFrom.peeked {k : Option Token → Parser α} (sound : SoundFrom token (k token) g) :
    SoundFrom token (peek >>= k) g := by
  intro context lexemes journal value stop begins read
  subst begins
  exact sound rfl read

theorem Sound.peeked {k : Option Token → Parser α} (sound : ∀ next, SoundFrom next (k next) g) :
    Sound (peek >>= k) g := fun next => .peeked (sound next)

theorem SoundFrom.ifNext {k : Bool → Parser α} {property : Token → Bool}
    (later : SoundFrom token (k (token.any property)) g) :
    SoundFrom token (next property >>= k) g := by
  intro context lexemes journal value stop begins read
  subst begins
  exact later rfl read

theorem Sound.ifNext {k : Bool → Parser α} (yes : Sound (k true) g) (no : Sound (k false) g)
    (property : Token → Bool) : Sound (next property >>= k) g := by
  intro token
  refine SoundFrom.ifNext ?_
  cases token.any property
  · exact no token
  · exact yes token

theorem Sound.fails (fails : ∀ context state value stop, p context state ≠ .ok value stop) :
    Sound p g :=
  fun _ _ _ _ _ _ _ read => (fails _ _ _ _ read).elim

theorem Sound.refused (expected : List Expected) : Sound (Parser.unexpected expected) g :=
  .fails fun _ _ _ _ => nofun

theorem advance_ok (read : advance context state = .ok value stop) :
    stop = ⟨state.lexemes.tail, state.draft⟩ := by
  unfold Parser.advance Parser.settle at read
  split at read <;> cases read
  rfl

theorem SoundFrom.means {k : Unit → Parser β} {Means : Context → Draft → Token → α → Prop}
    (means : ∀ context draft, Means context draft token value) (later : Sound (k ()) (i value)) :
    SoundFrom (some token) (advance >>= k) (terminal Means >>= i) := by
  intro context lexemes journal result stop begins read
  cases lexemes with
  | nil => cases begins
  | cons lexeme lexemes =>
    obtain rfl : lexeme.token = token := Option.some.inj begins
    obtain ⟨inner, middle, part, read⟩ := bind_eq_ok.mp read
    obtain rfl := advance_ok part
    obtain ⟨front, rest, last, split, rfl, derives⟩ := later _ rfl read
    refine ⟨lexeme :: front, rest, last, congrArg (lexeme :: ·) split, rfl, ?_⟩
    exact ⟨[lexeme.token], _, value, journal, rfl, ⟨_, rfl, means .., rfl⟩, derives⟩

theorem SoundFrom.advanced {k : Unit → Parser α} {i : Unit → Phrase α}
    (later : Sound (k ()) (i ())) :
    SoundFrom (some token) (advance >>= k) (exactly token >>= i) := .means (fun _ _ => rfl) later

theorem eatToken_bind (token : Token) (k : Bool → Parser α) :
    eatToken token >>= k =
      next (· = token) >>= fun found => if found then advance >>= fun _ => k true else k false := by
  simp only [eatToken, bind_assoc]
  congr 1
  funext found
  cases found <;> simp

theorem SoundFrom.ifEaten {k : Bool → Parser α} (yes : Sound (k true) g) :
    SoundFrom (some token) (eatToken token >>= k) (do exactly token; g) := by
  have taken : SoundFrom (some token) (advance >>= fun _ => k true) (do exactly token; g) :=
    .advanced yes
  rw [eatToken_bind]
  exact .ifNext (by simpa using taken)

theorem Sound.ifEaten {k : Bool → Parser α} (token : Token) (yes : Sound (k true) g)
    (no : Sound (k false) h) : Sound (eatToken token >>= k) ((do exactly token; g) <|> h) := by
  intro next
  by_cases same : next = some token
  · subst same
    exact .left (.ifEaten yes)
  · have other : next.any (fun t => decide (t = token)) = false := by
      cases next with
      | none => rfl
      | some t => simpa using same
    rw [eatToken_bind]
    refine .ifNext ?_
    rw [other]
    exact no.right next

theorem Sound.eaten (token : Token) :
    Sound (eatToken token) ((do exactly token; return true) <|> return false) := by
  have sound : Sound (eatToken token >>= pure) _ := .ifEaten token (.done true) (.done false)
  rwa [bind_pure] at sound

theorem Sound.expectSign (punct : Punct) : Sound (expect punct) (sign punct) := by
  have sound : Sound (Parser.expect punct) ((do exactly (.punct punct); pure ()) <|> failure) :=
    Sound.ifEaten (.punct punct) (.done ()) (.refused _)
  refine sound.weaken fun context tokens journal value later derives => ?_
  rcases derives with ⟨front, _, _, _, rfl, derives, rfl, -, rfl⟩ | impossible
  · rwa [List.append_nil]
  · exact impossible.elim

theorem Sound.whenNext (sound : Sound p g) (property : Token → Bool) :
    Sound (whenNext property p) (optional g) :=
  .ifNext (sound.bind fun value => .done (some value)).left (Sound.done none).right property

/-- Repeated parts, up to one that ends them. There are no more parts than tokens. -/
theorem Sound.upTo {step : Parser (Option α)} {stop : Phrase Unit}
    (sound : Sound step (some <$> g <|> (fun _ => none) <$> stop)) (opens : Opens g property)
    (enough : lexemes.length < bound)
    (read : Parser.collectUpTo step bound collected context ⟨lexemes, Journal.draft journal⟩ =
      .ok values last) :
    (∃ before, step context before = .ok none last) ∧
    ∃ front rest later tail, lexemes = front ++ rest ∧ last = ⟨rest, Journal.draft later⟩ ∧
      values = collected.reverse ++ tail ∧
      (do let tail ← many g; stop; return tail : Phrase (List α)).Derives context
        (front.map Lexeme.token) journal tail later := by
  induction bound generalizing collected lexemes journal with
  | zero => omega
  | succ bound ih =>
    obtain ⟨answer, middle, part, read⟩ := bind_eq_ok.mp read
    obtain ⟨front, rest, between, rfl, rfl, derives⟩ := sound _ rfl part
    cases answer with
    | none =>
      cases read
      refine ⟨⟨_, part⟩, front, rest, between, [], rfl, rfl, by simp, ?_⟩
      rcases derives with first | ended
      · obtain ⟨value, impossible, -⟩ := of_derives_map first
        cases impossible
      · obtain ⟨_, -, ended⟩ := of_derives_map ended
        exact ⟨[], _, [], journal, rfl, .done, _, [], _, between, by simp, ended, rfl, rfl, rfl⟩
    | some value =>
      rcases derives with first | ended
      case inr =>
        obtain ⟨-, impossible, -⟩ := of_derives_map ended
        cases impossible
      case inl =>
        obtain ⟨_, same, first⟩ := of_derives_map first
        cases same
        obtain ⟨token, more, some, -⟩ := opens first
        have size := congrArg List.length some
        rw [List.length_map, List.length_cons] at size
        rw [List.length_append] at enough
        obtain ⟨stopped, front', rest, later, tail, rfl, rfl, rfl, derives⟩ := ih (by omega) read
        refine ⟨stopped, front ++ front', rest, later, value :: tail, by simp, rfl, by simp, ?_⟩
        obtain ⟨items, last, values, middle, split, repeats, ended⟩ := derives
        obtain ⟨stopped, nothing, _, later, rfl, ended, rfl, rfl, rfl⟩ := ended
        rw [List.map_append, split, ← List.append_assoc]
        exact ⟨_, _, _, _, rfl, .more first repeats, _, _, _, _, rfl, ended, rfl, rfl, rfl⟩

theorem Sound.collectUntil {step : Parser (Option α)} {stop : Phrase Unit}
    (sound : Sound step (some <$> g <|> (fun _ => none) <$> stop)) (opens : Opens g property) :
    Sound (collect step) (do let values ← many g; stop; return values) := by
  intro next context lexemes journal values last begins read
  obtain ⟨-, front, rest, later, tail, split, ends, rfl, derives⟩ :=
    Sound.upTo sound opens (Nat.lt_succ_self _) read
  exact ⟨front, rest, later, split, ends, derives⟩

theorem optional_eq : optional g = (some <$> g <|> (fun _ => none) <$> pure ()) := by
  rw [map_pure]
  rfl

theorem many_eq : (many g >>= fun values => (pure () : Phrase Unit) >>= fun _ => pure values) =
    many g := by
  simp only [pure_bind, bind_pure]

/-- Repeated parts that no part ends. -/
theorem Sound.collectMany {step : Parser (Option α)} (sound : Sound step (optional g))
    (opens : Opens g property) : Sound (Parser.collect step) (many g) := by
  rw [optional_eq] at sound
  rw [← many_eq]
  exact sound.collectUntil opens

/-- Where a part begins there is at least one. -/
theorem SoundFrom.collectSeveral {step : Parser (Option α)}
    (begins : SoundFrom token step (some <$> g)) (sound : Sound step (optional g))
    (opens : Opens g property) :
    SoundFrom token (collect step) (several g) := by
  intro context lexemes journal values last starts read
  obtain ⟨answer, middle, part, read⟩ := bind_eq_ok.mp read
  obtain ⟨front, rest, between, rfl, rfl, derives⟩ := begins starts part
  obtain ⟨value, rfl, first⟩ := of_derives_map derives
  obtain ⟨token, more, some, -⟩ := opens first
  have size := congrArg List.length some
  rw [optional_eq] at sound
  obtain ⟨-, front', rest, later, tail, rfl, rfl, rfl, derives⟩ :=
    Sound.upTo sound opens (by simp at size ⊢; omega) read
  rw [many_eq] at derives
  refine ⟨front ++ front', rest, later, (List.append_assoc ..).symm, rfl, ?_⟩
  rw [List.map_append]
  exact ⟨_, _, value, between, rfl, first, derives_map derives⟩

end ShExCompact.Reading
