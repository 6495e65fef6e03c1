import ShExCompact.Proofs.Reading.Soundness

/-! A parser reads what a phrase derives, before every token that may follow. The parsers decide by
the next token, so the first tokens of phrases are described along with their completeness. -/
namespace ShExCompact.Reading

open ShExCompact.Parser (next eat eatToken eatKeyword expect advance peek collect collectUpTo
  whenNext)
open Phrase (sign word mark markWord exactly many terminal)

variable {p : Parser α} {k : α → Parser β} {g h : Phrase α} {i : α → Phrase β}
  {follow first : Option Token → Prop}

/-- A parser reads what a phrase derives, if a token that may follow comes after it. -/
def Complete (parser : Parser α) (phrase : Phrase α) (follow : Option Token → Prop) : Prop :=
  ∀ ⦃context front rest journal value later⦄, Context.problem context = none →
    phrase.Derives context (front.map Lexeme.token) journal value later →
    follow (rest.head?.map Lexeme.token) →
    parser context ⟨front ++ rest, journal.draft⟩ = .ok value ⟨rest, later.draft⟩

theorem head_append (front rest : List Lexeme) :
    (front ++ rest).head?.map Lexeme.token =
      (front.map Lexeme.token).head?.or (rest.head?.map Lexeme.token) := by
  cases front <;> rfl

theorem Complete.mono {wide : Option Token → Prop} (complete : Complete p g wide)
    (inside : ∀ next, follow next → wide next) : Complete p g follow :=
  fun _ _ _ _ _ _ calm derives follows => complete calm derives (inside _ follows)

theorem Complete.of_included (complete : Complete p g follow) (included : Included h g) :
    Complete p h follow :=
  fun _ _ _ _ _ _ calm derives follows => complete calm (included derives) follows

theorem Complete.never : Complete p failure follow := by
  rintro context front rest journal value later calm impossible -
  exact impossible.elim

theorem Complete.done (value : α) : Complete (pure value) (pure value) follow := by
  rintro context front rest journal result later calm ⟨nothing, rfl, rfl⟩ -
  obtain rfl := List.map_eq_nil_iff.mp nothing
  rfl

theorem Complete.bind {between : Option Token → Prop} (complete : Complete p g between)
    (leads : ∀ value, Leads (i value) follow between)
    (later : ∀ value, Complete (k value) (i value) follow) :
    Complete (p >>= k) (g >>= i) follow := by
  rintro context front rest journal result last calm
    ⟨start, goesOn, value, middle, split, derives, derives'⟩ follows
  obtain ⟨front, tail, rfl, rfl, rfl⟩ := List.map_eq_append_iff.mp split
  have head := leads value derives' follows
  refine bind_eq_ok.mpr ⟨value, ⟨tail ++ rest, middle.draft⟩, ?_, later value calm derives' follows⟩
  rw [List.append_assoc]
  refine complete calm derives ?_
  cases tail with
  | nil => exact head
  | cons lexeme tail => exact head

/-- A part that reads nothing where a phrase begins. -/
theorem Complete.skipped {k : α → Parser β} {g : Phrase β} (nothing : Complete p (pure value) first)
    (leads : Leads g follow first) (later : Complete (k value) g follow) :
    Complete (p >>= k) g follow := by
  intro context front rest journal result last calm derives follows
  have head := leads derives follows
  rw [← head_append] at head
  have skipped := @nothing context [] (front ++ rest) journal _ _ calm ⟨rfl, rfl, rfl⟩ head
  exact bind_eq_ok.mpr ⟨value, _, skipped, later calm derives follows⟩

/-- A part that anything may follow. -/
theorem Complete.then (complete : Complete p g Any)
    (later : ∀ value, Complete (k value) (i value) follow) :
    Complete (p >>= k) (g >>= i) follow :=
  complete.bind (fun _ => .any) later

/-- A part whose value is changed afterwards. -/
theorem Complete.result (complete : Complete p g follow) (f : α → β) :
    Complete (p >>= fun value => pure (f value)) (g >>= fun value => pure (f value)) follow :=
  complete.bind (fun _ => .done fun _ follows => follows) fun value => .done (f value)

theorem Complete.map (complete : Complete p g follow) (f : α → β) :
    Complete (f <$> p) (f <$> g) follow := by
  rw [map_eq_pure_bind]
  exact complete.result f

theorem Complete.orElse (left : Complete p g follow) (right : Complete p h follow) :
    Complete p (g <|> h) follow := by
  rintro context front rest journal value later calm (derives | derives) follows
  · exact left calm derives follows
  · exact right calm derives follows

theorem Complete.terminal {Means : Context → Draft → Token → α → Prop}
    (reads : ∀ context lexeme rest draft value, Context.problem context = none →
      Means context draft lexeme.token value →
      p context ⟨lexeme :: rest, draft⟩ = .ok value ⟨rest, draft⟩) :
    Complete p (terminal Means) follow := by
  rintro context front rest journal value later calm ⟨token, single, means, rfl⟩ -
  obtain ⟨lexeme, front, rfl, rfl, nothing⟩ := List.map_eq_cons_iff.mp single
  obtain rfl := List.map_eq_nil_iff.mp nothing
  exact reads _ _ _ _ _ calm means

theorem advance_eq (calm : Context.problem context = none) (lexeme : Lexeme) (rest : List Lexeme)
    (draft : Draft) : advance context ⟨lexeme :: rest, draft⟩ = .ok () ⟨rest, draft⟩ := by
  unfold Parser.advance Parser.settle
  rw [calm]
  cases rest <;> rfl

theorem Complete.advanced {k : Unit → Parser α} {i : Unit → Phrase α}
    (later : Complete (k ()) (i ()) follow) :
    Complete (advance >>= k) (exactly token >>= i) follow :=
  .then (.terminal fun _ lexeme rest draft _ calm _ => advance_eq calm lexeme rest draft)
    fun _ => later

theorem Complete.peeked {k : Option Token → Parser α} (leads : Leads g follow first)
    (complete : ∀ next, first next → Complete (k next) g follow) :
    Complete (peek >>= k) g follow := by
  intro context front rest journal value later calm derives follows
  have head := leads derives follows
  change k ((front ++ rest).head?.map Lexeme.token) context _ = _
  rw [head_append]
  exact complete _ head calm derives follows

theorem Complete.means {k : Option Token → Parser β} {Means : Context → Draft → Token → α → Prop}
    (reads : ∀ context draft token value, Means context draft token value →
      ∃ parser : Parser β, k (some token) = (advance >>= fun _ => parser) ∧
        Complete parser (i value) follow) :
    Complete (peek >>= k) (Phrase.terminal Means >>= i) follow := by
  rintro context front rest journal result later calm
    ⟨_, tokens, value, _, split, ⟨token, rfl, means, rfl⟩, derives⟩ follows
  obtain ⟨lexeme, front, rfl, rfl, rfl⟩ := List.map_eq_cons_iff.mp split
  obtain ⟨parser, begins, complete⟩ := reads _ _ _ _ means
  change k (some lexeme.token) context _ = _
  rw [begins]
  exact bind_eq_ok.mpr ⟨(), _, advance_eq calm .., complete calm derives follows⟩

theorem Complete.ifNext {k : Bool → Parser α} {property : Token → Bool} (answer : Bool)
    (leads : Leads g follow fun next => next.any property = answer)
    (complete : Complete (k answer) g follow) : Complete (next property >>= k) g follow := by
  have looked : next property >>= k = peek >>= fun next => k (next.any property) := rfl
  rw [looked]
  exact .peeked leads fun next same => same ▸ complete

theorem Complete.ifEaten {k : Bool → Parser α} (complete : Complete (k true) g follow) :
    Complete (eatToken token >>= k) (do exactly token; g) follow := by
  rw [eatToken_bind]
  exact .ifNext true (.then (.exactly (by simp))) (.advanced complete)

theorem Complete.unlessEaten {k : Bool → Parser α} (leads : Leads g follow (· ≠ some token))
    (complete : Complete (k false) g follow) : Complete (eatToken token >>= k) g follow := by
  rw [eatToken_bind]
  refine .ifNext false (leads.imp fun next other => ?_) complete
  cases next with
  | none => rfl
  | some t => simpa using other

theorem Complete.eaten (token : Token) :
    Complete (eatToken token) ((do exactly token; return true) <|> return false)
      (· ≠ some token) := by
  have taken : Complete (eatToken token >>= pure) (do exactly token; return true)
      (· ≠ some token) := .ifEaten (.done true)
  have left : Complete (eatToken token >>= pure) (return false) (· ≠ some token) :=
    .unlessEaten (.done fun _ other => other) (.done false)
  have complete := taken.orElse left
  rwa [bind_pure] at complete

theorem Complete.whenSome {property : Token → Bool} (complete : Complete p g follow)
    (opens : Opens g (property · = true)) : Complete (whenNext property p) (some <$> g) follow := by
  refine .ifNext true (opens.leads.map.imp fun next starts => ?_) (complete.map some)
  cases next with
  | none => exact starts.elim
  | some token => exact starts

theorem Complete.whenNone (property : Token → Bool) :
    Complete (whenNext property p) (pure none) fun next => next.any property = false :=
  .ifNext false (.done fun _ other => other) (.done none)

theorem Complete.expectSign (punct : Punct) : Complete (expect punct) (sign punct) follow := by
  have complete : Complete (expect punct) (do exactly (.punct punct); pure ()) follow :=
    .ifEaten (.done ())
  intro context front rest journal value later calm derives follows
  refine complete calm ?_ follows
  exact ⟨_, [], (), later, (List.append_nil _).symm, derives, rfl, rfl, rfl⟩

theorem Complete.upTo {step : Parser (Option α)} {stop : Phrase Unit}
    {between : Option Token → Prop} (part : Complete step (some <$> g) between)
    (ending : Complete step ((fun _ => none) <$> stop) follow)
    (leads : Leads g between between) (leads' : Leads stop follow between)
    (opens : Opens g property) (calm : Context.problem context = none)
    (repeats : (many g).Derives context tokens journal values middle)
    (ended : stop.Derives context (last.map Lexeme.token) middle () later)
    (follows : follow (rest.head?.map Lexeme.token)) (split : items.map Lexeme.token = tokens)
    (enough : items.length < bound) :
    collectUpTo step bound collected context ⟨items ++ (last ++ rest), journal.draft⟩ =
      .ok (collected.reverse ++ values) ⟨rest, later.draft⟩ := by
  have before := leads' ended follows
  rw [← head_append] at before
  change g.Repeats context tokens journal values middle at repeats
  induction repeats generalizing items collected bound with
  | done =>
    obtain rfl := List.map_eq_nil_iff.mp split
    obtain ⟨bound, rfl⟩ := Nat.exists_eq_succ_of_ne_zero (Nat.ne_of_gt enough)
    have stopped := ending calm (derives_map ended) follows
    refine bind_eq_ok.mpr ⟨none, _, stopped, ?_⟩
    rw [List.append_nil]
    rfl
  | @more front journal value between' tail values middle start others ih =>
    obtain ⟨items, more, rfl, rfl, rfl⟩ := List.map_eq_append_iff.mp split
    obtain ⟨bound, rfl⟩ : ∃ n, bound = n + 1 := ⟨bound - 1, by omega⟩
    obtain ⟨token, _, some, -⟩ := opens start
    have size := congrArg List.length some
    rw [List.length_map, List.length_cons] at size
    rw [List.length_append] at enough
    have continued : Leads (many g) between between := .many leads fun _ follows => follows
    have head := continued others before
    rw [← head_append] at head
    have taken := part calm (derives_map start) head
    refine bind_eq_ok.mpr ⟨_, _, by rwa [List.append_assoc], ?_⟩
    have fewer : more.length < bound := by omega
    have remaining : collectUpTo step bound (value :: collected) context _ = _ :=
      ih ended rfl fewer
    simpa using remaining

/-- Repeated parts, up to one that ends them. -/
theorem Complete.collectUntil {step : Parser (Option α)} {stop : Phrase Unit}
    {between : Option Token → Prop} (part : Complete step (some <$> g) between)
    (ending : Complete step ((fun _ => none) <$> stop) follow)
    (leads : Leads g between between) (leads' : Leads stop follow between)
    (opens : Opens g property) :
    Complete (collect step) (do let values ← many g; stop; return values) follow := by
  rintro context front rest journal value later calm
    ⟨tokens, others, values, middle, split, repeats, tokens', nothing, _, _, rfl, ended, rfl, rfl,
      rfl⟩ follows
  obtain ⟨items, tail, rfl, rfl, whole⟩ := List.map_eq_append_iff.mp split
  rw [List.append_nil] at whole
  rw [← whole] at ended
  rw [List.append_assoc]
  have enough : items.length < (items ++ (tail ++ rest)).length + 1 := by
    rw [List.length_append]
    omega
  exact Complete.upTo part ending leads leads' opens calm repeats ended follows rfl enough

/-- Repeated parts that no part ends. -/
theorem Complete.collectMany {step : Parser (Option α)} {between : Option Token → Prop}
    (part : Complete step (some <$> g) between) (ending : Complete step (pure none) follow)
    (leads : Leads g between between) (inside : ∀ next, follow next → between next)
    (opens : Opens g property) : Complete (collect step) (many g) follow := by
  have ended : Complete step ((fun _ => none) <$> pure ()) follow := by rwa [map_pure]
  rw [← many_eq]
  exact .collectUntil part ended leads (.done inside) opens

end ShExCompact.Reading
