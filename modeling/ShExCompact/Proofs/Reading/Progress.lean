import ShExCompact.Proofs.Reading.Problems
import ShExCompact.Proofs.Reading.Traced

/-! The parser of documents gets on. Whatever tokens there are, each round of a loop uses up a
token, and so does whatever leads back to a part of the grammar that is still being read; no token
is read twice. What a call may lead to is measured by the tokens that are left and, while they are
the same, by the rank of the part of the grammar. -/
namespace ShExCompact

/-! ### Calls -/

/-- A part of the grammar that is called while no token has been used up has a lower rank. -/
def Production.rank : Production → Nat
  | oneOf => 9
  | someOf => 8
  | group => 7
  | unary => 6
  | constraint => 5
  | valueClass => 4
  | shapeRef => 3
  | shapeOrRef => 2
  | definition => 1

theorem Production.rank_le (production : Production) : production.rank ≤ oneOf.rank := by
  cases production <;> exact Nat.le_of_ble_eq_true rfl

theorem Production.rank_pos (production : Production) : 0 < production.rank := by
  cases production <;> exact Nat.succ_pos _

/-- With so many tokens left, calls up to a rank are below the calls that have not ended. -/
def Under (calls : List Call) (left rank : Nat) : Prop :=
  ∀ earlier ∈ calls, left < earlier.left ∨ left = earlier.left ∧ rank < earlier.production.rank

namespace Under

theorem fewer (under : Under calls left rank) (less : left' < left) : Under calls left' rank' := by
  intro earlier member
  rcases under earlier member with below | ⟨same, -⟩ <;> omega

theorem mono (under : Under calls left rank) (le : left' ≤ left) (lower : rank' ≤ rank) :
    Under calls left' rank' := by
  intro earlier member
  rcases under earlier member with below | ⟨same, below⟩ <;> omega

/-- What is called in a call has a lower rank. -/
theorem within (under : Under calls left (Production.rank production)) :
    Under (⟨production, left⟩ :: calls) left (production.rank - 1) :=
  List.forall_mem_cons.mpr ⟨.inr ⟨rfl, Nat.sub_one_lt_of_lt production.rank_pos⟩,
    under.mono (Nat.le_refl _) (Nat.sub_le ..)⟩

/-- Calls of one part of the grammar have the same rank, so they differ in the tokens left. -/
theorem right (under : Under calls left (Production.rank production)) :
    (Event.called ⟨production, left⟩ calls).Right := by
  rintro ⟨earlier, before⟩ member same
  rcases under _ member with fewer | ⟨-, below⟩
  · exact fewer
  · exact absurd (congrArg Production.rank same) (Nat.ne_of_gt below)

end Under

namespace Traced

open ShExCompact.Parser (peek next)
open Reading (bind_eq ending)

/-! ### Traces -/

/-- A trace up to a state: what was noted is right, and the steps have found the tokens that are
used up and the next one. -/
structure Sound (all : List Lexeme) (trace : Trace) : Prop where
  right : ∀ event ∈ trace.events, event.Right
  once : trace.fetched ++ (stream trace.state.lexemes).tail = stream all

theorem stream_eq (lexemes : List Lexeme) :
    stream lexemes = lexemes.head? :: (stream lexemes).tail := by
  cases lexemes <;> rfl

theorem fetched_found (state : State) (found : Option Lexeme) (events : List Event) :
    Trace.fetched ⟨state, .fetched found :: events⟩ = Trace.fetched ⟨state, events⟩ ++ [found] :=
  List.reverse_cons

namespace Sound

theorem noted (sound : Sound all ⟨state, events⟩) (right : Event.Right event)
    (other : event.found? = none) : Sound all ⟨state, event :: events⟩ where
  right := List.forall_mem_cons.mpr ⟨right, sound.right⟩
  once := by
    have same : Trace.fetched ⟨state, event :: events⟩ = Trace.fetched ⟨state, events⟩ :=
      congrArg List.reverse (List.filterMap_cons_none other)
    rw [same]
    exact sound.once

/-- The token that comes next has been found already, so a step over it finds the one behind it. -/
theorem stepped (sound : Sound all ⟨⟨lexeme :: rest, draft⟩, events⟩) :
    Sound all ⟨⟨rest, draft⟩, .fetched rest.head? :: events⟩ where
  right := List.forall_mem_cons.mpr ⟨trivial, sound.right⟩
  once := by
    rw [fetched_found, List.append_assoc, List.singleton_append, ← stream_eq]
    exact sound.once

theorem moved (sound : Sound all ⟨state, events⟩)
    (same : State.lexemes state' = state.lexemes) : Sound all ⟨state', events⟩ where
  right := sound.right
  once := by
    change Trace.fetched ⟨state, events⟩ ++ (stream state'.lexemes).tail = _
    rw [same]
    exact sound.once

end Sound

/-- The same outcome with a sound trace. Behind a value as many tokens are left as before or fewer;
for the values for which a token must have been used up, fewer. -/
inductive Agrees (all : List Lexeme) (before : Nat) (used : α → Bool) :
    EStateM.Result Problem Trace α → EStateM.Result Problem State α → Prop where
  | ok (sound : Sound all ⟨state, events⟩)
      (fewer : state.lexemes.length + (used value).toNat ≤ before) :
      Agrees all before used (.ok value ⟨state, events⟩) (.ok value state)
  | error (sound : Sound all ⟨state, events⟩) :
      Agrees all before used (.error problem ⟨state, events⟩) (.error problem state)

theorem Agrees.mono (agrees : Agrees all before used traced outcome)
    (less : ∀ value, before + (used' value).toNat ≤ before' + (used value).toNat) :
    Agrees all before' used' traced outcome := by
  cases agrees with
  | @ok _ _ value sound fewer =>
    have := less value
    exact .ok sound (by omega)
  | error sound => exact .error sound

/-- For no value a token must have been used up. -/
abbrev nothing : α → Bool := fun _ => false

/-- A parser with a trace does what a parser does, where calls up to a rank may be made and the next
token is as demanded; for some values it uses up a token. -/
def Progresses (rank : Nat) (start : Option Token → Prop) (used : α → Bool) (p : Traced α)
    (q : Parser α) : Prop :=
  ∀ ⦃context calls more all state events⦄, Under calls state.lexemes.length rank →
    start (state.lexemes.head?.map Lexeme.token) → Sound all ⟨state, events⟩ →
    Agrees all state.lexemes.length used (p ⟨context, calls, more⟩ ⟨state, events⟩)
      (q context state)

/-- The rank up to which any call may be made. -/
abbrev highest : Nat := Production.oneOf.rank

/-- Any token may come next, or none. -/
abbrev Anything : Option Token → Prop := fun _ => True

/-- Some token comes next. -/
abbrev Something : Option Token → Prop := fun next => next ≠ none

/-- A parser that steps over no token. -/
def Still (q : Parser α) : Prop :=
  ∀ context state, (ending (q context state)).lexemes = state.lexemes

/-- A parser that always stops where it is. -/
def Stops (q : Parser α) : Prop :=
  ∀ context state, ∃ problem, q context state = .error problem state

namespace Still

theorem bind {q : Parser α} {j : α → Parser β} (first : Still q)
    (later : ∀ value, Still (j value)) : Still (q >>= j) := by
  intro context state
  have here := first context state
  rw [bind_eq]
  cases part : q context state with
  | ok value middle =>
    rw [part] at here
    exact (later value context middle).trans here
  | error problem stop =>
    rw [part] at here
    exact here

theorem done (value : α) : Still (pure value) := fun _ _ => rfl

theorem absolute (text : String) : Still (Parser.absolute text) := by
  intro context state
  rw [Reading.absolute_eq]
  cases context.check text <;> rfl

theorem expand (space localPart : String) : Still (Parser.expand space localPart) := by
  refine .bind (fun _ _ => rfl) fun draft => ?_
  cases draft.expand? space localPart with
  | some text => exact .absolute text
  | none => exact fun _ _ => rfl

theorem bound (digits : List Char) : Still (Parser.bound digits) := by
  unfold Parser.bound
  cases Numeral.uint32? (String.ofList digits) <;> exact fun _ _ => rfl

theorem range (lexeme : String) : Still (Parser.range lexeme) := by
  unfold Parser.range
  rcases Parser.rangeBounds lexeme with ⟨least, greatest⟩
  cases greatest with
  | none => exact .bind (.bound least) fun _ => .done _
  | some greatest => exact .bind (.bound least) fun _ => .bind (.bound greatest) fun _ => .done _

theorem declare (change : Draft → Draft) : Still (Parser.declare change) := fun _ _ => rfl

theorem declareInline (shape : Shape) : Still (Parser.declareInline shape) := fun _ _ => rfl

theorem settle : Still Parser.settle :=
  fun context state => congrArg State.lexemes (Reading.ending_settle context state)

end Still

theorem Stops.unexpected (expected : List Expected) :
    Stops (Parser.unexpected expected : Parser α) := fun _ _ => ⟨_, rfl⟩

theorem Stops.object (objection : Objection) :
    Stops (Parser.object objection : Parser α) := fun _ _ => ⟨_, rfl⟩

namespace Progresses

variable {rank : Nat} {start start' : Option Token → Prop} {used : α → Bool}
  {used' : β → Bool} {p p' : Traced α} {q q' : Parser α} {k : α → Traced β} {j : α → Parser β}

theorem starting (progresses : Progresses rank start used p q)
    (implies : ∀ next, start' next → start next) : Progresses rank start' used p q :=
  fun _ _ _ _ _ _ under begins sound => progresses under (implies _ begins) sound

theorem done (unused : used value = false) : Progresses rank start used (pure value) (pure value) :=
  fun _ _ _ _ _ _ _ _ sound => .ok sound (by rw [unused]; exact Nat.le_refl _)

theorem unused (progresses : Progresses rank start used p q) : Progresses rank start nothing p q :=
  fun _ _ _ _ _ _ under begins sound => (progresses under begins sound).mono fun _ =>
    Nat.add_le_add_left (Nat.zero_le _) _

theorem look (still : Still q) : Progresses rank start nothing (Traced.look q) q := by
  intro context calls more all state events _ _ sound
  have here := still context state
  unfold Traced.look
  dsimp only
  cases part : q context state with
  | ok value stop =>
    rw [part] at here
    exact .ok (sound.moved here) (Nat.le_of_eq (congrArg List.length here))
  | error problem stop =>
    rw [part] at here
    exact .error (sound.moved here)

theorem stop (stops : Stops q) : Progresses rank start used (Traced.look q) q := by
  intro context calls more all state events _ _ sound
  obtain ⟨problem, same⟩ := stops context state
  unfold Traced.look
  dsimp only
  rw [same]
  exact .error sound

/-- Where a token was used up, calls of any rank may follow. -/
theorem after {f : α → Bool} (first : Progresses rank start f p q)
    (later : ∀ value, f value = true → Progresses highest Anything nothing (k value) (j value))
    (kept : ∀ value, f value = false → Progresses rank Anything used' (k value) (j value)) :
    Progresses rank start used' (p >>= k) (q >>= j) := by
  intro context calls more all state events under begins sound
  have agrees := @first context calls more all state events under begins sound
  rw [bind_eq, bind_eq]
  generalize p ⟨context, calls, more⟩ ⟨state, events⟩ = traced at agrees ⊢
  generalize q context state = outcome at agrees ⊢
  cases agrees with
  | @ok middle _ value sound' fewer =>
    cases consumed : f value with
    | true =>
      rw [consumed] at fewer
      refine (later value consumed (under.fewer (Nat.lt_of_succ_le fewer)) trivial sound').mono
        fun result => ?_
      exact Nat.le_trans (Nat.add_le_add_left (Bool.toNat_le _) _) fewer
    | false =>
      rw [consumed] at fewer
      refine (kept value consumed (under.mono fewer (Nat.le_refl _)) trivial sound').mono
        fun result => ?_
      exact Nat.add_le_add_right fewer _
  | error sound' => exact .error sound'

theorem bind (first : Progresses rank start nothing p q)
    (later : ∀ value, Progresses rank Anything used' (k value) (j value)) :
    Progresses rank start used' (p >>= k) (q >>= j) :=
  .after first nofun fun value _ => later value

theorem past (first : Progresses rank start (fun _ => true) p q)
    (later : ∀ value, Progresses highest Anything nothing (k value) (j value)) :
    Progresses rank start used' (p >>= k) (q >>= j) :=
  .after first (fun value _ => later value) nofun

/-- It may depend on an answer how the parsers go on. -/
theorem answered {p : Traced (Option α)} {q : Parser (Option α)} {k : Option α → Traced β}
    {j : Option α → Parser β} (first : Progresses rank start Option.isSome p q)
    (found : ∀ value, Progresses highest Anything nothing (k (some value)) (j (some value)))
    (missing : Progresses rank Anything used' (k none) (j none)) :
    Progresses rank start used' (p >>= k) (q >>= j) := by
  refine .after first (fun answer some => ?_) (fun answer none => ?_)
  · obtain ⟨value, rfl⟩ := Option.isSome_iff_exists.mp some
    exact found value
  · obtain rfl := Option.isSome_eq_false_iff.mp none |> Option.isNone_iff_eq_none.mp
    exact missing

theorem map (first : Progresses rank start (fun _ => true) p q) (f : α → β) :
    Progresses rank start used' (f <$> p) (f <$> q) :=
  .past first fun _ => .done rfl

theorem ite {c : Prop} [Decidable c] (yes : Progresses rank start used p q)
    (no : Progresses rank start used p' q') :
    Progresses rank start used (if c then p else p') (if c then q else q') := by
  split
  · exact yes
  · exact no

/-- A look leaves the next token as it is. -/
theorem looked (still : Still q)
    (later : ∀ value, Progresses rank start used' (k value) (j value)) :
    Progresses rank start used' (Traced.look q >>= k) (q >>= j) := by
  intro context calls more all state events under begins sound
  have here := still context state
  rw [bind_eq, bind_eq]
  unfold Traced.look
  dsimp only
  cases part : q context state with
  | ok value middle =>
    rw [part] at here
    rw [← here] at under begins ⊢
    exact later value under begins (sound.moved here)
  | error problem stop =>
    rw [part] at here
    exact .error (sound.moved here)

/-- Nothing follows where a parser always stops. -/
theorem stopped (stops : Stops q) :
    Progresses rank start used' (Traced.look q >>= k) (q >>= j) := by
  intro context calls more all state events _ _ sound
  obtain ⟨problem, same⟩ := stops context state
  rw [bind_eq, bind_eq]
  unfold Traced.look
  dsimp only
  rw [same]
  exact .error sound

/-! ### Tokens -/

theorem peeked_as {k : Option Token → Traced β} {j : Option Token → Parser β}
    (each : ∀ token, Progresses rank (· = token) used' (k token) (j token)) :
    Progresses rank start used' (Traced.look peek >>= k) (peek >>= j) :=
  fun _ _ _ _ state _ under _ sound => each (state.lexemes.head?.map Lexeme.token) under rfl sound

theorem peeked {k : Option Token → Traced β} {j : Option Token → Parser β}
    (found : ∀ token, Progresses rank Something used' (k (some token)) (j (some token)))
    (missing : Progresses rank (· = none) used' (k none) (j none)) :
    Progresses rank start used' (Traced.look peek >>= k) (peek >>= j) := by
  refine .peeked_as fun token => ?_
  cases token with
  | some token => exact (found token).starting fun _ same => by rintro rfl; cases same
  | none => exact missing

theorem asked (property : Token → Bool)
    (yes : Progresses rank (·.any property = true) used p q)
    (no : Progresses rank (fun next => start next ∧ next.any property = false) used p' q') :
    Progresses rank start used
      (Traced.look (next property) >>= fun answer => if answer = true then p else p')
      (next property >>= fun answer => if answer = true then q else q') := by
  intro context calls more all state events under begins sound
  change Agrees _ _ _
    ((if (state.lexemes.head?.map Lexeme.token).any property = true then p else p') _ _)
    ((if (state.lexemes.head?.map Lexeme.token).any property = true then q else q') _ _)
  split
  next holds => exact yes under holds sound
  next fails => exact no under ⟨begins, Bool.eq_false_iff.mpr fails⟩ sound

theorem advance {used : Unit → Bool} :
    Progresses rank Something used Traced.advance Parser.advance := by
  intro context calls more all ⟨lexemes, draft⟩ events under begins sound
  cases lexemes with
  | nil => exact (begins rfl).elim
  | cons lexeme rest =>
    have settled : Progresses rank Anything nothing (Traced.look Parser.settle) Parser.settle :=
      .look .settle
    refine (settled (under.mono (Nat.le_succ _) (Nat.le_refl _)) trivial sound.stepped).mono
      fun value => ?_
    exact Nat.add_le_add_left (Bool.toNat_le _) _

theorem advanced {k : Unit → Traced β} {j : Unit → Parser β}
    (later : Progresses highest Anything nothing (k ()) (j ())) :
    Progresses rank Something used' (Traced.advance >>= k) (Parser.advance >>= j) :=
  .past .advance fun _ => later

theorem something_of_any {property : Token → Bool} (next : Option Token)
    (holds : next.any property = true) : Something next := by
  rintro rfl
  cases holds

theorem eatToken (token : Token) :
    Progresses rank start id (Traced.eatToken token) (Parser.eatToken token) :=
  .asked _ (.starting (.advanced (.done rfl)) something_of_any) (.done rfl)

/-- A token that is known to come next is eaten. -/
theorem eatToken_next (token : Token) : Progresses rank (·.any (· = token) = true) (fun _ => true)
    (Traced.eatToken token) (Parser.eatToken token) :=
  .asked _ (.starting (.advanced (.done rfl)) something_of_any)
    fun _ _ _ _ _ _ _ begins _ => Bool.noConfusion (begins.1.symm.trans begins.2)

theorem eaten {token : Token} (yes : Progresses highest Anything nothing p q)
    (no : Progresses rank Anything used p' q') : Progresses rank start used
      (Traced.eatToken token >>= fun answer => if answer = true then p else p')
      (Parser.eatToken token >>= fun answer => if answer = true then q else q') :=
  .after (.eatToken token) (fun _ eats => by cases eats; exact yes)
    (fun _ kept => by cases kept; exact no)

theorem expect {used : Unit → Bool} (sign : Punct) :
    Progresses rank start used (Traced.expect sign) (Parser.expect sign) :=
  .eaten (.done rfl) (.stop (.unexpected _))

theorem whenNext (property : Token → Bool)
    (part : Progresses rank (·.any property = true) (fun _ => true) p q) :
    Progresses rank start Option.isSome (Traced.whenNext property p)
      (Parser.whenNext property q) :=
  .asked _ (.past part fun _ => .done rfl) (.done rfl)

theorem afterSign? (sign : Punct) (part : Progresses highest Anything nothing p q) :
    Progresses rank start Option.isSome (Traced.afterSign? sign p) (Parser.afterSign? sign q) :=
  .eaten (.bind part fun _ => .done rfl) (.done rfl)

/-- The next token has to have a property. -/
theorem required (property : Token → Bool) (expected : List Expected)
    (rest : Progresses rank (·.any property = true) used p q) : Progresses rank start used
      (do
        unless ← Traced.look (Parser.next property) do Traced.look (Parser.unexpected expected)
        p)
      (do
        unless ← Parser.next property do Parser.unexpected expected
        q) :=
  .asked _ rest (.stopped (.unexpected _))

/-! ### Calls and loops -/

/-- Up to the next lower rank, calls may be made in a call. -/
theorem call (production : Production) (high : production.rank ≤ rank)
    (part : Progresses (production.rank - 1) start used p q) :
    Progresses rank start used (Traced.call production p) q :=
  fun _ _ _ _ _ _ under begins sound =>
    have under := under.mono (Nat.le_refl _) high
    part under.within begins (sound.noted under.right rfl)

theorem round (part : Progresses rank start (fun _ => true) p q) :
    Progresses rank start used (Traced.round p) q := by
  intro context calls more all state events under begins sound
  have agrees := @part context calls more all state events under begins sound
  change Agrees _ _ _ ((p >>= fun value => Traced.left >>= fun after =>
    note (.round state.lexemes.length after) >>= fun _ => pure value) _ _) _
  rw [bind_eq]
  generalize p ⟨context, calls, more⟩ ⟨state, events⟩ = traced at agrees ⊢
  generalize q context state = outcome at agrees ⊢
  cases agrees with
  | @ok stop _ value sound' fewer =>
    have right : Event.Right (.round state.lexemes.length stop.lexemes.length) := fewer
    exact .ok (sound'.noted right rfl)
      (Nat.le_trans (Nat.add_le_add_left (Bool.toNat_le _) _) fewer)
  | error sound' => exact .error sound'

section

variable {step : Traced (Option α)} {step' : Parser (Option α)}
  (each : Progresses rank Anything Option.isSome step step')

include each

/-- A loop with more rounds than tokens ends by itself. It may be known that the first round goes
on. -/
theorem collectUpTo {begun : Bool} {state : State} (enough : state.lexemes.length < bound)
    (enough' : state.lexemes.length < bound') (under : Under calls state.lexemes.length rank)
    (first : Agrees all state.lexemes.length (fun answer => begun || answer.isSome)
      (step ⟨context, calls, more⟩ ⟨state, events⟩) (step' context state)) :
    Agrees all state.lexemes.length (fun _ => begun)
      (Traced.collectUpTo step bound collected ⟨context, calls, more⟩ ⟨state, events⟩)
      (Parser.collectUpTo step' bound' collected context state) := by
  induction bound generalizing bound' begun collected state events with
  | zero => cases enough
  | succ bound ih =>
    cases bound' with
    | zero => cases enough'
    | succ bound' =>
      unfold Traced.collectUpTo Parser.collectUpTo
      rw [bind_eq]
      dsimp only [Traced.left]
      rw [bind_eq, bind_eq]
      generalize step ⟨context, calls, more⟩ ⟨state, events⟩ = traced at first ⊢
      generalize step' context state = outcome at first ⊢
      cases first with
      | @ok stop _ value sound fewer =>
        cases value with
        | none => exact .ok sound (by rwa [Option.isSome_none, Bool.or_false] at fewer)
        | some value =>
          rw [Option.isSome_some, Bool.or_true] at fewer
          have right : Event.Right (.round state.lexemes.length stop.lexemes.length) := fewer
          have under' := under.mono (Nat.le_of_succ_le fewer) (Nat.le_refl _)
          have first' : Agrees all stop.lexemes.length (fun answer => false || answer.isSome)
              (step ⟨context, calls, more⟩ _) (step' context stop) :=
            each under' trivial (sound.noted right rfl)
          refine (ih (Nat.lt_of_lt_of_le fewer (Nat.le_of_lt_succ enough))
            (Nat.lt_of_lt_of_le fewer (Nat.le_of_lt_succ enough')) under' first').mono fun _ => ?_
          exact Nat.le_trans (Nat.add_le_add_left (Bool.toNat_le _) _) fewer
      | error sound => exact .error sound

theorem collect : Progresses rank start nothing (Traced.collect step) (Parser.collect step') :=
  fun _ _ _ _ _ _ under _ sound => collectUpTo each
    (Nat.lt_of_lt_of_le (Nat.lt_succ_self _) (Nat.le_add_right ..)) (Nat.lt_succ_self _) under
    (each under trivial sound)

/-- A loop uses up a token if its first round does. -/
theorem collect_begun (begins : Progresses rank start (fun _ => true) step step') :
    Progresses rank start (fun _ => true) (Traced.collect step) (Parser.collect step') :=
  fun _ _ _ _ _ _ under starts sound => collectUpTo each
    (Nat.lt_of_lt_of_le (Nat.lt_succ_self _) (Nat.le_add_right ..)) (Nat.lt_succ_self _) under
    (begins under starts sound)

end

/-! ### Terms -/

theorem iri {used : Iri → Bool} : Progresses rank start used Traced.iri Parser.iri := by
  refine .peeked (fun token => ?_) (.stopped (.unexpected _))
  cases token with
  | iriRef text =>
    exact .looked (fun _ _ => rfl) fun _ => .looked (.absolute _) fun _ => .advanced (.done rfl)
  | prefixedName space localPart => exact .looked (.expand _ _) fun _ => .advanced (.done rfl)
  | _ => exact .stopped (.unexpected _)

theorem iriRef {used : String → Bool} : Progresses rank start used Traced.iriRef Parser.iriRef := by
  refine .peeked (fun token => ?_) (.stop (.unexpected _))
  cases token with
  | iriRef text => exact .advanced (.done rfl)
  | _ => exact .stop (.unexpected _)

theorem label {used : Label → Bool} : Progresses rank start used Traced.label Parser.label := by
  refine .peeked (fun token => ?_) (.stop (.unexpected _))
  cases token with
  | blankNode id => exact .advanced (.done rfl)
  | _ => exact .ite (.past .iri fun _ => .done rfl) (.stop (.unexpected _))

theorem predicate {used : Iri → Bool} :
    Progresses rank start used Traced.predicate Parser.predicate :=
  .eaten (.done rfl) (.asked _ .iri (.stop (.unexpected _)))

theorem string {used : String → Bool} :
    Progresses rank start used Traced.string Parser.string := by
  refine .peeked (fun token => ?_) (.stop (.unexpected _))
  cases token with
  | string raw width =>
    dsimp only
    cases Escape.decodeString raw width with
    | ok value => exact .advanced (.done rfl)
    | error flaw =>
      exact .looked (fun _ _ => rfl) fun _ =>
        .ite (.stopped fun _ _ => ⟨_, rfl⟩) (.advanced (.done rfl))
  | _ => exact .stop (.unexpected _)

theorem integer {convert : String → Option α} :
    Progresses rank start used (Traced.integer convert) (Parser.integer convert) := by
  refine .peeked (fun token => ?_) (.stop (.unexpected _))
  cases token with
  | integer lexeme =>
    dsimp only
    cases convert lexeme with
    | some value => exact .advanced (.done rfl)
    | none => exact .stopped (.object _)
  | _ => exact .stop (.unexpected _)

theorem literalSuffix :
    Progresses rank start nothing Traced.literalSuffix Parser.literalSuffix := by
  refine .peeked (fun token => ?_) (.done rfl)
  cases token with
  | language tag => exact .advanced (.done rfl)
  | punct sign =>
    cases sign with
    | doubleCaret => exact .advanced (.past .iri fun _ => .done rfl)
    | _ => exact .done rfl
  | _ => exact .done rfl

theorem literal {used : String → Bool} :
    Progresses rank start used Traced.literal Parser.literal := by
  refine .peeked (fun token => ?_) (.stop (.unexpected _))
  cases token with
  | string raw width => exact .past .string fun _ => .bind .literalSuffix fun _ => .done rfl
  | _ =>
    dsimp only
    generalize Option.bind _ Parser.plainLiteral? = plain
    cases plain with
    | some text => exact .advanced (.done rfl)
    | none => exact .stop (.unexpected _)

theorem cardinality? : Progresses rank start nothing Traced.cardinality? Parser.cardinality? := by
  refine .peeked (fun token => ?_) (.done rfl)
  cases token with
  | punct sign =>
    cases sign with
    | star | plus | question => exact .advanced (.done rfl)
    | _ => exact .done rfl
  | repeatRange lexeme =>
    exact .looked (.bind (.range lexeme) fun _ => .done _) fun _ =>
      .ite (.advanced (.done rfl)) (.done rfl)
  | _ => exact .done rfl

/-- If a percent sign is known to come next, there is an action, or the reading stops. -/
theorem action? (begun : Bool) (eats : Progresses rank start (fun answer => begun || answer)
      (Traced.eat .percent) (Parser.eat .percent)) :
    Progresses rank start (fun answer => begun || answer.isSome) Traced.action? Parser.action? := by
  refine .after eats (fun _ _ => .ite (.bind .iri fun extension => ?_) (.done rfl))
    fun answer kept => ?_
  · refine .peeked (fun token => ?_) (.stop (.unexpected _))
    cases token with
    | code lexeme => exact .advanced (.done rfl)
    | _ => exact .stop (.unexpected _)
  · obtain ⟨rfl, rfl⟩ := Bool.or_eq_false_iff.mp kept
    exact .done rfl

theorem action : Progresses rank start Option.isSome Traced.action? Parser.action? :=
  action? false (.eatToken _)

theorem actions : Progresses rank start nothing Traced.actions Parser.actions :=
  .bind (.collect .action) fun _ => .done rfl

theorem actions_next : Progresses rank (·.any (· = .punct .percent) = true) (fun _ => true)
    Traced.actions Parser.actions :=
  .past (.collect_begun .action (.action? true (.eatToken_next _))) fun _ => .done rfl

/-! ### Value sets and facets -/

theorem exclusion? : Progresses rank start Option.isSome Traced.exclusion? Parser.exclusion? :=
  .eaten (.bind .iri fun _ => .eaten (.done rfl) (.done rfl)) (.done rfl)

theorem iriRange {used : ValueSetItem → Bool} :
    Progresses rank start used Traced.iriRange Parser.iriRange := by
  have exclusions {rank : Nat} {start : Option Token → Prop} :
      Progresses rank start nothing (Traced.collect Traced.exclusion?)
        (Parser.collect Parser.exclusion?) := .collect .exclusion?
  refine .eaten ?_ ?_
  · exact .bind (.unused (.eatToken _)) fun _ => .bind exclusions fun _ => .done rfl
  · exact .past .iri fun _ => .eaten (.bind exclusions fun _ => .done rfl) (.done rfl)

theorem valueSetItem? :
    Progresses rank start Option.isSome Traced.valueSetItem? Parser.valueSetItem? :=
  .eaten (.done rfl) (.asked _ (.past .literal fun _ => .done rfl)
    (.asked _ (.past .iriRange fun _ => .done rfl) (.stop (.unexpected _))))

theorem valueSet {used : List ValueSetItem → Bool} :
    Progresses rank start used Traced.valueSet Parser.valueSet :=
  .past (.expect _) fun _ => .collect .valueSetItem?

theorem facetValue (argument : Parser.FacetArgument) :
    Progresses rank start nothing (Traced.facetValue argument) (Parser.facetValue argument) := by
  cases argument with
  | string facet => exact .map .string _
  | unsigned facet => exact .map .integer _
  | signed facet => exact .map .integer _

theorem facet? (numeric : Bool) :
    Progresses rank start Option.isSome (Traced.facet? numeric) (Parser.facet? numeric) := by
  refine .peeked (fun token => ?_) (.done rfl)
  cases token with
  | keyword word =>
    dsimp only
    cases Parser.facetArgument? numeric word with
    | some argument => exact .advanced (.bind (.facetValue argument) fun _ => .done rfl)
    | none => exact .done rfl
  | _ => exact .done rfl

theorem facets (kind : NodeKind) :
    Progresses rank start nothing (Traced.facets kind) (Parser.facets kind) := by
  cases kind with
  | blank => exact .done rfl
  | literal | iri | nonLiteral => exact .bind (.collect (.facet? _)) fun _ => .done rfl

/-! ### Shapes and triple expressions -/

theorem clause? : Progresses rank start Option.isSome Traced.clause? Parser.clause? := by
  have labels : Progresses highest Anything nothing
      (Traced.collect (Traced.whenNext Token.isLabel Traced.label))
      (Parser.collect (Parser.whenNext Token.isLabel Parser.label)) :=
    .collect (.whenNext _ .label)
  have predicates : Progresses highest Anything nothing
      (Traced.collect (Traced.whenNext Token.isPredicate Traced.predicate))
      (Parser.collect (Parser.whenNext Token.isPredicate Parser.predicate)) :=
    .collect (.whenNext _ .predicate)
  exact .eaten (.bind .label fun _ => .bind labels fun _ => .done rfl)
    (.eaten (.bind .predicate fun _ => .bind predicates fun _ => .done rfl)
      (.eaten (.done rfl) (.done rfl)))

/-- What is known of the parsers one level deeper: what is between brackets may be any
expression. -/
abbrev Deepens : Option (Traced TripleExpr) → Option (Parser TripleExpr) → Prop :=
  Option.Rel (Progresses highest Anything nothing)

section

variable {inner : Option (Traced TripleExpr)} {inner' : Option (Parser TripleExpr)}
  (deepens : Deepens inner inner')

include deepens

theorem deeper {k : Traced TripleExpr → Traced β} {j : Parser TripleExpr → Parser β}
    (each : ∀ {body body'}, Progresses highest Anything nothing body body' →
      Progresses rank start used' (k body) (j body')) :
    Progresses rank start used' (Traced.deeper inner >>= k) (Parser.deeper inner' >>= j) := by
  cases deepens with
  | none => exact fun _ _ _ _ _ _ _ _ sound => .error sound
  | some body => exact each body

theorem shapeDefinition {used : Shape → Bool} (high : Production.definition.rank ≤ rank) :
    Progresses rank start used (Traced.shapeDefinition inner) (Parser.shapeDefinition inner') :=
  .call .definition high (.deeper deepens fun body => .bind (.collect .clause?) fun _ =>
    .past (.expect _) fun _ => .eaten (.done rfl)
      (.bind body fun _ => .bind (.expect _) fun _ => .done rfl))

theorem shapeOrRef {used : Label → Bool} (high : Production.shapeOrRef.rank ≤ rank) :
    Progresses rank start used (Traced.shapeOrRef inner) (Parser.shapeOrRef inner') := by
  refine .call .shapeOrRef high (.peeked (fun token => ?_) (.stop (.unexpected _)))
  have other : Progresses (Production.shapeOrRef.rank - 1) Something used
      (if (some token).any Token.isDefinition then do
        let shape ← Traced.shapeDefinition inner
        Traced.look (Parser.declareInline shape)
      else Traced.look (Parser.unexpected [.sign .atSign, .shapeDefinition]))
      (if (some token).any Token.isDefinition then
        Parser.shapeDefinition inner' >>= Parser.declareInline
      else Parser.unexpected [.sign .atSign, .shapeDefinition]) :=
    .ite (.past (shapeDefinition deepens (Nat.le_refl _)) fun _ => .look (.declareInline _))
      (.stop (.unexpected _))
  cases token with
  | atPrefixedName space localPart => exact .looked (.expand _ _) fun _ => .advanced (.done rfl)
  | punct sign =>
    cases sign with
    | atSign => exact .advanced .label
    | _ => exact other
  | _ => exact other

theorem shapeRef {used : ShapeRef → Bool} (high : Production.shapeRef.rank ≤ rank) :
    Progresses rank start used (Traced.shapeRef inner) (Parser.shapeRef inner') := by
  have alternative : Progresses highest Anything Option.isSome (Traced.alternative? inner)
      (Parser.alternative? inner') :=
    .eaten (.bind (shapeOrRef deepens (Production.rank_le _)) fun _ => .done rfl) (.done rfl)
  exact .call .shapeRef high (.past (shapeOrRef deepens (Nat.le_refl _)) fun _ =>
    .bind (.collect alternative) fun _ => .done rfl)

theorem valueClass (high : Production.valueClass.rank ≤ rank) :
    Progresses rank start nothing (Traced.valueClass inner) (Parser.valueClass inner') := by
  refine .call .valueClass high (.peeked_as fun token => ?_)
  cases kind : token.bind Token.nodeKind? with
  | some kind' =>
    refine .starting (.advanced (.ite ?_ ?_)) fun _ same => ?_
    · exact .bind (.unused (.whenNext _ (shapeRef deepens (Production.rank_le _)))) fun _ =>
        .bind (.facets _) fun _ => .done rfl
    · exact .bind (.done rfl) fun _ => .bind (.facets _) fun _ => .done rfl
    · rintro rfl
      subst same
      cases kind
  | none =>
    exact .asked _ (.past .iri fun _ => .done rfl) (.asked _ (.past .valueSet fun _ => .done rfl)
      (.eaten (.done rfl) (.asked _ (.past (shapeRef deepens (Nat.le_refl _)) fun _ => .done rfl)
        (.stop (.unexpected _)))))

omit deepens in
theorem annotation? : Progresses rank start Option.isSome Traced.annotation? Parser.annotation? :=
  .eaten (.bind .iri fun _ => .asked _ (.past .iri fun _ => .done rfl)
    (.asked _ (.past .literal fun _ => .done rfl) (.stop (.unexpected _)))) (.done rfl)

omit deepens in
theorem senseFlags : Progresses rank start nothing Traced.senseFlags Parser.senseFlags :=
  .eaten (.bind (.unused (.eatToken _)) fun _ => .done rfl)
    (.eaten (.bind (.unused (.eatToken _)) fun _ => .done rfl) (.done rfl))

theorem tripleConstraint {used : TripleConstraint → Bool}
    (high : Production.constraint.rank ≤ rank) :
    Progresses rank start used (Traced.tripleConstraint inner) (Parser.tripleConstraint inner') :=
  .call .constraint high (.bind .senseFlags fun _ => .past .predicate fun _ =>
    .bind (valueClass deepens (Production.rank_le _)) fun _ =>
      .bind (.collect .annotation?) fun _ => .bind .cardinality? fun _ =>
        .bind .actions fun _ => .done rfl)

theorem parenthesized {used : TripleExpr → Bool} :
    Progresses rank Something used (Traced.parenthesized inner) (Parser.parenthesized inner') :=
  .deeper deepens fun body => .advanced (.bind body fun _ => .bind (.expect _) fun _ =>
    .bind .cardinality? fun _ => .bind .actions fun _ => .done rfl)

theorem unlabelled {used : TripleExpr → Bool}
    (high : Production.constraint.rank ≤ rank) :
    Progresses rank start used (Traced.unlabelled inner) (Parser.unlabelled inner') :=
  .eaten (.bind .label fun _ => .done rfl)
    (.asked _ (.starting (parenthesized deepens) something_of_any)
      (.past (tripleConstraint deepens high) fun _ => .done rfl))

theorem unary {used : TripleExpr → Bool} (high : Production.unary.rank ≤ rank) :
    Progresses rank start used (Traced.unary inner) (Parser.unary inner') :=
  .call .unary high (.required _ _ (.eaten
    (.bind .label fun _ => .bind (unlabelled deepens (Production.rank_le _)) fun _ => .done rfl)
    (unlabelled deepens (Nat.le_refl _))))

theorem group {used : TripleExpr → Bool} (high : Production.group.rank ≤ rank) :
    Progresses rank start used (Traced.group inner) (Parser.group inner') := by
  have member : Progresses highest Anything Option.isSome (Traced.nextMember? inner)
      (Parser.nextMember? inner') :=
    .eaten (.unused (.whenNext _ (unary deepens (Production.rank_le _)))) (.done rfl)
  exact .call .group high (.past (unary deepens (Nat.le_refl _)) fun _ =>
    .bind (.collect member) fun _ => .done rfl)

theorem someOf {used : TripleExpr → Bool} (high : Production.someOf.rank ≤ rank) :
    Progresses rank start used (Traced.someOf inner) (Parser.someOf inner') :=
  .call .someOf high (.past (group deepens (Nat.le_refl _)) fun _ =>
    .bind (.collect (.afterSign? _ (group deepens (Production.rank_le _)))) fun _ => .done rfl)

theorem oneOf {used : TripleExpr → Bool} (high : Production.oneOf.rank ≤ rank) :
    Progresses rank start used (Traced.oneOf inner) (Parser.oneOf inner') :=
  .call .oneOf high (.past (someOf deepens (Nat.le_refl _)) fun _ =>
    .bind (.collect (.afterSign? _ (someOf deepens (Production.rank_le _)))) fun _ => .done rfl)

end

theorem levels (left : Nat) : Deepens (Traced.levels left) (Parser.levels left) := by
  induction left with
  | zero => exact .none
  | succ left ih => exact .some (oneOf ih (Nat.le_refl _))

/-! ### Documents -/

theorem outermost : Deepens Traced.outermost Parser.outermost := levels nestingLimit

theorem baseDeclaration {used : Unit → Bool} :
    Progresses rank Something used Traced.baseDeclaration Parser.baseDeclaration :=
  .advanced (.bind .iriRef fun _ => .look (.declare _))

theorem prefixName {used : String → Bool} :
    Progresses rank start used Traced.prefixName Parser.prefixName := by
  refine .peeked (fun token => ?_) (.stop (.unexpected _))
  cases token with
  | prefixedName space localPart => exact .ite (.advanced (.done rfl)) (.stop (.unexpected _))
  | _ => exact .stop (.unexpected _)

theorem prefixDeclaration {used : Unit → Bool} :
    Progresses rank Something used Traced.prefixDeclaration Parser.prefixDeclaration :=
  .advanced (.bind .prefixName fun _ => .bind .iriRef fun _ => .look (.declare _))

theorem directive? :
    Progresses rank start Option.isSome Traced.directive? Parser.directive? := by
  refine .peeked (fun token => ?_) (.done rfl)
  cases token with
  | keyword word =>
    cases word with
    | base => exact .map .baseDeclaration _
    | prefixes => exact .map .prefixDeclaration _
    | _ => exact .done rfl
  | _ => exact .done rfl

theorem startLabel : Progresses highest start nothing Traced.startLabel Parser.startLabel :=
  .asked _ .label (.asked _ (.shapeOrRef outermost (Production.rank_le _)) (.asked _
    (.past (.shapeDefinition outermost (Production.rank_le _)) fun _ =>
      .bind .actions fun _ => .look (.declareInline _))
    (.stop (.unexpected _))))

theorem startDeclaration {used : Unit → Bool} :
    Progresses rank Something used Traced.startDeclaration Parser.startDeclaration :=
  .advanced (.bind (.expect _) fun _ => .bind .startLabel fun _ => .look (.declare _))

theorem shapeDeclaration {used : Unit → Bool} :
    Progresses highest start used Traced.shapeDeclaration Parser.shapeDeclaration :=
  .bind (.unused (.eatToken _)) fun _ => .required _ _ (.past .label fun _ =>
    .bind (.shapeDefinition outermost (Production.rank_le _)) fun _ =>
      .bind .actions fun _ => .look (.declare _))

theorem statement? :
    Progresses highest start Option.isSome Traced.statement? Parser.statement? := by
  refine .peeked (fun token => ?_) (.done rfl)
  cases token with
  | keyword word =>
    cases word with
    | start => exact .map .startDeclaration _
    | _ => exact .answered .directive? (fun _ => .done rfl) (.map .shapeDeclaration _)
  | _ => exact .answered .directive? (fun _ => .done rfl) (.map .shapeDeclaration _)

theorem startActions : Progresses rank start nothing Traced.startActions Parser.startActions :=
  .asked _ (.round (.past .actions_next fun _ => .look (.declare _))) (.done rfl)

end Progresses

/-! ### Runs -/

/-- What an outcome is without the trace. -/
def untraced : EStateM.Result Problem Trace α → EStateM.Result Problem State α
  | .ok value trace => .ok value trace.state
  | .error problem trace => .error problem trace.state

/-- The trace up to where a reading ends. -/
def traced : EStateM.Result Problem Trace α → Trace
  | .ok _ trace | .error _ trace => trace

theorem Agrees.untraced (agrees : Agrees all before used outcome outcome') :
    Traced.untraced outcome = outcome' := by
  cases agrees <;> rfl

theorem Agrees.sound (agrees : Agrees all before used outcome outcome') :
    Sound all (traced outcome) := by
  cases agrees with
  | ok sound | error sound => exact sound

/-- The first step finds the first token. -/
theorem sound_begun (state : State) :
    Sound state.lexemes ⟨state, [.fetched state.lexemes.head?]⟩ where
  right := List.forall_mem_singleton.mpr trivial
  once := (stream_eq state.lexemes).symm

theorem run_agrees (more : Nat) (context : Context) (state : State) :
    Agrees state.lexemes state.lexemes.length nothing (run more context state)
      (Parser.document context state) := by
  have document : Progresses highest Anything nothing
      (do
        Traced.look Parser.settle
        let _ ← Traced.collect Traced.directive?
        Traced.startActions
        let _ ← Traced.collect Traced.statement?) Parser.document :=
    .bind (.look .settle) fun _ => .bind (.collect .directive?) fun _ =>
      .bind .startActions fun _ => .bind (.collect .statement?) fun _ => .done rfl
  exact document nofun trivial (sound_begun state)

theorem Sound.length_le (sound : Sound all trace) : trace.fetched.length ≤ all.length + 1 := by
  have found : trace.fetched.length ≤ (stream all).length := by
    rw [← sound.once, List.length_append]
    exact Nat.le_add_right ..
  rwa [stream, List.length_append, List.length_map] at found

end Traced

/-- Whatever tokens there are, the parser gets on: each round of a loop uses up a token, and each
call that comes back to a part of the grammar still being read has fewer tokens left than the
earlier one. Loops that are let go on for longer than the tokens demand end all the same, and the
outcome is the same. The steps to the next token find the tokens one after the other and then their
end, so there is at most one more of them than tokens; where a document is read there is exactly
one more. -/
theorem Traced.run_progresses (more : Nat) (context : Context) (state : State) :
    let outcome := run more context state
    untraced outcome = Parser.document context state ∧
    (∀ event ∈ (traced outcome).events, event.Right) ∧
    (traced outcome).fetched ++ (stream (traced outcome).state.lexemes).tail =
      stream state.lexemes ∧
    (traced outcome).fetched.length ≤ state.lexemes.length + 1 ∧
    ∀ stop, outcome = .ok () stop → stop.fetched = stream state.lexemes := by
  have agrees := run_agrees more context state
  refine ⟨agrees.untraced, agrees.sound.right, agrees.sound.once, agrees.sound.length_le, ?_⟩
  intro stop read
  rw [read] at agrees
  have finished : stop.state.lexemes = [] := Reading.document_finishes agrees.untraced.symm
  have once : stop.fetched ++ (stream stop.state.lexemes).tail = stream state.lexemes :=
    agrees.sound.once
  rwa [finished, stream, List.map_nil, List.nil_append, List.tail_cons, List.append_nil] at once

/-- Parentheses come back to what stands around them, and a comma goes on with one more round. -/
theorem Traced.run_progresses_parentheses :
    let text := "<a:s> \x7b (<a:p> . , <a:q> .) \x7d"
    let context : Context :=
      ⟨fun text => Iri.check text.toList, false, Text.width text.toList, none⟩
    let state : State := ⟨(TokenSequence.ofText text.toList).lexemes, Draft.empty⟩
    ∃ stop, run 3 context state = .ok () stop ∧
      (∀ event ∈ stop.events, event.Right) ∧
      .called ⟨.oneOf, 7⟩ [⟨.unary, 8⟩, ⟨.group, 8⟩, ⟨.someOf, 8⟩, ⟨.oneOf, 8⟩,
        ⟨.definition, 9⟩] ∈ stop.events ∧
      .round 5 2 ∈ stop.events ∧
      stop.fetched = stream state.lexemes ∧ stop.fetched.length = 11 := by
  intro text context state
  obtain ⟨same, right, -, -, whole⟩ := run_progresses 3 context state
  have noted : .called ⟨.oneOf, 7⟩ [⟨.unary, 8⟩, ⟨.group, 8⟩, ⟨.someOf, 8⟩, ⟨.oneOf, 8⟩,
        ⟨.definition, 9⟩] ∈ (traced (run 3 context state)).events ∧
      .round 5 2 ∈ (traced (run 3 context state)).events ∧
      (traced (run 3 context state)).fetched.length = 11 := by decide +kernel
  have read : (match run 3 context state with | .ok .. => true | .error .. => false) = true := by
    decide +kernel
  cases outcome : run 3 context state with
  | error problem stop =>
    rw [outcome] at read
    cases read
  | ok value stop =>
    rw [outcome] at noted right
    exact ⟨stop, rfl, right, noted.1, noted.2.1, whole stop outcome, noted.2.2⟩

end ShExCompact
