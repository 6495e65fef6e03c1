import ShExCompact.Proofs.Grammar.Phrase

/-! The first tokens of phrases, part by part: a part that derives no token begins with whatever
follows it. -/
namespace ShExCompact.Reading

open Phrase (exactly many terminal)

variable {g h : Phrase α} {i : α → Phrase β} {follow first : Option Token → Prop}

/-- Every derivation of a phrase is one of another. -/
def Included (phrase other : Phrase α) : Prop :=
  ∀ ⦃context tokens journal value later⦄, phrase.Derives context tokens journal value later →
    other.Derives context tokens journal value later

theorem Included.left : Included g (g <|> h) := fun _ _ _ _ _ derives => .inl derives

theorem Included.right : Included h (g <|> h) := fun _ _ _ _ _ derives => .inr derives

theorem Included.then (included : Included g h) : Included (g >>= i) (h >>= i) := by
  rintro context tokens journal value later ⟨front, rest, inner, middle, rfl, derives, goesOn⟩
  exact ⟨front, rest, inner, middle, rfl, included derives, goesOn⟩

theorem Included.several : Included (Phrase.several g) (many g) := by
  rintro context tokens journal value later
    ⟨front, _, first, middle, rfl, derives, rest, _, others, _, rfl, repeats, rfl, rfl, rfl⟩
  rw [List.append_nil]
  exact .more derives repeats

theorem derives_map {f : α → β} (derives : g.Derives context tokens journal value later) :
    (f <$> g).Derives context tokens journal (f value) later :=
  ⟨tokens, [], value, later, (List.append_nil _).symm, derives, rfl, rfl, rfl⟩

theorem of_derives_map {f : α → β}
    (derives : (f <$> g).Derives context tokens journal result later) :
    ∃ value, result = f value ∧ g.Derives context tokens journal value later := by
  obtain ⟨front, _, value, _, rfl, derives, rfl, rfl, rfl⟩ := derives
  exact ⟨value, rfl, by rwa [List.append_nil]⟩

/-- Another token does not come next. -/
theorem any_eq_false_of_ne {next : Option Token} (other : next ≠ some token) :
    (next.any fun found => decide (found = token)) = false := by
  cases next with
  | none => rfl
  | some found => simpa using other

/-- The token at the beginning of a phrase, or the one after it if it derives none. -/
def Leads (phrase : Phrase α) (follow first : Option Token → Prop) : Prop :=
  ∀ ⦃context tokens journal value later next⦄,
    phrase.Derives context tokens journal value later → follow next →
    first (tokens.head?.or next)

/-- A phrase derives at least one token, the first of which has a property. -/
def Opens (phrase : Phrase α) (property : Token → Prop) : Prop :=
  ∀ ⦃context tokens journal value later⦄, phrase.Derives context tokens journal value later →
    ∃ token rest, tokens = token :: rest ∧ property token

/-- Any token may follow. -/
def Any : Option Token → Prop := fun _ => True

/-- A token with a property comes next. -/
def Starts (property : Token → Prop) : Option Token → Prop
  | some token => property token
  | none => False

theorem Leads.any : Leads g follow Any := fun _ _ _ _ _ _ _ _ => trivial

theorem Starts.imp {other : Token → Prop} (starts : Starts property next)
    (inside : ∀ token, property token → other token) : Starts other next := by
  cases next with
  | none => exact starts
  | some token => exact inside token starts

theorem Opens.starts (opens : Opens g property)
    (inside : ∀ token, property token → first (some token)) : Leads g follow first := by
  intro context tokens journal value later next derives _
  obtain ⟨token, rest, rfl, has⟩ := opens derives
  exact inside token has

theorem Opens.leads (opens : Opens g property) : Leads g follow (Starts property) :=
  opens.starts fun _ has => has

theorem Opens.leads_ne (opens : Opens g property) (other : ¬ property token) :
    Leads g follow (· ≠ some token) := by
  refine opens.starts fun begins has same => ?_
  cases same
  exact other has

theorem Opens.leads_any {decided : Token → Bool} {answer : Bool} (opens : Opens g property)
    (decides : ∀ token, property token → decided token = answer) :
    Leads g follow fun next => next.any decided = answer :=
  opens.starts decides

theorem Opens.of_leads (leads : Leads g (· = none) (Starts property)) : Opens g property := by
  intro context tokens journal value later derives
  have starts := leads derives rfl
  cases tokens with
  | nil => exact starts.elim
  | cons token rest => exact ⟨token, rest, rfl, starts⟩

theorem Opens.imp {other : Token → Prop} (opens : Opens g property)
    (inside : ∀ token, property token → other token) : Opens g other := by
  intro context tokens journal value later derives
  obtain ⟨token, rest, split, has⟩ := opens derives
  exact ⟨token, rest, split, inside token has⟩

theorem Opens.terminal {Means : Context → Draft → Token → α → Prop}
    (means : ∀ context draft token value, Means context draft token value → property token) :
    Opens (terminal Means) property := by
  rintro context tokens journal value later ⟨token, rfl, meaning, -⟩
  exact ⟨token, [], rfl, means _ _ _ _ meaning⟩

theorem Opens.never : Opens (failure : Phrase α) property :=
  fun _ _ _ _ _ impossible => impossible.elim

theorem Opens.exactly (token : Token) : Opens (exactly token) (· = token) :=
  .terminal fun _ _ _ _ same => same

theorem Opens.then (opens : Opens g property) : Opens (g >>= i) property := by
  rintro context tokens journal result later ⟨front, rest, value, middle, rfl, derives, -⟩
  obtain ⟨token, more, rfl, has⟩ := opens derives
  exact ⟨token, more ++ rest, rfl, has⟩

theorem Opens.orElse (left : Opens g property) (right : Opens h property) :
    Opens (g <|> h) property := by
  rintro context tokens journal value later (derives | derives)
  · exact left derives
  · exact right derives

theorem Leads.imp {second : Option Token → Prop} (leads : Leads g follow first)
    (inside : ∀ next, first next → second next) : Leads g follow second :=
  fun _ _ _ _ _ _ derives follows => inside _ (leads derives follows)

theorem Leads.done (inside : ∀ next, follow next → first next) :
    Leads (pure value : Phrase α) follow first := by
  rintro context tokens journal result later next ⟨rfl, -, -⟩ follows
  exact inside _ follows

theorem Leads.bind {between : Option Token → Prop} (leads : Leads g between first)
    (later : ∀ value, Leads (i value) follow between) : Leads (g >>= i) follow first := by
  rintro context tokens journal result last next ⟨front, rest, value, middle, rfl, start, goesOn⟩
    follows
  have head := leads start (later value goesOn follows)
  cases front with
  | nil => exact head
  | cons token front => exact head

/-- A part that decides alone what comes first. -/
theorem Leads.then (leads : Leads g Any first) : Leads (g >>= i) follow first :=
  leads.bind fun _ => .any

theorem Leads.orElse (left : Leads g follow first) (right : Leads h follow first) :
    Leads (g <|> h) follow first := by
  rintro context tokens journal value later next (derives | derives) follows
  · exact left derives follows
  · exact right derives follows

theorem Leads.map {f : α → β} (leads : Leads g follow first) : Leads (f <$> g) follow first := by
  intro context tokens journal result later next derives follows
  obtain ⟨value, -, derives⟩ := of_derives_map derives
  exact leads derives follows

theorem Leads.optional (leads : Leads g follow first) (inside : ∀ next, follow next → first next) :
    Leads (optional g) follow first := .orElse leads.map (.done inside)

theorem Leads.terminal {Means : Context → Draft → Token → α → Prop}
    (means : ∀ context draft token value, Means context draft token value → first (some token)) :
    Leads (terminal Means) follow first := by
  rintro context tokens journal value later next ⟨token, rfl, meaning, -⟩ -
  exact means _ _ _ _ meaning

theorem Leads.exactly (holds : first (some token)) : Leads (exactly token) follow first :=
  .terminal fun _ _ _ _ same => same ▸ holds

theorem Leads.many (leads : Leads g first first) (inside : ∀ next, follow next → first next) :
    Leads (many g) follow first := by
  intro context tokens journal values later next repeats follows
  change g.Repeats context tokens journal values later at repeats
  induction repeats with
  | done => exact inside _ follows
  | @more front journal value middle rest values last start _ ih =>
    have head := leads start ih
    cases front with
    | nil => exact head
    | cons token front => exact head

theorem Leads.silent {act : Journal → Journal}
    {valid : ∀ journal, Journal.Step journal (act journal)}
    (inside : ∀ next, follow next → first next) :
    Leads (Phrase.change act valid) follow first := by
  rintro context tokens journal result later next ⟨rfl, -⟩ follows
  exact inside _ follows

theorem Leads.inPlace (inside : ∀ next, follow next → first next) :
    Leads (Phrase.inPlace shape) follow first := by
  rintro context tokens journal result later next ⟨rfl, -⟩ follows
  exact inside _ follows

end ShExCompact.Reading
