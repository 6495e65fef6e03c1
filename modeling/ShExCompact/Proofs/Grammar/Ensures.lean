import ShExCompact.Proofs.Grammar.Composed

/-! What phrases ensure of their values and of the journal. Each rule follows one way in which
phrases are composed. -/
namespace ShExCompact.Phrase

/-- The values that a phrase derives from tokens of some kind have a property, and a valid journal
stays valid. -/
def Ensures (context : Context) (Shown : Token → Prop) (Valid : Journal → Prop) (g : Phrase α)
    (Good : α → Prop) : Prop :=
  ∀ ⦃tokens journal value later⦄, (∀ token ∈ tokens, Shown token) →
    g.Derives context tokens journal value later → Good value ∧ (Valid journal → Valid later)

namespace Ensures

variable {context : Context} {Shown : Token → Prop} {Valid : Journal → Prop} {g h : Phrase α}
  {i : α → Phrase β} {Good Better : α → Prop} {Good' : β → Prop}

theorem done (good : Good value) : Ensures context Shown Valid (pure value) Good := by
  rintro tokens journal result later - ⟨-, rfl, rfl⟩
  exact ⟨good, id⟩

theorem never : Ensures context Shown Valid (failure : Phrase α) Good :=
  fun _ _ _ _ _ never => never.elim

theorem imp (ensures : Ensures context Shown Valid g Better)
    (weaker : ∀ value, Better value → Good value) : Ensures context Shown Valid g Good := by
  intro tokens journal value later shown derives
  obtain ⟨better, keeps⟩ := ensures shown derives
  exact ⟨weaker value better, keeps⟩

theorem bind (first : Ensures context Shown Valid g Good)
    (later : ∀ value, Good value → Ensures context Shown Valid (i value) Good') :
    Ensures context Shown Valid (g >>= i) Good' := by
  rintro tokens journal result last shown ⟨front, rest, value, middle, rfl, derives, derives'⟩
  obtain ⟨good, keeps⟩ := first (fun token member =>
    shown token (List.mem_append_left rest member)) derives
  obtain ⟨good', keeps'⟩ := later value good (fun token member =>
    shown token (List.mem_append_right front member)) derives'
  exact ⟨good', fun valid => keeps' (keeps valid)⟩

theorem orElse (left : Ensures context Shown Valid g Good)
    (right : Ensures context Shown Valid h Good) : Ensures context Shown Valid (g <|> h) Good := by
  rintro tokens journal value later shown (derives | derives)
  · exact left shown derives
  · exact right shown derives

theorem optional (ensures : Ensures context Shown Valid g Good) :
    Ensures context Shown Valid (optional g) fun value => ∀ inner ∈ value, Good inner := by
  refine .orElse ?_ (.done nofun)
  rw [map_eq_pure_bind]
  refine .bind ensures fun value good => .done ?_
  intro inner held
  cases held
  exact good

theorem many (ensures : Ensures context Shown Valid g Good) :
    Ensures context Shown Valid (many g) fun values => ∀ value ∈ values, Good value := by
  intro tokens journal values later shown repeats
  change g.Repeats context tokens journal values later at repeats
  induction repeats with
  | done => exact ⟨nofun, id⟩
  | @more front _ _ _ rest values _ first _ ih =>
    obtain ⟨good, keeps⟩ := ensures (fun token member =>
      shown token (List.mem_append_left rest member)) first
    obtain ⟨others, keeps'⟩ := ih fun token member =>
      shown token (List.mem_append_right front member)
    exact ⟨List.forall_mem_cons.mpr ⟨good, others⟩, fun valid => keeps' (keeps valid)⟩

/-- A phrase that declares nothing, whatever its value is. -/
theorem silent (composed : Composed (fun _ _ => False) g) :
    Ensures context Shown Valid g fun _ => True := by
  intro tokens journal value later shown derives
  refine ⟨trivial, fun valid => ?_⟩
  rcases (composed.runs derives).cases_head with rfl | ⟨_, never, -⟩
  · exact valid
  · exact never.elim

theorem separated {separator : Phrase Unit} (between : Composed (fun _ _ => False) separator)
    (ensures : Ensures context Shown Valid g Good) :
    Ensures context Shown Valid (separated separator g)
      fun values => values ≠ [] ∧ ∀ value ∈ values, Good value :=
  .bind ensures fun _ first => .bind (.many (.bind (.silent between) fun _ _ => ensures))
    fun _ others => .done ⟨List.cons_ne_nil _ _, List.forall_mem_cons.mpr ⟨first, others⟩⟩

theorem terminal {Means : Context → Draft → Token → α → Prop}
    (good : ∀ {draft token value}, Shown token → Means context draft token value → Good value) :
    Ensures context Shown Valid (terminal Means) Good := by
  rintro tokens journal value later shown ⟨token, rfl, means, rfl⟩
  exact ⟨good (shown token List.mem_cons_self) means, id⟩

theorem change {act : Journal → Journal} {valid : ∀ journal, Journal.Step journal (act journal)}
    (keeps : ∀ {journal}, Valid journal → Valid (act journal)) :
    Ensures context Shown Valid (Phrase.change act valid) fun _ => True := by
  rintro tokens journal value later - ⟨-, rfl⟩
  exact ⟨trivial, keeps⟩

theorem inPlace {shape : Shape}
    (keeps : ∀ {journal}, Valid journal → Valid (journal.inPlace shape)) :
    Ensures context Shown Valid (Phrase.inPlace shape) fun _ => True := by
  rintro tokens journal label later - ⟨-, -, rfl⟩
  exact ⟨trivial, keeps⟩

theorem choose {Holds : α → Prop} (good : ∀ {value}, Holds value → Good value) :
    Ensures context Shown Valid (Phrase.choose Holds) Good := by
  rintro tokens journal value later - ⟨-, holds, rfl⟩
  exact ⟨good holds, id⟩

theorem within {inner : Option (Phrase TripleExpr)} {phrase : Phrase TripleExpr → Phrase α}
    (ensures : ∀ body ∈ inner, Ensures context Shown Valid (phrase body) Good) :
    Ensures context Shown Valid (within inner phrase) Good := by
  cases inner with
  | none => exact .never
  | some body => exact ensures body rfl

end Ensures

end ShExCompact.Phrase
